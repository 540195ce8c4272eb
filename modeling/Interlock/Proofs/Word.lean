import Interlock.Word
import Mathlib.Algebra.Group.Nat.Defs
import Mathlib.Tactic.Common

/-! Words as numbers: a mask takes the remainder by a power of two, and the low bit of a word is what
a single-bit signal carries. -/

namespace Interlock

theorem toNat_mask (w : Nat) : (mask w).toNat = 2 ^ min w 64 - 1 := by
  unfold mask
  split
  · rename_i h
    have hw : 2 ^ w < 2 ^ 64 := Nat.pow_lt_pow_right (by decide) h
    rw [UInt64.toNat_ofNat', Nat.one_shiftLeft, Nat.min_eq_left (by omega)]
    exact Nat.mod_eq_of_lt (by omega)
  · rename_i h
    rw [Nat.min_eq_right (by omega)]
    rfl

theorem lt_two_pow_of_le {x w w' : Nat} (h : x < 2 ^ w) (hw : w ≤ w') : x < 2 ^ w' :=
  Nat.lt_of_lt_of_le h (Nat.pow_le_pow_right (by decide) hw)

/-- Cutting a word to `w` bits. -/
theorem toNat_and_mask (v : Word) (w : Nat) : (v &&& mask w).toNat = v.toNat % 2 ^ w := by
  have hv : v.toNat < 2 ^ 64 := v.toNat_lt
  rw [UInt64.toNat_and, toNat_mask, Nat.and_two_pow_sub_one_eq_mod]
  rcases Nat.le_total w 64 with h | h
  · rw [Nat.min_eq_left h]
  · have hw : 2 ^ 64 ≤ 2 ^ w := Nat.pow_le_pow_right (by decide) h
    rw [Nat.min_eq_right h, Nat.mod_eq_of_lt hv, Nat.mod_eq_of_lt (by omega)]

theorem and_mask_of_lt {v : Word} {w : Nat} (h : v.toNat < 2 ^ w) : v &&& mask w = v := by
  rw [← UInt64.toNat_inj, toNat_and_mask, Nat.mod_eq_of_lt h]

theorem and_mask_lt (v : Word) (w : Nat) : (v &&& mask w).toNat < 2 ^ w := by
  rw [toNat_and_mask]
  exact Nat.mod_lt _ (Nat.two_pow_pos w)

/-- The low bit of a word. -/
def lowBit (v : Word) : Bool := v.toNat.testBit 0

theorem lowBit_eq (v : Word) : lowBit v = decide (v.toNat % 2 = 1) := by
  rw [lowBit, Nat.testBit_zero]

@[simp] theorem lowBit_zero : lowBit 0 = false := rfl

@[simp] theorem lowBit_one : lowBit 1 = true := rfl

@[simp] theorem lowBit_and (a b : Word) : lowBit (a &&& b) = (lowBit a && lowBit b) := by
  simp [lowBit]

@[simp] theorem lowBit_or (a b : Word) : lowBit (a ||| b) = (lowBit a || lowBit b) := by
  simp [lowBit]

@[simp] theorem lowBit_not (a : Word) : lowBit (~~~a) = !lowBit a := by
  have hodd : (~~~a).toNat % 2 = 1 ↔ ¬ a.toNat % 2 = 1 := by
    have ha := a.toNat_lt
    have hsize : UInt64.size = 2 ^ 64 := rfl
    rw [UInt64.toNat_not]
    omega
  rw [lowBit_eq, lowBit_eq, decide_eq_decide.2 hodd, decide_not]

@[simp] theorem lowBit_mask {w : Nat} (h : 0 < w) : lowBit (mask w) = true := by
  rw [lowBit, toNat_mask, Nat.testBit_two_pow_sub_one]
  simp only [decide_eq_true_eq]
  omega

@[simp] theorem lowBit_toUInt64 (b : Bool) : lowBit b.toUInt64 = b := by cases b <;> rfl

@[simp] theorem toUInt64_eq_one {b : Bool} : b.toUInt64 = 1 ↔ b = true := by cases b <;> decide

/-- A single bit is one exactly where its low bit is set. -/
theorem and_mask_one_eq (v : Word) : v &&& mask 1 = (lowBit v).toUInt64 := by
  rw [← UInt64.toNat_inj, toNat_and_mask, lowBit_eq]
  rcases Nat.mod_two_eq_zero_or_one v.toNat with h | h
  · simp only [Nat.pow_one, h]
    rfl
  · simp only [Nat.pow_one, h]
    rfl

theorem lowBit_of_lt_two {v : Word} (h : v.toNat < 2) : lowBit v = true ↔ v ≠ 0 := by
  rw [lowBit_eq, decide_eq_true_eq, ne_eq, ← UInt64.toNat_inj, UInt64.toNat_zero]
  omega

end Interlock
