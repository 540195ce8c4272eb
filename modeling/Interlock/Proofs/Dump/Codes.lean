import Interlock.Simulation.Vcd
import Mathlib.Logic.Function.Iterate
import Mathlib.Tactic.Common

/-! Identifier codes of variables. Each digit tells its value, and after the last digit nothing is left to tell, so the
position of a variable can be read back from its code. A code is finished, since the number that is left falls with
every digit. -/

namespace Interlock.VcdRecorder

theorem idCode_ne_nil (n : Nat) : idCode n ≠ [] := by
  rw [idCode]
  exact List.cons_ne_nil _ _

/-- The digits are the characters from `!` to `~`. -/
theorem toNat_digit (n : Nat) : (Char.ofNat (33 + n % 94)).toNat = 33 + n % 94 := by
  have hall : ∀ k < 94, (Char.ofNat (33 + k)).toNat = 33 + k := by decide
  exact hall _ (Nat.mod_lt _ (by decide))

theorem mem_idCode {n : Nat} {c : Char} (h : c ∈ idCode n) : '!' ≤ c ∧ c ≤ '~' := by
  induction n using Nat.strongRecOn with
  | _ n ih =>
    rw [idCode, List.mem_cons] at h
    rcases h with rfl | h
    · have hdigit := toNat_digit n
      have hlow : '!'.toNat = 33 := rfl
      have hhigh : '~'.toNat = 126 := rfl
      rw [Char.le_def, Char.le_def, UInt32.le_iff_toNat_le, UInt32.le_iff_toNat_le]
      change '!'.toNat ≤ (Char.ofNat (33 + n % 94)).toNat ∧ (Char.ofNat (33 + n % 94)).toNat ≤ '~'.toNat
      omega
    · split at h
      · cases h
      · exact ih (n / 94 - 1) (by omega) h

/-- Different positions have different codes. -/
theorem idCode_injective : Function.Injective idCode := by
  intro m
  induction m using Nat.strongRecOn with
  | _ m ih =>
    intro n h
    rw [idCode, idCode.eq_1 n] at h
    obtain ⟨hdigit, hrest⟩ := List.cons.inj h
    have hmod : m % 94 = n % 94 := by
      have := congrArg Char.toNat hdigit
      rw [toNat_digit, toNat_digit] at this
      omega
    split at hrest <;> split at hrest
    · omega
    · exact absurd hrest.symm (idCode_ne_nil _)
    · exact absurd hrest (idCode_ne_nil _)
    · have := ih (m / 94 - 1) (by omega) hrest
      omega

/-! ### Writing a code -/

/-- A code that is being written: the characters so far, and the number whose digits are still to come, if any are. -/
structure Writing where
  written : List Char
  left : Option Nat

namespace Writing

/-- One digit more. Behind it comes the quotient less one, as there is no digit zero in a bijective numeration. -/
def next : Writing → Writing
  | ⟨cs, some n⟩ => ⟨cs ++ [Char.ofNat (33 + n % 94)], if n / 94 = 0 then none else some (n / 94 - 1)⟩
  | ⟨cs, none⟩ => ⟨cs, none⟩

/-- The writing ends, after as many digits as the code has. -/
theorem next_iterate (n : Nat) (cs : List Char) : next^[(idCode n).length] ⟨cs, some n⟩ = ⟨cs ++ idCode n, none⟩ := by
  induction n using Nat.strongRecOn generalizing cs with
  | _ n ih =>
    rw [idCode, List.length_cons, Function.iterate_succ_apply, next]
    split
    · rfl
    · rw [ih (n / 94 - 1) (by omega), List.append_assoc]
      rfl

end Writing

/-- Variables at different positions have different codes. Every code is finished digit by digit, is not empty,
and has only printable characters. -/
theorem codes_never_clash {i j : Nat} (h : i ≠ j) :
    idCode i ≠ idCode j ∧ ∀ n, (∃ rounds, Writing.next^[rounds] ⟨[], some n⟩ = ⟨idCode n, none⟩) ∧
      idCode n ≠ [] ∧ ∀ c ∈ idCode n, '!' ≤ c ∧ c ≤ '~' := by
  refine ⟨idCode_injective.ne h, fun n => ?_⟩
  have hfinished : Writing.next^[(idCode n).length] ⟨[], some n⟩ = ⟨idCode n, none⟩ := Writing.next_iterate n []
  exact ⟨⟨_, hfinished⟩, idCode_ne_nil n, fun _ hc => mem_idCode hc⟩

/-- The last code of two characters, and the first of three. -/
theorem codes_never_clash_of_longer :
    8929 ≠ 8930 ∧ idCode 8929 = ['~', '~'] ∧ idCode 8930 = ['!', '!', '!'] ∧ idCode 8929 ≠ idCode 8930 ∧
      ∃ rounds, Writing.next^[rounds] ⟨[], some 8930⟩ = ⟨['!', '!', '!'], none⟩ := by
  have hlast : idCode 8929 = ['~', '~'] := by simp [idCode]
  have hfirst : idCode 8930 = ['!', '!', '!'] := by simp [idCode]
  obtain ⟨hne, hall⟩ := codes_never_clash (show 8929 ≠ 8930 by decide)
  exact ⟨by decide, hlast, hfirst, hne, hfirst ▸ (hall 8930).1⟩

end Interlock.VcdRecorder
