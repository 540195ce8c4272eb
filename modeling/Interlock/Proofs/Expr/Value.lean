import Interlock.Proofs.Expr.Fits

/-! Values of expressions at their widths. Constants may come with bits beyond their widths, which no
signal ever carries: at the width of an expression they do not count. -/

namespace Interlock.Expr

variable {σ : Valuation}

/-- The value of an expression at its width: what a signal of this width would carry. -/
def value (σ : Valuation) (e : Expr) : Word := e.eval σ &&& mask e.width

theorem value_eq_eval {e : Expr} (h : e.fits = true) : e.value σ = e.eval σ := and_mask_of_lt (eval_lt h)

theorem value_lt (e : Expr) : (e.value σ).toNat < 2 ^ e.width := and_mask_lt ..

theorem value_eq_truth {e : Expr} (hw : e.width = 1) : e.value σ = (e.truth σ).toUInt64 := by
  rw [value, hw, and_mask_one_eq, truth]

/-- A single bit is not zero exactly where it holds. -/
theorem value_ne_zero_iff {e : Expr} (hw : e.width = 1) : e.value σ ≠ 0 ↔ e.truth σ = true := by
  rw [value_eq_truth hw]
  cases e.truth σ <;> decide

@[simp] theorem value_zero (w : Nat) : (zero w).value σ = 0 := by
  rw [value, eval_zero, UInt64.zero_and]

theorem mask_and_mask (w : Nat) : mask 64 &&& mask w = mask w := by
  rw [UInt64.and_comm]
  apply and_mask_of_lt
  exact (mask w).toNat_lt

theorem or_and_mask (a b : Word) (w : Nat) : (a ||| b) &&& mask w = (a &&& mask w) ||| (b &&& mask w) := by
  apply UInt64.toNat_inj.1
  simp only [UInt64.toNat_and, UInt64.toNat_or, Nat.and_or_distrib_right]

/-- A value of so many bits adds nothing to a mask. -/
theorem mask_or {v : Word} {w : Nat} : mask w ||| (v &&& mask w) = mask w := by
  apply UInt64.toNat_inj.1
  apply Nat.eq_of_testBit_eq
  intro i
  simp only [UInt64.toNat_and, UInt64.toNat_or, Nat.testBit_or, Nat.testBit_and]
  cases (mask w).toNat.testBit i <;> simp

theorem value_or {a b : Expr} (hw : a.width = b.width) : (a.or b).value σ = a.value σ ||| b.value σ := by
  unfold or
  simp only [hw, Nat.max_self, Nat.le_refl, decide_true, Bool.and_true, beq_self_eq_true]
  split_ifs with ha hb ho he
  · rw [value, value, eval_of_isConstZero ha, UInt64.zero_and, UInt64.zero_or]
  · rw [value, value, eval_of_isConstZero hb, UInt64.zero_and, UInt64.or_zero]
  · rw [value, value, value, width_constant, eval_constant, hw, mask_and_mask, UInt64.and_self]
    rcases Bool.or_eq_true _ _ ▸ ho with h | h
    · rw [eval_of_isConstOnes h, hw, UInt64.and_self, mask_or]
    · rw [eval_of_isConstOnes h, UInt64.and_self, UInt64.or_comm, mask_or]
  · rw [he, UInt64.or_self]
  · rw [value, value, value, eval, BinaryOp.apply, width, BinaryOp.isComparison, if_neg Bool.false_ne_true, hw,
      Nat.max_self, or_and_mask]

@[simp] theorem width_add (a b : Expr) : (a.add b).width = max a.width b.width := rfl

theorem toNat_value_add {a b : Expr} {w : Nat} (ha : a.width = w) (hb : b.width = w) (hw : w ≤ 64) :
    ((a.add b).value σ).toNat = ((a.value σ).toNat + (b.value σ).toNat) % 2 ^ w := by
  have hdvd : 2 ^ w ∣ 2 ^ 64 := Nat.pow_dvd_pow 2 hw
  rw [value, value, value, width_add, add, eval, BinaryOp.apply, ha, hb, Nat.max_self]
  simp only [toNat_and_mask, UInt64.toNat_add, Nat.mod_mod, Nat.mod_mod_of_dvd _ hdvd, Nat.add_mod_mod,
    Nat.mod_add_mod]

theorem width_select {t f : Expr} (hw : t.width = f.width) (c : Expr) : (select c t f).width = f.width := by
  unfold select
  split
  · split
    · exact hw
    · rfl
  · split
    · exact hw
    · rw [width, hw, Nat.max_self]

theorem value_select {t f : Expr} (hw : t.width = f.width) (c : Expr) :
    (select c t f).value σ = if c.eval σ ≠ 0 then t.value σ else f.value σ := by
  rw [value, width_select hw, eval_select]
  split
  · rw [value, hw]
  · rw [value]

theorem resize_of_width {e : Expr} {w : Nat} (h : e.width = w) : e.resize w = e := by
  rw [resize, if_pos h]

theorem value_resize_zero (w : Nat) : ((zero 0).resize w).value σ = 0 := by
  cases w with
  | zero => exact value_zero 0
  | succ w => exact value_zero (w + 1)

/-- A signal and a bit are together one where both hold, else zero. -/
theorem eval_signal_and {i : SignalId} {e : Expr} (hw : e.width = 1) :
    ((signal i 1).and e).eval σ ≠ 0 ↔ lowBit (σ i) = true ∧ e.truth σ = true := by
  have hbit : ∀ v : Word, (v &&& mask 1).toNat < 2 ^ 1 := fun v => and_mask_lt v 1
  have hlt : (((signal i 1).and e).eval σ).toNat < 2 := by
    unfold and
    simp only [width, hw]
    split_ifs
    · rw [eval_zero]
      decide
    · rename_i h
      cases h
    · exact hbit _
    · exact hbit _
    · rw [eval, BinaryOp.apply, UInt64.toNat_and]
      exact Nat.lt_of_le_of_lt Nat.and_le_left (hbit _)
  rw [← lowBit_of_lt_two hlt]
  show truth σ _ = true ↔ _
  rw [truth_and, truth_signal Nat.one_pos, Bool.and_eq_true]

end Interlock.Expr
