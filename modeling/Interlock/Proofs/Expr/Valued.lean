import Interlock.Proofs.Expr.Yields

/-! Expressions that have a value in one valuation, whatever they are in another. An operator gives such an
expression where its operands are; a selection already where its condition has a value and the chosen branch is
such an expression, since the other branch is only asked for its width. -/

namespace Interlock.Expr

variable {σ : Valuation} {a b e : Expr}

/-- The width is defined. In this valuation the value is found, and has no bit beyond the width. -/
structure Valued (σ : Valuation) (e : Expr) : Prop where
  sized : e.sized = true
  found : e.evalChecked σ = .ok (e.eval σ)
  lt : (e.eval σ).toNat < 2 ^ e.width

theorem evalChecked_eq {v : Word} (h : e.evalChecked σ = .ok v) : e.evalChecked σ = .ok (e.eval σ) :=
  evalChecked_ok h ▸ h

namespace Valued

theorem of_fits (hsized : e.sized = true) (hfits : e.fits = true) {v : Word} (h : e.evalChecked σ = .ok v) :
    e.Valued σ :=
  ⟨hsized, evalChecked_eq h, eval_lt hfits⟩

theorem yields (h : e.Valued σ) : e.Yields σ (e.eval σ).toNat := ⟨h.found, rfl, h.lt⟩

theorem value_eq (h : e.Valued σ) : e.value σ = e.eval σ := and_mask_of_lt h.lt

theorem constant (v : Word) (w : Nat) : (constant v w).Valued σ := ⟨rfl, rfl, and_mask_lt v w⟩

theorem zero (w : Nat) : (zero w).Valued σ := constant 0 w

theorem resize (h : e.Valued σ) {w : Nat} (hw : w < wordLimit) : (e.resize w).Valued σ := by
  have hyields := h.yields.resize h.sized hw
  exact ⟨sized_resize h.sized hw, hyields.found, hyields.fits⟩

/-- At a width that is large enough the value is as it was. -/
theorem value_resize (h : e.Valued σ) {w : Nat} (hw : e.width ≤ w) : (e.resize w).value σ = e.eval σ := by
  rw [value, width_resize, eval_resize_of_lt h.lt, and_mask_of_lt (and_mask_lt ..),
    and_mask_of_lt (lt_two_pow_of_le h.lt hw)]

theorem binary (op : BinaryOp) (ha : a.Valued σ) (hb : b.Valued σ) : (binary op a b).Valued σ := by
  refine ⟨?_, ?_, ?_⟩
  · rw [Expr.sized, ha.sized, hb.sized, Bool.and_self, Bool.or_true]
  · rw [evalChecked, ensureSized_of ha.sized, ensureSized_of hb.sized, ha.found, hb.found]
    rfl
  · rw [eval, width]
    exact binary_apply_lt op (lt_two_pow_of_le ha.lt (Nat.le_max_left ..))
      (lt_two_pow_of_le hb.lt (Nat.le_max_right ..))

theorem or (ha : a.Valued σ) (hb : b.Valued σ) : (a.or b).Valued σ := by
  unfold Expr.or
  simp only
  split_ifs
  · exact hb
  · exact ha
  · exact constant ..
  · exact ha
  · exact ha.binary .or hb

theorem select {s : Expr} (hs : s.evalChecked σ = .ok (s.eval σ)) (ha : a.sized = true) (hb : b.sized = true)
    (htrue : s.eval σ ≠ 0 → a.Valued σ) (hfalse : s.eval σ = 0 → b.Valued σ) : (select s a b).Valued σ := by
  unfold Expr.select
  split
  · rename_i v hv
    rw [eval_of_asConst hv] at htrue hfalse
    split_ifs with hzero
    · exact htrue hzero
    · exact hfalse (not_not.1 hzero)
  · split_ifs with heq
    · -- Both branches are the chosen one.
      by_cases hzero : s.eval σ = 0
      · exact heq ▸ hfalse hzero
      · exact htrue hzero
    · refine ⟨?_, ?_, ?_⟩
      · rw [Expr.sized, ha, hb, Bool.and_self]
      · rw [evalChecked, hs, eval]
        show (if s.eval σ ≠ 0 then a.evalChecked σ else b.evalChecked σ) = _
        split_ifs with hzero
        · exact (htrue hzero).found
        · exact (hfalse (not_not.1 hzero)).found
      · rw [eval, width]
        split_ifs with hzero
        · exact lt_two_pow_of_le (htrue hzero).lt (Nat.le_max_left ..)
        · exact lt_two_pow_of_le (hfalse (not_not.1 hzero)).lt (Nat.le_max_right ..)

end Valued

end Interlock.Expr
