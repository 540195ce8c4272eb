import Interlock.Expr.Eval
import Interlock.Proofs.Expr.Width
import Interlock.Proofs.Word

/-! The low bit of an expression as a truth value. The folding constructors carry it as the logical
operators they are named for, also on operands with bits beyond their widths: nothing is asked of the
expressions that a design brings. -/

namespace Interlock.Expr

variable {σ : Valuation}

/-- Whether an expression holds: the low bit of its value. -/
def truth (σ : Valuation) (e : Expr) : Bool := lowBit (e.eval σ)

theorem eval_of_asConst {e : Expr} {v : Word} (h : e.asConst = some v) : e.eval σ = v := by
  rw [eq_const_of_asConst h, eval]

theorem eval_of_isConstZero {e : Expr} (h : e.isConstZero = true) : e.eval σ = 0 := by
  simp only [isConstZero, beq_iff_eq] at h
  exact eval_of_asConst h

theorem eval_of_isConstOnes {e : Expr} (h : e.isConstOnes = true) : e.eval σ = mask e.width := by
  simp only [isConstOnes, beq_iff_eq] at h
  exact eval_of_asConst h

@[simp] theorem eval_constant (v : Word) (w : Nat) : (constant v w).eval σ = v &&& mask w := by
  simp only [constant, eval]

@[simp] theorem eval_zero (w : Nat) : (zero w).eval σ = 0 := by
  simp [zero]

theorem place_zero_word (offset : Nat) : place 0 offset = 0 := by
  unfold place
  split <;> simp

theorem place_zero (v : Word) : place v 0 = v := by
  simp [place]

theorem eval_select (sel onTrue onFalse : Expr) :
    (select sel onTrue onFalse).eval σ =
      if sel.eval σ ≠ 0 then onTrue.eval σ else onFalse.eval σ := by
  unfold select
  split
  · rename_i v h
    rw [eval_of_asConst h]
    split <;> rfl
  · split_ifs with h₁ h₂ h₃
    · rfl
    · rw [h₁]
    · rw [eval, if_pos h₃]
    · rw [eval, if_neg h₃]

@[simp] theorem truth_bit (b : Bool) : (bit b).truth σ = b := by
  rw [truth, bit, eval_constant, lowBit_and, lowBit_toUInt64, lowBit_mask Nat.one_pos, Bool.and_true]

@[simp] theorem truth_one : one.truth σ = true := truth_bit true

theorem truth_signal {i w : Nat} (hw : 0 < w) : (signal i w).truth σ = lowBit (σ i) := by
  rw [truth, eval, lowBit_and, lowBit_mask hw, Bool.and_true]

theorem lowBit_cut (v : Word) {high : Nat} : lowBit (cut v high 0) = lowBit v := by
  simp [cut]

theorem truth_resize {w : Nat} (hw : 0 < w) (e : Expr) : (e.resize w).truth σ = e.truth σ := by
  unfold resize
  split_ifs with h₁ h₂ h₃
  · rfl
  · omega
  · unfold bits
    split
    · rfl
    · rw [truth, eval, lowBit_cut, truth]
  · cases h : e.asConst with
    | some v =>
      rw [truth, truth, eval_constant, lowBit_and, lowBit_mask hw, Bool.and_true, eval_of_asConst h]
    | none =>
      have hz : (zero (w - e.width)).eval σ = 0 := eval_zero _
      simp only [truth, eval, evalParts, hz, place_zero, place_zero_word, UInt64.or_zero]

theorem truth_binary_and (a b : Expr) : (binary .and a b).truth σ = (a.truth σ && b.truth σ) := by
  rw [truth, eval, BinaryOp.apply, lowBit_and, truth, truth]

@[simp] theorem truth_and (a b : Expr) : (a.and b).truth σ = (a.truth σ && b.truth σ) := by
  have zero_ones : ∀ {e : Expr}, e.isConstOnes = true → ¬ e.isConstZero = true → 0 < e.width := by
    intro e ho hz
    by_contra hw
    have hw : e.width = 0 := by omega
    simp only [isConstOnes, isConstZero, beq_iff_eq, hw] at ho hz
    exact hz ho
  unfold and
  simp only
  split_ifs with hz ha hb he
  · rw [Bool.or_eq_true] at hz
    rcases hz with hz | hz
    · simp only [truth, eval_of_isConstZero hz, eval_zero, lowBit_zero, Bool.false_and]
    · simp only [truth, eval_of_isConstZero hz, eval_zero, lowBit_zero, Bool.and_false]
  · simp only [Bool.and_eq_true, beq_iff_eq, Bool.or_eq_true, not_or] at ha hz
    have hw := zero_ones ha.1 hz.1
    have ht : a.truth σ = true := by rw [truth, eval_of_isConstOnes ha.1, lowBit_mask hw]
    rw [ht, Bool.true_and, truth_resize (by omega)]
  · simp only [Bool.and_eq_true, beq_iff_eq, Bool.or_eq_true, not_or] at hb hz
    have hw := zero_ones hb.1 hz.2
    have ht : b.truth σ = true := by rw [truth, eval_of_isConstOnes hb.1, lowBit_mask hw]
    rw [ht, Bool.and_true, truth_resize (by omega)]
  · rw [he, Bool.and_self]
  · exact truth_binary_and a b

@[simp] theorem truth_or (a b : Expr) : (a.or b).truth σ = (a.truth σ || b.truth σ) := by
  unfold or
  simp only
  split_ifs with ha hb ho he
  · simp only [Bool.and_eq_true] at ha
    simp only [truth, eval_of_isConstZero ha.1, lowBit_zero, Bool.false_or]
  · simp only [Bool.and_eq_true] at hb
    simp only [truth, eval_of_isConstZero hb.1, lowBit_zero, Bool.or_false]
  · -- All ones of width 0 are zero, and then one of the first two cases applies.
    have ones : ∀ {e : Expr}, e.isConstOnes = true → 0 < e.width → e.truth σ = true := by
      intro e h hw
      rw [truth, eval_of_isConstOnes h, lowBit_mask hw]
    have zero : ∀ {e : Expr}, e.isConstOnes = true → e.width = 0 → e.isConstZero = true := by
      intro e h hw
      simp only [isConstOnes, isConstZero, beq_iff_eq, hw] at h ⊢
      exact h
    simp only [Bool.and_eq_true, decide_eq_true_eq, not_and, Bool.or_eq_true, beq_iff_eq] at ha hb ho
    rw [truth, eval_constant, lowBit_and, lowBit_mask (by decide), Bool.true_and]
    rcases ho with ⟨h, hw⟩ | ⟨h, hw⟩
    · rcases Nat.eq_zero_or_pos a.width with hw' | hw'
      · exact absurd (ha (zero h hw')) (by omega)
      · rw [ones h hw', lowBit_mask (by omega), Bool.true_or]
    · rcases Nat.eq_zero_or_pos b.width with hw' | hw'
      · exact absurd (hb (zero h hw')) (by omega)
      · rw [ones h hw', lowBit_mask (by omega), Bool.or_true]
  · rw [he, Bool.or_self]
  · rw [truth, eval, BinaryOp.apply, lowBit_or, truth, truth]

theorem truth_unary_not {e : Expr} (hw : 0 < e.width) : (unary .not e).truth σ = !e.truth σ := by
  rw [truth, eval, UnaryOp.apply, lowBit_and, lowBit_not, lowBit_mask hw, Bool.and_true, truth]

theorem truth_not {e : Expr} (hw : 0 < e.width) : e.not.truth σ = !e.truth σ := by
  unfold not
  split
  · rename_i v w
    have hw : 0 < w := hw
    rw [truth, eval_constant, lowBit_and, lowBit_not, lowBit_mask hw, Bool.and_true, truth, eval]
  · rename_i e
    rw [truth_unary_not (by simpa [width, UnaryOp.isReduction] using hw), Bool.not_not]
  · exact truth_unary_not hw

theorem truth_foldl_or (items : List Expr) (e : Expr) :
    (items.foldl or e).truth σ = (e.truth σ || items.any (truth σ)) := by
  induction items generalizing e with
  | nil => simp
  | cons x xs ih => rw [List.foldl_cons, ih, truth_or, List.any_cons, Bool.or_assoc]

@[simp] theorem truth_any (items : List Expr) : (any items).truth σ = items.any (truth σ) := by
  rw [any, truth_foldl_or, truth_bit, Bool.false_or]

theorem truth_foldl_and (items : List Expr) (e : Expr) :
    (items.foldl and e).truth σ = (e.truth σ && items.all (truth σ)) := by
  induction items generalizing e with
  | nil => simp
  | cons x xs ih => rw [List.foldl_cons, ih, truth_and, List.all_cons, Bool.and_assoc]

@[simp] theorem truth_all (items : List Expr) : (all items).truth σ = items.all (truth σ) := by
  rw [all, truth_foldl_and, truth_one, Bool.true_and]

end Interlock.Expr
