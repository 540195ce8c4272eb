import Interlock.Expr.Checked
import Interlock.Proofs.Expr.Closed

/-! Expressions all of whose parts have a width. Asking for the width of such an expression, or for its value,
meets no fault; and what is folded from them, or put in the place of signals in them, is one again. -/

namespace Interlock.Expr

mutual
/-- Whether every part has a width, and one that fits 32 bits. -/
def defined : Expr → Bool
  | const _ w | signal _ w => decide (w < wordLimit)
  | unary _ e => e.defined
  | binary _ a b => a.defined && b.defined
  | mux s t f => s.defined && t.defined && f.defined
  | slice b high low => b.defined && (decide (low ≤ high) && decide (high + 1 - low < wordLimit))
  | concat ps => allDefined ps && decide (totalWidth ps < wordLimit)

def allDefined : List Expr → Bool
  | [] => true
  | p :: ps => p.defined && allDefined ps
end

/-- The same as a proposition. -/
abbrev Defined (e : Expr) : Prop := e.defined = true

theorem allDefined_iff {ps : List Expr} : allDefined ps = true ↔ ∀ p ∈ ps, p.Defined := by
  induction ps with
  | nil => simp [allDefined]
  | cons p ps ih => simp [allDefined, ih]

theorem allSized_iff {ps : List Expr} : allSized ps = true ↔ ∀ p ∈ ps, p.sized = true := by
  induction ps with
  | nil => simp [allSized]
  | cons p ps ih => simp [allSized, ih]

theorem Defined.sized {e : Expr} (h : e.Defined) : e.sized = true := by
  induction e with
  | const v w => rfl
  | signal i w => rfl
  | unary op e ih => simp only [Expr.sized, ih h, Bool.or_true]
  | binary op a b iha ihb =>
    simp only [Defined, defined, Bool.and_eq_true] at h
    simp only [Expr.sized, iha h.1, ihb h.2, Bool.and_self, Bool.or_true]
  | mux s t f ihs iht ihf =>
    simp only [Defined, defined, Bool.and_eq_true] at h
    simp only [Expr.sized, iht h.1.2, ihf h.2, Bool.and_self]
  | slice b high low ih =>
    simp only [Defined, defined, Bool.and_eq_true] at h
    simp only [Expr.sized, h.2.1, h.2.2, Bool.and_self]
  | concat ps ih =>
    simp only [Defined, defined, Bool.and_eq_true] at h
    rw [Expr.sized, h.2, allSized_iff.2 fun p hp => ih p hp (allDefined_iff.1 h.1 p hp), Bool.and_self]

theorem Defined.width_lt {e : Expr} (h : e.Defined) : e.width < wordLimit := by
  induction e with
  | const v w => exact of_decide_eq_true h
  | signal i w => exact of_decide_eq_true h
  | unary op e ih =>
    rw [width]
    split
    · decide
    · exact ih h
  | binary op a b iha ihb =>
    simp only [Defined, defined, Bool.and_eq_true] at h
    rw [width]
    split
    · decide
    · exact max_rec' (· < wordLimit) (iha h.1) (ihb h.2)
  | mux s t f _ iht ihf =>
    simp only [Defined, defined, Bool.and_eq_true] at h
    exact max_rec' (· < wordLimit) (iht h.1.2) (ihf h.2)
  | slice b high low _ =>
    simp only [Defined, defined, Bool.and_eq_true] at h
    exact of_decide_eq_true h.2.2
  | concat ps _ =>
    simp only [Defined, defined, Bool.and_eq_true] at h
    exact of_decide_eq_true h.2

theorem closed_defined : Closed Defined (· < wordLimit) := by
  refine ⟨by decide, fun v w hw hle => Nat.lt_of_le_of_lt hle hw, fun e he => he.width_lt,
    fun _ _ hw => decide_eq_true hw, fun _ _ he => he, fun _ he => he, fun _ a b ha hb => ?_,
    fun s t f hs ht hf => ?_, fun e high low he hle hw => ?_, fun ps hps hw => ?_⟩
  · rw [Defined, defined, ha, hb, Bool.and_self]
  · rw [Defined, defined, hs, ht, hf, Bool.and_self, Bool.and_self]
  · rw [Defined, defined, he, decide_eq_true hle, decide_eq_true hw, Bool.and_self, Bool.and_self]
  · rw [Defined, defined, allDefined_iff.2 hps, decide_eq_true hw, Bool.and_self]

theorem defined_substitute {f : SignalId → Option Expr} (hf : ∀ i r, f i = some r → r.Defined) {e : Expr}
    (h : e.Defined) : (e.substitute f).Defined := by
  induction e with
  | const v w => exact h
  | signal i w =>
    rw [substitute]
    cases hi : f i with
    | none => exact h
    | some r => exact closed_defined.resize (hf i r hi) (of_decide_eq_true h)
  | unary op e ih => exact ih h
  | binary op a b iha ihb =>
    simp only [Defined, defined, Bool.and_eq_true] at h
    exact closed_defined.binary op _ _ (iha h.1) (ihb h.2)
  | mux s t e ihs iht ihe =>
    simp only [Defined, defined, Bool.and_eq_true] at h
    exact closed_defined.mux _ _ _ (ihs h.1.1) (iht h.1.2) (ihe h.2)
  | slice b high low ih =>
    simp only [Defined, defined, Bool.and_eq_true, decide_eq_true_eq] at h
    exact closed_defined.slice _ _ _ (ih h.1) h.2.1 h.2.2
  | concat ps ih =>
    -- The width of the whole is as before, since each part keeps its width.
    have hw := h.width_lt
    rw [← width_substitute f] at hw
    simp only [Defined, defined, Bool.and_eq_true, allDefined_iff] at h
    refine closed_defined.concat _ (fun p hp => ?_) hw
    have hall := h.1
    clear h hw
    induction ps with
    | nil => cases hp
    | cons q qs ihs =>
      rcases List.mem_cons.1 hp with rfl | hp
      · exact ih q (List.mem_cons_self ..) (hall q (List.mem_cons_self ..))
      · exact ihs (fun r hr => ih r (List.mem_cons_of_mem _ hr)) hp fun r hr => hall r (List.mem_cons_of_mem _ hr)

/-! ### Values -/

theorem ensureSized_iff {e : Expr} : e.ensureSized = .ok () ↔ e.sized = true := by
  unfold ensureSized
  split <;> simp [*]

theorem ensureSized_of {e : Expr} (h : e.sized = true) : e.ensureSized = .ok () := ensureSized_iff.2 h

theorem forM_ensureSized {items : List Expr} (h : ∀ e ∈ items, e.sized = true) : items.forM ensureSized = .ok () := by
  induction items with
  | nil => rfl
  | cons x xs ih =>
    show (x.ensureSized >>= fun _ => xs.forM ensureSized) = _
    rw [ensureSized_of (h x (List.mem_cons_self ..))]
    exact ih fun e he => h e (List.mem_cons_of_mem _ he)

theorem evalPartsChecked_defined {σ : Valuation} {ps : List Expr} (h : ∀ p ∈ ps, p.evalChecked σ = .ok (p.eval σ)) :
    ∀ offset, evalPartsChecked σ ps offset = .ok (evalParts σ ps offset) := by
  induction ps with
  | nil => exact fun _ => rfl
  | cons p ps ih =>
    intro offset
    have htail := ih (fun q hq => h q (List.mem_cons_of_mem _ hq)) (offset + p.width)
    rw [evalPartsChecked, evalParts, htail, h p (List.mem_cons_self ..)]
    split
    · rfl
    · rename_i ho
      simp only [place, if_neg ho]
      rfl

/-- The value of such an expression is found. -/
theorem Defined.evalChecked {σ : Valuation} {e : Expr} (h : e.Defined) : e.evalChecked σ = .ok (e.eval σ) := by
  induction e with
  | const v w => rfl
  | signal i w => rfl
  | unary op e ih =>
    have he : e.Defined := h
    rw [Expr.evalChecked, ensureSized_of he.sized, ih he]
    rfl
  | binary op a b iha ihb =>
    simp only [Defined, defined, Bool.and_eq_true] at h
    obtain ⟨ha, hb⟩ := h
    rw [Expr.evalChecked, ensureSized_of (Defined.sized ha), ensureSized_of (Defined.sized hb), iha ha, ihb hb]
    rfl
  | mux s t f ihs iht ihf =>
    simp only [Defined, defined, Bool.and_eq_true] at h
    rw [Expr.evalChecked, ihs h.1.1, eval]
    show (if s.eval σ ≠ 0 then t.evalChecked σ else f.evalChecked σ) = _
    rw [iht h.1.2, ihf h.2]
    split <;> rfl
  | slice b high low ih =>
    have hs := h.sized
    simp only [Defined, defined, Bool.and_eq_true] at h
    rw [Expr.evalChecked, ih h.1, ensureSized_of hs]
    show (if low < 64 then _ else _) = _
    split <;> rfl
  | concat ps ih =>
    have hs := h.sized
    simp only [Defined, defined, Bool.and_eq_true, allDefined_iff] at h
    rw [Expr.evalChecked, ensureSized_of hs, eval]
    exact evalPartsChecked_defined (fun p hp => ih p hp (h.1 p hp)) 0

end Interlock.Expr
