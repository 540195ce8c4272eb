import Interlock.Proofs.Expr.Value

/-! Replacing signals by expressions. The value of the result is that of the expression where each replaced signal
has the value of its replacement: a replacement is cut to the width of the read, as the signal itself would be. -/

namespace Interlock.Expr

variable {σ : Valuation} {f : SignalId → Option Expr}

/-- Resizing cuts a value that has no bits beyond the width, and pads it with zeros. -/
theorem eval_resize_of_lt {e : Expr} (hlt : (e.eval σ).toNat < 2 ^ e.width) (w : Nat) :
    (e.resize w).eval σ = e.eval σ &&& mask w := by
  unfold resize
  split_ifs with hw hlt' hzero
  · rw [← hw, and_mask_of_lt hlt]
  · subst hzero
    rw [eval_zero]
    apply UInt64.toNat_inj.1
    rw [toNat_and_mask, Nat.pow_zero, Nat.mod_one, UInt64.toNat_zero]
  · have hpos : w - 1 + 1 = w := Nat.sub_add_cancel (Nat.pos_of_ne_zero hzero)
    rw [bits, if_neg (fun he => hw (by omega)), eval, cut, if_neg (by decide), hpos, Nat.sub_zero]
    rfl
  · have hle : (e.eval σ).toNat < 2 ^ w := lt_two_pow_of_le hlt (Nat.le_of_not_lt hlt')
    cases hc : e.asConst with
    | some v => rw [eval_constant, eval_of_asConst hc]
    | none =>
      have hz : (zero (w - e.width)).eval σ = 0 := eval_zero _
      rw [and_mask_of_lt hle]
      simp only [eval, evalParts, hz, place_zero, place_zero_word, UInt64.or_zero]

theorem eval_resize {e : Expr} (h : e.fits = true) (w : Nat) : (e.resize w).eval σ = e.eval σ &&& mask w :=
  eval_resize_of_lt (eval_lt h) w

/-- The valuation in which each replaced signal has the value of its replacement. -/
def replaced (σ : Valuation) (f : SignalId → Option Expr) : Valuation := fun i =>
  match f i with
  | some r => r.eval σ
  | none => σ i

theorem evalParts_substituteAll {τ : Valuation} {ps : List Expr} (h : ∀ p ∈ ps, (p.substitute f).eval σ = p.eval τ)
    (offset : Nat) : evalParts σ (substituteAll f ps) offset = evalParts τ ps offset := by
  induction ps generalizing offset with
  | nil => rfl
  | cons p ps ih =>
    rw [substituteAll, evalParts, evalParts, h p (List.mem_cons_self ..), width_substitute,
      ih fun q hq => h q (List.mem_cons_of_mem _ hq)]

theorem eval_substitute_replaced (hf : ∀ i r, f i = some r → r.fits = true) (e : Expr) :
    (e.substitute f).eval σ = e.eval (replaced σ f) := by
  induction e with
  | const v w => rfl
  | signal i w =>
    rw [substitute, eval, replaced]
    cases hi : f i with
    | none => rfl
    | some r => exact eval_resize (hf i r hi) w
  | unary op e ih => rw [substitute, eval, eval, ih, width_substitute]
  | binary op a b iha ihb => rw [substitute, eval, eval, iha, ihb, width_substitute, width_substitute]
  | mux s t e ihs iht ihe => rw [substitute, eval, eval, ihs, iht, ihe]
  | slice b high low ih => rw [substitute, eval, eval, ih]
  | concat ps ih => rw [substitute, eval, eval, evalParts_substituteAll ih]

/-- The replacements have the values of the signals that they replace. -/
def Stands (σ : Valuation) (f : SignalId → Option Expr) : Prop :=
  ∀ i r, f i = some r → r.fits = true ∧ r.eval σ = σ i

theorem Stands.replaced (hf : Stands σ f) : replaced σ f = σ := by
  funext i
  rw [Expr.replaced]
  cases hi : f i with
  | none => rfl
  | some r => exact (hf i r hi).2

theorem eval_substitute (hf : Stands σ f) (e : Expr) : (e.substitute f).eval σ = e.eval σ := by
  rw [eval_substitute_replaced fun i r hi => (hf i r hi).1, hf.replaced]

theorem fits_substitute (hf : ∀ i r, f i = some r → r.fits = true) {e : Expr} (h : e.fits = true) :
    (e.substitute f).fits = true := by
  induction e with
  | const v w => exact h
  | signal i w =>
    rw [substitute]
    cases hi : f i with
    | none => exact h
    | some r => exact closed_fits.resize (hf i r hi) trivial
  | unary op e ih => exact ih h
  | binary op a b iha ihb =>
    rw [fits, Bool.and_eq_true] at h
    rw [substitute, fits, iha h.1, ihb h.2, Bool.and_self]
  | mux s t e ihs iht ihe =>
    rw [fits, Bool.and_eq_true, Bool.and_eq_true] at h
    rw [substitute, fits, ihs h.1.1, iht h.1.2, ihe h.2, Bool.and_self, Bool.and_self]
  | slice b high low ih => exact ih h
  | concat ps ih =>
    rw [fits, allFit_iff] at h
    rw [substitute, fits]
    induction ps with
    | nil => rfl
    | cons p ps ihs =>
      rw [substituteAll, allFit, ih p (List.mem_cons_self ..) (h p (List.mem_cons_self ..)), Bool.true_and]
      exact ihs (fun q hq => ih q (List.mem_cons_of_mem _ hq)) fun q hq => h q (List.mem_cons_of_mem _ hq)

end Interlock.Expr

/-! ### Deciding bits

Single bits that decide a property of the signals. The folding constructors put such bits together as the
logical operators do, so that a condition made of conditions decides what is said of its parts. -/

namespace Interlock.Expr

variable {σ : Valuation} {a b e : Expr} {p q : Valuation → Bool}

/-- A single bit that is one where the property holds, else zero. -/
structure Decides (e : Expr) (p : Valuation → Bool) : Prop where
  width : e.width = 1
  bounded : e.bounded = true
  truth : ∀ σ, e.truth σ = p σ

namespace Decides

theorem ne_zero (h : Decides e p) : e.eval σ ≠ 0 ↔ p σ = true := by
  rw [eval_ne_zero_iff h.bounded h.width, h.truth]

theorem bit (v : Bool) : Decides (.bit v) fun _ => v := ⟨rfl, closed_bounded.bit v, fun _ => truth_bit v⟩

theorem one : Decides .one fun _ => true := bit true

theorem signal (x : SignalId) : Decides (.signal x 1) fun σ => lowBit (σ x) :=
  ⟨rfl, rfl, fun _ => truth_signal Nat.one_pos⟩

theorem and (ha : Decides a p) (hb : Decides b q) : Decides (a.and b) fun σ => p σ && q σ := by
  refine ⟨?_, closed_bounded.and ha.bounded hb.bounded, fun σ => ?_⟩
  · rw [width_and, ha.width, hb.width, Nat.max_self]
  · rw [truth_and, ha.truth, hb.truth]

theorem or (ha : Decides a p) (hb : Decides b q) : Decides (a.or b) fun σ => p σ || q σ := by
  refine ⟨?_, closed_bounded.or ha.bounded hb.bounded, fun σ => ?_⟩
  · rw [width_or, ha.width, hb.width, Nat.max_self]
  · rw [truth_or, ha.truth, hb.truth]

theorem not (h : Decides e p) : Decides e.not fun σ => !p σ := by
  refine ⟨?_, closed_bounded.not h.bounded, fun σ => ?_⟩
  · rw [width_not, h.width]
  · rw [truth_not (h.width ▸ Nat.one_pos), h.truth]

theorem equals (a b : Expr) : Decides (a.equals b) fun σ => a.eval σ == b.eval σ := by
  refine ⟨width_equals a b, rfl, fun σ => ?_⟩
  rw [Expr.truth, Expr.equals, eval, BinaryOp.apply, lowBit_toUInt64]

/-- Whether any bit is set. -/
theorem anyBit (h : e.bounded = true) : Decides e.anyBit fun σ => e.eval σ != 0 := by
  unfold Expr.anyBit
  split
  · rename_i hw
    refine ⟨hw, h, fun σ => ?_⟩
    rw [Bool.eq_iff_iff, ← eval_ne_zero_iff h hw, bne_iff_ne]
  · cases hc : e.asConst with
    | some v =>
      refine ⟨rfl, closed_bounded.bit _, fun σ => ?_⟩
      rw [truth_bit, eval_of_asConst hc]
    | none =>
      refine ⟨rfl, rfl, fun σ => ?_⟩
      rw [Expr.truth, eval, UnaryOp.apply, lowBit_toUInt64]

variable {α : Type} {items : List α} {exprs : List Expr} {f : α → Valuation → Bool}

theorem foldl_or (h : List.Forall₂ (fun x e => Decides e (f x)) items exprs) :
    ∀ {acc : Expr} {p : Valuation → Bool}, Decides acc p →
      Decides (exprs.foldl Expr.or acc) fun σ => p σ || items.any (f · σ) := by
  induction h with
  | nil => simp
  | cons h _ ih =>
    intro acc p hacc
    simpa only [List.foldl_cons, List.any_cons, Bool.or_assoc] using ih (hacc.or h)

theorem foldl_and (h : List.Forall₂ (fun x e => Decides e (f x)) items exprs) :
    ∀ {acc : Expr} {p : Valuation → Bool}, Decides acc p →
      Decides (exprs.foldl Expr.and acc) fun σ => p σ && items.all (f · σ) := by
  induction h with
  | nil => simp
  | cons h _ ih =>
    intro acc p hacc
    simpa only [List.foldl_cons, List.all_cons, Bool.and_assoc] using ih (hacc.and h)

theorem any (h : List.Forall₂ (fun x e => Decides e (f x)) items exprs) :
    Decides (.any exprs) fun σ => items.any (f · σ) := by
  simpa only [Expr.any, Bool.false_or] using foldl_or h (bit false)

theorem all (h : List.Forall₂ (fun x e => Decides e (f x)) items exprs) :
    Decides (.all exprs) fun σ => items.all (f · σ) := by
  simpa only [Expr.all, Bool.true_and] using foldl_and h one

end Decides

end Interlock.Expr
