import Interlock.Proofs.Expr.Defined

/-! Expressions that nothing tells apart. Where two expressions agree in width, and in every valuation in value, so do
all larger expressions that differ in having one for the other: a width matters as much as a value, since it decides
what a negation sets, how a concatenation goes on and what a reduction asks for. -/

namespace Interlock.Expr

/-- The expressions have the same width, if they have one, and on all signal values the same value, if it is found. -/
structure Same (a b : Expr) : Prop where
  sized : a.sized = b.sized
  width : a.width = b.width
  value : ∀ σ, a.evalChecked σ = b.evalChecked σ

namespace Same

variable {a b c : Expr}

theorem refl (a : Expr) : Same a a := ⟨rfl, rfl, fun _ => rfl⟩

theorem trans (h : Same a b) (h' : Same b c) : Same a c :=
  ⟨h.sized.trans h'.sized, h.width.trans h'.width, fun σ => (h.value σ).trans (h'.value σ)⟩

/-- Where all widths are defined it is enough to compare values. -/
theorem of_defined (ha : a.Defined) (hb : b.Defined) (hw : a.width = b.width) (hv : ∀ σ, a.eval σ = b.eval σ) :
    Same a b :=
  ⟨ha.sized.trans hb.sized.symm, hw, fun σ => by rw [ha.evalChecked, hb.evalChecked, hv]⟩

theorem ensureSized (h : Same a b) : a.ensureSized = b.ensureSized := by
  rw [Expr.ensureSized, Expr.ensureSized, h.sized]

theorem unary (op : UnaryOp) (h : Same a b) : Same (.unary op a) (.unary op b) := by
  refine ⟨?_, ?_, fun σ => ?_⟩
  · rw [Expr.sized, Expr.sized, h.sized]
  · rw [Expr.width, Expr.width, h.width]
  · rw [evalChecked, evalChecked, h.ensureSized, h.width, h.value]

theorem binary (op : BinaryOp) {a' b' : Expr} (h : Same a b) (h' : Same a' b') :
    Same (.binary op a a') (.binary op b b') := by
  refine ⟨?_, ?_, fun σ => ?_⟩
  · rw [Expr.sized, Expr.sized, h.sized, h'.sized]
  · rw [Expr.width, Expr.width, h.width, h'.width]
  · rw [evalChecked, evalChecked, h.ensureSized, h'.ensureSized, h.width, h'.width, h.value, h'.value]

theorem mux {s s' t t' f f' : Expr} (hs : Same s s') (ht : Same t t') (hf : Same f f') :
    Same (.mux s t f) (.mux s' t' f') := by
  refine ⟨?_, ?_, fun σ => ?_⟩
  · rw [Expr.sized, Expr.sized, ht.sized, hf.sized]
  · rw [Expr.width, Expr.width, ht.width, hf.width]
  · rw [evalChecked, evalChecked, hs.value, ht.value, hf.value]

theorem slice (h : Same a b) (high low : Nat) : Same (.slice a high low) (.slice b high low) := by
  refine ⟨rfl, rfl, fun σ => ?_⟩
  rw [evalChecked, evalChecked, h.value]
  rfl

section
variable {ps qs : List Expr}

theorem allSized (h : List.Forall₂ Same ps qs) : Expr.allSized ps = Expr.allSized qs := by
  induction h with
  | nil => rfl
  | cons hp _ ih => rw [Expr.allSized, Expr.allSized, hp.sized, ih]

theorem totalWidth (h : List.Forall₂ Same ps qs) : Expr.totalWidth ps = Expr.totalWidth qs := by
  induction h with
  | nil => rfl
  | cons hp _ ih => rw [Expr.totalWidth, Expr.totalWidth, hp.width, ih]

theorem evalParts (h : List.Forall₂ Same ps qs) (σ : Valuation) (offset : Nat) :
    evalPartsChecked σ ps offset = evalPartsChecked σ qs offset := by
  induction h generalizing offset with
  | nil => rfl
  | cons hp _ ih => rw [evalPartsChecked, evalPartsChecked, hp.value, hp.width, ih]

/-- Part by part. -/
theorem concat (h : List.Forall₂ Same ps qs) : Same (.concat ps) (.concat qs) := by
  have hself : (Expr.concat ps).sized = (Expr.concat qs).sized := by
    rw [Expr.sized, Expr.sized, allSized h, totalWidth h]
  refine ⟨hself, totalWidth h, fun σ => ?_⟩
  rw [evalChecked, evalChecked, Expr.ensureSized, Expr.ensureSized, hself, evalParts h]

end

end Same

/-- A larger expression, but for one part of it. -/
inductive Context where
  | hole
  | unary (op : UnaryOp) (c : Context)
  | lhs (op : BinaryOp) (c : Context) (b : Expr)
  | rhs (op : BinaryOp) (a : Expr) (c : Context)
  | sel (c : Context) (t f : Expr)
  | onTrue (s : Expr) (c : Context) (f : Expr)
  | onFalse (s t : Expr) (c : Context)
  | base (c : Context) (high low : Nat)
  | part (before : List Expr) (c : Context) (after : List Expr)

/-- The larger expression with `e` as this part. -/
def Context.fill (e : Expr) : Context → Expr
  | hole => e
  | unary op c => .unary op (c.fill e)
  | lhs op c b => .binary op (c.fill e) b
  | rhs op a c => .binary op a (c.fill e)
  | sel c t f => .mux (c.fill e) t f
  | onTrue s c f => .mux s (c.fill e) f
  | onFalse s t c => .mux s t (c.fill e)
  | base c high low => .slice (c.fill e) high low
  | part before c after => .concat (before ++ c.fill e :: after)

/-- What a part is put for makes no difference to the whole. -/
theorem Same.fill {a b : Expr} (h : Same a b) (c : Context) : Same (c.fill a) (c.fill b) := by
  induction c with
  | hole => exact h
  | unary op _ ih => exact ih.unary op
  | lhs op _ b ih => exact ih.binary op (.refl b)
  | rhs op a _ ih => exact (Same.refl a).binary op ih
  | sel _ t f ih => exact ih.mux (.refl t) (.refl f)
  | onTrue s _ f ih => exact (Same.refl s).mux ih (.refl f)
  | onFalse s t _ ih => exact (Same.refl s).mux (.refl t) ih
  | base _ high low ih => exact ih.slice high low
  | part before _ after ih =>
    have hrefl (ps : List Expr) : List.Forall₂ Same ps ps := List.forall₂_same.2 fun p _ => .refl p
    exact Same.concat (List.rel_append (hrefl before) (.cons ih (hrefl after)))

end Interlock.Expr
