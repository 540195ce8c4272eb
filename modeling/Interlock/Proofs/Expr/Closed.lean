import Interlock.Combiner
import Interlock.Proofs.Attempt
import Interlock.Proofs.Expr.Reads
import Interlock.Proofs.Expr.Width
import Mathlib.Order.MinMax

/-! Properties that pass from parts to the whole. Generated logic is put together by the folding constructors
from expressions that are there already; so a property that every form of expression has whose parts have it,
as long as widths stay in bounds, is one of what is generated as well. -/

namespace Interlock

/-- To show a property of what a stock combiner makes, show it of zero, of an argument that is selected before what
has it already, and of sums and ORs. -/
theorem Combiner.combine_induct {P : Expr → Prop} {args runs : List Expr} (hzero : P (.zero (widest args)))
    (hselect : ∀ p ∈ args.zip runs, ∀ e, P e → P (.select p.2 (p.1.resize (widest args)) e))
    (hadd : ∀ a b, P a → P b → P (a.add b)) (hor : ∀ a b, P a → P b → P (a.or b)) {c : Combiner}
    (hc : ∀ f, c ≠ .custom f) : P (c.combine args runs) := by
  have hterms : ∀ t ∈ terms (widest args) args runs, P t := by
    intro t ht
    rw [terms, ← List.map_uncurry_zip_eq_zipWith] at ht
    obtain ⟨p, hp, rfl⟩ := List.mem_map.1 ht
    exact hselect p hp _ hzero
  cases c with
  | lowestActive => exact List.foldrRecOn _ _ hzero fun e he p hp => hselect p hp e he
  | sum =>
    show P (sumOf args runs)
    unfold sumOf
    simp only
    split
    · exact hzero
    · rename_i t ts heq
      rw [heq] at hterms
      exact List.foldlRecOn ts Expr.add (hterms t (List.mem_cons_self ..)) fun acc hacc e he =>
        hadd acc e hacc (hterms e (List.mem_cons_of_mem _ he))
  | or => exact List.foldlRecOn _ Expr.or hzero fun acc hacc e he => hor acc e hacc (hterms e he)
  | custom f => exact absurd rfl (hc f)

namespace Expr

/-- A property that passes from parts to the whole where widths satisfy `W`. -/
structure Closed (P : Expr → Prop) (W : Nat → Prop) : Prop where
  word : W maxWidth
  mono : ∀ v w, W w → v ≤ w → W v
  width : ∀ e, P e → W e.width
  const : ∀ v w, W w → P (.constant v w)
  unary : ∀ op e, P e → P (.unary op e)
  operand : ∀ e, P (.unary .not e) → P e
  binary : ∀ op a b, P a → P b → P (.binary op a b)
  mux : ∀ s t f, P s → P t → P f → P (.mux s t f)
  slice : ∀ e high low, P e → low ≤ high → W (high + 1 - low) → P (.slice e high low)
  concat : ∀ ps, (∀ p ∈ ps, P p) → W (totalWidth ps) → P (.concat ps)

namespace Closed

variable {P : Expr → Prop} {W : Nat → Prop} {a b e : Expr} {items : List Expr}

theorem small (h : Closed P W) {w : Nat} (hw : w ≤ maxWidth) : W w := h.mono _ _ h.word hw

theorem constant (h : Closed P W) (v : Word) {w : Nat} (hw : W w) : P (.constant v w) := h.const v w hw

theorem zero (h : Closed P W) {w : Nat} (hw : W w) : P (.zero w) := h.constant 0 hw

theorem bit (h : Closed P W) (v : Bool) : P (.bit v) := h.constant _ (h.small (by decide))

theorem one (h : Closed P W) : P .one := h.bit true

theorem bits (h : Closed P W) (he : P e) {high low : Nat} (hle : low ≤ high) (hw : W (high + 1 - low)) :
    P (e.bits high low) := by
  unfold Expr.bits
  split
  · exact he
  · exact h.slice e high low he hle hw

theorem resize (h : Closed P W) (he : P e) {w : Nat} (hw : W w) : P (e.resize w) := by
  unfold Expr.resize
  split_ifs with heq hlt hzero
  · exact he
  · exact h.zero (h.small (Nat.zero_le _))
  · refine h.bits he (Nat.zero_le _) ?_
    rwa [Nat.sub_zero, Nat.sub_add_cancel (Nat.pos_of_ne_zero hzero)]
  · cases e.asConst with
    | some v => exact h.constant v hw
    | none =>
      have htotal : totalWidth [e, .zero (w - e.width)] = w := by
        simp only [totalWidth, width_zero]
        omega
      refine h.concat _ (fun p hp => ?_) (htotal.symm ▸ hw)
      rcases List.mem_cons.1 hp with rfl | hp
      · exact he
      · exact List.mem_singleton.1 hp ▸ h.zero (h.mono _ _ hw (Nat.sub_le ..))

theorem and (h : Closed P W) (ha : P a) (hb : P b) : P (a.and b) := by
  have hw : W (max a.width b.width) := max_rec' W (h.width a ha) (h.width b hb)
  unfold Expr.and
  simp only
  split_ifs
  · exact h.zero hw
  · exact h.resize hb hw
  · exact h.resize ha hw
  · exact ha
  · exact h.binary .and a b ha hb

theorem or (h : Closed P W) (ha : P a) (hb : P b) : P (a.or b) := by
  have hw : W (max a.width b.width) := max_rec' W (h.width a ha) (h.width b hb)
  unfold Expr.or
  simp only
  split_ifs
  · exact hb
  · exact ha
  · exact h.constant _ hw
  · exact ha
  · exact h.binary .or a b ha hb

theorem not (h : Closed P W) (he : P e) : P e.not := by
  unfold Expr.not
  split
  · exact h.constant _ (h.width _ he)
  · exact h.operand _ he
  · exact h.unary .not _ he

theorem anyBit (h : Closed P W) (he : P e) : P e.anyBit := by
  unfold Expr.anyBit
  split
  · exact he
  · cases e.asConst with
    | some v => exact h.bit _
    | none => exact h.unary .redOr e he

theorem select (h : Closed P W) (he : P e) (ha : P a) (hb : P b) : P (.select e a b) := by
  unfold Expr.select
  split
  · split
    · exact ha
    · exact hb
  · split
    · exact ha
    · exact h.mux e a b he ha hb

theorem any (h : Closed P W) (hi : ∀ e ∈ items, P e) : P (.any items) :=
  List.foldlRecOn items Expr.or (h.bit false) fun _ hacc e he => h.or hacc (hi e he)

theorem all (h : Closed P W) (hi : ∀ e ∈ items, P e) : P (.all items) :=
  List.foldlRecOn items Expr.and h.one fun _ hacc e he => h.and hacc (hi e he)

theorem join (h : Closed P W) (hi : ∀ e ∈ items, P e) (hw : W (totalWidth items)) : P (.join items) := by
  unfold Expr.join
  split
  · exact h.zero (h.small (Nat.zero_le _))
  · exact hi _ (List.mem_singleton_self _)
  · exact h.concat _ hi hw

/-! ### Combiners -/

theorem widest (h : Closed P W) (hi : ∀ e ∈ items, P e) : W (Combiner.widest items) := by
  refine List.foldlRecOn _ _ (h.small (Nat.zero_le _)) fun w hw v hv => max_rec' W hw ?_
  obtain ⟨e, he, rfl⟩ := List.mem_map.1 hv
  exact h.width e (hi e he)

variable {args runs : List Expr}

/-- A combiner keeps the property if it is a stock one, or one of its own that does. -/
theorem combine (h : Closed P W) {c : Combiner}
    (hc : ∀ f, c = .custom f → ∀ args runs, (∀ a ∈ args, P a) → (∀ r ∈ runs, P r) → P (f args runs))
    (hargs : ∀ a ∈ args, P a) (hruns : ∀ r ∈ runs, P r) : P (c.combine args runs) := by
  have hw := h.widest hargs
  by_cases hcustom : ∃ f, c = .custom f
  · obtain ⟨f, rfl⟩ := hcustom
    exact hc f rfl args runs hargs hruns
  · refine Combiner.combine_induct (h.zero hw) (fun p hp e he => ?_) (fun a b => h.binary .add a b)
      (fun _ _ => h.or) (not_exists.1 hcustom)
    obtain ⟨harg, hrun⟩ := List.of_mem_zip hp
    exact h.select (hruns _ hrun) (h.resize (hargs _ harg) hw) he

end Closed

/-! ### Reading only some signals -/

/-- Every signal that an expression reads is one of these. -/
def ReadsIn (S : SignalId → Prop) (e : Expr) : Prop := ∀ x ∈ e.reads, S x

theorem ReadsIn.mono {S T : SignalId → Prop} {e : Expr} (h : ReadsIn S e) (hST : ∀ x, S x → T x) :
    ReadsIn T e := fun x hx => hST x (h x hx)

theorem closed_readsIn (S : SignalId → Prop) : Closed (ReadsIn S) fun _ => True := by
  refine ⟨trivial, fun _ _ _ _ => trivial, fun _ _ => trivial, fun _ _ _ x hx => (nomatch hx), fun _ _ he => he,
    fun _ he => he, fun _ a b ha hb x hx => ?_, fun s t f hs ht hf x hx => ?_, fun _ _ _ he _ _ => he,
    fun ps hps _ x hx => ?_⟩
  · exact (List.mem_append.1 hx).elim (ha x) (hb x)
  · exact (List.mem_append.1 hx).elim (fun hx => (List.mem_append.1 hx).elim (hs x) (ht x)) (hf x)
  · rw [reads, mem_readsAll] at hx
    obtain ⟨p, hp, hx⟩ := hx
    exact hps p hp x hx

/-- A replaced expression reads what was read and stays, and what the replacements read. -/
theorem readsIn_substitute {S : SignalId → Prop} {f : SignalId → Option Expr} {e : Expr}
    (hf : ∀ x r, f x = some r → ReadsIn S r) (h : ∀ x ∈ e.reads, f x = none → S x) : ReadsIn S (e.substitute f) := by
  induction e with
  | const v w =>
    intro x hx
    cases hx
  | signal i w =>
    have hi := h i (List.mem_singleton_self i)
    rw [substitute]
    cases hr : f i with
    | none => exact fun x hx => List.mem_singleton.1 hx ▸ hi hr
    | some r => exact (closed_readsIn S).resize (hf i r hr) trivial
  | unary op e ih => exact ih h
  | binary op a b iha ihb =>
    simp only [reads, List.mem_append] at h
    exact (closed_readsIn S).binary op _ _ (iha fun x hx => h x (.inl hx)) (ihb fun x hx => h x (.inr hx))
  | mux s t e ihs iht ihe =>
    simp only [reads, List.mem_append] at h
    exact (closed_readsIn S).mux _ _ _ (ihs fun x hx => h x (.inl (.inl hx))) (iht fun x hx => h x (.inl (.inr hx)))
      (ihe fun x hx => h x (.inr hx))
  | slice b high low ih => exact ih h
  | concat ps ih =>
    simp only [reads, mem_readsAll] at h
    intro x hx
    rw [substitute, reads] at hx
    induction ps with
    | nil => cases hx
    | cons p ps ihs =>
      rw [substituteAll, readsAll, List.mem_append] at hx
      rcases hx with hx | hx
      · exact ih p (List.mem_cons_self ..) (fun y hy => h y ⟨p, List.mem_cons_self .., hy⟩) x hx
      · refine ihs (fun q hq => ih q (List.mem_cons_of_mem _ hq)) (fun y hy => ?_) hx
        obtain ⟨q, hq, hy⟩ := hy
        exact h y ⟨q, List.mem_cons_of_mem _ hq, hy⟩

end Expr

end Interlock
