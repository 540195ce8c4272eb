import Interlock.Proofs.Expr.Parts
import Interlock.Proofs.Expr.Substitute

/-! Substitution is a change of the valuation. An expression in which signals have been replaced is as wide as before;
its value is the one that it has where each replaced signal carries the value of its replacement, and it reads nothing
but the signals that were left and those of the replacements that were used. A replacement for a signal that is not
read plays no part. -/

namespace Interlock

namespace Expr

variable {f g : SignalId → Option Expr} {e : Expr}

theorem substituteAll_eq_map (f : SignalId → Option Expr) (ps : List Expr) :
    substituteAll f ps = ps.map (substitute f) := by
  induction ps with
  | nil => rfl
  | cons p ps ih => rw [substituteAll, ih, List.map_cons]

/-- What is put for signals that are not read makes no difference. -/
theorem substitute_congr (h : ∀ i ∈ e.reads, f i = g i) : e.substitute f = e.substitute g := by
  induction e with
  | const v w => rfl
  | signal i w => rw [substitute, substitute, h i (List.mem_singleton_self i)]
  | unary op e ih => rw [substitute, substitute, ih h]
  | binary op a b iha ihb =>
    rw [reads, List.forall_mem_append] at h
    rw [substitute, substitute, iha h.1, ihb h.2]
  | mux s t e ihs iht ihe =>
    rw [reads, List.forall_mem_append, List.forall_mem_append] at h
    rw [substitute, substitute, ihs h.1.1, iht h.1.2, ihe h.2]
  | slice b high low ih => rw [substitute, substitute, ih h]
  | concat ps ih =>
    rw [substitute, substitute, substituteAll_eq_map, substituteAll_eq_map]
    refine congrArg concat (List.map_congr_left fun p hp => ih p hp fun i hi => h i ?_)
    exact mem_readsAll.2 ⟨p, hp, hi⟩

/-- The replacements that are used. -/
def used (f : SignalId → Option Expr) (e : Expr) : SignalId → Option Expr := fun i =>
  if i ∈ e.reads then f i else none

theorem used_eq_some {i : SignalId} {r : Expr} : used f e i = some r ↔ i ∈ e.reads ∧ f i = some r := by
  rw [used, Option.ite_none_right_eq_some]

theorem used_of_mem {i : SignalId} (hi : i ∈ e.reads) : used f e i = f i := if_pos hi

theorem substitute_used : e.substitute (used f e) = e.substitute f := substitute_congr fun _ => used_of_mem

theorem eval_replaced_used (σ : Valuation) : e.eval (replaced σ (used f e)) = e.eval (replaced σ f) :=
  eval_congr fun i hi => by rw [replaced, replaced, used_of_mem hi]

/-- A signal that is read afterwards was left, or is read in a replacement that was used. -/
theorem mem_reads_substitute {x : SignalId} (hx : x ∈ (e.substitute f).reads) :
    (x ∈ e.reads ∧ f x = none) ∨ ∃ i ∈ e.reads, ∃ r, f i = some r ∧ x ∈ r.reads := by
  have hreads : ReadsIn (fun y => (y ∈ e.reads ∧ f y = none) ∨ ∃ i ∈ e.reads, ∃ r, f i = some r ∧ y ∈ r.reads)
      (e.substitute (used f e)) := by
    refine readsIn_substitute (fun i r hi y hy => ?_) fun y hy hnone => .inl ⟨hy, ?_⟩
    · obtain ⟨hread, hr⟩ := used_eq_some.1 hi
      exact .inr ⟨i, hread, r, hr, hy⟩
    · rwa [used_of_mem hy] at hnone
  rw [substitute_used] at hreads
  exact hreads x hx

theorem checked_substitute (hf : ∀ i ∈ e.reads, ∀ r, f i = some r → r.sized = true) :
    Checked.substitute e f = .ok (e.substitute f) := by
  have hforM : (e.reads.filterMap f).forM ensureSized = .ok () := forM_ensureSized fun r hr => by
    obtain ⟨i, hi, hr⟩ := List.mem_filterMap.1 hr
    exact hf i hi r hr
  rw [Checked.substitute, hforM]
  rfl

end Expr

open Interlock.Expr

/-- Replacing signals in an expression without wide parts: the replacements that are used have no wide parts either,
and their constants fit. The result has a width, the one of the expression, and a value in every valuation. -/
theorem substitution_exact {e : Expr} {f : SignalId → Option Expr} (he : e.WellSized)
    (hf : ∀ i ∈ e.reads, ∀ r, f i = some r → r.fits = true ∧ r.WellSized) :
    ∃ e', Checked.substitute e f = .ok e' ∧ e'.sized = true ∧ e'.width = e.width ∧
      (∀ σ, ∃ v, e'.evalChecked σ = .ok v ∧ e.evalChecked (replaced σ f) = .ok v) ∧
      ∀ x ∈ e'.reads, (x ∈ e.reads ∧ f x = none) ∨ ∃ i ∈ e.reads, ∃ r, f i = some r ∧ x ∈ r.reads := by
  have hused : ∀ i r, used f e i = some r → r.fits = true ∧ r.WellSized := fun i r hi =>
    have ⟨hread, hr⟩ := used_eq_some.1 hi
    hf i hread r hr
  have hdefined : (e.substitute f).Defined :=
    substitute_used (f := f) ▸ defined_substitute (fun i r hi => (hused i r hi).2.defined) he.defined
  have heval : ∀ σ, (e.substitute f).eval σ = e.eval (replaced σ f) := fun σ => by
    rw [← substitute_used, eval_substitute_replaced fun i r hi => (hused i r hi).1, eval_replaced_used]
  refine ⟨_, checked_substitute fun i hi r hr => (hf i hi r hr).2.narrow.1, hdefined.sized, width_substitute f e,
    fun σ => ⟨_, hdefined.evalChecked, ?_⟩, fun x => mem_reads_substitute⟩
  rw [he.defined.evalChecked, heval]

/-- Signal 0 is read at 3 bits, to be inverted, and at 8 bits. Its replacement has 6 bits; the one for signal 3, which
has no width at all, is not used. -/
def halved : Expr := .concat [.unary .not (.signal 0 3), .signal 0 8, .signal 1 2]

def doubling : SignalId → Option Expr := fun i =>
  if i = 0 then some (.binary .add (.signal 2 6) (.signal 2 6)) else if i = 3 then some (.slice (.signal 0 1) 0 4) else none

theorem substitution_exact_of_halved :
    halved.WellSized ∧ (∀ i ∈ halved.reads, ∀ r, doubling i = some r → r.fits = true ∧ r.WellSized) ∧
      ∃ e', Checked.substitute halved doubling = .ok e' ∧ e'.width = 13 ∧
        e'.evalChecked (fun _ => 13) = .ok (5 + 8 * 26 + 2048 * 1) ∧ ∀ x ∈ e'.reads, x = 1 ∨ x = 2 := by
  have hsize : halved.WellSized := by decide +kernel
  have hf : ∀ i ∈ halved.reads, ∀ r ∈ doubling i, r.fits = true ∧ r.WellSized := by decide +kernel
  obtain ⟨e', he', -, hwidth, hvalue, hreads⟩ := substitution_exact hsize hf
  obtain ⟨v, hv, hreplaced⟩ := hvalue fun _ => 13
  have hsum : halved.evalChecked (replaced (fun _ => 13) doubling) = .ok (5 + 8 * 26 + 2048 * 1) := by
    decide +kernel
  refine ⟨hsize, hf, e', he', hwidth, ?_, fun x hx => ?_⟩
  · rw [hv, ← hreplaced, hsum]
  · have hleft : ∀ x ∈ halved.reads, doubling x = none → x = 1 := by decide +kernel
    have hput : ∀ i ∈ halved.reads, ∀ r ∈ doubling i, ∀ x ∈ r.reads, x = 2 := by decide +kernel
    rcases hreads x hx with ⟨hread, hnone⟩ | ⟨i, hi, r, hr, hread⟩
    · exact .inl (hleft x hread hnone)
    · exact .inr (hput i hi r hr x hread)

end Interlock
