import Interlock.Expr.Eval
import Interlock.Expr.Substitute
import Interlock.Proofs.Attempt
import Mathlib.Tactic.Common

/-! What the value of an expression depends on: the signals that it reads and nothing else. Where a
checked evaluation gives a value it is the value of the expression. -/

namespace Interlock.Expr

theorem mem_readsAll {i : SignalId} {ps : List Expr} :
    i ∈ readsAll ps ↔ ∃ p ∈ ps, i ∈ p.reads := by
  induction ps with
  | nil => simp [readsAll]
  | cons p ps ih => simp [readsAll, ih]

theorem evalParts_congr {σ τ : Valuation} {ps : List Expr} (offset : Nat)
    (h : ∀ p ∈ ps, p.eval σ = p.eval τ) : evalParts σ ps offset = evalParts τ ps offset := by
  induction ps generalizing offset with
  | nil => simp only [evalParts]
  | cons p ps ih =>
    simp only [evalParts]
    rw [h p (List.mem_cons_self ..), ih _ fun q hq => h q (List.mem_cons_of_mem _ hq)]

theorem eval_congr {σ τ : Valuation} {e : Expr} (h : ∀ i ∈ e.reads, σ i = τ i) :
    e.eval σ = e.eval τ := by
  induction e with
  | const v w => simp only [eval]
  | signal i w => simp only [eval, h i (by simp [reads])]
  | unary op e ih => simp only [eval, ih fun i hi => h i (by simpa [reads] using hi)]
  | binary op a b iha ihb =>
    simp only [eval, iha fun i hi => h i (by simp [reads, hi]), ihb fun i hi => h i (by simp [reads, hi])]
  | mux s t f ihs iht ihf =>
    simp only [eval, ihs fun i hi => h i (by simp [reads, hi]), iht fun i hi => h i (by simp [reads, hi]),
      ihf fun i hi => h i (by simp [reads, hi])]
  | slice b high low ih => simp only [eval, ih fun i hi => h i (by simpa [reads] using hi)]
  | concat ps ih =>
    simp only [eval]
    refine evalParts_congr 0 fun p hp => ih p hp fun i hi => h i ?_
    rw [reads, mem_readsAll]
    exact ⟨p, hp, hi⟩

theorem evalPartsChecked_ok {σ : Valuation} {ps : List Expr} (offset : Nat) {v : Word}
    (h : ∀ p ∈ ps, ∀ v, p.evalChecked σ = .ok v → v = p.eval σ)
    (hv : evalPartsChecked σ ps offset = .ok v) : v = evalParts σ ps offset := by
  induction ps generalizing offset v with
  | nil =>
    simp only [evalPartsChecked, Except.ok.injEq] at hv
    simp only [evalParts, hv]
  | cons p ps ih =>
    have tail := fun w => ih (offset + p.width) (v := w) fun q hq =>
      h q (List.mem_cons_of_mem _ hq)
    simp only [evalPartsChecked] at hv
    rw [evalParts]
    split at hv
    · simp only [except_bind_ok, except_pure_ok] at hv
      obtain ⟨a, ha, b, hb, rfl⟩ := hv
      rw [h p (List.mem_cons_self ..) a ha, tail b hb]
    · rename_i ho
      simp only [except_bind_ok, except_pure_ok] at hv
      obtain ⟨a, ha, b, hb, rfl⟩ := hv
      simp only [place, if_neg ho, tail b hb]

theorem evalChecked_ok {σ : Valuation} {e : Expr} {v : Word} (h : e.evalChecked σ = .ok v) :
    v = e.eval σ := by
  induction e generalizing v with
  | const c w => simpa [evalChecked, eval, eq_comm] using h
  | signal i w => simpa [evalChecked, eval, eq_comm] using h
  | unary op e ih =>
    simp only [evalChecked, except_bind_ok, except_pure_ok] at h
    obtain ⟨_, _, a, ha, rfl⟩ := h
    rw [ih ha, eval]
  | binary op a b iha ihb =>
    simp only [evalChecked, except_bind_ok, except_pure_ok] at h
    obtain ⟨_, _, _, _, x, hx, y, hy, rfl⟩ := h
    rw [iha hx, ihb hy, eval]
  | mux s t f ihs iht ihf =>
    simp only [evalChecked, except_bind_ok] at h
    obtain ⟨a, ha, h⟩ := h
    rw [eval, ← ihs ha]
    split_ifs at h ⊢
    · exact iht h
    · exact ihf h
  | slice b high low ih =>
    simp only [evalChecked, except_bind_ok] at h
    obtain ⟨a, ha, h⟩ := h
    rw [eval, ← ih ha]
    split_ifs at h
    · simp only [except_bind_ok, except_pure_ok] at h
      obtain ⟨_, _, rfl⟩ := h
      rfl
    · exact (except_pure_ok.1 h).symm
  | concat ps ih =>
    simp only [evalChecked, except_bind_ok] at h
    obtain ⟨_, _, h⟩ := h
    rw [eval]
    exact evalPartsChecked_ok 0 (fun p hp v => ih p hp) h

end Interlock.Expr
