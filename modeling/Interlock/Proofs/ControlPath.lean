import Interlock.ControlPath
import Mathlib.Tactic.Common

/-! Where two paths part. -/

namespace Interlock.ControlPath

/-- The arms that two lists share from the front, and the chain of the first two in which they differ, if
that is one chain. -/
def fork : List PathEdge → List PathEdge → Option (List PathEdge × Nat)
  | a :: as, b :: bs =>
    if a = b then (fork as bs).map fun f => (a :: f.1, f.2)
    else if a.parallel = b.parallel then some ([], a.parallel)
    else none
  | _, _ => none

/-- The path and the number of the chain at whose arms two paths part. -/
def partsAt (p q : ControlPath) : Option (ControlPath × Nat) :=
  (fork p.edges q.edges).map fun f => (⟨p.module, f.1⟩, f.2)

theorem edgesExclusive_comm (as bs : List PathEdge) : edgesExclusive as bs = edgesExclusive bs as := by
  induction as generalizing bs with
  | nil => cases bs <;> rfl
  | cons a as ih =>
    rcases bs with _ | ⟨b, bs⟩
    · rfl
    · rw [edgesExclusive, edgesExclusive, ih]
      by_cases hab : a = b
      · rw [if_pos hab, if_pos hab.symm]
      · rw [if_neg hab, if_neg (Ne.symm hab)]
        exact Bool.beq_comm

theorem exclusiveWith_comm (p q : ControlPath) : p.exclusiveWith q = q.exclusiveWith p := by
  unfold exclusiveWith
  rw [edgesExclusive_comm, Bool.beq_comm]

theorem fork_of_edgesExclusive {as bs : List PathEdge} (h : edgesExclusive as bs = true) :
    ∃ pre a b as' bs', as = pre ++ a :: as' ∧ bs = pre ++ b :: bs' ∧ a.alternative ≠ b.alternative ∧
      a.parallel = b.parallel ∧ fork as bs = some (pre, a.parallel) := by
  induction as generalizing bs with
  | nil => exact nomatch h
  | cons a as ih =>
    rcases bs with _ | ⟨b, bs⟩
    · exact nomatch h
    · rw [edgesExclusive] at h
      split at h
      · rename_i hab
        obtain ⟨pre, a', b', as', bs', rfl, rfl, halt, hpar, hfork⟩ := ih h
        refine ⟨a :: pre, a', b', as', bs', rfl, by rw [hab]; rfl, halt, hpar, ?_⟩
        rw [fork, if_pos hab, hfork]
        rfl
      · rename_i hab
        rw [beq_iff_eq] at h
        refine ⟨[], a, b, as, bs, rfl, rfl, fun halt => hab ?_, h, ?_⟩
        · obtain ⟨x, y⟩ := a
          obtain ⟨x', y'⟩ := b
          exact congrArg₂ PathEdge.mk halt h
        · rw [fork, if_neg hab, if_pos h]

/-- Two paths that exclude each other part at two arms of a chain. -/
theorem parts_of_exclusive {p q : ControlPath} (h : p.exclusiveWith q = true) :
    ∃ pre a b as bs, p = ⟨p.module, pre ++ a :: as⟩ ∧ q = ⟨p.module, pre ++ b :: bs⟩ ∧
      a.alternative ≠ b.alternative ∧ a.parallel = b.parallel ∧
      p.partsAt q = some (⟨p.module, pre⟩, a.parallel) := by
  simp only [exclusiveWith, Bool.and_eq_true, beq_iff_eq] at h
  obtain ⟨pre, a, b, as, bs, hp, hq, halt, hpar, hfork⟩ := fork_of_edgesExclusive h.2
  refine ⟨pre, a, b, as, bs, ?_, ?_, halt, hpar, ?_⟩
  · rw [← hp]
  · rw [← hq, h.1]
  · rw [partsAt, hfork]
    rfl

end Interlock.ControlPath
