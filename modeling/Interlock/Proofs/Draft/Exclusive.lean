import Interlock.Proofs.Draft.Numbers
import Interlock.Proofs.Draft.Trial

/-! Exclusive paths. Two points of a draft whose paths exclude each other are never active in the same
cycle, provided the number of the chain at whose arms they part was given out once. It is given out again
only when a state of a machine is entered again, and then two unrelated conditions may pass for the arms of
one chain. -/

namespace Interlock.Draft

theorem truth_of_one {e : Expr} {σ : Valuation} (h : e.eval σ = 1) : e.truth σ = true := by
  rw [Expr.truth, h, lowBit_one]

/-- For every valuation of the signals, of two points with exclusive paths one has a condition around it
that does not hold: the chain at whose arms they part has its number for itself, as all chains have while no
state of a machine is entered twice. -/
theorem exclusive_points_not_both {d : Draft} (h : d.Recorded) {p q : Point} (hp : p ∈ d.points)
    (hq : q ∈ d.points) (hx : p.path.exclusiveWith q.path = true)
    (honce : d.StatesOnce ∨ ∀ key, p.path.partsAt q.path = some key → d.NumberedOnce key) (σ : Valuation) :
    ¬ (p.cond.eval σ = 1 ∧ q.cond.eval σ = 1) := by
  have hnumber : ∀ key, p.path.partsAt q.path = some key → d.NumberedOnce key := by
    rcases honce with hstates | hnumber
    · exact fun key _ => h.numberedOnce hstates key
    · exact hnumber
  rintro ⟨hpv, hqv⟩
  exact h.soundPaths.apart hp hq hx hnumber σ ⟨truth_of_one hpv, truth_of_one hqv⟩

/-- Two transactions in the arms of one chain of branches, inside the state of a machine. -/
def branched : List Action :=
  [.transaction "A" .generated, .transaction "B" .generated, .openModule "",
    .inModule 0 (.signal "c" 1 .input 0 .generated),
    .inModule 0 (.machine "m" ["idle"] .generated),
    .inModule 0 (.enterState 0 "idle" .generated),
    .inModule 0 .branches,
    .inModule 0 (.branch 1 (.signal 6 1)),
    .inModule 0 (.openTransaction 0 .one .generated), .inModule 0 .leaveBody, .inModule 0 .leave,
    .inModule 0 (.otherwise 1),
    .inModule 0 (.openTransaction 1 .one .generated), .inModule 0 .leaveBody, .inModule 0 .leave]

/-- The same, but the transactions are in two chains: the state is entered once for each. -/
def reentered : List Action :=
  [.transaction "A" .generated, .transaction "B" .generated, .openModule "",
    .inModule 0 (.signal "c" 1 .input 0 .generated),
    .inModule 0 (.signal "d" 1 .input 0 .generated),
    .inModule 0 (.machine "m" ["idle"] .generated),
    .inModule 0 (.enterState 0 "idle" .generated),
    .inModule 0 .branches,
    .inModule 0 (.branch 1 (.signal 6 1)),
    .inModule 0 (.openTransaction 0 .one .generated), .inModule 0 .leaveBody, .inModule 0 .leave,
    .inModule 0 (.otherwise 1), .inModule 0 .leave, .inModule 0 .leave,
    .inModule 0 (.enterState 0 "idle" .generated),
    .inModule 0 .branches,
    .inModule 0 (.branch 2 (.signal 7 1)), .inModule 0 .leave,
    .inModule 0 (.otherwise 2),
    .inModule 0 (.openTransaction 1 .one .generated), .inModule 0 .leaveBody, .inModule 0 .leave]

theorem exclusive_points_of_branches :
    ∃ p q, p ∈ (of branched).points ∧ q ∈ (of branched).points ∧ p.path.exclusiveWith q.path = true ∧
      ∀ σ, ¬ (p.cond.eval σ = 1 ∧ q.cond.eval σ = 1) := by
  have hrec : (of branched).Recorded := recorded_of (by decide +kernel)
  have hpoints : ∃ p ∈ (of branched).points, ∃ q ∈ (of branched).points,
      p.path.exclusiveWith q.path = true ∧
        (p.path.partsAt q.path).all fun key => (of branched).NumberedOnce key := by
    decide +kernel
  obtain ⟨p, hp, q, hq, hx, honce⟩ := hpoints
  refine ⟨p, q, hp, hq, hx, exclusive_points_not_both hrec hp hq hx (.inr fun key hkey => ?_)⟩
  rw [hkey] at honce
  simpa using honce

/-- With `c` high and `d` low both transactions of `reentered` are to run. -/
theorem exclusive_points_both_of_reentered :
    ∃ (d : Draft) (p q : Point) (σ : Valuation), d.Recorded ∧ p ∈ d.points ∧ q ∈ d.points ∧
      p.path.exclusiveWith q.path = true ∧ p.cond.eval σ = 1 ∧ q.cond.eval σ = 1 := by
  have hrec : (of reentered).Recorded := recorded_of (by decide +kernel)
  have hpoints : ∃ p ∈ (of reentered).points, ∃ q ∈ (of reentered).points,
      p.path.exclusiveWith q.path = true ∧
        p.cond.eval (fun i => if i = 6 then 1 else 0) = 1 ∧
        q.cond.eval (fun i => if i = 6 then 1 else 0) = 1 := by
    decide +kernel
  obtain ⟨p, hp, q, hq, hx, hpv, hqv⟩ := hpoints
  exact ⟨_, p, q, _, hrec, hp, hq, hx, hpv, hqv⟩

end Interlock.Draft
