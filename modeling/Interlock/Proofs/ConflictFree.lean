import Interlock.Proofs.Arbiter.Exclusive
import Interlock.Proofs.Draft.Trial
import Interlock.Proofs.Elaboration

/-! Freedom from conflicts: whatever the inputs do, no two transactions that conflict are granted in the
same cycle. -/

namespace Interlock

namespace Design

/-- A transaction is granted. -/
def Granted (d : Design) (k : Kernel) (t : NodeId) : Prop :=
  ∃ info ∈ (d.node t).transaction?, k.get info.grant = .ok 1

instance (d : Design) (k : Kernel) (t : NodeId) : Decidable (d.Granted k t) :=
  inferInstanceAs (Decidable (∃ info ∈ (d.node t).transaction?, k.get info.grant = .ok 1))

/-- A transaction requests to run and is runnable. -/
def Wanting (d : Design) (k : Kernel) (t : NodeId) : Prop :=
  ∃ info ∈ (d.node t).transaction?, k.get info.request = .ok 1 ∧ k.get info.runnable = .ok 1

instance (d : Design) (k : Kernel) (t : NodeId) : Decidable (d.Wanting k t) :=
  inferInstanceAs (Decidable (∃ info ∈ (d.node t).transaction?, k.get info.request = .ok 1 ∧
    k.get info.runnable = .ok 1))

variable {d d' : Design} {map : CallMap} {s : Schedule} {l : List GuardedAssign} {k : Kernel}

theorem Wired.granted_iff (h : Wired d d' l) (hk : Kernel.Reachable d'.lowered k) {t : NodeId}
    (ht : t ∈ d.transactions) : d.Granted k t ↔ d.runs k t = true := by
  obtain ⟨info, htr⟩ := h.sound.transaction ht
  rw [Granted, htr.transaction?, runs, htr.activator, ← h.get_one hk htr.grant]
  simp

theorem Wired.wanting_iff (h : Wired d d' l) (hk : Kernel.Reachable d'.lowered k) {t : NodeId}
    (ht : t ∈ d.transactions) : d.Wanting k t ↔ (Arbiter.wants d t).truth k.values.valuation = true := by
  obtain ⟨info, htr⟩ := h.sound.transaction ht
  rw [Wanting, htr.transaction?, Arbiter.truth_wants htr, Bool.and_eq_true, ← h.get_one hk htr.request,
    ← h.get_one hk htr.runnable]
  simp

namespace Circuit

/-- A conflict lies within a class, and the arbiter of the class sees to it. -/
theorem apart (h : Circuit d map s d' l) (hk : Kernel.Reachable d'.lowered k) {t u : NodeId}
    (hc : s.conflict t u = true) : ¬ (d.runs k t = true ∧ d.runs k u = true) := by
  obtain ⟨hne, members, hm, ht, hu⟩ := h.schedules.same_class hc
  exact (h.arbiters members hm).apart h.toWired (h.schedules.members members hm) hk ht hu hne hc
    (Schedule.linked_symm hc)

/-- Only a transaction that wants to is granted. -/
theorem wants (h : Circuit d map s d' l) (hk : Kernel.Reachable d'.lowered k) {t : NodeId}
    (ht : t ∈ d.transactions) (hgt : d.runs k t = true) :
    (Arbiter.wants d t).truth k.values.valuation = true := by
  obtain ⟨members, hm, htm⟩ := List.mem_flatten.1 ((h.schedules.classes t).2 ht)
  exact (h.arbiters members hm).wants h.toWired (h.schedules.members members hm) hk htm hgt

theorem get_activator (h : Circuit d map s d' l) (hk : Kernel.Reachable d'.lowered k) {t : NodeId}
    (ht : t ∈ d.transactions) : k.get (d.node t).activator = .ok (d.runs k t).toUInt64 := by
  obtain ⟨info, htr⟩ := h.sound.transaction ht
  exact h.toWired.get_bit hk (htr.activator ▸ htr.grant)

end Circuit

end Design

/-- Two transactions that the schedule has in conflict are never granted together, with either scheduler
and in every state that inputs and clock edges lead to. -/
theorem conflicting_not_both_granted {d : Draft} (hd : d.Recorded) {sink sink' : DiagnosticSink}
    {e : Elaborated} (he : d.design.elaborate sink = .ok (.ok e, sink')) {f : Design.Fused}
    (hf : Attempt.Gives d.design.fused f) {s : Schedule} (hs : f.design.schedule f.map = .ok s) {k : Kernel}
    (hk : Kernel.Reachable e.netlist k) {t u : NodeId} (hc : s.conflict t u = true) :
    ∃ v w, k.get (f.design.node t).activator = .ok v ∧ k.get (f.design.node u).activator = .ok w ∧
      ¬ (v = 1 ∧ w = 1) := by
  obtain ⟨d', l, h, hnetlist⟩ := Design.elaborate_circuit hd.sound he hf hs
  rw [hnetlist] at hk
  obtain ⟨-, members, hm, ht, hu⟩ := h.schedules.same_class hc
  have hall := h.schedules.members members hm
  refine ⟨_, _, h.get_activator hk (hall t ht), h.get_activator hk (hall u hu), fun ⟨hv, hw⟩ => ?_⟩
  exact h.apart hk hc ⟨toUInt64_eq_one.1 hv, toUInt64_eq_one.1 hw⟩

namespace Draft

/-- Two transactions that call one method. -/
def shared : List Action :=
  [.transaction "A" .generated, .transaction "B" .generated, .method { name := "m" } .generated,
    .openModule "",
    .inModule 0 (.openMethod 2 .one none .generated), .inModule 0 .leaveBody,
    .inModule 0 (.openTransaction 0 .one .generated),
    .inModule 0 (.call 2 (.zero 0) .one .generated), .inModule 0 .leaveBody,
    .inModule 0 (.openTransaction 1 .one .generated),
    .inModule 0 (.call 2 (.zero 0) .one .generated), .inModule 0 .leaveBody]

end Draft

theorem conflicting_not_both_granted_of_shared :
    ∃ x : Draft.Trial, (Draft.of Draft.shared).trial? = some x ∧ x.schedule.conflict 0 1 = true ∧
      x.kernel.get (x.fused.design.node 0).activator = .ok 1 ∧
      ∃ v w, x.kernel.get (x.fused.design.node 0).activator = .ok v ∧
        x.kernel.get (x.fused.design.node 1).activator = .ok w ∧ ¬ (v = 1 ∧ w = 1) := by
  have hrec : (Draft.of Draft.shared).Recorded := Draft.recorded_of (by decide +kernel)
  have htrial : ∃ x ∈ (Draft.of Draft.shared).trial?, x.schedule.conflict 0 1 = true ∧
      x.kernel.get (x.fused.design.node 0).activator = .ok 1 := by
    decide +kernel
  obtain ⟨x, hx, hc, hgrant⟩ := htrial
  obtain ⟨hf, hs, he, hk⟩ := Draft.trial_ok hx
  exact ⟨x, hx, hc, hgrant, conflicting_not_both_granted hrec he hf hs hk hc⟩

end Interlock
