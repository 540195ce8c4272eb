import Interlock.Proofs.Digraph.Components
import Interlock.Proofs.Elaboration.Closed
import Interlock.Proofs.Netlist.Rules

/-! Netlists without loops. Where no chain of reads goes on forever, the combinational drivers have an order; and
the drivers that a design is lowered to read what its assignments read. -/

namespace Interlock

namespace Netlist

variable {n : Netlist}

/-- The combinational driver of `x` reads `y`. -/
def Feeds (n : Netlist) (y x : SignalId) : Prop := ∃ a ∈ n.comb, a.target = x ∧ y ∈ a.value.reads

theorem edge_dependencies {x y : SignalId} :
    n.dependencies.Edge x y ↔ n.Feeds x y ∧ x ∈ n.comb.map (·.target) := by
  rw [n.dependencies_spec.2 x y]
  constructor
  · rintro ⟨a, ha, hay, hx⟩
    exact ⟨⟨a, ha, hay, (mem_drivenReads.1 hx).1⟩, (mem_drivenReads.1 hx).2⟩
  · rintro ⟨⟨a, ha, hay, hread⟩, hx⟩
    exact ⟨a, ha, hay, mem_drivenReads.2 ⟨hread, hx⟩⟩

theorem dependencies_acyclic (h : WellFounded n.Feeds) : n.dependencies.Acyclic := by
  intro x hx
  have hfeeds : Relation.TransGen n.Feeds x x := Relation.TransGen.mono (fun a b hab => (edge_dependencies.1 hab).1) x x hx
  exact h.transGen.asymmetric x x hfeeds hfeeds

/-- Without loops there is an order of the drivers. -/
theorem combOrder_gives (h : WellFounded n.Feeds) : ∃ order, Attempt.Gives n.combOrder order := by
  obtain ⟨ids, hids⟩ := Digraph.topologicalOrder_acyclic (dependencies_acyclic h) dependencies_within
  exact ⟨_, combOrder_gives_iff.2 ⟨ids, hids, rfl⟩⟩

end Netlist

/-- What an assignment reads. -/
def GuardedAssign.reads (a : GuardedAssign) : List SignalId := a.guard.reads ++ a.value.reads

/-- A combinational assignment to `x` reads `y`. -/
def Design.Feeds (d : Design) (y x : SignalId) : Prop :=
  ∃ a ∈ d.assigns, a.domain = .comb ∧ a.target = x ∧ y ∈ a.reads

namespace Design

variable {d : Design}

theorem lowered_feeds (hcomb : d.netlist.comb = []) {x y : SignalId} (h : d.lowered.Feeds y x) : d.Feeds y x := by
  obtain ⟨a, ha, rfl, hy⟩ := h
  simp only [lowered, Drivers.build, hcomb, List.nil_append, List.mem_map] at ha
  obtain ⟨x, -, rfl⟩ := ha
  have hdriver : Expr.ReadsIn (fun y => d.Feeds y x) (Drivers.driver d.netlist d.assigns .comb x).value := by
    refine Drivers.closed_driver (Expr.closed_readsIn _) trivial (fun h => by cases h) fun a ha hx hdomain => ?_
    exact ⟨fun y hy => ⟨a, ha, hdomain, hx, List.mem_append_left _ hy⟩,
      fun y hy => ⟨a, ha, hdomain, hx, List.mem_append_right _ hy⟩⟩
  exact hdriver y hy

/-- Lowering a design that keeps the rules and has no loops ends with no error. -/
theorem lower_raises_none {owner : SignalId → Option Location} (hr : d.lowered.Regular)
    (hcomb : d.netlist.comb = []) (h : WellFounded d.Feeds) :
    Attempt.Raises (fun _ => False) (Drivers.lower d.netlist d.assigns owner) := by
  have hwf : WellFounded d.lowered.Feeds := Subrelation.wf (lowered_feeds hcomb) h
  obtain ⟨order, horder⟩ := Netlist.combOrder_gives hwf
  refine Attempt.raises_bind (Attempt.raises_adapt ?_) fun _ _ => Attempt.raises_pure _
  refine Attempt.raises_bind ?_ fun _ _ => Attempt.raises_bind (fun e he => ?_) fun _ _ => Attempt.raises_pure _
  · have hvalidate : (Drivers.build d.netlist d.assigns).validate = _ := hr.validate
    rw [hvalidate]
    exact Attempt.raises_ofChecked _
  · cases he.symm.trans horder

end Design

end Interlock
