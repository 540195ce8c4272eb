import Interlock.Proofs.Digraph.Components
import Interlock.Proofs.Netlist.Loops
import Mathlib.Data.List.Permutation
import Mathlib.Data.String.Basic

/-! The order in which wires settle. The drivers of a netlist can be put in an order exactly where no wire feeds
itself, directly or through others; otherwise the names that are reported are those of a strongly connected component
of the wires that has such a wire in it. -/

namespace Interlock

namespace Netlist

variable {n : Netlist} {x y : SignalId}

theorem Feeds.driven (h : n.Feeds x y) : y ∈ n.comb.map (·.target) := by
  obtain ⟨a, ha, rfl, -⟩ := h
  exact List.mem_map_of_mem ha

theorem path_driven (h : Relation.ReflTransGen n.Feeds x y) (hx : x ∈ n.comb.map (·.target)) :
    y ∈ n.comb.map (·.target) := by
  rcases h.cases_tail with rfl | ⟨_, -, hlast⟩
  · exact hx
  · exact hlast.driven

/-- What a driven wire feeds, step by step, is what its paths lead to. -/
theorem path_dependencies (hx : x ∈ n.comb.map (·.target)) :
    Relation.ReflTransGen n.dependencies.Edge x y ↔ Relation.ReflTransGen n.Feeds x y := by
  constructor
  · exact Relation.ReflTransGen.mono (fun a b hab => (edge_dependencies.1 hab).1) x y
  · intro h
    induction h with
    | refl => exact .refl
    | tail h hfeeds ih => exact ih.tail (edge_dependencies.2 ⟨hfeeds, path_driven h hx⟩)

theorem strong_dependencies (hx : x ∈ n.comb.map (·.target)) :
    n.dependencies.Strong x y ↔ Relation.ReflTransGen n.Feeds x y ∧ Relation.ReflTransGen n.Feeds y x := by
  rw [Digraph.Strong, path_dependencies hx]
  exact and_congr_right fun h => path_dependencies (path_driven h hx)

theorem cycle_dependencies :
    Relation.TransGen n.dependencies.Edge x x ↔ Relation.TransGen n.Feeds x x := by
  simp only [Relation.TransGen.head'_iff]
  constructor
  · rintro ⟨z, hxz, hzx⟩
    have hfeeds := (edge_dependencies.1 hxz).1
    exact ⟨z, hfeeds, (path_dependencies hfeeds.driven).1 hzx⟩
  · rintro ⟨z, hxz, hzx⟩
    exact ⟨z, edge_dependencies.2 ⟨hxz, path_driven hzx hxz.driven⟩, (path_dependencies hxz.driven).2 hzx⟩

/-- Signals that feed each other, with none left out, and one of them feeds itself. -/
structure IsLoop (n : Netlist) (loop : List SignalId) : Prop where
  nodup : loop.Nodup
  strong : ∀ x ∈ loop, ∀ y, y ∈ loop ↔ Relation.ReflTransGen n.Feeds x y ∧ Relation.ReflTransGen n.Feeds y x
  cyclic : ∃ x ∈ loop, Relation.TransGen n.Feeds x x

/-- The component of a wire that feeds itself. -/
theorem isLoop_component (hx : x ∈ n.dependencies.nodes) (hcycle : Relation.TransGen n.dependencies.Edge x x) :
    n.IsLoop (n.dependencies.component x) := by
  have hc := Digraph.isComponent dependencies_within hx
  have hmem {y : SignalId} := Digraph.mem_component dependencies_within hx (m := y)
  refine ⟨hc.nodup, fun y hy z => ?_, x, hmem.2 (.refl _ x), cycle_dependencies.1 hcycle⟩
  have hdriven := (n.dependencies_spec.1 y).1 ((hmem.1 hy).mem dependencies_within hx)
  rw [hc.strong y hy z, strong_dependencies hdriven]

/-- The signal of a position, looked up while the order is made. -/
def lookup (n : Netlist) (x : SignalId) : Attempt NetlistError Signal := Attempt.ofChecked (n.signals.get x)

/-- Every signal is found, or the first that does not exist is the fault. -/
theorem mapM_lookup (ids : List SignalId) :
    (∃ members, (∀ x ∈ ids, x < n.signals.size) ∧ (ids.mapM n.lookup).Gives members ∧
        members.map (·.name) = ids.filterMap fun x => (n.signals.get? x).map (·.name)) ∨
      ∃ x ∈ ids, n.signals.size ≤ x ∧ (ids.mapM n.lookup).run = .error (.noSuchIndex x) := by
  induction ids with
  | nil => exact .inl ⟨[], fun _ hx => absurd hx List.not_mem_nil, rfl, rfl⟩
  | cons x ids ih =>
    rw [List.mapM_cons, lookup]
    cases hx : n.signals.get? x with
    | none =>
      refine .inr ⟨x, List.mem_cons_self .., Array.getElem?_eq_none_iff.1 hx, ?_⟩
      rw [Arena.get, hx]
      rfl
    | some s =>
      rw [Arena.get_ok.2 hx]
      rcases ih with ⟨members, hexist, hgives, hnames⟩ | ⟨y, hy, hsize, hfault⟩
      · refine .inl ⟨s :: members, List.forall_mem_cons.2 ⟨Arena.lt_of_get? hx, hexist⟩, ?_, ?_⟩
        · simp only [Attempt.gives_bind, Attempt.gives_ofChecked, Attempt.gives_pure]
          exact ⟨s, rfl, members, hgives, rfl⟩
        · rw [List.filterMap_cons_some (by rw [hx]; rfl), List.map_cons, hnames]
      · refine .inr ⟨y, List.mem_cons_of_mem _ hy, hsize, ?_⟩
        show (ids.mapM n.lookup >>= fun members => pure (s :: members)).run = _
        rw [ExceptT.run_bind, hfault]
        rfl

/-- How a loop is reported: by the names of its signals, sorted, where all of these exist. -/
structure ReportsLoop (n : Netlist) (loop : List SignalId) : Prop where
  names : (∀ x ∈ loop, x < n.signals.size) → ∃ names, n.combOrder.run = .ok (.error (.combLoop names)) ∧
    names.Pairwise (· ≤ ·) ∧ names.Perm (loop.filterMap fun x => (n.signals.get? x).map (·.name))
  missing : (∃ x ∈ loop, n.signals.size ≤ x) →
    ∃ x ∈ loop, n.signals.size ≤ x ∧ n.combOrder.run = .error (.noSuchIndex x)

theorem reportsLoop {x : SignalId} (hx : n.dependencies.topologicalOrder = .error x) :
    n.ReportsLoop (n.dependencies.component x) := by
  have hrun : n.combOrder = (n.dependencies.component x).mapM n.lookup >>= fun members =>
      throw (.combLoop ((members.map (·.name)).mergeSort (· ≤ ·))) := by
    rw [combOrder, hx]
    rfl
  rcases n.mapM_lookup (n.dependencies.component x) with ⟨members, hexist, hgives, hnames⟩ | ⟨y, hy, hsize, hfault⟩
  · refine ⟨fun _ => ⟨(members.map (·.name)).mergeSort (· ≤ ·), ?_, ?_, ?_⟩, fun ⟨y, hy, hsize⟩ => ?_⟩
    · rw [hrun, ExceptT.run_bind, show ExceptT.run _ = _ from hgives]
      rfl
    · have hsorted : ((members.map (·.name)).mergeSort (· ≤ ·)).Pairwise fun a b => decide (a ≤ b) = true :=
        List.pairwise_mergeSort (fun a b c => by simpa only [decide_eq_true_eq] using le_trans)
          (fun a b => by simpa using le_total a b) _
      simpa only [decide_eq_true_eq] using hsorted
    · rw [← hnames]
      exact List.mergeSort_perm ..
    · exact absurd (hexist y hy) (Nat.not_lt.2 hsize)
  · refine ⟨fun hexist => absurd (hexist y hy) (Nat.not_lt.2 hsize), fun _ => ⟨y, hy, hsize, ?_⟩⟩
    rw [hrun, ExceptT.run_bind, hfault]
    rfl

/-- Without an order there is a loop, and it is the one that is reported. -/
theorem combOrder_outcome (n : Netlist) :
    (∃ order, n.combOrder.Gives order) ∨ ∃ loop, n.IsLoop loop ∧ n.ReportsLoop loop := by
  rcases n.dependencies.topologicalOrder_outcome dependencies_within with ⟨ids, hids, -⟩ | ⟨x, hx, hnode, hcycle⟩
  · exact .inl ⟨_, combOrder_gives_iff.2 ⟨ids, hids, rfl⟩⟩
  · exact .inr ⟨_, isLoop_component hnode hcycle, reportsLoop hx⟩

/-- An order leaves no wire that feeds itself. -/
theorem combOrder_acyclic {order : List Nat} (h : n.combOrder.Gives order) : ¬ Relation.TransGen n.Feeds x x := by
  obtain ⟨ids, hids, -⟩ := combOrder_gives_iff.1 h
  have hs := Digraph.topologicalOrder_sorted (fun a b hab => (dependencies_within a b hab).2) hids
  rw [← cycle_dependencies]
  exact hs.acyclic (fun a b hab => (dependencies_within a b hab).2) x

end Netlist

/-- Where no two drivers have the same target, an order of the drivers is found exactly where no wire feeds itself; it
has every driver once, after those of the wires that it reads. Otherwise the names of one strongly connected component
with such a wire are reported. -/
theorem levelization_complete {n : Netlist} (hdistinct : (n.comb.map (·.target)).Nodup) :
    ((∃ order, n.combOrder.Gives order) ↔ ∀ x, ¬ Relation.TransGen n.Feeds x x) ∧
      (∀ order, n.combOrder.Gives order → n.Levelization order) ∧
      ((∃ x, Relation.TransGen n.Feeds x x) → ∃ loop, n.IsLoop loop ∧ n.ReportsLoop loop) := by
  have horder : (∃ order, n.combOrder.Gives order) → ∀ x, ¬ Relation.TransGen n.Feeds x x :=
    fun ⟨_, h⟩ x => Netlist.combOrder_acyclic h
  refine ⟨⟨horder, fun hacyclic => ?_⟩, fun order => Netlist.combOrder_levelization hdistinct, fun ⟨x, hx⟩ => ?_⟩
  · refine n.combOrder_outcome.resolve_right ?_
    rintro ⟨loop, hloop, -⟩
    obtain ⟨x, -, hx⟩ := hloop.cyclic
    exact hacyclic x hx
  · exact n.combOrder_outcome.resolve_left fun h => horder h x hx

/-- `r` follows `p`, which follows `q`. -/
def Netlist.chained : Netlist where
  name := "chained"
  signals := .ofList [⟨0, "r", 1, .wire, 0⟩, ⟨1, "q", 1, .wire, 0⟩, ⟨2, "p", 1, .wire, 0⟩]
  comb := [⟨0, .unary .not (.signal 2 1)⟩, ⟨2, .binary .xor (.signal 1 1) (.const 1 1)⟩]

/-- The same, and `q` follows `p` in turn. -/
def Netlist.knotted : Netlist := { chained with comb := chained.comb ++ [⟨1, .unary .not (.signal 2 1)⟩] }

/-- The driver of `p` comes before that of `r`; of the other netlist `p` and `q` are reported. -/
theorem levelization_complete_of_chained :
    Netlist.chained.combOrder.Gives [1, 0] ∧ Netlist.chained.Levelization [1, 0] ∧
      ∃ loop, Netlist.knotted.IsLoop loop ∧ Netlist.knotted.ReportsLoop loop ∧
        Netlist.knotted.combOrder.run = .ok (.error (.combLoop ["p", "q"])) := by
  have horder : Netlist.chained.combOrder.Gives [1, 0] := by
    show Netlist.chained.combOrder.run = .ok (.ok [1, 0])
    decide +kernel
  have hcycle : Relation.TransGen Netlist.knotted.Feeds 1 1 :=
    .tail (.single ⟨⟨2, .binary .xor (.signal 1 1) (.const 1 1)⟩, by decide, rfl, by decide⟩)
      ⟨⟨1, .unary .not (.signal 2 1)⟩, by decide, rfl, by decide⟩
  obtain ⟨loop, hloop, hreports⟩ := (levelization_complete (n := .knotted) (by decide)).2.2 ⟨1, hcycle⟩
  exact ⟨horder, (levelization_complete (n := .chained) (by decide)).2.1 _ horder, loop, hloop, hreports, by cbv⟩

end Interlock
