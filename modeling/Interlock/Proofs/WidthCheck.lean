import Interlock.Proofs.Draft.Trial
import Interlock.Proofs.Expr.Denote
import Interlock.Proofs.Levelization
import Interlock.Proofs.Simulation.Session

/-! What the check of a netlist says about the parts of its drivers. It asks for the width of each driver, so the
parts that this width depends on are narrow; the operands of a comparison or reduction, the select of a `mux` and
the base of a slice are not looked at. Where these are narrow as well, no driver loses bits in any state of a
simulation, and no step of the simulation stops with a fault. -/

namespace Interlock

open Kernel

namespace Netlist

variable {n : Netlist}

theorem Regular.driver_narrow (h : n.Regular) : ∀ a ∈ n.comb ++ n.sync, a.value.width ≤ maxWidth :=
  List.forall_mem_append.2 ⟨fun a ha => (h.comb a ha).narrow, fun a ha => (h.sync a ha).narrow⟩

/-- The check asks for the width of every driver. -/
theorem validate_narrow (h : n.validate.Gives ()) : ∀ a ∈ n.comb ++ n.sync, a.value.Narrow := fun a ha =>
  have hn := validate_regular h
  ⟨hn.validate_gives.1 h a ha, hn.driver_narrow a ha⟩

/-- Every driver, with all its parts, is narrow. -/
def WellSized (n : Netlist) : Prop := ∀ a ∈ n.comb ++ n.sync, a.value.WellSized

instance : DecidablePred WellSized := fun n => inferInstanceAs (Decidable (∀ a ∈ n.comb ++ n.sync, a.value.WellSized))

theorem wellSized_iff (h : n.validate.Gives ()) :
    n.WellSized ↔ ∀ a ∈ n.comb ++ n.sync, ∀ p ∈ a.value.unasked, p.Narrow :=
  forall₂_congr fun a ha => (validate_narrow h a ha).wellSized_iff

/-- The signals of a loop are driven, so they exist. -/
theorem IsLoop.exist (hn : n.Valid) {loop : List SignalId} (h : n.IsLoop loop) : ∀ x ∈ loop, x < n.signals.size := by
  obtain ⟨y, hy, hcycle⟩ := h.cyclic
  have hdriven : y ∈ n.comb.map (·.target) := by
    obtain ⟨_, -, hlast⟩ := Relation.TransGen.tail'_iff.1 hcycle
    exact hlast.driven
  intro x hx
  obtain ⟨a, ha, rfl⟩ := List.mem_map.1 (path_driven ((h.strong y hy x).1 hx).1 hdriven)
  exact target_lt (hn.comb a ha)

end Netlist

namespace Kernel

variable {n : Netlist} {k : Kernel}

theorem new_loop {e : NetlistError} (hvalidate : n.validate.Gives ()) (he : n.combOrder.run = .ok (.error e)) :
    (Kernel.new n).run = .ok (.error (.netlist e)) := by
  have hpassed : (ExceptT.adapt SimError.netlist n.validate).run = .ok (.ok ()) := Attempt.gives_adapt.2 hvalidate
  have hfailed : (ExceptT.adapt SimError.netlist n.combOrder).run = .ok (.error (.netlist e)) := by
    show Except.map _ n.combOrder.run = _
    rw [he]
    rfl
  rw [new, ExceptT.run_bind, hpassed]
  show ExceptT.run (ExceptT.adapt SimError.netlist n.combOrder >>= _) = _
  rw [ExceptT.run_bind, hfailed]
  rfl

/-- A kernel starts, or the loop is reported that keeps it from starting. -/
theorem new_answers (hvalidate : n.validate.Gives ()) (hsize : n.WellSized) : ∃ result, (Kernel.new n).run = .ok result := by
  rcases n.combOrder_outcome with ⟨order, horder⟩ | ⟨loop, hloop, hreports⟩
  · obtain ⟨k, hk⟩ := new_gives hvalidate horder fun a ha => (hsize a (List.mem_append_left _ ha)).defined
    exact ⟨.ok k, hk⟩
  · obtain ⟨names, he, -⟩ := hreports.names (hloop.exist (Netlist.validate_ok hvalidate))
    exact ⟨_, new_loop hvalidate he⟩

/-- Every driver has a value, which is the one over the natural numbers if its constants fit, and every step has a
result. -/
structure Answers (n : Netlist) (k : Kernel) : Prop where
  drivers : ∀ a ∈ n.comb ++ n.sync, ∃ v, a.value.evalChecked k.values.valuation = .ok v ∧
    (a.value.fits = true → v.toNat < 2 ^ a.value.width ∧ v.toNat = a.value.denote fun i => (k.values.getD i 0).toNat)
  settle : k.settle = .ok k
  tick : ∃ k', k.tick = .ok k'
  set : ∀ i < n.signals.size, ∀ v, ∃ result, (k.set i v).run = .ok result

theorem Reachable.answers (hvalidate : n.validate.Gives ()) (hsize : n.WellSized) (h : Reachable n k) : Answers n k := by
  have hn : n.Simulable := h.simulable hvalidate fun a ha => (hsize a ha).defined
  have hexact : Exact n k := ⟨h.steady.toReady, h.solves⟩
  refine ⟨fun a ha => Expr.WellSized.evalChecked (hsize a ha), hexact.settle hn, h.tick_gives hn, fun i hi v => ?_⟩
  obtain ⟨s, hs⟩ := Arena.exists_get? hi
  by_cases hkind : s.kind = .input
  · obtain ⟨values, hset, -⟩ := hexact.set hn hs hkind v
    exact ⟨_, hset⟩
  · exact ⟨_, hexact.set_refused hs hkind v⟩

end Kernel

/-- Of the drivers of a netlist that passes the check, the parts that their widths depend on are narrow. Whether the
others are is all that is left for every part to be, and for a simulation that has a result at every step, with no
bit of a driver lost. -/
theorem validate_covers {n : Netlist} (hvalidate : n.validate.Gives ()) :
    (∀ a ∈ n.comb ++ n.sync, ∀ p ∈ a.value.asked, p.Narrow) ∧
      ((∀ a ∈ n.comb ++ n.sync, ∀ p ∈ a.value.unasked, p.Narrow) →
        (∀ a ∈ n.comb ++ n.sync, ∀ p ∈ a.value.parts, p.Narrow) ∧ (∃ result, (Kernel.new n).run = .ok result) ∧
          ∀ k, Reachable n k → Answers n k) := by
  refine ⟨fun a ha => (Netlist.validate_narrow hvalidate a ha).asked, fun hunasked => ?_⟩
  have hsize := (Netlist.wellSized_iff hvalidate).2 hunasked
  exact ⟨hsize, new_answers hvalidate hsize, fun k => Reachable.answers hvalidate hsize⟩

theorem validate_covers_of_counter :
    Netlist.counter.validate.Gives () ∧ (∀ a ∈ Netlist.counter.comb ++ Netlist.counter.sync, ∀ p ∈ a.value.parts, p.Narrow) ∧
      ∃ k, (Kernel.new Netlist.counter).Gives k ∧ Answers Netlist.counter k := by
  have hvalidate : Netlist.counter.validate.Gives () := by
    show Netlist.counter.validate.run = .ok (.ok ())
    decide +kernel
  obtain ⟨k, hk⟩ : ∃ k, (Kernel.new Netlist.counter).Gives k := by
    have hstarts : (Kernel.new Netlist.counter).result?.isSome = true := by decide +kernel
    obtain ⟨k, hk⟩ := Option.isSome_iff_exists.1 hstarts
    exact ⟨k, Attempt.result?_eq_some.1 hk⟩
  obtain ⟨hparts, -, hanswers⟩ := (validate_covers hvalidate).2 (by decide +kernel)
  exact ⟨hvalidate, hparts, k, hk, hanswers k (.reset hk)⟩

/-- Two pairs of 40 bits each are compared. -/
def Netlist.overwide : Netlist where
  name := "overwide"
  signals := .ofList [⟨0, "a", 40, .input, 0⟩, ⟨1, "b", 40, .input, 0⟩, ⟨2, "same", 1, .wire, 0⟩]
  comb := [⟨2, .binary .eq (.concat [.signal 0 40, .signal 1 40]) (.concat [.signal 0 40, .signal 0 40])⟩]

/-- A slice that ends before it starts is reduced to a bit. -/
def Netlist.reversed : Netlist where
  name := "reversed"
  signals := .ofList [⟨0, "a", 8, .input, 0⟩, ⟨1, "some", 1, .wire, 0⟩]
  comb := [⟨1, .unary .redOr (.slice (.signal 0 8) 2 5)⟩]

/-- Both pass the check. Of a pair of 80 bits the upper 16 are lost, so that different pairs are the same; and the
reversed slice stops the simulation before it starts. -/
theorem validate_misses_parts :
    (Netlist.overwide.validate.Gives () ∧ ∃ a ∈ Netlist.overwide.comb, ∃ p ∈ a.value.parts, p.width = 80 ∧
        ∃ k, Reachable Netlist.overwide k ∧ a.value.evalChecked k.values.valuation = .ok 1 ∧
          a.value.fits = true ∧ (a.value.denote fun i => (k.values.getD i 0).toNat) = 0) ∧
      Netlist.reversed.validate.Gives () ∧ (Kernel.new Netlist.reversed).run = .error .undefinedWidth := by
  have hstarts : ∃ k ∈ (Kernel.new Netlist.overwide).result?, ∃ k' ∈ (k.set 1 (2 ^ 39)).result?, k'.values = #[0, 2 ^ 39, 1] := by
    decide +kernel
  obtain ⟨k, hk, k', hk', hvalues⟩ := hstarts
  refine ⟨⟨?_, _, List.mem_singleton_self _, .concat [.signal 0 40, .signal 1 40], by decide +kernel, by decide, k',
    .set (.reset (Attempt.result?_eq_some.1 hk)) (Attempt.result?_eq_some.1 hk'), ?_, by decide +kernel, ?_⟩, ?_, ?_⟩
  · show Netlist.overwide.validate.run = .ok (.ok ())
    decide +kernel
  · rw [hvalues]
    decide +kernel
  · rw [hvalues]
    decide +kernel
  · show Netlist.reversed.validate.run = .ok (.ok ())
    decide +kernel
  · rfl

end Interlock
