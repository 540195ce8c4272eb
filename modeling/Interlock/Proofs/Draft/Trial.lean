import Interlock.Elaboration
import Interlock.Proofs.Draft.Design
import Interlock.Proofs.Simulation.Steady

/-! Drafts that are elaborated and reset, so that a theorem about all of them can be tried on one. -/

namespace Interlock.Draft

/-- What comes of a draft: its fused design, its schedule, its netlist, and a simulation in reset. -/
structure Trial where
  fused : Design.Fused
  schedule : Schedule
  elaborated : Elaborated
  sink : DiagnosticSink
  kernel : Kernel

def trial? (d : Draft) : Option Trial := do
  let fused ← d.design.fused.result?
  let schedule ← (fused.design.schedule fused.map).toOption
  let (result, sink) ← (d.design.elaborate {}).toOption
  let elaborated ← result.toOption
  let kernel ← (Kernel.new elaborated.netlist).result?
  return ⟨fused, schedule, elaborated, sink, kernel⟩

theorem trial_ok {d : Draft} {x : Trial} (h : d.trial? = some x) :
    Attempt.Gives d.design.fused x.fused ∧ x.fused.design.schedule x.fused.map = .ok x.schedule ∧
      d.design.elaborate {} = .ok (.ok x.elaborated, x.sink) ∧ Kernel.Reachable x.elaborated.netlist x.kernel := by
  simp only [trial?, Option.bind_eq_bind, Option.bind_eq_some_iff, Option.pure_def, Option.some.injEq,
    Attempt.result?_eq_some, Except.toOption_eq_some] at h
  obtain ⟨f, hf, s, hs, ⟨r, sink⟩, he, e, hr, k, hk, rfl⟩ := h
  obtain rfl : r = .ok e := hr
  exact ⟨hf, hs, he, .reset hk⟩

/-- The draft that actions lead to with some settings. -/
def under (config : Config) (actions : List Action) : Draft := ((start config).run actions).getD (start config)

theorem recorded_under {config : Config} {actions : List Action}
    (h : ((start config).run actions).isSome = true) : (under config actions).Recorded := by
  refine ⟨config, actions, ?_⟩
  unfold under
  obtain ⟨d, hd⟩ := Option.isSome_iff_exists.1 h
  rw [hd, Option.getD_some]

/-- The draft that actions lead to. -/
def of (actions : List Action) : Draft := ((start {}).run actions).getD (start {})

theorem run_of {actions : List Action} (h : ((start {}).run actions).isSome = true) :
    (start {}).run actions = some (of actions) := by
  obtain ⟨d, hd⟩ := Option.isSome_iff_exists.1 h
  rw [of, hd, Option.getD_some]

theorem recorded_of {actions : List Action} (h : ((start {}).run actions).isSome = true) :
    (of actions).Recorded := recorded_under h

theorem took_of {action : Action} {before after : List Action}
    (h : ((start {}).run (before ++ action :: after)).isSome = true) : (of (before ++ action :: after)).Took action :=
  ⟨{}, before, after, run_of h⟩

end Interlock.Draft
