import Interlock.Proofs.Elaboration
import Interlock.Proofs.Relations

/-! How elaboration ends once the design is fused. The check of orderings comes first; what follows appends its
diagnostics to the sink, whatever is in it, and reads the relations in the schedule only. -/

namespace Interlock

namespace Pass

variable {α β : Type}

/-- Runs the steps; an error is emitted and returned. -/
def conclude (x : Pass α) (sink : DiagnosticSink) : Except Fault (Except DesignError α × DiagnosticSink) := do
  let (result, sink) ← x.run.run sink
  match result with
  | .ok a => return (.ok a, sink)
  | .error e => return (.error e, sink.emit e.toDiagnostic)

/-- What the step ends with, and what it emits, does not depend on the sink. -/
def Appends (x : Pass α) : Prop :=
  ∃ r : Except Fault (Except DesignError α × List Diagnostic),
    ∀ sink, x.run.run sink = r.map fun p => (p.1, p.2.foldl DiagnosticSink.emit sink)

theorem appends_pure (a : α) : Appends (pure a : Pass α) := ⟨.ok (.ok a, []), fun _ => rfl⟩

theorem appends_ofAttempt (x : Attempt DesignError α) : Appends (ofAttempt x) := by
  refine ⟨x.run.map fun r => (r, []), fun sink => ?_⟩
  rcases x with fault | r <;> rfl

theorem appends_emit (diagnostics : List Diagnostic) : Appends (emit diagnostics) :=
  ⟨.ok (.ok (), diagnostics), fun _ => rfl⟩

theorem Appends.bind {x : Pass α} {f : α → Pass β} (hx : Appends x) (hf : ∀ a, Appends (f a)) : Appends (x >>= f) := by
  obtain ⟨r, hr⟩ := hx
  simp only [Appends, ExceptT.run_bind, StateT.run_bind, hr]
  rcases r with fault | ⟨e | a, l⟩
  · exact ⟨.error fault, fun _ => rfl⟩
  · exact ⟨.ok (.error e, l), fun _ => rfl⟩
  · obtain ⟨r', hr'⟩ := hf a
    refine ⟨r'.map fun p => (p.1, l ++ p.2), fun sink => ?_⟩
    show (f a).run.run _ = _
    rw [hr']
    cases r' with
    | error fault => rfl
    | ok p => simp [Except.map, List.foldl_append]

theorem Appends.conclude {x : Pass α} (hx : Appends x) :
    ∃ r : Except Fault (Except DesignError α × List Diagnostic),
      ∀ sink, x.conclude sink = r.map fun p => (p.1, p.2.foldl DiagnosticSink.emit sink) := by
  obtain ⟨r, hr⟩ := hx
  simp only [Pass.conclude, hr]
  rcases r with fault | ⟨e | a, l⟩
  · exact ⟨.error fault, fun _ => rfl⟩
  · refine ⟨.ok (.error e, l ++ [e.toDiagnostic]), fun sink => ?_⟩
    simp only [Except.map, List.foldl_append, List.foldl_cons, List.foldl_nil]
    rfl
  · exact ⟨.ok (.ok a, l), fun _ => rfl⟩

/-- Attempts that agree on what follows lead to the same steps. -/
theorem bind_congr_of_agrees {x x' : Attempt DesignError α} {f f' : α → Pass β}
    (h : Attempt.Agrees Eq (fun a a' => f a = f' a') x x') : ofAttempt x >>= f = ofAttempt x' >>= f' := by
  unfold Attempt.Agrees at h
  unfold ofAttempt
  generalize x.run = r at h ⊢
  generalize x'.run = r' at h ⊢
  cases h with
  | error h =>
    subst h
    rfl
  | ok h =>
    cases h with
    | error h =>
      subst h
      rfl
    | ok h => exact h

end Pass

namespace Design

variable {d : Design} {f : Fused}

/-- The steps once the logic is there. -/
def finish (d : Design) (map : CallMap) (s : Schedule) (groups : List Fusion.FusedGroup) : Pass Elaborated := do
  Pass.emit (d.unusedWarnings map)
  let netlist ← Pass.ofAttempt (Drivers.lower d.netlist d.assigns d.ownerOf)
  return ⟨netlist, ScheduleReport.ofSchedule d s groups⟩

/-- The steps that follow the check of orderings. -/
def Fused.afterCheck (f : Fused) : Pass Elaborated := do
  let s ← Pass.ofAttempt (Attempt.ofExcept (f.design.schedule f.map))
  let d ← Pass.ofAttempt (f.design.withLogic f.map s)
  d.finish f.map s f.groups

theorem elaborate_eq (d : Design) (sink : DiagnosticSink) : d.elaborate sink = d.elaborateSteps.conclude sink := by
  unfold elaborate Pass.conclude
  rcases d.elaborateSteps.run.run sink with fault | ⟨e | a, s⟩ <;> rfl

theorem elaborate_of_fused (hf : Attempt.Gives d.fused f) (sink : DiagnosticSink) :
    d.elaborate sink = match f.design.checkOrder with
      | .error e => .ok (.error e, sink.emit e.toDiagnostic)
      | .ok warnings => f.afterCheck.conclude (warnings.foldl DiagnosticSink.emit sink) := by
  have hsteps : d.elaborateSteps = Pass.ofAttempt d.fused >>= fun f =>
      Pass.ofAttempt (Attempt.ofExcept f.design.checkOrder) >>= fun warnings => Pass.emit warnings >>= fun _ =>
        f.afterCheck := rfl
  have hrun : d.fused.run = .ok (.ok f) := hf
  rw [elaborate_eq, hsteps, Pass.ofAttempt, hrun]
  show Pass.conclude (Pass.ofAttempt (Attempt.ofExcept f.design.checkOrder) >>= fun warnings =>
    Pass.emit warnings >>= fun _ => f.afterCheck) sink = _
  cases f.design.checkOrder with
  | error e => rfl
  | ok warnings => rfl

theorem elaborate_of_checked {warnings : List Diagnostic} (hf : Attempt.Gives d.fused f)
    (h : f.design.checkOrder = .ok warnings) (sink : DiagnosticSink) :
    d.elaborate sink = f.afterCheck.conclude (warnings.foldl DiagnosticSink.emit sink) := by
  rw [elaborate_of_fused hf, h]

theorem elaborate_of_refused {e : DesignError} (hf : Attempt.Gives d.fused f) (h : f.design.checkOrder = .error e)
    (sink : DiagnosticSink) : d.elaborate sink = .ok (.error e, sink.emit e.toDiagnostic) := by
  rw [elaborate_of_fused hf, h]

theorem elaborate_of_unscheduled {warnings : List Diagnostic} {e : DesignError} (hf : Attempt.Gives d.fused f)
    (h : f.design.checkOrder = .ok warnings) (hs : f.design.schedule f.map = .error e) (sink : DiagnosticSink) :
    d.elaborate sink = .ok (.error e, (warnings.foldl DiagnosticSink.emit sink).emit e.toDiagnostic) := by
  rw [elaborate_of_checked hf h, Fused.afterCheck, hs]
  rfl

theorem Fused.afterCheck_appends (f : Fused) : f.afterCheck.Appends :=
  (Pass.appends_ofAttempt _).bind fun _ => (Pass.appends_ofAttempt _).bind fun _ =>
    (Pass.appends_emit _).bind fun _ => (Pass.appends_ofAttempt _).bind fun _ => Pass.appends_pure _

/-- Relations that lead to the same schedule lead to the same steps. -/
theorem Fused.afterCheck_withRelations {rs : List Relation}
    (h : (f.design.withRelations rs).schedule f.map = f.design.schedule f.map) :
    Fused.afterCheck { f with design := f.design.withRelations rs } = f.afterCheck := by
  unfold Fused.afterCheck
  simp only [h]
  refine bind_congr fun s => Eq.symm (Pass.bind_congr_of_agrees ?_)
  exact (withLogic_replaces f.design rs f.map s).mono fun d d' hd => by
    subst hd
    rfl

end Design

end Interlock
