import Interlock.Proofs.Anonymous.Draft
import Interlock.Proofs.Anonymous.Logic
import Interlock.Proofs.Anonymous.Netlist
import Interlock.Proofs.Draft.Trial

/-! Names make no difference. Recordings that differ in names and places only are elaborated alike: both fail with
errors of one kind, or both give the same circuit, up to the names of its signals, with the same schedule. -/

namespace Interlock

open Attempt DesignError

namespace Attempt

variable {ε ε' α α' : Type} {E : ε → ε' → Prop} {R : α → α' → Prop} {x : Attempt ε α} {x' : Attempt ε' α'}

/-- The results that are related are those that the steps give. -/
theorem Agrees.given (h : Agrees E R x x') : Agrees E (fun a a' => R a a' ∧ Gives x a ∧ Gives x' a') x x' := by
  unfold Agrees Gives at *
  generalize x.run = r at h ⊢
  generalize x'.run = r' at h ⊢
  cases h with
  | error h => exact .error h
  | ok h =>
    cases h with
    | error h => exact .ok (.error h)
    | ok h => exact .ok (.ok ⟨h, rfl, rfl⟩)

end Attempt

namespace Pass

variable {α α' β β' : Type} {R : α → α' → Prop} {T : β → β' → Prop} {x : Pass α} {x' : Pass α'}

/-- Whatever is in the sinks, both steps give related results, or both fail with errors of one kind, or both meet the
same fault. -/
def Agrees (R : α → α' → Prop) (x : Pass α) (x' : Pass α') : Prop :=
  ∀ sink sink' : DiagnosticSink, Agree Eq (fun p p' => Agree SameKind R p.1 p'.1) (x.run.run sink) (x'.run.run sink')

theorem agrees_pure {a : α} {a' : α'} (h : R a a') : Agrees R (pure a) (pure a') := fun _ _ => .ok (.ok h)

theorem agrees_ofAttempt {x : Attempt DesignError α} {x' : Attempt DesignError α'} (h : Attempt.Agrees SameKind R x x') :
    Agrees R (ofAttempt x) (ofAttempt x') := fun _ _ => Agree.bind h fun _ _ hr => .ok hr

theorem agrees_emit (l l' : List Diagnostic) : Agrees Eq (emit l) (emit l') := fun _ _ => .ok (.ok rfl)

theorem Agrees.bind {f : α → Pass β} {f' : α' → Pass β'} (h : Agrees R x x')
    (hf : ∀ a a', R a a' → Agrees T (f a) (f' a')) : Agrees T (x >>= f) (x' >>= f') := fun sink sink' => by
  refine Agree.bind (h sink sink') fun p p' hp => ?_
  obtain ⟨r, sink⟩ := p
  obtain ⟨r', sink'⟩ := p'
  cases hp with
  | error h => exact .ok (.error h)
  | ok h => exact hf _ _ h sink sink'

end Pass

namespace Design

variable {d d' : Design}

/-- Fused designs that differ in names and places only. -/
structure Fused.Alike (f f' : Fused) : Prop where
  design : f.design.Alike f'.design
  map : f.map = f'.map
  groups : f.groups = f'.groups

theorem fused_agrees (h : d.Alike d') : Attempt.Agrees SameKind Fused.Alike d.fused d'.fused := by
  refine (CallMap.build_agrees h).bind fun map _ hmap => ?_
  subst hmap
  refine (agrees_ofExcept (checkMethods_agrees h)).bind fun _ _ _ => ?_
  refine (agrees_ofExcept (Fusion.groups_agrees h.pruneOrderings)).bind fun groups _ hgroups => ?_
  subst hgroups
  obtain ⟨hfused, h₁⟩ := Fusion.fuse_alike h.pruneOrderings groups
  simp only [hfused]
  split
  · exact agrees_pure ⟨h₁, rfl, rfl⟩
  · refine (CallMap.build_agrees h₁).bind fun map _ hmap => ?_
    exact agrees_pure ⟨h₁, hmap, rfl⟩

/-- The elaboration of the design reports this schedule and these groups, by the names of the nodes. -/
def Reports (d : Design) (e : Elaborated) (s : Schedule) (groups : List Fusion.FusedGroup) : Prop :=
  ∃ (f : Fused) (d' : Design), Gives d.fused f ∧ f.groups = groups ∧ f.design.schedule f.map = .ok s ∧
    Gives (f.design.withLogic f.map s) d' ∧ e.report = .ofSchedule d' s groups

/-- The elaborations of the designs give the same circuit, up to the names of its signals, with the same order of
priority, conflicts, classes and groups. -/
structure SameCircuit (d d' : Design) (e e' : Elaborated) : Prop where
  netlist : e.netlist.anonymous = e'.netlist.anonymous
  hash : e.netlist.structuralHash = e'.netlist.structuralHash
  schedule : ∃ s groups, d.Reports e s groups ∧ d'.Reports e' s groups

theorem elaborateSteps_agrees (h : d.Alike d') : Pass.Agrees (d.SameCircuit d') d.elaborateSteps d'.elaborateSteps := by
  refine (Pass.agrees_ofAttempt (fused_agrees h).given).bind fun f f' hf => ?_
  obtain ⟨⟨hdesign, hmap, hgroups⟩, hf, hf'⟩ := hf
  refine (Pass.agrees_ofAttempt (agrees_ofExcept (checkOrder_agrees hdesign))).bind fun _ _ _ => ?_
  refine (Pass.agrees_emit _ _).bind fun _ _ _ => ?_
  have hs := agrees_ofExcept (schedule_agrees hdesign f.map)
  rw [hmap] at hs
  rw [hmap]
  refine (Pass.agrees_ofAttempt hs.given).bind fun s _ hs => ?_
  obtain ⟨rfl, hs, hs'⟩ := hs
  refine (Pass.agrees_ofAttempt (withLogic_agrees hdesign).given).bind fun d₁ d₁' hd => ?_
  obtain ⟨hd, hd₁, hd₁'⟩ := hd
  refine (Pass.agrees_emit _ _).bind fun _ _ _ => ?_
  have hnetlist : d₁.netlist.anonymous = d₁'.netlist.anonymous := congrArg Design.netlist hd
  rw [hd.assigns]
  refine (Pass.agrees_ofAttempt (Drivers.lower_agrees hnetlist _)).bind fun n n' hn => ?_
  refine Pass.agrees_pure ⟨hn, Netlist.structuralHash_same hn, s, f'.groups, ?_, ?_⟩
  · exact ⟨f, d₁, hf, hgroups, hmap ▸ gives_ofExcept.1 hs, hmap ▸ hd₁, by rw [hgroups]⟩
  · exact ⟨f', d₁', hf', rfl, gives_ofExcept.1 hs', hd₁', rfl⟩

/-- Designs that differ in names and places only are elaborated alike. -/
theorem elaborate_alike (h : d.Alike d') (sink sink' : DiagnosticSink) :
    Agree Eq (fun r r' => Agree SameKind (d.SameCircuit d') r.1 r'.1) (d.elaborate sink) (d'.elaborate sink') := by
  refine (elaborateSteps_agrees h sink sink').bind fun p p' hp => ?_
  obtain ⟨r, sink⟩ := p
  obtain ⟨r', sink'⟩ := p'
  cases hp with
  | error h => exact .ok (.error h)
  | ok h => exact .ok (.ok h)

end Design

open Draft

/-- Recordings that perform the same actions but for names and places, under settings that are the same but for the
prefix of names, are elaborated alike: both meet the same fault, or fail with errors of one kind, or give the same
circuit. -/
theorem elaborate_nameless {config config' : Config} {actions actions' : List Action}
    (hconfig : config.anonymous = config'.anonymous)
    (hactions : actions.map Action.anonymous = actions'.map Action.anonymous) (sink sink' : DiagnosticSink) :
    Agree Eq
      (fun r r' => Agree SameKind ((performed config actions).design.SameCircuit (performed config' actions').design) r.1 r'.1)
      ((performed config actions).design.elaborate sink) ((performed config' actions').design.elaborate sink') :=
  Design.elaborate_alike (performed_alike hconfig hactions) sink sink'

namespace Draft

/-- Two transactions that have to run together, and a third one, which calls the same method as the first. -/
def titled : List Action :=
  [.transaction "fetch" ⟨"fetch.rs", 3, 1⟩, .transaction "count" ⟨"fetch.rs", 4, 1⟩, .transaction "flush" ⟨"fetch.rs", 5, 1⟩,
    .method { name := "push", input := .bits 4 } ⟨"fetch.rs", 7, 1⟩, .simultaneous 0 [1], .openModule "queue_",
    .inModule 0 (.signal "seen" 4 .reg 0 ⟨"fetch.rs", 9, 1⟩),
    .inModule 0 (.openMethod 3 .one none ⟨"fetch.rs", 11, 1⟩), .inModule 0 .leaveBody,
    .inModule 0 (.openTransaction 0 .one ⟨"fetch.rs", 12, 1⟩),
    .inModule 0 (.call 3 (.constant 5 4) .one ⟨"fetch.rs", 13, 5⟩), .inModule 0 .leaveBody,
    .inModule 0 (.openTransaction 1 .one ⟨"fetch.rs", 15, 1⟩), .inModule 0 .leaveBody,
    .inModule 0 (.openTransaction 2 .one ⟨"fetch.rs", 18, 1⟩),
    .inModule 0 (.call 3 (.constant 6 4) .one ⟨"fetch.rs", 19, 5⟩), .inModule 0 .leaveBody]

/-- The same actions, elsewhere and under names that clash. -/
def untitled : List Action :=
  [.transaction "t" .generated, .transaction "t" .generated, .transaction "t" .generated,
    .method { input := .bits 4 } .generated, .simultaneous 0 [1], .openModule "",
    .inModule 0 (.signal "t_grant" 4 .reg 0 .generated),
    .inModule 0 (.openMethod 3 .one none .generated), .inModule 0 .leaveBody,
    .inModule 0 (.openTransaction 0 .one .generated),
    .inModule 0 (.call 3 (.constant 5 4) .one .generated), .inModule 0 .leaveBody,
    .inModule 0 (.openTransaction 1 .one .generated), .inModule 0 .leaveBody,
    .inModule 0 (.openTransaction 2 .one .generated),
    .inModule 0 (.call 3 (.constant 6 4) .one .generated), .inModule 0 .leaveBody]

end Draft

/-- The orders of priority have names of their own, and are of the same transactions. -/
theorem elaborate_nameless_of_titled :
    ∃ x y : Draft.Trial, (performed { namePrefix := "q_" } titled).trial? = some x ∧
      (performed { namePrefix := "z_" } untitled).trial? = some y ∧
      x.elaborated.report.order = ["fetch_count", "flush"] ∧ y.elaborated.report.order = ["t_t_1", "t_2"] ∧
      x.schedule.order = [4, 2] ∧
      (performed { namePrefix := "q_" } titled).design.SameCircuit (performed { namePrefix := "z_" } untitled).design
        x.elaborated y.elaborated := by
  have htitled : ∃ x ∈ (performed { namePrefix := "q_" } titled).trial?,
      x.elaborated.report.order = ["fetch_count", "flush"] ∧ x.schedule.order = [4, 2] := by
    decide +kernel
  have huntitled : ∃ y ∈ (performed { namePrefix := "z_" } untitled).trial?,
      y.elaborated.report.order = ["t_t_1", "t_2"] := by
    decide +kernel
  obtain ⟨x, hx, horder, hids⟩ := htitled
  obtain ⟨y, hy, horder'⟩ := huntitled
  have hagree := @elaborate_nameless { namePrefix := "q_" } { namePrefix := "z_" } titled untitled rfl rfl {} {}
  obtain ⟨-, -, he, -⟩ := Draft.trial_ok hx
  obtain ⟨-, -, he', -⟩ := Draft.trial_ok hy
  rw [he, he'] at hagree
  cases hagree with
  | ok hagree =>
    cases hagree with
    | ok hsame => exact ⟨x, y, hx, hy, horder, horder', hids, hsame⟩

end Interlock
