import Interlock.Proofs.Elaboration
import Interlock.Proofs.Reach.Loops

/-! Which errors elaboration ends with. Loops of logic and broken rules of netlists come up only where drivers
are made: every pass before that ends with errors about the design, which it has found in the design itself.
An arbiter is made of transactions alone, and a condition is there for every method that is reached, so
that the errors which would be the elaborator's own never come up. -/

namespace Interlock

/-- An error about what has been described, not about the logic made of it. -/
def DesignError.OfDesign : DesignError → Prop
  | .combinationalCycle .. | .internal .. => False
  | _ => True

/-- An error of the checks that come after the walks over the calls and before drivers are made. -/
def DesignError.OfCheck : DesignError → Prop
  | .methodRecursion .. | .duplicateCall .. | .combinationalCycle .. | .internal .. => False
  | _ => True

theorem DesignError.OfCheck.ofDesign {e : DesignError} (h : e.OfCheck) : e.OfDesign := by
  cases e with
  | combinationalCycle names loc => exact h
  | internal message => exact h
  | _ => trivial

namespace CallMap

theorem build_ofDesign (d : Design) : Attempt.Raises DesignError.OfDesign (build d) :=
  build_raises (fun _ _ _ _ => trivial) fun _ _ _ _ _ _ => trivial

end CallMap

namespace Fusion

variable {d : Design} {map : CallMap}

theorem groups_raises : Raises DesignError.OfCheck (groups d map) := by
  refine raises_bind ?_ fun _ _ => raises_ok _
  refine raises_foldlM (fun n _ ps => raises_foldlM (fun other _ ps => ?_) ps) _
  unfold addPairs
  simp only
  split
  · exact raises_error trivial
  refine raises_foldlM (fun a _ ps => raises_foldlM (fun b _ ps => ?_) ps) ps
  unfold addPair
  split
  · exact raises_ok _
  split
  · exact raises_error trivial
  split
  · exact raises_error trivial
  · exact raises_ok _

end Fusion

namespace Design

variable {d : Design}

theorem checkMethods_raises (d : Design) : Raises DesignError.OfCheck d.checkMethods := by
  refine raises_forM fun n _ => ?_
  unfold checkMethod
  split
  · exact raises_ok _
  · refine raises_guard trivial fun _ => ?_
    refine raises_guard trivial fun _ => ?_
    split
    · exact raises_error trivial
    · exact raises_ok _

/-- Fusion raises what its walks over the calls raise, of the recorded design and of the fused one, and errors of
checks. -/
theorem fused_raises {E : DesignError → Prop} (hcheck : ∀ e : DesignError, e.OfCheck → E e)
    (hbuild : Attempt.Raises E (CallMap.build d))
    (hagain : ∀ map groups, Attempt.Gives (CallMap.build d) map → Fusion.groups d.pruneOrderings map = .ok groups →
      Attempt.Raises E (CallMap.build (Fusion.fuse d.pruneOrderings groups).2)) : Attempt.Raises E d.fused := by
  refine Attempt.raises_bind hbuild fun map hmap => ?_
  refine Attempt.raises_bind (Attempt.raises_ofExcept (d.checkMethods_raises.mono hcheck)) fun _ _ => ?_
  refine Attempt.raises_bind (Attempt.raises_ofExcept (Fusion.groups_raises.mono hcheck)) fun groups hgroups => ?_
  simp only
  split
  · exact Attempt.raises_pure _
  · exact Attempt.raises_bind (hagain map groups hmap (Attempt.gives_ofExcept.1 hgroups)) fun _ _ =>
      Attempt.raises_pure _

theorem checkOrder_raises (d : Design) : Raises DesignError.OfCheck d.checkOrder := by
  unfold checkOrder
  simp only
  split
  · exact raises_ok _
  · exact raises_ok _
  · split
    · exact raises_ok _
    · exact raises_error trivial

theorem schedule_raises (d : Design) (map : CallMap) : Raises DesignError.OfCheck (d.schedule map) := by
  refine raises_bind ?_ fun _ _ => raises_ok _
  unfold priorityOrder
  simp only
  split
  · exact raises_error trivial
  · exact raises_ok _

end Design

namespace Arbiter

open Design

variable {d₀ d : Design} {s : Schedule}

theorem roundRobin_raises {l : List GuardedAssign} (hd : d₀.Sound) (hg : Gains d₀ d l) (index : Nat)
    {members : List NodeId} (hall : ∀ t ∈ members, t ∈ d₀.transactions) :
    Raises DesignError.OfCheck (roundRobin index members d) := by
  unfold roundRobin
  simp only
  split
  · exact raises_error trivial
  · generalize "rr" ++ toString index ++ "_last" = base
    generalize UInt64.ofNat (1 <<< (members.length - 1)) = init
    have hnew := newSignal_gains d base members.length .reg init
    have hget := get?_newSignal d base members.length .reg init d.netlist.signals.size
    rw [if_pos rfl, ← newSignal_fst d base members.length .reg init] at hget
    generalize d.newSignal base members.length .reg init = added at hnew hget ⊢
    obtain ⟨d', hd', -⟩ := driveTurns_gains hd (members.map (wants added.2)) members.zipIdx (hg.trans hnew) hget
      fun p hp => hall _ (List.fst_mem_of_mem_zipIdx hp)
    rw [hd']
    exact raises_ok _

theorem emitClass_raises {l : List GuardedAssign} (hd : d₀.Sound) (hg : Gains d₀ d l) (index : Nat)
    {members : List NodeId} (hall : ∀ t ∈ members, t ∈ d₀.transactions) :
    Raises DesignError.OfCheck (emitClass s d members index) := by
  unfold emitClass
  split
  · exact roundRobin_raises hd hg index hall
  · have hall : ∀ t ∈ [] ++ members, t ∈ d₀.transactions := hall
    obtain ⟨d', l', hd', -⟩ := eager_gains (s := s) hd [] hg hall
    rw [hd']
    exact raises_ok _

/-- Arbiters of transactions fail for want of width alone. -/
theorem emit_raises {map : CallMap} (hd : d.Sound) (hs : Schedule.Schedules s d map) :
    Raises DesignError.OfCheck (emit s d) := by
  refine raises_foldlM_keep (P := fun d' => ∃ l, Gains d d' l) (fun (members, index) hp d' ⟨l, hg⟩ => ?_)
    ⟨[], .refl d⟩
  have hmem := List.fst_mem_of_mem_zipIdx hp
  have hall := hs.members members hmem
  refine ⟨emitClass_raises hd hg index hall, fun d'' h => ?_⟩
  obtain ⟨l', he⟩ := emitClass_ok hd hg hall ((List.nodup_flatten.1 hs.divided).1 members hmem) h
  exact ⟨l ++ l', hg.trans he.gains⟩

end Arbiter

/-- The logic of calls meets no error. -/
theorem CallLogic.emit_raises {map : CallMap} {E : DesignError → Prop} (hmap : map.Keyed) (d : Design) :
    Attempt.Raises E (emit map d) := by
  refine Attempt.raises_bind (Attempt.raises_ofChecked _) fun d₁ _ => Attempt.raises_ofExcept ?_
  obtain ⟨d₂, l, h, -⟩ := driveTransactions_gains hmap d.nodeList d₁
  rw [h]
  exact raises_ok d₂

/-- Every error that the step can end with is of this kind. -/
def Pass.Raises {α : Type} (E : DesignError → Prop) (x : Pass α) : Prop :=
  ∀ sink e sink', x.run.run sink = .ok (.error e, sink') → E e

namespace Pass

variable {α β : Type} {E : DesignError → Prop}

theorem raises_bind {x : Pass α} {f : α → Pass β} (hx : Raises E x)
    (hf : ∀ sink a sink', Gives x sink a sink' → Raises E (f a)) : Raises E (x >>= f) := by
  intro sink e sink' h
  simp only [ExceptT.run_bind, StateT.run_bind] at h
  obtain ⟨⟨r, s⟩, hr, h⟩ := except_bind_ok.1 h
  cases r with
  | error e' =>
    obtain ⟨he, -⟩ := Prod.mk.inj (except_pure_ok.1 h)
    exact Except.error.inj he ▸ hx sink e' s hr
  | ok a => exact hf sink a s hr s e sink' h

theorem raises_ofAttempt {x : Attempt DesignError α} (h : Attempt.Raises E x) : Raises E (ofAttempt x) := by
  intro sink e sink' he
  simp only [ofAttempt, ExceptT.run_mk, StateT.run_lift] at he
  obtain ⟨r, hr, he⟩ := except_bind_ok.1 he
  obtain ⟨rfl, -⟩ := Prod.mk.inj (except_pure_ok.1 he)
  exact h e hr

theorem raises_emit (diagnostics : List Diagnostic) : Raises E (Pass.emit diagnostics) :=
  fun _ _ _ h => nomatch h

theorem raises_pure (a : α) : Raises E (pure a : Pass α) := fun _ _ _ h => nomatch h

end Pass

namespace Design

variable {d : Design}

theorem withLogic_raises {map : CallMap} {s : Schedule} (hd : d.Sound) (hmap : map.Keyed)
    (hs : Schedule.Schedules s d map) :
    Attempt.Raises DesignError.OfCheck (d.withLogic map s) :=
  Attempt.raises_bind (Attempt.raises_ofExcept (Arbiter.emit_raises hd hs)) fun d' _ =>
    CallLogic.emit_raises hmap d'

/-- The netlist that the design is lowered to breaks a rule. -/
def BreaksRule (d : Design) (e : DesignError) : Prop :=
  ∃ (f : Fused) (s : Schedule) (d' : Design), Attempt.Gives d.fused f ∧ f.design.schedule f.map = .ok s ∧
    Attempt.Gives (f.design.withLogic f.map s) d' ∧
    (Drivers.lower d'.netlist d'.assigns d'.ownerOf).run = .ok (.error e)

theorem elaborateSteps_raises (hd : d.Sound) {E : DesignError → Prop} (hcheck : ∀ e : DesignError, e.OfCheck → E e)
    (hfused : Attempt.Raises E d.fused) (hrule : ∀ e, d.BreaksRule e → E e) : Pass.Raises E d.elaborateSteps := by
  have checks : ∀ {α : Type} {x : Attempt DesignError α}, Attempt.Raises DesignError.OfCheck x →
      Pass.Raises E (Pass.ofAttempt x) :=
    fun h => Pass.raises_ofAttempt (h.mono hcheck)
  refine Pass.raises_bind (Pass.raises_ofAttempt hfused) fun _ f _ hf => ?_
  refine Pass.raises_bind (checks (Attempt.raises_ofExcept (checkOrder_raises _))) fun _ _ _ _ => ?_
  refine Pass.raises_bind (Pass.raises_emit _) fun _ _ _ _ => ?_
  refine Pass.raises_bind (checks (Attempt.raises_ofExcept (schedule_raises _ _))) fun _ s _ hs => ?_
  have hf := Pass.gives_ofAttempt hf
  have hs := Attempt.gives_ofExcept.1 (Pass.gives_ofAttempt hs)
  obtain ⟨hsound, hmap, -⟩ := fused_ok hd hf
  have hsched := Schedule.schedule_ok hsound hmap hs
  refine Pass.raises_bind (checks (withLogic_raises hsound hmap.keyed hsched)) fun _ d' _ hd' => ?_
  refine Pass.raises_bind (Pass.raises_emit _) fun _ _ _ _ => ?_
  refine Pass.raises_bind (Pass.raises_ofAttempt fun e he =>
    hrule e ⟨f, s, d', hf, hs, Pass.gives_ofAttempt hd', he⟩) fun _ _ _ _ => Pass.raises_pure _

/-- Elaboration ends with an error of its steps. -/
theorem elaborate_raises {E : DesignError → Prop} (h : Pass.Raises E d.elaborateSteps) {sink sink' : DiagnosticSink}
    {e : DesignError} (he : d.elaborate sink = .ok (.error e, sink')) : E e := by
  simp only [elaborate, except_bind_ok] at he
  obtain ⟨⟨r, sink₁⟩, hr, he⟩ := he
  cases r with
  | ok _ => cases (Prod.mk.inj (except_pure_ok.1 he)).1
  | error e' =>
    obtain rfl : e' = e := Except.error.inj (Prod.mk.inj (except_pure_ok.1 he)).1
    exact h _ _ _ hr

/-- Elaboration ends with an error about the design, or with that of its netlist. -/
theorem elaborate_error (hd : d.Sound) {sink sink' : DiagnosticSink} {e : DesignError}
    (he : d.elaborate sink = .ok (.error e, sink')) : e.OfDesign ∨ d.BreaksRule e := by
  have hbuild : ∀ d' : Design, Attempt.Raises (fun e => e.OfDesign ∨ d.BreaksRule e) (CallMap.build d') :=
    fun d' => (CallMap.build_ofDesign d').mono fun e he => .inl he
  refine elaborate_raises (elaborateSteps_raises hd (fun e he => .inl he.ofDesign)
    (fused_raises (fun e he => .inl he.ofDesign) (hbuild d) fun _ _ _ _ => hbuild _) fun e he => .inr he) he

end Design

end Interlock
