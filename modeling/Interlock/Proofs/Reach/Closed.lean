import Interlock.Proofs.Design.Gains
import Interlock.Proofs.Expr.Closed
import Interlock.Proofs.Reach.Ways

/-! Properties that pass to the conditions of a call map. Where the walk comes to a call, the argument bus of
the body that makes it stands for something; so what is true of enables and arguments once that bus is replaced
is true of every argument that is passed on, and what is true of ready wires and of checks besides is true of
every condition. -/

namespace Interlock

/-- What a validator makes of arguments with one property has another. -/
def Validator.Keeps (v : Validator) (P P' : Expr → Prop) : Prop :=
  ∀ arg check, P arg → v.check arg = .ok check → P' check

namespace CallMap

variable {d : Design} {map map' : CallMap} {P P' : Expr → Prop} {W W' : Nat → Prop}

theorem closed_mergeArgs (h : Expr.Closed P W) {width : Nat} (hw : W width) {calls : List (Expr × Expr)}
    (hcalls : ∀ call ∈ calls, P call.1 ∧ P call.2) : P (mergeArgs width calls) := by
  unfold mergeArgs
  split
  · exact (hcalls _ (List.mem_singleton_self _)).2
  · refine List.foldlRecOn _ _ (h.zero hw) fun acc hacc call hc => h.or hacc ?_
    exact h.select (hcalls call hc).1 (hcalls call hc).2 (h.zero hw)

theorem closed_readiness (h : Expr.Closed P' W') (hle : ∀ e, P e → P' e) {ready e : Expr}
    {validator : Option Validator} {calls : List (Expr × Expr)} (hready : P' ready)
    (hv : ∀ v, validator = some v → v.Keeps P P') (hcalls : ∀ call ∈ calls, P call.1 ∧ P call.2)
    (he : readiness ready validator calls = .ok e) : P' e := by
  unfold readiness at he
  cases validator with
  | none => exact Except.ok.inj he ▸ hready
  | some v =>
    refine except_foldlM_ok (P := P') (fun call hc acc acc' hacc hstep => ?_) hready he
    simp only [Validator.validate, Expr.Checked.anyBit, except_bind_ok, except_pure_ok] at hstep
    obtain ⟨_, ⟨check, hcheck, _, -, rfl⟩, rfl⟩ := hstep
    have hanyBit := h.anyBit (hv v rfl _ _ (hcalls call hc).2 hcheck)
    exact h.and hacc (h.or (h.not (hle _ (hcalls call hc).1)) hanyBit)

/-- What the walk knows of the buses where it has come through these callers: their values satisfy `P`, and the
bus of the body that calls next is among them. -/
structure Bound (P : Expr → Prop) (d : Design) (t : NodeId) (callers : List NodeId) (env : Bindings) : Prop where
  values : ∀ i e, env.lookup i = some e → P e
  bus : ∀ info bus, (d.node (callers.headD t)).method? = some info → info.dataIn = some bus →
    (env.lookup bus).isSome = true

/-- What is asked of calls: whatever the bus of their body stands for, enable and argument satisfy `P`. -/
def SitesSatisfy (P : Expr → Prop) (d : Design) : Prop :=
  ∀ c m sites, (m, sites) ∈ (d.node c).calls → ∀ s ∈ sites, ∀ f : SignalId → Option Expr,
    (∀ i e, f i = some e → P e) →
    (∀ info bus, (d.node c).method? = some info → info.dataIn = some bus → (f bus).isSome = true) →
    P (s.enable.substitute f) ∧ P (s.arg.substitute f)

theorem Bound.effective {t : NodeId} {callers : List NodeId} {env : Bindings} (h : Bound P d t callers env)
    (hs : SitesSatisfy P d) {m : NodeId} {sites : List CallSite}
    (hm : (m, sites) ∈ (d.node (callers.headD t)).calls) :
    ∀ call ∈ sites.map (CallMap.effective env), P call.1 ∧ P call.2 := by
  intro call hcall
  obtain ⟨s, hsite, rfl⟩ := List.mem_map.1 hcall
  exact hs _ m sites hm s hsite _ h.values h.bus

theorem Bound.enters (hP : Expr.Closed P W) {t : NodeId} {callers : List NodeId} {env : Bindings}
    (h : Bound P d t callers env) {m : NodeId} {info : MethodInfo} (hinfo : (d.node m).method? = some info)
    (hw : W info.input.width) {calls : List (Expr × Expr)} (hcalls : ∀ call ∈ calls, P call.1 ∧ P call.2) :
    Bound P d t (m :: callers) (bindArgument info calls env) := by
  unfold bindArgument
  cases hbus : info.dataIn with
  | none =>
    refine ⟨h.values, fun info' bus' hinfo' hbus' => ?_⟩
    obtain rfl : info = info' := Option.some.inj (hinfo.symm.trans hinfo')
    cases hbus.symm.trans hbus'
  | some bus =>
    refine ⟨fun i e he => ?_, fun info' bus' hinfo' hbus' => ?_⟩
    · rw [List.lookup_cons] at he
      split at he
      · exact Option.some.inj he ▸ closed_mergeArgs hP hw hcalls
      · exact h.values i e he
    · obtain rfl : info = info' := Option.some.inj (hinfo.symm.trans hinfo')
      obtain rfl : bus = bus' := Option.some.inj (hbus.symm.trans hbus')
      simp

theorem add_satisfies (hP' : Expr.Closed P' W') {r : Reach} (h : map.add d r = .ok map') (hr : P' r.readiness)
    (hmap : ∀ x ∈ map.reaches, P' x.readiness) : ∀ x ∈ map'.reaches, P' x.readiness := by
  refine forall_mem_add h hr (fun x hx => ?_) hmap
  unfold narrowed
  split
  · exact hP'.and hx hr
  · exact hx

/-- Every condition of a call map satisfies `P'`. -/
theorem build_satisfies (hd : d.Sound) (hP : Expr.Closed P W) (hP' : Expr.Closed P' W')
    (hle : ∀ e, P e → P' e) (hsites : SitesSatisfy P d)
    (hmethods : ∀ m info, (d.node m).method? = some info →
      W info.input.width ∧ P' (d.read info.ready) ∧ ∀ v, info.validator = some v → v.Keeps P P')
    (h : Attempt.Gives (build d) map) : ∀ r ∈ map.reaches, P' r.readiness := by
  refine (build_walk (E := fun t callers env => t ∈ d.transactions → Bound P d t callers env)
    (R := fun map map' => (∀ x ∈ map.reaches, P' x.readiness) → ∀ x ∈ map'.reaches, P' x.readiness)
    (Q := fun _ _ _ _ => True) (fun _ h => h) (fun _ _ _ h h' hall => h' (h hall)) (fun t ht => ?_)
    (fun _ _ _ _ _ _ _ => trivial) (fun t ht => ?_) h).1 (fun x hx => nomatch hx)
  · refine ⟨fun _ h => h, fun _ _ _ h h' hall => h' (h hall), fun _ _ _ _ _ _ => trivial,
      fun callers env m sites info hE hc hinfo ht => ?_,
      fun callers env m sites info condition map map' hE hc hinfo _ _ hcondition hadd => ?_⟩
    · exact (hE ht).enters hP hinfo (hmethods m info hinfo).1 ((hE ht).effective hsites hc)
    · obtain ⟨-, hready, hv⟩ := hmethods m info hinfo
      have hr := closed_readiness hP' hle hready hv ((hE ht).effective hsites hc) hcondition
      exact ⟨fun hmap => add_satisfies hP' hadd hr hmap, trivial⟩
  · -- A transaction has no argument bus.
    refine ⟨fun i e he => (nomatch he), fun info bus hinfo hbus => ?_⟩
    obtain ⟨_, htr⟩ := hd.transaction ht
    rw [List.headD_nil, Node.method?, htr.kind] at hinfo
    cases hinfo

end CallMap

end Interlock
