import Interlock.Proofs.ArgumentDelivery
import Interlock.Proofs.Elaboration.Defined
import Interlock.Proofs.Expr.Substitute
import Interlock.Proofs.Runnable

/-! What validators guard against. They are asked about the arguments that a transaction's own calls stand
for, by way of any number of callers; where each of these callers has a single active call and hands its
argument on as it is, that is also what arrives on the buses. A caller that merges arguments may pass on one
that no validator has been asked about. -/

namespace Interlock

/-- What a validator asks of an argument of `w` bits depends on its value only. -/
def Validator.Tests (v : Validator) (w : Nat) (test : Valuation → Word → Bool) : Prop :=
  ∀ arg check σ, arg.fits = true → arg.width = w → v.validate arg = .ok check →
    check.truth σ = test σ (arg.eval σ)

namespace CallLogic

variable {σ : Valuation} {w : Nat} {info : MethodInfo} {calls : List ActiveCall} {e : Expr}

/-- The stock combiners make the argument of a single caller what it is. -/
theorem combined_single {m : Combiner} (hm : m.isStock = true) {v : Word} (hv : v.toNat < 2 ^ w) :
    combined w [v] m = some v := by
  cases m with
  | lowestActive => rfl
  | sum =>
    rw [combined, List.map_singleton, List.sum_singleton, Nat.mod_eq_of_lt hv, UInt64.ofNat_toNat]
  | or => exact congrArg some UInt64.zero_or
  | custom f => cases hm

/-- The argument of a single active call arrives as it is. -/
theorem argument_single (hstock : info.nonexclusive = true → info.combiner.all Combiner.isStock = true)
    (h : argument info calls = .ok e) (hw : AllOfWidth info.input.width calls) (hle : info.input.width ≤ 64)
    {v : Word} (hv : passed σ calls = [v]) (hlt : v.toNat < 2 ^ info.input.width) :
    (e.resize info.input.width).value σ = v := by
  cases hnon : info.nonexclusive with
  | false => exact argument_exclusive hnon h hw hv
  | true =>
    have hall := hstock hnon
    cases hm : info.combiner with
    | some m =>
      rw [hm, Option.all_some] at hall
      exact argument_combined hnon h hw hle hm (hv ▸ combined_single hall hlt)
    | none =>
      -- Without a combiner the argument is that of the first active call.
      let named : MethodInfo := { info with combiner := some .lowestActive }
      have h' : argument named calls = .ok e := by
        simpa only [named, argument, hm, Option.getD_none, Option.getD_some] using h
      have hnon' : named.nonexclusive = true := hnon
      exact argument_combined hnon' h' hw hle rfl (hv ▸ combined_single rfl hlt)

end CallLogic

namespace CallMap

open CallLogic

variable {σ : Valuation} {w : Nat} {calls : List (Expr × Expr)}

/-- Calls with their enables for conditions. -/
def asActive (calls : List (Expr × Expr)) : List ActiveCall := calls.map fun c => ⟨c.1, c.2⟩

theorem value_mergeArgs (hw : AllOfWidth w (asActive calls)) {v : Word} (hv : passed σ (asActive calls) = [v]) :
    (mergeArgs w calls).value σ = v := by
  have hmerge : (mergeActive w (asActive calls)).value σ = v := by
    rw [(value_mergeActive hw).2, hv]
    exact UInt64.zero_or
  rw [asActive, mergeActive, List.foldl_map] at hmerge
  unfold mergeArgs
  split
  · rename_i enable arg
    rw [asActive, List.map_singleton, passed_cons] at hv
    split at hv
    · exact (List.cons.inj hv).1
    · exact nomatch hv
  · exact hmerge

theorem fits_mergeArgs (h : ∀ c ∈ calls, c.1.fits = true ∧ c.2.fits = true) :
    (mergeArgs w calls).fits = true := by
  have hfold : ∀ (calls : List (Expr × Expr)) (acc : Expr), acc.fits = true →
      (∀ c ∈ calls, c.1.fits = true ∧ c.2.fits = true) →
      (calls.foldl (fun acc c => acc.or (.select c.1 c.2 (.zero w))) acc).fits = true := by
    intro calls
    induction calls with
    | nil => exact fun _ hacc _ => hacc
    | cons c cs ih =>
      intro acc hacc h
      obtain ⟨he, ha⟩ := h c (List.mem_cons_self ..)
      exact ih _ (Expr.closed_fits.or hacc (Expr.closed_fits.select he ha (Expr.fits_constant 0 w)))
        fun x hx => h x (List.mem_cons_of_mem _ hx)
  unfold mergeArgs
  split
  · exact (h _ (List.mem_singleton_self _)).2
  · exact hfold calls _ (Expr.fits_constant 0 w) h

end CallMap

namespace Design

/-- The constants in the enables and arguments of all calls fit their widths. -/
def CallsFit (d : Design) : Prop :=
  ∀ n ∈ d.nodeList, ∀ c ∈ n.calls, ∀ s ∈ c.2, s.enable.fits = true ∧ s.arg.fits = true

instance (d : Design) : Decidable d.CallsFit :=
  inferInstanceAs (Decidable (∀ n ∈ d.nodeList, ∀ c ∈ n.calls, ∀ s ∈ c.2, s.enable.fits = true ∧ s.arg.fits = true))

/-- A method is passed a single argument, if any, and gets it as it is. -/
def HandsOn (d : Design) (map : CallMap) (k : Kernel) (m : NodeId) : Prop :=
  (d.activeSites map k m).length ≤ 1 ∧
    ∀ info ∈ (d.node m).method?, info.nonexclusive = true → info.combiner.all Combiner.isStock = true

instance (d : Design) (map : CallMap) (k : Kernel) (m : NodeId) : Decidable (d.HandsOn map k m) :=
  inferInstanceAs (Decidable (_ ∧ _))

/-- What it takes to follow arguments through calls: they have the widths of the inputs, enables are single bits,
and constants have no bits beyond their widths. -/
structure Traceable (d : Design) : Prop where
  callable : d.Callable
  bits : d.EnableBits
  fits : ∀ c m, ∀ s ∈ (d.node c).sitesTo m, s.enable.fits = true ∧ s.arg.fits = true
  buses : ∀ m info bus, (d.node m).method? = some info → info.dataIn = some bus → info.input.isEmpty = false

theorem CallsFit.fused {d : Draft} {f : Design} (h : d.design.CallsFit) (hf : Fusion.Fuses d.design f)
    {c m : NodeId} {s : CallSite} (hs : s ∈ (f.node c).sitesTo m) : s.enable.fits = true ∧ s.arg.fits = true := by
  rcases Draft.site_cases hf hs with ⟨n, hn, hs⟩ | ⟨module, rfl⟩
  · obtain ⟨sites, hcalls, hmem⟩ := Node.mem_calls_of_sites hs
    exact h n (Arena.mem_toList.2 ⟨c, hn⟩) _ hcalls s hmem
  · exact ⟨Expr.fits_constant .., Expr.fits_constant 0 0⟩

variable {d d' : Design} {map : CallMap} {s : Schedule} {l : List GuardedAssign} {k : Kernel}

/-- Where a method has a single active call, that is also the only call in its body that is enabled. -/
theorem enabled_single {c m : NodeId} (hlive : CallLogic.isLive d map c = true) (hcaller : c ∈ d.callersOf m)
    (hruns : k.get (d.node c).activator = .ok 1) (hone : (d.activeSites map k m).length ≤ 1) {site : CallSite}
    (hsite : site ∈ (d.node c).sitesTo m) (hen : site.enable.value k.values.valuation ≠ 0) :
    d.activeSites map k m = [(c, site)] ∧
      ((d.node c).sitesTo m).filter (fun s => s.enable.value k.values.valuation ≠ 0) = [site] := by
  have hbody : ((d.node c).sitesTo m).filter (fun s =>
      k.get (d.node c).activator = .ok 1 ∧ s.enable.value k.values.valuation ≠ 0) =
        ((d.node c).sitesTo m).filter fun s => s.enable.value k.values.valuation ≠ 0 :=
    List.filter_congr fun s _ => by simp [hruns]
  have hsub : ((((d.node c).sitesTo m).filter fun s => s.enable.value k.values.valuation ≠ 0).map (c, ·)).Sublist
      (d.activeSites map k m) := by
    rw [← hbody, activeSites]
    exact List.sublist_flatten_of_mem (List.mem_map_of_mem (List.mem_filter.2 ⟨hcaller, hlive⟩))
  have hmem : site ∈ ((d.node c).sitesTo m).filter fun s => s.enable.value k.values.valuation ≠ 0 :=
    List.mem_filter.2 ⟨hsite, decide_eq_true hen⟩
  have sole : ∀ {α : Type} {l : List α} {a : α}, a ∈ l → l.length ≤ 1 → l = [a] := by
    intro α l a ha hl
    obtain ⟨b, rfl⟩ := List.length_eq_one_iff.1 (Nat.le_antisymm hl (List.length_pos_of_mem ha))
    rw [List.mem_singleton.1 ha]
  refine ⟨sole (hsub.subset (List.mem_map_of_mem hmem)) hone, sole hmem ?_⟩
  have := hsub.length_le
  rw [List.length_map] at this
  exact Nat.le_trans this hone

/-- The last call on an active way. -/
theorem ActiveWay.last {t m : NodeId} {callers : List NodeId} (h : d.ActiveWay k t callers m) :
    d.Activates k (callers.headD t) m := by
  cases h with
  | direct h => exact h
  | through _ h => exact h

/-- The arguments that enabled calls stand for have the values of their arguments. -/
theorem passed_effective {σ : Valuation} {env : Bindings} (henv : Expr.Stands σ fun i => env.lookup i)
    {sites : List CallSite} (hfits : ∀ s ∈ sites, s.enable.fits = true) :
    CallLogic.passed σ (CallMap.asActive (sites.map (CallMap.effective env))) =
      (sites.filter fun s => s.enable.value σ ≠ 0).map fun s => s.arg.value σ := by
  rw [CallLogic.passed, CallMap.asActive, List.map_map, List.filter_map, List.map_map]
  have hfilter : sites.filter (fun s => ((CallMap.effective env s).1.eval σ) ≠ 0) =
      sites.filter fun s => s.enable.value σ ≠ 0 := by
    refine List.filter_congr fun s hs => decide_eq_decide.2 ?_
    rw [CallMap.effective, Expr.eval_substitute henv, Expr.value_eq_eval (hfits s hs)]
  refine (congrArg _ hfilter).trans (List.map_congr_left fun s _ => ?_)
  show ((CallMap.effective env s).2).value σ = _
  rw [CallMap.effective, Expr.value, Expr.value, Expr.eval_substitute henv, Expr.width_substitute]

/-- What a method is bound to on a way has the value of the argument of the only enabled call. -/
theorem bound_single (hc : d.Traceable) {σ : Valuation} {t : NodeId} {callers : List NodeId}
    (henv : Expr.Stands σ fun i => (CallMap.bindingsOn d t callers).lookup i) {m : NodeId} {info : MethodInfo}
    (hm : (d.node m).method? = some info) {site : CallSite}
    (hone : ((d.node (callers.headD t)).sitesTo m).filter (fun s => s.enable.value σ ≠ 0) = [site]) :
    (CallMap.mergeArgs info.input.width (CallMap.callsOn d t callers m)).fits = true ∧
      (CallMap.mergeArgs info.input.width (CallMap.callsOn d t callers m)).eval σ = site.arg.value σ := by
  have hfit : (CallMap.mergeArgs info.input.width (CallMap.callsOn d t callers m)).fits = true := by
    refine CallMap.fits_mergeArgs fun call hcall => ?_
    obtain ⟨s, hs, rfl⟩ := List.mem_map.1 hcall
    obtain ⟨he, ha⟩ := hc.fits _ m s hs
    exact ⟨Expr.fits_substitute (fun i r hr => (henv i r hr).1) he,
      Expr.fits_substitute (fun i r hr => (henv i r hr).1) ha⟩
  refine ⟨hfit, ?_⟩
  rw [← Expr.value_eq_eval hfit]
  refine CallMap.value_mergeArgs (fun call hcall => ?_) ?_
  · simp only [CallMap.asActive, CallMap.callsOn, List.mem_map] at hcall
    obtain ⟨_, ⟨s, hs, rfl⟩, rfl⟩ := hcall
    exact (Expr.width_substitute ..).trans (hc.callable.arg_width hm hs)
  · rw [CallMap.callsOn, passed_effective henv fun s hs => (hc.fits _ m s hs).1, hone, List.map_singleton]

/-- Calls lead on from every caller on a way. -/
theorem Way.leads {t m : NodeId} {callers : List NodeId} (h : d.Way t callers m) :
    ∀ x ∈ callers, Relation.TransGen d.Calls x m := by
  induction h with
  | direct _ => exact fun _ hx => nomatch hx
  | through _ h ih =>
    intro x hx
    rcases List.mem_cons.1 hx with rfl | hx
    · exact .single h
    · exact (ih x hx).tail h

theorem mem_activeSites {c m : NodeId} {site : CallSite} :
    (c, site) ∈ d.activeSites map k m ↔ (c ∈ d.callersOf m ∧ CallLogic.isLive d map c = true) ∧
      site ∈ (d.node c).sitesTo m ∧ k.get (d.node c).activator = .ok 1 ∧ site.enable.value k.values.valuation ≠ 0 := by
  simp [activeSites, and_assoc]

namespace Circuit

theorem live_of_activeWay (h : Circuit d map s d' l) {t m : NodeId} {callers : List NodeId}
    (ht : t ∈ d.transactions) (hway : d.ActiveWay k t callers m) :
    CallLogic.isLive d map (callers.headD t) = true := by
  cases hway with
  | direct _ => exact h.live_of_transaction ht
  | through hc _ => exact h.live_of_way ht hc.way

/-- The bus of a method that hands on its argument has the value of the argument of its active call. -/
theorem bus_single (h : Circuit d map s d' l) (hk : Kernel.Reachable d'.lowered k) (hc : d.Traceable) {m : NodeId}
    {info : MethodInfo} (hm : (d.node m).method? = some info) (hne : info.input.isEmpty = false)
    (hands : d.HandsOn map k m) {bus : SignalId} (hbus : info.dataIn = some bus)
    {c : NodeId} {site : CallSite} (hsite : site ∈ (d.node c).sitesTo m)
    (hone : d.activeSites map k m = [(c, site)]) :
    k.values.valuation bus = site.arg.value k.values.valuation := by
  obtain ⟨bus', e, hbus', he, hget, hle⟩ := h.bus_value hk hc.callable hm hne
  obtain rfl : bus = bus' := Option.some.inj (hbus.symm.trans hbus')
  have hpassed := h.passed_callsTo hk hc.bits m
  rw [activeArgs, hone, List.map_singleton] at hpassed
  have hlt : (site.arg.value k.values.valuation).toNat < 2 ^ info.input.width :=
    hc.callable.arg_width hm hsite ▸ site.arg.value_lt
  rw [Kernel.get_ok hget]
  exact CallLogic.argument_single (hands.2 info hm) he (hc.callable.allOfWidth map hm) hle hpassed hlt

/-- Where the callers on an active way hand on what they are passed, their arguments have the values of their
buses. -/
theorem stands (h : Circuit d map s d' l) (hk : Kernel.Reachable d'.lowered k) (hc : d.Traceable) {t : NodeId}
    (ht : t ∈ d.transactions) {callers : List NodeId} {m : NodeId} (hway : d.ActiveWay k t callers m)
    (hands : ∀ c ∈ callers, ∀ info ∈ (d.node c).method?, info.input.isEmpty = false → d.HandsOn map k c) :
    Expr.Stands k.values.valuation fun i => (CallMap.bindingsOn d t callers).lookup i := by
  induction hway with
  | direct _ => exact fun _ _ h => nomatch h
  | @through callers c m hway _ ih =>
    have hstands := ih fun x hx => hands x (List.mem_cons_of_mem _ hx)
    obtain ⟨-, info, hinfo⟩ := hway.way.calls
    rw [CallMap.bindingsOn_cons hinfo, CallMap.bindArgument]
    cases hbus : info.dataIn with
    | none => exact hstands
    | some bus =>
      have hne := hc.buses c info bus hinfo hbus
      have hhands := hands c (List.mem_cons_self ..) info hinfo hne
      obtain ⟨hcalls, hruns, site, hsite, htruth⟩ := hway.last
      have hcaller := h.sound.caller_of_calls hcalls
      obtain ⟨hactive, hone⟩ := enabled_single (h.live_of_activeWay ht hway) hcaller
        ((h.toWired.get_one hk (h.sound.activator_isBit hcaller)).2 hruns) hhands.1 hsite
        ((Expr.value_ne_zero_iff (hc.bits _ _ site hsite)).2 htruth)
      obtain ⟨hfit, hvalue⟩ := bound_single hc hstands hinfo hone
      intro i r hr
      simp only [List.lookup_cons] at hr
      split at hr
      · rename_i hi
        obtain rfl : i = bus := by simpa using hi
        obtain rfl := Option.some.inj hr
        exact ⟨hfit, hvalue.trans (h.bus_single hk hc hinfo hne hhands hbus hsite hactive).symm⟩
      · exact hstands i r hr

/-- Where the callers on an active way hand on what they are passed, the method accepts what is passed at its
end. -/
theorem accepted_of_activeWay (h : Circuit d map s d' l) (hk : Kernel.Reachable d'.lowered k) (hc : d.Traceable)
    (htells : map.Tells d) {t : NodeId} (ht : t ∈ d.transactions) (hgrant : d.runs k t = true)
    {callers : List NodeId} {m : NodeId} (hway : d.ActiveWay k t callers m)
    (hands : ∀ c ∈ callers, ∀ info ∈ (d.node c).method?, info.input.isEmpty = false → d.HandsOn map k c)
    {info : MethodInfo} (hm : (d.node m).method? = some info) {v : Validator} (hv : info.validator = some v)
    {test : Valuation → Word → Bool} (htest : v.Tests info.input.width test) {site : CallSite}
    (hsite : site ∈ (d.node (callers.headD t)).sitesTo m) (hen : site.enable.value k.values.valuation ≠ 0) :
    test k.values.valuation (site.arg.value k.values.valuation) = true := by
  have hstands := h.stands hk hc ht hway hands
  have hfa := (hc.fits _ m site hsite).2
  obtain ⟨tinfo, htr⟩ := h.sound.transaction ht
  have hwants := h.wants hk ht hgrant
  rw [Arbiter.truth_wants htr, h.runnable hk.steady htr, Bool.and_eq_true] at hwants
  obtain ⟨-, haccepts⟩ := (conditions_iff htells hc.bits ht).1 hwants.2 callers m info hway.way hm
  have henabled : (CallMap.effective (CallMap.bindingsOn d t callers) site).1.value k.values.valuation ≠ 0 := by
    rw [CallMap.effective, Expr.value, Expr.eval_substitute hstands, Expr.width_substitute]
    exact hen
  obtain ⟨check, hcheck, htruth⟩ := haccepts info hm v hv _ (List.mem_map_of_mem hsite) henabled
  have harg := Expr.fits_substitute (fun i r hr => (hstands i r hr).1) hfa
  rw [htest _ check _ harg ((Expr.width_substitute ..).trans (hc.callable.arg_width hm hsite)) hcheck,
    Expr.eval_substitute hstands] at htruth
  rw [Expr.value_eq_eval hfa]
  exact htruth

end Circuit

end Design

theorem Draft.Recorded.traceable {d : Draft} (h : d.Recorded) (hfit : d.design.CallsFit) {f : Design.Fused}
    (hf : Attempt.Gives d.design.fused f) : f.design.Traceable := by
  obtain ⟨-, -, hfuses⟩ := Design.fused_ok h.sound hf
  exact ⟨h.callable.fused h.sound hf, h.enableBits hfuses, fun _ _ _ hs => hfit.fused hfuses hs,
    fun _ _ _ hm hbus => h.input_nonempty hf hm hbus⟩

/-- With either scheduler and in every state that inputs and clock edges lead to, every active call of a method
with a validator passes an argument that it accepts, provided that each method which calls lead through to it
hands on what it is passed. -/
theorem active_call_accepted {d : Draft} (hd : d.Recorded) (hfit : d.design.CallsFit)
    {sink sink' : DiagnosticSink} {e : Elaborated} (he : d.design.elaborate sink = .ok (.ok e, sink'))
    {f : Design.Fused} (hf : Attempt.Gives d.design.fused f) {s : Schedule}
    (hs : f.design.schedule f.map = .ok s) {k : Kernel} (hk : Kernel.Reachable e.netlist k) {m : NodeId}
    {info : MethodInfo} (hm : (d.design.node m).method? = some info) {v : Validator}
    (hv : info.validator = some v) {test : Valuation → Word → Bool} (htest : v.Tests info.input.width test)
    (hands : ∀ x, Relation.TransGen f.design.Calls x m → ∀ xinfo ∈ (f.design.node x).method?,
      xinfo.input.isEmpty = false → f.design.HandsOn f.map k x) :
    ∀ call ∈ f.design.activeSites f.map k m,
      test k.values.valuation (call.2.arg.value k.values.valuation) = true := by
  obtain ⟨d', l, h, hnetlist⟩ := Design.elaborate_circuit hd.sound he hf hs
  obtain ⟨-, -, hfuses⟩ := Design.fused_ok hd.sound hf
  rw [hnetlist] at hk
  have hc := hd.traceable hfit hf
  have hm := hfuses.method hm
  rintro ⟨c, site⟩ hcall
  obtain ⟨⟨hcaller, hlive⟩, hsite, hrun, hen⟩ := Design.mem_activeSites.1 hcall
  have hactive : f.design.Activates k c m :=
    ⟨h.sound.calls_of_caller hcaller hm, (h.toWired.get_one hk (h.sound.activator_isBit hcaller)).1 hrun, site,
      hsite, (Expr.value_ne_zero_iff (hc.bits c m site hsite)).1 hen⟩
  obtain ⟨t, ht, hgrant, callers, rfl, hway⟩ := h.activeWay hk.steady hcaller hlive hactive
  exact h.accepted_of_activeWay hk hc (hd.tells hf) ht hgrant hway (fun x hx => hands x (hway.way.leads x hx)) hm hv
    htest hsite hen

namespace Draft

theorem belowSix_tests : belowSix.Tests 4 fun _ v => decide (v < 6) := by
  intro arg check σ _ _ h
  have hcheck : check = arg.lessThan (.constant 6 4) := by
    simp only [Validator.validate, belowSix, Expr.Checked.anyBit, except_bind_ok, except_pure_ok] at h
    obtain ⟨_, hless, _, _, rfl⟩ := h
    rw [← Except.ok.inj hless]
    rfl
  rw [hcheck, Expr.truth, Expr.lessThan, Expr.eval, Expr.eval_constant]
  show lowBit (decide (arg.eval σ < 6)).toUInt64 = decide (arg.eval σ < 6)
  cases decide (arg.eval σ < 6) <;> rfl

/-- A transaction that passes an argument on to a method by way of another. -/
def relayed : List Action :=
  [.transaction "A" .generated, .method { name := "x", input := .bits 4 } .generated,
    .method { name := "m", input := .bits 4 } .generated, .openModule "",
    .inModule 0 (.openMethod 2 .one (some belowSix) .generated), .inModule 0 .leaveBody,
    .inModule 0 (.openMethod 1 .one none .generated),
    .inModule 0 (.call 2 (.signal 3 4) .one .generated), .inModule 0 .leaveBody,
    .inModule 0 (.openTransaction 0 .one .generated),
    .inModule 0 (.call 1 (.const 3 4) .one .generated), .inModule 0 .leaveBody]

/-- Two transactions whose arguments are added up before they are passed on. -/
def added : List Action :=
  [.transaction "A" .generated, .transaction "B" .generated,
    .method { name := "x", input := .bits 4, nonexclusive := true, combiner := some .sum } .generated,
    .method { name := "m", input := .bits 4 } .generated, .openModule "",
    .inModule 0 (.openMethod 3 .one (some belowSix) .generated), .inModule 0 .leaveBody,
    .inModule 0 (.openMethod 2 .one none .generated),
    .inModule 0 (.call 3 (.signal 6 4) .one .generated), .inModule 0 .leaveBody,
    .inModule 0 (.openTransaction 0 .one .generated),
    .inModule 0 (.call 2 (.const 3 4) .one .generated), .inModule 0 .leaveBody,
    .inModule 0 (.openTransaction 1 .one .generated),
    .inModule 0 (.call 2 (.const 5 4) .one .generated), .inModule 0 .leaveBody]

end Draft

/-- The call in `x` is active and passes 3 on. -/
theorem active_call_accepted_of_relayed :
    ∃ x : Draft.Trial, ∃ call, (Draft.of Draft.relayed).trial? = some x ∧
      x.fused.design.activeSites x.fused.map x.kernel 2 = [call] ∧
      call.2.arg.value x.kernel.values.valuation < 6 := by
  have hrec : (Draft.of Draft.relayed).Recorded := Draft.recorded_of (by decide +kernel)
  have hfit : (Draft.of Draft.relayed).design.CallsFit := by decide +kernel
  have htrial : ∃ x ∈ (Draft.of Draft.relayed).trial?,
      (∃ call ∈ (x.fused.design.activeSites x.fused.map x.kernel 2).head?,
        x.fused.design.activeSites x.fused.map x.kernel 2 = [call]) ∧
      ∀ i < x.fused.design.nodes.size, x.fused.design.HandsOn x.fused.map x.kernel i := by
    decide +kernel
  obtain ⟨x, hx, ⟨call, -, hone⟩, hands⟩ := htrial
  obtain ⟨hf, hs, he, hk⟩ := Draft.trial_ok hx
  have haccepted := active_call_accepted hrec hfit he hf hs hk (m := 2) rfl rfl Draft.belowSix_tests
    (fun y _ yinfo hy _ => hands y (Design.lt_of_method hy)) call (hone ▸ List.mem_singleton_self call)
  exact ⟨x, call, hx, hone, of_decide_eq_true haccepted⟩

/-- The validator has been asked about 3 and about 5. Their sum is passed on, and it does not accept that. -/
theorem active_call_rejected_of_added :
    ∃ x : Draft.Trial, ∃ info call, (Draft.of Draft.added).Recorded ∧ (Draft.of Draft.added).design.CallsFit ∧
      (Draft.of Draft.added).trial? = some x ∧ ((Draft.of Draft.added).design.node 3).method? = some info ∧
      info.validator = some Draft.belowSix ∧ Draft.belowSix.Tests info.input.width (fun _ v => decide (v < 6)) ∧
      call ∈ x.fused.design.activeSites x.fused.map x.kernel 3 ∧
      ¬ call.2.arg.value x.kernel.values.valuation < 6 := by
  have hrec : (Draft.of Draft.added).Recorded := Draft.recorded_of (by decide +kernel)
  have htrial : ∃ x ∈ (Draft.of Draft.added).trial?,
      ∃ call ∈ x.fused.design.activeSites x.fused.map x.kernel 3,
        ¬ call.2.arg.value x.kernel.values.valuation < 6 := by
    decide +kernel
  obtain ⟨x, hx, call, hcall, hvalue⟩ := htrial
  exact ⟨x, _, call, hrec, by decide +kernel, hx, rfl, rfl, Draft.belowSix_tests, hcall, hvalue⟩

end Interlock
