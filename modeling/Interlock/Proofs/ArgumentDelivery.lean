import Interlock.Proofs.CallChains
import Interlock.Proofs.CallLogic.Argument
import Interlock.Proofs.Draft.Bodies
import Interlock.Proofs.Fusion.Added

/-! What arrives at a method: the argument of the call that is active, or what the combiner makes of the
arguments of all that are. The bodies take turns in the order in which their nodes were declared, and each
gives its calls in the order in which they were recorded; where bodies are recorded in another order than
declared, this is not the order of the recording as a whole. -/

namespace Interlock

namespace Design

/-- The calls of a method that are active: the caller can run at all and runs, and the enable is not zero.
They come by the declaration of the callers, those of one caller as they were recorded. -/
def activeSites (d : Design) (map : CallMap) (k : Kernel) (m : NodeId) : List (NodeId × CallSite) :=
  ((d.callersOf m).filter (CallLogic.isLive d map)).flatMap fun c =>
    (((d.node c).sitesTo m).filter fun site =>
      k.get (d.node c).activator = .ok 1 ∧ site.enable.value k.values.valuation ≠ 0).map (c, ·)

/-- The values of their arguments. -/
def activeArgs (d : Design) (map : CallMap) (k : Kernel) (m : NodeId) : List Word :=
  (d.activeSites map k m).map fun call => call.2.arg.value k.values.valuation

/-- The caller runs, and the enable is not zero. -/
def Active (d : Design) (k : Kernel) (x : Draft.Call) : Prop :=
  k.get (d.node x.caller).activator = .ok 1 ∧ x.site.enable.value k.values.valuation ≠ 0

instance (d : Design) (k : Kernel) (x : Draft.Call) : Decidable (d.Active k x) :=
  inferInstanceAs (Decidable (k.get (d.node x.caller).activator = .ok 1 ∧ x.site.enable.value k.values.valuation ≠ 0))

/-- The active calls of a method in a log, in the order of the log. -/
def activeCalls (d : Design) (k : Kernel) (m : NodeId) (log : List Draft.Call) : List Draft.Call :=
  log.filter fun x => x.callee = m ∧ d.Active k x

/-- Calls by the declaration of their callers; those of one caller keep their order. -/
def byCaller (d : Design) (calls : List Draft.Call) : List Draft.Call :=
  (List.range d.nodes.size).flatMap fun c => calls.filter (·.caller = c)

variable {d d' : Design} {map : CallMap} {s : Schedule} {l : List GuardedAssign} {k : Kernel}

theorem byCaller_singleton {x : Draft.Call} (hx : x.caller < d.nodes.size) : d.byCaller [x] = [x] := by
  have hone : ∀ n, ((List.range n).flatMap fun c => [x].filter (·.caller = c)) = if x.caller < n then [x] else [] := by
    intro n
    induction n with
    | zero => rfl
    | succ n ih =>
      rw [List.range_succ, List.flatMap_append, ih, List.flatMap_singleton, List.filter_singleton]
      rcases Nat.lt_trichotomy x.caller n with hlt | rfl | hgt
      · simp [hlt, Nat.ne_of_lt hlt, Nat.lt_succ_of_lt hlt]
      · simp
      · simp [Nat.not_lt_of_gt hgt, Nat.ne_of_gt hgt, Nat.not_lt.2 (Nat.succ_le_of_lt hgt)]
  rw [byCaller, hone, if_pos hx]

theorem Sound.callersOf_eq (hd : d.Sound) (m : NodeId) :
    d.callersOf m = (List.range d.nodes.size).filter fun c => (d.node c).calls.any (·.1 == m) := by
  rw [callersOf, ← hd.nodeList_ids, List.filter_map]
  refine congrArg _ (List.filter_congr fun n hn => ?_)
  obtain ⟨i, hi⟩ := Arena.mem_toList.1 hn
  rw [Function.comp_apply, (hd.nodes i n hi).id, node_of_get? hi]

theorem Callable.allOfWidth (hc : d.Callable) (map : CallMap) {m : NodeId} {info : MethodInfo}
    (hm : (d.node m).method? = some info) : CallLogic.AllOfWidth info.input.width (CallLogic.callsTo d map m) := by
  intro call hcall
  simp only [CallLogic.callsTo, List.mem_flatMap, CallLogic.callsFrom, List.mem_map] at hcall
  obtain ⟨c, -, site, hsite, rfl⟩ := hcall
  exact hc.arg_width hm hsite

namespace Circuit

/-- A call is active where the caller runs and the enable is not zero. -/
theorem eval_active (h : Circuit d map s d' l) (hk : Kernel.Reachable d'.lowered k) (hbits : d.EnableBits)
    {c m : NodeId} (hc : c ∈ d.callersOf m) {site : CallSite} (hsite : site ∈ (d.node c).sitesTo m) :
    ((d.read (d.node c).activator).and site.enable).eval k.values.valuation ≠ 0 ↔
      k.get (d.node c).activator = .ok 1 ∧ site.enable.value k.values.valuation ≠ 0 := by
  have hbit := h.sound.activator_isBit hc
  have hread : d.read (d.node c).activator = .signal (d.node c).activator 1 := by
    rw [Design.read, Netlist.read, hbit.widthOf]
  have hw := hbits c m site hsite
  rw [hread, Expr.eval_signal_and hw, h.toWired.get_one hk hbit, Expr.value_ne_zero_iff hw]

theorem passed_callsTo (h : Circuit d map s d' l) (hk : Kernel.Reachable d'.lowered k) (hbits : d.EnableBits)
    (m : NodeId) : CallLogic.passed k.values.valuation (CallLogic.callsTo d map m) = d.activeArgs map k m := by
  rw [CallLogic.passed, CallLogic.callsTo, List.filter_flatMap, List.map_flatMap, activeArgs, activeSites,
    List.map_flatMap]
  refine List.flatMap_congr fun c hc => ?_
  rw [CallLogic.callsFrom, List.filter_map, List.map_map, List.map_map]
  refine congrArg _ (List.filter_congr fun site hsite => ?_)
  exact decide_eq_decide.2 (h.eval_active hk hbits (List.mem_filter.1 hc).1 hsite)

/-- The wire of an input that is not empty carries the argument. -/
theorem bus_value (h : Circuit d map s d' l) (hk : Kernel.Reachable d'.lowered k) (hc : d.Callable) {m : NodeId}
    {info : MethodInfo} (hm : (d.node m).method? = some info) (hne : info.input.isEmpty = false) :
    ∃ bus e, info.dataIn = some bus ∧ CallLogic.argument info (CallLogic.callsTo d map m) = .ok e ∧
      k.get bus = .ok ((e.resize info.input.width).value k.values.valuation) ∧ info.input.width ≤ 64 := by
  have hport : (d.node m).port? = some (info.input, info.dataIn) := by rw [Node.port?, hm, Option.map_some]
  obtain ⟨bus, signal, hbus, hget, -, hwidth⟩ := hc.buses m _ hport hne
  obtain ⟨e, he, hmem⟩ := (h.driven hm).2 bus hbus
  have hget' : d'.lowered.signals.get? bus = some signal := h.gains.signals bus signal hget
  have hw : d'.netlist.widthOf bus = info.input.width := (Netlist.widthOf_eq hget').trans hwidth
  have hpos : 0 < info.input.width := Nat.pos_of_ne_zero (by simpa [Layout.isEmpty] using hne)
  obtain ⟨hvalue, hle⟩ :=
    Drivers.steady_value hk.steady (h.logic.sole h.sound h.gains hmem) (hw.symm ▸ hpos)
  rw [hw] at hvalue hle
  exact ⟨bus, e, hbus, he, hvalue ▸ hk.steady.get hget', hle⟩

/-- What runs can run at all. -/
theorem live_of_runs (h : Circuit d map s d' l) (hk : Kernel.Reachable d'.lowered k) (hc : d.Callable)
    (hbits : d.EnableBits) {c m : NodeId} (hcaller : c ∈ d.callersOf m) (hruns : k.get (d.node c).activator = .ok 1) :
    CallLogic.isLive d map c = true := by
  have hactive : d.runs k c = true := (h.toWired.get_one hk (h.sound.activator_isBit hcaller)).1 hruns
  obtain ⟨n, hn, -⟩ := (CallLogic.mem_callersOf h.sound).1 hcaller
  cases hkind : n.kind with
  | transaction info => exact h.live_of_transaction (h.sound.mem_transactions.2 ⟨n, info, hn, hkind⟩)
  | method info =>
    have hinfo : (d.node c).method? = some info := by rw [node_of_get? hn, Node.method?, hkind]
    obtain ⟨t, ht, hgrant, hchain⟩ := (h.runs_iff_chain hk.steady hc hbits hinfo).1 hactive
    obtain ⟨-, callers, hway⟩ := h.runs_of_chain hk.steady hc hbits ht hgrant hchain
    exact h.live_of_way ht hway

end Circuit

/-- Selecting first leaves out only what gives nothing. -/
theorem flatMap_filter_of {α β : Type} {l : List α} {p : α → Bool} {g h : α → List β}
    (hin : ∀ c ∈ l, p c = true → g c = h c) (hout : ∀ c ∈ l, p c = false → h c = []) :
    (l.filter p).flatMap g = l.flatMap h := by
  induction l with
  | nil => rfl
  | cons c l ih =>
    have htail := ih (fun x hx => hin x (List.mem_cons_of_mem _ hx)) fun x hx => hout x (List.mem_cons_of_mem _ hx)
    rw [List.filter_cons, List.flatMap_cons]
    cases hc : p c with
    | true => rw [if_pos rfl, List.flatMap_cons, htail, hin c (List.mem_cons_self ..) hc]
    | false => rw [if_neg Bool.false_ne_true, htail, hout c (List.mem_cons_self ..) hc, List.nil_append]

/-- Where bodies have the calls of a log, the active ones of a method come by the declaration of the callers, and those
of one caller in the order of the log. -/
theorem Circuit.activeSites_eq (h : Circuit d map s d' l) (hk : Kernel.Reachable d'.lowered k) (hc : d.Callable)
    (hbits : d.EnableBits) {m : NodeId} {log : List Draft.Call}
    (hlog : ∀ c, (d.node c).sitesTo m = Draft.between c m log) :
    d.activeSites map k m = (d.byCaller (d.activeCalls k m log)).map fun x => (x.caller, x.site) := by
  rw [byCaller, List.map_flatMap, activeSites, h.sound.callersOf_eq, List.filter_filter]
  have hcalls : ∀ c, (((d.node c).sitesTo m).filter fun site =>
        k.get (d.node c).activator = .ok 1 ∧ site.enable.value k.values.valuation ≠ 0).map (c, ·) =
      ((d.activeCalls k m log).filter (·.caller = c)).map fun x => (x.caller, x.site) := by
    intro c
    rw [hlog, Draft.between, List.filter_map, List.map_map, List.filter_filter, activeCalls, List.filter_filter]
    have hsame : (log.filter fun x => decide (x.caller = c) && decide (x.callee = m ∧ d.Active k x)) =
        log.filter fun x => ((fun site : CallSite => decide (k.get (d.node c).activator = .ok 1 ∧
          site.enable.value k.values.valuation ≠ 0)) ∘ (·.site)) x && decide (x.caller = c ∧ x.callee = m) := by
      refine List.filter_congr fun x _ => ?_
      rw [Bool.eq_iff_iff, Bool.and_eq_true, Bool.and_eq_true, decide_eq_true_iff, decide_eq_true_iff,
        Function.comp_apply, decide_eq_true_iff, decide_eq_true_iff]
      constructor
      · rintro ⟨rfl, hcallee, hactive⟩
        exact ⟨hactive, rfl, hcallee⟩
      · rintro ⟨hactive, rfl, hcallee⟩
        exact ⟨rfl, hcallee, hactive⟩
    rw [hsame]
    refine List.map_congr_left fun x hx => ?_
    have hmem := List.of_mem_filter hx
    simp only [Bool.and_eq_true, decide_eq_true_eq] at hmem
    rw [Function.comp_apply, hmem.2.1]
  refine flatMap_filter_of (fun c _ _ => hcalls c) fun c hlt hout => ?_
  rw [← hcalls, List.map_eq_nil_iff, List.filter_eq_nil_iff]
  intro site hsite hactive
  have hcaller := h.sound.caller_of_calls (hc.of_sites hsite)
  have hlive := h.live_of_runs hk hc hbits hcaller (of_decide_eq_true hactive).1
  rw [h.sound.callersOf_eq, List.mem_filter] at hcaller
  rw [hlive, hcaller.2] at hout
  cases hout

end Design

/-- The transactions of groups call no method that has an input. -/
theorem Design.fused_sitesTo {d : Design} (hd : d.Sound) {f : Fused} (hf : Attempt.Gives d.fused f) {m : NodeId}
    {info : MethodInfo} (hm : (f.design.node m).method? = some info) (hne : info.input.isEmpty = false) (c : NodeId) :
    (f.design.node c).sitesTo m = (d.node c).sitesTo m := by
  rcases Nat.lt_or_ge c d.nodes.size with hlt | hge
  · obtain ⟨n, hn⟩ := Arena.exists_get? hlt
    obtain ⟨n', hn', hsame⟩ := (fused_ok hd hf).2.2.old c n hn
    rw [node_of_get? hn, node_of_get? hn', Node.sitesTo, hsame.fields.2.2.1, Node.sitesTo]
  · rw [node_of_size_le hge]
    refine List.eq_nil_iff_forall_not_mem.2 fun site hsite => ?_
    obtain ⟨sites, hcalls, -⟩ := Node.mem_calls_of_sites hsite
    rcases fused_calls_cases hf hd hcalls with hcalls | ⟨g, hg, -, hmember, -⟩
    · obtain ⟨n, hn, -⟩ := get?_of_calls hcalls
      exact absurd (Arena.lt_of_get? hn) (Nat.not_lt.2 hge)
    · -- A member was a transaction, and has no input as a method.
      obtain ⟨_, htr⟩ := hd.transaction ((fused_unites hd hf).transactions g hg m hmember)
      rcases fused_method_cases hf hd hm with hm | ⟨-, t, -, rfl⟩
      · rw [Node.method?, htr.kind] at hm
        cases hm
      · cases hne

/-- With either scheduler and in every state that inputs and clock edges lead to, an exclusive method with a
single active call gets its argument, and a nonexclusive one what its stock combiner makes of the arguments of
all active calls, by the declaration of the callers and, for one caller, in the order in which they were recorded. -/
theorem argument_delivered {config : Config} {actions : List Draft.Action} {d : Draft}
    (hrun : (Draft.start config).run actions = some d) {sink sink' : DiagnosticSink} {e : Elaborated}
    (he : d.design.elaborate sink = .ok (.ok e, sink')) {f : Design.Fused}
    (hf : Attempt.Gives d.design.fused f) {s : Schedule} (hs : f.design.schedule f.map = .ok s) {k : Kernel}
    (hk : Kernel.Reachable e.netlist k) {m : NodeId} {info : MethodInfo}
    (hm : (f.design.node m).method? = some info) (hne : info.input.isEmpty = false) :
    let calls := f.design.activeCalls k m ((Draft.start config).callLog actions)
    ∃ bus, info.dataIn = some bus ∧
      (info.nonexclusive = false → ∀ x, calls = [x] → k.get bus = .ok (x.site.arg.value k.values.valuation)) ∧
      (info.nonexclusive = true → ∀ combiner v, info.combiner = some combiner →
        CallLogic.combined info.input.width
          ((f.design.byCaller calls).map fun x => x.site.arg.value k.values.valuation) combiner = some v →
        k.get bus = .ok v) := by
  intro calls
  have hd : d.Recorded := ⟨config, actions, hrun⟩
  obtain ⟨d', l, h, hnetlist⟩ := Design.elaborate_circuit hd.sound he hf hs
  obtain ⟨-, -, hfuses⟩ := Design.fused_ok hd.sound hf
  have hcallable := hd.callable.fused hd.sound hf
  rw [hnetlist] at hk
  obtain ⟨bus, a, hbus, harg, hget, hle⟩ := h.bus_value hk hcallable hm hne
  have hbits := hd.enableBits hfuses
  have hlog : ∀ c, (f.design.node c).sitesTo m = Draft.between c m ((Draft.start config).callLog actions) := fun c =>
    (Design.fused_sitesTo hd.sound hf hm hne c).trans (Draft.sites_of_run hrun c m)
  have hpassed : CallLogic.passed k.values.valuation (CallLogic.callsTo f.design f.map m) =
      (f.design.byCaller calls).map fun x => x.site.arg.value k.values.valuation := by
    rw [h.passed_callsTo hk hbits, Design.activeArgs, h.activeSites_eq hk hcallable hbits hlog, List.map_map]
    rfl
  have hw := hcallable.allOfWidth f.map hm
  refine ⟨bus, hbus, fun hexcl x hone => ?_, fun hnon combiner v hcomb hv => ?_⟩
  · have hcaller : x.caller < f.design.nodes.size := by
      obtain ⟨hx, hactive⟩ := List.mem_filter.1 (hone ▸ List.mem_singleton_self x)
      have hsite : x.site ∈ (f.design.node x.caller).sitesTo m := by
        rw [hlog]
        refine List.mem_map_of_mem (List.mem_filter.2 ⟨hx, ?_⟩)
        simpa using (of_decide_eq_true hactive).1
      obtain ⟨sites, hcalls, -⟩ := Node.mem_calls_of_sites hsite
      obtain ⟨n, hn, -⟩ := Design.get?_of_calls hcalls
      exact Arena.lt_of_get? hn
    rw [hone, Design.byCaller_singleton hcaller, List.map_singleton] at hpassed
    rw [hget, CallLogic.argument_exclusive hexcl harg hw hpassed]
  · rw [← hpassed] at hv
    rw [hget, CallLogic.argument_combined hnon harg hw hle hcomb hv]

namespace Draft

/-- Two transactions that call an exclusive method, and two that call one which adds up its arguments. -/
def delivered : List Action :=
  [.transaction "A" .generated, .transaction "B" .generated, .transaction "C" .generated,
    .method { name := "m", input := .bits 4 } .generated,
    .method { name := "n", input := .bits 4, nonexclusive := true, combiner := some .sum } .generated,
    .openModule "",
    .inModule 0 (.openMethod 3 .one none .generated), .inModule 0 .leaveBody,
    .inModule 0 (.openMethod 4 .one none .generated), .inModule 0 .leaveBody,
    .inModule 0 (.openTransaction 0 .one .generated),
    .inModule 0 (.call 3 (.const 5 4) .one .generated),
    .inModule 0 (.call 4 (.const 9 4) .one .generated), .inModule 0 .leaveBody,
    .inModule 0 (.openTransaction 1 .one .generated),
    .inModule 0 (.call 3 (.const 6 4) .one .generated), .inModule 0 .leaveBody,
    .inModule 0 (.openTransaction 2 .one .generated),
    .inModule 0 (.call 4 (.const 9 4) .one .generated), .inModule 0 .leaveBody]

/-- The body of the second transaction is recorded before that of the first one. -/
def swapped : List Action :=
  [.transaction "A" .generated, .transaction "B" .generated,
    .method { name := "n", input := .bits 4, nonexclusive := true, combiner := some .lowestActive } .generated,
    .openModule "",
    .inModule 0 (.openMethod 2 .one none .generated), .inModule 0 .leaveBody,
    .inModule 0 (.openTransaction 1 .one .generated),
    .inModule 0 (.call 2 (.const 1 4) .one .generated), .inModule 0 .leaveBody,
    .inModule 0 (.openTransaction 0 .one .generated),
    .inModule 0 (.call 2 (.const 2 4) .one .generated), .inModule 0 .leaveBody]

end Draft

/-- `m` gets its argument from `A` and not from `B`; `n` gets 9 + 9 modulo 16. -/
theorem argument_delivered_of_delivered :
    ∃ x : Draft.Trial, ∃ m n : MethodInfo, ∃ i j : SignalId, (Draft.of Draft.delivered).trial? = some x ∧
      (x.fused.design.node 3).method? = some m ∧ m.dataIn = some i ∧ x.kernel.get i = .ok 5 ∧
      (x.fused.design.node 4).method? = some n ∧ n.dataIn = some j ∧ x.kernel.get j = .ok 2 := by
  have hrun : (Draft.start {}).run Draft.delivered = some (Draft.of Draft.delivered) :=
    Draft.run_of (by decide +kernel)
  have htrial : ∃ x ∈ (Draft.of Draft.delivered).trial?,
      (∃ m ∈ (x.fused.design.node 3).method?, m.input.isEmpty = false ∧ m.nonexclusive = false) ∧
      (∃ call ∈ (x.fused.design.activeCalls x.kernel 3 ((Draft.start {}).callLog Draft.delivered)).head?,
        x.fused.design.activeCalls x.kernel 3 ((Draft.start {}).callLog Draft.delivered) = [call] ∧
        call.site.arg.value x.kernel.values.valuation = 5) ∧
      ∃ n ∈ (x.fused.design.node 4).method?, n.input.isEmpty = false ∧ n.nonexclusive = true ∧
        n.combiner.bind (CallLogic.combined n.input.width
          ((x.fused.design.byCaller (x.fused.design.activeCalls x.kernel 4
            ((Draft.start {}).callLog Draft.delivered))).map fun call =>
              call.site.arg.value x.kernel.values.valuation)) = some 2 := by
    decide +kernel
  obtain ⟨x, hx, ⟨m, hm, hmne, hexcl⟩, ⟨call, -, hone, harg⟩, n, hn, hnne, hnon, hsum⟩ := htrial
  obtain ⟨combiner, hcomb, hv⟩ := Option.bind_eq_some_iff.1 hsum
  obtain ⟨hf, hs, he, hk⟩ := Draft.trial_ok hx
  obtain ⟨i, hi, hmget, -⟩ := argument_delivered hrun he hf hs hk hm hmne
  obtain ⟨j, hj, -, hnget⟩ := argument_delivered hrun he hf hs hk hn hnne
  exact ⟨x, m, n, i, j, hx, hm, hi, harg ▸ hmget hexcl call hone, hn, hj, hnget hnon combiner 2 hcomb hv⟩

/-- In the order of recording the call of `B` with 1 is the first of the active ones, and yet `n` gets 2. -/
theorem lowest_active_of_swapped :
    ∃ x : Draft.Trial, ∃ n : MethodInfo, ∃ bus, (Draft.of Draft.swapped).trial? = some x ∧
      (x.fused.design.node 2).method? = some n ∧ n.nonexclusive = true ∧ n.combiner = some .lowestActive ∧
      n.dataIn = some bus ∧
      CallLogic.combined n.input.width ((x.fused.design.activeCalls x.kernel 2
        ((Draft.start {}).callLog Draft.swapped)).map fun call => call.site.arg.value x.kernel.values.valuation)
        .lowestActive = some 1 ∧
      x.kernel.get bus = .ok 2 := by
  have htrial : ∃ x ∈ (Draft.of Draft.swapped).trial?, ∃ n ∈ (x.fused.design.node 2).method?, ∃ bus ∈ n.dataIn,
      n.nonexclusive = true ∧ (n.combiner.any fun c => match c with | .lowestActive => true | _ => false) = true ∧
      CallLogic.combined n.input.width ((x.fused.design.activeCalls x.kernel 2
        ((Draft.start {}).callLog Draft.swapped)).map fun call => call.site.arg.value x.kernel.values.valuation)
        .lowestActive = some 1 ∧
      x.kernel.get bus = .ok 2 := by
    decide +kernel
  obtain ⟨x, hx, n, hn, bus, hbus, hnon, hcomb, hfirst, hget⟩ := htrial
  refine ⟨x, n, bus, hx, hn, hnon, ?_, hbus, hfirst, hget⟩
  obtain ⟨c, hc, hlowest⟩ := (Option.any_eq_true _ _).1 hcomb
  cases c with
  | lowestActive => exact hc
  | _ => cases hlowest

end Interlock
