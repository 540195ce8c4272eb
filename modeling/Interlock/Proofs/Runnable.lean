import Interlock.Proofs.CallChains
import Interlock.Proofs.Draft.Nodes
import Interlock.Proofs.Draft.Trial

/-! When a transaction is runnable: every method that calls lead to is ready, and the enabled calls of it pass
arguments that it accepts. A call counts as made where its own enable holds, whether or not the calls that
lead to its body are made; so a call below a branch that is not taken can hold a transaction up. -/

namespace Interlock

/-- The check that a validator makes of an argument holds. -/
def Validator.Accepts (v : Validator) (σ : Valuation) (arg : Expr) : Prop :=
  ∃ check, v.validate arg = .ok check ∧ check.truth σ = true

namespace Design

/-- The calls of `m` at the end of a way that are enabled pass arguments that it accepts. -/
def AcceptsFrom (d : Design) (σ : Valuation) (t : NodeId) (callers : List NodeId) (m : NodeId) : Prop :=
  ∀ info, (d.node m).method? = some info → ∀ v, info.validator = some v →
    ∀ call ∈ CallMap.callsOn d t callers m, call.1.value σ ≠ 0 → v.Accepts σ call.2

/-- Enabled calls lead from a transaction all along the callers of a way, the direct caller first. -/
def Led (d : Design) (σ : Valuation) (t : NodeId) : List NodeId → Prop
  | [] => True
  | c :: callers => d.Led σ t callers ∧ ∃ call ∈ CallMap.callsOn d t callers c, call.1.value σ ≠ 0

/-- A way that has begun with a call is led only where the transaction makes an enabled call itself. -/
theorem Led.first {d : Design} {σ : Valuation} {t : NodeId} {callers : List NodeId} (h : d.Led σ t callers)
    (hne : callers ≠ []) : ∃ c, ∃ call ∈ CallMap.callsOn d t [] c, call.1.value σ ≠ 0 := by
  induction callers with
  | nil => exact absurd rfl hne
  | cons c rest ih =>
    rcases rest with _ | ⟨b, rest⟩
    · exact ⟨c, h.2⟩
    · exact ih h.1 (List.cons_ne_nil b rest)

variable {d d' : Design} {map : CallMap} {s : Schedule} {l : List GuardedAssign} {k : Kernel}

theorem width_callsOn (hbits : d.EnableBits) {t m : NodeId} {callers : List NodeId} :
    ∀ call ∈ CallMap.callsOn d t callers m, call.1.width = 1 := by
  intro call hcall
  obtain ⟨site, hsite, rfl⟩ := List.mem_map.1 hcall
  rw [CallMap.effective, Expr.width_substitute, hbits _ _ site hsite]

/-- The condition of a way holds where the method is ready and accepts what is passed. -/
theorem condition_iff (hbits : d.EnableBits) {σ : Valuation} {t m : NodeId} {callers : List NodeId}
    {info : MethodInfo} (hm : (d.node m).method? = some info) {e : Expr} (he : CallMap.Condition d t callers m e) :
    e.truth σ = true ↔ (d.read info.ready).truth σ = true ∧ d.AcceptsFrom σ t callers m := by
  obtain ⟨info', hm', he⟩ := he
  obtain rfl : info = info' := Option.some.inj (hm.symm.trans hm')
  rw [CallMap.readiness_iff he (width_callsOn hbits)]
  refine and_congr_right fun _ => ⟨fun hall info' hm' v hv call hcall hen => ?_, fun hall v hv call hcall hen => ?_⟩
  · obtain rfl : info = info' := Option.some.inj (hm.symm.trans hm')
    exact hall v hv call hcall ((Expr.value_ne_zero_iff (width_callsOn hbits call hcall)).1 hen)
  · exact hall info hm v hv call hcall ((Expr.value_ne_zero_iff (width_callsOn hbits call hcall)).2 hen)

/-- All conditions of a transaction hold where every method on its ways is ready and accepts what is passed. -/
theorem conditions_iff (htells : map.Tells d) (hbits : d.EnableBits) {σ : Valuation} {t : NodeId}
    (ht : t ∈ d.transactions) :
    (map.conditionsOf t).all (Expr.truth σ) = true ↔ ∀ callers m info, d.Way t callers m →
      (d.node m).method? = some info → (d.read info.ready).truth σ = true ∧ d.AcceptsFrom σ t callers m := by
  rw [htells.conditions ht]
  constructor
  · intro hall callers m info hway hm
    obtain ⟨e, he, htruth⟩ := hall callers m hway
    exact (condition_iff hbits hm he).1 htruth
  · intro hall callers m hway
    obtain ⟨-, e, -, he, -⟩ := htells.asks t ht callers m hway
    obtain ⟨-, info, hm⟩ := hway.calls
    exact ⟨e, he, (condition_iff hbits hm he).2 (hall callers m info hway hm)⟩

end Design

theorem Draft.Recorded.tells {d : Draft} (h : d.Recorded) {f : Design.Fused}
    (hf : Attempt.Gives d.design.fused f) : f.map.Tells f.design := by
  obtain ⟨-, -, -, -, -, -, hmap⟩ := Design.fused_steps hf
  exact CallMap.build_tells (h.uniform hf) hmap

/-- With either scheduler and in every state that inputs and clock edges lead to, a scheduled transaction is
runnable exactly where, on every way from it, the method at the end is ready and accepts the arguments of the
calls there that are enabled. The enables of the calls before the last one on the way do not matter. -/
theorem runnable_iff_accepted {d : Draft} (hd : d.Recorded) {sink sink' : DiagnosticSink} {e : Elaborated}
    (he : d.design.elaborate sink = .ok (.ok e, sink')) {f : Design.Fused}
    (hf : Attempt.Gives d.design.fused f) {s : Schedule} (hs : f.design.schedule f.map = .ok s) {k : Kernel}
    (hk : Kernel.Reachable e.netlist k) {t : NodeId} (ht : t ∈ s.order) :
    ∃ info, (f.design.node t).kind = .transaction info ∧ (k.get info.runnable = .ok 1 ↔
      ∀ callers m minfo, f.design.Way t callers m → (f.design.node m).method? = some minfo →
        k.get minfo.ready = .ok 1 ∧ f.design.AcceptsFrom k.values.valuation t callers m) := by
  obtain ⟨d', l, h, hnetlist⟩ := Design.elaborate_circuit hd.sound he hf hs
  obtain ⟨hsound, -, hfuses⟩ := Design.fused_ok hd.sound hf
  rw [hnetlist] at hk
  have ht := (h.schedules.order t).1 ht
  obtain ⟨info, htr⟩ := hsound.transaction ht
  refine ⟨info, htr.kind, ?_⟩
  rw [h.toWired.get_one hk htr.runnable, h.runnable hk.steady htr,
    Design.conditions_iff (hd.tells hf) (hd.enableBits hfuses) ht]
  refine forall_congr' fun callers => forall_congr' fun m => forall_congr' fun minfo =>
    forall_congr' fun _ => forall_congr' fun hm => and_congr_left' ?_
  have hready := (hsound.run_isBit hm).2
  rw [Design.truth_read hready, h.toWired.get_one hk hready]

namespace Draft

/-- A method that accepts small arguments. -/
def belowSix : Validator := ⟨fun arg => .ok (arg.lessThan (.constant 6 4))⟩

/-- A transaction that calls a method while `c` is high, with an argument that it does not accept. -/
def conditional : List Action :=
  [.transaction "A" .generated, .method { name := "m", input := .bits 4 } .generated, .openModule "",
    .inModule 0 (.signal "c" 1 .input 0 .generated),
    .inModule 0 (.openMethod 1 .one (some belowSix) .generated), .inModule 0 .leaveBody,
    .inModule 0 (.openTransaction 0 .one .generated),
    .inModule 0 (.call 1 (.const 7 4) (.signal 6 1) .generated), .inModule 0 .leaveBody]

/-- The same, but the transaction calls a method which makes that call. -/
def forwarded : List Action :=
  [.transaction "A" .generated, .method { name := "m", input := .bits 4 } .generated,
    .method { name := "x" } .generated, .openModule "",
    .inModule 0 (.signal "c" 1 .input 0 .generated),
    .inModule 0 (.openMethod 1 .one (some belowSix) .generated), .inModule 0 .leaveBody,
    .inModule 0 (.openMethod 2 .one none .generated),
    .inModule 0 (.call 1 (.const 7 4) .one .generated), .inModule 0 .leaveBody,
    .inModule 0 (.openTransaction 0 .one .generated),
    .inModule 0 (.call 2 (.zero 0) (.signal 8 1) .generated), .inModule 0 .leaveBody]

end Draft

/-- With `c` low the call is not made, and does not hold up the transaction. -/
theorem runnable_iff_accepted_of_conditional :
    ∃ x : Draft.Trial, ∃ info, (Draft.of Draft.conditional).trial? = some x ∧
      (x.fused.design.node 0).kind = .transaction info ∧ x.kernel.get info.runnable = .ok 1 := by
  have hrec : (Draft.of Draft.conditional).Recorded := Draft.recorded_of (by decide +kernel)
  have htrial : ∃ x ∈ (Draft.of Draft.conditional).trial?, x.schedule.order = [0] ∧
      (x.fused.design.node 0).calls.map (·.1) = [1] ∧ (x.fused.design.node 1).calls.map (·.1) = [] ∧
      (∀ info ∈ (x.fused.design.node 1).method?, x.kernel.get info.ready = .ok 1) ∧
      ∀ call ∈ CallMap.callsOn x.fused.design 0 [] 1, call.1.value x.kernel.values.valuation = 0 := by
    decide +kernel
  obtain ⟨x, hx, horder, h0, h1, hready, hoff⟩ := htrial
  obtain ⟨hf, hs, he, hk⟩ := Draft.trial_ok hx
  have called : ∀ {c m}, x.fused.design.Calls c m → m ∈ (x.fused.design.node c).calls.map (·.1) :=
    fun ⟨⟨_, hcall⟩, _⟩ => List.mem_map_of_mem hcall
  have ways : ∀ callers m, x.fused.design.Way 0 callers m → callers = [] ∧ m = 1 := by
    intro callers m hway
    induction hway with
    | direct h =>
      have hm := called h
      rw [h0, List.mem_singleton] at hm
      exact ⟨rfl, hm⟩
    | through _ h ih =>
      have hm := called h
      rw [ih.2, h1] at hm
      exact nomatch hm
  obtain ⟨info, hinfo, hiff⟩ :=
    runnable_iff_accepted hrec he hf hs hk (t := 0) (by rw [horder]; exact List.mem_singleton_self 0)
  refine ⟨x, info, hx, hinfo, hiff.2 fun callers m minfo hway hm => ?_⟩
  obtain ⟨rfl, rfl⟩ := ways callers m hway
  exact ⟨hready minfo hm, fun _ _ _ _ call hcall hen => absurd (hoff call hcall) hen⟩

/-- With `c` low no call is made, every method is ready, and still the transaction is not runnable. -/
theorem not_runnable_of_forwarded :
    ∃ x : Draft.Trial, ∃ info, (Draft.of Draft.forwarded).Recorded ∧ (Draft.of Draft.forwarded).trial? = some x ∧
      x.schedule.order = [0] ∧ (x.fused.design.node 0).kind = .transaction info ∧
      (∀ m minfo, (x.fused.design.node m).method? = some minfo → x.kernel.get minfo.ready = .ok 1) ∧
      (∀ callers m, x.fused.design.Way 0 callers m → x.fused.design.Led x.kernel.values.valuation 0 callers →
        x.fused.design.AcceptsFrom x.kernel.values.valuation 0 callers m) ∧
      x.kernel.get info.runnable = .ok 0 := by
  have hrec : (Draft.of Draft.forwarded).Recorded := Draft.recorded_of (by decide +kernel)
  have htrial : ∃ x ∈ (Draft.of Draft.forwarded).trial?, x.schedule.order = [0] ∧
      (∃ info ∈ (x.fused.design.node 0).transaction?, x.kernel.get info.runnable = .ok 0) ∧
      (∀ n ∈ x.fused.design.nodeList, ∀ info ∈ n.method?, x.kernel.get info.ready = .ok 1) ∧
      ∀ c ∈ (x.fused.design.node 0).calls, ∀ site ∈ c.2,
        (CallMap.effective [] site).1.value x.kernel.values.valuation = 0 := by
    decide +kernel
  obtain ⟨x, hx, horder, ⟨info, hinfo, hrunnable⟩, hready, hoff⟩ := htrial
  have hkind : (x.fused.design.node 0).kind = .transaction info := by
    unfold Node.transaction? at hinfo
    split at hinfo <;> simp_all
  have hnone : ∀ c, ∀ call ∈ CallMap.callsOn x.fused.design 0 [] c, call.1.value x.kernel.values.valuation = 0 := by
    intro c call hcall
    obtain ⟨site, hsite, rfl⟩ := List.mem_map.1 hcall
    obtain ⟨sites, hcalls, hmem⟩ := Node.mem_calls_of_sites hsite
    exact hoff _ hcalls site hmem
  refine ⟨x, info, hrec, hx, horder, hkind, fun m minfo hm => ?_, fun callers m _ hled => ?_, hrunnable⟩
  · obtain ⟨n, hn, hnode, -⟩ := Design.get?_of_method hm
    exact hready n (Arena.mem_toList.2 ⟨m, hn⟩) minfo (hnode ▸ hm)
  · rcases callers with _ | ⟨c, rest⟩
    · exact fun _ _ _ _ call hcall hen => absurd (hnone m call hcall) hen
    · obtain ⟨b, call, hcall, hen⟩ := hled.first (List.cons_ne_nil c rest)
      exact absurd (hnone b call hcall) hen

end Interlock
