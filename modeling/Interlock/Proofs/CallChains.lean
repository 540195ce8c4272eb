import Interlock.Proofs.Draft.Callees
import Interlock.Proofs.Draft.Sites
import Interlock.Proofs.Expr.Value
import Interlock.Proofs.Fusion.Members
import Interlock.Proofs.Readiness
import Mathlib.Logic.Relation

/-! What runs in a cycle: the methods to which enabled calls lead from a granted transaction. Down a chain
of calls each body that runs makes the next call; that a body which runs was led to in this way follows
going back from caller to caller. -/

namespace Interlock

namespace Design

/-- A call of `m` in the body of `c` is enabled. The enable is read at its width, as signals are; that is its
value wherever constants fit their widths (`Expr.value_eq_eval`). -/
def EnabledCall (d : Design) (σ : Valuation) (c m : NodeId) : Prop :=
  ∃ site ∈ (d.node c).sitesTo m, site.enable.value σ ≠ 0

instance (d : Design) (σ : Valuation) (c m : NodeId) : Decidable (d.EnabledCall σ c m) :=
  inferInstanceAs (Decidable (∃ site ∈ (d.node c).sitesTo m, site.enable.value σ ≠ 0))

/-- The enable of every call is a single bit. -/
def EnableBits (d : Design) : Prop := ∀ c m, ∀ site ∈ (d.node c).sitesTo m, site.enable.width = 1

variable {d d' : Design} {map : CallMap} {s : Schedule} {l : List GuardedAssign} {k : Kernel}

theorem Callable.of_sites (hc : d.Callable) {c m : NodeId} {site : CallSite} (hs : site ∈ (d.node c).sitesTo m) :
    d.Calls c m := by
  obtain ⟨sites, hcalls, -⟩ := Node.mem_calls_of_sites hs
  obtain ⟨port, hport, -⟩ := hc.calls c m site hs
  obtain ⟨info, hinfo, -⟩ := Option.map_eq_some_iff.1 hport
  exact ⟨⟨sites, hcalls⟩, info, hinfo⟩

/-- A body that runs makes the calls that it enables. -/
theorem activates_iff (hc : d.Callable) (hbits : d.EnableBits) {c m : NodeId} :
    d.Activates k c m ↔ d.runs k c = true ∧ d.EnabledCall k.values.valuation c m := by
  constructor
  · rintro ⟨-, hruns, site, hsite, htruth⟩
    exact ⟨hruns, site, hsite, (Expr.value_ne_zero_iff (hbits c m site hsite)).2 htruth⟩
  · rintro ⟨hruns, site, hsite, hvalue⟩
    exact ⟨hc.of_sites hsite, hruns, site, hsite, (Expr.value_ne_zero_iff (hbits c m site hsite)).1 hvalue⟩

theorem ActiveWay.chain (hc : d.Callable) (hbits : d.EnableBits) {t m : NodeId} {callers : List NodeId}
    (h : d.ActiveWay k t callers m) : Relation.TransGen (d.EnabledCall k.values.valuation) t m := by
  induction h with
  | direct h => exact .single ((activates_iff hc hbits).1 h).2
  | through _ h ih => exact ih.tail ((activates_iff hc hbits).1 h).2

namespace Circuit

theorem live_of_transaction (h : Circuit d map s d' l) {t : NodeId} (ht : t ∈ d.transactions) :
    CallLogic.isLive d map t = true := by
  obtain ⟨info, htr⟩ := h.sound.transaction ht
  rw [CallLogic.isLive, Node.isTransaction, htr.transaction?]
  rfl

theorem live_of_way (h : Circuit d map s d' l) {t m : NodeId} {callers : List NodeId} (ht : t ∈ d.transactions)
    (hway : d.Way t callers m) : CallLogic.isLive d map m = true := by
  obtain ⟨-, r, hr, -⟩ := h.describes.covers t ht callers m hway
  rw [CallLogic.isLive, Bool.or_eq_true]
  refine .inr (List.any_eq_true.2 ⟨r, List.mem_of_find?_eq_some hr, ?_⟩)
  rw [(CallMap.find?_key hr).2, beq_self_eq_true]

theorem runs_of_activates (h : Circuit d map s d' l) (hk : k.Steady d'.lowered) {c m : NodeId}
    (hlive : CallLogic.isLive d map c = true) (hactive : d.Activates k c m) : d.runs k m = true := by
  obtain ⟨-, info, hinfo⟩ := hactive.calls
  exact (h.runs_iff hk hinfo).2 ⟨c, h.sound.caller_of_calls hactive.calls, hlive, hactive⟩

/-- Down a chain of enabled calls everything runs. -/
theorem runs_of_chain (h : Circuit d map s d' l) (hk : k.Steady d'.lowered) (hc : d.Callable)
    (hbits : d.EnableBits) {t m : NodeId} (ht : t ∈ d.transactions) (hgrant : d.runs k t = true)
    (hchain : Relation.TransGen (d.EnabledCall k.values.valuation) t m) :
    d.runs k m = true ∧ ∃ callers, d.Way t callers m := by
  induction hchain with
  | single hcall =>
    have hactive := (activates_iff hc hbits).2 ⟨hgrant, hcall⟩
    exact ⟨h.runs_of_activates hk (h.live_of_transaction ht) hactive, [], .direct hactive.calls⟩
  | tail _ hcall ih =>
    obtain ⟨hruns, callers, hway⟩ := ih
    have hactive := (activates_iff hc hbits).2 ⟨hruns, hcall⟩
    exact ⟨h.runs_of_activates hk (h.live_of_way ht hway) hactive, _, hway.extend hactive.calls⟩

theorem runs_iff_chain (h : Circuit d map s d' l) (hk : k.Steady d'.lowered) (hc : d.Callable)
    (hbits : d.EnableBits) {m : NodeId} {info : MethodInfo} (hm : (d.node m).method? = some info) :
    d.runs k m = true ↔ ∃ t ∈ d.transactions, d.runs k t = true ∧
      Relation.TransGen (d.EnabledCall k.values.valuation) t m := by
  constructor
  · intro hruns
    obtain ⟨c, hcaller, hlive, hactive⟩ := (h.runs_iff hk hm).1 hruns
    obtain ⟨t, ht, hgrant, callers, -, hway⟩ := h.activeWay hk hcaller hlive hactive
    exact ⟨t, ht, hgrant, hway.chain hc hbits⟩
  · rintro ⟨t, ht, hgrant, hchain⟩
    exact (h.runs_of_chain hk hc hbits ht hgrant hchain).1

theorem get_run (h : Circuit d map s d' l) (hk : Kernel.Reachable d'.lowered k) {m : NodeId} {info : MethodInfo}
    (hm : (d.node m).method? = some info) : k.get info.run = .ok 1 ↔ d.runs k m = true := by
  rw [h.toWired.get_one hk (h.sound.run_isBit hm).1, runs, activator_of_method hm]

end Circuit

end Design

theorem Draft.Recorded.enableBits {d : Draft} (h : d.Recorded) {f : Design} (hf : Fusion.Fuses d.design f) :
    f.EnableBits := fun _ _ _ hs => h.enable_width hf hs

/-- With either scheduler and in every state that inputs and clock edges lead to, a method runs exactly where
calls that are enabled lead to it from a granted transaction of the schedule, by way of any number of other
methods. -/
theorem runs_iff_called {d : Draft} (hd : d.Recorded) {sink sink' : DiagnosticSink} {e : Elaborated}
    (he : d.design.elaborate sink = .ok (.ok e, sink')) {f : Design.Fused}
    (hf : Attempt.Gives d.design.fused f) {s : Schedule} (hs : f.design.schedule f.map = .ok s) {k : Kernel}
    (hk : Kernel.Reachable e.netlist k) {m : NodeId} {info : MethodInfo}
    (hm : (f.design.node m).method? = some info) :
    k.get info.run = .ok 1 ↔ ∃ t ∈ s.order, f.design.Granted k t ∧
      Relation.TransGen (f.design.EnabledCall k.values.valuation) t m := by
  obtain ⟨d', l, h, hnetlist⟩ := Design.elaborate_circuit hd.sound he hf hs
  obtain ⟨-, -, hfuses⟩ := Design.fused_ok hd.sound hf
  rw [hnetlist] at hk
  rw [h.get_run hk hm, h.runs_iff_chain hk.steady (hd.callable.fused hd.sound hf) (hd.enableBits hfuses) hm]
  refine exists_congr fun t => ?_
  rw [h.schedules.order t]
  exact and_congr_right fun ht => and_congr_left' (h.granted_iff hk ht).symm

namespace Draft

/-- A transaction that calls a method, which calls another while `c` is high. -/
def nested : List Action :=
  [.transaction "A" .generated, .method { name := "x" } .generated, .method { name := "m" } .generated,
    .openModule "",
    .inModule 0 (.signal "c" 1 .input 0 .generated),
    .inModule 0 (.openMethod 2 .one none .generated), .inModule 0 .leaveBody,
    .inModule 0 (.openMethod 1 .one none .generated),
    .inModule 0 (.call 2 (.zero 0) (.signal 7 1) .generated), .inModule 0 .leaveBody,
    .inModule 0 (.openTransaction 0 .one .generated),
    .inModule 0 (.call 1 (.zero 0) .one .generated), .inModule 0 .leaveBody]

end Draft

/-- With `c` high the call chain from the transaction by way of `x` runs `m`. -/
theorem runs_iff_called_of_nested :
    ∃ x : Draft.Trial, ∃ k : Kernel, ∃ info, (Draft.of Draft.nested).trial? = some x ∧
      (x.kernel.set 7 1).Gives k ∧ (x.fused.design.node 2).method? = some info ∧ k.get info.run = .ok 1 := by
  have hrec : (Draft.of Draft.nested).Recorded := Draft.recorded_of (by decide +kernel)
  have htrial : ∃ x ∈ (Draft.of Draft.nested).trial?, ∃ k ∈ (x.kernel.set 7 1).result?,
      ∃ info ∈ (x.fused.design.node 2).method?, x.schedule.order = [0] ∧ x.fused.design.Granted k 0 ∧
        x.fused.design.EnabledCall k.values.valuation 0 1 ∧ x.fused.design.EnabledCall k.values.valuation 1 2 := by
    decide +kernel
  obtain ⟨x, hx, k, hk', info, hm, horder, hgrant, h01, h12⟩ := htrial
  obtain ⟨hf, hs, he, hk⟩ := Draft.trial_ok hx
  have hset := Attempt.result?_eq_some.1 hk'
  refine ⟨x, k, info, hx, hset, hm, (runs_iff_called hrec he hf hs (hk.set hset) hm).2 ⟨0, ?_, hgrant, ?_⟩⟩
  · rw [horder]
    exact List.mem_singleton_self 0
  · exact .tail (.single h01) h12

end Interlock
