import Interlock.Proofs.CallLogic.Runs
import Interlock.Proofs.ConflictFree

/-! Readiness: nothing runs that is not ready to. A granted transaction has requested it and may run, and
then every method that it reaches is ready. -/

namespace Interlock

namespace Design.Circuit

variable {d d' : Design} {map : CallMap} {s : Schedule} {l : List GuardedAssign} {k : Kernel}

/-- A transaction is runnable where all conditions on its way hold. -/
theorem runnable (h : Circuit d map s d' l) (hk : k.Steady d'.lowered) {t : NodeId} {info : TransactionInfo}
    (ht : d.HasTransaction t info) :
    lowBit (k.values.valuation info.runnable) = (map.conditionsOf t).all (Expr.truth k.values.valuation) := by
  have hdriven := h.transactions (d.node t) (Arena.mem_toList.2 ⟨t, ht.get?⟩) info ht.transaction?
  rw [(h.sound.nodes t _ ht.get?).id] at hdriven
  rw [h.value hk ht.runnable hdriven, Expr.truth_all]

/-- Every method on a way of a granted transaction is ready. -/
theorem ready_of_way (h : Circuit d map s d' l) (hk : Kernel.Reachable d'.lowered k) {t m : NodeId}
    {callers : List NodeId} {info : MethodInfo} (ht : t ∈ d.transactions) (hgrant : d.runs k t = true)
    (hway : d.Way t callers m) (hm : (d.node m).method? = some info) :
    lowBit (k.values.valuation info.ready) = true := by
  obtain ⟨tinfo, htr⟩ := h.sound.transaction ht
  have hwants := h.wants hk ht hgrant
  rw [Arbiter.truth_wants htr, h.runnable hk.steady htr, Bool.and_eq_true, List.all_eq_true] at hwants
  obtain ⟨-, r, hr, -⟩ := h.describes.covers t ht callers m hway
  obtain ⟨hrt, hrm⟩ := CallMap.find?_key hr
  have hmem : r ∈ map.reaches := List.mem_of_find?_eq_some hr
  have hcond : r.readiness ∈ map.conditionsOf t := by
    refine List.mem_map_of_mem (List.mem_filter.2 ⟨hmem, ?_⟩)
    rw [hrt, beq_self_eq_true]
  have hready := (h.describes.right r hmem).ready info (hrm ▸ hm) _ (hwants.2 _ hcond)
  rwa [truth_read (h.sound.run_isBit hm).2] at hready

theorem ready_of_runs (h : Circuit d map s d' l) (hk : Kernel.Reachable d'.lowered k) {m : NodeId}
    {info : MethodInfo} (hm : (d.node m).method? = some info) (hruns : d.runs k m = true) :
    lowBit (k.values.valuation info.ready) = true := by
  obtain ⟨c, hc, hlive, hactive⟩ := (h.runs_iff hk.steady hm).1 hruns
  obtain ⟨t, ht, hgrant, callers, -, hway⟩ := h.activeWay hk.steady hc hlive hactive
  exact h.ready_of_way hk ht hgrant hway.way hm

/-- What runs was ready to, in terms of the wires. -/
theorem get_request (h : Circuit d map s d' l) (hk : Kernel.Reachable d'.lowered k) {t : NodeId}
    {info : TransactionInfo} (ht : t ∈ d.transactions) (hinfo : (d.node t).kind = .transaction info)
    (hgrant : k.get info.grant = .ok 1) : k.get info.request = .ok 1 ∧ k.get info.runnable = .ok 1 := by
  obtain ⟨info', htr⟩ := h.sound.transaction ht
  obtain rfl : info = info' := NodeKind.transaction.inj (hinfo.symm.trans htr.kind)
  rw [h.toWired.get_one hk htr.grant, ← htr.activator] at hgrant
  rw [h.toWired.get_one hk htr.request, h.toWired.get_one hk htr.runnable, ← Bool.and_eq_true,
    ← Arbiter.truth_wants htr]
  exact h.wants hk ht hgrant

theorem get_ready (h : Circuit d map s d' l) (hk : Kernel.Reachable d'.lowered k) {m : NodeId}
    {info : MethodInfo} (hm : (d.node m).method? = some info) (hrun : k.get info.run = .ok 1) :
    k.get info.ready = .ok 1 := by
  obtain ⟨hbit, hready⟩ := h.sound.run_isBit hm
  rw [h.toWired.get_one hk hbit, ← activator_of_method hm] at hrun
  rw [h.toWired.get_one hk hready]
  exact h.ready_of_runs hk hm hrun

end Design.Circuit

/-- With either scheduler and in every state that inputs and clock edges lead to, a scheduled transaction
that is granted has requested it and may run; a method that runs is ready, also one that was a transaction,
whose readiness is its old request; and so every transaction of the recorded design that fires has requested
to. -/
theorem running_ready {d : Draft} (hd : d.Recorded) {sink sink' : DiagnosticSink} {e : Elaborated}
    (he : d.design.elaborate sink = .ok (.ok e, sink')) {f : Design.Fused}
    (hf : Attempt.Gives d.design.fused f) {s : Schedule} (hs : f.design.schedule f.map = .ok s) {k : Kernel}
    (hk : Kernel.Reachable e.netlist k) :
    (∀ t ∈ s.order, ∃ info, (f.design.node t).kind = .transaction info ∧
        (k.get info.grant = .ok 1 → k.get info.request = .ok 1 ∧ k.get info.runnable = .ok 1)) ∧
      (∀ m info, (f.design.node m).method? = some info →
        (k.get info.run = .ok 1 → k.get info.ready = .ok 1) ∧
          ∀ o, info.fusedFrom = some o → info.ready = o.request ∧ info.run = o.grant) ∧
      ∀ t ∈ d.design.transactions, ∃ info, (d.design.node t).kind = .transaction info ∧
        (k.get info.grant = .ok 1 → k.get info.request = .ok 1) := by
  obtain ⟨d', l, h, hnetlist⟩ := Design.elaborate_circuit hd.sound he hf hs
  obtain ⟨hsound, -, hfuses⟩ := Design.fused_ok hd.sound hf
  rw [hnetlist] at hk
  refine ⟨fun t ht => ?_, fun m info hm => ⟨h.get_ready hk hm, fun o ho => ?_⟩, fun t ht => ?_⟩
  · have ht := (h.schedules.order t).1 ht
    obtain ⟨info, htr⟩ := hsound.transaction ht
    exact ⟨info, htr.kind, h.get_request hk ht htr.kind⟩
  · obtain ⟨n, hn, -, hkind⟩ := Design.get?_of_method hm
    exact (hsound.nodes m n hn).fused info hkind o ho
  · obtain ⟨info, htr⟩ := hd.sound.transaction ht
    obtain ⟨n', hn', hsame⟩ := hfuses.old t _ htr.get?
    refine ⟨info, htr.kind, fun hgrant => ?_⟩
    rcases hsame with rfl | ⟨info', hkind, rfl⟩
    · have hft : t ∈ f.design.transactions := hsound.mem_transactions.2 ⟨_, info, hn', htr.kind⟩
      have hkind : (f.design.node t).kind = .transaction info := by
        rw [Design.node_of_get? hn', htr.kind]
      exact (h.get_request hk hft hkind hgrant).1
    · -- The transaction has become a method with the same wires.
      obtain rfl : info = info' := NodeKind.transaction.inj (htr.kind.symm.trans hkind)
      have hm : (f.design.node t).method? = some (Fusion.memberInfo info) := by
        rw [Design.node_of_get? hn']
        rfl
      exact h.get_ready hk hm hgrant

namespace Draft

/-- Two transactions that have to run together, one of which calls a method. -/
def joined : List Action :=
  [.transaction "A" .generated, .transaction "B" .generated, .method { name := "m" } .generated,
    .simultaneous 0 [1], .openModule "",
    .inModule 0 (.openMethod 2 .one none .generated), .inModule 0 .leaveBody,
    .inModule 0 (.openTransaction 0 .one .generated),
    .inModule 0 (.call 2 (.zero 0) .one .generated), .inModule 0 .leaveBody,
    .inModule 0 (.openTransaction 1 .one .generated), .inModule 0 .leaveBody]

end Draft

theorem running_ready_of_joined :
    ∃ x : Draft.Trial, (Draft.of Draft.joined).trial? = some x ∧ x.schedule.order = [3] ∧
      ∃ a m, ((Draft.of Draft.joined).design.node 0).kind = .transaction a ∧
        (x.fused.design.node 2).method? = some m ∧ x.kernel.get a.grant = .ok 1 ∧
        x.kernel.get a.request = .ok 1 ∧ x.kernel.get m.run = .ok 1 ∧ x.kernel.get m.ready = .ok 1 := by
  have hrec : (Draft.of Draft.joined).Recorded := Draft.recorded_of (by decide +kernel)
  have htrial : ∃ x ∈ (Draft.of Draft.joined).trial?, x.schedule.order = [3] ∧
      0 ∈ (Draft.of Draft.joined).design.transactions ∧
      (∃ a ∈ ((Draft.of Draft.joined).design.node 0).transaction?, x.kernel.get a.grant = .ok 1) ∧
      ∃ m ∈ (x.fused.design.node 2).method?, x.kernel.get m.run = .ok 1 := by
    decide +kernel
  obtain ⟨x, hx, horder, h0, ⟨a, ha, hgrant⟩, m, hm, hrun⟩ := htrial
  obtain ⟨hf, hs, he, hk⟩ := Draft.trial_ok hx
  obtain ⟨-, hmethods, hfired⟩ := running_ready hrec he hf hs hk
  obtain ⟨info, hinfo, hrequest⟩ := hfired 0 h0
  obtain rfl : info = a := by
    rw [Node.transaction?, hinfo] at ha
    exact Option.some.inj ha
  exact ⟨x, hx, horder, info, m, hinfo, hm, hgrant, hrequest hgrant, hrun, (hmethods 2 m hm).1 hrun⟩

end Interlock
