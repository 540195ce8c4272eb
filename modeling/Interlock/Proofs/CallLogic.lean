import Interlock.CallLogic
import Interlock.Proofs.Attempt
import Interlock.Proofs.Design.Gains
import Interlock.Proofs.Reach.Ways

/-! What the logic of calls drives: `run` and the argument bus of every method, and `runnable` of every
transaction, each by one assignment. -/

namespace Interlock.CallLogic

open Drivers Design

variable {d₀ d d' : Design} {map : CallMap}

/-- The wires of a method that it drives. -/
def methodTargets (n : Node) : List Nat :=
  match n.method? with
  | none => []
  | some info => info.run :: info.dataIn.toList

/-- The wires of a transaction that it drives. -/
def transactionTargets (n : Node) : List Nat :=
  match n.transaction? with
  | none => []
  | some info => [info.runnable]

theorem mem_callersOf (hd : d.Sound) {m c : NodeId} :
    c ∈ d.callersOf m ↔ ∃ n, d.nodes.get? c = some n ∧ n.calls.any (·.1 == m) = true := by
  simp only [callersOf, List.mem_map, List.mem_filter, nodeList, Arena.mem_toList]
  constructor
  · rintro ⟨n, ⟨⟨i, hi⟩, hn⟩, rfl⟩
    rw [(hd.nodes i n hi).id]
    exact ⟨n, hi, hn⟩
  · rintro ⟨n, hn, hc⟩
    exact ⟨n, ⟨⟨c, hn⟩, hc⟩, (hd.nodes c n hn).id⟩

theorem callsFrom_gains {l : List GuardedAssign} (hd : d₀.Sound) (hg : Gains d₀ d l) {m c : NodeId}
    (hc : c ∈ d₀.callersOf m) : callsFrom d m c = callsFrom d₀ m c := by
  obtain ⟨n, hn, -⟩ := (mem_callersOf hd).1 hc
  have hlt : n.activator < d₀.netlist.signals.size :=
    (hd.nodes c n hn).declared _ (Node.control_subset n.activator_mem_control)
  rw [callsFrom, callsFrom, hg.node, node_of_get? hn, hg.read hlt]

/-- Calls are the same whatever logic has been added. -/
theorem callsTo_gains {l : List GuardedAssign} (hd : d₀.Sound) (hg : Gains d₀ d l) (m : NodeId) :
    callsTo d map m = callsTo d₀ map m := by
  have hcallers : d.callersOf m = d₀.callersOf m := by
    unfold callersOf
    rw [hg.nodeList]
  have hlive : isLive d map = isLive d₀ map := by
    funext c
    rw [isLive, isLive, hg.node]
  rw [callsTo, callsTo, hcallers, hlive]
  exact List.flatMap_congr fun c hc => callsFrom_gains hd hg (List.mem_filter.1 hc).1

/-! ### Steps -/

/-- What is driven for a method. -/
def MethodDriven (d : Design) (map : CallMap) (n : Node) (l : List GuardedAssign) : Prop :=
  ∀ info, n.method? = some info →
    always info.run (.any ((callsTo d map n.id).map (·.active))) ∈ l ∧
      ∀ bus, info.dataIn = some bus →
        ∃ e, argument info (callsTo d map n.id) = .ok e ∧ always bus e ∈ l

/-- What is driven for a transaction. -/
def TransactionDriven (map : CallMap) (n : Node) (l : List GuardedAssign) : Prop :=
  ∀ info, n.transaction? = some info → always info.runnable (.all (map.conditionsOf n.id)) ∈ l

theorem MethodDriven.mono {n : Node} {l l' : List GuardedAssign} (h : MethodDriven d map n l)
    (hl : ∀ a ∈ l, a ∈ l') : MethodDriven d map n l' := fun info hinfo =>
  ⟨hl _ (h info hinfo).1, fun bus hbus =>
    let ⟨e, he, ha⟩ := (h info hinfo).2 bus hbus
    ⟨e, he, hl _ ha⟩⟩

theorem driveMethod_ok {l : List GuardedAssign} (hd : d₀.Sound) (hg : Gains d₀ d l) {n : Node}
    (h : driveMethod map d n = .ok d') :
    ∃ l', Gains d d' l' ∧ l'.map (·.target) = methodTargets n ∧ MethodDriven d₀ map n l' := by
  unfold driveMethod at h
  split at h
  · rename_i hnone
    rw [Except.ok.injEq] at h
    subst h
    exact ⟨[], .refl d, by simp [methodTargets, hnone],
      fun info hinfo => by rw [hnone] at hinfo; exact nomatch hinfo⟩
  · rename_i info hinfo
    rw [callsTo_gains hd hg] at h
    have hrun := drive_gains d info.run (.any ((callsTo d₀ map n.id).map (·.active)))
    simp only at h
    split at h
    · rename_i hbus
      obtain rfl := except_pure_ok.1 h
      refine ⟨_, hrun, by simp [methodTargets, hinfo, hbus], fun info' hinfo' => ?_⟩
      obtain rfl : info = info' := Option.some.inj (hinfo.symm.trans hinfo')
      exact ⟨List.mem_singleton_self _, fun bus hb => by rw [hbus] at hb; exact nomatch hb⟩
    · rename_i bus hbus
      simp only [except_bind_ok, except_pure_ok] at h
      obtain ⟨e, he, rfl⟩ := h
      refine ⟨_, hrun.trans (drive_gains _ bus e), by simp [methodTargets, hinfo, hbus], fun info' hinfo' => ?_⟩
      obtain rfl : info = info' := Option.some.inj (hinfo.symm.trans hinfo')
      refine ⟨by simp, fun bus' hb => ?_⟩
      obtain rfl : bus = bus' := Option.some.inj (hbus.symm.trans hb)
      exact ⟨e, he, by simp⟩

theorem driveMethods_ok (hd : d₀.Sound) {nodes : List Node} :
    ∀ {d d' : Design} {l : List GuardedAssign}, Gains d₀ d l → nodes.foldlM (driveMethod map) d = .ok d' →
      ∃ l', Gains d d' l' ∧ l'.map (·.target) = nodes.flatMap methodTargets ∧
        ∀ n ∈ nodes, MethodDriven d₀ map n l' := by
  induction nodes with
  | nil =>
    intro d d' l _ h
    obtain rfl := except_pure_ok.1 h
    exact ⟨[], .refl d, rfl, fun _ hn => nomatch hn⟩
  | cons n nodes ih =>
    intro d d' l hg h
    rw [List.foldlM_cons, except_bind_ok] at h
    obtain ⟨d₁, h₁, h⟩ := h
    obtain ⟨l₁, hg₁, ht₁, hm₁⟩ := driveMethod_ok hd hg h₁
    obtain ⟨l₂, hg₂, ht₂, hm₂⟩ := ih (hg.trans hg₁) h
    refine ⟨l₁ ++ l₂, hg₁.trans hg₂, by rw [List.map_append, ht₁, ht₂, List.flatMap_cons], fun m hm => ?_⟩
    rcases List.mem_cons.1 hm with rfl | hm
    · exact hm₁.mono fun a ha => List.mem_append_left _ ha
    · exact (hm₂ m hm).mono fun a ha => List.mem_append_right _ ha

/-- Every method that a transaction reaches has a condition. -/
theorem mapM_conditionOf (hmap : map.Keyed) (d : Design) (t : NodeId) :
    (map.methodsOf t).mapM (conditionOf map d t) = .ok (map.conditionsOf t) := by
  rw [except_mapM_ok, CallMap.methodsOf, CallMap.conditionsOf, List.forall₂_map_left_iff,
    List.forall₂_map_right_iff, List.forall₂_same]
  intro r hr
  rw [List.mem_filter, beq_iff_eq] at hr
  rw [conditionOf, ← hr.2, hmap.find? hr.1]

theorem driveTransactions_gains (hmap : map.Keyed) (nodes : List Node) :
    ∀ (d : Design), ∃ d' l', nodes.foldlM (driveTransaction map) d = .ok d' ∧ Gains d d' l' ∧
      l'.map (·.target) = nodes.flatMap transactionTargets ∧ ∀ n ∈ nodes, TransactionDriven map n l' := by
  induction nodes with
  | nil => exact fun d => ⟨d, [], rfl, .refl d, rfl, fun _ hn => nomatch hn⟩
  | cons n nodes ih =>
    intro d
    obtain ⟨d₁, l₁, h₁, hg₁, ht₁, hm₁⟩ : ∃ d₁ l₁, driveTransaction map d n = .ok d₁ ∧ Gains d d₁ l₁ ∧
        l₁.map (·.target) = transactionTargets n ∧ TransactionDriven map n l₁ := by
      unfold driveTransaction transactionTargets TransactionDriven
      cases hinfo : n.transaction? with
      | none => exact ⟨d, [], rfl, .refl d, rfl, fun _ h => nomatch h⟩
      | some info =>
        refine ⟨_, _, by rw [mapM_conditionOf hmap]; rfl, drive_gains .., rfl, fun info' h => ?_⟩
        rw [Option.some.inj h]
        exact List.mem_singleton_self _
    obtain ⟨d₂, l₂, h₂, hg₂, ht₂, hm₂⟩ := ih d₁
    refine ⟨d₂, l₁ ++ l₂, by rw [List.foldlM_cons, h₁]; exact h₂, hg₁.trans hg₂,
      by rw [List.map_append, ht₁, ht₂, List.flatMap_cons], fun m hm => ?_⟩
    rcases List.mem_cons.1 hm with rfl | hm
    · exact fun info hinfo => List.mem_append_left _ (hm₁ info hinfo)
    · exact fun info hinfo => List.mem_append_right _ (hm₂ m hm info hinfo)

/-- Everything that the logic of calls drives. -/
structure Driven (d : Design) (map : CallMap) (l : List GuardedAssign) : Prop where
  targets : l.map (·.target) = d.nodeList.flatMap methodTargets ++ d.nodeList.flatMap transactionTargets
  methods : ∀ n ∈ d.nodeList, MethodDriven d map n l
  transactions : ∀ n ∈ d.nodeList, TransactionDriven map n l

theorem emit_ok {l : List GuardedAssign} (hd : d₀.Sound) (hmap : map.Keyed) (hg : Gains d₀ d l)
    (h : Attempt.Gives (emit map d) d') : ∃ l', Gains d d' l' ∧ Driven d₀ map l' := by
  simp only [emit, Attempt.gives_bind, Attempt.gives_ofChecked, Attempt.gives_ofExcept] at h
  obtain ⟨d₁, h₁, h⟩ := h
  rw [hg.nodeList] at h₁ h
  obtain ⟨l₁, hg₁, ht₁, hm₁⟩ := driveMethods_ok hd hg h₁
  obtain ⟨d₂, l₂, h₂, hg₂, ht₂, hm₂⟩ := driveTransactions_gains hmap d₀.nodeList d₁
  obtain rfl : d₂ = d' := Except.ok.inj (h₂.symm.trans h)
  refine ⟨l₁ ++ l₂, hg₁.trans hg₂, by rw [List.map_append, ht₁, ht₂], fun n hn => ?_, fun n hn info hinfo => ?_⟩
  · exact (hm₁ n hn).mono fun a ha => List.mem_append_left _ ha
  · exact List.mem_append_right _ (hm₂ n hn info hinfo)

/-- The logic of calls adds no signals. -/
theorem emit_netlist (h : Attempt.Gives (emit map d) d') : d'.netlist = d.netlist := by
  simp only [emit, Attempt.gives_bind, Attempt.gives_ofChecked, Attempt.gives_ofExcept] at h
  obtain ⟨d₁, h₁, h₂⟩ := h
  have hmethods : d₁.netlist = d.netlist := by
    refine except_foldlM_ok (P := fun e => e.netlist = d.netlist) (fun n _ b b' hb hn => ?_) rfl h₁
    unfold driveMethod at hn
    split at hn
    · exact Except.ok.inj hn ▸ hb
    · simp only at hn
      split at hn
      · exact (except_pure_ok.1 hn) ▸ hb
      · simp only [except_bind_ok, except_pure_ok] at hn
        obtain ⟨e, -, rfl⟩ := hn
        exact hb
  refine except_foldlM_ok (P := fun e => e.netlist = d.netlist) (fun n _ b b' hb hn => ?_) hmethods h₂
  unfold driveTransaction at hn
  split at hn
  · exact Except.ok.inj hn ▸ hb
  · simp only [except_bind_ok, except_pure_ok] at hn
    obtain ⟨cs, -, rfl⟩ := hn
    exact hb

/-! ### One assignment for each wire -/

theorem methodTargets_generated {n : Node} {x : Nat} (h : x ∈ methodTargets n) :
    x ∈ n.generated ∧ ∃ info, n.kind = .method info := by
  unfold methodTargets at h
  split at h
  · exact nomatch h
  · rename_i info hinfo
    unfold Node.method? at hinfo
    split at hinfo
    · rename_i info' hk
      obtain rfl := Option.some.inj hinfo
      unfold Node.generated
      rw [hk]
      exact ⟨h, _, rfl⟩
    · exact nomatch hinfo

theorem transactionTargets_generated {n : Node} {x : Nat} (h : x ∈ transactionTargets n) :
    x ∈ n.generated ∧ ∃ info, n.kind = .transaction info ∧ x = info.runnable := by
  unfold transactionTargets at h
  split at h
  · exact nomatch h
  · rename_i info hinfo
    unfold Node.transaction? at hinfo
    split at hinfo
    · rename_i info' hk
      obtain rfl := Option.some.inj hinfo
      obtain rfl := List.mem_singleton.1 h
      unfold Node.generated
      rw [hk]
      exact ⟨by simp, _, rfl, rfl⟩
    · exact nomatch hinfo

theorem nodup_generated (hd : d.Sound) {i : NodeId} {n : Node} (hn : d.nodes.get? i = some n) :
    n.generated.Nodup :=
  (List.nodup_cons.1 ((hd.nodes i n hn).nodup.sublist n.entry_generated_sublist)).2

theorem nodup_flatMap_nodes (hd : d.Sound) {f : Node → List Nat} (hf : ∀ n ∈ d.nodeList, (f n).Nodup)
    (hsub : ∀ n x, x ∈ f n → x ∈ n.generated) : (d.nodeList.flatMap f).Nodup := by
  rw [List.nodup_flatMap]
  refine ⟨hf, List.pairwise_iff_getElem.2 fun i j hi hj hij x hx hx' => ?_⟩
  have hget : ∀ (i : Nat) (hi : i < d.nodeList.length), d.nodes.get? i = some d.nodeList[i] := by
    intro i hi
    rw [Arena.get?, ← Array.getElem?_toList]
    exact List.getElem?_eq_getElem hi
  have := hd.distinct i j _ _ (hget i hi) (hget j hj) x (Node.generated_subset (hsub _ x hx))
    (Node.generated_subset (hsub _ x hx'))
  omega

theorem nodup_methodTargets (hd : d.Sound) {n : Node} (hn : n ∈ d.nodeList) : (methodTargets n).Nodup := by
  obtain ⟨i, hi⟩ := Arena.mem_toList.1 hn
  have hnodup := nodup_generated hd hi
  unfold methodTargets
  unfold Node.generated at hnodup
  split
  · exact List.nodup_nil
  · rename_i info hinfo
    unfold Node.method? at hinfo
    split at hinfo
    · rename_i info' hk
      obtain rfl := Option.some.inj hinfo
      simpa [hk] using hnodup
    · exact nomatch hinfo

theorem nodup_transactionTargets (n : Node) : (transactionTargets n).Nodup := by
  unfold transactionTargets
  split
  · exact List.nodup_nil
  · exact List.nodup_singleton _

/-- The logic of calls drives wires of methods and of transactions. -/
theorem Driven.cases {l : List GuardedAssign} (h : Driven d map l) {x : Nat} (hx : x ∈ l.map (·.target)) :
    ∃ i n, d.nodes.get? i = some n ∧ (x ∈ methodTargets n ∨ x ∈ transactionTargets n) := by
  simp only [h.targets, List.mem_append, List.mem_flatMap, nodeList, Arena.mem_toList] at hx
  rcases hx with ⟨n, ⟨i, hi⟩, hx⟩ | ⟨n, ⟨i, hi⟩, hx⟩
  · exact ⟨i, n, hi, .inl hx⟩
  · exact ⟨i, n, hi, .inr hx⟩

theorem Driven.generated {l : List GuardedAssign} (h : Driven d map l) {x : Nat} (hx : x ∈ l.map (·.target)) :
    ∃ i n, d.nodes.get? i = some n ∧ x ∈ n.generated := by
  obtain ⟨i, n, hn, hx⟩ := h.cases hx
  refine ⟨i, n, hn, ?_⟩
  rcases hx with hx | hx
  · exact (methodTargets_generated hx).1
  · exact (transactionTargets_generated hx).1

theorem Driven.nodup {l : List GuardedAssign} (h : Driven d map l) (hd : d.Sound) :
    (l.map (·.target)).Nodup := by
  rw [h.targets, List.nodup_append]
  refine ⟨nodup_flatMap_nodes hd (fun n hn => nodup_methodTargets hd hn) fun n x hx =>
    (methodTargets_generated hx).1, nodup_flatMap_nodes hd (fun n _ => nodup_transactionTargets n) fun n x hx =>
    (transactionTargets_generated hx).1, fun x hx y hy hxy => ?_⟩
  -- A wire of a method is none of a transaction.
  subst hxy
  simp only [List.mem_flatMap, nodeList, Arena.mem_toList] at hx hy
  obtain ⟨n, ⟨i, hi⟩, hx⟩ := hx
  obtain ⟨m, ⟨j, hj⟩, hy⟩ := hy
  obtain ⟨hxg, _, hk⟩ := methodTargets_generated hx
  obtain ⟨hyg, _, hk', -⟩ := transactionTargets_generated hy
  obtain rfl := hd.distinct i j n m hi hj x (Node.generated_subset hxg) (Node.generated_subset hyg)
  obtain rfl : n = m := Option.some.inj (hi.symm.trans hj)
  rw [hk] at hk'
  cases hk'

/-- Grants are left to the arbiters. -/
theorem Driven.not_grant {l : List GuardedAssign} (h : Driven d map l) (hd : d.Sound) {t : NodeId}
    (ht : t ∈ d.transactions) : (d.node t).activator ∉ l.map (·.target) := by
  intro hx
  obtain ⟨info, htr⟩ := hd.transaction ht
  have hact := Node.control_subset (d.node t).activator_mem_control
  obtain ⟨i, n, hn, hx⟩ := h.cases hx
  rcases hx with hx | hx
  · obtain ⟨hxg, _, hk⟩ := methodTargets_generated hx
    obtain rfl := hd.distinct i t n _ hn htr.get? _ (Node.generated_subset hxg) hact
    obtain rfl : n = d.node i := Option.some.inj (hn.symm.trans htr.get?)
    rw [htr.kind] at hk
    exact nomatch hk
  · obtain ⟨hxg, info', hk, hrun⟩ := transactionTargets_generated hx
    obtain rfl := hd.distinct i t n _ hn htr.get? _ (Node.generated_subset hxg) hact
    obtain rfl : n = d.node i := Option.some.inj (hn.symm.trans htr.get?)
    obtain rfl : info = info' := by simpa [htr.kind] using hk
    have hnodup := nodup_generated hd htr.get?
    rw [htr.generated] at hnodup
    rw [htr.activator] at hrun
    simp [hrun] at hnodup

end Interlock.CallLogic
