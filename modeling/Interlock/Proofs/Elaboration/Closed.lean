import Interlock.Proofs.CallLogic.Argument
import Interlock.Proofs.Elaboration.Generated
import Interlock.Proofs.Expr.Closed

/-! Properties that pass to generated logic: the expressions that arbiters and the logic of calls drive are put
together from control wires, the enables and arguments of calls, and conditions. -/

namespace Interlock

open Design

variable {d : Design} {map : CallMap} {P : Expr → Prop} {W : Nat → Prop}

namespace Arbiter

theorem closed_wants (h : Expr.Closed P W) {t : NodeId} {info : TransactionInfo} (ht : d.HasTransaction t info)
    (hrequest : P (d.read info.request)) (hrunnable : P (d.read info.runnable)) : P (wants d t) :=
  wants_eq ht ▸ h.and hrequest hrunnable

theorem closed_eagerGrant (h : Expr.Closed P W) {s : Schedule} {earlier : List NodeId} {t : NodeId}
    (ht : P (wants d t)) (hearlier : ∀ u ∈ earlier, P (grantOf d u)) : P (eagerGrant d s earlier t) := by
  refine h.and ht (h.not (h.any fun e he => ?_))
  obtain ⟨u, hu, rfl⟩ := List.mem_map.1 he
  exact hearlier u (List.mem_filter.1 hu).1

theorem closed_turnGrant (h : Expr.Closed P W) {last : Expr} {wanting : List Expr} (hlast : P last)
    (hwanting : ∀ e ∈ wanting, P e) (k : Nat) : P (turnGrant last wanting k) := by
  have want : ∀ i, P (wanting.getD i (.bit false)) := by
    intro i
    rw [List.getD_eq_getElem?_getD]
    cases hi : wanting[i]? with
    | none => exact h.bit false
    | some e => exact hwanting e (List.mem_of_getElem? hi)
  refine h.any fun e he => ?_
  obtain ⟨i, -, rfl⟩ := List.mem_map.1 he
  refine h.and (h.and (h.bits hlast (Nat.le_refl i) ?_) (want k)) (h.not (h.any fun e he => ?_))
  · rw [Nat.add_sub_cancel_left]
    exact h.small (by decide)
  · obtain ⟨j, -, rfl⟩ := List.mem_map.1 he
    exact want j

end Arbiter

namespace CallLogic

/-- A call that may be made: it is of a body that can run. -/
theorem mem_callsTo (hd : d.Sound) {m : NodeId} {call : ActiveCall} (h : call ∈ callsTo d map m) :
    ∃ c n sites s, d.nodes.get? c = some n ∧ isLive d map c = true ∧ (m, sites) ∈ n.calls ∧ s ∈ sites ∧
      call = ⟨(d.read n.activator).and s.enable, s.arg⟩ := by
  obtain ⟨c, hc, hcall⟩ := List.mem_flatMap.1 h
  obtain ⟨hcaller, hlive⟩ := List.mem_filter.1 hc
  obtain ⟨n, hn, -⟩ := (mem_callersOf hd).1 hcaller
  obtain ⟨s, hs, rfl⟩ := List.mem_map.1 hcall
  rw [node_of_get? hn] at hs ⊢
  obtain ⟨sites, hsites, hmem⟩ := Node.mem_calls_of_sites hs
  exact ⟨c, n, sites, s, hn, hlive, hsites, hmem, rfl⟩

theorem closed_argument (h : Expr.Closed P W) {info : MethodInfo} {calls : List ActiveCall} {e : Expr}
    (hw : W info.input.width) (hcalls : ∀ c ∈ calls, P c.active ∧ P c.arg)
    (hcustom : ∀ f, info.combiner = some (.custom f) → ∀ args runs, (∀ a ∈ args, P a) → (∀ r ∈ runs, P r) →
      P (f args runs))
    (he : argument info calls = .ok e) : P e := by
  unfold argument at he
  simp only at he
  split at he
  · simp only [Expr.Checked.resize, except_bind_ok, except_pure_ok] at he
    obtain ⟨_, hmerged, _, -, rfl⟩ := he
    rw [combineChecked_ok hmerged]
    refine h.resize (h.combine (fun f hf => ?_) (fun a ha => ?_) fun r hr => ?_) hw
    · cases hc : info.combiner with
      | none =>
        rw [hc] at hf
        cases hf
      | some c =>
        rw [hc] at hf
        exact hcustom f (hc.trans (congrArg some hf))
    · obtain ⟨c, hc, rfl⟩ := List.mem_map.1 ha
      exact (hcalls c hc).2
    · obtain ⟨c, hc, rfl⟩ := List.mem_map.1 hr
      exact (hcalls c hc).1
  · split at he
    · exact Except.ok.inj he ▸ (hcalls _ (List.mem_singleton_self _)).2
    · rw [← Except.ok.inj he]
      refine List.foldlRecOn _ _ (h.zero hw) fun acc hacc c hc => h.or hacc ?_
      exact h.select (hcalls c hc).1 (hcalls c hc).2 (h.zero hw)

theorem closed_conditions (h : Expr.Closed P W) (hmap : ∀ r ∈ map.reaches, P r.readiness) (t : NodeId) :
    P (.all (map.conditionsOf t)) := by
  refine h.all fun e he => ?_
  obtain ⟨r, hr, rfl⟩ := List.mem_map.1 he
  exact hmap r (List.mem_filter.1 hr).1

end CallLogic

namespace Drivers

/-- Drivers have what guards and values of assignments have. -/
theorem closed_driver (h : Expr.Closed P W) {n : Netlist} {assigns : List GuardedAssign} {domain : Domain}
    {x : SignalId} (hw : W (n.widthOf x)) (hread : domain = .sync → P (n.read x))
    (ha : ∀ a ∈ assigns, a.target = x → a.domain = domain → P a.guard ∧ P a.value) :
    P (driver n assigns domain x).value := by
  refine List.foldlRecOn _ _ ?_ fun acc hacc a hmem => ?_
  · cases domain with
    | comb => exact h.zero hw
    | sync => exact hread rfl
  · rw [List.mem_filter, Bool.and_eq_true, beq_iff_eq, beq_iff_eq] at hmem
    obtain ⟨hguard, hvalue⟩ := ha a hmem.1 hmem.2.1 hmem.2.2
    exact h.select hguard (h.resize hvalue hw) hacc

end Drivers

end Interlock
