import Interlock.Proofs.Design.Regular
import Interlock.Proofs.Elaboration

/-! The assignments that elaboration generates. Each is of one of six forms, by the part that makes it; and
every wire that is left to elaboration has one. -/

namespace Interlock.Design

open Arbiter CallLogic Drivers

variable {d d' : Design} {map : CallMap} {s : Schedule} {l : List GuardedAssign}

/-- The forms of generated assignments. -/
inductive Generated (d : Design) (map : CallMap) (s : Schedule) (n : Netlist) (l : List GuardedAssign) :
    GuardedAssign → Prop
  | eager {pre post : List NodeId} {t : NodeId} (h : pre ++ t :: post ∈ s.components) :
    Generated d map s n l (always (d.node t).activator (eagerGrant d s pre t))
  | turn {members : List NodeId} {last : SignalId} {k : Nat} {t : NodeId} (hm : members ∈ s.components)
    (hl : Turns d members n l last) (ht : members[k]? = some t) : Generated d map s n l
      (always (d.node t).activator (turnGrant (.signal last members.length) (members.map (wants d)) k))
  | last {members : List NodeId} {last : SignalId} (hm : members ∈ s.components)
    (hl : Turns d members n l last) : Generated d map s n l
      ⟨last, .any (members.map (grantOf d)), .join (members.map (grantOf d)), .sync⟩
  | run {m : Node} {info : MethodInfo} (hm : m ∈ d.nodeList) (hinfo : m.method? = some info) :
    Generated d map s n l (always info.run (.any ((callsTo d map m.id).map (·.active))))
  | dataIn {m : Node} {info : MethodInfo} {bus : SignalId} {e : Expr} (hm : m ∈ d.nodeList)
    (hinfo : m.method? = some info) (hbus : info.dataIn = some bus)
    (he : argument info (callsTo d map m.id) = .ok e) : Generated d map s n l (always bus e)
  | runnable {t : Node} {info : TransactionInfo} (ht : t ∈ d.nodeList) (hinfo : t.transaction? = some info) :
    Generated d map s n l (always info.runnable (.all (map.conditionsOf t.id)))

/-- A grant is driven by the arbiter of the class of its transaction. -/
theorem Circuit.grant (h : Circuit d map s d' l) {t : NodeId} (ht : t ∈ d.transactions) :
    ∃ a ∈ l, a.target = (d.node t).activator ∧ Generated d map s d'.netlist l a := by
  obtain ⟨members, hm, ht⟩ := List.mem_flatten.1 ((h.schedules.classes t).2 ht)
  cases h.arbiters members hm with
  | eager _ hall =>
    obtain ⟨pre, post, rfl⟩ := List.append_of_mem ht
    exact ⟨_, hall pre t post rfl, rfl, .eager hm⟩
  | turns _ last hturns =>
    obtain ⟨k, hk⟩ := List.mem_iff_getElem?.1 ht
    exact ⟨_, hturns.grants k t hk, rfl, .turn hm hturns hk⟩

/-- Every wire that is left to elaboration is driven. -/
theorem Circuit.drives (h : Circuit d map s d' l) {i : NodeId} {n : Node} (hn : d.nodes.get? i = some n)
    {x : SignalId} (hx : x ∈ n.generated) : ∃ a ∈ l, a.target = x ∧ Generated d map s d'.netlist l a := by
  have hmem : n ∈ d.nodeList := Arena.mem_toList.2 ⟨i, hn⟩
  cases hk : n.kind with
  | transaction info =>
    have hinfo : n.transaction? = some info := by rw [Node.transaction?, hk]
    have ht : i ∈ d.transactions := h.sound.mem_transactions.2 ⟨n, info, hn, hk⟩
    rw [Node.generated, hk] at hx
    rcases List.mem_cons.1 hx with rfl | hx
    · have hact : (d.node i).activator = info.grant := by rw [node_of_get? hn, Node.activator, hk]
      exact hact ▸ h.grant ht
    · obtain rfl := List.mem_singleton.1 hx
      exact ⟨_, h.transactions n hmem info hinfo, rfl, .runnable hmem hinfo⟩
  | method info =>
    have hinfo : n.method? = some info := by rw [Node.method?, hk]
    obtain ⟨hrun, hbuses⟩ := h.methods n hmem info hinfo
    rw [Node.generated, hk] at hx
    rcases List.mem_cons.1 hx with rfl | hx
    · exact ⟨_, hrun, rfl, .run hmem hinfo⟩
    · have hbus := Option.mem_toList.1 hx
      obtain ⟨e, he, ha⟩ := hbuses x hbus
      exact ⟨_, ha, rfl, .dataIn hmem hinfo hbus he⟩

/-- Every generated assignment is of one of the forms. -/
theorem Circuit.generated (h : Circuit d map s d' l) {a : GuardedAssign} (ha : a ∈ l) :
    Generated d map s d'.netlist l a := by
  have form : ∀ b ∈ l, b.target = a.target → Generated d map s d'.netlist l b →
      Generated d map s d'.netlist l a := fun b hb he hgen =>
    List.inj_on_of_nodup_map h.logic.nodup hb ha he ▸ hgen
  rcases h.logic.undriven a ha with hle | ⟨i, n, hn, hx⟩
  · obtain ⟨members, hm, hturns⟩ := h.registers a.target hle (.inr (List.mem_map_of_mem ha))
    exact form _ hturns.turn rfl (.last hm hturns)
  · obtain ⟨b, hb, he, hgen⟩ := h.drives hn hx
    exact form b hb he hgen

/-- A signal has one assignment. -/
def AssignedOnce (d : Design) (x : SignalId) : Prop := d.assigns.countP (·.target == x) = 1

theorem assignedOnce_append {assigns l : List GuardedAssign} {x : SignalId} (h : ∀ a ∈ assigns, a.target ≠ x)
    (hl : (l.map (·.target)).Nodup) (hx : x ∈ l.map (·.target)) :
    (assigns ++ l).countP (·.target == x) = 1 := by
  have hcount : (assigns ++ l).countP (·.target == x) = ((assigns ++ l).map (·.target)).count x := by
    rw [List.count, List.countP_map]
    rfl
  rw [hcount, List.map_append, List.count_append, List.count_eq_one_of_mem hl hx, List.count_eq_zero.2]
  rintro hmem
  obtain ⟨a, ha, he⟩ := List.mem_map.1 hmem
  exact h a ha he

/-- Every wire that is left to elaboration has one assignment. -/
theorem Circuit.assignedOnce (h : Circuit d map s d' l) {i : NodeId} {n : Node} (hn : d.nodes.get? i = some n)
    {x : SignalId} (hx : x ∈ n.generated) : d'.AssignedOnce x := by
  obtain ⟨a, ha, rfl, -⟩ := h.drives hn hx
  unfold AssignedOnce
  rw [h.gains.assigns]
  exact assignedOnce_append (h.sound.undriven (.inr ⟨i, n, hn, hx⟩)) h.logic.nodup (List.mem_map_of_mem ha)

/-- A signal that had one assignment has no other. -/
theorem Circuit.keepsOnce (h : Circuit d map s d' l) {x : SignalId} (hx : d.AssignedOnce x) : d'.AssignedOnce x := by
  unfold AssignedOnce at hx ⊢
  rw [h.gains.assigns, List.countP_append, hx, List.countP_eq_zero.2]
  intro a ha he
  obtain ⟨b, hb, hbx⟩ := List.countP_pos_iff.1 (hx ▸ Nat.one_pos)
  rw [beq_iff_eq] at he hbx
  exact h.sound.undriven (h.logic.undriven a ha) b hb (hbx.trans he.symm)

/-! ### The rules of netlists -/

theorem Circuit.accepts (h : Circuit d map s d' l) (hd : d.Regular) {a : GuardedAssign} (ha : a ∈ l) :
    d'.netlist.Accepts a.target a.domain := by
  have hk : Retains d d' := h.gains.signals
  have grant : ∀ {members t}, members ∈ s.components → t ∈ members →
      d.netlist.Accepts (d.node t).activator .comb := by
    intro members t hm ht
    obtain ⟨info, htr⟩ := h.sound.transaction (h.schedules.members members hm t ht)
    rw [htr.activator]
    exact htr.grant.accepts
  have own : ∀ {n : Node} {x : SignalId}, n ∈ d.nodeList → x ∈ n.control → d.netlist.Accepts x .comb := by
    intro n x hn hx
    obtain ⟨i, hi⟩ := Arena.mem_toList.1 hn
    exact ((h.sound.nodes i n hi).single x hx).accepts
  cases h.generated ha with
  | eager hm => exact hk.accepts (grant hm (by simp))
  | turn hm _ ht => exact hk.accepts (grant hm (List.mem_of_getElem? ht))
  | last hm hl =>
    obtain ⟨r, hr, -, hreg, -⟩ := hl.register
    exact ⟨r, hr, by rw [hreg]; rfl⟩
  | run hn hinfo =>
    refine hk.accepts (own hn ?_)
    unfold Node.method? at hinfo
    split at hinfo
    · rename_i info hkind
      obtain rfl := Option.some.inj hinfo
      simp [Node.control, hkind]
    · cases hinfo
  | dataIn hn hinfo hbus he =>
    obtain ⟨i, hi⟩ := Arena.mem_toList.1 hn
    refine hk.accepts ((hd.nodes i _ hi).buses _ ?_)
    unfold Node.method? at hinfo
    split at hinfo
    · rename_i info hkind
      obtain rfl := Option.some.inj hinfo
      simp [Node.buses, hkind, hbus]
    · cases hinfo
  | runnable hn hinfo =>
    refine hk.accepts (own hn ?_)
    unfold Node.transaction? at hinfo
    split at hinfo
    · rename_i info hkind
      obtain rfl := Option.some.inj hinfo
      simp [Node.control, hkind]
    · cases hinfo

/-- The logic that elaboration adds keeps to the rules. -/
theorem Circuit.regular (h : Circuit d map s d' l) (hd : d.Regular) : d'.Regular := by
  have hk : Retains d d' := h.gains.signals
  refine ⟨fun x r hr => ?_, fun a ha => ?_, fun i n hn => ?_⟩
  · by_cases hx : x < d.netlist.signals.size
    · obtain ⟨r₀, hr₀⟩ := Arena.exists_get? hx
      obtain rfl := Option.some.inj ((hk x r₀ hr₀).symm.trans hr)
      exact hd.narrow x r₀ hr₀
    · obtain ⟨members, -, hturns⟩ := h.registers x (Nat.le_of_not_lt hx) (.inl (Arena.lt_of_get? hr))
      obtain ⟨r', hr', hw, -⟩ := hturns.register
      obtain rfl := Option.some.inj (hr'.symm.trans hr)
      exact hw ▸ hturns.fits
  · rw [h.gains.assigns] at ha
    rcases List.mem_append.1 ha with ha | ha
    · exact hk.accepts (hd.domains a ha)
    · exact h.accepts hd ha
  · rw [h.gains.nodes] at hn
    exact (hd.nodes i n hn).mono hk

end Interlock.Design
