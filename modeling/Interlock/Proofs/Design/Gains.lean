import Interlock.Proofs.Design.Sound
import Interlock.Proofs.Drivers

/-! Elaboration adds logic to a design: signals and assignments, and nothing else. Each wire that it
drives gets one assignment, and is a wire that nothing has been assigned to before. -/

namespace Interlock.Design

variable {d d' : Design} {σ : Valuation}

/-- Signals and assignments are added. -/
structure Gains (d d' : Design) (added : List GuardedAssign) : Prop where
  nodes : d'.nodes = d.nodes
  config : d'.config = d.config
  comb : d'.netlist.comb = d.netlist.comb
  sync : d'.netlist.sync = d.netlist.sync
  size : d.netlist.signals.size ≤ d'.netlist.signals.size
  signals : ∀ x s, d.netlist.signals.get? x = some s → d'.netlist.signals.get? x = some s
  assigns : d'.assigns = d.assigns ++ added

theorem Gains.refl (d : Design) : Gains d d [] :=
  ⟨rfl, rfl, rfl, rfl, Nat.le_refl _, fun _ _ h => h, (List.append_nil _).symm⟩

theorem Gains.trans {d₁ d₂ d₃ : Design} {l l' : List GuardedAssign} (h : Gains d₁ d₂ l)
    (h' : Gains d₂ d₃ l') : Gains d₁ d₃ (l ++ l') := by
  refine ⟨h'.nodes.trans h.nodes, h'.config.trans h.config, h'.comb.trans h.comb, h'.sync.trans h.sync,
    Nat.le_trans h.size h'.size, fun x s hx => h'.signals x s (h.signals x s hx), ?_⟩
  rw [h'.assigns, h.assigns, List.append_assoc]

theorem assign_gains (d : Design) (a : GuardedAssign) : Gains d (d.assign a) [a] :=
  ⟨rfl, rfl, rfl, rfl, Nat.le_refl _, fun _ _ h => h, rfl⟩

theorem drive_gains (d : Design) (x : SignalId) (e : Expr) :
    Gains d (d.drive x e) [Drivers.always x e] :=
  assign_gains ..

theorem newSignal_gains (d : Design) (base : String) (width : Nat) (kind : SignalKind) (init : Word) :
    Gains d (d.newSignal base width kind init).2 [] := by
  have h := newSignal_widens d base width kind init
  exact ⟨h.nodes, rfl, h.comb, h.sync, h.size, h.signals, (List.append_nil _).symm⟩

section

variable {l : List GuardedAssign}

theorem Gains.node (h : Gains d d' l) (i : NodeId) : d'.node i = d.node i := by
  unfold Design.node
  rw [h.nodes]

theorem Gains.nodeList (h : Gains d d' l) : d'.nodeList = d.nodeList := by
  unfold Design.nodeList
  rw [h.nodes]

/-- Signals read as before. -/
theorem Gains.read (h : Gains d d' l) {x : SignalId} (hx : x < d.netlist.signals.size) :
    d'.read x = d.read x := by
  obtain ⟨s, hs⟩ := Arena.exists_get? hx
  simp only [Design.read, Netlist.read, Netlist.widthOf_eq hs, Netlist.widthOf_eq (h.signals x s hs)]

theorem Gains.isBit (h : Gains d d' l) {x : SignalId} (hx : d.netlist.IsBit x) : d'.netlist.IsBit x := by
  obtain ⟨s, hs, hbit⟩ := hx
  exact ⟨s, h.signals x s hs, hbit⟩

end

theorem truth_read {x : SignalId} (hx : d.netlist.IsBit x) : (d.read x).truth σ = lowBit (σ x) := by
  apply Expr.truth_signal
  rw [hx.widthOf]
  exact Nat.one_pos

/-- Nothing has been assigned to such a signal: it does not exist yet, or elaboration is to drive it. -/
def Undriven (d : Design) (x : Nat) : Prop :=
  d.netlist.signals.size ≤ x ∨ ∃ i n, d.nodes.get? i = some n ∧ x ∈ n.generated

theorem Sound.undriven (h : d.Sound) {x : Nat} (hx : d.Undriven x) : ∀ a ∈ d.assigns, a.target ≠ x := by
  rintro a ha rfl
  rcases hx with hx | ⟨i, n, hn, hx⟩
  · exact absurd (h.targets a ha) (Nat.not_lt.2 hx)
  · exact h.free a ha i n hn hx

/-- Added logic has one assignment for each of its targets, which nothing else assigns to. -/
structure Logic (d : Design) (added : List GuardedAssign) : Prop where
  undriven : ∀ a ∈ added, d.Undriven a.target
  nodup : (added.map (·.target)).Nodup

theorem Logic.sole {l : List GuardedAssign} (hl : d.Logic l) (hd : d.Sound) (h : Gains d d' l)
    {a : GuardedAssign} (ha : a ∈ l) : Drivers.Sole d'.assigns a := by
  rw [h.assigns]
  refine ⟨List.mem_append_right _ ha, fun b hb htarget _ => ?_⟩
  rcases List.mem_append.1 hb with hb | hb
  · exact absurd htarget (hd.undriven (hl.undriven a ha) b hb)
  · exact List.inj_on_of_nodup_map hl.nodup hb ha htarget

/-- What was the only assignment to its target still is. -/
theorem Logic.keeps {l : List GuardedAssign} (hl : d.Logic l) (hd : d.Sound) (h : Gains d d' l)
    {a : GuardedAssign} (ha : Drivers.Sole d.assigns a) : Drivers.Sole d'.assigns a := by
  rw [h.assigns]
  refine ⟨List.mem_append_left _ ha.mem, fun b hb htarget hdomain => ?_⟩
  rcases List.mem_append.1 hb with hb | hb
  · exact ha.only b hb htarget hdomain
  · exact absurd htarget.symm (hd.undriven (hl.undriven b hb) a ha.mem)

/-! ### Transactions and methods by their wires -/

theorem get?_of_method {m : NodeId} {info : MethodInfo} (h : (d.node m).method? = some info) :
    ∃ n, d.nodes.get? m = some n ∧ d.node m = n ∧ n.kind = .method info := by
  cases hm : d.nodes.get? m with
  | none =>
    unfold node at h
    rw [hm] at h
    exact nomatch h
  | some n =>
    refine ⟨n, rfl, node_of_get? hm, ?_⟩
    rw [node_of_get? hm] at h
    unfold Node.method? at h
    split at h
    · rename_i info' hk
      rw [hk, Option.some.inj h]
    · exact nomatch h

theorem get?_of_calls {c m : NodeId} {sites : List CallSite} (h : (m, sites) ∈ (d.node c).calls) :
    ∃ n, d.nodes.get? c = some n ∧ (m, sites) ∈ n.calls := by
  unfold node at h
  cases hc : d.nodes.get? c with
  | none =>
    rw [hc] at h
    exact nomatch h
  | some n =>
    rw [hc] at h
    exact ⟨n, rfl, h⟩

theorem activator_of_method {m : NodeId} {info : MethodInfo} (h : (d.node m).method? = some info) :
    (d.node m).activator = info.run := by
  obtain ⟨n, -, hnode, hkind⟩ := get?_of_method h
  rw [hnode, Node.activator, hkind]

theorem Sound.mem_transactions (h : d.Sound) {t : NodeId} : t ∈ d.transactions ↔
    ∃ n info, d.nodes.get? t = some n ∧ n.kind = .transaction info := by
  simp only [transactions, List.mem_map, List.mem_filter, nodeList, Arena.mem_toList]
  constructor
  · rintro ⟨n, ⟨⟨i, hi⟩, hn⟩, rfl⟩
    rw [(h.nodes i n hi).id]
    unfold Node.isTransaction Node.transaction? at hn
    split at hn
    · exact ⟨n, _, hi, ‹_›⟩
    · exact nomatch hn
  · rintro ⟨n, info, hn, hk⟩
    refine ⟨n, ⟨⟨t, hn⟩, ?_⟩, (h.nodes t n hn).id⟩
    rw [Node.isTransaction, Node.transaction?, hk]
    rfl

/-- A transaction has three wires of its own. -/
structure HasTransaction (d : Design) (t : NodeId) (info : TransactionInfo) : Prop where
  kind : (d.node t).kind = .transaction info
  activator : (d.node t).activator = info.grant
  generated : (d.node t).generated = [info.grant, info.runnable]
  get? : d.nodes.get? t = some (d.node t)
  request : d.netlist.IsBit info.request
  runnable : d.netlist.IsBit info.runnable
  grant : d.netlist.IsBit info.grant

theorem HasTransaction.transaction? {t : NodeId} {info : TransactionInfo} (h : d.HasTransaction t info) :
    (d.node t).transaction? = some info := by
  rw [Node.transaction?, h.kind]

theorem Sound.transaction (h : d.Sound) {t : NodeId} (ht : t ∈ d.transactions) :
    ∃ info, d.HasTransaction t info := by
  obtain ⟨n, info, hn, hk⟩ := h.mem_transactions.1 ht
  have hnode := node_of_get? hn
  have hbits := (h.nodes t n hn).single
  simp only [Node.control, hk, List.mem_cons, List.not_mem_nil, or_false, forall_eq_or_imp, forall_eq] at hbits
  refine ⟨info, hnode ▸ hk, ?_, ?_, hnode ▸ hn, hbits.1, hbits.2.2, hbits.2.1⟩
  · rw [hnode, Node.activator, hk]
  · rw [hnode, Node.generated, hk]

theorem isBit_lt {x : SignalId} (h : d.netlist.IsBit x) : x < d.netlist.signals.size := by
  obtain ⟨s, hs, -⟩ := h
  exact Arena.lt_of_get? hs

/-- Nodes with the same activator are the same. -/
theorem Sound.activator_inj (h : d.Sound) {t u : NodeId} (ht : t ∈ d.transactions) (hu : u ∈ d.transactions)
    (he : (d.node t).activator = (d.node u).activator) : t = u := by
  obtain ⟨ti, hti⟩ := h.transaction ht
  obtain ⟨ui, hui⟩ := h.transaction hu
  have ht := Node.control_subset (d.node t).activator_mem_control
  have hu := Node.control_subset (d.node u).activator_mem_control
  exact h.distinct t u _ _ hti.get? hui.get? _ ht (he ▸ hu)

theorem Sound.run_isBit (h : d.Sound) {m : NodeId} {info : MethodInfo} (hm : (d.node m).method? = some info) :
    d.netlist.IsBit info.run ∧ d.netlist.IsBit info.ready := by
  obtain ⟨n, hn, -, hk⟩ := get?_of_method hm
  have hbits := (h.nodes m n hn).single
  simp only [Node.control, hk, List.cons_append, List.nil_append, List.mem_cons, forall_eq_or_imp] at hbits
  exact ⟨hbits.2.1, hbits.1⟩

/-! ### The netlist of a design with its logic -/

/-- A design together with the logic that has been added to it. -/
structure Wired (d d' : Design) (added : List GuardedAssign) : Prop where
  sound : d.Sound
  gains : Gains d d' added
  logic : d.Logic added

/-- The netlist that a design is lowered to. -/
def lowered (d : Design) : Netlist := Drivers.build d.netlist d.assigns

theorem Gains.widthOf {l : List GuardedAssign} (h : Gains d d' l) {x : SignalId} (hx : d.netlist.IsBit x) :
    d'.netlist.widthOf x = 1 := (h.isBit hx).widthOf

section

variable {l : List GuardedAssign} {k : Kernel}

/-- In a settled state a wire that elaboration drives carries the truth of its expression. -/
theorem Wired.value (h : Wired d d' l) (hk : k.Steady d'.lowered) {x : SignalId} {e : Expr}
    (hx : d.netlist.IsBit x) (ha : Drivers.always x e ∈ l) :
    lowBit (k.values.valuation x) = e.truth k.values.valuation :=
  Drivers.steady_lowBit hk (h.logic.sole h.sound h.gains ha) (h.gains.widthOf hx)

/-- So does a wire that the recorded design drives. -/
theorem Wired.recorded_value (h : Wired d d' l) (hk : k.Steady d'.lowered) {x : SignalId} {e : Expr}
    (hx : d.netlist.IsBit x) (ha : Drivers.Drives d.assigns x e) :
    lowBit (k.values.valuation x) = e.truth k.values.valuation :=
  Drivers.steady_lowBit hk (h.logic.keeps h.sound h.gains ha) (h.gains.widthOf hx)

/-- A single-bit wire reads as its low bit. -/
theorem Wired.get_bit (h : Wired d d' l) (hk : Kernel.Reachable d'.lowered k) {x : SignalId}
    (hx : d.netlist.IsBit x) : k.get x = .ok (lowBit (k.values.valuation x)).toUInt64 := by
  obtain ⟨s, hs, hw, hkind⟩ := h.gains.isBit hx
  have hs : d'.lowered.signals.get? x = some s := hs
  exact hk.get_bit hs hkind hw

theorem Wired.get_one (h : Wired d d' l) (hk : Kernel.Reachable d'.lowered k) {x : SignalId}
    (hx : d.netlist.IsBit x) : k.get x = .ok 1 ↔ lowBit (k.values.valuation x) = true := by
  rw [h.get_bit hk hx, Except.ok.injEq]
  cases lowBit (k.values.valuation x) <;> decide

end

/-- Whether a body runs in a state: the transaction is granted, or the method runs. -/
def runs (d : Design) (k : Kernel) (i : NodeId) : Bool := lowBit (k.values.valuation (d.node i).activator)

end Interlock.Design
