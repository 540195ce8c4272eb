import Interlock.Proofs.Draft.Bodies
import Interlock.Proofs.Draft.Machines
import Interlock.Proofs.Draft.Nodes
import Interlock.Proofs.Elaboration.Defined
import Interlock.Proofs.Elaboration.Grounded

/-! What a recorded design reads. The expressions that actions name may read inputs, registers and the argument of the
body that they are in; the conditions around a place are made of such expressions, and so are the guards, enables and
conditions of bodies that come of them. So the whole design reads what its actions let it read. -/

namespace Interlock

namespace Design

open Interlock.Expr (ReadsIn closed_readsIn)

variable {d d' : Design}

/-! ### What a design reads -/

/-- An input or a register. -/
def Source (d : Design) (x : SignalId) : Prop := ∃ r ∈ d.netlist.signals.get? x, r.kind ≠ .wire

/-- The request wire of a transaction or the ready wire of a method. -/
def IsEntry (d : Design) (x : SignalId) : Prop := ∃ i < d.nodes.size, (d.node i).entry = x

def ReadyOf (d : Design) (m : NodeId) (x : SignalId) : Prop := ∃ info ∈ (d.node m).method?, info.ready = x

/-- The result bus of a method. -/
def ResultOf (d : Design) (m : NodeId) (x : SignalId) : Prop := ∃ info ∈ (d.node m).method?, info.dataOut = some x

/-- An input, a register, what tells that a body runs, or an argument. -/
def Around (d : Design) (x : SignalId) : Prop :=
  d.Source x ∨ ∃ c < d.nodes.size, (d.node c).activator = x ∨ d.ArgumentOf c x

/-- What an assignment of a design may read: inputs and registers; the readiness of methods where it tells whether
a body may run, the argument of the body and the results of methods where it gives the result of the body, and
elsewhere what runs and what is passed. -/
structure LocalAssign (d : Design) (a : GuardedAssign) : Prop where
  entries : d.IsEntry a.target → ∀ x ∈ a.reads, d.Source x ∨ ∃ m < d.nodes.size, d.ReadyOf m x
  results : ∀ m < d.nodes.size, d.ResultOf m a.target → ∀ x ∈ a.reads,
    d.Source x ∨ d.ArgumentOf m x ∨ ∃ m' < d.nodes.size, d.ResultOf m' x
  others : a.domain = .comb → ¬ d.IsEntry a.target → (∀ m < d.nodes.size, ¬ d.ResultOf m a.target) →
    ∀ x ∈ a.reads, d.Around x

/-- What the calls of a body may read: inputs, registers and the argument of the body. -/
def LocalCalls (d : Design) (c : NodeId) : Prop :=
  ∀ call ∈ (d.node c).calls, ∀ s ∈ call.2, ∀ x ∈ s.enable.reads ++ s.arg.reads, d.Source x ∨ d.ArgumentOf c x

/-- The check that a validator makes reads the argument, inputs and registers. -/
def LocalValidator (d : Design) (v : Validator) : Prop :=
  ∀ arg check, v.check arg = .ok check → ∀ x ∈ check.reads, x ∈ arg.reads ∨ d.Source x

/-- What a combining function makes reads what is combined, inputs and registers. -/
def LocalCombiner (d : Design) (f : List Expr → List Expr → Expr) : Prop :=
  ∀ args runs, ∀ x ∈ (f args runs).reads, (∃ e ∈ args ++ runs, x ∈ e.reads) ∨ d.Source x

/-- The check and the combining function of a method read what they are given, inputs and registers. -/
structure LocalFunctions (d : Design) (info : MethodInfo) : Prop where
  validator : ∀ v, info.validator = some v → d.LocalValidator v
  combiner : ∀ f, info.combiner = some (.custom f) → d.LocalCombiner f

/-- The expressions of a design read inputs, registers and the argument of their own body. Besides, a body may be
ready where a method is, and give the result of a method; and the checks and combining functions of methods read
what they are given. -/
structure Local (d : Design) : Prop where
  assigns : ∀ a ∈ d.assigns, d.LocalAssign a
  calls : ∀ c < d.nodes.size, d.LocalCalls c
  validators : ∀ m info, (d.node m).method? = some info → ∀ v, info.validator = some v → d.LocalValidator v
  combiners : ∀ m info, (d.node m).method? = some info → ∀ f, info.combiner = some (.custom f) → d.LocalCombiner f

section

variable {a : GuardedAssign} {c m : NodeId} {x : SignalId}

instance : Decidable (d.Source x) := inferInstanceAs (Decidable (∃ r ∈ d.netlist.signals.get? x, r.kind ≠ .wire))

instance : Decidable (d.IsEntry x) := inferInstanceAs (Decidable (∃ i < d.nodes.size, (d.node i).entry = x))

instance : Decidable (d.ReadyOf m x) := inferInstanceAs (Decidable (∃ info ∈ (d.node m).method?, info.ready = x))

instance : Decidable (d.ArgumentOf m x) :=
  inferInstanceAs (Decidable (∃ info ∈ (d.node m).method?, info.dataIn = some x))

instance : Decidable (d.ResultOf m x) :=
  inferInstanceAs (Decidable (∃ info ∈ (d.node m).method?, info.dataOut = some x))

instance : Decidable (d.Around x) :=
  inferInstanceAs (Decidable (d.Source x ∨ ∃ c < d.nodes.size, (d.node c).activator = x ∨ d.ArgumentOf c x))

instance : Decidable (d.LocalAssign a) :=
  have : Decidable (d.IsEntry a.target → ∀ x ∈ a.reads, d.Source x ∨ ∃ m < d.nodes.size, d.ReadyOf m x) :=
    inferInstance
  have : Decidable (∀ m < d.nodes.size, d.ResultOf m a.target → ∀ x ∈ a.reads,
      d.Source x ∨ d.ArgumentOf m x ∨ ∃ m' < d.nodes.size, d.ResultOf m' x) := inferInstance
  have : Decidable (a.domain = .comb → ¬ d.IsEntry a.target → (∀ m < d.nodes.size, ¬ d.ResultOf m a.target) →
      ∀ x ∈ a.reads, d.Around x) := inferInstance
  decidable_of_iff (_ ∧ _ ∧ _) ⟨fun h => ⟨h.1, h.2.1, h.2.2⟩, fun h => ⟨h.entries, h.results, h.others⟩⟩

instance : Decidable (d.LocalCalls c) :=
  inferInstanceAs (Decidable (∀ call ∈ (d.node c).calls, ∀ s ∈ call.2, ∀ x ∈ s.enable.reads ++ s.arg.reads,
    d.Source x ∨ d.ArgumentOf c x))

end

/-- Where all functions are stock ones, it is enough to look at assignments and calls. -/
theorem Local.of_stock (h : (∀ a ∈ d.assigns, d.LocalAssign a) ∧ (∀ c < d.nodes.size, d.LocalCalls c) ∧
    ∀ n ∈ d.nodeList, n.method?.all stock = true) : d.Local := by
  obtain ⟨hassigns, hcalls, hstock⟩ := h
  refine ⟨hassigns, hcalls, fun m info hm v hv => ?_, fun m info hm f hf => ?_⟩
  · cases (stock_functions (stock_method hstock hm)).1.symm.trans hv
  · exact absurd hf ((stock_functions (stock_method hstock hm)).2 f)

/-! ### Targets of assignments -/

section

variable {a : GuardedAssign}

theorem get?_of_result {m : NodeId} {x : SignalId} (h : d.ResultOf m x) :
    ∃ n info, d.nodes.get? m = some n ∧ n.kind = .method info ∧ info.dataOut = some x := by
  obtain ⟨info, hinfo, hout⟩ := h
  obtain ⟨n, hn, -, hk⟩ := get?_of_method hinfo
  exact ⟨n, info, hn, hk, hout⟩

theorem ResultOf.not_entry (h : d.Sound) {m : NodeId} {x : SignalId} (hx : d.ResultOf m x) : ¬ d.IsEntry x := by
  rintro ⟨i, hlt, he⟩
  obtain ⟨n, info, hn, hk, hout⟩ := get?_of_result hx
  obtain ⟨n', hn'⟩ := Arena.exists_get? hlt
  rw [node_of_get? hn'] at he
  exact (Draft.aside_of_bus h hn hk hout).2 i n' hn' he.symm

/-- A signal is the result bus of one method. -/
theorem ResultOf.unique (h : d.Sound) {m m' : NodeId} {x : SignalId} (hx : d.ResultOf m x) (hx' : d.ResultOf m' x) :
    m = m' := by
  have wire : ∀ {m}, d.ResultOf m x → ∃ n, d.nodes.get? m = some n ∧ x ∈ n.wires := by
    intro m hx
    obtain ⟨n, info, hn, hk, hout⟩ := get?_of_result hx
    refine ⟨n, hn, List.mem_append_right _ ?_⟩
    simp [Node.buses, hk, hout]
  obtain ⟨n, hn, hmem⟩ := wire hx
  obtain ⟨n', hn', hmem'⟩ := wire hx'
  exact h.distinct m m' n n' hn hn' x hmem hmem'

theorem localAssign_entry (h : d.Sound) (ha : d.IsEntry a.target)
    (hreads : ∀ x ∈ a.reads, d.Source x ∨ ∃ m < d.nodes.size, d.ReadyOf m x) : d.LocalAssign a :=
  ⟨fun _ => hreads, fun _ _ hresult => absurd ha (hresult.not_entry h), fun _ hentry => absurd ha hentry⟩

theorem localAssign_result (h : d.Sound) {m : NodeId} (hm : m < d.nodes.size) (ha : d.ResultOf m a.target)
    (hreads : ∀ x ∈ a.reads, d.Source x ∨ d.ArgumentOf m x ∨ ∃ m' < d.nodes.size, d.ResultOf m' x) :
    d.LocalAssign a :=
  ⟨fun hentry => absurd hentry (ha.not_entry h), fun _ _ hresult => ha.unique h hresult ▸ hreads,
    fun _ _ hnone => absurd ha (hnone m hm)⟩

/-- An assignment to a signal that belongs to no node. -/
theorem localAssign_foreign (ha : d.Foreign a.target)
    (hreads : a.domain = .comb → ∀ x ∈ a.reads, d.Around x) : d.LocalAssign a := by
  refine ⟨fun hentry => ?_, fun m _ hresult => ?_, fun hdomain _ _ => hreads hdomain⟩
  · obtain ⟨i, hlt, he⟩ := hentry
    obtain ⟨n, hn⟩ := Arena.exists_get? hlt
    rw [node_of_get? hn] at he
    exact absurd (he ▸ Node.control_subset n.entry_mem_control) (ha.2 i n hn)
  · obtain ⟨n, info, hn, hk, hout⟩ := get?_of_result hresult
    refine absurd (List.mem_append_right _ ?_) (ha.2 m n hn)
    simp [Node.buses, hk, hout]

end

/-! ### Methods -/

def EachMethod (d : Design) (P : MethodInfo → Prop) : Prop := ∀ m info, (d.node m).kind = .method info → P info

namespace EachMethod

variable {P : MethodInfo → Prop}

theorem modifyNode (h : d.EachMethod P) (id : NodeId) {f : Node → Node}
    (hf : ∀ info, (f (d.node id)).kind = .method info → P info) : (d.modifyNode id f).EachMethod P := by
  intro m info hk
  rw [node_modifyNode] at hk
  split at hk
  · rename_i hm
    exact hf info (hm.1 ▸ hk)
  · exact h m info hk

theorem addNode (h : d.EachMethod P) (hnodes : d'.nodes = d.nodes) (name : String) (loc : Location) {kind : NodeKind}
    (hkind : ∀ info, kind = .method info → P info) : (d'.addNode name loc kind).2.EachMethod P := by
  intro m info hk
  rw [node, get?_addNode] at hk
  split at hk
  · exact hkind info hk
  · rw [hnodes] at hk
    exact h m info hk

/-- A new method has no validator, and the combiner that it is declared with. -/
theorem addMethod (h : d.EachMethod P) (decl : MethodDecl) (loc : Location)
    (hP : ∀ info : MethodInfo, info.validator = none → info.combiner = decl.combiner → P info) :
    (d.addMethod decl loc).2.EachMethod P := by
  refine h.addNode ((newWire_widens _ _ _).nodes.trans ((newWire_widens _ _ _).nodes.trans
    ((newBus_spec _ _ _).1.nodes.trans ((newBus_spec _ _ _).1.nodes.trans (newName_widens d _).nodes)))) _ loc ?_
  intro info hk
  obtain rfl := NodeKind.method.inj hk
  exact hP _ rfl rfl

theorem opened {r : Recording} (h : r.design.EachMethod P) (id : NodeId) (loc : Location) :
    (r.opened id loc).EachMethod P := fun m info hk => h m info ((Draft.kind_opened r id loc m).symm.trans hk)

end EachMethod

/-! ### Nodes of the final design -/

theorem Evolves.method (h : Evolves d d') {m : NodeId} {info : MethodInfo} (hk : (d.node m).kind = .method info) :
    ∃ n validator, d'.nodes.get? m = some n ∧ n.kind = .method { info with validator } := by
  obtain ⟨n, hn, hkind⟩ := Draft.get?_of_kind hk
  obtain ⟨n', hn', hevolves⟩ := h.old m n hn
  obtain ⟨validator, hk'⟩ := NodeKind.unchecked_method (hkind ▸ hevolves.kind)
  exact ⟨n', validator, hn', hk'⟩

theorem Evolves.transaction (h : Evolves d d') {t : NodeId} (ht : t < d.nodes.size) {info : TransactionInfo}
    (hk : (d.node t).kind = .transaction info) : ∃ n, d'.nodes.get? t = some n ∧ n.kind = .transaction info := by
  obtain ⟨n, hn⟩ := Arena.exists_get? ht
  obtain ⟨n', hn', hevolves⟩ := h.old t n hn
  rw [node_of_get? hn] at hk
  exact ⟨n', hn', NodeKind.unchecked_transaction (hk ▸ hevolves.kind)⟩

end Design

namespace Draft

open Design
open Interlock.Expr (ReadsIn closed_readsIn)

/-! ### What actions read -/

/-- Where an expression stands. -/
inductive Scope where
  | outside
  | body (c : NodeId)
  /-- It tells whether a body may run. -/
  | entry
  | result (m : NodeId)
deriving DecidableEq, Repr

/-- The signals that an expression may read where it stands. -/
def Scope.Allows (d : Design) (s : Scope) (x : SignalId) : Prop :=
  match s with
  | outside => d.Source x
  | body c => d.Source x ∨ d.ArgumentOf c x
  | entry => d.Source x ∨ ∃ m < d.nodes.size, d.ReadyOf m x
  | result m => d.Source x ∨ d.ArgumentOf m x ∨ ∃ m' < d.nodes.size, d.ResultOf m' x

instance (d : Design) (s : Scope) (x : SignalId) : Decidable (s.Allows d x) :=
  match s with
  | .outside => inferInstanceAs (Decidable (d.Source x))
  | .body c => inferInstanceAs (Decidable (d.Source x ∨ d.ArgumentOf c x))
  | .entry => inferInstanceAs (Decidable (d.Source x ∨ ∃ m < d.nodes.size, d.ReadyOf m x))
  | .result m =>
    inferInstanceAs (Decidable (d.Source x ∨ d.ArgumentOf m x ∨ ∃ m' < d.nodes.size, d.ResultOf m' x))

/-- An expression, and where it stands. -/
structure Use where
  scope : Scope
  expr : Expr
deriving DecidableEq, Repr

/-- It reads no more than it may. -/
def Use.Local (d : Design) (u : Use) : Prop := ReadsIn (u.scope.Allows d) u.expr

instance (d : Design) (u : Use) : Decidable (u.Local d) :=
  inferInstanceAs (Decidable (∀ x ∈ u.expr.reads, u.scope.Allows d x))

/-- The scope of a place. -/
def scopeAt (r : Recording) : Scope :=
  match r.body with
  | some frame => .body frame.node
  | none => .outside

/-- What a chain of branches carries along of its arms so far. -/
def earlier (d : Draft) (chain : Nat) : List Expr :=
  match d.chains[chain]? with
  | some ⟨_, .branches b, _⟩ => [b.taken]
  | _ => []

/-- The expressions that an operation takes over at a place: those that it names, the earlier arms of the chain that it
goes on with, and the conditions around the place where it leaves a body or gives a result. -/
def usesAt (d : Draft) (r : Recording) : Operation → List Use
  | .assign _ _ value _ => [⟨scopeAt r, value⟩]
  | .when cond => [⟨scopeAt r, cond⟩]
  | .branch chain cond => (cond :: d.earlier chain).map (⟨scopeAt r, ·⟩)
  | .case chain sel _ => (sel :: d.earlier chain).map (⟨scopeAt r, ·⟩)
  | .otherwise chain => (d.earlier chain).map (⟨scopeAt r, ·⟩)
  | .openTransaction _ wanted _ | .openMethod _ wanted _ _ => [⟨.entry, wanted⟩]
  | .leaveBody => r.conds.map (⟨.outside, ·⟩)
  | .closeMethod body result _ =>
    match d.bodies[body]? with
    | some (m, _) => (result :: r.conds).map (⟨.result m, ·⟩)
    | none => []
  | .call _ arg enable _ => [⟨scopeAt r, arg⟩, ⟨scopeAt r, enable⟩]
  | _ => []

def usesOf (d : Draft) : Action → List Use
  | .inModule i op =>
    match d.place? i with
    | some r => d.usesAt r op
    | none => []
  | _ => []

/-- The expressions that actions take over, one after another. -/
def uses (d : Draft) : List Action → List Use
  | [] => []
  | action :: rest =>
    match d.step action with
    | some d' => d.usesOf action ++ d'.uses rest
    | none => []

/-- A function that the action gives to a method reads what it is given, inputs and registers. -/
def Action.LocalFunctions (d : Design) : Action → Prop
  | .method decl _ => ∀ f, decl.combiner = some (.custom f) → d.LocalCombiner f
  | .inModule _ (.openMethod _ _ validator _) => ∀ v, validator = some v → d.LocalValidator v
  | _ => True

/-- The action gives no function to a method. -/
def Action.stock : Action → Bool
  | .method decl _ => decl.combiner.all Combiner.isStock
  | .inModule _ (.openMethod _ _ validator _) => validator.isNone
  | _ => true

variable {d d' e : Draft} {i : Nat} {r : Recording}

theorem Scope.allows_source {D : Design} (s : Scope) {x : SignalId} (hx : D.Source x) : s.Allows D x := by
  cases s with
  | outside => exact hx
  | body c => exact .inl hx
  | entry => exact .inl hx
  | result m => exact .inl hx

theorem Action.localFunctions_of_stock {action : Action} (h : action.stock = true) (D : Design) :
    action.LocalFunctions D := by
  cases action with
  | method decl loc =>
    intro f hf
    simp only [stock, hf, Option.all_some] at h
    exact nomatch h
  | inModule i op =>
    cases op with
    | openMethod m ready validator loc =>
      intro v hv
      simp only [stock, hv, Option.isNone_some] at h
      exact nomatch h
    | _ => trivial
  | _ => trivial

/-! ### On the way to the final draft -/

/-- More actions lead from one draft to the other. -/
structure Leads (d e : Draft) : Prop where
  nodes : d.design.Evolves e.design
  retains : Retains d.design e.design
  signals : d.signals <+: e.signals

theorem run_leads {actions : List Action} (h : d.run actions = some e) : Leads d e := by
  suffices hkeeps : Retains d.design e.design ∧ d.signals <+: e.signals from ⟨run_evolves h, hkeeps.1, hkeeps.2⟩
  unfold run at h
  induction actions generalizing d with
  | nil =>
    obtain rfl : d = e := by simpa using h
    exact ⟨fun _ _ hx => hx, List.prefix_rfl⟩
  | cons action rest ih =>
    rw [List.foldlM_cons] at h
    obtain ⟨d₁, h₁, h⟩ := Option.bind_eq_some_iff.1 h
    obtain ⟨hretains, hsignals⟩ := ih h
    have hstep := step_continues h₁
    exact ⟨fun x s hx => hretains x s (hstep.retains x s hx), hstep.signals.trans hsignals⟩

theorem Leads.foreign (h : Leads d e) (he : e.Recorded) {s : Sig} (hs : s ∈ d.signals) : e.design.Foreign s.id :=
  he.soundDesign.foreign s (h.signals.subset hs)

/-- The register of a machine is a signal of a module. -/
theorem Leads.machine (h : Leads d e) (hd : d.Recorded) (he : e.Recorded) {c : Chain} (hc : c ∈ d.chains) {m : Machine}
    (hm : c.opener = .machine m) : e.design.Foreign m.state.id ∧ e.design.Source m.state.id := by
  obtain ⟨j, hj⟩ := List.getElem?_of_mem hc
  have hmachine : d.machine? j = some m := by
    unfold machine?
    rw [hj]
    obtain ⟨path, opener, arms⟩ := c
    obtain rfl : opener = .machine m := hm
    rfl
  have hfounded := hd.machinesKept.founded j m hmachine
  obtain ⟨s, hs, hkind, -⟩ := hfounded.register
  exact ⟨h.foreign he hfounded.listed, s, h.retains _ _ hs, by rw [hkind]; decide⟩

/-! ### Places -/

/-- The conditions around a place read what may be read there, and what tells whether the open body runs reads no more
than that. -/
structure LocalPlace (D : Design) (r : Recording) : Prop where
  conds : ∀ c ∈ r.conds, ReadsIn ((scopeAt r).Allows D) c
  body : ∀ frame, r.body = some frame →
    frame.node < D.nodes.size ∧ ReadsIn (· = (D.node frame.node).activator) frame.activator

namespace LocalPlace

variable {D : Design}

theorem fresh (D d : Design) (scope : String) : LocalPlace D (Recording.openModule d scope) :=
  ⟨fun _ hc => absurd hc List.not_mem_nil, fun _ hframe => nomatch hframe⟩

/-- A place with the same conditions and the same open body. -/
theorem stay (h : LocalPlace D r) {r' : Recording} (hconds : ∀ c ∈ r'.conds, c ∈ r.conds) (hbody : r'.body = r.body) :
    LocalPlace D r' := by
  have hscope : scopeAt r' = scopeAt r := by rw [scopeAt, hbody, scopeAt]
  exact ⟨fun c hc => hscope ▸ h.conds c (hconds c hc), hbody ▸ h.body⟩

theorem enter (h : LocalPlace D r) {cond : Expr} (hc : ReadsIn ((scopeAt r).Allows D) cond)
    (chain alternative : Nat) : LocalPlace D (r.enter chain alternative cond) := by
  refine ⟨fun c hmem => ?_, h.body⟩
  rcases List.mem_cons.1 hmem with rfl | hmem
  · exact hc
  · exact h.conds c hmem

theorem cond (h : LocalPlace D r) : ReadsIn ((scopeAt r).Allows D) r.cond :=
  (closed_readsIn _).all fun c hc => h.conds c (List.mem_reverse.1 hc)

/-- Outside bodies the conditions read inputs and registers only, and may be read in the body that is opened. -/
theorem opened (h : LocalPlace D r) (hbody : r.body = none) {c : NodeId} (hlt : c < D.nodes.size) {activator : Expr}
    (ha : ReadsIn (· = (D.node c).activator) activator) (design : Design) :
    LocalPlace D { r with design, body := some ⟨c, activator⟩ } := by
  have hscope : scopeAt r = .outside := by rw [scopeAt, hbody]
  refine ⟨fun cond hcond => ?_, fun frame hframe => ?_⟩
  · have hreads := h.conds cond hcond
    rw [hscope] at hreads
    exact hreads.mono fun x hx => .inl hx
  · obtain rfl := Option.some.inj hframe
    exact ⟨hlt, ha⟩

theorem outside (h : LocalPlace D r) (hbody : r.body = none) : ReadsIn D.Source r.cond := by
  have hcond := h.cond
  rwa [scopeAt, hbody] at hcond

theorem leaveBody (h : ∀ c ∈ r.conds, ReadsIn D.Source c) : LocalPlace D r.leaveBody :=
  ⟨h, fun _ hframe => nomatch hframe⟩

/-- What is read around a place, and in it. -/
theorem around (h : LocalPlace D r) {x : SignalId} (hx : (scopeAt r).Allows D x) : D.Around x := by
  unfold scopeAt at hx
  split at hx
  · rename_i frame hbody
    exact hx.imp_right fun harg => ⟨frame.node, (h.body frame hbody).1, .inr harg⟩
  · exact .inl hx

theorem guard (h : LocalPlace D r) : ReadsIn D.Around r.guard := by
  have hcond : ReadsIn D.Around r.cond := h.cond.mono fun _ => h.around
  unfold Recording.guard
  split
  · rename_i frame hbody
    obtain ⟨hlt, hreads⟩ := h.body frame hbody
    exact (closed_readsIn _).and (hreads.mono fun x hx => .inr ⟨frame.node, hlt, .inl hx.symm⟩) hcond
  · exact hcond

end LocalPlace

/-! ### What an operation records -/

theorem readsIn_anyBit {S : SignalId → Prop} {cond wanted : Expr} (h : Expr.Checked.anyBit cond = .ok wanted)
    (hcond : ReadsIn S cond) : ReadsIn S wanted := by
  simp only [Expr.Checked.anyBit, except_bind_ok, except_pure_ok] at h
  obtain ⟨_, _, rfl⟩ := h
  exact (closed_readsIn S).anyBit hcond

theorem readsIn_caseCond {S : SignalId → Prop} {sel cond : Expr} {values : List Word}
    (h : Recording.caseCond sel values = .ok cond) (hsel : ReadsIn S sel) : ReadsIn S cond := by
  simp only [Recording.caseCond, except_bind_ok, except_pure_ok] at h
  obtain ⟨_, _, rfl⟩ := h
  refine (closed_readsIn S).any fun e he => ?_
  obtain ⟨v, -, rfl⟩ := List.mem_map.1 he
  exact (closed_readsIn S).binary .eq sel _ hsel ((closed_readsIn S).constant v trivial)

/-- The condition of the next arm of a chain reads what the arm and the earlier ones do. -/
theorem local_arm {D : Design} {op : Operation} {chain : Nat} {path : ControlPath} {b : Recording.Chain}
    {arms : List (Nat × Expr)} {cond : Expr} (hchain : d.chains[chain]? = some ⟨path, .branches b, arms⟩)
    (hop : op.EntersArm chain cond) (huses : ∀ u ∈ d.usesAt r op, u.Local D) :
    ReadsIn ((scopeAt r).Allows D) (b.taken.not.and cond) := by
  have hearlier : d.earlier chain = [b.taken] := by rw [earlier, hchain]
  have hclosed := closed_readsIn ((scopeAt r).Allows D)
  suffices hboth : ReadsIn ((scopeAt r).Allows D) b.taken ∧ ReadsIn ((scopeAt r).Allows D) cond from
    hclosed.and (hclosed.not hboth.1) hboth.2
  cases hop with
  | branch h =>
    rw [usesAt, hearlier, List.forall_mem_map] at huses
    exact ⟨huses _ (by simp), readsIn_anyBit h (huses _ (List.mem_cons_self ..))⟩
  | case h =>
    rw [usesAt, hearlier, List.forall_mem_map] at huses
    exact ⟨huses _ (by simp), readsIn_caseCond h (huses _ (List.mem_cons_self ..))⟩
  | otherwise =>
    rw [usesAt, hearlier, List.forall_mem_map] at huses
    exact ⟨huses _ (List.mem_cons_self ..), hclosed.one⟩

/-- What a draft keeps to on the way to the final design: what it has recorded is local there. -/
structure LocalSoFar (D : Design) (d : Draft) : Prop where
  assigns : ∀ a ∈ d.design.assigns, D.LocalAssign a
  sites : ∀ c m, ∀ s ∈ (d.design.node c).sitesTo m, ∀ x ∈ s.enable.reads ++ s.arg.reads, (Scope.body c).Allows D x
  functions : d.design.EachMethod D.LocalFunctions
  places : ∀ r ∈ d.places, LocalPlace D r
  results : ∀ b ∈ d.bodies, b.1 < D.nodes.size ∧ ∀ bus, b.2.dataOut = some bus → D.ResultOf b.1 bus

section

variable {op : Operation} (he : e.Recorded) (hd : d.Recorded) (h : LocalSoFar e.design d) (hleads : Leads d e)
  (hr : d.place? i = some r) (hop : Effect d i r op d') (huses : ∀ u ∈ d.usesAt r op, u.Local e.design)

include h hr in
theorem LocalSoFar.place : LocalPlace e.design r := by
  obtain ⟨r₀, hr₀, rfl⟩ := Option.map_eq_some_iff.1 hr
  exact (h.places r₀ (List.mem_of_getElem? hr₀)).stay (fun _ hc => hc) rfl

/-- A body may run where a condition holds that reads no more than that may. -/
theorem localAssign_drive {D : Design} (hD : D.Sound) {x : SignalId} (hx : D.IsEntry x) {cond wanted : Expr}
    (hcond : ReadsIn D.Source cond) (hwanted : ReadsIn (Scope.entry.Allows D) wanted) :
    D.LocalAssign ⟨x, .one, cond.and wanted, .comb⟩ := by
  have hclosed := closed_readsIn (Scope.entry.Allows D)
  refine localAssign_entry hD hx fun y hy => ?_
  exact hclosed.and (hcond.mono fun _ => Scope.allows_source _) hwanted y hy

include he hd h hleads hr hop huses in
theorem effect_assigns : ∀ a ∈ d'.design.assigns, e.design.LocalAssign a := by
  have hplace := h.place hr
  have hold : ∀ a ∈ r.design.assigns, e.design.LocalAssign a := place?_design hr ▸ h.assigns
  have hevolves : r.design.Evolves e.design := place?_design hr ▸ hleads.nodes
  have hsound := he.sound
  cases hop with
  | submodule scope => exact hold
  | signal name width kind init hw => exact hold
  | assign s guard value domain hs hkind hguard hvalue =>
    have hguard : ReadsIn e.design.Around guard := by
      rcases hguard with rfl | rfl | rfl
      · exact hplace.guard
      · exact hplace.cond.mono fun _ => hplace.around
      · exact (closed_readsIn _).one
    have hvalue : ReadsIn e.design.Around value := by
      rw [hvalue]
      exact (closed_readsIn _).resize ((huses _ (List.mem_singleton_self _)).mono fun _ => hplace.around) trivial
    refine forall_mem_snoc hold (localAssign_foreign (hleads.foreign he hs) fun _ x hx => ?_)
    exact (List.mem_append.1 hx).elim (hguard x) (hvalue x)
  | «when» wanted hw => exact hold
  | branches => exact hold
  | branch j b arms cond hj hw => exact hold
  | leave => exact hold
  | machine name m hw hstates hstate hchain hpath => exact hold
  | state j path m arms index hj hpath hi => exact hold
  | next c m guard value hc hm =>
    exact forall_mem_snoc hold (localAssign_foreign (hleads.machine hd he hc hm).1 fun hcomb => nomatch hcomb)
  | openTransaction t loc info wanted ht hnew hinfo hwanted hbody =>
    obtain ⟨n, hn, hk⟩ := hevolves.transaction ht hinfo
    refine forall_mem_snoc hold (localAssign_drive hsound ⟨t, Arena.lt_of_get? hn, ?_⟩ (hplace.outside hbody)
      (readsIn_anyBit hwanted (huses _ (List.mem_singleton_self _))))
    rw [node_of_get? hn, Node.entry, hk]
  | openMethod m loc old validator wanted activator hnew hinfo hwanted hactivator hbody =>
    obtain ⟨n, _, hn, hk⟩ := hevolves.method hinfo
    refine forall_mem_snoc hold (localAssign_drive hsound ⟨m, Arena.lt_of_get? hn, ?_⟩ (hplace.outside hbody)
      (readsIn_anyBit hwanted (huses _ (List.mem_singleton_self _))))
    rw [node_of_get? hn, Node.entry, hk]
  | leaveBody => exact hold
  | closeMethod m info bus value hm hbus hbody hvalue =>
    obtain ⟨hlt, hresult⟩ := h.results _ hm
    have hclosed := closed_readsIn ((Scope.result m).Allows e.design)
    rw [usesAt, hbody] at huses
    rw [List.forall_mem_map] at huses
    refine forall_mem_snoc hold (localAssign_result hsound hlt (hresult bus hbus) fun x hx => ?_)
    rw [hvalue] at hx
    rcases List.mem_append.1 hx with hx | hx
    · exact hclosed.all (fun c hc => huses c (List.mem_cons_of_mem _ (List.mem_reverse.1 hc))) x hx
    · exact hclosed.resize (huses _ (List.mem_cons_self ..)) trivial x hx
  | stay => exact hold
  | call m frame site enabled hbody hpath henable hw hapart hcallee => exact hold

include he hd h hleads hr hop huses in
theorem effect_places : ∀ r' ∈ d'.places, LocalPlace e.design r' := by
  have hplace := h.place hr
  have hevolves : r.design.Evolves e.design := place?_design hr ▸ hleads.nodes
  have stay : ∀ {r' : Recording}, r'.conds = r.conds → r'.body = r.body →
      ∀ q ∈ d.places.set i r', LocalPlace e.design q := fun hconds hbody =>
    forall_mem_set h.places (hplace.stay (fun _ hc => hconds ▸ hc) hbody)
  cases hop with
  | submodule scope => exact forall_mem_snoc h.places (.fresh ..)
  | signal name width kind init hw => exact stay rfl rfl
  | assign s guard value domain hs hkind => exact stay rfl rfl
  | «when» wanted hw hwanted =>
    have hcond : ReadsIn ((scopeAt r).Allows e.design) wanted :=
      readsIn_anyBit hwanted (huses _ (List.mem_singleton_self _))
    exact forall_mem_set h.places ((hplace.stay (fun _ hc => hc) rfl : LocalPlace _ r.newChain.2).enter hcond ..)
  | branches => exact stay rfl rfl
  | branch j b arms cond hj hw hop => exact forall_mem_set h.places (hplace.enter (local_arm hj hop huses) ..)
  | leave => exact forall_mem_set h.places (hplace.stay (fun _ hc => List.mem_of_mem_tail hc) rfl)
  | machine name m hw hstates hstate hchain hpath => exact stay rfl rfl
  | state j path m arms index hj hpath hi =>
    have hregister : ReadsIn ((scopeAt r).Allows e.design) m.state.expr := fun x hx => by
      obtain rfl := List.mem_singleton.1 hx
      exact Scope.allows_source _ (hleads.machine hd he (List.mem_of_getElem? hj) rfl).2
    have hclosed := closed_readsIn ((scopeAt r).Allows e.design)
    exact forall_mem_set h.places
      (hplace.enter (hclosed.binary .eq _ _ hregister (hclosed.constant _ trivial)) ..)
  | next c m guard value hc hm => exact stay rfl rfl
  | openTransaction t loc info wanted ht hnew hinfo hwanted hbody =>
    obtain ⟨n, hn, hk⟩ := hevolves.transaction ht hinfo
    refine forall_mem_set h.places (hplace.opened hbody (Arena.lt_of_get? hn) ?_ _)
    rw [node_of_get? hn, Node.activator, hk]
    exact readsIn_read rfl
  | openMethod m loc old validator wanted activator hnew hinfo hwanted hactivator hbody =>
    obtain ⟨n, _, hn, hk⟩ := hevolves.method hinfo
    refine forall_mem_set h.places (hplace.opened hbody (Arena.lt_of_get? hn) ?_ _)
    rw [node_of_get? hn, Node.activator, hk, hactivator]
    exact readsIn_read rfl
  | leaveBody =>
    rw [usesAt, List.forall_mem_map] at huses
    exact forall_mem_set h.places (.leaveBody huses)
  | closeMethod m info bus value hm hbus => exact stay rfl rfl
  | stay => exact stay rfl rfl
  | call m frame site enabled hbody hpath henable hw hapart hcallee => exact stay rfl rfl

include h hleads hr hop in
theorem effect_results :
    ∀ b ∈ d'.bodies, b.1 < e.design.nodes.size ∧ ∀ bus, b.2.dataOut = some bus → e.design.ResultOf b.1 bus := by
  have hevolves : r.design.Evolves e.design := place?_design hr ▸ hleads.nodes
  cases hop with
  | openMethod m loc old validator wanted activator hnew hinfo hwanted hactivator hbody =>
    obtain ⟨n, validator', hn, hk⟩ := hevolves.method hinfo
    refine forall_mem_snoc h.results ⟨Arena.lt_of_get? hn, fun bus hbus => ?_⟩
    refine ⟨{ old with validator := validator' }, ?_, hbus⟩
    rw [node_of_get? hn, Node.method?, hk, Option.mem_def]
  | _ => exact h.results

include h hr hop in
theorem effect_functions (hfun : (Action.inModule i op).LocalFunctions e.design) :
    d'.design.EachMethod e.design.LocalFunctions := by
  have hold : r.design.EachMethod e.design.LocalFunctions := place?_design hr ▸ h.functions
  cases hop with
  | openTransaction t loc info wanted ht hnew hinfo hwanted hbody => exact hold.opened t loc
  | openMethod m loc old validator wanted activator hnew hinfo hwanted hactivator hbody =>
    refine (hold.opened m loc).modifyNode m fun info hk => ?_
    obtain rfl := NodeKind.method.inj hk
    exact ⟨hfun, (hold m old hinfo).combiner⟩
  | call m frame site enabled hbody hpath henable hw hapart hcallee =>
    exact hold.modifyNode frame.node fun info hk => hold _ info hk
  | _ => exact hold

end

/-! ### Steps and runs -/

/-- The design changes, but assignments and calls stay. -/
theorem LocalSoFar.redesign {D : Design} (h : LocalSoFar D d) {design : Design}
    (hassigns : design.assigns = d.design.assigns) (hsame : Design.SameBodies d.design design)
    (hfunctions : design.EachMethod D.LocalFunctions) : LocalSoFar D { d with design } := by
  refine ⟨fun a ha => h.assigns a (hassigns ▸ ha), fun c m s hs => h.sites c m s ?_, hfunctions, h.places, h.results⟩
  rwa [Node.sitesTo, hsame.calls c] at hs

/-- Declarations and relations leave assignments, calls and places alone. -/
theorem step_outside {D : Design} {action : Action} (h : LocalSoFar D d) (hd : d.step action = some d')
    (hin : ∀ i op, action ≠ .inModule i op) (hfun : action.LocalFunctions D) : LocalSoFar D d' := by
  have hkinds := h.functions
  cases action with
  | transaction name loc =>
    obtain rfl := Option.some.inj hd
    obtain ⟨d₁, _, _, _, hw, hdesign, -⟩ := declareTransaction_adds d.design name loc
    refine h.redesign (by rw [hdesign]; exact hw.assigns) (declareTransaction_sameBodies ..) ?_
    refine hkinds.addNode ((newTransactionInfo_spec _ _).1.nodes.trans (newName_widens d.design _).nodes) _ loc ?_
    intro info hk
    cases hk
  | method decl loc =>
    simp only [step, Option.bind_eq_bind, Option.bind_eq_some_iff, Option.pure_def, Option.some.injEq,
      Attempt.result?_eq_some] at hd
    obtain ⟨⟨m, design⟩, hm, rfl⟩ := hd
    obtain rfl : design = (d.design.addMethod decl loc).2 := congrArg Prod.snd (declareMethod_ok hm)
    obtain ⟨d₁, _, _, _, hw, hdesign, -⟩ := addMethod_adds d.design decl loc
    refine h.redesign (by rw [hdesign]; exact hw.assigns) (addMethod_sameBodies ..) ?_
    refine hkinds.addMethod decl loc fun info hvalidator hcombiner => ⟨fun v hv => ?_, fun f hf => ?_⟩
    · cases hvalidator.symm.trans hv
    · exact hfun f (hcombiner.symm.trans hf)
  | conflict a b priority loc =>
    simp only [step, Option.ite_none_right_eq_some, Option.some.injEq] at hd
    obtain ⟨-, rfl⟩ := hd
    exact h.redesign rfl (.of_nodes rfl rfl) hkinds
  | before a b silenced loc =>
    simp only [step, Option.ite_none_right_eq_some, Option.some.injEq] at hd
    obtain ⟨-, rfl⟩ := hd
    exact h.redesign rfl (.of_nodes rfl rfl) hkinds
  | simultaneous a others =>
    simp only [step, Option.ite_none_right_eq_some, Option.some.injEq] at hd
    obtain ⟨-, rfl⟩ := hd
    exact h.redesign rfl (modifyNode_sameBodies _ a (fun _ => rfl) (fun _ => rfl) fun _ => rfl)
      (hkinds.modifyNode a fun info hk => hkinds a info hk)
  | alternatives a others =>
    simp only [step, Option.ite_none_right_eq_some, Option.some.injEq] at hd
    obtain ⟨-, rfl⟩ := hd
    refine alternatives_induct (P := fun design => LocalSoFar D { d with design }) d.design a others ?_
      fun design first rest hx => ?_
    · exact h.redesign rfl (modifyNode_sameBodies _ a (fun _ => rfl) (fun _ => rfl) fun _ => rfl)
        (hkinds.modifyNode a fun info hk => hkinds a info hk)
    · exact hx.redesign rfl (modifyNode_sameBodies _ first (fun _ => rfl) (fun _ => rfl) fun _ => rfl)
        (hx.functions.modifyNode first fun info hk => hx.functions first info hk)
  | openModule scope =>
    obtain rfl := Option.some.inj hd
    exact ⟨h.assigns, h.sites, hkinds, forall_mem_snoc h.places (.fresh ..), h.results⟩
  | inModule i op => exact absurd rfl (hin i op)

/-- The call that an operation records reads what may be read in the body that it stands in. -/
theorem local_call {D : Design} {op : Operation} {call : Call} (hplace : LocalPlace D r)
    (hcall : callAt? r op = some call) (huses : ∀ u ∈ d.usesAt r op, u.Local D) :
    ∀ x ∈ call.site.enable.reads ++ call.site.arg.reads, (Scope.body call.caller).Allows D x := by
  cases op with
  | call m arg enable loc =>
    simp only [callAt?, Recording.callSite?, Option.bind_eq_bind, Option.bind_eq_some_iff, Option.pure_def,
      Option.some.injEq, Except.toOption_eq_some] at hcall
    obtain ⟨frame, hbody, _, ⟨info, -, enabled, henabled, rfl⟩, rfl⟩ := hcall
    have hscope : scopeAt r = .body frame.node := by rw [scopeAt, hbody]
    have hcond := hplace.cond
    rw [hscope] at hcond
    rw [usesAt, hscope] at huses
    have hclosed := closed_readsIn ((Scope.body frame.node).Allows D)
    rw [List.forall_mem_cons, List.forall_mem_singleton] at huses
    obtain ⟨harg, henable⟩ := huses
    exact fun x hx => (List.mem_append.1 hx).elim (hclosed.and hcond (readsIn_anyBit henabled henable) x)
      (hclosed.resize harg trivial x)
  | _ => cases hcall

theorem step_local {action : Action} (he : e.Recorded) (hd : d.Recorded) (h : LocalSoFar e.design d)
    (hleads : Leads d e) (hstep : d.step action = some d') (huses : ∀ u ∈ d.usesOf action, u.Local e.design)
    (hfun : action.LocalFunctions e.design) : LocalSoFar e.design d' := by
  by_cases hin : ∃ i op, action = .inModule i op
  · obtain ⟨i, op, rfl⟩ := hin
    have hsites := step_sites hd.openBodies hstep
    simp only [step, Option.bind_eq_bind, Option.bind_eq_some_iff] at hstep
    obtain ⟨r, hr, hop⟩ := hstep
    have heffect := operate_effect (place?_design hr) hop
    have hhere : ∀ u ∈ d.usesAt r op, u.Local e.design := by simpa only [usesOf, hr] using huses
    refine ⟨effect_assigns he hd h hleads hr heffect hhere, fun c m s hs => ?_, effect_functions h hr heffect hfun,
      effect_places he hd h hleads hr heffect hhere, effect_results h hleads hr heffect⟩
    rw [hsites, List.mem_append] at hs
    rcases hs with hs | hs
    · exact h.sites c m s hs
    · obtain ⟨call, hcall, rfl⟩ := List.mem_map.1 hs
      obtain ⟨hmem, hbetween⟩ := List.mem_filter.1 hcall
      obtain ⟨rfl, -⟩ := of_decide_eq_true hbetween
      rw [Option.mem_toList, callOf?, hr] at hmem
      exact local_call (h.place hr) hmem hhere
  · exact step_outside h hstep (fun i op he => hin ⟨i, op, he⟩) hfun

theorem run_local {actions : List Action} (he : e.Recorded) (hd : d.Recorded) (h : LocalSoFar e.design d)
    (hrun : d.run actions = some e) (huses : ∀ u ∈ d.uses actions, u.Local e.design)
    (hfun : ∀ action ∈ actions, action.LocalFunctions e.design) : LocalSoFar e.design e := by
  induction actions generalizing d with
  | nil =>
    obtain rfl : d = e := by simpa [run] using hrun
    exact h
  | cons action rest ih =>
    have hleads := run_leads hrun
    unfold run at hrun
    rw [List.foldlM_cons] at hrun
    obtain ⟨d₁, hstep, hrun⟩ := Option.bind_eq_some_iff.1 hrun
    rw [uses, hstep, List.forall_mem_append] at huses
    rw [List.forall_mem_cons] at hfun
    exact ih (hd.take action hstep) (step_local he hd h hleads hstep huses.1 hfun.1) hrun huses.2 hfun.2

/-- Where the expressions that actions take over read what they may, and the functions as well, the design that the
actions record is local. -/
theorem local_of_run {config : Config} {actions : List Action} (hrun : (start config).run actions = some d)
    (huses : ∀ u ∈ (start config).uses actions, u.Local d.design)
    (hfun : ∀ action ∈ actions, action.LocalFunctions d.design) : d.design.Local := by
  have hrec : d.Recorded := ⟨config, actions, hrun⟩
  have hstart : LocalSoFar d.design (start config) := by
    have hnode : ∀ i, (start config).design.node i = .absent := fun i => node_of_size_le (Nat.zero_le i)
    refine ⟨fun a ha => (nomatch ha), fun c m s hs => ?_, fun m info hk => ?_, fun r hr => (nomatch hr),
      fun b hb => (nomatch hb)⟩
    · rw [hnode] at hs
      exact nomatch hs
    · rw [hnode] at hk
      exact nomatch hk
  have hall := run_local hrec ⟨config, [], rfl⟩ hstart hrun huses hfun
  have hfunctions : ∀ m info, (d.design.node m).method? = some info → d.design.LocalFunctions info := by
    intro m info hm
    obtain ⟨n, -, rfl, hk⟩ := get?_of_method hm
    exact hall.functions m info hk
  refine ⟨hall.assigns, fun c hc call hcall s hs => ?_, fun m info hm => (hfunctions m info hm).validator,
    fun m info hm => (hfunctions m info hm).combiner⟩
  obtain ⟨n, hn⟩ := Arena.exists_get? hc
  have hsites : (d.design.node c).sitesTo call.1 = call.2 := by
    rw [node_of_get? hn]
    exact (hrec.tidy hn).sitesTo (node_of_get? hn ▸ hcall)
  exact hall.sites c call.1 s (hsites ▸ hs)

end Draft

end Interlock
