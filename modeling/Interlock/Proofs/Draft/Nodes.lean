import Interlock.Proofs.Draft.Placed
import Interlock.Proofs.Fusion.Groups
import Interlock.Proofs.Reach.Conditions

/-! What becomes of nodes while a draft is recorded: a node stays a transaction or a method with the same input,
wishes of simultaneity and of independence are only added to it, and it lists each method that it calls once.
Fusion leaves what this says of calls and of inputs as it is. -/

namespace Interlock

/-- The kind of a node, without the check of its arguments. -/
def NodeKind.unchecked : NodeKind → NodeKind
  | transaction info => transaction info
  | method info => method { info with validator := none }

namespace NodeKind

variable {k : NodeKind}

theorem unchecked_transaction {info : TransactionInfo} (h : k.unchecked = (transaction info).unchecked) :
    k = transaction info := by
  cases k with
  | transaction _ => exact h
  | method _ => exact nomatch h

theorem unchecked_method {info : MethodInfo} (h : k.unchecked = (method info).unchecked) :
    ∃ validator, k = method { info with validator } := by
  cases k with
  | transaction _ => exact nomatch h
  | method info' =>
    refine ⟨info'.validator, congrArg method ?_⟩
    have hinfo := method.inj h
    exact congrArg (fun i : MethodInfo => { i with validator := info'.validator }) hinfo

end NodeKind

namespace Node

/-- Calls are listed by method, and a method is listed only where it is called. -/
def Listed (calls : List (NodeId × List CallSite)) : Prop := (calls.map (·.1)).Nodup ∧ ∀ c ∈ calls, c.2 ≠ []

/-- Calls are listed, and only an input that is not empty has a wire. -/
structure Tidy (n : Node) : Prop where
  calls : Listed n.calls
  port : ∀ port, n.port? = some port → port.1.isEmpty = true → port.2 = none

/-- What recording makes of a node. -/
structure Evolves (n n' : Node) : Prop where
  kind : n'.kind.unchecked = n.kind.unchecked
  simultaneous : n.simultaneous ⊆ n'.simultaneous
  independent : n.independent ⊆ n'.independent
  calls : Listed n.calls → Listed n'.calls

variable {n n' : Node}

theorem Evolves.refl (n : Node) : n.Evolves n := ⟨rfl, fun _ h => h, fun _ h => h, fun h => h⟩

theorem Evolves.trans {n'' : Node} (h : n.Evolves n') (h' : n'.Evolves n'') : n.Evolves n'' :=
  ⟨h'.kind.trans h.kind, fun _ hx => h'.simultaneous (h.simultaneous hx),
    fun _ hx => h'.independent (h.independent hx), fun hc => h'.calls (h.calls hc)⟩

/-- A node keeps its input and the wire that tells whether it runs. -/
theorem Evolves.same (h : n.Evolves n') : n'.port? = n.port? ∧ n'.activator = n.activator := by
  have hkind := h.kind
  cases hk : n.kind with
  | transaction info =>
    have hk' := NodeKind.unchecked_transaction (hk ▸ hkind)
    simp only [port?, method?, activator, hk, hk', and_self]
  | method info =>
    obtain ⟨validator, hk'⟩ := NodeKind.unchecked_method (hk ▸ hkind)
    simp [port?, method?, activator, hk, hk']

theorem Evolves.tidy (h : n.Evolves n') (hn : n.Tidy) : n'.Tidy :=
  ⟨h.calls hn.calls, fun port hp => hn.port port (h.same.1 ▸ hp)⟩

theorem Tidy.sitesTo (h : n.Tidy) {m : NodeId} {sites : List CallSite} (hc : (m, sites) ∈ n.calls) :
    n.sitesTo m = sites := by
  have hlookup : n.calls.lookup m = some sites := by
    have hnodup := h.calls.1
    generalize n.calls = calls at hc hnodup
    induction calls with
    | nil => exact nomatch hc
    | cons c cs ih =>
      rw [List.map_cons, List.nodup_cons] at hnodup
      rw [List.lookup_cons]
      rcases List.mem_cons.1 hc with rfl | hc
      · rw [beq_self_eq_true]
      · have hne : m ≠ c.1 := fun he => hnodup.1 (he ▸ List.mem_map_of_mem hc)
        rw [beq_false_of_ne hne]
        exact ih hc hnodup.2
  rw [Node.sitesTo, hlookup, Option.getD_some]

end Node

theorem Recording.listed_addSite {calls : List (NodeId × List CallSite)} (h : Node.Listed calls) (m : NodeId)
    (site : CallSite) : Node.Listed (addSite calls m site) := by
  unfold addSite
  split
  · have hsame : (calls.map fun c => if c.1 = m then (m, c.2 ++ [site]) else c).map (·.1) = calls.map (·.1) := by
      rw [List.map_map]
      refine List.map_congr_left fun c _ => ?_
      rw [Function.comp_apply]
      split
      · exact Eq.symm ‹_›
      · rfl
    refine ⟨hsame ▸ h.1, fun c hc => ?_⟩
    obtain ⟨b, hb, rfl⟩ := List.mem_map.1 hc
    split
    · exact List.append_ne_nil_of_right_ne_nil _ (List.cons_ne_nil site [])
    · exact h.2 b hb
  · rename_i hnew
    refine ⟨?_, forall_mem_snoc h.2 (List.cons_ne_nil site [])⟩
    rw [List.map_append, List.map_singleton, List.nodup_append]
    refine ⟨h.1, List.nodup_singleton m, fun x hx y hy he => hnew ?_⟩
    obtain ⟨c, hc, rfl⟩ := List.mem_map.1 hx
    refine List.any_eq_true.2 ⟨c, hc, ?_⟩
    rw [he, List.mem_singleton.1 hy, beq_self_eq_true]

namespace Design

variable {d d' : Design}

/-- Nodes evolve, and new ones are tidy. -/
structure Evolves (d d' : Design) : Prop where
  old : ∀ i n, d.nodes.get? i = some n → ∃ n', d'.nodes.get? i = some n' ∧ n.Evolves n'
  new : ∀ i n', d'.nodes.get? i = some n' → d.nodes.size ≤ i → n'.Tidy

theorem Evolves.of_nodes (h : d'.nodes = d.nodes) : Evolves d d' := by
  refine ⟨fun i n hi => ⟨n, h ▸ hi, .refl n⟩, fun i n' hi hle => ?_⟩
  rw [h] at hi
  exact absurd (Arena.lt_of_get? hi) (Nat.not_lt.2 hle)

theorem Evolves.trans {d₁ d₂ d₃ : Design} (h : Evolves d₁ d₂) (h' : Evolves d₂ d₃) : Evolves d₁ d₃ := by
  refine ⟨fun i n hi => ?_, fun i n hi hle => ?_⟩
  · obtain ⟨n₂, hi₂, he₂⟩ := h.old i n hi
    obtain ⟨n₃, hi₃, he₃⟩ := h'.old i n₂ hi₂
    exact ⟨n₃, hi₃, he₂.trans he₃⟩
  · rcases Nat.lt_or_ge i d₂.nodes.size with hlt | hge
    · obtain ⟨n₂, hi₂⟩ := Arena.exists_get? hlt
      obtain ⟨n₃, hi₃, he₃⟩ := h'.old i n₂ hi₂
      obtain rfl : n = n₃ := Option.some.inj (hi.symm.trans hi₃)
      exact he₃.tidy (h.new i n₂ hi₂ hle)
    · exact h'.new i n hi hge

theorem modifyNode_evolves (d : Design) (id : NodeId) {f : Node → Node}
    (hf : ∀ n, d.nodes.get? id = some n → n.Evolves (f n)) : Evolves d (d.modifyNode id f) := by
  refine ⟨fun i n hi => ?_, fun i n' hi hle => ?_⟩
  · rw [get?_modifyNode]
    split
    · rename_i h
      subst h
      exact ⟨f n, by rw [hi, Option.map_some], hf n hi⟩
    · exact ⟨n, hi, .refl n⟩
  · have hlt := Arena.lt_of_get? hi
    rw [size_modifyNode] at hlt
    exact absurd hlt (Nat.not_lt.2 hle)

theorem addNode_evolves (hn : d'.nodes = d.nodes) (name : String) (loc : Location) (kind : NodeKind)
    (hport : ∀ port, ({ id := d.nodes.size, name, loc, kind } : Node).port? = some port →
      port.1.isEmpty = true → port.2 = none) : Evolves d (d'.addNode name loc kind).2 := by
  refine ⟨fun i n hi => ⟨n, ?_, .refl n⟩, fun i n' hi hle => ?_⟩
  · rw [get?_addNode, hn, if_neg (Nat.ne_of_lt (Arena.lt_of_get? hi)), hi]
  · have hlt := Arena.lt_of_get? hi
    rw [size_addNode, hn] at hlt
    obtain rfl : i = d.nodes.size := Nat.le_antisymm (Nat.le_of_lt_succ hlt) hle
    rw [get?_addNode, hn, if_pos rfl, Option.some.injEq] at hi
    subst hi
    exact ⟨⟨List.nodup_nil, fun c hc => nomatch hc⟩, hport⟩

theorem declareTransaction_evolves (d : Design) (name : String) (loc : Location) :
    Evolves d (d.declareTransaction name loc).2 := by
  show Evolves d (addNode (newTransactionInfo _ (d.newName (nameOr name "transaction")).1).2 _ loc (.transaction _)).2
  exact addNode_evolves ((newTransactionInfo_spec _ _).1.nodes.trans (newName_widens d _).nodes) _ _ _
    fun port hp => nomatch hp

theorem newBus_none (d : Design) (name : String) {l : Layout} (h : l.isEmpty = true) : (d.newBus name l).1 = none := by
  rw [newBus, if_pos h]

theorem addMethod_evolves (d : Design) (decl : MethodDecl) (loc : Location) : Evolves d (d.addMethod decl loc).2 := by
  unfold addMethod
  simp only
  have hname := (newName_widens d (nameOr decl.name "method")).nodes
  generalize d.newName (nameOr decl.name "method") = named at hname ⊢
  obtain ⟨name, d₁⟩ := named
  have hin := (newBus_spec d₁ (name ++ "_data_in") decl.input).1.nodes
  have hnone := newBus_none d₁ (name ++ "_data_in") (l := decl.input)
  generalize d₁.newBus (name ++ "_data_in") decl.input = bus at hin hnone ⊢
  obtain ⟨dataIn, d₂⟩ := bus
  have hout := (newBus_spec d₂ (name ++ "_data_out") decl.output).1.nodes
  generalize d₂.newBus (name ++ "_data_out") decl.output = bus at hout ⊢
  obtain ⟨dataOut, d₃⟩ := bus
  simp only at hname hin hnone hout ⊢
  refine addNode_evolves ((newWire_widens _ _ _).nodes.trans ((newWire_widens _ _ _).nodes.trans
    (hout.trans (hin.trans hname)))) _ _ _ fun port hp => ?_
  obtain rfl := Option.some.inj hp
  exact hnone

end Design

namespace Draft

open Design

theorem opened_evolves (r : Recording) (id : NodeId) (loc : Location) : r.design.Evolves (r.opened id loc) := by
  have h₁ : r.design.Evolves { r.design with nextDefOrder := r.design.nextDefOrder + 1 } := .of_nodes rfl
  exact h₁.trans (modifyNode_evolves _ id (f := openedNode r loc) fun _ _ =>
    ⟨rfl, fun _ h => h, fun _ h => h, fun h => h⟩)

theorem effect_evolves {d d' : Draft} {i : Nat} {r : Recording} (hr : r.design = d.design) {op : Operation}
    (he : Effect d i r op d') : d.design.Evolves d'.design := by
  rw [← hr]
  cases he with
  | submodule scope => exact .of_nodes rfl
  | signal name width kind init hw => exact .of_nodes rfl
  | assign s guard value domain hs hkind => exact .of_nodes rfl
  | «when» wanted hw => exact .of_nodes rfl
  | branches => exact .of_nodes rfl
  | branch j b arms cond hj hw => exact .of_nodes rfl
  | leave => exact .of_nodes rfl
  | machine name m hw hstates hstate hchain hpath => exact .of_nodes rfl
  | state j path m arms index hj hpath hi => exact .of_nodes rfl
  | next c m guard value hc hm => exact .of_nodes rfl
  | openTransaction t loc info wanted ht hnew hinfo => exact (opened_evolves r t loc).trans (.of_nodes rfl)
  | openMethod m loc old validator wanted activator hnew hinfo =>
    have hkind : ∀ n, (r.opened m loc).nodes.get? m = some n → n.kind = .method old := by
      intro n hn
      rw [← node_of_get? hn, kind_opened, hinfo]
    refine (opened_evolves r m loc).trans ((modifyNode_evolves _ m fun n hn => ?_).trans (.of_nodes rfl))
    exact ⟨by rw [hkind n hn]; rfl, fun _ h => h, fun _ h => h, fun h => h⟩
  | leaveBody => exact .of_nodes rfl
  | closeMethod m info bus value hm hbus => exact .of_nodes rfl
  | stay => exact .of_nodes rfl
  | call m frame site enabled hbody hpath henable hw hapart hcallee =>
    exact modifyNode_evolves _ frame.node fun _ _ =>
      ⟨rfl, fun _ h => h, fun _ h => h, fun h => Recording.listed_addSite h m site⟩

theorem simultaneous_evolves (d : Design) (a : NodeId) (others : List NodeId) :
    d.Evolves (d.simultaneous a others) :=
  modifyNode_evolves d a fun _ _ => ⟨rfl, fun _ h => List.mem_append_left _ h, fun _ h => h, fun h => h⟩

theorem alternatives_evolves (d : Design) (a : NodeId) (others : List NodeId) :
    d.Evolves (d.simultaneousAlternatives a others) := by
  have h₁ := simultaneous_evolves d a others
  unfold Design.simultaneousAlternatives
  rcases others with _ | ⟨first, rest⟩
  · exact h₁
  · exact h₁.trans (modifyNode_evolves _ first fun _ _ =>
      ⟨rfl, fun _ h => h, fun _ h => List.mem_append_left _ h, fun h => h⟩)

theorem step_evolves {d d' : Draft} {action : Action} (hd : d.step action = some d') :
    d.design.Evolves d'.design := by
  cases action with
  | transaction name loc =>
    simp only [step, Option.some.injEq] at hd
    subst hd
    exact declareTransaction_evolves d.design name loc
  | method decl loc =>
    simp only [step, Option.bind_eq_bind, Option.bind_eq_some_iff, Option.pure_def, Option.some.injEq,
      Attempt.result?_eq_some] at hd
    obtain ⟨⟨m, design⟩, hm, rfl⟩ := hd
    have ha := addMethod_evolves d.design decl loc
    rwa [← declareMethod_ok hm] at ha
  | conflict a b priority loc =>
    simp only [step, Option.ite_none_right_eq_some, Option.some.injEq] at hd
    obtain ⟨-, rfl⟩ := hd
    exact .of_nodes rfl
  | before a b silenced loc =>
    simp only [step, Option.ite_none_right_eq_some, Option.some.injEq] at hd
    obtain ⟨-, rfl⟩ := hd
    exact .of_nodes rfl
  | simultaneous a others =>
    simp only [step, Option.ite_none_right_eq_some, Option.some.injEq] at hd
    obtain ⟨-, rfl⟩ := hd
    exact simultaneous_evolves d.design a others
  | alternatives a others =>
    simp only [step, Option.ite_none_right_eq_some, Option.some.injEq] at hd
    obtain ⟨-, rfl⟩ := hd
    exact alternatives_evolves d.design a others
  | openModule scope =>
    simp only [step, Option.some.injEq] at hd
    subst hd
    exact .of_nodes rfl
  | inModule i op =>
    simp only [step, Option.bind_eq_bind, Option.bind_eq_some_iff] at hd
    obtain ⟨r, hr, hop⟩ := hd
    have hrd := place?_design hr
    exact effect_evolves hrd (operate_effect hrd hop)

theorem run_evolves {actions : List Action} {d d' : Draft} (h : d.run actions = some d') :
    d.design.Evolves d'.design := by
  unfold run at h
  induction actions generalizing d with
  | nil =>
    obtain rfl : d = d' := by simpa using h
    exact .of_nodes rfl
  | cons a rest ih =>
    rw [List.foldlM_cons] at h
    obtain ⟨d₁, h₁, h⟩ := Option.bind_eq_some_iff.1 h
    exact (step_evolves h₁).trans (ih h)

/-- The nodes have evolved from those that the action left. -/
theorem Took.evolves {d : Draft} {action : Action} (h : d.Took action) :
    ∃ d₁ d₂ : Draft, d₁.step action = some d₂ ∧ d₂.design.Evolves d.design := by
  obtain ⟨config, before, after, h⟩ := h
  rw [run, List.foldlM_append] at h
  obtain ⟨d₁, -, h⟩ := Option.bind_eq_some_iff.1 h
  rw [List.foldlM_cons] at h
  obtain ⟨d₂, hstep, h⟩ := Option.bind_eq_some_iff.1 h
  exact ⟨d₁, d₂, hstep, run_evolves h⟩

/-- The nodes of every recorded draft are tidy. -/
theorem Recorded.tidy {d : Draft} (h : d.Recorded) {i : NodeId} {n : Node} (hn : d.design.nodes.get? i = some n) :
    n.Tidy := by
  obtain ⟨config, actions, hrun⟩ := h
  exact (run_evolves hrun).new i n hn (Nat.zero_le i)

/-! ### After fusion -/

/-- The calls of a fused design have been recorded, or are those of a group. -/
theorem Recorded.fused_calls {d : Draft} (h : d.Recorded) {f : Fused} (hf : Attempt.Gives d.design.fused f)
    {c m : NodeId} {sites : List CallSite} (hcalls : (m, sites) ∈ (f.design.node c).calls) :
    (∃ n, d.design.nodes.get? c = some n ∧ (f.design.node c).calls = n.calls) ∨
      ∃ module, ∃ members : Group, (f.design.node c).calls = members.map (Fusion.memberCall module) := by
  obtain ⟨-, -, hfuses⟩ := fused_ok h.sound hf
  obtain ⟨n', hn', -⟩ := get?_of_calls hcalls
  rw [node_of_get? hn']
  rcases Nat.lt_or_ge c d.design.nodes.size with hlt | hge
  · obtain ⟨n, hn⟩ := Arena.exists_get? hlt
    obtain ⟨n₂, hn₂, hsame⟩ := hfuses.old c n hn
    obtain rfl : n' = n₂ := Option.some.inj (hn'.symm.trans hn₂)
    exact .inl ⟨n, hn, hsame.fields.2.2.1⟩
  · obtain ⟨-, hmembers⟩ := hfuses.new c n' hn' hge
    exact .inr hmembers

theorem Recorded.uniform {d : Draft} (h : d.Recorded) {f : Fused} (hf : Attempt.Gives d.design.fused f) :
    f.design.Uniform := by
  intro c m sites hcalls
  rcases h.fused_calls hf hcalls with ⟨n, hn, hsame⟩ | ⟨module, members, hmembers⟩
  · rw [hsame] at hcalls
    rw [Node.sitesTo, hsame]
    exact (h.tidy hn).sitesTo hcalls
  · rw [hmembers] at hcalls
    obtain ⟨x, hx, he⟩ := List.mem_map.1 hcalls
    obtain ⟨rfl, rfl⟩ := Prod.mk.inj he
    exact Fusion.sitesTo_member hmembers hx

/-- A method is listed only where there is a call of it. -/
theorem Recorded.exists_site {d : Draft} (h : d.Recorded) {f : Fused} (hf : Attempt.Gives d.design.fused f)
    {c m : NodeId} {sites : List CallSite} (hcalls : (m, sites) ∈ (f.design.node c).calls) :
    ∃ site, site ∈ (f.design.node c).sitesTo m := by
  rw [h.uniform hf c m sites hcalls]
  refine List.exists_mem_of_ne_nil sites ?_
  rcases h.fused_calls hf hcalls with ⟨n, hn, hsame⟩ | ⟨module, members, hmembers⟩
  · exact (h.tidy hn).calls.2 _ (hsame ▸ hcalls)
  · rw [hmembers] at hcalls
    obtain ⟨x, -, he⟩ := List.mem_map.1 hcalls
    rw [← (Prod.mk.inj he).2]
    exact List.cons_ne_nil _ []

/-- Only an input that is not empty has a wire. -/
theorem Recorded.input_nonempty {d : Draft} (h : d.Recorded) {f : Fused} (hf : Attempt.Gives d.design.fused f)
    {m : NodeId} {info : MethodInfo} (hm : (f.design.node m).method? = some info) {bus : SignalId}
    (hbus : info.dataIn = some bus) : info.input.isEmpty = false := by
  obtain ⟨-, -, hfuses⟩ := fused_ok h.sound hf
  obtain ⟨n', hn', hnode, hkind⟩ := get?_of_method hm
  rcases Nat.lt_or_ge m d.design.nodes.size with hlt | hge
  · obtain ⟨n, hn⟩ := Arena.exists_get? hlt
    obtain ⟨n₂, hn₂, hsame⟩ := hfuses.old m n hn
    obtain rfl : n' = n₂ := Option.some.inj (hn'.symm.trans hn₂)
    rcases hsame with rfl | ⟨origin, -, rfl⟩
    · by_contra hempty
      have hport : n'.port? = some (info.input, info.dataIn) := by rw [Node.port?, ← hnode, hm, Option.map_some]
      have hnone := (h.tidy hn).port _ hport (by simpa using hempty)
      exact Option.some_ne_none bus (hbus.symm.trans hnone)
    · obtain rfl := NodeKind.method.inj hkind
      cases hbus
  · obtain ⟨g, hg, rfl⟩ := (fused_unites h.sound hf).new m n' hn' hge
    obtain ⟨n, tinfo, module, hn, hk, -⟩ := (fused_unites h.sound hf).calls g hg
    obtain rfl : n' = n := Option.some.inj (hn'.symm.trans hn)
    rw [hkind] at hk
    cases hk

end Draft

end Interlock
