import Interlock.Proofs.Design.Gains
import Interlock.Proofs.Draft.Guards

/-! The transcript of a sequence of actions is true of the draft that they lead to: place by place, chain by chain,
and assignment by assignment, where only those to signals of modules are compared. What recording assigns to the
wires of nodes is not in the transcript. -/

namespace Interlock.Draft

open Design

/-- A chain carries along what the transcript says of its arms so far; the register of a machine is a signal of its
module. -/
def Chain.Told (signals : List Sig) (tests : List Test) (c : Chain) : Prop :=
  match c.opener with
  | .when _ => True
  | .branches b => ∃ conds, List.Forall₂ Test.Asks tests conds ∧ Recounts conds b c.arms
  | .machine m => Roomy m ∧ m.state ∈ signals

/-- An assignment to one of the signals. -/
def assignsTo (signals : List Sig) (a : GuardedAssign) : Bool := signals.any fun s => s.id == a.target

theorem assignsTo_iff {signals : List Sig} {a : GuardedAssign} :
    assignsTo signals a = true ↔ ∃ s ∈ signals, s.id = a.target := by
  simp only [assignsTo, List.any_eq_true, beq_iff_eq]

/-- What a transcript says of a draft. -/
structure Faithful (d : Draft) (t : Transcript) : Prop where
  spots : List.Forall₂ Spot.Told t.spots d.places
  chains : List.Forall₂ (Chain.Told d.signals) t.chains d.chains
  written : List.Forall₂ Written.Told t.written (d.design.assigns.filter (assignsTo d.signals))
  targets : ∀ w ∈ t.written, w.target ∈ d.signals

variable {d d' : Draft} {t : Transcript} {i : Nat} {s : Spot} {r : Recording}

/-- The assignments that a design has beyond those of another are not to these signals. -/
def SameWritten (signals : List Sig) (d d' : Design) : Prop :=
  d'.assigns.filter (assignsTo signals) = d.assigns.filter (assignsTo signals)

theorem SameWritten.of_assigns {signals : List Sig} {d d' : Design} (h : d'.assigns = d.assigns) :
    SameWritten signals d d' := by
  rw [SameWritten, h]

/-- The wires of nodes are not signals of modules. -/
theorem sameWritten_assign {signals : List Sig} {d d' : Design} (h : SameWritten signals d d')
    (hforeign : ∀ s ∈ signals, d.Foreign s.id) {a : GuardedAssign} {n : Node} {id : NodeId}
    (hn : d.nodes.get? id = some n) (hx : a.target ∈ n.wires) : SameWritten signals d (d'.assign a) := by
  have hout : assignsTo signals a = false := by
    rw [Bool.eq_false_iff, ne_eq, assignsTo_iff]
    rintro ⟨s, hs, he⟩
    exact (hforeign s hs).2 id n hn (he ▸ hx)
  rw [SameWritten, Design.assign, List.filter_append, h, List.filter_singleton, hout, cond_false, List.append_nil]

theorem set_same {α : Type} {l : List α} {i : Nat} {a : α} (h : l[i]? = some a) : l.set i a = l := by
  obtain ⟨hlt, rfl⟩ := List.getElem?_eq_some_iff.1 h
  exact List.set_getElem_self hlt

/-- The body of a node of the design is entered by a single bit. -/
theorem read_activator {d : Design} (h : d.Sound) {id : NodeId} {n : Node} (hn : d.nodes.get? id = some n) :
    d.read n.activator = .signal n.activator 1 := by
  have hbit := (h.nodes id n hn).single _ n.activator_mem_control
  rw [Design.read, Netlist.read, hbit.widthOf]

namespace Faithful

theorem start (config : Config) : Faithful (start config) {} := ⟨.nil, .nil, .nil, fun _ hw => nomatch hw⟩

theorem place (h : Faithful d t) (hr : d.place? i = some r) : ∃ s, t.spots[i]? = some s ∧ s.Told r := by
  obtain ⟨r₀, hr₀, rfl⟩ := Option.map_eq_some_iff.1 hr
  have hrel := forall₂_getElem? h.spots i
  rw [hr₀] at hrel
  generalize t.spots[i]? = o at hrel ⊢
  cases hrel with
  | some hs => exact ⟨_, rfl, hs.arms, hs.body⟩

theorem chain (h : Faithful d t) {j : Nat} {c : Chain} (hc : d.chains[j]? = some c) :
    ∃ tests, t.chains[j]? = some tests ∧ Chain.Told d.signals tests c := by
  have hrel := forall₂_getElem? h.chains j
  rw [hc] at hrel
  generalize t.chains[j]? = o at hrel ⊢
  cases hrel with
  | some hc => exact ⟨_, rfl, hc⟩

theorem redesign (h : Faithful d t) {design : Design} (hs : SameWritten d.signals d.design design) :
    Faithful { d with design } t := ⟨h.spots, h.chains, hs ▸ h.written, h.targets⟩

theorem move (h : Faithful d t) (hr : s.Told r) (hs : SameWritten d.signals d.design r.design) :
    Faithful (d.move i r) (t.move i s) :=
  ⟨forall₂_set h.spots hr i, h.chains, hs ▸ h.written, h.targets⟩

/-- Recording goes on at the same place. -/
theorem stay (h : Faithful d t) (hi : t.spots[i]? = some s) (hr : s.Told r)
    (hs : SameWritten d.signals d.design r.design) : Faithful (d.move i r) t := by
  have hsame : t.move i s = t := by rw [Transcript.move, set_same hi]
  exact hsame ▸ h.move hr hs

theorem addPlace (h : Faithful d t) (hr : Spot.Told {} r) (hs : SameWritten d.signals d.design r.design) :
    Faithful { d with design := r.design, places := d.places ++ [r] } t.addSpot :=
  ⟨List.rel_append h.spots (.cons hr .nil), h.chains, hs ▸ h.written, h.targets⟩

theorem openChain (h : Faithful d t) {tests : List Test} {c : Chain} (hc : Chain.Told d.signals tests c) :
    Faithful (d.openChain c) (t.addChain tests) :=
  ⟨h.spots, List.rel_append h.chains (.cons hc .nil), h.written, h.targets⟩

theorem noteArm (h : Faithful d t) (tests : List Test) (j : Nat) (c : Chain) (opener : Opener) (arm : Nat × Expr)
    (hc : Chain.Told d.signals tests { c with opener, arms := c.arms ++ [arm] }) :
    Faithful (d.noteArm j c opener arm) { t with chains := t.chains.set j tests } :=
  ⟨h.spots, forall₂_set h.chains hc j, h.written, h.targets⟩

/-- Nothing has been assigned to a new signal. -/
theorem addSignal (h : Faithful d t) (hd : d.design.Sound) {s : Sig} (hs : s.id = d.design.netlist.signals.size) :
    Faithful { d with signals := d.signals ++ [s] } t := by
  refine ⟨h.spots, h.chains.imp fun tests c hc => ?_, ?_, fun w hw => List.mem_append_left _ (h.targets w hw)⟩
  · unfold Chain.Told at hc ⊢
    split at hc
    · trivial
    · exact hc
    · exact ⟨hc.1, List.mem_append_left _ hc.2⟩
  · have hsame : d.design.assigns.filter (assignsTo (d.signals ++ [s])) =
        d.design.assigns.filter (assignsTo d.signals) := by
      refine List.filter_congr fun a ha => ?_
      have hne : s.id ≠ a.target := fun he =>
        absurd (hd.targets a ha) (Nat.not_lt.2 (Nat.le_of_eq (hs.symm.trans he)))
      simp only [assignsTo, List.any_append, List.any_cons, List.any_nil, beq_false_of_ne hne, Bool.or_false]
    exact hsame ▸ h.written

theorem write (h : Faithful d t) {w : Written} {a : GuardedAssign} (hw : w.Told a) (hmem : w.target ∈ d.signals) :
    Faithful { d with design := d.design.assign a } (t.write w) := by
  refine ⟨h.spots, h.chains, ?_, forall_mem_snoc h.targets hmem⟩
  have hmine : assignsTo d.signals a = true := assignsTo_iff.2 ⟨w.target, hmem, hw.target.symm⟩
  have hsnoc : (d.design.assign a).assigns.filter (assignsTo d.signals) =
      d.design.assigns.filter (assignsTo d.signals) ++ [a] := by
    rw [Design.assign, List.filter_append, List.filter_singleton, hmine]
    rfl
  exact hsnoc ▸ List.rel_append h.written (.cons hw .nil)

theorem enterBranch (h : Faithful d t) (hr : s.Told r) (hdesign : r.design = d.design) {j : Nat} {test : Test}
    {cond : Expr} (ht : test.Asks cond) (hb : d.enterBranch i r j cond = some d') :
    Faithful d' (t.enterNext i s j test) := by
  unfold Draft.enterBranch at hb
  split at hb
  · rename_i path b arms hj
    rw [Option.ite_none_right_eq_some, Option.some.injEq] at hb
    obtain ⟨-, rfl⟩ := hb
    obtain ⟨tests, htests, conds, hasks, hcounts⟩ := h.chain hj
    have hnoticed : Noticed tests b.taken := hcounts.taken ▸ noticed_any hasks
    simp only [Transcript.enterNext, htests, Option.getD_some]
    have hmoved := h.move (i := i) (hr.enter (hnoticed.arm ht.told) b.number b.arms) (.of_assigns (by rw [← hdesign]; rfl))
    exact hmoved.noteArm (tests ++ [test]) j ⟨path, .branches b, arms⟩
      (.branches ⟨b.number, b.arms + 1, b.taken.or cond⟩) (b.arms, b.taken.not.and cond)
      ⟨conds ++ [cond], List.rel_append hasks (.cons ht .nil), hcounts.next cond⟩
  · exact nomatch hb

/-- A body is opened: the wire by which it is entered is driven, and it runs where its activator is one. -/
theorem openBody (h : Faithful d t) (hd : d.SoundDesign) (hr : s.Told r) {id : NodeId} {n : Node}
    (hn : d.design.nodes.get? id = some n) (design : Design) (value activator : Expr)
    (hassigns : design.assigns = d.design.assigns) (ha : activator = .signal n.activator 1) :
    Faithful (d.move i { r with design := design.drive n.entry value, body := some ⟨id, activator⟩ })
      (t.move i { s with body := some n.activator }) := by
  refine h.move ⟨hr.arms, ?_⟩ (sameWritten_assign (.of_assigns hassigns) hd.foreign hn
    (Node.control_subset n.entry_mem_control))
  rw [ha]
  rfl

end Faithful

/-- A machine is declared: its register is a signal of the module, as wide as the states ask. -/
theorem machine_faithful (hd : d.SoundDesign) (h : Faithful d t) (hi : t.spots[i]? = some s) (hr : s.Told r)
    (hdesign : r.design = d.design) {name : String} {states : List String} {loc : Location}
    (hop : d.operate i r (.machine name states loc) = some d') :
    Faithful d' (t.noteAt d i s (.machine name states loc)) := by
  simp only [operate, Option.bind_eq_bind, Option.bind_eq_some_iff, Option.pure_def, Option.some.injEq,
    Except.toOption_eq_some] at hop
  obtain ⟨⟨m, r'⟩, hm, rfl⟩ := hop
  obtain ⟨r₁, hs, hstates, -, -, rfl⟩ := Recording.machine_ok hm
  obtain ⟨hw, hstate, rfl⟩ := Recording.signal_ok hs
  have hroomy : Roomy m := by
    rw [Roomy, hstates, hstate]
    exact ⟨le_two_pow_widthFor _, hw⟩
  have hadded := h.addSignal (s := m.state) hd.sound (by rw [hstate, ← hdesign]; rfl)
  have hstay := hadded.stay (r := { r with
    design := (r.design.newSignal (r.scope ++ (name ++ "_state")) (Machine.widthFor states.length) .reg 0).2
    path := r.path.newChain.2 }) hi ⟨hr.arms, hr.body⟩ (.of_assigns (by rw [← hdesign]; rfl))
  have hopen : Chain.Told (d.signals ++ [m.state]) [] ⟨m.path, .machine m, []⟩ :=
    ⟨hroomy, List.mem_append_right _ (List.mem_singleton_self _)⟩
  exact hstay.openChain hopen

theorem enterState_faithful (h : Faithful d t) (hr : s.Told r) (hdesign : r.design = d.design)
    {chain : Nat} {state : String} {loc : Location}
    (hop : d.operate i r (.enterState chain state loc) = some d') :
    Faithful d' (t.noteAt d i s (.enterState chain state loc)) := by
  simp only [operate] at hop
  split at hop
  · rename_i path m arms hj
    simp only [Option.bind_eq_bind, Option.bind_eq_some_iff, Option.pure_def, Option.some.injEq,
      Except.toOption_eq_some] at hop
    obtain ⟨index, hindex, r', hr', rfl⟩ := hop
    obtain ⟨-, rfl⟩ := Recording.enterState_ok hindex hr'
    obtain ⟨tests, htests, hm⟩ := h.chain hj
    have hroomy : Roomy m := hm.1
    have hentered := hr.enter (told_state hroomy (Recording.index_lt hindex)) m.chain index
    have hmoved := h.move (i := i) hentered (.of_assigns (by rw [← hdesign]; rfl))
    have hnoted := hmoved.noteArm tests chain ⟨path, .machine m, arms⟩ (.machine m) (index, m.inState index) hm
    simp only [Transcript.move, set_same htests] at hnoted
    simp only [Transcript.noteAt, machine?, hj, ← Recording.index_eq hindex]
    exact hnoted
  · cases hop

theorem nextState_faithful (h : Faithful d t) (hi : t.spots[i]? = some s) (hr : s.Told r)
    (hdesign : r.design = d.design) {chain : Nat} {state : String} {loc : Location}
    (hop : d.operate i r (.nextState chain state loc) = some d') :
    Faithful d' (t.noteAt d i s (.nextState chain state loc)) := by
  simp only [operate] at hop
  split at hop
  · rename_i path m arms hj
    simp only [Option.bind_eq_bind, Option.bind_eq_some_iff, Option.pure_def, Option.some.injEq,
      Attempt.result?_eq_some] at hop
    obtain ⟨r', hr', rfl⟩ := hop
    obtain ⟨index, hindex, hr'⟩ := Recording.nextState_ok hr'
    obtain ⟨_, -, hm⟩ := h.chain hj
    have hmem : m.state ∈ d.signals := hm.2
    have hassign : (assignAt r .sync m.state _ loc).Gives r' := hr'
    obtain ⟨a, rfl, ha⟩ := told_assign hr hassign
    simp only [Transcript.noteAt, machine?, hj]
    rw [hdesign, ← Recording.index_eq hindex]
    exact (h.write ha hmem).stay hi ⟨hr.arms, hr.body⟩ (.of_assigns rfl)
  · cases hop

theorem openTransaction_faithful (hd : d.SoundDesign) (h : Faithful d t) (hr : s.Told r)
    (hdesign : r.design = d.design) {n : NodeId} {request : Expr} {loc : Location}
    (hop : d.operate i r (.openTransaction n request loc) = some d') :
    Faithful d' (t.noteAt d i s (.openTransaction n request loc)) := by
  simp only [operate] at hop
  split at hop
  · rename_i ht
    simp only [Option.bind_eq_bind, Option.bind_eq_some_iff, Option.pure_def, Option.some.injEq,
      Attempt.result?_eq_some] at hop
    obtain ⟨r', hr', rfl⟩ := hop
    obtain ⟨info, wanted, -, hinfo, -, rfl⟩ := Recording.openTransaction_ok hr'
    obtain ⟨node, hn⟩ : ∃ node, d.design.nodes.get? n = some node := Arena.exists_get? (by simpa [declares] using ht)
    have hkind : node.kind = .transaction info := by
      rw [Node.transaction?, kind_opened, hdesign, node_of_get? hn] at hinfo
      split at hinfo <;> simp_all
    have hentry : node.entry = info.request := by rw [Node.entry, hkind]
    have hactivator : node.activator = info.grant := by rw [Node.activator, hkind]
    have hopen := h.openBody (i := i) hd hr hn (r.opened n loc) (r.cond.and wanted) ((r.opened n loc).read info.grant)
      (by rw [← hdesign]; rfl) (by rw [← read_activator hd.sound hn, hactivator, ← hdesign]; rfl)
    rw [hentry] at hopen
    simp only [Transcript.noteAt, node_of_get? hn]
    exact ⟨hopen.spots, hopen.chains, hopen.written, hopen.targets⟩
  · cases hop

theorem openMethod_faithful (hd : d.SoundDesign) (h : Faithful d t) (hr : s.Told r)
    (hdesign : r.design = d.design) {m : NodeId} {ready : Expr} {validator : Option Validator} {loc : Location}
    (hop : d.operate i r (.openMethod m ready validator loc) = some d') :
    Faithful d' (t.noteAt d i s (.openMethod m ready validator loc)) := by
  simp only [operate, Option.bind_eq_bind, Option.bind_eq_some_iff, Option.pure_def, Option.some.injEq,
    Attempt.result?_eq_some] at hop
  obtain ⟨⟨info, r'⟩, hr', rfl⟩ := hop
  obtain ⟨old, wanted, hnew, hinfo, -, rfl, rfl⟩ := Recording.openMethod_ok hr'
  obtain ⟨node, hn, hkind⟩ : ∃ node, d.design.nodes.get? m = some node ∧ node.kind = .method old := by
    obtain ⟨node, hn, -, hk⟩ := get?_of_method hinfo
    rw [← hdesign]
    refine get?_of_kind ?_
    rw [← kind_opened r m loc, node_of_get? hn, hk]
  have hentry : node.entry = old.ready := by rw [Node.entry, hkind]
  have hactivator : node.activator = old.run := by rw [Node.activator, hkind]
  have hopen := h.openBody (i := i) hd hr hn
    ((r.opened m loc).modifyNode m fun n => { n with kind := .method { old with validator } })
    (r.cond.and wanted) ((r.opened m loc).read old.run) (by rw [← hdesign]; rfl)
    (by rw [← read_activator hd.sound hn, hactivator, ← hdesign]; rfl)
  rw [hentry] at hopen
  simp only [Transcript.noteAt, node_of_get? hn]
  exact ⟨hopen.spots, hopen.chains, hopen.written, hopen.targets⟩

theorem operate_faithful (hd : d.SoundDesign) (h : Faithful d t) (hi : t.spots[i]? = some s) (hr : s.Told r)
    (hdesign : r.design = d.design) {op : Operation} (hop : d.operate i r op = some d') :
    Faithful d' (t.noteAt d i s op) := by
  have unchanged : SameWritten d.signals d.design r.design := .of_assigns (by rw [hdesign])
  cases op with
  | submodule name loc =>
    simp only [operate, Option.bind_eq_bind, Option.bind_eq_some_iff, Option.pure_def, Option.some.injEq,
      Except.toOption_eq_some] at hop
    obtain ⟨inner, hinner, rfl⟩ := hop
    unfold Recording.openSubmodule at hinner
    split at hinner
    · cases hinner
    · rw [Except.ok.injEq] at hinner
      subst hinner
      exact h.addPlace (.fresh ..) unchanged
  | signal name width kind init loc =>
    simp only [operate, Option.bind_eq_bind, Option.bind_eq_some_iff, Option.pure_def, Option.some.injEq,
      Except.toOption_eq_some] at hop
    obtain ⟨⟨s', r'⟩, hs', rfl⟩ := hop
    obtain ⟨-, rfl, rfl⟩ := Recording.signal_ok hs'
    have hadded := h.addSignal (s := ⟨(r.design.newSignal (r.scope ++ name) width kind init).1, width, kind⟩)
      hd.sound (by rw [newSignal_fst, hdesign])
    exact hadded.stay (r := { r with design := (r.design.newSignal (r.scope ++ name) width kind init).2 }) hi
      ⟨hr.arms, hr.body⟩ (.of_assigns (by rw [← hdesign]; rfl))
  | assign mode target value loc =>
    simp only [operate, Option.bind_eq_bind, Option.bind_eq_some_iff, Option.pure_def, Option.some.injEq,
      Attempt.result?_eq_some] at hop
    obtain ⟨target', htarget, r', hr', rfl⟩ := hop
    obtain ⟨a, rfl, ha⟩ := told_assign hr hr'
    simp only [Transcript.noteAt, htarget]
    rw [hdesign]
    exact (h.write ha (List.mem_of_getElem? htarget)).stay hi ⟨hr.arms, hr.body⟩ (.of_assigns rfl)
  | «when» cond =>
    simp only [operate, Option.bind_eq_bind, Option.bind_eq_some_iff, Option.pure_def, Option.some.injEq,
      Except.toOption_eq_some] at hop
    obtain ⟨wanted, hw, rfl⟩ := hop
    have hnext : s.Told r.newChain.2 := ⟨hr.arms, hr.body⟩
    exact (h.move (i := i) (hnext.enter (told_first (told_nonzero hw)) r.newChain.1 0) unchanged).openChain trivial
  | branches =>
    simp only [operate, Option.some.injEq] at hop
    subst hop
    have hopen : Chain.Told d.signals [] ⟨r.path.current, .branches { number := r.newChain.1 }, []⟩ :=
      ⟨[], .nil, rfl, rfl, rfl, fun k _ hk => absurd (List.getElem?_eq_some_iff.1 hk).1 (Nat.not_lt_zero k)⟩
    exact (h.stay (r := r.newChain.2) hi ⟨hr.arms, hr.body⟩ unchanged).openChain hopen
  | branch chain cond =>
    simp only [operate, Option.bind_eq_bind, Option.bind_eq_some_iff, Except.toOption_eq_some] at hop
    obtain ⟨wanted, hw, hop⟩ := hop
    exact h.enterBranch hr hdesign (show Test.Asks (.nonzero cond) wanted from hw) hop
  | case chain sel values =>
    simp only [operate, Option.bind_eq_bind, Option.bind_eq_some_iff, Except.toOption_eq_some] at hop
    obtain ⟨wanted, hw, hop⟩ := hop
    exact h.enterBranch hr hdesign (show Test.Asks (.oneOf sel values) wanted from hw) hop
  | otherwise chain => exact h.enterBranch hr hdesign (show Test.Asks .always .one from rfl) hop
  | leave =>
    simp only [operate, Option.some.injEq] at hop
    subst hop
    exact h.move hr.leave unchanged
  | machine name states loc => exact machine_faithful hd h hi hr hdesign hop
  | enterState chain state loc => exact enterState_faithful h hr hdesign hop
  | nextState chain state loc => exact nextState_faithful h hi hr hdesign hop
  | openTransaction n request loc => exact openTransaction_faithful hd h hr hdesign hop
  | openMethod m ready validator loc => exact openMethod_faithful hd h hr hdesign hop
  | leaveBody =>
    simp only [operate, Option.some.injEq] at hop
    subst hop
    exact h.move ⟨hr.arms, rfl⟩ unchanged
  | closeMethod body result loc =>
    simp only [operate, Option.bind_eq_bind, Option.bind_eq_some_iff, Option.pure_def, Option.some.injEq,
      Attempt.result?_eq_some] at hop
    obtain ⟨⟨m, info⟩, hm, r', hr', rfl⟩ := hop
    rcases Recording.closeMethod_ok hr' with rfl | ⟨bus, hbus, rfl⟩
    · exact h.stay hi hr unchanged
    · obtain ⟨n, hn, hwire, -⟩ := hd.results _ (List.mem_of_getElem? hm) bus hbus
      exact h.stay hi ⟨hr.arms, hr.body⟩ (sameWritten_assign unchanged hd.foreign hn hwire)
  | call m arg enable loc =>
    simp only [operate, Option.bind_eq_bind, Option.bind_eq_some_iff, Option.pure_def, Option.some.injEq,
      Attempt.result?_eq_some] at hop
    obtain ⟨⟨out, r'⟩, hr', rfl⟩ := hop
    obtain ⟨frame, site, enabled, -, -, -, -, -, -, -, rfl⟩ := Recording.call_ok hr'
    have hstay := h.stay (r := { r with design := r.design.modifyNode frame.node fun n =>
      { n with calls := Recording.addSite n.calls m site } }) hi ⟨hr.arms, hr.body⟩ unchanged
    exact ⟨hstay.spots, hstay.chains, hstay.written, hstay.targets⟩

theorem step_faithful (hd : d.SoundDesign) (h : Faithful d t) {action : Action} (hs : d.step action = some d') :
    Faithful d' (t.note d action) := by
  cases action with
  | transaction name loc =>
    simp only [step, Option.some.injEq] at hs
    subst hs
    exact h.redesign (.of_assigns rfl)
  | method decl loc =>
    simp only [step, Option.bind_eq_bind, Option.bind_eq_some_iff, Option.pure_def, Option.some.injEq,
      Attempt.result?_eq_some] at hs
    obtain ⟨⟨m, design⟩, hm, rfl⟩ := hs
    obtain ⟨d₁, _, _, _, hw, he, -⟩ := addMethod_adds d.design decl loc
    rw [← declareMethod_ok hm] at he
    exact h.redesign (.of_assigns (by rw [he]; exact hw.assigns))
  | conflict a b priority loc =>
    simp only [step, Option.ite_none_right_eq_some, Option.some.injEq] at hs
    obtain ⟨-, rfl⟩ := hs
    exact h.redesign (.of_assigns rfl)
  | before a b silenced loc =>
    simp only [step, Option.ite_none_right_eq_some, Option.some.injEq] at hs
    obtain ⟨-, rfl⟩ := hs
    exact h.redesign (.of_assigns rfl)
  | simultaneous a others =>
    simp only [step, Option.ite_none_right_eq_some, Option.some.injEq] at hs
    obtain ⟨-, rfl⟩ := hs
    exact h.redesign (.of_assigns rfl)
  | alternatives a others =>
    simp only [step, Option.ite_none_right_eq_some, Option.some.injEq] at hs
    obtain ⟨-, rfl⟩ := hs
    refine h.redesign (.of_assigns ?_)
    unfold Design.simultaneousAlternatives
    cases others <;> rfl
  | openModule scope =>
    simp only [step, Option.some.injEq] at hs
    subst hs
    exact h.addPlace (.fresh ..) (.of_assigns rfl)
  | inModule i op =>
    simp only [step, Option.bind_eq_bind, Option.bind_eq_some_iff] at hs
    obtain ⟨r, hr, hop⟩ := hs
    obtain ⟨s, hi, hsr⟩ := h.place hr
    simp only [Transcript.note, hi]
    exact operate_faithful hd h hi hsr (place?_design hr) hop

/-- The transcript of every sequence of actions is true of the draft that they lead to. -/
theorem transcript_faithful {config : Config} {actions : List Action} (h : (Draft.start config).run actions = some d) :
    Faithful d (transcript config actions) := by
  refine (transcript_induct (P := fun d t => d.SoundDesign ∧ Faithful d t) (fun config => ?_)
    (fun d d' t action hd hs => ⟨step_soundDesign hd.1 hs, step_faithful hd.1 hd.2 hs⟩) h).2
  exact ⟨Recorded.soundDesign ⟨config, [], rfl⟩, .start config⟩

end Interlock.Draft
