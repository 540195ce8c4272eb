import Interlock.Proofs.Design.Declare
import Interlock.Proofs.Draft.Effect

/-! The design of a draft is sound, whatever is recorded: the signals of modules are not wires of nodes,
and what recording assigns to a node is left to recording. -/

namespace Interlock.Draft

open Design

/-- What a draft keeps of its design, signals and bodies. -/
structure DesignKept (d : Design) (signals : List Sig) (chains : List Chain)
    (bodies : List (NodeId × MethodInfo)) : Prop where
  sound : d.Sound
  foreign : ∀ s ∈ signals, d.Foreign s.id
  states : ∀ c ∈ chains, ∀ m, c.opener = .machine m → d.Foreign m.state.id
  results : ∀ b ∈ bodies, ∀ bus, b.2.dataOut = some bus → d.Recordable b.1 bus

variable {d d' : Design} {signals : List Sig} {chains chains' : List Chain}
  {bodies : List (NodeId × MethodInfo)}

theorem DesignKept.grows (h : DesignKept d signals chains bodies) (hg : Grows d d') (hs : d'.Sound) :
    DesignKept d' signals chains bodies :=
  ⟨hs, fun s hm => (h.foreign s hm).grows hg, fun c hc m hm => (h.states c hc m hm).grows hg,
    fun b hb bus hbus => (h.results b hb bus hbus).grows hg⟩

theorem DesignKept.widens (h : DesignKept d signals chains bodies) (hw : Widens d d') :
    DesignKept d' signals chains bodies := h.grows hw.grows (h.sound.widens hw)

theorem DesignKept.assign (h : DesignKept d signals chains bodies) {a : GuardedAssign}
    (hs : (d.assign a).Sound) : DesignKept (d.assign a) signals chains bodies :=
  h.grows (assign_grows d a) hs

/-- Other chains, whose machines have registers of their own as well. -/
theorem DesignKept.rechain (h : DesignKept d signals chains bodies)
    (hc : ∀ c' ∈ chains', ∀ m, c'.opener = .machine m → d.Foreign m.state.id) :
    DesignKept d signals chains' bodies := ⟨h.sound, h.foreign, hc, h.results⟩

theorem foreign_newSignal (h : d.Sound) (name : String) (width : Nat) (kind : SignalKind) (init : Word) :
    (d.newSignal name width kind init).2.Foreign (d.newSignal name width kind init).1 := by
  refine ⟨?_, fun i n hn hx => ?_⟩
  · rw [newSignal_fst, size_newSignal]
    exact Nat.lt_succ_self _
  · exact absurd ((h.nodes i n hn).declared _ hx) (Nat.lt_irrefl _)

theorem DesignKept.signal (h : DesignKept d signals chains bodies) (name : String) (width : Nat)
    (kind : SignalKind) (init : Word) {s : Sig} (hs : s.id = (d.newSignal name width kind init).1) :
    DesignKept (d.newSignal name width kind init).2 (signals ++ [s]) chains bodies := by
  have hw := h.widens (newSignal_widens d name width kind init)
  refine ⟨hw.sound, fun s' hs' => ?_, hw.states, hw.results⟩
  rcases List.mem_append.1 hs' with hs' | hs'
  · exact hw.foreign s' hs'
  · rw [List.mem_singleton.1 hs', hs]
    exact foreign_newSignal h.sound ..

/-- The design in which a body begins. -/
theorem DesignKept.opened {r : Recording} (h : DesignKept r.design signals chains bodies) (id : NodeId)
    (loc : Location) : DesignKept (r.opened id loc) signals chains bodies := by
  have hw : Widens r.design { r.design with nextDefOrder := r.design.nextDefOrder + 1 } :=
    ⟨rfl, rfl, rfl, rfl, rfl, Nat.le_refl _, fun _ _ h => h⟩
  have h₁ := h.widens hw
  have hf : Mild _ id (fun n : Node => { n with
      defOrder := some r.design.nextDefOrder
      defLoc := some loc
      path := some r.path.current }) :=
    h₁.sound.mild id (fun _ => rfl) (fun _ => rfl) fun _ => rfl
  exact h₁.grows hf.grows (hf.sound h₁.sound)

theorem get?_of_kind {d : Design} {i : NodeId} {info : MethodInfo} (h : (d.node i).kind = .method info) :
    ∃ n, d.nodes.get? i = some n ∧ n.kind = .method info := by
  unfold Design.node at h
  cases hn : d.nodes.get? i with
  | none =>
    rw [hn] at h
    exact nomatch h
  | some n =>
    rw [hn] at h
    exact ⟨n, rfl, h⟩

/-- The body of a method gets a validator, and its condition. -/
theorem DesignKept.openMethod (h : DesignKept d signals chains bodies) {m : NodeId} {old : MethodInfo}
    (hold : (d.node m).kind = .method old) (validator : Option Validator) (value : Expr) :
    DesignKept ((d.modifyNode m fun n => { n with kind := .method { old with validator } }).drive old.ready value)
      signals chains (bodies ++ [(m, { old with validator })]) := by
  obtain ⟨n, hn, hkind⟩ := get?_of_kind hold
  have hsame : ∀ n', d.nodes.get? m = some n' →
      ({ n' with kind := .method { old with validator } } : Node).control = n'.control ∧
      ({ n' with kind := .method { old with validator } } : Node).wires = n'.wires ∧
      ({ n' with kind := .method { old with validator } } : Node).generated = n'.generated := by
    intro n' hn'
    obtain rfl : n = n' := Option.some.inj (hn.symm.trans hn')
    simp only [Node.control, Node.wires, Node.buses, Node.generated, hkind, and_self]
  have hs : (d.modifyNode m fun n => { n with kind := .method { old with validator } }).Sound := by
    apply h.sound.modifyNode m
    intro n' hn'
    obtain ⟨hid, hnodup, hdecl, hsingle, hsim, hfused⟩ := h.sound.nodes m n' hn'
    obtain ⟨hc, hw, hg⟩ := hsame n' hn'
    refine ⟨⟨hid, hw ▸ hnodup, hw ▸ hdecl, hc ▸ hsingle, hsim, fun info hinfo o ho => ?_⟩, hw, ?_⟩
    · obtain rfl : n = n' := Option.some.inj (hn.symm.trans hn')
      obtain rfl : { old with validator } = info := by simpa using hinfo
      exact hfused old hkind o ho
    · rw [hg]
      exact fun x hx => hx
  have h₁ := h.grows (modifyNode_grows d m fun n' hn' =>
    ⟨(hsame n' hn').2.1, fun x hx => (hsame n' hn').2.2 ▸ hx⟩) hs
  have hget : (d.modifyNode m fun n => { n with kind := .method { old with validator } }).nodes.get? m =
      some { n with kind := .method { old with validator } } := by
    rw [get?_modifyNode, if_pos rfl, hn, Option.map_some]
  have h₂ := h₁.assign (a := ⟨old.ready, .one, value, .comb⟩)
    (hs.assignRecordable (i := m) (entry_recordable hs hget))
  refine ⟨h₂.sound, h₂.foreign, h₂.states, fun b hb bus hbus => ?_⟩
  rcases List.mem_append.1 hb with hb | hb
  · exact h₂.results b hb bus hbus
  · rw [List.mem_singleton] at hb
    subst hb
    exact result_recordable hs hget rfl hbus

/-- The design of a draft, and what it says of the draft's signals and bodies. -/
def SoundDesign (d : Draft) : Prop := DesignKept d.design d.signals d.chains d.bodies

theorem newModule_widens (d : Design) : Widens d { d with nextModule := d.nextModule + 1 } :=
  ⟨rfl, rfl, rfl, rfl, rfl, Nat.le_refl _, fun _ _ h => h⟩

theorem effect_soundDesign {d d' : Draft} (h : d.SoundDesign) {i : Nat} {r : Recording}
    (hr : r.design = d.design) {op : Operation} (he : Effect d i r op d') : d'.SoundDesign := by
  have hd : DesignKept r.design d.signals d.chains d.bodies := by rw [hr]; exact h
  have of_machine : ∀ {c : Chain}, (∀ m, c.opener ≠ .machine m) →
      ∀ c' ∈ d.chains ++ [c], ∀ m, c'.opener = .machine m → r.design.Foreign m.state.id := by
    intro c hc c' hc' m hm
    rcases List.mem_append.1 hc' with hc' | hc'
    · exact hd.states c' hc' m hm
    · rw [List.mem_singleton.1 hc'] at hm
      exact absurd hm (hc m)
  cases he with
  | submodule scope => exact hd.widens (newModule_widens r.design)
  | signal name width kind init hw => exact hd.signal name width kind init rfl
  | assign s guard value domain hs hkind => exact hd.assign (hd.sound.assignForeign (hd.foreign s hs))
  | «when» wanted hw => exact hd.rechain (of_machine fun m hm => nomatch hm)
  | branches => exact hd.rechain (of_machine fun m hm => nomatch hm)
  | branch j b arms cond hj hw =>
    apply hd.rechain
    intro c hc m hm
    rcases List.mem_or_eq_of_mem_set hc with hc | rfl
    · exact hd.states c hc m hm
    · exact nomatch hm
  | leave => exact hd
  | machine name m hw hstates hstate hchain hpath =>
    have hs := hd.signal name m.state.width .reg 0 (s := m.state) (by rw [hstate])
    apply hs.rechain
    intro c hc m' hm'
    rcases List.mem_append.1 hc with hc | hc
    · exact hs.states c hc m' hm'
    · rw [List.mem_singleton.1 hc, Opener.machine.injEq] at hm'
      rw [← hm']
      exact hs.foreign m.state (List.mem_append_right _ (List.mem_singleton_self _))
  | state j path m arms index hj hpath hi =>
    apply hd.rechain
    intro c hc m' hm'
    rcases List.mem_or_eq_of_mem_set hc with hc | rfl
    · exact hd.states c hc m' hm'
    · exact hd.states _ (List.mem_of_getElem? hj) m' hm'
  | next c m guard value hc hm => exact hd.assign (hd.sound.assignForeign (hd.states c hc m hm))
  | openTransaction t loc info wanted ht hnew hinfo =>
    have h₁ := hd.opened t loc
    obtain ⟨n, hn⟩ := Arena.exists_get? (a := (r.opened t loc).nodes) (i := t) (by simpa [Recording.opened] using ht)
    have hkind : n.kind = .transaction info := by
      rw [← hinfo, ← kind_opened r t loc t]
      unfold Design.node
      rw [hn, Option.getD_some]
    have hentry := entry_recordable h₁.sound hn
    simp only [Node.entry, hkind] at hentry
    exact h₁.assign (h₁.sound.assignRecordable hentry)
  | openMethod m loc old validator wanted activator hnew hinfo =>
    exact (hd.opened m loc).openMethod ((kind_opened r m loc m).trans hinfo) validator _
  | leaveBody => exact hd
  | closeMethod m info bus value hm hbus =>
    exact hd.assign (hd.sound.assignRecordable (hd.results _ hm bus hbus))
  | stay => exact hd
  | call m frame site enabled hbody hpath henable hw hapart =>
    have hf : Mild r.design frame.node (fun n : Node => { n with calls := Recording.addSite n.calls m site }) :=
      hd.sound.mild frame.node (fun _ => rfl) (fun _ => rfl) fun _ => rfl
    exact hd.grows hf.grows (hf.sound hd.sound)

theorem step_soundDesign {d d' : Draft} {action : Action} (h : d.SoundDesign)
    (hd : d.step action = some d') : d'.SoundDesign := by
  cases action with
  | transaction name loc =>
    simp only [step, Option.some.injEq] at hd
    subst hd
    have ha := declareTransaction_adds d.design name loc
    exact DesignKept.grows h ha.grows (ha.sound h.sound)
  | method decl loc =>
    simp only [step, Option.bind_eq_bind, Option.bind_eq_some_iff, Option.pure_def, Option.some.injEq,
      Attempt.result?_eq_some] at hd
    obtain ⟨⟨m, design⟩, hm, rfl⟩ := hd
    have ha := addMethod_adds d.design decl loc
    rw [← declareMethod_ok hm] at ha
    exact DesignKept.grows h ha.grows (ha.sound h.sound)
  | conflict a b priority loc =>
    simp only [step, Option.ite_none_right_eq_some, Option.some.injEq] at hd
    obtain ⟨hab, rfl⟩ := hd
    simp only [declares, List.all_cons, List.all_nil, Bool.and_true, Bool.and_eq_true, decide_eq_true_eq] at hab
    exact DesignKept.grows h (.of_nodes rfl (Nat.le_refl _)) (h.sound.relate hab.1 hab.2)
  | before a b silenced loc =>
    simp only [step, Option.ite_none_right_eq_some, Option.some.injEq] at hd
    obtain ⟨hab, rfl⟩ := hd
    simp only [declares, List.all_cons, List.all_nil, Bool.and_true, Bool.and_eq_true, decide_eq_true_eq] at hab
    exact DesignKept.grows h (.of_nodes rfl (Nat.le_refl _)) (h.sound.relate hab.1 hab.2)
  | simultaneous a others =>
    simp only [step, Option.ite_none_right_eq_some, Option.some.injEq] at hd
    obtain ⟨hall, rfl⟩ := hd
    simp only [declares, List.all_cons, Bool.and_eq_true, decide_eq_true_eq, List.all_eq_true] at hall
    have hf := simultaneous_mild h.sound a hall.2
    exact DesignKept.grows h hf.grows (hf.sound h.sound)
  | alternatives a others =>
    simp only [step, Option.ite_none_right_eq_some, Option.some.injEq] at hd
    obtain ⟨hall, rfl⟩ := hd
    simp only [declares, List.all_cons, Bool.and_eq_true, decide_eq_true_eq, List.all_eq_true] at hall
    have hf := simultaneous_mild h.sound a hall.2
    refine alternatives_induct (P := fun design => DesignKept design d.signals d.chains d.bodies) d.design a others
      (DesignKept.grows h hf.grows (hf.sound h.sound)) fun design first rest h₁ => ?_
    have hf' : Mild design first (fun n : Node => { n with independent := n.independent ++ rest }) :=
      h₁.sound.mild first (fun _ => rfl) (fun _ => rfl) fun _ => rfl
    exact h₁.grows hf'.grows (hf'.sound h₁.sound)
  | openModule scope =>
    simp only [step, Option.some.injEq] at hd
    subst hd
    exact DesignKept.widens h (newModule_widens d.design)
  | inModule i op =>
    simp only [step, Option.bind_eq_bind, Option.bind_eq_some_iff] at hd
    obtain ⟨r, hr, hop⟩ := hd
    have hrd := place?_design hr
    exact effect_soundDesign h hrd (operate_effect hrd hop)

theorem Recorded.soundDesign {d : Draft} (h : d.Recorded) : d.SoundDesign := by
  refine h.induct (fun config => ?_) fun d d' action hd hstep => step_soundDesign hd hstep
  exact ⟨Sound.start config, fun s hs => (nomatch hs), fun c hc => (nomatch hc), fun b hb => (nomatch hb)⟩

/-- The design of every recorded draft is sound. -/
theorem Recorded.sound {d : Draft} (h : d.Recorded) : d.design.Sound := h.soundDesign.sound

end Interlock.Draft
