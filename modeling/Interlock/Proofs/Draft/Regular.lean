import Interlock.Proofs.Design.Regular
import Interlock.Proofs.Draft.Design

/-! Recording keeps to the rules of netlists: a signal is known by its width and kind, and is assigned to in the
domain of its kind only. -/

namespace Interlock.Draft

open Design

/-- What a draft keeps of the signals that it assigns to. -/
structure RegularKept (d : Design) (signals : List Sig) (chains : List Chain)
    (bodies : List (NodeId × MethodInfo)) : Prop where
  regular : d.Regular
  signals : ∀ s ∈ signals, ∃ g, d.netlist.signals.get? s.id = some g ∧ g.width = s.width ∧ g.kind = s.kind
  states : ∀ c ∈ chains, ∀ m, c.opener = .machine m → d.netlist.Accepts m.state.id .sync
  results : ∀ b ∈ bodies, ∀ bus, b.2.dataOut = some bus → d.netlist.Accepts bus .comb

variable {d d' : Design} {signals : List Sig} {chains chains' : List Chain}
  {bodies : List (NodeId × MethodInfo)}

theorem RegularKept.keeps (h : RegularKept d signals chains bodies) (hk : Retains d d') (hr : d'.Regular) :
    RegularKept d' signals chains bodies := by
  refine ⟨hr, fun s hs => ?_, fun c hc m hm => hk.accepts (h.states c hc m hm),
    fun b hb bus hbus => hk.accepts (h.results b hb bus hbus)⟩
  obtain ⟨g, hg, hsame⟩ := h.signals s hs
  exact ⟨g, hk _ g hg, hsame⟩

/-- Changes that leave the signals alone. -/
theorem RegularKept.same (h : RegularKept d signals chains bodies) (hr : d'.Regular)
    (hs : d'.netlist.signals = d.netlist.signals) : RegularKept d' signals chains bodies :=
  h.keeps (fun x s hx => by rwa [hs]) hr

/-- Another chain, or another in the place of one, whose machines are among those that were there. -/
theorem RegularKept.rechain (h : RegularKept d signals chains bodies)
    (hc : ∀ c ∈ chains', ∀ m, c.opener = .machine m → d.netlist.Accepts m.state.id .sync) :
    RegularKept d signals chains' bodies := ⟨h.regular, h.signals, hc, h.results⟩

theorem RegularKept.assign (h : RegularKept d signals chains bodies) {a : GuardedAssign}
    (ha : d.netlist.Accepts a.target a.domain) : RegularKept (d.assign a) signals chains bodies :=
  h.same (h.regular.assign ha) rfl

theorem RegularKept.signal (h : RegularKept d signals chains bodies) (name : String) {width : Nat}
    (kind : SignalKind) (init : Word) (hw : width ≤ maxWidth) {s : Sig}
    (hs : s = ⟨(d.newSignal name width kind init).1, width, kind⟩) :
    RegularKept (d.newSignal name width kind init).2 (signals ++ [s]) chains bodies := by
  have h₁ := h.keeps (newSignal_widens d name width kind init).signals (h.regular.newSignal name kind init hw)
  obtain ⟨g, hg, hsame⟩ := exists_newSignal d name width kind init
  subst hs
  exact ⟨h₁.regular, forall_mem_snoc h₁.signals ⟨g, hg, hsame⟩, h₁.states, h₁.results⟩

theorem accepts_assignable {n : Netlist} {x : SignalId} {g : Signal} {domain : Domain}
    (hg : n.signals.get? x = some g) (hk : g.kind = Recording.assignable domain) : n.Accepts x domain := by
  refine ⟨g, hg, ?_⟩
  rw [hk]
  cases domain <;> rfl

theorem RegularKept.opened {r : Recording} (h : RegularKept r.design signals chains bodies) (id : NodeId)
    (loc : Location) : RegularKept (r.opened id loc) signals chains bodies := by
  have h₁ : Regular { r.design with nextDefOrder := r.design.nextDefOrder + 1 } := h.regular.same rfl rfl rfl
  exact h.same (h₁.sameKind id fun _ => rfl) rfl

/-- The body of a method gets a validator, and is noted. -/
theorem RegularKept.openMethod (h : RegularKept d signals chains bodies) {m : NodeId} {old : MethodInfo}
    (hold : (d.node m).kind = .method old) (validator : Option Validator) :
    RegularKept (d.modifyNode m fun n => { n with kind := .method { old with validator } }) signals chains
      (bodies ++ [(m, { old with validator })]) := by
  obtain ⟨n, hn, hkind⟩ := get?_of_kind hold
  have hnode := h.regular.nodes m n hn
  have hbuses : ∀ x ∈ old.dataIn.toList ++ old.dataOut.toList, d.netlist.Accepts x .comb := fun x hx =>
    hnode.buses x (by rw [Node.buses, hkind]; exact hx)
  have h₁ := h.same (h.regular.modifyNode m (f := fun n => { n with kind := .method { old with validator } })
    fun _ _ _ => ⟨hbuses, fun info hinfo => by
      obtain rfl := NodeKind.method.inj hinfo
      exact hnode.input old hkind⟩) rfl
  refine ⟨h₁.regular, h₁.signals, h₁.states, forall_mem_snoc h₁.results fun bus hbus => ?_⟩
  exact hbuses bus (List.mem_append_right _ (Option.mem_toList.2 hbus))

/-- What a draft keeps to. -/
def RegularDesign (d : Draft) : Prop := RegularKept d.design d.signals d.chains d.bodies

theorem effect_regular {d d' : Draft} (hs : d.design.Sound) (h : d.RegularDesign) {i : Nat} {r : Recording}
    (hr : r.design = d.design) {op : Operation} (he : Effect d i r op d') : d'.RegularDesign := by
  have hs : r.design.Sound := hr ▸ hs
  have hd : RegularKept r.design d.signals d.chains d.bodies := by rw [hr]; exact h
  have of_other : ∀ {c : Chain}, (∀ m, c.opener ≠ .machine m) →
      ∀ c' ∈ d.chains ++ [c], ∀ m, c'.opener = .machine m → r.design.netlist.Accepts m.state.id .sync :=
    fun hc => forall_mem_snoc hd.states fun m hm => absurd hm (hc m)
  cases he with
  | submodule scope => exact hd.same (hd.regular.same rfl rfl rfl) rfl
  | signal name width kind init hw => exact hd.signal name kind init hw rfl
  | assign s guard value domain hs hkind =>
    obtain ⟨g, hg, -, hk⟩ := hd.signals s hs
    exact hd.assign (accepts_assignable hg (hk.trans hkind))
  | «when» wanted hw => exact hd.rechain (of_other fun m hm => nomatch hm)
  | branches => exact hd.rechain (of_other fun m hm => nomatch hm)
  | branch j b arms cond hj hw =>
    exact hd.rechain (forall_mem_set hd.states fun m hm => nomatch hm)
  | leave => exact hd
  | machine name m hw hstates hstate hchain hpath =>
    have h₁ := hd.signal name .reg 0 hw hstate
    refine h₁.rechain (forall_mem_snoc h₁.states fun m' hm' => ?_)
    obtain rfl := Opener.machine.inj hm'
    obtain ⟨g, hg, -, hk⟩ := h₁.signals m.state (List.mem_append_right _ (List.mem_singleton_self _))
    exact accepts_assignable hg (hk.trans (by rw [hstate]; rfl))
  | state j path m arms index hj hpath hi =>
    exact hd.rechain (forall_mem_set hd.states fun m' hm' => hd.states _ (List.mem_of_getElem? hj) m' hm')
  | next c m guard value hc hm => exact hd.assign (hd.states c hc m hm)
  | openTransaction t loc info wanted ht hnew hinfo =>
    obtain ⟨n, hn⟩ := Arena.exists_get? ht
    have hbit := (hs.nodes t n hn).single info.request (by
      rw [Node.control, ← node_of_get? hn, hinfo]
      exact List.mem_cons_self ..)
    exact (hd.opened t loc).assign (a := ⟨info.request, .one, _, .comb⟩) hbit.accepts
  | openMethod m loc old validator wanted activator hnew hinfo =>
    obtain ⟨n, hn, hkind⟩ := get?_of_kind hinfo
    have hbit := (hs.nodes m n hn).single old.ready (by
      rw [Node.control, hkind]
      exact List.mem_append_left _ (List.mem_cons_self ..))
    exact ((hd.opened m loc).openMethod ((kind_opened r m loc m).trans hinfo) validator).assign
      (a := ⟨old.ready, .one, _, .comb⟩) hbit.accepts
  | leaveBody => exact hd
  | closeMethod m info bus value hm hbus => exact hd.assign (hd.results _ hm bus hbus)
  | stay => exact hd
  | call m frame site enabled hbody hpath henable hw hapart hcallee =>
    exact hd.same (hd.regular.sameKind frame.node fun _ => rfl) rfl

theorem step_regular {d d' : Draft} {action : Action} (hs : d.design.Sound) (h : d.RegularDesign)
    (hd : d.step action = some d') : d'.RegularDesign := by
  cases action with
  | transaction name loc =>
    simp only [step, Option.some.injEq] at hd
    subst hd
    obtain ⟨d₁, _, _, _, hw, he, -⟩ := declareTransaction_adds d.design name loc
    refine RegularKept.keeps h (fun x s hx => ?_) (declareTransaction_regular h.regular name loc)
    rw [he]
    exact hw.signals x s hx
  | method decl loc =>
    simp only [step, Option.bind_eq_bind, Option.bind_eq_some_iff, Option.pure_def, Option.some.injEq,
      Attempt.result?_eq_some] at hd
    obtain ⟨⟨m, design⟩, hm, rfl⟩ := hd
    obtain ⟨d₁, _, _, _, hw, he, -⟩ := addMethod_adds d.design decl loc
    rw [← declareMethod_ok hm] at he
    refine RegularKept.keeps h (fun x s hx => ?_) (declareMethod_regular h.regular hm)
    rw [he]
    exact hw.signals x s hx
  | conflict a b priority loc =>
    simp only [step, Option.ite_none_right_eq_some, Option.some.injEq] at hd
    obtain ⟨-, rfl⟩ := hd
    exact RegularKept.same h (h.regular.same rfl rfl rfl) rfl
  | before a b silenced loc =>
    simp only [step, Option.ite_none_right_eq_some, Option.some.injEq] at hd
    obtain ⟨-, rfl⟩ := hd
    exact RegularKept.same h (h.regular.same rfl rfl rfl) rfl
  | simultaneous a others =>
    simp only [step, Option.ite_none_right_eq_some, Option.some.injEq] at hd
    obtain ⟨-, rfl⟩ := hd
    exact RegularKept.same h (h.regular.sameKind a fun _ => rfl) rfl
  | alternatives a others =>
    simp only [step, Option.ite_none_right_eq_some, Option.some.injEq] at hd
    obtain ⟨-, rfl⟩ := hd
    have hregular : (d.design.simultaneousAlternatives a others).Regular :=
      alternatives_induct d.design a others (h.regular.sameKind a fun _ => rfl) fun _ first _ hr =>
        hr.sameKind first fun _ => rfl
    exact RegularKept.same h hregular (congrArg (·.signals) (netlist_alternatives ..))
  | openModule scope =>
    simp only [step, Option.some.injEq] at hd
    subst hd
    exact RegularKept.same h (h.regular.same rfl rfl rfl) rfl
  | inModule i op =>
    simp only [step, Option.bind_eq_bind, Option.bind_eq_some_iff] at hd
    obtain ⟨r, hr, hop⟩ := hd
    have hrd := place?_design hr
    exact effect_regular hs h hrd (operate_effect hrd hop)

theorem Recorded.regularDesign {d : Draft} (h : d.Recorded) : d.RegularDesign := by
  suffices hall : d.SoundDesign ∧ d.RegularDesign from hall.2
  refine h.induct (P := fun d => d.SoundDesign ∧ d.RegularDesign) (fun config => ?_) fun d d' action hd hstep =>
    ⟨step_soundDesign hd.1 hstep, step_regular hd.1.sound hd.2 hstep⟩
  refine ⟨⟨Sound.start config, fun s hs => (nomatch hs), fun c hc => (nomatch hc), fun b hb => (nomatch hb)⟩,
    ⟨⟨fun x s hx => ?_, fun a ha => (nomatch ha), fun i n hn => ?_⟩, fun s hs => (nomatch hs),
      fun c hc => (nomatch hc), fun b hb => (nomatch hb)⟩⟩
  · simp [start, Arena.get?] at hx
  · simp [start, Arena.get?] at hn

/-- The design of every recorded draft keeps to the rules. -/
theorem Recorded.regular {d : Draft} (h : d.Recorded) : d.design.Regular := h.regularDesign.regular

end Interlock.Draft
