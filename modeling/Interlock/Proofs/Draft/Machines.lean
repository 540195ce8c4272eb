import Interlock.Proofs.Design.Regular
import Interlock.Proofs.Draft.Effect
import Interlock.Proofs.Draft.Guards

/-! The machines of a draft. Each is created once, with a register of its own, and no action changes it afterwards.
What the transcript notes of an assignment is either named by an action or a move of a machine to one of its states;
so only moves go to a register that no action names. -/

namespace Interlock

/-- The word that stands for a state in the register. -/
def Machine.code (m : Machine) (state : String) : Word := UInt64.ofNat (m.states.idxOf state)

namespace Draft

open Design

variable {d d' : Draft} {i : Nat} {r : Recording}

/-! ### What an action does to machines -/

def Opener.machine? : Opener → Option Machine
  | machine m => some m
  | _ => none

/-- The machines of the chains, where they have one. -/
def machines (d : Draft) : List (Option Machine) := d.chains.map (·.opener.machine?)

theorem machine?_eq_some {chain : Nat} {m : Machine} : d.machine? chain = some m ↔ d.machines[chain]? = some (some m) := by
  rw [machines, List.getElem?_map, machine?]
  rcases d.chains[chain]? with _ | ⟨path, opener, arms⟩
  · simp
  · cases opener <;> simp [Opener.machine?]

/-- An arm is noted for a chain that remains what it is. -/
theorem machines_noteArm {chain : Nat} {c : Chain} {opener : Opener} {arm : Nat × Expr} (hc : d.chains[chain]? = some c)
    (ho : opener.machine? = c.opener.machine?) : (d.noteArm chain c opener arm).machines = d.machines := by
  obtain ⟨hlt, rfl⟩ := List.getElem?_eq_some_iff.1 hc
  rw [machines, noteArm, List.map_set, ho]
  exact List.map_set.symm.trans (congrArg _ (List.set_getElem_self hlt))

/-- A machine as it is created: there is a state to start in, and the register is a signal of a module that starts at
zero and holds the positions of all states. -/
structure Founded (d : Draft) (m : Machine) : Prop where
  nonempty : m.states ≠ []
  roomy : Roomy m
  listed : m.state ∈ d.signals
  register : ∃ s, d.design.netlist.signals.get? m.state.id = some s ∧ s.kind = .reg ∧ s.init = 0

/-- Signals and machines stay, and a machine that is added has a new register. -/
structure Continues (d d' : Draft) : Prop where
  retains : Retains d.design d'.design
  signals : d.signals <+: d'.signals
  machines : d'.machines = d.machines ∨ ∃ o, d'.machines = d.machines ++ [o] ∧
    ∀ m ∈ o, d'.Founded m ∧ m.state.id = d.design.netlist.signals.size

theorem Founded.continues {m : Machine} (h : d.Founded m) (hc : Continues d d') : d'.Founded m := by
  obtain ⟨s, hs, hkind, hinit⟩ := h.register
  exact ⟨h.nonempty, h.roomy, hc.signals.subset h.listed, s, hc.retains _ _ hs, hkind, hinit⟩

theorem effect_continues (hr : r.design = d.design) {op : Operation} (he : Effect d i r op d') : Continues d d' := by
  have stay : Retains d.design r.design := fun _ _ hx => hr ▸ hx
  have grow : ∀ (name : String) (width : Nat) (kind : SignalKind) (init : Word),
      Retains d.design (r.design.newSignal name width kind init).2 := fun name width kind init x s hx =>
    (newSignal_widens r.design name width kind init).signals x s (stay x s hx)
  have same : d.signals <+: d.signals := List.prefix_rfl
  cases he with
  | submodule scope => exact ⟨stay, same, .inl rfl⟩
  | signal name width kind init hw => exact ⟨grow name width kind init, List.prefix_append .., .inl rfl⟩
  | assign s guard value domain hs hkind => exact ⟨stay, same, .inl rfl⟩
  | «when» wanted hw =>
    exact ⟨stay, same, .inr ⟨none, List.map_append, fun _ hm => nomatch hm⟩⟩
  | branches => exact ⟨stay, same, .inr ⟨none, List.map_append, fun _ hm => nomatch hm⟩⟩
  | branch j b arms cond hj hw => exact ⟨stay, same, .inl (machines_noteArm hj rfl)⟩
  | leave => exact ⟨stay, same, .inl rfl⟩
  | machine name m hw hstates hstate hchain hpath hne =>
    refine ⟨grow name m.state.width .reg 0, List.prefix_append .., .inr ⟨some m, List.map_append, ?_⟩⟩
    intro _ hm
    obtain rfl := Option.mem_some_iff.1 hm
    have hid : m.state.id = r.design.netlist.signals.size := by rw [hstate]; rfl
    refine ⟨⟨hne, ⟨hstates ▸ le_two_pow_widthFor _, hw⟩, List.mem_append_right _ (List.mem_singleton_self _), ?_⟩,
      hid.trans (by rw [hr])⟩
    have hget := get?_newSignal r.design name m.state.width .reg 0 m.state.id
    rw [if_pos hid] at hget
    exact ⟨_, hget, rfl, UInt64.zero_and⟩
  | state j path m arms index hj hpath hi => exact ⟨stay, same, .inl (machines_noteArm hj rfl)⟩
  | next c m guard value hc hm => exact ⟨stay, same, .inl rfl⟩
  | openTransaction t loc info wanted ht hnew hinfo => exact ⟨stay, same, .inl rfl⟩
  | openMethod m loc old validator wanted activator hnew hinfo => exact ⟨stay, same, .inl rfl⟩
  | leaveBody => exact ⟨stay, same, .inl rfl⟩
  | closeMethod m info bus value hm hbus => exact ⟨stay, same, .inl rfl⟩
  | stay => exact ⟨stay, same, .inl rfl⟩
  | call m frame site enabled hbody hpath henable hw hapart hcallee => exact ⟨stay, same, .inl rfl⟩

theorem step_continues {action : Action} (hs : d.step action = some d') : Continues d d' := by
  cases step_change hs with
  | declared design hm hretains => exact ⟨hretains, List.prefix_rfl, .inl rfl⟩
  | opened scope => exact ⟨fun _ _ hx => hx, List.prefix_rfl, .inl rfl⟩
  | within i r hr he => exact effect_continues (place?_design hr) he

theorem Continues.machine? (h : Continues d d') {chain : Nat} {m : Machine} (hm : d.machine? chain = some m) :
    d'.machine? chain = some m := by
  rw [machine?_eq_some] at hm ⊢
  rcases h.machines with he | ⟨o, he, -⟩
  · rwa [he]
  · rw [he, List.getElem?_append_left (List.getElem?_eq_some_iff.1 hm).1, hm]

/-- A machine was there before, or has just been created. -/
theorem Continues.machine?_cases (h : Continues d d') {chain : Nat} {m : Machine} (hm : d'.machine? chain = some m) :
    d.machine? chain = some m ∨
      chain = d.machines.length ∧ d'.Founded m ∧ m.state.id = d.design.netlist.signals.size := by
  rw [machine?_eq_some] at hm ⊢
  rcases h.machines with he | ⟨o, he, hnew⟩
  · exact .inl (he ▸ hm)
  · rw [he, List.getElem?_append] at hm
    split at hm
    · exact .inl hm
    · rename_i hge
      obtain ⟨hzero, hget⟩ := List.getElem?_eq_some_iff.1 hm
      rw [List.length_singleton] at hzero
      rw [List.getElem_singleton] at hget
      exact .inr ⟨by omega, hnew m (Option.mem_def.2 hget)⟩

/-- Machines are as they were created, and each has a register of its own. -/
structure MachinesKept (d : Draft) : Prop where
  founded : ∀ chain m, d.machine? chain = some m → d.Founded m
  apart : ∀ chain chain' m m', d.machine? chain = some m → d.machine? chain' = some m' → m.state.id = m'.state.id →
    chain = chain'

theorem MachinesKept.continues (h : d.MachinesKept) (hc : Continues d d') : d'.MachinesKept := by
  -- The registers of earlier machines are signals that exist already.
  have older : ∀ chain m, d.machine? chain = some m → m.state.id ≠ d.design.netlist.signals.size := by
    intro chain m hm
    obtain ⟨s, hs, -⟩ := (h.founded chain m hm).register
    exact Nat.ne_of_lt (Arena.lt_of_get? hs)
  refine ⟨fun chain m hm => ?_, fun chain chain' m m' hm hm' hid => ?_⟩
  · rcases hc.machine?_cases hm with hold | ⟨-, hnew, -⟩
    · exact (h.founded chain m hold).continues hc
    · exact hnew
  · rcases hc.machine?_cases hm with hold | ⟨hlast, -, hfresh⟩ <;>
      rcases hc.machine?_cases hm' with hold' | ⟨hlast', -, hfresh'⟩
    · exact h.apart chain chain' m m' hold hold' hid
    · exact absurd (hid.trans hfresh') (older chain m hold)
    · exact absurd (hid.symm.trans hfresh) (older chain' m' hold')
    · exact hlast.trans hlast'.symm

theorem Recorded.machinesKept (h : d.Recorded) : d.MachinesKept := by
  refine h.induct (fun config => ⟨fun chain m hm => ?_, fun chain _ m _ hm => ?_⟩) fun d d' action hd hs =>
    hd.continues (step_continues hs)
  all_goals
    rw [machine?_eq_some] at hm
    exact nomatch hm

/-! ### Where assignments come from -/

/-- The assignment is what moves a machine to a state. -/
structure Written.MovesTo (w : Written) (m : Machine) (state : String) : Prop where
  declared : state ∈ m.states
  mode : w.mode = .sync
  target : w.target = m.state
  value : w.value = .constant (m.code state) m.state.width

/-- The assignment is named by one of the actions, or one of them moves a machine. -/
inductive Written.From (actions : List Action) (d : Draft) (w : Written) : Prop
  | assigned (i j : Nat) (loc : Location) (h : .inModule i (.assign w.mode j w.value loc) ∈ actions)
      (hj : d.signals[j]? = some w.target)
  | moved (i chain : Nat) (state : String) (loc : Location) (h : .inModule i (.nextState chain state loc) ∈ actions)
      (m : Machine) (hm : d.machine? chain = some m) (hmoves : w.MovesTo m state)

theorem Written.From.continues {actions actions' : List Action} {w : Written} (h : w.From actions d)
    (hsub : actions ⊆ actions') (hc : Continues d d') : w.From actions' d' := by
  cases h with
  | assigned i j loc h hj =>
    obtain ⟨more, hmore⟩ := hc.signals
    refine .assigned i j loc (hsub h) ?_
    rw [← hmore, List.getElem?_append_left (List.getElem?_eq_some_iff.1 hj).1, hj]
  | moved i chain state loc h m hm hmoves => exact .moved i chain state loc (hsub h) m (hc.machine? hm) hmoves

/-- A machine moves to its own states only. -/
theorem nextState_declared {chain : Nat} {state : String} {loc : Location} {m : Machine} (hm : d.machine? chain = some m)
    (hop : d.operate i r (.nextState chain state loc) = some d') : state ∈ m.states := by
  simp only [operate] at hop
  split at hop
  · rename_i path m' arms hj
    obtain rfl : m' = m := by simpa [machine?, hj] using hm
    simp only [Option.bind_eq_bind, Option.bind_eq_some_iff, Attempt.result?_eq_some] at hop
    obtain ⟨r', hr', -⟩ := hop
    obtain ⟨index, hindex, -⟩ := Recording.nextState_ok hr'
    exact List.idxOf_lt_length_iff.1 (Recording.index_eq hindex ▸ Recording.index_lt hindex)
  · cases hop

/-- An action that is taken adds one assignment at most. -/
theorem note_written (t : Transcript) {action : Action} (hs : d.step action = some d') :
    (t.note d action).written = t.written ∨
      ∃ w : Written, (t.note d action).written = t.written ++ [w] ∧ w.From [action] d := by
  cases action with
  | inModule i op =>
    simp only [Transcript.note]
    split
    · rename_i spot _
      cases op with
      | assign mode target value loc =>
        simp only [Transcript.noteAt]
        split
        · rename_i s hj
          exact .inr ⟨_, rfl, .assigned i target loc (List.mem_singleton_self _) hj⟩
        · exact .inl rfl
      | nextState chain state loc =>
        simp only [Transcript.noteAt]
        split
        · rename_i m hm
          simp only [step, Option.bind_eq_bind, Option.bind_eq_some_iff] at hs
          obtain ⟨r, -, hop⟩ := hs
          exact .inr ⟨_, rfl, .moved i chain state loc (List.mem_singleton_self _) m hm
            ⟨nextState_declared hm hop, rfl, rfl, rfl⟩⟩
        · exact .inl rfl
      | enterState chain state loc =>
        simp only [Transcript.noteAt]
        split <;> exact .inl rfl
      | _ => exact .inl rfl
    · exact .inl rfl
  | _ => exact .inl rfl

/-- Every assignment comes from one of the actions taken. -/
theorem written_from {config : Config} {actions : List Action} (h : (start config).run actions = some d) :
    ∀ w ∈ (transcript config actions).written, w.From actions d := by
  refine transcript_induct_taken (P := fun taken d t => ∀ w ∈ t.written, w.From taken d) (fun config w hw => nomatch hw)
    (fun taken d d' t action hfrom hs => ?_) h
  have hc := step_continues hs
  have hearlier : ∀ w ∈ t.written, w.From (taken ++ [action]) d' := fun w hw =>
    (hfrom w hw).continues (List.subset_append_left ..) hc
  rcases note_written t hs with he | ⟨w, he, hw⟩
  · rwa [he]
  · rw [he]
    exact forall_mem_snoc hearlier (hw.continues (List.subset_append_right ..) hc)

/-- Only moves of a machine go to its register, if no action names it. -/
theorem moves_of_unnamed {config : Config} {actions : List Action} (h : (start config).run actions = some d) {chain : Nat}
    {m : Machine} (hm : d.machine? chain = some m)
    (honly : ∀ i mode j value loc, .inModule i (.assign mode j value loc) ∈ actions → d.signals[j]? ≠ some m.state)
    {w : Written} (hw : w ∈ (transcript config actions).written) (htarget : w.target = m.state) :
    ∃ i state loc, .inModule i (.nextState chain state loc) ∈ actions ∧ w.MovesTo m state := by
  cases written_from h w hw with
  | assigned i j loc ha hj => exact absurd (htarget ▸ hj) (honly i w.mode j w.value loc ha)
  | moved i chain' state loc ha m' hm' hmoves =>
    have hid : m.state.id = m'.state.id := by rw [← htarget, hmoves.target]
    obtain rfl := (Recorded.machinesKept ⟨config, actions, h⟩).apart chain chain' m m' hm hm' hid
    obtain rfl : m = m' := Option.some.inj (hm.symm.trans hm')
    exact ⟨i, state, loc, ha, hmoves⟩

end Draft

end Interlock
