import Interlock.Proofs.Draft.Machines
import Interlock.Proofs.GuardedDrivers
import Interlock.Proofs.Simulation.Equations

/-! State machines stay in their declared states. The register of a machine that only moves write holds the position
of one of its states after reset and after every clock edge, whatever the inputs are; a clock edge brings the machine
to the state of the last move in force, if there is one. -/

namespace Interlock

open Design Draft

/-! ### States and the words that stand for them -/

namespace Machine

variable {m : Machine} {state : String}

theorem toNat_code (hm : Roomy m) (h : state ∈ m.states) : (m.code state).toNat = m.states.idxOf state := by
  have hlt := Nat.lt_of_lt_of_le (List.idxOf_lt_length_of_mem h) hm.1
  have hword : (2 : Nat) ^ m.state.width ≤ 2 ^ 64 := Nat.pow_le_pow_right Nat.two_pos hm.2
  rw [code, UInt64.toNat_ofNat', Nat.mod_eq_of_lt (by omega)]

/-- The register holds every state. -/
theorem code_and_mask (hm : Roomy m) (h : state ∈ m.states) : m.code state &&& mask m.state.width = m.code state := by
  refine and_mask_of_lt ?_
  rw [toNat_code hm h]
  exact Nat.lt_of_lt_of_le (List.idxOf_lt_length_of_mem h) hm.1

theorem defined_inState (hm : Roomy m) (i : Nat) : (m.inState i).Defined := by
  have hwidth : m.state.width < wordLimit := Nat.lt_of_le_of_lt hm.2 (by decide)
  exact Expr.closed_defined.binary .eq _ _ (decide_eq_true hwidth) (Expr.closed_defined.constant _ hwidth)

/-- A machine is in a state of its own: its register holds the position, and of all its states it says of this one
alone that it is ongoing. -/
structure Stands (m : Machine) (k : Kernel) (state : String) : Prop where
  declared : state ∈ m.states
  register : ∃ v, k.get m.state.id = .ok v ∧ v.toNat = m.states.idxOf state
  ongoing : ∀ s ∈ m.states, ∀ loc, ∃ cond, m.ongoing s loc = .ok cond ∧
    cond.evalChecked k.values.valuation = .ok (decide (s = state)).toUInt64

/-- A machine is in one state at a time. -/
theorem Stands.eq_of_get {k : Kernel} {v : Word} {s : String} (h : m.Stands k state) (hv : k.get m.state.id = .ok v)
    (hi : v.toNat = m.states.idxOf s) : state = s := by
  obtain ⟨u, hu, huv⟩ := h.register
  obtain rfl : u = v := Except.ok.inj (hu.symm.trans hv)
  exact (List.idxOf_inj h.declared).1 (huv.symm.trans hi)

end Machine

/-! ### The driver of the register -/

/-- How the register of a machine is driven in a netlist. -/
structure Machine.Driven (m : Machine) (n : Netlist) (ws : List Written) : Prop where
  register : ∃ s, n.signals.get? m.state.id = some s ∧ s.kind = .reg ∧ s.init = 0 ∧ s.width = m.state.width
  driver : ∀ a ∈ n.sync, a.target = m.state.id → ∃ l, List.Forall₂ Written.Told ws l ∧
    a.value = l.foldl (Drivers.override m.state.width) m.state.expr
  resting : (∀ a ∈ n.sync, a.target ≠ m.state.id) → ws = []

namespace Machine

variable {m : Machine} {n : Netlist} {ws : List Written} {k k' : Kernel}

theorem eval_move {w : Written} {state : String} (hm : Roomy m) (hw : w.MovesTo m state) (σ : Valuation) :
    w.value.eval σ = m.code state := by
  rw [hw.value, Expr.eval_constant, code_and_mask hm hw.declared]

/-- Moves that are put over one another come to one of them, or leave the machine where it is, whatever their guards
are. -/
theorem eval_moves (hm : Roomy m) (hmoves : ∀ w ∈ ws, ∃ state, w.MovesTo m state) {l : List GuardedAssign}
    (h : List.Forall₂ Written.Told ws l) (σ : Valuation) : ∀ acc : Expr,
      (l.foldl (Drivers.override m.state.width) acc).eval σ = acc.eval σ ∨
        ∃ state ∈ m.states, (l.foldl (Drivers.override m.state.width) acc).eval σ = m.code state := by
  induction h with
  | nil => exact fun acc => .inl rfl
  | @cons w a ws l hw _ ih =>
    intro acc
    obtain ⟨state, hmove⟩ := hmoves w (List.mem_cons_self ..)
    have hvalue : (a.value.resize m.state.width).eval σ = m.code state := by
      have hfits : w.value.fits = true := hmove.value ▸ Expr.fits_constant ..
      rw [Expr.resize_of_width (hw.width.trans (by rw [hmove.target])), hw.value hfits, eval_move hm hmove]
    rw [List.foldl_cons]
    rcases ih (fun v hv => hmoves v (List.mem_cons_of_mem _ hv)) (Drivers.override m.state.width acc a) with he | he
    · rw [he, Drivers.eval_override]
      split
      · exact .inr ⟨state, hmove.declared, hvalue⟩
      · exact .inl rfl
    · exact .inr he

theorem eval_expr_code {σ : Valuation} {state : String} (hm : Roomy m) (hstate : state ∈ m.states)
    (hσ : σ m.state.id = m.code state) : m.state.expr.eval σ = m.code state := by
  rw [Sig.expr, Expr.eval, hσ, code_and_mask hm hstate]

namespace Driven

/-- The invariant: the register holds the word of a state. -/
theorem stays (h : m.Driven n ws) (hm : Roomy m) (hne : m.states ≠ []) (hmoves : ∀ w ∈ ws, ∃ state, w.MovesTo m state)
    (hk : Kernel.Reachable n k) : ∃ state ∈ m.states, k.values.valuation m.state.id = m.code state := by
  obtain ⟨s, hs, hkind, hinit, hwidth⟩ := h.register
  refine hk.register (P := fun v => ∃ state ∈ m.states, v = m.code state) hs hkind ?_ ?_
  · -- Reset leads to the first state.
    obtain ⟨first, rest, hstates⟩ := List.exists_cons_of_ne_nil hne
    refine ⟨first, hstates ▸ List.mem_cons_self .., ?_⟩
    rw [hinit, code, hstates, List.idxOf_cons_self]
    rfl
  · rintro k - ⟨state, hstate, hv⟩ a ha hax
    obtain ⟨l, htold, hvalue⟩ := h.driver a ha hax
    rw [Netlist.widthOf_eq hs, hwidth, hvalue]
    rcases eval_moves hm hmoves htold k.values.valuation m.state.expr with he | ⟨next, hnext, he⟩
    · exact ⟨state, hstate, by rw [he, eval_expr_code hm hstate hv, code_and_mask hm hstate]⟩
    · exact ⟨next, hnext, by rw [he, code_and_mask hm hnext]⟩

/-- What a machine stands in is told by its register. -/
theorem stands (h : m.Driven n ws) (hm : Roomy m) (hk : Kernel.Reachable n k) {state : String} (hstate : state ∈ m.states)
    (hv : k.values.valuation m.state.id = m.code state) : m.Stands k state := by
  obtain ⟨s, hs, -⟩ := h.register
  refine ⟨hstate, ⟨_, hk.steady.get hs, by rw [hv, toNat_code hm hstate]⟩, fun t ht loc => ?_⟩
  refine ⟨m.inState (m.states.idxOf t), by rw [Machine.ongoing, Recording.index_of_mem ht]; rfl, ?_⟩
  have hdecides := told_state hm (List.idxOf_lt_length_of_mem ht) rfl
  rw [(defined_inState hm _).evalChecked, Expr.eval_eq_truth hdecides.bounded hdecides.width, hdecides.truth, Arm.taken,
    eval_expr_code hm hstate hv, toNat_code hm hstate]
  congr 2
  rw [Bool.eq_iff_iff, beq_iff_eq, decide_eq_true_eq, List.idxOf_inj hstate, eq_comm]

/-- A clock edge brings the machine to the state of the last move in force, and leaves it where it is if there is
none. -/
theorem next (h : m.Driven n ws) (hm : Roomy m) (htargets : ∀ w ∈ ws, w.target = m.state)
    (hfits : ∀ w ∈ ws, w.fits = true) (hk : Kernel.Reachable n k) {state : String} (hstate : state ∈ m.states)
    (hv : k.values.valuation m.state.id = m.code state) (htick : k.tick = .ok k') :
    match (ws.filter (·.inForce k.values.valuation)).getLast? with
    | some w => ∀ target, w.MovesTo m target → k'.values.valuation m.state.id = m.code target
    | none => k'.values.valuation m.state.id = m.code state := by
  obtain ⟨s, hs, hkind, -, hwidth⟩ := h.register
  have hundriven := Kernel.register_undriven hk.steady.valid hs hkind
  have hlast : k'.values.valuation m.state.id =
      lastInForce ws k.values.valuation (m.code state) &&& mask m.state.width := by
    rcases Kernel.tick_undriven hundriven hk.steady.toReady htick with ⟨hsame, hnone⟩ | ⟨a, ha, hax, hnext⟩
    · rw [h.resting hnone, hsame, hv]
      exact (code_and_mask hm hstate).symm
    · obtain ⟨l, htold, hvalue⟩ := h.driver a ha hax
      rw [hnext, Netlist.widthOf_eq hs, hwidth, hvalue, Drivers.eval_foldl_told htold hfits (fun w hw => by rw [htargets w hw]),
        eval_expr_code hm hstate hv]
  rw [hlast, lastInForce]
  cases (ws.filter (·.inForce k.values.valuation)).getLast? with
  | some w =>
    intro target hmove
    simp only [eval_move hm hmove, code_and_mask hm hmove.declared]
  | none => exact code_and_mask hm hstate

end Driven

end Machine

/-! ### Machines of elaborated designs -/

/-- Elaboration drives the register of a machine by what the transcript notes of it. -/
theorem elaborate_driven {config : Config} {actions : List Action} {d : Draft} (hrun : (start config).run actions = some d)
    {sink sink' : DiagnosticSink} {e : Elaborated} (he : d.design.elaborate sink = .ok (.ok e, sink')) {m : Machine}
    (hm : d.Founded m) : m.Driven e.netlist ((transcript config actions).writtenTo m.state) := by
  have hrecorded : d.Recorded := ⟨config, actions, hrun⟩
  have hsound := hrecorded.sound
  obtain ⟨r, hr, hkind, hinit⟩ := hm.register
  obtain ⟨g, hg, hwidth, hsame⟩ := hrecorded.regularDesign.signals _ hm.listed
  obtain rfl : g = r := Option.some.inj (hg.symm.trans hr)
  obtain ⟨f, sch, d', hf, hsch, hd', hlower⟩ := elaborate_steps he
  obtain ⟨l, hc⟩ := circuit_of hsound hf hsch hd'
  have hg' := hc.gains.signals _ _ ((fused_ok hsound hf).2.2.signals _ _ hg)
  have hregular := hrecorded.regular.fused hsound hf
  have hdomains := (hc.regular hregular).domains
  have haccepts : ∀ {n : Netlist}, n.signals.get? m.state.id = some g → n.Accepts m.state.id .sync := fun h =>
    ⟨g, h, by rw [hkind]; rfl⟩
  have htold := (transcript_faithful hrun).writtenTo hm.listed
  rw [← final_assigns_of_spared hsound hf hc (hrecorded.soundDesign.foreign _ hm.listed)
    (hc.spares hregular (haccepts ((fused_ok hsound hf).2.2.signals _ _ hg)))] at htold
  have hsync : d'.netlist.sync = [] := hc.gains.sync.trans hc.sound.sync
  have hwidthOf : d'.netlist.widthOf m.state.id = m.state.width := (Netlist.widthOf_eq hg').trans hwidth
  rw [Drivers.lower_ok hlower]
  refine ⟨⟨g, hg', hkind, hinit, hwidth⟩, fun a ha hax => ⟨_, htold, ?_⟩, fun hnone => ?_⟩
  · simp only [Drivers.build, hsync, List.nil_append, List.mem_map] at ha
    obtain ⟨x, -, rfl⟩ := ha
    obtain rfl : x = m.state.id := hax
    rw [Drivers.driver_eq hdomains (haccepts hg'), hwidthOf, Drivers.fallback, Netlist.read, hwidthOf, Sig.expr]
  · -- What is written to is a target of the next-state drivers.
    by_contra hne
    obtain ⟨w, hw⟩ := List.exists_mem_of_ne_nil _ hne
    obtain ⟨a, hown, -⟩ := forall₂_right htold hw
    obtain ⟨ha, hax⟩ := List.mem_filter.1 hown
    have hax := beq_iff_eq.1 hax
    have hdomain := Drivers.accepts_unique (hdomains a ha) (hax ▸ haccepts hg')
    exact hnone _ (List.mem_append_right _ (List.mem_map_of_mem
      (Drivers.mem_targets_iff.2 ⟨Arena.lt_of_get? hg', a, ha, hax, hdomain⟩))) rfl

/-- In every reachable state a machine whose register no action names stands in one of its states. A clock edge brings
it to the state of the last move in force, or leaves it where it is if there is none, as long as the constants in the
tests around its moves fit their widths. There is a next clock edge where the recorded expressions have defined
widths. -/
theorem machine_follows_moves {config : Config} {actions : List Action} {d : Draft}
    (hrun : (start config).run actions = some d) {sink sink' : DiagnosticSink} {e : Elaborated}
    (he : d.design.elaborate sink = .ok (.ok e, sink')) {chain : Nat} {m : Machine} (hm : d.machine? chain = some m)
    (honly : ∀ i mode j value loc, .inModule i (.assign mode j value loc) ∈ actions → d.signals[j]? ≠ some m.state)
    {k : Kernel} (hk : Kernel.Reachable e.netlist k) :
    ∃ state, m.Stands k state ∧ (d.design.Defined → ∃ k', k.tick = .ok k') ∧
      ((∀ w ∈ (transcript config actions).writtenTo m.state, w.fits = true) → ∀ k', k.tick = .ok k' →
        match (((transcript config actions).writtenTo m.state).filter (·.inForce k.values.valuation)).getLast? with
        | some w => ∃ i target loc, .inModule i (.nextState chain target loc) ∈ actions ∧ w.MovesTo m target ∧
            m.Stands k' target
        | none => m.Stands k' state) := by
  have hrecorded : d.Recorded := ⟨config, actions, hrun⟩
  have hfounded := hrecorded.machinesKept.founded chain m hm
  have hroomy := hfounded.roomy
  have hdriven := elaborate_driven hrun he hfounded
  have htargets : ∀ w ∈ (transcript config actions).writtenTo m.state, w.target = m.state := by
    intro w hw
    obtain ⟨hw, hid⟩ := List.mem_filter.1 hw
    exact hrecorded.regularDesign.sig_eq hfounded.listed ((transcript_faithful hrun).targets w hw) (beq_iff_eq.1 hid)
  have hmoves : ∀ w ∈ (transcript config actions).writtenTo m.state,
      ∃ i state loc, .inModule i (.nextState chain state loc) ∈ actions ∧ w.MovesTo m state := fun w hw =>
    moves_of_unnamed hrun hm honly (List.mem_of_mem_filter hw) (htargets w hw)
  obtain ⟨state, hstate, hv⟩ := hdriven.stays hroomy hfounded.nonempty
    (fun w hw => by obtain ⟨_, target, _, _, hmove⟩ := hmoves w hw; exact ⟨target, hmove⟩) hk
  refine ⟨state, hdriven.stands hroomy hk hstate hv, fun hdefined => ?_, fun hfits k' htick => ?_⟩
  · have hwell := elaborate_gives hrecorded.sound hrecorded.regular hdefined he
    exact hk.tick_gives (hk.simulable hwell.validates (elaborate_defined hrecorded.sound hrecorded.regular hdefined he))
  · have hk' := hk.tick htick
    have hnext := hdriven.next hroomy htargets hfits hk hstate hv htick
    cases hlast : (((transcript config actions).writtenTo m.state).filter (·.inForce k.values.valuation)).getLast? with
    | some w =>
      rw [hlast] at hnext
      obtain ⟨i, target, loc, haction, hmove⟩ := hmoves w (List.mem_of_mem_filter (List.mem_of_getLast? hlast))
      exact ⟨i, target, loc, haction, hmove, hdriven.stands hroomy hk' hmove.declared (hnext target hmove)⟩
    | none =>
      rw [hlast] at hnext
      exact hdriven.stands hroomy hk' hstate hnext

/-! ### Cases -/

/-- The first machine of a draft in a simulation: once the input that is signal 3 is set, and after one and after two
clock edges. -/
structure Watched where
  draft : Draft
  machine : Machine
  trial : Trial
  set : Kernel
  once : Kernel
  twice : Kernel

def watched? (actions : List Action) : Option Watched := do
  let draft ← (start {}).run actions
  let machine ← draft.machine? 0
  let trial ← draft.trial?
  let set ← (trial.kernel.set 3 1).result?
  let once ← set.tick.toOption
  let twice ← once.tick.toOption
  return ⟨draft, machine, trial, set, once, twice⟩

theorem watched_ok {actions : List Action} {x : Watched} (h : watched? actions = some x) :
    (start {}).run actions = some x.draft ∧ x.draft.machine? 0 = some x.machine ∧
      x.draft.design.elaborate {} = .ok (.ok x.trial.elaborated, x.trial.sink) ∧
      Kernel.Reachable x.trial.elaborated.netlist x.set ∧ x.set.tick = .ok x.once ∧ x.once.tick = .ok x.twice := by
  simp only [watched?, Option.bind_eq_bind, Option.bind_eq_some_iff, Option.pure_def, Option.some.injEq,
    Attempt.result?_eq_some, Except.toOption_eq_some] at h
  obtain ⟨d, hd, m, hm, t, ht, k₀, hset, k₁, honce, k₂, htwice, rfl⟩ := h
  obtain ⟨-, -, he, hk⟩ := trial_ok ht
  exact ⟨hd, hm, he, hk.set hset, honce, htwice⟩

/-- A machine of three states that starts on an input and goes on while a transaction runs. -/
def stepping : List Action :=
  [.transaction "T" .generated, .openModule "",
    .inModule 0 (.signal "go" 1 .input 0 .generated), .inModule 0 (.signal "w" 4 .wire 0 .generated),
    .inModule 0 (.machine "m" ["idle", "busy", "done"] .generated),
    .inModule 0 (.enterState 0 "idle" .generated), .inModule 0 (.when (.signal 3 1)),
    .inModule 0 (.nextState 0 "busy" .generated), .inModule 0 .leave, .inModule 0 .leave,
    .inModule 0 (.openTransaction 0 .one .generated), .inModule 0 (.enterState 0 "busy" .generated),
    .inModule 0 (.assign .comb 1 (.const 7 4) .generated), .inModule 0 (.nextState 0 "done" .generated),
    .inModule 0 .leave, .inModule 0 .leaveBody]

theorem machine_follows_moves_of_stepping : ∃ x : Watched, watched? stepping = some x ∧
    x.machine.Stands x.set "idle" ∧ x.machine.Stands x.once "busy" ∧ x.machine.Stands x.twice "done" := by
  have hwatched : ∃ x ∈ watched? stepping, x.machine.states = ["idle", "busy", "done"] ∧
      x.draft.signals[1]? ≠ some x.machine.state ∧
      [x.set, x.once, x.twice].map (fun k => (k.get x.machine.state.id).toOption) = [some 0, some 1, some 2] ∧
      (∀ w ∈ (transcript {} stepping).writtenTo x.machine.state, w.fits = true) ∧
      (((transcript {} stepping).writtenTo x.machine.state).filter (·.inForce x.once.values.valuation)).getLast?.isSome := by
    decide +kernel
  obtain ⟨x, hx, hstates, hother, hvalues, hfits, hmoves⟩ := hwatched
  obtain ⟨hd, hm, he, hk, honce, htwice⟩ := watched_ok hx
  simp only [List.map_cons, List.map_nil, List.cons.injEq, and_true, Except.toOption_eq_some] at hvalues
  have honly : ∀ i mode j value loc, .inModule i (.assign mode j value loc) ∈ stepping →
      x.draft.signals[j]? ≠ some x.machine.state := by
    intro i mode j value loc h
    obtain rfl : j = 1 := by simp_all [stepping]
    exact hother
  obtain ⟨state₀, hidle, -⟩ := machine_follows_moves hd he hm honly hk
  obtain ⟨state₁, hbusy, -, hnext⟩ := machine_follows_moves hd he hm honly (hk.tick honce)
  obtain ⟨w, hw⟩ := Option.isSome_iff_exists.1 hmoves
  have hlast := hnext hfits x.twice htwice
  rw [hw] at hlast
  obtain ⟨i, target, loc, -, -, hdone⟩ := hlast
  obtain rfl : state₀ = "idle" := hidle.eq_of_get hvalues.1 (by rw [hstates]; decide)
  obtain rfl : state₁ = "busy" := hbusy.eq_of_get hvalues.2.1 (by rw [hstates]; decide)
  obtain rfl : target = "done" := hdone.eq_of_get hvalues.2.2 (by rw [hstates]; decide)
  exact ⟨x, hx, hidle, hbusy, hdone⟩

/-- A machine that is moved in an arm whose condition has a bit beyond its width. -/
def stalled : List Action :=
  [.transaction "T" .generated, .openModule "", .inModule 0 (.signal "c" 1 .input 0 .generated),
    .inModule 0 (.machine "f" ["idle", "busy"] .generated), .inModule 0 (.openTransaction 0 .one .generated),
    .inModule 0 (.when (.mux (.signal 3 1) (.const 2 1) (.const 0 1))), .inModule 0 (.nextState 0 "busy" .generated),
    .inModule 0 .leave, .inModule 0 .leaveBody]

/-- The transaction runs and the condition of the arm is two, so the move is in force; but the machine stays where it
is. -/
theorem machine_misses_overfull :
    (∀ i mode j value loc, .inModule i (.assign mode j value loc) ∉ stalled) ∧
      ∃ x ∈ watched? stalled, (x.set.get 2).toOption = some 1 ∧
        (((transcript {} stalled).writtenTo x.machine.state).filter (·.inForce x.set.values.valuation)).map (·.value) =
          [.constant (x.machine.code "busy") x.machine.state.width] ∧
        [x.set, x.once].map (fun k => (k.get x.machine.state.id).toOption) =
          [some (x.machine.code "idle"), some (x.machine.code "idle")] ∧
        x.machine.code "idle" ≠ x.machine.code "busy" :=
  ⟨by simp [stalled], by decide +kernel⟩

end Interlock
