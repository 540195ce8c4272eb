import Interlock.Proofs.Draft.Faithful
import Interlock.Proofs.Draft.Regular
import Interlock.Proofs.WellFormed

/-! Guarded assignments mean what was recorded. The driver of a signal of a module is a chain of selects, in the
order of recording; it evaluates to what the transcript says of the signal: the value of the last assignment in
force, or else zero for a wire and the current value for a register. Elaboration assigns to no such signal. -/

namespace Interlock

/-- The driver of a signal, in the domain of its kind. -/
def Netlist.driver? (n : Netlist) (s : Sig) : Option Expr :=
  match s.kind with
  | .reg => n.syncDriver? s.id
  | .input | .wire => n.combDriver? s.id

namespace Drivers

variable {n : Netlist} {assigns : List GuardedAssign} {σ : Valuation}

theorem find_driver {domain : Domain} {x : SignalId} (hx : x ∈ targets n assigns domain) :
    ((targets n assigns domain).map (driver n assigns domain)).find? (fun a => a.target == x) =
      some (driver n assigns domain x) := by
  rw [List.find?_map]
  cases hfind : (targets n assigns domain).find? ((fun a : Assign => a.target == x) ∘ driver n assigns domain) with
  | none => exact absurd (beq_self_eq_true x) (List.find?_eq_none.1 hfind x hx)
  | some y =>
    have hyx := List.find?_some hfind
    simp only [Function.comp_apply, driver, beq_iff_eq] at hyx
    rw [hyx, Option.map_some]

/-- What is built has a driver for each signal that is assigned to. -/
theorem driver?_build (hcomb : n.comb = []) (hsync : n.sync = []) {domain : Domain} {s : Sig}
    (hkind : s.kind = Recording.assignable domain) (hx : s.id ∈ targets n assigns domain) :
    (build n assigns).driver? s = some (driver n assigns domain s.id).value := by
  unfold Netlist.driver?
  cases domain with
  | comb =>
    simp only [hkind, Recording.assignable, Netlist.combDriver?, build, hcomb, List.nil_append, find_driver hx,
      Option.map_some]
  | sync =>
    simp only [hkind, Recording.assignable, Netlist.syncDriver?, build, hsync, List.nil_append, find_driver hx,
      Option.map_some]

/-- Assignments that are put over one another come to the value of the last one in force. -/
theorem eval_foldl_told {ws : List Draft.Written} {l : List GuardedAssign}
    (h : List.Forall₂ Draft.Written.Told ws l) {w : Nat} (hfits : ∀ x ∈ ws, x.fits = true)
    (hwidth : ∀ x ∈ ws, x.target.width = w) :
    ∀ acc : Expr, (l.foldl (override w) acc).eval σ = Draft.lastInForce ws σ (acc.eval σ) := by
  induction h with
  | nil => exact fun acc => rfl
  | @cons x a ws l hx _ ih =>
    intro acc
    have hfit := hfits x (List.mem_cons_self ..)
    have hresize : a.value.resize w = a.value :=
      Expr.resize_of_width (hx.width.trans (hwidth x (List.mem_cons_self ..)))
    rw [List.foldl_cons, ih (fun y hy => hfits y (List.mem_cons_of_mem _ hy))
      (fun y hy => hwidth y (List.mem_cons_of_mem _ hy)), eval_override, Draft.lastInForce_cons, hresize,
      hx.value (Draft.Written.fits_value hfit)]
    exact congrArg _ (if_congr (hx.guard hfit σ) rfl rfl)

/-- All assignments to a signal go to its one driver. -/
theorem driver_eq {x : SignalId} {domain : Domain} (hdomains : ∀ a ∈ assigns, n.Accepts a.target a.domain)
    (hx : n.Accepts x domain) : (driver n assigns domain x).value =
      (assigns.filter (·.target == x)).foldl (override (n.widthOf x)) (fallback n x domain) := by
  have hfilter : assigns.filter (fun a => a.target == x && a.domain == domain) = assigns.filter (·.target == x) := by
    refine List.filter_congr fun a ha => ?_
    by_cases hax : a.target = x
    · rw [accepts_unique (hdomains a ha) (hax ▸ hx), beq_self_eq_true, Bool.and_true]
    · rw [beq_false_of_ne hax, Bool.false_and]
  rw [driver, hfilter]

/-- What is built for a signal from assignments that do what is said of them. -/
theorem driver_told {ws : List Draft.Written} (hcomb : n.comb = []) (hsync : n.sync = [])
    (hdomains : ∀ a ∈ assigns, n.Accepts a.target a.domain) {s : Sig} {g : Signal}
    (hg : n.signals.get? s.id = some g) (hwidth : g.width = s.width)
    (h : List.Forall₂ Draft.Written.Told ws (assigns.filter (·.target == s.id))) (hsame : ∀ w ∈ ws, w.target = s)
    (hne : ws ≠ []) (hfits : ∀ w ∈ ws, w.fits = true) :
    ∃ driver, (build n assigns).driver? s = some driver ∧ driver.width = s.width ∧
      ∀ σ, driver.eval σ = Draft.lastInForce ws σ (Draft.Transcript.resting s σ) := by
  obtain ⟨w, hw⟩ := List.exists_mem_of_ne_nil ws hne
  obtain ⟨a, hown, hwa⟩ := forall₂_right h hw
  have ha := List.mem_of_mem_filter hown
  have hax : a.target = s.id := by rw [hwa.target, hsame w hw]
  have hkind : s.kind = Recording.assignable a.domain := hsame w hw ▸ hwa.kind
  have hwidthOf : n.widthOf s.id = s.width := (Netlist.widthOf_eq hg).trans hwidth
  have hresting : ∀ σ, (fallback n s.id a.domain).eval σ = Draft.Transcript.resting s σ := by
    intro σ
    unfold fallback Draft.Transcript.resting
    cases hd : a.domain with
    | comb => simp only [hkind, hd, Recording.assignable, Expr.eval_zero]
    | sync => simp only [hkind, hd, Recording.assignable, Netlist.read, hwidthOf, Sig.expr]
  refine ⟨_, driver?_build hcomb hsync hkind (mem_targets_iff.2 ⟨Arena.lt_of_get? hg, a, ha, hax, rfl⟩), ?_,
    fun σ => ?_⟩
  · rw [width_driver, hwidthOf]
  · rw [driver_eq hdomains (hax ▸ hdomains a ha), hwidthOf, eval_foldl_told h hfits (fun w hw => by rw [hsame w hw]), hresting]

end Drivers

namespace Design

variable {d d' : Design} {f : Fused} {s : Schedule} {l : List GuardedAssign}

/-- Generated logic spares the registers that are there already. -/
theorem Circuit.spares {d d' : Design} {map : CallMap} (h : Circuit d map s d' l) (hr : d.Regular) {x : SignalId}
    (hx : d.netlist.Accepts x .sync) : ∀ a ∈ l, a.target ≠ x := by
  rintro a ha rfl
  rcases h.logic.undriven a ha with hnew | ⟨i, n, hn, hgen⟩
  · obtain ⟨g, hg, -⟩ := hx
    exact absurd (Arena.lt_of_get? hg) (Nat.not_lt.2 hnew)
  · exact nomatch Drivers.accepts_unique hx (hr.wire h.sound hn (Node.generated_subset hgen))

/-- Fusion does not assign to a signal that belongs to no node, so its assignments are those recorded if the generated
logic spares it as well. -/
theorem final_assigns_of_spared (hd : d.Sound) (hf : Attempt.Gives d.fused f) (h : Circuit f.design f.map s d' l)
    {x : SignalId} (hx : d.Foreign x) (hspared : ∀ a ∈ l, a.target ≠ x) :
    d'.assigns.filter (·.target == x) = d.assigns.filter (·.target == x) := by
  obtain ⟨members, -, hmembers, hassigns⟩ := fused_assigns hf hd
  have hrequests : (f.groups.map (Fusion.requestOf f.design)).filter (·.target == x) = [] := by
    refine List.filter_eq_nil_iff.2 fun a ha he => ?_
    obtain ⟨g, hg, rfl⟩ := List.mem_map.1 ha
    exact absurd hx.1 (Nat.not_lt.2 (beq_iff_eq.1 he ▸ fused_request hf hg))
  have hrunnables : (members.filterMap (Fusion.runnableOf f.groups f.design)).filter (·.target == x) = [] := by
    refine List.filter_eq_nil_iff.2 fun a ha he => ?_
    obtain ⟨m, hm, ha⟩ := List.mem_filterMap.1 ha
    obtain ⟨g, hg, hmg⟩ := (hmembers m).1 hm
    obtain ⟨n', hn', hwire⟩ := Fusion.runnableOf_wire ha
    -- A member was a transaction of the recorded design, with the same wires.
    obtain ⟨_, htr⟩ := hd.transaction ((fused_unites hd hf).transactions g hg m hmg)
    obtain ⟨n₂, hn₂, hsame⟩ := (fused_ok hd hf).2.2.old m _ htr.get?
    obtain rfl : n' = n₂ := Option.some.inj (hn'.symm.trans hn₂)
    exact hx.2 m _ htr.get? (hsame.wires.2.1 ▸ beq_iff_eq.1 he ▸ hwire)
  have hlogic : l.filter (·.target == x) = [] :=
    List.filter_eq_nil_iff.2 fun a ha he => hspared a ha (beq_iff_eq.1 he)
  rw [h.gains.assigns, hassigns, List.filter_append, List.filter_append, List.filter_append, hrequests, hrunnables,
    hlogic, List.append_nil, List.append_nil, List.append_nil]

/-- Neither fusion nor the generated logic assigns to a signal that belongs to no node and has an assignment. -/
theorem final_assigns (hd : d.Sound) (hf : Attempt.Gives d.fused f) (h : Circuit f.design f.map s d' l)
    {x : SignalId} (hx : d.Foreign x) (hassigned : ∃ a ∈ d.assigns, a.target = x) :
    d'.assigns.filter (·.target == x) = d.assigns.filter (·.target == x) := by
  refine final_assigns_of_spared hd hf h hx fun a ha he => ?_
  obtain ⟨added, hassigns, -⟩ := (fused_ok hd hf).2.2.assigns
  obtain ⟨b, hb, hbx⟩ := hassigned
  refine h.sound.undriven (h.logic.undriven a ha) b ?_ (hbx.trans he.symm)
  rw [hassigns]
  exact List.mem_append_left _ hb

end Design

namespace Draft

variable {d : Draft} {t : Transcript}

/-- Signals of modules are told apart by their ids. -/
theorem RegularDesign.sig_eq (h : d.RegularDesign) {s s' : Sig} (hs : s ∈ d.signals) (hs' : s' ∈ d.signals)
    (hid : s'.id = s.id) : s' = s := by
  obtain ⟨g, hg, hwidth, hkind⟩ := h.signals s hs
  obtain ⟨g', hg', hwidth', hkind'⟩ := h.signals s' hs'
  obtain rfl : g' = g := Option.some.inj (hg'.symm.trans (hid ▸ hg))
  cases s
  cases s'
  simp_all

/-- The assignments to a signal, side by side with what the transcript says of them. -/
theorem Faithful.writtenTo (h : Faithful d t) {s : Sig} (hs : s ∈ d.signals) :
    List.Forall₂ Written.Told (t.writtenTo s) (d.design.assigns.filter (·.target == s.id)) := by
  have hfilter : (d.design.assigns.filter (assignsTo d.signals)).filter (·.target == s.id) =
      d.design.assigns.filter (·.target == s.id) := by
    rw [List.filter_filter]
    refine List.filter_congr fun a _ => ?_
    by_cases he : a.target = s.id
    · simp only [he, beq_self_eq_true, Bool.true_and, assignsTo_iff.2 ⟨s, hs, he.symm⟩]
    · simp only [beq_false_of_ne he, Bool.false_and]
  rw [← hfilter]
  exact List.rel_filter (fun w a hwa => by simp only [beq_iff_eq, hwa.target]) h.written

end Draft

open Design Draft

/-- The driver of a signal of a module, if there is an assignment to it and the constants in its assignments and
in the tests around them fit their widths. -/
theorem driver_follows_transcript {config : Config} {actions : List Action} {d : Draft}
    (hrun : (start config).run actions = some d) {sink sink' : DiagnosticSink} {e : Elaborated}
    (he : d.design.elaborate sink = .ok (.ok e, sink')) {s : Sig}
    (hs : ∃ w ∈ (transcript config actions).written, w.target = s)
    (hfits : ∀ w ∈ (transcript config actions).writtenTo s, w.fits = true) :
    ∃ driver, e.netlist.driver? s = some driver ∧ driver.width = s.width ∧
      ∀ σ, driver.eval σ = (transcript config actions).value s σ := by
  have hrecorded : d.Recorded := ⟨config, actions, hrun⟩
  have hsound := hrecorded.sound
  have hfaithful := transcript_faithful hrun
  obtain ⟨w, hw, rfl⟩ := hs
  have hsig := hfaithful.targets w hw
  have hmem : w ∈ (transcript config actions).writtenTo w.target := List.mem_filter.2 ⟨hw, beq_self_eq_true _⟩
  obtain ⟨g, hg, hwidth, -⟩ := hrecorded.regularDesign.signals _ hsig
  have htold := hfaithful.writtenTo hsig
  obtain ⟨f, sch, d', hf, hsch, hd', hlower⟩ := elaborate_steps he
  obtain ⟨l, hc⟩ := circuit_of hsound hf hsch hd'
  -- The assignments to the signal reach the drivers as they were recorded.
  obtain ⟨a, hown, hwa⟩ := forall₂_right htold hmem
  rw [← final_assigns hsound hf hc (hrecorded.soundDesign.foreign _ hsig)
    ⟨a, List.mem_of_mem_filter hown, hwa.target⟩] at htold
  rw [Drivers.lower_ok hlower]
  refine Drivers.driver_told (hc.gains.comb.trans hc.sound.comb) (hc.gains.sync.trans hc.sound.sync)
    (hc.regular (hrecorded.regular.fused hsound hf)).domains
    (hc.gains.signals _ _ ((fused_ok hsound hf).2.2.signals _ _ hg)) hwidth htold (fun x hx => ?_)
    (List.ne_nil_of_mem hmem) hfits
  obtain ⟨hx, hid⟩ := List.mem_filter.1 hx
  exact hrecorded.regularDesign.sig_eq hsig (hfaithful.targets x hx) (beq_iff_eq.1 hid)

/-! ### Cases -/

/-- A transaction with a chain of three arms, assignments of all modes, and a machine. -/
def guarded : List Action :=
  [.transaction "T" .generated, .openModule "",
    .inModule 0 (.signal "a" 2 .input 0 .generated), .inModule 0 (.signal "b" 1 .input 0 .generated),
    .inModule 0 (.signal "w" 4 .wire 0 .generated), .inModule 0 (.signal "v" 4 .wire 0 .generated),
    .inModule 0 (.signal "r" 4 .reg 0 .generated), .inModule 0 (.machine "m" ["idle", "busy"] .generated),
    .inModule 0 (.assign .comb 2 (.const 9 4) .generated),
    .inModule 0 (.openTransaction 0 .one .generated),
    .inModule 0 .branches,
    .inModule 0 (.branch 1 (.signal 3 2)), .inModule 0 (.assign .comb 2 (.const 1 4) .generated),
    .inModule 0 .leave,
    .inModule 0 (.branch 1 (.signal 4 1)), .inModule 0 (.assign .comb 2 (.const 1 1) .generated),
    .inModule 0 (.assign .avComb 3 (.const 6 4) .generated), .inModule 0 .leave,
    .inModule 0 (.otherwise 1), .inModule 0 (.assign .comb 2 (.const 3 2) .generated),
    .inModule 0 (.nextState 0 "busy" .generated), .inModule 0 .leave,
    .inModule 0 (.enterState 0 "busy" .generated), .inModule 0 (.assign .sync 4 (.const 5 4) .generated),
    .inModule 0 .leave, .inModule 0 .leaveBody]

/-- What the signals 2 (the grant), 3, 4 and 8 (the state) carry. -/
def carried (grant a b r state : Word) : Valuation := fun x =>
  if x = 2 then grant else if x = 3 then a else if x = 4 then b else if x = 7 then r else if x = 8 then state else 0

theorem driver_of_guarded : ∃ (d : Draft) (x : Trial) (wire reg : Expr), (start {}).run guarded = some d ∧
    d.design.elaborate {} = .ok (.ok x.elaborated, x.sink) ∧
    x.elaborated.netlist.driver? ⟨5, 4, .wire⟩ = some wire ∧ x.elaborated.netlist.driver? ⟨7, 4, .reg⟩ = some reg ∧
    wire.eval (carried 1 2 1 0 0) = 1 ∧ wire.eval (carried 1 0 0 0 0) = 3 ∧ wire.eval (carried 0 0 0 0 0) = 9 ∧
    reg.eval (carried 1 0 0 7 1) = 5 ∧ reg.eval (carried 1 0 0 7 0) = 7 := by
  have htrial : ∃ d ∈ (start {}).run guarded, d.trial?.isSome = true := by decide +kernel
  obtain ⟨d, hd, htrial⟩ := htrial
  obtain ⟨x, hx⟩ := Option.isSome_iff_exists.1 htrial
  have hwritten : (∃ w ∈ (transcript {} guarded).written, w.target = ⟨5, 4, .wire⟩) ∧
      ∃ w ∈ (transcript {} guarded).written, w.target = ⟨7, 4, .reg⟩ := by
    decide +kernel
  have hfits : ∀ w ∈ (transcript {} guarded).written, w.fits = true := by decide +kernel
  have hvalues : (transcript {} guarded).value ⟨5, 4, .wire⟩ (carried 1 2 1 0 0) = 1 ∧
      (transcript {} guarded).value ⟨5, 4, .wire⟩ (carried 1 0 0 0 0) = 3 ∧
      (transcript {} guarded).value ⟨5, 4, .wire⟩ (carried 0 0 0 0 0) = 9 ∧
      (transcript {} guarded).value ⟨7, 4, .reg⟩ (carried 1 0 0 7 1) = 5 ∧
      (transcript {} guarded).value ⟨7, 4, .reg⟩ (carried 1 0 0 7 0) = 7 := by
    decide +kernel
  obtain ⟨-, -, he, -⟩ := trial_ok hx
  obtain ⟨wire, hwire, -, hw⟩ := driver_follows_transcript hd he hwritten.1
    fun w hw => hfits w (List.mem_of_mem_filter hw)
  obtain ⟨reg, hreg, -, hr⟩ := driver_follows_transcript hd he hwritten.2
    fun w hw => hfits w (List.mem_of_mem_filter hw)
  refine ⟨d, x, wire, reg, hd, he, hwire, hreg, ?_⟩
  rw [hw, hw, hw, hr, hr]
  exact hvalues

/-- An arm whose condition has a bit beyond its width, with two assignments in it, and a value that has such bits. -/
def overfull : List Action :=
  [.transaction "T" .generated, .openModule "",
    .inModule 0 (.signal "c" 1 .input 0 .generated), .inModule 0 (.signal "w" 4 .wire 0 .generated),
    .inModule 0 (.signal "v" 4 .wire 0 .generated), .inModule 0 (.signal "u" 8 .wire 0 .generated),
    .inModule 0 (.openTransaction 0 .one .generated),
    .inModule 0 (.when (.mux (.signal 3 1) (.const 2 1) (.const 0 1))),
    .inModule 0 (.assign .comb 1 (.const 5 4) .generated), .inModule 0 (.assign .avComb 2 (.const 6 4) .generated),
    .inModule 0 .leave,
    .inModule 0 (.assign .topComb 3 (.const 300 4) .generated), .inModule 0 .leaveBody]

/-- The transaction runs and the condition of the arm is two, so both assignments in it are in force. The one that
asks for the body too is lost: the grant and the condition have no bit in common. The value of the last assignment
is cut to the width of its target. -/
theorem driver_departs_of_overfull : ∃ d ∈ (start {}).run overfull, ∃ x ∈ d.trial?,
    (x.elaborated.netlist.driver? ⟨4, 4, .wire⟩).map (·.eval (carried 1 1 0 0 0)) = some 0 ∧
      (transcript {} overfull).value ⟨4, 4, .wire⟩ (carried 1 1 0 0 0) = 5 ∧
    (x.elaborated.netlist.driver? ⟨5, 4, .wire⟩).map (·.eval (carried 1 1 0 0 0)) = some 6 ∧
      (transcript {} overfull).value ⟨5, 4, .wire⟩ (carried 1 1 0 0 0) = 6 ∧
    (x.elaborated.netlist.driver? ⟨6, 8, .wire⟩).map (·.eval (carried 1 1 0 0 0)) = some 44 ∧
      (transcript {} overfull).value ⟨6, 8, .wire⟩ (carried 1 1 0 0 0) = 300 := by
  decide +kernel

end Interlock
