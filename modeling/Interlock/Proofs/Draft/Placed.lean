import Interlock.Proofs.Design.Gains
import Interlock.Proofs.Draft.Design
import Interlock.Proofs.Draft.Paths

/-! Bodies and calls are where their paths say: the wire by which a body is entered carries the conditions
of the place where it was opened, and the enable of a call those of the place of the call. Two calls of a
method in one body are on paths that exclude each other. -/

namespace Interlock

namespace Recording

/-- The sites of each method after one has been added. -/
theorem lookup_addSite (calls : List (NodeId × List CallSite)) (m m' : NodeId) (site : CallSite) :
    (addSite calls m site).lookup m' =
      if m' = m then some ((calls.lookup m).getD [] ++ [site]) else calls.lookup m' := by
  have lookup_map : ∀ calls : List (NodeId × List CallSite),
      (calls.map fun c => if c.1 = m then (m, c.2 ++ [site]) else c).lookup m' =
        if m' = m then (calls.lookup m').map (· ++ [site]) else calls.lookup m' := by
    intro calls
    induction calls with
    | nil => simp
    | cons c cs ih =>
      obtain ⟨x, sites⟩ := c
      rw [List.map_cons, List.lookup_cons, ih, List.lookup_cons]
      by_cases hx : x = m
      · subst hx
        by_cases hm : m' = x
        · simp [hm]
        · simp [hm, show (m' == x) = false by simpa using hm]
      · by_cases hm : m' = m
        · subst hm
          simp [hx, show (m' == x) = false by simpa using Ne.symm hx]
        · simp [hx, hm]
  unfold addSite
  split
  · rename_i hany
    rw [lookup_map]
    split
    · rename_i hm
      subst hm
      obtain ⟨⟨x, sites⟩, hmem, hx⟩ := List.any_eq_true.1 hany
      obtain rfl : x = m' := by simpa using hx
      cases hl : calls.lookup x with
      | some sites => rfl
      | none =>
        rw [List.lookup_eq_none_iff] at hl
        exact absurd (hl _ hmem) (by simp)
    · rfl
  · rename_i hany
    have hnone : calls.lookup m = none := by
      rw [List.lookup_eq_none_iff]
      intro c hc
      rw [Bool.not_eq_true, List.any_eq_false] at hany
      have hne : c.1 ≠ m := by simpa using hany c hc
      simpa using Ne.symm hne
    rw [List.lookup_append, List.lookup_cons]
    by_cases hm : m' = m
    · subst hm
      simp [hnone]
    · simp [hm, show (m' == m) = false by simpa using hm]

end Recording

theorem Node.sitesTo_addSite (n : Node) (m m' : NodeId) (site : CallSite) :
    ({ n with calls := Recording.addSite n.calls m site } : Node).sitesTo m' =
      if m' = m then n.sitesTo m ++ [site] else n.sitesTo m' := by
  unfold Node.sitesTo
  rw [Recording.lookup_addSite]
  split <;> rfl

namespace Draft

open Design

/-- A signal by which no body is entered. -/
def Aside (d : Design) (x : Nat) : Prop :=
  x < d.netlist.signals.size ∧ ∀ i n, d.nodes.get? i = some n → x ≠ n.entry

/-- What a design keeps of the places of its bodies and calls. -/
structure Placed (d : Design) (points : List Point) (bodies : List (NodeId × MethodInfo)) : Prop where
  sites : ∀ i n, d.nodes.get? i = some n → ∀ m, ∀ s ∈ n.sitesTo m, ∃ p ∈ points, s.path = p.path ∧
    ∃ e, s.enable = p.cond.and e ∧ e.width = 1
  apart : ∀ i n, d.nodes.get? i = some n → ∀ m,
    (n.sitesTo m).Pairwise fun s s' => s.path.exclusiveWith s'.path = true
  unopened : ∀ i n, d.nodes.get? i = some n → n.defLoc = none →
    n.path = none ∧ ∀ a ∈ d.assigns, a.target ≠ n.entry
  opened : ∀ i n, d.nodes.get? i = some n → ∀ path, n.path = some path → ∃ p ∈ points, p.path = path ∧
    ∃ e, Drivers.Drives d.assigns n.entry (p.cond.and e)
  results : ∀ b ∈ bodies, ∀ bus, b.2.dataOut = some bus → Aside d bus

variable {d d' : Design} {points : List Point} {bodies : List (NodeId × MethodInfo)}

theorem aside_of_foreign {x : Nat} (h : d.Foreign x) : Aside d x :=
  ⟨h.1, fun i n hn he => h.2 i n hn (he ▸ Node.control_subset n.entry_mem_control)⟩

theorem Aside.grows {x : Nat} (hx : Aside d x) (hsize : d.netlist.signals.size ≤ d'.netlist.signals.size)
    (hn : ∀ i n', d'.nodes.get? i = some n' →
      (∃ n, d.nodes.get? i = some n ∧ n'.entry = n.entry) ∨ d.netlist.signals.size ≤ n'.entry) : Aside d' x := by
  refine ⟨Nat.lt_of_lt_of_le hx.1 hsize, fun i n' hi he => ?_⟩
  rcases hn i n' hi with ⟨n, hi', hentry⟩ | hle
  · exact hx.2 i n hi' (he.trans hentry)
  · exact absurd (he ▸ hx.1) (Nat.not_lt.2 hle)

theorem Placed.widens (h : Placed d points bodies) (hw : Widens d d') : Placed d' points bodies := by
  refine ⟨?_, ?_, ?_, ?_, fun b hb bus hbus => (h.results b hb bus hbus).grows hw.size fun i n hi => ?_⟩
  · rw [hw.nodes]
    exact h.sites
  · rw [hw.nodes]
    exact h.apart
  · rw [hw.nodes, hw.assigns]
    exact h.unopened
  · rw [hw.nodes, hw.assigns]
    exact h.opened
  · exact .inl ⟨n, hw.nodes ▸ hi, rfl⟩

theorem Placed.adds (h : Placed d points bodies) (hd : d.Sound) (ha : Adds d d') : Placed d' points bodies := by
  obtain ⟨d₁, name, loc, kind, hw, rfl, -, hnew⟩ := ha
  have h₁ := h.widens hw
  have hentry := hnew _ (Node.control_subset (Node.entry_mem_control { id := d.nodes.size, name, loc, kind }))
  have cases_node : ∀ i n, (d₁.addNode name loc kind).2.nodes.get? i = some n →
      d₁.nodes.get? i = some n ∨ n = { id := d.nodes.size, name, loc, kind } := by
    intro i n hi
    rw [get?_addNode, hw.nodes] at hi
    split at hi
    · rename_i he
      subst he
      exact .inr (Option.some.inj hi).symm
    · exact .inl (hw.nodes ▸ hi)
  refine ⟨fun i n hi m s hs => ?_, fun i n hi m => ?_, fun i n hi hloc => ?_, fun i n hi path hpath => ?_,
    fun b hb bus hbus => (h.results b hb bus hbus).grows hw.size fun i n hi => ?_⟩
  · rcases cases_node i n hi with hi | rfl
    · exact h₁.sites i n hi m s hs
    · exact nomatch hs
  · rcases cases_node i n hi with hi | rfl
    · exact h₁.apart i n hi m
    · exact .nil
  · rcases cases_node i n hi with hi | rfl
    · exact h₁.unopened i n hi hloc
    · refine ⟨rfl, fun a ha he => ?_⟩
      have ha : a ∈ d.assigns := hw.assigns ▸ ha
      exact absurd (hd.targets a ha) (Nat.not_lt.2 (he ▸ hentry))
  · rcases cases_node i n hi with hi | rfl
    · exact h₁.opened i n hi path hpath
    · exact nomatch hpath
  · rcases cases_node i n hi with hi | rfl
    · exact .inl ⟨n, hw.nodes ▸ hi, rfl⟩
    · exact .inr hentry

/-- An assignment to a signal by which no body is entered. -/
theorem Placed.assign (h : Placed d points bodies) {a : GuardedAssign} (ha : Aside d a.target) :
    Placed (d.assign a) points bodies := by
  refine ⟨h.sites, h.apart, fun i n hi hloc => ⟨(h.unopened i n hi hloc).1, fun b hb => ?_⟩,
    fun i n hi path hpath => ?_, h.results⟩
  · exact forall_mem_snoc (h.unopened i n hi hloc).2 (ha.2 i n hi) b hb
  · obtain ⟨p, hp, hpp, e, hmem, honly⟩ := h.opened i n hi path hpath
    refine ⟨p, hp, hpp, e, List.mem_append_left _ hmem, fun b hb htarget hdomain => ?_⟩
    rcases List.mem_append.1 hb with hb | hb
    · exact honly b hb htarget hdomain
    · rw [List.mem_singleton.1 hb] at htarget
      exact absurd htarget (ha.2 i n hi)

/-- A change of a node that leaves its place, its entry and its calls as they are. -/
theorem Placed.modify (h : Placed d points bodies) (id : NodeId) {f : Node → Node}
    (hf : ∀ n, d.nodes.get? id = some n → (f n).entry = n.entry ∧ (f n).path = n.path ∧
      (f n).defLoc = n.defLoc ∧ (f n).calls = n.calls) : Placed (d.modifyNode id f) points bodies := by
  have node_of : ∀ i n', (d.modifyNode id f).nodes.get? i = some n' → ∃ n, d.nodes.get? i = some n ∧
      n'.entry = n.entry ∧ n'.path = n.path ∧ n'.defLoc = n.defLoc ∧ n'.calls = n.calls := by
    intro i n' hi
    rcases exists_of_modifyNode hi with ⟨-, hi⟩ | ⟨rfl, n, hn, rfl⟩
    · exact ⟨n', hi, rfl, rfl, rfl, rfl⟩
    · exact ⟨n, hn, hf n hn⟩
  refine ⟨fun i n' hi m s hs => ?_, fun i n' hi m => ?_, fun i n' hi hloc => ?_, fun i n' hi path hpath => ?_,
    fun b hb bus hbus => (h.results b hb bus hbus).grows (Nat.le_refl _) fun i n' hi => ?_⟩
  all_goals obtain ⟨n, hn, hentry, hnpath, hnloc, hcalls⟩ := node_of i n' hi
  · unfold Node.sitesTo at hs
    rw [hcalls] at hs
    exact h.sites i n hn m s hs
  · unfold Node.sitesTo
    rw [hcalls]
    exact h.apart i n hn m
  · rw [hnpath, hentry]
    exact h.unopened i n hn (hnloc ▸ hloc)
  · rw [hentry]
    exact h.opened i n hn path (hnpath ▸ hpath)
  · exact .inl ⟨n, hn, hentry⟩

/-- Another point is noted. -/
theorem Placed.note (h : Placed d points bodies) (p : Point) : Placed d (points ++ [p]) bodies := by
  refine ⟨fun i n hi m s hs => ?_, h.apart, h.unopened, fun i n hi path hpath => ?_, h.results⟩
  · obtain ⟨q, hq, hsite⟩ := h.sites i n hi m s hs
    exact ⟨q, List.mem_append_left _ hq, hsite⟩
  · obtain ⟨q, hq, hdriven⟩ := h.opened i n hi path hpath
    exact ⟨q, List.mem_append_left _ hq, hdriven⟩

/-- A body is opened: its node gets the path, and its entry the conditions there. -/
theorem Placed.openBody (h : Placed d points bodies) (hd : d.Sound) (d' : Design) (n₁ : Node) (p : Point)
    (wanted : Expr) {id : NodeId} {n₀ : Node} (hn₀ : d.nodes.get? id = some n₀) (hnew : n₀.defLoc = none)
    (hentry : n₁.entry = n₀.entry)
    (hpath : n₁.path = some p.path) (hloc : n₁.defLoc.isSome = true) (hcalls : n₁.calls = n₀.calls)
    (hnodes : ∀ i n', d'.nodes.get? i = some n' → (i = id ∧ n' = n₁) ∨ (i ≠ id ∧ d.nodes.get? i = some n'))
    (hsize : d.netlist.signals.size ≤ d'.netlist.signals.size) (hassigns : d'.assigns = d.assigns) :
    Placed (d'.drive n₀.entry (p.cond.and wanted)) (points ++ [p]) bodies := by
  have cases_node : ∀ i n', d'.nodes.get? i = some n' →
      (i = id ∧ n' = n₁) ∨ (d.nodes.get? i = some n' ∧ n'.entry ≠ n₀.entry) := by
    intro i n' hi
    refine (hnodes i n' hi).imp_right fun ⟨hne, hi⟩ => ⟨hi, fun he => hne ?_⟩
    have hmem := Node.control_subset n'.entry_mem_control
    exact hd.distinct i id n' n₀ hi hn₀ _ hmem (he ▸ Node.control_subset n₀.entry_mem_control)
  obtain ⟨-, hfree⟩ := h.unopened id n₀ hn₀ hnew
  have hnoted := h.note p
  have hall : (d'.drive n₀.entry (p.cond.and wanted)).assigns =
      d.assigns ++ [Drivers.always n₀.entry (p.cond.and wanted)] := by
    rw [← hassigns]
    rfl
  refine ⟨fun i n' hi m s hs => ?_, fun i n' hi m => ?_, fun i n' hi hloc' => ?_, fun i n' hi path hpath' => ?_,
    fun b hb bus hbus => (h.results b hb bus hbus).grows hsize fun i n' hi => ?_⟩
  · rcases cases_node i n' hi with ⟨rfl, rfl⟩ | ⟨hi, -⟩
    · unfold Node.sitesTo at hs
      rw [hcalls] at hs
      exact hnoted.sites _ n₀ hn₀ m s hs
    · exact hnoted.sites i n' hi m s hs
  · rcases cases_node i n' hi with ⟨rfl, rfl⟩ | ⟨hi, -⟩
    · unfold Node.sitesTo
      rw [hcalls]
      exact h.apart _ n₀ hn₀ m
    · exact h.apart i n' hi m
  · rcases cases_node i n' hi with ⟨rfl, rfl⟩ | ⟨hi, hne⟩
    · rw [hloc'] at hloc
      exact nomatch hloc
    · refine ⟨(h.unopened i n' hi hloc').1, fun a ha => ?_⟩
      rw [hall] at ha
      exact forall_mem_snoc (h.unopened i n' hi hloc').2 (Ne.symm hne) a ha
  · rcases cases_node i n' hi with ⟨rfl, rfl⟩ | ⟨hi, hne⟩
    · -- The entry was free until now.
      obtain rfl : p.path = path := Option.some.inj (hpath.symm.trans hpath')
      refine ⟨p, List.mem_append_right _ (List.mem_singleton_self _), rfl, wanted, ?_⟩
      rw [hall, hentry]
      refine ⟨List.mem_append_right _ (List.mem_singleton_self _), fun a ha htarget _ => ?_⟩
      rcases List.mem_append.1 ha with ha | ha
      · exact absurd htarget (hfree a ha)
      · exact List.mem_singleton.1 ha
    · obtain ⟨q, hq, hqp, e, hmem, honly⟩ := hnoted.opened i n' hi path hpath'
      refine ⟨q, hq, hqp, e, ?_⟩
      rw [hall]
      refine ⟨List.mem_append_left _ hmem, fun a ha htarget hdomain => ?_⟩
      rcases List.mem_append.1 ha with ha | ha
      · exact honly a ha htarget hdomain
      · rw [List.mem_singleton.1 ha] at htarget
        exact absurd htarget (Ne.symm hne)
  · rcases cases_node i n' hi with ⟨rfl, rfl⟩ | ⟨hi, -⟩
    · exact .inl ⟨n₀, hn₀, hentry⟩
    · exact .inl ⟨n', hi, rfl⟩

/-- A call is recorded in a body, apart from those of the same method. -/
theorem Placed.call (h : Placed d points bodies) (p : Point) (id m : NodeId) (site : CallSite) {enabled : Expr}
    (hpath : site.path = p.path) (henable : site.enable = p.cond.and enabled) (hw : enabled.width = 1)
    (hapart : ∀ s ∈ (d.node id).sitesTo m, s.path.exclusiveWith site.path = true) :
    Placed (d.modifyNode id fun n => { n with calls := Recording.addSite n.calls m site }) (points ++ [p])
      bodies := by
  have hnoted := h.note p
  refine ⟨fun i n' hi m' s hs => ?_, fun i n' hi m' => ?_, fun i n' hi hloc => ?_, fun i n' hi path hnpath => ?_,
    fun b hb bus hbus => (h.results b hb bus hbus).grows (Nat.le_refl _) fun i n' hi => ?_⟩
  all_goals rcases exists_of_modifyNode hi with ⟨-, hi⟩ | ⟨rfl, n, hn, rfl⟩
  · exact hnoted.sites i n' hi m' s hs
  · rw [Node.sitesTo_addSite] at hs
    split at hs
    · rcases List.mem_append.1 hs with hs | hs
      · exact hnoted.sites _ n hn m s hs
      · rw [List.mem_singleton.1 hs]
        exact ⟨p, List.mem_append_right _ (List.mem_singleton_self _), hpath, enabled, henable, hw⟩
    · exact hnoted.sites _ n hn m' s hs
  · exact h.apart i n' hi m'
  · rw [Node.sitesTo_addSite]
    split
    · rw [List.pairwise_append]
      refine ⟨h.apart _ n hn m, List.pairwise_singleton _ _, fun s hs s' hs' => ?_⟩
      rw [List.mem_singleton.1 hs']
      apply hapart s
      unfold Design.node
      rw [hn]
      exact hs
    · exact h.apart _ n hn m'
  · exact h.unopened i n' hi hloc
  · exact h.unopened _ n hn hloc
  · exact hnoted.opened i n' hi path hnpath
  · exact hnoted.opened _ n hn path hnpath
  · exact .inl ⟨n', hi, rfl⟩
  · exact .inl ⟨n, hn, rfl⟩

/-- A method's result bus is not what it is entered by, nor is any other body. -/
theorem aside_of_bus (hd : d.Sound) {m : NodeId} {n : Node} {info : MethodInfo} {bus : SignalId}
    (hn : d.nodes.get? m = some n) (hk : n.kind = .method info) (hbus : info.dataOut = some bus) : Aside d bus := by
  have hmem : bus ∈ n.buses := by
    unfold Node.buses
    simp [hk, hbus]
  have hwires : bus ∈ n.wires := List.mem_append_right _ hmem
  refine ⟨(hd.nodes m n hn).declared _ hwires, fun i n' hi he => ?_⟩
  have hentry := n'.entry_mem_control
  rw [← he] at hentry
  obtain rfl := hd.distinct i m n' n hi hn _ (Node.control_subset hentry) hwires
  obtain rfl : n = n' := Option.some.inj (hn.symm.trans hi)
  exact (List.nodup_append.1 (hd.nodes i n hn).nodup).2.2 _ hentry _ hmem rfl

/-- The node of a body that begins. -/
def openedNode (r : Recording) (loc : Location) (n : Node) : Node :=
  { n with
    defOrder := some r.design.nextDefOrder
    defLoc := some loc
    path := some r.path.current }

theorem opened_cases {r : Recording} {id j : NodeId} {loc : Location} {n n' : Node}
    (hn : r.design.nodes.get? id = some n) (h : (r.opened id loc).nodes.get? j = some n') :
    (j = id ∧ n' = openedNode r loc n) ∨ (j ≠ id ∧ r.design.nodes.get? j = some n') := by
  rcases exists_of_modifyNode h with hother | ⟨rfl, n₂, hn₂, rfl⟩
  · exact .inr hother
  · obtain rfl : n = n₂ := Option.some.inj (hn.symm.trans hn₂)
    exact .inl ⟨rfl, rfl⟩

/-- Bodies and calls are where their paths say. -/
def SoundPlaces (d : Draft) : Prop := Placed d.design d.points d.bodies

theorem effect_soundPlaces {d d' : Draft} (h : d.SoundPlaces) (hs : d.SoundDesign) {i : Nat} {r : Recording}
    (hr : r.design = d.design) {op : Operation} (he : Effect d i r op d') : d'.SoundPlaces := by
  have hp : Placed r.design d.points d.bodies := by rw [hr]; exact h
  have hd : DesignKept r.design d.signals d.chains d.bodies := by rw [hr]; exact hs
  have hopened : Widens r.design { r.design with nextDefOrder := r.design.nextDefOrder + 1 } :=
    ⟨rfl, rfl, rfl, rfl, rfl, Nat.le_refl _, fun _ _ h => h⟩
  cases he with
  | submodule scope => exact hp.widens (newModule_widens _)
  | signal name width kind init hw => exact hp.widens (newSignal_widens ..)
  | assign s guard value domain hs hkind => exact hp.assign (aside_of_foreign (hd.foreign s hs))
  | «when» wanted hw => exact hp
  | branches => exact hp
  | branch j b arms cond hj hw => exact hp
  | leave => exact hp
  | machine name m hw hstates hstate hchain hpath => exact hp.widens (newSignal_widens ..)
  | state j path m arms index hj hpath hi => exact hp
  | next c m guard value hc hm => exact hp.assign (aside_of_foreign (hd.states c hc m hm))
  | openTransaction t loc info wanted ht hnew hinfo =>
    obtain ⟨n, hn⟩ := Arena.exists_get? ht
    rw [Design.node_of_get? hn] at hnew hinfo
    have hentry : n.entry = info.request := by rw [Node.entry, hinfo]
    rw [← hentry]
    refine hp.openBody hd.sound _ (openedNode r loc n) ⟨r.path.current, r.conds⟩ wanted hn hnew rfl rfl rfl rfl
      (fun i n' hi => ?_) (Nat.le_refl _) rfl
    exact opened_cases hn hi
  | openMethod m loc old validator wanted activator hnew hinfo =>
    obtain ⟨n, hn, hk⟩ := get?_of_kind hinfo
    rw [Design.node_of_get? hn] at hnew hinfo
    have hentry : n.entry = old.ready := by rw [Node.entry, hinfo]
    have hbodies : Placed r.design d.points (d.bodies ++ [(m, { old with validator })]) := by
      refine ⟨hp.sites, hp.apart, hp.unopened, hp.opened, fun b hb bus hbus => ?_⟩
      rcases List.mem_append.1 hb with hb | hb
      · exact hp.results b hb bus hbus
      · rw [List.mem_singleton.1 hb] at hbus
        exact aside_of_bus hd.sound hn hk hbus
    have hplaced := hbodies.openBody hd.sound
      ((r.opened m loc).modifyNode m fun n => { n with kind := .method { old with validator } })
      { openedNode r loc n with kind := .method { old with validator } } ⟨r.path.current, r.conds⟩ wanted hn hnew
      (by rw [hentry]; rfl) rfl rfl rfl (fun i n' hi => ?_) (Nat.le_refl _) rfl
    · rw [hentry] at hplaced
      exact hplaced
    · rcases exists_of_modifyNode hi with ⟨hne, hi⟩ | ⟨rfl, n₂, hn₂, rfl⟩
      · exact .inr ⟨hne, ((opened_cases hn hi).resolve_left fun he => hne he.1).2⟩
      · obtain ⟨-, rfl⟩ := (opened_cases hn hn₂).resolve_right fun he => he.1 rfl
        exact .inl ⟨rfl, rfl⟩
  | leaveBody => exact hp
  | closeMethod m info bus value hm hbus => exact hp.assign (hp.results _ hm bus hbus)
  | stay => exact hp
  | call m frame site enabled hbody hpath henable hw hapart =>
    exact hp.call ⟨r.path.current, r.conds⟩ frame.node m site hpath henable hw hapart

theorem step_soundPlaces {d d' : Draft} {action : Action} (h : d.SoundPlaces) (hs : d.SoundDesign)
    (hd : d.step action = some d') : d'.SoundPlaces := by
  cases action with
  | transaction name loc =>
    simp only [step, Option.some.injEq] at hd
    subst hd
    exact Placed.adds h hs.sound (declareTransaction_adds ..)
  | method decl loc =>
    simp only [step, Option.bind_eq_bind, Option.bind_eq_some_iff, Option.pure_def, Option.some.injEq,
      Attempt.result?_eq_some] at hd
    obtain ⟨⟨m, design⟩, hm, rfl⟩ := hd
    have ha := addMethod_adds d.design decl loc
    rw [← declareMethod_ok hm] at ha
    exact Placed.adds h hs.sound ha
  | conflict a b priority loc =>
    simp only [step, Option.ite_none_right_eq_some, Option.some.injEq] at hd
    obtain ⟨-, rfl⟩ := hd
    exact ⟨h.sites, h.apart, h.unopened, h.opened, h.results⟩
  | before a b silenced loc =>
    simp only [step, Option.ite_none_right_eq_some, Option.some.injEq] at hd
    obtain ⟨-, rfl⟩ := hd
    exact ⟨h.sites, h.apart, h.unopened, h.opened, h.results⟩
  | simultaneous a others =>
    simp only [step, Option.ite_none_right_eq_some, Option.some.injEq] at hd
    obtain ⟨-, rfl⟩ := hd
    exact Placed.modify h a fun n _ => ⟨rfl, rfl, rfl, rfl⟩
  | alternatives a others =>
    simp only [step, Option.ite_none_right_eq_some, Option.some.injEq] at hd
    obtain ⟨-, rfl⟩ := hd
    exact alternatives_induct (P := fun design => Placed design d.points d.bodies) d.design a others
      (Placed.modify h a fun n _ => ⟨rfl, rfl, rfl, rfl⟩) fun _ first _ hp => hp.modify first fun n _ => ⟨rfl, rfl, rfl, rfl⟩
  | openModule scope =>
    simp only [step, Option.some.injEq] at hd
    subst hd
    exact Placed.widens h (newModule_widens _)
  | inModule i op =>
    simp only [step, Option.bind_eq_bind, Option.bind_eq_some_iff] at hd
    obtain ⟨r, hr, hop⟩ := hd
    have hrd := place?_design hr
    exact effect_soundPlaces h hs hrd (operate_effect hrd hop)

theorem Recorded.soundPlaces {d : Draft} (h : d.Recorded) : d.SoundPlaces := by
  have hboth : d.SoundDesign ∧ d.SoundPlaces := by
    refine Recorded.induct (P := fun d => d.SoundDesign ∧ d.SoundPlaces) (fun config => ?_)
      (fun d d' action hd hstep => ⟨step_soundDesign hd.1 hstep, step_soundPlaces hd.2 hd.1 hstep⟩) h
    refine ⟨Recorded.soundDesign ⟨config, [], rfl⟩, fun i n hn => ?_, fun i n hn => ?_, fun i n hn => ?_,
      fun i n hn => ?_, fun b hb => nomatch hb⟩
    all_goals exact absurd (Arena.lt_of_get? hn) (Nat.not_lt_zero i)
  exact hboth.2

end Draft

end Interlock
