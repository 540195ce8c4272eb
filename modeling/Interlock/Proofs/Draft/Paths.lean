import Interlock.Proofs.Expr.Fits
import Interlock.Proofs.ControlPath
import Interlock.Proofs.Draft.Effect
import Mathlib.Data.Nat.Log

/-! Paths stand for conditions: the arms on the path of a place are those whose conditions hold around
it, and two arms of one chain are never taken in the same cycle. So two places whose paths part at two
arms of one chain exclude each other. A chain is known by its path and number; entering the state of a
machine again starts the numbers inside it from zero again, so the paths of two places may part at arms
of two chains that have one number. -/

namespace Interlock.Draft

/-- No two alternatives hold together, whatever the signals are. -/
def Apart (arms : List (Nat × Expr)) : Prop :=
  ∀ a ∈ arms, ∀ b ∈ arms, a.1 ≠ b.1 → ∀ σ, ¬ (a.2.truth σ = true ∧ b.2.truth σ = true)

/-- What a chain keeps while its arms are entered, by what it was opened for. -/
def Keeps : Opener → List (Nat × Expr) → Prop
  | .when _, arms => ∀ a ∈ arms, a.1 = 0
  | .branches b, arms =>
    b.taken.width = 1 ∧ Apart arms ∧
      ∀ a ∈ arms, a.1 < b.arms ∧ ∀ σ, a.2.truth σ = true → b.taken.truth σ = true
  | .machine m, arms =>
    m.states.length ≤ 2 ^ m.state.width ∧ m.state.width ≤ maxWidth ∧
      ∀ a ∈ arms, a.1 < m.states.length ∧ a.2 = m.inState a.1

theorem keeps_branch {b : Recording.Chain} {arms : List (Nat × Expr)} {cond : Expr}
    (h : Keeps (.branches b) arms) (hc : cond.width = 1) :
    Keeps (.branches ⟨b.number, b.arms + 1, b.taken.or cond⟩)
      (arms ++ [(b.arms, b.taken.not.and cond)]) := by
  obtain ⟨hw, hapart, hbound⟩ := h
  have htruth : ∀ σ, (b.taken.not.and cond).truth σ = (!b.taken.truth σ && cond.truth σ) := by
    intro σ
    rw [Expr.truth_and, Expr.truth_not (by omega)]
  refine ⟨?_, ?_, fun a ha => ?_⟩
  · simp [hw, hc]
  · intro x hx y hy hne σ
    rcases List.mem_append.1 hx with hx | hx <;> rcases List.mem_append.1 hy with hy | hy
    · exact hapart x hx y hy hne σ
    · -- An earlier arm that holds has been noted as taken.
      rw [List.mem_singleton] at hy
      subst hy
      rintro ⟨hxt, hyt⟩
      rw [htruth, (hbound x hx).2 σ hxt] at hyt
      exact nomatch hyt
    · rw [List.mem_singleton] at hx
      subst hx
      rintro ⟨hxt, hyt⟩
      rw [htruth, (hbound y hy).2 σ hyt] at hxt
      exact nomatch hxt
    · rw [List.mem_singleton] at hx hy
      rw [hx, hy] at hne
      exact absurd rfl hne
  · rcases List.mem_append.1 ha with ha | ha
    · refine ⟨Nat.lt_succ_of_lt (hbound a ha).1, fun σ hσ => ?_⟩
      rw [Expr.truth_or, (hbound a ha).2 σ hσ, Bool.true_or]
    · rw [List.mem_singleton] at ha
      subst ha
      refine ⟨Nat.lt_succ_self _, fun σ hσ => ?_⟩
      rw [htruth, Bool.and_eq_true] at hσ
      rw [Expr.truth_or, hσ.2, Bool.or_true]

theorem truth_inState (σ : Valuation) (m : Machine) (i : Nat) :
    (m.inState i).truth σ =
      (σ m.state.id &&& mask m.state.width == UInt64.ofNat i &&& mask m.state.width) := by
  simp only [Machine.inState, Expr.equals, Expr.truth, Expr.eval, Sig.expr, Expr.eval_constant,
    BinaryOp.apply, lowBit_toUInt64]

theorem toNat_index {i w : Nat} (hi : i < 2 ^ w) (hw : w ≤ maxWidth) :
    (UInt64.ofNat i &&& mask w).toNat = i := by
  have h64 : (2 : Nat) ^ w ≤ 2 ^ 64 := Nat.pow_le_pow_right (by decide) hw
  have hword : i % 2 ^ 64 = i := Nat.mod_eq_of_lt (by omega)
  rw [toNat_and_mask, UInt64.toNat_ofNat', hword, Nat.mod_eq_of_lt hi]

/-- The arms of every chain exclude each other. -/
theorem Keeps.apart {opener : Opener} {arms : List (Nat × Expr)} (h : Keeps opener arms) : Apart arms := by
  cases opener with
  | when number =>
    intro a ha b hb hne
    rw [h a ha, h b hb] at hne
    exact absurd rfl hne
  | branches b => exact h.2.1
  | machine m =>
    obtain ⟨hlen, hw, hstate⟩ := h
    rintro a ha b hb hne σ ⟨hi, hj⟩
    obtain ⟨hil, hie⟩ := hstate a ha
    obtain ⟨hjl, hje⟩ := hstate b hb
    rw [hie, truth_inState, beq_iff_eq] at hi
    rw [hje, truth_inState, beq_iff_eq] at hj
    have := congrArg UInt64.toNat (hi.symm.trans hj)
    rw [toNat_index (Nat.lt_of_lt_of_le hil hlen) hw, toNat_index (Nat.lt_of_lt_of_le hjl hlen) hw] at this
    exact hne this

theorem le_two_pow_widthFor (states : Nat) : states ≤ 2 ^ Machine.widthFor states := by
  unfold Machine.widthFor
  split
  · rename_i h
    exact Nat.le_trans h (Nat.one_le_two_pow)
  · have hlog : states - 1 < 2 ^ ((states - 1).log2 + 1) := Nat.lt_log2_self
    have hmax : (2 : Nat) ^ ((states - 1).log2 + 1) ≤ 2 ^ max ((states - 1).log2 + 1) 1 :=
      Nat.pow_le_pow_right (by decide) (Nat.le_max_left ..)
    omega

/-! ### Places and the arms around them -/

/-- An arm of the chain of this path and number has been entered under a condition. -/
def Entered (chains : List Chain) (path : ControlPath) (number alternative : Nat) (cond : Expr) : Prop :=
  ∃ c ∈ chains, c.key = (path, number) ∧ (alternative, cond) ∈ c.arms

/-- The conditions are those of the arms of a path, both with the innermost first. -/
def Encloses (chains : List Chain) (module : ModuleId) : List PathEdge → List Expr → Prop
  | [], [] => True
  | e :: edges, cond :: conds =>
    Entered chains ⟨module, edges.reverse⟩ e.parallel e.alternative cond ∧
      Encloses chains module edges conds
  | _, _ => False

/-- Chains are only ever added, and arms to chains. -/
def Grown (chains chains' : List Chain) : Prop :=
  ∀ path number alternative cond, Entered chains path number alternative cond →
    Entered chains' path number alternative cond

theorem Encloses.mono {chains chains' : List Chain} (h : Grown chains chains') {module : ModuleId} :
    ∀ {edges : List PathEdge} {conds : List Expr}, Encloses chains module edges conds →
      Encloses chains' module edges conds
  | [], [], _ => trivial
  | _ :: _, _ :: _, ⟨harm, hrest⟩ => ⟨h _ _ _ _ harm, hrest.mono h⟩

theorem Encloses.tail {chains : List Chain} {module : ModuleId} :
    ∀ {edges : List PathEdge} {conds : List Expr}, Encloses chains module edges conds →
      Encloses chains module edges.tail conds.tail
  | [], [], _ => trivial
  | _ :: _, _ :: _, ⟨_, hrest⟩ => hrest

/-- The outer part of a path is enclosed by the outer conditions. -/
theorem Encloses.drop {chains : List Chain} {module : ModuleId} :
    ∀ {inner : List PathEdge} {e : PathEdge} {outer : List PathEdge} {conds : List Expr},
      Encloses chains module (inner ++ e :: outer) conds →
        ∃ cond ∈ conds, Entered chains ⟨module, outer.reverse⟩ e.parallel e.alternative cond
  | [], _, _, cond :: _, ⟨harm, _⟩ => ⟨cond, List.mem_cons_self .., harm⟩
  | _ :: inner, _, _, _ :: _, ⟨_, hrest⟩ => by
    obtain ⟨cond, hc, h⟩ := Encloses.drop hrest
    exact ⟨cond, List.mem_cons_of_mem _ hc, h⟩

/-- The arms around the place reached in a module. -/
def At (chains : List Chain) (r : Recording) : Prop :=
  Encloses chains r.path.module (r.path.entered.map (·.1)) r.conds

/-- What a draft keeps of paths. -/
structure PathsKept (chains : List Chain) (places : List Recording) (points : List Point) : Prop where
  keeps : ∀ c ∈ chains, Keeps c.opener c.arms
  /-- A machine is entered on the path of its chain. -/
  machine : ∀ c ∈ chains, ∀ m, c.opener = .machine m → c.path = m.path
  reached : ∀ r ∈ places, At chains r
  noted : ∀ p ∈ points, Encloses chains p.path.module p.path.edges.reverse p.conds

theorem grown_append (chains : List Chain) (c : Chain) : Grown chains (chains ++ [c]) := by
  rintro _ _ _ _ ⟨c', hc', h⟩
  exact ⟨c', List.mem_append_left _ hc', h⟩

theorem grown_set {chains : List Chain} {i : Nat} {c c' : Chain} (hi : chains[i]? = some c)
    (hkey : c'.key = c.key) (harms : ∀ a ∈ c.arms, a ∈ c'.arms) : Grown chains (chains.set i c') := by
  rintro path number alternative cond ⟨x, hx, hxk, hxa⟩
  obtain ⟨hlt, hget⟩ := List.getElem?_eq_some_iff.1 hi
  obtain ⟨j, hj, hjx⟩ := List.getElem_of_mem hx
  by_cases hij : i = j
  · subst hij
    obtain rfl : c = x := hget.symm.trans hjx
    exact ⟨c', List.mem_set hlt _, hkey.trans hxk, harms _ hxa⟩
  · refine ⟨x, ?_, hxk, hxa⟩
    have : (chains.set i c')[j]? = some x := by
      rw [List.getElem?_set_ne hij, List.getElem?_eq_getElem hj, hjx]
    exact List.mem_of_getElem? this

theorem at_enter {chains : List Chain} {r : Recording} {number alternative : Nat} {cond : Expr}
    (hr : At chains r) (harm : Entered chains r.path.current number alternative cond) :
    At chains (r.enter number alternative cond) := by
  refine ⟨?_, hr⟩
  exact harm

section

variable {chains : List Chain} {places : List Recording} {points : List Point}

theorem PathsKept.move (h : PathsKept chains places points) (i : Nat) {r : Recording}
    (hr : At chains r) : PathsKept chains (places.set i r) points := by
  refine ⟨h.keeps, h.machine, fun r' hr' => ?_, h.noted⟩
  exact forall_mem_set h.reached hr r' hr'

theorem PathsKept.mark (h : PathsKept chains places points) {r : Recording} (hr : At chains r) :
    PathsKept chains places (points ++ [⟨r.path.current, r.conds⟩]) := by
  refine ⟨h.keeps, h.machine, h.reached, fun p hp => ?_⟩
  rcases List.mem_append.1 hp with hp | hp
  · exact h.noted p hp
  · rw [List.mem_singleton] at hp
    subst hp
    unfold At at hr
    simpa [PathBuilder.current] using hr

theorem PathsKept.openPlace (h : PathsKept chains places points) {r : Recording} (hr : At chains r) :
    PathsKept chains (places ++ [r]) points := by
  refine ⟨h.keeps, h.machine, fun r' hr' => ?_, h.noted⟩
  exact forall_mem_snoc h.reached hr r' hr'

/-- A new chain. -/
theorem PathsKept.openChain (h : PathsKept chains places points) {c : Chain}
    (hc : Keeps c.opener c.arms) (hm : ∀ m, c.opener = .machine m → c.path = m.path) :
    PathsKept (chains ++ [c]) places points := by
  have hgrown := grown_append chains c
  refine ⟨fun c' hc' => ?_, fun c' hc' => ?_, fun r hr => (h.reached r hr).mono hgrown,
    fun p hp => (h.noted p hp).mono hgrown⟩
  · exact forall_mem_snoc h.keeps hc c' hc'
  · exact forall_mem_snoc h.machine hm c' hc'

/-- A new arm of a chain, entered at a place. -/
theorem PathsKept.enterArm (h : PathsKept chains places points) (i : Nat) {r : Recording}
    (hr : At chains r) {j : Nat} {c : Chain} (hj : chains[j]? = some c) (hpath : r.path.current = c.path)
    (opener : Opener) (hnumber : opener.number = c.opener.number)
    (hm : ∀ m, opener = .machine m → c.opener = .machine m) {alternative : Nat} {cond : Expr}
    (hc : Keeps opener (c.arms ++ [(alternative, cond)])) :
    PathsKept (chains.set j { c with opener, arms := c.arms ++ [(alternative, cond)] })
      (places.set i (r.enter opener.number alternative cond)) points := by
  have hlt := (List.getElem?_eq_some_iff.1 hj).1
  have hgrown : Grown chains (chains.set j { c with opener, arms := c.arms ++ [(alternative, cond)] }) :=
    grown_set hj (by simp [Chain.key, hnumber]) fun a ha => List.mem_append_left _ ha
  refine PathsKept.move ⟨fun c' hc' => ?_, fun c' hc' m hm' => ?_, fun r hr => (h.reached r hr).mono hgrown,
    fun p hp => (h.noted p hp).mono hgrown⟩ i (at_enter (hr.mono hgrown) ?_)
  · exact forall_mem_set h.keeps hc c' hc'
  · rcases List.mem_or_eq_of_mem_set hc' with hc' | rfl
    · exact h.machine c' hc' m hm'
    · exact h.machine c (List.mem_of_getElem? hj) m (hm m hm')
  · refine ⟨_, List.mem_set hlt _, ?_, List.mem_append_right _ (List.mem_singleton_self _)⟩
    rw [hpath]
    rfl

end

/-- The paths of a draft stand for conditions. -/
def SoundPaths (d : Draft) : Prop := PathsKept d.chains d.places d.points

theorem SoundPaths.place {d : Draft} {i : Nat} {r : Recording} (h : d.SoundPaths)
    (hr : d.place? i = some r) : At d.chains r := by
  unfold place? at hr
  rw [Option.map_eq_some_iff] at hr
  obtain ⟨r₀, hr₀, rfl⟩ := hr
  exact h.reached r₀ (List.mem_of_getElem? hr₀)

theorem at_leave {chains : List Chain} {r : Recording} (hr : At chains r) : At chains r.leave := by
  have htail := Encloses.tail hr
  unfold At Recording.leave PathBuilder.pop
  split
  · rename_i hnil
    simpa [hnil] using htail
  · rename_i hcons
    simpa [hcons] using htail

theorem effect_soundPaths {d d' : Draft} (h : d.SoundPaths) {i : Nat} {r : Recording}
    (hr : At d.chains r) {op : Operation} (he : Effect d i r op d') : d'.SoundPaths := by
  cases he with
  | submodule scope => exact PathsKept.openPlace h trivial
  | signal name width kind init hw => exact PathsKept.move h i hr
  | assign s guard value domain hs hkind => exact PathsKept.move h i hr
  | «when» wanted hw =>
    have hkeeps : Keeps (.when r.newChain.1) [(0, wanted)] := fun a ha => by rw [List.mem_singleton.1 ha]
    refine (PathsKept.openChain h (c := ⟨_, .when _, _⟩) hkeeps fun m hm => nomatch hm).move i ?_
    apply at_enter (hr.mono (grown_append _ _))
    exact ⟨_, List.mem_append_right _ (List.mem_singleton_self _), rfl, List.mem_singleton_self _⟩
  | branches =>
    have hkeeps : Keeps (.branches { number := r.newChain.1 }) [] :=
      ⟨rfl, fun a ha => (nomatch ha), fun a ha => (nomatch ha)⟩
    exact (PathsKept.openChain h (c := ⟨_, .branches _, _⟩) hkeeps fun m hm => nomatch hm).move i
      (hr.mono (grown_append _ _))
  | branch j b arms cond hj hw =>
    have hc := keeps_branch (h.keeps _ (List.mem_of_getElem? hj)) hw
    exact PathsKept.enterArm h i hr hj rfl (.branches ⟨b.number, b.arms + 1, b.taken.or cond⟩) rfl
      (fun m hm => nomatch hm) hc
  | leave => exact PathsKept.move h i (at_leave hr)
  | machine name m hw hstates hstate hchain hpath =>
    have hkeeps : Keeps (.machine m) [] :=
      ⟨hstates ▸ le_two_pow_widthFor _, hw, fun a ha => (nomatch ha)⟩
    refine (PathsKept.openChain h (c := ⟨m.path, .machine m, []⟩) hkeeps fun m' hm' => ?_).move i
      (hr.mono (grown_append _ _))
    rw [Opener.machine.inj hm']
  | state j path m arms index hj hpath hi =>
    have hmem := List.mem_of_getElem? hj
    obtain ⟨hlen, hw, harms⟩ := h.keeps _ hmem
    have hkeeps : Keeps (.machine m) (arms ++ [(index, m.inState index)]) := by
      refine ⟨hlen, hw, fun a ha => ?_⟩
      exact forall_mem_snoc harms ⟨hi, rfl⟩ a ha
    exact PathsKept.enterArm h i hr hj (hpath.trans (h.machine _ hmem m rfl).symm) (.machine m) rfl
      (fun m' hm' => hm') hkeeps
  | next c m guard value hc hm => exact PathsKept.move h i hr
  | openTransaction t loc info wanted ht hnew hinfo => exact PathsKept.mark (PathsKept.move h i (by exact hr)) hr
  | openMethod m loc old validator wanted activator hnew hinfo =>
    exact PathsKept.mark (PathsKept.move h i (by exact hr)) hr
  | leaveBody => exact PathsKept.move h i hr
  | closeMethod m info bus value hm hbus => exact PathsKept.move h i hr
  | stay => exact PathsKept.move h i hr
  | call m frame site enabled hbody hpath henable hw hapart =>
    exact PathsKept.mark (PathsKept.move h i (by exact hr)) hr

theorem step_soundPaths {d d' : Draft} {action : Action} (h : d.SoundPaths)
    (hd : d.step action = some d') : d'.SoundPaths := by
  cases step_change hd with
  | declared design hm => exact h
  | opened scope => exact PathsKept.openPlace h trivial
  | within i r hr he => exact effect_soundPaths h (h.place hr) he

theorem Recorded.soundPaths {d : Draft} (h : d.Recorded) : d.SoundPaths := by
  refine h.induct (fun config => ?_) fun d d' action hd hstep => step_soundPaths hd hstep
  exact ⟨fun c hc => (nomatch hc), fun c hc => (nomatch hc), fun r hr => (nomatch hr), fun p hp => (nomatch hp)⟩

/-! ### Conditions are single bits -/

/-- All conditions at the places of a draft, and at those it has noted, are single bits. -/
structure SingleBits (places : List Recording) (points : List Point) : Prop where
  reached : ∀ r ∈ places, ∀ c ∈ r.conds, c.width = 1
  noted : ∀ p ∈ points, ∀ c ∈ p.conds, c.width = 1

section

variable {places : List Recording} {points : List Point}

theorem SingleBits.move (h : SingleBits places points) (i : Nat) {r : Recording}
    (hr : ∀ c ∈ r.conds, c.width = 1) : SingleBits (places.set i r) points := by
  refine ⟨fun r' hr' => ?_, h.noted⟩
  exact forall_mem_set h.reached hr r' hr'

theorem SingleBits.mark (h : SingleBits places points) {r : Recording} (hr : ∀ c ∈ r.conds, c.width = 1) :
    SingleBits places (points ++ [⟨r.path.current, r.conds⟩]) := by
  refine ⟨h.reached, fun p hp => ?_⟩
  exact forall_mem_snoc h.noted hr p hp

/-- Entering an arm under a single bit. -/
theorem SingleBits.enter (h : SingleBits places points) (i : Nat) {r : Recording}
    (hr : ∀ c ∈ r.conds, c.width = 1) (number alternative : Nat) {cond : Expr} (hw : cond.width = 1) :
    SingleBits (places.set i (r.enter number alternative cond)) points :=
  h.move i fun c hc => (List.mem_cons.1 hc).elim (fun hc => hc ▸ hw) (hr c)

end

theorem SingleBits.place {d : Draft} {i : Nat} {r : Recording} (h : SingleBits d.places d.points)
    (hr : d.place? i = some r) : ∀ c ∈ r.conds, c.width = 1 := by
  unfold place? at hr
  obtain ⟨r₀, hr₀, rfl⟩ := Option.map_eq_some_iff.1 hr
  exact h.reached r₀ (List.mem_of_getElem? hr₀)

theorem effect_singleBits {d d' : Draft} (h : SingleBits d.places d.points) (hs : d.SoundPaths) {i : Nat}
    {r : Recording} (hr : ∀ c ∈ r.conds, c.width = 1) {op : Operation} (he : Effect d i r op d') :
    SingleBits d'.places d'.points := by
  cases he with
  | submodule scope =>
    refine ⟨fun r' hr' => ?_, h.noted⟩
    exact forall_mem_snoc h.reached (fun c hc => absurd hc List.not_mem_nil) r' hr'
  | signal name width kind init hw => exact h.move i hr
  | assign s guard value domain hs hkind => exact h.move i hr
  | «when» wanted hw => exact h.enter i (by exact hr) _ _ hw
  | branches => exact h.move i hr
  | branch j b arms cond hj hw =>
    have htaken : b.taken.width = 1 := (hs.keeps _ (List.mem_of_getElem? hj)).1
    exact h.enter i hr _ _ (by simp [htaken, hw])
  | leave => exact h.move i fun c hc => hr c (List.mem_of_mem_tail hc)
  | machine name m hw hstates hstate hchain hpath => exact h.move i hr
  | state j path m arms index hj hpath hi => exact h.enter i hr _ _ rfl
  | next c m guard value hc hm => exact h.move i hr
  | openTransaction t loc info wanted ht hnew hinfo => exact (h.move i (by exact hr)).mark hr
  | openMethod m loc old validator wanted activator hnew hinfo => exact (h.move i (by exact hr)).mark hr
  | leaveBody => exact h.move i hr
  | closeMethod m info bus value hm hbus => exact h.move i hr
  | stay => exact h.move i hr
  | call m frame site enabled hbody hpath henable hw hapart => exact (h.move i (by exact hr)).mark hr

theorem step_singleBits {d d' : Draft} {action : Action} (h : SingleBits d.places d.points) (hs : d.SoundPaths)
    (hd : d.step action = some d') : SingleBits d'.places d'.points := by
  cases step_change hd with
  | declared design hm => exact h
  | opened scope =>
    refine ⟨fun r hr => ?_, h.noted⟩
    exact forall_mem_snoc h.reached (fun c hc => absurd hc List.not_mem_nil) r hr
  | within i r hr he => exact effect_singleBits h hs (h.place hr) he

theorem Recorded.singleBits {d : Draft} (h : d.Recorded) : SingleBits d.places d.points := by
  have hboth : d.SoundPaths ∧ SingleBits d.places d.points := by
    refine Recorded.induct (P := fun d => d.SoundPaths ∧ SingleBits d.places d.points) (fun config => ?_)
      (fun d d' action hd hstep => ⟨step_soundPaths hd.1 hstep, step_singleBits hd.2 hd.1 hstep⟩) h
    exact ⟨Recorded.soundPaths ⟨config, [], rfl⟩, fun r hr => (nomatch hr), fun p hp => (nomatch hp)⟩
  exact hboth.2

theorem width_cond {p : Point} (h : ∀ c ∈ p.conds, c.width = 1) : p.cond.width = 1 :=
  Expr.width_all fun c hc => h c (List.mem_reverse.1 hc)

/-! ### Exclusive points -/

/-- A number on a path has been given to one chain only. -/
def NumberedOnce (d : Draft) (key : ControlPath × Nat) : Prop :=
  (d.chains.filter fun c => c.key = key).length ≤ 1

instance (d : Draft) (key : ControlPath × Nat) : Decidable (d.NumberedOnce key) :=
  inferInstanceAs (Decidable (_ ≤ _))

theorem NumberedOnce.eq {d : Draft} {key : ControlPath × Nat} (h : d.NumberedOnce key) {c c' : Chain}
    (hc : c ∈ d.chains) (hck : c.key = key) (hc' : c' ∈ d.chains) (hck' : c'.key = key) : c = c' := by
  have hmem : c ∈ d.chains.filter fun c => c.key = key := List.mem_filter.2 ⟨hc, by simpa using hck⟩
  have hmem' : c' ∈ d.chains.filter fun c => c.key = key := List.mem_filter.2 ⟨hc', by simpa using hck'⟩
  unfold NumberedOnce at h
  generalize (d.chains.filter fun c => c.key = key) = l at h hmem hmem'
  rcases l with _ | ⟨x, _ | ⟨y, l⟩⟩
  · exact nomatch hmem
  · rw [List.mem_singleton.1 hmem, List.mem_singleton.1 hmem']
  · simp at h

theorem truth_cond (σ : Valuation) (p : Point) :
    p.cond.truth σ = true ↔ ∀ e ∈ p.conds, e.truth σ = true := by
  simp [Point.cond]

/-- Two places whose paths part at arms of one chain are not active together. -/
theorem SoundPaths.apart {d : Draft} (h : d.SoundPaths) {p q : Point} (hp : p ∈ d.points)
    (hq : q ∈ d.points) (hx : p.path.exclusiveWith q.path = true)
    (honce : ∀ key, p.path.partsAt q.path = some key → d.NumberedOnce key) (σ : Valuation) :
    ¬ (p.cond.truth σ = true ∧ q.cond.truth σ = true) := by
  obtain ⟨pre, a, b, as, bs, hpath, hqath, halt, hpar, hparts⟩ := ControlPath.parts_of_exclusive hx
  have hpe := h.noted p hp
  have hqe := h.noted q hq
  have hrev : ∀ (x : PathEdge) (xs : List PathEdge),
      (pre ++ x :: xs).reverse = xs.reverse ++ x :: pre.reverse := by simp
  rw [hpath, hrev] at hpe
  rw [hqath, hrev] at hqe
  obtain ⟨e, he, c, hc, hck, hca⟩ := hpe.drop
  obtain ⟨f, hf, c', hc', hck', hca'⟩ := hqe.drop
  rw [List.reverse_reverse] at hck hck'
  rw [← hpar] at hck'
  obtain rfl := (honce _ hparts).eq hc hck hc' hck'
  rintro ⟨hpt, hqt⟩
  exact (h.keeps c hc).apart _ hca _ hca' halt σ
    ⟨(truth_cond σ p).1 hpt e he, (truth_cond σ q).1 hqt f hf⟩

end Interlock.Draft
