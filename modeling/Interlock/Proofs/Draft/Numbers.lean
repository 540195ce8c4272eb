import Interlock.Proofs.Draft.Paths
import Mathlib.Data.List.Nodup

/-! Numbers of chains. At every place of a draft the next number is above those of all chains on its path,
and only arms that have been entered have chains inside. So while no state of a machine is entered twice,
every arm is new when it is entered, and no number is given out twice on one path. -/

namespace Interlock.Draft

/-- The numbers given out on a path are below the next one. -/
def Below (keys : List (ControlPath × Nat)) (path : ControlPath) (next : Nat) : Prop :=
  ∀ k ∈ keys, k.1 = path → k.2 < next

/-- The next number is right at the place reached in a module, and at all places around it. -/
def Counted (keys : List (ControlPath × Nat)) (module : ModuleId) : Nat → List (PathEdge × Nat) → Prop
  | next, [] => Below keys ⟨module, []⟩ next
  | next, e :: outer =>
    Below keys ⟨module, ((e :: outer).map (·.1)).reverse⟩ next ∧ Counted keys module e.2 outer

/-- What a draft keeps of the numbers of its chains. -/
structure Numbered (chains : List Chain) (places : List Recording) (modules : Nat) : Prop where
  once : (chains.map Chain.key).Nodup
  inside : ∀ c ∈ chains, ∀ pre e, c.path.edges = pre ++ [e] →
    ∃ cond, Entered chains ⟨c.path.module, pre⟩ e.parallel e.alternative cond
  below : ∀ c ∈ chains, c.path.module < modules
  counted : ∀ r ∈ places, Counted (chains.map Chain.key) r.path.module r.path.nextChain r.path.entered
  apart : (places.map (·.path.module)).Nodup
  opened : ∀ r ∈ places, r.path.module < modules

/-! ### Counting -/

section

variable {keys : List (ControlPath × Nat)} {module : ModuleId}

theorem Counted.next {next : Nat} {entered : List (PathEdge × Nat)} (h : Counted keys module next entered) :
    Below keys ⟨module, (entered.map (·.1)).reverse⟩ next := by
  cases entered with
  | nil => exact h
  | cons e outer => exact h.1

/-- A number given out at another path changes no count. -/
theorem Counted.elsewhere {k : ControlPath × Nat} {next : Nat} {entered : List (PathEdge × Nat)}
    (h : Counted keys module next entered)
    (hk : ∀ outer, outer <:+ entered → k.1 ≠ ⟨module, (outer.map (·.1)).reverse⟩) :
    Counted (keys ++ [k]) module next entered := by
  have below_append : ∀ {path next}, Below keys path next → k.1 ≠ path → Below (keys ++ [k]) path next := by
    intro path next hb hne x hx hpath
    rcases List.mem_append.1 hx with hx | hx
    · exact hb x hx hpath
    · exact absurd (List.mem_singleton.1 hx ▸ hpath) hne
  induction entered generalizing next with
  | nil => exact below_append h (hk [] List.suffix_rfl)
  | cons e outer ih =>
    refine ⟨below_append h.1 (hk _ List.suffix_rfl), ih h.2 fun inner hinner => ?_⟩
    exact hk inner (hinner.trans (List.suffix_cons e outer))

/-- The next number is given out at the place itself. -/
theorem Counted.here {next : Nat} {entered : List (PathEdge × Nat)} (h : Counted keys module next entered) :
    Counted (keys ++ [(⟨module, (entered.map (·.1)).reverse⟩, next)]) module (next + 1) entered := by
  have below_succ : Below (keys ++ [(⟨module, (entered.map (·.1)).reverse⟩, next)])
      ⟨module, (entered.map (·.1)).reverse⟩ (next + 1) := by
    intro x hx hpath
    rcases List.mem_append.1 hx with hx | hx
    · exact Nat.lt_succ_of_lt (h.next x hx hpath)
    · rw [List.mem_singleton.1 hx]
      exact Nat.lt_succ_self _
  cases entered with
  | nil => exact below_succ
  | cons e outer =>
    refine ⟨below_succ, h.2.elsewhere fun inner hinner he => ?_⟩
    -- Every path around the place is shorter than its own.
    have hlen := congrArg (fun p => p.edges.length) he
    have hle := hinner.length_le
    simp at hlen
    omega

/-- Nothing has been numbered inside an arm that is new. -/
theorem Counted.push {next : Nat} {entered : List (PathEdge × Nat)} (h : Counted keys module next entered)
    {e : PathEdge} (hnew : ∀ k ∈ keys, k.1 ≠ ⟨module, (entered.map (·.1)).reverse ++ [e]⟩) :
    Counted keys module 0 ((e, next) :: entered) := by
  refine ⟨fun k hk hpath => absurd hpath ?_, h⟩
  rw [List.map_cons, List.reverse_cons]
  exact hnew k hk

theorem Counted.pop {path : PathBuilder} (h : Counted keys path.module path.nextChain path.entered) :
    Counted keys path.pop.module path.pop.nextChain path.pop.entered := by
  unfold PathBuilder.pop
  split
  · exact h
  · rename_i he
    rw [he] at h
    exact h.2

theorem module_pop (path : PathBuilder) : path.pop.module = path.module := by
  unfold PathBuilder.pop
  split <;> rfl

/-- A module without chains. -/
theorem counted_fresh (h : ∀ k ∈ keys, k.1.module < module) : Counted keys module 0 [] := by
  intro k hk hpath
  have hlt := h k hk
  rw [hpath] at hlt
  exact absurd hlt (Nat.lt_irrefl _)

end

/-- A map does not see a change of one element that it does not see. -/
theorem map_set_same {α β : Type} {f : α → β} {l : List α} {i : Nat} {x y : α} (hi : l[i]? = some x)
    (hf : f y = f x) : (l.set i y).map f = l.map f := by
  obtain ⟨hlt, rfl⟩ := List.getElem?_eq_some_iff.1 hi
  have hlt' : i < (l.map f).length := by simpa using hlt
  rw [List.map_set, hf, ← List.getElem_map f (h := hlt'), List.set_getElem_self]

/-- The innermost arm around a place has been entered. -/
theorem At.innermost {chains : List Chain} {r : Recording} (hr : At chains r) {pre : List PathEdge} {e : PathEdge}
    (he : r.path.current.edges = pre ++ [e]) :
    ∃ cond, Entered chains ⟨r.path.module, pre⟩ e.parallel e.alternative cond := by
  have hrev : r.path.entered.map (·.1) = e :: pre.reverse := by
    have hback := congrArg List.reverse he
    simpa [PathBuilder.current] using hback
  unfold At at hr
  rw [hrev, ← List.nil_append (e :: pre.reverse)] at hr
  obtain ⟨cond, -, harm⟩ := hr.drop
  rw [List.reverse_reverse] at harm
  exact ⟨cond, harm⟩

/-! ### Steps -/

section

variable {chains : List Chain} {places : List Recording} {modules : Nat}

theorem Numbered.key_below (h : Numbered chains places modules) :
    ∀ k ∈ chains.map Chain.key, k.1.module < modules := by
  intro k hk
  obtain ⟨c, hc, rfl⟩ := List.mem_map.1 hk
  exact h.below c hc

theorem Numbered.eq_of_key (h : Numbered chains places modules) {c c' : Chain} (hc : c ∈ chains)
    (hc' : c' ∈ chains) (hkey : c.key = c'.key) : c = c' :=
  List.inj_on_of_nodup_map h.once hc hc' hkey

/-- Going on in a module. -/
theorem Numbered.move (h : Numbered chains places modules) {i : Nat} {r₀ r : Recording}
    (hi : places[i]? = some r₀) (hm : r.path.module = r₀.path.module)
    (hr : Counted (chains.map Chain.key) r.path.module r.path.nextChain r.path.entered) :
    Numbered chains (places.set i r) modules := by
  refine ⟨h.once, h.inside, h.below, fun r' hr' => ?_, ?_, fun r' hr' => ?_⟩
  · exact forall_mem_set h.counted hr r' hr'
  · rw [map_set_same hi hm]
    exact h.apart
  · rcases List.mem_or_eq_of_mem_set hr' with hr' | rfl
    · exact h.opened r' hr'
    · rw [hm]
      exact h.opened r₀ (List.mem_of_getElem? hi)

/-- A module is opened. -/
theorem Numbered.openPlace (h : Numbered chains places modules) {r : Recording}
    (hr : r.path = ⟨modules, 0, []⟩) : Numbered chains (places ++ [r]) (modules + 1) := by
  refine ⟨h.once, h.inside, fun c hc => Nat.lt_succ_of_lt (h.below c hc), fun r' hr' => ?_, ?_, fun r' hr' => ?_⟩
  · rcases List.mem_append.1 hr' with hr' | hr'
    · exact h.counted r' hr'
    · rw [List.mem_singleton.1 hr', hr]
      exact counted_fresh h.key_below
  · rw [List.map_append, List.nodup_append]
    refine ⟨h.apart, List.nodup_singleton _, fun x hx y hy hxy => ?_⟩
    obtain ⟨r', hr', rfl⟩ := List.mem_map.1 hx
    have hlt := h.opened r' hr'
    rw [List.map_singleton, List.mem_singleton, hr] at hy
    exact absurd (hxy.trans hy) (Nat.ne_of_lt hlt)
  · rcases List.mem_append.1 hr' with hr' | hr'
    · exact Nat.lt_succ_of_lt (h.opened r' hr')
    · rw [List.mem_singleton.1 hr', hr]
      exact Nat.lt_succ_self _

/-- Modules are recorded one place each. -/
theorem Numbered.module_ne (h : Numbered chains places modules) {i j : Nat} {r r' : Recording}
    (hi : places[i]? = some r) (hj : places[j]? = some r') (hij : i ≠ j) : r.path.module ≠ r'.path.module := by
  intro he
  obtain ⟨hilt, rfl⟩ := List.getElem?_eq_some_iff.1 hi
  obtain ⟨hjlt, rfl⟩ := List.getElem?_eq_some_iff.1 hj
  refine hij ((@List.Nodup.getElem_inj_iff _ _ h.apart i (by simpa using hilt) j (by simpa using hjlt)).1 ?_)
  rw [List.getElem_map, List.getElem_map, he]

/-- A chain is opened at a place, and gets the next number there. -/
theorem Numbered.openChain (h : Numbered chains places modules) {i : Nat} {r₀ r : Recording}
    (hi : places[i]? = some r₀) (hpath : r.path = r₀.path) (hr : At chains r) {c : Chain}
    (hc : c.key = (r.path.current, r.path.nextChain)) {r' : Recording}
    (hr' : r'.path = r.path.newChain.2) : Numbered (chains ++ [c]) (places.set i r') modules := by
  have hmem := List.mem_of_getElem? hi
  have hcounted := h.counted r₀ hmem
  rw [← hpath] at hcounted
  have hcpath : c.path = r.path.current := congrArg Prod.fst hc
  have hkeys : (chains ++ [c]).map Chain.key = chains.map Chain.key ++ [c.key] := by
    rw [List.map_append, List.map_singleton]
  refine ⟨?_, fun c' hc' pre e he => ?_, fun c' hc' => ?_, fun r'' hr'' => ?_, ?_, fun r'' hr'' => ?_⟩
  · rw [hkeys, List.nodup_append]
    refine ⟨h.once, List.nodup_singleton _, fun k hk k' hk' he => ?_⟩
    rw [List.mem_singleton.1 hk', hc] at he
    have hlt := hcounted.next k hk (congrArg Prod.fst he)
    rw [he] at hlt
    exact absurd hlt (Nat.lt_irrefl _)
  · rcases List.mem_append.1 hc' with hc' | hc'
    · obtain ⟨cond, harm⟩ := h.inside c' hc' pre e he
      exact ⟨cond, grown_append _ _ _ _ _ _ harm⟩
    · rw [List.mem_singleton.1 hc', hcpath] at he ⊢
      obtain ⟨cond, harm⟩ := hr.innermost he
      exact ⟨cond, grown_append _ _ _ _ _ _ harm⟩
  · rcases List.mem_append.1 hc' with hc' | hc'
    · exact h.below c' hc'
    · rw [List.mem_singleton.1 hc', hcpath]
      have hlt := h.opened r₀ hmem
      rw [← hpath] at hlt
      exact hlt
  · rw [hkeys]
    obtain ⟨j, hj⟩ := List.getElem?_of_mem hr''
    rw [List.getElem?_set] at hj
    split at hj
    · split at hj
      · obtain rfl := Option.some.inj hj
        rw [hr', hc]
        exact hcounted.here
      · exact nomatch hj
    · rename_i hij
      apply (h.counted r'' (List.mem_of_getElem? hj)).elsewhere
      intro outer _ he
      rw [hc] at he
      have hne := h.module_ne hi hj hij
      rw [← hpath] at hne
      exact hne (congrArg ControlPath.module he)
  · have hm : r'.path.module = r₀.path.module := by
      rw [hr', hpath]
      rfl
    rw [map_set_same hi hm]
    exact h.apart
  · rcases List.mem_or_eq_of_mem_set hr'' with hr'' | rfl
    · exact h.opened r'' hr''
    · have hlt := h.opened r₀ hmem
      rw [← hpath] at hlt
      rw [hr']
      exact hlt

/-- Nothing has been numbered inside an arm that has not been entered. -/
theorem Numbered.new_arm (h : Numbered chains places modules) {path : ControlPath} {e : PathEdge}
    (hnew : ∀ cond, ¬ Entered chains path e.parallel e.alternative cond) :
    ∀ k ∈ chains.map Chain.key, k.1 ≠ ⟨path.module, path.edges ++ [e]⟩ := by
  intro k hk he
  obtain ⟨c, hc, rfl⟩ := List.mem_map.1 hk
  obtain ⟨cond, harm⟩ := h.inside c hc _ _ (congrArg ControlPath.edges he)
  have hmodule := congrArg ControlPath.module he
  change c.path.module = path.module at hmodule
  rw [hmodule] at harm
  exact hnew cond harm

/-- An arm is noted in its chain. -/
theorem Numbered.noteArm (h : Numbered chains places modules) {j : Nat} {c c' : Chain}
    (hj : chains[j]? = some c) (hkey : c'.key = c.key) (harms : ∀ a ∈ c.arms, a ∈ c'.arms) :
    Numbered (chains.set j c') places modules := by
  have hkeys : (chains.set j c').map Chain.key = chains.map Chain.key := map_set_same hj hkey
  have hpath : ∀ x ∈ chains.set j c', ∃ y ∈ chains, x.path = y.path := by
    intro x hx
    rcases List.mem_or_eq_of_mem_set hx with hx | rfl
    · exact ⟨x, hx, rfl⟩
    · exact ⟨c, List.mem_of_getElem? hj, congrArg Prod.fst hkey⟩
  refine ⟨?_, fun x hx pre e he => ?_, fun x hx => ?_, ?_, h.apart, h.opened⟩
  · rw [hkeys]
    exact h.once
  · obtain ⟨y, hy, hxy⟩ := hpath x hx
    rw [hxy] at he ⊢
    obtain ⟨cond, harm⟩ := h.inside y hy pre e he
    exact ⟨cond, grown_set hj hkey harms _ _ _ _ harm⟩
  · obtain ⟨y, hy, hxy⟩ := hpath x hx
    rw [hxy]
    exact h.below y hy
  · rw [hkeys]
    exact h.counted

/-- A new arm of a chain is entered at a place on its path. -/
theorem Numbered.enterArm (h : Numbered chains places modules) {i : Nat} {r₀ r : Recording}
    (hi : places[i]? = some r₀) (hpath : r.path = r₀.path) {j : Nat} {c : Chain} (hj : chains[j]? = some c)
    (hc : r.path.current = c.path) (opener : Opener) (hnumber : opener.number = c.opener.number)
    {alternative : Nat} (hnew : alternative ∉ c.arms.map (·.1)) (cond : Expr) :
    Numbered (chains.set j { c with opener, arms := c.arms ++ [(alternative, cond)] })
      (places.set i (r.enter opener.number alternative cond)) modules := by
  have hkey : ({ c with opener, arms := c.arms ++ [(alternative, cond)] } : Chain).key = c.key := by
    simp [Chain.key, hnumber]
  have hcounted := h.counted r₀ (List.mem_of_getElem? hi)
  rw [← hpath] at hcounted
  have hfresh : ∀ cond, ¬ Entered chains r.path.current opener.number alternative cond := by
    rintro cond ⟨c', hc', hck, harm⟩
    rw [hc, hnumber] at hck
    obtain rfl := h.eq_of_key hc' (List.mem_of_getElem? hj) hck
    exact hnew (List.mem_map_of_mem harm)
  have hkeys := h.new_arm (e := ⟨alternative, opener.number⟩) hfresh
  have hmodule := congrArg PathBuilder.module hpath
  refine (h.noteArm hj hkey fun a ha => List.mem_append_left _ ha).move hi hmodule ?_
  rw [map_set_same hj hkey]
  exact hcounted.push hkeys

/-- A chain with one arm is opened at a place, and its arm entered. -/
theorem Numbered.openArm (h : Numbered chains places modules) {i : Nat} {r₀ r : Recording}
    (hi : places[i]? = some r₀) (hpath : r.path = r₀.path) (hr : At chains r) (cond : Expr) :
    Numbered (chains ++ [⟨r.path.current, .when r.newChain.1, [(0, cond)]⟩])
      (places.set i (r.newChain.2.enter r.newChain.1 0 cond)) modules := by
  have hcounted := h.counted r₀ (List.mem_of_getElem? hi)
  rw [← hpath] at hcounted
  have hfresh : ∀ cond, ¬ Entered chains r.path.current r.newChain.1 0 cond := by
    rintro cond ⟨c, hc, hck, -⟩
    have hlt := hcounted.next c.key (List.mem_map_of_mem hc) (congrArg Prod.fst hck)
    rw [hck] at hlt
    exact absurd hlt (Nat.lt_irrefl _)
  have hkeys := h.new_arm (e := ⟨0, r.newChain.1⟩) hfresh
  have hopen : Numbered (chains ++ [⟨r.path.current, .when r.newChain.1, [(0, cond)]⟩])
      (places.set i r.newChain.2) modules := h.openChain hi hpath hr rfl rfl
  obtain ⟨hlt, -⟩ := List.getElem?_eq_some_iff.1 hi
  have hset := List.getElem?_set_self (a := r.newChain.2) hlt
  have henter := hopen.move (r := r.newChain.2.enter r.newChain.1 0 cond) hset rfl <| by
    apply (hopen.counted _ (List.mem_of_getElem? hset)).push
    intro k hk he
    rw [List.map_append, List.map_singleton] at hk
    rcases List.mem_append.1 hk with hk | hk
    · exact hkeys k hk he
    · have hlen := congrArg (fun p => p.edges.length) he
      rw [List.mem_singleton.1 hk] at hlen
      simp [Chain.key, PathBuilder.current, Recording.newChain, PathBuilder.newChain] at hlen
  rw [List.set_set] at henter
  exact henter

end

/-! ### Runs -/

/-- A chain of the states of a machine. -/
def Opener.isMachine : Opener → Bool
  | machine _ => true
  | _ => false

/-- No state of a machine is entered twice. -/
def StatesOnce (d : Draft) : Prop :=
  ∀ c ∈ d.chains, c.opener.isMachine = true → (c.arms.map (·.1)).Nodup

instance (d : Draft) : Decidable d.StatesOnce :=
  inferInstanceAs (Decidable (∀ c ∈ d.chains, c.opener.isMachine = true → (c.arms.map (·.1)).Nodup))

theorem StatesOnce.before_append {d d' : Draft} {c : Chain} (hchains : d'.chains = d.chains ++ [c])
    (h : d'.StatesOnce) : d.StatesOnce := by
  intro x hx
  exact h x (hchains ▸ List.mem_append_left _ hx)

theorem StatesOnce.before_arm {d d' : Draft} {j : Nat} {c : Chain} (hj : d.chains[j]? = some c)
    (opener : Opener) {arm : Nat × Expr} (hm : opener.isMachine = c.opener.isMachine)
    (hchains : d'.chains = d.chains.set j { c with opener, arms := c.arms ++ [arm] }) (h : d'.StatesOnce) :
    d.StatesOnce := by
  intro x hx hxm
  obtain ⟨k, hk⟩ := List.getElem?_of_mem hx
  by_cases hjk : j = k
  · subst hjk
    obtain rfl : c = x := Option.some.inj (hj.symm.trans hk)
    have hlt := (List.getElem?_eq_some_iff.1 hj).1
    have hnodup := h _ (hchains ▸ List.mem_set hlt _) (hm.trans hxm)
    rw [List.map_append] at hnodup
    exact hnodup.of_append_left
  · have hk' := hk
    rw [← List.getElem?_set_ne hjk (a := { c with opener, arms := c.arms ++ [arm] }), ← hchains] at hk'
    exact h x (List.mem_of_getElem? hk') hxm

/-- No operation enters a state for the first time after the second. -/
theorem Effect.statesOnce {d d' : Draft} {i : Nat} {r : Recording} {op : Operation} (he : Effect d i r op d')
    (h : d'.StatesOnce) : d.StatesOnce := by
  cases he with
  | «when» wanted hw => exact h.before_append rfl
  | branches => exact h.before_append rfl
  | branch j b arms cond hj hw =>
    exact h.before_arm hj (.branches ⟨b.number, b.arms + 1, b.taken.or cond⟩) rfl rfl
  | machine name m hw hstates hstate hchain hpath => exact h.before_append rfl
  | state j path m arms index hj hpath hi => exact h.before_arm hj (.machine m) rfl rfl
  | _ => exact h

theorem effect_numbered {d d' : Draft} (h : Numbered d.chains d.places d.design.nextModule)
    (hs : d.SoundPaths) (honce : d'.StatesOnce) {i : Nat} {r : Recording} (hr : d.place? i = some r)
    {op : Operation} (he : Effect d i r op d') : Numbered d'.chains d'.places d'.design.nextModule := by
  have hat := hs.place hr
  rw [← place?_design hr] at h
  unfold place? at hr
  obtain ⟨r₀, hi, hr₀⟩ := Option.map_eq_some_iff.1 hr
  have hpath : r.path = r₀.path := by rw [← hr₀]
  have hcounted := h.counted r₀ (List.mem_of_getElem? hi)
  rw [← hpath] at hcounted
  have hmodule := congrArg PathBuilder.module hpath
  cases he with
  | submodule scope => exact h.openPlace rfl
  | signal name width kind init hw => exact h.move hi hmodule hcounted
  | assign s guard value domain hs hkind => exact h.move hi hmodule hcounted
  | «when» wanted hw => exact h.openArm hi hpath hat wanted
  | branches => exact h.openChain hi hpath hat rfl rfl
  | branch j b arms cond hj hw =>
    refine h.enterArm hi hpath hj rfl (.branches ⟨b.number, b.arms + 1, b.taken.or cond⟩) rfl ?_ _
    intro hmem
    obtain ⟨a, ha, hab⟩ := List.mem_map.1 hmem
    have hlt := ((hs.keeps _ (List.mem_of_getElem? hj)).2.2 a ha).1
    rw [hab] at hlt
    exact absurd hlt (Nat.lt_irrefl _)
  | leave => exact h.move hi ((module_pop r.path).trans hmodule) hcounted.pop
  | machine name m hw hstates hstate hchain hcurrent =>
    exact h.openChain (c := ⟨m.path, .machine m, []⟩) hi hpath hat (by rw [Chain.key, hcurrent, ← hchain]; rfl) rfl
  | state j path m arms index hj hcurrent hi' =>
    have hc := List.mem_of_getElem? hj
    refine h.enterArm hi hpath hj (hcurrent.trans (hs.machine _ hc m rfl).symm) (.machine m) rfl ?_ _
    have hlt := (List.getElem?_eq_some_iff.1 hj).1
    have hnodup := honce _ (List.mem_set hlt _) rfl
    rw [List.map_append, List.nodup_append] at hnodup
    exact fun hmem => hnodup.2.2 index hmem index (List.mem_singleton_self _) rfl
  | next c m guard value hc hm => exact h.move hi hmodule hcounted
  | openTransaction t loc info wanted ht hnew hinfo => exact h.move hi hmodule hcounted
  | openMethod m loc old validator wanted activator hnew hinfo => exact h.move hi hmodule hcounted
  | leaveBody => exact h.move hi hmodule hcounted
  | closeMethod m info bus value hm hbus => exact h.move hi hmodule hcounted
  | stay => exact h.move hi hmodule hcounted
  | call m frame site enabled hbody hpath henable hw hapart => exact h.move hi hmodule hcounted

theorem step_statesOnce {d d' : Draft} {action : Action} (hd : d.step action = some d') (h : d'.StatesOnce) :
    d.StatesOnce := by
  cases step_change hd with
  | declared design hm => exact h
  | opened scope => exact h
  | within i r hr he => exact he.statesOnce h

theorem step_numbered {d d' : Draft} {action : Action} (h : Numbered d.chains d.places d.design.nextModule)
    (hs : d.SoundPaths) (honce : d'.StatesOnce) (hd : d.step action = some d') :
    Numbered d'.chains d'.places d'.design.nextModule := by
  cases step_change hd with
  | declared design hm =>
    rw [hm]
    exact h
  | opened scope => exact h.openPlace rfl
  | within i r hr he => exact effect_numbered h hs honce hr he

theorem Recorded.numbered {d : Draft} (h : d.Recorded) (honce : d.StatesOnce) :
    Numbered d.chains d.places d.design.nextModule := by
  have hboth : d.SoundPaths ∧ (d.StatesOnce → Numbered d.chains d.places d.design.nextModule) := by
    refine Recorded.induct
      (P := fun d => d.SoundPaths ∧ (d.StatesOnce → Numbered d.chains d.places d.design.nextModule))
      (fun config => ⟨Recorded.soundPaths ⟨config, [], rfl⟩, fun _ => ?_⟩)
      (fun d d' action hd hstep => ⟨step_soundPaths hd.1 hstep, fun honce => ?_⟩) h
    · exact ⟨.nil, fun c hc => (nomatch hc), fun c hc => (nomatch hc), fun r hr => (nomatch hr), .nil,
        fun r hr => (nomatch hr)⟩
    · exact step_numbered (hd.2 (step_statesOnce hstep honce)) hd.1 honce hstep
  exact hboth.2 honce

/-- While no state of a machine is entered twice, no number is given out twice on one path. -/
theorem Recorded.numberedOnce {d : Draft} (h : d.Recorded) (honce : d.StatesOnce) (key : ControlPath × Nat) :
    d.NumberedOnce key := by
  have hnodup := (h.numbered honce).once
  have hcount : (d.chains.filter fun c => c.key = key).length = (d.chains.map Chain.key).count key := by
    rw [List.count, List.countP_map, List.countP_eq_length_filter]
    exact congrArg List.length (List.filter_congr fun c _ => (beq_eq_decide c.key key).symm)
  unfold NumberedOnce
  rw [hcount]
  exact List.nodup_iff_count_le_one.1 hnodup key

end Interlock.Draft
