import Interlock.Proofs.Arena
import Interlock.Proofs.Attempt
import Interlock.Proofs.Expr.Truth
import Interlock.Reach
import Mathlib.Data.List.Nodup
import Mathlib.Data.List.Perm.Subperm

/-! The ways on which calls lead from a transaction to a method, and what the call map says of them. The
walk over the calls of a transaction goes every way: fuel never runs out, since no method comes twice on
one. -/

namespace Interlock

namespace Design

variable {d : Design}

/-- The body of one node calls another, which is a method. -/
def Calls (d : Design) (caller m : NodeId) : Prop :=
  (∃ sites, (m, sites) ∈ (d.node caller).calls) ∧ ∃ info, (d.node m).method? = some info

/-- A chain of calls from a transaction to a method, with the methods in between, the direct caller
first. -/
inductive Way (d : Design) (t : NodeId) : List NodeId → NodeId → Prop
  | direct {m : NodeId} (h : d.Calls t m) : Way d t [] m
  | through {callers : List NodeId} {c m : NodeId} (hc : Way d t callers c) (h : d.Calls c m) :
      Way d t (c :: callers) m

theorem Way.calls {t m : NodeId} {callers : List NodeId} (h : d.Way t callers m) :
    d.Calls (callers.headD t) m := by
  cases h with
  | direct h => exact h
  | through _ h => exact h

theorem Way.extend {t c m : NodeId} {callers : List NodeId} (h : d.Way t callers c) (hm : d.Calls c m) :
    d.Way t (c :: callers) m := .through h hm

/-- The part of a way that ends in one of its callers. -/
theorem Way.suffix {t c m : NodeId} {inner callers : List NodeId}
    (h : d.Way t (inner ++ c :: callers) m) : d.Way t callers c := by
  induction inner generalizing m with
  | nil =>
    cases h with
    | through hc _ => exact hc
  | cons x xs ih =>
    cases h with
    | through hc _ => exact ih hc

theorem lt_of_method {m : NodeId} {info : MethodInfo} (h : (d.node m).method? = some info) :
    m < d.nodes.size := by
  unfold node at h
  cases hm : d.nodes.get? m with
  | none =>
    rw [hm] at h
    exact nomatch h
  | some n => exact Arena.lt_of_get? hm

theorem length_le_size {l : List NodeId} (hl : l.Nodup) (h : ∀ x ∈ l, x < d.nodes.size) :
    l.length ≤ d.nodes.size := by
  have hsub : l ⊆ List.range d.nodes.size := fun x hx => List.mem_range.2 (h x hx)
  have := (List.subperm_of_subset hl hsub).length_le
  rwa [List.length_range] at this

end Design

namespace CallMap

variable {d : Design} {map map' : CallMap}

/-- The conditions of all methods that a transaction reaches. -/
def conditionsOf (map : CallMap) (t : NodeId) : List Expr :=
  (map.reaches.filter fun r => r.transaction == t).map (·.readiness)

/-- No transaction has two entries for a method. -/
def Keyed (map : CallMap) : Prop := (map.reaches.map fun r => (r.transaction, r.method)).Nodup

theorem Keyed.find? (h : map.Keyed) {r : Reach} (hr : r ∈ map.reaches) :
    map.find? r.transaction r.method = some r := by
  cases hfind : map.find? r.transaction r.method with
  | none =>
    have := List.find?_eq_none.1 hfind r hr
    simp at this
  | some r' =>
    have hkey := List.find?_some hfind
    simp only [Bool.and_eq_true, beq_iff_eq] at hkey
    rw [List.inj_on_of_nodup_map h (List.mem_of_find?_eq_some hfind) hr (Prod.ext hkey.1 hkey.2)]

/-- Entries keep their transaction, method and callers. -/
def Extends (map map' : CallMap) : Prop :=
  ∀ t m r, map.find? t m = some r → ∃ r', map'.find? t m = some r' ∧ r'.transaction = r.transaction ∧
    r'.method = r.method ∧ r'.callers = r.callers

theorem Extends.refl (map : CallMap) : Extends map map := fun _ _ r hr => ⟨r, hr, rfl, rfl, rfl⟩

theorem Extends.trans {m₁ m₂ m₃ : CallMap} (h : Extends m₁ m₂) (h' : Extends m₂ m₃) : Extends m₁ m₃ := by
  intro t m r hr
  obtain ⟨r₂, hr₂, ht₂, hm₂, hc₂⟩ := h t m r hr
  obtain ⟨r₃, hr₃, ht₃, hm₃, hc₃⟩ := h' t m r₂ hr₂
  exact ⟨r₃, hr₃, ht₃.trans ht₂, hm₃.trans hm₂, hc₃.trans hc₂⟩

/-- A way has been entered, or compared with the one that was. -/
def Covers (d : Design) (map : CallMap) (t : NodeId) (callers : List NodeId) (m : NodeId) : Prop :=
  m ∉ callers ∧ ∃ r, map.find? t m = some r ∧ (r.callers = callers ∨ checkSecond d r callers = .ok ())

theorem Covers.mono {t m : NodeId} {callers : List NodeId} (hext : Extends map map')
    (h : Covers d map t callers m) : Covers d map' t callers m := by
  obtain ⟨hm, r, hr, hcheck⟩ := h
  obtain ⟨r', hr', ht', hm', hc'⟩ := hext t m r hr
  refine ⟨hm, r', hr', ?_⟩
  unfold checkSecond at hcheck ⊢
  rw [hc', ht', hm']
  exact hcheck

/-- An entry is about a way, and its readiness implies that the method is ready. -/
structure Right (d : Design) (r : Reach) : Prop where
  transaction : r.transaction ∈ d.transactions
  way : d.Way r.transaction r.callers r.method
  ready : ∀ info, (d.node r.method).method? = some info → ∀ σ, r.readiness.truth σ = true →
    (d.read info.ready).truth σ = true

theorem readiness_truth {ready : Expr} {validator : Option Validator} {calls : List (Expr × Expr)} {e : Expr}
    (h : readiness ready validator calls = .ok e) {σ : Valuation} (he : e.truth σ = true) :
    ready.truth σ = true := by
  unfold readiness at h
  cases validator with
  | none =>
    obtain rfl : ready = e := by simpa using h
    exact he
  | some v =>
    simp only at h
    induction calls generalizing ready with
    | nil =>
      obtain rfl := except_pure_ok.1 h
      exact he
    | cons c cs ih =>
      simp only [List.foldlM_cons, except_bind_ok, except_pure_ok] at h
      obtain ⟨_, ⟨check, -, rfl⟩, h⟩ := h
      have hacc := ih h
      rw [Expr.truth_and, Bool.and_eq_true] at hacc
      exact hacc.1

theorem find?_key {t m : NodeId} {r : Reach} (h : map.find? t m = some r) :
    r.transaction = t ∧ r.method = m := by
  have := List.find?_some h
  simpa using this

theorem mem_methodsOf {t m : NodeId} :
    m ∈ map.methodsOf t ↔ ∃ r ∈ map.reaches, r.transaction = t ∧ r.method = m := by
  simp [methodsOf, and_assoc]

theorem exists_find?_iff {t m : NodeId} : (∃ r, map.find? t m = some r) ↔ m ∈ map.methodsOf t := by
  rw [mem_methodsOf, ← Option.isSome_iff_exists]
  simp [find?]

/-- What an entry becomes where the method is reached a second time. -/
def narrowed (r x : Reach) : Reach :=
  if x.transaction = r.transaction ∧ x.method = r.method then
    { x with readiness := x.readiness.and r.readiness }
  else x

theorem narrowed_same (r x : Reach) : (narrowed r x).transaction = x.transaction ∧
    (narrowed r x).method = x.method ∧ (narrowed r x).callers = x.callers := by
  unfold narrowed
  split <;> exact ⟨rfl, rfl, rfl⟩

theorem find?_narrowed (r : Reach) (t m : NodeId) :
    find? ⟨map.reaches.map (narrowed r)⟩ t m = (map.find? t m).map (narrowed r) := by
  unfold find?
  rw [List.find?_map]
  congr 2
  funext x
  obtain ⟨ht, hm, -⟩ := narrowed_same r x
  simp only [Function.comp_apply, ht, hm]

/-- A reached method is new, or it has been reached on a way that may be gone beside this one. -/
theorem add_ok_iff {r : Reach} : map.add d r = .ok map' ↔
    (map.find? r.transaction r.method = none ∧ map' = ⟨map.reaches ++ [r]⟩) ∨
    ∃ prev, map.find? r.transaction r.method = some prev ∧ checkSecond d prev r.callers = .ok () ∧
      map' = ⟨map.reaches.map (narrowed r)⟩ := by
  unfold add
  cases hfind : map.find? r.transaction r.method with
  | none => simp [eq_comm]
  | some prev =>
    simp only [except_bind_ok, except_pure_ok, reduceCtorEq, false_and, false_or, Option.some.injEq, exists_eq_left']
    exact ⟨fun ⟨_, hcheck, he⟩ => ⟨hcheck, he.symm⟩, fun ⟨hcheck, he⟩ => ⟨(), hcheck, he.symm⟩⟩

theorem narrowed_of_ne {r x : Reach} (h : ¬ (x.transaction = r.transaction ∧ x.method = r.method)) :
    narrowed r x = x :=
  if_neg h

theorem find?_add {r : Reach} {u m : NodeId} (h : map.add d r = .ok map') : map'.find? u m =
    if u = r.transaction ∧ m = r.method then some (((map.find? u m).map (narrowed r)).getD r) else map.find? u m := by
  rcases add_ok_iff.1 h with ⟨hnone, rfl⟩ | ⟨prev, hprev, -, rfl⟩
  · have happend : find? ⟨map.reaches ++ [r]⟩ u m =
        (map.find? u m).or (if r.transaction == u && r.method == m then some r else none) := by
      unfold find?
      rw [List.find?_append, List.find?_singleton]
    rw [happend]
    by_cases hkey : u = r.transaction ∧ m = r.method
    · rw [if_pos hkey, hkey.1, hkey.2, hnone]
      simp
    · rw [if_neg hkey, if_neg, Option.or_none]
      rw [Bool.and_eq_true, beq_iff_eq, beq_iff_eq]
      exact fun h => hkey ⟨h.1.symm, h.2.symm⟩
  · rw [find?_narrowed]
    split
    · rename_i hkey
      obtain ⟨rfl, rfl⟩ := hkey
      rw [hprev]
      rfl
    · rename_i hkey
      cases hfind : map.find? u m with
      | none => rfl
      | some x =>
        obtain ⟨rfl, rfl⟩ := find?_key hfind
        rw [Option.map_some, narrowed_of_ne hkey]

theorem find?_add_self {r : Reach} (h : map.add d r = .ok map') :
    map'.find? r.transaction r.method = some (((map.find? r.transaction r.method).map (narrowed r)).getD r) := by
  rw [find?_add h, if_pos ⟨rfl, rfl⟩]

/-- What is true of a new entry, and is kept where an entry is narrowed, is true of all entries. -/
theorem forall_mem_add {r : Reach} {P : Reach → Prop} (h : map.add d r = .ok map') (hr : P r)
    (hnarrowed : ∀ x, P x → P (narrowed r x)) (hall : ∀ x ∈ map.reaches, P x) : ∀ x ∈ map'.reaches, P x := by
  rcases add_ok_iff.1 h with ⟨-, rfl⟩ | ⟨_, -, -, rfl⟩
  · exact forall_mem_snoc hall hr
  · intro x hx
    obtain ⟨y, hy, rfl⟩ := List.mem_map.1 hx
    exact hnarrowed y (hall y hy)

theorem narrowed_right {r x : Reach} (h : Right d x) : Right d (narrowed r x) := by
  obtain ⟨ht, hway, hready⟩ := h
  unfold narrowed
  split
  · refine ⟨ht, hway, fun info hinfo σ hσ => hready info hinfo σ ?_⟩
    rw [Expr.truth_and, Bool.and_eq_true] at hσ
    exact hσ.1
  · exact ⟨ht, hway, hready⟩

/-- The map grows, and stays right and keyed. -/
structure Advances (d : Design) (map map' : CallMap) : Prop where
  extension : Extends map map'
  right : (∀ x ∈ map.reaches, Right d x) → ∀ x ∈ map'.reaches, Right d x
  keyed : map.Keyed → map'.Keyed

theorem Advances.refl (map : CallMap) : Advances d map map := ⟨.refl map, fun h => h, fun h => h⟩

theorem Advances.trans {m₁ m₂ m₃ : CallMap} (h : Advances d m₁ m₂) (h' : Advances d m₂ m₃) :
    Advances d m₁ m₃ :=
  ⟨h.extension.trans h'.extension, fun hall => h'.right (h.right hall), fun hkeyed => h'.keyed (h.keyed hkeyed)⟩

theorem add_extends {r : Reach} (h : map.add d r = .ok map') : Extends map map' := by
  intro t m x hx
  rw [find?_add h, hx]
  split
  · exact ⟨_, rfl, narrowed_same r x⟩
  · exact ⟨x, rfl, rfl, rfl, rfl⟩

theorem add_keyed {r : Reach} (h : map.add d r = .ok map') (hkeyed : map.Keyed) : map'.Keyed := by
  unfold Keyed at hkeyed ⊢
  rcases add_ok_iff.1 h with ⟨hnone, rfl⟩ | ⟨_, -, -, rfl⟩
  · rw [List.map_append, List.map_singleton, List.nodup_append]
    refine ⟨hkeyed, List.nodup_singleton _, fun a ha b hb hab => ?_⟩
    obtain ⟨x, hx, rfl⟩ := List.mem_map.1 ha
    have hnot := List.find?_eq_none.1 hnone x hx
    obtain ⟨ht, hm⟩ := Prod.mk.inj (hab.trans (List.mem_singleton.1 hb))
    simp [ht, hm] at hnot
  · have hkeys : (map.reaches.map (narrowed r)).map (fun r => (r.transaction, r.method)) =
        map.reaches.map fun r => (r.transaction, r.method) := by
      rw [List.map_map]
      refine List.map_congr_left fun x _ => ?_
      rw [Function.comp_apply, (narrowed_same r x).1, (narrowed_same r x).2.1]
    rwa [hkeys]

theorem add_covers {r : Reach} (h : map.add d r = .ok map') (hnew : r.method ∉ r.callers) :
    Covers d map' r.transaction r.callers r.method := by
  rcases add_ok_iff.1 h with ⟨hnone, -⟩ | ⟨prev, hprev, hcheck, -⟩
  · have hself := find?_add_self h
    rw [hnone] at hself
    exact ⟨hnew, r, hself, .inl rfl⟩
  · exact Covers.mono (add_extends h) ⟨hnew, prev, hprev, .inr hcheck⟩

/-- What becomes of the map where a reached method is added. -/
theorem add_ok {r : Reach} (h : map.add d r = .ok map') (hnew : r.method ∉ r.callers) (hr : Right d r) :
    Advances d map map' ∧ Covers d map' r.transaction r.callers r.method :=
  ⟨⟨add_extends h, forall_mem_add h hr fun _ => narrowed_right, add_keyed h⟩, add_covers h hnew⟩

/-! ### The walk -/

/-- What the argument buses stand for inside a method. -/
def bindArgument (info : MethodInfo) (calls : List (Expr × Expr)) (env : Bindings) : Bindings :=
  match info.dataIn with
  | some bus => (bus, mergeArgs info.input.width calls) :: env
  | none => env

/-- A walk that keeps `E` of the callers and what their buses stand for, and changes the map as `R` says,
brings about `Q` for each way it goes. -/
structure Walks (d : Design) (t : NodeId) (E : List NodeId → Bindings → Prop) (R : CallMap → CallMap → Prop)
    (Q : List NodeId → NodeId → CallMap → Prop) : Prop where
  refl : ∀ map, R map map
  trans : ∀ m₁ m₂ m₃, R m₁ m₂ → R m₂ m₃ → R m₁ m₃
  mono : ∀ callers m map map', R map map' → Q callers m map → Q callers m map'
  enters : ∀ callers env m sites info, E callers env → (m, sites) ∈ (d.node (callers.headD t)).calls →
    (d.node m).method? = some info → E (m :: callers) (bindArgument info (sites.map (effective env)) env)
  adds : ∀ callers env m sites info condition map map', E callers env →
    (m, sites) ∈ (d.node (callers.headD t)).calls → (d.node m).method? = some info → d.Way t callers m →
    m ∉ callers → readiness (d.read info.ready) info.validator (sites.map (effective env)) = .ok condition →
    map.add d ⟨t, m, callers, condition⟩ = .ok map' → R map map' ∧ Q callers m map'

/-- Where the walk has come through these callers, what it calls next is on a way. -/
theorem way_of_call {t m : NodeId} {callers : List NodeId} {sites : List CallSite}
    (hway : ∀ c rest, callers = c :: rest → d.Way t rest c) (hcall : (m, sites) ∈ (d.node (callers.headD t)).calls)
    {info : MethodInfo} (hinfo : (d.node m).method? = some info) : d.Way t callers m := by
  rcases callers with _ | ⟨c, rest⟩
  · exact .direct ⟨⟨sites, hcall⟩, info, hinfo⟩
  · exact (hway c rest rfl).extend ⟨⟨sites, hcall⟩, info, hinfo⟩

/-- The walk goes every way that starts with the callers it has been given. -/
theorem visit_walk {t : NodeId} {E : List NodeId → Bindings → Prop} {R : CallMap → CallMap → Prop}
    {Q : List NodeId → NodeId → CallMap → Prop} (hw : Walks d t E R Q) :
    ∀ (fuel : Nat) (callers : List NodeId) (env : Bindings) (map map' : CallMap),
      Attempt.Gives (visit d t fuel callers env map) map' → E callers env →
      (∀ c rest, callers = c :: rest → d.Way t rest c) → callers.Nodup → (∀ c ∈ callers, c < d.nodes.size) →
      fuel + callers.length = d.nodes.size + 1 →
      R map map' ∧ ∀ inner m, d.Way t (inner ++ callers) m → Q (inner ++ callers) m map' := by
  intro fuel
  induction fuel with
  | zero =>
    intro callers env map map' h henv hway hnodup hlt hfuel
    have := Design.length_le_size hnodup hlt
    omega
  | succ fuel ih =>
    intro callers env map map' h henv hway hnodup hlt hfuel
    rw [visit] at h
    have hstep := Attempt.gives_foldlM (R := R)
      (Q := fun (c : NodeId × List CallSite) map => ∀ info, (d.node c.1).method? = some info →
        Q callers c.1 map ∧ ∀ inner m, d.Way t (inner ++ c.1 :: callers) m → Q (inner ++ c.1 :: callers) m map)
      hw.refl hw.trans
      (fun c a b hab hq info hinfo =>
        ⟨hw.mono _ _ a b hab (hq info hinfo).1, fun inner m hm => hw.mono _ _ a b hab ((hq info hinfo).2 inner m hm)⟩)
      (fun c hc map₁ map₂ hgives => by
        obtain ⟨m, sites⟩ := c
        simp only [Attempt.gives_guard] at hgives
        obtain ⟨hnew, hgives⟩ := hgives
        split at hgives
        · rename_i hnone
          rw [Attempt.gives_pure] at hgives
          subst hgives
          exact ⟨hw.refl _, fun info hinfo => by rw [hnone] at hinfo; exact nomatch hinfo⟩
        · rename_i info hinfo
          simp only [Attempt.gives_bind, Attempt.gives_ofChecked, Attempt.gives_ofExcept] at hgives
          obtain ⟨condition, hcondition, map₃, hadd, hvisit⟩ := hgives
          have hwaym : d.Way t callers m := way_of_call hway hc hinfo
          obtain ⟨hR, hQ⟩ := hw.adds callers env m sites info condition map₁ map₃ henv hc hinfo hwaym hnew hcondition hadd
          obtain ⟨hR', hQ'⟩ := ih (m :: callers) _ map₃ map₂ hvisit (hw.enters callers env m sites info henv hc hinfo)
            (fun c rest hcr => by
              obtain ⟨rfl, rfl⟩ := List.cons.inj hcr
              exact hwaym)
            (List.nodup_cons.2 ⟨hnew, hnodup⟩)
            (fun c hc => by
              rcases List.mem_cons.1 hc with rfl | hc
              · exact Design.lt_of_method hinfo
              · exact hlt c hc)
            (by rw [List.length_cons]; omega)
          exact ⟨hw.trans _ _ _ hR hR', fun _ _ => ⟨hw.mono _ _ _ _ hR' hQ, hQ'⟩⟩) h
    refine ⟨hstep.1, fun inner m hm => ?_⟩
    rcases List.eq_nil_or_concat inner with rfl | ⟨inner', x, rfl⟩
    · obtain ⟨⟨sites, hc⟩, info, hinfo⟩ := hm.calls
      exact (hstep.2 (m, sites) hc info hinfo).1
    · rw [List.concat_eq_append, List.append_assoc, List.singleton_append] at hm ⊢
      obtain ⟨⟨sites, hc⟩, info, hinfo⟩ := hm.suffix.calls
      exact (hstep.2 (x, sites) hc info hinfo).2 inner' m hm

/-- So do the walks of all transactions, one after another. -/
theorem build_walk {E : NodeId → List NodeId → Bindings → Prop} {R : CallMap → CallMap → Prop}
    {Q : NodeId → List NodeId → NodeId → CallMap → Prop} (refl : ∀ map, R map map)
    (trans : ∀ m₁ m₂ m₃, R m₁ m₂ → R m₂ m₃ → R m₁ m₃) (hw : ∀ t ∈ d.transactions, Walks d t (E t) R (Q t))
    (mono : ∀ t callers m map map', R map map' → Q t callers m map → Q t callers m map')
    (hnil : ∀ t, E t [] []) (h : Attempt.Gives (build d) map) :
    R {} map ∧ ∀ t ∈ d.transactions, ∀ callers m, d.Way t callers m → Q t callers m map :=
  Attempt.gives_foldlM (Q := fun (t : NodeId) map => ∀ callers m, d.Way t callers m → Q t callers m map)
    refl trans (fun t a b hab hq callers m hm => mono t callers m a b hab (hq callers m hm))
    (fun t ht map₁ map₂ hgives => by
      obtain ⟨hR, hQ⟩ := visit_walk (hw t ht) _ [] [] map₁ map₂ hgives (hnil t) (fun c rest h => nomatch h)
        List.nodup_nil (fun c hc => nomatch hc) rfl
      exact ⟨hR, fun callers m hm => by simpa using hQ callers m (by simpa using hm)⟩) h

theorem walks_ways {t : NodeId} (ht : t ∈ d.transactions) :
    Walks d t (fun _ _ => True) (Advances d) fun callers m map => Covers d map t callers m := by
  refine ⟨Advances.refl, fun _ _ _ => Advances.trans, fun _ _ _ _ hadv hcov => hcov.mono hadv.extension,
    fun _ _ _ _ _ _ _ _ => trivial,
    fun callers env m sites info condition map map' _ _ hinfo hway hnew hcondition hadd => ?_⟩
  have hright : Right d ⟨t, m, callers, condition⟩ := by
    refine ⟨ht, hway, fun info' hinfo' σ hσ => ?_⟩
    obtain rfl : info = info' := Option.some.inj (hinfo.symm.trans hinfo')
    exact readiness_truth hcondition hσ
  exact add_ok hadd hnew hright

/-- What a call map says of a design. -/
structure Describes (map : CallMap) (d : Design) : Prop where
  keyed : map.Keyed
  right : ∀ r ∈ map.reaches, Right d r
  covers : ∀ t ∈ d.transactions, ∀ callers m, d.Way t callers m → Covers d map t callers m

theorem Describes.mem_of_way (h : map.Describes d) {t m : NodeId} {callers : List NodeId}
    (ht : t ∈ d.transactions) (hway : d.Way t callers m) : m ∈ map.methodsOf t := by
  obtain ⟨-, r, hr, -⟩ := h.covers t ht callers m hway
  exact exists_find?_iff.1 ⟨r, hr⟩

theorem build_ok (h : Attempt.Gives (build d) map) : map.Describes d := by
  obtain ⟨hadv, hcov⟩ := build_walk (E := fun _ _ _ => True) (Q := fun t callers m map => Covers d map t callers m)
    Advances.refl (fun _ _ _ => Advances.trans) (fun t ht => walks_ways ht)
    (fun _ _ _ _ _ hadv hcov => hcov.mono hadv.extension) (fun _ => trivial) h
  exact ⟨hadv.keyed List.nodup_nil, hadv.right fun x hx => (nomatch hx), hcov⟩

end CallMap

end Interlock
