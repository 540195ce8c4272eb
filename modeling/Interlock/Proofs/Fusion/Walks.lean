import Interlock.Proofs.Fusion.Added
import Interlock.Proofs.MaximalGroups
import Interlock.Proofs.Reach.Mirror

/-! The walk for the transaction of a group. It goes to each member in turn, and on from there as the walk of the
member did. What members share is nonexclusive, as they would be independent otherwise; so nothing that one member
reaches stands in the way of another. -/

namespace Interlock

/-- A transaction is no method. -/
theorem Design.Sound.method?_eq_none {d : Design} (hd : d.Sound) {t : NodeId} (ht : t ∈ d.transactions) :
    (d.node t).method? = none := by
  obtain ⟨info, htr⟩ := hd.transaction ht
  rw [Node.method?, htr.kind]

namespace CallMap

/-- Nothing reaches a transaction. -/
theorem Describes.not_transaction {d : Design} {map : CallMap} (h : map.Describes d) (hd : d.Sound) {t m : NodeId}
    (hm : m ∈ map.methodsOf t) : m ∉ d.transactions := by
  obtain ⟨r, hr, -, rfl⟩ := mem_methodsOf.1 hm
  obtain ⟨info, hinfo⟩ := (h.right r hr).way.calls.2
  exact fun ht => Option.some_ne_none info (hinfo.symm.trans (hd.method?_eq_none ht))

variable {d d' : Design} {map map' map₁ : CallMap} {t t' m : NodeId} {outer : List NodeId} {known : NodeId → Prop}

/-- By itself, the walk of a transaction gives what the call map says of it. The limit matters no further. -/
theorem exists_walk (hd : d.Sound) (hc : CallsMethods d) (hmap : Attempt.Gives (build d) map) (ht : t ∈ d.transactions)
    {limit : Nat} (hlimit : d.nodes.size < limit) :
    ∃ walked, Attempt.Gives (visit d t limit [] [] {}) walked ∧ map.entriesOf t = walked.entriesOf t := by
  obtain ⟨walked, hwalk, he⟩ := (visitAll_entries hc hd.transactions_nodup hmap).2 t ht
  rw [visit_limit (d.nodes.size + 1) limit [] [] {} List.nodup_nil (fun _ hc => absurd hc List.not_mem_nil)
    (Nat.lt_succ_self _) hlimit] at hwalk
  exact ⟨walked, hwalk, he⟩

/-- What a walk adds by way of a caller more, where some methods are known already. -/
structure Follows (known : NodeId → Prop) (t t' : NodeId) (outer : List NodeId) (map map' : CallMap) : Prop where
  methods : ∀ m ∈ map'.methodsOf t', known m ∨ m ∈ map.methodsOf t
  entries : ∀ m r, ¬ known m → map.find? t m = some r →
    ∃ r', map'.find? t' m = some r' ∧ r'.callers = r.callers ++ outer

theorem narrowed_callers {r x : Reach} : (narrowed r x).callers = x.callers := (narrowed_same r x).2.2

/-- What is neither known nor reached by the walk is not reached by the one that follows it. -/
theorem Follows.find?_eq_none (h : Follows known t t' outer map map') (hm : ¬ known m) (hfind : map.find? t m = none) :
    map'.find? t' m = none := by
  by_contra hsome
  obtain ⟨r', hr'⟩ := Option.ne_none_iff_exists'.1 hsome
  obtain ⟨r, hr⟩ := exists_find?_iff.2 ((h.methods m (exists_find?_iff.1 ⟨r', hr'⟩)).resolve_left hm)
  exact Option.some_ne_none r (hr.symm.trans hfind)

section

variable {callers : List NodeId} {info : MethodInfo} {condition : Expr}

/-- Another method can be added as well, since one that is known is nonexclusive. -/
theorem Follows.exists_add (hk : Keeps d d' t) (he : Enters t t' outer) (h : Follows known t t' outer map map')
    (hway : d.Way t callers m) (hinfo : (d.node m).method? = some info) (hfree : info.nonexclusive = false → ¬ known m)
    (hadd : map.add d ⟨t, m, callers, condition⟩ = .ok map₁) :
    ∃ map₁', map'.add d' ⟨t', m, callers ++ outer, condition⟩ = .ok map₁' := by
  cases hfind : map'.find? t' m with
  | none => exact ⟨_, add_ok_iff.2 (.inl ⟨hfind, rfl⟩)⟩
  | some prev' =>
    refine ⟨_, add_ok_iff.2 (.inr ⟨prev', hfind, ?_, rfl⟩)⟩
    obtain ⟨hpt', hpm'⟩ := find?_key hfind
    cases hex : info.nonexclusive with
    | true =>
      have hnonexclusive : (d'.node prev'.method).isNonexclusive = true := by
        rw [hpm', Node.isNonexclusive, (hk.method m info hinfo).1, Option.any_some, hex]
      rw [checkSecond, if_pos hnonexclusive]
    | false =>
      -- It has been reached by the walk too, where the same check has passed.
      have hmem := (h.methods m (exists_find?_iff.1 ⟨prev', hfind⟩)).resolve_left (hfree hex)
      obtain ⟨prev, hprev⟩ := exists_find?_iff.2 hmem
      obtain ⟨hpt, hpm⟩ := find?_key hprev
      obtain ⟨r', hr', hcallers⟩ := h.entries m prev (hfree hex) hprev
      obtain rfl : prev' = r' := Option.some.inj (hfind.symm.trans hr')
      rcases add_ok_iff.1 hadd with ⟨hnone, -⟩ | ⟨x, hx, hcheck, -⟩
      · exact (Option.some_ne_none prev (hprev.symm.trans hnone)).elim
      · obtain rfl : x = prev := Option.some.inj (hx.symm.trans hprev)
        exact hk.checkSecond he hpt hpt' (hpm'.trans hpm.symm) hcallers (hpm ▸ hinfo)
          (fun c hc => hway.method_of_mem (List.mem_cons_of_mem _ hc)) hcheck

theorem Follows.of_add {map₁' : CallMap} (h : Follows known t t' outer map map')
    (hadd : map.add d ⟨t, m, callers, condition⟩ = .ok map₁)
    (hadd' : map'.add d' ⟨t', m, callers ++ outer, condition⟩ = .ok map₁') : Follows known t t' outer map₁ map₁' := by
  refine ⟨fun x hx => ?_, fun x r hx hr => ?_⟩
  · rcases (mem_methodsOf_add hadd').1 hx with ⟨-, rfl⟩ | hx
    · exact .inr ((mem_methodsOf_add hadd).2 (.inl ⟨rfl, rfl⟩))
    · exact (h.methods x hx).imp_right fun hx => (mem_methodsOf_add hadd).2 (.inr hx)
  · rw [find?_add hadd] at hr
    rw [find?_add hadd']
    by_cases hxm : x = m
    · subst hxm
      simp only [true_and, if_true, Option.some.injEq, exists_eq_left'] at hr ⊢
      subst hr
      cases hfind : map.find? t x with
      | none =>
        rw [h.find?_eq_none hx hfind]
        rfl
      | some prev =>
        obtain ⟨prev', hprev', hcallers⟩ := h.entries x prev hx hfind
        rw [hprev']
        simp only [Option.map_some, Option.getD_some, narrowed_callers, hcallers]
    · rw [if_neg (fun hkey => hxm hkey.2)] at hr ⊢
      exact h.entries x r hx hr

theorem Follows.add (hk : Keeps d d' t) (he : Enters t t' outer) (h : Follows known t t' outer map map')
    (hway : d.Way t callers m) (hinfo : (d.node m).method? = some info) (hfree : info.nonexclusive = false → ¬ known m)
    (hadd : map.add d ⟨t, m, callers, condition⟩ = .ok map₁) :
    ∃ map₁', map'.add d' ⟨t', m, callers ++ outer, condition⟩ = .ok map₁' ∧ Follows known t t' outer map₁ map₁' := by
  obtain ⟨map₁', hadd'⟩ := h.exists_add hk he hway hinfo hfree hadd
  exact ⟨map₁', hadd', h.of_add hadd hadd'⟩

end

end CallMap

namespace Fusion

open Design

variable {d d' : Design} {map map' : CallMap} {gs : List Group} {fused : List FusedGroup} {g : Group} {t x : NodeId}

/-! ### What fusion keeps -/

theorem groups_fusible (hd : d.Sound) (hmap : map.Describes d) (h : groups d map = .ok gs) :
    ∀ g ∈ gs, g.Ascending ∧ Fusible d g.toFinset := by
  simp only [groups, except_bind_ok, except_pure_ok] at h
  obtain ⟨ps, hps, rfl⟩ := h
  have hpairs := pairs_linked hd hmap hps
  have hcloses := pairs_close (fun p hp => (hpairs p hp).1) (Independence.collect d map)
  have hlinked := close_linked hpairs (Independence.collect d map) (closeFuel ps)
  intro g hg
  have hclosed := (List.mem_filter.1 hg).1
  exact ⟨(hlinked g hclosed).1, hcloses.fusible hd hmap hlinked hclosed⟩

theorem Fuses.calls (h : Fuses d d') (ht : t < d.nodes.size) : (d'.node t).calls = (d.node t).calls := by
  obtain ⟨n, hn⟩ := Arena.exists_get? ht
  obtain ⟨n', hn', hsame⟩ := h.old t n hn
  rw [node_of_get? hn, node_of_get? hn', hsame.fields.2.2.1]

/-- Walks for the old transactions read the same. -/
theorem Fuses.keeps (h : Fuses d d') (hd : d.Sound) (hc : CallMap.CallsMethods d) (ht : t < d.nodes.size) :
    CallMap.Keeps d d' t := by
  refine ⟨h.calls ht, hc, fun m info hinfo => ⟨h.method hinfo, h.calls (lt_of_method hinfo), ?_⟩⟩
  obtain ⟨s, hs, -⟩ := (hd.run_isBit hinfo).2
  unfold Design.read Netlist.read Netlist.widthOf
  rw [hs, h.signals _ s hs]

/-! ### The walk of a group -/

/-- Two members reach no exclusive method together. -/
theorem not_shared (hmap : map.Describes d) (hind : ¬ d.Independent t x) {m : NodeId} {info : MethodInfo}
    (hinfo : (d.node m).method? = some info) (hex : info.nonexclusive = false) (hm : m ∈ map.methodsOf t) :
    ¬ Relation.TransGen d.Calls x m := fun hreach =>
  hind (.inr ⟨m, info, hinfo, hex, (hmap.mem_methodsOf_iff.1 hm).2, hreach⟩)

/-- The walk goes on from a member as the walk of the member did. -/
theorem exists_member_walk (hk : CallMap.Keeps d d' x) (hd : d.Sound) (hmap : Attempt.Gives (CallMap.build d) map)
    (hx : x ∈ d.transactions) {fuel : Nat} (hfuel : d.nodes.size < fuel) (condition : Expr) (hnew : x ∉ map'.methodsOf t)
    (hfree : ∀ m info, (d.node m).method? = some info → info.nonexclusive = false →
      Relation.TransGen d.Calls x m → m ∉ map'.methodsOf t) :
    ∃ map₁ map₂, map'.add d' ⟨t, x, [], condition⟩ = .ok map₁ ∧
      Attempt.Gives (CallMap.visit d' t fuel [x] [] map₁) map₂ ∧
      ∀ m ∈ map₂.methodsOf t, m = x ∨ m ∈ map'.methodsOf t ∨ m ∈ map.methodsOf x := by
  have hxm := hd.method?_eq_none hx
  have hnone : map'.find? t x = none := by
    by_contra hsome
    exact hnew (CallMap.exists_find?_iff.1 (Option.ne_none_iff_exists'.1 hsome))
  have hadd : map'.add d' ⟨t, x, [], condition⟩ = .ok ⟨map'.reaches ++ [⟨t, x, [], condition⟩]⟩ :=
    CallMap.add_ok_iff.2 (.inl ⟨hnone, rfl⟩)
  generalize (⟨map'.reaches ++ [⟨t, x, [], condition⟩]⟩ : CallMap) = map₁ at hadd
  have hmem : ∀ {m}, m ∈ map₁.methodsOf t ↔ m = x ∨ m ∈ map'.methodsOf t := by
    intro m
    rw [CallMap.mem_methodsOf_add hadd]
    simp
  obtain ⟨walked, hwalk, hentries⟩ := CallMap.exists_walk hd hk.callee hmap hx hfuel
  have he : CallMap.Enters x t [x] := .inr rfl
  have hstart : CallMap.Follows (· ∈ map₁.methodsOf t) x t [x] {} map₁ := ⟨fun m hm => .inl hm, fun m r _ hr =>
    (Option.some_ne_none r hr.symm).elim⟩
  have hunknown : ∀ {callers m info}, d.Way x callers m → (d.node m).method? = some info → info.nonexclusive = false →
      m ∉ map₁.methodsOf t := by
    intro callers m info hway hinfo hex hm
    rcases hmem.1 hm with rfl | hm
    · exact (Option.some_ne_none info (hinfo.symm.trans hxm)).elim
    · exact hfree m info hinfo hex (exists_way_iff.1 ⟨callers, hway⟩) hm
  obtain ⟨map₂, hwalk₂, hfollows⟩ := CallMap.visit_follow hk he (fun y hy => List.mem_singleton.1 hy ▸ hxm)
    (fun _ _ _ _ _ _ _ hway hinfo hfollows hadd => hfollows.add hk he hway hinfo (hunknown hway hinfo) hadd)
    fuel [] [] {} map₁ walked (fun _ _ h => absurd h.symm (List.cons_ne_nil _ _)) hstart hwalk
  refine ⟨map₁, map₂, hadd, hwalk₂, fun m hm => ?_⟩
  rcases hfollows.methods m hm with hm | hm
  · exact (hmem.1 hm).imp_right .inl
  · rw [CallMap.methodsOf_eq, ← hentries] at hm
    exact .inr (.inr hm)

/-- The members of a group become methods, and no two of them are independent. -/
structure Gathers (d d' : Design) (g : Group) : Prop where
  transactions : ∀ x ∈ g, x ∈ d.transactions
  members : ∀ x ∈ g, ∃ info, (d'.node x).method? = some (memberInfo info)
  nodup : g.Nodup
  together : ∀ x ∈ g, ∀ y ∈ g, x ≠ y → ¬ d.Independent x y

/-- What the walk for `t` has reached is what these members are and reach. -/
def Reached (map map' : CallMap) (t : NodeId) (done : List NodeId) : Prop :=
  ∀ m ∈ map'.methodsOf t, m ∈ done ∨ ∃ y ∈ done, m ∈ map.methodsOf y

theorem Reached.member {map₁ map₂ : CallMap} {done : List NodeId} (h : Reached map map₁ t done)
    (hx : ∀ m ∈ map₂.methodsOf t, m = x ∨ m ∈ map₁.methodsOf t ∨ m ∈ map.methodsOf x) :
    Reached map map₂ t (done ++ [x]) := by
  have hself : x ∈ done ++ [x] := List.mem_append_right _ (List.mem_singleton_self x)
  intro m hm
  rcases hx m hm with rfl | hm | hm
  · exact .inl hself
  · exact (h m hm).imp (List.mem_append_left _) fun ⟨y, hy, hmy⟩ => ⟨y, List.mem_append_left _ hy, hmy⟩
  · exact .inr ⟨x, hself, hm⟩

/-- Among the members that come before, nothing stands in the way of another. -/
theorem Gathers.exists_walk {map₁ : CallMap} {done rest : List NodeId} (hg : Gathers d d' g) (hf : Fuses d d')
    (hd : d.Sound) (hc : CallMap.CallsMethods d) (hmap : Attempt.Gives (CallMap.build d) map)
    (hsplit : g = done ++ x :: rest) (hreached : Reached map map₁ t done) {fuel : Nat} (hfuel : d.nodes.size < fuel)
    (condition : Expr) :
    ∃ map₂ map₃, map₁.add d' ⟨t, x, [], condition⟩ = .ok map₂ ∧
      Attempt.Gives (CallMap.visit d' t fuel [x] [] map₂) map₃ ∧ Reached map map₃ t (done ++ [x]) := by
  have hdesc := CallMap.build_ok hmap
  have hxg : x ∈ g := hsplit ▸ List.mem_append_right _ (List.mem_cons_self ..)
  have hxt := hg.transactions x hxg
  have hdone : ∀ y ∈ done, y ∈ g ∧ y ≠ x := by
    intro y hy
    have hnodup := hg.nodup
    rw [hsplit, List.nodup_append] at hnodup
    exact ⟨hsplit ▸ List.mem_append_left _ hy, hnodup.2.2 y hy x (List.mem_cons_self ..)⟩
  have hnew : x ∉ map₁.methodsOf t := by
    intro hx
    rcases hreached x hx with hx | ⟨y, -, hxy⟩
    · exact (hdone x hx).2 rfl
    · exact hdesc.not_transaction hd hxy hxt
  obtain ⟨info, htr⟩ := hd.transaction hxt
  obtain ⟨map₂, map₃, hadd, hwalk, hmethods⟩ := exists_member_walk (hf.keeps hd hc (Arena.lt_of_get? htr.get?)) hd hmap
    hxt hfuel condition hnew fun m minfo hminfo hex hreach hm => by
      rcases hreached m hm with hm | ⟨y, hy, hmy⟩
      · have hnone := hd.method?_eq_none (hg.transactions m (hdone m hm).1)
        exact Option.some_ne_none minfo (hminfo.symm.trans hnone)
      · obtain ⟨hyg, hne⟩ := hdone y hy
        exact not_shared hdesc (hg.together y hyg x hxg hne) hminfo hex hmy hreach
  exact ⟨map₂, map₃, hadd, hwalk, hreached.member hmethods⟩

/-- The walk for the transaction of a group comes to an end: what it knows when it comes to a member is what the
members before it are and reach. -/
theorem exists_group_walk (hf : Fuses d d') (hd : d.Sound) (hc : CallMap.CallsMethods d)
    (hmap : Attempt.Gives (CallMap.build d) map) (hg : Gathers d d' g) {module : ModuleId}
    (hcalls : (d'.node t).calls = g.map (memberCall module)) {fuel : Nat} (hfuel : d.nodes.size < fuel) :
    ∃ map', Attempt.Gives (CallMap.visit d' t (fuel + 1) [] [] {}) map' := by
  rw [CallMap.visit]
  simp only [List.headD_nil, hcalls]
  suffices hrest : ∀ (rest done : List NodeId) (map₁ : CallMap), g = done ++ rest → Reached map map₁ t done →
      ∃ map', Attempt.Gives ((rest.map (memberCall module)).foldlM _ map₁) map' from
    hrest g [] {} rfl fun m hm => absurd hm List.not_mem_nil
  intro rest
  induction rest with
  | nil => exact fun done map₁ _ _ => ⟨map₁, Attempt.gives_pure.2 rfl⟩
  | cons x rest ih =>
    intro done map₁ hsplit hreached
    obtain ⟨info, hinfo⟩ := hg.members x (hsplit ▸ List.mem_append_right _ (List.mem_cons_self ..))
    obtain ⟨map₂, map₃, hadd, hwalk, hreached⟩ :=
      hg.exists_walk hf hd hc hmap hsplit hreached hfuel (d'.read info.request)
    obtain ⟨map', hrest⟩ := ih (done ++ [x]) map₃ (by rw [hsplit, List.append_assoc, List.singleton_append]) hreached
    refine ⟨map', ?_⟩
    rw [List.map_cons, List.foldlM_cons, Attempt.gives_bind]
    refine ⟨map₃, ?_, hrest⟩
    simp only [memberCall, hinfo, memberInfo, Attempt.gives_guard, Attempt.gives_bind, Attempt.gives_ofChecked,
      Attempt.gives_ofExcept]
    exact ⟨List.not_mem_nil, _, rfl, map₂, hadd, hwalk⟩

end Fusion

end Interlock
