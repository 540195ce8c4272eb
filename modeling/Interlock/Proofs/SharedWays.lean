import Interlock.Proofs.CallMap
import Interlock.Proofs.ControlPath
import Interlock.Proofs.SingleCall

/-! What two ways to an exclusive method have in common. Two ways of one transaction part at a body that makes
both of the calls with which they go on, and these calls exclude each other where the way that the call map keeps
goes along one of the two. Two ways of different transactions join in a method, and the transactions conflict
unless it is nonexclusive or their bodies exclude each other, where the ways that the call map keeps do not join
further out. -/

namespace Interlock

/-! ### Ways of one transaction -/

/-- The lists share these items from the front, and then one goes on with `x` and the other with `y`. -/
structure PartAt (as bs shared : List NodeId) (x y : NodeId) : Prop where
  left : shared ++ [x] <+: as
  right : shared ++ [y] <+: bs
  ne : x ≠ y

theorem PartAt.cons {as bs shared : List NodeId} {x y : NodeId} (h : PartAt as bs shared x y) (a : NodeId) :
    PartAt (a :: as) (a :: bs) (a :: shared) x y :=
  ⟨List.cons_prefix_cons.2 ⟨rfl, h.left⟩, List.cons_prefix_cons.2 ⟨rfl, h.right⟩, h.ne⟩

theorem prefix_snoc_cons {shared as : List NodeId} {s x m : NodeId} (h : (s :: shared) ++ [x] <+: as ++ [m]) :
    ∃ as', as = s :: as' ∧ shared ++ [x] <+: as' ++ [m] := by
  rcases as with _ | ⟨a, as⟩
  · have := h.length_le
    simp at this
  · obtain ⟨rfl, htail⟩ := List.cons_prefix_cons.1 h
    exact ⟨as, rfl, htail⟩

theorem head_of_prefix_snoc {as : List NodeId} {x m : NodeId} (h : [x] <+: as ++ [m]) : x = as.headD m := by
  cases as <;> exact (List.cons_prefix_cons.1 h).1

namespace CallMap

/-- Two ways are compared at the body where they part, by the calls with which they go on. -/
theorem fork_eq {m c x y : NodeId} {as bs shared : List NodeId} (h : PartAt (as ++ [m]) (bs ++ [m]) shared x y) :
    fork m c as bs = (shared.getLastD c, x, y) := by
  obtain ⟨hx, hy, hne⟩ := h
  induction shared generalizing c as bs with
  | nil =>
    obtain rfl := head_of_prefix_snoc hx
    obtain rfl := head_of_prefix_snoc hy
    rcases as with _ | ⟨a, as⟩ <;> rcases bs with _ | ⟨b, bs⟩
    · exact absurd rfl hne
    · rfl
    · rfl
    · exact if_neg hne
  | cons s shared ih =>
    obtain ⟨as', rfl, hx'⟩ := prefix_snoc_cons hx
    obtain ⟨bs', rfl, hy'⟩ := prefix_snoc_cons hy
    rw [fork, if_pos rfl, ih hx' hy', List.getLastD_cons]

/-- Ways to a method that do not hold it part before they come to it. -/
theorem exists_partAt {m : NodeId} {as bs : List NodeId} (ha : m ∉ as) (hb : m ∉ bs) (hne : as ≠ bs) :
    ∃ shared x y, PartAt (as ++ [m]) (bs ++ [m]) shared x y := by
  induction as generalizing bs with
  | nil =>
    obtain ⟨b, bs, rfl⟩ := List.exists_cons_of_ne_nil hne.symm
    exact ⟨[], m, b, List.prefix_refl _, by simp, fun he => hb (he ▸ List.mem_cons_self ..)⟩
  | cons a as ih =>
    rcases bs with _ | ⟨b, bs⟩
    · exact ⟨[], a, m, by simp, List.prefix_refl _, fun he => ha (he ▸ List.mem_cons_self ..)⟩
    · by_cases hab : a = b
      · subst hab
        obtain ⟨shared, x, y, h⟩ := ih (fun h => ha (List.mem_cons_of_mem _ h))
          (fun h => hb (List.mem_cons_of_mem _ h)) fun he => hne (congrArg (a :: ·) he)
        exact ⟨a :: shared, x, y, h.cons a⟩
      · exact ⟨[], a, b, by simp, by simp, hab⟩

variable {d : Design} {map : CallMap} {t m x y : NodeId} {shared : List NodeId}

/-- Any other way has been compared with the one that the map keeps. -/
theorem Describes.compared (h : map.Describes d) (ht : t ∈ d.transactions) (hm : (d.node m).isNonexclusive = false)
    {q : List NodeId} (hq : d.Way t q m) (hpart : PartAt (map.ancestors t m).reverse (m :: q).reverse shared x y)
    {a b : CallSite} (ha : a ∈ (d.node (shared.getLastD t)).sitesTo x)
    (hb : b ∈ (d.node (shared.getLastD t)).sitesTo y) : a.path.exclusiveWith b.path = true := by
  obtain ⟨-, r, hr, hcheck⟩ := h.covers t ht q m hq
  obtain ⟨rfl, rfl⟩ := find?_key hr
  rw [ancestors, hr, List.reverse_cons, List.reverse_cons] at hpart
  have hfork := fork_eq (c := r.transaction) hpart
  refine checkSecond_ok (hcheck.resolve_left fun he => ?_) hm hfork ha hb
  -- One and the same way does not part from itself.
  subst he
  have hsame := (List.prefix_of_prefix_length_le hpart.left hpart.right (by simp)).eq_of_length (by simp)
  exact hpart.ne (List.singleton_inj.1 (List.append_cancel_left hsame))

end CallMap

/-- Two ways of a transaction to an exclusive method part, and where the way that the call map keeps goes along one
of them from there, all calls with which they go on exclude each other. -/
theorem parting_calls_exclude {d : Design} {map : CallMap} (hmap : Attempt.Gives (CallMap.build d) map)
    {t m : NodeId} (ht : t ∈ d.transactions) (hm : (d.node m).isNonexclusive = false) {p q : List NodeId}
    (hp : d.Way t p m) (hq : d.Way t q m) (hne : p ≠ q) :
    (∃ shared x y, PartAt (m :: p).reverse (m :: q).reverse shared x y) ∧
      ∀ shared x y, PartAt (m :: p).reverse (m :: q).reverse shared x y →
        (shared ++ [x] <+: (map.ancestors t m).reverse ∨ shared ++ [y] <+: (map.ancestors t m).reverse) →
        ∀ a ∈ (d.node (shared.getLastD t)).sitesTo x, ∀ b ∈ (d.node (shared.getLastD t)).sitesTo y,
          a.path.exclusiveWith b.path = true := by
  have hdesc := CallMap.build_ok hmap
  refine ⟨?_, fun shared x y hpart hkept a ha b hb => ?_⟩
  · rw [List.reverse_cons, List.reverse_cons]
    refine CallMap.exists_partAt (fun h => ?_) (fun h => ?_) fun he => hne (List.reverse_injective he)
    · exact (hdesc.covers t ht p m hp).1 (List.mem_reverse.1 h)
    · exact (hdesc.covers t ht q m hq).1 (List.mem_reverse.1 h)
  · rcases hkept with hkept | hkept
    · exact hdesc.compared ht hm hq ⟨hkept, hpart.right, hpart.ne⟩ ha hb
    · rw [ControlPath.exclusiveWith_comm]
      exact hdesc.compared ht hm hp ⟨hkept, hpart.left, hpart.ne.symm⟩ hb ha

/-- The two ways of `A` to `m` part at `A` itself, on calls in the two arms of a branch. -/
theorem parting_calls_exclude_of_forked :
    ∃ map, (Draft.of Draft.forked).Recorded ∧
      Attempt.Gives (CallMap.build (Draft.of Draft.forked).design) map ∧
      (Draft.of Draft.forked).design.Way 0 [2] 4 ∧ (Draft.of Draft.forked).design.Way 0 [3] 4 ∧
      ∀ a ∈ ((Draft.of Draft.forked).design.node 0).sitesTo 2,
        ∀ b ∈ ((Draft.of Draft.forked).design.node 0).sitesTo 3, a.path.exclusiveWith b.path = true := by
  have hrec : (Draft.of Draft.forked).Recorded := Draft.recorded_of (by decide +kernel)
  have hmap : ∃ map ∈ (CallMap.build (Draft.of Draft.forked).design).result?, map.ancestors 0 4 = [4, 2] := by
    decide +kernel
  have htr : 0 ∈ (Draft.of Draft.forked).design.transactions := by decide +kernel
  have hm : ((Draft.of Draft.forked).design.node 4).isNonexclusive = false := by decide +kernel
  have hp : (Draft.of Draft.forked).design.Way 0 [2] 4 := .through (.direct (by decide +kernel)) (by decide +kernel)
  have hq : (Draft.of Draft.forked).design.Way 0 [3] 4 := .through (.direct (by decide +kernel)) (by decide +kernel)
  obtain ⟨map, hmap, hkept⟩ := hmap
  have hgives := Attempt.result?_eq_some.1 hmap
  refine ⟨map, hrec, hgives, hp, hq, ?_⟩
  have hpart : PartAt [2, 4] [3, 4] [] 2 3 := ⟨by decide, by decide, by decide⟩
  have hprefix : [] ++ [2] <+: (map.ancestors 0 4).reverse := by
    rw [hkept]
    decide
  exact (parting_calls_exclude hgives htr hm hp hq (by decide)).2 [] 2 3 hpart (.inl hprefix)

/-- The ways of `A` to `m` by `y` and by `z` part at `A` itself, on calls in one arm. -/
theorem parting_calls_of_rejoined :
    ∃ map, (Draft.of Draft.rejoined).Recorded ∧
      Attempt.Gives (CallMap.build (Draft.of Draft.rejoined).design) map ∧
      0 ∈ (Draft.of Draft.rejoined).design.transactions ∧
      ((Draft.of Draft.rejoined).design.node 4).isNonexclusive = false ∧
      (Draft.of Draft.rejoined).design.Way 0 [2] 4 ∧ (Draft.of Draft.rejoined).design.Way 0 [3] 4 ∧
      PartAt [2, 4] [3, 4] [] 2 3 ∧
      ∃ a ∈ ((Draft.of Draft.rejoined).design.node 0).sitesTo 2,
        ∃ b ∈ ((Draft.of Draft.rejoined).design.node 0).sitesTo 3, a.path.exclusiveWith b.path = false := by
  have hrec : (Draft.of Draft.rejoined).Recorded := Draft.recorded_of (by decide +kernel)
  have hmap : (CallMap.build (Draft.of Draft.rejoined).design).result?.isSome = true := by decide +kernel
  obtain ⟨map, hmap⟩ := Option.isSome_iff_exists.1 hmap
  exact ⟨map, hrec, Attempt.result?_eq_some.1 hmap, by decide +kernel, by decide +kernel,
    .through (.direct (by decide +kernel)) (by decide +kernel),
    .through (.direct (by decide +kernel)) (by decide +kernel), ⟨by decide, by decide, by decide⟩, by decide +kernel⟩

/-! ### Ways of two transactions -/

/-- The longest run that the lists share from the front ends at `z`. -/
structure JoinAt (as bs run : List NodeId) (z : NodeId) : Prop where
  left : run ++ [z] <+: as
  right : run ++ [z] <+: bs
  last : ∀ c, run ++ [z, c] <+: as → ¬ run ++ [z, c] <+: bs

theorem JoinAt.cons {as bs run : List NodeId} {z : NodeId} (h : JoinAt as bs run z) (a : NodeId) :
    JoinAt (a :: as) (a :: bs) (a :: run) z :=
  ⟨List.cons_prefix_cons.2 ⟨rfl, h.left⟩, List.cons_prefix_cons.2 ⟨rfl, h.right⟩,
    fun c ha hb => h.last c (List.cons_prefix_cons.1 ha).2 (List.cons_prefix_cons.1 hb).2⟩

theorem JoinAt.first {m : NodeId} {as bs : List NodeId} (h : ∀ c, [c] <+: as → ¬ [c] <+: bs) :
    JoinAt (m :: as) (m :: bs) [] m :=
  ⟨List.prefix_append [m] as, List.prefix_append [m] bs,
    fun c ha hb => h c (List.cons_prefix_cons.1 ha).2 (List.cons_prefix_cons.1 hb).2⟩

/-- Ways to one method join. -/
theorem exists_joinAt (m : NodeId) (p q : List NodeId) : ∃ run z, JoinAt (m :: p) (m :: q) run z := by
  induction p generalizing m q with
  | nil => exact ⟨[], m, .first fun c hp => absurd hp.length_le (by simp)⟩
  | cons a p ih =>
    rcases q with _ | ⟨b, q⟩
    · exact ⟨[], m, .first fun c _ hq => absurd hq.length_le (by simp)⟩
    by_cases hab : a = b
    · subst hab
      obtain ⟨run, z, h⟩ := ih a q
      exact ⟨m :: run, z, h.cons m⟩
    · exact ⟨[], m, .first fun c hp hq =>
        hab ((List.cons_prefix_cons.1 hp).1.symm.trans (List.cons_prefix_cons.1 hq).1)⟩

namespace Design

theorem lastCommon_eq {as bs run : List NodeId} {z : NodeId} (h : JoinAt as bs run z) :
    lastCommon as bs = some z := by
  induction run generalizing as bs with
  | nil =>
    obtain ⟨⟨as, rfl⟩, ⟨bs, rfl⟩, hlast⟩ := h
    have hnone : lastCommon as bs = none := by
      rcases as with _ | ⟨a, as⟩ <;> rcases bs with _ | ⟨b, bs⟩ <;> try rfl
      refine if_neg fun hab => hlast a (by simp) ?_
      simp [hab]
    rw [List.nil_append, List.singleton_append, List.singleton_append, lastCommon, if_pos rfl, hnone]
    rfl
  | cons r run ih =>
    obtain ⟨⟨as, rfl⟩, ⟨bs, rfl⟩, hlast⟩ := h
    have htail : JoinAt (run ++ [z] ++ as) (run ++ [z] ++ bs) run z :=
      ⟨List.prefix_append .., List.prefix_append .., fun c ha hb =>
        hlast c (List.cons_prefix_cons.2 ⟨rfl, ha⟩) (List.cons_prefix_cons.2 ⟨rfl, hb⟩)⟩
    rw [List.cons_append, List.cons_append, List.cons_append, lastCommon, if_pos rfl, ih htail]
    rfl

variable {d : Design} {map : CallMap} {t u z : NodeId}

theorem staticallyExclusive_comm : d.staticallyExclusive map t u = d.staticallyExclusive map u t := by
  unfold staticallyExclusive
  rw [Bool.eq_iff_iff]
  simp only [List.any_eq_true]
  constructor
  · rintro ⟨p, hp, q, hq, h⟩
    exact ⟨q, hq, p, hp, ControlPath.exclusiveWith_comm p q ▸ h⟩
  · rintro ⟨p, hp, q, hq, h⟩
    exact ⟨q, hq, p, hp, ControlPath.exclusiveWith_comm p q ▸ h⟩

/-- Transactions that first reach a method by different callers conflict because of it. -/
theorem conflicting_of_callers (hzt : z ∈ map.methodsOf t) (hzu : z ∈ map.methodsOf u) (hne : t ≠ u)
    (hlast : ∀ c, [z, c] <+: map.ancestors t z → ¬ [z, c] <+: map.ancestors u z)
    (hz : (d.node z).isNonexclusive = false) (hx : d.staticallyExclusive map t u = false) :
    d.conflicting map t u = true := by
  obtain ⟨r, hr⟩ := CallMap.exists_find?_iff.2 hzt
  obtain ⟨r', hr'⟩ := CallMap.exists_find?_iff.2 hzu
  have hanc : map.ancestors t z = z :: r.callers := by rw [CallMap.ancestors, hr]
  have hanc' : map.ancestors u z = z :: r'.callers := by rw [CallMap.ancestors, hr']
  have hjoin : JoinAt (map.ancestors t z) (map.ancestors u z) [] z :=
    ⟨hanc ▸ List.prefix_append [z] _, hanc' ▸ List.prefix_append [z] _, hlast⟩
  have hmerge : d.mergesNonexclusive map t u z = false := by
    rw [mergesNonexclusive, lastCommon_eq hjoin, Option.any_some, hz]
  have hshares : d.sharesMethod map t u = true := by
    refine List.any_eq_true.2 ⟨z, hzt, ?_⟩
    rw [List.contains_iff_mem.2 hzu, hmerge]
    rfl
  rw [conflicting, hshares, hx, bne_iff_ne.2 hne]
  rfl

end Design

/-- Ways of two scheduled transactions to a method join, and where the ways that the call map keeps do not come to
that method by the same caller, the transactions conflict, or their bodies exclude each other, or the method is
nonexclusive. -/
theorem shared_method_conflicts {d : Draft} (hd : d.Recorded) {f : Design.Fused}
    (hf : Attempt.Gives d.design.fused f) {s : Schedule} (hs : f.design.schedule f.map = .ok s)
    {t u m : NodeId} (ht : t ∈ s.order) (hu : u ∈ s.order) (hne : t ≠ u) {p q : List NodeId}
    (hp : f.design.Way t p m) (hq : f.design.Way u q m) :
    (∃ run z, JoinAt (m :: p) (m :: q) run z) ∧
      ∀ run z, JoinAt (m :: p) (m :: q) run z →
        (∀ c, [z, c] <+: f.map.ancestors t z → ¬ [z, c] <+: f.map.ancestors u z) →
        s.conflict t u = true ∨ f.design.staticallyExclusive f.map t u = true ∨
          (f.design.node z).isNonexclusive = true := by
  refine ⟨exists_joinAt m p q, fun run z hjoin hlast => ?_⟩
  obtain ⟨hsound, hdesc, -⟩ := Design.fused_ok hd.sound hf
  have hsched := Schedule.schedule_ok hsound hdesc hs
  have ht' := (hsched.order t).1 ht
  have hu' := (hsched.order u).1 hu
  have hzt : z ∈ f.map.methodsOf t := by
    obtain ⟨outer, hway⟩ := hp.of_mem (hjoin.left.subset (List.mem_append_right run (List.mem_singleton_self z)))
    exact hdesc.mem_of_way ht' hway
  have hzu : z ∈ f.map.methodsOf u := by
    obtain ⟨outer, hway⟩ := hq.of_mem (hjoin.right.subset (List.mem_append_right run (List.mem_singleton_self z)))
    exact hdesc.mem_of_way hu' hway
  by_cases hx : f.design.staticallyExclusive f.map t u = true
  · exact .inr (.inl hx)
  by_cases hz : (f.design.node z).isNonexclusive = true
  · exact .inr (.inr hz)
  rw [Bool.not_eq_true] at hx hz
  refine .inl (hsched.conflict_of ht' hu' hne ?_ ?_)
  · exact Design.conflicting_of_callers hzt hzu hne hlast hz hx
  · exact Design.conflicting_of_callers hzu hzt hne.symm (fun c hc hc' => hlast c hc' hc) hz
      (Design.staticallyExclusive_comm.trans hx)

/-- The way of `A` by `y`, which is not the one kept, and the way of `B` join in `m` itself, and `A` and `B`
conflict. -/
theorem shared_method_conflicts_of_forked :
    ∃ x : Draft.Trial, (Draft.of Draft.forked).Recorded ∧ (Draft.of Draft.forked).trial? = some x ∧
      x.fused.design.Way 0 [3] 4 ∧ x.fused.design.Way 1 [] 4 ∧ x.schedule.conflict 0 1 = true := by
  have hrec : (Draft.of Draft.forked).Recorded := Draft.recorded_of (by decide +kernel)
  have htrial : ∃ x ∈ (Draft.of Draft.forked).trial?, (0 ∈ x.schedule.order ∧ 1 ∈ x.schedule.order) ∧
      (x.fused.design.Calls 0 3 ∧ x.fused.design.Calls 3 4 ∧ x.fused.design.Calls 1 4) ∧
      x.fused.map.ancestors 1 4 = [4] ∧ x.fused.design.staticallyExclusive x.fused.map 0 1 = false ∧
      (x.fused.design.node 4).isNonexclusive = false := by
    decide +kernel
  obtain ⟨x, hx, ⟨h0, h1⟩, ⟨h03, h34, h14⟩, hkept, hstatic, hm⟩ := htrial
  obtain ⟨hf, hs, -, -⟩ := Draft.trial_ok hx
  have hp : x.fused.design.Way 0 [3] 4 := .through (.direct h03) h34
  have hq : x.fused.design.Way 1 [] 4 := .direct h14
  have hjoin : JoinAt [4, 3] [4] [] 4 := .first fun c _ hq => absurd hq.length_le (by simp)
  have hlast : ∀ c, [4, c] <+: x.fused.map.ancestors 0 4 → ¬ [4, c] <+: x.fused.map.ancestors 1 4 := by
    intro c _ hc
    rw [hkept] at hc
    exact absurd hc.length_le (by simp)
  refine ⟨x, hrec, hx, hp, hq, ?_⟩
  obtain hconflict | hexclusive | hnonexclusive :=
    (shared_method_conflicts hrec hf hs h0 h1 (by decide) hp hq).2 [] 4 hjoin hlast
  · exact hconflict
  · exact nomatch hstatic.symm.trans hexclusive
  · exact nomatch hm.symm.trans hnonexclusive

/-- Two transactions that reach an exclusive method by way of a nonexclusive one; the first also calls it
itself, and the schedule sees only its first way. -/
def Draft.unjoined : List Draft.Action :=
  [.transaction "A" .generated, .transaction "B" .generated,
    .method { name := "n", nonexclusive := true } .generated, .method { name := "m" } .generated, .openModule "",
    .inModule 0 (.signal "c" 1 .input 0 .generated),
    .inModule 0 (.openMethod 3 .one none .generated), .inModule 0 .leaveBody,
    .inModule 0 (.openMethod 2 .one none .generated),
    .inModule 0 (.call 3 (.zero 0) .one .generated), .inModule 0 .leaveBody,
    .inModule 0 (.openTransaction 0 .one .generated),
    .inModule 0 .branches,
    .inModule 0 (.branch 0 (.signal 10 1)),
    .inModule 0 (.call 2 (.zero 0) .one .generated), .inModule 0 .leave,
    .inModule 0 (.otherwise 0),
    .inModule 0 (.call 3 (.zero 0) .one .generated), .inModule 0 .leave, .inModule 0 .leaveBody,
    .inModule 0 (.openTransaction 1 .one .generated),
    .inModule 0 (.call 2 (.zero 0) .one .generated), .inModule 0 .leaveBody]

/-- `A` calls `m` itself and `B` calls it by way of `n`: these ways join in `m`, which is exclusive, and `A` and `B`
do not conflict. -/
theorem shared_method_of_unjoined :
    ∃ x : Draft.Trial, (Draft.of Draft.unjoined).Recorded ∧ (Draft.of Draft.unjoined).trial? = some x ∧
      0 ∈ x.schedule.order ∧ 1 ∈ x.schedule.order ∧
      x.fused.design.Way 0 [] 3 ∧ x.fused.design.Way 1 [2] 3 ∧ JoinAt [3] [3, 2] [] 3 ∧
      (x.fused.design.node 3).isNonexclusive = false ∧
      x.fused.design.staticallyExclusive x.fused.map 0 1 = false ∧ x.schedule.conflict 0 1 = false := by
  have hrec : (Draft.of Draft.unjoined).Recorded := Draft.recorded_of (by decide +kernel)
  have htrial : ∃ x ∈ (Draft.of Draft.unjoined).trial?, 0 ∈ x.schedule.order ∧ 1 ∈ x.schedule.order ∧
      (x.fused.design.Calls 0 3 ∧ x.fused.design.Calls 1 2 ∧ x.fused.design.Calls 2 3) ∧
      (x.fused.design.node 3).isNonexclusive = false ∧
      x.fused.design.staticallyExclusive x.fused.map 0 1 = false ∧ x.schedule.conflict 0 1 = false := by
    decide +kernel
  obtain ⟨x, hx, h0, h1, ⟨h03, h12, h23⟩, hm, hstatic, hfree⟩ := htrial
  exact ⟨x, hrec, hx, h0, h1, .direct h03, .through (.direct h12) h23,
    .first fun c hc _ => absurd hc.length_le (by simp), hm, hstatic, hfree⟩

end Interlock
