import Interlock.Proofs.Fusion.Walks

/-! Fusion keeps what is reached. The walks over the fused design come to an end, since the walks over the design
did; the transaction of a group reaches its members and what they reached, and a transaction in no group reaches
what it reached before, under the same conditions. -/

namespace Interlock

namespace Fusion

open Design

variable {d d' : Design} {map : CallMap} {gs : List Group} {t m : NodeId}

/-! ### Transactions -/

/-- The transactions of groups are numbered in order, after all other nodes. -/
theorem addGroups_numbers (gs : List Group) : ∀ d : Design,
    (addGroups d gs).1.map (·.transaction) = List.range' d.nodes.size gs.length := by
  induction gs with
  | nil => exact fun d => rfl
  | cons g gs ih =>
    intro d
    rw [addGroups_cons, List.map_cons, ih, size_addGroup, List.length_cons, List.range'_succ]
    rfl

theorem fuse_numbers (d : Design) (gs : List Group) :
    (fuse d gs).1.map (·.transaction) = List.range' d.nodes.size gs.length := by
  rw [← (toMembers_frame (gs.foldl Group.union []) d).2.2]
  exact addGroups_numbers gs _

theorem toMember_kind (n : Node) : ∃ info, (toMember n).kind = .method info := by
  unfold toMember
  split
  · exact ⟨_, rfl⟩
  · exact ⟨_, ‹_›⟩

/-- A transaction of the fused design is one that is in no group, or that of a group. -/
theorem mem_fuse_transactions (hd : d.Sound) (hg : Group.Within (· ∈ d.transactions) gs) :
    t ∈ (fuse d gs).2.transactions ↔
      (t ∈ d.transactions ∧ ∀ g ∈ gs, t ∉ g) ∨ ∃ g ∈ (fuse d gs).1, g.transaction = t := by
  have hsound := (fuse_ok hd gs).1
  have hunites := (fuse_unites hd hg).1
  rw [hsound.mem_transactions, hd.mem_transactions]
  constructor
  · rintro ⟨n', info, hn', hk⟩
    rcases Nat.lt_or_ge t d.nodes.size with hlt | hge
    · obtain ⟨n, hn⟩ := Arena.exists_get? hlt
      have hnode := Option.some.inj (hn'.symm.trans (fuse_node d gs hn))
      split at hnode
      · obtain ⟨minfo, hminfo⟩ := toMember_kind n
        rw [hnode, hminfo] at hk
        cases hk
      · rename_i hmem
        rw [Group.mem_members] at hmem
        exact .inl ⟨⟨n, info, hn, hnode ▸ hk⟩, fun g hg ht => hmem ⟨g, hg, ht⟩⟩
    · exact .inr (hunites.new t n' hn' hge)
  · rintro (⟨⟨n, info, hn, hk⟩, hnone⟩ | ⟨g, hg, rfl⟩)
    · refine ⟨n, info, ?_, hk⟩
      rw [fuse_node d gs hn, if_neg]
      rw [Group.mem_members]
      exact fun ⟨g, hg, ht⟩ => hnone g hg ht
    · exact hsound.mem_transactions.1 (hunites.transaction hsound hg)

theorem fuse_transactions (hd : d.Sound) (hg : Group.Within (· ∈ d.transactions) gs) :
    (fuse d gs).2.transactions =
      (d.transactions.filter fun t => gs.all (t ∉ ·)) ++ (fuse d gs).1.map (·.transaction) := by
  refine (fuse_ok hd gs).1.transactions_ascending.eq_of_mem_iff ?_ fun t => ?_
  · rw [fuse_numbers]
    refine List.pairwise_append.2 ⟨hd.transactions_ascending.filter _, List.pairwise_lt_range', fun t ht u hu => ?_⟩
    obtain ⟨info, htr⟩ := hd.transaction (List.mem_filter.1 ht).1
    exact Nat.lt_of_lt_of_le (Arena.lt_of_get? htr.get?) (List.mem_range'_1.1 hu).1
  · rw [mem_fuse_transactions hd hg]
    simp

/-! ### Calls -/

section

variable {fused : List FusedGroup} {c : NodeId} (hf : Fuses d d') (hc : CallMap.CallsMethods d)

include hf in
theorem Fuses.calls_of (h : d.Calls c m) : d'.Calls c m := by
  obtain ⟨⟨sites, hcall⟩, info, hinfo⟩ := h
  obtain ⟨n, hn, -⟩ := get?_of_calls hcall
  exact ⟨⟨sites, by rwa [hf.calls (Arena.lt_of_get? hn)]⟩, info, hf.method hinfo⟩

include hf hc in
theorem Fuses.calls_iff (hlt : c < d.nodes.size) : d'.Calls c m ↔ d.Calls c m := by
  refine ⟨fun ⟨⟨sites, hcall⟩, _⟩ => ?_, hf.calls_of⟩
  rw [hf.calls hlt] at hcall
  exact ⟨⟨sites, hcall⟩, hc c m sites hcall⟩

include hf hc in
/-- Calls of what was there before lead where they led. -/
theorem Fuses.reaches_iff (hlt : c < d.nodes.size) :
    Relation.TransGen d'.Calls c m ↔ Relation.TransGen d.Calls c m := by
  constructor
  · intro h
    induction h with
    | single h => exact .single ((hf.calls_iff hc hlt).1 h)
    | tail _ h ih =>
      obtain ⟨callers, hway⟩ := exists_way_iff.2 ih
      obtain ⟨info, hinfo⟩ := hway.calls.2
      exact ih.tail ((hf.calls_iff hc (lt_of_method hinfo)).1 h)
  · exact fun h => Relation.TransGen.mono (fun _ _ h => hf.calls_of h) _ _ h

variable (hu : Unites d fused d') {g : FusedGroup}

include hu in
/-- The transaction of a group calls its members. -/
theorem Unites.calls_iff (hd : d.Sound) (hg : g ∈ fused) : d'.Calls g.transaction m ↔ m ∈ g.members := by
  obtain ⟨n, _, module, hn, -, hcalls⟩ := hu.calls g hg
  constructor
  · rintro ⟨⟨sites, hcall⟩, -⟩
    rw [node_of_get? hn, hcalls] at hcall
    obtain ⟨x, hx, he⟩ := List.mem_map.1 hcall
    obtain ⟨rfl, -⟩ := Prod.mk.inj he
    exact hx
  · intro hm
    obtain ⟨info, htr⟩ := hd.transaction (hu.transactions g hg m hm)
    refine ⟨⟨(memberCall module m).2, ?_⟩, _, (hu.member g hg m hm info htr.kind).1⟩
    rw [node_of_get? hn, hcalls]
    exact List.mem_map_of_mem hm

include hf hc hu in
/-- Nobody else calls what was a transaction. -/
theorem Unites.caller_of_calls (hd : d.Sound) (hm : m ∈ d.transactions) (h : d'.Calls c m) :
    ∃ g ∈ fused, g.transaction = c ∧ m ∈ g.members := by
  obtain ⟨⟨sites, hcall⟩, -⟩ := id h
  obtain ⟨n, hn, -⟩ := get?_of_calls hcall
  rcases Nat.lt_or_ge c d.nodes.size with hlt | hge
  · obtain ⟨-, info, hinfo⟩ := (hf.calls_iff hc hlt).1 h
    exact (Option.some_ne_none info (hinfo.symm.trans (hd.method?_eq_none hm))).elim
  · obtain ⟨g, hg, rfl⟩ := hu.new c n hn hge
    exact ⟨g, hg, rfl, (hu.calls_iff hd hg).1 h⟩

include hf hc hu in
theorem Unites.callsMethods (hd : d.Sound) : CallMap.CallsMethods d' := by
  intro c m sites hcall
  obtain ⟨n, hn, -⟩ := get?_of_calls hcall
  rcases Nat.lt_or_ge c d.nodes.size with hlt | hge
  · rw [hf.calls hlt] at hcall
    obtain ⟨info, hinfo⟩ := hc c m sites hcall
    exact ⟨info, hf.method hinfo⟩
  · obtain ⟨g, hg, rfl⟩ := hu.new c n hn hge
    obtain ⟨n, _, module, hn, -, hcalls⟩ := hu.calls g hg
    rw [node_of_get? hn, hcalls] at hcall
    obtain ⟨x, hx, he⟩ := List.mem_map.1 hcall
    obtain ⟨rfl, -⟩ := Prod.mk.inj he
    obtain ⟨info, htr⟩ := hd.transaction (hu.transactions g hg x hx)
    exact ⟨_, (hu.member g hg x hx info htr.kind).1⟩

end

/-! ### Walks -/

theorem fuse_gathers (hd : d.Sound) (hmap : map.Describes d) (h : groups d map = .ok gs) :
    ∀ g ∈ gs, Gathers d (fuse d gs).2 g := by
  intro g hg
  obtain ⟨hasc, hfusible⟩ := groups_fusible hd hmap h g hg
  have htr : ∀ x ∈ g, x ∈ d.transactions := groups_within hd hmap h g hg
  obtain ⟨hunites, hmembers⟩ := fuse_unites hd (groups_within hd hmap h)
  refine ⟨htr, fun x hx => ?_, hasc.nodup, fun x hx y hy =>
    hfusible.together x (List.mem_toFinset.2 hx) y (List.mem_toFinset.2 hy)⟩
  rw [← hmembers] at hg
  obtain ⟨fg, hfg, rfl⟩ := List.mem_map.1 hg
  obtain ⟨info, hinfo⟩ := hd.transaction (htr x hx)
  exact ⟨info, (hunites.member fg hfg x hx info hinfo.kind).1⟩

/-- A transaction that was there before can be walked from as before. -/
theorem Fuses.exists_walk (hf : Fuses d d') (hd : d.Sound) (hc : CallMap.CallsMethods d)
    (hmap : Attempt.Gives (CallMap.build d) map) (ht : t ∈ d.transactions) :
    ∃ walked, Attempt.Gives (CallMap.visit d' t (d'.nodes.size + 1) [] [] {}) walked ∧
      map.entriesOf t = walked.entriesOf t := by
  obtain ⟨info, htr⟩ := hd.transaction ht
  obtain ⟨walked, hwalk, he⟩ := CallMap.exists_walk hd hc hmap ht (Nat.lt_succ_of_le hf.size)
  obtain ⟨walked', hwalk', hsame⟩ :=
    CallMap.visit_entries (hf.keeps hd hc (Arena.lt_of_get? htr.get?)) (Eq.refl (CallMap.entriesOf {} t)) hwalk
  exact ⟨walked', hwalk', he.trans hsame.symm⟩

/-- The call map of the fused design can be built. -/
theorem exists_build_fuse (hd : d.Sound) (hc : CallMap.CallsMethods d) (hmap : Attempt.Gives (CallMap.build d) map)
    (h : groups d map = .ok gs) : ∃ map', Attempt.Gives (CallMap.build (fuse d gs).2) map' := by
  have hdesc := CallMap.build_ok hmap
  have hwithin := groups_within hd hdesc h
  obtain ⟨hsound, hf⟩ := fuse_ok hd gs
  obtain ⟨hunites, hmembers⟩ := fuse_unites hd hwithin
  refine CallMap.exists_visitAll (hunites.callsMethods hf hc hd) hsound.transactions_nodup fun t ht => ?_
  rcases (mem_fuse_transactions hd hwithin).1 ht with ⟨ht, -⟩ | ⟨g, hg, rfl⟩
  · obtain ⟨walked, hwalk, -⟩ := hf.exists_walk hd hc hmap ht
    exact ⟨walked, hwalk⟩
  · obtain ⟨n, _, module, hn, -, hcalls⟩ := hunites.calls g hg
    have hnum : g.transaction ∈ List.range' d.nodes.size gs.length :=
      fuse_numbers d gs ▸ List.mem_map_of_mem hg
    have hnode : ((fuse d gs).2.node g.transaction).calls = g.members.map (memberCall module) := by
      rw [node_of_get? hn, hcalls]
    exact exists_group_walk hf hd hc hmap (fuse_gathers hd hdesc h g.members (hmembers ▸ List.mem_map_of_mem hg)) hnode
      (Nat.lt_of_le_of_lt (List.mem_range'_1.1 hnum).1 (Arena.lt_of_get? hn))

/-! ### What is reached -/

/-- What a fused design reaches, in terms of the map of the design that it has been made of and of the groups. -/
structure KeepsReach (d : Design) (map : CallMap) (gs : List Group) (f : Fused) : Prop where
  built : Attempt.Gives (CallMap.build f.design) f.map
  members : f.groups.map (·.members) = gs
  /-- The transactions of groups are new. -/
  numbers : f.groups.map (·.transaction) = List.range' d.nodes.size gs.length
  scheduled : f.design.transactions =
    (d.transactions.filter fun t => gs.all (t ∉ ·)) ++ f.groups.map (·.transaction)
  fused : ∀ g ∈ f.groups, ∀ m, m ∈ f.map.methodsOf g.transaction ↔
    m ∈ g.members ∨ ∃ x ∈ g.members, m ∈ map.methodsOf x
  /-- The methods, the ways that lead to them and the conditions under which they are ready. -/
  unfused : ∀ t ∈ d.transactions, (∀ g ∈ gs, t ∉ g) → f.map.entriesOf t = map.entriesOf t
  standsFor : ∀ m, (∃ g ∈ gs, m ∈ g) →
    f.map.standsFor f.design m = (f.groups.filter fun g => m ∈ g.members).map (·.transaction)

section

variable {map' : CallMap} {fused : List FusedGroup} {g : FusedGroup}

/-- Walks that read the same give the same entries. -/
theorem Fuses.entriesOf (hf : Fuses d d') (hd : d.Sound) (hd' : d'.Sound) (hc : CallMap.CallsMethods d)
    (hc' : CallMap.CallsMethods d') (hmap : Attempt.Gives (CallMap.build d) map)
    (hmap' : Attempt.Gives (CallMap.build d') map') (ht : t ∈ d.transactions) (ht' : t ∈ d'.transactions) :
    map'.entriesOf t = map.entriesOf t := by
  obtain ⟨walked, hwalk, he⟩ := hf.exists_walk hd hc hmap ht
  obtain ⟨walked', hwalk', he'⟩ := CallMap.exists_walk hd' hc' hmap' ht' (Nat.lt_succ_self _)
  obtain rfl := hwalk.unique hwalk'
  rw [he', he]

variable (hu : Unites d fused d') (hf : Fuses d d') (hc : CallMap.CallsMethods d) (hd : d.Sound) (hd' : d'.Sound)
  (hdesc : map.Describes d) (hdesc' : map'.Describes d')

include hu hf hc hd hd' hdesc hdesc' in
/-- The transaction of a group reaches the members and what they reached. -/
theorem Unites.mem_methodsOf (hg : g ∈ fused) :
    m ∈ map'.methodsOf g.transaction ↔ m ∈ g.members ∨ ∃ x ∈ g.members, m ∈ map.methodsOf x := by
  have honward : ∀ x ∈ g.members, (Relation.ReflTransGen d'.Calls x m ↔ m = x ∨ m ∈ map.methodsOf x) := by
    intro x hx
    have ht := hu.transactions g hg x hx
    obtain ⟨info, htr⟩ := hd.transaction ht
    rw [Relation.reflTransGen_iff_eq_or_transGen, hf.reaches_iff hc (Arena.lt_of_get? htr.get?),
      hdesc.mem_methodsOf_iff, and_iff_right ht]
  rw [hdesc'.mem_methodsOf_iff, and_iff_right (hu.transaction hd' hg), Relation.TransGen.head'_iff]
  simp only [hu.calls_iff hd hg]
  constructor
  · rintro ⟨x, hx, hreach⟩
    rcases (honward x hx).1 hreach with rfl | hm
    · exact .inl hx
    · exact .inr ⟨x, hx, hm⟩
  · rintro (hm | ⟨x, hx, hm⟩)
    · exact ⟨m, hm, .refl⟩
    · exact ⟨x, hx, (honward x hx).2 (.inr hm)⟩

include hu hf hc hd hd' hdesc' in
/-- The transactions of its groups reach a member, and no others do. -/
theorem Unites.mem_transactionsOf (hm : m ∈ d.transactions) :
    t ∈ map'.transactionsOf m ↔ ∃ g ∈ fused, m ∈ g.members ∧ g.transaction = t := by
  rw [CallMap.mem_transactionsOf_iff, hdesc'.mem_methodsOf_iff, Relation.TransGen.tail'_iff]
  constructor
  · rintro ⟨-, c, hreach, hcall⟩
    obtain ⟨g, hg, rfl, hmg⟩ := hu.caller_of_calls hf hc hd hm hcall
    rcases Relation.ReflTransGen.cases_tail hreach with heq | ⟨b, -, -, info, hinfo⟩
    · exact ⟨g, hg, hmg, heq⟩
    · -- The transaction of a group is no method, so nobody calls it.
      have hnone := hd'.method?_eq_none (hu.transaction hd' hg)
      exact (Option.some_ne_none info (hinfo.symm.trans hnone)).elim
  · rintro ⟨g, hg, hmg, rfl⟩
    exact ⟨hu.transaction hd' hg, g.transaction, .refl, (hu.calls_iff hd hg).2 hmg⟩

end

/-- Whatever is built of a fused design is built of what was reached. -/
theorem fuse_keeps {f : Fused} (hd : d.Sound) (hc : CallMap.CallsMethods d)
    (hmap : Attempt.Gives (CallMap.build d) map) (h : groups d map = .ok gs) (hgroups : f.groups = (fuse d gs).1)
    (hdesign : f.design = (fuse d gs).2) (hbuilt : Attempt.Gives (CallMap.build f.design) f.map) :
    KeepsReach d map gs f := by
  have hdesc := CallMap.build_ok hmap
  have hwithin := groups_within hd hdesc h
  obtain ⟨hd', hf⟩ := fuse_ok hd gs
  obtain ⟨hu, hmembers⟩ := fuse_unites hd hwithin
  have hscheduled := fuse_transactions hd hwithin
  have hnumbers := fuse_numbers d gs
  rw [← hdesign] at hd' hf hu hscheduled
  rw [← hgroups] at hmembers hu hscheduled hnumbers
  have hdesc' := CallMap.build_ok hbuilt
  refine ⟨hbuilt, hmembers, hnumbers, hscheduled, fun g hg m => hu.mem_methodsOf hf hc hd hd' hdesc hdesc' hg,
    fun t ht hnone => ?_, fun m ⟨members, hg, hm⟩ => ?_⟩
  · refine hf.entriesOf hd hd' hc (hu.callsMethods hf hc hd) hmap hbuilt ht ?_
    rw [hscheduled]
    exact List.mem_append_left _ (List.mem_filter.2 ⟨ht, by simpa using hnone⟩)
  · rw [← hmembers] at hg
    obtain ⟨g, hgf, rfl⟩ := List.mem_map.1 hg
    have hmt := hu.transactions g hgf m hm
    obtain ⟨info, htr⟩ := hd.transaction hmt
    have hnot : (f.design.node m).isTransaction = false := by
      obtain ⟨n, -, hnode, hkind⟩ := get?_of_method (hu.member g hgf m hm info htr.kind).1
      rw [hnode, Node.isTransaction, Node.transaction?, hkind]
      rfl
    rw [CallMap.standsFor, hnot, if_neg Bool.false_ne_true]
    refine ((hdesc'.exact (CallMap.build_ascending hd' hbuilt)).inOrder m).eq_of_mem_iff ?_ fun t => ?_
    · have hasc : (f.groups.map (·.transaction)).Pairwise (· < ·) := hnumbers ▸ List.pairwise_lt_range'
      exact hasc.sublist (List.filter_sublist.map _)
    · rw [hu.mem_transactionsOf hf hc hd hd' hdesc' hmt]
      simp [and_assoc]

end Fusion

/-- Whatever recorded bodies call is a method. -/
theorem Draft.Recorded.callsMethods {d : Draft} (h : d.Recorded) : CallMap.CallsMethods d.design := by
  intro c m sites hcall
  obtain ⟨n, hn, hmem⟩ := Design.get?_of_calls hcall
  have htidy := h.tidy hn
  obtain ⟨site, hsite⟩ := List.exists_mem_of_ne_nil sites (htidy.calls.2 _ hmem)
  have hsites : site ∈ (d.design.node c).sitesTo m := by
    rw [Design.node_of_get? hn, htidy.sitesTo hmem]
    exact hsite
  obtain ⟨port, hport, -⟩ := h.callable.calls c m site hsites
  obtain ⟨info, hinfo, -⟩ := Option.map_eq_some_iff.1 hport
  exact ⟨info, hinfo⟩

/-- What a recorded design is fused into reaches what the design reached. -/
theorem Draft.Recorded.keepsReach {d : Draft} (hd : d.Recorded) {f : Design.Fused}
    (hf : Attempt.Gives d.design.fused f) :
    ∃ map groups, Attempt.Gives (CallMap.build d.design) map ∧ Fusion.groups d.design map = .ok groups ∧
      Fusion.KeepsReach d.design map groups f := by
  obtain ⟨map, groups, hmap, hgroups, hfused, hdesign, hbuilt⟩ := Design.fused_steps hf
  obtain ⟨_, hmembers, hnumbers, hscheduled, hmethods, hentries, hstands⟩ :=
    Fusion.fuse_keeps hd.sound.prune (show CallMap.CallsMethods d.design.pruneOrderings from hd.callsMethods) hmap hgroups
      hfused hdesign hbuilt
  exact ⟨map, groups, CallMap.build_prune d.design ▸ hmap, hgroups, hbuilt, hmembers, hnumbers, hscheduled, hmethods,
    hentries, hstands⟩

/-- A design can be fused where its call map and that of the fused design can be built. -/
theorem Design.exists_fused {d : Design} {map map' : CallMap} {groups : List Group}
    (hmap : Attempt.Gives (CallMap.build d) map) (hmethods : d.checkMethods = .ok ())
    (hgroups : Fusion.groups d map = .ok groups)
    (hmap' : Attempt.Gives (CallMap.build (Fusion.fuse d.pruneOrderings groups).2) map') :
    ∃ f, Attempt.Gives d.fused f := by
  let fused := Fusion.fuse d.pruneOrderings groups
  by_cases hempty : fused.1.isEmpty = true
  · refine ⟨⟨fused.2, map, fused.1⟩, ?_⟩
    simp only [Design.fused, Attempt.gives_bind, Attempt.gives_ofExcept]
    refine ⟨map, hmap, (), hmethods, groups, hgroups, ?_⟩
    rw [if_pos hempty]
    exact Attempt.gives_pure.2 rfl
  · refine ⟨⟨fused.2, map', fused.1⟩, ?_⟩
    simp only [Design.fused, Attempt.gives_bind, Attempt.gives_ofExcept]
    refine ⟨map, hmap, (), hmethods, groups, hgroups, ?_⟩
    rw [if_neg hempty]
    exact Attempt.gives_bind.2 ⟨map', hmap', Attempt.gives_pure.2 rfl⟩

/-- Where the call map of a recorded design can be built, its methods pass their checks and its simultaneous
transactions can be grouped, the design can be fused: the call map of the fused design can be built as well. The
transactions that are left are those in no group and one for each group. The latter reaches the members of the
group and what they reached; the former reach what they reached before, on the same ways and under the same
conditions. Of the transactions that are left, those of the groups of a member stand for it. -/
theorem fusion_keeps_reach {d : Draft} (hd : d.Recorded) {map : CallMap}
    (hmap : Attempt.Gives (CallMap.build d.design) map) (hmethods : d.design.checkMethods = .ok ())
    {groups : List Group} (hgroups : Fusion.groups d.design map = .ok groups) :
    ∃ f, Attempt.Gives d.design.fused f ∧ Fusion.KeepsReach d.design map groups f := by
  have hpruned : Attempt.Gives (CallMap.build d.design.pruneOrderings) map := CallMap.build_prune d.design ▸ hmap
  obtain ⟨map', hmap'⟩ := Fusion.exists_build_fuse hd.sound.prune
    (show CallMap.CallsMethods d.design.pruneOrderings from hd.callsMethods) hpruned hgroups
  obtain ⟨f, hf⟩ := Design.exists_fused hmap hmethods hgroups hmap'
  obtain ⟨map₁, groups₁, hmap₁, hgroups₁, hkeeps⟩ := hd.keepsReach hf
  obtain rfl := hmap₁.unique hmap
  obtain rfl := Except.ok.inj (hgroups₁.symm.trans hgroups)
  exact ⟨f, hf, hkeeps⟩

/-- Three transactions that call the same method. Two of them run together. -/
def Draft.sharing : List Draft.Action :=
  [.transaction "A" .generated, .transaction "B" .generated, .transaction "C" .generated,
    .method { name := "m", nonexclusive := true } .generated, .simultaneous 0 [1], .openModule "",
    .inModule 0 (.openMethod 3 .one none .generated), .inModule 0 .leaveBody,
    .inModule 0 (.openTransaction 0 .one .generated),
    .inModule 0 (.call 3 (.zero 0) .one .generated), .inModule 0 .leaveBody,
    .inModule 0 (.openTransaction 1 .one .generated),
    .inModule 0 (.call 3 (.zero 0) .one .generated), .inModule 0 .leaveBody,
    .inModule 0 (.openTransaction 2 .one .generated),
    .inModule 0 (.call 3 (.zero 0) .one .generated), .inModule 0 .leaveBody]

/-- The transaction of `A` and `B` reaches what both of them reached. It stands for `A`, and `C` stays. -/
theorem fusion_keeps_reach_of_sharing :
    ∃ map f, Attempt.Gives (CallMap.build (Draft.of Draft.sharing).design) map ∧
      Attempt.Gives (Draft.of Draft.sharing).design.fused f ∧ f.groups.map (·.members) = [[0, 1]] ∧
      (∀ g ∈ f.groups, 3 ∈ f.map.methodsOf g.transaction) ∧ f.map.entriesOf 2 = map.entriesOf 2 ∧
      f.map.standsFor f.design 0 = f.groups.map (·.transaction) := by
  have hrec : (Draft.of Draft.sharing).Recorded := Draft.recorded_of (by decide +kernel)
  have hbuild : ∃ map ∈ (CallMap.build (Draft.of Draft.sharing).design).result?,
      Fusion.groups (Draft.of Draft.sharing).design map = .ok [[0, 1]] ∧ 3 ∈ map.methodsOf 0 := by
    decide +kernel
  have htransaction : 2 ∈ (Draft.of Draft.sharing).design.transactions := by decide +kernel
  obtain ⟨map, hmap, hgroups, hreached⟩ := hbuild
  have hgives := Attempt.result?_eq_some.1 hmap
  obtain ⟨f, hf, -, hmembers, -, -, hfused, hunfused, hstands⟩ :=
    fusion_keeps_reach hrec hgives (by decide +kernel) hgroups
  have hgroup : ∀ g ∈ f.groups, g.members = [0, 1] := fun g hg => by
    simpa [hmembers] using List.mem_map_of_mem (f := (·.members)) hg
  refine ⟨map, f, hgives, hf, hmembers, fun g hg => ?_, hunfused 2 htransaction (by decide), ?_⟩
  · exact (hfused g hg 3).2 (.inr ⟨0, by rw [hgroup g hg]; decide, hreached⟩)
  · rw [hstands 0 ⟨[0, 1], by decide, by decide⟩]
    refine congrArg _ (List.filter_eq_self.2 fun g hg => ?_)
    rw [hgroup g hg]
    rfl

end Interlock
