import Interlock.Proofs.Design.Callable
import Interlock.Proofs.Fusion
import Interlock.Proofs.Schedule

/-! The members of groups are transactions, and fusion turns them into methods without an argument. So
whatever calls another node after fusion calls a method still, and settings and relations are as they
were. -/

namespace Interlock

open Design

namespace Group

theorem mem_insert {x y : NodeId} {g : Group} : y ∈ insert x g ↔ y = x ∨ y ∈ g := by
  induction g with
  | nil => simp [insert]
  | cons z zs ih =>
    rw [insert]
    split
    · rw [List.mem_cons]
    · split
      · rename_i h
        simp [h]
      · rw [List.mem_cons, ih, List.mem_cons]
        tauto

theorem mem_union {x : NodeId} {g h : Group} : x ∈ union g h ↔ x ∈ g ∨ x ∈ h := by
  unfold union
  induction h generalizing g with
  | nil => simp
  | cons y ys ih =>
    rw [List.foldl_cons, ih, mem_insert, List.mem_cons]
    tauto

/-- Every member of the groups is one of these nodes. -/
def Within (S : NodeId → Prop) (groups : List Group) : Prop := ∀ g ∈ groups, ∀ t ∈ g, S t

theorem mem_members {x : NodeId} {groups : List Group} :
    x ∈ groups.foldl union [] ↔ ∃ g ∈ groups, x ∈ g := by
  have hfold : ∀ (groups : List Group) (acc : Group),
      x ∈ groups.foldl union acc ↔ x ∈ acc ∨ ∃ g ∈ groups, x ∈ g := by
    intro groups
    induction groups with
    | nil => simp
    | cons g gs ih =>
      intro acc
      rw [List.foldl_cons, ih, mem_union]
      simp only [List.mem_cons, exists_eq_or_imp]
      tauto
  simpa using hfold groups []

end Group

namespace Fusion

variable {d : Design} {map : CallMap} {S : NodeId → Prop}

/-! ### Groups are made of transactions -/

/-- A pair is added unless both are the same. -/
theorem addPair_ok {i : Independence} {n : Node} {ps ps' : List Group} {a b : NodeId}
    (h : addPair d i n ps a b = .ok ps') :
    (ps ⊆ ps' ∧ (a ≠ b → Group.insert b [a] ∈ ps')) ∧ ∀ p ∈ ps', p ∈ ps ∨ a ≠ b ∧ p = Group.insert b [a] := by
  unfold addPair at h
  split at h
  · rename_i hab
    rw [← Except.ok.inj h]
    exact ⟨⟨fun _ hp => hp, fun hne => absurd hab hne⟩, fun p hp => .inl hp⟩
  rename_i hne
  split at h
  · exact nomatch h
  split at h
  · exact nomatch h
  simp only [Except.ok.injEq] at h
  subst h
  split
  · exact ⟨⟨fun _ hp => hp, fun _ => ‹_›⟩, fun p hp => .inl hp⟩
  · refine ⟨⟨List.subset_append_left .., fun _ => List.mem_append_right _ (List.mem_singleton_self _)⟩, fun p hp => ?_⟩
    rcases List.mem_append.1 hp with hp | hp
    · exact .inl hp
    · exact .inr ⟨hne, List.mem_singleton.1 hp⟩

theorem addPairs_ok {i : Independence} {n : Node} {ps ps' : List Group} {other : NodeId}
    (h : addPairs d map i n ps other = .ok ps') :
    (map.standsFor d n.id).foldlM (fun ps a => (map.standsFor d other).foldlM (fun ps b => addPair d i n ps a b) ps) ps =
      .ok ps' := by
  unfold addPairs at h
  simp only at h
  split at h
  · exact nomatch h
  · exact h

/-- All pairs are of two nodes that a declaration names, or of transactions that stand for them. -/
theorem pairs_all {P : Group → Prop} {i : Independence} {ps : List Group}
    (hP : ∀ n ∈ d.nodeList, ∀ other ∈ n.simultaneous, ∀ a ∈ map.standsFor d n.id, ∀ b ∈ map.standsFor d other,
      a ≠ b → P (Group.insert b [a])) (h : pairs d map i = .ok ps) : ∀ p ∈ ps, P p := by
  refine except_foldlM_ok (P := fun ps => ∀ p ∈ ps, P p) (fun n hn ps₁ ps₂ hps hstep => ?_)
    (fun p hp => absurd hp List.not_mem_nil) h
  refine except_foldlM_ok (P := fun ps => ∀ p ∈ ps, P p) (fun other ho qs₁ qs₂ hqs hother => ?_) hps hstep
  refine except_foldlM_ok (P := fun ps => ∀ p ∈ ps, P p) (fun a ha rs₁ rs₂ hrs ha' => ?_) hqs (addPairs_ok hother)
  refine except_foldlM_ok (P := fun ps => ∀ p ∈ ps, P p) (fun b hb us₁ us₂ hus hb' p hp => ?_) hrs ha'
  rcases (addPair_ok hb').2 p hp with hp | ⟨hne, rfl⟩
  · exact hus p hp
  · exact hP n hn other ho a ha b hb hne

/-- Every pair that a declaration asks for is there. -/
theorem pairs_mem {i : Independence} {ps : List Group} (h : pairs d map i = .ok ps) {n : Node} (hn : n ∈ d.nodeList)
    {other : NodeId} (ho : other ∈ n.simultaneous) {a b : NodeId} (ha : a ∈ map.standsFor d n.id)
    (hb : b ∈ map.standsFor d other) (hne : a ≠ b) : Group.insert b [a] ∈ ps := by
  have hrefl : ∀ ps : List Group, ps ⊆ ps := fun _ => List.Subset.refl _
  have htrans : ∀ ps qs rs : List Group, ps ⊆ qs → qs ⊆ rs → ps ⊆ rs := fun _ _ _ => List.Subset.trans
  refine (except_foldlM_each (R := (· ⊆ ·)) (Q := fun n ps => ∀ other ∈ n.simultaneous,
    ∀ a ∈ map.standsFor d n.id, ∀ b ∈ map.standsFor d other, a ≠ b → Group.insert b [a] ∈ ps) hrefl htrans
    (fun n ps qs hsub hQ o ho a ha b hb hne => hsub (hQ o ho a ha b hb hne)) (fun n _ ps₁ ps₂ hstep => ?_) h).2
      n hn other ho a ha b hb hne
  refine except_foldlM_each (R := (· ⊆ ·)) (Q := fun other ps => ∀ a ∈ map.standsFor d n.id,
    ∀ b ∈ map.standsFor d other, a ≠ b → Group.insert b [a] ∈ ps) hrefl htrans
    (fun o ps qs hsub hQ a ha b hb hne => hsub (hQ a ha b hb hne)) (fun other _ qs₁ qs₂ hother => ?_) hstep
  refine except_foldlM_each (R := (· ⊆ ·)) (Q := fun a ps => ∀ b ∈ map.standsFor d other, a ≠ b →
    Group.insert b [a] ∈ ps) hrefl htrans (fun a ps qs hsub hQ b hb hne => hsub (hQ b hb hne))
    (fun a _ rs₁ rs₂ ha' => ?_) (addPairs_ok hother)
  exact except_foldlM_each (R := (· ⊆ ·)) (Q := fun b ps => a ≠ b → Group.insert b [a] ∈ ps) hrefl htrans
    (fun b ps qs hsub hQ hne => hsub (hQ hne)) (fun b _ us₁ us₂ hb' => (addPair_ok hb').1) ha'

theorem pairs_within (hd : d.Sound) (hmap : map.Describes d) {i : Independence} {ps : List Group}
    (h : pairs d map i = .ok ps) : Group.Within (· ∈ d.transactions) ps := by
  refine pairs_all (P := fun p => ∀ t ∈ p, t ∈ d.transactions) (fun n hn other ho a ha b hb _ t ht => ?_) h
  obtain ⟨j, hj⟩ := Arena.mem_toList.1 hn
  have hnode := hd.nodes j n hj
  rcases Group.mem_insert.1 ht with rfl | ht
  · exact mem_standsFor hd hmap (hnode.simultaneous other ho) hb
  · rw [List.mem_singleton.1 ht]
    exact mem_standsFor hd hmap (hnode.id.symm ▸ Arena.lt_of_get? hj) ha

/-- What holds of the pairs and is kept by joining a group with a pair that shares a member holds of every
group that is closed. -/
theorem close_all {P : Group → Prop} {i : Independence} {ps : List Group}
    (hjoin : ∀ g p, P g → p ∈ ps → g.disjoint p = false → P (g.union p)) :
    ∀ (fuel : Nat) (queue closed : List Group), (∀ g ∈ queue, P g) → (∀ g ∈ closed, P g) →
      ∀ g ∈ close i ps fuel queue closed, P g := by
  intro fuel
  induction fuel with
  | zero => exact fun queue closed _ hclosed => hclosed
  | succ fuel ih =>
    intro queue closed hqueue hclosed
    rcases queue with _ | ⟨g, queue⟩
    · exact hclosed
    have hg := hqueue g (List.mem_cons_self ..)
    have hrest : ∀ x ∈ queue, P x := fun x hx => hqueue x (List.mem_cons_of_mem _ hx)
    rw [close]
    split
    · exact ih queue closed hrest hclosed
    · refine ih _ _ (fun x hx => ?_) (forall_mem_snoc hclosed hg)
      rcases List.mem_append.1 hx with hx | hx
      · exact hrest x hx
      · obtain ⟨p, hp, rfl⟩ := List.mem_map.1 hx
        obtain ⟨hp, hshare⟩ := List.mem_filter.1 hp
        rw [Bool.and_eq_true, Bool.not_eq_true'] at hshare
        exact hjoin g p hg hp hshare.1

theorem groups_within (hd : d.Sound) (hmap : map.Describes d) {gs : List Group} (h : groups d map = .ok gs) :
    Group.Within (· ∈ d.transactions) gs := by
  simp only [groups, except_bind_ok, except_pure_ok] at h
  obtain ⟨ps, hps, rfl⟩ := h
  have hpairs := pairs_within hd hmap hps
  intro g hg
  refine close_all (P := fun g => ∀ t ∈ g, t ∈ d.transactions) (fun g p hgroup hp _ t ht => ?_) _ ps [] hpairs
    (fun x hx => absurd hx List.not_mem_nil) g (List.mem_filter.1 hg).1
  rcases Group.mem_union.1 ht with ht | ht
  · exact hgroup t ht
  · exact hpairs p hp t ht

/-! ### Members become methods -/

/-- A method without an argument. -/
def Plain (d : Design) (m : NodeId) : Prop := (d.node m).port? = some (.empty, none)

theorem carries_empty (n : Netlist) : n.Carries (.empty, none) := fun h => nomatch h

theorem port?_toMember {n : Node} {port : Layout × Option SignalId} :
    (toMember n).port? = some port ↔ n.port? = some port ∨ n.isTransaction = true ∧ port = (.empty, none) := by
  unfold toMember Node.port? Node.isTransaction Node.transaction? Node.method?
  cases hk : n.kind with
  | transaction info => simp [memberInfo, eq_comm]
  | method info => simp [hk]

theorem toMember_callable (h : d.Callable) (m : NodeId) : (d.modifyNode m toMember).Callable := by
  refine h.modifyNode m (same_toMember _).fields.2.2.1 (fun port hp => port?_toMember.2 (.inl hp)) fun port hp => ?_
  rcases port?_toMember.1 hp with hp | ⟨-, rfl⟩
  · exact .inl hp
  · exact .inr (carries_empty _)

theorem Plain.toMember {m : NodeId} (h : Plain d m) (x : NodeId) : Plain (d.modifyNode x toMember) m := by
  unfold Plain
  rw [node_modifyNode]
  split
  · exact port?_toMember.2 (.inl h)
  · exact h

/-- A transaction, or what has become of one. -/
def Recruit (d : Design) (m : NodeId) : Prop := m ∈ d.transactions ∨ Plain d m

theorem toMembers_plain {members : Group} :
    ∀ {d : Design}, d.Sound → d.Callable → (∀ m ∈ members, Recruit d m) →
      (members.foldl (fun d m => d.modifyNode m toMember) d).Callable ∧
        (∀ m ∈ members, Plain (members.foldl (fun d m => d.modifyNode m toMember) d) m) ∧
        ∀ m, Plain d m → Plain (members.foldl (fun d m => d.modifyNode m toMember) d) m := by
  induction members with
  | nil => exact fun {d} _ hc _ => ⟨hc, fun m hm => (nomatch hm), fun m hm => hm⟩
  | cons x xs ih =>
    intro d hd hc hmembers
    have hself : Plain (d.modifyNode x toMember) x := by
      rcases hmembers x (List.mem_cons_self ..) with hx | hx
      · obtain ⟨info, htr⟩ := hd.transaction hx
        unfold Plain
        rw [node_modifyNode, if_pos ⟨rfl, Arena.lt_of_get? htr.get?⟩]
        refine port?_toMember.2 (.inr ⟨?_, rfl⟩)
        rw [Node.isTransaction, htr.transaction?]
        rfl
      · exact hx.toMember x
    have hrecruit : ∀ m ∈ xs, Recruit (d.modifyNode x toMember) m := by
      intro m hm
      by_cases hmx : m = x
      · exact .inr (hmx ▸ hself)
      · rcases hmembers m (List.mem_cons_of_mem _ hm) with ht | hp
        · obtain ⟨n, info, hn, hk⟩ := hd.mem_transactions.1 ht
          refine .inl ((toMember_ok hd x).1.mem_transactions.2 ⟨n, info, ?_, hk⟩)
          rw [get?_modifyNode, if_neg hmx, hn]
        · exact .inr (hp.toMember x)
    obtain ⟨hcall, hall, hkeep⟩ := ih (toMember_ok hd x).1 (toMember_callable hc x) hrecruit
    refine ⟨hcall, fun m hm => ?_, fun m hm => hkeep m (hm.toMember x)⟩
    rcases List.mem_cons.1 hm with rfl | hm
    · exact hkeep m hself
    · exact hall m hm

/-! ### Groups call their members -/

theorem withGroup_callable (h : d.Callable) (members : Group) : (withGroup d members).Callable := by
  have hnamed := h.widens (newName_widens d ("_".intercalate (members.map d.name)))
  have hwired := hnamed.widens (newTransactionInfo_spec _ (d.newName ("_".intercalate (members.map d.name))).1).1
  refine Callable.assign (Callable.addNode ?_ _ _ _ ?_) _
  · exact hwired.of_nodes rfl fun _ _ hx => hx
  · exact fun _ hp => nomatch hp

theorem addGroup_callable (hd : d.Sound) (h : d.Callable) {members : Group} (hm : ∀ m ∈ members, Plain d m) :
    (addGroup d members).2.Callable ∧ ∀ m, Plain d m → Plain (addGroup d members).2 m := by
  obtain ⟨module, order, loc, heq⟩ := addGroup_snd d members
  obtain ⟨-, -, -, -, -, hold, -⟩ := withGroup_ok hd members
  have hport : ∀ m, ((addGroup d members).2.node m).port? = ((withGroup d members).node m).port? := by
    intro m
    rw [heq, node_modifyNode]
    split <;> rfl
  have hplain : ∀ m, Plain d m → Plain (addGroup d members).2 m := by
    intro m hm
    obtain ⟨info, hinfo, -⟩ := Option.map_eq_some_iff.1 hm
    obtain ⟨n, hn, hnode, -⟩ := get?_of_method hinfo
    rw [Plain, hport, node_of_get? (hold m n hn), ← hnode]
    exact hm
  refine ⟨(withGroup_callable h members).transfer ?_ (fun m port hp => (hport m).trans hp) (fun m port hp => ?_)
    fun c m s hs => ?_, hplain⟩
  · rw [heq]
    exact fun _ _ hx => hx
  · exact .inl ((hport m).symm.trans hp)
  · rw [heq, node_modifyNode] at hs
    split at hs
    · obtain ⟨sites, hcalls, hsite⟩ := Node.mem_calls_of_sites hs
      obtain ⟨x, hx, he⟩ := List.mem_map.1 hcalls
      obtain ⟨rfl, rfl⟩ := Prod.mk.inj he
      rw [List.mem_singleton.1 hsite]
      exact .inr ⟨_, hplain x (hm x hx), rfl⟩
    · exact .inl hs

theorem addGroups_callable (groups : List Group) :
    ∀ {d : Design}, d.Sound → d.Callable → Group.Within (Plain d) groups → (addGroups d groups).2.Callable := by
  induction groups with
  | nil => exact fun _ hc _ => hc
  | cons g gs ih =>
    intro d hd hc hg
    obtain ⟨hcall, hplain⟩ := addGroup_callable hd hc (hg g (List.mem_cons_self ..))
    exact ih (addGroup_ok hd g).1 hcall fun x hx m hm => hplain m (hg x (List.mem_cons_of_mem _ hx) m hm)

theorem driveRunnable_callable (h : d.Callable) (fused : List FusedGroup) (m : NodeId) :
    (driveRunnable fused d m).Callable := by
  unfold driveRunnable
  split
  · exact h
  · exact h.assign _

/-- Whatever a fused design calls is a method. -/
theorem fuse_callable (hd : d.Sound) (h : d.Callable) {groups : List Group}
    (hg : Group.Within (· ∈ d.transactions) groups) : (fuse d groups).2.Callable := by
  unfold fuse
  simp only
  have hmembers : ∀ m ∈ groups.foldl Group.union [], Recruit d m := by
    intro m hm
    obtain ⟨g, hgm, hm⟩ := Group.mem_members.1 hm
    exact .inl (hg g hgm m hm)
  obtain ⟨hcall, hplain, -⟩ := toMembers_plain hd h hmembers
  have hsound := (foldl_ok (f := fun d m => d.modifyNode m toMember) (fun d m hd => toMember_ok hd m)
    (l := groups.foldl Group.union []) hd).1
  have hgroups := addGroups_callable groups hsound hcall
    fun g hgm m hm => hplain m (Group.mem_members.2 ⟨g, hgm, hm⟩)
  generalize addGroups _ groups = added at hgroups ⊢
  obtain ⟨fused, d'⟩ := added
  exact List.foldlRecOn _ _ hgroups fun d hd m _ => driveRunnable_callable hd fused m

/-! ### Settings and relations -/

/-- The settings and relations are the same. -/
def SameSettings (d d' : Design) : Prop := d'.config = d.config ∧ d'.relations = d.relations

theorem SameSettings.trans {d₁ d₂ d₃ : Design} (h : SameSettings d₁ d₂) (h' : SameSettings d₂ d₃) :
    SameSettings d₁ d₃ := ⟨h'.1.trans h.1, h'.2.trans h.2⟩

theorem addGroups_settings (groups : List Group) : ∀ (d : Design), SameSettings d (addGroups d groups).2 := by
  induction groups with
  | nil => exact fun d => ⟨rfl, rfl⟩
  | cons g gs ih =>
    intro d
    have hg : SameSettings d (addGroup d g).2 := ⟨rfl, rfl⟩
    exact hg.trans (ih (addGroup d g).2)

theorem fuse_settings (d : Design) (groups : List Group) : SameSettings d (fuse d groups).2 := by
  unfold fuse
  simp only
  have hmembers : SameSettings d ((groups.foldl Group.union []).foldl (fun d m => d.modifyNode m toMember) d) :=
    List.foldlRecOn _ _ ⟨rfl, rfl⟩ fun d' hd m _ => hd.trans ⟨rfl, rfl⟩
  refine hmembers.trans ((addGroups_settings groups _).trans ?_)
  refine List.foldlRecOn _ _ ⟨rfl, rfl⟩ fun d' hd m _ => hd.trans ?_
  unfold driveRunnable
  split <;> exact ⟨rfl, rfl⟩

end Fusion

namespace Design

/-- What fusion makes of a design: the groups are made of its transactions, which are fused after orderings
have been dropped. -/
theorem fused_groups {d : Design} {f : Fused} (hd : d.Sound) (h : Attempt.Gives d.fused f) :
    ∃ groups, Group.Within (· ∈ d.transactions) groups ∧ f.design = (Fusion.fuse d.pruneOrderings groups).2 := by
  obtain ⟨map, groups, hmap, hgroups, -, hdesign, -⟩ := fused_steps h
  exact ⟨groups, Fusion.groups_within hd.prune (CallMap.build_ok hmap) hgroups, hdesign⟩

theorem Callable.fused {d : Design} {f : Fused} (hc : d.Callable) (hd : d.Sound) (h : Attempt.Gives d.fused f) :
    f.design.Callable := by
  obtain ⟨groups, hgroups, hdesign⟩ := fused_groups hd h
  have hprune : d.pruneOrderings.Callable := hc.of_nodes rfl fun _ _ hx => hx
  rw [hdesign]
  exact Fusion.fuse_callable hd.prune hprune hgroups

theorem fused_settings {d : Design} {f : Fused} (hd : d.Sound) (h : Attempt.Gives d.fused f) :
    f.design.config = d.config ∧ f.design.relations = d.pruneOrderings.relations := by
  obtain ⟨groups, -, hdesign⟩ := fused_groups hd h
  rw [hdesign]
  exact Fusion.fuse_settings d.pruneOrderings groups

end Design

end Interlock
