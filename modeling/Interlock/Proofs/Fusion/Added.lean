import Interlock.Proofs.Design.Regular
import Interlock.Proofs.Fusion.Closure
import Interlock.Proofs.Fusion.Groups

/-! The assignments that fusion adds: the transaction of a group requests to run in every cycle, and the old
runnable wire of each member is driven once. All of them keep to the rules of netlists. -/

namespace Interlock

namespace Fusion

open Design

variable {d : Design}

/-- The transaction of a group requests to run in every cycle. -/
def requestOf (d : Design) (g : FusedGroup) : GuardedAssign := Drivers.always (d.node g.transaction).entry .one

/-- The old runnable wire of a member. -/
def runnableOf (fused : List FusedGroup) (d : Design) (m : NodeId) : Option GuardedAssign :=
  ((d.node m).method?.bind (·.fusedFrom)).map fun origin => Drivers.always origin.runnable (mayRun fused d m)

theorem runnableOf_wire {fused : List FusedGroup} {m : NodeId} {a : GuardedAssign}
    (h : runnableOf fused d m = some a) : ∃ n, d.nodes.get? m = some n ∧ a.target ∈ n.wires := by
  obtain ⟨origin, horigin, rfl⟩ := Option.map_eq_some_iff.1 h
  obtain ⟨info, hinfo, hfrom⟩ := Option.bind_eq_some_iff.1 horigin
  obtain ⟨n, hn, -, hk⟩ := get?_of_method hinfo
  refine ⟨n, hn, Node.control_subset ?_⟩
  simp [Node.control, hk, hfrom]

theorem addGroup_assigns (d : Design) (members : Group) :
    (addGroup d members).2.assigns = d.assigns ++ [requestOf (addGroup d members).2 (addGroup d members).1] := by
  obtain ⟨module, order, loc, heq⟩ := addGroup_snd d members
  have hget : (withGroup d members).nodes.get? d.nodes.size =
      some { id := d.nodes.size, name := _, loc := _, kind := .transaction ⟨d.netlist.signals.size, _, _⟩ } :=
    (get?_addNode _ _ _ _ _).trans (if_pos rfl)
  have hself := get?_modifyNode (withGroup d members) d.nodes.size
    (fun n => { n with defOrder := order, defLoc := loc, calls := members.map (memberCall module) }) d.nodes.size
  rw [if_pos rfl, hget, Option.map_some, ← heq] at hself
  have hentry : ((addGroup d members).2.node (addGroup d members).1.transaction).entry = d.netlist.signals.size :=
    congrArg Node.entry (node_of_get? hself)
  rw [requestOf, hentry]
  rfl

theorem addGroups_cons (d : Design) (g : Group) (gs : List Group) : addGroups d (g :: gs) =
    ((addGroup d g).1 :: (addGroups (addGroup d g).2 gs).1, (addGroups (addGroup d g).2 gs).2) := rfl

theorem addGroups_assigns (groups : List Group) : ∀ d : Design, (addGroups d groups).2.assigns =
    d.assigns ++ (addGroups d groups).1.map (requestOf (addGroups d groups).2) := by
  induction groups with
  | nil => exact fun d => (List.append_nil _).symm
  | cons g gs ih =>
    intro d
    have hadds := addGroups_adds gs (addGroup d g).2
    obtain ⟨n, _, _, hn, -⟩ := (addGroup_adds d g).calls _ (List.mem_singleton_self _)
    have hnode : (addGroups (addGroup d g).2 gs).2.node (addGroup d g).1.transaction =
        (addGroup d g).2.node (addGroup d g).1.transaction := by
      rw [node_of_get? hn, node_of_get? ((hadds.old _ (Arena.lt_of_get? hn)).trans hn)]
    have hrequest : requestOf (addGroups (addGroup d g).2 gs).2 (addGroup d g).1 =
        requestOf (addGroup d g).2 (addGroup d g).1 := by rw [requestOf, requestOf, hnode]
    rw [addGroups_cons]
    simp only [List.map_cons]
    rw [ih, addGroup_assigns, hrequest, List.append_assoc, List.singleton_append]

theorem fuse_assigns (d : Design) (groups : List Group) : (fuse d groups).2.assigns =
    d.assigns ++ (fuse d groups).1.map (requestOf (fuse d groups).2) ++
      (groups.foldl Group.union []).filterMap (runnableOf (fuse d groups).1 (fuse d groups).2) := by
  have hframe := (toMembers_frame (groups.foldl Group.union []) d).2.1
  unfold fuse
  simp only
  generalize (groups.foldl Group.union []).foldl (fun d m => d.modifyNode m toMember) d = d₁ at hframe ⊢
  have hadded := addGroups_assigns groups d₁
  rw [hframe] at hadded
  rw [driveRunnables_eq, hadded]
  rfl

/-- The transaction of a group has a request wire of its own. -/
theorem fuse_request (d : Design) (groups : List Group) :
    ∀ g ∈ (fuse d groups).1, d.netlist.signals.size ≤ ((fuse d groups).2.node g.transaction).entry := by
  have hframe := toMembers_frame (groups.foldl Group.union []) d
  unfold fuse
  simp only
  generalize (groups.foldl Group.union []).foldl (fun d m => d.modifyNode m toMember) d = d₁ at hframe ⊢
  obtain ⟨added, hadded, hnew⟩ := (addGroups_adds groups d₁).assigns
  rw [addGroups_assigns, List.append_cancel_left_eq] at hadded
  intro g hg
  rw [driveRunnables_eq]
  have hge := hnew (requestOf (addGroups d₁ groups).2 g) (hadded ▸ List.mem_map_of_mem hg)
  rw [hframe.1] at hge
  exact hge

/-- What was a node before is one still; as a member it is a method now. -/
theorem fuse_node (d : Design) (groups : List Group) {i : NodeId} {n : Node} (hn : d.nodes.get? i = some n) :
    (fuse d groups).2.nodes.get? i = some (if i ∈ groups.foldl Group.union [] then toMember n else n) := by
  have hget := get?_toMembers (groups.foldl Group.union []) d i
  have hsize := (toMembers_frame (groups.foldl Group.union []) d).2.2
  unfold fuse
  simp only
  generalize (groups.foldl Group.union []).foldl (fun d m => d.modifyNode m toMember) d = d₁ at hget hsize ⊢
  rw [driveRunnables_eq]
  refine ((addGroups_adds groups d₁).old i (hsize ▸ Arena.lt_of_get? hn)).trans ?_
  rw [hget, hn]
  split <;> rfl

/-! ### The rules of netlists -/

theorem toMember_regular (h : d.Regular) (m : NodeId) : (d.modifyNode m toMember).Regular := by
  refine h.modifyNode m fun n _ hn => ?_
  rcases toMember_cases n with he | ⟨info, -, he⟩
  · exact he.symm ▸ hn
  · rw [he]
    exact ⟨fun x hx => (nomatch hx), fun minfo hm => by
      obtain rfl := NodeKind.method.inj hm
      exact Nat.zero_le _⟩

theorem addGroup_regular (h : d.Regular) (members : Group) : (addGroup d members).2.Regular := by
  obtain ⟨module, order, loc, heq⟩ := addGroup_snd d members
  rw [heq]
  refine Regular.sameKind ?_ _ fun _ => rfl
  unfold withGroup
  have h₁ : (d.newName ("_".intercalate (members.map d.name))).2.Regular := h.same rfl rfl rfl
  generalize d.newName ("_".intercalate (members.map d.name)) = named at h₁ ⊢
  obtain ⟨name, d₁⟩ := named
  simp only at h₁ ⊢
  obtain ⟨-, hinfo, -, hbits⟩ := newTransactionInfo_spec d₁ name
  have h₂ := h₁.newTransactionInfo name
  have h₃ : (d₁.newTransactionInfo name).2.newModule.2.Regular := h₂.same rfl rfl rfl
  refine (h₃.addNode _ _ _ (nodeRegular_transaction _ rfl)).drive ?_ _
  rw [hinfo]
  exact hbits _ (Nat.le_refl _) (Nat.lt_add_of_pos_right (by decide))

theorem addGroups_regular (groups : List Group) : ∀ {d : Design}, d.Regular → (addGroups d groups).2.Regular := by
  induction groups with
  | nil => exact fun h => h
  | cons g gs ih => exact fun h => ih (addGroup_regular h g)

theorem driveRunnable_regular (hd : d.Sound) (h : d.Regular) (fused : List FusedGroup) (m : NodeId) :
    (driveRunnable fused d m).Regular := by
  unfold driveRunnable
  split
  · exact h
  · rename_i origin horigin
    obtain ⟨info, hinfo, hfrom⟩ := Option.bind_eq_some_iff.1 horigin
    obtain ⟨n, hn, -, hk⟩ := get?_of_method hinfo
    refine h.drive ((hd.nodes m n hn).single _ ?_) _
    simp [Node.control, hk, hfrom]

theorem fuse_regular (hd : d.Sound) (h : d.Regular) (groups : List Group) : (fuse d groups).2.Regular := by
  unfold fuse
  simp only
  obtain ⟨hs₁, -⟩ := foldl_ok (f := fun d m => d.modifyNode m toMember) (fun d m hd => toMember_ok hd m)
    (l := groups.foldl Group.union []) hd
  have h₁ : ((groups.foldl Group.union []).foldl (fun d m => d.modifyNode m toMember) d).Regular :=
    List.foldlRecOn _ _ h fun d hd m _ => toMember_regular hd m
  obtain ⟨hs₂, -⟩ := addGroups_ok groups hs₁
  have h₂ := addGroups_regular groups h₁
  refine (List.foldlRecOn (motive := fun (d : Design) => d.Sound ∧ d.Regular) _ _ ⟨hs₂, h₂⟩ fun d hd m _ => ?_).2
  exact ⟨(driveRunnable_ok hd.1 _ m).1, driveRunnable_regular hd.1 hd.2 _ m⟩

end Fusion

namespace Design

variable {d : Design} {f : Fused}

theorem Regular.fused (h : d.Regular) (hd : d.Sound) (hf : Attempt.Gives d.fused f) : f.design.Regular := by
  obtain ⟨groups, -, hdesign⟩ := fused_groups hd hf
  rw [hdesign]
  exact Fusion.fuse_regular hd.prune (h.same rfl rfl rfl) groups

/-- A node of the design that is fused: members become methods, the others stay as they are. -/
theorem fused_node (hf : Attempt.Gives d.fused f) (hd : d.Sound) {i : NodeId} {n : Node}
    (hn : d.nodes.get? i = some n) :
    (∃ g ∈ f.groups, i ∈ g.members) ∧ (∃ info, n.kind = .transaction info ∧
      f.design.nodes.get? i = some { n with kind := .method (Fusion.memberInfo info) }) ∨
    (∀ g ∈ f.groups, i ∉ g.members) ∧ f.design.nodes.get? i = some n := by
  obtain ⟨map, groups, hmap, hgroups, hfused, hdesign, -⟩ := fused_steps hf
  have hwithin := Fusion.groups_within hd.prune (CallMap.build_ok hmap) hgroups
  have hmembers := (Fusion.fuse_unites hd.prune hwithin).2
  have hnode := Fusion.fuse_node d.pruneOrderings groups hn
  rw [← hdesign] at hnode
  have hiff : i ∈ groups.foldl Group.union [] ↔ ∃ g ∈ f.groups, i ∈ g.members := by
    rw [Group.mem_members, hfused]
    conv_lhs => rw [← hmembers]
    simp only [List.mem_map, exists_exists_and_eq_and]
  by_cases hi : i ∈ groups.foldl Group.union []
  · rw [if_pos hi] at hnode
    obtain ⟨g, hg, hig⟩ := Group.mem_members.1 hi
    obtain ⟨info, htr⟩ := hd.prune.transaction (hwithin g hg i hig)
    have hkind : n.kind = .transaction info := by
      rw [← htr.kind, node_of_get? (d := d.pruneOrderings) hn]
    refine .inl ⟨hiff.1 hi, info, hkind, ?_⟩
    rw [hnode, Fusion.toMember, hkind]
  · rw [if_neg hi] at hnode
    exact .inr ⟨fun g hg hig => hi (hiff.2 ⟨g, hg, hig⟩), hnode⟩

/-- Calls of the fused design have been recorded, or are those of members by the transaction of their group. -/
theorem fused_calls_cases (hf : Attempt.Gives d.fused f) (hd : d.Sound) {c m : NodeId} {sites : List CallSite}
    (h : (m, sites) ∈ (f.design.node c).calls) : (m, sites) ∈ (d.node c).calls ∨
      ∃ g ∈ f.groups, g.transaction = c ∧ m ∈ g.members ∧ ∃ module, (m, sites) = Fusion.memberCall module m := by
  obtain ⟨n', hn', hmem⟩ := get?_of_calls h
  rcases Nat.lt_or_ge c d.nodes.size with hlt | hge
  · obtain ⟨n, hn⟩ := Arena.exists_get? hlt
    rw [node_of_get? hn]
    rcases fused_node hf hd hn with ⟨-, info, -, hn₂⟩ | ⟨-, hn₂⟩
    · obtain rfl := Option.some.inj (hn'.symm.trans hn₂)
      exact .inl hmem
    · obtain rfl := Option.some.inj (hn'.symm.trans hn₂)
      exact .inl hmem
  · obtain ⟨g, hg, rfl⟩ := (fused_unites hd hf).new c n' hn' hge
    obtain ⟨n, _, module, hn, -, hcalls⟩ := (fused_unites hd hf).calls g hg
    obtain rfl := Option.some.inj (hn'.symm.trans hn)
    rw [hcalls] at hmem
    obtain ⟨x, hx, he⟩ := List.mem_map.1 hmem
    obtain ⟨rfl, -⟩ := Prod.mk.inj he
    exact .inr ⟨g, hg, rfl, hx, module, he.symm⟩

/-- Methods of the fused design have been declared, or are members. -/
theorem fused_method_cases (hf : Attempt.Gives d.fused f) (hd : d.Sound) {m : NodeId} {info : MethodInfo}
    (h : (f.design.node m).method? = some info) : (d.node m).method? = some info ∨
      (∃ g ∈ f.groups, m ∈ g.members) ∧ ∃ t, (d.node m).kind = .transaction t ∧ info = Fusion.memberInfo t := by
  obtain ⟨n', hn', -, hkind⟩ := get?_of_method h
  rcases Nat.lt_or_ge m d.nodes.size with hlt | hge
  · obtain ⟨n, hn⟩ := Arena.exists_get? hlt
    rw [node_of_get? hn]
    rcases fused_node hf hd hn with ⟨hg, t, hk, hn₂⟩ | ⟨-, hn₂⟩
    · obtain rfl := Option.some.inj (hn'.symm.trans hn₂)
      exact .inr ⟨hg, t, hk, (NodeKind.method.inj hkind).symm⟩
    · obtain rfl := Option.some.inj (hn'.symm.trans hn₂)
      exact .inl (by rw [Node.method?, hkind])
  · obtain ⟨g, hg, rfl⟩ := (fused_unites hd hf).new m n' hn' hge
    obtain ⟨n, _, _, hn, hk, -⟩ := (fused_unites hd hf).calls g hg
    obtain rfl := Option.some.inj (hn'.symm.trans hn)
    rw [hkind] at hk
    cases hk

/-- Nothing recorded is assigned to the request wire of a group. -/
theorem fused_request (hf : Attempt.Gives d.fused f) {g : Fusion.FusedGroup} (hg : g ∈ f.groups) :
    d.netlist.signals.size ≤ (f.design.node g.transaction).entry := by
  obtain ⟨_, groups, -, -, hfused, hdesign, -⟩ := fused_steps hf
  rw [hfused] at hg
  rw [hdesign]
  exact Fusion.fuse_request d.pruneOrderings groups g hg

/-- What fusion adds to the assignments of a design. -/
theorem fused_assigns (hf : Attempt.Gives d.fused f) (hd : d.Sound) :
    ∃ members : List NodeId, members.Nodup ∧ (∀ m, m ∈ members ↔ ∃ g ∈ f.groups, m ∈ g.members) ∧
      f.design.assigns = d.assigns ++ f.groups.map (Fusion.requestOf f.design) ++
        members.filterMap (Fusion.runnableOf f.groups f.design) := by
  obtain ⟨map, groups, hmap, hgroups, hfused, hdesign, -⟩ := fused_steps hf
  have hmembers := (Fusion.fuse_unites hd.prune
    (Fusion.groups_within hd.prune (CallMap.build_ok hmap) hgroups)).2
  refine ⟨groups.foldl Group.union [], ?_, fun m => ?_, ?_⟩
  · refine Group.Ascending.nodup (List.foldlRecOn (motive := Group.Ascending) _ _ List.Pairwise.nil fun g hg h _ => ?_)
    exact hg.union h
  · rw [Group.mem_members, hfused]
    conv_lhs => rw [← hmembers]
    simp only [List.mem_map, exists_exists_and_eq_and]
  · rw [hfused, hdesign, Fusion.fuse_assigns]
    rfl

end Design

end Interlock
