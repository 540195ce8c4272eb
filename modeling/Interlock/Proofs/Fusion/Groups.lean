import Interlock.Proofs.Fusion.Members

/-! What fusion makes of the groups. Each has a transaction of its own that calls its members and nothing else;
a member is a method now, nobody else calls it, and it may run where the transaction of any of its groups
may. -/

namespace Interlock.Fusion

open Design

variable {d d' : Design} {fused : List FusedGroup}

/-! ### Members -/

theorem toMember_toMember (n : Node) : toMember (toMember n) = toMember n := by
  rcases toMember_cases n with h | ⟨info, -, h⟩
  · rw [h, h]
  · rw [h]
    rfl

theorem get?_toMembers (members : List NodeId) : ∀ (d : Design) (i : NodeId),
    (members.foldl (fun d m => d.modifyNode m toMember) d).nodes.get? i =
      if i ∈ members then (d.nodes.get? i).map toMember else d.nodes.get? i := by
  induction members with
  | nil => exact fun d i => rfl
  | cons m ms ih =>
    intro d i
    rw [List.foldl_cons, ih, get?_modifyNode]
    simp only [List.mem_cons]
    by_cases him : i = m
    · simp only [him, true_or, if_true, Option.map_map]
      split
      · exact congrArg (fun f => Option.map f _) (funext toMember_toMember)
      · rfl
    · simp only [him, false_or, if_false]

theorem toMembers_frame (members : List NodeId) (d : Design) :
    (members.foldl (fun d m => d.modifyNode m toMember) d).netlist = d.netlist ∧
      (members.foldl (fun d m => d.modifyNode m toMember) d).assigns = d.assigns ∧
      (members.foldl (fun d m => d.modifyNode m toMember) d).nodes.size = d.nodes.size := by
  refine List.foldlRecOn (motive := fun (d' : Design) => d'.netlist = d.netlist ∧ d'.assigns = d.assigns ∧
    d'.nodes.size = d.nodes.size) _ _ ⟨rfl, rfl, rfl⟩ fun d' h m _ => ⟨h.1, h.2.1, ?_⟩
  rw [size_modifyNode, h.2.2]

/-! ### Transactions of groups -/

/-- The transaction of a group calls its members. -/
def CallsMembers (d : Design) (g : FusedGroup) : Prop :=
  ∃ n info module, d.nodes.get? g.transaction = some n ∧ n.kind = .transaction info ∧
    n.calls = g.members.map (memberCall module)

theorem sitesTo_member {n : Node} {module : ModuleId} {members : Group} {m : NodeId}
    (h : n.calls = members.map (memberCall module)) (hm : m ∈ members) : n.sitesTo m = (memberCall module m).2 := by
  rw [Node.sitesTo, h]
  clear h
  induction members with
  | nil => exact absurd hm List.not_mem_nil
  | cons x xs ih =>
    rw [List.map_cons, memberCall, List.lookup_cons]
    by_cases hmx : m = x
    · rw [hmx, beq_self_eq_true]
      rfl
    · rw [beq_false_of_ne hmx]
      exact ih ((List.mem_cons.1 hm).resolve_left hmx)

/-- Transactions of groups are added to a design. -/
structure AddsGroups (d : Design) (groups : List Group) (fused : List FusedGroup) (d' : Design) : Prop where
  members : fused.map (·.members) = groups
  old : ∀ i, i < d.nodes.size → d'.nodes.get? i = d.nodes.get? i
  calls : ∀ g ∈ fused, CallsMembers d' g
  new : ∀ i n, d'.nodes.get? i = some n → d.nodes.size ≤ i → ∃ g ∈ fused, g.transaction = i
  assigns : ∃ added, d'.assigns = d.assigns ++ added ∧ ∀ a ∈ added, d.netlist.signals.size ≤ a.target
  wires : d.netlist.signals.size ≤ d'.netlist.signals.size
  size : d.nodes.size ≤ d'.nodes.size

theorem size_addGroup (d : Design) (members : Group) : (addGroup d members).2.nodes.size = d.nodes.size + 1 := by
  obtain ⟨module, order, loc, heq⟩ := addGroup_snd d members
  rw [heq, size_modifyNode]
  exact size_addNode _ _ _ _

theorem addGroup_adds (d : Design) (members : Group) :
    AddsGroups d [members] [(addGroup d members).1] (addGroup d members).2 := by
  have hgroup : (addGroup d members).1 = ⟨d.nodes.size, members⟩ := rfl
  obtain ⟨module, order, loc, heq⟩ := addGroup_snd d members
  have hwired := (newTransactionInfo_spec (d.newName ("_".intercalate (members.map d.name))).2
    (d.newName ("_".intercalate (members.map d.name))).1).1
  have hget : ∀ i, (withGroup d members).nodes.get? i = if i = d.nodes.size then
      some { id := i, name := _, loc := _, kind := .transaction _ } else d.nodes.get? i := get?_addNode _ _ _ _
  have hself := get?_modifyNode (withGroup d members) d.nodes.size
    (fun n => { n with defOrder := order, defLoc := loc, calls := members.map (memberCall module) }) d.nodes.size
  rw [if_pos rfl, hget, if_pos rfl, Option.map_some, ← heq] at hself
  have hsize := size_addGroup d members
  rw [hgroup]
  refine ⟨rfl, fun i hi => ?_, fun g hg => ?_, fun i n hi hle => ?_, ⟨[⟨d.netlist.signals.size, .one, .one, .comb⟩], rfl,
    fun a ha => ?_⟩, hwired.size, ?_⟩
  · rw [heq, get?_modifyNode, if_neg (Nat.ne_of_lt hi), hget, if_neg (Nat.ne_of_lt hi)]
  · rw [List.mem_singleton.1 hg]
    exact ⟨_, _, module, hself, rfl, rfl⟩
  · have hlt := Arena.lt_of_get? hi
    rw [hsize] at hlt
    exact ⟨_, List.mem_singleton_self _, Nat.le_antisymm hle (Nat.le_of_lt_succ hlt)⟩
  · exact Nat.le_of_eq (congrArg (·.target) (List.mem_singleton.1 ha)).symm
  · exact Nat.le.intro hsize.symm

theorem addGroups_adds (groups : List Group) : ∀ d : Design,
    AddsGroups d groups (addGroups d groups).1 (addGroups d groups).2 := by
  induction groups with
  | nil =>
    intro d
    refine ⟨rfl, fun _ _ => rfl, fun _ hg => (nomatch hg), fun i n hi hle => ?_,
      ⟨[], (List.append_nil _).symm, fun _ ha => nomatch ha⟩, Nat.le_refl _, Nat.le_refl _⟩
    exact absurd (Arena.lt_of_get? hi) (Nat.not_lt.2 hle)
  | cons g gs ih =>
    intro d
    have h := addGroup_adds d g
    have h' := ih (addGroup d g).2
    obtain ⟨l, hl, hnew⟩ := h.assigns
    obtain ⟨l', hl', hnew'⟩ := h'.assigns
    refine ⟨congrArg (g :: ·) h'.members, fun i hi => ?_, fun x hx => ?_, fun i n hi hle => ?_,
      ⟨l ++ l', ?_, fun a ha => ?_⟩, Nat.le_trans h.wires h'.wires, Nat.le_trans h.size h'.size⟩
    · exact (h'.old i (Nat.lt_of_lt_of_le hi h.size)).trans (h.old i hi)
    · rcases List.mem_cons.1 hx with rfl | hx
      · -- The transactions of further groups leave it as it is.
        obtain ⟨n, info, module, hn, hk, hc⟩ := h.calls _ (List.mem_singleton_self _)
        exact ⟨n, info, module, (h'.old _ (Arena.lt_of_get? hn)).trans hn, hk, hc⟩
      · exact h'.calls x hx
    · rcases Nat.lt_or_ge i (addGroup d g).2.nodes.size with hlt | hge
      · obtain ⟨x, hx, hxi⟩ := h.new i n ((h'.old i hlt).symm.trans hi) hle
        exact ⟨x, List.mem_cons.2 (.inl (List.mem_singleton.1 hx)), hxi⟩
      · obtain ⟨x, hx, hxi⟩ := h'.new i n hi hge
        exact ⟨x, List.mem_cons_of_mem _ hx, hxi⟩
    · exact hl'.trans (by rw [hl, List.append_assoc])
    · rcases List.mem_append.1 ha with ha | ha
      · exact hnew a ha
      · exact Nat.le_trans h.wires (hnew' a ha)

/-! ### Who may run -/

/-- The transaction of one of the groups of `m` may run. -/
def mayRun (fused : List FusedGroup) (d : Design) (m : NodeId) : Expr :=
  .any ((fused.filter fun g => m ∈ g.members).map fun g => d.transactionSignal g.transaction (·.runnable))

theorem driveRunnables_eq (fused : List FusedGroup) (members : List NodeId) : ∀ d : Design,
    members.foldl (driveRunnable fused) d = { d with
      assigns := d.assigns ++ members.filterMap fun m => ((d.node m).method?.bind (·.fusedFrom)).map fun origin =>
        Drivers.always origin.runnable (mayRun fused d m) } := by
  induction members with
  | nil =>
    intro d
    rw [List.foldl_nil, List.filterMap_nil, List.append_nil]
  | cons m ms ih =>
    intro d
    rw [List.foldl_cons, ih, List.filterMap_cons]
    unfold driveRunnable
    cases (d.node m).method?.bind (·.fusedFrom) with
    | none => rfl
    | some origin =>
      simp only [Option.map_some, drive, assign, List.append_assoc, List.singleton_append]
      rfl

/-- What fusion makes of a design and its groups. -/
structure Unites (d : Design) (fused : List FusedGroup) (d' : Design) : Prop where
  transactions : ∀ g ∈ fused, ∀ m ∈ g.members, m ∈ d.transactions
  member : ∀ g ∈ fused, ∀ m ∈ g.members, ∀ info, (d.node m).kind = .transaction info →
    (d'.node m).method? = some (memberInfo info) ∧ Drivers.Drives d'.assigns info.runnable (mayRun fused d' m)
  calls : ∀ g ∈ fused, CallsMembers d' g
  new : ∀ i n, d'.nodes.get? i = some n → d.nodes.size ≤ i → ∃ g ∈ fused, g.transaction = i

/-- Nobody but fusion drives the runnable wire of a transaction that has become a member. -/
theorem runnable_driven (hd : d.Sound) {members : List NodeId} (hm : ∀ m ∈ members, m ∈ d.transactions)
    (horigin : ∀ m ∈ members, ∀ info, (d.node m).kind = .transaction info →
      (d'.node m).method?.bind (·.fusedFrom) = some info)
    {added : List GuardedAssign} (hassigns : d'.assigns = d.assigns ++ added)
    (hnew : ∀ a ∈ added, d.netlist.signals.size ≤ a.target) {m : NodeId} (hmem : m ∈ members)
    {info : TransactionInfo} (hinfo : (d.node m).kind = .transaction info) :
    Drivers.Drives (members.foldl (driveRunnable fused) d').assigns info.runnable (mayRun fused d' m) := by
  obtain ⟨info', htr⟩ := hd.transaction (hm m hmem)
  obtain rfl : info = info' := NodeKind.transaction.inj (hinfo.symm.trans htr.kind)
  have hgen : info.runnable ∈ (d.node m).generated := by
    rw [htr.generated]
    simp
  rw [driveRunnables_eq]
  refine ⟨List.mem_append_right _ (List.mem_filterMap.2 ⟨m, hmem, ?_⟩), fun a ha htarget _ => ?_⟩
  · rw [horigin m hmem info hinfo, Option.map_some]
  rcases List.mem_append.1 ha with ha | ha
  · rw [hassigns] at ha
    rcases List.mem_append.1 ha with ha | ha
    · exact absurd (htarget ▸ hgen) (hd.free a ha m _ htr.get?)
    · have htarget : a.target = info.runnable := htarget
      have hlt := (hd.nodes m _ htr.get?).declared _ (Node.generated_subset hgen)
      exact absurd hlt (Nat.not_lt.2 (htarget ▸ hnew a ha))
  · -- Members with the same wire are the same.
    obtain ⟨x, hx, hax⟩ := List.mem_filterMap.1 ha
    obtain ⟨origin, hox, rfl⟩ := Option.map_eq_some_iff.1 hax
    obtain ⟨xinfo, hxtr⟩ := hd.transaction (hm x hx)
    obtain rfl : xinfo = origin := Option.some.inj ((horigin x hx xinfo hxtr.kind).symm.trans hox)
    have hsame : xinfo.runnable = info.runnable := htarget
    have hxgen : xinfo.runnable ∈ (d.node x).generated := by
      rw [hxtr.generated]
      simp
    obtain rfl := hd.distinct x m _ _ hxtr.get? htr.get? _ (Node.generated_subset hxgen)
      (Node.generated_subset (hsame ▸ hgen))
    obtain rfl : xinfo = info := NodeKind.transaction.inj (hxtr.kind.symm.trans hinfo)
    rfl

theorem fuse_unites (hd : d.Sound) {groups : List Group} (hg : Group.Within (· ∈ d.transactions) groups) :
    Unites d (fuse d groups).1 (fuse d groups).2 ∧ (fuse d groups).1.map (·.members) = groups := by
  have hadds := addGroups_adds groups ((groups.foldl Group.union []).foldl (fun d m => d.modifyNode m toMember) d)
  obtain ⟨hnetlist, hassigns₁, hsize₁⟩ := toMembers_frame (groups.foldl Group.union []) d
  have hget := get?_toMembers (groups.foldl Group.union []) d
  have hfuse : fuse d groups = ((addGroups ((groups.foldl Group.union []).foldl
      (fun d m => d.modifyNode m toMember) d) groups).1, (groups.foldl Group.union []).foldl
      (driveRunnable (addGroups ((groups.foldl Group.union []).foldl
        (fun d m => d.modifyNode m toMember) d) groups).1) (addGroups ((groups.foldl Group.union []).foldl
        (fun d m => d.modifyNode m toMember) d) groups).2) := rfl
  rw [hfuse]
  generalize (groups.foldl Group.union []).foldl (fun d m => d.modifyNode m toMember) d = d₁ at hadds hnetlist hassigns₁ hsize₁ hget
  generalize addGroups d₁ groups = added at hadds
  obtain ⟨fused, d₂⟩ := added
  simp only at hadds ⊢
  obtain ⟨l, hl, hnew⟩ := hadds.assigns
  rw [hnetlist] at hnew
  rw [hassigns₁] at hl
  have hmem : ∀ g ∈ fused, ∀ m ∈ g.members, m ∈ groups.foldl Group.union [] := by
    intro g hgf m hm
    exact Group.mem_members.2 ⟨g.members, hadds.members ▸ List.mem_map_of_mem hgf, hm⟩
  have htr : ∀ m ∈ groups.foldl Group.union [], m ∈ d.transactions := by
    intro m hm
    obtain ⟨g, hgm, hm⟩ := Group.mem_members.1 hm
    exact hg g hgm m hm
  have hmethod : ∀ m ∈ groups.foldl Group.union [], ∀ info, (d.node m).kind = .transaction info →
      (d₂.node m).method? = some (memberInfo info) := by
    intro m hm info hinfo
    obtain ⟨info', htr⟩ := hd.transaction (htr m hm)
    have hget₂ : d₂.nodes.get? m = some (toMember (d.node m)) := by
      rw [hadds.old m (hsize₁ ▸ Arena.lt_of_get? htr.get?), hget, if_pos hm, htr.get?, Option.map_some]
    rw [node_of_get? hget₂, toMember, hinfo]
    rfl
  have heq := driveRunnables_eq fused (groups.foldl Group.union []) d₂
  refine ⟨⟨fun g hgf m hm => htr m (hmem g hgf m hm), fun g hgf m hm info hinfo => ⟨?_, ?_⟩, fun g hgf => ?_,
    fun i n hi hle => ?_⟩, hadds.members⟩
  · rw [heq]
    exact hmethod m (hmem g hgf m hm) info hinfo
  · have hdriven : Drivers.Drives ((groups.foldl Group.union []).foldl (driveRunnable fused) d₂).assigns info.runnable
        (mayRun fused d₂ m) :=
      runnable_driven hd htr (fun m hm info hinfo => by rw [hmethod m hm info hinfo]; rfl) hl hnew
        (hmem g hgf m hm) hinfo
    rw [heq] at hdriven ⊢
    exact hdriven
  · rw [heq]
    exact hadds.calls g hgf
  · rw [heq] at hi
    exact hadds.new i n hi (hsize₁ ▸ hle)

end Interlock.Fusion

namespace Interlock.Design

theorem fused_unites {d : Design} {f : Fused} (hd : d.Sound) (h : Attempt.Gives d.fused f) :
    Fusion.Unites d f.groups f.design := by
  obtain ⟨map, groups, hmap, hgroups, hfused, hdesign, -⟩ := fused_steps h
  have hunites := (Fusion.fuse_unites hd.prune
    (Fusion.groups_within hd.prune (CallMap.build_ok hmap) hgroups)).1
  rw [hfused, hdesign]
  exact ⟨hunites.transactions, hunites.member, hunites.calls, hunites.new⟩

end Interlock.Design
