import Interlock.Proofs.Anonymous.Reach
import Interlock.Fusion

/-! Fusion without names. Designs that are alike have to run the same transactions together, or cannot; and fused,
they have the same groups and are alike again. -/

namespace Interlock

open DesignError

variable {d d' : Design}

namespace Design.Alike

theorem pruneOrderings (h : d.Alike d') : Design.Alike d.pruneOrderings d'.pruneOrderings := by
  have hprune : ∀ d : Design, d.pruneOrderings.anonymous = d.anonymous.pruneOrderings := fun d => by
    have hnode : ∀ i, (d.anonymous.node i).simultaneous = (d.node i).simultaneous := fun i => by
      rw [node_anonymous]
      rfl
    unfold Design.pruneOrderings
    simp only [hnode]
    simp only [anonymous, List.filter_map]
    rfl
  rw [Alike, hprune, hprune, h]

end Design.Alike

namespace Independence

variable {map : CallMap}

theorem declaredBy_same (h : d.Alike d') {n n' : Node} (hn : n.anonymous = n'.anonymous) :
    declaredBy d map n = declaredBy d' map n' := by
  have hid : n.id = n'.id := Node.same hn (f := Node.id) fun _ => rfl
  have hind : n.independent = n'.independent := Node.same hn (f := Node.independent) fun _ => rfl
  rw [declaredBy, declaredBy, hid, hind, CallMap.standsFor_same h]

theorem collect_same (h : d.Alike d') : collect d map = collect d' map := by
  have hdeclared : d.nodeList.flatMap (declaredBy d map) = d'.nodeList.flatMap (declaredBy d' map) :=
    flatMap_same h.nodes fun _ _ hn => declaredBy_same h hn
  have hderived : d.nodeList.flatMap (derivedBy map) = d'.nodeList.flatMap (derivedBy map) :=
    flatMap_same h.nodes fun _ _ hn => Node.same hn (f := derivedBy map) fun _ => rfl
  rw [collect, collect, hdeclared, hderived]

end Independence

namespace Fusion

variable {map : CallMap} {i : Independence} {n n' : Node}

/-! ### Groups -/

theorem addPair_agrees (pairs : List Group) (a b : NodeId) :
    Agree SameKind Eq (addPair d i n pairs a b) (addPair d' i n' pairs a b) := by
  unfold addPair
  split
  · exact .ok rfl
  · split
    · exact .error rfl
    · split
      · exact .error rfl
      · exact .ok rfl

theorem addPairs_agrees (h : d.Alike d') (hn : n.anonymous = n'.anonymous) (pairs : List Group) (other : NodeId) :
    Agree SameKind Eq (addPairs d map i n pairs other) (addPairs d' map i n' pairs other) := by
  have hid : n.id = n'.id := Node.same hn (f := Node.id) fun _ => rfl
  unfold addPairs
  simp only [hid, CallMap.standsFor_same h]
  split
  · exact .error rfl
  · refine Agree.foldlM (P := Eq) (List.forall₂_refl _) (fun pairs _ a _ hpairs ha => ?_) rfl
    subst hpairs
    subst ha
    refine Agree.foldlM (P := Eq) (List.forall₂_refl _) (fun pairs _ b _ hpairs hb => ?_) rfl
    subst hpairs
    subst hb
    exact addPair_agrees pairs a b

theorem pairs_agrees (h : d.Alike d') : Agree SameKind Eq (pairs d map i) (pairs d' map i) := by
  refine Agree.foldlM h.nodes (fun ps _ n n' hps hn => ?_) rfl
  subst hps
  rw [Node.same hn (f := Node.simultaneous) fun _ => rfl]
  refine Agree.foldlM (P := Eq) (List.forall₂_refl _) (fun ps _ other _ hps hother => ?_) rfl
  subst hps
  subst hother
  exact addPairs_agrees h hn ps other

theorem groups_agrees (h : d.Alike d') : Agree SameKind Eq (groups d map) (groups d' map) := by
  unfold groups
  rw [Independence.collect_same h]
  refine (pairs_agrees h).bind fun ps _ hps => ?_
  subst hps
  exact .ok rfl

/-! ### Fused designs -/

theorem toMember_anonymous (hn : n.anonymous = n'.anonymous) : (toMember n).anonymous = (toMember n').anonymous := by
  have hto : ∀ n : Node, (toMember n).anonymous = toMember n.anonymous := by
    rintro ⟨_, _, _, _, _, _, _, _, _, kind⟩
    cases kind <;> rfl
  rw [hto, hto, hn]

theorem addGroup_alike (h : d.Alike d') (members : Group) :
    (addGroup d members).1 = (addGroup d' members).1 ∧ (addGroup d members).2.Alike (addGroup d' members).2 := by
  have h₁ := h.newName ("_".intercalate (members.map d.name)) ("_".intercalate (members.map d'.name))
  unfold addGroup
  simp only
  generalize d.newName ("_".intercalate (members.map d.name)) = p at h₁ ⊢
  generalize d'.newName ("_".intercalate (members.map d'.name)) = p' at h₁ ⊢
  obtain ⟨hinfo, h₂⟩ := h₁.newTransactionInfo p.1 p'.1
  rw [hinfo]
  generalize (p'.2.newTransactionInfo p'.1).1 = info at h₂ ⊢
  obtain ⟨hmodule, h₃⟩ := (h₂.drive info.request .one).newModule
  rw [hmodule]
  generalize (Design.drive _ info.request .one).newModule = q at hmodule h₃ ⊢
  generalize (Design.drive _ info.request .one).newModule = q' at hmodule h₃ ⊢
  obtain ⟨hid, h₄⟩ := h₃.addNode p.1 p'.1 (q.2.node (members.headD 0)).loc (q'.2.node (members.headD 0)).loc
    (.transaction info)
  generalize q.2.addNode p.1 (q.2.node (members.headD 0)).loc (.transaction info) = w at hid h₄ ⊢
  generalize q'.2.addNode p'.1 (q'.2.node (members.headD 0)).loc (.transaction info) = w' at hid h₄ ⊢
  rw [hid]
  refine ⟨rfl, h₄.modifyNode _ fun n n' hn => ?_⟩
  have horder : ∀ m, (w.2.node m).defOrder = (w'.2.node m).defOrder := fun m =>
    Node.same (h₄.node m) (f := Node.defOrder) fun _ => rfl
  simp only [horder]
  exact congrArg (fun n : Node => { n with
    defOrder := (members.filterMap fun m => (w'.2.node m).defOrder).min?
    defLoc := some .generated
    calls := (members.map (memberCall q'.1)).map CallSite.allAnonymous }) hn

theorem addGroups_alike (h : d.Alike d') (groups : List Group) :
    (addGroups d groups).1 = (addGroups d' groups).1 ∧ (addGroups d groups).2.Alike (addGroups d' groups).2 := by
  induction groups generalizing d d' with
  | nil => exact ⟨rfl, h⟩
  | cons g groups ih =>
    obtain ⟨hfused, h₁⟩ := addGroup_alike h g
    obtain ⟨hrest, h₂⟩ := ih h₁
    exact ⟨congrArg₂ List.cons hfused hrest, h₂⟩

theorem driveRunnable_alike (h : d.Alike d') (fused : List FusedGroup) (m : NodeId) :
    (driveRunnable fused d m).Alike (driveRunnable fused d' m) := by
  unfold driveRunnable
  rw [h.method]
  split
  · exact h
  · simp only [h.transactionSignal]
    exact h.drive ..

theorem fuse_alike (h : d.Alike d') (groups : List Group) :
    (fuse d groups).1 = (fuse d' groups).1 ∧ (fuse d groups).2.Alike (fuse d' groups).2 := by
  have hmembers := List.foldl_rel (l := groups.foldl Group.union []) (r := Design.Alike) h fun m _ _ _ h =>
    h.modifyNode m fun _ _ => toMember_anonymous
  obtain ⟨hfused, h₁⟩ := addGroups_alike hmembers groups
  refine ⟨hfused, ?_⟩
  unfold fuse
  simp only [hfused]
  exact List.foldl_rel (r := Design.Alike) h₁ fun m _ _ _ h => driveRunnable_alike h _ m

end Fusion

end Interlock
