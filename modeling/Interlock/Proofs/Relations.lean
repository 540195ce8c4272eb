import Interlock.Elaboration
import Interlock.Proofs.Agree

/-! What relations matter to. Elaboration reads them where it checks orderings, where it puts the transactions in
order and where it looks for conflicts, and nowhere else; so a design whose relations are replaced is fused the same,
and gets the same logic for the same schedule. -/

namespace Interlock

/-- The relation that an ordering is recorded as. -/
def Relation.before (a b : NodeId) (silenced : Bool) (loc : Location) : Relation := ⟨a, b, .left, false, silenced, loc⟩

/-- The design with other relations. -/
def Design.withRelations (d : Design) (rs : List Relation) : Design := { d with relations := rs }

/-- The second design is the first one with these relations. -/
def Design.Replaces (rs : List Relation) (d d' : Design) : Prop := d' = d.withRelations rs

variable {d d' : Design} {rs : List Relation} {map : CallMap}

/-! ### Fusion -/

namespace CallMap

theorem visit_withRelations (d : Design) (rs : List Relation) (t : NodeId) (fuel : Nat) :
    visit (d.withRelations rs) t fuel = visit d t fuel := by
  induction fuel with
  | zero => rfl
  | succ fuel ih =>
    funext callers env map
    rw [visit, visit, ih]
    rfl

/-- Relations do not matter to what is reached. -/
theorem build_withRelations (d : Design) (rs : List Relation) : build (d.withRelations rs) = build d := by
  unfold build
  simp only [visit_withRelations]
  rfl

end CallMap

namespace Fusion

theorem addGroups_withRelations (gs : List Group) : ∀ d : Design,
    addGroups (d.withRelations rs) gs = ((addGroups d gs).1, (addGroups d gs).2.withRelations rs) := by
  induction gs with
  | nil => exact fun d => rfl
  | cons g gs ih =>
    intro d
    have hrest := ih (addGroup d g).2
    show ((addGroup d g).1 :: (addGroups ((addGroup d g).2.withRelations rs) gs).1,
      (addGroups ((addGroup d g).2.withRelations rs) gs).2) = _
    rw [hrest]
    rfl

theorem driveRunnable_withRelations (fused : List FusedGroup) (d : Design) (m : NodeId) :
    driveRunnable fused (d.withRelations rs) m = (driveRunnable fused d m).withRelations rs := by
  unfold driveRunnable
  rw [show (d.withRelations rs).node m = d.node m from rfl]
  cases (d.node m).method?.bind (·.fusedFrom) <;> rfl

theorem fuse_withRelations (d : Design) (gs : List Group) :
    fuse (d.withRelations rs) gs = ((fuse d gs).1, (fuse d gs).2.withRelations rs) := by
  unfold fuse
  have hmembers : (gs.foldl Group.union []).foldl (fun d m => d.modifyNode m toMember) (d.withRelations rs) =
      ((gs.foldl Group.union []).foldl (fun d m => d.modifyNode m toMember) d).withRelations rs :=
    List.foldl_hom (Design.withRelations · rs) fun _ _ => rfl
  simp only [hmembers, addGroups_withRelations]
  exact Prod.ext rfl (List.foldl_hom (Design.withRelations · rs) fun d m => driveRunnable_withRelations _ d m)

end Fusion

namespace Design

/-- The ordering stays when the design is fused: it is a conflict, or neither of its nodes lists the other. -/
def keeps (d : Design) (r : Relation) : Bool :=
  r.conflict || !((d.node r.source).simultaneous.contains r.target || (d.node r.target).simultaneous.contains r.source)

theorem prune_withRelations (d : Design) (rs : List Relation) :
    (d.withRelations rs).pruneOrderings = d.pruneOrderings.withRelations (rs.filter d.keeps) := rfl

/-- With other relations, the design is fused the same. -/
theorem fused_withRelations {f : Fused} (h : Attempt.Gives d.fused f) (rs : List Relation) :
    Attempt.Gives (d.withRelations rs).fused { f with design := f.design.withRelations (rs.filter d.keeps) } := by
  simp only [fused, Attempt.gives_bind, Attempt.gives_ofExcept] at h ⊢
  obtain ⟨map, hmap, _, hmethods, groups, hgroups, h⟩ := h
  refine ⟨map, (CallMap.build_withRelations d rs).symm ▸ hmap, (), hmethods, groups, hgroups, ?_⟩
  simp only [prune_withRelations, Fusion.fuse_withRelations]
  split at h
  · rename_i hempty
    rw [if_pos hempty]
    obtain rfl := Attempt.gives_pure.1 h
    exact Attempt.gives_pure.2 rfl
  · rename_i hempty
    rw [if_neg hempty]
    simp only [Attempt.gives_bind, Attempt.gives_pure, CallMap.build_withRelations] at h ⊢
    obtain ⟨map', hmap', rfl⟩ := h
    exact ⟨map', hmap', rfl⟩

end Design

/-! ### The logic -/

namespace Arbiter

variable {s : Schedule}

theorem driveGrant_replaces (h : Design.Replaces rs d d') (t : NodeId) (value : Expr) :
    Agree Eq (Design.Replaces rs) (driveGrant d t value) (driveGrant d' t value) := by
  subst h
  unfold driveGrant
  rw [show (d.withRelations rs).node t = d.node t from rfl]
  cases (d.node t).transaction? with
  | none => exact .error rfl
  | some info => exact .ok rfl

theorem eager_replaces (h : Design.Replaces rs d d') (earlier members : List NodeId) :
    Agree Eq (Design.Replaces rs) (eager s earlier members d) (eager s earlier members d') := by
  induction members generalizing earlier d d' with
  | nil => exact .ok h
  | cons t rest ih =>
    have hgrant : eagerGrant d s earlier t = eagerGrant d' s earlier t := by
      subst h
      rfl
    rw [eager, eager, hgrant]
    exact (driveGrant_replaces h t _).bind fun _ _ h => ih h _

theorem roundRobin_replaces (d : Design) (index : Nat) (members : List NodeId) :
    Agree Eq (Design.Replaces rs) (roundRobin index members d) (roundRobin index members (d.withRelations rs)) := by
  unfold roundRobin
  simp only
  split
  · exact .error rfl
  · refine Agree.bind (Agree.foldlM (R := Design.Replaces rs) (P := Eq) (List.forall₂_refl _)
      (fun d d' p _ h hp => ?_) rfl) fun d d' h => ?_
    · subst hp
      rw [show d'.read = d.read by subst h; rfl]
      exact driveGrant_replaces h _ _
    · subst h
      exact .ok rfl

theorem emit_replaces (h : Design.Replaces rs d d') : Agree Eq (Design.Replaces rs) (emit s d) (emit s d') := by
  refine Agree.foldlM (P := Eq) (List.forall₂_refl _) (fun d d' p _ h hp => ?_) h
  subst hp
  obtain ⟨members, index⟩ := p
  show Agree Eq (Design.Replaces rs) (emitClass s d members index) (emitClass s d' members index)
  unfold emitClass
  rw [show d'.config = d.config by subst h; rfl]
  split
  · subst h
    exact roundRobin_replaces d index members
  · exact eager_replaces h [] members

end Arbiter

namespace CallLogic

theorem driveMethod_replaces (h : Design.Replaces rs d d') (n : Node) :
    Agree Eq (Design.Replaces rs) (driveMethod map d n) (driveMethod map d' n) := by
  subst h
  unfold driveMethod
  split
  · exact .ok rfl
  · rw [show callsTo (d.withRelations rs) map n.id = callsTo d map n.id from rfl]
    simp only
    split
    · exact .ok rfl
    · exact (Agree.refl fun _ => rfl).bind fun _ _ harg => harg ▸ .ok rfl

theorem driveTransaction_replaces (h : Design.Replaces rs d d') (n : Node) :
    Agree Eq (Design.Replaces rs) (driveTransaction map d n) (driveTransaction map d' n) := by
  subst h
  unfold driveTransaction
  split
  · exact .ok rfl
  · exact (Agree.refl fun _ => rfl).bind fun _ _ harg => harg ▸ .ok rfl

theorem emit_replaces (h : Design.Replaces rs d d') :
    Attempt.Agrees Eq (Design.Replaces rs) (emit map d) (emit map d') := by
  have hnodes : d'.nodeList = d.nodeList := by
    subst h
    rfl
  unfold emit
  rw [hnodes]
  refine (Attempt.agrees_ofChecked (Agree.foldlM (P := Eq) (List.forall₂_refl _)
    (fun _ _ n _ h hn => hn ▸ driveMethod_replaces h n) h)).bind fun d₁ d₁' h₁ => ?_
  exact Attempt.agrees_ofExcept (Agree.foldlM (P := Eq) (List.forall₂_refl _)
    (fun _ _ n _ h hn => hn ▸ driveTransaction_replaces h n) h₁)

end CallLogic

theorem Design.withLogic_replaces (d : Design) (rs : List Relation) (map : CallMap) (s : Schedule) :
    Attempt.Agrees Eq (Design.Replaces rs) (d.withLogic map s) ((d.withRelations rs).withLogic map s) :=
  (Attempt.agrees_ofExcept (Arbiter.emit_replaces rfl)).bind fun _ _ h => CallLogic.emit_replaces h

end Interlock
