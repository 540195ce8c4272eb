import Interlock.Proofs.Anonymous.Recording
import Interlock.Reach

/-! Reach without names. In designs that are alike transactions reach the same methods under the same conditions,
or the search ends with errors of one kind; and the checks of declared methods end alike. -/

namespace Interlock

open Attempt DesignError

variable {d d' : Design}

namespace Design

theorem callersOf_anonymous (d : Design) (m : NodeId) : d.anonymous.callersOf m = d.callersOf m := by
  have hcalls : ∀ n : Node, (n.anonymous.calls.any fun c => c.1 == m) = n.calls.any fun c => c.1 == m := fun n => by
    rw [Node.anonymous, List.any_map]
    rfl
  rw [callersOf, callersOf, nodeList_anonymous, List.filter_map, List.map_map]
  simp only [Function.comp_def, hcalls]
  rfl

theorem Alike.calls (h : d.Alike d') (i : NodeId) :
    (d.node i).calls.map CallSite.allAnonymous = (d'.node i).calls.map CallSite.allAnonymous := by
  have hcalls : (d.node i).anonymous.calls = (d'.node i).anonymous.calls := by rw [h.node]
  exact hcalls

theorem Alike.sitesTo (h : d.Alike d') (c m : NodeId) :
    ((d.node c).sitesTo m).map CallSite.anonymous = ((d'.node c).sitesTo m).map CallSite.anonymous := by
  rw [← Recording.Alike.sitesTo_anonymous, ← Recording.Alike.sitesTo_anonymous, h.node]

/-- The nodes in order, each beside the one that it is like. -/
theorem Alike.nodes (h : d.Alike d') : List.Forall₂ (fun n n' => n.anonymous = n'.anonymous) d.nodeList d'.nodeList :=
  forall₂_of_map h.nodeList

end Design

namespace CallMap

variable {map : CallMap}

theorem effective_same {env : Bindings} {sites sites' : List CallSite}
    (h : sites.map CallSite.anonymous = sites'.map CallSite.anonymous) :
    sites.map (effective env) = sites'.map (effective env) := by
  have hsites := congrArg (List.map (effective env)) h
  rw [List.map_map, List.map_map] at hsites
  exact hsites

theorem standsFor_anonymous (map : CallMap) (d : Design) : map.standsFor d.anonymous = map.standsFor d := by
  funext id
  rw [standsFor, standsFor, Design.node_anonymous]
  rfl

theorem standsFor_same (h : d.Alike d') : map.standsFor d = map.standsFor d' := h.same (standsFor_anonymous map)

/-- Whether there are two sites that may be active in one cycle. -/
theorem clash?_same {first first' second second' : List CallSite}
    (hfirst : first.map CallSite.anonymous = first'.map CallSite.anonymous)
    (hsecond : second.map CallSite.anonymous = second'.map CallSite.anonymous) :
    (clash? first second).isSome = (clash? first' second').isSome := by
  have hclash : ∀ first second, (clash? first second).isSome =
      (first.map CallSite.anonymous).any fun a => (second.map CallSite.anonymous).any fun b => !a.path.exclusiveWith b.path := by
    intro first second
    rw [clash?, List.isSome_findSome?]
    simp only [Option.isSome_map, List.isSome_find?, List.any_map]
    rfl
  rw [hclash, hclash, hfirst, hsecond]

theorem checkSecond_agrees (h : d.Alike d') (r : Reach) (callers : List NodeId) :
    Agree SameKind Eq (checkSecond d r callers) (checkSecond d' r callers) := by
  unfold checkSecond
  rw [Node.same (h.node r.method) (f := Node.isNonexclusive) fun _ => rfl]
  split
  · exact .ok rfl
  · generalize fork r.method r.transaction r.callers.reverse callers.reverse = ways
    obtain ⟨parent, first, second⟩ := ways
    have hsome := clash?_same (h.sitesTo parent first) (h.sitesTo parent second)
    simp only
    split
    · rename_i hclash
      rw [hclash, Option.isSome_some] at hsome
      obtain ⟨c', hc'⟩ := Option.isSome_iff_exists.1 hsome.symm
      rw [hc']
      exact .error rfl
    · rename_i hclash
      rw [hclash, Option.isSome_none] at hsome
      rw [Option.isNone_iff_eq_none.1 (Option.isSome_eq_false_iff.1 hsome.symm)]
      exact .ok rfl

theorem add_agrees (h : d.Alike d') (map : CallMap) (r : Reach) : Agree SameKind Eq (map.add d r) (map.add d' r) := by
  unfold add
  split
  · exact .ok rfl
  · exact (checkSecond_agrees h _ _).bind fun _ _ _ => .ok rfl

/-- What a caller reaches. -/
theorem visit_agrees (h : d.Alike d') (t : NodeId) : ∀ fuel callers env map,
    Agrees SameKind Eq (visit d t fuel callers env map) (visit d' t fuel callers env map)
  | 0, _, _, _ => agrees_pure rfl
  | fuel + 1, callers, env, map => by
    rw [visit, visit]
    refine agrees_foldlM (forall₂_of_map (h.calls _)) (fun map _ call call' hmap hcall => ?_) rfl
    subst hmap
    obtain ⟨m, sites⟩ := call
    obtain ⟨m', sites'⟩ := call'
    obtain ⟨rfl, hsites⟩ := Prod.mk.inj hcall
    simp only [h.method, effective_same hsites, h.read]
    refine Agrees.guard rfl ?_
    split
    · exact agrees_pure rfl
    · refine Agrees.bind (R := Eq) (agrees_ofChecked (.refl fun _ => rfl)) fun condition _ hcondition => ?_
      subst hcondition
      refine (agrees_ofExcept (add_agrees h map _)).bind fun map _ hmap => ?_
      subst hmap
      exact visit_agrees h t fuel _ _ _

theorem build_agrees (h : d.Alike d') : Agrees SameKind Eq (build d) (build d') := by
  unfold build
  rw [h.transactions, h.size]
  refine agrees_foldlM (P := Eq) (List.forall₂_refl _) (fun map _ t _ hmap ht => ?_) rfl
  subst hmap
  subst ht
  exact visit_agrees h t _ _ _ _

end CallMap

namespace Design

theorem checkMethods_agrees (h : d.Alike d') : Agree SameKind Eq d.checkMethods d'.checkMethods := by
  refine Agree.forM h.nodes fun n n' hn => ?_
  have hid : n.id = n'.id := Node.same hn (f := Node.id) fun _ => rfl
  unfold checkMethod
  simp only [Node.same hn (f := Node.method?) fun _ => rfl, Node.same hn (f := Node.isDefined) fun _ => rfl, hid,
    h.same (f := fun d => d.callersOf n'.id) fun d => callersOf_anonymous d n'.id]
  split
  · exact .ok rfl
  · refine Agree.guard rfl (Agree.guard rfl ?_)
    split
    · exact .error rfl
    · exact .ok rfl

end Design

end Interlock
