import Interlock.Proofs.Draft.Placed
import Interlock.Proofs.Fusion

/-! Places after fusion. The bodies and calls of a recorded draft are still where they were, and what
fusion adds is on no path that excludes another. So two calls of one body on exclusive paths are not both
enabled, whatever the signals are, and neither are two bodies. -/

namespace Interlock

namespace Node

variable {n : Node} {m : NodeId}

/-- The transaction of a group calls each of its members in one place, in every cycle. -/
theorem sites_of_member (module : ModuleId) {members : Group}
    (h : n.calls = members.map (Fusion.memberCall module)) :
    n.sitesTo m = [] ∨ n.sitesTo m = [⟨⟨module, []⟩, .zero 0, .one, .generated⟩] := by
  unfold sitesTo
  rw [h]
  clear h
  induction members with
  | nil => exact .inl rfl
  | cons x xs ih =>
    rw [List.map_cons, Fusion.memberCall, List.lookup_cons]
    split
    · exact .inr rfl
    · exact ih

end Node

namespace Design

/-- The constants in the enables of all calls fit their widths. -/
def EnablesFit (d : Design) : Prop := ∀ n ∈ d.nodeList, ∀ c ∈ n.calls, ∀ s ∈ c.2, s.enable.fits = true

instance (d : Design) : Decidable d.EnablesFit :=
  inferInstanceAs (Decidable (∀ n ∈ d.nodeList, ∀ c ∈ n.calls, ∀ s ∈ c.2, s.enable.fits = true))

end Design

namespace Draft

/-- The numbers at whose chains two exclusive places of a draft part have been given out once. -/
def Separate (d : Draft) : Prop :=
  ∀ p ∈ d.points, ∀ q ∈ d.points, p.path.exclusiveWith q.path = true →
    ∀ key ∈ p.path.partsAt q.path, d.NumberedOnce key

instance (d : Draft) : Decidable d.Separate :=
  inferInstanceAs (Decidable (∀ p ∈ d.points, ∀ q ∈ d.points, p.path.exclusiveWith q.path = true →
    ∀ key ∈ p.path.partsAt q.path, d.NumberedOnce key))

variable {d : Draft} {f : Design} {σ : Valuation}

theorem Recorded.points_apart (h : d.Recorded) (hs : d.Separate) {p q : Point} (hp : p ∈ d.points)
    (hq : q ∈ d.points) (hx : p.path.exclusiveWith q.path = true) :
    ¬ (p.cond.truth σ = true ∧ q.cond.truth σ = true) :=
  h.soundPaths.apart hp hq hx (fun key hkey => hs p hp q hq hx key hkey) σ

/-! ### Calls -/

/-- A body of the fused design has the calls that were recorded in it, or those of a group's transaction, or
does not exist. -/
theorem sites_cases (hf : Fusion.Fuses d.design f) (c : NodeId) :
    (∃ n, d.design.nodes.get? c = some n ∧ ∀ m, (f.node c).sitesTo m = n.sitesTo m) ∨
      ∃ module, ∀ m, (f.node c).sitesTo m = [] ∨
        (f.node c).sitesTo m = [⟨⟨module, []⟩, .zero 0, .one, .generated⟩] := by
  cases hc : f.nodes.get? c with
  | none =>
    refine .inr ⟨0, fun m => .inl ?_⟩
    unfold Design.node
    rw [hc]
    rfl
  | some n' =>
    rw [Design.node_of_get? hc]
    rcases Nat.lt_or_ge c d.design.nodes.size with hlt | hge
    · obtain ⟨n, hn⟩ := Arena.exists_get? hlt
      obtain ⟨n₂, hn₂, hsame⟩ := hf.old c n hn
      obtain rfl : n' = n₂ := Option.some.inj (hc.symm.trans hn₂)
      refine .inl ⟨n, hn, fun m => ?_⟩
      unfold Node.sitesTo
      rw [hsame.fields.2.2.1]
    · obtain ⟨-, module, members, hcalls⟩ := hf.new c n' hc hge
      exact .inr ⟨module, fun m => Node.sites_of_member module hcalls⟩

/-- A call in a body of the fused design was recorded in that body, or is the one that a group's transaction makes. -/
theorem site_cases (hf : Fusion.Fuses d.design f) {c m : NodeId} {s : CallSite} (hs : s ∈ (f.node c).sitesTo m) :
    (∃ n, d.design.nodes.get? c = some n ∧ s ∈ n.sitesTo m) ∨
      ∃ module, s = ⟨⟨module, []⟩, .zero 0, .one, .generated⟩ := by
  rcases sites_cases hf c with ⟨n, hn, hsites⟩ | ⟨module, hsites⟩
  · exact .inl ⟨n, hn, hsites m ▸ hs⟩
  · rcases hsites m with hnil | hone
    · rw [hnil] at hs
      exact nomatch hs
    · exact .inr ⟨module, List.mem_singleton.1 (hone ▸ hs)⟩

/-- Two calls in one body that are on exclusive paths are not both enabled. -/
theorem Recorded.sites_apart (h : d.Recorded) (hs : d.Separate) (hf : Fusion.Fuses d.design f)
    {c x y : NodeId} {a b : CallSite} (ha : a ∈ (f.node c).sitesTo x) (hb : b ∈ (f.node c).sitesTo y)
    (hx : a.path.exclusiveWith b.path = true) : ¬ (a.enable.truth σ = true ∧ b.enable.truth σ = true) := by
  rcases sites_cases hf c with ⟨n, hn, hsites⟩ | ⟨module, hsites⟩
  · rw [hsites] at ha hb
    obtain ⟨p, hp, hap, e, hae, -⟩ := h.soundPlaces.sites c n hn x a ha
    obtain ⟨q, hq, hbq, e', hbe, -⟩ := h.soundPlaces.sites c n hn y b hb
    rw [hae, hbe, Expr.truth_and, Expr.truth_and, Bool.and_eq_true, Bool.and_eq_true]
    rintro ⟨⟨hpt, -⟩, hqt, -⟩
    exact h.points_apart hs hp hq (hap ▸ hbq ▸ hx) ⟨hpt, hqt⟩
  · -- A path without arms excludes no other.
    rcases hsites x with hnil | hone
    · rw [hnil] at ha
      cases ha
    · rw [hone, List.mem_singleton] at ha
      rw [ha, ControlPath.exclusiveWith, ControlPath.edgesExclusive, Bool.and_false] at hx
      · cases hx
      · intro _ _ _ _ h
        cases h

/-- Of the calls of one method in one body no two are enabled. -/
theorem Recorded.sites_single (h : d.Recorded) (hs : d.Separate) (hf : Fusion.Fuses d.design f) {c m : NodeId}
    {i j : Nat} {a b : CallSite} (ha : ((f.node c).sitesTo m)[i]? = some a)
    (hb : ((f.node c).sitesTo m)[j]? = some b) (hat : a.enable.truth σ = true)
    (hbt : b.enable.truth σ = true) : i = j := by
  have hpairs : ((f.node c).sitesTo m).Pairwise fun s s' => s.path.exclusiveWith s'.path = true := by
    rcases sites_cases hf c with ⟨n, hn, hsites⟩ | ⟨module, hsites⟩
    · rw [hsites]
      exact h.soundPlaces.apart c n hn m
    · rcases hsites m with hnil | hone
      · rw [hnil]
        exact .nil
      · rw [hone]
        exact List.pairwise_singleton _ _
  have hmem := List.mem_of_getElem? ha
  have hmem' := List.mem_of_getElem? hb
  obtain ⟨hi, rfl⟩ := List.getElem?_eq_some_iff.1 ha
  obtain ⟨hj, rfl⟩ := List.getElem?_eq_some_iff.1 hb
  rcases Nat.lt_trichotomy i j with hlt | heq | hgt
  · exact absurd ⟨hat, hbt⟩ (h.sites_apart hs hf hmem hmem' (List.pairwise_iff_getElem.1 hpairs i j hi hj hlt))
  · exact heq
  · exact absurd ⟨hbt, hat⟩ (h.sites_apart hs hf hmem' hmem (List.pairwise_iff_getElem.1 hpairs j i hj hi hgt))

/-- The enable of a call is a single bit. -/
theorem Recorded.enable_width (h : d.Recorded) (hf : Fusion.Fuses d.design f) {c m : NodeId} {s : CallSite}
    (hs : s ∈ (f.node c).sitesTo m) : s.enable.width = 1 := by
  rcases site_cases hf hs with ⟨n, hn, hs⟩ | ⟨module, rfl⟩
  · obtain ⟨p, hp, -, e, he, hw⟩ := h.soundPlaces.sites c n hn m s hs
    rw [he, Expr.width_and, width_cond (h.singleBits.noted p hp), hw, Nat.max_self]
  · rfl

/-- The enable of a call is not zero exactly where it holds. -/
theorem Recorded.enable_iff (h : d.Recorded) (hfit : d.design.EnablesFit) (hf : Fusion.Fuses d.design f)
    {c m : NodeId} {s : CallSite} (hs : s ∈ (f.node c).sitesTo m) :
    s.enable.eval σ ≠ 0 ↔ s.enable.truth σ = true := by
  refine Expr.eval_ne_zero_iff (Expr.bounded_of_fits ?_) (h.enable_width hf hs)
  rcases site_cases hf hs with ⟨n, hn, hs⟩ | ⟨module, rfl⟩
  · obtain ⟨sites, hcalls, hmem⟩ := Node.mem_calls_of_sites hs
    exact hfit n (Arena.mem_toList.2 ⟨c, hn⟩) _ hcalls s hmem
  · exact Expr.fits_constant ..

/-! ### Bodies -/

/-- The entry of a body that has a path is driven by the conditions of a place on that path. -/
theorem Recorded.entry_driven (h : d.Recorded) (hf : Fusion.Fuses d.design f) {c : NodeId} {path : ControlPath}
    (hpath : (f.node c).path = some path) : ∃ p ∈ d.points, p.path = path ∧
      ∃ e, Drivers.Drives f.assigns (f.node c).entry (p.cond.and e) := by
  cases hc : f.nodes.get? c with
  | none =>
    unfold Design.node at hpath
    rw [hc] at hpath
    exact nomatch hpath
  | some n' =>
    rw [Design.node_of_get? hc] at hpath ⊢
    rcases Nat.lt_or_ge c d.design.nodes.size with hlt | hge
    · obtain ⟨n, hn⟩ := Arena.exists_get? hlt
      obtain ⟨n₂, hn₂, hsame⟩ := hf.old c n hn
      obtain rfl : n' = n₂ := Option.some.inj (hc.symm.trans hn₂)
      obtain ⟨p, hp, hpp, e, hmem, honly⟩ := h.soundPlaces.opened c n hn path (hsame.fields.2.1 ▸ hpath)
      obtain ⟨added, hadded, hother⟩ := hf.assigns
      refine ⟨p, hp, hpp, e, ?_⟩
      rw [hsame.wires.2.2.1, hadded]
      refine ⟨List.mem_append_left _ hmem, fun a ha htarget hdomain => ?_⟩
      rcases List.mem_append.1 ha with ha | ha
      · exact honly a ha htarget hdomain
      · exact absurd htarget (hother a ha c n hn)
    · rw [(hf.new c n' hc hge).1] at hpath
      exact nomatch hpath

end Draft

end Interlock
