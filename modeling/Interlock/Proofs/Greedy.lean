import Interlock.Proofs.ConflictFree
import Interlock.Proofs.Fusion.Members
import Interlock.Proofs.Schedule.Priority
import Mathlib.Data.List.Pairwise

/-! What an eager scheduler grants: in order of priority, every transaction that wants to run and conflicts
with none granted before it. The arbiters look at the earlier members of one class only, which makes no
difference, since conflicts do not lead out of a class. -/

namespace Interlock

namespace Schedule

variable {s : Schedule} {wants : NodeId → Bool}

/-- Takes a transaction that wants to run and conflicts with none taken. -/
def take (s : Schedule) (wants : NodeId → Bool) (taken : List NodeId) (t : NodeId) : List NodeId :=
  if wants t && !taken.any (s.conflict · t) then taken ++ [t] else taken

/-- One scan of the order. -/
def greedy (s : Schedule) (wants : NodeId → Bool) : List NodeId := s.order.foldl (s.take wants) []

/-- Whoever decides by those before it, as the scan does, decides the same. -/
theorem filter_eq_greedy {granted : NodeId → Bool}
    (h : ∀ pre t post, s.order = pre ++ t :: post →
      granted t = (wants t && !pre.any fun u => s.conflict u t && granted u)) :
    s.order.filter granted = s.greedy wants := by
  -- The invariant of the scan: what is taken so far is what is granted of the transactions behind it.
  have scan : ∀ rest pre, s.order = pre ++ rest →
      s.order.filter granted = rest.foldl (s.take wants) (pre.filter granted) := by
    intro rest
    induction rest with
    | nil =>
      intro pre hsplit
      rw [hsplit, List.append_nil, List.foldl_nil]
    | cons t rest ih =>
      intro pre hsplit
      rw [List.foldl_cons, ih (pre ++ [t]) (by simp [hsplit]), List.filter_append, List.filter_singleton, take]
      have hany : (pre.filter granted).any (s.conflict · t) = pre.any fun u => s.conflict u t && granted u := by
        rw [List.any_filter]
        exact congrArg _ (funext fun u => Bool.and_comm ..)
      rw [hany, ← h pre t rest hsplit]
      cases granted t
      · rw [cond_false, List.append_nil, if_neg Bool.false_ne_true]
      · rfl
  exact scan s.order [] rfl

/-- What the scan takes and what it leaves. -/
structure Scanned (s : Schedule) (wants : NodeId → Bool) (seen taken : List NodeId) : Prop where
  sublist : taken.Sublist seen
  wanting : ∀ t ∈ taken, wants t = true
  apart : taken.Pairwise fun t u => s.conflict t u = false
  left : ∀ t ∈ seen, wants t = true → t ∉ taken → ∃ u ∈ taken, s.conflict u t = true ∧ [u, t].Sublist seen

theorem Scanned.free {seen taken : List NodeId} (h : Scanned s wants seen taken) {t u : NodeId} (ht : t ∈ taken)
    (hu : u ∈ taken) (hne : t ≠ u) : s.conflict t u = false := by
  have hsymm : Std.Symm fun t u => s.conflict t u = false := ⟨fun t u htu =>
    Bool.eq_false_iff.2 fun hut => Bool.eq_false_iff.1 htu (linked_symm hut)⟩
  exact h.apart.forall ht hu hne

/-- One step of the scan. -/
theorem Scanned.take {seen taken : List NodeId} (h : Scanned s wants seen taken) (t : NodeId) :
    Scanned s wants (seen ++ [t]) (s.take wants taken t) := by
  unfold Schedule.take
  have hleft : ∀ x ∈ seen, wants x = true → x ∉ taken → ∃ u ∈ taken, s.conflict u x = true ∧
      [u, x].Sublist (seen ++ [t]) := fun x hx hwants hnot =>
    let ⟨u, hu, hc, hsub⟩ := h.left x hx hwants hnot
    ⟨u, hu, hc, hsub.trans (List.sublist_append_left ..)⟩
  split
  · rename_i htake
    rw [Bool.and_eq_true, Bool.not_eq_true', List.any_eq_false] at htake
    refine ⟨h.sublist.append (.refl _), fun x hx => ?_, ?_, fun x hx hwants hnot => ?_⟩
    · rcases List.mem_append.1 hx with hx | hx
      · exact h.wanting x hx
      · exact List.mem_singleton.1 hx ▸ htake.1
    · rw [List.pairwise_append]
      refine ⟨h.apart, List.pairwise_singleton _ _, fun u hu x hx => ?_⟩
      rw [List.mem_singleton.1 hx]
      exact Bool.eq_false_iff.2 (htake.2 u hu)
    · rw [List.mem_append, not_or] at hnot
      have hx := (List.mem_append.1 hx).resolve_right hnot.2
      obtain ⟨u, hu, hblocked⟩ := hleft x hx hwants hnot.1
      exact ⟨u, List.mem_append_left _ hu, hblocked⟩
  · rename_i htake
    refine ⟨h.sublist.trans (List.sublist_append_left ..), h.wanting, h.apart, fun x hx hwants hnot => ?_⟩
    rcases List.mem_append.1 hx with hx | hx
    · exact hleft x hx hwants hnot
    · obtain rfl := List.mem_singleton.1 hx
      rw [hwants, Bool.true_and, Bool.not_eq_true', Bool.not_eq_false, List.any_eq_true] at htake
      obtain ⟨u, hu, hc⟩ := htake
      exact ⟨u, hu, hc, (List.singleton_sublist.2 (h.sublist.subset hu)).append (.refl [x])⟩

/-- The whole scan: what it takes wants to run and is free of conflicts, and whatever else wants to conflicts
with something taken before it. -/
theorem greedy_scanned (s : Schedule) (wants : NodeId → Bool) : Scanned s wants s.order (s.greedy wants) := by
  have scan : ∀ rest seen taken, Scanned s wants seen taken →
      Scanned s wants (seen ++ rest) (rest.foldl (s.take wants) taken) := by
    intro rest
    induction rest with
    | nil => exact fun seen taken h => (List.append_nil seen).symm ▸ h
    | cons t rest ih =>
      intro seen taken h
      have hrest := ih _ _ (h.take t)
      rwa [List.append_assoc, List.singleton_append] at hrest
  exact scan s.order [] [] ⟨.slnil, fun _ h => absurd h List.not_mem_nil, .nil, fun _ h => absurd h List.not_mem_nil⟩

end Schedule

namespace Design

namespace Circuit

variable {d d' : Design} {map : CallMap} {s : Schedule} {l : List GuardedAssign} {k : Kernel}

/-- Without turns a transaction is granted where it wants to be and nothing before it in the whole order is
granted that it conflicts with. -/
theorem eager_runs (h : Circuit d map s d' l) (hk : Kernel.Reachable d'.lowered k) (hs : d.schedule map = .ok s)
    (heager : d.config.scheduler = .eager) {pre post : List NodeId} {t : NodeId} (hsplit : s.order = pre ++ t :: post) :
    d.runs k t = ((Arbiter.wants d t).truth k.values.valuation &&
      !pre.any fun u => s.conflict u t && d.runs k u) := by
  have ht : t ∈ d.transactions := (h.schedules.order t).1 (by simp [hsplit])
  obtain ⟨members, hm, htm⟩ := List.mem_flatten.1 ((h.schedules.classes t).2 ht)
  have hall := h.schedules.members members hm
  have hclass : members = pre.filter (· ∈ members) ++ t :: post.filter (· ∈ members) := by
    conv_lhs => rw [Schedule.members_in_order hs hm, hsplit, List.filter_append, List.filter_cons]
    rw [if_pos (decide_eq_true htm)]
  cases h.arbiters members hm with
  | turns hc => exact nomatch heager.symm.trans hc
  | eager _ harb =>
    have hearlier : ∀ u ∈ pre.filter (· ∈ members), u ∈ d.transactions := fun u hu =>
      hall u (of_decide_eq_true (List.mem_filter.1 hu).2)
    rw [Arbiter.runs_eq h.toWired hk.steady ht (harb _ t _ hclass), Arbiter.truth_eagerGrant h.sound hearlier,
      List.any_filter]
    -- What conflicts with a member is a member.
    have hany : (pre.any fun u => decide (u ∈ members) && (s.conflict u t && d.runs k u)) =
        pre.any fun u => s.conflict u t && d.runs k u := by
      rw [Bool.eq_iff_iff, List.any_eq_true, List.any_eq_true]
      refine exists_congr fun u => and_congr_right fun hu => ?_
      rw [Bool.and_eq_true, decide_eq_true_eq, and_iff_right_iff_imp, Bool.and_eq_true]
      rintro ⟨hc, -⟩
      exact h.schedules.closed members hm t htm u (by simp [hsplit, hu]) (Schedule.linked_symm hc)
    rw [hany]

theorem granted_eq_greedy (h : Circuit d map s d' l) (hk : Kernel.Reachable d'.lowered k)
    (hs : d.schedule map = .ok s) (heager : d.config.scheduler = .eager) :
    s.order.filter (d.Granted k ·) = s.greedy (d.Wanting k ·) := by
  have hgranted : ∀ t ∈ s.order, decide (d.Granted k t) = d.runs k t := fun t ht => by
    rw [Bool.eq_iff_iff, decide_eq_true_iff]
    exact h.granted_iff hk ((h.schedules.order t).1 ht)
  refine Schedule.filter_eq_greedy fun pre t post hsplit => ?_
  have ht : t ∈ s.order := by simp [hsplit]
  have hwants : decide (d.Wanting k t) = (Arbiter.wants d t).truth k.values.valuation := by
    rw [Bool.eq_iff_iff, decide_eq_true_iff]
    exact h.wanting_iff hk ((h.schedules.order t).1 ht)
  have hany : (pre.any fun u => s.conflict u t && d.Granted k u) = pre.any fun u => s.conflict u t && d.runs k u := by
    rw [Bool.eq_iff_iff, List.any_eq_true, List.any_eq_true]
    refine exists_congr fun u => and_congr_right fun hu => ?_
    rw [hgranted u (by simp [hsplit, hu])]
  rw [hgranted t ht, hwants, hany, h.eager_runs hk hs heager hsplit]

end Circuit

end Design

/-- In every state that inputs and clock edges lead to, the eager scheduler grants what one scan of the order
takes. So all that is granted wants to run and is free of conflicts, and whatever else wants to run conflicts
with something granted that comes before it; in the order the preferred side of every relation that fusion
keeps comes first. -/
theorem eager_grants_greedily {d : Draft} (hd : d.Recorded) {sink sink' : DiagnosticSink} {e : Elaborated}
    (he : d.design.elaborate sink = .ok (.ok e, sink')) (heager : d.design.config.scheduler = .eager)
    {f : Design.Fused} (hf : Attempt.Gives d.design.fused f) {s : Schedule}
    (hs : f.design.schedule f.map = .ok s) {k : Kernel} (hk : Kernel.Reachable e.netlist k) :
    (∀ t, t ∈ s.order ↔ t ∈ f.design.transactions) ∧
      s.order.filter (f.design.Granted k ·) = s.greedy (f.design.Wanting k ·) ∧
      (∀ t ∈ s.order, f.design.Granted k t → f.design.Wanting k t) ∧
      (∀ t ∈ s.order, ∀ u ∈ s.order, t ≠ u → f.design.Granted k t → f.design.Granted k u →
        s.conflict t u = false) ∧
      (∀ t ∈ s.order, f.design.Wanting k t → ¬ f.design.Granted k t →
        ∃ u, f.design.Granted k u ∧ s.conflict u t = true ∧ [u, t].Sublist s.order) ∧
      ∀ r ∈ d.design.pruneOrderings.relations, ∀ a b, Design.preference r = some (a, b) →
        ∀ t ∈ f.map.standsFor f.design a, ∀ u ∈ f.map.standsFor f.design b, t ≠ u → [t, u].Sublist s.order := by
  obtain ⟨d', l, h, hnetlist⟩ := Design.elaborate_circuit hd.sound he hf hs
  obtain ⟨hconfig, hrelations⟩ := Design.fused_settings hd.sound hf
  rw [hnetlist] at hk
  have hgreedy := h.granted_eq_greedy hk hs (hconfig ▸ heager)
  have hscan := Schedule.greedy_scanned s (f.design.Wanting k ·)
  rw [← hgreedy] at hscan
  have htaken : ∀ t ∈ s.order, f.design.Granted k t → t ∈ s.order.filter (f.design.Granted k ·) :=
    fun t ht hgrant => List.mem_filter.2 ⟨ht, decide_eq_true hgrant⟩
  refine ⟨h.schedules.order, hgreedy, fun t ht hgrant => ?_, fun t ht u hu hne htg hug => ?_,
    fun t ht hwants hnot => ?_, fun r hr a b hab t ht u hu hne => ?_⟩
  · exact of_decide_eq_true (hscan.wanting t (htaken t ht hgrant))
  · exact hscan.free (htaken t ht htg) (htaken u hu hug) hne
  · obtain ⟨u, hu, hblocked⟩ := hscan.left t ht (decide_eq_true hwants) fun htg =>
      hnot (of_decide_eq_true (List.mem_filter.1 htg).2)
    exact ⟨u, of_decide_eq_true (List.mem_filter.1 hu).2, hblocked⟩
  · exact Schedule.preferred_first h.sound h.describes hs (hrelations ▸ hr) hab ht hu hne

namespace Draft

/-- Two transactions with conflicting methods, of which the later one is preferred. -/
def preferred : List Action :=
  [.transaction "A" .generated, .transaction "B" .generated, .method { name := "x" } .generated,
    .method { name := "y" } .generated, .conflict 2 3 .right .generated, .openModule "",
    .inModule 0 (.openMethod 2 .one none .generated), .inModule 0 .leaveBody,
    .inModule 0 (.openMethod 3 .one none .generated), .inModule 0 .leaveBody,
    .inModule 0 (.openTransaction 0 .one .generated),
    .inModule 0 (.call 2 (.zero 0) .one .generated), .inModule 0 .leaveBody,
    .inModule 0 (.openTransaction 1 .one .generated),
    .inModule 0 (.call 3 (.zero 0) .one .generated), .inModule 0 .leaveBody]

end Draft

/-- Both want to run, and `A` has to wait for `B`. -/
theorem eager_grants_greedily_of_preferred :
    ∃ x : Draft.Trial, (Draft.of Draft.preferred).trial? = some x ∧
      x.schedule.order.filter (x.fused.design.Granted x.kernel ·) = [1] ∧
      x.fused.design.Wanting x.kernel 0 ∧ ¬ x.fused.design.Granted x.kernel 0 ∧
      (∃ u, x.fused.design.Granted x.kernel u ∧ x.schedule.conflict u 0 = true ∧ [u, 0].Sublist x.schedule.order) ∧
      [1, 0].Sublist x.schedule.order := by
  have hrec : (Draft.of Draft.preferred).Recorded := Draft.recorded_of (by decide +kernel)
  have heager : (Draft.of Draft.preferred).design.config.scheduler = .eager := by decide +kernel
  have htrial : ∃ x ∈ (Draft.of Draft.preferred).trial?, 0 ∈ x.schedule.order ∧
      x.schedule.greedy (x.fused.design.Wanting x.kernel ·) = [1] ∧
      x.fused.design.Wanting x.kernel 0 ∧ ¬ x.fused.design.Granted x.kernel 0 ∧
      ∃ r ∈ (Draft.of Draft.preferred).design.pruneOrderings.relations, Design.preference r = some (3, 2) ∧
        1 ∈ x.fused.map.standsFor x.fused.design 3 ∧ 0 ∈ x.fused.map.standsFor x.fused.design 2 := by
    decide +kernel
  obtain ⟨x, hx, h0, htaken, hwants, hnot, r, hr, hpref, h1, h2⟩ := htrial
  obtain ⟨hf, hs, he, hk⟩ := Draft.trial_ok hx
  obtain ⟨-, hgreedy, -, -, hblocked, hfirst⟩ := eager_grants_greedily hrec he heager hf hs hk
  exact ⟨x, hx, hgreedy.trans htaken, hwants, hnot, hblocked 0 h0 hwants hnot,
    hfirst r hr 3 2 hpref 1 h1 0 h2 (by decide)⟩

end Interlock
