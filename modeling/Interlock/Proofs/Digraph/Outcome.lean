import Interlock.Proofs.Digraph.Sort
import Interlock.Proofs.Digraph.Walk
import Mathlib.Logic.Relation

/-! What a topological sort ends with. The walk leaves a node after its successors, but for those that it has met and
not left; these lead to the node that it is at, so an edge back to one of them closes a cycle. A predecessor that the
second pass finds out of place is therefore on a cycle; and an order that passes holds every node once. -/

namespace Interlock.Digraph

variable {β : Type} {g : Digraph β} {w w' : Walk}

/-- Each node that has been left is listed once, and an edge of it leads to a node left earlier, or back to it. -/
structure Finished (g : Digraph β) (w : Walk) : Prop where
  met : ∀ x ∈ w.left, x ∈ w.seen
  nodup : w.left.Nodup
  edges : ∀ pre n post, w.left = pre ++ n :: post → ∀ m, g.Edge n m → m ∈ post ∨ Relation.ReflTransGen g.Edge m n

/-- The walk is at a node or below it. -/
def Open (w : Walk) (x : Nat) : Prop := x ∈ w.seen ∧ x ∉ w.left

/-- A stretch of the walk after which it is back where it was. -/
structure Settles (g : Digraph β) (w w' : Walk) : Prop where
  finished : g.Finished w'
  same : ∀ x, Open w' x ↔ Open w x
  seen : ∀ x ∈ w.seen, x ∈ w'.seen
  left : ∀ x ∈ w.left, x ∈ w'.left

theorem Finished.settles (hw : g.Finished w) : g.Settles w w := ⟨hw, fun _ => Iff.rfl, fun _ h => h, fun _ h => h⟩

theorem Settles.trans {w₁ w₂ w₃ : Walk} (h : g.Settles w₁ w₂) (h' : g.Settles w₂ w₃) : g.Settles w₁ w₃ :=
  ⟨h'.finished, fun x => (h'.same x).trans (h.same x), fun x hx => h'.seen x (h.seen x hx),
    fun x hx => h'.left x (h.left x hx)⟩

/-- A node that is entered and left. -/
theorem Settles.leave {n : Nat} (hn : n ∉ w.seen) (h : g.Settles { w with seen := n :: w.seen } w')
    (hnext : ∀ m, g.Edge n m → m ∈ w'.left ∨ Relation.ReflTransGen g.Edge m n) (hw : g.Finished w) :
    g.Settles w { w' with left := n :: w'.left } := by
  have hopen : Open w' n := (h.same n).2 ⟨List.mem_cons_self .., fun hl => hn (hw.met n hl)⟩
  refine ⟨⟨fun x hx => ?_, List.nodup_cons.2 ⟨hopen.2, h.finished.nodup⟩, fun pre m post he k hk => ?_⟩, fun x => ?_,
    fun x hx => h.seen x (List.mem_cons_of_mem _ hx), fun x hx => List.mem_cons_of_mem _ (h.left x hx)⟩
  · rcases List.mem_cons.1 hx with rfl | hx
    · exact hopen.1
    · exact h.finished.met x hx
  · rcases pre with _ | ⟨y, pre⟩
    · obtain ⟨rfl, rfl⟩ := List.cons.inj he
      exact hnext k hk
    · exact h.finished.edges pre m post (List.cons.inj he).2 k hk
  · have hsame := h.same x
    unfold Open at hsame ⊢
    simp only [List.mem_cons, not_or]
    constructor
    · rintro ⟨hs, hx, hl⟩
      obtain ⟨hs, hl⟩ := hsame.1 ⟨hs, hl⟩
      exact ⟨(List.mem_cons.1 hs).resolve_left hx, hl⟩
    · rintro ⟨hs, hl⟩
      obtain ⟨hs', hl'⟩ := hsame.2 ⟨List.mem_cons_of_mem _ hs, hl⟩
      exact ⟨hs', fun hx => hn (hx ▸ hs), hl'⟩

/-- How a stretch of the walk through some nodes ends. -/
inductive Ends (g : Digraph β) (w : Walk) (l : List Nat) : Except Nat Walk → Prop
  /-- At a node with an edge to itself. -/
  | loop {x : Nat} (h : g.Edge x x) : Ends g w l (.error x)
  /-- Back where it was, with all of the nodes met. -/
  | back {w' : Walk} (hs : g.Settles w w') (hl : ∀ n ∈ l, n ∈ w'.seen) : Ends g w l (.ok w')

theorem Ends.foldlM {f : Walk → Nat → Except Nat Walk} {l : List Nat}
    (step : ∀ n ∈ l, ∀ v, g.Settles w v → g.Ends v [n] (f v n)) :
    ∀ v, g.Settles w v → g.Ends v l (l.foldlM f v) := by
  induction l with
  | nil => exact fun v hv => .back hv.finished.settles fun n hn => absurd hn List.not_mem_nil
  | cons n l ih =>
    intro v hv
    rw [List.foldlM_cons]
    have hn := step n (List.mem_cons_self ..) v hv
    generalize f v n = r at hn
    cases hn with
    | loop h => exact .loop h
    | @back v₁ hs hn =>
      show g.Ends v (n :: l) (l.foldlM f v₁)
      have hl := ih (fun m hm => step m (List.mem_cons_of_mem _ hm)) v₁ (hv.trans hs)
      generalize l.foldlM f v₁ = r at hl
      cases hl with
      | loop h => exact .loop h
      | back hs' hl =>
        refine .back (hs.trans hs') fun m hm => ?_
        rcases List.mem_cons.1 hm with rfl | hm
        · exact hs'.seen _ (hn _ (List.mem_singleton_self _))
        · exact hl m hm

/-- The walk comes back from every node that the open ones lead to, unless it meets an edge from a node to itself. -/
theorem descend_ends (hedges : ∀ a b, g.Edge a b → b ∈ g.nodes) :
    ∀ (fuel : Nat) (w : Walk) (n : Nat), n ∈ g.nodes → (Walk.unseen g.nodes w).length ≤ fuel → g.Finished w →
      (∀ x, Open w x → Relation.TransGen g.Edge x n) → g.Ends w [n] (g.descend fuel w n) := by
  have stay : ∀ {w : Walk} {n : Nat}, n ∈ w.seen → g.Finished w → g.Ends w [n] (.ok w) := fun hn hw =>
    .back hw.settles fun m hm => List.mem_singleton.1 hm ▸ hn
  intro fuel
  induction fuel with
  | zero =>
    intro w n hn hf hw _
    refine stay ?_ hw
    by_contra hs
    have hmem : n ∈ Walk.unseen g.nodes w := by
      simp only [Walk.unseen, List.mem_filter, decide_eq_true_eq]
      exact ⟨hn, hs⟩
    exact absurd (List.length_pos_of_mem hmem) (Nat.not_lt.2 hf)
  | succ fuel ih =>
    intro w n hn hf hw hopen
    rw [descend]
    split
    · exact stay ‹_› hw
    · rename_i hseen
      split
      · exact .loop (hasEdge_iff.1 ‹_›)
      · have hentered : g.Finished { w with seen := n :: w.seen } :=
          ⟨fun x hx => List.mem_cons_of_mem _ (hw.met x hx), hw.nodup, hw.edges⟩
        -- The open nodes are those from before and `n` itself.
        have hreach : ∀ x, Open { w with seen := n :: w.seen } x → Relation.ReflTransGen g.Edge x n := by
          rintro x ⟨hx, hl⟩
          rcases List.mem_cons.1 hx with rfl | hx
          · exact .refl
          · exact (hopen x ⟨hx, hl⟩).to_reflTransGen
        have hlt := Walk.unseen_meet hn hseen
        have hall := Ends.foldlM (f := g.descend fuel) (l := (g.successors n).reverse) (fun m hm v hv => by
          have hnm := mem_successors.1 (List.mem_reverse.1 hm)
          have hle : (Walk.unseen g.nodes v).length ≤ _ := Walk.unseen_le hv.seen
          exact ih v m (hedges n m hnm) (by omega) hv.finished fun x hx =>
            .tail' (hreach x ((hv.same x).1 hx)) hnm) _ hentered.settles
        generalize (g.successors n).reverse.foldlM (g.descend fuel) { w with seen := n :: w.seen } = r at hall
        cases hall with
        | loop h => exact .loop h
        | @back w' hs hl =>
          refine .back (hs.leave hseen (fun m hm => ?_) hw) fun m hm => ?_
          · by_cases hleft : m ∈ w'.left
            · exact .inl hleft
            · have hmet := hl m (List.mem_reverse.2 (mem_successors.2 hm))
              exact .inr (hreach m ((hs.same m).1 ⟨hmet, hleft⟩))
          · rw [List.mem_singleton.1 hm]
            exact hs.seen n (List.mem_cons_self ..)

/-- A predecessor that the second pass names is not among the nodes up to the one that it comes before. -/
theorem checkOrder_error {seen l : List Nat} {p : Nat} (h : g.checkOrder seen l = .error p) :
    ∃ pre n post, l = pre ++ n :: post ∧ g.Edge p n ∧ p ∉ seen ∧ p ∉ pre ∧ p ≠ n := by
  induction l generalizing seen with
  | nil => cases h
  | cons n l ih =>
    rw [checkOrder] at h
    split at h
    · rename_i q hq
      obtain rfl : q = p := Except.error.inj h
      have hmem := List.mem_of_getLast? hq
      simp only [List.mem_filter, decide_eq_true_eq, List.mem_cons, not_or] at hmem
      exact ⟨[], n, l, rfl, mem_predecessors.1 hmem.1, hmem.2.2, List.not_mem_nil, hmem.2.1⟩
    · obtain ⟨pre, m, post, rfl, hedge, hseen, hpre, hne⟩ := ih h
      rw [List.mem_cons, not_or] at hseen
      exact ⟨n :: pre, m, post, rfl, hedge, hseen.2, by simp [hseen.1, hpre], hne⟩

/-- Every node is listed once in the order, or the node that is named is on a cycle. -/
theorem topologicalOrder_outcome (hedges : ∀ a b, g.Edge a b → a ∈ g.nodes ∧ b ∈ g.nodes) :
    (∃ order, g.topologicalOrder = .ok order ∧ order.Nodup) ∨
      ∃ x, g.topologicalOrder = .error x ∧ x ∈ g.nodes ∧ Relation.TransGen g.Edge x x := by
  have hstart : g.Finished {} := by
    refine ⟨fun x hx => ?_, List.nodup_nil, fun pre n post he => ?_⟩
    · cases hx
    · simp at he
  have hwalk := Ends.foldlM (g := g) (f := g.descend g.nodes.length) (l := g.nodes) (fun n hn v hv =>
    descend_ends (fun a b hab => (hedges a b hab).2) _ v n hn (List.length_filter_le ..) hv.finished fun x hx =>
      absurd ((hv.same x).1 hx).1 List.not_mem_nil) {} hstart.settles
  unfold topologicalOrder
  generalize g.nodes.foldlM (g.descend g.nodes.length) {} = r at hwalk
  cases hwalk with
  | @loop x h => exact .inr ⟨x, rfl, (hedges x x h).1, .single h⟩
  | @back w hs hall =>
    have hleft : ∀ n ∈ g.nodes, n ∈ w.left := fun n hn => by
      by_contra hl
      exact absurd ((hs.same n).1 ⟨hall n hn, hl⟩).1 List.not_mem_nil
    cases hcheck : g.checkOrder [] w.left with
    | ok _ =>
      refine .inl ⟨w.left, ?_, hs.finished.nodup⟩
      show (do g.checkOrder [] w.left; return w.left) = _
      rw [hcheck]
      rfl
    | error p =>
      obtain ⟨pre, n, post, he, hpn, -, hpre, hne⟩ := checkOrder_error hcheck
      have hp := (hedges p n hpn).1
      refine .inr ⟨p, ?_, hp, ?_⟩
      · show (do g.checkOrder [] w.left; return w.left) = _
        rw [hcheck]
        rfl
      -- The predecessor was left earlier, so its edge leads back to it.
      have hpost : p ∈ post := by
        have hmem := hleft p hp
        rw [he, List.mem_append, List.mem_cons] at hmem
        exact (hmem.resolve_left hpre).resolve_left hne
      obtain ⟨mid, rest, rfl⟩ := List.append_of_mem hpost
      rcases hs.finished.edges (pre ++ n :: mid) p rest (by rw [he]; simp) n hpn with hn | hback
      · have hnodup := hs.finished.nodup
        rw [he, List.nodup_append] at hnodup
        exact absurd (List.mem_append_right _ (List.mem_cons_of_mem _ hn)) (List.nodup_cons.1 hnodup.2.1).1
      · exact .head' hpn hback

end Interlock.Digraph
