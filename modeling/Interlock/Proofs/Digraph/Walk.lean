import Interlock.Digraph.Basic
import Mathlib.Tactic.Common

/-! What a depth-first walk meets. A walk never leaves a set that is closed under neighbours, and with
enough fuel the nodes that it meets are such a set themselves. -/

namespace Interlock.Walk

variable {next : Nat → List Nat}

/-- What a stretch of a walk adds: every node that it meets has all its neighbours met. -/
structure Extends (next : Nat → List Nat) (w w' : Walk) : Prop where
  seen : ∀ x ∈ w.seen, x ∈ w'.seen
  closed : ∀ x ∈ w'.seen, x ∈ w.seen ∨ ∀ y ∈ next x, y ∈ w'.seen

theorem Extends.refl (w : Walk) : Extends next w w := ⟨fun _ h => h, fun _ h => .inl h⟩

theorem Extends.trans {w₁ w₂ w₃ : Walk} (h : Extends next w₁ w₂) (h' : Extends next w₂ w₃) :
    Extends next w₁ w₃ := by
  refine ⟨fun x hx => h'.seen x (h.seen x hx), fun x hx => ?_⟩
  rcases h'.closed x hx with hx | hx
  · rcases h.closed x hx with hx | hx
    · exact .inl hx
    · exact .inr fun y hy => h'.seen y (hx y hy)
  · exact .inr hx

/-- The nodes of `all` that a walk has not met. -/
def unseen (all : List Nat) (w : Walk) : List Nat := all.filter (· ∉ w.seen)

theorem unseen_le {all : List Nat} {w w' : Walk} (h : ∀ x ∈ w.seen, x ∈ w'.seen) :
    (unseen all w').length ≤ (unseen all w).length := by
  unfold unseen
  rw [← List.countP_eq_length_filter, ← List.countP_eq_length_filter]
  apply List.countP_mono_left
  intro x _ hx
  simp only [decide_eq_true_eq] at hx ⊢
  exact fun hs => hx (h x hs)

theorem unseen_meet {all : List Nat} {w : Walk} {n : Nat} (hn : n ∈ all) (hw : n ∉ w.seen) :
    (unseen all { w with seen := n :: w.seen }).length < (unseen all w).length := by
  have hf : unseen all { w with seen := n :: w.seen } = (unseen all w).filter (· ≠ n) := by
    unfold unseen
    rw [List.filter_filter]
    apply List.filter_congr
    intro x _
    simp [not_or]
  rw [hf]
  refine List.length_filter_lt_length_iff_exists.2 ⟨n, ?_, by simp⟩
  simp [unseen, hn, hw]

theorem enter_extends {all : List Nat} (hall : ∀ x, ∀ y ∈ next x, y ∈ all) :
    ∀ (fuel : Nat) (w : Walk) (n : Nat), n ∈ all → (unseen all w).length ≤ fuel →
      Extends next w (enter next fuel w n) ∧ n ∈ (enter next fuel w n).seen := by
  intro fuel
  induction fuel with
  | zero =>
    intro w n hn hf
    refine ⟨.refl w, ?_⟩
    by_contra hs
    have : n ∈ unseen all w := by simp only [unseen, List.mem_filter, decide_eq_true_eq]; exact ⟨hn, hs⟩
    exact absurd (List.length_pos_of_mem this) (by omega)
  | succ fuel ih =>
    have visitAll : ∀ (l : List Nat) (w : Walk), (∀ y ∈ l, y ∈ all) → (unseen all w).length ≤ fuel →
        Extends next w (l.foldl (enter next fuel) w) ∧
          ∀ y ∈ l, y ∈ (l.foldl (enter next fuel) w).seen := by
      intro l
      induction l with
      | nil => exact fun w _ _ => ⟨.refl w, fun y hy => nomatch hy⟩
      | cons x xs ihl =>
        intro w hl hf
        obtain ⟨hx, hxs⟩ := ih w x (hl x (List.mem_cons_self ..)) hf
        obtain ⟨ht, hts⟩ := ihl (enter next fuel w x) (fun y hy => hl y (List.mem_cons_of_mem _ hy))
          (Nat.le_trans (unseen_le hx.seen) hf)
        refine ⟨hx.trans ht, fun y hy => ?_⟩
        rcases List.mem_cons.1 hy with rfl | hy
        · exact ht.seen _ hxs
        · exact hts y hy
    intro w n hn hf
    rw [enter]
    split
    · rename_i hs
      exact ⟨.refl w, hs⟩
    · rename_i hs
      have hlt := unseen_meet hn hs
      obtain ⟨hext, hnext⟩ := visitAll (next n) { w with seen := n :: w.seen } (hall n) (by omega)
      have hself := hext.seen n (List.mem_cons_self ..)
      refine ⟨⟨fun x hx => hext.seen x (List.mem_cons_of_mem _ hx), fun x hx => ?_⟩, hself⟩
      rcases hext.closed x hx with hx | hx
      · rcases List.mem_cons.1 hx with rfl | hx
        · exact .inr hnext
        · exact .inl hx
      · exact .inr hx

theorem enter_within {S : Nat → Prop} (hS : ∀ x, S x → ∀ y ∈ next x, S y) :
    ∀ (fuel : Nat) (w : Walk) (n : Nat), S n → (∀ x ∈ w.seen, S x) →
      ∀ x ∈ (enter next fuel w n).seen, S x := by
  intro fuel
  induction fuel with
  | zero => exact fun w n _ hw => hw
  | succ fuel ih =>
    have visitAll : ∀ (l : List Nat) (w : Walk), (∀ y ∈ l, S y) → (∀ x ∈ w.seen, S x) →
        ∀ x ∈ (l.foldl (enter next fuel) w).seen, S x := by
      intro l
      induction l with
      | nil => exact fun w _ hw => hw
      | cons y ys ihl =>
        intro w hl hw
        exact ihl _ (fun z hz => hl z (List.mem_cons_of_mem _ hz)) (ih w y (hl y (List.mem_cons_self ..)) hw)
    intro w n hn hw
    rw [enter]
    split
    · exact hw
    · apply visitAll (next n) _ (hS n hn)
      intro x hx
      rcases List.mem_cons.1 hx with rfl | hx
      · exact hn
      · exact hw x hx

/-- Every neighbour of a node that a whole walk meets is met too. -/
theorem enter_closed {all : List Nat} (hall : ∀ x, ∀ y ∈ next x, y ∈ all) {n : Nat} (hn : n ∈ all) :
    n ∈ (enter next all.length {} n).seen ∧
      ∀ x ∈ (enter next all.length {} n).seen, ∀ y ∈ next x, y ∈ (enter next all.length {} n).seen := by
  obtain ⟨hext, hmem⟩ := enter_extends hall all.length {} n hn (List.length_filter_le ..)
  refine ⟨hmem, fun x hx => ?_⟩
  rcases hext.closed x hx with hx | hx
  · exact nomatch hx
  · exact hx

end Interlock.Walk
