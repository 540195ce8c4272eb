import Interlock.Arena
import Mathlib.Tactic.Common

/-! Which item an arena holds at a position, and what holds of all items of a list when one more is added
or put in the place of another. -/

namespace Interlock

theorem forall_mem_snoc {α : Type} {P : α → Prop} {l : List α} {a : α} (h : ∀ x ∈ l, P x) (ha : P a) :
    ∀ x ∈ l ++ [a], P x := by
  intro x hx
  rcases List.mem_append.1 hx with hx | hx
  · exact h x hx
  · rw [List.mem_singleton.1 hx]
    exact ha

theorem forall_mem_set {α : Type} {P : α → Prop} {l : List α} {a : α} {i : Nat} (h : ∀ x ∈ l, P x)
    (ha : P a) : ∀ x ∈ l.set i a, P x := by
  intro x hx
  rcases List.mem_or_eq_of_mem_set hx with hx | rfl
  · exact h x hx
  · exact ha

namespace Arena

variable {α : Type} {a b : Arena α}

theorem get_ok {i : Nat} {x : α} : a.get i = .ok x ↔ a.get? i = some x := by
  unfold get
  cases a.get? i <;> simp

theorem lt_of_get? {i : Nat} {x : α} (h : a.get? i = some x) : i < a.size :=
  (Array.getElem?_eq_some_iff.1 h).1

theorem ext_get? (h : ∀ i, a.get? i = b.get? i) : a = b := by
  have hitems : a.items = b.items := Array.ext_getElem? h
  cases a
  cases b
  exact congrArg mk hitems

theorem exists_get? {i : Nat} (h : i < a.size) : ∃ x, a.get? i = some x :=
  ⟨_, Array.getElem?_eq_getElem h⟩

theorem mem_toList {x : α} : x ∈ a.toList ↔ ∃ i, a.get? i = some x := by
  simp [toList, List.mem_iff_getElem?, get?]

@[simp] theorem size_allocWith (a : Arena α) (build : Nat → α) :
    (a.allocWith build).2.size = a.size + 1 := by
  simp [allocWith, size]

theorem get?_allocWith (a : Arena α) (build : Nat → α) (i : Nat) :
    (a.allocWith build).2.get? i = if i = a.size then some (build i) else a.get? i := by
  by_cases h : i = a.size
  · subst h
    simp [allocWith, get?, nextId, size]
  · rw [if_neg h]
    have hi : i ≠ a.items.size := h
    simp [allocWith, get?, Array.getElem?_push, hi]

@[simp] theorem size_modify (a : Arena α) (i : Nat) (f : α → α) : (a.modify i f).size = a.size := by
  simp [modify, size]

theorem get?_modify (a : Arena α) (i : Nat) (f : α → α) (j : Nat) :
    (a.modify i f).get? j = if j = i then (a.get? j).map f else a.get? j := by
  show (a.items.modify i f)[j]? = _
  rw [Array.getElem?_modify]
  by_cases h : j = i
  · rw [if_pos h, if_pos h.symm]
    rfl
  · rw [if_neg h, if_neg (Ne.symm h)]
    rfl

theorem modify_modify (a : Arena α) (i : Nat) (f g : α → α) : (a.modify i f).modify i g = a.modify i (g ∘ f) := by
  refine ext_get? fun j => ?_
  rw [get?_modify, get?_modify, get?_modify]
  split
  · rw [Option.map_map]
  · rfl

/-- Nothing happens to an item that the function leaves as it is. -/
theorem modify_same {i : Nat} {f : α → α} (h : ∀ x, a.get? i = some x → f x = x) : a.modify i f = a := by
  refine ext_get? fun j => ?_
  rw [get?_modify]
  split
  · rename_i hj
    subst hj
    cases hx : a.get? j with
    | none => rfl
    | some x => exact congrArg some (h x hx)
  · rfl

end Arena

end Interlock
