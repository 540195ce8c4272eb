import Interlock.Expr.Substitute
import Mathlib.Tactic.Common

/-! Widths of folded expressions: each constructor gives the width of the plain node that it stands
for, whatever it folds. -/

namespace Interlock.Expr

theorem eq_const_of_asConst {e : Expr} {v : Word} (h : e.asConst = some v) : e = const v e.width := by
  cases e <;> simp_all [asConst, width]

@[simp] theorem width_constant (v : Word) (w : Nat) : (constant v w).width = w := rfl

@[simp] theorem width_one : one.width = 1 := rfl

@[simp] theorem width_zero (w : Nat) : (zero w).width = w := rfl

@[simp] theorem width_equals (a b : Expr) : (a.equals b).width = 1 := rfl

@[simp] theorem width_bits (e : Expr) (high low : Nat) : (e.bits high low).width = high + 1 - low := by
  unfold bits
  split
  · omega
  · rfl

@[simp] theorem width_resize (e : Expr) (w : Nat) : (e.resize w).width = w := by
  unfold resize
  split
  · assumption
  split
  · split
    · simp only [width_zero]
      omega
    · simp only [width_bits]
      omega
  · cases e.asConst with
    | some v => rfl
    | none =>
      simp only [width, totalWidth, width_zero]
      omega

@[simp] theorem width_and (a b : Expr) : (a.and b).width = max a.width b.width := by
  unfold and
  simp only
  split_ifs with h₁ h₂ h₃ h₄
  · rfl
  · exact width_resize ..
  · exact width_resize ..
  · rw [← h₄, Nat.max_self]
  · rfl

@[simp] theorem width_or (a b : Expr) : (a.or b).width = max a.width b.width := by
  unfold or
  simp only
  split_ifs with h₁ h₂ h₃ h₄
  · simp only [Bool.and_eq_true, decide_eq_true_eq] at h₁
    omega
  · simp only [Bool.and_eq_true, decide_eq_true_eq] at h₂
    omega
  · rfl
  · rw [← h₄, Nat.max_self]
  · rfl

@[simp] theorem width_not (e : Expr) : e.not.width = e.width := by
  unfold not
  split <;> simp [width, UnaryOp.isReduction]

@[simp] theorem width_anyBit (e : Expr) : e.anyBit.width = 1 := by
  unfold anyBit
  split
  · assumption
  · cases e.asConst <;> rfl

theorem width_foldl_or (items : List Expr) (e : Expr) :
    (items.foldl or e).width = items.foldl (fun w x => max w x.width) e.width := by
  induction items generalizing e with
  | nil => rfl
  | cons x xs ih => simp only [List.foldl_cons, ih, width_or]

theorem width_foldl_and (items : List Expr) (e : Expr) :
    (items.foldl and e).width = items.foldl (fun w x => max w x.width) e.width := by
  induction items generalizing e with
  | nil => rfl
  | cons x xs ih => simp only [List.foldl_cons, ih, width_and]

theorem le_foldl_max (items : List Expr) (w : Nat) :
    w ≤ items.foldl (fun w x => max w x.width) w := by
  induction items generalizing w with
  | nil => exact Nat.le_refl w
  | cons x xs ih => exact Nat.le_trans (Nat.le_max_left ..) (ih _)

theorem foldl_max_eq_one {items : List Expr} (h : ∀ e ∈ items, e.width = 1) :
    items.foldl (fun w x => max w x.width) 1 = 1 := by
  induction items with
  | nil => rfl
  | cons x xs ih =>
    rw [List.foldl_cons, h x (List.mem_cons_self ..)]
    exact ih fun e he => h e (List.mem_cons_of_mem _ he)

theorem width_any_pos (items : List Expr) : 0 < (any items).width := by
  unfold any
  rw [width_foldl_or]
  exact le_foldl_max items 1

theorem width_any {items : List Expr} (h : ∀ e ∈ items, e.width = 1) : (any items).width = 1 := by
  unfold any
  rw [width_foldl_or]
  exact foldl_max_eq_one h

theorem width_all {items : List Expr} (h : ∀ e ∈ items, e.width = 1) : (all items).width = 1 := by
  unfold all
  rw [width_foldl_and]
  exact foldl_max_eq_one h

theorem totalWidth_bits {items : List Expr} (h : ∀ e ∈ items, e.width = 1) : totalWidth items = items.length := by
  induction items with
  | nil => rfl
  | cons x xs ih =>
    rw [totalWidth, h x (List.mem_cons_self ..), ih fun e he => h e (List.mem_cons_of_mem _ he),
      List.length_cons]
    omega

theorem width_join (items : List Expr) : (join items).width = totalWidth items := by
  match items with
  | [] => rfl
  | [x] => exact (Nat.add_zero _).symm
  | _ :: _ :: _ => rfl

/-- A replacement is made at the width of the read. -/
@[simp] theorem width_substitute (f : SignalId → Option Expr) (e : Expr) :
    (e.substitute f).width = e.width := by
  induction e with
  | const v w => rfl
  | signal i w =>
    simp only [substitute]
    cases f i with
    | none => rfl
    | some r => exact width_resize r w
  | unary op e ih => simp only [substitute, width, ih]
  | binary op a b iha ihb => simp only [substitute, width, iha, ihb]
  | mux s t e _ iht ihe => simp only [substitute, width, iht, ihe]
  | slice b high low => rfl
  | concat ps ih =>
    simp only [substitute, width]
    induction ps with
    | nil => rfl
    | cons p ps ihs =>
      simp only [substituteAll, totalWidth]
      rw [ih p (List.mem_cons_self ..), ihs fun q hq => ih q (List.mem_cons_of_mem _ hq)]

end Interlock.Expr
