import Interlock.Proofs.Agree
import Interlock.Proofs.Draft.Design
import Interlock.Proofs.Draft.Paths
import Interlock.Proofs.Draft.Transcript
import Interlock.Proofs.Expr.Substitute

/-! Recorded guards decide what the transcript says. The condition kept for an arm is one exactly where the arm is
taken, the bit that a chain carries along is one where one of its arms so far has been, and so the guard of an
assignment is not zero exactly where the assignment is in force. All of it is a step-by-step comparison of a
draft with its transcript. -/

namespace Interlock.Draft

open Design

variable {σ : Valuation}

/-! ### Conditions and tests -/

/-- A condition decides whether a test holds, if the constants in the test fit. -/
def Test.Told (test : Test) (cond : Expr) : Prop := test.fits = true → cond.Decides fun σ => test.holds σ

theorem told_always : Test.always.Told .one := fun _ => .one

theorem told_nonzero {cond wanted : Expr} (h : Expr.Checked.anyBit cond = .ok wanted) :
    (Test.nonzero cond).Told wanted := by
  simp only [Expr.Checked.anyBit, except_bind_ok, except_pure_ok] at h
  obtain ⟨_, _, rfl⟩ := h
  exact fun hfits => .anyBit (Expr.bounded_of_fits hfits)

/-- The constants in the selector do not matter. -/
theorem decides_oneOf {sel cond : Expr} {values : List Word} (h : Recording.caseCond sel values = .ok cond) :
    cond.Decides fun σ => (Test.oneOf sel values).holds σ := by
  simp only [Recording.caseCond, except_bind_ok, except_pure_ok] at h
  obtain ⟨_, _, rfl⟩ := h
  refine .any (List.forall₂_map_right_iff.2 (List.forall₂_same.2 fun v _ => ?_))
  have h := Expr.Decides.equals sel (.constant v sel.width)
  simpa only [Expr.eval_constant] using h

/-- The condition that is put down for a test. -/
def Test.Asks (test : Test) (cond : Expr) : Prop :=
  match test with
  | always => cond = .one
  | nonzero e => Expr.Checked.anyBit e = .ok cond
  | oneOf sel values => Recording.caseCond sel values = .ok cond

theorem Test.Asks.told {test : Test} {cond : Expr} (h : test.Asks cond) : test.Told cond := by
  cases test with
  | always => exact (show cond = .one from h) ▸ told_always
  | nonzero e => exact told_nonzero h
  | oneOf sel values => exact fun _ => decides_oneOf h

/-- The bit that a chain carries along decides whether a test of its arms so far holds. -/
def Noticed (tests : List Test) (taken : Expr) : Prop :=
  tests.all Test.fits = true → taken.Decides fun σ => tests.any (Test.holds σ)

/-- A condition decides whether an arm is taken, if the constants in its tests fit. -/
def Arm.Told (arm : Arm) (cond : Expr) : Prop := arm.fits = true → cond.Decides fun σ => arm.taken σ

theorem Noticed.arm {tests : List Test} {taken cond : Expr} {test : Test} (h : Noticed tests taken)
    (ht : test.Told cond) : (Arm.branch tests test).Told (taken.not.and cond) := by
  intro hfits
  rw [Arm.fits, Bool.and_eq_true] at hfits
  exact (h hfits.1).not.and (ht hfits.2)

theorem noticed_any {tests : List Test} {conds : List Expr} (h : List.Forall₂ Test.Asks tests conds) :
    Noticed tests (.any conds) := by
  intro hfits
  have hall := List.all_eq_true.1 hfits
  exact .any (((List.forall₂_and_left _ _).2 ⟨hall, h⟩).imp fun _ _ hc => hc.2.told hc.1)

/-- What a chain makes of the conditions of its arms: it carries along whether one of them holds, and each arm is
entered under its condition where none of the earlier ones holds. -/
structure Recounts (conds : List Expr) (b : Recording.Chain) (arms : List (Nat × Expr)) : Prop where
  count : b.arms = conds.length
  taken : b.taken = .any conds
  length : arms.length = conds.length
  arms : ∀ k cond, conds[k]? = some cond → arms[k]? = some (k, (Expr.any (conds.take k)).not.and cond)

theorem Recounts.next {conds : List Expr} {b : Recording.Chain} {arms : List (Nat × Expr)} (h : Recounts conds b arms)
    (cond : Expr) :
    Recounts (conds ++ [cond]) ⟨b.number, b.arms + 1, b.taken.or cond⟩
      (arms ++ [(b.arms, b.taken.not.and cond)]) := by
  refine ⟨?_, ?_, ?_, fun k c hk => ?_⟩
  · rw [h.count, List.length_append, List.length_singleton]
  · rw [h.taken, Expr.any, Expr.any, List.foldl_append, List.foldl_cons, List.foldl_nil]
  · rw [List.length_append, List.length_append, h.length, List.length_singleton, List.length_singleton]
  · rcases Nat.lt_or_ge k conds.length with hlt | hge
    · rw [List.getElem?_append_left hlt] at hk
      rw [List.getElem?_append_left (h.length ▸ hlt), List.take_append_of_le_length hlt.le]
      exact h.arms k c hk
    · obtain rfl : k = conds.length := by
        have := (List.getElem?_eq_some_iff.1 hk).1
        rw [List.length_append, List.length_singleton] at this
        omega
      rw [List.getElem?_append_right (Nat.le_refl _), Nat.sub_self] at hk
      obtain rfl : cond = c := Option.some.inj hk
      rw [List.getElem?_append_right (Nat.le_of_eq h.length), h.length, Nat.sub_self, List.take_left, h.count, h.taken]
      rfl

/-- The first arm of a chain is taken where its test holds. -/
theorem told_first {test : Test} {cond : Expr} (h : test.Told cond) : (Arm.branch [] test).Told cond := by
  intro hfits
  simpa only [Arm.taken, List.any_nil, Bool.not_false, Bool.true_and] using h hfits

/-- A machine whose register holds the positions of all its states. -/
def Roomy (m : Machine) : Prop := m.states.length ≤ 2 ^ m.state.width ∧ m.state.width ≤ maxWidth

theorem told_state {m : Machine} (hm : Roomy m) {i : Nat} (hi : i < m.states.length) :
    (Arm.state m.state i).Told (m.inState i) := by
  intro _
  have hindex := toNat_index (Nat.lt_of_lt_of_le hi hm.1) hm.2
  refine ⟨rfl, rfl, fun σ => ?_⟩
  rw [truth_inState, Bool.eq_iff_iff, beq_iff_eq, Arm.taken, beq_iff_eq, ← UInt64.toNat_inj, hindex]
  exact Iff.rfl

/-! ### Places -/

/-- The place of a recording is the one that the transcript tells of. -/
structure Spot.Told (s : Spot) (r : Recording) : Prop where
  arms : List.Forall₂ Arm.Told s.arms r.conds
  body : r.body.map (·.activator) = s.body.map (Expr.signal · 1)

namespace Spot.Told

variable {s : Spot} {r : Recording}

theorem fresh (d : Design) (scope : String) : Spot.Told {} (Recording.openModule d scope) := ⟨.nil, rfl⟩

theorem enter (h : s.Told r) {arm : Arm} {cond : Expr} (ha : arm.Told cond) (chain alternative : Nat) :
    Spot.Told { s with arms := arm :: s.arms } (r.enter chain alternative cond) := ⟨.cons ha h.arms, h.body⟩

theorem leave (h : s.Told r) : Spot.Told { s with arms := s.arms.tail } r.leave := by
  refine ⟨?_, h.body⟩
  have harms := h.arms
  show List.Forall₂ Arm.Told s.arms.tail r.conds.tail
  generalize s.arms = arms, r.conds = conds at harms ⊢
  cases harms with
  | nil => exact .nil
  | cons _ hrest => exact hrest

/-- The conditions around a place decide whether every arm around it is taken. -/
theorem cond (h : s.Told r) (hfits : s.arms.all Arm.fits = true) :
    r.cond.Decides fun σ => s.arms.all (Arm.taken σ) := by
  have harms : List.Forall₂ (fun arm cond => Expr.Decides cond (Arm.taken · arm)) s.arms r.conds := by
    have hall := List.all_eq_true.1 hfits
    exact ((List.forall₂_and_left _ _).2 ⟨hall, h.arms⟩).imp fun arm cond hac => hac.2 hac.1
  have hreverse := Expr.Decides.all (List.forall₂_reverse_iff.2 harms)
  simpa only [List.all_reverse, Recording.cond] using hreverse

/-- The guard of a place decides whether its body runs and every arm around it is taken. -/
theorem guard (h : s.Told r) (hfits : s.arms.all Arm.fits = true) :
    r.guard.Decides fun σ => s.body.all (fun x => lowBit (σ x)) && s.arms.all (Arm.taken σ) := by
  have hcond := h.cond hfits
  have hbody := h.body
  unfold Recording.guard
  cases hr : r.body with
  | none =>
    rw [hr, Option.map_none, eq_comm, Option.map_eq_none_iff] at hbody
    simpa only [hbody, Option.all_none, Bool.true_and] using hcond
  | some frame =>
    rw [hr, Option.map_some, eq_comm, Option.map_eq_some_iff] at hbody
    obtain ⟨x, hx, hactivator⟩ := hbody
    simpa only [← hactivator, hx, Option.all_some] using (Expr.Decides.signal x).and hcond

end Spot.Told

/-! ### Assignments -/

/-- A recorded assignment does what the transcript says of it, if the constants in it fit; of its value, if those in
the value do. -/
structure Written.Told (w : Written) (a : GuardedAssign) : Prop where
  target : a.target = w.target.id
  kind : w.target.kind = Recording.assignable a.domain
  width : a.value.width = w.target.width
  guard : w.fits = true → ∀ σ, a.guard.eval σ ≠ 0 ↔ w.inForce σ = true
  value : w.value.fits = true → ∀ σ, a.value.eval σ = w.value.eval σ

theorem told_assign {s : Spot} {r r' : Recording} (h : s.Told r) {mode : AssignMode} {target : Sig} {value : Expr}
    {loc : Location} (ha : (assignAt r mode target value loc).Gives r') :
    ∃ a, r' = { r with design := r.design.assign a } ∧ Written.Told ⟨mode, target, value, s⟩ a := by
  have from_assign : ∀ {guard : Expr} {domain : Domain}, (r.assign target guard value domain loc).Gives r' →
      ((⟨mode, target, value, s⟩ : Written).fits = true →
        ∀ σ, guard.eval σ ≠ 0 ↔ (⟨mode, target, value, s⟩ : Written).inForce σ = true) →
      ∃ a, r' = { r with design := r.design.assign a } ∧ Written.Told ⟨mode, target, value, s⟩ a := by
    intro guard domain ha hguard
    obtain ⟨hkind, rfl⟩ := Recording.assign_ok ha
    refine ⟨_, rfl, rfl, hkind, Expr.width_resize .., hguard, fun hfits σ => ?_⟩
    have hlt := Nat.lt_of_lt_of_le (Expr.eval_lt (σ := σ) hfits)
      (Nat.pow_le_pow_right Nat.two_pos (Recording.assign_narrow ha))
    rw [Expr.eval_resize hfits, and_mask_of_lt hlt]
  have arms : (⟨mode, target, value, s⟩ : Written).fits = true → mode ≠ .topComb → s.arms.all Arm.fits = true := by
    intro hfits hmode
    simp only [Written.fits, Bool.and_eq_true, Bool.or_eq_true, beq_iff_eq] at hfits
    exact hfits.2.resolve_left hmode
  cases mode with
  | comb => exact from_assign ha fun hfits σ => (h.guard (arms hfits (by decide))).ne_zero
  | sync => exact from_assign ha fun hfits σ => (h.guard (arms hfits (by decide))).ne_zero
  | avComb => exact from_assign ha fun hfits σ => (h.cond (arms hfits (by decide))).ne_zero
  | topComb => exact from_assign ha fun _ σ => Expr.Decides.one.ne_zero

end Interlock.Draft
