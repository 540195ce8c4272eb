import Interlock.Proofs.Expr.Denote
import Interlock.Proofs.Expr.Substitute

/-! Expressions whose values are known as numbers, whatever they are made of. Cutting such an expression, padding it
and setting several of them side by side gives one again. -/

namespace Interlock.Expr

variable {σ : Valuation} {e : Expr} {x : Nat}

/-! ### Widths -/

theorem sized_bits (h : e.sized = true) {high low : Nat} (hle : low ≤ high) (hw : high + 1 - low < wordLimit) :
    (e.bits high low).sized = true := by
  unfold bits
  split
  · exact h
  · rw [sized, decide_eq_true hle, decide_eq_true hw, Bool.and_self]

theorem sized_concat {ps : List Expr} (h : ∀ p ∈ ps, p.sized = true) (hw : totalWidth ps < wordLimit) :
    (concat ps).sized = true := by
  rw [sized, allSized_iff.2 h, decide_eq_true hw, Bool.and_self]

/-- An expression and the zeros above it. -/
theorem sized_padded (h : e.sized = true) {w : Nat} (hle : e.width ≤ w) (hw : w < wordLimit) :
    (concat [e, zero (w - e.width)]).sized = true := by
  have htotal : totalWidth [e, zero (w - e.width)] = w := by
    rw [totalWidth, totalWidth, totalWidth, width_zero, Nat.add_zero, Nat.add_sub_of_le hle]
  exact sized_concat (List.forall_mem_cons.2 ⟨h, List.forall_mem_singleton.2 rfl⟩) (htotal.symm ▸ hw)

theorem sized_resize (h : e.sized = true) {w : Nat} (hw : w < wordLimit) : (e.resize w).sized = true := by
  unfold resize
  split_ifs with heq hlt hzero
  · exact h
  · rfl
  · refine sized_bits h (Nat.zero_le _) ?_
    rwa [Nat.sub_zero, Nat.sub_add_cancel (Nat.pos_of_ne_zero hzero)]
  · cases e.asConst with
    | some v => rfl
    | none => exact sized_padded h (Nat.le_of_not_lt hlt) hw

theorem sized_join {ps : List Expr} (h : ∀ p ∈ ps, p.sized = true) (hw : totalWidth ps < wordLimit) :
    (join ps).sized = true := by
  unfold join
  split
  · rfl
  · exact h _ (List.mem_singleton_self _)
  · exact sized_concat h hw

/-! ### Values -/

/-- In this valuation the value is found; it is `x`, and has no bit beyond the width. -/
structure Yields (σ : Valuation) (e : Expr) (x : Nat) : Prop where
  found : e.evalChecked σ = .ok (e.eval σ)
  value : (e.eval σ).toNat = x
  lt : x < 2 ^ e.width

namespace Yields

theorem fits (h : e.Yields σ x) : (e.eval σ).toNat < 2 ^ e.width := h.value ▸ h.lt

theorem const {v : Word} {w : Nat} (h : v.toNat < 2 ^ w) : (Expr.const v w).Yields σ v.toNat := ⟨rfl, rfl, h⟩

theorem constant (v : Word) (w : Nat) : (Expr.constant v w).Yields σ (v.toNat % 2 ^ w) :=
  toNat_and_mask v w ▸ const (and_mask_lt v w)

theorem zero (w : Nat) : (Expr.zero w).Yields σ 0 := by
  have h := constant (σ := σ) 0 w
  rwa [UInt64.toNat_zero, Nat.zero_mod] at h

theorem signal (i w : Nat) : (Expr.signal i w).Yields σ ((σ i).toNat % 2 ^ w) :=
  ⟨rfl, toNat_and_mask .., Nat.mod_lt _ (Nat.two_pow_pos w)⟩

/-- Where the slice is the whole expression, the value has no bit beyond it. -/
theorem bits (h : e.Yields σ x) {high low : Nat} (hle : low ≤ high) (hw : high + 1 - low < wordLimit) :
    (e.bits high low).Yields σ (x / 2 ^ low % 2 ^ (high + 1 - low)) := by
  unfold Expr.bits
  split
  · rename_i hall
    obtain ⟨rfl, hwidth⟩ := hall
    rwa [Nat.pow_zero, Nat.div_one, Nat.sub_zero, hwidth, Nat.mod_eq_of_lt h.lt]
  · refine ⟨?_, by rw [eval, toNat_cut, h.value], Nat.mod_lt _ (Nat.two_pow_pos _)⟩
    have hsized : (slice e high low).sized = true := by
      rw [sized, decide_eq_true hle, decide_eq_true hw, Bool.and_self]
    rw [evalChecked, h.found, ensureSized_of hsized]
    show (if low < 64 then _ else _) = _
    split <;> rfl

theorem resize (h : e.Yields σ x) (hs : e.sized = true) {w : Nat} (hw : w < wordLimit) :
    (e.resize w).Yields σ (x % 2 ^ w) := by
  refine ⟨?_, by rw [eval_resize_of_lt h.fits, toNat_and_mask, h.value], ?_⟩
  · unfold Expr.resize
    split_ifs with heq hlt hzero
    · exact h.found
    · rfl
    · refine (h.bits (Nat.zero_le _) ?_).found
      rwa [Nat.sub_zero, Nat.sub_add_cancel (Nat.pos_of_ne_zero hzero)]
    · cases e.asConst with
      | some v => rfl
      | none =>
        rw [evalChecked, ensureSized_of (sized_padded hs (Nat.le_of_not_lt hlt) hw)]
        exact evalPartsChecked_defined (List.forall_mem_cons.2 ⟨h.found, List.forall_mem_singleton.2 (zero _).found⟩) 0
  · rw [width_resize]
    exact Nat.mod_lt _ (Nat.two_pow_pos w)

/-- Parts that fit a word, side by side. -/
theorem join {ps : List Expr} (hs : ∀ p ∈ ps, p.sized = true) (h : ∀ p ∈ ps, ∃ x, p.Yields σ x)
    (hw : totalWidth ps ≤ maxWidth) : (join ps).Yields σ (evalParts σ ps 0).toNat := by
  have hparts : ∀ p ∈ ps, (p.eval σ).toNat < 2 ^ p.width := fun p hp => (h p hp).elim fun _ hx => hx.fits
  have hlt := evalParts_lt hparts 0
  rw [Nat.zero_add, ← width_join] at hlt
  match ps with
  | [] => exact zero 0
  | [p] =>
    obtain ⟨x, hx⟩ := h p (List.mem_singleton_self p)
    refine ⟨hx.found, ?_, hlt⟩
    rw [evalParts, evalParts, place_zero, UInt64.or_zero]
    rfl
  | p :: q :: ps =>
    have hsized : (concat (p :: q :: ps)).sized = true := sized_concat hs (Nat.lt_of_le_of_lt hw (by decide))
    have hfound := evalPartsChecked_defined (fun p hp => (h p hp).elim fun _ hx => hx.found) 0
    refine ⟨?_, rfl, hlt⟩
    show (concat (p :: q :: ps)).evalChecked σ = _
    rw [evalChecked, ensureSized_of hsized]
    exact hfound

end Yields

end Interlock.Expr
