import Interlock.Proofs.Expr.Closed
import Interlock.Proofs.Expr.Truth

/-! Expressions whose constants have no bits beyond their widths. Their values have none either, so a
single bit of this kind is zero or one. For that the constants in what is compared do not matter. -/

namespace Interlock.Expr

variable {σ : Valuation}

mutual
/-- Whether every constant fits its width. -/
def fits : Expr → Bool
  | const v w => v.toNat < 2 ^ w
  | signal .. => true
  | unary _ e => e.fits
  | binary _ a b => a.fits && b.fits
  | mux s t f => s.fits && t.fits && f.fits
  | slice b _ _ => b.fits
  | concat ps => allFit ps

def allFit : List Expr → Bool
  | [] => true
  | p :: ps => p.fits && allFit ps
end

theorem allFit_iff {ps : List Expr} : allFit ps = true ↔ ∀ p ∈ ps, p.fits = true := by
  induction ps with
  | nil => simp [allFit]
  | cons p ps ih => simp [allFit, ih]

mutual
/-- Whether every constant fits its width that the value can take bits from: a comparison, a reduction and a slice cut
theirs, whatever they are made of. -/
def bounded : Expr → Bool
  | const v w => v.toNat < 2 ^ w
  | signal .. => true
  | unary op e => op.isReduction || e.bounded
  | binary op a b => op.isComparison || a.bounded && b.bounded
  | mux _ t f => t.bounded && f.bounded
  | slice .. => true
  | concat ps => allBounded ps

def allBounded : List Expr → Bool
  | [] => true
  | p :: ps => p.bounded && allBounded ps
end

theorem allBounded_iff {ps : List Expr} : allBounded ps = true ↔ ∀ p ∈ ps, p.bounded = true := by
  induction ps with
  | nil => simp [allBounded]
  | cons p ps ih => simp [allBounded, ih]

theorem bounded_of_fits {e : Expr} (h : e.fits = true) : e.bounded = true := by
  induction e with
  | const v w => exact h
  | signal i w => rfl
  | unary op e ih => rw [bounded, ih h, Bool.or_true]
  | binary op a b iha ihb =>
    rw [fits, Bool.and_eq_true] at h
    rw [bounded, iha h.1, ihb h.2, Bool.and_self, Bool.or_true]
  | mux s t f _ iht ihf =>
    rw [fits, Bool.and_eq_true, Bool.and_eq_true] at h
    rw [bounded, iht h.1.2, ihf h.2, Bool.and_self]
  | slice b high low _ => rfl
  | concat ps ih =>
    rw [fits, allFit_iff] at h
    rw [bounded, allBounded_iff]
    exact fun p hp => ih p hp (h p hp)

theorem toUInt64_lt (b : Bool) : b.toUInt64.toNat < 2 ^ 1 := by cases b <;> decide

theorem cut_lt (v : Word) (high low : Nat) : (cut v high low).toNat < 2 ^ (high + 1 - low) := by
  unfold cut
  split
  · exact Nat.two_pow_pos _
  · exact and_mask_lt ..

theorem place_lt {v : Word} {w : Nat} (hv : v.toNat < 2 ^ w) (offset : Nat) :
    (place v offset).toNat < 2 ^ (offset + w) := by
  unfold place
  split
  · rename_i ho
    rw [UInt64.toNat_shiftLeft, UInt64.toNat_ofNat', Nat.shiftLeft_eq]
    rw [Nat.mod_eq_of_lt (show offset < 2 ^ 64 by omega), Nat.mod_eq_of_lt ho, Nat.add_comm, Nat.pow_add]
    exact Nat.lt_of_le_of_lt (Nat.mod_le _ _) (Nat.mul_lt_mul_of_pos_right hv (Nat.two_pow_pos _))
  · exact Nat.two_pow_pos _

theorem unary_apply_lt (op : UnaryOp) (v : Word) (w : Nat) :
    (op.apply v w).toNat < 2 ^ (if op.isReduction then 1 else w) := by
  cases op with
  | not => exact and_mask_lt ..
  | neg => exact and_mask_lt ..
  | redAnd => exact toUInt64_lt _
  | redOr => exact toUInt64_lt _
  | redXor => exact toUInt64_lt _

theorem binary_apply_lt (op : BinaryOp) {l r : Word} {w : Nat} (hl : l.toNat < 2 ^ w)
    (hr : r.toNat < 2 ^ w) : (op.apply l r w).toNat < 2 ^ (if op.isComparison then 1 else w) := by
  cases op with
  | add => exact and_mask_lt ..
  | sub => exact and_mask_lt ..
  | and =>
    show (l &&& r).toNat < 2 ^ w
    rw [UInt64.toNat_and]
    exact Nat.and_lt_two_pow _ hr
  | or =>
    show (l ||| r).toNat < 2 ^ w
    rw [UInt64.toNat_or]
    exact Nat.or_lt_two_pow hl hr
  | xor =>
    show (l ^^^ r).toNat < 2 ^ w
    rw [UInt64.toNat_xor]
    exact Nat.xor_lt_two_pow hl hr
  | eq => exact toUInt64_lt _
  | ne => exact toUInt64_lt _
  | lt => exact toUInt64_lt _
  | le => exact toUInt64_lt _
  | gt => exact toUInt64_lt _
  | ge => exact toUInt64_lt _

theorem comparison_apply_lt {op : BinaryOp} (h : op.isComparison = true) (l r : Word) (w : Nat) :
    (op.apply l r w).toNat < 2 ^ 1 := by
  cases op with
  | eq | ne | lt | le | gt | ge => exact toUInt64_lt _
  | add | sub | and | or | xor => cases h

theorem evalParts_lt {ps : List Expr} (h : ∀ p ∈ ps, (p.eval σ).toNat < 2 ^ p.width) (offset : Nat) :
    (evalParts σ ps offset).toNat < 2 ^ (offset + totalWidth ps) := by
  induction ps generalizing offset with
  | nil =>
    rw [evalParts]
    exact Nat.two_pow_pos _
  | cons p ps ih =>
    have hp := place_lt (h p (List.mem_cons_self ..)) offset
    have hps := ih (fun q hq => h q (List.mem_cons_of_mem _ hq)) (offset + p.width)
    rw [evalParts, UInt64.toNat_or, totalWidth, ← Nat.add_assoc]
    exact Nat.or_lt_two_pow (lt_two_pow_of_le hp (Nat.le_add_right ..)) hps

theorem bounded_eval_lt {e : Expr} (h : e.bounded = true) : (e.eval σ).toNat < 2 ^ e.width := by
  induction e with
  | const v w => exact of_decide_eq_true h
  | signal i w =>
    rw [eval]
    exact and_mask_lt ..
  | unary op e _ =>
    rw [eval, width]
    exact unary_apply_lt ..
  | binary op a b iha ihb =>
    rw [bounded, Bool.or_eq_true, Bool.and_eq_true] at h
    rw [eval, width]
    rcases h with hop | ⟨ha, hb⟩
    · rw [if_pos hop]
      exact comparison_apply_lt hop _ _ _
    · exact binary_apply_lt op (lt_two_pow_of_le (iha ha) (Nat.le_max_left ..))
        (lt_two_pow_of_le (ihb hb) (Nat.le_max_right ..))
  | mux s t f _ iht ihf =>
    rw [bounded, Bool.and_eq_true] at h
    rw [eval, width]
    split
    · exact lt_two_pow_of_le (iht h.1) (Nat.le_max_left ..)
    · exact lt_two_pow_of_le (ihf h.2) (Nat.le_max_right ..)
  | slice b high low _ =>
    rw [eval, width]
    exact cut_lt ..
  | concat ps ih =>
    rw [bounded, allBounded_iff] at h
    rw [eval, width]
    simpa using evalParts_lt (fun p hp => ih p hp (h p hp)) 0

/-- An expression whose constants fit has no bits beyond its width. -/
theorem eval_lt {e : Expr} (h : e.fits = true) : (e.eval σ).toNat < 2 ^ e.width := bounded_eval_lt (bounded_of_fits h)

/-- A single bit is one where it holds, else zero. -/
theorem eval_eq_truth {e : Expr} (h : e.bounded = true) (hw : e.width = 1) :
    e.eval σ = (e.truth σ).toUInt64 := by
  have hlt : (e.eval σ).toNat < 2 ^ 1 := hw ▸ bounded_eval_lt h
  rw [← and_mask_of_lt hlt, and_mask_one_eq, truth]

theorem eval_ne_zero_iff {e : Expr} (h : e.bounded = true) (hw : e.width = 1) :
    e.eval σ ≠ 0 ↔ e.truth σ = true := by
  rw [eval_eq_truth h hw]
  cases e.truth σ <;> decide

theorem fits_constant (v : Word) (w : Nat) : (constant v w).fits = true := by
  simp only [constant, fits, decide_eq_true_eq]
  exact and_mask_lt ..

theorem closed_fits : Closed (fits · = true) fun _ => True := by
  refine ⟨trivial, fun _ _ _ _ => trivial, fun _ _ => trivial, fun v w _ => fits_constant v w, fun _ _ he => he,
    fun _ he => he, fun _ a b ha hb => ?_, fun s t f hs ht hf => ?_, fun _ _ _ he _ _ => he,
    fun ps hps _ => allFit_iff.2 hps⟩
  · rw [fits, ha, hb, Bool.and_self]
  · rw [fits, hs, ht, hf, Bool.and_self, Bool.and_self]

theorem closed_bounded : Closed (bounded · = true) fun _ => True := by
  refine ⟨trivial, fun _ _ _ _ => trivial, fun _ _ => trivial, fun v w _ => bounded_of_fits (fits_constant v w),
    fun op e he => ?_, fun _ he => he, fun op a b ha hb => ?_, fun s t f _ ht hf => ?_, fun _ _ _ _ _ _ => rfl,
    fun ps hps _ => allBounded_iff.2 hps⟩
  · rw [bounded, he, Bool.or_true]
  · rw [bounded, ha, hb, Bool.and_self, Bool.or_true]
  · rw [bounded, ht, hf, Bool.and_self]

end Interlock.Expr
