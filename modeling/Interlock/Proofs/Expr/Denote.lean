import Interlock.Proofs.Expr.Fits
import Interlock.Proofs.Expr.Parts
import Interlock.Simulation.Kernel

/-! Values of expressions over the natural numbers, where nothing is masked, wraps around or is shifted out.
The values that are found with words are these, as long as every part fits a word. A width of 0 or of a whole word,
a shift by 64 and a difference below zero are where words and numbers could part, and there they do not: operands are
as wide as the wider of them, and no part is wider than a word. -/

namespace Interlock

/-- The value of a unary operator on a number of `w` bits. -/
def UnaryOp.denote (op : UnaryOp) (x w : Nat) : Nat :=
  match op with
  | .not => 2 ^ w - 1 - x
  | .neg => (2 ^ w - x) % 2 ^ w
  | .redAnd => ((List.range w).all x.testBit).toNat
  | .redOr => ((List.range w).any x.testBit).toNat
  | .redXor => (List.range w).countP x.testBit % 2

/-- The value of a binary operator whose wider operand has `w` bits. -/
def BinaryOp.denote (op : BinaryOp) (x y w : Nat) : Nat :=
  match op with
  | .add => (x + y) % 2 ^ w
  | .sub => (x + 2 ^ w - y) % 2 ^ w
  | .and => x &&& y
  | .or => x ||| y
  | .xor => x ^^^ y
  | .eq => (decide (x = y)).toNat
  | .ne => (decide (x ≠ y)).toNat
  | .lt => (decide (x < y)).toNat
  | .le => (decide (x ≤ y)).toNat
  | .gt => (decide (x > y)).toNat
  | .ge => (decide (x ≥ y)).toNat

mutual
/-- The value of an expression, each signal holding a number of any size. -/
def Expr.denote (ρ : SignalId → Nat) : Expr → Nat
  | .const v _ => v.toNat
  | .signal i w => ρ i % 2 ^ w
  | .unary op e => op.denote (e.denote ρ) e.width
  | .binary op a b => op.denote (a.denote ρ) (b.denote ρ) (max a.width b.width)
  | .mux s t f => if s.denote ρ ≠ 0 then t.denote ρ else f.denote ρ
  | .slice b high low => b.denote ρ / 2 ^ low % 2 ^ (high + 1 - low)
  | .concat ps => Expr.denoteParts ρ ps

/-- The parts side by side, the first of them from bit 0 up. -/
def Expr.denoteParts (ρ : SignalId → Nat) : List Expr → Nat
  | [] => 0
  | p :: ps => p.denote ρ + 2 ^ p.width * Expr.denoteParts ρ ps
end

@[simp] theorem toNat_toUInt64 (b : Bool) : b.toUInt64.toNat = b.toNat := by cases b <;> rfl

section
variable {v l r : Word} {w : Nat}

/-- Bits beyond the width are clear. -/
theorem testBit_of_le {x i : Nat} (hx : x < 2 ^ w) (hi : w ≤ i) : x.testBit i = false :=
  Nat.testBit_lt_two_pow (lt_two_pow_of_le hx hi)

/-- Below the width of a word, going below zero wraps around as it does in words. -/
theorem sub_mod_two_pow {x n : Nat} (hw : w ≤ 64) (hx : x ≤ 2 ^ w) :
    (2 ^ 64 - x + n) % 2 ^ w = (2 ^ w - x + n) % 2 ^ w := by
  obtain ⟨k, hk⟩ : ∃ k, 2 ^ 64 = 2 ^ w + 2 ^ w * k := by
    obtain ⟨m, hm⟩ := Nat.pow_dvd_pow 2 hw
    obtain ⟨k, rfl⟩ : ∃ k, m = 1 + k := Nat.exists_eq_add_of_le (Nat.pos_of_ne_zero (by rintro rfl; cases hm))
    exact ⟨k, by rw [hm, Nat.mul_add, Nat.mul_one]⟩
  rw [hk, show 2 ^ w + 2 ^ w * k - x + n = (2 ^ w - x + n) + 2 ^ w * k by omega, Nat.add_mul_mod_self_left]

theorem word_mod_two_pow (hw : w ≤ 64) (n : Nat) : n % 2 ^ 64 % 2 ^ w = n % 2 ^ w :=
  Nat.mod_mod_of_dvd n (Nat.pow_dvd_pow 2 hw)

theorem toNat_apply_not (hw : w ≤ 64) (hv : v.toNat < 2 ^ w) :
    (UnaryOp.not.apply v w).toNat = UnaryOp.not.denote v.toNat w := by
  rw [UnaryOp.apply, UnaryOp.denote, toNat_and_mask, UInt64.toNat_not]
  calc (2 ^ 64 - 1 - v.toNat) % 2 ^ w
      = (2 ^ 64 - (v.toNat + 1) + 0) % 2 ^ w := by rw [Nat.add_zero, Nat.sub_sub, Nat.add_comm 1]
    _ = (2 ^ w - (v.toNat + 1) + 0) % 2 ^ w := sub_mod_two_pow hw hv
    _ = 2 ^ w - 1 - v.toNat := by
      rw [Nat.add_zero, Nat.mod_eq_of_lt (by omega)]
      omega

theorem toNat_apply_neg (hw : w ≤ 64) (hv : v.toNat < 2 ^ w) :
    (UnaryOp.neg.apply v w).toNat = UnaryOp.neg.denote v.toNat w := by
  rw [UnaryOp.apply, UnaryOp.denote, toNat_and_mask, UInt64.toNat_neg]
  show (2 ^ 64 - v.toNat) % 2 ^ 64 % 2 ^ w = _
  rw [word_mod_two_pow hw]
  exact sub_mod_two_pow (n := 0) hw hv.le

/-- All bits are set exactly in the mask. -/
theorem eq_mask_iff (hw : w ≤ 64) (hv : v.toNat < 2 ^ w) : v = mask w ↔ ∀ i < w, v.toNat.testBit i = true := by
  rw [← UInt64.toNat_inj, toNat_mask, Nat.min_eq_left hw]
  constructor
  · intro h i hi
    rw [h, Nat.testBit_two_pow_sub_one, decide_eq_true hi]
  · intro h
    apply Nat.eq_of_testBit_eq
    intro i
    rw [Nat.testBit_two_pow_sub_one]
    by_cases hi : i < w
    · rw [h i hi, decide_eq_true hi]
    · rw [decide_eq_false hi]
      exact testBit_of_le hv (Nat.le_of_not_lt hi)

/-- Some bit is set exactly where the word is not zero. -/
theorem ne_zero_iff_testBit (hv : v.toNat < 2 ^ w) : v ≠ 0 ↔ ∃ i < w, v.toNat.testBit i = true := by
  rw [ne_eq, ← UInt64.toNat_inj, UInt64.toNat_zero]
  constructor
  · intro h
    obtain ⟨i, hi⟩ := Nat.exists_testBit_of_ne_zero h
    refine ⟨i, ?_, hi⟩
    by_contra hge
    rw [testBit_of_le hv (Nat.le_of_not_lt hge)] at hi
    cases hi
  · rintro ⟨i, -, hi⟩ h
    rw [h, Nat.zero_testBit] at hi
    cases hi

theorem oddBits_eq (v : Word) (n : Nat) : oddBits v n = decide ((List.range n).countP v.toNat.testBit % 2 = 1) := by
  induction n with
  | zero => rfl
  | succ n ih =>
    rw [oddBits, ih, List.range_succ, List.countP_append, List.countP_singleton]
    cases v.toNat.testBit n
    · rw [Bool.false_xor, if_neg Bool.false_ne_true, Nat.add_zero]
    · rw [Bool.true_xor, ← decide_not, if_pos rfl]
      exact decide_eq_decide.2 (by omega)

/-- Bits beyond the width do not count. -/
theorem countP_testBit_range (hw : w ≤ 64) (hv : v.toNat < 2 ^ w) :
    (List.range 64).countP v.toNat.testBit = (List.range w).countP v.toNat.testBit := by
  have hhigh : ((List.range (64 - w)).map (w + ·)).countP v.toNat.testBit = 0 := by
    refine List.countP_eq_zero.2 fun i hi => ?_
    obtain ⟨j, -, rfl⟩ := List.mem_map.1 hi
    rw [testBit_of_le hv (Nat.le_add_right ..)]
    exact Bool.false_ne_true
  rw [show 64 = w + (64 - w) by omega, List.range_add, List.countP_append]
  simpa using hhigh

theorem UnaryOp.toNat_apply (op : UnaryOp) (hw : w ≤ 64) (hv : v.toNat < 2 ^ w) :
    (op.apply v w).toNat = op.denote v.toNat w := by
  cases op with
  | not => exact toNat_apply_not hw hv
  | neg => exact toNat_apply_neg hw hv
  | redAnd =>
    rw [apply, denote, toNat_toUInt64]
    refine congrArg Bool.toNat (Bool.eq_iff_iff.2 ?_)
    simpa using eq_mask_iff hw hv
  | redOr =>
    rw [apply, denote, toNat_toUInt64]
    refine congrArg Bool.toNat (Bool.eq_iff_iff.2 ?_)
    simpa using ne_zero_iff_testBit hv
  | redXor =>
    rw [apply, denote, toNat_toUInt64, oddBits_eq, countP_testBit_range hw hv]
    rcases Nat.mod_two_eq_zero_or_one ((List.range w).countP v.toNat.testBit) with h | h <;> rw [h] <;> rfl

theorem BinaryOp.toNat_apply (op : BinaryOp) (hw : w ≤ 64) (hr : r.toNat < 2 ^ w) :
    (op.apply l r w).toNat = op.denote l.toNat r.toNat w := by
  cases op with
  | add =>
    rw [apply, denote, toNat_and_mask, UInt64.toNat_add, word_mod_two_pow hw]
  | sub =>
    rw [apply, denote, toNat_and_mask, UInt64.toNat_sub, word_mod_two_pow hw, sub_mod_two_pow hw hr.le]
    congr 1
    omega
  | and => exact UInt64.toNat_and ..
  | or => exact UInt64.toNat_or ..
  | xor => exact UInt64.toNat_xor ..
  | eq =>
    rw [apply, denote, toNat_toUInt64]
    refine congrArg Bool.toNat (Bool.eq_iff_iff.2 ?_)
    simp [← UInt64.toNat_inj]
  | ne =>
    rw [apply, denote, toNat_toUInt64]
    refine congrArg Bool.toNat (Bool.eq_iff_iff.2 ?_)
    simp [← UInt64.toNat_inj]
  | lt => exact toNat_toUInt64 _
  | le => exact toNat_toUInt64 _
  | gt => exact toNat_toUInt64 _
  | ge => exact toNat_toUInt64 _

end

namespace Expr

theorem toNat_cut (v : Word) (high low : Nat) :
    (cut v high low).toNat = v.toNat / 2 ^ low % 2 ^ (high + 1 - low) := by
  unfold cut
  split
  · rename_i hlow
    have hv : v.toNat < 2 ^ low := lt_two_pow_of_le v.toNat_lt hlow
    rw [Nat.div_eq_of_lt hv, Nat.zero_mod, UInt64.toNat_zero]
  · rename_i hlow
    rw [toNat_and_mask, UInt64.toNat_shiftRight, UInt64.toNat_ofNat', Nat.shiftRight_eq_div_pow,
      Nat.mod_eq_of_lt (show low < 2 ^ 64 by omega), Nat.mod_eq_of_lt (show low < 64 by omega)]

theorem shifted_lt {x w : Nat} (hx : x < 2 ^ w) (offset : Nat) : 2 ^ offset * x < 2 ^ (offset + w) := by
  rw [Nat.pow_add]
  exact Nat.mul_lt_mul_of_pos_left hx (Nat.two_pow_pos _)

/-- A part that ends within the word loses no bit. One that starts at its end is empty. -/
theorem toNat_place {v : Word} {w offset : Nat} (hv : v.toNat < 2 ^ w) (hend : offset + w ≤ 64) :
    (place v offset).toNat = 2 ^ offset * v.toNat := by
  unfold place
  split
  · rename_i ho
    have hlt : 2 ^ offset * v.toNat < 2 ^ 64 := lt_two_pow_of_le (shifted_lt hv offset) hend
    rw [UInt64.toNat_shiftLeft, UInt64.toNat_ofNat', Nat.shiftLeft_eq, Nat.mod_eq_of_lt (show offset < 2 ^ 64 by omega),
      Nat.mod_eq_of_lt ho, Nat.mul_comm, Nat.mod_eq_of_lt hlt]
  · obtain rfl : w = 0 := by omega
    rw [Nat.lt_one_iff.1 hv, Nat.mul_zero, UInt64.toNat_zero]

variable {σ : Valuation}

/-- The bits of a part are below those of the parts after it. -/
theorem toNat_evalParts_cons {p : Expr} {ps : List Expr} {offset tail : Nat} (hp : (p.eval σ).toNat < 2 ^ p.width)
    (hend : offset + p.width ≤ 64)
    (htail : (evalParts σ ps (offset + p.width)).toNat = 2 ^ (offset + p.width) * tail) :
    (evalParts σ (p :: ps) offset).toNat = 2 ^ offset * ((p.eval σ).toNat + 2 ^ p.width * tail) := by
  rw [evalParts, UInt64.toNat_or, toNat_place hp hend, htail, Nat.or_comm,
    ← Nat.two_pow_add_eq_or_of_lt (shifted_lt hp offset), Nat.pow_add, Nat.mul_add, Nat.mul_assoc, Nat.add_comm]

theorem toNat_evalParts {ρ : SignalId → Nat} {ps : List Expr}
    (h : ∀ p ∈ ps, (p.eval σ).toNat < 2 ^ p.width ∧ (p.eval σ).toNat = p.denote ρ) {offset : Nat}
    (hend : offset + totalWidth ps ≤ 64) : (evalParts σ ps offset).toNat = 2 ^ offset * denoteParts ρ ps := by
  induction ps generalizing offset with
  | nil => rfl
  | cons p ps ih =>
    obtain ⟨⟨hlt, heq⟩, hps⟩ := List.forall_mem_cons.1 h
    rw [totalWidth, ← Nat.add_assoc] at hend
    rw [toNat_evalParts_cons hlt (Nat.le_trans (Nat.le_add_right ..) hend) (ih hps hend), denoteParts, heq]

/-- The value that is found is the one over the natural numbers, where every part is narrow and every constant
fits its width. -/
theorem toNat_eval {e : Expr} (hfits : e.fits = true) (hsize : e.WellSized) :
    (e.eval σ).toNat = e.denote fun i => (σ i).toNat := by
  induction e with
  | const v w => rfl
  | signal i w => exact toNat_and_mask ..
  | unary op e ih =>
    have he := (forall_parts_unary.1 hsize).2
    have hfe : e.fits = true := hfits
    rw [eval, denote, ← ih hfe he]
    exact op.toNat_apply (WellSized.width_le he) (eval_lt hfe)
  | binary op a b iha ihb =>
    obtain ⟨-, ha, hb⟩ := forall_parts_binary.1 hsize
    simp only [fits, Bool.and_eq_true] at hfits
    rw [eval, denote, ← iha hfits.1 ha, ← ihb hfits.2 hb]
    -- Both operands are extended to the wider one.
    refine op.toNat_apply (max_le (WellSized.width_le ha) (WellSized.width_le hb)) ?_
    exact lt_two_pow_of_le (eval_lt hfits.2) (le_max_right ..)
  | mux s t f ihs iht ihf =>
    obtain ⟨-, hs, ht, hf⟩ := forall_parts_mux.1 hsize
    simp only [fits, Bool.and_eq_true] at hfits
    rw [eval, denote, ← ihs hfits.1.1 hs, ← iht hfits.1.2 ht, ← ihf hfits.2 hf, apply_ite UInt64.toNat]
    refine if_congr ?_ rfl rfl
    rw [ne_eq, ← UInt64.toNat_inj, UInt64.toNat_zero]
  | slice b high low ih =>
    rw [eval, denote, toNat_cut, ih hfits (forall_parts_slice.1 hsize).2]
  | concat ps ih =>
    obtain ⟨hself, hps⟩ := forall_parts_concat.1 hsize
    simp only [fits, allFit_iff] at hfits
    have hparts : ∀ p ∈ ps, (p.eval σ).toNat < 2 ^ p.width ∧ (p.eval σ).toNat = p.denote fun i => (σ i).toNat :=
      fun p hp => ⟨eval_lt (hfits p hp), ih p hp (hfits p hp) (hps p hp)⟩
    rw [eval, denote, toNat_evalParts hparts (by rw [Nat.zero_add]; exact hself.2), Nat.pow_zero, Nat.one_mul]

/-- So the value is found without a fault, and has no bit beyond the width. -/
theorem WellSized.evalChecked {e : Expr} (hsize : e.WellSized) :
    ∃ v, e.evalChecked σ = .ok v ∧
      (e.fits = true → v.toNat < 2 ^ e.width ∧ v.toNat = e.denote fun i => (σ i).toNat) :=
  ⟨e.eval σ, hsize.defined.evalChecked, fun hfits => ⟨eval_lt hfits, toNat_eval hfits hsize⟩⟩

end Expr

/-- An expression without wide parts and reversed slices, whose constants fit, has a value on every list of signal
values: the one it has over the natural numbers, which is below `2 ^ width`. -/
theorem eval_denotes (values : Values) (e : Expr) (hfits : e.fits = true)
    (hslices : ∀ b high low, .slice b high low ∈ e.parts → low ≤ high) (hnarrow : ∀ p ∈ e.parts, p.width ≤ maxWidth) :
    ∃ v, e.evalChecked values.valuation = .ok v ∧ v.toNat < 2 ^ e.width ∧
      v.toNat = e.denote fun i => (values.getD i 0).toNat := by
  have hsize : e.WellSized := Expr.wellSized_of fun p hp => by
    refine ⟨hnarrow p hp, fun b high low h => ?_⟩
    subst h
    exact hslices b high low hp
  obtain ⟨v, hv, hvalue⟩ := hsize.evalChecked (σ := values.valuation)
  exact ⟨v, hv, hvalue hfits⟩

/-- A word filled exactly, by a negation, bits of a difference below zero and a reduction of no bits. -/
def filled : Expr :=
  .concat [.unary .neg (.signal 0 40), .slice (.binary .sub (.signal 1 8) (.signal 0 40)) 39 17,
    .unary .redAnd (.const 0 0)]

theorem eval_denotes_of_filled :
    filled.fits = true ∧ (∀ b high low, .slice b high low ∈ filled.parts → low ≤ high) ∧
      (∀ p ∈ filled.parts, p.width ≤ maxWidth) ∧
      ∃ v, filled.evalChecked (Values.valuation #[3, 2]) = .ok v ∧ v.toNat < 2 ^ 64 ∧ v.toNat = 2 ^ 64 - 3 := by
  have hfits : filled.fits = true := by decide +kernel
  have hslices : ∀ b high low, .slice b high low ∈ filled.parts → low ≤ high := by
    intro b high low h
    simp only [filled, Expr.parts, Expr.partsAll, List.mem_cons, List.mem_append, List.not_mem_nil, reduceCtorEq,
      Expr.slice.injEq, or_false, false_or] at h
    omega
  have hnarrow : ∀ p ∈ filled.parts, p.width ≤ maxWidth := by decide +kernel
  have hvalue : (filled.denote fun i => (#[3, 2].getD i (0 : Word)).toNat) = 2 ^ 64 - 3 := by decide +kernel
  obtain ⟨v, hv, hlt, heq⟩ := eval_denotes #[3, 2] filled hfits hslices hnarrow
  exact ⟨hfits, hslices, hnarrow, v, hv, hlt, heq.trans hvalue⟩

end Interlock
