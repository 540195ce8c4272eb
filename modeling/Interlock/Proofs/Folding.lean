import Interlock.Proofs.Expr.Context
import Interlock.Proofs.Expr.Substitute
import Interlock.Proofs.Expr.Denote

/-! Folding is transparent. Each folding constructor has, in every valuation, the value of the plain node that it
stands for, and but for one of them it has the width of that node as well, so that no larger expression tells
the two apart. The exception is a `mux` whose select is a constant: it gives the chosen branch as it is, where the plain
node is as wide as the wider branch. -/

namespace Interlock

namespace Expr

variable {σ : Valuation} {a b e : Expr} {w : Nat}

/-! ### Values -/

theorem mask_and_eval (h : e.fits = true) (hw : e.width ≤ w) : mask w &&& e.eval σ = e.eval σ := by
  rw [UInt64.and_comm]
  exact and_mask_of_lt (lt_two_pow_of_le (eval_lt h) hw)

theorem mask_or_eval (h : e.fits = true) (hw : e.width ≤ w) : mask w ||| e.eval σ = mask w := by
  rw [← mask_and_eval h hw, UInt64.and_comm, mask_or]

theorem eval_of_ones (h : (e.isConstOnes && e.width == w) = true) : e.eval σ = mask w := by
  obtain ⟨hones, hw⟩ := Bool.and_eq_true_iff.1 h
  rw [eval_of_isConstOnes hones, eq_of_beq hw]

theorem eval_and (ha : a.fits = true) (hb : b.fits = true) : (a.and b).eval σ = a.eval σ &&& b.eval σ := by
  unfold and
  simp only
  split_ifs with hz hones hones' he
  · rw [eval_zero]
    rcases Bool.or_eq_true _ _ ▸ hz with h | h
    · rw [eval_of_isConstZero h, UInt64.zero_and]
    · rw [eval_of_isConstZero h, UInt64.and_zero]
  · rw [eval_resize hb, eval_of_ones hones, UInt64.and_comm]
  · rw [eval_resize ha, eval_of_ones hones']
  · rw [he, UInt64.and_self]
  · rfl

theorem eval_or (ha : a.fits = true) (hb : b.fits = true) : (a.or b).eval σ = a.eval σ ||| b.eval σ := by
  unfold or
  simp only
  split_ifs with hz hz' hones he
  · rw [eval_of_isConstZero (Bool.and_eq_true_iff.1 hz).1, UInt64.zero_or]
  · rw [eval_of_isConstZero (Bool.and_eq_true_iff.1 hz').1, UInt64.or_zero]
  · rw [eval_constant, mask_and_mask]
    rcases Bool.or_eq_true _ _ ▸ hones with h | h
    · rw [eval_of_ones h, mask_or_eval hb (Nat.le_max_right ..)]
    · rw [eval_of_ones h, UInt64.or_comm, mask_or_eval ha (Nat.le_max_left ..)]
  · rw [he, UInt64.or_self]
  · rfl

/-- Bits that are inverted twice are as they were. -/
theorem not_apply_not {v : Word} (hv : v.toNat < 2 ^ w) : UnaryOp.not.apply (UnaryOp.not.apply v w) w = v := by
  -- From 64 bits on the width makes no difference.
  have hmask : mask w = mask (min w 64) := by
    rw [← UInt64.toNat_inj, toNat_mask, toNat_mask, Nat.min_assoc, Nat.min_self]
  have hlt : v.toNat < 2 ^ min w 64 := by
    rcases Nat.le_total w 64 with h | h
    · rwa [Nat.min_eq_left h]
    · rw [Nat.min_eq_right h]
      exact v.toNat_lt
  have hle : min w 64 ≤ 64 := Nat.min_le_right ..
  have hnot := toNat_apply_not hle hlt
  rw [UnaryOp.denote] at hnot
  show UnaryOp.not.apply (~~~v &&& mask w) w = v
  rw [UnaryOp.apply, hmask]
  show UnaryOp.not.apply (UnaryOp.not.apply v (min w 64)) (min w 64) = v
  rw [← UInt64.toNat_inj, toNat_apply_not hle (by rw [hnot]; omega), UnaryOp.denote, hnot]
  omega

theorem eval_not (h : e.fits = true) : e.not.eval σ = UnaryOp.not.apply (e.eval σ) e.width := by
  unfold not
  split
  · exact eval_constant ..
  · rename_i e
    have hfits : e.fits = true := h
    exact (not_apply_not (eval_lt hfits)).symm
  · rfl

theorem eval_anyBit (h : e.fits = true) : e.anyBit.eval σ = (e.eval σ != 0).toUInt64 := by
  unfold anyBit
  split
  · rename_i hw
    rw [eval_eq_truth (bounded_of_fits h) hw]
    cases e.truth σ <;> rfl
  · cases hc : e.asConst with
    | some v =>
      rw [eval_of_asConst hc]
      show (constant (v != 0).toUInt64 1).eval σ = _
      rw [eval_constant]
      exact and_mask_of_lt (toUInt64_lt _)
    | none => rfl

theorem eval_bits (h : e.fits = true) (high low : Nat) : (e.bits high low).eval σ = cut (e.eval σ) high low := by
  unfold bits
  split
  · rename_i hall
    obtain ⟨rfl, hw⟩ := hall
    rw [← UInt64.toNat_inj, toNat_cut, Nat.pow_zero, Nat.div_one, Nat.sub_zero, hw, Nat.mod_eq_of_lt (eval_lt h)]
  · rfl

theorem eval_join (ps : List Expr) : (join ps).eval σ = evalParts σ ps 0 := by
  match ps with
  | [] => exact eval_zero 0
  | [p] => rw [join, evalParts, place_zero, evalParts, UInt64.or_zero]
  | _ :: _ :: _ => rfl

/-! ### Operands -/

/-- An expression whose constants fit and whose parts all have a width. -/
structure Proper (e : Expr) : Prop where
  fits : e.fits = true
  defined : e.Defined

theorem Proper.constant (v : Word) (hw : w < wordLimit) : (constant v w).Proper :=
  ⟨fits_constant v w, closed_defined.constant v hw⟩

theorem Proper.binary (op : BinaryOp) (ha : a.Proper) (hb : b.Proper) : (binary op a b).Proper :=
  ⟨by rw [Expr.fits, ha.fits, hb.fits, Bool.and_self], closed_defined.binary op a b ha.defined hb.defined⟩

theorem Proper.and (ha : a.Proper) (hb : b.Proper) : (a.and b).Proper :=
  ⟨closed_fits.and ha.fits hb.fits, closed_defined.and ha.defined hb.defined⟩

theorem Proper.or (ha : a.Proper) (hb : b.Proper) : (a.or b).Proper :=
  ⟨closed_fits.or ha.fits hb.fits, closed_defined.or ha.defined hb.defined⟩

/-! ### The plain nodes -/

theorem same_and (ha : a.Proper) (hb : b.Proper) : Same (a.and b) (.binary .and a b) :=
  .of_defined (ha.and hb).defined (ha.binary .and hb).defined (width_and ..) fun _ => eval_and ha.fits hb.fits

theorem same_or (ha : a.Proper) (hb : b.Proper) : Same (a.or b) (.binary .or a b) :=
  .of_defined (ha.or hb).defined (ha.binary .or hb).defined (width_or ..) fun _ => eval_or ha.fits hb.fits

theorem same_not (h : e.Proper) : Same e.not (.unary .not e) :=
  .of_defined (closed_defined.not h.defined) h.defined (width_not e) fun _ => eval_not h.fits

theorem same_anyBit (h : e.Proper) : Same e.anyBit (.unary .redOr e) :=
  .of_defined (closed_defined.anyBit h.defined) h.defined (width_anyBit e) fun _ => eval_anyBit h.fits

/-- A reversed slice is left as it is. -/
theorem same_bits (h : e.Proper) (high low : Nat) : Same (e.bits high low) (.slice e high low) := by
  unfold bits
  split
  · rename_i hall
    obtain ⟨rfl, hw⟩ := hall
    have hslice : (Expr.slice e high 0).Defined :=
      closed_defined.slice e high 0 h.defined (Nat.zero_le _) (by rw [Nat.sub_zero, hw]; exact h.defined.width_lt)
    refine .of_defined h.defined hslice hw.symm fun σ => ?_
    have heval := eval_bits (σ := σ) h.fits high 0
    rwa [bits, if_pos ⟨rfl, hw⟩] at heval
  · exact .refl _

theorem same_join {ps : List Expr} (hps : ∀ p ∈ ps, p.Proper) : Same (join ps) (.concat ps) := by
  match ps with
  | [] => exact .of_defined (by decide) (by decide) rfl fun _ => eval_zero 0
  | [p] =>
    have hp := (hps p (List.mem_singleton_self p)).defined
    have hcat : (Expr.concat [p]).Defined :=
      closed_defined.concat [p] (fun q hq => List.mem_singleton.1 hq ▸ hp) hp.width_lt
    exact .of_defined hp hcat rfl fun _ => eval_join [p]
  | _ :: _ :: _ => exact .refl _

theorem same_select {s : Expr} (hs : s.Proper) (ha : a.Proper) (hb : b.Proper)
    (hw : (select s a b).width = max a.width b.width) : Same (select s a b) (.mux s a b) :=
  .of_defined (closed_defined.select hs.defined ha.defined hb.defined)
    (closed_defined.mux s a b hs.defined ha.defined hb.defined) hw fun _ => eval_select s a b

/-- Zeros are added to the upper end, or the lower bits are taken. -/
def resizePlain (e : Expr) (w : Nat) : Expr :=
  if e.width ≤ w then concat [e, const 0 (w - e.width)] else if w = 0 then concat [] else slice e (w - 1) 0

theorem width_resizePlain (e : Expr) (w : Nat) : (e.resizePlain w).width = w := by
  unfold resizePlain
  split_ifs <;> simp only [width, totalWidth] <;> omega

theorem same_resize (h : e.Proper) (hw : w < wordLimit) : Same (e.resize w) (e.resizePlain w) := by
  have hwidth := width_resizePlain e w
  refine .of_defined (closed_defined.resize h.defined hw) ?_ (by rw [width_resize, hwidth]) fun σ => ?_
  · revert hwidth
    unfold resizePlain
    split_ifs with hle hzero
    · intro hwidth
      refine closed_defined.concat _ (List.forall_mem_cons.2 ⟨h.defined, List.forall_mem_singleton.2 ?_⟩)
        (lt_of_eq_of_lt hwidth hw)
      exact decide_eq_true (Nat.lt_of_le_of_lt (Nat.sub_le ..) hw)
    · exact fun _ => rfl
    · exact fun hwidth => closed_defined.slice e (w - 1) 0 h.defined (Nat.zero_le _) (lt_of_eq_of_lt hwidth hw)
  · rw [eval_resize h.fits]
    unfold resizePlain
    split_ifs with hle hzero
    · rw [UInt64.and_comm, mask_and_eval h.fits hle]
      simp only [eval, evalParts, place_zero, place_zero_word, UInt64.or_zero]
    · rw [hzero]
      exact UInt64.and_zero
    · rw [eval, ← UInt64.toNat_inj, toNat_cut, toNat_and_mask, Nat.pow_zero, Nat.div_one, Nat.sub_zero,
        Nat.sub_add_cancel (Nat.pos_of_ne_zero hzero)]

/-- Folding item by item is plain item by item. -/
theorem same_foldl {op : BinaryOp} {f : Expr → Expr → Expr}
    (hf : ∀ a b, a.Proper → b.Proper → (f a b).Proper ∧ Same (f a b) (.binary op a b)) {items : List Expr}
    (hitems : ∀ e ∈ items, e.Proper) {a b : Expr} (ha : a.Proper) (h : Same a b) :
    Same (items.foldl f a) (items.foldl (.binary op) b) := by
  induction items generalizing a b with
  | nil => exact h
  | cons x xs ih =>
    obtain ⟨hproper, hsame⟩ := hf a x ha (hitems x (List.mem_cons_self ..))
    exact ih (fun e he => hitems e (List.mem_cons_of_mem _ he)) hproper (hsame.trans (h.binary op (.refl x)))

end Expr

open Interlock.Expr

/-- A folding constructor with what it is applied to. -/
inductive Folding where
  | and (a b : Expr)
  | or (a b : Expr)
  | not (e : Expr)
  | anyBit (e : Expr)
  | select (s t f : Expr)
  | bits (e : Expr) (high low : Nat)
  | join (ps : List Expr)
  | resize (e : Expr) (w : Nat)
  | any (items : List Expr)
  | all (items : List Expr)

namespace Folding

def operands : Folding → List Expr
  | and a b | or a b => [a, b]
  | not e | anyBit e | bits e _ _ | resize e _ => [e]
  | select s t f => [s, t, f]
  | join items | any items | all items => items

/-- What the constructor gives, where the widths that it asks for are defined. -/
def result : Folding → Except Fault Expr
  | and a b => Checked.and a b
  | or a b => Checked.or a b
  | not e => .ok e.not
  | anyBit e => Checked.anyBit e
  | select s t f => .ok (Expr.select s t f)
  | bits e high low => Checked.bits e high low
  | join ps => .ok (Expr.join ps)
  | resize e w => Checked.resize e w
  | any items => Checked.any items
  | all items => Checked.all items

/-- The same without asking. -/
def folded : Folding → Expr
  | and a b => a.and b
  | or a b => a.or b
  | not e => e.not
  | anyBit e => e.anyBit
  | select s t f => Expr.select s t f
  | bits e high low => e.bits high low
  | join ps => Expr.join ps
  | resize e w => e.resize w
  | any items => Expr.any items
  | all items => Expr.all items

/-- The node that it stands for. -/
def plain : Folding → Expr
  | and a b => .binary .and a b
  | or a b => .binary .or a b
  | not e => .unary .not e
  | anyBit e => .unary .redOr e
  | select s t f => .mux s t f
  | bits e high low => .slice e high low
  | join ps => .concat ps
  | resize e w => e.resizePlain w
  | any items => items.foldl (.binary .or) (bit false)
  | all items => items.foldl (.binary .and) one

/-- Widths and positions fit 32 bits, and a position is not the last that does. -/
def InRange : Folding → Prop
  | bits _ high _ => high + 1 < wordLimit
  | resize _ w => w < wordLimit
  | _ => True

/-- The branch that a constant select chooses is not narrower than the other. -/
def KeepsWidth : Folding → Prop
  | select s t f => ∀ v, s.asConst = some v → if v ≠ 0 then f.width ≤ t.width else t.width ≤ f.width
  | _ => True

theorem keepsWidth_select {s t f : Expr} :
    (select s t f).KeepsWidth ↔ (Expr.select s t f).width = max t.width f.width := by
  unfold Expr.select
  split
  · rename_i v hv
    have hchosen : (select s t f).KeepsWidth ↔ if v ≠ 0 then f.width ≤ t.width else t.width ≤ f.width :=
      ⟨fun h => h v hv, fun h u hu => Option.some.inj (hv.symm.trans hu) ▸ h⟩
    rw [hchosen]
    by_cases hzero : v = 0
    · rw [if_neg (not_not.2 hzero), if_neg (not_not.2 hzero)]
      omega
    · rw [if_pos hzero, if_pos hzero]
      omega
  · rename_i hnone
    refine iff_of_true (fun v hv => absurd (hnone.symm.trans hv) nofun) ?_
    split
    · rename_i heq
      rw [heq, Nat.max_self]
    · rfl

variable {f : Folding}

theorem result_eq (hproper : ∀ e ∈ f.operands, e.Proper) (hrange : f.InRange) : f.result = .ok f.folded := by
  have hsized : ∀ e ∈ f.operands, e.ensureSized = .ok () := fun e he => ensureSized_of (hproper e he).defined.sized
  cases f with
  | and a b | or a b =>
    simp only [operands, List.forall_mem_cons] at hsized
    simp only [result, Checked.and, Checked.or, hsized.1, hsized.2.1]
    rfl
  | anyBit e | resize e w =>
    simp only [operands, List.forall_mem_cons] at hsized
    simp only [result, Checked.anyBit, Checked.resize, hsized.1]
    rfl
  | bits e high low =>
    simp only [operands, List.forall_mem_cons] at hsized
    simp only [result, Checked.bits, if_pos (show high + 1 < wordLimit from hrange), hsized.1]
    split <;> rfl
  | any items | all items =>
    have hforM : items.forM ensureSized = .ok () := forM_ensureSized fun e he => (hproper e he).defined.sized
    simp only [result, Checked.any, Checked.all, hforM]
    rfl
  | not e | select s t f | join ps => rfl

theorem same_plain (hproper : ∀ e ∈ f.operands, e.Proper) (hrange : f.InRange) (hkeeps : f.KeepsWidth) :
    Same f.folded f.plain := by
  cases f with
  | and a b =>
    simp only [operands, List.forall_mem_cons] at hproper
    exact same_and hproper.1 hproper.2.1
  | or a b =>
    simp only [operands, List.forall_mem_cons] at hproper
    exact same_or hproper.1 hproper.2.1
  | not e => exact same_not (hproper e (List.mem_singleton_self e))
  | anyBit e => exact same_anyBit (hproper e (List.mem_singleton_self e))
  | select s t f =>
    simp only [operands, List.forall_mem_cons] at hproper
    exact same_select hproper.1 hproper.2.1 hproper.2.2.1 (keepsWidth_select.1 hkeeps)
  | bits e high low => exact same_bits (hproper e (List.mem_singleton_self e)) high low
  | join ps => exact same_join hproper
  | resize e w => exact same_resize (hproper e (List.mem_singleton_self e)) hrange
  | any items => exact same_foldl (fun a b ha hb => ⟨ha.or hb, same_or ha hb⟩) hproper (.constant _ (by decide)) (.refl _)
  | all items =>
    exact same_foldl (fun a b ha hb => ⟨ha.and hb, same_and ha hb⟩) hproper (.constant _ (by decide)) (.refl _)

theorem keepsWidth_iff (hproper : ∀ e ∈ f.operands, e.Proper) (hrange : f.InRange) :
    f.KeepsWidth ↔ f.folded.width = f.plain.width := by
  refine ⟨fun h => (same_plain hproper hrange h).width, fun h => ?_⟩
  cases f with
  | select s t f => exact keepsWidth_select.2 h
  | _ => trivial

/-- The value is that of the plain node, also where the width is not. -/
theorem folded_value (hproper : ∀ e ∈ f.operands, e.Proper) (hrange : f.InRange) (σ : Valuation) :
    f.folded.evalChecked σ = f.plain.evalChecked σ := by
  cases f with
  | select s t f =>
    simp only [operands, List.forall_mem_cons] at hproper
    obtain ⟨hs, ht, hf, -⟩ := hproper
    have hmux := closed_defined.mux s t f hs.defined ht.defined hf.defined
    rw [folded, (closed_defined.select hs.defined ht.defined hf.defined).evalChecked, eval_select, plain,
      hmux.evalChecked]
    rfl
  | _ => exact (same_plain hproper hrange trivial).value σ

end Folding

/-- On operands without wide parts, whose constants fit, a folding constructor gives an expression that has the value of
the plain node in every valuation. Whether any larger expression tells the two apart is a matter of their widths, which
differ only where a constant select chooses the narrower branch. -/
theorem folding_transparent (f : Folding) (hoperands : ∀ e ∈ f.operands, e.fits = true ∧ e.WellSized)
    (hrange : f.InRange) :
    ∃ e, f.result = .ok e ∧ (∀ σ, e.evalChecked σ = f.plain.evalChecked σ) ∧
      (f.KeepsWidth ↔ ∀ c : Context, Same (c.fill e) (c.fill f.plain)) := by
  have hproper : ∀ e ∈ f.operands, e.Proper := fun e he => ⟨(hoperands e he).1, (hoperands e he).2.defined⟩
  refine ⟨f.folded, Folding.result_eq hproper hrange, Folding.folded_value hproper hrange, fun h c => ?_, fun h => ?_⟩
  · exact (Folding.same_plain hproper hrange h).fill c
  · exact (Folding.keepsWidth_iff hproper hrange).2 (h .hole).width

/-- The constant of eight ones is folded away. The single bit that the fold starts from is narrower than the signal, and
stays. -/
theorem folding_transparent_of_all :
    (∀ e ∈ [Expr.signal 0 8, .const 255 8], e.fits = true ∧ e.WellSized) ∧
      ∃ e, Checked.all [.signal 0 8, .const 255 8] = .ok e ∧ e = .binary .and one (.signal 0 8) ∧
        ∀ c : Context, Same (c.fill e) (c.fill (.binary .and (.binary .and one (.signal 0 8)) (.const 255 8))) := by
  have hoperands : ∀ e ∈ [Expr.signal 0 8, .const 255 8], e.fits = true ∧ e.WellSized := by decide +kernel
  have hresult : Checked.all [.signal 0 8, .const 255 8] = .ok (.binary .and one (.signal 0 8)) := by rfl
  obtain ⟨e, he, -, hsame⟩ := folding_transparent (.all [.signal 0 8, .const 255 8]) hoperands trivial
  exact ⟨hoperands, e, he, Except.ok.inj (he.symm.trans hresult), hsame.1 trivial⟩

/-- A constant select that chooses the branch of 4 bits. In the larger expression that inverts the result the upper four bits
are clear, where they are set for the plain node, which has the 8 bits of the other branch. -/
theorem folding_narrows :
    (∀ e ∈ (Folding.select one (.signal 0 4) (.signal 1 8)).operands, e.fits = true ∧ e.WellSized) ∧
      ∃ e, (Folding.select one (.signal 0 4) (.signal 1 8)).result = .ok e ∧ e.width = 4 ∧
        (Expr.mux one (.signal 0 4) (.signal 1 8)).width = 8 ∧
          ∃ σ : Valuation, (Expr.unary .not e).evalChecked σ = .ok 10 ∧
            (Expr.unary .not (.mux one (.signal 0 4) (.signal 1 8))).evalChecked σ = .ok 250 := by
  refine ⟨by decide +kernel, .signal 0 4, rfl, rfl, rfl, fun _ => 5, ?_, ?_⟩
  · decide +kernel
  · decide +kernel

end Interlock
