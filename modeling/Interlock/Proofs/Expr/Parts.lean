import Interlock.Proofs.Expr.Defined

/-! The parts of an expression, at every depth. Asking for the width of an expression asks only some of
them: not the operands of a comparison or reduction, the select of a `mux` and the base of a slice, nor
anything inside of these. So a narrow expression may have wide parts, and which ones are free to be
wide is stated here. -/

namespace Interlock.Expr

mutual
/-- An expression and all its parts. -/
def parts : Expr → List Expr
  | const v w => [const v w]
  | signal i w => [signal i w]
  | unary op e => unary op e :: e.parts
  | binary op a b => binary op a b :: (a.parts ++ b.parts)
  | mux s t f => mux s t f :: (s.parts ++ (t.parts ++ f.parts))
  | slice b high low => slice b high low :: b.parts
  | concat ps => concat ps :: partsAll ps

def partsAll : List Expr → List Expr
  | [] => []
  | p :: ps => p.parts ++ partsAll ps
end

mutual
/-- The parts whose width is asked when that of the whole is. -/
def asked : Expr → List Expr
  | const v w => [const v w]
  | signal i w => [signal i w]
  | unary op e => unary op e :: if op.isReduction then [] else e.asked
  | binary op a b => binary op a b :: if op.isComparison then [] else a.asked ++ b.asked
  | mux s t f => mux s t f :: (t.asked ++ f.asked)
  | slice b high low => [slice b high low]
  | concat ps => concat ps :: askedAll ps

def askedAll : List Expr → List Expr
  | [] => []
  | p :: ps => p.asked ++ askedAll ps
end

mutual
/-- The parts whose width plays no role in that of the whole. -/
def unasked : Expr → List Expr
  | const .. | signal .. => []
  | unary op e => if op.isReduction then e.parts else e.unasked
  | binary op a b => if op.isComparison then a.parts ++ b.parts else a.unasked ++ b.unasked
  | mux s t f => s.parts ++ (t.unasked ++ f.unasked)
  | slice b _ _ => b.parts
  | concat ps => unaskedAll ps

def unaskedAll : List Expr → List Expr
  | [] => []
  | p :: ps => p.unasked ++ unaskedAll ps
end

variable {p e : Expr}

theorem mem_partsAll {ps : List Expr} : p ∈ partsAll ps ↔ ∃ q ∈ ps, p ∈ q.parts := by
  induction ps with
  | nil => simp [partsAll]
  | cons q qs ih => simp [partsAll, ih]

theorem mem_askedAll {ps : List Expr} : p ∈ askedAll ps ↔ ∃ q ∈ ps, p ∈ q.asked := by
  induction ps with
  | nil => simp [askedAll]
  | cons q qs ih => simp [askedAll, ih]

theorem mem_unaskedAll {ps : List Expr} : p ∈ unaskedAll ps ↔ ∃ q ∈ ps, p ∈ q.unasked := by
  induction ps with
  | nil => simp [unaskedAll]
  | cons q qs ih => simp [unaskedAll, ih]

theorem self_mem_parts : e ∈ e.parts := by
  cases e <;> exact List.mem_cons_self ..

theorem mem_parts : p ∈ e.parts ↔ p ∈ e.asked ∨ p ∈ e.unasked := by
  induction e with
  | const v w => simp only [parts, asked, unasked, List.not_mem_nil, or_false]
  | signal i w => simp only [parts, asked, unasked, List.not_mem_nil, or_false]
  | unary op e ih =>
    rw [parts, asked, unasked]
    split
    · rw [List.mem_cons, List.mem_singleton]
    · rw [List.mem_cons, List.mem_cons, ih, or_assoc]
  | binary op a b iha ihb =>
    rw [parts, asked, unasked]
    split
    · rw [List.mem_cons, List.mem_singleton]
    · simp only [List.mem_cons, List.mem_append, iha, ihb]
      exact (or_congr_right or_or_or_comm).trans or_assoc.symm
  | mux s t f _ iht ihf =>
    simp only [parts, asked, unasked, List.mem_cons, List.mem_append, iht, ihf]
    exact (or_congr_right ((or_congr_right or_or_or_comm).trans or_left_comm)).trans or_assoc.symm
  | slice b high low _ => rw [parts, asked, unasked, List.mem_cons, List.mem_singleton]
  | concat ps ih =>
    rw [parts, asked, unasked, List.mem_cons, List.mem_cons, mem_partsAll, mem_askedAll, mem_unaskedAll, or_assoc,
      ← exists_or]
    refine or_congr_right (exists_congr fun q => ?_)
    rw [← and_or_left]
    exact and_congr_right (ih q)

/-! ### Properties of every part -/

section
variable {P : Expr → Prop}

theorem forall_parts_unary {op : UnaryOp} :
    (∀ p ∈ (unary op e).parts, P p) ↔ P (unary op e) ∧ ∀ p ∈ e.parts, P p := by
  rw [parts, List.forall_mem_cons]

theorem forall_parts_binary {op : BinaryOp} {a b : Expr} :
    (∀ p ∈ (binary op a b).parts, P p) ↔ P (binary op a b) ∧ (∀ p ∈ a.parts, P p) ∧ ∀ p ∈ b.parts, P p := by
  rw [parts, List.forall_mem_cons, List.forall_mem_append]

theorem forall_parts_mux {s t f : Expr} :
    (∀ p ∈ (mux s t f).parts, P p) ↔
      P (mux s t f) ∧ (∀ p ∈ s.parts, P p) ∧ (∀ p ∈ t.parts, P p) ∧ ∀ p ∈ f.parts, P p := by
  rw [parts, List.forall_mem_cons, List.forall_mem_append, List.forall_mem_append]

theorem forall_parts_slice {b : Expr} {high low : Nat} :
    (∀ p ∈ (slice b high low).parts, P p) ↔ P (slice b high low) ∧ ∀ p ∈ b.parts, P p := by
  rw [parts, List.forall_mem_cons]

theorem forall_parts_concat {ps : List Expr} :
    (∀ p ∈ (concat ps).parts, P p) ↔ P (concat ps) ∧ ∀ q ∈ ps, ∀ p ∈ q.parts, P p := by
  rw [parts, List.forall_mem_cons]
  refine and_congr_right fun _ => ⟨fun h q hq p hp => h p (mem_partsAll.2 ⟨q, hq, hp⟩), fun h p hp => ?_⟩
  obtain ⟨q, hq, hp⟩ := mem_partsAll.1 hp
  exact h q hq p hp

end

/-! ### Widths of the parts -/

/-- Whether the width of an expression is defined and is one that a signal may have. -/
abbrev Narrow (e : Expr) : Prop := e.sized = true ∧ e.width ≤ maxWidth

/-- Every part is narrow. -/
def WellSized (e : Expr) : Prop := ∀ p ∈ e.parts, p.Narrow

instance : DecidablePred WellSized := fun e => inferInstanceAs (Decidable (∀ p ∈ e.parts, p.Narrow))

theorem WellSized.narrow (h : e.WellSized) : e.Narrow := h e self_mem_parts

theorem WellSized.width_le (h : e.WellSized) : e.width ≤ 64 := h.narrow.2

theorem width_le_totalWidth {ps : List Expr} (h : p ∈ ps) : p.width ≤ totalWidth ps := by
  induction ps with
  | nil => cases h
  | cons q qs ih =>
    rw [totalWidth]
    rcases List.mem_cons.1 h with rfl | h
    · exact Nat.le_add_right ..
    · exact Nat.le_trans (ih h) (Nat.le_add_left ..)

/-- What is asked of a narrow expression is narrow. -/
theorem Narrow.asked (h : e.Narrow) : ∀ p ∈ e.asked, p.Narrow := by
  induction e with
  | const v w => exact List.forall_mem_singleton.2 h
  | signal i w => exact List.forall_mem_singleton.2 h
  | unary op e ih =>
    refine List.forall_mem_cons.2 ⟨h, ?_⟩
    split
    · exact List.forall_mem_nil _
    · rename_i hop
      simp only [Narrow, sized, width, hop, Bool.false_or] at h
      exact ih h
  | binary op a b iha ihb =>
    refine List.forall_mem_cons.2 ⟨h, ?_⟩
    split
    · exact List.forall_mem_nil _
    · rename_i hop
      simp only [Narrow, sized, width, Bool.eq_false_iff.2 hop, Bool.false_or, Bool.false_eq_true, if_false,
        Bool.and_eq_true, max_le_iff] at h
      exact List.forall_mem_append.2 ⟨iha ⟨h.1.1, h.2.1⟩, ihb ⟨h.1.2, h.2.2⟩⟩
  | mux s t f _ iht ihf =>
    refine List.forall_mem_cons.2 ⟨h, ?_⟩
    simp only [Narrow, sized, width, Bool.and_eq_true, max_le_iff] at h
    exact List.forall_mem_append.2 ⟨iht ⟨h.1.1, h.2.1⟩, ihf ⟨h.1.2, h.2.2⟩⟩
  | slice b high low _ => exact List.forall_mem_singleton.2 h
  | concat ps ih =>
    refine List.forall_mem_cons.2 ⟨h, fun p hp => ?_⟩
    obtain ⟨q, hq, hp⟩ := mem_askedAll.1 hp
    simp only [Narrow, sized, width, Bool.and_eq_true, allSized_iff] at h
    exact ih q hq ⟨h.1.1 q hq, Nat.le_trans (width_le_totalWidth hq) h.2⟩ p hp

/-- So whether an expression of legal width has wide parts is a matter of the parts that are not asked. -/
theorem Narrow.wellSized_iff (h : e.Narrow) : e.WellSized ↔ ∀ p ∈ e.unasked, p.Narrow := by
  refine ⟨fun hall p hp => hall p (mem_parts.2 (.inr hp)), fun hun p hp => ?_⟩
  rcases mem_parts.1 hp with hp | hp
  · exact h.asked p hp
  · exact hun p hp

theorem lt_wordLimit {w : Nat} (h : w ≤ maxWidth) : w < wordLimit :=
  Nat.lt_of_le_of_lt h (by decide)

theorem WellSized.defined (h : e.WellSized) : e.Defined := by
  induction e with
  | const v w => exact decide_eq_true (lt_wordLimit h.narrow.2)
  | signal i w => exact decide_eq_true (lt_wordLimit h.narrow.2)
  | unary op e ih => exact ih (forall_parts_unary.1 h).2
  | binary op a b iha ihb =>
    obtain ⟨-, ha, hb⟩ := forall_parts_binary.1 h
    exact closed_defined.binary op _ _ (iha ha) (ihb hb)
  | mux s t f ihs iht ihf =>
    obtain ⟨-, hs, ht, hf⟩ := forall_parts_mux.1 h
    exact closed_defined.mux _ _ _ (ihs hs) (iht ht) (ihf hf)
  | slice b high low ih =>
    obtain ⟨hself, hb⟩ := forall_parts_slice.1 h
    simp only [Narrow, sized, Bool.and_eq_true, decide_eq_true_eq] at hself
    exact closed_defined.slice _ _ _ (ih hb) hself.1.1 hself.1.2
  | concat ps ih =>
    obtain ⟨hself, hps⟩ := forall_parts_concat.1 h
    exact closed_defined.concat _ (fun p hp => ih p hp (hps p hp)) (lt_wordLimit hself.2)

/-- It is enough that no part is wide and no slice reversed. -/
theorem wellSized_of
    (h : ∀ p ∈ e.parts, p.width ≤ maxWidth ∧ ∀ b high low, p = slice b high low → low ≤ high) : e.WellSized := by
  have hself := h e self_mem_parts
  induction e with
  | const v w => exact List.forall_mem_singleton.2 ⟨rfl, hself.1⟩
  | signal i w => exact List.forall_mem_singleton.2 ⟨rfl, hself.1⟩
  | unary op e ih =>
    have he := (forall_parts_unary.1 h).2
    have hwell := ih he (he e self_mem_parts)
    refine forall_parts_unary.2 ⟨⟨?_, hself.1⟩, hwell⟩
    rw [sized, hwell.narrow.1, Bool.or_true]
  | binary op a b iha ihb =>
    obtain ⟨-, ha, hb⟩ := forall_parts_binary.1 h
    have hwa := iha ha (ha a self_mem_parts)
    have hwb := ihb hb (hb b self_mem_parts)
    refine forall_parts_binary.2 ⟨⟨?_, hself.1⟩, hwa, hwb⟩
    rw [sized, hwa.narrow.1, hwb.narrow.1, Bool.and_self, Bool.or_true]
  | mux s t f ihs iht ihf =>
    obtain ⟨-, hs, ht, hf⟩ := forall_parts_mux.1 h
    have hwt := iht ht (ht t self_mem_parts)
    have hwf := ihf hf (hf f self_mem_parts)
    refine forall_parts_mux.2 ⟨⟨?_, hself.1⟩, ihs hs (hs s self_mem_parts), hwt, hwf⟩
    rw [sized, hwt.narrow.1, hwf.narrow.1, Bool.and_self]
  | slice b high low ih =>
    have hb := (forall_parts_slice.1 h).2
    refine forall_parts_slice.2 ⟨⟨?_, hself.1⟩, ih hb (hb b self_mem_parts)⟩
    exact Bool.and_eq_true_iff.2
      ⟨decide_eq_true (hself.2 b high low rfl), decide_eq_true (lt_wordLimit hself.1)⟩
  | concat ps ih =>
    have hps := (forall_parts_concat.1 h).2
    have hwell : ∀ p ∈ ps, p.WellSized := fun p hp => ih p hp (hps p hp) (hps p hp p self_mem_parts)
    refine forall_parts_concat.2 ⟨⟨?_, hself.1⟩, hwell⟩
    exact Bool.and_eq_true_iff.2
      ⟨allSized_iff.2 fun p hp => (hwell p hp).narrow.1, decide_eq_true (lt_wordLimit hself.1)⟩

end Interlock.Expr
