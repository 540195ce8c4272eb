import Interlock.Proofs.CallLogic.Argument
import Interlock.Proofs.Expr.Valued

/-! The stock combiners on operands of any widths. All arguments are brought to the width of the widest before they
are selected, so that every partial result has this width: the sum wraps around there and nowhere else, and what
is folded away makes no result narrower. -/

namespace Interlock

namespace Combiner

open Interlock.Expr CallLogic

variable {σ : Valuation} {args runs : List Expr} {m : Combiner} {w : Nat}

/-! ### Values of the operands -/

/-- The arguments whose conditions are not zero. -/
def activeArgs (σ : Valuation) (args runs : List Expr) : List Expr :=
  ((args.zip runs).filter fun p => p.2.eval σ ≠ 0).map (·.1)

theorem mem_of_mem_activeArgs {a : Expr} (h : a ∈ activeArgs σ args runs) : a ∈ args := by
  obtain ⟨p, hp, rfl⟩ := List.mem_map.1 h
  exact (List.of_mem_zip (List.mem_filter.1 hp).1).1

theorem activeArgs_eq_nil (h : ∀ r ∈ runs, r.eval σ = 0) : activeArgs σ args runs = [] := by
  rw [activeArgs, List.map_eq_nil_iff, List.filter_eq_nil_iff]
  intro p hp
  simpa using h p.2 (List.of_mem_zip hp).2

/-- What a combination asks of its operands: the width of each argument, the value of each condition, and the values of
the arguments whose conditions are not zero. -/
structure Operable (σ : Valuation) (args runs : List Expr) : Prop where
  sized : ∀ a ∈ args, a.sized = true
  run : ∀ r ∈ runs, r.evalChecked σ = .ok (r.eval σ)
  arg : ∀ a ∈ activeArgs σ args runs, a.Valued σ

theorem Operable.active (h : Operable σ args runs) {p : Expr × Expr} (hp : p ∈ args.zip runs)
    (hrun : p.2.eval σ ≠ 0) : p.1.Valued σ :=
  h.arg p.1 (List.mem_map_of_mem (List.mem_filter.2 ⟨hp, by simpa using hrun⟩))

/-- The arguments of the active calls, brought to the common width, have the values that they had. -/
theorem Operable.passed_resized (h : Operable σ args runs) :
    passed σ (resized (widest args) args runs) = (activeArgs σ args runs).map (Expr.eval σ) := by
  rw [passed, resized, ← List.map_uncurry_zip_eq_zipWith, List.filter_map, List.map_map, activeArgs, List.map_map]
  refine List.map_congr_left fun p hp => ?_
  obtain ⟨hmem, hrun⟩ := List.mem_filter.1 hp
  have hactive : p.1.Valued σ := h.active hmem (of_decide_eq_true hrun)
  exact hactive.value_resize (width_le_widest (List.of_mem_zip hmem).1)

/-! ### The combination has a value -/

/-- An argument is selected at the common width, in front of what has a value already. -/
theorem Operable.valued_select (h : Operable σ args runs) (hw : w < wordLimit) {p : Expr × Expr}
    (hp : p ∈ args.zip runs) {e : Expr} (he : e.Valued σ) : (Expr.select p.2 (p.1.resize w) e).Valued σ := by
  obtain ⟨harg, hrun⟩ := List.of_mem_zip hp
  exact Valued.select (h.run p.2 hrun) (sized_resize (h.sized p.1 harg) hw) he.sized
    (fun hne => (h.active hp hne).resize hw) fun _ => he

theorem Operable.valued_combine (h : Operable σ args runs) (hw : widest args < wordLimit) (hm : ∀ f, m ≠ .custom f) :
    (m.combine args runs).Valued σ :=
  combine_induct (Valued.zero _) (fun _ hp _ he => h.valued_select hw hp he) (fun _ _ ha hb => ha.binary .add hb)
    (fun _ _ ha hb => ha.or hb) hm

/-- The combiner takes the operands, and what it makes of them has `w` bits and the value `v`. -/
def Makes (m : Combiner) (σ : Valuation) (args runs : List Expr) (w : Nat) (v : Word) : Prop :=
  ∃ e, m.combineChecked args runs = .ok e ∧ e.sized = true ∧ e.width = w ∧ e.evalChecked σ = .ok v

theorem combineChecked_sized (h : ∀ a ∈ args, a.sized = true) (m : Combiner) :
    m.combineChecked args runs = .ok (m.combine args runs) := by
  have hforM := forM_ensureSized h
  cases m <;> simp only [combineChecked, hforM] <;> rfl

theorem Operable.makes (h : Operable σ args runs) (hw : widest args ≤ maxWidth) {v : Word}
    (hv : combined (widest args) ((activeArgs σ args runs).map (Expr.eval σ)) m = some v) :
    m.Makes σ args runs (widest args) v := by
  rw [← h.passed_resized] at hv
  obtain ⟨hwidth, hvalue⟩ := combine_value hw m hv
  have hvalued := h.valued_combine (m := m) (lt_wordLimit hw) (by rintro f rfl; cases hv)
  refine ⟨_, combineChecked_sized h.sized m, hvalued.sized, hwidth, ?_⟩
  rw [hvalued.found, ← hvalued.value_eq, hvalue]

end Combiner

open Combiner

/-- Each stock combiner makes an expression of the width `w` of the widest argument, whose value is the sum modulo
`2 ^ w`, the OR, or the first of the arguments whose conditions are not zero, and zero if there are none. An argument
has up to 64 bits and a condition any number of them; an argument whose condition is zero needs no value. -/
theorem stock_combiners_exact {σ : Valuation} {args runs : List Expr} (hnarrow : ∀ a ∈ args, a.Narrow)
    (hfits : ∀ a ∈ args, a.fits = true) (hruns : ∀ r ∈ runs, ∃ v, r.evalChecked σ = .ok v)
    (hargs : ∀ a ∈ activeArgs σ args runs, ∃ v, a.evalChecked σ = .ok v) :
    let w := (args.map Expr.width).max?.getD 0
    let vs := (activeArgs σ args runs).map (Expr.eval σ)
    Makes .sum σ args runs w (UInt64.ofNat ((vs.map UInt64.toNat).sum % 2 ^ w)) ∧
      Makes .or σ args runs w (vs.foldl (· ||| ·) 0) ∧ Makes .lowestActive σ args runs w (vs.headD 0) ∧
      ((∀ r ∈ runs, r.eval σ = 0) →
        Makes .sum σ args runs w 0 ∧ Makes .or σ args runs w 0 ∧ Makes .lowestActive σ args runs w 0) := by
  intro w vs
  have hoperable : Operable σ args runs := by
    refine ⟨fun a ha => (hnarrow a ha).1, fun r hr => ?_, fun a ha => ?_⟩
    · obtain ⟨v, hv⟩ := hruns r hr
      exact Expr.evalChecked_eq hv
    · obtain ⟨v, hv⟩ := hargs a ha
      have hmem := mem_of_mem_activeArgs ha
      exact .of_fits (hnarrow a hmem).1 (hfits a hmem) hv
  have hw : w = widest args := (widest_eq args).symm
  have hmakes {m : Combiner} {v : Word} (hv : CallLogic.combined w vs m = some v) : Makes m σ args runs w v := by
    rw [hw] at hv ⊢
    exact hoperable.makes (widest_le fun a ha => (hnarrow a ha).2) hv
  refine ⟨hmakes rfl, hmakes rfl, hmakes rfl, fun hzero => ?_⟩
  have hnone : vs = [] := List.map_eq_nil_iff.2 (activeArgs_eq_nil hzero)
  rw [hnone] at hmakes
  refine ⟨hmakes ?_, hmakes rfl, hmakes rfl⟩
  rw [CallLogic.combined, List.map_nil, List.sum_nil, Nat.zero_mod]
  rfl

/-- Four arguments of 4, 1, 8 and 8 bits. The second has no value, for a reversed slice is in it. -/
def mixedArgs : List Expr :=
  [.signal 1 4, .binary .eq (.slice (.signal 0 8) 0 2) (.signal 1 4), .signal 0 8, .const 200 8]

/-- Conditions of 3, 1, 3 and 2 bits, one of them a constant. -/
def mixedRuns : List Expr := [.signal 2 3, .signal 3 1, .const 5 3, .slice (.signal 2 3) 2 1]

def mixedValues : Valuation := fun i => [100, 9, 4, 0].getD i 0

/-- The sum wraps around at the eight bits of the widest, and the first active argument is padded to them. -/
theorem stock_combiners_exact_of_mixed :
    (∀ a ∈ mixedArgs, a.Narrow) ∧ (∀ a ∈ mixedArgs, a.fits = true) ∧
      (∀ r ∈ mixedRuns, ∃ v, r.evalChecked mixedValues = .ok v) ∧
      (∀ a ∈ activeArgs mixedValues mixedArgs mixedRuns, ∃ v, a.evalChecked mixedValues = .ok v) ∧
      (∃ a ∈ mixedArgs, a.evalChecked mixedValues = .error .undefinedWidth) ∧
      Makes .sum mixedValues mixedArgs mixedRuns 8 53 ∧ Makes .or mixedValues mixedArgs mixedRuns 8 237 ∧
      Makes .lowestActive mixedValues mixedArgs mixedRuns 8 9 := by
  have hnarrow : ∀ a ∈ mixedArgs, a.Narrow := by decide +kernel
  have hfits : ∀ a ∈ mixedArgs, a.fits = true := by decide +kernel
  have hruns : ∀ r ∈ mixedRuns, r.evalChecked mixedValues = .ok (r.eval mixedValues) := by decide +kernel
  have hargs : ∀ a ∈ activeArgs mixedValues mixedArgs mixedRuns,
      a.evalChecked mixedValues = .ok (a.eval mixedValues) := by decide +kernel
  have hfault : ∃ a ∈ mixedArgs, a.evalChecked mixedValues = .error .undefinedWidth := by decide +kernel
  have hvalues : (activeArgs mixedValues mixedArgs mixedRuns).map (Expr.eval mixedValues) = [9, 100, 200] := by
    decide +kernel
  obtain ⟨hsum, hor, hfirst, -⟩ := stock_combiners_exact hnarrow hfits (fun r hr => ⟨_, hruns r hr⟩)
    (fun a ha => ⟨_, hargs a ha⟩)
  rw [hvalues] at hsum hor hfirst
  exact ⟨hnarrow, hfits, fun r hr => ⟨_, hruns r hr⟩, fun a ha => ⟨_, hargs a ha⟩, hfault, hsum, hor, hfirst⟩

end Interlock
