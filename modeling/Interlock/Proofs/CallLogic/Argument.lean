import Interlock.Proofs.CallLogic
import Interlock.Proofs.Expr.Value
import Mathlib.Algebra.GroupWithZero.Nat

/-! The argument that a method gets, by the arguments of its active calls. An exclusive method gets the
argument of the only one; for a nonexclusive method the stock combiners add the active arguments up, join
their bits, or take the first. -/

namespace Interlock

namespace Combiner

variable {args : List Expr}

theorem widest_eq (args : List Expr) : widest args = (args.map Expr.width).max?.getD 0 := by
  rw [widest, List.foldl_max, Nat.zero_max]

theorem width_le_widest {a : Expr} (h : a ∈ args) : a.width ≤ widest args := by
  rw [widest_eq]
  exact List.le_max?_getD_of_mem (List.mem_map_of_mem h)

theorem widest_le {w : Nat} (h : ∀ a ∈ args, a.width ≤ w) : widest args ≤ w := by
  refine List.foldlRecOn (motive := (· ≤ w)) _ _ (Nat.zero_le w) fun v hv u hu => ?_
  obtain ⟨a, ha, rfl⟩ := List.mem_map.1 hu
  exact Nat.max_le.2 ⟨hv, h a ha⟩

end Combiner

namespace CallLogic

open Combiner

variable {σ : Valuation} {calls : List ActiveCall} {c : ActiveCall} {w : Nat} {info : MethodInfo} {e : Expr}

/-- The arguments of the active calls, in the order of the calls. -/
def passed (σ : Valuation) (calls : List ActiveCall) : List Word :=
  (calls.filter fun c => c.active.eval σ ≠ 0).map fun c => c.arg.value σ

theorem passed_cons (c : ActiveCall) (calls : List ActiveCall) :
    passed σ (c :: calls) = if c.active.eval σ ≠ 0 then c.arg.value σ :: passed σ calls else passed σ calls := by
  unfold passed
  rw [List.filter_cons]
  by_cases h : c.active.eval σ ≠ 0
  · rw [if_pos (by simpa using h), if_pos h, List.map_cons]
  · rw [if_neg (by simpa using h), if_neg h]

/-- All arguments have this width. -/
def AllOfWidth (w : Nat) (calls : List ActiveCall) : Prop := ∀ c ∈ calls, c.arg.width = w

theorem AllOfWidth.head (h : AllOfWidth w (c :: calls)) : c.arg.width = w := h c (List.mem_cons_self ..)

theorem AllOfWidth.tail (h : AllOfWidth w (c :: calls)) : AllOfWidth w calls :=
  fun x hx => h x (List.mem_cons_of_mem _ hx)

/-! ### Terms -/

/-- The argument of a call where it is active, else zero. -/
def term (w : Nat) (c : ActiveCall) : Expr := .select c.active c.arg (.zero w)

theorem width_term (h : c.arg.width = w) : (term w c).width = w :=
  Expr.width_select h c.active

theorem value_term (h : c.arg.width = w) :
    (term w c).value σ = if c.active.eval σ ≠ 0 then c.arg.value σ else 0 := by
  rw [term, Expr.value_select h, Expr.value_zero]

theorem width_terms (h : AllOfWidth w calls) : ∀ t ∈ calls.map (term w), t.width = w := by
  intro t ht
  obtain ⟨c, hc, rfl⟩ := List.mem_map.1 ht
  exact width_term (h c hc)

/-- The calls with these arguments and conditions, all arguments resized. -/
def resized (w : Nat) (args runs : List Expr) : List ActiveCall :=
  List.zipWith (fun arg run => ⟨run, arg.resize w⟩) args runs

theorem allOfWidth_resized (w : Nat) (args runs : List Expr) : AllOfWidth w (resized w args runs) := by
  intro c hc
  rw [resized, ← List.map_uncurry_zip_eq_zipWith] at hc
  obtain ⟨⟨arg, run⟩, -, rfl⟩ := List.mem_map.1 hc
  exact Expr.width_resize arg w

/-- Arguments that have this width already are left as they are. -/
theorem resized_calls (h : AllOfWidth w calls) : resized w (calls.map (·.arg)) (calls.map (·.active)) = calls := by
  induction calls with
  | nil => rfl
  | cons c cs ih =>
    rw [List.map_cons, List.map_cons, resized, List.zipWith_cons_cons, Expr.resize_of_width h.head, ← resized,
      ih h.tail]

theorem terms_eq (w : Nat) (args runs : List Expr) : terms w args runs = (resized w args runs).map (term w) := by
  rw [resized, List.map_zipWith]
  rfl

theorem widest_calls (h : AllOfWidth w calls) (hne : calls ≠ []) : widest (calls.map (·.arg)) = w := by
  obtain ⟨c, hc⟩ := List.exists_mem_of_ne_nil calls hne
  refine Nat.le_antisymm (widest_le fun a ha => ?_) ?_
  · obtain ⟨c, hc, rfl⟩ := List.mem_map.1 ha
    exact Nat.le_of_eq (h c hc)
  · exact h c hc ▸ width_le_widest (List.mem_map_of_mem hc)

/-! ### The OR of terms -/

theorem foldl_or_value {ts : List Expr} :
    ∀ {acc : Expr}, (∀ t ∈ ts, t.width = w) → acc.width = w →
      (ts.foldl Expr.or acc).width = w ∧
        (ts.foldl Expr.or acc).value σ = ts.foldl (fun v t => v ||| t.value σ) (acc.value σ) := by
  induction ts with
  | nil => exact fun _ hacc => ⟨hacc, rfl⟩
  | cons t ts ih =>
    intro acc hts hacc
    have ht := hts t (List.mem_cons_self ..)
    have hor : (acc.or t).width = w := by rw [Expr.width_or, hacc, ht, Nat.max_self]
    obtain ⟨hwidth, hvalue⟩ := ih (fun x hx => hts x (List.mem_cons_of_mem _ hx)) hor
    refine ⟨hwidth, ?_⟩
    rw [List.foldl_cons, hvalue, Expr.value_or (hacc.trans ht.symm), List.foldl_cons]

/-- Terms of calls that are not active add no bits. -/
theorem foldl_or_terms (h : AllOfWidth w calls) (v : Word) :
    (calls.map (term w)).foldl (fun v t => v ||| t.value σ) v = (passed σ calls).foldl (· ||| ·) v := by
  induction calls generalizing v with
  | nil => rfl
  | cons c cs ih =>
    rw [List.map_cons, List.foldl_cons, ih h.tail, value_term h.head, passed_cons]
    split
    · rfl
    · rw [UInt64.or_zero]

theorem value_mergeActive (h : AllOfWidth w calls) :
    (mergeActive w calls).width = w ∧ (mergeActive w calls).value σ = (passed σ calls).foldl (· ||| ·) 0 := by
  have hfold : mergeActive w calls = (calls.map (term w)).foldl Expr.or (.zero w) := by
    rw [List.foldl_map]
    rfl
  obtain ⟨hwidth, hvalue⟩ := foldl_or_value (σ := σ) (width_terms h) (Expr.width_zero w)
  rw [hfold, hvalue, foldl_or_terms h, Expr.value_zero]
  exact ⟨hwidth, rfl⟩

/-! ### The sum of terms -/

theorem foldl_add_value (hw : w ≤ 64) {ts : List Expr} :
    ∀ {acc : Expr}, (∀ t ∈ ts, t.width = w) → acc.width = w →
      (ts.foldl Expr.add acc).width = w ∧
        ((ts.foldl Expr.add acc).value σ).toNat =
          ((acc.value σ).toNat + (ts.map fun t => (t.value σ).toNat).sum) % 2 ^ w := by
  induction ts with
  | nil =>
    intro acc _ hacc
    refine ⟨hacc, ?_⟩
    rw [List.foldl_nil, List.map_nil, List.sum_nil, Nat.add_zero, Nat.mod_eq_of_lt]
    exact hacc ▸ acc.value_lt
  | cons t ts ih =>
    intro acc hts hacc
    have ht := hts t (List.mem_cons_self ..)
    have hadd : (acc.add t).width = w := by rw [Expr.width_add, hacc, ht, Nat.max_self]
    obtain ⟨hwidth, hvalue⟩ := ih (fun x hx => hts x (List.mem_cons_of_mem _ hx)) hadd
    refine ⟨hwidth, ?_⟩
    rw [List.foldl_cons, hvalue, Expr.toNat_value_add hacc ht hw, Nat.mod_add_mod, List.map_cons, List.sum_cons,
      Nat.add_assoc]

theorem sum_terms (h : AllOfWidth w calls) :
    ((calls.map (term w)).map fun t => (t.value σ).toNat).sum = ((passed σ calls).map UInt64.toNat).sum := by
  induction calls with
  | nil => rfl
  | cons c cs ih =>
    rw [List.map_cons, List.map_cons, List.sum_cons, ih h.tail, value_term h.head, passed_cons]
    split
    · rw [List.map_cons, List.sum_cons]
    · exact Nat.zero_add _

/-! ### Stock combiners -/

/-- What a stock combiner makes of arguments of `w` bits. -/
def combined (w : Nat) (vs : List Word) : Combiner → Option Word
  | .lowestActive => some (vs.headD 0)
  | .sum => some (UInt64.ofNat ((vs.map UInt64.toNat).sum % 2 ^ w))
  | .or => some (vs.foldl (· ||| ·) 0)
  | .custom _ => none

/-- The argument of the first active call. -/
def firstActive (w : Nat) (calls : List ActiveCall) : Expr :=
  calls.foldr (fun c acc => .select c.active c.arg acc) (.zero w)

theorem lowestActiveOf_eq (args runs : List Expr) :
    lowestActiveOf args runs = firstActive (widest args) (resized (widest args) args runs) := by
  rw [firstActive, resized, ← List.map_uncurry_zip_eq_zipWith, List.foldr_map]
  rfl

theorem firstActive_value (h : AllOfWidth w calls) :
    (firstActive w calls).width = w ∧ (firstActive w calls).value σ = (passed σ calls).headD 0 := by
  induction calls with
  | nil => exact ⟨rfl, Expr.value_zero w⟩
  | cons c cs ih =>
    obtain ⟨hwidth, hvalue⟩ := ih h.tail
    have hsame := h.head.trans hwidth.symm
    rw [firstActive, List.foldr_cons, ← firstActive, Expr.width_select hsame, Expr.value_select hsame, hvalue,
      passed_cons]
    refine ⟨hwidth, ?_⟩
    split <;> rfl

theorem combineChecked_ok {m : Combiner} {args runs : List Expr} (h : m.combineChecked args runs = .ok e) :
    e = m.combine args runs := by
  unfold combineChecked at h
  cases m <;>
  · simp only [except_bind_ok, except_pure_ok] at h
    obtain ⟨_, _, rfl⟩ := h
    rfl

/-- Without a call there is no argument to take a width from. -/
theorem combine_nil (m : Combiner) {v : Word} (h : combined w [] m = some v) :
    m.combine [] [] = .zero 0 ∧ v = 0 := by
  cases m with
  | lowestActive => exact ⟨rfl, (Option.some.inj h).symm⟩
  | sum => exact ⟨rfl, by simpa [combined] using h.symm⟩
  | or => exact ⟨rfl, (Option.some.inj h).symm⟩
  | custom f => exact nomatch h

/-- Operands of any widths are combined at the width of the widest argument. -/
theorem combine_value {args runs : List Expr} (hw : widest args ≤ 64) (m : Combiner) {v : Word}
    (hv : combined (widest args) (passed σ (resized (widest args) args runs)) m = some v) :
    (m.combine args runs).width = widest args ∧ (m.combine args runs).value σ = v := by
  have hall := allOfWidth_resized (widest args) args runs
  cases m with
  | lowestActive =>
    obtain rfl := Option.some.inj hv
    rw [combine, lowestActiveOf_eq]
    exact firstActive_value hall
  | sum =>
    obtain rfl := Option.some.inj hv
    simp only [combine, sumOf, terms_eq]
    clear hv
    generalize resized (widest args) args runs = calls at hall ⊢
    have hterms := width_terms hall
    have hsum := sum_terms (σ := σ) hall
    rcases calls with _ | ⟨c, cs⟩
    · rw [show passed σ [] = [] from rfl, List.map_nil, List.map_nil, List.sum_nil, Nat.zero_mod]
      exact ⟨rfl, Expr.value_zero _⟩
    · rw [List.map_cons] at hterms hsum ⊢
      obtain ⟨hwidth, hvalue⟩ := foldl_add_value (σ := σ) hw (fun t ht => hterms t (List.mem_cons_of_mem _ ht))
        (hterms _ (List.mem_cons_self ..))
      refine ⟨hwidth, UInt64.toNat_inj.1 ?_⟩
      have hlt : ((passed σ (c :: cs)).map UInt64.toNat).sum % 2 ^ widest args < 2 ^ 64 :=
        Nat.lt_of_lt_of_le (Nat.mod_lt _ (Nat.two_pow_pos _)) (Nat.pow_le_pow_right (by decide) hw)
      rw [hvalue, UInt64.toNat_ofNat', Nat.mod_eq_of_lt hlt, ← hsum, List.map_cons, List.sum_cons]
  | or =>
    obtain rfl := Option.some.inj hv
    simp only [combine, orOf, terms_eq]
    obtain ⟨hwidth, hvalue⟩ := foldl_or_value (σ := σ) (width_terms hall) (Expr.width_zero (widest args))
    rw [hvalue, foldl_or_terms hall, Expr.value_zero]
    exact ⟨hwidth, rfl⟩
  | custom f => exact nomatch hv

theorem combine_calls (hw : w ≤ 64) (h : AllOfWidth w calls) (hne : calls ≠ []) (m : Combiner) {v : Word}
    (hv : combined w (passed σ calls) m = some v) :
    (m.combine (calls.map (·.arg)) (calls.map (·.active))).width = w ∧
      (m.combine (calls.map (·.arg)) (calls.map (·.active))).value σ = v := by
  have hwidest := widest_calls h hne
  have hresized : resized (widest (calls.map (·.arg))) (calls.map (·.arg)) (calls.map (·.active)) = calls := by
    rw [hwidest, resized_calls h]
  obtain ⟨hwidth, hvalue⟩ := combine_value (hwidest.symm ▸ hw) m (by rw [hresized, hwidest]; exact hv)
  exact ⟨hwidth.trans hwidest, hvalue⟩

/-! ### Arguments -/

/-- An exclusive method with a single active call gets its argument. -/
theorem argument_exclusive (hexcl : info.nonexclusive = false) (h : argument info calls = .ok e)
    (hw : AllOfWidth info.input.width calls) {v : Word} (hv : passed σ calls = [v]) :
    (e.resize info.input.width).value σ = v := by
  unfold argument at h
  rw [hexcl, if_neg Bool.false_ne_true] at h
  split at h
  · rename_i c
    obtain rfl := Except.ok.inj h
    rw [Expr.resize_of_width hw.head]
    rw [passed_cons] at hv
    split at hv
    · exact (List.cons.inj hv).1
    · exact nomatch hv
  · obtain rfl := Except.ok.inj h
    obtain ⟨hwidth, hvalue⟩ := value_mergeActive (σ := σ) hw
    rw [Expr.resize_of_width hwidth, hvalue, hv]
    exact UInt64.zero_or

/-- A nonexclusive method gets what its combiner makes of the active arguments. -/
theorem argument_combined (hnon : info.nonexclusive = true) (h : argument info calls = .ok e)
    (hw : AllOfWidth info.input.width calls) (hle : info.input.width ≤ 64) {m : Combiner}
    (hm : info.combiner = some m) {v : Word} (hv : combined info.input.width (passed σ calls) m = some v) :
    (e.resize info.input.width).value σ = v := by
  have he : e = (m.combine (calls.map (·.arg)) (calls.map (·.active))).resize info.input.width := by
    simp only [argument, hnon, if_true, hm, Option.getD_some, Expr.Checked.resize, except_bind_ok,
      except_pure_ok] at h
    obtain ⟨merged, hmerged, _, _, rfl⟩ := h
    rw [combineChecked_ok hmerged]
  rw [Expr.resize_of_width (by rw [he, Expr.width_resize]), he]
  rcases calls.eq_nil_or_concat with rfl | ⟨_, _, rfl⟩
  · obtain ⟨hzero, rfl⟩ := combine_nil m hv
    rw [List.map_nil, List.map_nil, hzero, Expr.value_resize_zero]
  · obtain ⟨hwidth, hvalue⟩ := combine_calls hle hw (by simp) m hv
    rw [Expr.resize_of_width hwidth, hvalue]

end CallLogic

end Interlock
