import Interlock.Proofs.Reach.Ways

/-! The condition under which a transaction may call what it reaches. On each way to a method the arguments
of the callers in between stand for their buses; the condition of the entry holds exactly where, on all ways
to the method, it is ready and the calls at the end of the way pass arguments that its validator accepts. -/

namespace Interlock

namespace Design

/-- However often a body lists a method that it calls, it lists the same calls of it. -/
def Uniform (d : Design) : Prop := ∀ c m sites, (m, sites) ∈ (d.node c).calls → (d.node c).sitesTo m = sites

end Design

namespace CallMap

variable {d : Design} {map map' : CallMap} {t m : NodeId} {callers : List NodeId} {σ : Valuation}

/-- What the argument buses of the callers on a way from `t` stand for. -/
def bindingsOn (d : Design) (t : NodeId) : List NodeId → Bindings
  | [] => []
  | c :: callers =>
    match (d.node c).method? with
    | some info =>
      bindArgument info (((d.node (callers.headD t)).sitesTo c).map (effective (bindingsOn d t callers)))
        (bindingsOn d t callers)
    | none => bindingsOn d t callers

/-- The enables and arguments of the calls of `m` at the end of a way from `t`, in terms of the side of `t`. -/
def callsOn (d : Design) (t : NodeId) (callers : List NodeId) (m : NodeId) : List (Expr × Expr) :=
  ((d.node (callers.headD t)).sitesTo m).map (effective (bindingsOn d t callers))

theorem bindingsOn_cons {c : NodeId} {info : MethodInfo} (h : (d.node c).method? = some info) :
    bindingsOn d t (c :: callers) = bindArgument info (callsOn d t callers c) (bindingsOn d t callers) := by
  rw [bindingsOn, h]
  rfl

/-- What the walk asks of a method where a way comes to it. -/
def Condition (d : Design) (t : NodeId) (callers : List NodeId) (m : NodeId) (e : Expr) : Prop :=
  ∃ info, (d.node m).method? = some info ∧
    readiness (d.read info.ready) info.validator (callsOn d t callers m) = .ok e

theorem Condition.unique {e e' : Expr} (h : Condition d t callers m e) (h' : Condition d t callers m e') :
    e = e' := by
  obtain ⟨info, hinfo, he⟩ := h
  obtain ⟨info', hinfo', he'⟩ := h'
  obtain rfl : info = info' := Option.some.inj (hinfo.symm.trans hinfo')
  exact Except.ok.inj (he.symm.trans he')

/-- Readiness holds where the method is ready and the calls that are made are accepted. -/
theorem readiness_iff {ready : Expr} {validator : Option Validator} {calls : List (Expr × Expr)} {e : Expr}
    (h : readiness ready validator calls = .ok e) (hw : ∀ call ∈ calls, call.1.width = 1) :
    e.truth σ = true ↔ ready.truth σ = true ∧ ∀ v, validator = some v → ∀ call ∈ calls,
      call.1.truth σ = true → ∃ check, v.validate call.2 = .ok check ∧ check.truth σ = true := by
  unfold readiness at h
  cases validator with
  | none =>
    obtain rfl : ready = e := by simpa using h
    exact ⟨fun h => ⟨h, fun _ hv => nomatch hv⟩, fun h => h.1⟩
  | some v =>
    simp only at h
    induction calls generalizing ready with
    | nil =>
      obtain rfl := except_pure_ok.1 h
      exact ⟨fun h => ⟨h, fun _ _ _ hc => nomatch hc⟩, fun h => h.1⟩
    | cons c cs ih =>
      simp only [List.foldlM_cons, except_bind_ok, except_pure_ok] at h
      obtain ⟨_, ⟨check, hcheck, rfl⟩, h⟩ := h
      have hc : 0 < c.1.width := by
        rw [hw c (List.mem_cons_self ..)]
        exact Nat.one_pos
      rw [ih (fun x hx => hw x (List.mem_cons_of_mem _ hx)) h, Expr.truth_and, Bool.and_eq_true, Expr.truth_or,
        Expr.truth_not hc]
      constructor
      · rintro ⟨⟨hready, hhead⟩, hrest⟩
        refine ⟨hready, fun v' hv call hcall hen => ?_⟩
        rcases List.mem_cons.1 hcall with rfl | hcall
        · obtain rfl := Option.some.inj hv
          rw [hen, Bool.not_true, Bool.false_or] at hhead
          exact ⟨check, hcheck, hhead⟩
        · exact hrest v' hv call hcall hen
      · rintro ⟨hready, hall⟩
        refine ⟨⟨hready, ?_⟩, fun v' hv call hcall => hall v' hv call (List.mem_cons_of_mem _ hcall)⟩
        cases hen : c.1.truth σ with
        | false => rfl
        | true =>
          obtain ⟨check', hcheck', htrue⟩ := hall v rfl c (List.mem_cons_self ..) hen
          obtain rfl : check = check' := Except.ok.inj (hcheck.symm.trans hcheck')
          rw [htrue, Bool.or_true]

/-- An entry asks no more than what the ways to its method ask. -/
def Enough (d : Design) (r : Reach) : Prop :=
  ∀ σ, (∀ callers e, d.Way r.transaction callers r.method → Condition d r.transaction callers r.method e →
    e.truth σ = true) → r.readiness.truth σ = true

/-- Entries come to ask more, and still no more than what the ways ask. -/
def Sharpens (d : Design) (map map' : CallMap) : Prop :=
  (∀ t m r, map.find? t m = some r →
    ∃ r', map'.find? t m = some r' ∧ ∀ σ, r'.readiness.truth σ = true → r.readiness.truth σ = true) ∧
  ((∀ x ∈ map.reaches, Enough d x) → ∀ x ∈ map'.reaches, Enough d x)

theorem Sharpens.refl (map : CallMap) : Sharpens d map map := ⟨fun _ _ r hr => ⟨r, hr, fun _ h => h⟩, fun h => h⟩

theorem Sharpens.trans {m₁ m₂ m₃ : CallMap} (h : Sharpens d m₁ m₂) (h' : Sharpens d m₂ m₃) :
    Sharpens d m₁ m₃ := by
  refine ⟨fun t m r hr => ?_, fun hall => h'.2 (h.2 hall)⟩
  obtain ⟨r₂, hr₂, himp⟩ := h.1 t m r hr
  obtain ⟨r₃, hr₃, himp'⟩ := h'.1 t m r₂ hr₂
  exact ⟨r₃, hr₃, fun σ hσ => himp σ (himp' σ hσ)⟩

/-- The entry of a method asks for the condition of a way. -/
def Asks (d : Design) (t : NodeId) (callers : List NodeId) (m : NodeId) (map : CallMap) : Prop :=
  ∃ r e, map.find? t m = some r ∧ Condition d t callers m e ∧
    ∀ σ, r.readiness.truth σ = true → e.truth σ = true

theorem Asks.mono (h : Asks d t callers m map) (hs : Sharpens d map map') : Asks d t callers m map' := by
  obtain ⟨r, e, hr, he, himp⟩ := h
  obtain ⟨r', hr', himp'⟩ := hs.1 t m r hr
  exact ⟨r', e, hr', he, fun σ hσ => himp σ (himp' σ hσ)⟩

theorem narrowed_truth {r x : Reach} (h : (narrowed r x).readiness.truth σ = true) : x.readiness.truth σ = true := by
  unfold narrowed at h
  split at h
  · rw [Expr.truth_and, Bool.and_eq_true] at h
    exact h.1
  · exact h

theorem narrowed_enough {r x : Reach} (hr : Enough d r) (hx : Enough d x) : Enough d (narrowed r x) := by
  unfold narrowed
  split
  · rename_i hsame
    intro σ hall
    rw [Expr.truth_and, hx σ hall, Bool.true_and]
    exact hr σ (hsame.1 ▸ hsame.2 ▸ hall)
  · exact hx

theorem add_sharpens {condition : Expr} (h : map.add d ⟨t, m, callers, condition⟩ = .ok map')
    (hway : d.Way t callers m) (hc : Condition d t callers m condition) :
    Sharpens d map map' ∧ Asks d t callers m map' := by
  have henough : Enough d ⟨t, m, callers, condition⟩ := fun σ hall => hall callers condition hway hc
  refine ⟨⟨fun t' m' x hx => ?_, forall_mem_add h henough fun _ => narrowed_enough henough⟩, _, condition,
    find?_add_self h, hc, fun σ hσ => ?_⟩
  · rw [find?_add h, hx]
    split
    · exact ⟨_, rfl, fun _ => narrowed_truth⟩
    · exact ⟨x, rfl, fun _ h => h⟩
  · -- The entry is new, or the condition has been added to it.
    cases hfind : map.find? t m with
    | none => simpa only [hfind, Option.map_none, Option.getD_none] using hσ
    | some prev =>
      simp only [hfind, Option.map_some, Option.getD_some] at hσ
      rw [narrowed, if_pos (find?_key hfind), Expr.truth_and, Bool.and_eq_true] at hσ
      exact hσ.2

theorem walks_conditions (hu : d.Uniform) (t : NodeId) :
    Walks d t (fun callers env => env = bindingsOn d t callers) (Sharpens d) (Asks d t) := by
  refine ⟨Sharpens.refl, fun _ _ _ => Sharpens.trans, fun _ _ _ _ hs ha => ha.mono hs,
    fun callers env m sites info henv hc hinfo => ?_,
    fun callers env m sites info condition map map' henv hc hinfo hway _ hcondition hadd => ?_⟩
  · rw [bindingsOn_cons hinfo, callsOn, hu _ _ _ hc, henv]
  · refine add_sharpens hadd hway ⟨info, hinfo, ?_⟩
    rw [callsOn, hu _ _ _ hc, ← henv]
    exact hcondition

/-- What the conditions in a call map say of a design. -/
structure Tells (map : CallMap) (d : Design) : Prop where
  asks : ∀ t ∈ d.transactions, ∀ callers m, d.Way t callers m → Asks d t callers m map
  enough : ∀ r ∈ map.reaches, Enough d r

theorem build_tells (hu : d.Uniform) (h : Attempt.Gives (build d) map) : map.Tells d := by
  obtain ⟨hsharp, hasks⟩ := build_walk (E := fun t callers env => env = bindingsOn d t callers)
    (Q := fun t callers m map => Asks d t callers m map) Sharpens.refl (fun _ _ _ => Sharpens.trans)
    (fun t _ => walks_conditions hu t) (fun _ _ _ _ _ hs ha => ha.mono hs) (fun _ => rfl) h
  exact ⟨hasks, hsharp.2 fun x hx => nomatch hx⟩

/-- All conditions of a transaction hold where those of all its ways do. -/
theorem Tells.conditions (h : map.Tells d) (ht : t ∈ d.transactions) :
    (map.conditionsOf t).all (Expr.truth σ) = true ↔
      ∀ callers m, d.Way t callers m → ∃ e, Condition d t callers m e ∧ e.truth σ = true := by
  rw [List.all_eq_true]
  constructor
  · intro hall callers m hway
    obtain ⟨r, e, hr, he, himp⟩ := h.asks t ht callers m hway
    refine ⟨e, he, himp σ (hall _ (List.mem_map_of_mem (List.mem_filter.2 ⟨List.mem_of_find?_eq_some hr, ?_⟩)))⟩
    rw [(find?_key hr).1, beq_self_eq_true]
  · intro hall x hx
    obtain ⟨r, hr, rfl⟩ := List.mem_map.1 hx
    obtain ⟨hmem, hrt⟩ := List.mem_filter.1 hr
    obtain rfl : r.transaction = t := by simpa using hrt
    refine h.enough r hmem σ fun callers e hway he => ?_
    obtain ⟨e', he', htrue⟩ := hall callers r.method hway
    rwa [he.unique he']

end CallMap

end Interlock
