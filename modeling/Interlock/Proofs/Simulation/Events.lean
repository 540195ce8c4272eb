import Interlock.Simulation.Bench
import Mathlib.Data.List.Induction

/-! What a recorder is told. Replaying the changes that are recorded up to a cycle gives the last value of each signal
until then; what a bench reports when a recorder is attached gives every value, and what it reports at a clock edge
gives the values that the edge changes. -/

namespace Interlock

/-- A change that a recorder has been told of. -/
structure Event where
  cycle : Nat
  id : SignalId
  value : Word
deriving DecidableEq, Repr

/-- The value of the last change of the signal up to and with the cycle. -/
def replay (events : List Event) (cycle : Nat) (i : SignalId) : Option Word :=
  events.foldl (fun held e => if e.cycle ≤ cycle ∧ e.id = i then some e.value else held) none

/-- The changes of one cycle as events. -/
def eventsAt (cycle : Nat) (changes : List (SignalId × Word)) : List Event :=
  changes.map fun (id, v) => ⟨cycle, id, v⟩

variable {events events' : List Event} {cycle cycle' : Nat} {i : SignalId}

theorem replay_append (events events' : List Event) (cycle : Nat) (i : SignalId) :
    replay (events ++ events') cycle i = (replay events' cycle i).or (replay events cycle i) := by
  unfold replay
  rw [List.foldl_append]
  generalize List.foldl _ none events = held
  induction events' using List.reverseRecOn with
  | nil => rfl
  | append_singleton events' e ih =>
    simp only [List.foldl_append, List.foldl_cons, List.foldl_nil, ih]
    split <;> rfl

/-- Later changes make no difference. -/
theorem replay_later (h : ∀ e ∈ events', cycle < e.cycle) : replay (events ++ events') cycle i = replay events cycle i := by
  have hnone : replay events' cycle i = none := by
    induction events' using List.reverseRecOn with
    | nil => rfl
    | append_singleton events' e ih =>
      have he : ¬ (e.cycle ≤ cycle ∧ e.id = i) := fun he => absurd (h e (by simp)) (Nat.not_lt.2 he.1)
      unfold replay at ih ⊢
      rw [List.foldl_append, List.foldl_cons, List.foldl_nil, if_neg he]
      exact ih fun e he => h e (List.mem_append_left _ he)
  rw [replay_append, hnone, Option.none_or]

/-- Nor does it make one how long one waits after the last change. -/
theorem replay_wait (h : ∀ e ∈ events, e.cycle ≤ cycle) (hle : cycle ≤ cycle') :
    replay events cycle' i = replay events cycle i := by
  induction events using List.reverseRecOn with
  | nil => rfl
  | append_singleton events e ih =>
    have he := h e (by simp)
    have hiff : (e.cycle ≤ cycle' ∧ e.id = i) ↔ (e.cycle ≤ cycle ∧ e.id = i) := by
      constructor
      · exact fun h => ⟨he, h.2⟩
      · exact fun h => ⟨Nat.le_trans he hle, h.2⟩
    have ih := ih fun e he => h e (List.mem_append_left _ he)
    unfold replay at ih ⊢
    simp only [List.foldl_append, List.foldl_cons, List.foldl_nil, ih, hiff]

theorem replay_eventsAt_snoc (changes : List (SignalId × Word)) (cycle : Nat) (x : SignalId × Word) (i : SignalId) :
    replay (eventsAt cycle (changes ++ [x])) cycle i = if x.1 = i then some x.2 else replay (eventsAt cycle changes) cycle i := by
  simp only [replay, eventsAt, List.map_append, List.map_cons, List.map_nil, List.foldl_append, List.foldl_cons,
    List.foldl_nil, Nat.le_refl, true_and]

/-- All values, one after the other. -/
theorem replay_all (values : List Word) (cycle : Nat) (i : SignalId) :
    replay (eventsAt cycle (values.mapIdx fun i v => (i, v))) cycle i = values[i]? := by
  induction values using List.reverseRecOn with
  | nil => rfl
  | append_singleton values v ih =>
    rw [List.mapIdx_concat, replay_eventsAt_snoc, ih]
    show (if values.length = i then some v else values[i]?) = _
    by_cases hi : values.length = i
    · subst hi
      simp
    · rw [if_neg hi]
      rcases Nat.lt_or_gt_of_ne (Ne.symm hi) with hlt | hgt
      · rw [List.getElem?_append_left hlt]
      · rw [List.getElem?_eq_none (Nat.le_of_lt hgt), List.getElem?_eq_none]
        rw [List.length_append, List.length_singleton]
        exact hgt

/-- Of the changes between two states those of a signal are told exactly if it has another value than before. -/
theorem replay_changes (k : Kernel) (before : Values) (cycle : Nat) (hi : i < k.values.size) :
    replay (eventsAt cycle (k.changes before)) cycle i =
      if before.valuation i ≠ k.values.valuation i then some (k.values.valuation i) else none := by
  have hupto : ∀ m, replay (eventsAt cycle ((List.range m).filterMap fun i =>
        if before.getD i 0 ≠ k.values.getD i 0 then some (i, k.values.getD i 0) else none)) cycle i =
      if i < m ∧ before.valuation i ≠ k.values.valuation i then some (k.values.valuation i) else none := by
    intro m
    induction m with
    | zero => simp [replay, eventsAt]
    | succ m ih =>
      have hlt : m ≠ i → (i < m + 1 ↔ i < m) := fun hne => by
        rw [Nat.lt_succ_iff_lt_or_eq, or_iff_left (Ne.symm hne)]
      rw [List.range_succ, List.filterMap_append]
      by_cases hm : before.getD m 0 ≠ k.values.getD m 0
      · rw [List.filterMap_cons_some (by rw [if_pos hm]), List.filterMap_nil, replay_eventsAt_snoc, ih]
        by_cases him : m = i
        · subst him
          rw [if_pos rfl, if_pos ⟨Nat.lt_succ_self _, hm⟩]
          rfl
        · rw [if_neg him]
          simp only [hlt him]
      · rw [List.filterMap_cons_none (by rw [if_neg hm]), List.filterMap_nil, List.append_nil, ih]
        by_cases him : m = i
        · subst him
          rw [if_neg (fun h => hm h.2), if_neg (fun h => hm h.2)]
        · simp only [hlt him]
  rw [Kernel.changes, hupto]
  simp only [hi, true_and]

namespace Recorder

variable {ρ σ : Type} [Recorder ρ σ]

/-- A recorder whose calls succeed while it is in good order, and that keeps a log of the changes it is told of. -/
structure Logs (good : ρ → σ → Prop) (log : ρ → σ → List Event) : Prop where
  register : ∀ id name width r out, good r out → ∃ r' out',
    register id name width r out = ⟨r', out', none⟩ ∧ good r' out' ∧ log r' out' = log r out
  change : ∀ cycle id v r out, good r out → ∃ r' out',
    change cycle id v r out = ⟨r', out', none⟩ ∧ good r' out' ∧ log r' out' = log r out ++ [⟨cycle, id, v⟩]

variable {good : ρ → σ → Prop} {log : ρ → σ → List Event}

theorem Logs.report (h : Logs good log) (cycle : Nat) (changes : List (SignalId × Word)) : ∀ (r : ρ) (out : σ), good r out →
    ∃ r' out', Bench.report cycle changes r out = ⟨r', out', none⟩ ∧ good r' out' ∧
      log r' out' = log r out ++ eventsAt cycle changes := by
  induction changes with
  | nil => exact fun r out hr => ⟨r, out, rfl, hr, (List.append_nil _).symm⟩
  | cons x changes ih =>
    intro r out hr
    obtain ⟨id, v⟩ := x
    obtain ⟨r₁, out₁, hcall, hr₁, hlog₁⟩ := h.change cycle id v r out hr
    obtain ⟨r₂, out₂, hrest, hr₂, hlog₂⟩ := ih r₁ out₁ hr₁
    refine ⟨r₂, out₂, ?_, hr₂, ?_⟩
    · rw [Bench.report, hcall]
      exact hrest
    · rw [hlog₂, hlog₁, List.append_assoc]
      rfl

theorem Logs.introduce (h : Logs good log) (signals : List Signal) : ∀ (r : ρ) (out : σ), good r out →
    ∃ r' out', Bench.introduce signals r out = ⟨r', out', none⟩ ∧ good r' out' ∧ log r' out' = log r out := by
  induction signals with
  | nil => exact fun r out hr => ⟨r, out, rfl, hr, rfl⟩
  | cons s signals ih =>
    intro r out hr
    obtain ⟨r₁, out₁, hcall, hr₁, hlog₁⟩ := h.register s.id s.name s.width r out hr
    obtain ⟨r₂, out₂, hrest, hr₂, hlog₂⟩ := ih r₁ out₁ hr₁
    refine ⟨r₂, out₂, ?_, hr₂, hlog₂.trans hlog₁⟩
    rw [Bench.introduce, hcall]
    exact hrest

/-- A recorder that is attached is told of all values. -/
theorem Logs.attach (h : Logs good log) (b : Bench ρ σ) {r : ρ} (hr : good r b.outlet) :
    ∃ r' out', b.attach r = (⟨b.kernel, some r', out'⟩, none) ∧ good r' out' ∧
      log r' out' = log r b.outlet ++ eventsAt b.kernel.cycle (b.kernel.values.toList.mapIdx fun i v => (i, v)) := by
  obtain ⟨r₁, out₁, hintroduce, hr₁, hlog₁⟩ := h.introduce b.kernel.netlist.signals.toList r b.outlet hr
  obtain ⟨r₂, out₂, hreport, hr₂, hlog₂⟩ :=
    h.report b.kernel.cycle (b.kernel.values.toList.mapIdx fun i v => (i, v)) r₁ out₁ hr₁
  refine ⟨r₂, out₂, ?_, hr₂, hlog₂.trans (by rw [hlog₁])⟩
  have hgreet : Bench.greet b.kernel r b.outlet = ⟨r₂, out₂, none⟩ := by
    rw [Bench.greet, hintroduce]
    exact hreport
  rw [Bench.attach, hgreet]

end Recorder

end Interlock
