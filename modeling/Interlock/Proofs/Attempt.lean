import Interlock.Fault
import Mathlib.Data.List.Forall2

/-! When a step gives a result, and which errors and faults it can end with. A sequence of steps gives a result
exactly where all its steps do, so a successful run can be taken apart into the results of its parts; and it ends
with an error or a fault of one of its steps. -/

namespace Interlock

variable {ε ε' α β : Type}

theorem except_bind_ok {x : Except ε α} {f : α → Except ε β} {b : β} :
    x >>= f = .ok b ↔ ∃ a, x = .ok a ∧ f a = .ok b := by
  cases x <;> simp [bind, Except.bind]

theorem except_pure_ok {a b : α} : (pure a : Except ε α) = .ok b ↔ a = b := by
  simp [pure, Except.pure]

theorem except_guard_ok {c : Prop} [Decidable c] {e : ε} {f : α → Except ε β} {x : Except ε β} {b : β} :
    (if c then throw e >>= f else x) = .ok b ↔ ¬ c ∧ x = .ok b := by
  split
  · simp [*, throw, throwThe, MonadExceptOf.throw, bind, Except.bind]
  · simp [*]

/-- Folds whose steps agree on the items of the list agree. -/
theorem foldlM_congr {m : Type → Type} [Monad m] {f g : β → α → m β} {l : List α}
    (h : ∀ x ∈ l, ∀ b, f b x = g b x) (b : β) : l.foldlM f b = l.foldlM g b := by
  induction l generalizing b with
  | nil => rfl
  | cons x xs ih =>
    rw [List.foldlM_cons, List.foldlM_cons, h x (List.mem_cons_self ..)]
    exact bind_congr fun c => ih (fun y hy => h y (List.mem_cons_of_mem _ hy)) c

/-- What every step of a fold keeps holds at the end. -/
theorem except_foldlM_ok {P : β → Prop} {f : β → α → Except ε β} {l : List α}
    (step : ∀ x ∈ l, ∀ b b', P b → f b x = .ok b' → P b') {b b' : β} (hb : P b) (h : l.foldlM f b = .ok b') :
    P b' := by
  induction l generalizing b with
  | nil => exact except_pure_ok.1 h ▸ hb
  | cons x xs ih =>
    rw [List.foldlM_cons, except_bind_ok] at h
    obtain ⟨c, hc, h⟩ := h
    exact ih (fun y hy => step y (List.mem_cons_of_mem _ hy)) (step x (List.mem_cons_self ..) b c hb hc) h

/-- What every step of a fold keeps, and what each item's own step brings about, holds at the end. Here `G x b` says
that the step `x` can have the result `b`. -/
theorem foldlM_each {m : Type → Type} [Monad m] {G : m β → β → Prop} (hpure : ∀ {b b'}, G (pure b) b' → b = b')
    (hbind : ∀ {x : m β} {f : β → m β} {b}, G (x >>= f) b → ∃ c, G x c ∧ G (f c) b) {R : β → β → Prop}
    {Q : α → β → Prop} (refl : ∀ b, R b b) (trans : ∀ a b c, R a b → R b c → R a c)
    (mono : ∀ x a b, R a b → Q x a → Q x b) {f : β → α → m β} {l : List α}
    (step : ∀ x ∈ l, ∀ b b', G (f b x) b' → R b b' ∧ Q x b') {b b' : β} (h : G (l.foldlM f b) b') :
    R b b' ∧ ∀ x ∈ l, Q x b' := by
  induction l generalizing b with
  | nil => exact ⟨hpure h ▸ refl b, fun x hx => nomatch hx⟩
  | cons x xs ih =>
    rw [List.foldlM_cons] at h
    obtain ⟨c, hc, h⟩ := hbind h
    obtain ⟨hbc, hx⟩ := step x (List.mem_cons_self ..) b c hc
    obtain ⟨hcb, hxs⟩ := ih (fun y hy => step y (List.mem_cons_of_mem _ hy)) h
    refine ⟨trans b c b' hbc hcb, fun y hy => ?_⟩
    rcases List.mem_cons.1 hy with rfl | hy
    · exact mono y c b' hcb hx
    · exact hxs y hy

theorem except_foldlM_each {R : β → β → Prop} {Q : α → β → Prop} (refl : ∀ b, R b b)
    (trans : ∀ a b c, R a b → R b c → R a c) (mono : ∀ x a b, R a b → Q x a → Q x b) {f : β → α → Except ε β}
    {l : List α} (step : ∀ x ∈ l, ∀ b b', f b x = .ok b' → R b b' ∧ Q x b') {b b' : β}
    (h : l.foldlM f b = .ok b') : R b b' ∧ ∀ x ∈ l, Q x b' :=
  foldlM_each (G := fun (x : Except ε β) b => x = .ok b) except_pure_ok.1 except_bind_ok.1 refl trans mono step h

/-- A list of results holds, item by item, what the steps give. -/
theorem except_mapM_ok {f : α → Except ε β} {l : List α} {l' : List β} :
    l.mapM f = .ok l' ↔ List.Forall₂ (fun a b => f a = .ok b) l l' := by
  induction l generalizing l' with
  | nil =>
    rw [List.mapM_nil, except_pure_ok, List.forall₂_nil_left_iff]
    exact eq_comm
  | cons x xs ih =>
    simp only [List.mapM_cons, except_bind_ok, except_pure_ok, List.forall₂_cons_left_iff, ih]
    constructor
    · rintro ⟨b, hb, bs, hbs, rfl⟩
      exact ⟨b, bs, hb, hbs, rfl⟩
    · rintro ⟨b, bs, hb, hbs, rfl⟩
      exact ⟨b, hb, bs, hbs, rfl⟩

/-! ### Errors -/

/-- Every error that the step can end with is of this kind. -/
def Raises (E : ε → Prop) (x : Except ε α) : Prop := ∀ e, x = .error e → E e

section

variable {E : ε → Prop}

theorem raises_ok (a : α) : Raises E (.ok a : Except ε α) := fun _ h => nomatch h

theorem Raises.mono {E' : ε → Prop} {x : Except ε α} (h : Raises E x) (hE : ∀ e, E e → E' e) : Raises E' x :=
  fun e he => hE e (h e he)

theorem raises_error {e : ε} (h : E e) : Raises E (.error e : Except ε α) := fun _ he => Except.error.inj he ▸ h

theorem raises_bind {x : Except ε α} {f : α → Except ε β} (hx : Raises E x)
    (hf : ∀ a, x = .ok a → Raises E (f a)) : Raises E (x >>= f) := by
  cases x with
  | error e => exact raises_error (hx e rfl)
  | ok a => exact hf a rfl

theorem raises_guard {c : Prop} [Decidable c] {e : ε} {f : PUnit → Except ε β} {x : Except ε β} (he : E e)
    (hx : ¬ c → Raises E x) : Raises E (if c then throw e >>= f else x) := by
  split
  · exact raises_error he
  · exact hx ‹_›

/-- A fold whose steps keep `P` raises what its steps raise where `P` holds. -/
theorem raises_foldlM_keep {P : β → Prop} {f : β → α → Except ε β} {l : List α}
    (hf : ∀ x ∈ l, ∀ b, P b → Raises E (f b x) ∧ ∀ b', f b x = .ok b' → P b') {b : β} (hb : P b) :
    Raises E (l.foldlM f b) := by
  induction l generalizing b with
  | nil => exact raises_ok b
  | cons x xs ih =>
    obtain ⟨hx, hkeep⟩ := hf x (List.mem_cons_self ..) b hb
    rw [List.foldlM_cons]
    exact raises_bind hx fun b' hb' => ih (fun y hy => hf y (List.mem_cons_of_mem _ hy)) (hkeep b' hb')

theorem raises_foldlM {f : β → α → Except ε β} {l : List α} (hf : ∀ x ∈ l, ∀ b, Raises E (f b x)) (b : β) :
    Raises E (l.foldlM f b) :=
  raises_foldlM_keep (P := fun _ => True) (fun x hx b _ => ⟨hf x hx b, fun _ _ => trivial⟩) trivial

theorem raises_forM {f : α → Except ε PUnit} {l : List α} (hf : ∀ x ∈ l, Raises E (f x)) : Raises E (l.forM f) := by
  induction l with
  | nil => exact raises_ok _
  | cons x xs ih =>
    exact raises_bind (hf x (List.mem_cons_self ..)) fun _ _ => ih fun y hy => hf y (List.mem_cons_of_mem _ hy)

end

namespace Attempt

/-- The step gives `a`: it meets neither an error nor a fault. -/
def Gives (x : Attempt ε α) (a : α) : Prop := x.run = .ok (.ok a)

theorem Gives.unique {x : Attempt ε α} {a b : α} (ha : Gives x a) (hb : Gives x b) : a = b :=
  Except.ok.inj (Except.ok.inj (ha.symm.trans hb))

@[simp] theorem gives_pure {a b : α} : Gives (pure a : Attempt ε α) b ↔ a = b := by
  simp [Gives, pure, ExceptT.pure, ExceptT.mk, ExceptT.run, Except.pure]

@[simp] theorem gives_bind {x : Attempt ε α} {f : α → Attempt ε β} {b : β} :
    Gives (x >>= f) b ↔ ∃ a, Gives x a ∧ Gives (f a) b := by
  rcases x with e | (e | a) <;>
    simp [Gives, bind, ExceptT.bind, ExceptT.bindCont, ExceptT.mk, ExceptT.run, Except.bind,
      pure, Except.pure]

@[simp] theorem not_gives_throw {e : ε} {a : α} : ¬ Gives (throw e : Attempt ε α) a := by
  simp [Gives, throw, throwThe, MonadExceptOf.throw, ExceptT.mk, ExceptT.run, pure, Except.pure]

/-- A step behind a check gives a result only where the check lets it pass. -/
theorem gives_guard {c : Prop} [Decidable c] {e : ε} {f : α → Attempt ε β} {x : Attempt ε β} {b : β} :
    Gives (if c then throw e >>= f else x) b ↔ ¬ c ∧ Gives x b := by
  split
  · simp [*]
  · simp [*]

@[simp] theorem gives_ofChecked {r : Except Fault α} {a : α} :
    Gives (ofChecked r : Attempt ε α) a ↔ r = .ok a := by
  cases r <;> simp [Gives, ofChecked, ExceptT.lift, ExceptT.mk, ExceptT.run, Functor.map, Except.map]

@[simp] theorem gives_ofExcept {r : Except ε α} {a : α} : Gives (ofExcept r) a ↔ r = .ok a := by
  simp [Gives, ofExcept, ExceptT.mk, ExceptT.run]

@[simp] theorem gives_adapt {f : ε → ε'} {x : Attempt ε α} {a : α} :
    Gives (ExceptT.adapt f x) a ↔ Gives x a := by
  rcases x with e | (e | b)
  · exact iff_of_false (fun h => nomatch h) (fun h => nomatch h)
  · exact iff_of_false (fun h => nomatch h) (fun h => nomatch h)
  · change (Except.ok (Except.ok b) : Except Fault (Except ε' α)) = .ok (.ok a) ↔ _
    simp [Gives, ExceptT.run]

theorem gives_foldlM {R : β → β → Prop} {Q : α → β → Prop} (refl : ∀ b, R b b)
    (trans : ∀ a b c, R a b → R b c → R a c) (mono : ∀ x a b, R a b → Q x a → Q x b)
    {f : β → α → Attempt ε β} {l : List α} (step : ∀ x ∈ l, ∀ b b', Gives (f b x) b' → R b b' ∧ Q x b')
    {b b' : β} (h : Gives (l.foldlM f b) b') : R b b' ∧ ∀ x ∈ l, Q x b' :=
  foldlM_each gives_pure.1 gives_bind.1 refl trans mono step h

/-- Every error that the step can end with is of this kind. -/
def Raises (E : ε → Prop) (x : Attempt ε α) : Prop := ∀ e, x.run = .ok (.error e) → E e

section

variable {E : ε → Prop}

theorem Raises.mono {E' : ε → Prop} {x : Attempt ε α} (h : Raises E x) (hE : ∀ e, E e → E' e) : Raises E' x :=
  fun e he => hE e (h e he)

theorem raises_pure (a : α) : Raises E (pure a : Attempt ε α) := fun _ h => nomatch h

theorem raises_throw {e : ε} (h : E e) : Raises E (throw e : Attempt ε α) := by
  intro e' he
  obtain rfl : e = e' := Except.error.inj (Except.ok.inj he)
  exact h

theorem raises_ofChecked (r : Except Fault α) : Raises E (ofChecked r : Attempt ε α) := by
  intro e he
  cases r with
  | error f => cases he
  | ok a => cases he

theorem raises_ofExcept {r : Except ε α} (h : Interlock.Raises E r) : Raises E (ofExcept r) :=
  fun e he => h e (Except.ok.inj he)

theorem raises_bind {x : Attempt ε α} {f : α → Attempt ε β} (hx : Raises E x)
    (hf : ∀ a, Gives x a → Raises E (f a)) : Raises E (x >>= f) := by
  rcases x with e | (e | a)
  · intro e' he
    cases he
  · exact fun e' he => Except.error.inj (Except.ok.inj he) ▸ hx e rfl
  · exact hf a rfl

theorem raises_guard {c : Prop} [Decidable c] {e : ε} {f : PUnit → Attempt ε β} {x : Attempt ε β} (he : c → E e)
    (hx : ¬ c → Raises E x) : Raises E (if c then throw e >>= f else x) := by
  split
  · exact raises_bind (raises_throw (he ‹_›)) fun a ha => absurd ha not_gives_throw
  · exact hx ‹_›

theorem raises_adapt {f : ε → ε'} {E : ε' → Prop} {x : Attempt ε α} (hx : Raises (fun e => E (f e)) x) :
    Raises E (ExceptT.adapt f x) := by
  rcases x with e | (e | a)
  · intro e' he
    cases he
  · exact fun e' he => Except.error.inj (Except.ok.inj he) ▸ hx e rfl
  · intro e' he
    cases he

theorem raises_foldlM {f : β → α → Attempt ε β} {l : List α} (hf : ∀ x ∈ l, ∀ b, Raises E (f b x)) (b : β) :
    Raises E (l.foldlM f b) := by
  induction l generalizing b with
  | nil => exact raises_pure b
  | cons x xs ih =>
    rw [List.foldlM_cons]
    exact raises_bind (hf x (List.mem_cons_self ..) b) fun b' _ =>
      ih (fun y hy => hf y (List.mem_cons_of_mem _ hy)) b'

end

/-- Every fault that the step can stop with is of this kind. -/
def Stops (F : Fault → Prop) (x : Attempt ε α) : Prop := ∀ fault, x.run = .error fault → F fault

section

variable {F : Fault → Prop}

theorem stops_pure (a : α) : Stops F (pure a : Attempt ε α) := fun _ h => nomatch h

theorem stops_ofChecked {r : Except Fault α} (h : Interlock.Raises F r) : Stops F (ofChecked r : Attempt ε α) := by
  intro fault he
  cases r with
  | error f =>
    obtain rfl : f = fault := Except.error.inj he
    exact h f rfl
  | ok a => cases he

theorem stops_ofExcept (r : Except ε α) : Stops F (ofExcept r) := fun _ h => nomatch h

theorem stops_bind {x : Attempt ε α} {f : α → Attempt ε β} (hx : Stops F x) (hf : ∀ a, Gives x a → Stops F (f a)) :
    Stops F (x >>= f) := by
  rcases x with f | (e | a)
  · exact fun fault he => Except.error.inj he ▸ hx f rfl
  · intro fault he
    cases he
  · exact hf a rfl

theorem stops_guard {c : Prop} [Decidable c] {e : ε} {f : PUnit → Attempt ε β} {x : Attempt ε β}
    (hx : ¬ c → Stops F x) : Stops F (if c then throw e >>= f else x) := by
  split
  · intro fault he
    cases he
  · exact hx ‹_›

theorem stops_foldlM {f : β → α → Attempt ε β} {l : List α} (hf : ∀ x ∈ l, ∀ b, Stops F (f b x)) (b : β) :
    Stops F (l.foldlM f b) := by
  induction l generalizing b with
  | nil => exact stops_pure b
  | cons x xs ih =>
    rw [List.foldlM_cons]
    exact stops_bind (hf x (List.mem_cons_self ..) b) fun b' _ =>
      ih (fun y hy => hf y (List.mem_cons_of_mem _ hy)) b'

end

end Attempt

end Interlock
