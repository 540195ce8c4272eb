import Interlock.Design.Error
import Interlock.Proofs.Attempt

/-! Two runs side by side. Steps agree where they end alike: both with a result, or both with an error, and what
they end with is related. Sequences of steps agree where their parts do. -/

namespace Interlock

variable {ε ε' α α' β β' : Type}

/-- Both steps give related results, or both fail with related errors. -/
inductive Agree (E : ε → ε' → Prop) (R : α → α' → Prop) : Except ε α → Except ε' α' → Prop
  | error {e : ε} {e' : ε'} (h : E e e') : Agree E R (.error e) (.error e')
  | ok {a : α} {a' : α'} (h : R a a') : Agree E R (.ok a) (.ok a')

namespace Agree

variable {E : ε → ε' → Prop} {R S : α → α' → Prop} {T : β → β' → Prop} {x : Except ε α} {x' : Except ε' α'}

theorem mono (h : Agree E R x x') (hRS : ∀ a a', R a a' → S a a') : Agree E S x x' := by
  cases h with
  | error h => exact .error h
  | ok h => exact .ok (hRS _ _ h)

theorem refl {E : ε → ε → Prop} {x : Except ε α} (hE : ∀ e, E e e) : Agree E Eq x x := by
  cases x with
  | error e => exact .error (hE e)
  | ok a => exact .ok rfl

theorem bind {f : α → Except ε β} {f' : α' → Except ε' β'} (h : Agree E R x x')
    (hf : ∀ a a', R a a' → Agree E T (f a) (f' a')) : Agree E T (x >>= f) (x' >>= f') := by
  cases h with
  | error h => exact .error h
  | ok h => exact hf _ _ h

/-- Two checks for the same thing. -/
theorem guard {c : Prop} [Decidable c] {e : ε} {e' : ε'} {f : PUnit → Except ε α} {f' : PUnit → Except ε' α'}
    (he : E e e') (h : Agree E R x x') :
    Agree E R (if c then throw e >>= f else x) (if c then throw e' >>= f' else x') := by
  split
  · exact .error he
  · exact h

theorem forM {ι ι' : Type} {P : ι → ι' → Prop} {f : ι → Except ε PUnit} {f' : ι' → Except ε' PUnit} {l : List ι}
    {l' : List ι'} (hl : List.Forall₂ P l l') (hf : ∀ i i', P i i' → Agree E Eq (f i) (f' i')) :
    Agree E Eq (l.forM f) (l'.forM f') := by
  induction hl with
  | nil => exact .ok rfl
  | cons hi _ ih =>
    exact (hf _ _ hi).bind fun _ _ _ => ih

theorem mapM {ι : Type} {f : ι → Except ε α} {f' : ι → Except ε' α'} (hf : ∀ i, Agree E R (f i) (f' i)) {l : List ι} :
    Agree E (List.Forall₂ R) (l.mapM f) (l.mapM f') := by
  induction l with
  | nil => exact .ok .nil
  | cons i l ih =>
    rw [List.mapM_cons, List.mapM_cons]
    exact (hf i).bind fun _ _ ha => ih.bind fun _ _ hl => .ok (.cons ha hl)

/-- Folds over related items agree where their steps do. -/
theorem foldlM {ι ι' : Type} {P : ι → ι' → Prop} {f : α → ι → Except ε α} {f' : α' → ι' → Except ε' α'} {l : List ι}
    {l' : List ι'} (hl : List.Forall₂ P l l') (hf : ∀ a a' i i', R a a' → P i i' → Agree E R (f a i) (f' a' i'))
    {a : α} {a' : α'} (ha : R a a') : Agree E R (l.foldlM f a) (l'.foldlM f' a') := by
  induction hl generalizing a a' with
  | nil => exact .ok ha
  | cons hi _ ih =>
    rw [List.foldlM_cons, List.foldlM_cons]
    exact (hf _ _ _ _ ha hi).bind fun b b' hb => ih hb

theorem toOption (h : Agree E R x x') : Option.Rel R x.toOption x'.toOption := by
  cases h with
  | error _ => exact .none
  | ok h => exact .some h

end Agree

namespace Attempt

variable {E : ε → ε' → Prop} {R S : α → α' → Prop} {T : β → β' → Prop} {x : Attempt ε α} {x' : Attempt ε' α'}

/-- Both steps give related results, or both fail with related errors, or both meet the same fault. -/
def Agrees (E : ε → ε' → Prop) (R : α → α' → Prop) (x : Attempt ε α) (x' : Attempt ε' α') : Prop :=
  Agree Eq (Agree E R) x.run x'.run

theorem agrees_pure {a : α} {a' : α'} (h : R a a') : Agrees E R (pure a) (pure a') := .ok (.ok h)

theorem agrees_refl {E : ε → ε → Prop} (hE : ∀ e, E e e) (x : Attempt ε α) : Agrees E Eq x x := by
  unfold Agrees
  rcases x.run with fault | e | a
  · exact .error rfl
  · exact .ok (.error (hE e))
  · exact .ok (.ok rfl)

theorem agrees_throw {e : ε} {e' : ε'} (h : E e e') : Agrees E R (throw e) (throw e') := .ok (.error h)

theorem agrees_ofExcept {x : Except ε α} {x' : Except ε' α'} (h : Agree E R x x') :
    Agrees E R (ofExcept x) (ofExcept x') := .ok h

theorem agrees_ofChecked {x : Except Fault α} {x' : Except Fault α'} (h : Agree Eq R x x') :
    Agrees E R (ofChecked x) (ofChecked x') := by
  cases h with
  | error h => exact .error h
  | ok h => exact .ok (.ok h)

theorem Agrees.mono (h : Agrees E R x x') (hRS : ∀ a a', R a a' → S a a') : Agrees E S x x' :=
  Agree.mono h fun _ _ hr => hr.mono hRS

theorem Agrees.bind {f : α → Attempt ε β} {f' : α' → Attempt ε' β'} (h : Agrees E R x x')
    (hf : ∀ a a', R a a' → Agrees E T (f a) (f' a')) : Agrees E T (x >>= f) (x' >>= f') := by
  refine Agree.bind h fun r r' hr => ?_
  cases hr with
  | error h => exact .ok (.error h)
  | ok h => exact hf _ _ h

theorem Agrees.guard {c : Prop} [Decidable c] {e : ε} {e' : ε'} {f : PUnit → Attempt ε α} {f' : PUnit → Attempt ε' α'}
    (he : E e e') (h : Agrees E R x x') :
    Agrees E R (if c then throw e >>= f else x) (if c then throw e' >>= f' else x') := by
  split
  · exact .ok (.error he)
  · exact h

theorem Agrees.adapt {F : β → β' → Prop} {g : ε → β} {g' : ε' → β'} (h : Agrees E R x x')
    (hg : ∀ e e', E e e' → F (g e) (g' e')) : Agrees F R (ExceptT.adapt g x) (ExceptT.adapt g' x') := by
  have hrun : Agree Eq (Agree E R) x.run x'.run := h
  refine hrun.bind fun r r' hr => ?_
  cases hr with
  | error h => exact .ok (.error (hg _ _ h))
  | ok h => exact .ok (.ok h)

theorem agrees_mapM {ι : Type} {f : ι → Attempt ε α} {f' : ι → Attempt ε' α'} (hf : ∀ i, Agrees E R (f i) (f' i))
    {l : List ι} : Agrees E (List.Forall₂ R) (l.mapM f) (l.mapM f') := by
  induction l with
  | nil => exact agrees_pure .nil
  | cons i l ih =>
    rw [List.mapM_cons, List.mapM_cons]
    exact (hf i).bind fun _ _ ha => ih.bind fun _ _ hl => agrees_pure (.cons ha hl)

theorem agrees_foldlM {ι ι' : Type} {P : ι → ι' → Prop} {f : α → ι → Attempt ε α} {f' : α' → ι' → Attempt ε' α'}
    {l : List ι} {l' : List ι'} (hl : List.Forall₂ P l l')
    (hf : ∀ a a' i i', R a a' → P i i' → Agrees E R (f a i) (f' a' i')) {a : α} {a' : α'} (ha : R a a') :
    Agrees E R (l.foldlM f a) (l'.foldlM f' a') := by
  induction hl generalizing a a' with
  | nil => exact agrees_pure ha
  | cons hi _ ih =>
    rw [List.foldlM_cons, List.foldlM_cons]
    exact (hf _ _ _ _ ha hi).bind fun b b' hb => ih hb

end Attempt

/-! ### Related options and lists -/

section

variable {γ : Type} {R : α → α' → Prop} {T : β → β' → Prop} {o : Option α} {o' : Option α'} {l : List α} {l' : List α'}

theorem rel_refl (o : Option α) : Option.Rel Eq o o := by
  cases o with
  | none => exact .none
  | some _ => exact .some rfl

theorem rel_map {f : α → β} {f' : α' → β'} (h : Option.Rel R o o') (hf : ∀ a a', R a a' → T (f a) (f' a')) :
    Option.Rel T (o.map f) (o'.map f') := by
  cases h with
  | none => exact .none
  | some h => exact .some (hf _ _ h)

theorem rel_bind {f : α → Option β} {f' : α' → Option β'} (h : Option.Rel R o o')
    (hf : ∀ a a', R a a' → Option.Rel T (f a) (f' a')) : Option.Rel T (o >>= f) (o' >>= f') := by
  cases h with
  | none => exact .none
  | some h => exact hf _ _ h

theorem rel_guard {c : Prop} [Decidable c] (h : Option.Rel R o o') :
    Option.Rel R (if c then o else none) (if c then o' else none) := by
  split
  · exact h
  · exact .none

theorem rel_getD (h : Option.Rel R o o') {a : α} {a' : α'} (ha : R a a') : R (o.getD a) (o'.getD a') := by
  cases h with
  | none => exact ha
  | some h => exact h

/-- Options that are the same once something is left out of what they hold. -/
theorem rel_of_map {f : α → γ} {f' : α' → γ} (h : o.map f = o'.map f') : Option.Rel (fun a a' => f a = f' a') o o' := by
  cases o with
  | none =>
    rw [Option.map_none] at h
    rw [Option.map_eq_none_iff.1 h.symm]
    exact .none
  | some a =>
    rw [Option.map_some] at h
    obtain ⟨a', rfl, he⟩ := Option.map_eq_some_iff.1 h.symm
    exact .some he.symm

/-- Lists that are the same once something is left out of their items. -/
theorem forall₂_of_map {f : α → γ} {f' : α' → γ} (h : l.map f = l'.map f') :
    List.Forall₂ (fun a a' => f a = f' a') l l' := by
  rw [← List.forall₂_eq_eq_eq, List.forall₂_map_left_iff, List.forall₂_map_right_iff] at h
  exact h

theorem forall₂_getElem? (h : List.Forall₂ R l l') (i : Nat) : Option.Rel R l[i]? l'[i]? := by
  induction h generalizing i with
  | nil => exact .none
  | cons ha _ ih =>
    cases i with
    | zero => exact .some ha
    | succ i => exact ih i

theorem forall₂_right (h : List.Forall₂ R l l') {a : α} (ha : a ∈ l) : ∃ a' ∈ l', R a a' := by
  induction h with
  | nil => exact nomatch ha
  | @cons x x' l l' hx _ ih =>
    rcases List.mem_cons.1 ha with rfl | ha
    · exact ⟨x', List.mem_cons_self .., hx⟩
    · obtain ⟨a', ha', haa'⟩ := ih ha
      exact ⟨a', List.mem_cons_of_mem _ ha', haa'⟩

theorem forall₂_set (h : List.Forall₂ R l l') {a : α} {a' : α'} (ha : R a a') (i : Nat) :
    List.Forall₂ R (l.set i a) (l'.set i a') := by
  induction h generalizing i with
  | nil => exact .nil
  | cons hb hrest ih =>
    cases i with
    | zero => exact .cons ha hrest
    | succ i => exact .cons hb (ih i)

theorem flatMap_same (h : List.Forall₂ R l l') {f : α → List β} {f' : α' → List β} (hf : ∀ a a', R a a' → f a = f' a') :
    l.flatMap f = l'.flatMap f' := by
  induction h with
  | nil => rfl
  | cons ha _ ih => rw [List.flatMap_cons, List.flatMap_cons, hf _ _ ha, ih]

end

/-- Errors of one kind. -/
def DesignError.SameKind (e e' : DesignError) : Prop := e.kind = e'.kind

end Interlock
