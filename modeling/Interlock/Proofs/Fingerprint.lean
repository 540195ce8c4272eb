import Interlock.Netlist.Fingerprint
import Mathlib.Algebra.Group.Nat.Defs

/-! The fingerprint of a netlist tells its structure. Whatever is written for a number, an expression or a list can be
read back, whatever is written after it: a list is preceded by its length, and each form of expression by a tag of its
own. So two netlists have the same fingerprint exactly if they differ at most in names and stored identifiers. -/

namespace Interlock

variable {α β : Type}

/-! ### What can be read back -/

/-- What is written for the value, whatever comes after it, is not the beginning of what is written for another. -/
def LegibleAt (P : α → Prop) (write : α → List UInt8) (a : α) : Prop :=
  ∀ b, P b → ∀ s t, write a ++ s = write b ++ t → a = b ∧ s = t

/-- What is written for a value tells the value, and where it ends. -/
def Legible (P : α → Prop) (write : α → List UInt8) : Prop := ∀ a, P a → LegibleAt P write a

theorem legible_littleEndian (count : Nat) : Legible (· < 256 ^ count) (littleEndian · count) := by
  induction count with
  | zero =>
    intro a ha b hb s t h
    obtain rfl : a = 0 := Nat.lt_one_iff.1 ha
    obtain rfl : b = 0 := Nat.lt_one_iff.1 hb
    exact ⟨rfl, h⟩
  | succ count ih =>
    intro a ha b hb s t h
    simp only [littleEndian, List.cons_append, List.cons.injEq] at h
    obtain ⟨hlow, hrest⟩ := h
    have hmod : a % 256 = b % 256 := by simpa using congrArg UInt8.toNat hlow
    simp only [Nat.pow_succ] at ha hb
    obtain ⟨hdiv, rfl⟩ := ih (a / 256) (Nat.div_lt_of_lt_mul (by omega)) (b / 256) (Nat.div_lt_of_lt_mul (by omega)) s t hrest
    exact ⟨by omega, rfl⟩

theorem legible_tag : Legible (· < 256) tagBytes := legible_littleEndian 1

theorem legible_count : Legible (· < wordLimit) countBytes := legible_littleEndian 4

theorem legible_word (a : Word) : LegibleAt (fun _ => True) wordBytes a := by
  intro b _ s t h
  obtain ⟨hab, rfl⟩ := legible_littleEndian 8 a.toNat a.toNat_lt b.toNat b.toNat_lt s t h
  exact ⟨UInt64.toNat_inj.1 hab, rfl⟩

theorem UnaryOp.tag_injective : Function.Injective UnaryOp.tag := fun a b h => by
  cases a <;> cases b <;> first | rfl | cases h

theorem BinaryOp.tag_injective : Function.Injective BinaryOp.tag := fun a b h => by
  cases a <;> cases b <;> first | rfl | cases h

theorem SignalKind.tag_injective : Function.Injective SignalKind.tag := fun a b h => by
  cases a <;> cases b <;> first | rfl | cases h

/-- A value that its tag stands for. -/
theorem legible_tagged {tag : α → Nat} (hlt : ∀ a, tag a < 256) (htag : Function.Injective tag) (a : α) :
    LegibleAt (fun _ => True) (fun a => tagBytes (tag a)) a := by
  intro b _ s t h
  obtain ⟨hab, rfl⟩ := legible_tag _ (hlt a) _ (hlt b) s t h
  exact ⟨htag hab, rfl⟩

/-- Values that are written one after the other, without their number. -/
theorem legible_flatMap {P : α → Prop} {write : α → List UInt8} {as : List α} (h : ∀ a ∈ as, LegibleAt P write a) :
    ∀ {bs : List α}, (∀ b ∈ bs, P b) → as.length = bs.length → ∀ s t, as.flatMap write ++ s = bs.flatMap write ++ t →
      as = bs ∧ s = t := by
  induction as with
  | nil =>
    intro bs _ hlen s t hst
    obtain rfl := List.length_eq_zero_iff.1 hlen.symm
    exact ⟨rfl, hst⟩
  | cons a as ih =>
    intro bs hbs hlen s t hst
    obtain ⟨b, bs, rfl⟩ := List.exists_cons_of_length_eq_add_one hlen.symm
    simp only [List.flatMap_cons, List.append_assoc] at hst
    obtain ⟨rfl, htail⟩ := h a (List.mem_cons_self ..) b (hbs b (List.mem_cons_self ..)) _ _ hst
    obtain ⟨rfl, rfl⟩ := ih (fun x hx => h x (List.mem_cons_of_mem _ hx)) (fun x hx => hbs x (List.mem_cons_of_mem _ hx))
      (Nat.succ.inj hlen) s t htail
    exact ⟨rfl, rfl⟩

/-- Values that are written one after the other, after their number. -/
theorem legibleAt_list {P : α → Prop} {write : α → List UInt8} {as : List α} (hlen : as.length < wordLimit)
    (h : ∀ a ∈ as, LegibleAt P write a) :
    LegibleAt (fun bs => bs.length < wordLimit ∧ ∀ b ∈ bs, P b) (fun as => countBytes as.length ++ as.flatMap write) as := by
  intro bs hbs s t hst
  simp only [List.append_assoc] at hst
  obtain ⟨hcount, hst⟩ := legible_count _ hlen _ hbs.1 _ _ hst
  exact legible_flatMap h hbs.2 hcount s t hst

/-! ### Expressions -/

namespace Expr

mutual
/-- Whether the numbers in the expression, and the numbers of parts, fit 32 bits. -/
def storable : Expr → Bool
  | const _ w => decide (w < wordLimit)
  | signal i w => decide (i < wordLimit) && decide (w < wordLimit)
  | unary _ e => e.storable
  | binary _ a b => a.storable && b.storable
  | mux s t f => s.storable && t.storable && f.storable
  | slice b high low => b.storable && (decide (high < wordLimit) && decide (low < wordLimit))
  | concat ps => allStorable ps && decide (ps.length < wordLimit)

def allStorable : List Expr → Bool
  | [] => true
  | p :: ps => p.storable && allStorable ps
end

/-- The same as a proposition. -/
abbrev Storable (e : Expr) : Prop := e.storable = true

theorem allStorable_iff {ps : List Expr} : allStorable ps = true ↔ ∀ p ∈ ps, p.Storable := by
  induction ps with
  | nil => simp [allStorable]
  | cons p ps ih => simp [allStorable, ih]

theorem fingerprintAll_eq (ps : List Expr) : fingerprintAll ps = ps.flatMap fingerprint := by
  induction ps with
  | nil => rfl
  | cons p ps ih => rw [fingerprintAll, ih, List.flatMap_cons]

/-- The tag that an expression begins with. -/
def form : Expr → Nat
  | const .. => 0
  | signal .. => 1
  | unary .. => 2
  | binary .. => 3
  | mux .. => 4
  | slice .. => 5
  | concat .. => 6

theorem form_lt (e : Expr) : e.form < 256 := by
  cases e <;> simp only [form] <;> decide

theorem fingerprint_form (e : Expr) (s : List UInt8) : ∃ rest, e.fingerprint ++ s = tagBytes e.form ++ rest := by
  cases e <;> simp only [fingerprint, form, List.append_assoc] <;> exact ⟨_, rfl⟩

theorem form_eq {e e' : Expr} {s t : List UInt8} (h : e.fingerprint ++ s = e'.fingerprint ++ t) : e.form = e'.form := by
  obtain ⟨rest, hrest⟩ := fingerprint_form e s
  obtain ⟨rest', hrest'⟩ := fingerprint_form e' t
  rw [hrest, hrest'] at h
  exact (legible_tag _ e.form_lt _ e'.form_lt _ _ h).1

theorem legible_fingerprint : Legible Storable fingerprint := by
  intro e
  induction e with
  | const v w =>
    intro he e' he' s t h
    cases e' with
    | const v' w' =>
      simp only [fingerprint, List.append_assoc, List.append_cancel_left_eq] at h
      obtain ⟨rfl, h₁⟩ := legible_word v _ trivial _ _ h
      obtain ⟨rfl, rfl⟩ := legible_count w (of_decide_eq_true he) w' (of_decide_eq_true he') _ _ h₁
      exact ⟨rfl, rfl⟩
    | _ => exact absurd (form_eq h) (by simp [form])
  | signal i w =>
    intro he e' he' s t h
    cases e' with
    | signal i' w' =>
      simp only [Storable, storable, Bool.and_eq_true, decide_eq_true_eq] at he he'
      simp only [fingerprint, List.append_assoc, List.append_cancel_left_eq] at h
      obtain ⟨rfl, h₁⟩ := legible_count i he.1 i' he'.1 _ _ h
      obtain ⟨rfl, rfl⟩ := legible_count w he.2 w' he'.2 _ _ h₁
      exact ⟨rfl, rfl⟩
    | _ => exact absurd (form_eq h) (by simp [form])
  | unary op e ih =>
    intro he e' he' s t h
    cases e' with
    | unary op' e' =>
      simp only [fingerprint, List.append_assoc, List.append_cancel_left_eq] at h
      obtain ⟨rfl, h₁⟩ := legible_tagged (fun op => by cases op <;> decide) UnaryOp.tag_injective op op' trivial _ _ h
      obtain ⟨rfl, rfl⟩ := ih he e' he' _ _ h₁
      exact ⟨rfl, rfl⟩
    | _ => exact absurd (form_eq h) (by simp [form])
  | binary op a b iha ihb =>
    intro he e' he' s t h
    cases e' with
    | binary op' a' b' =>
      simp only [Storable, storable, Bool.and_eq_true] at he he'
      simp only [fingerprint, List.append_assoc, List.append_cancel_left_eq] at h
      obtain ⟨rfl, h₁⟩ := legible_tagged (fun op => by cases op <;> decide) BinaryOp.tag_injective op op' trivial _ _ h
      obtain ⟨rfl, h₂⟩ := iha he.1 a' he'.1 _ _ h₁
      obtain ⟨rfl, rfl⟩ := ihb he.2 b' he'.2 _ _ h₂
      exact ⟨rfl, rfl⟩
    | _ => exact absurd (form_eq h) (by simp [form])
  | mux c a b ihc iha ihb =>
    intro he e' he' s t h
    cases e' with
    | mux c' a' b' =>
      simp only [Storable, storable, Bool.and_eq_true] at he he'
      simp only [fingerprint, List.append_assoc, List.append_cancel_left_eq] at h
      obtain ⟨rfl, h₁⟩ := ihc he.1.1 c' he'.1.1 _ _ h
      obtain ⟨rfl, h₂⟩ := iha he.1.2 a' he'.1.2 _ _ h₁
      obtain ⟨rfl, rfl⟩ := ihb he.2 b' he'.2 _ _ h₂
      exact ⟨rfl, rfl⟩
    | _ => exact absurd (form_eq h) (by simp [form])
  | slice b high low ih =>
    intro he e' he' s t h
    cases e' with
    | slice b' high' low' =>
      simp only [Storable, storable, Bool.and_eq_true, decide_eq_true_eq] at he he'
      simp only [fingerprint, List.append_assoc, List.append_cancel_left_eq] at h
      obtain ⟨rfl, h₁⟩ := legible_count high he.2.1 high' he'.2.1 _ _ h
      obtain ⟨rfl, h₂⟩ := legible_count low he.2.2 low' he'.2.2 _ _ h₁
      obtain ⟨rfl, rfl⟩ := ih he.1 b' he'.1 _ _ h₂
      exact ⟨rfl, rfl⟩
    | _ => exact absurd (form_eq h) (by simp [form])
  | concat ps ih =>
    intro he e' he' s t h
    cases e' with
    | concat ps' =>
      simp only [Storable, storable, Bool.and_eq_true, decide_eq_true_eq, allStorable_iff] at he he'
      simp only [fingerprint, fingerprintAll_eq, List.append_assoc, List.append_cancel_left_eq] at h
      obtain ⟨rfl, rfl⟩ := legibleAt_list he.2 (fun p hp => ih p hp (he.1 p hp)) ps' he'.symm s t
        (by simpa only [List.append_assoc] using h)
      exact ⟨rfl, rfl⟩
    | _ => exact absurd (form_eq h) (by simp [form])

end Expr

/-! ### Netlists -/

/-- What an assignment is made of fits 32 bits. -/
abbrev Assign.Storable (a : Assign) : Prop := a.target < wordLimit ∧ a.value.Storable

theorem Assign.legible_fingerprint : Legible Storable fingerprint := by
  intro a ha b hb s t h
  simp only [fingerprint, List.append_assoc] at h
  obtain ⟨htarget, h⟩ := legible_count _ ha.1 _ hb.1 _ _ h
  obtain ⟨hvalue, rfl⟩ := Expr.legible_fingerprint _ ha.2 _ hb.2 _ _ h
  cases a
  cases b
  exact ⟨by simp only [mk.injEq]; exact ⟨htarget, hvalue⟩, rfl⟩

/-- A signal but for its name and identifier. -/
def Signal.shape (s : Signal) : SignalKind × Nat × Word := (s.kind, s.width, s.init)

/-- What is written of a signal. -/
def Signal.shapeBytes (shape : SignalKind × Nat × Word) : List UInt8 :=
  tagBytes shape.1.tag ++ countBytes shape.2.1 ++ wordBytes shape.2.2

theorem Signal.legible_shapeBytes : Legible (fun shape => shape.2.1 < wordLimit) shapeBytes := by
  rintro ⟨kind, width, init⟩ h ⟨kind', width', init'⟩ h' s t hst
  simp only [shapeBytes, List.append_assoc] at hst
  obtain ⟨rfl, h₁⟩ := legible_tagged (fun kind => by cases kind <;> decide) SignalKind.tag_injective kind kind' trivial _ _ hst
  obtain ⟨rfl, h₂⟩ := legible_count width h width' h' _ _ h₁
  obtain ⟨rfl, rfl⟩ := legible_word init init' trivial _ _ h₂
  exact ⟨rfl, rfl⟩

namespace Netlist

/-- The numbers and the lengths that are written for the netlist fit 32 bits. -/
structure Storable (n : Netlist) : Prop where
  signals : n.signals.size < wordLimit
  widths : ∀ s ∈ n.signals.toList, s.width < wordLimit
  comb : n.comb.length < wordLimit
  combDrivers : ∀ a ∈ n.comb, a.Storable
  sync : n.sync.length < wordLimit
  syncDrivers : ∀ a ∈ n.sync, a.Storable

instance (n : Netlist) : Decidable n.Storable :=
  decidable_of_iff
    (n.signals.size < wordLimit ∧ (∀ s ∈ n.signals.toList, s.width < wordLimit) ∧ n.comb.length < wordLimit ∧
      (∀ a ∈ n.comb, a.Storable) ∧ n.sync.length < wordLimit ∧ ∀ a ∈ n.sync, a.Storable)
    ⟨fun ⟨h₁, h₂, h₃, h₄, h₅, h₆⟩ => ⟨h₁, h₂, h₃, h₄, h₅, h₆⟩, fun ⟨h₁, h₂, h₃, h₄, h₅, h₆⟩ => ⟨h₁, h₂, h₃, h₄, h₅, h₆⟩⟩

variable {n n' : Netlist}

/-- The netlists differ at most in names and stored identifiers. -/
structure SameStructure (n n' : Netlist) : Prop where
  signals : n.signals.toList.map Signal.shape = n'.signals.toList.map Signal.shape
  comb : n.comb = n'.comb
  sync : n.sync = n'.sync

/-- The fingerprint is the shapes of the signals and both lists of drivers, each after its length. -/
theorem fingerprint_eq (n : Netlist) :
    n.fingerprint =
      (countBytes (n.signals.toList.map Signal.shape).length
          ++ (n.signals.toList.map Signal.shape).flatMap Signal.shapeBytes)
        ++ (tagBytes 0 ++ ((countBytes n.comb.length ++ n.comb.flatMap Assign.fingerprint)
        ++ (tagBytes 1 ++ ((countBytes n.sync.length ++ n.sync.flatMap Assign.fingerprint) ++ [])))) := by
  simp only [fingerprint, List.append_assoc, List.append_nil, List.flatMap_map, List.length_map]
  rfl

/-- Netlists whose numbers and lengths fit 32 bits have the same fingerprint exactly if they have the same structure:
the digest is taken of all of it, and of nothing else. -/
theorem fingerprint_eq_iff (hn : n.Storable) (hn' : n'.Storable) :
    n.fingerprint = n'.fingerprint ↔ n.SameStructure n' := by
  constructor
  · intro h
    rw [fingerprint_eq, fingerprint_eq] at h
    have hshapes : ∀ n : Netlist, n.Storable → (n.signals.toList.map Signal.shape).length < wordLimit ∧
        ∀ shape ∈ n.signals.toList.map Signal.shape, shape.2.1 < wordLimit := by
      intro n hn
      refine ⟨by rw [List.length_map]; exact hn.signals, fun shape hshape => ?_⟩
      obtain ⟨s, hs, rfl⟩ := List.mem_map.1 hshape
      exact hn.widths s hs
    obtain ⟨hsignals, h⟩ := legibleAt_list (hshapes n hn).1
      (fun shape hshape => Signal.legible_shapeBytes shape ((hshapes n hn).2 shape hshape)) _ (hshapes n' hn') _ _ h
    have hdrivers : ∀ as : List Assign, as.length < wordLimit → (∀ a ∈ as, a.Storable) →
        LegibleAt (fun bs => bs.length < wordLimit ∧ ∀ b ∈ bs, b.Storable)
          (fun as => countBytes as.length ++ as.flatMap Assign.fingerprint) as :=
      fun as hlen has => legibleAt_list hlen fun a ha => Assign.legible_fingerprint a (has a ha)
    obtain ⟨hcomb, h⟩ := hdrivers n.comb hn.comb hn.combDrivers _ ⟨hn'.comb, hn'.combDrivers⟩ _ _
      (List.append_cancel_left h)
    obtain ⟨hsync, -⟩ := hdrivers n.sync hn.sync hn.syncDrivers _ ⟨hn'.sync, hn'.syncDrivers⟩ _ _
      (List.append_cancel_left h)
    exact ⟨hsignals, hcomb, hsync⟩
  · intro h
    rw [fingerprint_eq, fingerprint_eq, h.signals, h.comb, h.sync]

/-- Two inputs, and a wire that is driven from them. -/
def joined (name a b out : String) (id : SignalId) (driver : Expr) : Netlist where
  name := name
  signals := .ofList [⟨id, a, 4, .input, 0⟩, ⟨1, b, 4, .input, 0⟩, ⟨2, out, 12, .wire, 0⟩]
  comb := [⟨2, driver⟩]

/-- Renaming leaves the fingerprint as it is, and grouping the parts of the concatenation does not. -/
theorem fingerprint_of_joined :
    (joined "top" "a" "b" "out" 0 (.concat [.signal 0 4, .signal 1 4, .signal 0 4])).fingerprint =
        (joined "core" "b" "a" "pair" 7 (.concat [.signal 0 4, .signal 1 4, .signal 0 4])).fingerprint ∧
      (joined "top" "a" "b" "out" 0 (.concat [.signal 0 4, .signal 1 4, .signal 0 4])).fingerprint ≠
        (joined "top" "a" "b" "out" 0 (.concat [.concat [.signal 0 4, .signal 1 4], .signal 0 4])).fingerprint := by
  refine ⟨(fingerprint_eq_iff (by decide) (by decide)).2 ⟨rfl, rfl, rfl⟩, fun h => ?_⟩
  have hcomb := ((fingerprint_eq_iff (by decide) (by decide)).1 h).comb
  exact absurd hcomb (by decide)

end Netlist

end Interlock
