import Interlock.Layout
import Interlock.Proofs.Expr.Yields
import Mathlib.Data.List.Forall2

/-! Packing and unpacking. The fields of a layout cut a number into the digits of a mixed radix, the lowest first:
packing puts the number together from the digits, and a field of the packed value is its digit. So what is packed
comes back field by field; and where no two fields have the same name, what is unpacked and packed again is what it
was, up to the width of the layout. -/

namespace Interlock

namespace Layout

open Interlock.Expr

/-- The number made up by fields that hold a number each, the first of them in the lowest bits. -/
def number (held : String → Nat) : List Field → Nat
  | [] => 0
  | f :: rest => held f.name % 2 ^ f.width + 2 ^ f.width * number held rest

variable {fields : List Field} {held : String → Nat} {name : String} {f : Field} {low lo w x : Nat}

/-! ### Digits -/

/-- The first field of a name is where it is looked for. -/
theorem offsetIn_of_find (h : fields.find? (·.name == name) = some f) (low : Nat) :
    ∃ lo, offsetIn name fields low = some (lo, f.width) := by
  induction fields generalizing low with
  | nil => cases h
  | cons g rest ih =>
    rw [List.find?_cons] at h
    rw [offsetIn]
    split at h
    · rename_i hg
      obtain rfl : g = f := Option.some.inj h
      exact ⟨low, if_pos (beq_iff_eq.1 hg)⟩
    · rename_i hg
      rw [if_neg (beq_eq_false_iff_ne.1 hg)]
      exact ih h _

theorem offsetIn_isSome (h : name ∈ fields.map (·.name)) (low : Nat) : ∃ lo w, offsetIn name fields low = some (lo, w) := by
  obtain ⟨g, hg, rfl⟩ := List.mem_map.1 h
  have hfound : (fields.find? (·.name == g.name)).isSome := List.find?_isSome.2 ⟨g, hg, beq_self_eq_true g.name⟩
  obtain ⟨f, hf⟩ := Option.isSome_iff_exists.1 hfound
  obtain ⟨lo, hlo⟩ := offsetIn_of_find hf low
  exact ⟨lo, f.width, hlo⟩

theorem mem_names_of_offsetIn (h : offsetIn name fields low = some (lo, w)) : name ∈ fields.map (·.name) := by
  induction fields generalizing low with
  | nil => cases h
  | cons f rest ih =>
    rw [offsetIn] at h
    split at h
    · rename_i hname
      exact List.mem_map.2 ⟨f, List.mem_cons_self .., hname⟩
    · exact List.mem_cons_of_mem _ (ih h)

/-- A field that is found is within the layout. -/
theorem offsetIn_within (h : offsetIn name fields low = some (lo, w)) :
    low ≤ lo ∧ lo + w ≤ low + totalWidth fields := by
  induction fields generalizing low with
  | nil => cases h
  | cons f rest ih =>
    rw [offsetIn] at h
    rw [totalWidth]
    split at h
    · obtain ⟨rfl, rfl⟩ : low = lo ∧ f.width = w := by simpa using h
      exact ⟨Nat.le_refl _, by omega⟩
    · have := ih h
      omega

/-- It is the digit at its offset. -/
theorem digit_of_offsetIn (h : offsetIn name fields low = some (lo, w)) :
    number held fields / 2 ^ (lo - low) % 2 ^ w = held name % 2 ^ w := by
  induction fields generalizing low with
  | nil => cases h
  | cons f rest ih =>
    rw [offsetIn] at h
    rw [number]
    split at h
    · rename_i hname
      obtain ⟨rfl, rfl⟩ : low = lo ∧ f.width = w := by simpa using h
      rw [Nat.sub_self, Nat.pow_zero, Nat.div_one, Nat.add_mul_mod_self_left, Nat.mod_mod, hname]
    · -- The digits below are dropped first, then those of the rest below the field.
      have hle := (offsetIn_within h).1
      have hskip : lo - low = f.width + (lo - (low + f.width)) := by omega
      have hbelow : held f.name % 2 ^ f.width / 2 ^ f.width = 0 := Nat.div_eq_of_lt (Nat.mod_lt _ (Nat.two_pow_pos _))
      rw [hskip, Nat.pow_add, ← Nat.div_div_eq_div_mul, Nat.add_mul_div_left _ _ (Nat.two_pow_pos _), hbelow, Nat.zero_add,
        ih h]

/-- The digits of a number make up the number, where each digit has a name of its own. -/
theorem number_of_digits (hnames : (fields.map (·.name)).Nodup)
    (hdigits : ∀ name lo w, offsetIn name fields low = some (lo, w) → held name % 2 ^ w = x / 2 ^ (lo - low) % 2 ^ w) :
    number held fields = x % 2 ^ totalWidth fields := by
  induction fields generalizing low x with
  | nil => rw [number, totalWidth, Nat.pow_zero, Nat.mod_one]
  | cons f rest ih =>
    rw [List.map_cons, List.nodup_cons] at hnames
    have hfirst := hdigits f.name low f.width (if_pos rfl)
    rw [Nat.sub_self, Nat.pow_zero, Nat.div_one] at hfirst
    have hrest : number held rest = x / 2 ^ f.width % 2 ^ totalWidth rest := by
      refine @ih (low + f.width) _ hnames.2 fun name lo w h => ?_
      have hne : f.name ≠ name := by
        rintro rfl
        exact hnames.1 (mem_names_of_offsetIn h)
      have hle := (offsetIn_within h).1
      rw [hdigits name lo w (by rw [offsetIn, if_neg hne, h]), Nat.div_div_eq_div_mul, ← Nat.pow_add,
        show f.width + (lo - (low + f.width)) = lo - low by omega]
    rw [number, totalWidth, hfirst, hrest, Nat.pow_add, Nat.mod_mul]

/-! ### Packing -/

variable {l : Layout} {values : List (String × Expr)} {bus : Expr} {σ : Valuation}

/-- The number given for a name: the value of the first expression that is given for it, or zero. -/
def given (σ : Valuation) (values : List (String × Expr)) (name : String) : Nat :=
  match values.lookup name with
  | some v => (v.eval σ).toNat
  | none => 0

/-- What is packed: one part for each field with a width. -/
def parts (values : List (String × Expr)) (fields : List Field) : List Expr :=
  (fields.filter fun f => 0 < f.width).map (fieldValue values)

theorem parts_cons (f : Field) (rest : List Field) :
    parts values (f :: rest) = if 0 < f.width then fieldValue values f :: parts values rest else parts values rest := by
  by_cases hf : 0 < f.width
  · rw [parts, List.filter_cons_of_pos (by exact decide_eq_true hf), List.map_cons, if_pos hf, parts]
  · rw [parts, List.filter_cons_of_neg (by simpa using hf), if_neg hf, parts]

theorem mem_of_lookup {v : Expr} (h : values.lookup name = some v) : (name, v) ∈ values := by
  obtain ⟨before, after, rfl, -⟩ := List.lookup_eq_some_iff.1 h
  exact List.mem_append_right _ (List.mem_cons_self ..)

@[simp] theorem width_fieldValue (values : List (String × Expr)) (f : Field) : (fieldValue values f).width = f.width := by
  unfold fieldValue
  split
  · exact width_resize ..
  · rfl

theorem totalWidth_parts (values : List (String × Expr)) (fields : List Field) :
    Expr.totalWidth (parts values fields) = totalWidth fields := by
  induction fields with
  | nil => rfl
  | cons f rest ih =>
    rw [parts_cons, totalWidth]
    split
    · rw [Expr.totalWidth, width_fieldValue, ih]
    · omega

theorem width_pack (l : Layout) (values : List (String × Expr)) : (l.pack values).width = l.width :=
  (width_join _).trans (totalWidth_parts values l.fields)

theorem width_le_of_mem (h : f ∈ fields) : f.width ≤ totalWidth fields := by
  induction fields with
  | nil => cases h
  | cons g rest ih =>
    rw [totalWidth]
    rcases List.mem_cons.1 h with rfl | h
    · exact Nat.le_add_right ..
    · exact Nat.le_trans (ih h) (Nat.le_add_left ..)

theorem sized_fieldValue (hs : ∀ v ∈ values, v.2.sized = true) (hf : f.width < wordLimit) :
    (fieldValue values f).sized = true := by
  unfold fieldValue
  split
  · rename_i v hv
    exact sized_resize (hs _ (mem_of_lookup hv)) hf
  · rfl

theorem yields_fieldValue (hs : ∀ v ∈ values, v.2.sized = true) (hv : ∀ v ∈ values, ∃ x, v.2.Yields σ x)
    (hf : f.width < wordLimit) : (fieldValue values f).Yields σ (given σ values f.name % 2 ^ f.width) := by
  unfold fieldValue given
  cases h : values.lookup f.name with
  | some v =>
    obtain ⟨x, hx⟩ := hv _ (mem_of_lookup h)
    show (v.resize f.width).Yields σ ((v.eval σ).toNat % 2 ^ f.width)
    exact hx.value ▸ hx.resize (hs _ (mem_of_lookup h)) hf
  | none => exact (Nat.zero_mod (2 ^ f.width)).symm ▸ Yields.zero f.width

section

variable (hl : totalWidth fields ≤ maxWidth) (hs : ∀ v ∈ values, v.2.sized = true)
include hl

theorem lt_wordLimit_of_mem (h : f ∈ fields) : f.width < wordLimit :=
  Nat.lt_of_le_of_lt (Nat.le_trans (width_le_of_mem h) hl) (by decide)

include hs

theorem sized_parts : ∀ p ∈ parts values fields, p.sized = true := by
  intro p hp
  obtain ⟨f, hf, rfl⟩ := List.mem_map.1 hp
  exact sized_fieldValue hs (lt_wordLimit_of_mem hl (List.mem_filter.1 hf).1)

variable (hv : ∀ v ∈ values, ∃ x, v.2.Yields σ x)
include hv

theorem yields_parts : ∀ p ∈ parts values fields, ∃ x, p.Yields σ x := by
  intro p hp
  obtain ⟨f, hf, rfl⟩ := List.mem_map.1 hp
  exact ⟨_, yields_fieldValue hs hv (lt_wordLimit_of_mem hl (List.mem_filter.1 hf).1)⟩

omit hl in
/-- Side by side, the parts are the number of the fields; a field without a width is no part and no digit. -/
theorem toNat_parts {offset : Nat} (hend : offset + totalWidth fields ≤ maxWidth) :
    (evalParts σ (parts values fields) offset).toNat = 2 ^ offset * number (given σ values) fields := by
  induction fields generalizing offset with
  | nil => rfl
  | cons f rest ih =>
    rw [totalWidth, ← Nat.add_assoc] at hend
    rw [parts_cons, number]
    split
    · have hf : f.width < wordLimit := Nat.lt_of_le_of_lt (by omega : f.width ≤ maxWidth) (by decide)
      have hpart := yields_fieldValue hs hv hf
      have hw := width_fieldValue values f
      rw [toNat_evalParts_cons hpart.fits (by rw [hw]; exact Nat.le_trans (Nat.le_add_right ..) hend)
        (by rw [hw]; exact ih hend), hpart.value, hw]
    · rename_i hzero
      obtain hzero : f.width = 0 := by omega
      rw [hzero, Nat.add_zero] at hend
      rw [ih hend, hzero, Nat.pow_zero, Nat.mod_one, Nat.zero_add, Nat.one_mul]

end

theorem sized_pack (hl : l.width ≤ maxWidth) (hs : ∀ v ∈ values, v.2.sized = true) : (l.pack values).sized = true := by
  refine sized_join (sized_parts hl hs) ?_
  show Expr.totalWidth (parts values l.fields) < wordLimit
  rw [totalWidth_parts]
  exact Nat.lt_of_le_of_lt hl (by decide)

theorem yields_pack (hl : l.width ≤ maxWidth) (hs : ∀ v ∈ values, v.2.sized = true)
    (hv : ∀ v ∈ values, ∃ x, v.2.Yields σ x) : (l.pack values).Yields σ (number (given σ values) l.fields) := by
  have hjoin := Yields.join (sized_parts hl hs) (yields_parts hl hs hv) (by rw [totalWidth_parts]; exact hl)
  rwa [toNat_parts hs hv (by rw [Nat.zero_add]; exact hl), Nat.pow_zero, Nat.one_mul] at hjoin

/-! ### Unpacking -/

/-- So many bits of a packed value from an offset up. -/
def unpacked (l : Layout) (bus : Expr) (lo w : Nat) : Expr :=
  if w = 0 then .zero 0 else (bus.resize l.width).bits (lo + w - 1) lo

theorem get?_eq (h : l.offset? name = some (lo, w)) (bus : Expr) : l.get? bus name = some (l.unpacked bus lo w) := by
  rw [get?, h]
  rfl

/-- Cutting a number to more bits than are looked at makes no difference. -/
theorem mod_div_mod {x lo w total : Nat} (h : lo + w ≤ total) :
    x % 2 ^ total / 2 ^ lo % 2 ^ w = x / 2 ^ lo % 2 ^ w := by
  obtain ⟨rest, rfl⟩ := Nat.exists_eq_add_of_le h
  rw [Nat.add_assoc, Nat.pow_add, Nat.mod_mul_right_div_self,
    Nat.mod_mod_of_dvd _ (Nat.pow_dvd_pow 2 (Nat.le_add_right w rest))]

theorem offset_within (h : l.offset? name = some (lo, w)) : lo + w ≤ l.width := by
  have hend := (offsetIn_within h).2
  rwa [Nat.zero_add] at hend

theorem sized_unpacked (hs : bus.sized = true) (hend : lo + w ≤ l.width) (hl : l.width ≤ maxWidth) :
    (l.unpacked bus lo w).sized = true := by
  have hlimit : l.width < wordLimit := Nat.lt_of_le_of_lt hl (by decide)
  unfold unpacked
  split
  · rfl
  · exact sized_bits (sized_resize hs hlimit) (by omega) (by omega)

theorem yields_unpacked (hs : bus.sized = true) (hbus : bus.Yields σ x) (hend : lo + w ≤ l.width)
    (hl : l.width ≤ maxWidth) : (l.unpacked bus lo w).Yields σ (x / 2 ^ lo % 2 ^ w) := by
  have hlimit : l.width < wordLimit := Nat.lt_of_le_of_lt hl (by decide)
  unfold unpacked
  split
  · rename_i hzero
    rw [hzero, Nat.pow_zero, Nat.mod_one]
    exact Yields.zero 0
  · rename_i hpos
    have hwidth : lo + w - 1 + 1 - lo = w := by omega
    have hbits : ((bus.resize l.width).bits (lo + w - 1) lo).Yields σ (x % 2 ^ l.width / 2 ^ lo % 2 ^ (lo + w - 1 + 1 - lo)) :=
      (hbus.resize hs hlimit).bits (by omega) (by omega)
    rwa [hwidth, mod_div_mod hend] at hbits

/-! ### Checks -/

section

variable (hl : l.width ≤ maxWidth)
include hl

theorem offset_lt (h : l.offset? name = some (lo, w)) : lo < wordLimit := by
  exact Nat.lt_of_le_of_lt (Nat.le_trans (Nat.le_add_right lo w) (Nat.le_trans (offset_within h) hl)) (by decide)

theorem checkedOffset?_ok (h : l.offset? name = some (lo, w)) : l.checkedOffset? name = .ok (some (lo, w)) := by
  rw [checkedOffset?, h]
  exact if_pos (offset_lt hl h)

theorem checkedGet?_ok (h : l.offset? name = some (lo, w)) (hs : bus.sized = true) :
    l.checkedGet? bus name = .ok (some (l.unpacked bus lo w)) := by
  have hsized : l.ensureSized = .ok () := if_pos (Nat.lt_of_le_of_lt hl (by decide))
  rw [checkedGet?, checkedOffset?_ok hl h, get?_eq h]
  show (if w ≠ 0 then _ else _) = _
  rw [hsized, ensureSized_of hs]
  split <;> rfl

theorem checkNames_gives (hnames : ∀ v ∈ values, v.1 ∈ l.fields.map (·.name)) (loc : Location) :
    (l.checkNames loc values).Gives () := by
  induction values with
  | nil => exact Attempt.gives_pure.2 rfl
  | cons v rest ih =>
    obtain ⟨name, v⟩ := v
    obtain ⟨hname, hrest⟩ := List.forall_mem_cons.1 hnames
    obtain ⟨lo, w, hlo⟩ := offsetIn_isSome hname 0
    rw [checkNames]
    refine Attempt.gives_bind.2 ⟨_, Attempt.gives_ofChecked.2 (checkedOffset?_ok hl hlo), ?_⟩
    exact ih hrest

theorem checkedPack_gives (hnames : ∀ v ∈ values, v.1 ∈ l.fields.map (·.name)) (hs : ∀ v ∈ values, v.2.sized = true)
    (loc : Location) : (l.checkedPack values loc).Gives (l.pack values) := by
  rw [checkedPack]
  refine Attempt.gives_bind.2 ⟨(), checkNames_gives hl hnames loc, ?_⟩
  refine Attempt.gives_bind.2 ⟨⟨⟩, ?_, Attempt.gives_pure.2 rfl⟩
  induction l.fields with
  | nil => exact Attempt.gives_pure.2 rfl
  | cons f rest ih =>
    have hstep : ∀ v, values.lookup f.name = some v → v.sized = true := fun v hv => hs _ (mem_of_lookup hv)
    rw [List.forIn_cons]
    refine Attempt.gives_bind.2 ⟨.yield ⟨⟩, ?_, ih⟩
    split
    · split
      · rw [ensureSized_of (hstep _ ‹_›)]
        rfl
      · rfl
    · rfl

end

/-- What is got from the packed fields. -/
theorem yields_get_pack (hl : l.width ≤ maxWidth) (hs : ∀ v ∈ values, v.2.sized = true)
    (hv : ∀ v ∈ values, ∃ x, v.2.Yields σ x) (h : l.offset? name = some (lo, w)) :
    (l.unpacked (l.pack values) lo w).Yields σ (given σ values name % 2 ^ w) := by
  have hdigit := yields_unpacked (sized_pack hl hs) (yields_pack hl hs hv) (offset_within h) hl
  rwa [← digit_of_offsetIn h]

/-- The fields of a bus, each under its name. -/
def fetched (l : Layout) (bus : Expr) : List (String × Expr) :=
  l.fields.map fun f => (f.name, (l.get? bus f.name).getD default)

theorem mem_fetched {v : String × Expr} (h : v ∈ l.fetched bus) :
    v.1 ∈ l.fields.map (·.name) ∧ ∃ lo w, l.offset? v.1 = some (lo, w) ∧ v.2 = l.unpacked bus lo w := by
  obtain ⟨f, hf, rfl⟩ := List.mem_map.1 h
  have hname : f.name ∈ l.fields.map (·.name) := List.mem_map_of_mem hf
  obtain ⟨lo, w, hlo⟩ := offsetIn_isSome hname 0
  exact ⟨hname, lo, w, hlo, by rw [get?_eq hlo, Option.getD_some]⟩

theorem fetched_checked (hl : l.width ≤ maxWidth) (hs : bus.sized = true) :
    List.Forall₂ (fun f v => v.1 = f.name ∧ l.checkedGet? bus f.name = .ok (some v.2)) l.fields (l.fetched bus) := by
  refine List.forall₂_map_right_iff.2 (List.forall₂_same.2 fun f hf => ⟨rfl, ?_⟩)
  obtain ⟨-, lo, w, hlo, heq⟩ := mem_fetched (List.mem_map_of_mem hf)
  rw [checkedGet?_ok hl hlo hs, heq]

section

variable (hl : l.width ≤ maxWidth) (hs : bus.sized = true)
include hl hs

theorem sized_fetched : ∀ v ∈ l.fetched bus, v.2.sized = true := by
  intro v hv
  obtain ⟨-, lo, w, hlo, heq⟩ := mem_fetched hv
  rw [heq]
  exact sized_unpacked hs (offset_within hlo) hl

variable (hbus : bus.Yields σ x)
include hbus

theorem yields_fetched : ∀ v ∈ l.fetched bus, ∃ y, v.2.Yields σ y := by
  intro v hv
  obtain ⟨-, lo, w, hlo, heq⟩ := mem_fetched hv
  exact ⟨_, heq ▸ yields_unpacked hs hbus (offset_within hlo) hl⟩

/-- A field that is fetched is a digit of the bus. -/
theorem given_fetched (h : l.offset? name = some (lo, w)) :
    given σ (l.fetched bus) name % 2 ^ w = x / 2 ^ lo % 2 ^ w := by
  obtain ⟨f, hf, rfl⟩ := List.mem_map.1 (mem_names_of_offsetIn h)
  have hsome : ((l.fetched bus).lookup f.name).isSome := by
    refine List.lookup_isSome_iff.2 ⟨_, List.mem_map_of_mem hf, beq_self_eq_true f.name⟩
  obtain ⟨v, hv⟩ := Option.isSome_iff_exists.1 hsome
  obtain ⟨-, lo', w', hlo', heq⟩ := mem_fetched (mem_of_lookup hv)
  obtain ⟨rfl, rfl⟩ : lo = lo' ∧ w = w' := by simpa using h.symm.trans hlo'
  have hdigit := yields_unpacked hs hbus (offset_within h) hl
  rw [given, hv]
  show (v.eval σ).toNat % 2 ^ w = _
  rw [show v = _ from heq, hdigit.value, Nat.mod_mod]

theorem yields_pack_fetched (hnames : (l.fields.map (·.name)).Nodup) :
    (l.pack (l.fetched bus)).Yields σ (x % 2 ^ l.width) := by
  have hdigits : ∀ name lo w, offsetIn name l.fields 0 = some (lo, w) →
      given σ (l.fetched bus) name % 2 ^ w = x / 2 ^ (lo - 0) % 2 ^ w := fun _ _ _ h => given_fetched hl hs hbus h
  rw [width, ← number_of_digits hnames hdigits]
  exact yields_pack hl (sized_fetched hl hs) (yields_fetched hl hs hbus)

end

end Layout

open Layout

/-- Packing and unpacking undo each other, for a layout that fits a word. A field that is got from packed values is
the value given for its name, cut to its width, or zero where none was given; and where the names are distinct, the
fields of a bus packed again are the bus, cut to the width of the layout. -/
theorem layout_round_trip {l : Layout} (hl : l.width ≤ maxWidth) :
    (∀ values : List (String × Expr), (∀ v ∈ values, v.1 ∈ l.fields.map (·.name) ∧ v.2.sized = true) → ∀ loc,
      ∃ packed, (l.checkedPack values loc).Gives packed ∧ packed.sized = true ∧ packed.width = l.width ∧
        ∀ f name, l.fields.find? (·.name == name) = some f →
          ∃ e, l.checkedGet? packed name = .ok (some e) ∧
            ∀ σ, (∀ v ∈ values, ∃ x, v.2.Yields σ x) → e.Yields σ (given σ values name % 2 ^ f.width)) ∧
    ((l.fields.map (·.name)).Nodup → ∀ bus : Expr, bus.sized = true → ∀ loc,
      ∃ values packed,
        List.Forall₂ (fun f v => v.1 = f.name ∧ l.checkedGet? bus f.name = .ok (some v.2)) l.fields values ∧
          (l.checkedPack values loc).Gives packed ∧ packed.sized = true ∧ packed.width = l.width ∧
            ∀ σ x, bus.Yields σ x → packed.Yields σ (x % 2 ^ l.width)) := by
  refine ⟨fun values hvalues loc => ?_, fun hnames bus hbus loc => ?_⟩
  · have hs : ∀ v ∈ values, v.2.sized = true := fun v hv => (hvalues v hv).2
    refine ⟨l.pack values, checkedPack_gives hl (fun v hv => (hvalues v hv).1) hs loc, sized_pack hl hs, width_pack l values,
      fun f name hf => ?_⟩
    obtain ⟨lo, hlo⟩ := offsetIn_of_find hf 0
    exact ⟨_, checkedGet?_ok hl hlo (sized_pack hl hs), fun σ hv => yields_get_pack hl hs hv hlo⟩
  · have hs := sized_fetched hl hbus
    refine ⟨l.fetched bus, l.pack (l.fetched bus), fetched_checked hl hbus,
      checkedPack_gives hl (fun v hv => (mem_fetched hv).1) hs loc, sized_pack hl hs, width_pack l _, fun σ x hx => ?_⟩
    exact yields_pack_fetched hl hbus hx hnames

/-- Fields of 3, 0, 5 and 2 bits. The values are given out of order: 9 bits are cut for `b`, 2 bits padded for `a`, and
none are given for `c`. -/
def tagged : Layout := ⟨[⟨"a", 3⟩, ⟨"none", 0⟩, ⟨"b", 5⟩, ⟨"c", 2⟩]⟩

def tags : List (String × Expr) := [("b", .signal 0 9), ("a", .signal 1 2)]

theorem layout_round_trip_of_tagged :
    tagged.width ≤ maxWidth ∧ (∃ packed a b c, (tagged.checkedPack tags .library).Gives packed ∧ packed.width = 10 ∧
        tagged.checkedGet? packed "a" = .ok (some a) ∧ tagged.checkedGet? packed "b" = .ok (some b) ∧
          tagged.checkedGet? packed "c" = .ok (some c) ∧ ∀ σ, a.Yields σ ((σ 1).toNat % 2 ^ 2 % 2 ^ 3) ∧
            b.Yields σ ((σ 0).toNat % 2 ^ 9 % 2 ^ 5) ∧ c.Yields σ 0) ∧
      ∃ values packed, (tagged.checkedPack values .library).Gives packed ∧
        ∀ σ, packed.Yields σ ((σ 2).toNat % 2 ^ 16 % 2 ^ 10) := by
  have hl : tagged.width ≤ maxWidth := by decide
  obtain ⟨hpack, hunpack⟩ := layout_round_trip hl
  obtain ⟨packed, hpacked, -, hwidth, hget⟩ := hpack tags (by decide) .library
  have hvalues : ∀ σ, ∀ v ∈ tags, ∃ x, v.2.Yields σ x := fun σ v hv => by
    rcases List.mem_cons.1 hv with rfl | hv
    · exact ⟨_, Expr.Yields.signal 0 9⟩
    · rw [List.mem_singleton.1 hv]
      exact ⟨_, Expr.Yields.signal 1 2⟩
  obtain ⟨a, ha, hva⟩ := hget ⟨"a", 3⟩ "a" (by decide)
  obtain ⟨b, hb, hvb⟩ := hget ⟨"b", 5⟩ "b" (by decide)
  obtain ⟨c, hc, hvc⟩ := hget ⟨"c", 2⟩ "c" (by decide)
  obtain ⟨values, again, -, hagain, -, -, hvagain⟩ := hunpack (by decide) (.signal 2 16) (by decide) .library
  refine ⟨hl, ⟨packed, a, b, c, hpacked, hwidth, ha, hb, hc, fun σ => ⟨?_, ?_, ?_⟩⟩, values, again, hagain, fun σ => ?_⟩
  · exact (Expr.Yields.signal (σ := σ) 1 2).value ▸ hva σ (hvalues σ)
  · exact (Expr.Yields.signal (σ := σ) 0 9).value ▸ hvb σ (hvalues σ)
  · exact hvc σ (hvalues σ)
  · exact hvagain σ _ (Expr.Yields.signal 2 16)

end Interlock
