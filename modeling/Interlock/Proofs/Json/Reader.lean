import Interlock.Json.Reader
import Mathlib.Data.List.TakeDrop
import Mathlib.Data.Nat.Digits.Defs

/-! What is printed is read back. Strings are printed escaped and numbers without leading zeros, and both say
where they end; so the compact text of a tree made of them says what the tree was, whatever is written after it. -/

namespace Interlock.Json

variable {r : List Char} {n : Nat} {j : Json}

/-! ### Strings -/

theorem hexWord?_control : ∀ n < 32, hexWord? '0' '0' (hexChar (n / 16)) (hexChar (n % 16)) = some n := by
  decide

/-- A character is written in one of three ways: by a short escape, by its number if it is a control character, or as it
is. -/
theorem escapeChar_cases (c : Char) :
    (∃ e, escapeChar c = ['\\', e] ∧ shortEscape? e = some c ∧ e ≠ 'u') ∨
      (c.toNat < 32 ∧ escapeChar c = ['\\', 'u', '0', '0', hexChar (c.toNat / 16), hexChar (c.toNat % 16)]) ∨
      (¬c.toNat < 32 ∧ c ≠ '\\' ∧ c ≠ '\"' ∧ escapeChar c = [c]) := by
  unfold escapeChar
  split_ifs with hquote hbackslash _ _ _ _ _ hcontrol
  iterate 7 exact .inl ⟨_, rfl, by subst_vars; rfl, by decide⟩
  · exact .inr (.inl ⟨hcontrol, rfl⟩)
  · exact .inr (.inr ⟨hcontrol, hbackslash, hquote, rfl⟩)

theorem unescape_escapeChar (c : Char) (r : List Char) : unescape (escapeChar c ++ r) = (unescape r).map (c :: ·) := by
  rcases escapeChar_cases c with ⟨e, he, hshort, hu⟩ | ⟨hcontrol, he⟩ | ⟨hcontrol, hbackslash, hquote, he⟩
  · rw [he]
    simp [unescape, hshort, hu, Option.map_eq_bind]
  · have hhigh : isHighSurrogate c.toNat = false := by simp [isHighSurrogate]; omega
    have hlow : isLowSurrogate c.toNat = false := by simp [isLowSurrogate]; omega
    rw [he]
    simp [unescape, hexWord?_control _ hcontrol, hhigh, hlow, Option.map_eq_bind]
  · rw [he]
    simp [unescape, hcontrol, hbackslash, hquote]

theorem unescape_escape (s : List Char) : unescape (escape s) = some s := by
  induction s with
  | nil => rfl
  | cons c s ih =>
    rw [escape, List.flatMap_cons, unescape_escapeChar]
    exact congrArg (Option.map (c :: ·)) ih

theorem scan_escapeChar (c : Char) (r : List Char) :
    scan (escapeChar c ++ r) = (scan r).map fun p => (escapeChar c ++ p.1, p.2) := by
  rcases escapeChar_cases c with ⟨e, he, hshort, hu⟩ | ⟨hcontrol, he⟩ | ⟨hcontrol, hbackslash, hquote, he⟩
  · rw [he]
    simp [scan, hshort, hu, Option.map_eq_bind]
  · rw [he]
    simp [scan, hexWord?_control _ hcontrol, Option.map_eq_bind]
  · rw [he]
    simp [scan, hcontrol, hbackslash, Option.map_eq_bind]

theorem scan_escape (s r : List Char) : scan (escape s ++ '\"' :: r) = some (escape s, r) := by
  induction s with
  | nil => rfl
  | cons c s ih =>
    have htail : scan (s.flatMap escapeChar ++ '\"' :: r) = some (s.flatMap escapeChar, r) := ih
    simp only [escape, List.flatMap_cons, List.append_assoc, scan_escapeChar, htail, Option.map_some]

/-! ### Numbers -/

/-- What may follow a value. -/
def Ends (r : List Char) : Prop := ∀ c ∈ r.head?, c = ',' ∨ c = ']' ∨ c = '}'

theorem isDigit_of_mem_digits {c : Char} (h : c ∈ (toString n).toList) : c.isDigit = true := by
  rw [Nat.toString_eq_repr, Nat.toList_repr] at h
  exact Nat.isDigit_of_mem_toDigits (by decide) (by decide) h

theorem digits_ne_nil (n : Nat) : (toString n).toList ≠ [] := by
  rw [Nat.toString_eq_repr, Nat.toList_repr]
  exact Nat.toDigits_ne_nil

/-- There are no leading zeros. -/
theorem digits_of_zero {ds : List Char} (h : Nat.toDigits 10 n = '0' :: ds) : ds = [] := by
  induction n using Nat.strongRecOn generalizing ds with
  | _ n ih =>
    rw [Nat.toDigits_eq_if (by decide)] at h
    split at h
    · exact (List.cons.inj h).2.symm
    · obtain ⟨front, hfront⟩ : ∃ front, Nat.toDigits 10 (n / 10) = '0' :: front := by
        cases htop : Nat.toDigits 10 (n / 10) with
        | nil => exact absurd htop Nat.toDigits_ne_nil
        | cons c front =>
          rw [htop] at h
          exact ⟨front, by rw [(List.cons.inj h).1]⟩
      -- The digits in front would be a single zero, and `n` below ten.
      have hsingle : Nat.toDigits 10 (n / 10) = ['0'] := by rw [hfront, ih (n / 10) (by omega) hfront]
      have hzero := congrArg (Nat.ofDigitChars 10 · 0) hsingle
      rw [Nat.ofDigitChars_ten_toDigits] at hzero
      have : n / 10 = 0 := hzero
      omega

theorem Ends.not_digit (h : Ends r) : ∀ c ∈ r.head?, c.isDigit = false := by
  intro c hc
  rcases h c hc with rfl | rfl | rfl <;> rfl

theorem scanDigits_append {ds : List Char} (hne : ds ≠ []) (hds : ∀ c ∈ ds, c.isDigit = true) (h : Ends r) :
    scanDigits (ds ++ r) = some (ds, r) := by
  have hrest : r.takeWhile Char.isDigit = [] ∧ r.dropWhile Char.isDigit = r := by
    cases r with
    | nil => exact ⟨rfl, rfl⟩
    | cons c r => simp [h.not_digit c rfl]
  have hspan : (ds ++ r).span Char.isDigit = (ds, r) := by
    rw [List.span_eq_takeWhile_dropWhile, List.takeWhile_append_of_pos hds, List.dropWhile_append_of_pos hds, hrest.1,
      hrest.2, List.append_nil]
  obtain ⟨c, ds, rfl⟩ := List.exists_cons_of_ne_nil hne
  rw [scanDigits, hspan]

theorem scanInteger_digits (n : Nat) (h : Ends r) :
    scanInteger ((toString n).toList ++ r) = some ((toString n).toList, r) := by
  have hscan := scanDigits_append (digits_ne_nil n) (fun _ hc => isDigit_of_mem_digits hc) h
  cases hn : (toString n).toList with
  | nil => exact absurd hn (digits_ne_nil n)
  | cons c ds =>
    rw [hn] at hscan
    by_cases hc : c = '0'
    · subst hc
      rw [Nat.toString_eq_repr, Nat.toList_repr] at hn
      obtain rfl := digits_of_zero hn
      cases r with
      | nil => rfl
      | cons c r => simp [scanInteger, h.not_digit c rfl]
    · simpa [scanInteger, hc] using hscan

theorem scanNumber_digits (n : Nat) (h : Ends r) :
    scanNumber ((toString n).toList ++ r) = some ((toString n).toList, r) := by
  have hinteger := scanInteger_digits n h
  have hfraction : scanFraction r = some ([], r) := by
    unfold scanFraction
    split
    · exact absurd (h '.' rfl) (by decide)
    · rfl
  have hexponent : scanExponent r = some ([], r) := by
    cases r with
    | nil => rfl
    | cons c r =>
      have hc : ¬(c = 'e' ∨ c = 'E') := by
        rcases h c rfl with rfl | rfl | rfl <;> decide
      simp [scanExponent, hc]
  cases hn : (toString n).toList with
  | nil => exact absurd hn (digits_ne_nil n)
  | cons c ds =>
    have hminus : c ≠ '-' := by
      rintro rfl
      exact absurd (isDigit_of_mem_digits (n := n) (hn ▸ List.mem_cons_self ..)) (by decide)
    rw [hn] at hinteger
    rw [List.cons_append] at hinteger ⊢
    simp [scanNumber, hminus, hinteger, hfraction, hexponent]

/-! ### Trees -/

/-- The trees that values are written as: of numbers, texts, lists and records. -/
inductive Written : Json → Prop where
  | nat (n : Nat) : Written (nat n)
  | text (s : String) : Written (text s)
  | array {items : List Json} (h : ∀ j ∈ items, Written j) : Written (array items)
  | record {fields : List (String × Json)} (h : ∀ f ∈ fields, Written f.2) : Written (record fields)

/-- The text is read as the tree, whatever is written after it. -/
def ReadsAs (j : Json) : Prop :=
  ∀ fuel r, 2 * j.print.length ≤ fuel → Ends r → readValue fuel (j.print ++ r) = some (j, r)

theorem skipBlanks_cons {c : Char} (h : isBlank c = false) (r : List Char) : skipBlanks (c :: r) = c :: r := by
  simp [skipBlanks, h]

theorem isBlank_of_isDigit {c : Char} (h : c.isDigit = true) : isBlank c = false := by
  refine Bool.eq_false_iff.2 fun hblank => ?_
  simp only [isBlank, Bool.or_eq_true, beq_iff_eq] at hblank
  rcases hblank with ((rfl | rfl) | rfl) | rfl <;> exact absurd h (by decide)

/-- The beginning of a value is neither a blank nor a closing bracket. -/
theorem Written.head (h : Written j) : ∃ c t, j.print = c :: t ∧ isBlank c = false ∧ c ≠ ']' := by
  cases h with
  | nat n =>
    obtain ⟨c, ds, hn⟩ := List.exists_cons_of_ne_nil (digits_ne_nil n)
    have hc : c.isDigit = true := isDigit_of_mem_digits (n := n) (hn ▸ List.mem_cons_self ..)
    refine ⟨c, ds, hn, isBlank_of_isDigit hc, ?_⟩
    rintro rfl
    exact absurd hc (by decide)
  | text s => exact ⟨_, _, rfl, rfl, by decide⟩
  | array => exact ⟨_, _, rfl, rfl, by decide⟩
  | record => exact ⟨_, _, rfl, rfl, by decide⟩

theorem readsAs_nat (n : Nat) : ReadsAs (nat n) := by
  intro fuel r hfuel hr
  obtain ⟨c, ds, hn⟩ := List.exists_cons_of_ne_nil (digits_ne_nil n)
  have hc : c.isDigit = true := isDigit_of_mem_digits (n := n) (hn ▸ List.mem_cons_self ..)
  have hscan := scanNumber_digits n hr
  rw [nat, print, hn] at hfuel ⊢
  rw [hn, List.cons_append] at hscan
  obtain ⟨fuel, rfl⟩ : ∃ k, fuel = k + 1 := ⟨fuel - 1, by simp at hfuel; omega⟩
  rw [List.cons_append, readValue, skipBlanks_cons (isBlank_of_isDigit hc)]
  split
  case h_7 => rw [hscan, Option.map_some]
  -- No other form begins with a digit.
  all_goals
    rename_i heq
    obtain ⟨rfl, -⟩ := List.cons.inj heq
    exact absurd hc (by decide)

theorem readsAs_text (s : String) : ReadsAs (text s) := by
  intro fuel r hfuel hr
  obtain ⟨fuel, rfl⟩ : ∃ k, fuel = k + 1 := ⟨fuel - 1, by simp [text, print] at hfuel; omega⟩
  simp [text, print, readValue, skipBlanks_cons (c := '\"') rfl, scan_escape]

theorem commas_cons {rest : List (List Char)} (a : List Char) (h : rest ≠ []) :
    commas (a :: rest) = a ++ ',' :: commas rest := by
  cases rest with
  | nil => exact absurd rfl h
  | cons b rest => rfl

theorem commas_head (c : Char) (a : List Char) (rest : List (List Char)) :
    ∃ t, commas ((c :: a) :: rest) = c :: t := by
  cases rest with
  | nil => exact ⟨_, rfl⟩
  | cons b rest => exact ⟨_, rfl⟩

theorem print_array (items : List Json) : (array items).print = '[' :: commas (items.map print) ++ [']'] := by
  have hitems : printItems items = items.map print := by
    induction items with
    | nil => rfl
    | cons j items ih => rw [printItems, ih, List.map_cons]
  rw [print, hitems]

/-- The text of a field of a record. -/
def fieldText (f : String × Json) : List Char := '\"' :: escape f.1.toList ++ '\"' :: ':' :: f.2.print

theorem print_record (fields : List (String × Json)) :
    (record fields).print = '{' :: commas (fields.map fieldText) ++ ['}'] := by
  have hfields : printFields (fields.map fun f => (escape f.1.toList, f.2)) = fields.map fieldText := by
    induction fields with
    | nil => rfl
    | cons f fields ih => rw [List.map_cons, printFields, ih, List.map_cons, fieldText]
  rw [record, print]
  exact congrArg (fun texts => '{' :: commas texts ++ ['}']) hfields

theorem readItems_commas (fuel : Nat) {items : List Json} (hne : items ≠ []) (h : ∀ j ∈ items, ReadsAs j)
    (r : List Char) (hfuel : 2 * (commas (items.map print)).length + 1 ≤ fuel) :
    readItems fuel (commas (items.map print) ++ ']' :: r) = some (items, r) := by
  induction items generalizing fuel with
  | nil => exact absurd rfl hne
  | cons j items ih =>
    obtain ⟨fuel, rfl⟩ : ∃ k, fuel = k + 1 := ⟨fuel - 1, by omega⟩
    have hj := h j (List.mem_cons_self ..)
    by_cases hlast : items = []
    · subst hlast
      simp only [List.map_cons, List.map_nil, commas] at hfuel ⊢
      rw [readItems, hj fuel _ (by omega) (by simp [Ends])]
      simp [skipBlanks_cons (c := ']') rfl]
    · have hmap : items.map print ≠ [] := by simpa using hlast
      rw [List.map_cons, commas_cons _ hmap] at hfuel ⊢
      simp only [List.length_append, List.length_cons] at hfuel
      have hitems := ih fuel hlast (fun i hi => h i (List.mem_cons_of_mem _ hi)) (by omega)
      rw [readItems, List.append_assoc, List.cons_append, hj fuel _ (by omega) (by simp [Ends])]
      simp [skipBlanks_cons (c := ',') rfl, hitems]

theorem length_fieldText (f : String × Json) : (fieldText f).length = (escape f.1.toList).length + f.2.print.length + 3 := by
  simp only [fieldText, List.length_append, List.length_cons]
  omega

theorem readFields_commas (fuel : Nat) {fields : List (String × Json)} (hne : fields ≠ [])
    (h : ∀ f ∈ fields, ReadsAs f.2) (r : List Char) (hfuel : 2 * (commas (fields.map fieldText)).length + 1 ≤ fuel) :
    readFields fuel (commas (fields.map fieldText) ++ '}' :: r) =
      some (fields.map fun f => (escape f.1.toList, f.2), r) := by
  induction fields generalizing fuel with
  | nil => exact absurd rfl hne
  | cons f fields ih =>
    obtain ⟨fuel, rfl⟩ : ∃ k, fuel = k + 1 := ⟨fuel - 1, by omega⟩
    have hf := h f (List.mem_cons_self ..)
    by_cases hlast : fields = []
    · subst hlast
      simp only [List.map_cons, List.map_nil, commas, length_fieldText] at hfuel ⊢
      have hvalue := hf fuel ('}' :: r) (by omega) (by simp [Ends])
      simp [fieldText, readFields, skipBlanks_cons (c := '\"') rfl, scan_escape, skipBlanks_cons (c := ':') rfl, hvalue,
        skipBlanks_cons (c := '}') rfl]
    · have hmap : fields.map fieldText ≠ [] := by simpa using hlast
      rw [List.map_cons, commas_cons _ hmap] at hfuel ⊢
      simp only [List.length_append, List.length_cons, length_fieldText] at hfuel
      have hfields := ih fuel hlast (fun i hi => h i (List.mem_cons_of_mem _ hi)) (by omega)
      rw [List.append_assoc, List.cons_append]
      generalize commas (fields.map fieldText) ++ '}' :: r = rest at hfields ⊢
      have hvalue := hf fuel (',' :: rest) (by omega) (by simp [Ends])
      simp [fieldText, readFields, skipBlanks_cons (c := '\"') rfl, scan_escape, skipBlanks_cons (c := ':') rfl, hvalue,
        skipBlanks_cons (c := ',') rfl, hfields]

theorem readsAs_array {items : List Json} (hwritten : ∀ j ∈ items, Written j) (h : ∀ j ∈ items, ReadsAs j) :
    ReadsAs (array items) := by
  intro fuel r hfuel hr
  rw [print_array] at hfuel ⊢
  simp only [List.length_append, List.length_cons] at hfuel
  obtain ⟨fuel, rfl⟩ : ∃ k, fuel = k + 1 := ⟨fuel - 1, by omega⟩
  by_cases hne : items = []
  · subst hne
    simp [commas, readValue, skipBlanks_cons (c := '[') rfl, skipBlanks_cons (c := ']') rfl]
  · have hitems := readItems_commas fuel hne h r (by omega)
    -- The first item tells that this is not the end.
    obtain ⟨t, c, hhead, hblank, hclose⟩ :
        ∃ t c, commas (items.map print) = c :: t ∧ isBlank c = false ∧ c ≠ ']' := by
      obtain ⟨j, items, rfl⟩ := List.exists_cons_of_ne_nil hne
      obtain ⟨c, a, hj, hblank, hclose⟩ := (hwritten j (List.mem_cons_self ..)).head
      obtain ⟨t, ht⟩ := commas_head c a (items.map print)
      exact ⟨t, c, by rw [List.map_cons, hj, ht], hblank, hclose⟩
    rw [hhead] at hitems ⊢
    simp only [List.cons_append, List.append_assoc, List.nil_append] at hitems ⊢
    simp [readValue, skipBlanks_cons (c := '[') rfl, skipBlanks_cons hblank, hclose, hitems]

theorem readsAs_record {fields : List (String × Json)} (h : ∀ f ∈ fields, ReadsAs f.2) : ReadsAs (record fields) := by
  intro fuel r hfuel hr
  rw [print_record] at hfuel ⊢
  simp only [List.length_append, List.length_cons] at hfuel
  obtain ⟨fuel, rfl⟩ : ∃ k, fuel = k + 1 := ⟨fuel - 1, by omega⟩
  by_cases hne : fields = []
  · subst hne
    simp [commas, readValue, skipBlanks_cons (c := '{') rfl, skipBlanks_cons (c := '}') rfl, record]
  · have hfields := readFields_commas fuel hne h r (by omega)
    obtain ⟨t, hhead⟩ : ∃ t, commas (fields.map fieldText) = '\"' :: t := by
      obtain ⟨f, fields, rfl⟩ := List.exists_cons_of_ne_nil hne
      exact commas_head '\"' _ _
    rw [hhead] at hfields ⊢
    simp only [List.cons_append, List.append_assoc, List.nil_append] at hfields ⊢
    simp [readValue, skipBlanks_cons (c := '{') rfl, skipBlanks_cons (c := '\"') rfl, hfields, record]

theorem Written.readsAs (h : Written j) : ReadsAs j := by
  induction h with
  | nat n => exact readsAs_nat n
  | text s => exact readsAs_text s
  | array hwritten ih => exact readsAs_array hwritten ih
  | record _ ih => exact readsAs_record ih

/-- The compact text is read as the tree that it was printed from. -/
theorem Written.read? (h : Written j) : read? j.print = some j := by
  have hread := h.readsAs (2 * j.print.length + 2) [] (Nat.le_add_right _ 2) (fun _ hc => nomatch hc)
  rw [List.append_nil] at hread
  unfold Json.read?
  rw [hread]
  rfl

end Interlock.Json
