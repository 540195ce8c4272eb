import Interlock.Json.Decode
import Interlock.Proofs.Json.Reader

/-! Reading the parts of a value from the tree that they are written as. A part is read exactly if it fits where it
is read into: a number its word, a container the nesting that is left. -/

namespace Interlock.Json

variable {α β : Type}

/-- The value is read under this condition, and no other value ever. -/
def Decodes (x : Option α) (a : α) (p : Prop) : Prop := ∀ b, x = some b ↔ b = a ∧ p

namespace Decodes

variable {x : Option α} {f : α → Option β} {a : α} {b : β} {p q : Prop}

theorem of_some (a : α) : Decodes (some a) a True := fun b => by simp [eq_comm]

theorem of_not (hp : ¬p) : Decodes none a p := fun b => by simp [hp]

theorem congr (h : Decodes x a p) (hpq : p ↔ q) : Decodes x a q := fun b => by rw [h b, hpq]

theorem bind (h : Decodes x a p) (hf : Decodes (f a) b q) : Decodes (x.bind f) b (p ∧ q) := by
  intro c
  simp only [Option.bind_eq_some_iff, h _]
  constructor
  · rintro ⟨_, ⟨rfl, hp⟩, hc⟩
    obtain ⟨rfl, hq⟩ := (hf c).1 hc
    exact ⟨rfl, hp, hq⟩
  · rintro ⟨rfl, hp, hq⟩
    exact ⟨a, ⟨rfl, hp⟩, (hf _).2 ⟨rfl, hq⟩⟩

theorem map (h : Decodes x a p) (g : α → β) : Decodes (x.bind fun a => some (g a)) (g a) p :=
  (h.bind (of_some (g a))).congr (iff_of_eq (and_true p))

/-- A list is read if all of its members are. -/
theorem mapM {read : β → Option α} {write : α → β} {fits : α → Prop} :
    ∀ {as : List α}, (∀ a ∈ as, Decodes (read (write a)) a (fits a)) →
      Decodes ((as.map write).mapM read) as (∀ a ∈ as, fits a)
  | [], _ => (of_some []).congr (by simp)
  | a :: as, h => by
    have htail := mapM fun b hb => h b (List.mem_cons_of_mem _ hb)
    rw [List.map_cons, List.mapM_cons]
    exact ((h a (List.mem_cons_self ..)).bind (htail.map (a :: ·))).congr List.forall_mem_cons.symm

theorem eq_ite [Decidable p] (h : Decodes x a p) : x = if p then some a else none := by
  ext b
  rw [h b]
  split_ifs with hp <;> simp [hp, eq_comm]

end Decodes

theorem digitsValue_digits (n : Nat) : digitsValue (toString n).toList = n := by
  have hvalue : digitsValue (Nat.toDigits 10 n) = Nat.ofDigitChars 10 (Nat.toDigits 10 n) 0 := by
    simp only [digitsValue, Nat.ofDigitChars, Nat.mul_comm]
    rfl
  rw [Nat.toString_eq_repr, Nat.toList_repr, hvalue, Nat.ofDigitChars_ten_toDigits]

theorem decodes_toNat? (limit n : Nat) : Decodes (toNat? limit (nat n)) n (n < limit) := by
  have hdigits : (toString n).toList.all Char.isDigit = true := List.all_eq_true.2 fun _ hc => isDigit_of_mem_digits hc
  intro m
  simp only [nat, toNat?, digitsValue_digits, hdigits, true_and]
  split_ifs with hfits <;> simp [hfits, eq_comm]

theorem decodes_toCount? (n : Nat) : Decodes (toCount? (nat n)) n (n < wordLimit) := decodes_toNat? _ n

theorem decodes_toWord? (v : Word) : Decodes (toWord? (nat v.toNat)) v True := by
  have hnat := ((decodes_toNat? UInt64.size v.toNat).map UInt64.ofNat).congr (iff_true_intro v.toNat_lt)
  rw [UInt64.ofNat_toNat] at hnat
  rw [toWord?, Option.map_eq_bind]
  exact hnat

theorem decodes_toText? (s : String) : Decodes (toText? (text s)) s True := by
  rw [text, toText?, unescape_escape, Option.map_some, String.ofList_toList]
  exact .of_some s

theorem decodes_toName? (depth : Nat) (s : String) : Decodes (toName? depth (text s)) s True := by
  rw [text, toName?, unescape_escape, Option.map_some, String.ofList_toList]
  exact .of_some s

theorem decodes_openList? (depth : Nat) (items : List Json) : Decodes (openList? depth (array items)) items (2 ≤ depth) := by
  intro b
  rw [openList?]
  split_ifs with h <;> simp [h, eq_comm]

theorem namedFields_escape (fields : List (String × Json)) :
    namedFields (fields.map fun f => (escape f.1.toList, f.2)) = some (fields.map fun f => (f.1.toList, f.2)) := by
  induction fields with
  | nil => rfl
  | cons f fields ih =>
    unfold namedFields at ih ⊢
    rw [List.map_cons, List.mapM_cons, ih]
    simp [unescape_escape]

/-- The only field of a name is found. -/
theorem only?_of_mem {fields : List (String × Json)} (hnodup : (fields.map Prod.fst).Nodup) {f : String × Json}
    (hf : f ∈ fields) : only? (fields.map fun f => (f.1.toList, f.2)) f.1 = some f.2 := by
  have hfilter : fields.filter (fun g => g.1 == f.1) = [f] := by
    induction fields with
    | nil => exact absurd hf List.not_mem_nil
    | cons g fields ih =>
      obtain ⟨hfirst, hrest⟩ := List.nodup_cons.1 hnodup
      rcases List.mem_cons.1 hf with rfl | hf
      · have hnone : fields.filter (fun g => g.1 == f.1) = [] := List.filter_eq_nil_iff.2 fun g hg heq =>
          hfirst (List.mem_map.2 ⟨g, hg, beq_iff_eq.1 heq⟩)
        rw [List.filter_cons, if_pos (beq_self_eq_true f.1), hnone]
      · have hne : ¬(g.1 == f.1) = true := fun heq =>
          hfirst (List.mem_map.2 ⟨f, hf, (beq_iff_eq.1 heq).symm⟩)
        rw [List.filter_cons, if_neg hne]
        exact ih hrest hf
  have hnames : ((fun g => g.1 == f.1.toList) ∘ fun g : String × Json => (g.1.toList, g.2)) = fun g => g.1 == f.1 := by
    funext g
    simp [String.toList_inj]
  rw [only?, List.filter_map, hnames, hfilter]
  rfl

theorem toRecord?_record {fields : List (String × Json)} (hnodup : (fields.map Prod.fst).Nodup) :
    toRecord? (fields.map Prod.fst) (record fields) = some (fields.map Prod.snd) := by
  have hfields : ∀ {part : List (String × Json)}, (∀ f ∈ part, f ∈ fields) →
      (part.map Prod.fst).mapM (only? (fields.map fun f => (f.1.toList, f.2))) = some (part.map Prod.snd) := by
    intro part hpart
    induction part with
    | nil => rfl
    | cons f part ih =>
      rw [List.map_cons, List.mapM_cons, only?_of_mem hnodup (hpart f (List.mem_cons_self ..)),
        ih fun g hg => hpart g (List.mem_cons_of_mem _ hg)]
      rfl
  rw [record, toRecord?, namedFields_escape]
  exact hfields fun f hf => hf

theorem decodes_openRecord? (depth : Nat) (names : List String) {fields : List (String × Json)}
    (hnames : fields.map Prod.fst = names) (hnodup : names.Nodup) :
    Decodes (openRecord? depth names (record fields)) (fields.map Prod.snd) (2 ≤ depth) := by
  subst hnames
  intro b
  rw [openRecord?, toRecord?_record hnodup]
  split_ifs with h <;> simp [h, eq_comm]

theorem openVariant?_record (depth : Nat) (name : String) (content : Json) :
    openVariant? (depth + 2) (record [(name, content)]) = some (name.toList, content) := by
  rw [record, List.map_cons, List.map_nil, openVariant?, unescape_escape, if_pos (Nat.le_add_left 2 depth)]
  rfl

end Interlock.Json
