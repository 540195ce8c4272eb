import Interlock.Proofs.Dump.Codes
import Mathlib.Algebra.Group.Nat.Defs

/-! Reading the lines of a value change dump. What a recorder writes is line after line in this form, as long as the
names in it have no whitespace, and says what the recorder meant by it. -/

namespace Interlock

namespace Dump

/-- A variable as it is defined. -/
structure Var where
  name : String
  width : Nat
  code : List Char
deriving DecidableEq, Repr

/-- What one line of a dump says. -/
inductive Line where
  | timescale
  | scope (name : String)
  | var (v : Var)
  | upscope
  | endDefinitions
  | stamp (cycle : Nat)
  | change (code : List Char) (value : Nat)
deriving DecidableEq, Repr

/-- The number that digits stand for in a base up to ten; there has to be one of them at least. -/
def number? (base : Nat) (digits : List Char) : Option Nat :=
  if digits ≠ [] ∧ digits.all fun c => '0' ≤ c ∧ c.toNat < '0'.toNat + base then some (Nat.ofDigitChars base digits 0)
  else none

namespace Line

/-- Reads a command from its words, the first of them without its dollar sign. -/
def ofCommand? (words : List (List Char)) : Option Line :=
  match words.map String.ofList with
  | ["timescale", "1ns", "$end"] => some .timescale
  | ["scope", "module", name, "$end"] => some (.scope name)
  | ["var", "wire", width, code, name, "$end"] => (number? 10 width.toList).map fun width => .var ⟨name, width, code.toList⟩
  | ["upscope", "$end"] => some .upscope
  | ["enddefinitions", "$end"] => some .endDefinitions
  | _ => none

def read? : List Char → Option Line
  | '$' :: command => ofCommand? (command.splitOn ' ')
  | '#' :: cycle => (number? 10 cycle).map .stamp
  | '0' :: code => some (.change code 0)
  | '1' :: code => some (.change code 1)
  | 'b' :: rest =>
    match rest.splitOn ' ' with
    | [value, code] => (number? 2 value).map (.change code)
    | _ => none
  | _ => none

end Line

/-- Reads a text, each line of which ends with a line feed. -/
def lines? (text : List Char) : Option (List Line) :=
  let lines := text.splitOn '\n'
  if lines.getLast? = some [] then lines.dropLast.mapM Line.read? else none

/-- The text has these lines. -/
inductive Spells : List Char → List Line → Prop where
  | nil : Spells [] []
  | cons {l text : List Char} {x : Line} {xs : List Line} (hl : '\n' ∉ l) (hx : Line.read? l = some x)
      (h : Spells text xs) : Spells (l ++ '\n' :: text) (x :: xs)

variable {text text' : List Char} {xs ys : List Line}

theorem Spells.append (h : Spells text xs) (h' : Spells text' ys) : Spells (text ++ text') (xs ++ ys) := by
  induction h with
  | nil => exact h'
  | cons hl hx _ ih =>
    rw [List.append_assoc, List.cons_append]
    exact .cons hl hx ih

theorem Spells.line {l : List Char} {x : Line} (hl : '\n' ∉ l) (hx : Line.read? l = some x) :
    Spells (l ++ ['\n']) [x] := .cons hl hx .nil

theorem splitOn_first {α : Type} [BEq α] [LawfulBEq α] {sep : α} {w : List α} (h : sep ∉ w) (rest : List α) :
    (w ++ sep :: rest).splitOn sep = w :: rest.splitOn sep := by
  have hw : ∀ x ∈ w, (x == sep) = false := fun x hx => beq_eq_false_iff_ne.2 fun he => h (he ▸ hx)
  have hparts := List.splitOnP_append_cons (p := (· == sep)) w rest (beq_self_eq_true sep)
  rw [List.splitOnP_eq_singleton hw] at hparts
  exact hparts

theorem splitOn_last {α : Type} [BEq α] [LawfulBEq α] {sep : α} {w : List α} (h : sep ∉ w) : w.splitOn sep = [w] :=
  List.splitOnP_eq_singleton fun _ hx => beq_eq_false_iff_ne.2 fun he => h (he ▸ hx)

theorem Spells.lines? (h : Spells text xs) : lines? text = some xs := by
  suffices hsplit : (text.splitOn '\n').getLast? = some [] ∧ (text.splitOn '\n').dropLast.mapM Line.read? = some xs by
    rw [Dump.lines?, if_pos hsplit.1, hsplit.2]
  induction h with
  | nil => exact ⟨rfl, rfl⟩
  | @cons l text x xs hl hx _ ih =>
    have hne : text.splitOn '\n' ≠ [] := List.splitOnP_ne_nil _ _
    rw [splitOn_first hl, List.getLast?_cons_of_ne_nil hne, List.dropLast_cons_of_ne_nil hne, List.mapM_cons, hx, ih.2]
    exact ⟨ih.1, rfl⟩

/-! ### Words -/

/-- Neither the end of a line nor that of a word is in it. -/
def Unbroken (w : List Char) : Prop := ∀ c ∈ w, c ≠ '\n' ∧ c ≠ ' '

instance (w : List Char) : Decidable (Unbroken w) := List.decidableBAll (fun c => c ≠ '\n' ∧ c ≠ ' ') w

theorem Unbroken.line {w : List Char} (h : Unbroken w) : '\n' ∉ w := fun hc => (h _ hc).1 rfl

theorem Unbroken.word {w : List Char} (h : Unbroken w) : ' ' ∉ w := fun hc => (h _ hc).2 rfl

theorem unbroken_of_forall {p : Char → Prop} {w : List Char} (h : ∀ c ∈ w, p c) (hline : ¬ p '\n') (hspace : ¬ p ' ') :
    Unbroken w :=
  fun c hc => ⟨fun he => hline (he ▸ h c hc), fun he => hspace (he ▸ h c hc)⟩

theorem unbroken_of_plain {s : String} (h : ∀ c ∈ s.toList, c.isWhitespace = false) : Unbroken s.toList :=
  unbroken_of_forall h (by decide) (by decide)

theorem unbroken_idCode (n : Nat) : Unbroken (VcdRecorder.idCode n) :=
  unbroken_of_forall (fun _ hc => VcdRecorder.mem_idCode hc) (by decide) (by decide)

theorem unbroken_toDigits {b : Nat} (hpos : 0 < b) (hb : b ≤ 10) (n : Nat) : Unbroken (Nat.toDigits b n) :=
  unbroken_of_forall (fun _ hc => Nat.isDigit_of_mem_toDigits hpos hb hc) (by decide) (by decide)

theorem mem_toDigits {b n : Nat} (hb : 1 < b) {c : Char} (h : c ∈ Nat.toDigits b n) : ∃ d < b, c = d.digitChar := by
  induction n using Nat.strongRecOn with
  | _ n ih =>
    rw [Nat.toDigits_eq_if hb] at h
    split at h
    · exact ⟨n, ‹_›, List.mem_singleton.1 h⟩
    · rename_i hn
      rcases List.mem_append.1 h with h | h
      · exact ih (n / b) (Nat.div_lt_self (by omega) hb) h
      · exact ⟨n % b, Nat.mod_lt _ (by omega), List.mem_singleton.1 h⟩

/-- The digits of a number are read as that number. -/
theorem number?_toDigits {b : Nat} (hb : 1 < b) (hten : b ≤ 10) (n : Nat) : number? b (Nat.toDigits b n) = some n := by
  have hdigits : ((Nat.toDigits b n).all fun c => '0' ≤ c ∧ c.toNat < '0'.toNat + b) = true := by
    refine List.all_eq_true.2 fun c hc => decide_eq_true ?_
    obtain ⟨d, hd, rfl⟩ := mem_toDigits hb hc
    have hvalue := Nat.toNat_digitChar_of_lt_ten (Nat.lt_of_lt_of_le hd hten)
    have hzero : '0'.toNat = 48 := rfl
    rw [Char.le_def, UInt32.le_iff_toNat_le]
    change '0'.toNat ≤ d.digitChar.toNat ∧ _
    omega
  rw [number?, if_pos ⟨Nat.toDigits_ne_nil, hdigits⟩, Nat.ofDigitChars_toDigits hb hten]

/-! ### What a recorder writes -/

theorem not_mem_intercalate {α : Type} {x : α} {sep : List α} (hsep : x ∉ sep) {words : List (List α)}
    (h : ∀ w ∈ words, x ∉ w) : x ∉ sep.intercalate words := by
  induction words with
  | nil => exact List.not_mem_nil
  | cons w words ih =>
    have hw := h w (List.mem_cons_self ..)
    have ih := ih fun v hv => h v (List.mem_cons_of_mem _ hv)
    cases words with
    | nil => rwa [List.intercalate_singleton]
    | cons v words =>
      rw [List.intercalate_cons_cons, List.mem_append, List.mem_append, not_or, not_or]
      exact ⟨⟨hw, hsep⟩, ih⟩

/-- A command is a line of its own, and is read by its words. -/
theorem spells_command {words : List (List Char)} {x : Line} (h : ∀ w ∈ words, Unbroken w) (hne : words ≠ [])
    (hx : Line.ofCommand? words = some x) : Spells ('$' :: [' '].intercalate words ++ ['\n']) [x] := by
  refine .line (fun hmem => ?_) ?_
  · rcases List.mem_cons.1 hmem with he | hmem
    · exact absurd he (by decide)
    · exact not_mem_intercalate (by decide) (fun w hw => (h w hw).line) hmem
  · rw [Line.read?, List.splitOn_intercalate ' ' (fun w hw => (h w hw).word) hne, hx]

/-- Lines that are written for one item after the other. -/
theorem spells_flatMap {α : Type} {text : α → List Char} {line : α → Line} {l : List α}
    (h : ∀ x ∈ l, Spells (text x) [line x]) : Spells (l.flatMap text) (l.map line) := by
  induction l with
  | nil => exact .nil
  | cons x l ih =>
    have hrest := ih fun y hy => h y (List.mem_cons_of_mem _ hy)
    exact (h x (List.mem_cons_self ..)).append hrest

end Dump

namespace VcdRecorder

open Dump

theorem spells_varLine (i : Nat) {name : String} (h : Unbroken name.toList) (width : Nat) :
    Spells (varLine i name width).toList [.var ⟨name, width, idCode i⟩] := by
  have htext : (varLine i name width).toList =
      '$' :: [' '].intercalate ["var".toList, "wire".toList, Nat.toDigits 10 width, idCode i, name.toList, "$end".toList] ++
        ['\n'] := by
    simp [varLine, List.intercalate]
  rw [htext]
  refine spells_command ?_ (List.cons_ne_nil _ _) ?_
  · simp only [List.forall_mem_cons]
    exact ⟨by decide, by decide, unbroken_toDigits (by decide) (by decide) width, unbroken_idCode i, h, by decide,
      fun _ hw => nomatch hw⟩
  · simp only [Line.ofCommand?, List.map, String.ofList_toList, String.toList_ofList,
      number?_toDigits (b := 10) (by decide) (by decide), Option.map_some]

theorem spells_stamp (cycle : Nat) : Spells ("#" ++ toString cycle ++ "\n").toList [.stamp cycle] := by
  have htext : ("#" ++ toString cycle ++ "\n").toList = '#' :: Nat.toDigits 10 cycle ++ ['\n'] := by simp
  rw [htext]
  refine .line (fun hmem => ?_) ?_
  · rcases List.mem_cons.1 hmem with he | hmem
    · exact absurd he (by decide)
    · exact (unbroken_toDigits (by decide) (by decide) cycle).line hmem
  · rw [Line.read?, number?_toDigits (by decide) (by decide), Option.map_some]

theorem and_one_toNat {v : Word} (h : v.toNat < 2) : (v &&& 1).toNat = v.toNat := by
  rw [UInt64.toNat_and]
  exact (Nat.and_one_is_mod v.toNat).trans (Nat.mod_eq_of_lt h)

/-- A single bit is written in front of the code. -/
theorem spells_bit (i : Nat) {value : Nat} (h : value < 2) :
    Spells (toString value ++ String.ofList (idCode i) ++ "\n").toList [.change (idCode i) value] := by
  have hdigits : (toString value ++ String.ofList (idCode i) ++ "\n").toList =
      (Nat.toDigits 10 value ++ idCode i) ++ ['\n'] := by simp
  have hline : '\n' ∉ Nat.toDigits 10 value ++ idCode i := fun hmem => (List.mem_append.1 hmem).elim
    (unbroken_toDigits (by decide) (by decide) value).line (unbroken_idCode i).line
  rw [hdigits]
  refine .line hline ?_
  obtain rfl | rfl : value = 0 ∨ value = 1 := by omega
  · rfl
  · rfl

theorem spells_bits (i : Nat) (v : Word) :
    Spells ("b" ++ binary v ++ " " ++ String.ofList (idCode i) ++ "\n").toList [.change (idCode i) v.toNat] := by
  have hdigits := unbroken_toDigits (b := 2) (by decide) (by decide) v.toNat
  have hcode := unbroken_idCode i
  have htext : ("b" ++ binary v ++ " " ++ String.ofList (idCode i) ++ "\n").toList =
      'b' :: (Nat.toDigits 2 v.toNat ++ ' ' :: idCode i) ++ ['\n'] := by simp [binary]
  rw [htext]
  refine .line (fun hmem => ?_) ?_
  · simp only [List.mem_cons, List.mem_append] at hmem
    rcases hmem with he | hmem | he | hmem
    · exact absurd he (by decide)
    · exact hdigits.line hmem
    · exact absurd he (by decide)
    · exact hcode.line hmem
  · rw [Line.read?, splitOn_first hdigits.word, splitOn_last hcode.word]
    simp only [number?_toDigits (b := 2) (by decide) (by decide), Option.map_some]

/-- The value that is written is that of the change, if it fits. -/
theorem spells_changeLine (i : Nat) {width : Nat} {v : Word} (h : v.toNat < 2 ^ width) :
    Spells (changeLine i width v).toList [.change (idCode i) v.toNat] := by
  unfold changeLine
  simp only
  split
  · rename_i hwidth
    rw [hwidth] at h
    rw [and_one_toNat h]
    exact spells_bit i h
  · exact spells_bits i v

/-! ### Definitions -/

theorem spells_timescale : Spells "$timescale 1ns $end\n".toList [.timescale] := by
  have htext : "$timescale 1ns $end\n".toList =
      '$' :: [' '].intercalate ["timescale".toList, "1ns".toList, "$end".toList] ++ ['\n'] := by
    simp [List.intercalate]
  rw [htext]
  exact spells_command (by decide) (List.cons_ne_nil _ _) rfl

theorem spells_scope {scope : String} (h : Unbroken scope.toList) :
    Spells ("$scope module " ++ scope ++ " $end\n").toList [.scope scope] := by
  have htext : ("$scope module " ++ scope ++ " $end\n").toList =
      '$' :: [' '].intercalate ["scope".toList, "module".toList, scope.toList, "$end".toList] ++ ['\n'] := by
    simp [List.intercalate]
  rw [htext]
  refine spells_command ?_ (List.cons_ne_nil _ _) ?_
  · simp only [List.forall_mem_cons]
    exact ⟨by decide, by decide, h, by decide, fun _ hw => nomatch hw⟩
  · simp only [Line.ofCommand?, List.map, String.ofList_toList]

theorem spells_closing : Spells "$upscope $end\n$enddefinitions $end\n".toList [.upscope, .endDefinitions] := by
  have htext : "$upscope $end\n$enddefinitions $end\n".toList =
      ('$' :: [' '].intercalate ["upscope".toList, "$end".toList] ++ ['\n']) ++
        ('$' :: [' '].intercalate ["enddefinitions".toList, "$end".toList] ++ ['\n']) := by
    simp [List.intercalate]
  rw [htext]
  exact (spells_command (by decide) (List.cons_ne_nil _ _) rfl).append
    (spells_command (by decide) (List.cons_ne_nil _ _) rfl)

/-- The registered signals as variables. -/
def declared (r : VcdRecorder) : List Var := r.vars.mapIdx fun i x => ⟨x.2.1, x.2.2, idCode i⟩

/-- The lines of the definitions. -/
def header (r : VcdRecorder) : List Line :=
  [.timescale] ++ [.scope r.scope] ++ r.declared.map .var ++ [.upscope, .endDefinitions]

theorem spells_definitions (r : VcdRecorder) (hscope : Unbroken r.scope.toList)
    (hnames : ∀ x ∈ r.vars, Unbroken x.2.1.toList) : Spells r.definitions.toList r.header := by
  unfold definitions
  generalize hbody : String.join (r.vars.mapIdx _) = body
  have hvars : Spells body.toList (r.declared.map .var) := by
    rw [← hbody, String.toList_join, declared, List.mapIdx_eq_zipIdx_map, List.mapIdx_eq_zipIdx_map, List.flatMap_map,
      List.map_map]
    exact spells_flatMap fun x hx => spells_varLine x.2 (hnames x.1 (List.fst_mem_of_mem_zipIdx hx)) _
  have hfirst : "$timescale 1ns $end\n$scope module ".toList =
      "$timescale 1ns $end\n".toList ++ "$scope module ".toList := by simp
  have htext : ("$timescale 1ns $end\n$scope module " ++ r.scope ++ " $end\n" ++ body ++
      "$upscope $end\n$enddefinitions $end\n").toList = "$timescale 1ns $end\n".toList ++
      ("$scope module " ++ r.scope ++ " $end\n").toList ++ body.toList ++ "$upscope $end\n$enddefinitions $end\n".toList := by
    simp only [String.toList_append, hfirst, List.append_assoc]
  rw [htext]
  exact ((spells_timescale.append (spells_scope hscope)).append hvars).append spells_closing

end VcdRecorder

end Interlock
