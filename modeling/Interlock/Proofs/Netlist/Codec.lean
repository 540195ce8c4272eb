import Interlock.Netlist.Codec
import Interlock.Proofs.Json.Decode

/-! Netlists as JSON. The compact text of a netlist is read back as the netlist, with all names, stored identifiers and
numbers, as long as its drivers are not too high: each level of an expression is written as two containers inside each
other, three more are around a driver, and a reader opens a bounded number of containers at a time. -/

namespace Interlock

open Json

/-! ### Operators and kinds -/

theorem UnaryOp.decodes_ofJson? (depth : Nat) (op : UnaryOp) : Decodes (UnaryOp.ofJson? depth (text op.name)) op True := by
  have hname : UnaryOp.ofName? op.name = some op := by cases op <;> decide
  exact ((decodes_toName? depth op.name).bind (hname ▸ .of_some op)).congr (and_self_iff)

theorem BinaryOp.decodes_ofJson? (depth : Nat) (op : BinaryOp) : Decodes (BinaryOp.ofJson? depth (text op.name)) op True := by
  have hname : BinaryOp.ofName? op.name = some op := by cases op <;> decide
  exact ((decodes_toName? depth op.name).bind (hname ▸ .of_some op)).congr (and_self_iff)

theorem SignalKind.decodes_ofName? (kind : SignalKind) : Decodes (ofName? kind.name) kind True := by
  have hname : ofName? kind.name = some kind := by cases kind <;> decide
  exact hname ▸ .of_some kind

/-! ### Expressions -/

namespace Expr

mutual
/-- The number of nodes on the longest way down to a leaf. -/
def height : Expr → Nat
  | const .. | signal .. => 1
  | unary _ e => e.height + 1
  | binary _ a b => max a.height b.height + 1
  | mux s t f => max s.height (max t.height f.height) + 1
  | slice b _ _ => b.height + 1
  | concat ps => heightAll ps + 1

def heightAll : List Expr → Nat
  | [] => 0
  | p :: ps => max p.height (heightAll ps)
end

mutual
/-- The numbers in the expression that are stored in 32 bits. -/
def counts : Expr → List Nat
  | const _ w => [w]
  | signal i w => [i, w]
  | unary _ e => e.counts
  | binary _ a b => a.counts ++ b.counts
  | mux s t f => s.counts ++ (t.counts ++ f.counts)
  | slice b high low => b.counts ++ [high, low]
  | concat ps => countsAll ps

def countsAll : List Expr → List Nat
  | [] => []
  | p :: ps => p.counts ++ countsAll ps
end

/-- The expression can be read where `depth` counts the containers that may be opened, plus one. -/
def Readable (depth : Nat) (e : Expr) : Prop := 2 * e.height < depth ∧ ∀ c ∈ e.counts, c < wordLimit

theorem height_pos (e : Expr) : 0 < e.height := by
  cases e <;> simp only [height] <;> omega

theorem readable_concat {depth : Nat} {ps : List Expr} :
    Readable (depth + 2) (concat ps) ↔ 0 < depth ∧ ∀ p ∈ ps, Readable depth p := by
  have hall : (2 * heightAll ps < depth ∧ ∀ c ∈ countsAll ps, c < wordLimit) ↔ 0 < depth ∧ ∀ p ∈ ps, Readable depth p := by
    induction ps with
    | nil => simp [heightAll, countsAll]
    | cons p ps ih =>
      have hmax : 2 * max p.height (heightAll ps) < depth ↔ 2 * p.height < depth ∧ 2 * heightAll ps < depth := by omega
      simp only [heightAll, countsAll, hmax, List.forall_mem_append, List.forall_mem_cons]
      grind [Readable]
  have hheight : 2 * (heightAll ps + 1) < depth + 2 ↔ 2 * heightAll ps < depth := by omega
  rw [Readable, height, counts, hheight, hall]

theorem toJsonAll_eq (ps : List Expr) : toJsonAll ps = ps.map toJson := by
  induction ps with
  | nil => rfl
  | cons p ps ih => rw [toJsonAll, ih, List.map_cons]

theorem written_variant {name : String} {content : Json} (h : Written content) : Written (variant name content) :=
  .record (List.forall_mem_singleton.2 h)

theorem written_toJson (e : Expr) : Written e.toJson := by
  induction e with
  | const v w => exact written_variant (.record (by simp [Written.nat]))
  | signal i w => exact written_variant (.record (by simp [Written.nat]))
  | unary op e ih => exact written_variant (.record (by simp [Written.text, ih]))
  | binary op a b iha ihb => exact written_variant (.record (by simp [Written.text, iha, ihb]))
  | mux s t f ihs iht ihf => exact written_variant (.record (by simp [ihs, iht, ihf]))
  | slice b high low ih => exact written_variant (.record (by simp [Written.nat, ih]))
  | concat ps ih =>
    refine written_variant (.array ?_)
    rw [toJsonAll_eq]
    exact List.forall_mem_map.2 ih

/-- An expression is not read where less than two more containers may be opened. -/
theorem decodes_of_open {e : Expr} (h : ∀ depth, Decodes (ofJson? (depth + 2) e.toJson) e (Readable (depth + 2) e)) :
    ∀ depth, Decodes (ofJson? depth e.toJson) e (Readable depth e)
  | 0 => .of_not fun hr => absurd hr.1 (Nat.not_lt_zero _)
  | 1 => .of_not fun hr => absurd hr.1 (by have := e.height_pos; omega)
  | depth + 2 => h depth

theorem decodes_ofJson? (e : Expr) : ∀ depth, Decodes (ofJson? depth e.toJson) e (Readable depth e) := by
  induction e with
  | const v w =>
    refine decodes_of_open fun depth => ?_
    simp only [toJson, ofJson?, variant, openVariant?_record, Option.bind_eq_bind, Option.bind_some, String.ofList_toList]
    refine ((decodes_openRecord? (depth + 1) ["value", "width"] rfl (by decide)).bind
      ((decodes_toWord? v).bind ((decodes_toCount? w).map (const v)))).congr ?_
    grind [Readable, height, counts]
  | signal i w =>
    refine decodes_of_open fun depth => ?_
    simp only [toJson, ofJson?, variant, openVariant?_record, Option.bind_eq_bind, Option.bind_some, String.ofList_toList]
    refine ((decodes_openRecord? (depth + 1) ["id", "width"] rfl (by decide)).bind
      ((decodes_toCount? i).bind ((decodes_toCount? w).map (signal i)))).congr ?_
    grind [Readable, height, counts]
  | unary op e ih =>
    refine decodes_of_open fun depth => ?_
    simp only [toJson, ofJson?, variant, openVariant?_record, Option.bind_eq_bind, Option.bind_some, String.ofList_toList]
    refine ((decodes_openRecord? (depth + 1) ["op", "operand"] rfl (by decide)).bind
      ((op.decodes_ofJson? depth).bind ((ih depth).map (unary op)))).congr ?_
    grind [Readable, height, counts]
  | binary op a b iha ihb =>
    refine decodes_of_open fun depth => ?_
    simp only [toJson, ofJson?, variant, openVariant?_record, Option.bind_eq_bind, Option.bind_some, String.ofList_toList]
    refine ((decodes_openRecord? (depth + 1) ["op", "lhs", "rhs"] rfl (by decide)).bind
      ((op.decodes_ofJson? depth).bind ((iha depth).bind ((ihb depth).map (binary op a))))).congr ?_
    grind [Readable, height, counts]
  | mux s t f ihs iht ihf =>
    refine decodes_of_open fun depth => ?_
    simp only [toJson, ofJson?, variant, openVariant?_record, Option.bind_eq_bind, Option.bind_some, String.ofList_toList]
    refine ((decodes_openRecord? (depth + 1) ["sel", "on_true", "on_false"] rfl (by decide)).bind
      ((ihs depth).bind ((iht depth).bind ((ihf depth).map (mux s t))))).congr ?_
    grind [Readable, height, counts]
  | slice b high low ih =>
    refine decodes_of_open fun depth => ?_
    simp only [toJson, ofJson?, variant, openVariant?_record, Option.bind_eq_bind, Option.bind_some, String.ofList_toList]
    refine ((decodes_openRecord? (depth + 1) ["base", "high", "low"] rfl (by decide)).bind
      ((ih depth).bind ((decodes_toCount? high).bind ((decodes_toCount? low).map (slice b high))))).congr ?_
    grind [Readable, height, counts]
  | concat ps ih =>
    refine decodes_of_open fun depth => ?_
    simp only [toJson, ofJson?, variant, openVariant?_record, Option.bind_eq_bind, Option.bind_some, String.ofList_toList,
      toJsonAll_eq]
    refine ((decodes_openList? (depth + 1) _).bind
      ((Decodes.mapM fun p hp => ih p hp depth).map concat)).congr ?_
    rw [readable_concat]
    exact and_congr_left' (by omega)

theorem decodes_decode? (e : Expr) : Decodes (decode? e.encode) e (Readable depthLimit e) := by
  rw [decode?, encode, compact, String.toList_ofList, e.written_toJson.read?]
  exact decodes_ofJson? e depthLimit

end Expr

/-! ### Signals and assignments -/

namespace Signal

/-- The numbers of the signal that are stored in 32 bits. -/
def counts (s : Signal) : List Nat := [s.id, s.width]

theorem written_toJson (s : Signal) : Written s.toJson := .record (by simp [Written.nat, Written.text])

theorem decodes_ofJson? (depth : Nat) (s : Signal) :
    Decodes (ofJson? depth s.toJson) s (2 ≤ depth ∧ ∀ c ∈ s.counts, c < wordLimit) := by
  refine ((decodes_openRecord? depth ["id", "name", "width", "kind", "init"] rfl (by decide)).bind
    ((decodes_toCount? s.id).bind ((decodes_toText? s.name).bind ((decodes_toCount? s.width).bind
      ((decodes_toName? _ s.kind.name).bind (s.kind.decodes_ofName?.bind
        ((decodes_toWord? s.init).map (mk s.id s.name s.width s.kind)))))))).congr ?_
  simp [counts]

end Signal

namespace Assign

/-- The numbers of the assignment that are stored in 32 bits. -/
def counts (a : Assign) : List Nat := a.target :: a.value.counts

theorem written_toJson (a : Assign) : Written a.toJson := .record (by simp [Written.nat, a.value.written_toJson])

theorem decodes_ofJson? (depth : Nat) (a : Assign) :
    Decodes (ofJson? depth a.toJson) a (2 * a.value.height + 1 < depth ∧ ∀ c ∈ a.counts, c < wordLimit) := by
  refine ((decodes_openRecord? depth ["target", "value"] rfl (by decide)).bind
    ((decodes_toCount? a.target).bind ((a.value.decodes_ofJson? (depth - 1)).map (mk a.target)))).congr ?_
  have hdepth : 2 ≤ depth ∧ 2 * a.value.height < depth - 1 ↔ 2 * a.value.height + 1 < depth := by
    have := a.value.height_pos
    omega
  rw [Expr.Readable, counts, List.forall_mem_cons, ← hdepth]
  tauto

end Assign

theorem Arena.decodes_ofJson? {α : Type} {read : Nat → Json → Option α} {write : α → Json} {fits : α → Prop} (depth : Nat)
    (a : Arena α) (h : ∀ x ∈ a.toList, Decodes (read (depth - 2) (write x)) x (fits x)) :
    Decodes (Arena.ofJson? read depth (a.toJson write)) a (3 ≤ depth ∧ ∀ x ∈ a.toList, fits x) := by
  simp only [Arena.ofJson?, Arena.toJson, Option.bind_eq_bind]
  refine ((decodes_openRecord? depth ["items"] rfl (by decide)).bind
    ((decodes_openList? (depth - 1) (a.toList.map write)).bind ((Decodes.mapM h).map ofList))).congr ?_
  rw [← and_assoc]
  exact and_congr_left' (by omega)

/-! ### Netlists -/

namespace Netlist

/-- The numbers of the netlist that are stored in 32 bits. -/
def counts (n : Netlist) : List Nat :=
  n.signals.toList.flatMap Signal.counts ++ (n.comb ++ n.sync).flatMap Assign.counts

theorem written_toJson (n : Netlist) : Written n.toJson := by
  have hsignals : Written (n.signals.toJson Signal.toJson) :=
    .record (by simpa using .array (List.forall_mem_map.2 fun s _ => s.written_toJson))
  have hassigns (as : List Assign) : Written (.array (as.map Assign.toJson)) :=
    .array (List.forall_mem_map.2 fun a _ => a.written_toJson)
  exact .record (by simp [Written.text, hsignals, hassigns])

theorem decodes_decode? (n : Netlist) :
    Decodes (decode? n.encode) n
      ((∀ c ∈ n.counts, c < wordLimit) ∧ ∀ a ∈ n.comb ++ n.sync, 2 * a.value.height + 3 < depthLimit) := by
  rw [decode?, encode, compact, String.toList_ofList, n.written_toJson.read?]
  simp only [Option.bind_some, ofJson?, toJson, Option.bind_eq_bind]
  have hassigns (as : List Assign) := Decodes.mapM fun a (_ : a ∈ as) => a.decodes_ofJson? (depthLimit - 2)
  refine ((decodes_openRecord? depthLimit ["name", "signals", "comb", "sync"] rfl (by decide)).bind
    ((decodes_toText? n.name).bind
      ((n.signals.decodes_ofJson? (depthLimit - 1) fun s _ => s.decodes_ofJson? _).bind
        ((decodes_openList? (depthLimit - 1) _).bind ((hassigns n.comb).bind
          ((decodes_openList? (depthLimit - 1) _).bind
            ((hassigns n.sync).map (mk n.name n.signals n.comb)))))))).congr ?_
  have hroom : 5 ≤ depthLimit := by decide
  have hheight (a : Assign) : 2 * a.value.height + 1 < depthLimit - 2 ↔ 2 * a.value.height + 3 < depthLimit := by omega
  simp only [hheight, counts, List.flatMap_append, List.forall_mem_append, List.forall_mem_flatMap, forall_and]
  grind

/-- A netlist is read back from its text, with all names, stored identifiers and numbers, exactly if its numbers fit
32 bits and its drivers are not too high. -/
theorem decode_encode (n : Netlist) :
    decode? n.encode =
      if (∀ c ∈ n.counts, c < wordLimit) ∧ ∀ a ∈ n.comb ++ n.sync, 2 * a.value.height + 3 < depthLimit then some n
      else none :=
  (decodes_decode? n).eq_ite

/-- A wire that follows an input through so many inverters. -/
def inverters (count : Nat) : Netlist where
  name := "inverters"
  signals := .ofList [⟨0, "in", 1, .input, 0⟩, ⟨1, "out", 1, .wire, 0⟩]
  comb := [⟨1, Nat.repeat (.unary .not) count (.signal 0 1)⟩]

/-- The text of a netlist with 62 inverters in a row is not read, although all of its numbers fit. -/
theorem inverters_unread :
    (∀ c ∈ (inverters 62).counts, c < wordLimit) ∧ decode? (inverters 62).encode = none := by
  have hhigh : ¬∀ a ∈ (inverters 62).comb ++ (inverters 62).sync, 2 * a.value.height + 3 < depthLimit := by decide +kernel
  have hread := (decodes_decode? (inverters 62)).eq_ite
  rw [if_neg fun h => hhigh h.2] at hread
  exact ⟨by decide +kernel, hread⟩

end Netlist

end Interlock
