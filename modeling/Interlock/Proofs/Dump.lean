import Interlock.Proofs.Dump.Line
import Interlock.Proofs.Simulation.Events

/-! What a value change dump says. A reader takes it line by line: sections of definitions first, then timestamps and
the changes at them, each of a variable that has been defined. What it reads from the text of a recorder are the changes
that the recorder was told of. The definitions stand ahead of them, but once more for each call of `finalize` ahead of
the first change. -/

namespace Interlock

namespace Dump

/-- A section of definitions. -/
structure Definitions where
  scope : String
  vars : List Var := []
deriving DecidableEq, Repr

/-- Where a reader is: outside of definitions, somewhere in a section of them, or past a timestamp. -/
inductive Stage where
  | outside
  | opened
  | declaring (d : Definitions)
  | closing (d : Definitions)
  | timed (cycle : Nat)
deriving DecidableEq, Repr

/-- What has been read. -/
structure Reading where
  stage : Stage := .outside
  sections : List Definitions := []
  events : List Event := []
deriving DecidableEq, Repr

/-- Reads one line more. A change is of the variable with its code in the last section, and variables stand for signals
in the order of their declaration. After a timestamp there are no definitions any more. -/
def Reading.step (ids : List SignalId) (x : Reading) (l : Line) : Option Reading :=
  match x.stage, l with
  | .outside, .timescale => some { x with stage := .opened }
  | .opened, .scope name => some { x with stage := .declaring ⟨name, []⟩ }
  | .declaring d, .var v => some { x with stage := .declaring ⟨d.scope, d.vars ++ [v]⟩ }
  | .declaring d, .upscope => some { x with stage := .closing d }
  | .closing d, .endDefinitions => some { x with stage := .outside, sections := x.sections ++ [d] }
  | .outside, .stamp cycle => some { x with stage := .timed cycle }
  | .timed _, .stamp cycle => some { x with stage := .timed cycle }
  | .timed cycle, .change code value => do
    let d ← x.sections.getLast?
    let i ← d.vars.findIdx? fun v => v.code == code
    let id ← ids[i]?
    return { x with events := x.events ++ [⟨cycle, id, UInt64.ofNat value⟩] }
  | _, _ => none

/-- The sections of definitions and the changes in a text; none if it is no dump. -/
def decode (ids : List SignalId) (text : String) : Option (List Definitions × List Event) := do
  let lines ← lines? text.toList
  let x ← lines.foldlM (Reading.step ids) {}
  match x.stage with
  | .outside | .timed _ => return (x.sections, x.events)
  | _ => none

/-- Variables are read one after the other. -/
theorem foldlM_vars (ids : List SignalId) (vars : List Var) (d : Definitions) (ss : List Definitions) (es : List Event) :
    (vars.map Line.var).foldlM (Reading.step ids) ⟨.declaring d, ss, es⟩ =
      some ⟨.declaring ⟨d.scope, d.vars ++ vars⟩, ss, es⟩ := by
  induction vars generalizing d with
  | nil =>
    rw [List.append_nil]
    rfl
  | cons v vars ih =>
    rw [List.map_cons, List.foldlM_cons]
    show (vars.map Line.var).foldlM (Reading.step ids) ⟨.declaring ⟨d.scope, d.vars ++ [v]⟩, ss, es⟩ = _
    rw [ih, List.append_assoc, List.singleton_append]

/-- What is read from a text that ends with a line. -/
def Reads (ids : List SignalId) (text : String) (x : Reading) : Prop :=
  ∃ lines, Spells text.toList lines ∧ lines.foldlM (Reading.step ids) {} = some x

theorem Reads.append {ids : List SignalId} {text more : String} {x y : Reading} (h : Reads ids text x) {lines : List Line}
    (hmore : Spells more.toList lines) (hlines : lines.foldlM (Reading.step ids) x = some y) :
    Reads ids (text ++ more) y := by
  obtain ⟨before, hbefore, hread⟩ := h
  refine ⟨before ++ lines, ?_, ?_⟩
  · rw [String.toList_append]
    exact hbefore.append hmore
  · rw [List.foldlM_append, hread]
    exact hlines

end Dump

namespace VcdRecorder

open Dump

variable {r : VcdRecorder} {out : Outlet} {ss : List Definitions} {es : List Event}

/-- The section of definitions that a recorder writes. -/
def definitionsSection (r : VcdRecorder) : Definitions := ⟨r.scope, r.declared⟩

/-- The registered signals. -/
def ids (r : VcdRecorder) : List SignalId := r.vars.map (·.1)

theorem header_reads (r : VcdRecorder) (ids : List SignalId) (ss : List Definitions) (es : List Event) :
    r.header.foldlM (Reading.step ids) ⟨.outside, ss, es⟩ = some ⟨.outside, ss ++ [r.definitionsSection], es⟩ := by
  have hvars := foldlM_vars ids r.declared ⟨r.scope, []⟩ ss es
  simp only [header, List.foldlM_append]
  show ((r.declared.map Line.var).foldlM (Reading.step ids) ⟨.declaring ⟨r.scope, []⟩, ss, es⟩ >>= _) = _
  rw [hvars]
  rfl

/-- Where a reader is after all that a recorder has written. -/
def stage (r : VcdRecorder) : Stage :=
  match r.cycle with
  | none => .outside
  | some cycle => .timed cycle

/-- A recorder with names that can be read, an outlet that accepts all, and what a reader makes of its text. -/
structure Writes (r : VcdRecorder) (out : Outlet) (ss : List Definitions) (es : List Event) : Prop where
  accepting : out.refusing = false
  scope : Unbroken r.scope.toList
  names : ∀ x ∈ r.vars, Unbroken x.2.1.toList
  text : Reads r.ids out.text ⟨r.stage, ss, es⟩
  defined : r.cycle ≠ none → ss.getLast? = some r.definitionsSection

/-- The sections of definitions once they have been written, if there is no timestamp yet. -/
def defining (r : VcdRecorder) (ss : List Definitions) : List Definitions :=
  if r.cycle.isNone then ss ++ [r.definitionsSection] else ss

theorem Writes.define (h : r.Writes out ss es) :
    Reads r.ids (out.text ++ if r.cycle.isNone then r.definitions else "") ⟨r.stage, r.defining ss, es⟩ ∧
      (r.defining ss).getLast? = some r.definitionsSection := by
  have htext := h.text
  unfold stage at htext
  unfold stage defining
  cases hcycle : r.cycle with
  | none =>
    rw [hcycle] at htext
    exact ⟨htext.append (spells_definitions r h.scope h.names) (header_reads r r.ids ss es), List.getLast?_concat⟩
  | some cycle =>
    rw [hcycle] at htext
    refine ⟨?_, h.defined (by rw [hcycle]; exact Option.some_ne_none cycle)⟩
    show Reads r.ids (out.text ++ "") _
    rw [String.append_empty]
    exact htext

/-- A call of `finalize` writes the definitions unless there is a timestamp. -/
theorem Writes.finalize (h : r.Writes out ss es) : ∃ out', r.finalize out = ⟨r, out', none⟩ ∧
    r.Writes out' (r.defining ss) es := by
  unfold VcdRecorder.finalize
  rw [if_neg (by rw [h.accepting]; exact Bool.false_ne_true)]
  exact ⟨_, rfl, h.accepting, h.scope, h.names, h.define.1, fun _ => h.define.2⟩

/-- A change of a signal that is not registered is not recorded. -/
theorem recordChange_unregistered {id : SignalId} (h : id ∉ r.ids) (cycle : Nat) (v : Word) (out : Outlet) :
    recordChange cycle id v r out = ⟨r, out, none⟩ := by
  have hnone : r.vars.findIdx? (fun x => x.1 == id) = none := by
    refine List.findIdx?_eq_none_iff.2 fun x hx => beq_eq_false_iff_ne.2 fun he => h ?_
    exact List.mem_map.2 ⟨x, hx, he⟩
  rw [recordChange, changeText?, hnone]
  rfl

/-- A registered signal has a variable, which is found by its code. -/
theorem exists_var {id : SignalId} (h : id ∈ r.ids) : ∃ i name width, r.vars.findIdx? (fun x => x.1 == id) = some i ∧
    r.vars[i]? = some (id, name, width) ∧ r.ids[i]? = some id ∧
      (r.declared.findIdx? fun v => v.code == idCode i) = some i := by
  obtain ⟨x, hx, rfl⟩ := List.mem_map.1 h
  have hsome : (r.vars.findIdx? fun y => y.1 == x.1).isSome := by
    rw [List.findIdx?_isSome]
    exact List.any_eq_true.2 ⟨x, hx, beq_self_eq_true x.1⟩
  obtain ⟨i, hi⟩ := Option.isSome_iff_exists.1 hsome
  obtain ⟨hlt, hid, -⟩ := List.findIdx?_eq_some_iff_getElem.1 hi
  have hid : r.vars[i].1 = x.1 := beq_iff_eq.1 hid
  refine ⟨i, r.vars[i].2.1, r.vars[i].2.2, hi, ?_, ?_, ?_⟩
  · rw [List.getElem?_eq_getElem hlt, ← hid]
  · rw [ids, List.getElem?_map, List.getElem?_eq_getElem hlt, Option.map_some, hid]
  · refine List.findIdx?_eq_some_iff_getElem.2 ⟨by rwa [declared, List.length_mapIdx], ?_, fun j hj hcode => ?_⟩
    · simp only [declared, List.getElem_mapIdx, beq_self_eq_true]
    · simp only [declared, List.getElem_mapIdx, beq_iff_eq] at hcode
      exact absurd (idCode_injective hcode) (Nat.ne_of_lt hj)

/-- A timestamp is written where the cycle is another one than before. -/
theorem reads_stamp {ids : List SignalId} {text : String} (h : Reads ids text ⟨r.stage, ss, es⟩) (cycle : Nat) :
    Reads ids (text ++ if r.cycle = some cycle then "" else "#" ++ toString cycle ++ "\n") ⟨.timed cycle, ss, es⟩ := by
  unfold stage at h
  split
  · rename_i hcycle
    rw [hcycle] at h
    rw [String.append_empty]
    exact h
  · refine h.append (spells_stamp cycle) ?_
    cases r.cycle <;> rfl

/-- The signal and the value of a change are read from its line. -/
theorem reads_changeLine {text : String} {cycle i width : Nat} {id : SignalId} {v : Word}
    (h : Reads r.ids text ⟨.timed cycle, ss, es⟩) (hss : ss.getLast? = some r.definitionsSection)
    (hcode : (r.declared.findIdx? fun x => x.code == idCode i) = some i) (hid : r.ids[i]? = some id)
    (hv : v.toNat < 2 ^ width) : Reads r.ids (text ++ changeLine i width v) ⟨.timed cycle, ss, es ++ [⟨cycle, id, v⟩]⟩ := by
  refine h.append (spells_changeLine i hv) ?_
  have hstep : Reading.step r.ids ⟨.timed cycle, ss, es⟩ (.change (idCode i) v.toNat) =
      some ⟨.timed cycle, ss, es ++ [⟨cycle, id, UInt64.ofNat v.toNat⟩]⟩ := by
    simp only [Reading.step, hss, definitionsSection, hcode, hid, Option.bind_eq_bind, Option.bind_some, Option.pure_def]
  rw [List.foldlM_cons, hstep, UInt64.ofNat_toNat]
  rfl

/-- A change of a registered signal is recorded. -/
theorem Writes.change (h : r.Writes out ss es) (cycle : Nat) {id : SignalId} {v : Word} (hid : id ∈ r.ids)
    (hv : ∀ name width, (id, name, width) ∈ r.vars → v.toNat < 2 ^ width) : ∃ out',
    recordChange cycle id v r out = ⟨{ r with cycle := some cycle }, out', none⟩ ∧
      Writes { r with cycle := some cycle } out' (r.defining ss) (es ++ [⟨cycle, id, v⟩]) := by
  obtain ⟨i, name, width, hi, hvar, hget, hcode⟩ := exists_var hid
  have htext : r.changeText? cycle id v = some ((if r.cycle.isNone then r.definitions else "") ++
      ((if r.cycle = some cycle then "" else "#" ++ toString cycle ++ "\n") ++ changeLine i width v)) := by
    simp only [changeText?, hi, hvar, Option.bind_eq_bind, Option.bind_some, Option.pure_def, String.append_assoc]
  obtain ⟨hdefine, hlast⟩ := h.define
  have hstamp := reads_stamp hdefine cycle
  have hchange := reads_changeLine hstamp hlast hcode hget (hv name width (List.mem_of_getElem? hvar))
  rw [String.append_assoc, String.append_assoc] at hchange
  unfold recordChange
  rw [htext]
  simp only
  rw [if_neg (by rw [h.accepting]; exact Bool.false_ne_true)]
  exact ⟨_, rfl, h.accepting, h.scope, h.names, hchange, fun _ => hlast⟩

/-! ### Calls -/

/-- A call of a recorder once all signals are registered. -/
inductive Call where
  | change (cycle : Nat) (id : SignalId) (value : Word)
  | finalize

namespace Call

/-- The change that the call tells of, if the signal is registered. -/
def event? (ids : List SignalId) : Call → Option Event
  | .change cycle id v => if id ∈ ids then some ⟨cycle, id, v⟩ else none
  | .finalize => none

/-- A value fits the widths that its signal is registered with. -/
def Fits (vars : List (SignalId × String × Nat)) : Call → Prop
  | .change _ id v => ∀ name width, (id, name, width) ∈ vars → v.toNat < 2 ^ width
  | .finalize => True

/-- How often the calls write the definitions: for each call of `finalize` up to the first change of a registered
signal, and for that change. -/
def sections (ids : List SignalId) : List Call → Nat
  | [] => 0
  | .change _ id _ :: calls => if id ∈ ids then 1 else sections ids calls
  | .finalize :: calls => sections ids calls + 1

end Call

/-- What a recorder and its outlet are after a call. -/
def answer (r : VcdRecorder) (out : Outlet) : Call → Reply VcdRecorder Outlet
  | .change cycle id v => Recorder.change cycle id v r out
  | .finalize => Recorder.finish r out

/-- What they are after some calls, up to the first that fails. -/
def answerAll : List Call → VcdRecorder → Outlet → Reply VcdRecorder Outlet
  | [], r, out => ⟨r, out, none⟩
  | c :: calls, r, out =>
    match r.answer out c with
    | ⟨r, out, none⟩ => answerAll calls r out
    | failed => failed

theorem answerAll_cons {c : Call} {calls : List Call} {r r₁ : VcdRecorder} {out out₁ : Outlet}
    (h : r.answer out c = ⟨r₁, out₁, none⟩) : answerAll (c :: calls) r out = answerAll calls r₁ out₁ := by
  rw [answerAll, h]

/-- How often the calls write the definitions from here on. -/
def sections (r : VcdRecorder) (calls : List Call) : Nat := if r.cycle.isNone then Call.sections r.ids calls else 0

/-- Every call succeeds, and the text goes on as they say. -/
theorem Writes.answerAll (calls : List Call) : ∀ {r : VcdRecorder} {out : Outlet} {ss : List Definitions} {es : List Event},
    r.Writes out ss es → (∀ c ∈ calls, c.Fits r.vars) → ∃ r' out', answerAll calls r out = ⟨r', out', none⟩ ∧
      r'.ids = r.ids ∧ r'.Writes out' (ss ++ List.replicate (r.sections calls) r.definitionsSection)
        (es ++ calls.filterMap (Call.event? r.ids)) := by
  induction calls with
  | nil =>
    intro r out ss es h _
    refine ⟨r, out, rfl, rfl, ?_⟩
    have hnone : r.sections [] = 0 := by simp [sections, Call.sections]
    rwa [hnone, List.replicate_zero, List.append_nil, List.filterMap_nil, List.append_nil]
  | cons c calls ih =>
    intro r out ss es h hfits
    have hrest : ∀ c ∈ calls, c.Fits r.vars := fun c hc => hfits c (List.mem_cons_of_mem _ hc)
    cases c with
    | finalize =>
      obtain ⟨out₁, hcall, h₁⟩ := h.finalize
      obtain ⟨r', out', hcalls, hids, h'⟩ := ih h₁ hrest
      refine ⟨r', out', (answerAll_cons (c := .finalize) hcall).trans hcalls, hids, ?_⟩
      have hsections : r.defining ss ++ List.replicate (r.sections calls) r.definitionsSection =
          ss ++ List.replicate (r.sections (.finalize :: calls)) r.definitionsSection := by
        unfold defining sections
        split
        · rw [Call.sections, List.replicate_succ, List.append_assoc, List.singleton_append]
        · rfl
      rw [hsections] at h'
      exact h'
    | change cycle id v =>
      by_cases hid : id ∈ r.ids
      · obtain ⟨out₁, hcall, h₁⟩ := h.change cycle hid (hfits _ (List.mem_cons_self ..))
        obtain ⟨r', out', hcalls, hids, h'⟩ := ih h₁ hrest
        refine ⟨r', out', (answerAll_cons (c := .change cycle id v) hcall).trans hcalls, hids, ?_⟩
        -- With a timestamp there is at most the section that has been written for it.
        have hsections : r.defining ss = ss ++ List.replicate (r.sections (.change cycle id v :: calls)) r.definitionsSection := by
          unfold defining sections
          split
          · rw [Call.sections, if_pos hid, List.replicate_one]
          · rw [List.replicate_zero, List.append_nil]
        have hevent : Call.event? r.ids (.change cycle id v) = some ⟨cycle, id, v⟩ := if_pos hid
        rw [List.filterMap_cons_some hevent, List.append_cons, ← hsections]
        have hzero : VcdRecorder.sections { r with cycle := some cycle } calls = 0 := rfl
        rw [hzero, List.replicate_zero, List.append_nil] at h'
        exact h'
      · have hcall : r.answer out (.change cycle id v) = ⟨r, out, none⟩ := recordChange_unregistered hid cycle v out
        obtain ⟨r', out', hcalls, hids, h'⟩ := ih h hrest
        refine ⟨r', out', (answerAll_cons hcall).trans hcalls, hids, ?_⟩
        have hevent : Call.event? r.ids (.change cycle id v) = none := if_neg hid
        have hsections : r.sections (.change cycle id v :: calls) = r.sections calls := by
          unfold sections
          rw [Call.sections, if_neg hid]
        rwa [List.filterMap_cons_none hevent, hsections]

/-- A text that ends like this is a dump. -/
theorem Writes.decode (h : r.Writes out ss es) : decode r.ids out.text = some (ss, es) := by
  obtain ⟨lines, hspells, hread⟩ := h.text
  rw [Dump.decode, hspells.lines?, Option.bind_eq_bind, Option.bind_some, hread]
  unfold stage
  cases r.cycle <;> rfl

/-- A recorder that signals have been registered with, one after the other. -/
def registered (scope : String) (vars : List (SignalId × String × Nat)) : VcdRecorder :=
  vars.foldl (fun r x => r.registerVar x.1 x.2.1 x.2.2) { scope }

theorem registered_eq (scope : String) (vars : List (SignalId × String × Nat)) : registered scope vars = { scope, vars } := by
  suffices hall : ∀ before, vars.foldl (fun r x => r.registerVar x.1 x.2.1 x.2.2) ({ scope, vars := before } : VcdRecorder) =
      { scope, vars := before ++ vars } from hall []
  induction vars with
  | nil => exact fun before => by rw [List.append_nil]; rfl
  | cons x vars ih =>
    intro before
    rw [List.foldl_cons, List.append_cons]
    exact ih (before ++ [x])

end VcdRecorder

open VcdRecorder Dump

/-- Signals are registered with a recorder, under names without whitespace, and changes with values that fit and calls
of `finalize` follow in any order. All calls succeed, and what is read from the text are the changes of registered
signals, behind as many sections as there are calls of `finalize` ahead of the first of them, and one more if there is
such a change. Each section defines every registered signal once. -/
theorem dump_decodes {scope : String} {vars : List (SignalId × String × Nat)}
    (hscope : ∀ c ∈ scope.toList, c.isWhitespace = false)
    (hnames : ∀ x ∈ vars, ∀ c ∈ x.2.1.toList, c.isWhitespace = false) {calls : List VcdRecorder.Call}
    (hfits : ∀ c ∈ calls, c.Fits vars) :
    ∃ r out, answerAll calls (registered scope vars) {} = ⟨r, out, none⟩ ∧
      decode (vars.map (·.1)) out.text =
        some (List.replicate (Call.sections (vars.map (·.1)) calls)
            ⟨scope, vars.mapIdx fun i x => ⟨x.2.1, x.2.2, idCode i⟩⟩,
          calls.filterMap (Call.event? (vars.map (·.1)))) := by
  have hstart : Writes { scope, vars } {} [] [] :=
    ⟨rfl, unbroken_of_plain hscope, fun x hx => unbroken_of_plain (hnames x hx), ⟨[], .nil, rfl⟩,
      fun hne => absurd rfl hne⟩
  obtain ⟨r, out, hcalls, hsame, h⟩ := hstart.answerAll calls hfits
  have hids : r.ids = vars.map (·.1) := hsame
  have hdecode := h.decode
  rw [hids] at hdecode
  exact ⟨r, out, registered_eq scope vars ▸ hcalls, hdecode⟩

/-- A change of a signal that is not registered is left out, and the last call writes nothing. -/
theorem dump_decodes_of_handshake :
    ∃ r out, answerAll [.change 0 0 1, .change 0 1 5, .change 0 7 1, .change 1 0 0, .finalize]
        (registered "top" [(0, "grant", 1), (1, "data", 4)]) {} = ⟨r, out, none⟩ ∧
      decode [0, 1] out.text = some ([⟨"top", [⟨"grant", 1, idCode 0⟩, ⟨"data", 4, idCode 1⟩]⟩],
        [⟨0, 0, 1⟩, ⟨0, 1, 5⟩, ⟨1, 0, 0⟩]) := by
  have hfits : ∀ c ∈ [Call.change 0 0 1, .change 0 1 5, .change 0 7 1, .change 1 0 0, .finalize],
      c.Fits [(0, "grant", 1), (1, "data", 4)] := by
    simp [Call.Fits]
  obtain ⟨r, out, hcalls, hdecode⟩ :=
    @dump_decodes "top" [(0, "grant", 1), (1, "data", 4)] (by simp) (by simp) _ hfits
  exact ⟨r, out, hcalls, hdecode⟩

/-- A call of `finalize` and then a change: the definitions are there twice. -/
theorem dump_defines_twice :
    decode [0] (answerAll [.finalize, .change 0 0 1] (registered "top" [(0, "a", 1)]) {}).outlet.text =
      some ([⟨"top", [⟨"a", 1, ['!']⟩]⟩, ⟨"top", [⟨"a", 1, ['!']⟩]⟩], [⟨0, 0, 1⟩]) := by
  decide +kernel

end Interlock
