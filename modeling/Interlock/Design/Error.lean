import Interlock.Diagnostic.Basic

/-! What can go wrong while a design is recorded or elaborated. Codes 301 to 309 are mistakes in
recording, 310 to 312 concern the call graph, 320 to 322 constraints that cannot be met, and 330 to
331 the generated logic. -/

namespace Interlock

inductive DesignError where
  | redefinition (name : String) (loc prevLoc : Location)
  | callUndefined (name : String) (loc : Location)
  | noCurrentBody (name : String) (loc : Location)
  | duplicateCall (caller method : String) (loc prevLoc : Location)
  | nestedBody (name outer : String) (loc : Location)
  | widthMismatch (what : String) (expected found : Nat) (loc : Location)
  | usage (text : String) (loc : Location)
  | undefinedMethod (name : String) (loc : Location)
  | tooWide (what : String) (width : Nat) (loc : Location)
  | methodRecursion (name : String) (chain : List String) (loc : Location)
  | singleCallerViolated (name : String) (callers : List String) (loc : Location)
  | missingCombiner (name : String) (loc : Location)
  | priorityCycle (members : List String) (loc : Location)
  | unsatisfiableSimultaneity (first second reason : String) (loc : Location)
  | independenceViolatesSimultaneity (first second : String) (loc : Location)
  | combinationalCycle (signals : List String) (loc : Location)
  | scheduleOrder (before after : String) (loc : Location)
  | internal (text : String)
deriving DecidableEq, Repr

namespace DesignError

def number : DesignError → Nat
  | redefinition .. => 301
  | callUndefined .. => 302
  | noCurrentBody .. => 303
  | duplicateCall .. => 304
  | nestedBody .. => 305
  | widthMismatch .. => 306
  | usage .. => 307
  | undefinedMethod .. => 308
  | tooWide .. => 309
  | methodRecursion .. => 310
  | singleCallerViolated .. => 311
  | missingCombiner .. => 312
  | priorityCycle .. => 320
  | unsatisfiableSimultaneity .. => 321
  | independenceViolatesSimultaneity .. => 322
  | combinationalCycle .. => 330
  | scheduleOrder .. => 331
  | internal .. => 399

/-- The name of the kind of mistake. -/
def kind : DesignError → String
  | redefinition .. => "Redefinition"
  | callUndefined .. => "CallUndefined"
  | noCurrentBody .. => "NoCurrentBody"
  | duplicateCall .. => "DuplicateCall"
  | nestedBody .. => "NestedBody"
  | widthMismatch .. => "WidthMismatch"
  | usage .. => "Usage"
  | undefinedMethod .. => "UndefinedMethod"
  | tooWide .. => "TooWide"
  | methodRecursion .. => "MethodRecursion"
  | singleCallerViolated .. => "SingleCallerViolated"
  | missingCombiner .. => "MissingCombiner"
  | priorityCycle .. => "PriorityCycle"
  | unsatisfiableSimultaneity .. => "UnsatisfiableSimultaneity"
  | independenceViolatesSimultaneity .. => "IndependenceViolatesSimultaneity"
  | combinationalCycle .. => "CombinationalCycle"
  | scheduleOrder .. => "ScheduleOrder"
  | internal .. => "Internal"

def code (e : DesignError) : Code := ⟨.error, e.number⟩

def loc : DesignError → Location
  | redefinition _ l _ | callUndefined _ l | noCurrentBody _ l | duplicateCall _ _ l _
  | nestedBody _ _ l | widthMismatch _ _ _ l | usage _ l | undefinedMethod _ l | tooWide _ _ l
  | methodRecursion _ _ l | singleCallerViolated _ _ l | missingCombiner _ l | priorityCycle _ l
  | unsatisfiableSimultaneity _ _ _ l | independenceViolatesSimultaneity _ _ l
  | combinationalCycle _ l | scheduleOrder _ _ l => l
  | internal _ => .generated

def orderText (before after : String) : String :=
  "`" ++ before ++ "` is scheduled before `" ++ after ++ "` but defined after it"

def message : DesignError → String
  | redefinition name _ _ => "`" ++ name ++ "` is defined twice"
  | callUndefined name _ => "method `" ++ name ++ "` is called before it is defined"
  | noCurrentBody name _ =>
    "method `" ++ name ++ "` is called outside a transaction or method body"
  | duplicateCall caller method _ _ =>
    "`" ++ caller ++ "` calls method `" ++ method ++ "` more than once per cycle"
  | nestedBody name outer _ =>
    "body of `" ++ name ++ "` is opened inside the body of `" ++ outer ++ "`"
  | widthMismatch what expected found _ =>
    what ++ " is " ++ toString found ++ " bits wide but the layout holds " ++ toString expected
  | usage text _ => text
  | undefinedMethod name _ => "method `" ++ name ++ "` is declared but never defined"
  | tooWide what width _ =>
    what ++ " is " ++ toString width ++ " bits wide; at most 64 bits are supported"
  | methodRecursion name chain _ =>
    "method `" ++ name ++ "` calls itself through " ++ " -> ".intercalate chain
  | singleCallerViolated name callers _ =>
    "method `" ++ name ++ "` is single-caller but is called by " ++ ", ".intercalate callers
  | missingCombiner name _ =>
    "nonexclusive method `" ++ name ++ "` takes arguments but has no combiner"
  | priorityCycle members _ => "priority cycle between " ++ ", ".intercalate members
  | unsatisfiableSimultaneity first second reason _ =>
    "`" ++ first ++ "` and `" ++ second ++ "` cannot be made simultaneous: " ++ reason
  | independenceViolatesSimultaneity first second _ =>
    "`" ++ first ++ "` and `" ++ second ++ "` are declared both simultaneous and independent"
  | combinationalCycle signals _ => "combinational cycle through " ++ ", ".intercalate signals
  | scheduleOrder before after _ => orderText before after
  | internal text => "internal elaborator error: " ++ text

/-- The diagnostic of an error, with the related place or the advice that goes with its kind. -/
def toDiagnostic (e : DesignError) : Diagnostic :=
  let d : Diagnostic := { severity := .error, code := e.code, message := e.message, loc := e.loc }
  match e with
  | redefinition _ _ prevLoc =>
    { d with labels := [⟨prevLoc, "first defined here", .secondary⟩] }
  | duplicateCall _ _ _ prevLoc =>
    { d with
      labels := [⟨prevLoc, "previous call here", .secondary⟩]
      help := ["place the calls in different branches of one `if`/`switch`"] }
  | callUndefined .. => { d with help := ["define the method body before calling it"] }
  | missingCombiner .. => { d with help := ["supply a combiner, e.g. `Combiner::sum()`"] }
  | scheduleOrder .. =>
    { d with help := ["use `schedule_before_silenced` or set `schedule_order` in tessel.toml"] }
  | combinationalCycle .. =>
    { d with
      notes := ["`ready` may depend on `run` or `grant` only across a schedule_before edge"] }
  | _ => d

end DesignError

/-- An ordering that contradicts the order of definition, where that is allowed. -/
def scheduleOrderWarning (before after : String) (loc : Location) : Diagnostic :=
  { severity := .warning, code := ⟨.warning, 301⟩
    message := DesignError.orderText before after, loc }

def unusedMethodWarning (name : String) (loc : Location) : Diagnostic :=
  { severity := .warning, code := ⟨.warning, 302⟩
    message := "method `" ++ name ++ "` is never called", loc
    help := ["remove the method or call it from a transaction"] }

end Interlock
