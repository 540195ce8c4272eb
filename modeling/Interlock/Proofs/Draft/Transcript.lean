import Interlock.Proofs.Draft.Basic
import Interlock.Proofs.Expr.Fits

/-! What a sequence of recording actions says, read off the actions alone: for each assignment the arms around
it and the body that it is in, and for each signal the value that the last assignment in force gives it. No
condition is put together from others here; an arm is taken or not as its own test and those before it in its
chain say. -/

namespace Interlock.Draft

/-- What an arm asks of the signals. -/
inductive Test where
  | always
  | nonzero (cond : Expr)
  /-- The selector has one of the values, each cut to its width. -/
  | oneOf (sel : Expr) (values : List Word)
deriving DecidableEq, Repr

namespace Test

def holds (σ : Valuation) : Test → Bool
  | always => true
  | nonzero cond => cond.eval σ != 0
  | oneOf sel values => values.any fun v => sel.eval σ == v &&& mask sel.width

/-- The constants in it fit their widths. -/
def fits : Test → Bool
  | always => true
  | nonzero cond => cond.fits
  | oneOf sel _ => sel.fits

end Test

inductive Arm where
  /-- An arm of a chain: its test holds, and none of the earlier ones does. -/
  | branch (earlier : List Test) (test : Test)
  /-- An arm of a machine: its register holds the position of the state. -/
  | state (register : Sig) (index : Nat)
deriving DecidableEq, Repr

namespace Arm

def taken (σ : Valuation) : Arm → Bool
  | branch earlier test => !earlier.any (Test.holds σ) && test.holds σ
  | state register index => (register.expr.eval σ).toNat == index

def fits : Arm → Bool
  | branch earlier test => earlier.all Test.fits && test.fits
  | state .. => true

end Arm

/-- The place reached in a module: the arms around it, innermost first, and the signal that is one while the
body that is open runs. -/
structure Spot where
  arms : List Arm := []
  body : Option SignalId := none
deriving DecidableEq, Repr

/-- An assignment, with the place where it stands. -/
structure Written where
  mode : AssignMode
  target : Sig
  value : Expr
  spot : Spot
deriving DecidableEq, Repr

namespace Written

/-- Every arm around it is taken, and the body around it runs; the mode may ask for less. -/
def inForce (w : Written) (σ : Valuation) : Bool :=
  match w.mode with
  | .comb | .sync => w.spot.body.all (fun x => lowBit (σ x)) && w.spot.arms.all (Arm.taken σ)
  | .avComb => w.spot.arms.all (Arm.taken σ)
  | .topComb => true

/-- The constants in its value, and in the tests that it depends on, fit their widths. -/
def fits (w : Written) : Bool := w.value.fits && (w.mode == .topComb || w.spot.arms.all Arm.fits)

theorem fits_value {w : Written} (h : w.fits = true) : w.value.fits = true := (Bool.and_eq_true_iff.1 h).1

end Written

/-- The value of the last assignment that is in force, if there is one. -/
def lastInForce (ws : List Written) (σ : Valuation) (otherwise : Word) : Word :=
  match (ws.filter (·.inForce σ)).getLast? with
  | some w => w.value.eval σ
  | none => otherwise

/-- A later assignment counts where it is in force, and leaves the others alone where it is not. -/
theorem lastInForce_cons (w : Written) (ws : List Written) (σ : Valuation) (otherwise : Word) :
    lastInForce (w :: ws) σ otherwise =
      lastInForce ws σ (if w.inForce σ = true then w.value.eval σ else otherwise) := by
  rw [lastInForce, lastInForce, List.filter_cons]
  by_cases hw : w.inForce σ = true
  · rw [if_pos hw, if_pos hw, List.getLast?_cons]
    cases (ws.filter (·.inForce σ)).getLast? <;> rfl
  · rw [if_neg hw, if_neg hw]

structure Transcript where
  spots : List Spot := []
  /-- The tests of the arms of each chain so far. -/
  chains : List (List Test) := []
  written : List Written := []
deriving DecidableEq, Repr

/-- The machine that a chain was opened for. -/
def machine? (d : Draft) (chain : Nat) : Option Machine :=
  match d.chains[chain]? with
  | some ⟨_, .machine m, _⟩ => some m
  | _ => none

namespace Transcript

def addSpot (t : Transcript) : Transcript := { t with spots := t.spots ++ [{}] }

/-- Moves on in a module. -/
def move (t : Transcript) (i : Nat) (s : Spot) : Transcript := { t with spots := t.spots.set i s }

def addChain (t : Transcript) (tests : List Test) : Transcript := { t with chains := t.chains ++ [tests] }

def write (t : Transcript) (w : Written) : Transcript := { t with written := t.written ++ [w] }

/-- Enters the next arm of a chain. -/
def enterNext (t : Transcript) (i : Nat) (s : Spot) (chain : Nat) (test : Test) : Transcript :=
  let earlier := (t.chains[chain]?).getD []
  { t.move i { s with arms := .branch earlier test :: s.arms } with
    chains := t.chains.set chain (earlier ++ [test]) }

/-- Notes an operation at the place `s` of module `i`, which the draft takes. -/
def noteAt (t : Transcript) (d : Draft) (i : Nat) (s : Spot) : Operation → Transcript
  | .submodule .. => t.addSpot
  | .signal .. => t
  | .assign mode target value _ =>
    match d.signals[target]? with
    | some target => t.write ⟨mode, target, value, s⟩
    | none => t
  | .when cond =>
    (t.move i { s with arms := .branch [] (.nonzero cond) :: s.arms }).addChain [.nonzero cond]
  | .branches => t.addChain []
  | .branch chain cond => t.enterNext i s chain (.nonzero cond)
  | .case chain sel values => t.enterNext i s chain (.oneOf sel values)
  | .otherwise chain => t.enterNext i s chain .always
  | .leave => t.move i { s with arms := s.arms.tail }
  | .machine .. => t.addChain []
  | .enterState chain state _ =>
    match d.machine? chain with
    | some m => t.move i { s with arms := .state m.state (m.states.idxOf state) :: s.arms }
    | none => t
  | .nextState chain state _ =>
    match d.machine? chain with
    | some m => t.write ⟨.sync, m.state, .constant (UInt64.ofNat (m.states.idxOf state)) m.state.width, s⟩
    | none => t
  | .openTransaction n _ _ | .openMethod n _ _ _ => t.move i { s with body := some (d.design.node n).activator }
  | .leaveBody => t.move i { s with body := none }
  | .closeMethod .. | .call .. => t

/-- Notes an action that the draft takes. -/
def note (t : Transcript) (d : Draft) : Action → Transcript
  | .openModule _ => t.addSpot
  | .inModule i op =>
    match t.spots[i]? with
    | some s => t.noteAt d i s op
    | none => t
  | _ => t

/-- The assignments to a signal, in the order of recording. -/
def writtenTo (t : Transcript) (s : Sig) : List Written := t.written.filter fun w => w.target.id == s.id

/-- What a signal is where no assignment to it is in force: a register keeps its value. -/
def resting (s : Sig) (σ : Valuation) : Word :=
  match s.kind with
  | .reg => s.expr.eval σ
  | .input | .wire => 0

/-- What the assignments to a signal make of it. -/
def value (t : Transcript) (s : Sig) (σ : Valuation) : Word := lastInForce (t.writtenTo s) σ (resting s σ)

/-- Notes actions one after the other. -/
def extend (t : Transcript) (d : Draft) : List Action → Transcript
  | [] => t
  | action :: rest =>
    match d.step action with
    | some d' => (t.note d action).extend d' rest
    | none => t

end Transcript

/-- The transcript of a sequence of actions, from the start. -/
def transcript (config : Config) (actions : List Action) : Transcript := ({} : Transcript).extend (start config) actions

/-- To show a property of actions taken, with the draft and the transcript that they lead to, show it of the start
and of each step. -/
theorem transcript_induct_taken {P : List Action → Draft → Transcript → Prop} (start : ∀ config, P [] (start config) {})
    (step : ∀ taken d d' t action, P taken d t → d.step action = some d' → P (taken ++ [action]) d' (t.note d action))
    {config : Config} {actions : List Action} {d : Draft} (h : (Draft.start config).run actions = some d) :
    P actions d (transcript config actions) := by
  suffices rest : ∀ taken s t, P taken s t → s.run actions = some d → P (taken ++ actions) d (t.extend s actions) from
    rest [] _ _ (start config) h
  unfold run
  clear h
  induction actions with
  | nil =>
    intro taken s t hfrom h
    obtain rfl : s = d := by simpa using h
    rwa [List.append_nil]
  | cons a rest ih =>
    intro taken s t hfrom h
    rw [List.foldlM_cons] at h
    obtain ⟨s', hs', h⟩ := Option.bind_eq_some_iff.1 h
    rw [Transcript.extend, hs', List.append_cons]
    exact ih _ s' _ (step taken s s' t a hfrom hs') h

/-- The same for properties of drafts and their transcripts. -/
theorem transcript_induct {P : Draft → Transcript → Prop} (start : ∀ config, P (start config) {})
    (step : ∀ d d' t action, P d t → d.step action = some d' → P d' (t.note d action)) {config : Config}
    {actions : List Action} {d : Draft} (h : (Draft.start config).run actions = some d) :
    P d (transcript config actions) :=
  transcript_induct_taken (P := fun _ => P) start (fun _ => step) h

end Interlock.Draft
