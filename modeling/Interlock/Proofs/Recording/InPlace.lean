import Interlock.Proofs.Arena
import Interlock.Proofs.Draft.Effect
import Interlock.Proofs.Draft.Trial

/-! Recording operations that change the design where it stands, one store after the other. An error ends such
an operation with everything changed that was changed before it, so whether a failed operation leaves a trace
depends on where among the stores its checks are. A call gives its caller an entry for the method before it
looks for an earlier call that is in its way; a body takes its number in the order of definition before it is
known what kind of node it belongs to. -/

namespace Interlock

/-- A step that changes the place at which it is taken. What it has changed before an error stays changed. -/
abbrev InPlace (α : Type) := ExceptT DesignError (StateT Recording (Except Fault)) α

namespace InPlace

variable {α β : Type}

/-- What the step gives at a place, and the place as it is afterwards. -/
def runAt (x : InPlace α) (r : Recording) : Except Fault (Except DesignError α × Recording) := x.run.run r

/-- A step that only reads. -/
def check (x : Attempt DesignError α) : InPlace α := ExceptT.mk (StateT.lift x.run)

/-- A store, which does not fail. -/
def change (f : Recording → α × Recording) : InPlace α := ExceptT.mk fun r => pure (.ok (f r).1, (f r).2)

/-- A store to the design. -/
def onDesign (f : Design → α × Design) : InPlace α :=
  change fun r => ((f r.design).1, { r with design := (f r.design).2 })

/-- A store to a node. -/
def onNode (id : NodeId) (f : Node → Node) : InPlace Unit := onDesign fun d => ((), d.modifyNode id f)

/-! ### Declarations and assignments -/

/-- Declares a method: its name is taken first, then its wires are made, one after the other. -/
def declareMethod (decl : MethodDecl) (loc : Location) : InPlace NodeId := do
  let base := Design.nameOr decl.name "method"
  check (decl.input.checkWidth ("input of `" ++ base ++ "`") loc)
  check (decl.output.checkWidth ("output of `" ++ base ++ "`") loc)
  let name ← onDesign (·.newName base)
  let dataIn ← onDesign (·.newBus (name ++ "_data_in") decl.input)
  let dataOut ← onDesign (·.newBus (name ++ "_data_out") decl.output)
  let ready ← onDesign (·.newWire (name ++ "_ready") 1)
  let run ← onDesign (·.newWire (name ++ "_run") 1)
  onDesign (·.addNode name loc (.method
    { input := decl.input, output := decl.output, ready, run, dataIn, dataOut
      nonexclusive := decl.nonexclusive, singleCaller := decl.singleCaller
      combiner := decl.combiner }))

def signal (name : String) (width : Nat) (kind : SignalKind) (init : Word) (loc : Location) : InPlace Sig := do
  if maxWidth < width then throw (.tooWide ("signal `" ++ name ++ "`") width loc)
  let r ← get
  let id ← onDesign (·.newSignal (r.scope ++ name) width kind init)
  return ⟨id, width, kind⟩

def assign (target : Sig) (guard value : Expr) (domain : Domain) (loc : Location) : InPlace Unit := do
  if target.kind ≠ Recording.assignable domain then throw (.usage (Recording.misassigned domain) loc)
  check (Attempt.ofChecked value.ensureSized)
  if target.width < value.width then
    throw (.widthMismatch "assigned value" target.width value.width loc)
  onDesign fun d => ((), d.assign ⟨target.id, guard, value.resize target.width, domain⟩)

/-! ### State machines and modules -/

/-- Creates a state machine: its register, then its chain. -/
def machine (name : String) (states : List String) (loc : Location) : InPlace Machine := do
  if states.isEmpty then throw (.usage ("state machine `" ++ name ++ "` has no states") loc)
  let state ← signal (name ++ "_state") (Machine.widthFor states.length) .reg 0 loc
  let chain ← change Recording.newChain
  return ⟨name, states, state, chain, (← get).path.current⟩

def enterState (m : Machine) (state : String) (loc : Location) : InPlace Unit := do
  let index ← check (Attempt.ofExcept (m.index state loc))
  if (← get).path.current ≠ m.path then
    throw (.usage ("state `" ++ state ++ "` of `" ++ m.name
      ++ "` is recorded outside the branch that created the machine") loc)
  change fun r => ((), r.enter m.chain index (m.inState index))

def nextState (m : Machine) (state : String) (loc : Location) : InPlace Unit := do
  let index ← check (Attempt.ofExcept (m.index state loc))
  assign m.state (← get).guard (.constant (UInt64.ofNat index) m.state.width) .sync loc

/-- Opens a module inside the current one. The place in the outer module keeps everything but its design. -/
def openSubmodule (name : String) (loc : Location) : InPlace Recording := do
  let r ← get
  match r.body with
  | some frame =>
    throw (.usage ("submodule `" ++ name ++ "` is created inside the body of `"
      ++ r.design.name frame.node ++ "`") loc)
  | none =>
    let module ← onDesign (·.newModule)
    return ⟨(← get).design, module, r.scope ++ name ++ "_", ⟨module, 0, []⟩, [], none⟩

/-! ### Bodies -/

/-- Notes where the body of a node begins, under the next number in the order of definition. -/
def openBody (id : NodeId) (loc : Location) : InPlace Unit := do
  let r ← get
  match r.body with
  | some frame => throw (.nestedBody (r.design.name id) (r.design.name frame.node) loc)
  | none =>
    match (r.design.node id).defLoc with
    | some prevLoc => throw (.redefinition (r.design.name id) loc prevLoc)
    | none =>
      let order ← onDesign fun d => (d.nextDefOrder, { d with nextDefOrder := d.nextDefOrder + 1 })
      onNode id fun n => { n with defOrder := some order, defLoc := some loc, path := some r.path.current }

def openTransaction (t : NodeId) (request : Expr) (loc : Location) : InPlace Unit := do
  openBody t loc
  let r ← get
  match (r.design.node t).transaction? with
  | none => throw (.usage ("`" ++ r.design.name t ++ "` is no longer a transaction") loc)
  | some info =>
    let wanted ← check (Attempt.ofChecked (Expr.Checked.anyBit request))
    onDesign fun d => ((), d.drive info.request (r.cond.and wanted))
    change fun r => ((), r.enterBody t info.grant)

def openMethod (m : NodeId) (ready : Expr) (validator : Option Validator) (loc : Location) :
    InPlace MethodInfo := do
  openBody m loc
  let r ← get
  match (r.design.node m).method? with
  | none => throw (.usage ("`" ++ r.design.name m ++ "` is not a method") loc)
  | some info =>
    let info := { info with validator }
    onNode m fun n => { n with kind := .method info }
    let wanted ← check (Attempt.ofChecked (Expr.Checked.anyBit ready))
    onDesign fun d => ((), d.drive info.ready (r.cond.and wanted))
    change fun r => ((), r.enterBody m info.run)
    return info

/-! ### Calls -/

/-- Gives a method an entry among the calls, without call sites yet, if it has none. -/
def withEntry (calls : List (NodeId × List CallSite)) (m : NodeId) : List (NodeId × List CallSite) :=
  if calls.any fun c => c.1 == m then calls else calls ++ [(m, [])]

/-- Adds a call site to the entry of a method. -/
def pushSite (calls : List (NodeId × List CallSite)) (m : NodeId) (site : CallSite) :
    List (NodeId × List CallSite) :=
  calls.map fun c => if c.1 = m then (m, c.2 ++ [site]) else c

/-- Records a call. The caller has an entry for the method before its earlier calls are looked at. -/
def call (m : NodeId) (arg enable : Expr) (loc : Location) : InPlace Expr := do
  let r ← get
  let callee := r.design.node m
  match r.body with
  | none => throw (.noCurrentBody callee.name loc)
  | some frame =>
    match callee.method? with
    | none => throw (.usage ("`" ++ callee.name ++ "` is not a method") loc)
    | some info =>
      if !callee.isDefined then throw (.callUndefined callee.name loc)
      let width := info.input.width
      check (Attempt.ofChecked arg.ensureSized)
      if width < arg.width then
        throw (.widthMismatch ("argument of `" ++ callee.name ++ "`") width arg.width loc)
      let enabled ← check (Attempt.ofChecked (Expr.Checked.anyBit enable))
      let site : CallSite := ⟨r.path.current, arg.resize width, r.cond.and enabled, loc⟩
      onNode frame.node fun n => { n with calls := withEntry n.calls m }
      match (((← get).design.node frame.node).sitesTo m).find? fun s => !s.path.exclusiveWith site.path with
      | some prev => throw (.duplicateCall (r.design.name frame.node) callee.name loc prev.loc)
      | none =>
        onNode frame.node fun n => { n with calls := pushSite n.calls m site }
        return (← get).design.dataOut m

/-! ### Steps of a run -/

section

variable {r : Recording}

theorem runAt_get (f : Recording → InPlace β) : (get >>= f).runAt r = (f r).runAt r := rfl

theorem runAt_onNode (id : NodeId) (g : Node → Node) (f : Unit → InPlace β) :
    (onNode id g >>= f).runAt r = (f ()).runAt { r with design := r.design.modifyNode id g } := rfl

end

end InPlace

/-! ### Without a trace -/

namespace Attempt

variable {α β γ : Type} {split : β → α × Recording} {r : Recording}

/-- What is left by a step that gives a new place, among other things, and has changed nothing before it does:
the new place, or after an error the old one. -/
def settle (split : β → α × Recording) (y : Attempt DesignError β) (r : Recording) :
    Except Fault (Except DesignError α × Recording) :=
  y.run.map fun
    | .ok b => (.ok (split b).1, (split b).2)
    | .error e => (.error e, r)

theorem settle_error {y : Attempt DesignError β} {r' : Recording} {e : DesignError}
    (h : settle split y r = .ok (.error e, r')) : r' = r := by
  rcases y with fault | e' | b
  · cases h
  · cases h
    rfl
  · cases h

theorem settle_check {x : Attempt DesignError γ} {f : γ → InPlace α} {g : γ → Attempt DesignError β}
    (h : ∀ c, (f c).runAt r = settle split (g c) r) :
    (InPlace.check x >>= f).runAt r = settle split (x >>= g) r := by
  rcases x with fault | e | c
  · rfl
  · rfl
  · exact h c

theorem settle_guard {γ' : Type} {c : Prop} [Decidable c] {e : DesignError} {f : γ → InPlace α}
    {g : γ' → Attempt DesignError β} {x : InPlace α} {y : Attempt DesignError β}
    (h : ¬ c → x.runAt r = settle split y r) :
    (if c then throw e >>= f else x).runAt r = settle split (if c then throw e >>= g else y) r := by
  split
  · rfl
  · exact h ‹_›

/-- A step that knows no errors may come after a store. -/
theorem settle_checked {x : Except Fault γ} {f : γ → InPlace α} {g : γ → Attempt DesignError β} {r₁ : Recording}
    (h : ∀ c, (f c).runAt r₁ = settle split (g c) r) :
    (InPlace.check (ofChecked x) >>= f).runAt r₁ = settle split (ofChecked x >>= g) r := by
  rcases x with fault | c
  · rfl
  · exact h c

/-- The same for a step that knows no faults. -/
theorem settle_then {δ : Type} {split' : γ → δ × Recording} {x : InPlace δ} {y : Attempt DesignError γ}
    {f : δ → InPlace α} {g : γ → Attempt DesignError β} (hx : x.runAt r = settle split' y r)
    (h : ∀ c, y.Gives c → (f (split' c).1).runAt (split' c).2 = settle split (g c) r) :
    (x >>= f).runAt r = settle split (y >>= g) r := by
  change StateT.run x.run r = _ at hx
  unfold InPlace.runAt
  rw [ExceptT.run_bind, StateT.run_bind, hx]
  rcases y with fault | e | c
  · rfl
  · rfl
  · exact h c rfl

theorem settle_try {x : Except DesignError γ} {f : γ → InPlace α} {g : γ → Except DesignError β}
    (h : ∀ c, (f c).runAt r = settle split (ofExcept (g c)) r) :
    (InPlace.check (ofExcept x) >>= f).runAt r = settle split (ofExcept (x >>= g)) r := by
  rcases x with e | c
  · rfl
  · exact h c

end Attempt

namespace InPlace

open Attempt (settle settle_error settle_check settle_checked settle_guard settle_then settle_try)

variable {r : Recording}

theorem runAt_declareMethod (decl : MethodDecl) (loc : Location) :
    (declareMethod decl loc).runAt r =
      settle (fun (m, design) => (m, { r with design })) (r.design.declareMethod decl loc) r := by
  unfold declareMethod Design.declareMethod
  refine settle_check fun _ => ?_
  refine settle_check fun _ => ?_
  rfl

theorem runAt_signal (name : String) (width : Nat) (kind : SignalKind) (init : Word) (loc : Location) :
    (signal name width kind init loc).runAt r = settle id (Attempt.ofExcept (r.signal name width kind init loc)) r := by
  unfold signal Recording.signal
  split
  · rfl
  · rfl

theorem runAt_assign (target : Sig) (guard value : Expr) (domain : Domain) (loc : Location) :
    (assign target guard value domain loc).runAt r =
      settle (fun r' => ((), r')) (r.assign target guard value domain loc) r := by
  unfold assign Recording.assign
  refine settle_guard fun _ => ?_
  refine settle_check fun _ => ?_
  refine settle_guard fun _ => ?_
  rfl

theorem runAt_nextState (m : Machine) (state : String) (loc : Location) :
    (nextState m state loc).runAt r = settle (fun r' => ((), r')) (r.nextState m state loc) r := by
  unfold nextState Recording.nextState
  refine settle_check fun index => ?_
  rw [runAt_get]
  exact runAt_assign m.state r.guard _ .sync loc

theorem runAt_enterState (m : Machine) (state : String) (loc : Location) :
    (enterState m state loc).runAt r =
      settle (fun r' => ((), r')) (Attempt.ofExcept (r.enterState m state loc)) r := by
  unfold enterState Recording.enterState
  refine settle_try fun index => ?_
  rw [runAt_get]
  split
  · rfl
  · rfl

theorem runAt_openSubmodule (name : String) (loc : Location) :
    (openSubmodule name loc).runAt r = settle (fun inner => (inner, { r with design := inner.design }))
      (Attempt.ofExcept (r.openSubmodule name loc)) r := by
  obtain ⟨design, module, scope, path, conds, body⟩ := r
  cases body with
  | some frame => rfl
  | none => rfl

theorem runAt_machine (name : String) (states : List String) (loc : Location) :
    (machine name states loc).runAt r = settle id (Attempt.ofExcept (r.machine name states loc)) r := by
  unfold machine Recording.machine
  split
  · rfl
  · -- Only making the register can fail, and it comes before the chain.
    unfold signal Recording.signal
    split
    · rfl
    · rfl

/-- A body takes its number only if no other one is open and the node has none yet. -/
theorem runAt_openBody (id : NodeId) (loc : Location) :
    (openBody id loc).runAt r = settle (fun r' => ((), r')) (Attempt.ofExcept (r.openBody id loc)) r := by
  obtain ⟨design, module, scope, path, conds, body⟩ := r
  cases body with
  | some frame => rfl
  | none =>
    unfold openBody Recording.openBody
    rw [runAt_get]
    cases (design.node id).defLoc with
    | some prevLoc => rfl
    | none => rfl

/-- The body of a transaction, unless a node of the other kind is given where a body could be opened. -/
theorem runAt_openTransaction {t : NodeId} (request : Expr) (loc : Location)
    (hkind : r.body = none → (r.design.node t).defLoc = none → (r.design.node t).isTransaction) :
    (openTransaction t request loc).runAt r =
      settle (fun r' => ((), r')) (r.openTransaction t request loc) r := by
  refine settle_then (runAt_openBody t loc) fun r₁ hopen => ?_
  obtain ⟨hbody, hnew, rfl⟩ := Recording.openBody_ok (Attempt.gives_ofExcept.1 hopen)
  obtain ⟨info, hinfo⟩ := Option.isSome_iff_exists.1 (hkind hbody hnew)
  have hinfo' : ((r.opened t loc).node t).transaction? = some info := by
    rw [← hinfo, Node.transaction?, Draft.kind_opened]
    rfl
  rw [runAt_get]
  simp only [hinfo']
  exact settle_checked fun wanted => rfl

/-- The body of a method, unless a node of the other kind is given where a body could be opened. -/
theorem runAt_openMethod {m : NodeId} (ready : Expr) (validator : Option Validator) (loc : Location)
    (hkind : r.body = none → (r.design.node m).defLoc = none → (r.design.node m).method?.isSome) :
    (openMethod m ready validator loc).runAt r = settle id (r.openMethod m ready validator loc) r := by
  refine settle_then (runAt_openBody m loc) fun r₁ hopen => ?_
  obtain ⟨hbody, hnew, rfl⟩ := Recording.openBody_ok (Attempt.gives_ofExcept.1 hopen)
  obtain ⟨info, hinfo⟩ := Option.isSome_iff_exists.1 (hkind hbody hnew)
  have hinfo' : ((r.opened m loc).node m).method? = some info := by
    rw [← hinfo, Node.method?, Draft.kind_opened]
    rfl
  rw [runAt_get]
  simp only [hinfo', runAt_onNode]
  exact settle_checked fun wanted => rfl

/-- A caller that has an entry for a method keeps the entry that it has. -/
theorem withEntry_of_site {calls : List (NodeId × List CallSite)} {m : NodeId} {site : CallSite}
    (h : site ∈ (calls.lookup m).getD []) : withEntry calls m = calls := by
  unfold withEntry
  rw [if_pos]
  cases hl : calls.lookup m with
  | none =>
    rw [hl] at h
    exact nomatch h
  | some sites =>
    obtain ⟨l, l', rfl, -⟩ := List.lookup_eq_some_iff.1 hl
    simp

theorem lookup_withEntry (calls : List (NodeId × List CallSite)) (m : NodeId) :
    ((withEntry calls m).lookup m).getD [] = (calls.lookup m).getD [] := by
  unfold withEntry
  split
  · rfl
  · rw [List.lookup_append]
    cases calls.lookup m with
    | none => simp
    | some sites => rfl

theorem pushSite_withEntry (calls : List (NodeId × List CallSite)) (m : NodeId) (site : CallSite) :
    pushSite (withEntry calls m) m site = Recording.addSite calls m site := by
  unfold withEntry Recording.addSite
  split
  · rfl
  · rename_i hnone
    have hother : ∀ c ∈ calls, c.1 ≠ m := fun c hc he => hnone (List.any_eq_true.2 ⟨c, hc, by simpa using he⟩)
    have hkeep : calls.map (fun c => if c.1 = m then (m, c.2 ++ [site]) else c) = calls :=
      (List.map_congr_left fun c hc => if_neg (hother c hc)).trans (List.map_id calls)
    rw [pushSite, List.map_append, hkeep]
    simp

section

variable {d : Design} {c m : NodeId} {site : CallSite}

theorem sitesTo_withEntry (d : Design) (c m : NodeId) :
    ((d.modifyNode c fun n => { n with calls := withEntry n.calls m }).node c).sitesTo m =
      (d.node c).sitesTo m := by
  rw [Design.node_modifyNode]
  split
  · exact lookup_withEntry ..
  · rfl

theorem modifyNode_withEntry (h : site ∈ (d.node c).sitesTo m) :
    (d.modifyNode c fun n => { n with calls := withEntry n.calls m }) = d := by
  have hsame : d.nodes.modify c (fun n => { n with calls := withEntry n.calls m }) = d.nodes := by
    refine Arena.modify_same fun n hn => ?_
    rw [Design.node_of_get? hn] at h
    rw [withEntry_of_site h]
  rw [Design.modifyNode, hsame]

theorem modifyNode_pushSite (d : Design) (c m : NodeId) (site : CallSite) :
    ((d.modifyNode c fun n => { n with calls := withEntry n.calls m }).modifyNode c fun n =>
        { n with calls := pushSite n.calls m site }) =
      d.modifyNode c fun n => { n with calls := Recording.addSite n.calls m site } := by
  have hnodes : (d.nodes.modify c fun n => { n with calls := withEntry n.calls m }).modify c
        (fun n => { n with calls := pushSite n.calls m site }) =
      d.nodes.modify c fun n => { n with calls := Recording.addSite n.calls m site } := by
    rw [Arena.modify_modify]
    congr 1
    funext n
    rw [Function.comp_apply, pushSite_withEntry]
  unfold Design.modifyNode
  rw [hnodes]

end

/-- A call that comes too late finds the entry of its method there already. -/
theorem runAt_call (m : NodeId) (arg enable : Expr) (loc : Location) :
    (call m arg enable loc).runAt r = settle id (r.call m arg enable loc) r := by
  obtain ⟨d, module, scope, path, conds, body⟩ := r
  unfold call Recording.call
  rw [runAt_get]
  cases body with
  | none => rfl
  | some frame =>
    simp only
    cases (d.node m).method? with
    | none => rfl
    | some info =>
      simp only
      refine settle_guard fun _ => ?_
      refine settle_check fun _ => ?_
      refine settle_guard fun _ => ?_
      refine settle_check fun enabled => ?_
      rw [runAt_onNode, runAt_get]
      simp only [sitesTo_withEntry]
      cases hfind : ((d.node frame.node).sitesTo m).find? fun s => !s.path.exclusiveWith path.current with
      | some prev =>
        rw [modifyNode_withEntry (List.mem_of_find?_eq_some hfind)]
        rfl
      | none =>
        simp only [runAt_onNode, modifyNode_pushSite]
        rfl

end InPlace

/-! ### Elementary operations -/

/-- The operations that fail before they change anything. -/
inductive Elementary where
  | method (decl : MethodDecl) (loc : Location)
  | signal (name : String) (width : Nat) (kind : SignalKind) (init : Word) (loc : Location)
  | assign (mode : AssignMode) (target : Sig) (value : Expr) (loc : Location)
  | machine (name : String) (states : List String) (loc : Location)
  | enterState (m : Machine) (state : String) (loc : Location)
  | nextState (m : Machine) (state : String) (loc : Location)
  | submodule (name : String) (loc : Location)
  | openTransaction (t : NodeId) (request : Expr) (loc : Location)
  | openMethod (m : NodeId) (ready : Expr) (validator : Option Validator) (loc : Location)
  | call (m : NodeId) (arg enable : Expr) (loc : Location)

namespace Elementary

/-- The place as the operation leaves it, store by store. -/
def perform : Elementary → InPlace Unit
  | method decl loc => do let _ ← InPlace.declareMethod decl loc
  | signal name width kind init loc => do let _ ← InPlace.signal name width kind init loc
  | assign .comb target value loc => do InPlace.assign target (← get).guard value .comb loc
  | assign .sync target value loc => do InPlace.assign target (← get).guard value .sync loc
  | assign .avComb target value loc => do InPlace.assign target (← get).cond value .comb loc
  | assign .topComb target value loc => InPlace.assign target .one value .comb loc
  | machine name states loc => do let _ ← InPlace.machine name states loc
  | enterState m state loc => InPlace.enterState m state loc
  | nextState m state loc => InPlace.nextState m state loc
  | submodule name loc => do let _ ← InPlace.openSubmodule name loc
  | openTransaction t request loc => InPlace.openTransaction t request loc
  | openMethod m ready validator loc => do let _ ← InPlace.openMethod m ready validator loc
  | call m arg enable loc => do let _ ← InPlace.call m arg enable loc

/-- The place that the operation gives, if it gives any. -/
def record (r : Recording) : Elementary → Attempt DesignError Recording
  | method decl loc => do
    let (_, design) ← r.design.declareMethod decl loc
    return { r with design }
  | signal name width kind init loc => do
    let (_, r) ← Attempt.ofExcept (r.signal name width kind init loc)
    return r
  | assign mode target value loc => Draft.assignAt r mode target value loc
  | machine name states loc => do
    let (_, r) ← Attempt.ofExcept (r.machine name states loc)
    return r
  | enterState m state loc => Attempt.ofExcept (r.enterState m state loc)
  | nextState m state loc => r.nextState m state loc
  | submodule name loc => do
    let inner ← Attempt.ofExcept (r.openSubmodule name loc)
    return { r with design := inner.design }
  | openTransaction t request loc => r.openTransaction t request loc
  | openMethod m ready validator loc => do
    let (_, r) ← r.openMethod m ready validator loc
    return r
  | call m arg enable loc => do
    let (_, r) ← r.call m arg enable loc
    return r

/-- A body that can be opened, since no other one is open and the node has none yet, is opened for a node of
the right kind. -/
def Fits (r : Recording) : Elementary → Prop
  | openTransaction t .. =>
    r.body = none → (r.design.node t).defLoc = none → (r.design.node t).isTransaction = true
  | openMethod m .. => r.body = none → (r.design.node m).defLoc = none → (r.design.node m).method?.isSome
  | _ => True

variable {r r' : Recording} {op : Elementary}

/-- The operations that store as they go, and those that give a new place if they do not fail, do the same. -/
theorem runAt_perform (h : op.Fits r) :
    op.perform.runAt r = Attempt.settle (fun r' => ((), r')) (op.record r) r := by
  cases op with
  | method decl loc => exact Attempt.settle_then (InPlace.runAt_declareMethod decl loc) fun _ _ => rfl
  | signal name width kind init loc =>
    exact Attempt.settle_then (InPlace.runAt_signal name width kind init loc) fun _ _ => rfl
  | assign mode target value loc =>
    cases mode with
    | comb => exact InPlace.runAt_assign target r.guard value .comb loc
    | sync => exact InPlace.runAt_assign target r.guard value .sync loc
    | avComb => exact InPlace.runAt_assign target r.cond value .comb loc
    | topComb => exact InPlace.runAt_assign target .one value .comb loc
  | machine name states loc => exact Attempt.settle_then (InPlace.runAt_machine name states loc) fun _ _ => rfl
  | enterState m state loc => exact InPlace.runAt_enterState m state loc
  | nextState m state loc => exact InPlace.runAt_nextState m state loc
  | submodule name loc => exact Attempt.settle_then (InPlace.runAt_openSubmodule name loc) fun _ _ => rfl
  | openTransaction t request loc => exact InPlace.runAt_openTransaction request loc h
  | openMethod m ready validator loc =>
    exact Attempt.settle_then (InPlace.runAt_openMethod ready validator loc h) fun _ _ => rfl
  | call m arg enable loc => exact Attempt.settle_then (InPlace.runAt_call m arg enable loc) fun _ _ => rfl

/-- An operation that stores as it goes and ends with an error has stored nothing: nodes, calls, relations,
signals, assignments, names and counters are as before. The error is the one with which the operation on
places gives no new place. -/
theorem fails_without_trace {e : DesignError} (hfits : op.Fits r) (h : op.perform.runAt r = .ok (.error e, r')) :
    (op.record r).run = .ok (.error e) ∧ r' = r := by
  rw [runAt_perform hfits] at h
  refine ⟨?_, Attempt.settle_error h⟩
  generalize op.record r = x at h
  rcases x with fault | e' | r''
  · exact nomatch h
  · cases h
    rfl
  · exact nomatch h

end Elementary

/-- A transaction that has called a method and can go on. -/
def Draft.calling : List Draft.Action :=
  [.method { name := "take" } .generated, .transaction "consumer" .generated, .openModule "",
    .inModule 0 (.openMethod 0 .one none .generated), .inModule 0 .leaveBody,
    .inModule 0 (.openTransaction 1 .one .generated), .inModule 0 (.call 0 (.zero 0) .one .generated)]

/-- A second call fails after its caller's entry for the method has been looked up. -/
theorem Elementary.fails_without_trace_of_calling :
    ∃ r r' e, (Draft.of Draft.calling).place? 0 = some r ∧
      (Elementary.call 0 (.zero 0) .one .generated).perform.runAt r = .ok (.error e, r') ∧ r' = r := by
  have hfails : ∃ r ∈ (Draft.of Draft.calling).place? 0,
      ∃ x ∈ ((Elementary.call 0 (.zero 0) .one .generated).perform.runAt r).toOption, x.1.toOption = none := by
    decide +kernel
  obtain ⟨r, hr, ⟨result, r'⟩, hx, hnone⟩ := hfails
  cases result with
  | ok u => exact nomatch hnone
  | error e =>
    have hrun := Except.toOption_eq_some.1 hx
    exact ⟨r, r', e, hr, hrun, (Elementary.fails_without_trace (by trivial) hrun).2⟩

end Interlock
