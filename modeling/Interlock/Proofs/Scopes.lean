import Interlock.Proofs.Draft.Script

/-! Scopes. Arms, bodies and submodules are left as they were entered, however the statements inside them end. So
a statement that returns, with success or with an error, has done nothing to the path but open chains and enter arms
that it has left again, and leaves the conditions and the open body as it found them; and wherever in a script
recording has got to, there is one condition for each arm of the path. Two stacks, of arms and of counters of chains,
go through the operations on the path without ever missing a counter, and keep one counter for each arm and one
more. -/

namespace Interlock

/-! ### Paths as two stacks -/

/-- A path under construction as two stacks side by side, both with the outermost item first. -/
structure PathStacks where
  module : ModuleId
  edges : List PathEdge := []
  /-- The next chain number at every depth. -/
  counters : List Nat := [0]
deriving DecidableEq, Repr

/-- What is done to a path under construction. -/
inductive PathOp where
  | chain
  | enter (parallel alternative : Nat)
  | leave
deriving DecidableEq, Repr

/-- Every arm that is entered is left again, and no other. -/
inductive PathOp.Nested : List PathOp → Prop
  | nil : Nested []
  | chain : Nested [.chain]
  | append {ops ops' : List PathOp} (h : Nested ops) (h' : Nested ops') : Nested (ops ++ ops')
  | arm {ops : List PathOp} (parallel alternative : Nat) (h : Nested ops) :
      Nested (.enter parallel alternative :: (ops ++ [.leave]))

namespace PathStacks

variable {s s' : PathStacks}

/-- Takes the number of a new chain from the counter of the current depth, if there is one. -/
def newChain (s : PathStacks) : Option (Nat × PathStacks) :=
  s.counters[s.edges.length]?.map fun n => (n, { s with counters := s.counters.set s.edges.length (n + 1) })

def push (s : PathStacks) (parallel alternative : Nat) : PathStacks :=
  { s with edges := s.edges ++ [⟨alternative, parallel⟩], counters := s.counters ++ [0] }

/-- Leaves the innermost arm; a counter goes only if an arm does. -/
def pop (s : PathStacks) : PathStacks :=
  if s.edges = [] then s else { s with edges := s.edges.dropLast, counters := s.counters.dropLast }

def take (s : PathStacks) : PathOp → Option PathStacks
  | .chain => s.newChain.map (·.2)
  | .enter parallel alternative => some (s.push parallel alternative)
  | .leave => some s.pop

/-- Takes operations one after the other, unless a counter is missing. -/
def run (s : PathStacks) (ops : List PathOp) : Option PathStacks := ops.foldlM take s

/-- There is a counter for the module and one for each arm. -/
def Counted (s : PathStacks) : Prop := s.counters.length = s.edges.length + 1

theorem Counted.newChain (h : s.Counted) : ∃ n s', s.newChain = some (n, s') ∧ s'.Counted := by
  have hlt : s.edges.length < s.counters.length := by rw [h]; exact Nat.lt_succ_self _
  rw [PathStacks.newChain, List.getElem?_eq_getElem hlt]
  exact ⟨_, _, rfl, List.length_set.trans h⟩

theorem Counted.push (h : s.Counted) (parallel alternative : Nat) : (s.push parallel alternative).Counted := by
  rw [Counted, PathStacks.push, List.length_append, List.length_append, h]
  rfl

theorem Counted.pop (h : s.Counted) : s.pop.Counted := by
  unfold PathStacks.pop
  split
  · exact h
  · rename_i hne
    rw [Counted, List.length_dropLast, List.length_dropLast, h, Nat.add_sub_cancel,
      Nat.sub_add_cancel (List.length_pos_iff.2 hne)]

/-- No operation misses a counter. -/
theorem Counted.take (h : s.Counted) (op : PathOp) : ∃ s', s.take op = some s' ∧ s'.Counted := by
  cases op with
  | chain =>
    obtain ⟨n, s', hs', hcounted⟩ := h.newChain
    exact ⟨s', by rw [PathStacks.take, hs', Option.map_some], hcounted⟩
  | enter parallel alternative => exact ⟨_, rfl, h.push ..⟩
  | leave => exact ⟨_, rfl, h.pop⟩

theorem Counted.run (h : s.Counted) (ops : List PathOp) : ∃ s', s.run ops = some s' ∧ s'.Counted := by
  unfold PathStacks.run
  induction ops generalizing s with
  | nil => exact ⟨s, rfl, h⟩
  | cons op rest ih =>
    obtain ⟨s₁, hs₁, hcounted⟩ := h.take op
    rw [List.foldlM_cons, hs₁]
    exact ih hcounted

end PathStacks

namespace PathBuilder

variable (b : PathBuilder)

def take (b : PathBuilder) : PathOp → PathBuilder
  | .chain => b.newChain.2
  | .enter parallel alternative => b.push parallel alternative
  | .leave => b.pop

def run (b : PathBuilder) (ops : List PathOp) : PathBuilder := ops.foldl take b

theorem run_append (ops ops' : List PathOp) : b.run (ops ++ ops') = (b.run ops).run ops' := List.foldl_append

/-- Arms that are left again do not show in the path. -/
theorem run_nested {ops : List PathOp} (h : PathOp.Nested ops) :
    (b.run ops).entered = b.entered ∧ (b.run ops).module = b.module := by
  induction h generalizing b with
  | nil => exact ⟨rfl, rfl⟩
  | chain => exact ⟨rfl, rfl⟩
  | append h h' ih ih' =>
    rw [run_append]
    exact ⟨(ih' _).1.trans (ih _).1, (ih' _).2.trans (ih _).2⟩
  | @arm inner parallel alternative h ih =>
    obtain ⟨hentered, hmodule⟩ := ih (b.push parallel alternative)
    have hrun : b.run (.enter parallel alternative :: (inner ++ [.leave])) =
        ((b.push parallel alternative).run inner).pop := run_append ..
    rw [hrun, pop, hentered]
    exact ⟨rfl, hmodule⟩

/-- The two stacks that hold what a path under construction holds. -/
def asStacks : PathStacks :=
  ⟨b.module, (b.entered.map (·.1)).reverse, (b.nextChain :: b.entered.map (·.2)).reverse⟩

theorem asStacks_start (module : ModuleId) : ({ module } : PathBuilder).asStacks = { module } := rfl

/-- A chain finds its counter. -/
theorem asStacks_newChain : b.asStacks.newChain = some (b.newChain.1, b.newChain.2.asStacks) := by
  have hlength : b.asStacks.edges.length = (b.entered.map (·.2)).reverse.length := by simp [asStacks]
  have hcounters : b.asStacks.counters = (b.entered.map (·.2)).reverse ++ [b.nextChain] := by simp [asStacks]
  unfold PathStacks.newChain
  rw [hlength, hcounters, List.getElem?_concat_length]
  simp [newChain, asStacks]

theorem asStacks_push (parallel alternative : Nat) :
    (b.push parallel alternative).asStacks = b.asStacks.push parallel alternative := by
  simp [push, asStacks, PathStacks.push]

theorem asStacks_pop : b.pop.asStacks = b.asStacks.pop := by
  obtain ⟨module, nextChain, entered⟩ := b
  cases entered with
  | nil => rfl
  | cons e outer => simp [pop, asStacks, PathStacks.pop]

/-- The two stacks take every operation that the path takes. -/
theorem asStacks_take (op : PathOp) : b.asStacks.take op = some (b.take op).asStacks := by
  cases op with
  | chain => rw [PathStacks.take, asStacks_newChain, Option.map_some, take]
  | enter parallel alternative => rw [PathStacks.take, ← asStacks_push, take]
  | leave => rw [PathStacks.take, ← asStacks_pop, take]

theorem asStacks_run (ops : List PathOp) : b.asStacks.run ops = some (b.run ops).asStacks := by
  unfold PathStacks.run
  induction ops generalizing b with
  | nil => rfl
  | cons op rest ih =>
    rw [List.foldlM_cons, asStacks_take]
    exact ih (b.take op)

/-- The two stacks go through the operations from the start of a module to the end: they hold the arms of the path,
one counter for each of them and one more, and a new chain gets its number. -/
theorem onStacks_of_run {module : ModuleId} {ops : List PathOp} (h : b = run { module } ops) :
    ∃ s, PathStacks.run { module } ops = some s ∧ s.edges = b.current.edges ∧ s.counters.length = s.edges.length + 1 ∧
      s.newChain = some (b.newChain.1, b.newChain.2.asStacks) := by
  subst h
  obtain ⟨s, hs, hcounted⟩ := PathStacks.Counted.run (s := { module }) rfl ops
  obtain rfl : (run { module } ops).asStacks = s := by
    rw [← asStacks_start, asStacks_run] at hs
    exact Option.some.inj hs
  exact ⟨_, hs, rfl, hcounted, asStacks_newChain _⟩

end PathBuilder

/-! ### Places -/

namespace Recording

variable {r r' r'' : Recording}

/-- There is a condition for each arm around the place. The path has come from the start of the module by operations,
and whichever they were, two stacks go through them as well: they end up with the arms of the path, a counter for each
of them and one more, and a new chain gets its number. -/
structure Balanced (r : Recording) : Prop where
  conds : r.conds.length = r.path.depth
  reached : ∃ ops, r.path = PathBuilder.run { module := r.path.module } ops
  onStacks : ∀ ops, r.path = PathBuilder.run { module := r.path.module } ops →
    ∃ s, PathStacks.run { module := r.path.module } ops = some s ∧ s.edges = r.path.current.edges ∧
      s.counters.length = s.edges.length + 1 ∧ s.newChain = some (r.newChain.1, r.newChain.2.path.asStacks)

theorem Balanced.of_ops (ops : List PathOp) (hconds : r.conds.length = r.path.depth)
    (hops : r.path = PathBuilder.run { module := r.path.module } ops) : r.Balanced :=
  ⟨hconds, ⟨ops, hops⟩, fun _ h => r.path.onStacks_of_run h⟩

theorem balanced_openModule (d : Design) (scope : String) : (openModule d scope).Balanced := .of_ops [] rfl rfl

/-- Further operations in the module, which the conditions keep up with. -/
theorem Balanced.onward (h : r.Balanced) (ops : List PathOp) (hpath : r'.path = r.path.run ops)
    (hmodule : r'.path.module = r.path.module) (hconds : r'.conds.length = r'.path.depth) : r'.Balanced := by
  obtain ⟨before, hbefore⟩ := h.reached
  refine .of_ops (before ++ ops) hconds ?_
  rw [PathBuilder.run_append, hmodule, ← hbefore, hpath]

theorem Balanced.enter (h : r.Balanced) (number alternative : Nat) (cond : Expr) :
    (r.enter number alternative cond).Balanced :=
  h.onward [.enter number alternative] rfl rfl (congrArg (· + 1) h.conds)

theorem Balanced.newChain (h : r.Balanced) : r.newChain.2.Balanced := h.onward [.chain] rfl rfl h.conds

/-- The place has come about by arms that have been left again, with the same conditions around it and the same body
open. -/
structure Returns (r r' : Recording) : Prop where
  path : ∃ ops, PathOp.Nested ops ∧ r'.path = r.path.run ops
  conds : r'.conds = r.conds
  body : r'.body = r.body

namespace Returns

/-- Nothing has been done to the path. -/
protected theorem still (hpath : r'.path = r.path) (hconds : r'.conds = r.conds) (hbody : r'.body = r.body) :
    r.Returns r' := ⟨⟨[], .nil, hpath⟩, hconds, hbody⟩

protected theorem refl (r : Recording) : r.Returns r := .still rfl rfl rfl

protected theorem trans (h : r.Returns r') (h' : r'.Returns r'') : r.Returns r'' := by
  obtain ⟨ops, hops, hpath⟩ := h.path
  obtain ⟨ops', hops', hpath'⟩ := h'.path
  refine ⟨⟨ops ++ ops', hops.append hops', ?_⟩, h'.conds.trans h.conds, h'.body.trans h.body⟩
  rw [PathBuilder.run_append, ← hpath, hpath']

theorem newChain (r : Recording) : r.Returns r.newChain.2 := ⟨⟨[.chain], .chain, rfl⟩, rfl, rfl⟩

/-- The arms around the place are the same. -/
theorem stays (h : r.Returns r') : r.Stays r' := by
  obtain ⟨ops, hops, hpath⟩ := h.path
  rw [Stays, hpath]
  exact r.path.run_nested hops

/-- An arm is left after what has been recorded in it. -/
theorem leave {number alternative : Nat} {cond : Expr} (h : (r.enter number alternative cond).Returns r') :
    r.Returns r'.leave := by
  obtain ⟨ops, hops, hpath⟩ := h.path
  refine ⟨⟨_, hops.arm number alternative, ?_⟩, congrArg List.tail h.conds, h.body⟩
  show r'.path.pop = ((r.enter number alternative cond).path.run (ops ++ [.leave]))
  rw [PathBuilder.run_append, ← hpath]
  rfl

/-- A body is left after what has been recorded in it, and none was open before it. -/
theorem leaveBody {design : Design} {body : Option BodyFrame} (hbody : r.body = none)
    (h : ({ r with design, body } : Recording).Returns r') : r.Returns r'.leaveBody :=
  ⟨h.path, h.conds, hbody.symm⟩

theorem balanced (h : r.Returns r') (hb : r.Balanced) : r'.Balanced := by
  obtain ⟨ops, -, hpath⟩ := h.path
  refine hb.onward ops hpath h.stays.2 ?_
  rw [h.conds, hb.conds, PathBuilder.depth, PathBuilder.depth, h.stays.1]

end Returns

/-! What the elementary operations leave as it is. -/

theorem signal_returns {name : String} {width : Nat} {kind : SignalKind} {init : Word} {loc : Location} {s : Sig}
    (h : r.signal name width kind init loc = .ok (s, r')) : r.Returns r' := by
  obtain ⟨-, -, rfl⟩ := signal_ok h
  exact .still rfl rfl rfl

theorem assign_returns {target : Sig} {guard value : Expr} {domain : Domain} {loc : Location}
    (h : (r.assign target guard value domain loc).Gives r') : r.Returns r' := by
  obtain ⟨-, rfl⟩ := assign_ok h
  exact .still rfl rfl rfl

theorem machine_returns {name : String} {states : List String} {loc : Location} {m : Machine}
    (h : r.machine name states loc = .ok (m, r')) : r.Returns r' := by
  obtain ⟨r₁, hs, -, -, -, rfl⟩ := machine_ok h
  exact (signal_returns hs).trans (.newChain r₁)

theorem closeMethod_returns {m : NodeId} {info : MethodInfo} {result : Expr} {loc : Location}
    (h : (r.closeMethod m info result loc).Gives r') : r.Returns r' := by
  rcases closeMethod_ok h with rfl | ⟨bus, -, rfl⟩
  · exact .refl r'
  · exact .still rfl rfl rfl

theorem call_returns {m : NodeId} {arg enable out : Expr} {loc : Location}
    (h : (r.call m arg enable loc).Gives (out, r')) : r.Returns r' := by
  obtain ⟨_, _, _, -, -, -, -, -, -, -, rfl⟩ := call_ok h
  exact .still rfl rfl rfl

/-- The state of a machine is entered as an arm. -/
theorem enterState_enter {m : Machine} {state : String} {loc : Location}
    (h : r.enterState m state loc = .ok r') : ∃ i, r' = r.enter m.chain i (m.inState i) := by
  have hindex := h
  unfold enterState at hindex
  rw [except_bind_ok] at hindex
  obtain ⟨i, hi, -⟩ := hindex
  exact ⟨i, (enterState_ok hi h).2⟩

theorem openTransaction_leave {t : NodeId} {request : Expr} {loc : Location}
    (h : (r.openTransaction t request loc).Gives r') (h' : r'.Returns r'') : r.Returns r''.leaveBody := by
  have hbody := openTransaction_outside h
  obtain ⟨info, wanted, -, -, -, rfl⟩ := openTransaction_ok h
  exact h'.leaveBody hbody

theorem openMethod_leave {m : NodeId} {ready : Expr} {validator : Option Validator} {loc : Location}
    {info : MethodInfo} (h : (r.openMethod m ready validator loc).Gives (info, r')) (h' : r'.Returns r'') :
    r.Returns r''.leaveBody := by
  have hbody := openMethod_outside h
  obtain ⟨old, wanted, -, -, -, -, rfl⟩ := openMethod_ok h
  exact h'.leaveBody hbody

end Recording

open Attempt (Gives)

/-! ### Statements return -/

namespace Stmt

section

variable {p p' : Progress} {result : Except DesignError Outcome}

/-- A statement that is one step, which keeps the place or gives one that returns. -/
theorem step_returns {x : Attempt DesignError (Outcome × Progress)} (h : p.step x = .ok (p', result))
    (hx : ∀ outcome, Gives x (outcome, p') → p.place.Returns p'.place) : p.place.Returns p'.place := by
  rcases Progress.step_ok h with rfl | ⟨outcome, hg⟩
  · exact .refl _
  · exact hx outcome hg

theorem after_returns {α : Type} {x : Attempt DesignError α} {next : α → Progress.Step}
    (h : p.after x next = .ok (p', result))
    (hnext : ∀ a, Gives x a → next a = .ok (p', result) → p.place.Returns p'.place) : p.place.Returns p'.place := by
  rcases Progress.after_ok h with rfl | ⟨a, hg, hn⟩
  · exact .refl _
  · exact hnext a hg hn

end

/-- The condition of a case, as its branch is entered. -/
def caseBit (sel : Expr) : Option (List Word) → Except Fault Expr
  | some values => Recording.caseCond sel values
  | none => .ok .one

theorem execCases_cons (p : Progress) (chain : Recording.Chain) (sel : Expr) (values : Option (List Word))
    (body : List Stmt) (rest : List (Option (List Word) × List Stmt)) :
    Stmt.execCases p chain sel ((values, body) :: rest) = (do
      let cond ← caseBit sel values
      let (p₁, failure) ← Stmt.execAll { p with place := (p.place.enterNext chain cond).2 } body
      match failure with
      | some e => return ({ p₁ with place := p₁.place.leave }, some e)
      | none => Stmt.execCases { p₁ with place := p₁.place.leave } (p.place.enterNext chain cond).1 sel rest) := by
  cases values with
  | none => rfl
  | some values => rfl

mutual
/-- However a statement ends, it leaves the scope as it found it. -/
theorem exec_returns (s : Stmt) {p p' : Progress} {result : Except DesignError Outcome}
    (h : s.exec p = .ok (p', result)) : p.place.Returns p'.place := by
  cases s with
  | graph stmt =>
    rw [Stmt.exec] at h
    refine step_returns h fun outcome hg => ?_
    simp only [Attempt.gives_bind, Attempt.gives_pure, Prod.mk.injEq] at hg
    obtain ⟨_, -, -, rfl⟩ := hg
    exact .still rfl rfl rfl
  | signal kind id name width init loc =>
    rw [Stmt.exec] at h
    refine step_returns h fun outcome hg => ?_
    simp only [Attempt.gives_bind, Attempt.gives_ofExcept, Attempt.gives_pure, Prod.mk.injEq] at hg
    obtain ⟨⟨s, r⟩, hs, -, rfl⟩ := hg
    exact Recording.signal_returns hs
  | assign mode target value loc =>
    rw [Stmt.exec] at h
    refine step_returns h fun outcome hg => ?_
    simp only [Attempt.gives_bind] at hg
    obtain ⟨target, -, value, -, hg⟩ := hg
    cases mode
    all_goals
      simp only [Attempt.gives_bind, Attempt.gives_pure, Prod.mk.injEq] at hg
      obtain ⟨r, hr, -, rfl⟩ := hg
      exact Recording.assign_returns hr
  | «when» cond body =>
    rw [Stmt.exec] at h
    refine after_returns h fun cond hcond hn => ?_
    simp only [except_bind_ok, except_pure_ok, Prod.mk.injEq] at hn
    obtain ⟨wanted, -, ⟨p₁, failure⟩, hrun, rfl, -⟩ := hn
    exact (Recording.Returns.newChain _).trans (execAll_returns body hrun).leave
  | ifElse arms orElse =>
    rw [Stmt.exec] at h
    refine after_returns h fun conds hconds hn => ?_
    simp only [except_bind_ok] at hn
    obtain ⟨⟨p₁, failed, chain⟩, harms, hn⟩ := hn
    have hreturns := (Recording.Returns.newChain _).trans (execArms_returns arms harms)
    cases failed with
    | some e =>
      simp only [except_pure_ok, Prod.mk.injEq] at hn
      obtain ⟨rfl, -⟩ := hn
      exact hreturns
    | none =>
      simp only [except_bind_ok, except_pure_ok, Prod.mk.injEq] at hn
      obtain ⟨⟨p₂, failure⟩, hrun, rfl, -⟩ := hn
      exact hreturns.trans (execAll_returns orElse hrun).leave
  | switch sel cases =>
    rw [Stmt.exec] at h
    refine after_returns h fun sel hsel hn => ?_
    simp only [except_bind_ok, except_pure_ok, Prod.mk.injEq] at hn
    obtain ⟨⟨p₁, failure⟩, hcases, rfl, -⟩ := hn
    exact (Recording.Returns.newChain _).trans (execCases_returns cases hcases)
  | machine id name states loc =>
    rw [Stmt.exec] at h
    refine step_returns h fun outcome hg => ?_
    simp only [Attempt.gives_bind, Attempt.gives_ofExcept, Attempt.gives_pure, Prod.mk.injEq] at hg
    obtain ⟨⟨m, r⟩, hm, -, rfl⟩ := hg
    exact Recording.machine_returns hm
  | machineState name state body loc =>
    rw [Stmt.exec] at h
    refine after_returns h fun r hr hn => ?_
    simp only [Attempt.gives_bind, Attempt.gives_ofExcept] at hr
    obtain ⟨m, -, hr⟩ := hr
    simp only [except_bind_ok, except_pure_ok, Prod.mk.injEq] at hn
    obtain ⟨⟨p₁, failure⟩, hrun, rfl, -⟩ := hn
    obtain ⟨i, rfl⟩ := Recording.enterState_enter hr
    exact (execAll_returns body hrun).leave
  | nextState name state loc =>
    rw [Stmt.exec] at h
    refine step_returns h fun outcome hg => ?_
    simp only [Attempt.gives_bind, Attempt.gives_pure, Prod.mk.injEq] at hg
    obtain ⟨m, -, r, hr, -, rfl⟩ := hg
    obtain ⟨_, -, hr⟩ := Recording.nextState_ok hr
    exact Recording.assign_returns hr
  | submodule name body loc =>
    rw [Stmt.exec] at h
    refine after_returns h fun inner _ hn => ?_
    simp only [except_bind_ok, except_pure_ok, Prod.mk.injEq] at hn
    obtain ⟨_, -, rfl, -⟩ := hn
    exact .still rfl rfl rfl
  | moduleId =>
    simp only [Stmt.exec, Except.ok.injEq, Prod.mk.injEq] at h
    obtain ⟨rfl, -⟩ := h
    exact .refl _
  | transactionBody t request body loc =>
    rw [Stmt.exec] at h
    refine after_returns h fun r hr hn => ?_
    simp only [Attempt.gives_bind] at hr
    obtain ⟨request, -, t, -, hr⟩ := hr
    simp only [except_bind_ok, except_pure_ok, Prod.mk.injEq] at hn
    obtain ⟨⟨p₁, failure⟩, hrun, rfl, -⟩ := hn
    exact Recording.openTransaction_leave hr (execAll_returns body hrun)
  | methodBody m ready check arg body value loc =>
    rw [Stmt.exec] at h
    refine after_returns h fun (m, info, r) hr hn => ?_
    simp only [Attempt.gives_bind, Attempt.gives_pure, Prod.mk.injEq] at hr
    obtain ⟨ready, -, id, -, ⟨info', r'⟩, hr, rfl, rfl, rfl⟩ := hr
    simp only [except_bind_ok] at hn
    obtain ⟨⟨p₁, failure⟩, hrun, hn⟩ := hn
    have hclosed := Recording.openMethod_leave hr (execAll_returns body hrun)
    cases failure with
    | some e =>
      simp only [except_pure_ok, Prod.mk.injEq] at hn
      obtain ⟨rfl, -⟩ := hn
      exact hclosed
    | none =>
      refine hclosed.trans (step_returns hn fun outcome hg => ?_)
      simp only [Attempt.gives_bind, Attempt.gives_pure, Prod.mk.injEq] at hg
      obtain ⟨_, -, r₂, hclose, -, rfl⟩ := hg
      exact Recording.closeMethod_returns hclose
  | proxy m target loc =>
    rw [Stmt.exec] at h
    refine after_returns h fun (m, target, info, r) hr hn => ?_
    simp only [Attempt.gives_bind, Attempt.gives_pure, Prod.mk.injEq] at hr
    obtain ⟨target', -, id, -, ⟨info', r'⟩, hr, rfl, rfl, rfl, rfl⟩ := hr
    rcases Progress.after_ok hn with rfl | ⟨⟨out, r₂⟩, hcall, hn⟩
    · exact Recording.openMethod_leave hr (.refl _)
    · refine (Recording.openMethod_leave hr (Recording.call_returns hcall)).trans
        (step_returns hn fun outcome hg => ?_)
      simp only [Attempt.gives_bind, Attempt.gives_pure, Prod.mk.injEq] at hg
      obtain ⟨r₃, hclose, -, rfl⟩ := hg
      exact Recording.closeMethod_returns hclose
  | call m arg enable id loc =>
    rw [Stmt.exec] at h
    refine step_returns h fun outcome hg => ?_
    simp only [Attempt.gives_bind] at hg
    obtain ⟨arg, -, enable, -, m, -, ⟨out, r⟩, hr, hg⟩ := hg
    cases id
    all_goals
      simp only [Attempt.gives_pure, Prod.mk.injEq] at hg
      obtain ⟨-, rfl⟩ := hg
      exact Recording.call_returns hr
  | attempt body =>
    simp only [Stmt.exec, except_bind_ok] at h
    obtain ⟨⟨p₁, failure⟩, hrun, h⟩ := h
    have hreturns := execAll_returns body hrun
    cases failure
    all_goals
      simp only [except_pure_ok, Prod.mk.injEq] at h
      obtain ⟨rfl, -⟩ := h
      exact hreturns

/-- So do statements up to the first that fails. -/
theorem execAll_returns (l : List Stmt) {p p' : Progress} {failure : Option DesignError}
    (h : Stmt.execAll p l = .ok (p', failure)) : p.place.Returns p'.place := by
  cases l with
  | nil =>
    simp only [Stmt.execAll, Except.ok.injEq, Prod.mk.injEq] at h
    obtain ⟨rfl, -⟩ := h
    exact .refl _
  | cons s rest =>
    simp only [Stmt.execAll, except_bind_ok] at h
    obtain ⟨⟨p₁, result⟩, hs, h⟩ := h
    have hreturns := exec_returns s hs
    cases result with
    | error e =>
      simp only [except_pure_ok, Prod.mk.injEq] at h
      obtain ⟨rfl, -⟩ := h
      exact hreturns
    | ok outcome =>
      have hrest := execAll_returns rest h
      exact hreturns.trans hrest

/-- The arms of a chain, each left before the next is entered. -/
theorem execArms_returns (l : List (Term × List Stmt)) {p p' : Progress} {c c' : Recording.Chain}
    {conds : List Expr} {failure : Option DesignError} (h : Stmt.execArms p c conds l = .ok (p', failure, c')) :
    p.place.Returns p'.place := by
  cases l with
  | nil =>
    simp only [Stmt.execArms, Except.ok.injEq, Prod.mk.injEq] at h
    obtain ⟨rfl, -⟩ := h
    exact .refl _
  | cons arm rest =>
    obtain ⟨cond, body⟩ := arm
    simp only [Stmt.execArms, except_bind_ok] at h
    obtain ⟨wanted, -, ⟨p₁, failed⟩, hrun, h⟩ := h
    have hleft := (execAll_returns body hrun).leave
    cases failed with
    | some e =>
      simp only [except_pure_ok, Prod.mk.injEq] at h
      obtain ⟨rfl, -⟩ := h
      exact hleft
    | none => exact hleft.trans (execArms_returns rest h)

/-- The cases of a switch are arms too. -/
theorem execCases_returns (l : List (Option (List Word) × List Stmt)) {p p' : Progress} {c : Recording.Chain}
    {sel : Expr} {failure : Option DesignError} (h : Stmt.execCases p c sel l = .ok (p', failure)) :
    p.place.Returns p'.place := by
  cases l with
  | nil =>
    simp only [Stmt.execCases, Except.ok.injEq, Prod.mk.injEq] at h
    obtain ⟨rfl, -⟩ := h
    exact .refl _
  | cons case rest =>
    obtain ⟨values, body⟩ := case
    simp only [execCases_cons, except_bind_ok] at h
    obtain ⟨cond, -, ⟨p₁, failed⟩, hrun, h⟩ := h
    have hleft := (execAll_returns body hrun).leave
    cases failed with
    | some e =>
      simp only [except_pure_ok, Prod.mk.injEq] at h
      obtain ⟨rfl, -⟩ := h
      exact hleft
    | none => exact hleft.trans (execCases_returns rest h)
end

/-! ### Places inside statements -/

/-- A branch of a statement: the condition under which it is entered, and what is recorded in it. -/
abbrev Branch := Except Fault Expr × List Stmt

def armBranches (conds : List Expr) : List (Term × List Stmt) → List Branch
  | [] => []
  | (_, body) :: rest => (Expr.Checked.anyBit (conds.headD .one), body) :: armBranches conds.tail rest

def caseBranches (sel : Expr) (cases : List (Option (List Word) × List Stmt)) : List Branch :=
  cases.map fun (values, body) => (caseBit sel values, body)

/-- One of the branches of a chain is entered, after those before it have been recorded without failure. -/
inductive EntersBranch : Progress → Recording.Chain → List Branch → Progress → List Stmt → Prop
  | first {p : Progress} {chain : Recording.Chain} {b : Branch} {rest : List Branch} {wanted : Expr}
      (hw : b.1 = .ok wanted) :
      EntersBranch p chain (b :: rest) { p with place := (p.place.enterNext chain wanted).2 } b.2
  | later {p p₁ q : Progress} {chain : Recording.Chain} {b : Branch} {rest : List Branch} {wanted : Expr}
      {l : List Stmt} (hw : b.1 = .ok wanted)
      (hrun : Stmt.execAll { p with place := (p.place.enterNext chain wanted).2 } b.2 = .ok (p₁, none))
      (h : EntersBranch { p₁ with place := p₁.place.leave } (p.place.enterNext chain wanted).1 rest q l) :
      EntersBranch p chain (b :: rest) q l

/-- A statement comes to record other statements inside it: where it does so, and which. The call that a proxy
makes is recorded in a body without statements. -/
inductive Enters (p : Progress) : Stmt → Progress → List Stmt → Prop
  | when {cond : Term} {body : List Stmt} {e wanted : Expr} (he : Gives (p.build cond) e)
      (hw : Expr.Checked.anyBit e = .ok wanted) :
      Enters p (.when cond body) { p with place := p.place.newChain.2.enter p.place.newChain.1 0 wanted } body
  | arm {arms : List (Term × List Stmt)} {orElse body : List Stmt} {conds : List Expr} {q : Progress}
      (hc : Gives (Term.buildAll p.scope (arms.map (·.1))) conds)
      (h : EntersBranch { p with place := p.place.newChain.2 } { number := p.place.newChain.1 }
        (armBranches conds arms) q body) :
      Enters p (.ifElse arms orElse) q body
  | otherwise {arms : List (Term × List Stmt)} {orElse : List Stmt} {conds : List Expr} {p₁ : Progress}
      {chain : Recording.Chain} (hc : Gives (Term.buildAll p.scope (arms.map (·.1))) conds)
      (hrun : Stmt.execArms { p with place := p.place.newChain.2 } { number := p.place.newChain.1 } conds arms =
        .ok (p₁, none, chain)) :
      Enters p (.ifElse arms orElse) { p₁ with place := (p₁.place.enterNext chain .one).2 } orElse
  | case {sel : Term} {cases : List (Option (List Word) × List Stmt)} {body : List Stmt} {e : Expr} {q : Progress}
      (he : Gives (p.build sel) e)
      (h : EntersBranch { p with place := p.place.newChain.2 } { number := p.place.newChain.1 }
        (caseBranches e cases) q body) :
      Enters p (.switch sel cases) q body
  | state {name state : String} {body : List Stmt} {loc : Location} {m : Machine} {r : Recording}
      (hm : Gives (Env.find p.env.machines name) m) (hr : p.place.enterState m state loc = .ok r) :
      Enters p (.machineState name state body loc) { p with place := r } body
  | submodule {name : String} {body : List Stmt} {loc : Location} {inner : Recording}
      (h : p.place.openSubmodule name loc = .ok inner) :
      Enters p (.submodule name body loc) { p with place := inner } body
  | transactionBody {t : String} {request : Term} {body : List Stmt} {loc : Location} {e : Expr} {id : NodeId}
      {r : Recording} (he : Gives (p.build request) e) (ht : Gives (Env.find p.env.transactions t) id)
      (hr : Gives (p.place.openTransaction id e loc) r) :
      Enters p (.transactionBody t request body loc) { p with place := r } body
  | methodBody {m : String} {ready value : Term} {check : Option Check} {arg : Option String} {body : List Stmt}
      {loc : Location} {e : Expr} {id : NodeId} {info : MethodInfo} {r : Recording} (he : Gives (p.build ready) e)
      (hm : Gives (Env.find p.env.methods m) id)
      (hr : Gives (p.place.openMethod id e (check.map p.validator) loc) (info, r)) :
      Enters p (.methodBody m ready check arg body value loc)
        { p with
          place := r
          env := match arg with
            | some name => p.env.bindVar name (r.design.dataIn id)
            | none => p.env } body
  | proxy {m target : String} {loc : Location} {id id' : NodeId} {info : MethodInfo} {r : Recording}
      (hm : Gives (Env.find p.env.methods m) id) (ht : Gives (Env.find p.env.methods target) id')
      (hr : Gives (p.place.openMethod id (p.place.design.ready id') none loc) (info, r)) :
      Enters p (.proxy m target loc) { p with place := r } []
  | attempt {body : List Stmt} : Enters p (.attempt body) p body

/-- Where recording gets to in the course of some statements: between any two of them, or where one of them has
failed, and in the same way within each. -/
inductive Passes : Progress → List Stmt → Progress → Prop
  | here (p : Progress) (l : List Stmt) : Passes p l p
  | next {p p₁ q : Progress} {s : Stmt} {rest : List Stmt} {outcome : Outcome}
      (hs : s.exec p = .ok (p₁, .ok outcome)) (h : Passes (p₁.write s.verb (.ok outcome)) rest q) :
      Passes p (s :: rest) q
  | failed {p p₁ : Progress} {s : Stmt} {rest : List Stmt} {e : DesignError}
      (hs : s.exec p = .ok (p₁, .error e)) : Passes p (s :: rest) (p₁.write s.verb (.error e))
  | inside {p p₁ q : Progress} {s : Stmt} {rest body : List Stmt} (he : Enters p s p₁ body) (h : Passes p₁ body q) :
      Passes p (s :: rest) q

theorem EntersBranch.balanced {p q : Progress} {chain : Recording.Chain} {branches : List Branch} {l : List Stmt}
    (h : EntersBranch p chain branches q l) (hp : p.place.Balanced) : q.place.Balanced := by
  induction h with
  | first hw => exact hp.enter ..
  | later hw hrun h ih =>
    have hleft := (execAll_returns _ hrun).leave
    exact ih (hleft.balanced hp)

/-- Statements inside a statement are recorded at a balanced place if the statement is. -/
theorem Enters.balanced {p q : Progress} {s : Stmt} {l : List Stmt} (h : Enters p s q l)
    (hp : p.place.Balanced) : q.place.Balanced := by
  cases h with
  | «when» he hw => exact hp.newChain.enter ..
  | arm hc h => exact h.balanced hp.newChain
  | otherwise hc hrun => exact ((execArms_returns _ hrun).balanced hp.newChain).enter ..
  | case he h => exact h.balanced hp.newChain
  | state hm hr =>
    obtain ⟨i, rfl⟩ := Recording.enterState_enter hr
    exact hp.enter ..
  | submodule h =>
    unfold Recording.openSubmodule at h
    split at h
    · exact nomatch h
    · rw [← Except.ok.inj h]
      exact Recording.balanced_openModule ..
  | transactionBody he ht hr =>
    obtain ⟨info, wanted, -, -, -, rfl⟩ := Recording.openTransaction_ok hr
    exact hp.onward [] rfl rfl hp.conds
  | methodBody he hm hr =>
    obtain ⟨old, wanted, -, -, -, -, rfl⟩ := Recording.openMethod_ok hr
    exact hp.onward [] rfl rfl hp.conds
  | proxy hm ht hr =>
    obtain ⟨old, wanted, -, -, -, -, rfl⟩ := Recording.openMethod_ok hr
    exact hp.onward [] rfl rfl hp.conds
  | attempt => exact hp

/-- From a balanced place recording gets to balanced places only. -/
theorem Passes.balanced {p q : Progress} {l : List Stmt} (h : Passes p l q) (hp : p.place.Balanced) :
    q.place.Balanced := by
  induction h with
  | here p l => exact hp
  | next hs h ih => exact ih ((exec_returns _ hs).balanced hp)
  | failed hs => exact (exec_returns _ hs).balanced hp
  | inside he h ih => exact ih (he.balanced hp)

end Stmt

/-- Wherever a module has got to, in whatever arms, bodies and submodules and after whatever failures, conditions
and counters match the path, and a statement that is run there, or several up to the first failure, come back to
the path, the conditions and the open body that were there. -/
theorem scopes_balanced {d : Design} {scope : String} {env : Env} {log : List LogEntry} {l : List Stmt}
    {q : Progress} (h : Stmt.Passes ⟨Recording.openModule d scope, env, log⟩ l q) :
    q.place.Balanced ∧
      (∀ (s : Stmt) (q' : Progress) (result : Except DesignError Outcome), s.exec q = .ok (q', result) →
        q'.place.path.current = q.place.path.current ∧ q.place.Returns q'.place) ∧
      ∀ (body : List Stmt) (q' : Progress) (failure : Option DesignError), Stmt.execAll q body = .ok (q', failure) →
        q'.place.path.current = q.place.path.current ∧ q.place.Returns q'.place := by
  have hbalanced := h.balanced (Recording.balanced_openModule d scope)
  refine ⟨hbalanced, fun s q' result hs => ?_, fun body q' failure hrun => ?_⟩
  · have hreturns := Stmt.exec_returns s hs
    exact ⟨hreturns.stays.current, hreturns⟩
  · have hreturns := Stmt.execAll_returns body hrun
    exact ⟨hreturns.stays.current, hreturns⟩

/-- A module in which a transaction can be given a body. -/
def Progress.beginning : Progress :=
  ⟨Recording.openModule (({} : Design).declareTransaction "t" .generated).2 "", { transactions := [("t", 0)] }, []⟩

/-- A body in an arm, in which a submodule is tried. -/
def Stmt.misplaced : List Stmt :=
  [.attempt [.when (.bit true) [.transactionBody "t" (.bit true) [.submodule "s" [] .generated] .generated]]]

/-- In the body, one arm deep, the submodule fails, and the body is still open. -/
theorem scopes_balanced_of_misplaced :
    ∃ q q' e, Stmt.Passes Progress.beginning Stmt.misplaced q ∧
      (Stmt.submodule "s" [] .generated).exec q = .ok (q', .error e) ∧ q.place.Balanced ∧ q.place.path.depth = 1 ∧
        q'.place.body.isSome = true ∧ q'.place.body = q.place.body := by
  have hrun : ∃ r ∈ ((Progress.beginning.place.newChain.2.enter Progress.beginning.place.newChain.1 0
        (.bit true)).openTransaction 0 (.bit true) .generated).result?,
      r.path.depth = 1 ∧ r.body.isSome = true ∧
        ∃ x ∈ ((Stmt.submodule "s" [] .generated).exec { Progress.beginning with place := r }).toOption,
          x.2.toOption.isNone = true := by
    decide +kernel
  obtain ⟨r, hr, hdepth, hbody, ⟨q', result⟩, hx, hnone⟩ := hrun
  have hfound : Attempt.Gives (Env.find Progress.beginning.env.transactions "t") 0 := rfl
  have hpasses : Stmt.Passes Progress.beginning Stmt.misplaced { Progress.beginning with place := r } :=
    .inside .attempt (.inside (.when (e := .bit true) rfl rfl)
      (.inside (.transactionBody (e := .bit true) rfl hfound (Attempt.result?_eq_some.1 hr)) (.here ..)))
  obtain ⟨hbalanced, hreturns, -⟩ := scopes_balanced hpasses
  have hexec := Except.toOption_eq_some.1 hx
  have hsame := (hreturns _ _ _ hexec).2.body
  cases result with
  | ok outcome => exact nomatch hnone
  | error e => exact ⟨_, q', e, hpasses, hexec, hbalanced, hdepth, hsame ▸ hbody, hsame⟩

end Interlock
