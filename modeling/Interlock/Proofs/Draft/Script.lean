import Interlock.Proofs.Draft.Onward

/-! Scripts record drafts: whatever a script describes, failures in it included, is the design of a draft
that a sequence of operations leads to. Each statement takes the operations that its name says, and leaves
the arms and bodies that it has entered. -/

namespace Interlock

open Attempt (Gives)
open Design

namespace Progress

theorem step_ok {p p' : Progress} {x : Attempt DesignError (Outcome × Progress)}
    {result : Except DesignError Outcome} (h : p.step x = .ok (p', result)) :
    p' = p ∨ ∃ outcome, Gives x (outcome, p') := by
  unfold step at h
  rw [except_bind_ok] at h
  obtain ⟨y, hy, h⟩ := h
  split at h
  · rename_i outcome p₁
    rw [except_pure_ok, Prod.mk.injEq] at h
    obtain ⟨rfl, -⟩ := h
    exact .inr ⟨outcome, hy⟩
  · rw [except_pure_ok, Prod.mk.injEq] at h
    exact .inl h.1.symm

theorem after_ok {α : Type} {p p' : Progress} {x : Attempt DesignError α} {next : α → Step}
    {result : Except DesignError Outcome} (h : p.after x next = .ok (p', result)) :
    p' = p ∨ ∃ a, Gives x a ∧ next a = .ok (p', result) := by
  unfold after at h
  rw [except_bind_ok] at h
  obtain ⟨y, hy, h⟩ := h
  split at h
  · rename_i a
    exact .inr ⟨a, hy, h⟩
  · rw [except_pure_ok, Prod.mk.injEq] at h
    exact .inl h.1.symm

end Progress

namespace Draft

variable {d d' : Draft} {i n : Nat} {p p' : Progress} {env : Env}

/-! ### Statements in a module -/

attribute [simp] Stmt.exec Stmt.execAll Stmt.execArms Stmt.execCases

/-- Statements that go on with the draft, from wherever they are run. -/
def Advances (l : List Stmt) : Prop :=
  ∀ {d : Draft} {i : Nat} {p p' : Progress} {failure : Option DesignError}, d.Follows i p →
    Stmt.execAll p l = .ok (p', failure) → Extended d i p p'

section

variable {d : Draft} {i : Nat} {p p' : Progress} {result : Except DesignError Outcome} {body : List Stmt}

theorem exec_graph (h : d.Follows i p) {stmt : GraphStmt} (he : (Stmt.graph stmt).exec p = .ok (p', result)) :
    Extended d i p p' := by
  rw [Stmt.exec] at he
  rcases Progress.step_ok he with rfl | ⟨outcome, hg⟩
  · exact h.extended
  · simp only [Attempt.gives_bind, Attempt.gives_pure, Prod.mk.injEq] at hg
    obtain ⟨⟨outcome, design, env⟩, hg, -, rfl⟩ := hg
    exact h.graph hg

theorem exec_signal (h : d.Follows i p) {kind : SignalKind} {id name : String} {width : Nat} {init : Word}
    {loc : Location} (he : (Stmt.signal kind id name width init loc).exec p = .ok (p', result)) :
    Extended d i p p' := by
  rw [Stmt.exec] at he
  rcases Progress.step_ok he with rfl | ⟨outcome, hg⟩
  · exact h.extended
  · simp only [Attempt.gives_bind, Attempt.gives_ofExcept, Attempt.gives_pure, Prod.mk.injEq] at hg
    obtain ⟨⟨s, r⟩, hs, -, rfl⟩ := hg
    exact h.signal hs

theorem exec_assign (h : d.Follows i p) {mode : AssignMode} {target : String} {value : Term} {loc : Location}
    (he : (Stmt.assign mode target value loc).exec p = .ok (p', result)) : Extended d i p p' := by
  rw [Stmt.exec] at he
  rcases Progress.step_ok he with rfl | ⟨outcome, hg⟩
  · exact h.extended
  · simp only [Attempt.gives_bind] at hg
    obtain ⟨s, hs, e, -, hg⟩ := hg
    obtain ⟨b, hb, rfl⟩ := find_mem hs
    have ht := h.knows.signals b hb
    cases mode
    all_goals
      simp only [Attempt.gives_bind, Attempt.gives_pure, Prod.mk.injEq] at hg
      obtain ⟨r, hr, -, rfl⟩ := hg
    · exact h.assign .comb ht hr
    · exact h.assign .sync ht hr
    · exact h.assign .avComb ht hr
    · exact h.assign .topComb ht hr

theorem exec_when (h : d.Follows i p) {cond : Term} (hbody : Advances body)
    (he : (Stmt.when cond body).exec p = .ok (p', result)) : Extended d i p p' := by
  rw [Stmt.exec] at he
  rcases Progress.after_ok he with rfl | ⟨cond, -, he⟩
  · exact h.extended
  · simp only [except_bind_ok, except_pure_ok, Prod.mk.injEq] at he
    obtain ⟨wanted, hw, ⟨p₁, failure⟩, hrun, rfl, -⟩ := he
    have hop : d.operate i p.place (.when cond) =
        some ((d.move i (p.place.newChain.2.enter p.place.newChain.1 0 wanted)).openChain
          ⟨p.place.path.current, .when p.place.newChain.1, [(0, wanted)]⟩) := by
      simp only [Draft.operate, Except.toOption_eq_some.2 hw]
      rfl
    obtain ⟨hf, ho⟩ := h.operate _ d.chains.length hop rfl rfl fun j c b _ hc _ => getElem?_append hc
    obtain ⟨d₂, hf₂, ho₂, hs⟩ := Follows.arm (hbody hf hrun)
    exact ⟨d₂, hf₂, ho.trans (ho₂.mono ho.length), hs⟩

theorem exec_machine (h : d.Follows i p) {id name : String} {states : List String} {loc : Location}
    (he : (Stmt.machine id name states loc).exec p = .ok (p', result)) : Extended d i p p' := by
  rw [Stmt.exec] at he
  rcases Progress.step_ok he with rfl | ⟨outcome, hg⟩
  · exact h.extended
  · simp only [Attempt.gives_bind, Attempt.gives_ofExcept, Attempt.gives_pure, Prod.mk.injEq] at hg
    obtain ⟨⟨m, r⟩, hm, -, rfl⟩ := hg
    exact h.machine hm

theorem exec_machineState (h : d.Follows i p) {name state : String} {loc : Location} (hbody : Advances body)
    (he : (Stmt.machineState name state body loc).exec p = .ok (p', result)) : Extended d i p p' := by
  rw [Stmt.exec] at he
  rcases Progress.after_ok he with rfl | ⟨r, hr, he⟩
  · exact h.extended
  · simp only [except_bind_ok, except_pure_ok, Prod.mk.injEq] at he
    obtain ⟨⟨p₁, failure⟩, hrun, rfl, -⟩ := he
    simp only [Attempt.gives_bind, Attempt.gives_ofExcept] at hr
    obtain ⟨m, hm, hr⟩ := hr
    obtain ⟨b, hb, rfl⟩ := find_mem hm
    obtain ⟨d₁, hf₁, ho₁, index, hr₁⟩ := h.enterState (h.knows.machines b hb) hr
    rw [hr₁] at hf₁ hrun
    obtain ⟨d₂, hf₂, ho₂, hs₂⟩ := Follows.arm (hbody hf₁ hrun)
    exact ⟨d₂, hf₂, ho₁.trans (ho₂.mono ho₁.length), hs₂⟩

theorem exec_nextState (h : d.Follows i p) {name state : String} {loc : Location}
    (he : (Stmt.nextState name state loc).exec p = .ok (p', result)) : Extended d i p p' := by
  rw [Stmt.exec] at he
  rcases Progress.step_ok he with rfl | ⟨outcome, hg⟩
  · exact h.extended
  · simp only [Attempt.gives_bind, Attempt.gives_pure, Prod.mk.injEq] at hg
    obtain ⟨m, hm, r, hr, -, rfl⟩ := hg
    obtain ⟨b, hb, rfl⟩ := find_mem hm
    exact h.nextState (h.knows.machines b hb) hr

theorem exec_submodule (h : d.Follows i p) {name : String} {loc : Location} (hbody : Advances body)
    (he : (Stmt.submodule name body loc).exec p = .ok (p', result)) : Extended d i p p' := by
  rw [Stmt.exec] at he
  rcases Progress.after_ok he with rfl | ⟨inner, hinner, he⟩
  · exact h.extended
  · simp only [except_bind_ok, except_pure_ok, Prod.mk.injEq] at he
    obtain ⟨⟨p₁, failure⟩, hrun, rfl, -⟩ := he
    exact h.submodule (Attempt.gives_ofExcept.1 hinner) fun d₁ j hf => hbody hf hrun

theorem exec_transactionBody (h : d.Follows i p) {t : String} {request : Term} {loc : Location}
    (hbody : Advances body) (he : (Stmt.transactionBody t request body loc).exec p = .ok (p', result)) :
    Extended d i p p' := by
  rw [Stmt.exec] at he
  rcases Progress.after_ok he with rfl | ⟨r, hr, he⟩
  · exact h.extended
  · simp only [except_bind_ok, except_pure_ok, Prod.mk.injEq] at he
    obtain ⟨⟨p₁, failure⟩, hrun, rfl, -⟩ := he
    simp only [Attempt.gives_bind] at hr
    obtain ⟨e, -, t, ht, hr⟩ := hr
    obtain ⟨b, hb, rfl⟩ := find_mem ht
    have hopened := h.openTransaction (h.knows.transactions b hb) hr
    exact (hopened.trans fun d₁ hf => hbody hf hrun).trans fun d₂ hf => hf.closed

theorem exec_methodBody (h : d.Follows i p) {m : String} {ready value : Term} {check : Option Check}
    {arg : Option String} {loc : Location} (hbody : Advances body)
    (he : (Stmt.methodBody m ready check arg body value loc).exec p = .ok (p', result)) :
    Extended d i p p' := by
  rw [Stmt.exec] at he
  rcases Progress.after_ok he with rfl | ⟨⟨m, info, r⟩, hr, he⟩
  · exact h.extended
  · simp only [Attempt.gives_bind, Attempt.gives_pure, Prod.mk.injEq] at hr
    obtain ⟨e, -, id, -, ⟨info', r'⟩, hr, rfl, rfl, rfl⟩ := hr
    simp only [except_bind_ok] at he
    obtain ⟨⟨p₁, failure⟩, hrun, he⟩ := he
    have hbound : ∀ d₁, d₁.Follows i { p with place := r' } → Extended d₁ i { p with place := r' } p₁ := by
      intro d₁ hf₁
      obtain ⟨d₂, hf₂⟩ := hbody (hf₁.bind (hf₁.knows.bindArg arg _)) hrun
      exact ⟨d₂, hf₂⟩
    obtain ⟨hleft, hclosed⟩ := h.method hr hbound
    cases failure with
    | some e =>
      simp only [except_pure_ok, Prod.mk.injEq] at he
      exact he.1 ▸ hleft
    | none =>
      rcases Progress.step_ok he with rfl | ⟨outcome, hg⟩
      · exact hleft
      · simp only [Attempt.gives_bind, Attempt.gives_pure, Prod.mk.injEq] at hg
        obtain ⟨v, -, r₄, hclose, -, rfl⟩ := hg
        exact hclosed hclose

theorem exec_proxy (h : d.Follows i p) {m target : String} {loc : Location}
    (he : (Stmt.proxy m target loc).exec p = .ok (p', result)) : Extended d i p p' := by
  rw [Stmt.exec] at he
  rcases Progress.after_ok he with rfl | ⟨⟨m, target, info, r⟩, hr, he⟩
  · exact h.extended
  · simp only [Attempt.gives_bind, Attempt.gives_pure, Prod.mk.injEq] at hr
    obtain ⟨t, -, id, -, ⟨info', r'⟩, hr, rfl, rfl, rfl, rfl⟩ := hr
    rcases Progress.after_ok he with rfl | ⟨⟨out, r₂⟩, hcall, he⟩
    · exact (h.method hr fun d₁ hf₁ => hf₁.extended).1
    · obtain ⟨hleft, hclosed⟩ := h.method hr fun d₁ hf₁ => hf₁.call hcall
      rcases Progress.step_ok he with rfl | ⟨outcome, hg⟩
      · exact hleft
      · simp only [Attempt.gives_bind, Attempt.gives_pure, Prod.mk.injEq] at hg
        obtain ⟨r₄, hclose, -, rfl⟩ := hg
        exact hclosed hclose

theorem exec_call (h : d.Follows i p) {m : String} {arg enable : Term} {id : Option String} {loc : Location}
    (he : (Stmt.call m arg enable id loc).exec p = .ok (p', result)) : Extended d i p p' := by
  rw [Stmt.exec] at he
  rcases Progress.step_ok he with rfl | ⟨outcome, hg⟩
  · exact h.extended
  · simp only [Attempt.gives_bind] at hg
    obtain ⟨a, -, e, -, m, -, ⟨out, r⟩, hr, hg⟩ := hg
    obtain ⟨d₁, hf₁, ho₁, hs₁⟩ := h.call hr
    cases id
    all_goals
      simp only [Attempt.gives_pure, Prod.mk.injEq] at hg
      obtain ⟨-, rfl⟩ := hg
    · exact ⟨d₁, hf₁, ho₁, hs₁⟩
    · exact ⟨d₁, hf₁.bind (hf₁.knows.bindVar _ out), ho₁, hs₁⟩

theorem exec_attempt (h : d.Follows i p) (hbody : Advances body)
    (he : (Stmt.attempt body).exec p = .ok (p', result)) : Extended d i p p' := by
  simp only [Stmt.exec, except_bind_ok] at he
  obtain ⟨⟨p₁, failure⟩, hrun, he⟩ := he
  have hall := hbody h hrun
  cases failure
  all_goals
    simp only [except_pure_ok, Prod.mk.injEq] at he
    exact he.1 ▸ hall

end

mutual
/-- A statement goes on with the draft, and so do those inside it. -/
theorem exec_follows (s : Stmt) {d : Draft} {i : Nat} {p p' : Progress} {result : Except DesignError Outcome}
    (h : d.Follows i p) (he : s.exec p = .ok (p', result)) : Extended d i p p' := by
  cases s with
  | graph stmt => exact exec_graph h he
  | signal kind id name width init loc => exact exec_signal h he
  | assign mode target value loc => exact exec_assign h he
  | «when» cond body => exact exec_when h (fun h => execAll_follows body h) he
  | ifElse arms orElse =>
    rw [Stmt.exec] at he
    rcases Progress.after_ok he with rfl | ⟨conds, -, he⟩
    · exact h.extended
    · simp only [except_bind_ok] at he
      obtain ⟨⟨p₁, failed, c⟩, harms, he⟩ := he
      obtain ⟨d₁, hf₁, ho₁, -, hj₁⟩ := h.newChain
      obtain ⟨d₂, hf₂, ho₂, hs₂, arms₂, hj₂⟩ := execArms_follows arms hf₁ hj₁ harms
      cases failed with
      | some e =>
        simp only [except_pure_ok, Prod.mk.injEq] at he
        obtain ⟨rfl, -⟩ := he
        exact ⟨d₂, hf₂, ho₁.trans ho₂, hs₂⟩
      | none =>
        simp only [except_bind_ok, except_pure_ok, Prod.mk.injEq] at he
        obtain ⟨⟨p₂, failure⟩, hrun, rfl, -⟩ := he
        obtain ⟨d₃, hf₃, ho₃, hs₃, -⟩ := hf₂.branch hj₂ (.otherwise d.chains.length) .one rfl
          fun d₃ hf => execAll_follows orElse hf hrun
        exact ⟨d₃, hf₃, (ho₁.trans ho₂).trans ho₃, hs₂.trans hs₃⟩
  | switch sel cases =>
    rw [Stmt.exec] at he
    rcases Progress.after_ok he with rfl | ⟨sel, -, he⟩
    · exact h.extended
    · simp only [except_bind_ok, except_pure_ok, Prod.mk.injEq] at he
      obtain ⟨⟨p₁, failure⟩, hcases, rfl, -⟩ := he
      obtain ⟨d₁, hf₁, ho₁, -, hj₁⟩ := h.newChain
      obtain ⟨d₂, hf₂, ho₂, hs₂⟩ := execCases_follows cases hf₁ hj₁ hcases
      exact ⟨d₂, hf₂, ho₁.trans ho₂, hs₂⟩
  | machine id name states loc => exact exec_machine h he
  | machineState name state body loc => exact exec_machineState h (fun h => execAll_follows body h) he
  | nextState name state loc => exact exec_nextState h he
  | submodule name body loc => exact exec_submodule h (fun h => execAll_follows body h) he
  | moduleId =>
    simp only [Stmt.exec, Except.ok.injEq, Prod.mk.injEq] at he
    obtain ⟨rfl, -⟩ := he
    exact h.extended
  | transactionBody t request body loc => exact exec_transactionBody h (fun h => execAll_follows body h) he
  | methodBody m ready check arg body value loc => exact exec_methodBody h (fun h => execAll_follows body h) he
  | proxy m target loc => exact exec_proxy h he
  | call m arg enable id loc => exact exec_call h he
  | attempt body => exact exec_attempt h (fun h => execAll_follows body h) he

/-- So do statements up to the first that fails. -/
theorem execAll_follows (l : List Stmt) {d : Draft} {i : Nat} {p p' : Progress} {failure : Option DesignError}
    (h : d.Follows i p) (he : Stmt.execAll p l = .ok (p', failure)) : Extended d i p p' := by
  cases l with
  | nil =>
    simp only [Stmt.execAll, Except.ok.injEq, Prod.mk.injEq] at he
    obtain ⟨rfl, -⟩ := he
    exact h.extended
  | cons s rest =>
    simp only [Stmt.execAll, except_bind_ok] at he
    obtain ⟨⟨p₁, result⟩, hs, he⟩ := he
    have h₁ := exec_follows s h hs
    have hwritten : ∀ result, Extended d i p (p₁.write s.verb result) := by
      intro result
      obtain ⟨d₁, hf, ho, hst⟩ := h₁
      exact ⟨d₁, ⟨hf.recorded, hf.place, hf.knows⟩, ho, hst⟩
    cases result with
    | error e =>
      simp only [except_pure_ok, Prod.mk.injEq] at he
      obtain ⟨rfl, -⟩ := he
      exact hwritten _
    | ok outcome => exact (hwritten _).trans fun d₁ hf => execAll_follows rest hf he

/-- The arms of a chain of branches. -/
theorem execArms_follows (l : List (Term × List Stmt)) {d : Draft} {i j : Nat} {p p' : Progress}
    {c c' : Recording.Chain} {conds : List Expr} {arms : List (Nat × Expr)} {failure : Option DesignError}
    (h : d.Follows i p) (hj : d.chains[j]? = some ⟨p.place.path.current, .branches c, arms⟩)
    (he : Stmt.execArms p c conds l = .ok (p', failure, c')) :
    ∃ d', d'.Follows i p' ∧ Onward i j d d' ∧ p.place.Stays p'.place ∧
      ∃ arms', d'.chains[j]? = some ⟨p'.place.path.current, .branches c', arms'⟩ := by
  cases l with
  | nil =>
    simp only [Stmt.execArms, Except.ok.injEq, Prod.mk.injEq] at he
    obtain ⟨rfl, -, rfl⟩ := he
    exact ⟨d, h, .refl .., .refl _, arms, hj⟩
  | cons arm rest =>
    obtain ⟨cond, body⟩ := arm
    simp only [Stmt.execArms, except_bind_ok] at he
    obtain ⟨wanted, hw, ⟨p₁, failed⟩, hbody, he⟩ := he
    obtain ⟨d₁, hf₁, ho₁, hs₁, arms₁, hj₁⟩ := h.branch hj (.branch j (conds.headD .one)) wanted
      (by simp only [Draft.operate, Except.toOption_eq_some.2 hw]; rfl)
      fun d₁ hf => execAll_follows body hf hbody
    cases failed with
    | some e =>
      simp only [except_pure_ok, Prod.mk.injEq] at he
      obtain ⟨rfl, -, rfl⟩ := he
      exact ⟨d₁, hf₁, ho₁, hs₁, arms₁, hj₁⟩
    | none =>
      obtain ⟨d₂, hf₂, ho₂, hs₂, hj₂⟩ := execArms_follows rest hf₁ hj₁ he
      exact ⟨d₂, hf₂, ho₁.trans ho₂, hs₁.trans hs₂, hj₂⟩

/-- The cases of a switch are branches too. -/
theorem execCases_follows (l : List (Option (List Word) × List Stmt)) {d : Draft} {i j : Nat}
    {p p' : Progress} {c : Recording.Chain} {sel : Expr} {arms : List (Nat × Expr)}
    {failure : Option DesignError} (h : d.Follows i p)
    (hj : d.chains[j]? = some ⟨p.place.path.current, .branches c, arms⟩)
    (he : Stmt.execCases p c sel l = .ok (p', failure)) :
    ∃ d', d'.Follows i p' ∧ Onward i j d d' ∧ p.place.Stays p'.place := by
  cases l with
  | nil =>
    simp only [Stmt.execCases, Except.ok.injEq, Prod.mk.injEq] at he
    obtain ⟨rfl, -⟩ := he
    exact ⟨d, h, .refl .., .refl _⟩
  | cons case rest =>
    obtain ⟨values, body⟩ := case
    have hcase : ∃ cond op p₁ failed, d.operate i p.place op = d.enterBranch i p.place j cond ∧
        Stmt.execAll { p with place := (p.place.enterNext c cond).2 } body = .ok (p₁, failed) ∧
        match failed with
        | some _ => { p₁ with place := p₁.place.leave } = p'
        | none => Stmt.execCases { p₁ with place := p₁.place.leave } (p.place.enterNext c cond).1 sel rest =
            .ok (p', failure) := by
      cases values with
      | none =>
        simp only [Stmt.execCases, except_bind_ok] at he
        obtain ⟨cond, hcond, ⟨p₁, failed⟩, hbody, he⟩ := he
        obtain rfl := Except.ok.inj hcond
        refine ⟨.one, .otherwise j, p₁, failed, rfl, hbody, ?_⟩
        cases failed with
        | none => exact he
        | some e => exact congrArg Prod.fst (except_pure_ok.1 he)
      | some values =>
        simp only [Stmt.execCases, except_bind_ok] at he
        obtain ⟨cond, hcond, ⟨p₁, failed⟩, hbody, he⟩ := he
        refine ⟨cond, .case j sel values, p₁, failed, ?_, hbody, ?_⟩
        · simp only [Draft.operate, Except.toOption_eq_some.2 hcond]
          rfl
        · cases failed with
          | none => exact he
          | some e => exact congrArg Prod.fst (except_pure_ok.1 he)
    obtain ⟨cond, op, p₁, failed, hop, hbody, hrest⟩ := hcase
    obtain ⟨d₁, hf₁, ho₁, hs₁, arms₁, hj₁⟩ := h.branch hj op cond hop fun d₁ hf => execAll_follows body hf hbody
    cases failed with
    | some e =>
      obtain rfl := hrest
      exact ⟨d₁, hf₁, ho₁, hs₁⟩
    | none =>
      obtain ⟨d₂, hf₂, ho₂, hs₂⟩ := execCases_follows rest hf₁ hj₁ hrest
      exact ⟨d₂, hf₂, ho₁.trans ho₂, hs₁.trans hs₂⟩
end

end Draft

namespace Session

/-- A script outside all modules has got as far as a draft. -/
def Records (s : Session) : Prop := ∃ d : Draft, d.Recorded ∧ d.Knows s.env ∧ d.design = s.design

theorem exec_records {s s' : Session} {stmt : TopStmt} (h : s.Records) (he : s.exec stmt = .ok s') :
    s'.Records := by
  obtain ⟨d, hd, hk, hdesign⟩ := h
  cases stmt with
  | graph stmt =>
    simp only [exec, except_bind_ok] at he
    obtain ⟨x, hx, he⟩ := he
    split at he
    · rename_i outcome design env
      obtain rfl := except_pure_ok.1 he
      rw [← hdesign] at hx
      obtain ⟨hd', hk', -⟩ := Draft.graph_ok hd hk hx
      exact ⟨_, hd', hk', rfl⟩
    · obtain rfl := except_pure_ok.1 he
      exact ⟨d, hd, hk, hdesign⟩
  | module name body =>
    simp only [exec, except_bind_ok, except_pure_ok] at he
    obtain ⟨⟨p, failure⟩, hbody, rfl⟩ := he
    have hrec := hd.take (.openModule (Recording.topScope name)) rfl
    rw [hdesign] at hrec
    have hfollows : Draft.Follows _ d.places.length ⟨Recording.openModule s.design (Recording.topScope name), s.env, s.log⟩ :=
      ⟨hrec, by simp [Draft.place?], hk.signals, hk.machines, fun b hb => hdesign ▸ hk.nodes b hb,
        fun b hb => hdesign ▸ hk.transactions b hb⟩
    obtain ⟨d', hf, -, -⟩ := Draft.execAll_follows body hfollows hbody
    exact ⟨d', hf.recorded, hf.knows, hf.design.symm⟩

/-- The design that a script describes is that of a recorded draft. -/
theorem run_records {config : Config} {script : List TopStmt} {s : Session}
    (h : Session.run { design := { config } } script = .ok s) : ∃ d : Draft, d.Recorded ∧ d.design = s.design := by
  have hstart : ({ design := { config } } : Session).Records :=
    ⟨Draft.start config, ⟨config, [], rfl⟩, ⟨fun b hb => (nomatch hb), fun b hb => (nomatch hb),
      fun b hb => (nomatch hb), fun b hb => (nomatch hb)⟩, rfl⟩
  have hrun : ∀ (script : List TopStmt) (s₀ : Session), s₀.Records → s₀.run script = .ok s → s.Records := by
    intro script
    induction script with
    | nil =>
      intro s₀ h₀ h
      exact except_pure_ok.1 h ▸ h₀
    | cons stmt rest ih =>
      intro s₀ h₀ h
      unfold run at h
      rw [List.foldlM_cons, except_bind_ok] at h
      obtain ⟨s₁, h₁, h⟩ := h
      exact ih s₁ (exec_records h₀ h₁) h
  obtain ⟨d, hd, -, hdesign⟩ := hrun script _ hstart h
  exact ⟨d, hd, hdesign⟩

end Session

/-- The designs that users arrive at: by actions that are all taken, or by a script, where some may fail. -/
inductive Design.Described : Design → Prop
  | actions {d : Draft} (h : d.Recorded) : Described d.design
  | script {config : Config} {script : List TopStmt} {s : Session}
      (h : Session.run { design := { config } } script = .ok s) : Described s.design

theorem Design.Described.recorded {design : Design} (h : design.Described) :
    ∃ d : Draft, d.Recorded ∧ d.design = design := by
  cases h with
  | actions hd => exact ⟨_, hd, rfl⟩
  | script hrun => exact Session.run_records hrun

end Interlock
