import Interlock.Proofs.Draft.Design
import Interlock.Script.Run

/-! A script in a module goes on together with a draft: each operation that the script takes is one of the
draft at the same place, and leaves alone what has been recorded elsewhere. -/

namespace Interlock

open Attempt (Gives)
open Design

/-- What a name in a script stands for is something of the draft. -/
structure Draft.Knows (d : Draft) (env : Env) : Prop where
  signals : ∀ b ∈ env.signals, b.2 ∈ d.signals
  machines : ∀ b ∈ env.machines, ∃ c ∈ d.chains, c.opener = .machine b.2
  nodes : ∀ b ∈ env.nodes, b.2 < d.design.nodes.size
  transactions : ∀ b ∈ env.transactions, b.2 < d.design.nodes.size

/-- A script in a module has got as far as a draft has at one of its places. -/
structure Draft.Follows (d : Draft) (i : Nat) (p : Progress) : Prop where
  recorded : d.Recorded
  place : d.place? i = some p.place
  knows : d.Knows p.env

/-- Recording goes on at place `i`. What has been created stays; of the first `n` chains those of branches
are as they were. -/
structure Draft.Onward (i n : Nat) (d d' : Draft) : Prop where
  places : ∀ (j : Nat) r, j ≠ i → d.places[j]? = some r → d'.places[j]? = some r
  length : d.chains.length ≤ d'.chains.length
  branches : ∀ (j : Nat) c b, j < n → d.chains[j]? = some c → c.opener = .branches b → d'.chains[j]? = some c
  machines : ∀ c ∈ d.chains, ∀ m, c.opener = .machine m → ∃ c' ∈ d'.chains, c'.opener = .machine m
  signals : ∀ s ∈ d.signals, s ∈ d'.signals
  bodies : ∀ (j : Nat) b, d.bodies[j]? = some b → d'.bodies[j]? = some b
  nodes : d.design.nodes.size ≤ d'.design.nodes.size

/-- The arms around the place are the same. -/
def Recording.Stays (r r' : Recording) : Prop :=
  r'.path.entered = r.path.entered ∧ r'.path.module = r.path.module

theorem Recording.Stays.refl (r : Recording) : r.Stays r := ⟨rfl, rfl⟩

theorem Recording.Stays.trans {r₁ r₂ r₃ : Recording} (h : r₁.Stays r₂) (h' : r₂.Stays r₃) : r₁.Stays r₃ :=
  ⟨h'.1.trans h.1, h'.2.trans h.2⟩

theorem Recording.Stays.current {r r' : Recording} (h : r.Stays r') : r'.path.current = r.path.current := by
  unfold PathBuilder.current
  rw [h.1, h.2]

/-- An arm is left after what has been recorded in it. -/
theorem Recording.Stays.leave {r r' : Recording} {number alternative : Nat} {cond : Expr}
    (h : (r.enter number alternative cond).Stays r') : r.Stays r'.leave := by
  obtain ⟨he, hm⟩ := h
  have he : r'.path.entered = (⟨alternative, number⟩, r.path.nextChain) :: r.path.entered := he
  unfold Recording.leave PathBuilder.pop
  rw [he]
  exact ⟨rfl, hm⟩

namespace Draft

variable {d d' : Draft} {i n : Nat} {p p' p'' : Progress} {env : Env}

theorem Onward.refl (i n : Nat) (d : Draft) : Onward i n d d :=
  ⟨fun _ _ _ h => h, Nat.le_refl _, fun _ _ _ _ h _ => h, fun c hc _ hm => ⟨c, hc, hm⟩, fun _ h => h,
    fun _ _ h => h, Nat.le_refl _⟩

theorem Onward.trans {d₁ d₂ d₃ : Draft} (h : Onward i n d₁ d₂) (h' : Onward i n d₂ d₃) : Onward i n d₁ d₃ := by
  refine ⟨fun j r hj hr => h'.places j r hj (h.places j r hj hr), Nat.le_trans h.length h'.length,
    fun j c b hj hc hb => h'.branches j c b hj (h.branches j c b hj hc hb) hb, fun c hc m hm => ?_,
    fun s hs => h'.signals s (h.signals s hs), fun j b hb => h'.bodies j b (h.bodies j b hb),
    Nat.le_trans h.nodes h'.nodes⟩
  obtain ⟨c', hc', hm'⟩ := h.machines c hc m hm
  exact h'.machines c' hc' m hm'

theorem Onward.mono {n' : Nat} (hn : n' ≤ n) (h : Onward i n d d') : Onward i n' d d' :=
  ⟨h.places, h.length, fun j c b hj => h.branches j c b (Nat.lt_of_lt_of_le hj hn), h.machines, h.signals,
    h.bodies, h.nodes⟩

theorem Knows.onward (hk : d.Knows env) (h : Onward i n d d') : d'.Knows env := by
  refine ⟨fun b hb => h.signals _ (hk.signals b hb), fun b hb => ?_,
    fun b hb => Nat.lt_of_lt_of_le (hk.nodes b hb) h.nodes,
    fun b hb => Nat.lt_of_lt_of_le (hk.transactions b hb) h.nodes⟩
  obtain ⟨c, hc, hm⟩ := hk.machines b hb
  exact h.machines c hc _ hm

theorem getElem?_append {α : Type} {l l' : List α} {j : Nat} {x : α} (h : l[j]? = some x) :
    (l ++ l')[j]? = some x := by
  rw [List.getElem?_append_left (List.getElem?_eq_some_iff.1 h).1, h]

/-- Only the arms of a chain of branches change. -/
theorem machines_set {chains : List Chain} {j : Nat} {c₀ c₁ : Chain} (hj : chains[j]? = some c₀)
    (hopener : ∀ m, c₀.opener = .machine m → c₁.opener = .machine m) :
    ∀ c ∈ chains, ∀ m, c.opener = .machine m → ∃ c' ∈ chains.set j c₁, c'.opener = .machine m := by
  intro c hc m hm
  obtain ⟨hlt, hget⟩ := List.getElem?_eq_some_iff.1 hj
  obtain ⟨k, hk, hkc⟩ := List.getElem_of_mem hc
  by_cases hkj : k = j
  · subst hkj
    obtain rfl : c₀ = c := hget.symm.trans hkc
    exact ⟨c₁, List.mem_set hlt _, hopener m hm⟩
  · refine ⟨c, List.mem_of_getElem? (i := k) ?_, hm⟩
    rw [List.getElem?_set_ne (Ne.symm hkj), List.getElem?_eq_getElem hk, hkc]

/-- Nothing but the place and the design has changed. -/
theorem Onward.moved {r : Recording} (hplaces : d'.places = d.places.set i r) (hchains : d'.chains = d.chains)
    (hsignals : d'.signals = d.signals) (hbodies : d'.bodies = d.bodies)
    (hnodes : d.design.nodes.size ≤ d'.design.nodes.size) : Onward i n d d' := by
  refine ⟨fun j r₀ hj hr₀ => ?_, Nat.le_of_eq (by rw [hchains]), fun j c b _ hc _ => hchains ▸ hc,
    fun c hc m hm => ⟨c, hchains ▸ hc, hm⟩, fun s hs => hsignals ▸ hs, fun j b hb => hbodies ▸ hb, hnodes⟩
  rw [hplaces, List.getElem?_set_ne (Ne.symm hj), hr₀]

/-- What an operation leaves as it was. -/
theorem onward_of_effect {r : Recording} {op : Operation} (he : Effect d i r op d') (hr : r.design = d.design)
    (hbranches : ∀ (j : Nat) c b, j < n → d.chains[j]? = some c → c.opener = .branches b →
      d'.chains[j]? = some c) : Onward i n d d' := by
  have elsewhere : ∀ (r' : Recording) (j : Nat) r₀, j ≠ i → d.places[j]? = some r₀ →
      (d.places.set i r')[j]? = some r₀ := by
    intro r' j r₀ hj hr₀
    rw [List.getElem?_set_ne (Ne.symm hj), hr₀]
  have more : ∀ c₀, ∀ c ∈ d.chains, ∀ m, c.opener = .machine m →
      ∃ c' ∈ d.chains ++ [c₀], c'.opener = .machine m :=
    fun c₀ c hc m hm => ⟨c, List.mem_append_left _ hc, hm⟩
  have hsame : d.design.nodes.size ≤ r.design.nodes.size := Nat.le_of_eq (by rw [hr])
  have hsize : ∀ f id, d.design.nodes.size ≤ (r.design.modifyNode id f).nodes.size := fun f id =>
    Nat.le_of_eq (by rw [Design.size_modifyNode, hr])
  cases he with
  | submodule scope =>
    exact ⟨fun j r₀ _ hr₀ => getElem?_append hr₀, Nat.le_refl _, hbranches, fun c hc m hm => ⟨c, hc, hm⟩,
      fun _ h => h, fun _ _ h => h, hsame⟩
  | signal name width kind init hw =>
    exact ⟨elsewhere _, Nat.le_refl _, hbranches, fun c hc m hm => ⟨c, hc, hm⟩,
      fun s hs => List.mem_append_left _ hs, fun _ _ h => h, hsame⟩
  | assign s guard value domain hs hkind => exact .moved rfl rfl rfl rfl hsame
  | «when» wanted hw =>
    exact ⟨elsewhere _, by simp [openChain, move], hbranches, more _, fun _ h => h, fun _ _ h => h, hsame⟩
  | branches =>
    exact ⟨elsewhere _, by simp [openChain, move], hbranches, more _, fun _ h => h, fun _ _ h => h, hsame⟩
  | branch j b arms cond hj hw =>
    exact ⟨elsewhere _, by simp [noteArm, move], hbranches, machines_set hj (fun m hm => nomatch hm),
      fun _ h => h, fun _ _ h => h, hsame⟩
  | leave => exact .moved rfl rfl rfl rfl hsame
  | machine name m hw hstates hstate hchain hpath =>
    exact ⟨elsewhere _, by simp [openChain, move], hbranches, more _, fun s hs => List.mem_append_left _ hs,
      fun _ _ h => h, hsame⟩
  | state j path m arms index hj hpath hi =>
    exact ⟨elsewhere _, by simp [noteArm, move], hbranches, machines_set hj (fun m hm => hm), fun _ h => h,
      fun _ _ h => h, hsame⟩
  | next c m guard value hc hm => exact .moved rfl rfl rfl rfl hsame
  | openTransaction t loc info wanted ht hnew hinfo => exact .moved rfl rfl rfl rfl (hsize _ t)
  | openMethod m loc old validator wanted activator hnew hinfo =>
    refine ⟨elsewhere _, Nat.le_refl _, hbranches, fun c hc m hm => ⟨c, hc, hm⟩, fun _ h => h,
      fun j b hb => getElem?_append hb, Nat.le_of_eq (.trans ?_ (size_modifyNode (r.opened m loc) m _).symm)⟩
    rw [Recording.opened, size_modifyNode, ← hr]
  | leaveBody => exact .moved rfl rfl rfl rfl hsame
  | closeMethod m info bus value hm hbus => exact .moved rfl rfl rfl rfl hsame
  | stay => exact .moved rfl rfl rfl rfl hsame
  | call m frame site enabled hbody hpath henable hw hapart => exact .moved rfl rfl rfl rfl (hsize _ frame.node)

/-! ### Steps of a script -/

/-- A script has gone on in the same module, and is in the same arms. -/
def Extended (d : Draft) (i : Nat) (p p' : Progress) : Prop :=
  ∃ d', d'.Follows i p' ∧ Onward i d.chains.length d d' ∧ p.place.Stays p'.place

theorem Follows.extended (h : d.Follows i p) : Extended d i p p := ⟨d, h, .refl .., .refl _⟩

theorem Extended.trans (h : Extended d i p p') (h' : ∀ d', d'.Follows i p' → Extended d' i p' p'') :
    Extended d i p p'' := by
  obtain ⟨d₁, h₁, ho₁, hs₁⟩ := h
  obtain ⟨d₂, h₂, ho₂, hs₂⟩ := h' d₁ h₁
  exact ⟨d₂, h₂, ho₁.trans (ho₂.mono ho₁.length), hs₁.trans hs₂⟩

theorem Follows.design (h : d.Follows i p) : p.place.design = d.design := place?_design h.place

theorem place?_move {r₀ r : Recording} (h : d.place? i = some r₀) (hplaces : d'.places = d.places.set i r)
    (hdesign : d'.design = r.design) : d'.place? i = some r := by
  unfold place? at h ⊢
  obtain ⟨r₁, hr₁, -⟩ := Option.map_eq_some_iff.1 h
  rw [hplaces, List.getElem?_set_self (List.getElem?_eq_some_iff.1 hr₁).1, hdesign]
  rfl

/-- An operation is taken at the place that a script has reached. -/
theorem Follows.operate (h : d.Follows i p) (op : Operation) (n : Nat) (hop : d.operate i p.place op = some d')
    {r : Recording} (hplaces : d'.places = d.places.set i r) (hdesign : d'.design = r.design)
    (hbranches : ∀ (j : Nat) c b, j < n → d.chains[j]? = some c → c.opener = .branches b →
      d'.chains[j]? = some c) : d'.Follows i { p with place := r } ∧ Onward i n d d' := by
  have honward := onward_of_effect (operate_effect h.design hop) h.design hbranches
  refine ⟨⟨h.recorded.take (.inModule i op) ?_, place?_move h.place hplaces hdesign,
    h.knows.onward honward⟩, honward⟩
  simp only [step, h.place]
  exact hop

theorem Follows.bind (h : d.Follows i p) {env : Env} (hk : d.Knows env) : d.Follows i { p with env } :=
  ⟨h.recorded, h.place, hk⟩

theorem Knows.bindVar (h : d.Knows env) (name : String) (e : Expr) : d.Knows (env.bindVar name e) :=
  ⟨h.signals, h.machines, h.nodes, h.transactions⟩

theorem Knows.bindArg (h : d.Knows env) (arg : Option String) (e : Expr) :
    d.Knows (match arg with | some name => env.bindVar name e | none => env) := by
  cases arg with
  | none => exact h
  | some name => exact h.bindVar name e

theorem Knows.bindSignal (h : d.Knows env) (name : String) {s : Sig} (hs : s ∈ d.signals) :
    d.Knows (env.bindSignal name s) := by
  refine ⟨fun b hb => ?_, h.machines, h.nodes, h.transactions⟩
  rcases List.mem_cons.1 hb with rfl | hb
  · exact hs
  · exact h.signals b hb

theorem Knows.bindMachine (h : d.Knows env) (name : String) {m : Machine} (hs : m.state ∈ d.signals)
    (hm : ∃ c ∈ d.chains, c.opener = .machine m) : d.Knows (env.bindMachine name m) := by
  refine ⟨(h.bindSignal name hs).signals, fun b hb => ?_, h.nodes, h.transactions⟩
  rcases List.mem_cons.1 hb with rfl | hb
  · exact hm
  · exact h.machines b hb

theorem Knows.bindMethod (h : d.Knows env) (name : String) {m : NodeId} (hm : m < d.design.nodes.size) :
    d.Knows (env.bindMethod name m) := by
  refine ⟨h.signals, h.machines, fun b hb => ?_, h.transactions⟩
  rcases List.mem_cons.1 hb with rfl | hb
  · exact hm
  · exact h.nodes b hb

theorem Knows.bindTransaction (h : d.Knows env) (name : String) {t : NodeId} (ht : t < d.design.nodes.size) :
    d.Knows (env.bindTransaction name t) := by
  refine ⟨h.signals, h.machines, (h.bindMethod name ht).nodes, fun b hb => ?_⟩
  rcases List.mem_cons.1 hb with rfl | hb
  · exact ht
  · exact h.transactions b hb

theorem find_mem {α : Type} {table : List (String × α)} {name : String} {x : α}
    (h : Gives (Env.find table name) x) : ∃ b ∈ table, b.2 = x := by
  unfold Env.find Term.bound at h
  rw [Attempt.gives_ofChecked] at h
  cases hl : table.lookup name with
  | none =>
    rw [hl] at h
    exact nomatch h
  | some y =>
    rw [hl] at h
    obtain rfl := Except.ok.inj h
    obtain ⟨l, l', htable, -⟩ := List.lookup_eq_some_iff.1 hl
    exact ⟨(name, y), by rw [htable]; simp, rfl⟩

/-! ### Statements about the design -/

theorem mapM_find {table : List (String × NodeId)} {names : List String} {ids : List NodeId}
    (h : Gives (names.mapM (Env.find table)) ids) : ∀ x ∈ ids, ∃ b ∈ table, b.2 = x := by
  induction names generalizing ids with
  | nil =>
    rw [List.mapM_nil, Attempt.gives_pure] at h
    rw [← h]
    exact fun x hx => nomatch hx
  | cons name names ih =>
    simp only [List.mapM_cons, Attempt.gives_bind, Attempt.gives_pure] at h
    obtain ⟨y, hy, ys, hys, rfl⟩ := h
    intro x hx
    rcases List.mem_cons.1 hx with rfl | hx
    · exact find_mem hy
    · exact ih hys x hx

theorem Knows.declared (h : d.Knows env) {name : String} {x : NodeId} (hx : Gives (Env.find env.nodes name) x) :
    x < d.design.nodes.size := by
  obtain ⟨b, hb, rfl⟩ := find_mem hx
  exact h.nodes b hb

theorem Knows.declares (h : d.Knows env) {name : String} {names : List String} {x : NodeId} {xs : List NodeId}
    (hx : Gives (Env.find env.nodes name) x) (hxs : Gives (names.mapM (Env.find env.nodes)) xs) :
    declares d.design (x :: xs) = true := by
  refine List.all_eq_true.2 fun y hy => decide_eq_true ?_
  rcases List.mem_cons.1 hy with rfl | hy
  · exact h.declared hx
  · obtain ⟨b, hb, rfl⟩ := mapM_find hxs y hy
    exact h.nodes b hb

theorem Knows.grow (h : d.Knows env) {design : Design} (hsize : d.design.nodes.size ≤ design.nodes.size) :
    ({ d with design } : Draft).Knows env :=
  ⟨h.signals, h.machines, fun b hb => Nat.lt_of_lt_of_le (h.nodes b hb) hsize,
    fun b hb => Nat.lt_of_lt_of_le (h.transactions b hb) hsize⟩

theorem addNode_lt (design : Design) (name : String) (loc : Location) (kind : NodeKind) :
    (design.addNode name loc kind).1 < (design.addNode name loc kind).2.nodes.size := by
  rw [size_addNode]
  exact Nat.lt_succ_self _

/-- A statement about the design changes nothing else of a draft. -/
theorem graph_ok {stmt : GraphStmt} {outcome : Outcome} {design : Design} {env' : Env} (hd : d.Recorded)
    (hk : d.Knows env) (h : Gives (stmt.exec d.design env) (outcome, design, env')) :
    ({ d with design } : Draft).Recorded ∧ ({ d with design } : Draft).Knows env' ∧
      d.design.nodes.size ≤ design.nodes.size := by
  cases stmt with
  | transaction id name loc =>
    simp only [GraphStmt.exec, Attempt.gives_pure, Prod.mk.injEq] at h
    obtain ⟨-, rfl, rfl⟩ := h
    have hgrow := (declareTransaction_adds d.design name loc).grows
    have hlt : (d.design.declareTransaction name loc).1 < (d.design.declareTransaction name loc).2.nodes.size :=
      addNode_lt ..
    exact ⟨hd.take (.transaction name loc) rfl, (hk.grow hgrow.nodes).bindTransaction id hlt, hgrow.nodes⟩
  | method id decl loc =>
    simp only [GraphStmt.exec, Attempt.gives_bind, Attempt.gives_pure, Prod.mk.injEq] at h
    obtain ⟨⟨m, design⟩, hm, -, rfl, rfl⟩ := h
    have hmethod := declareMethod_ok hm
    have hgrow := (addMethod_adds d.design decl loc).grows
    have hlt : (d.design.addMethod decl loc).1 < (d.design.addMethod decl loc).2.nodes.size := addNode_lt ..
    rw [← hmethod] at hgrow hlt
    refine ⟨hd.take (.method decl loc) ?_, (hk.grow hgrow.nodes).bindMethod id hlt, hgrow.nodes⟩
    simp only [step, Attempt.result?_eq_some.2 hm]
    rfl
  | conflict a b priority loc =>
    simp only [GraphStmt.exec, Attempt.gives_bind, Attempt.gives_pure, Prod.mk.injEq] at h
    obtain ⟨x, hx, y, hy, -, rfl, rfl⟩ := h
    refine ⟨hd.take (.conflict x y priority loc) ?_, hk.grow (Nat.le_refl _), Nat.le_refl _⟩
    simp [step, declares, hk.declared hx, hk.declared hy]
  | before a b silenced loc =>
    simp only [GraphStmt.exec, Attempt.gives_bind, Attempt.gives_pure, Prod.mk.injEq] at h
    obtain ⟨x, hx, y, hy, -, rfl, rfl⟩ := h
    refine ⟨hd.take (.before x y silenced loc) ?_, hk.grow (Nat.le_refl _), Nat.le_refl _⟩
    simp [step, declares, hk.declared hx, hk.declared hy]
  | simultaneous a others =>
    simp only [GraphStmt.exec, Attempt.gives_bind, Attempt.gives_pure, Prod.mk.injEq] at h
    obtain ⟨x, hx, xs, hxs, -, rfl, rfl⟩ := h
    have hsize : d.design.nodes.size ≤ (d.design.simultaneous x xs).nodes.size :=
      Nat.le_of_eq (size_modifyNode ..).symm
    refine ⟨hd.take (.simultaneous x xs) ?_, hk.grow hsize, hsize⟩
    rw [step, if_pos (hk.declares hx hxs)]
  | alternatives a others =>
    simp only [GraphStmt.exec, Attempt.gives_bind, Attempt.gives_pure, Prod.mk.injEq] at h
    obtain ⟨x, hx, xs, hxs, -, rfl, rfl⟩ := h
    have hsize : d.design.nodes.size ≤ (d.design.simultaneousAlternatives x xs).nodes.size :=
      Nat.le_of_eq (size_alternatives ..).symm
    refine ⟨hd.take (.alternatives x xs) ?_, hk.grow hsize, hsize⟩
    rw [step, if_pos (hk.declares hx hxs)]
  | bind id value =>
    simp only [GraphStmt.exec, Attempt.gives_bind, Attempt.gives_pure, Prod.mk.injEq] at h
    obtain ⟨e, -, -, rfl, rfl⟩ := h
    exact ⟨hd, hk.bindVar id e, Nat.le_refl _⟩
  | node name =>
    simp only [GraphStmt.exec, Attempt.gives_bind, Attempt.gives_pure, Prod.mk.injEq] at h
    obtain ⟨x, -, -, rfl, rfl⟩ := h
    exact ⟨hd, hk, Nat.le_refl _⟩
  | sites caller callee =>
    simp only [GraphStmt.exec, Attempt.gives_bind, Attempt.gives_pure, Prod.mk.injEq] at h
    obtain ⟨x, -, y, -, -, rfl, rfl⟩ := h
    exact ⟨hd, hk, Nat.le_refl _⟩
  | transactions =>
    simp only [GraphStmt.exec, Attempt.gives_pure, Prod.mk.injEq] at h
    obtain ⟨-, rfl, rfl⟩ := h
    exact ⟨hd, hk, Nat.le_refl _⟩
  | config =>
    simp only [GraphStmt.exec, Attempt.gives_pure, Prod.mk.injEq] at h
    obtain ⟨-, rfl, rfl⟩ := h
    exact ⟨hd, hk, Nat.le_refl _⟩

/-! ### Arms -/

theorem Follows.newChain (h : d.Follows i p) : ∃ d', d'.Follows i { p with place := p.place.newChain.2 } ∧
    Onward i d.chains.length d d' ∧ d'.chains.length = d.chains.length + 1 ∧
    d'.chains[d.chains.length]? =
      some ⟨p.place.path.current, .branches { number := p.place.newChain.1 }, []⟩ := by
  obtain ⟨hf, ho⟩ := h.operate .branches d.chains.length rfl rfl rfl
    fun j c b _ hc _ => getElem?_append hc
  exact ⟨_, hf, ho, by simp [openChain, move], List.getElem?_concat_length ..⟩

theorem Follows.leave (h : d.Follows i p) (n : Nat) :
    ∃ d', d'.Follows i { p with place := p.place.leave } ∧ Onward i n d d' ∧ d'.chains = d.chains := by
  obtain ⟨hf, ho⟩ := h.operate .leave n rfl rfl rfl fun j c b _ hc _ => hc
  exact ⟨_, hf, ho, rfl⟩

theorem Follows.leaveBody (h : d.Follows i p) (n : Nat) :
    ∃ d', d'.Follows i { p with place := p.place.leaveBody } ∧ Onward i n d d' ∧ d'.bodies = d.bodies := by
  obtain ⟨hf, ho⟩ := h.operate .leaveBody n rfl rfl rfl fun j c b _ hc _ => hc
  exact ⟨_, hf, ho, rfl⟩

/-- The body of an arm that has been entered is recorded, and the arm left again. -/
theorem Follows.arm {r : Recording} {number alternative : Nat} {cond : Expr}
    (h : Extended d i { p with place := r.enter number alternative cond } p') :
    ∃ d', d'.Follows i { p' with place := p'.place.leave } ∧ Onward i d.chains.length d d' ∧
      r.Stays p'.place.leave := by
  obtain ⟨d₁, h₁, ho₁, hs₁⟩ := h
  obtain ⟨d₂, h₂, ho₂, -⟩ := h₁.leave d.chains.length
  exact ⟨d₂, h₂, ho₁.trans ho₂, hs₁.leave⟩

/-- The next arm of a chain, with the chain before and after it. -/
theorem Follows.branch (h : d.Follows i p) {j : Nat} {c : Recording.Chain} {arms : List (Nat × Expr)}
    (hj : d.chains[j]? = some ⟨p.place.path.current, .branches c, arms⟩) (op : Operation) (cond : Expr)
    (hop : d.operate i p.place op = d.enterBranch i p.place j cond)
    (hbody : ∀ d', d'.Follows i { p with place := (p.place.enterNext c cond).2 } →
      Extended d' i { p with place := (p.place.enterNext c cond).2 } p') :
    ∃ d', d'.Follows i { p' with place := p'.place.leave } ∧ Onward i j d d' ∧ p.place.Stays p'.place.leave ∧
      ∃ arms', d'.chains[j]? = some ⟨p'.place.leave.path.current, .branches (p.place.enterNext c cond).1, arms'⟩ := by
  have hlt := (List.getElem?_eq_some_iff.1 hj).1
  unfold enterBranch at hop
  rw [hj] at hop
  simp only [if_pos] at hop
  obtain ⟨hf, ho⟩ := h.operate op j hop rfl rfl fun x c b hx hc _ => by
    rw [← hc]
    exact List.getElem?_set_ne (Nat.ne_of_gt hx)
  obtain ⟨d₂, hf₂, ho₂, hs⟩ := Follows.arm (hbody _ hf)
  refine ⟨d₂, hf₂, ho.trans (ho₂.mono ?_), hs, arms ++ [(c.arms, c.taken.not.and cond)], ?_⟩
  · exact Nat.le_trans (Nat.le_of_lt hlt) ho.length
  · rw [hs.current]
    refine ho₂.branches j _ _ (Nat.lt_of_lt_of_le hlt ho.length) ?_ rfl
    exact List.getElem?_set_self hlt

/-! ### Steps without a body -/

theorem Follows.signal (h : d.Follows i p) {kind : SignalKind} {id name : String} {width : Nat} {init : Word}
    {loc : Location} {s : Sig} {r : Recording} (hs : p.place.signal name width kind init loc = .ok (s, r)) :
    Extended d i p { p with place := r, env := p.env.bindSignal id s } := by
  obtain ⟨-, -, hr⟩ := Recording.signal_ok hs
  have hop : d.operate i p.place (.signal name width kind init loc) =
      some { d.move i r with signals := d.signals ++ [s] } := by
    simp only [Draft.operate, Except.toOption_eq_some.2 hs]
    rfl
  obtain ⟨hf, ho⟩ := h.operate _ d.chains.length hop rfl rfl fun j c b _ hc _ => hc
  refine ⟨_, hf.bind (hf.knows.bindSignal id (List.mem_append_right _ (List.mem_singleton_self s))), ho, ?_⟩
  rw [hr]
  exact .refl _

theorem Follows.assign (h : d.Follows i p) (mode : AssignMode) {target : Sig} {value : Expr} {loc : Location}
    {r : Recording} (ht : target ∈ d.signals) (hr : Gives (assignAt p.place mode target value loc) r) :
    Extended d i p { p with place := r } := by
  obtain ⟨j, hlt, hj⟩ := List.getElem_of_mem ht
  have hop : d.operate i p.place (.assign mode j value loc) = some (d.move i r) := by
    simp only [Draft.operate, List.getElem?_eq_getElem hlt, hj, Option.bind_eq_bind, Option.bind_some,
      Attempt.result?_eq_some.2 hr]
    rfl
  obtain ⟨hf, ho⟩ := h.operate _ d.chains.length hop rfl rfl fun j c b _ hc _ => hc
  refine ⟨_, hf, ho, ?_⟩
  cases mode
  all_goals
    obtain ⟨-, rfl⟩ := Recording.assign_ok hr
    exact .refl _

theorem Follows.machine (h : d.Follows i p) {id name : String} {states : List String} {loc : Location}
    {m : Machine} {r : Recording} (hm : p.place.machine name states loc = .ok (m, r)) :
    Extended d i p { p with place := r, env := p.env.bindMachine id m } := by
  obtain ⟨r₁, hs, -, -, -, hr⟩ := Recording.machine_ok hm
  obtain ⟨-, -, hr₁⟩ := Recording.signal_ok hs
  have hop : d.operate i p.place (.machine name states loc) =
      some { (d.move i r).openChain ⟨m.path, .machine m, []⟩ with signals := d.signals ++ [m.state] } := by
    simp only [Draft.operate, Except.toOption_eq_some.2 hm]
    rfl
  obtain ⟨hf, ho⟩ := h.operate _ d.chains.length hop rfl rfl fun j c b _ hc _ => getElem?_append hc
  refine ⟨_, hf.bind (hf.knows.bindMachine id (List.mem_append_right _ (List.mem_singleton_self _))
    ⟨_, List.mem_append_right _ (List.mem_singleton_self _), rfl⟩), ho, ?_⟩
  rw [hr, hr₁]
  exact ⟨rfl, rfl⟩

theorem Follows.nextState (h : d.Follows i p) {m : Machine} {state : String} {loc : Location} {r : Recording}
    (hm : ∃ c ∈ d.chains, c.opener = .machine m) (hr : Gives (p.place.nextState m state loc) r) :
    Extended d i p { p with place := r } := by
  obtain ⟨⟨path, opener, arms⟩, hc, rfl⟩ := hm
  obtain ⟨j, hlt, hj⟩ := List.getElem_of_mem hc
  have hop : d.operate i p.place (.nextState j state loc) = some (d.move i r) := by
    simp only [Draft.operate, List.getElem?_eq_getElem hlt, hj, Option.bind_eq_bind, Attempt.result?_eq_some.2 hr]
    rfl
  obtain ⟨hf, ho⟩ := h.operate _ d.chains.length hop rfl rfl fun j c b _ hc _ => hc
  obtain ⟨_, -, hassign⟩ := Recording.nextState_ok hr
  obtain ⟨-, rfl⟩ := Recording.assign_ok hassign
  exact ⟨_, hf, ho, .refl _⟩

theorem Follows.call (h : d.Follows i p) {m : NodeId} {arg enable out : Expr} {loc : Location} {r : Recording}
    (hr : Gives (p.place.call m arg enable loc) (out, r)) : Extended d i p { p with place := r } := by
  obtain ⟨frame, site, enabled, -, -, -, -, -, -, -, hr'⟩ := Recording.call_ok hr
  have hop : d.operate i p.place (.call m arg enable loc) = some ((d.move i r).mark p.place) := by
    simp only [Draft.operate, Attempt.result?_eq_some.2 hr]
    rfl
  obtain ⟨hf, ho⟩ := h.operate _ d.chains.length hop rfl rfl fun j c b _ hc _ => hc
  refine ⟨_, hf, ho, ?_⟩
  rw [hr']
  exact .refl _

/-! ### Bodies -/

theorem Follows.openTransaction (h : d.Follows i p) {t : NodeId} {request : Expr} {loc : Location} {r : Recording}
    (ht : t < d.design.nodes.size) (hr : Gives (p.place.openTransaction t request loc) r) :
    Extended d i p { p with place := r } := by
  obtain ⟨info, wanted, -, -, -, hr'⟩ := Recording.openTransaction_ok hr
  have hop : d.operate i p.place (.openTransaction t request loc) = some ((d.move i r).mark p.place) := by
    simp only [Draft.operate, declares, List.all_cons, List.all_nil, Bool.and_true, decide_eq_true_eq, if_pos ht,
      Attempt.result?_eq_some.2 hr]
    rfl
  obtain ⟨hf, ho⟩ := h.operate _ d.chains.length hop rfl rfl fun j c b _ hc _ => hc
  refine ⟨_, hf, ho, ?_⟩
  rw [hr']
  exact .refl _

/-- The body of a method is noted, for when it is closed. -/
theorem Follows.openMethod (h : d.Follows i p) {m : NodeId} {ready : Expr} {validator : Option Validator}
    {loc : Location} {info : MethodInfo} {r : Recording}
    (hr : Gives (p.place.openMethod m ready validator loc) (info, r)) :
    ∃ d', d'.Follows i { p with place := r } ∧ Onward i d.chains.length d d' ∧ p.place.Stays r ∧
      ∃ j : Nat, d'.bodies[j]? = some (m, info) := by
  obtain ⟨old, wanted, -, -, -, -, hr'⟩ := Recording.openMethod_ok hr
  have hop : d.operate i p.place (.openMethod m ready validator loc) =
      some { (d.move i r).mark p.place with bodies := d.bodies ++ [(m, info)] } := by
    simp only [Draft.operate, Attempt.result?_eq_some.2 hr]
    rfl
  obtain ⟨hf, ho⟩ := h.operate _ d.chains.length hop rfl rfl fun j c b _ hc _ => hc
  refine ⟨_, hf, ho, ?_, d.bodies.length, List.getElem?_concat_length ..⟩
  rw [hr']
  exact .refl _

theorem Follows.closeMethod (h : d.Follows i p) {j : Nat} {m : NodeId} {info : MethodInfo} {result : Expr}
    {loc : Location} {r : Recording} (hj : d.bodies[j]? = some (m, info))
    (hr : Gives (p.place.closeMethod m info result loc) r) : Extended d i p { p with place := r } := by
  have hop : d.operate i p.place (.closeMethod j result loc) = some (d.move i r) := by
    simp only [Draft.operate, hj, Option.bind_eq_bind, Option.bind_some, Attempt.result?_eq_some.2 hr]
    rfl
  obtain ⟨hf, ho⟩ := h.operate _ d.chains.length hop rfl rfl fun j c b _ hc _ => hc
  refine ⟨_, hf, ho, ?_⟩
  rcases Recording.closeMethod_ok hr with rfl | ⟨bus, -, rfl⟩ <;> exact .refl _

theorem Follows.closed (h : d.Follows i p) : Extended d i p { p with place := p.place.leaveBody } := by
  obtain ⟨d', hf, ho, -⟩ := h.leaveBody d.chains.length
  exact ⟨d', hf, ho, ⟨rfl, rfl⟩⟩

/-- What is recorded in the body of a method is left again, and then the method may be closed. -/
theorem Follows.method (h : d.Follows i p) {m : NodeId} {ready : Expr} {validator : Option Validator}
    {loc : Location} {info : MethodInfo} {r : Recording} (hr : Gives (p.place.openMethod m ready validator loc) (info, r))
    (hbody : ∀ d', d'.Follows i { p with place := r } → Extended d' i { p with place := r } p') :
    Extended d i p { p' with place := p'.place.leaveBody } ∧
      ∀ {result : Expr} {loc : Location} {r' : Recording},
        Gives (p'.place.leaveBody.closeMethod m info result loc) r' → Extended d i p { p' with place := r' } := by
  obtain ⟨d₁, hf₁, ho₁, hs₁, j, hj₁⟩ := h.openMethod hr
  obtain ⟨d₂, hf₂, ho₂, hs₂⟩ := hbody d₁ hf₁
  obtain ⟨d₃, hf₃, ho₃, hbodies⟩ := hf₂.leaveBody d.chains.length
  have ho := (ho₁.trans (ho₂.mono ho₁.length)).trans ho₃
  refine ⟨⟨d₃, hf₃, ho, hs₁.trans hs₂⟩, fun hclose => ?_⟩
  have hj₃ : d₃.bodies[j]? = some (m, info) := by
    rw [hbodies]
    exact ho₂.bodies j _ hj₁
  obtain ⟨d₄, hf₄, ho₄, hs₄⟩ := hf₃.closeMethod hj₃ hclose
  exact ⟨d₄, hf₄, ho.trans (ho₄.mono ho.length), (hs₁.trans hs₂).trans hs₄⟩

/-! ### Modules and states -/

theorem Follows.graph (h : d.Follows i p) {stmt : GraphStmt} {outcome : Outcome} {design : Design} {env : Env}
    (hg : Gives (stmt.exec p.place.design p.env) (outcome, design, env)) :
    Extended d i p { p with place := { p.place with design }, env } := by
  rw [h.design] at hg
  obtain ⟨hrec, hk, hsize⟩ := graph_ok h.recorded h.knows hg
  refine ⟨_, ⟨hrec, ?_, hk⟩, ?_, ⟨rfl, rfl⟩⟩
  · obtain ⟨r, hr, hp⟩ := Option.map_eq_some_iff.1 h.place
    unfold place?
    rw [hr, ← hp]
    rfl
  · exact ⟨fun _ _ _ h => h, Nat.le_refl _, fun _ _ _ _ hc _ => hc, fun c hc m hm => ⟨c, hc, hm⟩, fun _ h => h,
      fun _ _ h => h, hsize⟩

theorem Follows.enterState (h : d.Follows i p) {m : Machine} {state : String} {loc : Location} {r : Recording}
    (hm : ∃ c ∈ d.chains, c.opener = .machine m) (hr : p.place.enterState m state loc = .ok r) :
    ∃ d', d'.Follows i { p with place := r } ∧ Onward i d.chains.length d d' ∧
      ∃ index, r = p.place.enter m.chain index (m.inState index) := by
  obtain ⟨⟨path, opener, arms⟩, hc, rfl⟩ := hm
  obtain ⟨j, hlt, hj⟩ := List.getElem_of_mem hc
  obtain ⟨index, hi⟩ : ∃ index, m.index state loc = .ok index := by
    unfold Recording.enterState at hr
    rw [except_bind_ok] at hr
    obtain ⟨index, hi, -⟩ := hr
    exact ⟨index, hi⟩
  have hop : d.operate i p.place (.enterState j state loc) =
      some ((d.move i r).noteArm j ⟨path, .machine m, arms⟩ (.machine m) (index, m.inState index)) := by
    simp only [Draft.operate, List.getElem?_eq_getElem hlt, hj, Except.toOption_eq_some.2 hi,
      Except.toOption_eq_some.2 hr]
    rfl
  obtain ⟨hf, ho⟩ := h.operate _ d.chains.length hop rfl rfl fun x c b _ hx hb => by
    -- The chain of the machine is no chain of branches.
    have hne : j ≠ x := by
      rintro rfl
      rw [List.getElem?_eq_getElem hlt, hj, Option.some.injEq] at hx
      rw [← hx] at hb
      cases hb
    rw [← hx]
    exact List.getElem?_set_ne hne
  exact ⟨_, hf, ho, index, (Recording.enterState_ok hi hr).2⟩

/-- What has been recorded in a module inside another one is nothing to the place in the outer one. -/

theorem Onward.within {i' : Nat} {d₁ d₂ : Draft} (h : Onward i n d d₁) (hlen : d.places.length ≤ i')
    (h' : Onward i' n d₁ d₂) : Onward i n d d₂ := by
  refine ⟨fun j r hj hr => ?_, Nat.le_trans h.length h'.length,
    fun j c b hj hc hb => h'.branches j c b hj (h.branches j c b hj hc hb) hb, fun c hc m hm => ?_,
    fun s hs => h'.signals s (h.signals s hs), fun j b hb => h'.bodies j b (h.bodies j b hb),
    Nat.le_trans h.nodes h'.nodes⟩
  · have hlt := (List.getElem?_eq_some_iff.1 hr).1
    exact h'.places j r (Nat.ne_of_lt (Nat.lt_of_lt_of_le hlt hlen)) (h.places j r hj hr)
  · obtain ⟨c', hc', hm'⟩ := h.machines c hc m hm
    exact h'.machines c' hc' m hm'

/-- A module inside another one, which it leaves as it was. -/
theorem Follows.submodule (h : d.Follows i p) {name : String} {loc : Location} {inner : Recording}
    (hinner : p.place.openSubmodule name loc = .ok inner)
    (hbody : ∀ d' j, d'.Follows j { p with place := inner } → Extended d' j { p with place := inner } p') :
    Extended d i p { p' with place := { p.place with design := p'.place.design } } := by
  have hinner' : Recording.openModule p.place.design (p.place.scope ++ name ++ "_") = inner := by
    unfold Recording.openSubmodule at hinner
    split at hinner
    · exact nomatch hinner
    · exact Except.ok.inj hinner
  have hop : d.operate i p.place (.submodule name loc) =
      some { d with design := inner.design, places := d.places ++ [inner] } := by
    simp only [Draft.operate, Except.toOption_eq_some.2 hinner]
    rfl
  have ho := onward_of_effect (n := d.chains.length) (operate_effect h.design hop) h.design fun j c b _ hc _ => hc
  have hrec := h.recorded.take (.inModule i (.submodule name loc)) (by simp only [step, h.place]; exact hop)
  have hplace : ({ d with design := inner.design, places := d.places ++ [inner] } : Draft).place? d.places.length =
      some inner := by
    simp [place?]
  obtain ⟨d₂, hf₂, ho₂, -⟩ := hbody _ d.places.length ⟨hrec, hplace, h.knows.onward ho⟩
  have hall := ho.within (Nat.le_refl _) (ho₂.mono ho.length)
  refine ⟨d₂, ⟨hf₂.recorded, ?_, hf₂.knows⟩, hall, ⟨rfl, rfl⟩⟩
  -- The place in the outer module is still the one from which the inner one was opened.
  obtain ⟨r, hr, hp⟩ := Option.map_eq_some_iff.1 h.place
  have hlt := (List.getElem?_eq_some_iff.1 hr).1
  have hr₂ := ho₂.places i r (Nat.ne_of_lt hlt) (getElem?_append hr)
  unfold place?
  rw [hr₂, hf₂.design, ← hp]
  rfl

end Draft

end Interlock
