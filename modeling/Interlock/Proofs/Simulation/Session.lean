import Interlock.Proofs.Simulation.Equations
import Interlock.Simulation.Bench

/-! Sessions: sequences of commands to a bench. Where the widths of all parts of the drivers are defined every session
has a result, and sessions of netlists that differ in the order of their drivers give the same values, the same errors
and the same waveforms. -/

namespace Interlock

open Netlist Kernel

/-- What is asked of a bench. -/
inductive Command where
  | set (id : SignalId) (value : Word)
  | settle
  | tick
  | run (cycles : Nat)
deriving DecidableEq, Repr

/-- The command names a signal of the netlist, if it names one. -/
def Command.Within (n : Netlist) : Command → Prop
  | .set id _ => id < n.signals.size
  | _ => True

namespace Bench

variable {ρ σ : Type} {n n' : Netlist} {b b' : Bench ρ σ} {e : Option SimError} {i : SignalId}

/-- The benches hold the same, but for what they simulate. -/
structure Twin (b b' : Bench ρ σ) : Prop where
  values : b'.kernel.values = b.kernel.values
  cycle : b'.kernel.cycle = b.kernel.cycle
  recorder : b'.recorder = b.recorder
  outlet : b'.outlet = b.outlet

/-- Two benches with the same values, each of which solves the equations of its netlist. -/
structure Matched (n n' : Netlist) (b b' : Bench ρ σ) : Prop where
  exact : Exact n b.kernel
  exact' : Exact n' b'.kernel
  twin : b.Twin b'

/-- Simulations of the netlists start with the same values. -/
theorem new_matched (hn : n.Simulable) (hp : n.Permuted n') {k k' : Kernel} (hk : (Kernel.new n).Gives k)
    (hk' : (Kernel.new n').Gives k') (recorder : Option ρ) (outlet : σ) :
    Matched n n' (⟨k, recorder, outlet⟩ : Bench ρ σ) ⟨k', recorder, outlet⟩ := by
  obtain ⟨hexact, hcycle, hreset⟩ := new_exact hn hk
  obtain ⟨hexact', hcycle', hreset'⟩ := new_exact (hp.simulable hn) hk'
  refine ⟨hexact, hexact', ?_, hcycle'.trans hcycle.symm, rfl, rfl⟩
  refine (hp.symm.solves hexact'.solves).unique hn.ends hexact.solves fun i hi => ?_
  rw [hreset i hi, hreset' i (hp.free.2 hi), resetValues, resetValues, hp.signals]

theorem set_gives {i : SignalId} {v : Word} {k : Kernel} (h : (b.kernel.set i v).Gives k) :
    (b.set i v).Gives { b with kernel := k } := by
  simp only [Bench.set, Attempt.gives_bind, Attempt.gives_pure]
  exact ⟨k, h, rfl⟩

theorem settle_gives {k : Kernel} (h : b.kernel.settle = .ok k) : b.settle = .ok { b with kernel := k } := by
  rw [settle, h]
  rfl

variable [Recorder ρ σ]

/-- The bench after a command, and the error that the command ends with; a setting that is refused changes nothing. -/
def perform (b : Bench ρ σ) : Command → Except Fault (Bench ρ σ × Option SimError)
  | .set id v => do
    match ← (b.set id v).run with
    | .ok b => return (b, none)
    | .error e => return (b, some e)
  | .settle => do return (← b.settle, none)
  | .tick => b.tick
  | .run cycles => run cycles b

/-- The bench after all commands, and how each of them ends. -/
def performAll : List Command → Bench ρ σ → Except Fault (Bench ρ σ × List (Option SimError))
  | [], b => .ok (b, [])
  | c :: cs, b => do
    let (b, e) ← b.perform c
    let (b, es) ← performAll cs b
    return (b, e :: es)

theorem performAll_cons_ok {c : Command} {cs : List Command} {es : List (Option SimError)} :
    performAll (c :: cs) b = .ok (b', es) ↔
      ∃ b₁ e es', b.perform c = .ok (b₁, e) ∧ performAll cs b₁ = .ok (b', es') ∧ es = e :: es' := by
  simp only [performAll, except_bind_ok, except_pure_ok, Prod.exists, Prod.mk.injEq]
  constructor
  · rintro ⟨b₁, e, hc, _, es', hcs, rfl, rfl⟩
    exact ⟨b₁, e, es', hc, hcs, rfl⟩
  · rintro ⟨b₁, e, es', hc, hcs, rfl⟩
    exact ⟨b₁, e, hc, b', es', hcs, rfl, rfl⟩

theorem perform_set {i : SignalId} {v : Word} {k : Kernel} (h : (b.kernel.set i v).Gives k) :
    b.perform (.set i v) = .ok ({ b with kernel := k }, none) := by
  rw [perform, show (b.set i v).run = .ok (.ok { b with kernel := k }) from set_gives h]
  rfl

theorem perform_refused {i : SignalId} {v : Word} {e : SimError} (h : (b.kernel.set i v).run = .ok (.error e)) :
    b.perform (.set i v) = .ok (b, some e) := by
  have hset : (b.set i v).run = .ok (.error e) := by
    rw [Bench.set, ExceptT.run_bind, h]
    rfl
  rw [perform, hset]
  rfl

/-- What a clock edge makes of a bench depends on what the bench holds before and after, and on nothing else. -/
theorem tick_gives (ht : b.Twin b') {k k' : Kernel} (h : b.kernel.tick = .ok k) (h' : b'.kernel.tick = .ok k')
    (hvalues : k'.values = k.values) (hcycle : k'.cycle = k.cycle) :
    ∃ b₁ b₁' e, b.tick = .ok (b₁, e) ∧ b'.tick = .ok (b₁', e) ∧ b₁.kernel = k ∧ b₁'.kernel = k' ∧ b₁.Twin b₁' := by
  obtain ⟨kernel, recorder, outlet⟩ := b
  obtain ⟨kernel', recorder', outlet'⟩ := b'
  obtain ⟨hbefore, -, rfl, rfl⟩ := ht
  rw [tick, tick, h, h']
  cases recorder' with
  | none => exact ⟨_, _, _, rfl, rfl, rfl, rfl, hvalues, hcycle, rfl, rfl⟩
  | some r =>
    have hreply : report k'.cycle (k'.changes kernel'.values) r outlet' = report k.cycle (k.changes kernel.values) r outlet' := by
      rw [show kernel'.values = kernel.values from hbefore, changes, changes, hvalues, hcycle]
    generalize hr : report k.cycle (k.changes kernel.values) r outlet' = reply at hreply
    refine ⟨⟨k, some reply.recorder, reply.outlet⟩, ⟨k', some reply.recorder, reply.outlet⟩, failureOf reply, ?_, ?_, rfl, rfl,
      hvalues, hcycle, rfl, rfl⟩
    · rw [← hr]
      rfl
    · rw [← hreply]
      rfl

theorem tick_matched (hn : n.Simulable) (hp : n.Permuted n') (h : Matched n n' b b') :
    ∃ b₁ b₁' e, b.tick = .ok (b₁, e) ∧ b'.tick = .ok (b₁', e) ∧ Matched n n' b₁ b₁' ∧
      n.Edge b.kernel.values b₁.kernel.values ∧ b₁.kernel.cycle = b.kernel.cycle + 1 := by
  obtain ⟨values, htick, hexact, hedge⟩ := h.exact.tick hn
  obtain ⟨values', htick', hexact', hedge'⟩ := h.exact'.tick (hp.simulable hn)
  have hvalues : values' = values := by
    rw [h.twin.values] at hedge'
    exact (hp.symm.edge hedge').unique hn.ends hedge
  obtain ⟨b₁, b₁', e, hb, hb', hk, hk', htwin⟩ :=
    tick_gives h.twin htick htick' hvalues (congrArg (· + 1) h.twin.cycle)
  refine ⟨b₁, b₁', e, hb, hb', ⟨hk ▸ hexact, hk' ▸ hexact', htwin⟩, ?_, ?_⟩
  · rw [hk]
    exact hedge
  · rw [hk]

/-- A run is as many clock edges as it has cycles, or fewer if it ends with an error. -/
theorem run_matched (hn : n.Simulable) (hp : n.Permuted n') (cycles : Nat) (h : Matched n n' b b') :
    ∃ b₁ b₁' e, run cycles b = .ok (b₁, e) ∧ run cycles b' = .ok (b₁', e) ∧ Matched n n' b₁ b₁' ∧
      ∃ count ≤ cycles, (e = none → count = cycles) ∧ n.Edges count b.kernel.values b₁.kernel.values ∧
        b₁.kernel.cycle = b.kernel.cycle + count := by
  induction cycles generalizing b b' with
  | zero => exact ⟨b, b', none, rfl, rfl, h, 0, le_rfl, fun _ => rfl, rfl, rfl⟩
  | succ cycles ih =>
    obtain ⟨b₁, b₁', e, hb, hb', h₁, hedge, hcycle⟩ := tick_matched hn hp h
    rw [run, run, hb, hb']
    cases e with
    | some e =>
      exact ⟨b₁, b₁', some e, rfl, rfl, h₁, 1, by omega, (fun h => nomatch h), ⟨_, hedge, rfl⟩, hcycle⟩
    | none =>
      obtain ⟨b₂, b₂', e, hb, hb', h₂, count, hcount, hall, hedges, hcycle'⟩ := ih h₁
      refine ⟨b₂, b₂', e, hb, hb', h₂, count + 1, by omega, fun he => by rw [hall he], ⟨_, hedge, hedges⟩, ?_⟩
      rw [hcycle', hcycle]
      omega

theorem perform_matched (hn : n.Simulable) (hp : n.Permuted n') (h : Matched n n' b b') {c : Command}
    (hc : c.Within n) :
    ∃ b₁ b₁' e, b.perform c = .ok (b₁, e) ∧ b'.perform c = .ok (b₁', e) ∧ Matched n n' b₁ b₁' := by
  cases c with
  | set i v =>
    obtain ⟨s, hs⟩ := Arena.exists_get? hc
    have hs' : n'.signals.get? i = some s := hp.signals ▸ hs
    by_cases hkind : s.kind = .input
    · obtain ⟨values, hset, hexact, hsetting⟩ := h.exact.set hn hs hkind v
      obtain ⟨values', hset', hexact', hsetting'⟩ := h.exact'.set (hp.simulable hn) hs' hkind v
      have hvalues : values' = values := by
        rw [h.twin.values] at hsetting'
        exact (hp.symm.setting hsetting').unique hn.ends hsetting
      exact ⟨_, _, none, perform_set hset, perform_set hset', hexact, hexact',
        ⟨hvalues, h.twin.cycle, h.twin.recorder, h.twin.outlet⟩⟩
    · exact ⟨b, b', _, perform_refused (h.exact.set_refused hs hkind v), perform_refused (h.exact'.set_refused hs' hkind v), h⟩
  | settle =>
    refine ⟨b, b', none, ?_, ?_, h⟩
    · rw [perform, settle_gives (h.exact.settle hn)]
      rfl
    · rw [perform, settle_gives (h.exact'.settle (hp.simulable hn))]
      rfl
  | tick =>
    obtain ⟨b₁, b₁', e, hb, hb', h₁, -⟩ := tick_matched hn hp h
    exact ⟨b₁, b₁', e, hb, hb', h₁⟩
  | run cycles =>
    obtain ⟨b₁, b₁', e, hb, hb', h₁, -⟩ := run_matched hn hp cycles h
    exact ⟨b₁, b₁', e, hb, hb', h₁⟩

theorem performAll_matched (hn : n.Simulable) (hp : n.Permuted n') {cs : List Command} (hcs : ∀ c ∈ cs, c.Within n)
    (h : Matched n n' b b') :
    ∃ b₁ b₁' es, performAll cs b = .ok (b₁, es) ∧ performAll cs b' = .ok (b₁', es) ∧ Matched n n' b₁ b₁' := by
  induction cs generalizing b b' with
  | nil => exact ⟨b, b', [], rfl, rfl, h⟩
  | cons c cs ih =>
    obtain ⟨b₁, b₁', e, hb, hb', h₁⟩ := perform_matched hn hp h (hcs c (List.mem_cons_self ..))
    obtain ⟨b₂, b₂', es, hbs, hbs', h₂⟩ := ih (fun c hc => hcs c (List.mem_cons_of_mem _ hc)) h₁
    exact ⟨b₂, b₂', e :: es, performAll_cons_ok.2 ⟨b₁, e, es, hb, hbs, rfl⟩,
      performAll_cons_ok.2 ⟨b₁', e, es, hb', hbs', rfl⟩, h₂⟩

/-! ### Commands that have a result -/

theorem perform_set_ok {v : Word} (h : b.perform (.set i v) = .ok (b', e)) :
    b' = b ∨ ∃ k, (b.kernel.set i v).Gives k ∧ b' = { b with kernel := k } := by
  simp only [perform, except_bind_ok] at h
  obtain ⟨result, hset, h⟩ := h
  cases result with
  | error e =>
    obtain ⟨rfl, -⟩ := Prod.mk.inj (except_pure_ok.1 h)
    exact .inl rfl
  | ok b₁ =>
    obtain ⟨rfl, -⟩ := Prod.mk.inj (except_pure_ok.1 h)
    have hset : (b.set i v).Gives b₁ := hset
    simp only [Bench.set, Attempt.gives_bind, Attempt.gives_pure] at hset
    obtain ⟨k, hk, rfl⟩ := hset
    exact .inr ⟨k, hk, rfl⟩

theorem perform_settle_ok (h : b.perform .settle = .ok (b', e)) :
    ∃ k, b.kernel.settle = .ok k ∧ b' = { b with kernel := k } := by
  simp only [perform, settle, except_bind_ok, except_pure_ok] at h
  obtain ⟨_, ⟨k, hk, rfl⟩, h⟩ := h
  obtain ⟨rfl, -⟩ := Prod.mk.inj h
  exact ⟨k, hk, rfl⟩

theorem tick_ok (h : b.tick = .ok (b', e)) : b.kernel.tick = .ok b'.kernel := by
  simp only [tick, except_bind_ok] at h
  obtain ⟨k, hk, h⟩ := h
  rw [hk]
  split at h
  · obtain ⟨rfl, -⟩ := Prod.mk.inj (except_pure_ok.1 h)
    rfl
  · obtain ⟨rfl, -⟩ := Prod.mk.inj (except_pure_ok.1 h)
    rfl

/-- What a clock edge keeps is kept by a run. -/
theorem run_keeps {P : Bench ρ σ → Prop} (tick : ∀ b b' e, P b → b.tick = .ok (b', e) → P b') {cycles : Nat} (hb : P b)
    (h : run cycles b = .ok (b', e)) : P b' := by
  induction cycles generalizing b with
  | zero =>
    obtain ⟨rfl, -⟩ := Prod.mk.inj (Except.ok.inj h)
    exact hb
  | succ cycles ih =>
    rw [run, except_bind_ok] at h
    obtain ⟨⟨b₁, e₁⟩, htick, h⟩ := h
    cases e₁ with
    | none => exact ih (tick b b₁ none hb htick) h
    | some e₁ =>
      obtain ⟨rfl, -⟩ := Prod.mk.inj (except_pure_ok.1 h)
      exact tick b b₁ (some e₁) hb htick

theorem perform_reachable {c : Command} (hb : Kernel.Reachable n b.kernel) (h : b.perform c = .ok (b', e)) :
    Kernel.Reachable n b'.kernel := by
  cases c with
  | set i v =>
    rcases perform_set_ok h with rfl | ⟨k, hk, rfl⟩
    · exact hb
    · exact hb.set hk
  | settle =>
    obtain ⟨k, hk, rfl⟩ := perform_settle_ok h
    exact hb.settle hk
  | tick => exact hb.tick (tick_ok h)
  | run cycles =>
    exact run_keeps (P := fun b => Kernel.Reachable n b.kernel) (fun b b' e hb h => hb.tick (tick_ok h)) hb h

end Bench

/-- A counter of two bits that runs while `en` is set; `carry` is set while it is about to start again. -/
def Netlist.counter : Netlist where
  name := "counter"
  signals := .ofList [⟨0, "en", 1, .input, 0⟩, ⟨1, "count", 2, .reg, 0⟩, ⟨2, "carry", 1, .wire, 0⟩, ⟨3, "last", 1, .wire, 0⟩]
  comb := [⟨2, .binary .and (.signal 0 1) (.signal 3 1)⟩, ⟨3, .binary .eq (.signal 1 2) (.const 3 2)⟩]
  sync := [⟨1, .mux (.signal 0 1) (.binary .add (.signal 1 2) (.const 1 2)) (.signal 1 2)⟩]

end Interlock
