import Interlock.Proofs.Recording
import Interlock.Proofs.Simulation.Events
import Interlock.Proofs.Simulation.Session

/-! What a waveform tells. Once a recorder is attached, replaying what it has been told of gives the value that a
register has right after each clock edge, and so for every signal that the edge changes. A setting is told to nobody,
and the clock edge after it compares with what it has left: an input that is set between two clock edges, and a wire
that follows it, keep the value that was recorded before. -/

namespace Interlock

open Netlist

/-- The command is a setting of an input. -/
def Command.IsSet : Command → Prop
  | .set .. => True
  | _ => False

namespace Bench

variable {ρ σ : Type} {n : Netlist} {b b' : Bench ρ σ} {e : Option SimError} {i : SignalId}

/-- What the signal holds. -/
def holds (b : Bench ρ σ) (i : SignalId) : Word := b.kernel.values.valuation i

/-- What the attached recorder has been told of. -/
def events (log : ρ → σ → List Event) (b : Bench ρ σ) : List Event :=
  match b.recorder with
  | some r => log r b.outlet
  | none => []

variable [Recorder ρ σ]

/-- No setting among the commands changes the signal. -/
def Undisturbed (i : SignalId) : List Command → Bench ρ σ → Prop
  | [], _ => True
  | c :: cs, b => ∀ b' e, b.perform c = .ok (b', e) → (c.IsSet → b'.holds i = b.holds i) ∧ Undisturbed i cs b'

/-- Settings change no register. -/
theorem undisturbed_register {s : Signal} (hs : n.signals.get? i = some s) (hreg : s.kind = .reg) (cs : List Command)
    (hb : Kernel.Reachable n b.kernel) : Undisturbed i cs b := by
  induction cs generalizing b with
  | nil => trivial
  | cons c cs ih =>
    intro b' e h
    refine ⟨fun hset => ?_, ih (perform_reachable hb h)⟩
    cases c with
    | set j v =>
      rcases perform_set_ok h with rfl | ⟨k, hk, rfl⟩
      · rfl
      · have hi := Kernel.register_undriven hb.steady.valid hs hreg
        exact Kernel.set_undriven hs (by rw [hreg]; decide) hi hb.steady.toReady hk
    | _ => exact hset.elim

/-! ### Recorded changes -/

section

variable {good : ρ → σ → Prop} {log : ρ → σ → List Event}

/-- A bench with a recorder in good order, which has been told of nothing that is still to come. -/
structure Tracked (good : ρ → σ → Prop) (log : ρ → σ → List Event) (n : Netlist) (b : Bench ρ σ) : Prop where
  reachable : Kernel.Reachable n b.kernel
  recorder : ∃ r, b.recorder = some r ∧ good r b.outlet
  past : ∀ e ∈ b.events log, e.cycle ≤ b.kernel.cycle

/-- What the recorder has been told of since is of later cycles. -/
structure Since (log : ρ → σ → List Event) (b b' : Bench ρ σ) : Prop where
  cycle : b.kernel.cycle ≤ b'.kernel.cycle
  events : ∃ later, b'.events log = b.events log ++ later ∧ ∀ e ∈ later, b.kernel.cycle < e.cycle

omit [Recorder ρ σ] in
theorem Since.same (hcycle : b'.kernel.cycle = b.kernel.cycle) (hevents : b'.events log = b.events log) : Since log b b' :=
  ⟨hcycle.ge, [], by rw [hevents, List.append_nil], fun _ h => nomatch h⟩

omit [Recorder ρ σ] in
theorem Since.trans {b'' : Bench ρ σ} (h : Since log b b') (h' : Since log b' b'') : Since log b b'' := by
  obtain ⟨later, hlater, hnew⟩ := h.events
  obtain ⟨later', hlater', hnew'⟩ := h'.events
  refine ⟨h.cycle.trans h'.cycle, later ++ later', by rw [hlater', hlater, List.append_assoc], fun e he => ?_⟩
  rcases List.mem_append.1 he with he | he
  · exact hnew e he
  · exact h.cycle.trans_lt (hnew' e he)

/-- At a clock edge the recorder is told of the values that the edge changes. -/
theorem Tracked.tick (hlog : Recorder.Logs good log) (hb : Tracked good log n b) (h : b.tick = .ok (b', e)) :
    Tracked good log n b' ∧ b'.kernel.cycle = b.kernel.cycle + 1 ∧
      b'.events log = b.events log ++ eventsAt b'.kernel.cycle (b'.kernel.changes b.kernel.values) := by
  obtain ⟨kernel, recorder, outlet⟩ := b
  obtain ⟨r, rfl, hr⟩ := hb.recorder
  have htick := tick_ok h
  have hcycle := Kernel.tick_cycle htick
  obtain ⟨r', out', hreport, hr', hlog'⟩ := hlog.report b'.kernel.cycle (b'.kernel.changes kernel.values) r outlet hr
  have hb' : b' = ⟨b'.kernel, some r', out'⟩ := by
    have htick : kernel.tick = .ok b'.kernel := htick
    rw [Bench.tick, htick] at h
    obtain ⟨h, -⟩ := Prod.mk.inj (Except.ok.inj h)
    rw [← h, hreport]
  have hevents : b'.events log = log r outlet ++ eventsAt b'.kernel.cycle (b'.kernel.changes kernel.values) := by
    rw [hb']
    exact hlog'
  refine ⟨⟨hb.reachable.tick htick, ⟨r', ?_⟩, fun e he => ?_⟩, hcycle, hevents⟩
  · rw [hb']
    exact ⟨rfl, hr'⟩
  · rw [hevents] at he
    rcases List.mem_append.1 he with he | he
    · exact (hb.past e he).trans (by rw [hcycle]; exact Nat.le_succ _)
    · obtain ⟨x, -, rfl⟩ := List.mem_map.1 he
      exact le_rfl

theorem Tracked.since_tick (hlog : Recorder.Logs good log) (hb : Tracked good log n b) (h : b.tick = .ok (b', e)) :
    Since log b b' := by
  obtain ⟨-, hcycle, hevents⟩ := hb.tick hlog h
  refine ⟨by rw [hcycle]; exact Nat.le_succ _, _, hevents, fun e he => ?_⟩
  obtain ⟨x, -, rfl⟩ := List.mem_map.1 he
  rw [hcycle]
  exact Nat.lt_succ_self _

/-- A clock edge is told exactly of what it changes. -/
theorem replay_tick (hlog : Recorder.Logs good log) (hb : Tracked good log n b) (h : b.tick = .ok (b', e))
    (hi : i < n.signals.size) :
    replay (b'.events log) b'.kernel.cycle i =
      if b.holds i ≠ b'.holds i then some (b'.holds i) else replay (b.events log) b.kernel.cycle i := by
  obtain ⟨hb', hcycle, hevents⟩ := hb.tick hlog h
  have hwait : replay (b.events log) b'.kernel.cycle i = replay (b.events log) b.kernel.cycle i :=
    replay_wait hb.past (by rw [hcycle]; exact Nat.le_succ _)
  rw [hevents, replay_append, replay_changes _ _ _ (hb'.reachable.steady.size ▸ hi), hwait]
  show (if b.holds i ≠ b'.holds i then some (b'.holds i) else none).or _ = _
  split <;> rfl

/-- Replaying gives what the signal holds now. -/
def Followed (log : ρ → σ → List Event) (i : SignalId) (b : Bench ρ σ) : Prop :=
  replay (b.events log) b.kernel.cycle i = some (b.holds i)

theorem followed_tick (hlog : Recorder.Logs good log) (hb : Tracked good log n b) (h : b.tick = .ok (b', e))
    (hi : i < n.signals.size) (hfollowed : b.holds i ≠ b'.holds i ∨ b.Followed log i) : b'.Followed log i := by
  rw [Followed, replay_tick hlog hb h hi]
  by_cases hne : b.holds i ≠ b'.holds i
  · rw [if_pos hne]
  · rw [if_neg hne, hfollowed.resolve_left hne, not_not.1 hne]

theorem perform_tracked (hlog : Recorder.Logs good log) (hb : Tracked good log n b) {c : Command}
    (h : b.perform c = .ok (b', e)) :
    Tracked good log n b' ∧ Since log b b' ∧
      (i < n.signals.size → (c.IsSet → b'.holds i = b.holds i) → b.Followed log i → b'.Followed log i) := by
  have hreachable := perform_reachable hb.reachable h
  cases c with
  | set j v =>
    rcases perform_set_ok h with rfl | ⟨k, hk, rfl⟩
    · exact ⟨hb, .same rfl rfl, fun _ _ hf => hf⟩
    · have hcycle := Kernel.set_cycle hk
      refine ⟨⟨hreachable, hb.recorder, fun e he => (hb.past e he).trans hcycle.ge⟩, .same hcycle rfl, fun _ hsame hf => ?_⟩
      have hf : replay (b.events log) b.kernel.cycle i = some (b.holds i) := hf
      show replay (b.events log) k.cycle i = _
      rw [hcycle, hf, hsame trivial]
  | settle =>
    obtain ⟨k, hk, rfl⟩ := perform_settle_ok h
    have hcycle := Kernel.settle_cycle hk
    refine ⟨⟨hreachable, hb.recorder, fun e he => (hb.past e he).trans hcycle.ge⟩, .same hcycle rfl, fun _ _ hf => ?_⟩
    show replay (b.events log) k.cycle i = some (k.values.valuation i)
    rw [hcycle, hb.reachable.settle_values hk]
    exact hf
  | tick =>
    exact ⟨(hb.tick hlog h).1, hb.since_tick hlog h, fun hi _ hf => followed_tick hlog hb h hi (.inr hf)⟩
  | run cycles =>
    refine run_keeps (P := fun b₁ => Tracked good log n b₁ ∧ Since log b b₁ ∧
      (i < n.signals.size → (Command.IsSet (.run cycles) → b₁.holds i = b.holds i) → b.Followed log i → b₁.Followed log i))
      (fun b₁ b₂ e ⟨hb₁, hsince, hfollowed⟩ h => ?_) ⟨hb, .same rfl rfl, fun _ _ hf => hf⟩ h
    exact ⟨(hb₁.tick hlog h).1, hsince.trans (hb₁.since_tick hlog h), fun hi _ hf =>
      followed_tick hlog hb₁ h hi (.inr (hfollowed hi (fun h => h.elim) hf))⟩

theorem performAll_tracked (hlog : Recorder.Logs good log) {cs : List Command} {es : List (Option SimError)}
    (hb : Tracked good log n b) (h : performAll cs b = .ok (b', es)) :
    Tracked good log n b' ∧ Since log b b' ∧
      (i < n.signals.size → Undisturbed i cs b → b.Followed log i → b'.Followed log i) := by
  induction cs generalizing b es with
  | nil =>
    obtain ⟨rfl, -⟩ := Prod.mk.inj (Except.ok.inj h)
    exact ⟨hb, .same rfl rfl, fun _ _ hf => hf⟩
  | cons c cs ih =>
    obtain ⟨b₁, e, es', hc, hcs, -⟩ := performAll_cons_ok.1 h
    obtain ⟨hb₁, hsince, hstep⟩ := perform_tracked (i := i) hlog hb hc
    obtain ⟨hb₂, hsince', hrest⟩ := ih hb₁ hcs
    refine ⟨hb₂, hsince.trans hsince', fun hi hundisturbed hf => ?_⟩
    obtain ⟨hset, hundisturbed'⟩ := hundisturbed b₁ e hc
    exact hrest hi hundisturbed' (hstep hi hset hf)

/-- A recorder that is attached follows every signal. -/
theorem attach_tracked (hlog : Recorder.Logs good log) (hb : Kernel.Reachable n b.kernel) {r : ρ} (hr : good r b.outlet)
    (hfresh : log r b.outlet = []) :
    Tracked good log n (b.attach r).1 ∧ ∀ i < n.signals.size, (b.attach r).1.Followed log i := by
  obtain ⟨r', out', hattach, hr', hlog'⟩ := hlog.attach b hr
  rw [hattach]
  rw [hfresh, List.nil_append] at hlog'
  refine ⟨⟨hb, ⟨r', rfl, hr'⟩, fun e he => ?_⟩, fun i hi => ?_⟩
  · have he : e ∈ log r' out' := he
    rw [hlog'] at he
    obtain ⟨x, -, rfl⟩ := List.mem_map.1 he
    exact le_rfl
  · have hi : i < b.kernel.values.size := hb.steady.size ▸ hi
    show replay (log r' out') b.kernel.cycle i = some (b.kernel.values.valuation i)
    rw [hlog', replay_all, Values.valuation, Array.getD_eq_getD_getElem?, Array.getElem?_eq_getElem hi,
      List.getElem?_eq_getElem (by simpa using hi)]
    simp

end

end Bench

open Bench

variable {ρ σ : Type} [Recorder ρ σ] {good : ρ → σ → Prop} {log : ρ → σ → List Event} {n : Netlist} {b b₁ b₂ b₃ : Bench ρ σ}

/-- A recorder whose calls succeed is attached, commands follow, and a clock edge, and more commands. Replaying what the
recorder has been told of up to the cycle of the edge gives the value that the signal had right after it, if the signal
is a register, or the edge has changed it, or no setting since the recorder was attached has. -/
theorem waveform_replays (hlog : Recorder.Logs good log) (hb : Kernel.Reachable n b.kernel) {r : ρ}
    (hr : good r b.outlet) (hfresh : log r b.outlet = []) {before after : List Command}
    {es es' : List (Option SimError)} {e : Option SimError} (h₁ : performAll before (b.attach r).1 = .ok (b₁, es))
    (h₂ : b₁.tick = .ok (b₂, e)) (h₃ : performAll after b₂ = .ok (b₃, es')) {i : SignalId} {s : Signal}
    (hs : n.signals.get? i = some s)
    (h : s.kind = .reg ∨ b₁.holds i ≠ b₂.holds i ∨ Undisturbed i before (b.attach r).1) :
    replay (b₃.events log) b₂.kernel.cycle i = some (b₂.holds i) := by
  have hi := Arena.lt_of_get? hs
  obtain ⟨htracked, hfollowed⟩ := attach_tracked hlog hb hr hfresh
  obtain ⟨htracked₁, -, hfollowed₁⟩ := performAll_tracked (i := i) hlog htracked h₁
  have htracked₂ := (htracked₁.tick hlog h₂).1
  have hchanged : b₁.holds i ≠ b₂.holds i ∨ b₁.Followed log i := by
    rcases h with hreg | hchanged | hundisturbed
    · exact .inr (hfollowed₁ hi (undisturbed_register hs hreg before htracked.reachable) (hfollowed i hi))
    · exact .inl hchanged
    · exact .inr (hfollowed₁ hi hundisturbed (hfollowed i hi))
  obtain ⟨-, hsince, -⟩ := performAll_tracked (i := i) hlog htracked₂ h₃
  obtain ⟨later, hlater, hnew⟩ := hsince.events
  rw [hlater, replay_later hnew]
  exact followed_tick hlog htracked₁ h₂ hi hchanged

/-- A recorder that collects what it is told of. -/
structure Collector where
  events : List Event := []

instance : Recorder Collector Unit where
  register _ _ _ r out := ⟨r, out, none⟩
  change cycle id v r out := ⟨⟨r.events ++ [⟨cycle, id, v⟩]⟩, out, none⟩
  finish r out := ⟨r, out, none⟩

/-- What has been collected. -/
def Collector.told (r : Collector) (_ : Unit) : List Event := r.events

theorem Collector.keeps : Recorder.Logs (fun _ _ => True) Collector.told :=
  ⟨fun _ _ _ r out _ => ⟨r, out, rfl, trivial, rfl⟩, fun cycle id v r out _ =>
    ⟨⟨r.events ++ [⟨cycle, id, v⟩]⟩, out, rfl, trivial, rfl⟩⟩

/-- A session with the counter that collects changes from reset on. -/
def Bench.collected? (cs : List Command) : Option (Bench Collector Unit) := do
  let k ← (Kernel.new counter).result?
  let (b, _) ← (performAll cs ((⟨k, none, ()⟩ : Bench Collector Unit).attach {}).1).toOption
  return b

/-- The input is set before the first clock edge, and the waveform has it at zero still. -/
theorem waveform_misses_setting :
    ∃ b, collected? [.set 0 1, .tick] = some b ∧ b.kernel.cycle = 1 ∧ b.holds 0 = 1 ∧
      replay (b.events Collector.told) 1 0 = some 0 := by
  have h : ∃ b ∈ collected? [.set 0 1, .tick], b.kernel.cycle = 1 ∧ b.holds 0 = 1 ∧
      replay (b.events Collector.told) 1 0 = some 0 := by
    decide +kernel
  exact h

/-- After the fourth clock edge the counter is at three, and so it is in the waveform of a session that goes on. -/
theorem waveform_replays_of_counter :
    ∃ k b₁ b₂ b₃ es e es', (Kernel.new counter).Gives k ∧
      performAll [.tick, .set 0 1, .run 2] ((⟨k, none, ()⟩ : Bench Collector Unit).attach {}).1 = .ok (b₁, es) ∧
      b₁.tick = .ok (b₂, e) ∧ performAll [.set 0 0, .settle, .tick] b₂ = .ok (b₃, es') ∧ b₂.holds 1 = 3 ∧
      b₂.kernel.cycle = 4 ∧ replay (b₃.events Collector.told) 4 1 = some 3 := by
  have htrial : ∃ k ∈ (Kernel.new counter).result?,
      ∃ p₁ ∈ (performAll [.tick, .set 0 1, .run 2] ((⟨k, none, ()⟩ : Bench Collector Unit).attach {}).1).toOption,
      ∃ p₂ ∈ p₁.1.tick.toOption, ∃ p₃ ∈ (performAll [.set 0 0, .settle, .tick] p₂.1).toOption,
        p₂.1.holds 1 = 3 ∧ p₂.1.kernel.cycle = 4 := by
    decide +kernel
  obtain ⟨k, hk, ⟨b₁, es⟩, h₁, ⟨b₂, e⟩, h₂, ⟨b₃, es'⟩, h₃, hholds, hcycle⟩ := htrial
  have hk := Attempt.result?_eq_some.1 hk
  have h₁ := Except.toOption_eq_some.1 h₁
  have h₂ := Except.toOption_eq_some.1 h₂
  have h₃ := Except.toOption_eq_some.1 h₃
  have hcount : counter.signals.get? 1 = some ⟨1, "count", 2, .reg, 0⟩ := rfl
  have hreplay := waveform_replays (b := ⟨k, none, ()⟩) Collector.keeps (.reset hk) (r := {}) trivial rfl h₁ h₂ h₃ hcount (.inl rfl)
  rw [hcycle, hholds] at hreplay
  exact ⟨k, b₁, b₂, b₃, es, e, es', hk, h₁, h₂, h₃, hholds, hcycle, hreplay⟩

end Interlock
