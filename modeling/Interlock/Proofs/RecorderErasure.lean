import Interlock.Proofs.Simulation.Session

/-! A recorder has no influence on the simulation that it records. What a call makes of the kernel depends on the kernel
alone, so it is the same whether a recorder is attached or not, whatever that recorder writes, and whichever of its
calls fail. -/

namespace Interlock

/-- A call of a bench, for its simulation or for its recorder. A run of several clock edges is none of them: it ends as
soon as the recorder fails. -/
inductive Call (ρ : Type) where
  | set (id : SignalId) (value : Word)
  | settle
  | tick
  | attach (recorder : ρ)
  | finish

/-- The call is for the recorder. -/
def Call.records {ρ : Type} : Call ρ → Bool
  | attach _ | finish => true
  | set .. | settle | tick => false

/-- What a call does to a kernel that has no recorder. -/
def Kernel.obey {ρ : Type} (k : Kernel) : Call ρ → Except Fault Kernel
  | .set id v => do
    match ← (k.set id v).run with
    | .ok k => return k
    | .error _ => return k
  | .settle => k.settle
  | .tick => k.tick
  | .attach _ | .finish => return k

namespace Bench

variable {ρ σ : Type} [Recorder ρ σ]

/-- The bench after a call, and the error that the call ends with. -/
def answer (b : Bench ρ σ) : Call ρ → Except Fault (Bench ρ σ × Option SimError)
  | .set id v => b.perform (.set id v)
  | .settle => b.perform .settle
  | .tick => b.perform .tick
  | .attach r => return b.attach r
  | .finish => return b.finish

/-- The bench after all calls, and how each of them ends. -/
def answerAll : List (Call ρ) → Bench ρ σ → Except Fault (Bench ρ σ × List (Option SimError))
  | [], b => .ok (b, [])
  | c :: cs, b => do
    let (b, e) ← b.answer c
    let (b, es) ← answerAll cs b
    return (b, e :: es)

theorem attach_kernel (b : Bench ρ σ) (r : ρ) : (b.attach r).1.kernel = b.kernel := by
  unfold attach
  dsimp only
  split <;> rfl

theorem finish_kernel (b : Bench ρ σ) : b.finish.1.kernel = b.kernel := by
  unfold finish
  split <;> rfl

/-- At a clock edge the kernel moves first, and has moved even if the recorder fails. -/
theorem tick_kernel (b : Bench ρ σ) : b.tick.map (·.1.kernel) = b.kernel.tick := by
  unfold tick
  cases b.kernel.tick with
  | error fault => rfl
  | ok k => cases b.recorder <;> rfl

theorem answer_kernel (b : Bench ρ σ) (c : Call ρ) : (b.answer c).map (·.1.kernel) = b.kernel.obey c := by
  cases c with
  | set id v =>
    show Except.map _ ((b.set id v).run >>= _) = (b.kernel.set id v).run >>= _
    rw [Bench.set, ExceptT.run_bind]
    rcases (b.kernel.set id v).run with fault | e | k <;> rfl
  | settle =>
    show Except.map _ (b.settle >>= _) = b.kernel.settle
    rw [Bench.settle]
    cases b.kernel.settle <;> rfl
  | tick => exact tick_kernel b
  | attach r => exact congrArg Except.ok (attach_kernel b r)
  | finish => exact congrArg Except.ok (finish_kernel b)

/-- What calls make of the kernel is what they make of it alone. -/
theorem answerAll_kernel (cs : List (Call ρ)) (b : Bench ρ σ) :
    (answerAll cs b).map (·.1.kernel) = cs.foldlM Kernel.obey b.kernel := by
  induction cs generalizing b with
  | nil => rfl
  | cons c cs ih =>
    rw [List.foldlM_cons, ← answer_kernel, answerAll]
    cases b.answer c with
    | error fault => rfl
    | ok p =>
      show _ = cs.foldlM Kernel.obey p.1.kernel
      rw [← ih]
      show Except.map _ (answerAll cs p.1 >>= _) = _
      cases answerAll cs p.1 <;> rfl

end Bench

theorem Kernel.obey_records {ρ : Type} (k : Kernel) {c : Call ρ} (h : c.records = true) : k.obey c = .ok k := by
  cases c with
  | attach r => rfl
  | finish => rfl
  | _ => exact absurd h Bool.false_ne_true

theorem Kernel.obey_erased {ρ : Type} (cs : List (Call ρ)) (k : Kernel) :
    (cs.filter (! ·.records)).foldlM Kernel.obey k = cs.foldlM Kernel.obey k := by
  induction cs generalizing k with
  | nil => rfl
  | cons c cs ih =>
    rw [List.foldlM_cons]
    by_cases hc : c.records = true
    · rw [List.filter_cons_of_neg (by simp [hc]), ih, obey_records k hc]
      rfl
    · rw [List.filter_cons_of_pos (by simpa using hc), List.foldlM_cons]
      exact bind_congr fun k => ih k

variable {ρ σ : Type} [Recorder ρ σ]

/-- After any calls the kernel, with its values and the clock edges that it has completed, is what it is after those of
them that are not for the recorder, on a bench that has none; a fault stops both, or neither. Since any calls may come
first, this is so after each call of a longer sequence. -/
theorem recorder_undisturbing (k : Kernel) (recorder : Option ρ) (outlet outlet' : σ) (cs : List (Call ρ)) :
    (Bench.answerAll cs ⟨k, recorder, outlet⟩).map (·.1.kernel) =
      (Bench.answerAll (cs.filter (! ·.records)) ⟨k, none, outlet'⟩).map (·.1.kernel) := by
  rw [Bench.answerAll_kernel, Bench.answerAll_kernel]
  exact (Kernel.obey_erased cs k).symm

end Interlock
