import Interlock.Proofs.Recording
import Interlock.Proofs.Simulation.Session

/-! A simulation is the synchronous semantics of its netlist. After any commands the wires are the one solution of the
equations that the combinational drivers are; a clock edge changes all driven registers at once; and neither the
moments at which logic settles, nor the order in which inputs are set between clock edges, nor the order of the
drivers makes a difference. -/

namespace Interlock

open Netlist Kernel

variable {ρ σ : Type} [Recorder ρ σ] {n : Netlist} {b : Bench ρ σ}

/-- What the bench holds is what the synchronous semantics says, and so is what it goes on to. -/
structure Synchronous (n : Netlist) (b : Bench ρ σ) : Prop where
  solves : n.Solves b.kernel.values
  unique : ∀ values, n.Solves values → (∀ i, n.Free i → values.valuation i = b.kernel.values.valuation i) →
    values = b.kernel.values
  set : ∀ i s v, n.signals.get? i = some s → s.kind = .input →
    ∃ b', (b.set i v).Gives b' ∧ n.Setting i v b.kernel.values b'.kernel.values
  settle : b.settle = .ok b
  tick : ∃ b' e, b.tick = .ok (b', e) ∧ n.Edge b.kernel.values b'.kernel.values ∧
    b'.kernel.cycle = b.kernel.cycle + 1
  /-- Fewer clock edges than asked for only if the recorder fails. -/
  run : ∀ cycles, ∃ b' e, b.run cycles = .ok (b', e) ∧ ∃ count ≤ cycles, (e = none → count = cycles) ∧
    n.Edges count b.kernel.values b'.kernel.values ∧ b'.kernel.cycle = b.kernel.cycle + count
  commute : ∀ i j s t v w, n.signals.get? i = some s → s.kind = .input → n.signals.get? j = some t → t.kind = .input →
    i ≠ j → ∃ b₁ b₂ b', (b.set i v).Gives b₁ ∧ (b₁.set j w).Gives b' ∧ (b.set j w).Gives b₂ ∧ (b₂.set i v).Gives b'

theorem synchronous_of (hn : n.Simulable) (hb : Exact n b.kernel) : Synchronous n b := by
  have hmatched : b.Matched n n b := ⟨hb, hb, rfl, rfl, rfl, rfl⟩
  refine ⟨hb.solves, fun values h hfree => h.unique hn.ends hb.solves hfree, fun i s v hs hkind => ?_,
    Bench.settle_gives (hb.settle hn), ?_, fun cycles => ?_, fun i j s t v w hs hi ht hj hij => ?_⟩
  · obtain ⟨values, hset, -, hsetting⟩ := hb.set hn hs hkind v
    exact ⟨_, Bench.set_gives hset, hsetting⟩
  · obtain ⟨b', _, e, htick, _, _, hedge, hcycle⟩ := Bench.tick_matched hn (.refl n) hmatched
    exact ⟨b', e, htick, hedge, hcycle⟩
  · obtain ⟨b', _, e, hrun, _, _, hcount⟩ := Bench.run_matched hn (.refl n) cycles hmatched
    exact ⟨b', e, hrun, hcount⟩
  · obtain ⟨values₁, hset₁, hexact₁, h₁⟩ := hb.set hn hs hi v
    obtain ⟨values', hset₁', -, h₁'⟩ := hexact₁.set hn ht hj w
    obtain ⟨values₂, hset₂, hexact₂, h₂⟩ := hb.set hn ht hj w
    obtain ⟨values'', hset₂', -, h₂'⟩ := hexact₂.set hn hs hi v
    obtain rfl : values' = values'' :=
      h₁.commute hn.ends hij ⟨s, hs, by rw [hi]; decide⟩ ⟨t, ht, by rw [hj]; decide⟩ h₁' h₂ h₂'
    exact ⟨_, _, _, Bench.set_gives hset₁, Bench.set_gives hset₁', Bench.set_gives hset₂, Bench.set_gives hset₂'⟩

/-- Every session of a netlist that can be simulated and whose widths are defined has a result, which is that of the
synchronous semantics; and a netlist with the same drivers in another order has the same sessions. -/
theorem session_synchronous {k : Kernel} (h : (Kernel.new n).Gives k)
    (hdefined : ∀ a ∈ n.comb ++ n.sync, a.value.Defined) (recorder : Option ρ) (outlet : σ) {cs : List Command}
    (hcs : ∀ c ∈ cs, c.Within n) :
    ∃ b errors, Bench.performAll cs ⟨k, recorder, outlet⟩ = .ok (b, errors) ∧ Synchronous n b ∧
      ∀ n', n.Permuted n' → ∃ k' b', (Kernel.new n').Gives k' ∧
        Bench.performAll cs ⟨k', recorder, outlet⟩ = .ok (b', errors) ∧ b.Twin b' := by
  have hn := simulable_of h hdefined
  obtain ⟨b, _, errors, hb, _, hmatched⟩ :=
    Bench.performAll_matched hn (.refl n) hcs (Bench.new_matched hn (.refl n) h h recorder outlet)
  refine ⟨b, errors, hb, synchronous_of hn hmatched.exact, fun n' hp => ?_⟩
  obtain ⟨k', hk'⟩ := simulable_gives (hp.simulable hn)
  obtain ⟨b₁, b', errors', hb₁, hb', hmatched'⟩ :=
    Bench.performAll_matched hn hp hcs (Bench.new_matched hn hp h hk' recorder outlet)
  cases hb.symm.trans hb₁
  exact ⟨k', b', hk', hb', hmatched'.twin⟩

/-- The driver of `carry` comes first and reads `last`. -/
theorem session_synchronous_of_counter :
    ∃ k b errors, (Kernel.new counter).Gives k ∧
      Bench.performAll [.tick, .set 0 3, .run 3, .set 1 0] (⟨k, none, {}⟩ : Bench VcdRecorder Outlet) = .ok (b, errors) ∧
      errors = [none, none, none, some (.notAnInput "count")] ∧ b.kernel.values = #[1, 3, 1, 1] ∧
      Synchronous counter b := by
  have htrial : ∃ k ∈ (Kernel.new counter).result?,
      (Bench.performAll [.tick, .set 0 3, .run 3, .set 1 0] (⟨k, none, {}⟩ : Bench VcdRecorder Outlet)).toOption.map
          (fun p => (p.1.kernel.values, p.2)) =
        some (#[1, 3, 1, 1], [none, none, none, some (.notAnInput "count")]) := by
    decide +kernel
  obtain ⟨k, hk, hvalues⟩ := htrial
  have hk := Attempt.result?_eq_some.1 hk
  have hwithin : ∀ c ∈ [Command.tick, .set 0 3, .run 3, .set 1 0], c.Within counter := by
    simp [Command.Within, counter, Arena.size, Arena.ofList]
  obtain ⟨b, errors, hb, hsynchronous, -⟩ := session_synchronous (ρ := VcdRecorder) (σ := Outlet) hk (by decide) none {} hwithin
  rw [hb] at hvalues
  obtain ⟨hv, he⟩ := Prod.mk.inj (Option.some.inj hvalues)
  exact ⟨k, b, errors, hk, hb, he, hv, hsynchronous⟩

end Interlock
