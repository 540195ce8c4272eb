import Interlock.Proofs.Recording
import Interlock.Proofs.Simulation.Session

/-! What signals hold fits their widths. Whatever a simulation writes it cuts to the width of the signal, at reset as
well as later, but for the reset values of registers, which it takes as the netlist has them. So a signal holds more
bits than its width only where it is a register that was given such a reset value and has not been driven since. -/

namespace Interlock

open Netlist

/-- A register is not reset to more bits than its width. -/
def Signal.ResetFits (s : Signal) : Prop := s.kind = .reg → s.init.toNat < 2 ^ s.width

namespace Netlist

/-- No register is reset to more bits than its width. -/
def ResetsFit (n : Netlist) : Prop := ∀ i s, n.signals.get? i = some s → s.ResetFits

/-- A signal that is added is given a reset value that fits. -/
theorem ResetsFit.addSignal {n : Netlist} (h : n.ResetsFit) (name : String) (width : Nat) (kind : SignalKind) (init : Word) :
    (n.addSignal name width kind init).2.ResetsFit := by
  intro i s hs
  have hs : (n.signals.allocWith fun id => ⟨id, name, width, kind, init &&& mask width⟩).2.get? i = some s := hs
  rw [Arena.get?_allocWith] at hs
  split at hs
  · obtain rfl := Option.some.inj hs
    exact fun _ => and_mask_lt ..
  · exact h i s hs

end Netlist

namespace Kernel

variable {n : Netlist} {k k' : Kernel} {values values' values'' : Values} {i : SignalId} {s : Signal}

/-- Each signal holds what it held before, or no more bits than its width. -/
def Cut (n : Netlist) (values values' : Values) : Prop :=
  ∀ i, values'.valuation i = values.valuation i ∨ (values'.valuation i).toNat < 2 ^ n.widthOf i

theorem Cut.refl (n : Netlist) (values : Values) : Cut n values values := fun _ => .inl rfl

theorem Cut.trans (h : Cut n values values') (h' : Cut n values' values'') : Cut n values values'' := by
  intro i
  rcases h' i with hsame | hfits
  · rw [hsame]
    exact h i
  · exact .inr hfits

/-- A signal that fits goes on to do so. -/
theorem Cut.fits (h : Cut n values values') (hs : n.signals.get? i = some s)
    (hfits : (values.valuation i).toNat < 2 ^ s.width) : (values'.valuation i).toNat < 2 ^ s.width := by
  rcases h i with hsame | hcut
  · rwa [hsame]
  · rwa [Netlist.widthOf_eq hs] at hcut

/-- What holds the same but for a word that is cut to the width of its signal. -/
theorem Cut.write (n : Netlist) (values : Values) (i : SignalId) (v : Word) :
    Cut n values (values.setIfInBounds i (v &&& mask (n.widthOf i))) := by
  by_cases hi : i < values.size
  · intro j
    rw [Values.valuation_set hi]
    split
    · rename_i hj
      rw [hj]
      exact .inr (and_mask_lt ..)
    · exact .inl rfl
  · rw [Array.setIfInBounds_eq_of_size_le (Nat.le_of_not_lt hi)]
    exact .refl n values

/-! ### What each step writes -/

theorem settle_cut (h : k.settle = .ok k') : Cut k.netlist k.values k'.values := by
  simp only [settle, except_bind_ok, except_pure_ok] at h
  obtain ⟨values, hvalues, rfl⟩ := h
  refine except_foldlM_ok (P := Cut k.netlist k.values) (fun a _ before after hcut hdrive => ?_) (.refl _ _) hvalues
  simp only [drive, except_bind_ok, except_pure_ok] at hdrive
  obtain ⟨v, hv, rfl⟩ := hdrive
  rw [driven_ok hv]
  exact hcut.trans (.write _ _ _ _)

theorem set_cut {v : Word} (h : (k.set i v).Gives k') : Cut k.netlist k.values k'.values := by
  simp only [set, Attempt.gives_bind, Attempt.gives_ofChecked, Attempt.gives_guard, Arena.get_ok] at h
  obtain ⟨s, hs, -, hsettle⟩ := h
  have hput := Cut.write k.netlist k.values i v
  rw [Netlist.widthOf_eq hs] at hput
  exact hput.trans (settle_cut hsettle)

theorem updated_cut {updates : List (SignalId × Word)} (h : ∀ p ∈ updates, ∃ v, p.2 = v &&& mask (n.widthOf p.1)) :
    Cut n values (updated values updates) := by
  induction updates generalizing values with
  | nil => exact .refl n values
  | cons p updates ih =>
    obtain ⟨v, hv⟩ := h p (List.mem_cons_self ..)
    have hput := Cut.write n values p.1 v
    rw [← hv] at hput
    exact hput.trans (ih fun q hq => h q (List.mem_cons_of_mem _ hq))

theorem tick_cut (h : k.tick = .ok k') : Cut k.netlist k.values k'.values := by
  simp only [tick, except_bind_ok, except_pure_ok] at h
  obtain ⟨next, hnext, k₁, hsettle, rfl⟩ := h
  have hupdated : Cut k.netlist k.values (updated k.values next) := updated_cut fun p hp => by
    obtain ⟨a, -, -, hv⟩ := nextState_ok hnext p hp
    exact ⟨_, hv⟩
  exact hupdated.trans (settle_cut hsettle)

/-! ### What is left of the reset values -/

/-- A signal still has its reset value, or holds no more bits than its width. -/
theorem Reachable.cut (h : Reachable n k) : Cut n (resetValues n) k.values := by
  induction h with
  | reset h =>
    obtain ⟨k₀, hk₀, hreset, hsettle⟩ := new_ready h
    have hcut := settle_cut hsettle
    rwa [hk₀.netlist, hreset] at hcut
  | set hr hset ih => exact ih.trans (hr.steady.netlist ▸ set_cut hset)
  | settle hr hsettle ih => exact ih.trans (hr.steady.netlist ▸ settle_cut hsettle)
  | tick hr htick ih => exact ih.trans (hr.steady.netlist ▸ tick_cut htick)

theorem valuation_resetValues (hs : n.signals.get? i = some s) :
    (resetValues n).valuation i = if s.isReg then s.init else 0 := by
  have hs : n.signals.items[i]? = some s := hs
  simp [Values.valuation, resetValues, Array.getD_eq_getD_getElem?, hs]

theorem Reachable.reset_or_fits (hs : n.signals.get? i = some s) (h : Reachable n k) :
    (k.values.valuation i).toNat < 2 ^ s.width ∨ s.kind = .reg ∧ k.values.valuation i = s.init := by
  rcases h.cut i with hsame | hfits
  · rw [valuation_resetValues hs] at hsame
    by_cases hreg : s.kind = .reg
    · rw [Signal.isReg, hreg] at hsame
      exact .inr ⟨hreg, hsame⟩
    · have hzero : s.isReg = false := beq_eq_false_iff_ne.2 hreg
      rw [hzero] at hsame
      rw [hsame]
      exact .inl (Nat.two_pow_pos _)
  · rw [Netlist.widthOf_eq hs] at hfits
    exact .inl hfits

/-- The first clock edge gives a driven register a value that fits, and no later step takes it away. -/
theorem Reachable.driven_fits (hs : n.signals.get? i = some s) (hdriven : i ∈ n.sync.map (·.target)) (h : Reachable n k)
    (hcycle : k.cycle ≠ 0) : (k.values.valuation i).toNat < 2 ^ s.width := by
  induction h with
  | reset h =>
    simp only [new, Attempt.gives_bind, Attempt.gives_adapt, Attempt.gives_ofChecked] at h
    obtain ⟨_, -, order, -, hsettle⟩ := h
    exact absurd (settle_cycle hsettle) hcycle
  | set hr hset ih =>
    have hcut := set_cut hset
    rw [hr.steady.netlist] at hcut
    exact hcut.fits hs (ih (set_cycle hset ▸ hcycle))
  | settle hr hsettle ih =>
    have hcut := settle_cut hsettle
    rw [hr.steady.netlist] at hcut
    exact hcut.fits hs (ih (settle_cycle hsettle ▸ hcycle))
  | tick hr htick ih =>
    obtain ⟨a, ha, rfl⟩ := List.mem_map.1 hdriven
    have hvalid := hr.steady.valid.sync a ha
    obtain ⟨t, ht, -⟩ := hvalid.target
    obtain ⟨b, -, -, hv⟩ := tick_register ht (hvalid.reg ht) hr.steady.toReady htick ha rfl
    rw [hv, Netlist.widthOf_eq hs]
    exact and_mask_lt ..

end Kernel

namespace Bench

variable {ρ σ : Type} [Recorder ρ σ] {n : Netlist} {b b' : Bench ρ σ} {es : List (Option SimError)}

theorem performAll_reachable {cs : List Command} (hb : Kernel.Reachable n b.kernel) (h : performAll cs b = .ok (b', es)) :
    Kernel.Reachable n b'.kernel := by
  induction cs generalizing b es with
  | nil =>
    obtain ⟨rfl, -⟩ := Prod.mk.inj (Except.ok.inj h)
    exact hb
  | cons c cs ih =>
    obtain ⟨b₁, e, es', hc, hcs, -⟩ := performAll_cons_ok.1 h
    exact ih (perform_reachable hb hc) hcs

end Bench

variable {ρ σ : Type} [Recorder ρ σ]

/-- After any commands a signal holds no more bits than its width if it is no register, or if it is one whose reset
value fits. All that can hold more is a register that still has a reset value that does not fit, and a driven one only
until the first clock edge. -/
theorem values_fit {n : Netlist} {k : Kernel} (h : (Kernel.new n).Gives k) (recorder : Option ρ) (outlet : σ)
    {cs : List Command} {b : Bench ρ σ} {es : List (Option SimError)}
    (hb : Bench.performAll cs ⟨k, recorder, outlet⟩ = .ok (b, es)) {i : SignalId} {s : Signal}
    (hs : n.signals.get? i = some s) :
    (s.ResetFits → (b.kernel.values.valuation i).toNat < 2 ^ s.width) ∧
      ((b.kernel.values.valuation i).toNat < 2 ^ s.width ∨
        s.kind = .reg ∧ b.kernel.values.valuation i = s.init ∧ (i ∈ n.sync.map (·.target) → b.kernel.cycle = 0)) := by
  have hreachable : Kernel.Reachable n b.kernel := Bench.performAll_reachable (b := ⟨k, recorder, outlet⟩) (.reset h) hb
  have hcases := hreachable.reset_or_fits hs
  refine ⟨fun hreset => ?_, ?_⟩
  · rcases hcases with hfits | ⟨hreg, hinit⟩
    · exact hfits
    · rw [hinit]
      exact hreset hreg
  · rcases hcases with hfits | ⟨hreg, hinit⟩
    · exact .inl hfits
    · by_cases hcycle : i ∈ n.sync.map (·.target) → b.kernel.cycle = 0
      · exact .inr ⟨hreg, hinit, hcycle⟩
      · obtain ⟨hdriven, hcycle⟩ := Classical.not_imp.1 hcycle
        exact .inl (hreachable.driven_fits hs hdriven hcycle)

/-- The counter with one more register, which nothing drives and which is added with a reset value beyond its width. -/
def Netlist.marked : Netlist := (counter.addSignal "mark" 2 .reg 7).2

/-- The reset value of the mark has been cut to three, and the counter has been driven. -/
theorem values_fit_of_marked :
    ∃ k b es, (Kernel.new marked).Gives k ∧
      Bench.performAll [.tick, .set 0 3, .run 3, .settle] (⟨k, none, {}⟩ : Bench VcdRecorder Outlet) = .ok (b, es) ∧
      b.kernel.values = #[1, 3, 1, 1, 3] ∧
      ∀ i s, marked.signals.get? i = some s → (b.kernel.values.valuation i).toNat < 2 ^ s.width := by
  have htrial : ∃ k ∈ (Kernel.new marked).result?,
      ∃ p ∈ (Bench.performAll [.tick, .set 0 3, .run 3, .settle] (⟨k, none, {}⟩ : Bench VcdRecorder Outlet)).toOption,
        p.1.kernel.values = #[1, 3, 1, 1, 3] := by
    decide +kernel
  obtain ⟨k, hk, ⟨b, es⟩, hb, hvalues⟩ := htrial
  have hk := Attempt.result?_eq_some.1 hk
  have hb := Except.toOption_eq_some.1 hb
  have hcounter : counter.ResetsFit := by
    intro i s hs
    have hmem : s ∈ counter.signals.toList := Arena.mem_toList.2 ⟨i, hs⟩
    simp only [counter, Arena.toList, Arena.ofList, List.mem_cons, List.not_mem_nil, or_false] at hmem
    rcases hmem with rfl | rfl | rfl | rfl <;> simp [Signal.ResetFits]
  exact ⟨k, b, es, hk, hb, hvalues, fun i s hs => (values_fit hk none {} hb hs).1 (hcounter.addSignal "mark" 2 .reg 7 i s hs)⟩

/-- A netlist with a register of two bits whose reset value has three. -/
def Netlist.overfilled : Netlist where
  name := "overfilled"
  signals := .ofList [⟨0, "count", 2, .reg, 7⟩]

/-- It can be simulated, and the register starts with all three of them. -/
theorem reset_overfills :
    ∃ k, (Kernel.new overfilled).Gives k ∧ overfilled.widthOf 0 = 2 ∧ ¬ (k.values.valuation 0).toNat < 2 ^ overfilled.widthOf 0 := by
  have htrial : ∃ k ∈ (Kernel.new overfilled).result?,
      overfilled.widthOf 0 = 2 ∧ ¬ (k.values.valuation 0).toNat < 2 ^ overfilled.widthOf 0 := by
    decide +kernel
  obtain ⟨k, hk, hvalue⟩ := htrial
  exact ⟨k, Attempt.result?_eq_some.1 hk, hvalue⟩

end Interlock
