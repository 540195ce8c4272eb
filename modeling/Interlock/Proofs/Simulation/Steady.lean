import Interlock.Proofs.Expr.Reads
import Interlock.Proofs.Netlist.Order
import Interlock.Proofs.Word
import Interlock.Simulation.Kernel

/-! The states that a simulation reaches from reset. In each of them every driven wire has the value of
its driver, since one pass in dependency order settles them all; a register changes at clock edges
only. -/

namespace Interlock

namespace Values

theorem valuation_set {values : Values} {i : SignalId} {v : Word} (hi : i < values.size)
    (j : SignalId) :
    (Values.valuation (values.setIfInBounds i v)) j = if j = i then v else values.valuation j := by
  unfold Values.valuation
  rw [Array.getD_eq_getD_getElem?, Array.getElem?_setIfInBounds, Array.getD_eq_getD_getElem?]
  by_cases h : j = i
  · subst h
    simp [hi]
  · rw [if_neg (Ne.symm h), if_neg h]

end Values

namespace Kernel

variable {n : Netlist} {k k' : Kernel}

/-- The states that settings of inputs, settling and clock edges lead to from reset. -/
inductive Reachable (n : Netlist) : Kernel → Prop
  | reset {k : Kernel} (h : (Kernel.new n).Gives k) : Reachable n k
  | set {k k' : Kernel} {i : SignalId} {v : Word} (h : Reachable n k) (hs : (k.set i v).Gives k') :
      Reachable n k'
  | settle {k k' : Kernel} (h : Reachable n k) (hs : k.settle = .ok k') : Reachable n k'
  | tick {k k' : Kernel} (h : Reachable n k) (hs : k.tick = .ok k') : Reachable n k'

/-- The driver of `a` gives what its target holds. -/
def Holds (n : Netlist) (σ : Valuation) (a : Assign) : Prop :=
  σ a.target = a.value.eval σ &&& mask (n.widthOf a.target)

/-- A kernel that is ready to settle the netlist. -/
structure Ready (n : Netlist) (k : Kernel) : Prop where
  netlist : k.netlist = n
  valid : n.Valid
  levelled : n.Levelled k.schedule
  size : k.values.size = n.signals.size

/-- A kernel whose wires follow their drivers. -/
structure Steady (n : Netlist) (k : Kernel) : Prop extends Ready n k where
  holds : ∀ a ∈ n.comb, Holds n k.values.valuation a

theorem get_ok {i : SignalId} {v : Word} (h : k.get i = .ok v) : k.values.valuation i = v := by
  unfold get at h
  split at h
  · rename_i w hw
    rw [Except.ok.injEq] at h
    rw [Values.valuation, Array.getD_eq_getD_getElem?, hw, Option.getD_some, h]
  · exact nomatch h

theorem driven_ok {values : Values} {a : Assign} {v : Word} (h : driven n values a = .ok v) :
    v = a.value.eval values.valuation &&& mask (n.widthOf a.target) := by
  simp only [driven, except_bind_ok, except_pure_ok] at h
  obtain ⟨w, hw, rfl⟩ := h
  rw [Expr.evalChecked_ok hw]

theorem target_lt {domain : Domain} {a : Assign} (h : n.DriverOk domain a) :
    a.target < n.signals.size := by
  obtain ⟨s, hs, -⟩ := h.target
  exact (Array.getElem?_eq_some_iff.1 hs).1

/-- The turn of one driver: it comes to hold, and those before it still do. -/
theorem drive_holds (hvalid : n.Valid) {done rest : List Assign} {a : Assign} (hl : n.Levelled (done ++ a :: rest))
    {values next : Values} (hsize : values.size = n.signals.size) (hd : ∀ b ∈ done, Holds n values.valuation b)
    (h : drive n values a = .ok next) :
    next.size = n.signals.size ∧ (∀ b ∈ done ++ [a], Holds n next.valuation b) ∧
      ∀ i, i ≠ a.target → next.valuation i = values.valuation i := by
  simp only [drive, except_bind_ok, except_pure_ok] at h
  obtain ⟨v, hv, rfl⟩ := h
  have hv := driven_ok hv
  have ha : a ∈ n.comb := hl.within a (by simp)
  have hset := Values.valuation_set (v := v) (hsize ▸ target_lt (hvalid.comb a ha))
  refine ⟨by simpa using hsize, fun b hb => ?_, fun i hi => by rw [hset i, if_neg hi]⟩
  by_cases hmem : a ∈ done
  · -- The driver has had its turn: nothing changes.
    have hsame : Values.valuation (values.setIfInBounds a.target v) = values.valuation := by
      funext j
      rw [hset j]
      split
      · rename_i hj
        rw [hj, hv, ← hd a hmem]
      · rfl
    rw [hsame]
    exact forall_mem_snoc hd (hd a hmem) b hb
  · have hcongr : b.value.eval (Values.valuation (values.setIfInBounds a.target v)) =
        b.value.eval values.valuation := by
      apply Expr.eval_congr
      intro i hi
      rw [hset i, if_neg]
      rintro rfl
      exact hl.unread hmem b hb hi
    unfold Holds
    rw [hcongr, hset b.target]
    rcases List.mem_append.1 hb with hb | hb
    · rw [if_neg]
      · exact hd b hb
      · intro he
        exact hmem (hvalid.comb_eq (hl.within b (by simp [hb])) ha he ▸ hb)
    · rw [List.mem_singleton.1 hb, if_pos rfl, hv]

/-- One pass over the drivers that are left, after those that hold already. -/
theorem settle_pass (hvalid : n.Valid) {schedule : List Assign} (hl : n.Levelled schedule) :
    ∀ (rest done : List Assign) (values values' : Values), schedule = done ++ rest →
      values.size = n.signals.size → (∀ a ∈ done, Holds n values.valuation a) →
      rest.foldlM (drive n) values = .ok values' →
      values'.size = n.signals.size ∧ (∀ a ∈ schedule, Holds n values'.valuation a) ∧
        ∀ i, i ∉ n.comb.map (·.target) → values'.valuation i = values.valuation i := by
  intro rest
  induction rest with
  | nil =>
    intro done values values' hs hsize hd h
    obtain rfl := except_pure_ok.1 h
    exact ⟨hsize, by simpa [hs] using hd, fun _ _ => rfl⟩
  | cons a rest ih =>
    intro done values values' hs hsize hd h
    rw [List.foldlM_cons, except_bind_ok] at h
    obtain ⟨next, hnext, h⟩ := h
    obtain ⟨hsize₁, hd₁, hframe₁⟩ := drive_holds hvalid (hs ▸ hl) hsize hd hnext
    obtain ⟨hsize', hall, hframe⟩ := ih (done ++ [a]) next values' (by simp [hs]) hsize₁ hd₁ h
    refine ⟨hsize', hall, fun i hi => (hframe i hi).trans (hframe₁ i ?_)⟩
    rintro rfl
    exact hi (List.mem_map_of_mem (hl.within a (by simp [hs])))

theorem settle_steady (hk : Ready n k) (h : k.settle = .ok k') :
    Steady n k' ∧ ∀ i, i ∉ n.comb.map (·.target) → k'.values.valuation i = k.values.valuation i := by
  simp only [settle, except_bind_ok, except_pure_ok] at h
  obtain ⟨values, hv, rfl⟩ := h
  rw [hk.netlist] at hv
  obtain ⟨hsize, hall, hframe⟩ :=
    settle_pass hk.valid hk.levelled k.schedule [] k.values values rfl hk.size (fun _ h => absurd h List.not_mem_nil) hv
  exact ⟨⟨⟨hk.netlist, hk.valid, hk.levelled, hsize⟩, fun a ha => hall a (hk.levelled.covers a ha)⟩, hframe⟩

theorem new_ready (h : (Kernel.new n).Gives k) :
    ∃ k₀, Ready n k₀ ∧ k₀.values = resetValues n ∧ k₀.settle = .ok k := by
  simp only [new, Attempt.gives_bind, Attempt.gives_adapt, Attempt.gives_ofChecked] at h
  obtain ⟨_, hvalid, order, horder, hs⟩ := h
  have hvalid := Netlist.validate_ok hvalid
  refine ⟨_, ⟨rfl, hvalid, Netlist.combOrder_levelled hvalid horder, ?_⟩, rfl, hs⟩
  simp [resetValues, Arena.size]

theorem set_ready {i : SignalId} {v : Word} (hk : Ready n k) (h : (k.set i v).Gives k') :
    ∃ s k₀, n.signals.get? i = some s ∧ s.kind = .input ∧ Ready n k₀ ∧ k₀.settle = .ok k' ∧
      ∀ j, j ≠ i → k₀.values.valuation j = k.values.valuation j := by
  simp only [set, Attempt.gives_bind, Attempt.gives_ofChecked, Attempt.gives_guard,
    Arena.get_ok, hk.netlist, ne_eq, not_not] at h
  obtain ⟨s, hs, hkind, h⟩ := h
  have hlt : i < k.values.size := hk.size ▸ (Array.getElem?_eq_some_iff.1 hs).1
  refine ⟨s, ⟨n, k.schedule, k.values.setIfInBounds i (v &&& mask s.width), k.cycle⟩, hs, hkind,
    ⟨rfl, hk.valid, hk.levelled, by simpa using hk.size⟩, h, fun j hj => ?_⟩
  rw [Values.valuation_set hlt, if_neg hj]

/-- The next values are what the next-state drivers have. -/
theorem nextState_eq {next : List (SignalId × Word)} (h : k.nextState = .ok next) :
    next = k.netlist.sync.map fun a =>
      (a.target, a.value.eval k.values.valuation &&& mask (k.netlist.widthOf a.target)) := by
  refine Eq.symm (List.forall₂_eq_eq_eq ▸ List.forall₂_map_left_iff.2 ((except_mapM_ok.1 h).imp fun a p hp => ?_))
  simp only [except_bind_ok, except_pure_ok] at hp
  obtain ⟨v, hv, rfl⟩ := hp
  rw [driven_ok hv]

theorem nextState_ok {next : List (SignalId × Word)} (h : k.nextState = .ok next) :
    ∀ p ∈ next, ∃ a ∈ k.netlist.sync, a.target = p.1 ∧
      p.2 = a.value.eval k.values.valuation &&& mask (k.netlist.widthOf p.1) := by
  intro p hp
  rw [nextState_eq h] at hp
  obtain ⟨a, ha, rfl⟩ := List.mem_map.1 hp
  exact ⟨a, ha, rfl, rfl⟩

theorem nextState_targets {next : List (SignalId × Word)} (h : k.nextState = .ok next) :
    next.map (·.1) = k.netlist.sync.map (·.target) := by
  rw [nextState_eq h, List.map_map]
  rfl

/-- The values after a list of updates. -/
def updated (values : Values) (updates : List (SignalId × Word)) : Values :=
  updates.foldl (fun vs (id, v) => vs.setIfInBounds id v) values

theorem updated_spec (updates : List (SignalId × Word)) (values : Values)
    (h : ∀ p ∈ updates, p.1 < values.size) :
    (updated values updates).size = values.size ∧
      ∀ i, ((updated values updates).valuation i = values.valuation i ∧ ∀ p ∈ updates, p.1 ≠ i) ∨
        ∃ p ∈ updates, p.1 = i ∧ (updated values updates).valuation i = p.2 := by
  induction updates generalizing values with
  | nil => exact ⟨rfl, fun _ => .inl ⟨rfl, fun _ hp => absurd hp List.not_mem_nil⟩⟩
  | cons p ps ih =>
    have hset := Values.valuation_set (v := p.2) (h p (List.mem_cons_self ..))
    obtain ⟨hsize, hvals⟩ := ih (values.setIfInBounds p.1 p.2) fun q hq => by
      simpa using h q (List.mem_cons_of_mem _ hq)
    refine ⟨hsize.trans (by simp), fun i => ?_⟩
    show ((updated (values.setIfInBounds p.1 p.2) ps).valuation i = _ ∧ _) ∨ _
    rcases hvals i with ⟨hi, hnone⟩ | ⟨q, hq, hqi, hv⟩
    · rw [hset i] at hi
      split at hi
      · rename_i he
        exact .inr ⟨p, List.mem_cons_self .., he.symm, hi⟩
      · rename_i hne
        exact .inl ⟨hi, List.forall_mem_cons.2 ⟨Ne.symm hne, hnone⟩⟩
    · exact .inr ⟨q, List.mem_cons_of_mem _ hq, hqi, hv⟩

/-- A clock edge puts the values of the next-state drivers into their registers, and settles. -/
theorem tick_ready (hk : Ready n k) (h : k.tick = .ok k') :
    ∃ k₀ k₁, Ready n k₀ ∧ k₀.settle = .ok k₁ ∧ k' = { k₁ with cycle := k₁.cycle + 1 } ∧
      ∀ i, (k₀.values.valuation i = k.values.valuation i ∧ ∀ a ∈ n.sync, a.target ≠ i) ∨
        ∃ a ∈ n.sync, a.target = i ∧
          k₀.values.valuation i = a.value.eval k.values.valuation &&& mask (n.widthOf i) := by
  simp only [tick, except_bind_ok, except_pure_ok] at h
  obtain ⟨next, hnext, k₁, hs, rfl⟩ := h
  have hfrom := nextState_ok hnext
  have htargets := nextState_targets hnext
  rw [hk.netlist] at hfrom htargets
  obtain ⟨hsize, hvals⟩ := updated_spec next k.values fun p hp => by
    obtain ⟨a, ha, hap, -⟩ := hfrom p hp
    rw [hk.size, ← hap]
    exact target_lt (hk.valid.sync a ha)
  refine ⟨{ k with values := updated k.values next }, k₁,
    ⟨hk.netlist, hk.valid, hk.levelled, hsize.trans hk.size⟩, hs, rfl, fun i => ?_⟩
  rcases hvals i with ⟨hsame, hnone⟩ | ⟨p, hp, rfl, hv⟩
  · refine .inl ⟨hsame, fun a ha hai => ?_⟩
    have hmem : a.target ∈ next.map (·.1) := htargets ▸ List.mem_map_of_mem ha
    obtain ⟨p, hp, hpa⟩ := List.mem_map.1 hmem
    exact hnone p hp (hpa.trans hai)
  · obtain ⟨a, ha, hap, hpv⟩ := hfrom p hp
    exact .inr ⟨a, ha, hap, hv.trans hpv⟩

/-- Every reachable state is settled. -/
theorem Reachable.steady (h : Reachable n k) : Steady n k := by
  induction h with
  | reset h =>
    obtain ⟨k₀, hk, -, hs⟩ := new_ready h
    exact (settle_steady hk hs).1
  | set _ hs ih =>
    obtain ⟨s, k₀, -, -, hk, hs, -⟩ := set_ready ih.toReady hs
    exact (settle_steady hk hs).1
  | settle _ hs ih => exact (settle_steady ih.toReady hs).1
  | tick _ htick ih =>
    obtain ⟨k₀, k₁, hk, hs, rfl, -⟩ := tick_ready ih.toReady htick
    have hk₁ := (settle_steady hk hs).1
    exact ⟨⟨hk₁.netlist, hk₁.valid, hk₁.levelled, hk₁.size⟩, hk₁.holds⟩

theorem register_undriven (hn : n.Valid) {i : SignalId} {s : Signal} (hs : n.signals.get? i = some s)
    (hkind : s.kind = .reg) : i ∉ n.comb.map (·.target) :=
  hn.not_comb hs (by rw [hkind]; decide)

/-- Setting an input leaves a signal alone that is no input and has no combinational driver. -/
theorem set_undriven {i j : SignalId} {s : Signal} {v : Word} (hs : n.signals.get? i = some s)
    (hkind : s.kind ≠ .input) (hi : i ∉ n.comb.map (·.target)) (hk : Ready n k) (h : (k.set j v).Gives k') :
    k'.values.valuation i = k.values.valuation i := by
  obtain ⟨s', k₀, hs', hinput, hk₀, hsettle, hsame⟩ := set_ready hk h
  rw [(settle_steady hk₀ hsettle).2 i hi, hsame]
  -- Only inputs are set.
  rintro rfl
  obtain rfl : s = s' := Option.some.inj (hs.symm.trans hs')
  exact hkind hinput

/-- At a clock edge such a signal takes the value of a next-state driver, if it has one. -/
theorem tick_undriven {i : SignalId} (hi : i ∉ n.comb.map (·.target)) (hk : Ready n k) (h : k.tick = .ok k') :
    (k'.values.valuation i = k.values.valuation i ∧ ∀ a ∈ n.sync, a.target ≠ i) ∨
      ∃ a ∈ n.sync, a.target = i ∧
        k'.values.valuation i = a.value.eval k.values.valuation &&& mask (n.widthOf i) := by
  obtain ⟨k₀, k₁, hk₀, hsettle, rfl, hvals⟩ := tick_ready hk h
  have hkept := (settle_steady hk₀ hsettle).2 i hi
  rcases hvals i with ⟨hv, hnone⟩ | ⟨a, ha, hai, hv⟩
  · exact .inl ⟨hkept.trans hv, hnone⟩
  · exact .inr ⟨a, ha, hai, hkept.trans hv⟩

/-- What holds of the reset value of an undriven signal, and of each next value that a settled state gives
it, holds of the signal in every reachable state. -/
theorem Reachable.undriven {P : Word → Prop} {i : SignalId} {s : Signal}
    (hs : n.signals.get? i = some s) (hkind : s.kind ≠ .input) (hi : i ∉ n.comb.map (·.target))
    (init : P (if s.isReg then s.init else 0))
    (next : ∀ k, Steady n k → P (k.values.valuation i) → ∀ a ∈ n.sync, a.target = i →
      P (a.value.eval k.values.valuation &&& mask (n.widthOf i)))
    (h : Reachable n k) : P (k.values.valuation i) := by
  induction h with
  | reset h =>
    obtain ⟨k₀, hk, hreset, hsettle⟩ := new_ready h
    rw [(settle_steady hk hsettle).2 i hi, hreset]
    have hi : n.signals.items[i]? = some s := hs
    simpa [Values.valuation, resetValues, Array.getD_eq_getD_getElem?, hi] using init
  | set hr hset ih =>
    rw [set_undriven hs hkind hi hr.steady.toReady hset]
    exact ih
  | settle hr hsettle ih =>
    rw [(settle_steady hr.steady.toReady hsettle).2 i hi]
    exact ih
  | tick hr htick ih =>
    rcases tick_undriven hi hr.steady.toReady htick with ⟨hv, -⟩ | ⟨a, ha, hai, hv⟩
    · rw [hv]
      exact ih
    · rw [hv]
      exact next _ hr.steady ih a ha hai

/-- The same for a register, which no combinational driver may set. -/
theorem Reachable.register {P : Word → Prop} {i : SignalId} {s : Signal}
    (hs : n.signals.get? i = some s) (hkind : s.kind = .reg) (init : P s.init)
    (next : ∀ k, Steady n k → P (k.values.valuation i) → ∀ a ∈ n.sync, a.target = i →
      P (a.value.eval k.values.valuation &&& mask (n.widthOf i)))
    (h : Reachable n k) : P (k.values.valuation i) := by
  refine h.undriven hs (by rw [hkind]; decide) (register_undriven h.steady.valid hs hkind) ?_ next
  rw [Signal.isReg, hkind]
  exact init

/-- A wire never holds more bits than its width. -/
theorem Reachable.wire_lt {i : SignalId} {s : Signal} (hs : n.signals.get? i = some s)
    (hkind : s.kind = .wire) (h : Reachable n k) : (k.values.valuation i).toNat < 2 ^ s.width := by
  have hwidth : n.widthOf i = s.width := by
    unfold Netlist.widthOf
    rw [hs]
  by_cases hi : i ∈ n.comb.map (·.target)
  · obtain ⟨a, ha, rfl⟩ := List.mem_map.1 hi
    rw [h.steady.holds a ha, hwidth]
    exact and_mask_lt ..
  · refine h.undriven (P := fun v => v.toNat < 2 ^ s.width) hs (by rw [hkind]; decide) hi ?_ ?_
    · rw [Signal.isReg, hkind]
      exact Nat.two_pow_pos _
    · rintro k hk - a - -
      rw [hwidth]
      exact and_mask_lt ..

/-- A signal reads as its value. -/
theorem Ready.get {i : SignalId} {s : Signal} (hs : n.signals.get? i = some s) (h : Ready n k) :
    k.get i = .ok (k.values.valuation i) := by
  have hsize : i < k.values.size := by
    rw [h.size]
    exact (Array.getElem?_eq_some_iff.1 hs).1
  rw [Values.valuation, Array.getD_eq_getD_getElem?, Kernel.get, Array.getElem?_eq_getElem hsize, Option.getD_some]

/-- A single-bit wire reads as its low bit. -/
theorem Reachable.get_bit {i : SignalId} {s : Signal} (hs : n.signals.get? i = some s)
    (hkind : s.kind = .wire) (hw : s.width = 1) (h : Reachable n k) :
    k.get i = .ok (lowBit (k.values.valuation i)).toUInt64 := by
  have hlt : (k.values.valuation i).toNat < 2 ^ 1 := hw ▸ h.wire_lt hs hkind
  rw [h.steady.get hs, ← and_mask_one_eq, and_mask_of_lt hlt]

end Kernel

end Interlock

/-! ### Cycles

Between two clock edges inputs are set and logic settles, and registers keep
their values; at the edge each takes the value of its driver. -/

namespace Interlock.Kernel

variable {n : Netlist} {k k' : Kernel} {i : SignalId} {s : Signal}

/-- Inputs are set and logic settles, without a clock edge. -/
inductive SameCycle (k : Kernel) : Kernel → Prop
  | refl : SameCycle k k
  | set {k' k'' : Kernel} {i : SignalId} {v : Word} (h : SameCycle k k') (hs : (k'.set i v).Gives k'') :
      SameCycle k k''
  | settle {k' k'' : Kernel} (h : SameCycle k k') (hs : k'.settle = .ok k'') : SameCycle k k''

/-- One clock edge leads from a state to a state of the next cycle. -/
def NextCycle (k k' : Kernel) : Prop := ∃ k₀, k.tick = .ok k₀ ∧ SameCycle k₀ k'

theorem SameCycle.reachable (h : SameCycle k k') (hk : Reachable n k) : Reachable n k' := by
  induction h with
  | refl => exact hk
  | set _ hs ih => exact ih.set hs
  | settle _ hs ih => exact ih.settle hs

theorem NextCycle.reachable (h : NextCycle k k') (hk : Reachable n k) : Reachable n k' := by
  obtain ⟨k₀, htick, hsame⟩ := h
  exact hsame.reachable (hk.tick htick)

/-- A register keeps its value until the next clock edge. -/
theorem SameCycle.register (hs : n.signals.get? i = some s) (hkind : s.kind = .reg) (h : SameCycle k k')
    (hk : Reachable n k) : k'.values.valuation i = k.values.valuation i := by
  have hi := register_undriven hk.steady.valid hs hkind
  have hinput : s.kind ≠ .input := by
    rw [hkind]
    decide
  induction h with
  | refl => rfl
  | set h hset ih => rw [set_undriven hs hinput hi (h.reachable hk).steady.toReady hset, ih]
  | settle h hsettle ih => rw [(settle_steady (h.reachable hk).steady.toReady hsettle).2 i hi, ih]

/-- At a clock edge a driven register takes the value of a driver of it. -/
theorem tick_register (hs : n.signals.get? i = some s) (hkind : s.kind = .reg) (hk : Ready n k)
    (h : k.tick = .ok k') {a : Assign} (ha : a ∈ n.sync) (hai : a.target = i) :
    ∃ b ∈ n.sync, b.target = i ∧
      k'.values.valuation i = b.value.eval k.values.valuation &&& mask (n.widthOf i) := by
  rcases tick_undriven (register_undriven hk.valid hs hkind) hk h with ⟨-, hnone⟩ | hdriven
  · exact absurd hai (hnone a ha)
  · exact hdriven

end Interlock.Kernel
