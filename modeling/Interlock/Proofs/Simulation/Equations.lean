import Interlock.Proofs.Simulation.Steady
import Interlock.Proofs.Simulation.Settle

/-! The synchronous semantics of a netlist. Its combinational drivers are equations for the wires, which have one
solution for each choice of the inputs and registers; setting an input and a clock edge are relations between
solutions, which do not depend on the order of the drivers. A kernel in dependency order does what they say. -/

namespace Interlock

namespace Netlist

variable {n n' : Netlist} {values values' values'' : Values} {i : SignalId} {v : Word}

/-- The signal is an input or a register: no equation says what it holds. -/
def Free (n : Netlist) (i : SignalId) : Prop := ∃ s, n.signals.get? i = some s ∧ s.kind ≠ .wire

/-- Every driven wire has the value of its driver, cut to its width, and every other wire is zero. -/
structure Solves (n : Netlist) (values : Values) : Prop where
  size : values.size = n.signals.size
  driven : ∀ a ∈ n.comb, Kernel.Holds n values.valuation a
  floating : ∀ i s, n.signals.get? i = some s → s.kind = .wire → i ∉ n.comb.map (·.target) → values.valuation i = 0

/-- An input is set, the other inputs and the registers keep what they hold, and the wires follow. -/
structure Setting (n : Netlist) (i : SignalId) (v : Word) (values values' : Values) : Prop where
  solves : n.Solves values'
  put : values'.valuation i = v &&& mask (n.widthOf i)
  kept : ∀ j, n.Free j → j ≠ i → values'.valuation j = values.valuation j

/-- All driven registers take the values that their drivers had, the inputs and the other registers keep what they
hold, and the wires follow. -/
structure Edge (n : Netlist) (values values' : Values) : Prop where
  solves : n.Solves values'
  driven : ∀ a ∈ n.sync, values'.valuation a.target = a.value.eval values.valuation &&& mask (n.widthOf a.target)
  inputs : ∀ i s, n.signals.get? i = some s → s.kind = .input → values'.valuation i = values.valuation i
  registers : ∀ i s, n.signals.get? i = some s → s.kind = .reg → i ∉ n.sync.map (·.target) →
    values'.valuation i = values.valuation i

/-- That many clock edges, one after the other. -/
def Edges (n : Netlist) : Nat → Values → Values → Prop
  | 0, values, values' => values' = values
  | count + 1, values, values' => ∃ next, n.Edge values next ∧ n.Edges count next values'

/-! ### One solution -/

/-- Where following reads backwards comes to an end, the inputs and registers determine the wires. -/
theorem Solves.unique (hends : WellFounded n.Feeds) (h : n.Solves values) (h' : n.Solves values')
    (hfree : ∀ i, n.Free i → values.valuation i = values'.valuation i) : values = values' := by
  have hall : ∀ i, values.valuation i = values'.valuation i := by
    intro i
    induction i using hends.induction with
    | _ i ih =>
      by_cases hdriven : i ∈ n.comb.map (·.target)
      · obtain ⟨a, ha, rfl⟩ := List.mem_map.1 hdriven
        rw [h.driven a ha, h'.driven a ha, Expr.eval_congr fun y hy => ih y ⟨a, ha, rfl, hy⟩]
      · by_cases hi : i < n.signals.size
        · obtain ⟨s, hs⟩ := Arena.exists_get? hi
          by_cases hkind : s.kind = .wire
          · rw [h.floating i s hs hkind hdriven, h'.floating i s hs hkind hdriven]
          · exact hfree i ⟨s, hs, hkind⟩
        · have hnone : ∀ {values : Values}, n.Solves values → values.valuation i = 0 := fun h => by
            rw [Values.valuation, Array.getD_eq_getD_getElem?, Array.getElem?_eq_none (h.size ▸ Nat.le_of_not_lt hi)]
            rfl
          rw [hnone h, hnone h']
  refine Array.ext (h.size.trans h'.size.symm) fun i hi hi' => ?_
  have := hall i
  simpa [Values.valuation, Array.getD_eq_getD_getElem?, hi, hi'] using this

theorem Setting.unique (hends : WellFounded n.Feeds) (h : n.Setting i v values values')
    (h' : n.Setting i v values values'') : values' = values'' := by
  refine h.solves.unique hends h'.solves fun j hj => ?_
  by_cases hji : j = i
  · rw [hji, h.put, h'.put]
  · rw [h.kept j hj hji, h'.kept j hj hji]

theorem Edge.kept (h : n.Edge values values') (hi : n.Free i) (hdriven : i ∉ n.sync.map (·.target)) :
    values'.valuation i = values.valuation i := by
  obtain ⟨s, hs, hkind⟩ := hi
  cases hk : s.kind with
  | input => exact h.inputs i s hs hk
  | wire => exact absurd hk hkind
  | reg => exact h.registers i s hs hk hdriven

theorem Edge.unique (hends : WellFounded n.Feeds) (h : n.Edge values values') (h' : n.Edge values values'') :
    values' = values'' := by
  refine h.solves.unique hends h'.solves fun i hi => ?_
  by_cases hdriven : i ∈ n.sync.map (·.target)
  · obtain ⟨a, ha, rfl⟩ := List.mem_map.1 hdriven
    rw [h.driven a ha, h'.driven a ha]
  · rw [h.kept hi hdriven, h'.kept hi hdriven]

/-- Settings of two inputs lead to the same solution in either order. -/
theorem Setting.commute (hends : WellFounded n.Feeds) {j : SignalId} {w : Word} {values₁ values₂ : Values} (hij : i ≠ j)
    (hi : n.Free i) (hj : n.Free j) (h₁ : n.Setting i v values values₁) (h₁' : n.Setting j w values₁ values')
    (h₂ : n.Setting j w values values₂) (h₂' : n.Setting i v values₂ values'') : values' = values'' := by
  refine h₁'.solves.unique hends h₂'.solves fun x hx => ?_
  by_cases hxi : x = i
  · subst hxi
    rw [h₁'.kept x hi hij, h₁.put, h₂'.put]
  · rw [h₂'.kept x hx hxi]
    by_cases hxj : x = j
    · subst hxj
      rw [h₁'.put, h₂.put]
    · rw [h₁'.kept x hx hxj, h₁.kept x hx hxi, h₂.kept x hx hxj]

/-! ### The order of the drivers -/

/-- The netlists differ in the order of their drivers only, and perhaps in name. -/
structure Permuted (n n' : Netlist) : Prop where
  signals : n'.signals = n.signals
  comb : n'.comb.Perm n.comb
  sync : n'.sync.Perm n.sync

theorem Permuted.refl (n : Netlist) : n.Permuted n := ⟨rfl, .refl _, .refl _⟩

theorem Permuted.symm (h : n.Permuted n') : n'.Permuted n := ⟨h.signals.symm, h.comb.symm, h.sync.symm⟩

theorem Permuted.free (h : n.Permuted n') : n'.Free i ↔ n.Free i := by
  rw [Free, Free, h.signals]

theorem Permuted.widthOf (h : n.Permuted n') (i : SignalId) : n'.widthOf i = n.widthOf i := by
  rw [Netlist.widthOf, Netlist.widthOf, h.signals]

theorem Permuted.solves (hn : n.Permuted n') (h : n.Solves values) : n'.Solves values := by
  refine ⟨hn.signals ▸ h.size, fun a ha => ?_, fun i s hs hkind hi => ?_⟩
  · have := h.driven a (hn.comb.mem_iff.1 ha)
    rwa [Kernel.Holds, hn.widthOf]
  · exact h.floating i s (hn.signals ▸ hs) hkind fun hmem => hi ((hn.comb.map (·.target)).mem_iff.2 hmem)

theorem Permuted.setting (hn : n.Permuted n') (h : n.Setting i v values values') : n'.Setting i v values values' :=
  ⟨hn.solves h.solves, by rw [hn.widthOf]; exact h.put, fun j hj => h.kept j (hn.free.1 hj)⟩

theorem Permuted.edge (hn : n.Permuted n') (h : n.Edge values values') : n'.Edge values values' := by
  refine ⟨hn.solves h.solves, fun a ha => ?_, fun i s hs => h.inputs i s (hn.signals ▸ hs), fun i s hs hreg hdriven => ?_⟩
  · rw [hn.widthOf]
    exact h.driven a (hn.sync.mem_iff.1 ha)
  · exact h.registers i s (hn.signals ▸ hs) hreg fun hmem => hdriven ((hn.sync.map (·.target)).mem_iff.2 hmem)

/-- The netlist passes the check, its drivers have an order, and the widths of all their parts are defined. -/
structure Simulable (n : Netlist) : Prop where
  regular : n.Regular
  ends : WellFounded n.Feeds
  defined : ∀ a ∈ n.comb ++ n.sync, a.value.Defined

theorem Permuted.simulable (hn : n.Permuted n') (h : n.Simulable) : n'.Simulable := by
  have hok : ∀ {domain a}, n.DriverOk domain a → n'.DriverOk domain a := fun h =>
    ⟨by rw [hn.signals]; exact h.target, h.narrow⟩
  refine ⟨⟨by rw [hn.signals]; exact h.regular.narrow, ?_, fun a ha => ?_, fun a ha => ?_⟩, ?_, fun a ha => ?_⟩
  · exact ((hn.comb.append hn.sync).map _).nodup_iff.2 h.regular.distinct
  · exact hok (h.regular.comb a (hn.comb.mem_iff.1 ha))
  · exact hok (h.regular.sync a (hn.sync.mem_iff.1 ha))
  · exact Subrelation.wf (fun ⟨a, ha, hfeeds⟩ => ⟨a, hn.comb.mem_iff.1 ha, hfeeds⟩) h.ends
  · exact h.defined a ((hn.comb.append hn.sync).mem_iff.1 ha)

theorem Regular.valid (h : n.Regular) : n.Valid :=
  ⟨(List.nodup_append.1 (List.map_append ▸ h.distinct)).1, h.comb, h.sync⟩

theorem Valid.undriven (h : n.Valid) (hi : n.Free i) : i ∉ n.comb.map (·.target) := by
  obtain ⟨s, hs, hkind⟩ := hi
  exact h.not_comb hs hkind

/-- A target tells its driver. -/
theorem Regular.sync_eq (h : n.Regular) {a b : Assign} (ha : a ∈ n.sync) (hb : b ∈ n.sync) (he : a.target = b.target) :
    a = b :=
  List.inj_on_of_nodup_map (List.nodup_append.1 (List.map_append ▸ h.distinct)).2.1 ha hb he

theorem Regular.sync_reg (h : n.Regular) {a : Assign} (ha : a ∈ n.sync) :
    ∃ s, n.signals.get? a.target = some s ∧ s.kind = .reg := by
  obtain ⟨s, hs, -⟩ := (h.sync a ha).target
  exact ⟨s, hs, (h.sync a ha).reg hs⟩

theorem Simulable.validates (h : n.Simulable) : Attempt.Gives n.validate () :=
  h.regular.validate_gives.2 fun a ha => (h.defined a ha).sized

end Netlist

namespace Kernel

variable {n : Netlist} {k k' : Kernel} {i : SignalId} {v : Word}

theorem settle_cycle (h : k.settle = .ok k') : k'.cycle = k.cycle := by
  simp only [settle, except_bind_ok, except_pure_ok] at h
  obtain ⟨_, _, rfl⟩ := h
  rfl

theorem set_cycle (h : (k.set i v).Gives k') : k'.cycle = k.cycle := by
  simp only [set, Attempt.gives_bind, Attempt.gives_ofChecked, Attempt.gives_guard] at h
  obtain ⟨_, _, _, h⟩ := h
  have hcycle := settle_cycle h
  exact hcycle

theorem tick_cycle (h : k.tick = .ok k') : k'.cycle = k.cycle + 1 := by
  simp only [tick, except_bind_ok, except_pure_ok] at h
  obtain ⟨_, _, k₁, hs, rfl⟩ := h
  have hcycle := settle_cycle hs
  exact congrArg (· + 1) hcycle

/-- A kernel whose values solve the equations of the netlist, and that is ready to settle it. -/
structure Exact (n : Netlist) (k : Kernel) : Prop extends Ready n k where
  solves : n.Solves k.values

theorem simulable_of (h : (Kernel.new n).Gives k) (hdefined : ∀ a ∈ n.comb ++ n.sync, a.value.Defined) :
    n.Simulable := by
  obtain ⟨k₀, hk₀, -⟩ := new_ready h
  simp only [new, Attempt.gives_bind, Attempt.gives_adapt] at h
  obtain ⟨_, hvalidate, -⟩ := h
  exact ⟨Netlist.validate_regular hvalidate, hk₀.levelled.wellFounded hk₀.valid, hdefined⟩

theorem simulable_gives (hn : n.Simulable) : ∃ k, (Kernel.new n).Gives k := by
  obtain ⟨order, horder⟩ := Netlist.combOrder_gives hn.ends
  exact new_gives hn.validates horder fun a ha => hn.defined a (List.mem_append_left _ ha)

/-- Settling solves the equations, whatever the driven wires held before. -/
theorem settle_exact (hn : n.Simulable) (hk : Ready n k)
    (hfloating : ∀ i s, n.signals.get? i = some s → s.kind = .wire → i ∉ n.comb.map (·.target) → k.values.valuation i = 0) :
    ∃ values, k.settle = .ok { k with values } ∧ Exact n { k with values } ∧
      ∀ i, n.Free i → values.valuation i = k.values.valuation i := by
  obtain ⟨values, h⟩ := settle_gives hk fun a ha => hn.defined a (List.mem_append_left _ ha)
  obtain ⟨hsteady, hkept⟩ := settle_steady hk h
  refine ⟨values, h, ⟨hsteady.toReady, hsteady.size, hsteady.holds, fun i s hs hkind hi => ?_⟩, fun i hi => ?_⟩
  · rw [hkept i hi]
    exact hfloating i s hs hkind hi
  · exact hkept i (hn.regular.valid.undriven hi)

/-- A kernel starts from the reset values of inputs and registers. -/
theorem new_exact (hn : n.Simulable) (h : (Kernel.new n).Gives k) :
    Exact n k ∧ k.cycle = 0 ∧ ∀ i, n.Free i → k.values.valuation i = (resetValues n).valuation i := by
  simp only [new, Attempt.gives_bind, Attempt.gives_adapt, Attempt.gives_ofChecked] at h
  obtain ⟨_, -, order, horder, h⟩ := h
  have hready : Ready n ⟨n, order.filterMap fun i => n.comb[i]?, resetValues n, 0⟩ :=
    ⟨rfl, hn.regular.valid, Netlist.combOrder_levelled hn.regular.valid horder, by simp [resetValues, Arena.size]⟩
  obtain ⟨values, hsettle, hexact, hkept⟩ := settle_exact hn hready fun i s hs hkind _ => by
    have hs : n.signals.items[i]? = some s := hs
    simp [Values.valuation, resetValues, Array.getD_eq_getD_getElem?, hs, Signal.isReg, hkind]
  obtain rfl := Except.ok.inj (h.symm.trans hsettle)
  exact ⟨hexact, rfl, hkept⟩

/-- In such a state settling changes nothing. -/
theorem Exact.settle (hn : n.Simulable) (hk : Exact n k) : k.settle = .ok k := by
  obtain ⟨values, h, hexact, hkept⟩ := settle_exact hn hk.toReady hk.solves.floating
  obtain rfl : values = k.values := hexact.solves.unique hn.ends hk.solves hkept
  exact h

theorem Exact.set (hn : n.Simulable) (hk : Exact n k) {s : Signal} (hs : n.signals.get? i = some s)
    (hkind : s.kind = .input) (v : Word) :
    ∃ values, (k.set i v).Gives { k with values } ∧ Exact n { k with values } ∧ n.Setting i v k.values values := by
  obtain rfl := hk.netlist
  have hput := Values.valuation_set (v := v &&& mask s.width) (hk.size ▸ Arena.lt_of_get? hs)
  have hready : Ready k.netlist { k with values := k.values.setIfInBounds i (v &&& mask s.width) } :=
    ⟨rfl, hk.valid, hk.levelled, by simpa using hk.size⟩
  obtain ⟨values, hsettle, hexact, hkept⟩ := settle_exact hn hready fun j t ht hwire hj => by
    rw [hput, if_neg]
    · exact hk.solves.floating j t ht hwire hj
    · rintro rfl
      obtain rfl : s = t := Option.some.inj (hs.symm.trans ht)
      rw [hkind] at hwire
      cases hwire
  refine ⟨values, ?_, hexact, hexact.solves, ?_, fun j hj hji => ?_⟩
  · simp only [Kernel.set, Attempt.gives_bind, Attempt.gives_ofChecked, Attempt.gives_guard, Arena.get_ok, ne_eq, not_not]
    exact ⟨s, hs, hkind, hsettle⟩
  · rw [hkept i ⟨s, hs, by rw [hkind]; decide⟩, hput, if_pos rfl, Netlist.widthOf_eq hs]
  · rw [hkept j hj, hput, if_neg hji]

/-- A signal that is no input is not set. -/
theorem Exact.set_refused (hk : Exact n k) {s : Signal} (hs : n.signals.get? i = some s) (hkind : s.kind ≠ .input)
    (v : Word) : (k.set i v).run = .ok (.error (.notAnInput s.name)) := by
  rw [Kernel.set, hk.netlist, Arena.get_ok.2 hs]
  show (if s.kind ≠ .input then _ else _ : Attempt SimError Kernel).run = _
  rw [if_pos hkind]
  rfl

theorem Exact.tick (hn : n.Simulable) (hk : Exact n k) :
    ∃ values, k.tick = .ok { k with values, cycle := k.cycle + 1 } ∧
      Exact n { k with values, cycle := k.cycle + 1 } ∧ n.Edge k.values values := by
  obtain rfl := hk.netlist
  obtain ⟨next, hnext⟩ := nextState_gives (k := k) fun a ha => hn.defined a (List.mem_append_right _ ha)
  have hfrom := nextState_ok hnext
  have htargets := nextState_targets hnext
  obtain ⟨hsize, hvals⟩ := updated_spec next k.values fun p hp => by
    obtain ⟨a, ha, hap, -⟩ := hfrom p hp
    rw [hk.size, ← hap]
    exact target_lt (hk.valid.sync a ha)
  have hheld : ∀ i, i ∉ k.netlist.sync.map (·.target) → (updated k.values next).valuation i = k.values.valuation i := by
    intro i hi
    rcases hvals i with ⟨hsame, -⟩ | ⟨p, hp, rfl, -⟩
    · exact hsame
    · exact absurd (htargets ▸ List.mem_map_of_mem hp) hi
  have hready : Ready k.netlist { k with values := updated k.values next } :=
    ⟨rfl, hk.valid, hk.levelled, hsize.trans hk.size⟩
  -- No wire is a register, so those without a driver are still zero.
  obtain ⟨values, hsettle, hexact, hkept⟩ := settle_exact hn hready fun i s hs hwire hi => by
    rw [hheld i (hk.valid.not_sync hs (by rw [hwire]; decide))]
    exact hk.solves.floating i s hs hwire hi
  refine ⟨values, ?_, ⟨⟨rfl, hk.valid, hk.levelled, hexact.size⟩, hexact.solves⟩, hexact.solves, fun a ha => ?_,
    fun i s hs hinput => ?_, fun i s hs hreg hi => (hkept i ⟨s, hs, by rw [hreg]; decide⟩).trans (hheld i hi)⟩
  · rw [Kernel.tick, hnext]
    show (do let k ← Kernel.settle { k with values := updated k.values next }; return { k with cycle := k.cycle + 1 }) = _
    rw [hsettle]
    rfl
  · obtain ⟨t, ht, hreg⟩ := hn.regular.sync_reg ha
    rw [hkept _ ⟨t, ht, by rw [hreg]; decide⟩]
    rcases hvals a.target with ⟨-, hnone⟩ | ⟨p, hp, hpa, hv⟩
    · obtain ⟨p, hp, hpa⟩ := List.mem_map.1 (htargets ▸ List.mem_map_of_mem (f := fun a : Assign => a.target) ha)
      exact absurd hpa (hnone p hp)
    · obtain ⟨b, hb, hbp, hpv⟩ := hfrom p hp
      obtain rfl := hn.regular.sync_eq hb ha (hbp.trans hpa)
      exact hv.trans (hpa ▸ hpv)
  · refine (hkept i ⟨s, hs, by rw [hinput]; decide⟩).trans (hheld i ?_)
    exact hk.valid.not_sync hs (by rw [hinput]; decide)

/-- In every reachable state the values solve the equations. -/
theorem Reachable.solves (h : Reachable n k) : n.Solves k.values := by
  refine ⟨h.steady.size, h.steady.holds, fun i s hs hkind hi => ?_⟩
  refine h.undriven (P := (· = 0)) hs (by rw [hkind]; decide) hi ?_ fun k hk _ a ha hai => ?_
  · rw [Signal.isReg, hkind]
    rfl
  · -- A wire is no target of a clock edge.
    have hwire : s.kind ≠ .reg := by rw [hkind]; decide
    exact absurd (hai ▸ List.mem_map_of_mem ha) (hk.valid.not_sync hs hwire)

theorem Reachable.simulable (hvalidate : Attempt.Gives n.validate ()) (hdefined : ∀ a ∈ n.comb ++ n.sync, a.value.Defined)
    (h : Reachable n k) : n.Simulable :=
  ⟨Netlist.validate_regular hvalidate, h.steady.levelled.wellFounded h.steady.valid, hdefined⟩

/-- There is a next clock edge in every reachable state. -/
theorem Reachable.tick_gives (hn : n.Simulable) (h : Reachable n k) : ∃ k', k.tick = .ok k' := by
  have hexact : Exact n k := ⟨h.steady.toReady, h.solves⟩
  obtain ⟨values, htick, -⟩ := hexact.tick hn
  exact ⟨_, htick⟩

/-- Settling again changes no value. -/
theorem Reachable.settle_values (h : Reachable n k) (hs : k.settle = .ok k') : k'.values = k.values := by
  have hsteady := h.steady
  refine (h.settle hs).solves.unique (hsteady.levelled.wellFounded hsteady.valid) h.solves fun i hi => ?_
  exact (settle_steady hsteady.toReady hs).2 i (hsteady.valid.undriven hi)

end Kernel

end Interlock
