import Interlock.Drivers
import Interlock.Proofs.Expr.Value
import Interlock.Proofs.Simulation.Steady

/-! Drivers of signals with a single assignment, which is all that the generated logic gives a signal:
a wire follows the value of its assignment, and a register takes it where its guard holds. -/

namespace Interlock.Drivers

variable {n : Netlist} {assigns : List GuardedAssign} {σ : Valuation}

/-- An assignment is the only one to its target in its domain. -/
structure Sole (assigns : List GuardedAssign) (x : GuardedAssign) : Prop where
  mem : x ∈ assigns
  only : ∀ a ∈ assigns, a.target = x.target → a.domain = x.domain → a = x

/-- The assignment to a wire that is driven in every cycle. -/
abbrev always (id : SignalId) (e : Expr) : GuardedAssign := ⟨id, .one, e, .comb⟩

/-- A wire is driven by one expression, in every cycle. -/
def Drives (assigns : List GuardedAssign) (id : SignalId) (e : Expr) : Prop := Sole assigns (always id e)

theorem eval_override (w : Nat) (acc : Expr) (a : GuardedAssign) :
    (override w acc a).eval σ =
      if a.guard.eval σ ≠ 0 then (a.value.resize w).eval σ else acc.eval σ := by
  rw [override, Expr.eval_select]

theorem eval_foldl_override (w : Nat) {x : GuardedAssign} {l : List GuardedAssign} (acc : Expr)
    (hl : ∀ a ∈ l, a = x) (hne : l ≠ []) :
    (l.foldl (override w) acc).eval σ =
      if x.guard.eval σ ≠ 0 then (x.value.resize w).eval σ else acc.eval σ := by
  induction l generalizing acc with
  | nil => exact absurd rfl hne
  | cons a as ih =>
    obtain rfl := hl a (List.mem_cons_self ..)
    rw [List.foldl_cons]
    rcases as with _ | ⟨b, bs⟩
    · exact eval_override w acc a
    · rw [ih _ (fun b hb => hl b (List.mem_cons_of_mem _ hb)) (by simp), eval_override]
      split <;> rfl

/-- The value of the driver of a signal with a single assignment. -/
theorem eval_driver {x : GuardedAssign} (h : Sole assigns x) :
    (driver n assigns x.domain x.target).value.eval σ =
      if x.guard.eval σ ≠ 0 then (x.value.resize (n.widthOf x.target)).eval σ
      else (fallback n x.target x.domain).eval σ := by
  refine eval_foldl_override _ _ (fun a ha => ?_) (List.ne_nil_of_mem (a := x) ?_)
  · rw [List.mem_filter, Bool.and_eq_true, beq_iff_eq, beq_iff_eq] at ha
    exact h.only a ha.1 ha.2.1 ha.2.2
  · rw [List.mem_filter, Bool.and_eq_true, beq_iff_eq, beq_iff_eq]
    exact ⟨h.mem, rfl, rfl⟩

theorem lt_of_widthOf {id : SignalId} (h : 0 < n.widthOf id) : id < n.signals.size := by
  unfold Netlist.widthOf at h
  split at h
  · rename_i s hs
    exact (Array.getElem?_eq_some_iff.1 hs).1
  · omega

/-- What is assigned to has a driver. -/
theorem mem_targets {x : GuardedAssign} (h : Sole assigns x) (hw : 0 < n.widthOf x.target) :
    x.target ∈ targets n assigns x.domain := by
  simp only [targets, List.mem_filter, List.mem_range, List.any_eq_true, Bool.and_eq_true, beq_iff_eq]
  exact ⟨lt_of_widthOf hw, x, h.mem, rfl, rfl⟩

/-- A driver has the width of its target. -/
theorem width_driver (domain : Domain) (id : SignalId) :
    (driver n assigns domain id).value.width = n.widthOf id := by
  have hfold : ∀ (l : List GuardedAssign) (acc : Expr), acc.width = n.widthOf id →
      (l.foldl (override (n.widthOf id)) acc).width = n.widthOf id := by
    intro l
    induction l with
    | nil => exact fun _ hacc => hacc
    | cons a as ih =>
      intro acc hacc
      refine ih _ ?_
      rw [override, Expr.width_select ((Expr.width_resize ..).trans hacc.symm), hacc]
  exact hfold _ _ (by cases domain <;> rfl)

/-- A settled wire carries the value of the expression that drives it, at the width of the wire. -/
theorem steady_value {k : Kernel} {id : SignalId} {e : Expr} (hk : k.Steady (build n assigns))
    (h : Drives assigns id e) (hw : 0 < n.widthOf id) :
    k.values.valuation id = (e.resize (n.widthOf id)).value k.values.valuation ∧ n.widthOf id ≤ maxWidth := by
  have hmem : driver n assigns .comb id ∈ (build n assigns).comb :=
    List.mem_append_right _ (List.mem_map_of_mem (mem_targets h hw))
  have hholds : k.values.valuation id =
      (driver n assigns .comb id).value.eval k.values.valuation &&& mask (n.widthOf id) := hk.holds _ hmem
  have hone : Expr.one.eval k.values.valuation ≠ 0 := by
    simp only [Expr.one, Expr.bit, Expr.eval_constant]
    decide
  have hwidth : (driver n assigns .comb id).value.width = n.widthOf id := width_driver .comb id
  refine ⟨?_, hwidth ▸ (hk.valid.comb _ hmem).narrow⟩
  rw [hholds, eval_driver h, if_pos hone, Expr.value, Expr.width_resize]

/-- A settled single-bit wire is one exactly where the expression that drives it holds. -/
theorem steady_bit {k : Kernel} {id : SignalId} {e : Expr} (hk : k.Steady (build n assigns))
    (h : Drives assigns id e) (hw : n.widthOf id = 1) :
    k.values.valuation id = (e.truth k.values.valuation).toUInt64 := by
  rw [(steady_value hk h (by omega)).1, hw, Expr.value_eq_truth (Expr.width_resize ..), Expr.truth_resize Nat.one_pos]

theorem steady_lowBit {k : Kernel} {id : SignalId} {e : Expr} (hk : k.Steady (build n assigns))
    (h : Drives assigns id e) (hw : n.widthOf id = 1) :
    lowBit (k.values.valuation id) = e.truth k.values.valuation := by
  rw [steady_bit hk h hw, lowBit_toUInt64]

theorem mem_sync_build {x : GuardedAssign} (h : Sole assigns x) (hx : x.domain = .sync)
    (hw : 0 < n.widthOf x.target) : driver n assigns .sync x.target ∈ (build n assigns).sync := by
  have hmem := mem_targets h hw
  rw [hx] at hmem
  exact List.mem_append_right _ (List.mem_map_of_mem hmem)

/-- The next value of a register with a single assignment. -/
theorem sync_build {x : GuardedAssign} (h : Sole assigns x) (hx : x.domain = .sync) (hn : n.sync = [])
    {a : Assign} (ha : a ∈ (build n assigns).sync) (hax : a.target = x.target) :
    a.value.eval σ =
      if x.guard.eval σ ≠ 0 then (x.value.resize (n.widthOf x.target)).eval σ
      else (n.read x.target).eval σ := by
  simp only [build, hn, List.nil_append, List.mem_map] at ha
  obtain ⟨id, -, rfl⟩ := ha
  obtain rfl : id = x.target := hax
  rw [← hx, eval_driver h, hx]
  rfl

theorem lower_ok {owner : SignalId → Option Location} {n' : Netlist}
    (h : Attempt.Gives (lower n assigns owner) n') : n' = build n assigns := by
  simp only [lower, Attempt.gives_bind, Attempt.gives_pure] at h
  obtain ⟨_, _, rfl⟩ := h
  rfl

end Interlock.Drivers
