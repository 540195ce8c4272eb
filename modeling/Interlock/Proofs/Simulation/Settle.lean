import Interlock.Proofs.Netlist.Loops
import Interlock.Proofs.Simulation.Steady

/-! Settling and clock edges that never fail. An order of the drivers leaves no loop of reads, and where the widths of
all parts of the drivers are defined every pass over them has a result. -/

namespace Interlock

namespace Netlist

variable {n : Netlist}

/-- Netlists that pass the check are of this form. -/
theorem validate_regular (h : Attempt.Gives n.validate ()) : n.Regular := by
  have hvalid := validate_ok h
  simp only [validate, Attempt.gives_bind, Attempt.gives_ofExcept] at h
  obtain ⟨_, hwidths, h⟩ := h
  obtain ⟨hnodup, -, -⟩ := checkDrivers_ok h
  refine ⟨?_, ?_, hvalid.comb, hvalid.sync⟩
  · generalize n.signals.toList = signals at hwidths
    induction signals with
    | nil => exact fun s hs => absurd hs List.not_mem_nil
    | cons s signals ih =>
      rw [checkWidths] at hwidths
      split at hwidths
      · cases hwidths
      · rename_i hs
        exact List.forall_mem_cons.2 ⟨Nat.le_of_not_lt hs, ih hwidths⟩
  · rw [drivers, List.map_append, List.map_map, List.map_map] at hnodup
    rwa [List.map_append]

/-- Following the reads of an ordered netlist backwards comes to an end: the drivers that come first read no other. -/
theorem Levelled.wellFounded (hn : n.Valid) {schedule : List Assign} (hl : n.Levelled schedule) :
    WellFounded n.Feeds := by
  have hfree : ∀ y, y ∉ n.comb.map (·.target) → Acc n.Feeds y := fun y hy =>
    Acc.intro _ fun z ⟨b, hb, hby, _⟩ => absurd (hby ▸ List.mem_map_of_mem hb) hy
  have hdriven : ∀ rest done, schedule = done ++ rest → (∀ a ∈ done, Acc n.Feeds a.target) →
      ∀ a ∈ schedule, Acc n.Feeds a.target := by
    intro rest
    induction rest with
    | nil =>
      intro done hs hdone
      rwa [hs, List.append_nil]
    | cons a rest ih =>
      intro done hs hdone
      refine ih (done ++ [a]) (by simp [hs]) (forall_mem_snoc hdone (Acc.intro _ fun y hy => ?_))
      obtain ⟨b, hb, hba, hread⟩ := hy
      obtain rfl := hn.comb_eq hb (hl.within a (by simp [hs])) hba
      by_cases hy : y ∈ n.comb.map (·.target)
      · obtain ⟨c, hc, rfl⟩ := List.mem_map.1 hy
        exact hdone c (hl.forward done b rest hs c hc hread)
      · exact hfree y hy
  refine ⟨fun x => ?_⟩
  by_cases hx : x ∈ n.comb.map (·.target)
  · obtain ⟨a, ha, rfl⟩ := List.mem_map.1 hx
    exact hdriven schedule [] rfl (fun _ h => nomatch h) a (hl.covers a ha)
  · exact hfree x hx

end Netlist

namespace Kernel

variable {n : Netlist} {k : Kernel}

theorem driven_gives {values : Values} {a : Assign} (h : a.value.Defined) :
    driven n values a = .ok (a.value.eval values.valuation &&& mask (n.widthOf a.target)) := by
  rw [driven, h.evalChecked]
  rfl

theorem foldlM_drive_gives {l : List Assign} (h : ∀ a ∈ l, a.value.Defined) :
    ∀ values, ∃ values', l.foldlM (drive n) values = .ok values' := by
  induction l with
  | nil => exact fun values => ⟨values, rfl⟩
  | cons a l ih =>
    intro values
    obtain ⟨values', hrest⟩ := ih (fun b hb => h b (List.mem_cons_of_mem _ hb))
      (values.setIfInBounds a.target (a.value.eval values.valuation &&& mask (n.widthOf a.target)))
    refine ⟨values', ?_⟩
    rw [List.foldlM_cons, drive, driven_gives (h a (List.mem_cons_self ..))]
    exact hrest

/-- Settling changes values only. -/
theorem settle_gives (hk : Ready n k) (hdefined : ∀ a ∈ n.comb, a.value.Defined) :
    ∃ values, k.settle = .ok { k with values } := by
  obtain ⟨values, h⟩ := foldlM_drive_gives (n := n) (fun a ha => hdefined a (hk.levelled.within a ha)) k.values
  refine ⟨values, ?_⟩
  rw [settle, hk.netlist, h]
  rfl

theorem nextState_gives (hdefined : ∀ a ∈ k.netlist.sync, a.value.Defined) : ∃ next, k.nextState = .ok next := by
  unfold nextState
  generalize k.netlist.sync = sync at hdefined
  induction sync with
  | nil => exact ⟨[], rfl⟩
  | cons a sync ih =>
    obtain ⟨next, hnext⟩ := ih fun b hb => hdefined b (List.mem_cons_of_mem _ hb)
    refine ⟨(a.target, a.value.eval k.values.valuation &&& mask (k.netlist.widthOf a.target)) :: next, ?_⟩
    rw [List.mapM_cons, driven_gives (hdefined a (List.mem_cons_self ..)), hnext]
    rfl

/-- A netlist that passes the check, whose drivers have an order and defined widths, can be simulated. -/
theorem new_gives {order : List Nat} (hvalidate : Attempt.Gives n.validate ()) (horder : Attempt.Gives n.combOrder order)
    (hdefined : ∀ a ∈ n.comb, a.value.Defined) : ∃ k, (Kernel.new n).Gives k := by
  have hvalid := Netlist.validate_ok hvalidate
  have hready : Ready n ⟨n, order.filterMap fun i => n.comb[i]?, resetValues n, 0⟩ :=
    ⟨rfl, hvalid, Netlist.combOrder_levelled hvalid horder, by simp [resetValues, Arena.size]⟩
  obtain ⟨values, hvalues⟩ := settle_gives hready hdefined
  refine ⟨⟨n, order.filterMap fun i => n.comb[i]?, values, 0⟩, ?_⟩
  simp only [new, Attempt.gives_bind, Attempt.gives_adapt, Attempt.gives_ofChecked]
  exact ⟨(), hvalidate, order, horder, hvalues⟩

end Kernel

end Interlock
