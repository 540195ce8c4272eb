import Interlock.Proofs.Design.Regular
import Interlock.Proofs.Drivers
import Interlock.Proofs.Expr.Defined

/-! Netlists that pass the check. Where nothing is too wide and each driver is the only one of a signal of the
right kind, all that is left of the check is to ask for widths; and what is built from assignments in the right
domains is of that form, since there is one driver for each target and it has the width of its target. -/

namespace Interlock

namespace Netlist

variable {n : Netlist}

theorem checkWidths_narrow {l : List Signal} (h : ∀ s ∈ l, s.width ≤ maxWidth) : checkWidths l = .ok () := by
  induction l with
  | nil => rfl
  | cons s l ih =>
    rw [checkWidths, if_neg (Nat.not_lt.2 (h s (List.mem_cons_self ..)))]
    exact ih fun t ht => h t (List.mem_cons_of_mem _ ht)

/-- Of the check of a driver that keeps the rules, the width is left to ask for. -/
theorem checkDriver_eq {driven : List SignalId} {domain : Domain} {a : Assign} (hnew : a.target ∉ driven)
    (ha : n.DriverOk domain a) : n.checkDriver driven domain a = Attempt.ofChecked a.value.ensureSized := by
  obtain ⟨⟨s, hs, hkind⟩, hnarrow⟩ := ha
  have hinput : s.kind ≠ .input := by
    intro he
    rw [he] at hkind
    cases hkind
  rw [checkDriver, Arena.get_ok.2 hs]
  show (if a.target ∈ driven then _ else _) = _
  rw [if_neg hnew, if_neg hinput, hkind]
  show (do Attempt.ofChecked a.value.ensureSized; if maxWidth < a.value.width then _ else pure ()) = _
  rw [if_neg (Nat.not_lt.2 hnarrow)]
  cases a.value.ensureSized <;> rfl

theorem checkDrivers_eq {l : List (Domain × Assign)} : ∀ {driven : List SignalId},
    (l.map fun p => p.2.target).Nodup → (∀ p ∈ l, p.2.target ∉ driven) → (∀ p ∈ l, n.DriverOk p.1 p.2) →
    n.checkDrivers driven l = Attempt.ofChecked (l.forM fun p => p.2.value.ensureSized) := by
  induction l with
  | nil => exact fun _ _ _ => rfl
  | cons p l ih =>
    intro driven hnodup hnew hall
    obtain ⟨domain, a⟩ := p
    rw [List.map_cons, List.nodup_cons] at hnodup
    have hrest : ∀ q ∈ l, q.2.target ∉ a.target :: driven := by
      intro q hq hmem
      rcases List.mem_cons.1 hmem with he | hmem
      · exact hnodup.1 (he ▸ List.mem_map_of_mem (f := fun p : Domain × Assign => p.2.target) hq)
      · exact hnew q (List.mem_cons_of_mem _ hq) hmem
    rw [checkDrivers, checkDriver_eq (hnew _ (List.mem_cons_self ..)) (hall _ (List.mem_cons_self ..)),
      ih hnodup.2 hrest fun q hq => hall q (List.mem_cons_of_mem _ hq)]
    show _ = Attempt.ofChecked (a.value.ensureSized >>= fun _ => l.forM fun p => p.2.value.ensureSized)
    cases a.value.ensureSized <;> rfl

/-- What the check asks of signals and drivers, but for the widths of expressions. -/
structure Regular (n : Netlist) : Prop where
  narrow : ∀ s ∈ n.signals.toList, s.width ≤ maxWidth
  distinct : ((n.comb ++ n.sync).map (·.target)).Nodup
  comb : ∀ a ∈ n.comb, n.DriverOk .comb a
  sync : ∀ a ∈ n.sync, n.DriverOk .sync a

theorem Regular.validate (h : n.Regular) :
    n.validate = Attempt.ofChecked (n.drivers.forM fun p => p.2.value.ensureSized) := by
  unfold Netlist.validate
  rw [checkWidths_narrow h.narrow]
  refine checkDrivers_eq (l := n.drivers) ?_ (fun _ _ hmem => nomatch hmem) fun p hp => ?_
  · have := h.distinct
    rw [drivers, List.map_append, List.map_map, List.map_map]
    rwa [List.map_append] at this
  · rcases List.mem_append.1 hp with hp | hp
    · obtain ⟨a, ha, rfl⟩ := List.mem_map.1 hp
      exact h.comb a ha
    · obtain ⟨a, ha, rfl⟩ := List.mem_map.1 hp
      exact h.sync a ha

theorem forM_ensureSized {l : List (Domain × Assign)} :
    (l.forM fun p => p.2.value.ensureSized) = .ok () ↔ ∀ p ∈ l, p.2.value.sized = true := by
  induction l with
  | nil => exact ⟨fun _ => List.forall_mem_nil _, fun _ => rfl⟩
  | cons p l ih =>
    rw [List.forall_mem_cons, ← ih]
    show (p.2.value.ensureSized >>= fun _ => l.forM fun p => p.2.value.ensureSized) = .ok () ↔ _
    rw [except_bind_ok]
    exact ⟨fun ⟨_, hp, hl⟩ => ⟨Expr.ensureSized_iff.1 hp, hl⟩, fun ⟨hp, hl⟩ => ⟨(), Expr.ensureSized_iff.2 hp, hl⟩⟩

/-- So such a netlist passes where all its drivers have a width. -/
theorem Regular.validate_gives (h : n.Regular) :
    Attempt.Gives n.validate () ↔ ∀ a ∈ n.comb ++ n.sync, a.value.sized = true := by
  rw [h.validate, Attempt.gives_ofChecked, forM_ensureSized, drivers, List.forall_mem_append, List.forall_mem_append,
    List.forall_mem_map, List.forall_mem_map]

end Netlist

namespace Drivers

variable {n : Netlist} {assigns : List GuardedAssign}

theorem mem_targets_iff {domain : Domain} {x : SignalId} : x ∈ targets n assigns domain ↔
    x < n.signals.size ∧ ∃ a ∈ assigns, a.target = x ∧ a.domain = domain := by
  simp only [targets, List.mem_filter, List.mem_range, List.any_eq_true, Bool.and_eq_true, beq_iff_eq]

theorem accepts_unique {x : SignalId} {c c' : Domain} (h : n.Accepts x c) (h' : n.Accepts x c') : c = c' := by
  obtain ⟨s, hs, hc⟩ := h
  obtain ⟨s', hs', hc'⟩ := h'
  obtain rfl : s = s' := Option.some.inj (hs.symm.trans hs')
  revert hc hc'
  cases s.kind <;> cases c <;> cases c' <;> simp [Netlist.SignalKind.accepts]

theorem driver_ok (hnarrow : ∀ x s, n.signals.get? x = some s → s.width ≤ maxWidth)
    (hdomain : ∀ a ∈ assigns, n.Accepts a.target a.domain) {domain : Domain} {x : SignalId}
    (hx : x ∈ targets n assigns domain) : (build n assigns).DriverOk domain (driver n assigns domain x) := by
  obtain ⟨-, a, ha, rfl, rfl⟩ := mem_targets_iff.1 hx
  obtain ⟨s, hs, hkind⟩ := hdomain a ha
  refine ⟨⟨s, hs, hkind⟩, ?_⟩
  rw [width_driver, Netlist.widthOf_eq hs]
  exact hnarrow _ s hs

/-- What is built from assignments in the right domains keeps the rules. -/
theorem build_regular (hcomb : n.comb = []) (hsync : n.sync = [])
    (hnarrow : ∀ x s, n.signals.get? x = some s → s.width ≤ maxWidth)
    (hdomain : ∀ a ∈ assigns, n.Accepts a.target a.domain) : (build n assigns).Regular := by
  have hnodup : ∀ domain, (targets n assigns domain).Nodup := fun _ => List.nodup_range.filter _
  refine ⟨fun s hs => ?_, ?_, fun a ha => ?_, fun a ha => ?_⟩
  · obtain ⟨x, hx⟩ := Arena.mem_toList.1 hs
    exact hnarrow x s hx
  · have heq : ((build n assigns).comb ++ (build n assigns).sync).map (·.target) =
        targets n assigns .comb ++ targets n assigns .sync := by
      simp only [build, hcomb, hsync, List.nil_append, List.map_append, List.map_map]
      congr 1 <;> exact List.map_id' _
    rw [heq, List.nodup_append]
    refine ⟨hnodup _, hnodup _, fun x hx y hy hxy => ?_⟩
    subst hxy
    obtain ⟨-, a, ha, rfl, hac⟩ := mem_targets_iff.1 hx
    obtain ⟨-, b, hb, hab, hbc⟩ := mem_targets_iff.1 hy
    have := accepts_unique (hdomain a ha) (hab ▸ hdomain b hb)
    rw [hac, hbc] at this
    cases this
  · simp only [build, hcomb, List.nil_append, List.mem_map] at ha
    obtain ⟨x, hx, rfl⟩ := ha
    exact driver_ok hnarrow hdomain hx
  · simp only [build, hsync, List.nil_append, List.mem_map] at ha
    obtain ⟨x, hx, rfl⟩ := ha
    exact driver_ok hnarrow hdomain hx

end Drivers

end Interlock
