import Interlock.Netlist.Check
import Interlock.Proofs.Arena
import Interlock.Proofs.Digraph.Outcome
import Mathlib.Data.List.Nodup

/-! Netlists that keep the rules: each signal has one driver at most, in the domain of its kind, and
the combinational drivers are put in an order in which each comes after those that it reads. -/

namespace Interlock.Netlist

variable {n : Netlist}

/-- What the check of one driver lets pass. -/
structure DriverOk (n : Netlist) (domain : Domain) (a : Assign) : Prop where
  target : ∃ s, n.signals.get? a.target = some s ∧ SignalKind.accepts s.kind domain = true
  narrow : a.value.width ≤ maxWidth

theorem DriverOk.wire {a : Assign} (h : n.DriverOk .comb a) {s : Signal} (hs : n.signals.get? a.target = some s) :
    s.kind = .wire := by
  obtain ⟨s', hs', haccepts⟩ := h.target
  obtain rfl : s = s' := Option.some.inj (hs.symm.trans hs')
  cases hk : s.kind <;> simp_all [SignalKind.accepts]

theorem DriverOk.reg {a : Assign} (h : n.DriverOk .sync a) {s : Signal} (hs : n.signals.get? a.target = some s) :
    s.kind = .reg := by
  obtain ⟨s', hs', haccepts⟩ := h.target
  obtain rfl : s = s' := Option.some.inj (hs.symm.trans hs')
  cases hk : s.kind <;> simp_all [SignalKind.accepts]

theorem checkDriver_ok {driven : List SignalId} {domain : Domain} {a : Assign}
    (h : Attempt.Gives (n.checkDriver driven domain a) ()) :
    a.target ∉ driven ∧ n.DriverOk domain a := by
  unfold checkDriver at h
  simp only [Attempt.gives_bind, Attempt.gives_ofChecked, Attempt.gives_guard, Arena.get_ok] at h
  obtain ⟨s, hs, hnew, _, hdomain, _, _, hw⟩ := h
  have hw : ¬ maxWidth < a.value.width := by
    intro hlt
    simp [hlt] at hw
  exact ⟨hnew, ⟨s, hs, by simpa using hdomain⟩, Nat.le_of_not_lt hw⟩

theorem checkDrivers_ok {driven : List SignalId} {l : List (Domain × Assign)}
    (h : Attempt.Gives (n.checkDrivers driven l) ()) :
    (l.map fun p => p.2.target).Nodup ∧ (∀ p ∈ l, p.2.target ∉ driven) ∧
      ∀ p ∈ l, n.DriverOk p.1 p.2 := by
  induction l generalizing driven with
  | nil => simp
  | cons p ps ih =>
    obtain ⟨domain, a⟩ := p
    simp only [checkDrivers, Attempt.gives_bind] at h
    obtain ⟨_, ha, hps⟩ := h
    obtain ⟨hnew, hok⟩ := checkDriver_ok ha
    obtain ⟨hnodup, hdriven, hall⟩ := ih hps
    refine ⟨?_, ?_, ?_⟩
    · rw [List.map_cons, List.nodup_cons]
      refine ⟨fun hmem => ?_, hnodup⟩
      obtain ⟨q, hq, he⟩ := List.mem_map.1 hmem
      exact hdriven q hq (by simp [he])
    · intro q hq
      rcases List.mem_cons.1 hq with rfl | hq
      · exact hnew
      · exact fun hd => hdriven q hq (List.mem_cons_of_mem _ hd)
    · intro q hq
      rcases List.mem_cons.1 hq with rfl | hq
      · exact hok
      · exact hall q hq

/-- What the rules say of the drivers of a netlist. -/
structure Valid (n : Netlist) : Prop where
  distinct : (n.comb.map (·.target)).Nodup
  comb : ∀ a ∈ n.comb, n.DriverOk .comb a
  sync : ∀ a ∈ n.sync, n.DriverOk .sync a

/-- Only wires are driven by combinational logic. -/
theorem Valid.not_comb (hn : n.Valid) {i : SignalId} {s : Signal} (hs : n.signals.get? i = some s)
    (hkind : s.kind ≠ .wire) : i ∉ n.comb.map (·.target) := by
  intro hi
  obtain ⟨a, ha, rfl⟩ := List.mem_map.1 hi
  exact hkind ((hn.comb a ha).wire hs)

/-- Only registers are driven at clock edges. -/
theorem Valid.not_sync (hn : n.Valid) {i : SignalId} {s : Signal} (hs : n.signals.get? i = some s)
    (hkind : s.kind ≠ .reg) : i ∉ n.sync.map (·.target) := by
  intro hi
  obtain ⟨a, ha, rfl⟩ := List.mem_map.1 hi
  exact hkind ((hn.sync a ha).reg hs)

theorem validate_ok (h : Attempt.Gives n.validate ()) : n.Valid := by
  simp only [validate, Attempt.gives_bind] at h
  obtain ⟨_, _, h⟩ := h
  obtain ⟨hnodup, -, hall⟩ := checkDrivers_ok h
  unfold drivers at hnodup hall
  rw [List.map_append, List.map_map, List.map_map] at hnodup
  refine ⟨(List.nodup_append.1 hnodup).1, fun a ha => ?_, fun a ha => ?_⟩
  · exact hall (.comb, a) (List.mem_append_left _ (List.mem_map_of_mem ha))
  · exact hall (.sync, a) (List.mem_append_right _ (List.mem_map_of_mem ha))

/-- A target tells its driver. -/
theorem Valid.comb_eq (h : n.Valid) {a b : Assign} (ha : a ∈ n.comb) (hb : b ∈ n.comb)
    (he : a.target = b.target) : a = b :=
  List.inj_on_of_nodup_map h.distinct ha hb he

/-! ### The order of the combinational drivers -/

/-- The wires that a driver reads among those that are driven. -/
def drivenReads (n : Netlist) (a : Assign) : List SignalId :=
  a.value.signals.filter (· ∈ n.comb.map (·.target))

theorem mem_drivenReads {a : Assign} {i : SignalId} :
    i ∈ n.drivenReads a ↔ i ∈ a.value.reads ∧ i ∈ n.comb.map (·.target) := by
  rw [drivenReads, List.mem_filter, Expr.signals, List.mem_eraseDups, decide_eq_true_eq]

theorem addEdges_spec (target : SignalId) (l : List SignalId) (g : Digraph Unit) :
    (∀ x, x ∈ (l.foldl (fun g dep => g.addEdge dep target ()) g).nodes ↔
      x ∈ g.nodes ∨ x ∈ l ∨ (l ≠ [] ∧ x = target)) ∧
    ∀ x y, (l.foldl (fun g dep => g.addEdge dep target ()) g).Edge x y ↔
      g.Edge x y ∨ (x ∈ l ∧ y = target) := by
  induction l generalizing g with
  | nil => simp
  | cons d ds ih =>
    obtain ⟨hn, he⟩ := ih (g.addEdge d target ())
    refine ⟨fun x => ?_, fun x y => ?_⟩
    · rw [List.foldl_cons, hn, Digraph.mem_addEdge, List.mem_cons]
      have : (d :: ds ≠ []) := by simp
      tauto
    · rw [List.foldl_cons, he, Digraph.edge_addEdge, List.mem_cons]
      tauto

theorem dependencies_spec :
    (∀ x, x ∈ n.dependencies.nodes ↔ x ∈ n.comb.map (·.target)) ∧
    ∀ x y, n.dependencies.Edge x y ↔ ∃ a ∈ n.comb, a.target = y ∧ x ∈ n.drivenReads a := by
  have step : ∀ (l : List Assign) (g : Digraph Unit), (∀ a ∈ l, a ∈ n.comb) →
      (∀ x, x ∈ g.nodes ↔ x ∈ n.comb.map (·.target)) →
      (∀ x, x ∈ (l.foldl (fun g a => (n.drivenReads a).foldl (fun g dep => g.addEdge dep a.target ()) g)
        g).nodes ↔ x ∈ n.comb.map (·.target)) ∧
      ∀ x y, (l.foldl (fun g a => (n.drivenReads a).foldl (fun g dep => g.addEdge dep a.target ()) g)
        g).Edge x y ↔ g.Edge x y ∨ ∃ a ∈ l, a.target = y ∧ x ∈ n.drivenReads a := by
    intro l
    induction l with
    | nil => exact fun g _ hg => ⟨hg, by simp⟩
    | cons a as ih =>
      intro g hl hg
      obtain ⟨hn, he⟩ := addEdges_spec a.target (n.drivenReads a) g
      have ha : a.target ∈ n.comb.map (·.target) := List.mem_map_of_mem (hl a (List.mem_cons_self ..))
      obtain ⟨hn', he'⟩ := ih _ (fun b hb => hl b (List.mem_cons_of_mem _ hb)) fun x => by
        rw [hn, hg]
        constructor
        · rintro (h | h | ⟨-, rfl⟩)
          · exact h
          · exact (mem_drivenReads.1 h).2
          · exact ha
        · exact .inl
      refine ⟨hn', fun x y => ?_⟩
      rw [List.foldl_cons, he', he, or_assoc]
      simp only [List.mem_cons, exists_eq_or_imp]
      tauto
  obtain ⟨hn, he⟩ := step n.comb (.ofNodes (n.comb.map (·.target))) (fun _ h => h)
    fun x => Digraph.mem_ofNodes
  refine ⟨hn, fun x y => (he x y).trans ?_⟩
  have : ¬ (Digraph.ofNodes (n.comb.map (·.target)) : Digraph Unit).Edge x y := by
    rintro ⟨l, h⟩
    rw [Digraph.edges_ofNodes] at h
    exact nomatch h
  tauto

theorem dependencies_within :
    ∀ x y, n.dependencies.Edge x y → x ∈ n.dependencies.nodes ∧ y ∈ n.dependencies.nodes := by
  intro x y hxy
  obtain ⟨hnodes, hedges⟩ := n.dependencies_spec
  obtain ⟨a, ha, rfl, hx⟩ := (hedges x y).1 hxy
  exact ⟨(hnodes x).2 (mem_drivenReads.1 hx).2, (hnodes _).2 (List.mem_map_of_mem ha)⟩

theorem combOrder_gives_iff {order : List Nat} :
    Attempt.Gives n.combOrder order ↔
      ∃ ids, n.dependencies.topologicalOrder = .ok ids ∧ ids.map n.lastDriver = order := by
  unfold combOrder
  split
  · rename_i ids hids
    rw [Attempt.gives_pure, hids]
    constructor
    · exact fun h => ⟨ids, rfl, h⟩
    · rintro ⟨_, h, rfl⟩
      rw [Except.ok.inj h]
  · rename_i x hx
    simp only [Attempt.gives_bind, Attempt.not_gives_throw, and_false, exists_false, hx, reduceCtorEq, false_and]

/-- Every position of a driver once, and each after those of the wires that its driver reads. -/
structure Levelization (n : Netlist) (order : List Nat) : Prop where
  perm : order.Perm (List.range n.comb.length)
  forward : ∀ pre i post, order = pre ++ i :: post → ∀ a, n.comb[i]? = some a →
    ∀ j b, n.comb[j]? = some b → b.target ∈ a.value.reads → j ∈ pre

section

variable (hdistinct : (n.comb.map (·.target)).Nodup)
include hdistinct

theorem lastDriver_spec {a : Assign} (ha : a ∈ n.comb) : n.comb[n.lastDriver a.target]? = some a := by
  have hmem : a.target ∈ n.comb.reverse.map (·.target) :=
    List.mem_map_of_mem (List.mem_reverse.2 ha)
  have hlt := List.idxOf_lt_length_of_mem hmem
  have hget := List.getElem_idxOf hlt
  rw [List.length_map, List.length_reverse] at hlt
  rw [List.getElem_map, List.getElem_reverse] at hget
  have hk : n.lastDriver a.target < n.comb.length := by
    unfold lastDriver
    omega
  rw [List.getElem?_eq_getElem hk, Option.some.injEq]
  exact List.inj_on_of_nodup_map hdistinct (List.getElem_mem hk) ha hget

/-- The position of a driver. -/
theorem lastDriver_eq {i : Nat} {a : Assign} (ha : n.comb[i]? = some a) : n.lastDriver a.target = i := by
  have hspec := lastDriver_spec hdistinct (List.mem_of_getElem? ha)
  have hi : i < n.comb.length := (List.getElem?_eq_some_iff.1 ha).1
  exact ((List.getElem?_inj hi hdistinct.of_map).1 (ha.trans hspec.symm)).symm

theorem combOrder_levelization {order : List Nat} (ho : Attempt.Gives n.combOrder order) : n.Levelization order := by
  obtain ⟨hnodes, hedges⟩ := n.dependencies_spec
  obtain ⟨ids, hids, rfl⟩ := combOrder_gives_iff.1 ho
  have hs := Digraph.topologicalOrder_sorted (fun x y hxy => (dependencies_within x y hxy).2) hids
  have hperm : ids.Perm (n.comb.map (·.target)) := by
    rcases Digraph.topologicalOrder_outcome dependencies_within with ⟨_, h, hnodup⟩ | ⟨_, h, -⟩
    · obtain rfl := Except.ok.inj (hids.symm.trans h)
      exact (List.perm_ext_iff_of_nodup hnodup hdistinct).2 fun x =>
        ⟨fun hx => (hnodes x).1 (hs.within x hx), fun hx => hs.covers x ((hnodes x).2 hx)⟩
    · cases hids.symm.trans h
  refine ⟨?_, fun pre i post he a ha j b hb hread => ?_⟩
  · refine (hperm.map n.lastDriver).trans (.of_eq (List.ext_getElem (by simp) fun i hi _ => ?_))
    rw [List.getElem_map, List.getElem_map, List.getElem_range]
    exact lastDriver_eq hdistinct (List.getElem?_eq_getElem _)
  · -- The place of a position in the order is the place of its target.
    obtain ⟨before, rest, rfl, rfl, hrest⟩ := List.map_eq_append_iff.1 he
    obtain ⟨t, after, rfl, ht, rfl⟩ := List.map_eq_cons_iff.1 hrest
    obtain ⟨c, hc, rfl⟩ := List.mem_map.1 (hperm.mem_iff.1 (List.mem_append_right _ (List.mem_cons_self ..)))
    obtain rfl : c = a := Option.some.inj ((lastDriver_spec hdistinct hc).symm.trans (ht ▸ ha))
    have hbmem : b.target ∈ n.comb.map (·.target) := List.mem_map_of_mem (List.mem_of_getElem? hb)
    have hbefore := hs.forward before c.target after rfl b.target
      ((hedges _ _).2 ⟨c, hc, rfl, mem_drivenReads.2 ⟨hread, hbmem⟩⟩)
    exact lastDriver_eq hdistinct hb ▸ List.mem_map_of_mem hbefore

end

/-- An order of drivers in which each comes after those of the wires that it reads. -/
structure Levelled (n : Netlist) (schedule : List Assign) : Prop where
  covers : ∀ a ∈ n.comb, a ∈ schedule
  within : ∀ a ∈ schedule, a ∈ n.comb
  forward : ∀ pre a post, schedule = pre ++ a :: post →
    ∀ b ∈ n.comb, b.target ∈ a.value.reads → b ∈ pre

/-- A driver that has not had its turn drives what neither those before it read, nor it itself. -/
theorem Levelled.unread {done rest : List Assign} {a : Assign} (hl : n.Levelled (done ++ a :: rest)) (hmem : a ∉ done) :
    ∀ b ∈ done ++ [a], a.target ∉ b.value.reads := by
  intro b hb hread
  have ha : a ∈ n.comb := hl.within a (by simp)
  rcases List.mem_append.1 hb with hb | hb
  · obtain ⟨p, q, rfl⟩ := List.append_of_mem hb
    have := hl.forward p b (q ++ a :: rest) (by simp) a ha hread
    exact hmem (by simp [this])
  · rw [List.mem_singleton.1 hb] at hread
    exact hmem (hl.forward done a rest rfl a ha hread)

/-- The drivers at the positions of a levelization. -/
theorem Levelization.levelled {order : List Nat} (h : n.Levelization order) :
    n.Levelled (order.filterMap fun i => n.comb[i]?) := by
  refine ⟨fun a ha => ?_, fun a ha => ?_, fun pre a post he b hb hread => ?_⟩
  · obtain ⟨i, hi⟩ := List.mem_iff_getElem?.1 ha
    have hlt : i < n.comb.length := (List.getElem?_eq_some_iff.1 hi).1
    exact List.mem_filterMap.2 ⟨i, h.perm.mem_iff.2 (List.mem_range.2 hlt), hi⟩
  · obtain ⟨i, -, hi⟩ := List.mem_filterMap.1 ha
    exact List.mem_of_getElem? hi
  · obtain ⟨before, rest, rfl, rfl, hrest⟩ := List.filterMap_eq_append_iff.1 he
    obtain ⟨skipped, i, after, rfl, hskip, hi, rfl⟩ := List.filterMap_eq_cons_iff.1 hrest
    obtain ⟨j, hj⟩ := List.mem_iff_getElem?.1 hb
    have hmem := h.forward (before ++ skipped) i after (by simp) a hi j b hj hread
    rcases List.mem_append.1 hmem with hbefore | hskipped
    · exact List.mem_filterMap.2 ⟨j, hbefore, hj⟩
    · cases (hskip j hskipped).symm.trans hj

/-- The schedule of a netlist that keeps the rules. -/
theorem combOrder_levelled (h : n.Valid) {order : List Nat} (ho : Attempt.Gives n.combOrder order) :
    n.Levelled (order.filterMap fun i => n.comb[i]?) :=
  (combOrder_levelization h.distinct ho).levelled

end Interlock.Netlist
