import Interlock.CallLogic
import Interlock.Proofs.Draft.Callees
import Interlock.Proofs.Draft.Nodes
import Interlock.Proofs.Draft.Trial
import Interlock.Proofs.Reach.Loops

/-! The call map is exact. It has one entry for each transaction and each method to which its calls lead, with the
callers of a way between them, and the entries of a method come in the order in which its transactions were
declared. A design whose calls lead into a loop has no call map. -/

namespace Interlock

namespace Design

variable {d : Design}

instance : DecidableRel d.Calls := fun c m =>
  decidable_of_iff (m ∈ (d.node c).calls.map (·.1) ∧ (d.node m).method?.isSome = true) <| by
    simp [Calls, Option.isSome_iff_exists]

theorem Sound.transactions_ascending (h : d.Sound) : d.transactions.Pairwise (· < ·) := by
  have hids : (d.nodeList.map (·.id)).Pairwise (· < ·) := by
    rw [h.nodeList_ids]
    exact List.pairwise_lt_range
  exact hids.sublist (List.filter_sublist.map _)

theorem Sound.transactions_nodup (h : d.Sound) : d.transactions.Nodup :=
  h.transactions_ascending.imp fun h => Nat.ne_of_lt h

end Design

namespace CallMap

variable {d : Design} {map map' : CallMap}

/-! ### The order of the entries -/

/-- The entries come in the order of their transactions, and `t` may be the next one. -/
def UpTo (map : CallMap) (t : NodeId) : Prop := (map.reaches.map (·.transaction) ++ [t]).Pairwise (· ≤ ·)

theorem UpTo.next {t u : NodeId} (h : map.UpTo t) (htu : t ≤ u) : map.UpTo u := by
  obtain ⟨hall, -, hle⟩ := List.pairwise_append.1 h
  refine List.pairwise_append.2 ⟨hall, List.pairwise_singleton _ _, fun x hx y hy => ?_⟩
  rw [List.mem_singleton.1 hy]
  exact Nat.le_trans (hle x hx t (List.mem_singleton_self t)) htu

theorem add_upTo {r : Reach} (h : map.add d r = .ok map') (hr : map.UpTo r.transaction) :
    map'.UpTo r.transaction := by
  unfold UpTo at hr ⊢
  rcases add_ok_iff.1 h with ⟨-, rfl⟩ | ⟨_, -, -, rfl⟩
  · rw [List.map_append, List.map_singleton]
    refine List.pairwise_append.2 ⟨hr, List.pairwise_singleton _ _, fun x hx y hy => ?_⟩
    rw [List.mem_singleton.1 hy]
    rcases List.mem_append.1 hx with hx | hx
    · exact (List.pairwise_append.1 hr).2.2 x hx _ (List.mem_singleton_self _)
    · exact Nat.le_of_eq (List.mem_singleton.1 hx)
  · have hsame : (map.reaches.map (narrowed r)).map (·.transaction) = map.reaches.map (·.transaction) := by
      rw [List.map_map]
      exact List.map_congr_left fun x _ => (narrowed_same r x).1
    rwa [hsame]

theorem visit_upTo {t : NodeId} (h : Attempt.Gives (visit d t (d.nodes.size + 1) [] [] map) map')
    (hmap : map.UpTo t) : map'.UpTo t := by
  have hwalk : Walks d t (fun _ _ => True) (fun map map' => map.UpTo t → map'.UpTo t) fun _ _ _ => True :=
    ⟨fun _ h => h, fun _ _ _ h h' hmap => h' (h hmap), fun _ _ _ _ _ h => h, fun _ _ _ _ _ _ _ _ => trivial,
      fun _ _ _ _ _ _ _ _ _ _ _ _ _ _ hadd => ⟨add_upTo hadd, trivial⟩⟩
  exact (visit_walk hwalk _ [] [] map map' h trivial (fun _ _ h => nomatch h) List.nodup_nil
    (fun _ hc => nomatch hc) rfl).1 hmap

theorem build_ascending (hd : d.Sound) (h : Attempt.Gives (build d) map) :
    (map.reaches.map (·.transaction)).Pairwise (· ≤ ·) := by
  unfold build at h
  have hstart : ∀ t ∈ d.transactions, ({} : CallMap).UpTo t := fun t _ => List.pairwise_singleton _ t
  -- While transactions remain, each of them may still be the next one.
  suffices hfold : ∀ (ts : List NodeId) (map₀ : CallMap), ts.Pairwise (· < ·) → (∀ t ∈ ts, map₀.UpTo t) →
      (map₀.reaches.map (·.transaction)).Pairwise (· ≤ ·) →
      Attempt.Gives (ts.foldlM (fun map t => visit d t (d.nodes.size + 1) [] [] map) map₀) map →
      (map.reaches.map (·.transaction)).Pairwise (· ≤ ·) from
    hfold d.transactions {} hd.transactions_ascending hstart List.Pairwise.nil h
  intro ts
  induction ts with
  | nil =>
    intro map₀ _ _ hall hgives
    rw [List.foldlM_nil, Attempt.gives_pure] at hgives
    exact hgives ▸ hall
  | cons t ts ih =>
    intro map₀ hts hup _ hgives
    rw [List.foldlM_cons, Attempt.gives_bind] at hgives
    obtain ⟨map₁, hvisit, hgives⟩ := hgives
    obtain ⟨hlt, hts⟩ := List.pairwise_cons.1 hts
    have hmap₁ := visit_upTo hvisit (hup t (List.mem_cons_self ..))
    exact ih map₁ hts (fun u hu => hmap₁.next (Nat.le_of_lt (hlt u hu))) (List.pairwise_append.1 hmap₁).1 hgives

/-! ### Exactness -/

theorem mem_transactionsOf_iff {t m : NodeId} : t ∈ map.transactionsOf m ↔ m ∈ map.methodsOf t := by
  rw [mem_methodsOf]
  simp [transactionsOf, and_assoc, and_comm]

theorem Describes.mem_methodsOf_iff (h : map.Describes d) {t m : NodeId} :
    m ∈ map.methodsOf t ↔ t ∈ d.transactions ∧ Relation.TransGen d.Calls t m := by
  constructor
  · intro hm
    obtain ⟨r, hr, rfl, rfl⟩ := mem_methodsOf.1 hm
    exact ⟨(h.right r hr).transaction, Design.exists_way_iff.1 ⟨_, (h.right r hr).way⟩⟩
  · rintro ⟨ht, hreach⟩
    obtain ⟨callers, hway⟩ := Design.exists_way_iff.2 hreach
    exact h.mem_of_way ht hway

/-- What an exact call map says of the calls of a design. -/
structure Exact (map : CallMap) (d : Design) : Prop where
  methods : ∀ t m, m ∈ map.methodsOf t ↔ t ∈ d.transactions ∧ Relation.TransGen d.Calls t m
  once : ∀ t, (map.methodsOf t).Nodup
  inverse : ∀ t m, t ∈ map.transactionsOf m ↔ m ∈ map.methodsOf t
  /-- Nodes are numbered as they are created. -/
  inOrder : ∀ m, (map.transactionsOf m).Pairwise (· < ·)
  readiness : ∀ t m, (∃ condition, CallLogic.conditionOf map d t m = .ok condition) ↔ m ∈ map.methodsOf t
  ancestors : ∀ t m, m ∈ map.methodsOf t → ∃ callers, map.ancestors t m = m :: callers ∧ d.Way t callers m
  others : ∀ t m, m ∉ map.methodsOf t → map.ancestors t m = []

/-- Entries that agree in the transaction or in the method are told apart by the other. -/
theorem Keyed.nodup_map (h : map.Keyed) {p : Reach → Bool} {f : Reach → NodeId}
    (hf : ∀ r r', p r = true → p r' = true → f r = f r' → r.transaction = r'.transaction ∧ r.method = r'.method) :
    ((map.reaches.filter p).map f).Nodup := by
  have hkeys : ((map.reaches.filter p).map fun r => (r.transaction, r.method)).Nodup :=
    h.sublist (List.filter_sublist.map _)
  refine List.Nodup.map_on (fun r hr r' hr' he => ?_) (List.Nodup.of_map _ hkeys)
  obtain ⟨ht, hm⟩ := hf r r' (List.mem_filter.1 hr).2 (List.mem_filter.1 hr').2 he
  exact List.inj_on_of_nodup_map hkeys hr hr' (Prod.ext ht hm)

theorem Keyed.nodup_methodsOf (h : map.Keyed) (t : NodeId) : (map.methodsOf t).Nodup :=
  h.nodup_map fun _ _ hr hr' hm => ⟨(eq_of_beq hr).trans (eq_of_beq hr').symm, hm⟩

theorem Keyed.nodup_transactionsOf (h : map.Keyed) (m : NodeId) : (map.transactionsOf m).Nodup :=
  h.nodup_map fun _ _ hr hr' ht => ⟨ht, (eq_of_beq hr).trans (eq_of_beq hr').symm⟩

theorem Describes.exact (h : map.Describes d) (hasc : (map.reaches.map (·.transaction)).Pairwise (· ≤ ·)) :
    map.Exact d := by
  refine ⟨fun t m => h.mem_methodsOf_iff, h.keyed.nodup_methodsOf, fun t m => mem_transactionsOf_iff, fun m => ?_,
    fun t m => ?_, fun t m hm => ?_, fun t m hm => ?_⟩
  · have hle : (map.transactionsOf m).Pairwise (· ≤ ·) := hasc.sublist (List.filter_sublist.map _)
    exact hle.imp₂ (fun _ _ hle hne => Nat.lt_of_le_of_ne hle hne) (h.keyed.nodup_transactionsOf m)
  · rw [← exists_find?_iff, CallLogic.conditionOf]
    cases map.find? t m <;> simp
  · obtain ⟨r, hr⟩ := exists_find?_iff.2 hm
    obtain ⟨rfl, rfl⟩ := find?_key hr
    refine ⟨r.callers, ?_, (h.right r (List.mem_of_find?_eq_some hr)).way⟩
    rw [ancestors, hr]
  · cases hfind : map.find? t m with
    | some r => exact absurd (exists_find?_iff.1 ⟨r, hfind⟩) hm
    | none => rw [ancestors, hfind]

end CallMap

theorem Draft.Recorded.argumentsFit {d : Draft} (h : d.Recorded) : CallMap.ArgumentsFit d.design := by
  intro c m sites info hcalls hinfo s hs
  obtain ⟨n, hn, -⟩ := Design.get?_of_calls hcalls
  rw [Design.node_of_get? hn] at hcalls
  refine h.callable.arg_width hinfo (c := c) ?_
  rwa [Design.node_of_get? hn, (h.tidy hn).sitesTo hcalls]

/-- The walk over the calls of a recorded design comes to an end, since no limit beyond the number of nodes changes
it. The map that it gives is exact; calls that lead into a loop give an error, unless a validator stops the walk on
an argument of the right width; and a loop that is reported is one. -/
theorem call_map_exact {d : Draft} (hd : d.Recorded) :
    (∀ limit, d.design.nodes.size < limit → CallMap.buildWithin limit d.design = CallMap.build d.design) ∧
      (∀ map, Attempt.Gives (CallMap.build d.design) map → map.Exact d.design) ∧
      (CallMap.Looping d.design → (∃ e, (CallMap.build d.design).run = .ok (.error e)) ∨
        ∃ fault, (CallMap.build d.design).run = .error fault ∧ CallMap.ValidatorStops d.design fault) ∧
      Attempt.Raises (CallMap.Looped d.design) (CallMap.build d.design) :=
  ⟨fun _ => CallMap.buildWithin_eq, fun _ h => (CallMap.build_ok h).exact (CallMap.build_ascending hd.sound h),
    CallMap.build_error hd.argumentsFit, CallMap.build_looped⟩

namespace Draft

/-- Two transactions and two methods that both call a third: the second transaction reaches it on one way, the
first on two. -/
def diamond : List Action :=
  [.transaction "A" .generated, .transaction "B" .generated, .method { name := "x" } .generated,
    .method { name := "y", nonexclusive := true } .generated,
    .method { name := "m", nonexclusive := true } .generated, .openModule "",
    .inModule 0 (.openMethod 4 .one none .generated), .inModule 0 .leaveBody,
    .inModule 0 (.openMethod 2 .one none .generated),
    .inModule 0 (.call 4 (.zero 0) .one .generated), .inModule 0 .leaveBody,
    .inModule 0 (.openMethod 3 .one none .generated),
    .inModule 0 (.call 4 (.zero 0) .one .generated), .inModule 0 .leaveBody,
    .inModule 0 (.openTransaction 1 .one .generated),
    .inModule 0 (.call 3 (.zero 0) .one .generated), .inModule 0 .leaveBody,
    .inModule 0 (.openTransaction 0 .one .generated),
    .inModule 0 (.call 2 (.zero 0) .one .generated),
    .inModule 0 (.call 3 (.zero 0) .one .generated), .inModule 0 .leaveBody]

/-- A transaction that calls a method that calls itself. -/
def circular : List Action :=
  [.transaction "A" .generated, .method { name := "x" } .generated, .openModule "",
    .inModule 0 (.openMethod 1 .one none .generated),
    .inModule 0 (.call 1 (.zero 0) .one .generated), .inModule 0 .leaveBody,
    .inModule 0 (.openTransaction 0 .one .generated),
    .inModule 0 (.call 1 (.zero 0) .one .generated), .inModule 0 .leaveBody]

end Draft

/-- `A` reaches `m` first by `x`, and `B` reaches it by `y`. The loop of the other design is reported. -/
theorem call_map_exact_of_diamond :
    (∃ map, Attempt.Gives (CallMap.build (Draft.of Draft.diamond).design) map ∧
      map.Exact (Draft.of Draft.diamond).design ∧ map.methodsOf 0 = [2, 4, 3] ∧ map.transactionsOf 4 = [0, 1] ∧
      map.ancestors 0 4 = [4, 2] ∧ map.ancestors 1 4 = [4, 3]) ∧
    ∃ e, (CallMap.build (Draft.of Draft.circular).design).run = .ok (.error e) ∧
      e = .methodRecursion "x" ["x", "x"] .generated ∧ CallMap.Looped (Draft.of Draft.circular).design e := by
  have hrec : (Draft.of Draft.diamond).Recorded := Draft.recorded_of (by decide +kernel)
  have hrec' : (Draft.of Draft.circular).Recorded := Draft.recorded_of (by decide +kernel)
  have hmap : ∃ map ∈ (CallMap.build (Draft.of Draft.diamond).design).result?,
      map.methodsOf 0 = [2, 4, 3] ∧ map.transactionsOf 4 = [0, 1] ∧ map.ancestors 0 4 = [4, 2] ∧
      map.ancestors 1 4 = [4, 3] := by
    decide +kernel
  have hloop : CallMap.Looping (Draft.of Draft.circular).design :=
    ⟨0, by decide +kernel, 1, .single (by decide +kernel), .single (by decide +kernel)⟩
  have herror : (CallMap.build (Draft.of Draft.circular).design).run =
      .ok (.error (.methodRecursion "x" ["x", "x"] .generated)) := by
    decide +kernel
  obtain ⟨map, hmap, hmethods, htransactions, hfirst, hsecond⟩ := hmap
  have hgives := Attempt.result?_eq_some.1 hmap
  obtain ⟨-, hexact, -, -⟩ := call_map_exact hrec
  obtain ⟨-, -, hfails, hlooped⟩ := call_map_exact hrec'
  refine ⟨⟨map, hgives, hexact map hgives, hmethods, htransactions, hfirst, hsecond⟩, ?_⟩
  obtain ⟨e, he⟩ | ⟨fault, hfault, -⟩ := hfails hloop
  · exact ⟨e, he, Except.error.inj (Except.ok.inj (he.symm.trans herror)), hlooped e he⟩
  · exact nomatch hfault.symm.trans herror

end Interlock
