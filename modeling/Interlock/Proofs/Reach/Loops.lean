import Interlock.Proofs.Reach.Ways
import Mathlib.Data.List.Chain
import Mathlib.Logic.Relation

/-! How the walk over the calls ends. No chain of calls that it follows holds a method twice, so the limit on the
length of chains never decides anything. Where calls lead in a loop the walk comes to it and ends with an error;
and where it reports a loop, there is one. -/

namespace Interlock

namespace Design

variable {d : Design} {t m x : NodeId} {callers : List NodeId}

/-- A way goes on along calls from the method to which it leads. -/
theorem Way.onto (h : d.Way t callers m) (hx : Relation.TransGen d.Calls m x) :
    ∃ inner, d.Way t (inner ++ m :: callers) x := by
  induction hx with
  | single hcall => exact ⟨[], h.extend hcall⟩
  | tail _ hcall ih =>
    obtain ⟨inner, hway⟩ := ih
    exact ⟨_ :: inner, hway.extend hcall⟩

theorem exists_way_iff : (∃ callers, d.Way t callers m) ↔ Relation.TransGen d.Calls t m := by
  constructor
  · rintro ⟨callers, h⟩
    induction h with
    | direct h => exact .single h
    | through _ h ih => exact ih.tail h
  · intro h
    induction h with
    | single h => exact ⟨[], .direct h⟩
    | tail _ h ih =>
      obtain ⟨callers, hway⟩ := ih
      exact ⟨_, hway.extend h⟩

/-- A way leads to each of its callers. -/
theorem Way.of_mem (h : d.Way t callers m) {c : NodeId} (hc : c ∈ m :: callers) : ∃ outer, d.Way t outer c := by
  rcases List.mem_cons.1 hc with rfl | hc
  · exact ⟨callers, h⟩
  · obtain ⟨inner, outer, rfl⟩ := List.append_of_mem hc
    exact ⟨outer, h.suffix⟩

theorem Way.method_of_mem (h : d.Way t callers m) {c : NodeId} (hc : c ∈ m :: callers) :
    ∃ info, (d.node c).method? = some info := by
  obtain ⟨outer, hway⟩ := h.of_mem hc
  exact hway.calls.2

/-- On a way each node calls the next one. -/
theorem Way.isChain (h : d.Way t callers m) : (t :: callers.reverse ++ [m]).IsChain d.Calls := by
  induction h with
  | direct h => exact .cons_cons h (.singleton _)
  | @through callers c m _ h ih =>
    rw [List.reverse_cons, ← List.cons_append, List.append_assoc, List.singleton_append]
    refine List.isChain_append.2 ⟨ih.left_of_append, .cons_cons h (.singleton _), fun y hy z hz => ?_⟩
    obtain rfl : c = z := Option.some.inj hz
    exact (List.isChain_append.1 ih).2.2 y hy c rfl

end Design

namespace CallMap

variable {d : Design} {map : CallMap}

/-! ### The limit -/

/-- The reached methods of every current transaction, with another limit on the length of chains. -/
def buildWithin (limit : Nat) (d : Design) : Attempt DesignError CallMap :=
  d.transactions.foldlM (fun map t => visit d t limit [] [] map) {}

/-- Any two limits beyond the chains that are still to come are the same to the walk. -/
theorem visit_limit {t : NodeId} : ∀ (limit limit' : Nat) (callers : List NodeId) (env : Bindings) (map : CallMap),
    callers.Nodup → (∀ c ∈ callers, c < d.nodes.size) → d.nodes.size < limit + callers.length →
    d.nodes.size < limit' + callers.length → visit d t limit callers env map = visit d t limit' callers env map := by
  intro limit
  induction limit with
  | zero =>
    intro limit' callers env map hnodup hlt hlimit _
    have := Design.length_le_size hnodup hlt
    omega
  | succ limit ih =>
    intro limit' callers env map hnodup hlt hlimit hlimit'
    obtain ⟨limit', rfl⟩ : ∃ n, limit' = n + 1 := by
      have := Design.length_le_size hnodup hlt
      exact ⟨limit' - 1, by omega⟩
    rw [visit, visit]
    refine foldlM_congr (fun call _ map => ?_) map
    obtain ⟨m, sites⟩ := call
    by_cases hm : m ∈ callers
    · simp only [if_pos hm]
      rfl
    simp only [if_neg hm]
    cases hinfo : (d.node m).method? with
    | none => rfl
    | some info =>
      refine bind_congr fun condition => bind_congr fun map => ?_
      refine ih limit' (m :: callers) _ map (List.nodup_cons.2 ⟨hm, hnodup⟩) (fun c hc => ?_) ?_ ?_
      · rcases List.mem_cons.1 hc with rfl | hc
        · exact Design.lt_of_method hinfo
        · exact hlt c hc
      · rw [List.length_cons]
        omega
      · rw [List.length_cons]
        omega

/-- A limit beyond the number of nodes is never met. -/
theorem buildWithin_eq {limit : Nat} (h : d.nodes.size < limit) : buildWithin limit d = build d := by
  refine foldlM_congr (fun t _ map => ?_) ({} : CallMap)
  refine visit_limit limit (d.nodes.size + 1) [] [] map List.nodup_nil (fun c hc => nomatch hc) ?_ ?_
  · exact h
  · exact Nat.lt_succ_self _

/-! ### Errors -/

/-- Adding a reached method fails only where it is a call too many. -/
theorem add_raises {E : DesignError → Prop} (hE : ∀ caller method loc prev, E (.duplicateCall caller method loc prev))
    {r : Reach} : Raises E (map.add d r) := by
  unfold add
  split
  · exact raises_ok _
  · refine raises_bind ?_ fun _ _ => raises_ok _
    unfold checkSecond
    split
    · exact raises_ok _
    · simp only
      split
      · exact raises_error (hE ..)
      · exact raises_ok _

/-- The walk raises errors about calls too many and about methods that it meets again on a way. -/
theorem visit_raises {E : DesignError → Prop} {t : NodeId}
    (hadd : ∀ caller method loc prev, E (.duplicateCall caller method loc prev))
    (hloop : ∀ callers m, d.Way t callers m → m ∈ callers →
      E (.methodRecursion (d.node m).name (loopNames d m callers) (d.node m).loc)) :
    ∀ (fuel : Nat) (callers : List NodeId) (env : Bindings) (map : CallMap),
      (∀ c rest, callers = c :: rest → d.Way t rest c) → Attempt.Raises E (visit d t fuel callers env map) := by
  intro fuel
  induction fuel with
  | zero => exact fun _ _ map _ => Attempt.raises_pure map
  | succ fuel ih =>
    intro callers env map hway
    rw [visit]
    refine Attempt.raises_foldlM (fun call hcall map => ?_) map
    obtain ⟨m, sites⟩ := call
    refine Attempt.raises_guard (fun hm => ?_) fun _ => ?_
    · obtain ⟨c, rest, rfl⟩ := List.exists_cons_of_ne_nil (List.ne_nil_of_mem hm)
      obtain ⟨info, hinfo⟩ := (hway c rest rfl).method_of_mem hm
      exact hloop _ m (way_of_call hway hcall hinfo) hm
    split
    · exact Attempt.raises_pure _
    · rename_i info hinfo
      refine Attempt.raises_bind (Attempt.raises_ofChecked _) fun _ _ =>
        Attempt.raises_bind (Attempt.raises_ofExcept (add_raises hadd)) fun _ _ => ih _ _ _ fun c rest hc => ?_
      obtain ⟨rfl, rfl⟩ := List.cons.inj hc
      exact way_of_call hway hcall hinfo

theorem build_raises {E : DesignError → Prop}
    (hadd : ∀ caller method loc prev, E (.duplicateCall caller method loc prev))
    (hloop : ∀ t ∈ d.transactions, ∀ callers m, d.Way t callers m → m ∈ callers →
      E (.methodRecursion (d.node m).name (loopNames d m callers) (d.node m).loc)) : Attempt.Raises E (build d) :=
  Attempt.raises_foldlM (fun t ht map => visit_raises hadd (hloop t ht) _ [] [] map fun _ _ h => nomatch h) _

/-! ### Loops -/

/-- Calls lead from a transaction into a loop. -/
def Looping (d : Design) : Prop :=
  ∃ t ∈ d.transactions, ∃ m, Relation.TransGen d.Calls t m ∧ Relation.TransGen d.Calls m m

theorem Describes.not_looping (h : map.Describes d) : ¬ Looping d := by
  rintro ⟨t, ht, m, hreach, hloop⟩
  obtain ⟨callers, hway⟩ := Design.exists_way_iff.2 hreach
  obtain ⟨inner, hagain⟩ := hway.onto hloop
  exact (h.covers t ht _ m hagain).1 (List.mem_append_right _ (List.mem_cons_self ..))

/-- The loop that an error reports: calls lead from a transaction to the method that the error names, and from
there by way of the others back to it. -/
def Looped (d : Design) : DesignError → Prop
  | .methodRecursion name chain loc =>
    ∃ t ∈ d.transactions, ∃ m others, Relation.TransGen d.Calls t m ∧ (m :: others ++ [m]).IsChain d.Calls ∧
      name = d.name m ∧ chain = (m :: others ++ [m]).map d.name ∧ loc = (d.node m).loc
  | _ => True

/-- A method that is met again on a way is in a loop, on which it does not come again. -/
theorem loop_of_mem {t m : NodeId} {callers : List NodeId} (hway : d.Way t callers m) (hm : m ∈ callers) :
    ∃ others, m ∉ others ∧ (m :: others ++ [m]).IsChain d.Calls ∧
      loopNames d m callers = (m :: others ++ [m]).map d.name := by
  obtain ⟨inner, outer, rfl, hfirst⟩ := List.eq_append_cons_of_mem hm
  have hinner : (inner ++ m :: outer).takeWhile (· ≠ m) = inner := by
    rw [List.takeWhile_append_of_pos, List.takeWhile_cons_of_neg, List.append_nil]
    · simp
    · intro c hc
      simpa using fun he : c = m => hfirst (he ▸ hc)
  have hchain := hway.isChain
  rw [List.reverse_append, List.reverse_cons, List.append_assoc, ← List.cons_append, List.append_assoc] at hchain
  refine ⟨inner.reverse, fun hmem => hfirst (List.mem_reverse.1 hmem), hchain.right_of_append, ?_⟩
  rw [loopNames, hinner]

theorem looped_of_mem {t m : NodeId} {callers : List NodeId} (ht : t ∈ d.transactions) (hway : d.Way t callers m)
    (hm : m ∈ callers) : Looped d (.methodRecursion (d.node m).name (loopNames d m callers) (d.node m).loc) := by
  obtain ⟨others, -, hchain, hnames⟩ := loop_of_mem hway hm
  exact ⟨t, ht, m, others, Design.exists_way_iff.1 ⟨_, hway⟩, hchain, rfl, hnames, rfl⟩

/-- A loop that is reported is one. -/
theorem build_looped : Attempt.Raises (Looped d) (build d) :=
  build_raises (fun _ _ _ _ => trivial) fun _ ht _ _ => looped_of_mem ht

/-! ### Faults -/

/-- The arguments of calls have the width of the input. -/
def ArgumentsFit (d : Design) : Prop :=
  ∀ c m sites info, (m, sites) ∈ (d.node c).calls → (d.node m).method? = some info →
    ∀ s ∈ sites, s.arg.width = info.input.width

/-- A validator of the design stops with this fault, though the argument has the width of the input. -/
def ValidatorStops (d : Design) (fault : Fault) : Prop :=
  ∃ m info v arg, (d.node m).method? = some info ∧ info.validator = some v ∧ arg.width = info.input.width ∧
    v.validate arg = .error fault

theorem readiness_raises {m : NodeId} {info : MethodInfo} (hinfo : (d.node m).method? = some info) (ready : Expr)
    {calls : List (Expr × Expr)} (hcalls : ∀ call ∈ calls, call.2.width = info.input.width) :
    Raises (ValidatorStops d) (readiness ready info.validator calls) := by
  unfold readiness
  split
  · exact raises_ok _
  · rename_i v hv
    refine raises_foldlM (fun call hcall acc => raises_bind (fun fault hfault => ?_) fun _ _ => raises_ok _) ready
    exact ⟨m, info, v, call.2, hinfo, hv, hcalls call hcall, hfault⟩

theorem visit_stops (hfit : ArgumentsFit d) (t : NodeId) : ∀ (fuel : Nat) (callers : List NodeId) (env : Bindings)
    (map : CallMap), Attempt.Stops (ValidatorStops d) (visit d t fuel callers env map) := by
  intro fuel
  induction fuel with
  | zero => exact fun _ _ map => Attempt.stops_pure map
  | succ fuel ih =>
    intro callers env map
    rw [visit]
    refine Attempt.stops_foldlM (fun call hcall map => ?_) map
    obtain ⟨m, sites⟩ := call
    refine Attempt.stops_guard fun _ => ?_
    split
    · exact Attempt.stops_pure _
    · rename_i info hinfo
      have hwidth : ∀ call ∈ sites.map (effective env), call.2.width = info.input.width := by
        intro call hmem
        obtain ⟨s, hs, rfl⟩ := List.mem_map.1 hmem
        rw [effective, Expr.width_substitute]
        exact hfit _ m sites info hcall hinfo s hs
      exact Attempt.stops_bind (Attempt.stops_ofChecked (readiness_raises hinfo _ hwidth)) fun _ _ =>
        Attempt.stops_bind (Attempt.stops_ofExcept _) fun _ _ => ih _ _ _

/-- Where calls lead in a loop the walk ends with an error, unless a validator stops it before. -/
theorem build_error (hfit : ArgumentsFit d) (h : Looping d) : (∃ e, (build d).run = .ok (.error e)) ∨
    ∃ fault, (build d).run = .error fault ∧ ValidatorStops d fault := by
  cases hrun : (build d).run with
  | error fault => exact .inr ⟨fault, rfl, Attempt.stops_foldlM (fun t _ map => visit_stops hfit t _ _ _ map) _ fault hrun⟩
  | ok result =>
    cases result with
    | error e => exact .inl ⟨e, rfl⟩
    | ok map => exact absurd h (build_ok hrun).not_looping

end CallMap

end Interlock
