import Interlock.Proofs.Draft.Unread
import Interlock.Proofs.Elaboration.Outcome
import Interlock.Proofs.FusedReach
import Interlock.Proofs.PriorityOrder

/-! Orderings of transactions that run together. An ordering between two nodes of which one wishes to run together
with the other is dropped. Any other between transactions of the same groups is kept: it prefers each of these groups
to all of them, which says nothing where there is one group and cannot be met where there are more; and it is checked
against the order of definition. -/

namespace Interlock

namespace Design

variable {d : Design} {f : Fused} {map : CallMap} {r : Relation} {pre post : List Relation} {a b : NodeId}
  {silenced : Bool} {loc : Location}

/-- One of two nodes wishes to run together with the other. -/
def Joins (d : Design) (a b : NodeId) : Prop := b ∈ (d.node a).simultaneous ∨ a ∈ (d.node b).simultaneous

instance (d : Design) (a b : NodeId) : Decidable (d.Joins a b) :=
  inferInstanceAs (Decidable (b ∈ (d.node a).simultaneous ∨ a ∈ (d.node b).simultaneous))

theorem keeps_before : d.keeps (.before a b silenced loc) = true ↔ ¬ d.Joins a b := by
  simp [keeps, Relation.before, Joins]

/-- The warnings of those of the relations that the definitions contradict. -/
def orderWarnings (d : Design) (rs : List Relation) : List Diagnostic :=
  (rs.filter d.contradicted).map fun r => scheduleOrderWarning (d.name r.source) (d.name r.target) r.loc

theorem checkOrder_warn (h : d.config.scheduleOrder = .warn) : d.checkOrder = .ok (orderWarnings d d.relations) := by
  rw [checkOrder, h]
  rfl

/-! ### Relations that say nothing -/

/-- An ordering that is tolerated leaves no trace in the check. -/
theorem checkOrder_omit (hr : d.relations = pre ++ r :: post)
    (h : d.contradicted r = false ∨ d.config.scheduleOrder = .allow) :
    (d.withRelations (pre ++ post)).checkOrder = d.checkOrder := by
  unfold checkOrder
  rw [show (d.withRelations (pre ++ post)).config = d.config from rfl]
  rcases h with hnot | hallow
  · have hbad : (pre ++ post).filter (d.withRelations (pre ++ post)).contradicted = d.relations.filter d.contradicted := by
      rw [hr, List.filter_append, List.filter_append, List.filter_cons_of_neg (by rw [hnot]; exact Bool.false_ne_true)]
      rfl
    simp only [show (d.withRelations (pre ++ post)).relations = pre ++ post from rfl, hbad]
    rfl
  · rw [hallow]

theorem takeInOrder_withRelations (rs : List Relation) (g : Digraph Location) (fuel : Nat) (left : List NodeId) :
    (d.withRelations rs).takeInOrder g fuel left = d.takeInOrder g fuel left := by
  induction fuel generalizing left with
  | zero => rfl
  | succ fuel ih =>
    simp only [takeInOrder, ih]
    rfl

theorem priorityOrder_withRelations (rs : List Relation) (g : Digraph Location) :
    (d.withRelations rs).priorityOrder g = d.priorityOrder g := by
  unfold priorityOrder
  simp only [takeInOrder_withRelations]
  rfl

/-- A relation that adds no preference and stands for no conflict leaves the schedule as it is. -/
theorem schedule_omit (hr : d.relations = pre ++ r :: post) (hplain : r.conflict = false)
    (hvoid : ∀ g, d.addPreference map g r = g) : (d.withRelations (pre ++ post)).schedule map = d.schedule map := by
  have hgraph : (d.withRelations (pre ++ post)).priorities map = d.priorities map := by
    unfold priorities
    rw [hr, List.foldl_append, List.foldl_cons, hvoid, ← List.foldl_append]
    rfl
  have hrelated : (d.withRelations (pre ++ post)).relatedByConflict map = d.relatedByConflict map := by
    funext t u
    unfold relatedByConflict
    rw [hr, List.any_append, List.any_cons, hplain, Bool.false_and, Bool.false_or, ← List.any_append]
    rfl
  have hconflicts : (d.withRelations (pre ++ post)).conflicting map = d.conflicting map := by
    funext t u
    unfold conflicting
    rw [hrelated]
    rfl
  unfold schedule Schedule.ofOrder
  rw [hgraph, priorityOrder_withRelations, hconflicts]

theorem addPreference_eq_self {first second : NodeId} (hr : preference r = some (first, second))
    (h : ∀ t ∈ map.standsFor d first, ∀ u ∈ map.standsFor d second, t = u) (g : Digraph Location) :
    d.addPreference map g r = g := by
  have hnone : crossPairs (map.standsFor d first) (map.standsFor d second) = [] := by
    unfold crossPairs
    refine List.flatMap_eq_nil_iff.2 fun t ht => ?_
    rw [List.map_eq_nil_iff, List.filter_eq_nil_iff]
    exact fun u hu hne => of_decide_eq_true hne (h t ht u hu)
  unfold addPreference
  rw [hr]
  simp only [hnone, List.foldl_nil]

/-! ### What stands for the members of a group -/

/-- All groups of a transaction are one. -/
def Fused.InOneGroup (f : Fused) (m : NodeId) : Prop :=
  ∀ g ∈ f.groups, ∀ h ∈ f.groups, m ∈ g.members → m ∈ h.members → g = h

theorem fused_placed {d' : Design} (h : Fusion.Fuses d d') {t : NodeId} (ht : t < d.nodes.size) :
    (d'.node t).defOrder = (d.node t).defOrder ∧ d'.name t = d.name t := by
  obtain ⟨n, hn⟩ := Arena.exists_get? ht
  obtain ⟨n', hn', hsame⟩ := h.old t n hn
  rw [name, name, node_of_get? hn, node_of_get? hn']
  rcases hsame with rfl | ⟨_, -, rfl⟩ <;> exact ⟨rfl, rfl⟩

/-- The transactions of a group of a member stand for it. -/
theorem mem_standsFor_member {d : Draft} (hd : d.Recorded) (hf : Attempt.Gives d.design.fused f)
    {g : Fusion.FusedGroup} (hg : g ∈ f.groups) (ha : a ∈ g.members) {t : NodeId} :
    t ∈ f.map.standsFor f.design a ↔ ∃ h ∈ f.groups, a ∈ h.members ∧ h.transaction = t := by
  obtain ⟨_, _, -, -, hkeeps⟩ := hd.keepsReach hf
  rw [hkeeps.standsFor a ⟨g.members, hkeeps.members ▸ List.mem_map_of_mem hg, ha⟩]
  simp [and_assoc]

/-- Groups have transactions of their own. -/
theorem group_eq_of_transaction {d : Draft} (hd : d.Recorded) (hf : Attempt.Gives d.design.fused f)
    {g h : Fusion.FusedGroup} (hg : g ∈ f.groups) (hh : h ∈ f.groups) (heq : g.transaction = h.transaction) : g = h := by
  obtain ⟨_, _, -, -, hkeeps⟩ := hd.keepsReach hf
  have hnodup : (f.groups.map (·.transaction)).Nodup := hkeeps.numbers ▸ List.nodup_range'
  exact List.inj_on_of_nodup_map hnodup hg hh heq

/-! ### Elaboration without an ordering -/

/-- The fused design when the relation is left out. -/
def Fused.omit (f : Fused) (d : Design) (pre post : List Relation) : Fused :=
  { f with design := f.design.withRelations ((pre ++ post).filter d.keeps) }

section

variable (hd : d.Sound) (hr : d.relations = pre ++ r :: post) (hf : Attempt.Gives d.fused f)

include hf in
theorem gives_omit : Attempt.Gives (d.withRelations (pre ++ post)).fused (f.omit d pre post) := fused_withRelations hf _

include hd hr hf

/-- A relation that fusion drops makes no difference. -/
theorem elaborate_dropped (hdrop : d.keeps r = false) (sink : DiagnosticSink) :
    d.elaborate sink = (d.withRelations (pre ++ post)).elaborate sink := by
  have hrelations : f.design.relations = (pre ++ post).filter d.keeps := by
    rw [(fused_settings hd hf).2]
    show d.relations.filter d.keeps = _
    rw [hr, List.filter_append, List.filter_append, List.filter_cons_of_neg (by rw [hdrop]; exact Bool.false_ne_true)]
  have hsame : f.omit d pre post = f := by
    rw [Fused.omit, ← hrelations]
    rfl
  rw [elaborate_of_fused hf, elaborate_of_fused (gives_omit hf), hsame]

theorem relations_kept (hkeep : d.keeps r = true) :
    f.design.relations = pre.filter d.keeps ++ r :: post.filter d.keeps := by
  rw [(fused_settings hd hf).2]
  show d.relations.filter d.keeps = _
  rw [hr, List.filter_append, List.filter_cons_of_pos hkeep]

theorem afterCheck_omit (hkeep : d.keeps r = true) (hplain : r.conflict = false)
    (hvoid : ∀ g, f.design.addPreference f.map g r = g) : (f.omit d pre post).afterCheck = f.afterCheck := by
  rw [Fused.omit, List.filter_append]
  exact Fused.afterCheck_withRelations (schedule_omit (relations_kept hd hr hf hkeep) hplain hvoid)

/-- An ordering that says nothing, and that the check tolerates, makes no difference. -/
theorem elaborate_tolerated (hkeep : d.keeps r = true) (hplain : r.conflict = false)
    (hvoid : ∀ g, f.design.addPreference f.map g r = g)
    (h : f.design.contradicted r = false ∨ f.design.config.scheduleOrder = .allow) (sink : DiagnosticSink) :
    d.elaborate sink = (d.withRelations (pre ++ post)).elaborate sink := by
  have hcheck : (f.omit d pre post).design.checkOrder = f.design.checkOrder := by
    rw [Fused.omit, List.filter_append]
    exact checkOrder_omit (relations_kept hd hr hf hkeep) h
  rw [elaborate_of_fused hf, elaborate_of_fused (gives_omit hf), hcheck, afterCheck_omit hd hr hf hkeep hplain hvoid]

/-- An ordering that says nothing, and that is warned of, adds the warning. -/
theorem elaborate_warned (hkeep : d.keeps r = true) (hplain : r.conflict = false)
    (hvoid : ∀ g, f.design.addPreference f.map g r = g) (h : f.design.contradicted r = true)
    (hwarn : f.design.config.scheduleOrder = .warn) :
    ∃ earlier later, ∀ sink, Agree Eq (fun p q => p.1 = q.1 ∧
        p.2 = (earlier ++ scheduleOrderWarning (f.design.name r.source) (f.design.name r.target) r.loc :: later).foldl
          DiagnosticSink.emit sink ∧
        q.2 = (earlier ++ later).foldl DiagnosticSink.emit sink)
      (d.elaborate sink) ((d.withRelations (pre ++ post)).elaborate sink) := by
  have hkept : orderWarnings f.design f.design.relations = orderWarnings f.design (pre.filter d.keeps) ++
      scheduleOrderWarning (f.design.name r.source) (f.design.name r.target) r.loc ::
        orderWarnings f.design (post.filter d.keeps) := by
    rw [relations_kept hd hr hf hkeep, orderWarnings, List.filter_append, List.filter_cons_of_pos h, List.map_append]
    rfl
  have homitted : orderWarnings f.design ((pre ++ post).filter d.keeps) =
      orderWarnings f.design (pre.filter d.keeps) ++ orderWarnings f.design (post.filter d.keeps) := by
    rw [List.filter_append, orderWarnings, List.filter_append, List.map_append]
    rfl
  obtain ⟨outcome, houtcome⟩ := f.afterCheck_appends.conclude
  have hrun : ∀ sink, d.elaborate sink = outcome.map fun p =>
      (p.1, p.2.foldl DiagnosticSink.emit ((orderWarnings f.design f.design.relations).foldl DiagnosticSink.emit sink)) :=
    fun sink => by rw [elaborate_of_checked hf (checkOrder_warn hwarn), houtcome]
  have hrun' : ∀ sink, (d.withRelations (pre ++ post)).elaborate sink = outcome.map fun p =>
      (p.1, p.2.foldl DiagnosticSink.emit
        ((orderWarnings f.design ((pre ++ post).filter d.keeps)).foldl DiagnosticSink.emit sink)) :=
    fun sink => by
      rw [elaborate_of_checked (gives_omit hf) (checkOrder_warn hwarn), afterCheck_omit hd hr hf hkeep hplain hvoid,
        houtcome]
      rfl
  rcases outcome with fault | ⟨result, l⟩
  · exact ⟨[], [], fun sink => by rw [hrun, hrun']; exact .error rfl⟩
  · refine ⟨orderWarnings f.design (pre.filter d.keeps), orderWarnings f.design (post.filter d.keeps) ++ l, fun sink => ?_⟩
    rw [hrun, hrun', hkept, homitted]
    refine .ok ⟨rfl, ?_, ?_⟩ <;> simp [List.foldl_append]

/-- An ordering that is not tolerated is refused, if no other is refused first. -/
theorem elaborate_refused (hkeep : d.keeps r = true) (h : f.design.contradicted r = true)
    (herror : f.design.config.scheduleOrder = .error) :
    ∃ first second place, ∀ sink, d.elaborate sink =
      .ok (.error (.scheduleOrder first second place),
        sink.emit (DesignError.toDiagnostic (.scheduleOrder first second place))) := by
  have hbad : r ∈ f.design.relations.filter f.design.contradicted := by
    rw [relations_kept hd hr hf hkeep]
    exact List.mem_filter.2 ⟨List.mem_append_right _ (List.mem_cons_self ..), h⟩
  obtain ⟨x, l, hl⟩ := List.exists_cons_of_ne_nil (List.ne_nil_of_mem hbad)
  have hcheck : f.design.checkOrder =
      .error (.scheduleOrder (f.design.name x.source) (f.design.name x.target) x.loc) := by
    rw [checkOrder, herror, hl]
  exact ⟨_, _, _, fun sink => elaborate_of_refused hf hcheck sink⟩

end

/-- Transactions that are preferred to each other cannot be put in order. -/
theorem elaborate_cyclic {warnings : List Diagnostic} {t u : NodeId} (hd : d.Sound) (hf : Attempt.Gives d.fused f)
    (hcheck : f.design.checkOrder = .ok warnings) (htu : f.design.Preferred f.map t u)
    (hut : f.design.Preferred f.map u t) :
    ∃ e, f.design.ReportsCycle f.map e ∧ ∀ sink, ∃ sink', d.elaborate sink = .ok (.error e, sink') := by
  obtain ⟨hsound, hmap, -⟩ := fused_ok hd hf
  have hcyclic : ¬ (f.design.priorities f.map).Acyclic := fun hacyclic =>
    hacyclic t (.tail (.single (edge_priorities_iff.2 htu)) (edge_priorities_iff.2 hut))
  cases horder : f.design.priorityOrder (f.design.priorities f.map) with
  | ok order => exact absurd ((priorityOrder_ok_iff (simple_priorities hsound hmap)).1 ⟨order, horder⟩) hcyclic
  | error e =>
    have hschedule : f.design.schedule f.map = .error e := by
      rw [schedule, horder]
      rfl
    exact ⟨e, priorityOrder_reports hsound hmap horder, fun sink =>
      ⟨_, elaborate_of_unscheduled hf hcheck hschedule sink⟩⟩

/-! ### Transactions of the same groups -/

section

variable {d : Draft} {g : Fusion.FusedGroup} (hd : d.Recorded) (hf : Attempt.Gives d.design.fused f)
  (hg : g ∈ f.groups) (ha : a ∈ g.members) (hsame : ∀ h ∈ f.groups, a ∈ h.members ↔ b ∈ h.members)

include hd hf hg ha hsame

/-- What stands for a transaction stands for another one of the same groups. -/
theorem mem_standsFor_same {t : NodeId} :
    t ∈ f.map.standsFor f.design b ↔ ∃ h ∈ f.groups, a ∈ h.members ∧ h.transaction = t := by
  rw [mem_standsFor_member hd hf hg ((hsame g hg).1 ha)]
  exact exists_congr fun h => and_congr_right fun hh => and_congr_left fun _ => (hsame h hh).symm

theorem addPreference_before (hone : f.InOneGroup a) (graph : Digraph Location) :
    f.design.addPreference f.map graph (.before a b silenced loc) = graph := by
  refine addPreference_eq_self (r := .before a b silenced loc) rfl (fun t ht u hu => ?_) graph
  obtain ⟨g₁, hg₁, ha₁, rfl⟩ := (mem_standsFor_member hd hf hg ha).1 ht
  obtain ⟨g₂, hg₂, ha₂, rfl⟩ := (mem_standsFor_same hd hf hg ha hsame).1 hu
  rw [hone g₁ hg₁ g₂ hg₂ ha₁ ha₂]

/-- Between transactions of several groups, each of these groups is preferred to all others. -/
theorem preferred_before (hkept : .before a b silenced loc ∈ f.design.relations) {g₁ g₂ : Fusion.FusedGroup}
    (hg₁ : g₁ ∈ f.groups) (hg₂ : g₂ ∈ f.groups) (ha₁ : a ∈ g₁.members) (ha₂ : a ∈ g₂.members) (hne : g₁ ≠ g₂) :
    f.design.Preferred f.map g₁.transaction g₂.transaction :=
  ⟨loc, _, hkept, rfl, a, b, rfl, (mem_standsFor_member hd hf hg ha).2 ⟨g₁, hg₁, ha₁, rfl⟩,
    (mem_standsFor_same hd hf hg ha hsame).2 ⟨g₂, hg₂, ha₂, rfl⟩,
    fun heq => hne (group_eq_of_transaction hd hf hg₁ hg₂ heq)⟩

omit hsame in
/-- A member is defined where it was, and keeps its name. -/
theorem fused_member : (f.design.node a).defOrder = (d.design.node a).defOrder ∧ f.design.name a = d.design.name a := by
  obtain ⟨info, htr⟩ := hd.sound.transaction ((fused_unites hd.sound hf).transactions g hg a ha)
  exact fused_placed (fused_ok hd.sound hf).2.2 (Arena.lt_of_get? htr.get?)

theorem contradicted_before :
    f.design.contradicted (.before a b silenced loc) = d.design.contradicted (.before a b silenced loc) := by
  unfold contradicted
  rw [show (Relation.before a b silenced loc).source = a from rfl,
    show (Relation.before a b silenced loc).target = b from rfl, (fused_member hd hf hg ha).1,
    (fused_member hd hf hg ((hsame g hg).1 ha)).1]

end

/-- What leaving out an ordering of `a` before `b` changes about the elaboration of `d`, which is fused to `f`. -/
structure OrderingOmitted (d d₀ : Design) (f : Fused) (a b : NodeId) (silenced : Bool) (loc : Location) : Prop where
  groups : ∃ f₀, Attempt.Gives d₀.fused f₀ ∧ f₀.groups = f.groups
  joined : d.Joins a b → ∀ sink, d.elaborate sink = d₀.elaborate sink
  tolerated : f.InOneGroup a →
    d.contradicted (.before a b silenced loc) = false ∨ d.config.scheduleOrder = .allow →
    ∀ sink, d.elaborate sink = d₀.elaborate sink
  warned : ¬ d.Joins a b → f.InOneGroup a → d.contradicted (.before a b silenced loc) = true →
    d.config.scheduleOrder = .warn → ∃ earlier later, ∀ sink, Agree Eq (fun p q => p.1 = q.1 ∧
        p.2 = (earlier ++ scheduleOrderWarning (d.name a) (d.name b) loc :: later).foldl DiagnosticSink.emit sink ∧
        q.2 = (earlier ++ later).foldl DiagnosticSink.emit sink)
      (d.elaborate sink) (d₀.elaborate sink)
  refused : ¬ d.Joins a b → d.contradicted (.before a b silenced loc) = true → d.config.scheduleOrder = .error →
    ∃ first second place, ∀ sink, d.elaborate sink = .ok (.error (.scheduleOrder first second place),
      sink.emit (DesignError.toDiagnostic (.scheduleOrder first second place)))
  cyclic : ¬ d.Joins a b → ¬ f.InOneGroup a → ∀ warnings, f.design.checkOrder = .ok warnings →
    ∃ e, f.design.ReportsCycle f.map e ∧ ∀ sink, ∃ sink', d.elaborate sink = .ok (.error e, sink')

theorem orderingOmitted {d : Draft} (hd : d.Recorded)
    (hr : d.design.relations = pre ++ .before a b silenced loc :: post) (hf : Attempt.Gives d.design.fused f)
    {g : Fusion.FusedGroup} (hg : g ∈ f.groups) (ha : a ∈ g.members)
    (hsame : ∀ h ∈ f.groups, a ∈ h.members ↔ b ∈ h.members) :
    OrderingOmitted d.design (d.design.withRelations (pre ++ post)) f a b silenced loc := by
  have hsound := hd.sound
  have hconfig := (fused_settings hsound hf).1
  have hcontradicted : f.design.contradicted (.before a b silenced loc) =
      d.design.contradicted (.before a b silenced loc) := contradicted_before hd hf hg ha hsame
  have hvoid : f.InOneGroup a → ∀ graph, f.design.addPreference f.map graph (.before a b silenced loc) = graph :=
    addPreference_before hd hf hg ha hsame
  refine ⟨⟨_, gives_omit hf, rfl⟩, fun hjoins => ?_, fun hone htol => ?_, fun hjoins hone hbad hwarn => ?_,
    fun hjoins hbad herror => ?_, fun hjoins hmany warnings hcheck => ?_⟩
  · have hdrop : d.design.keeps (.before a b silenced loc) = false := by
      rw [← Bool.not_eq_true, keeps_before]
      exact not_not_intro hjoins
    exact elaborate_dropped hsound hr hf hdrop
  · by_cases hkeep : d.design.keeps (.before a b silenced loc) = true
    · exact elaborate_tolerated hsound hr hf hkeep rfl (hvoid hone) (by rwa [hcontradicted, hconfig])
    · exact elaborate_dropped hsound hr hf (Bool.not_eq_true _ ▸ hkeep)
  · have h := elaborate_warned hsound hr hf (keeps_before.2 hjoins) rfl (hvoid hone) (hcontradicted.trans hbad)
      (by rw [hconfig, hwarn])
    rw [show (Relation.before a b silenced loc).source = a from rfl,
      show (Relation.before a b silenced loc).target = b from rfl, (fused_member hd hf hg ha).2,
      (fused_member hd hf hg ((hsame g hg).1 ha)).2] at h
    exact h
  · exact elaborate_refused hsound hr hf (keeps_before.2 hjoins) (hcontradicted.trans hbad) (by rw [hconfig, herror])
  · unfold Fused.InOneGroup at hmany
    push Not at hmany
    obtain ⟨g₁, hg₁, g₂, hg₂, ha₁, ha₂, hne⟩ := hmany
    have hkept : .before a b silenced loc ∈ f.design.relations := by
      rw [relations_kept hsound hr hf (keeps_before.2 hjoins)]
      exact List.mem_append_right _ (List.mem_cons_self ..)
    exact elaborate_cyclic hsound hf hcheck (preferred_before hd hf hg ha hsame hkept hg₁ hg₂ ha₁ ha₂ hne)
      (preferred_before hd hf hg ha hsame hkept hg₂ hg₁ ha₂ ha₁ hne.symm)

end Design

/-- An ordering of two transactions of the same groups can be left out where one of them wishes to run together with
the other, and where they are in one group and the ordering is silenced, follows the definitions or is not checked.
Where they are in one group and it is checked, against the definitions, it is warned of, which changes nothing else, or
refused; and where they are in several groups it leads in a circle. -/
theorem orderings_within_groups {config : Config} {actions actions' : List Draft.Action} {a b : NodeId} {silenced : Bool}
    {loc : Location} {d : Draft}
    (hd : (Draft.start config).run (actions ++ .before a b silenced loc :: actions') = some d) {f : Design.Fused}
    (hf : Attempt.Gives d.design.fused f) {g : Fusion.FusedGroup} (hg : g ∈ f.groups) (ha : a ∈ g.members)
    (hsame : ∀ h ∈ f.groups, a ∈ h.members ↔ b ∈ h.members) :
    ∃ d₀, (Draft.start config).run (actions ++ actions') = some d₀ ∧
      Design.OrderingOmitted d.design d₀.design f a b silenced loc := by
  obtain ⟨d₀, pre, post, hd₀, hrelations, hdesign⟩ := Draft.run_omit hd
  refine ⟨d₀, hd₀, ?_⟩
  rw [hdesign]
  exact Design.orderingOmitted ⟨config, _, hd⟩ hrelations hf hg ha hsame

namespace Draft

/-- Three transactions, of which the first wishes to run together with the second and this one with the third. -/
def chained : List Action :=
  [.transaction "A" .generated, .transaction "B" .generated, .transaction "C" .generated,
    .simultaneous 0 [1], .simultaneous 1 [2], .openModule "",
    .inModule 0 (.openTransaction 0 .one .generated), .inModule 0 .leaveBody,
    .inModule 0 (.openTransaction 1 .one .generated), .inModule 0 .leaveBody,
    .inModule 0 (.openTransaction 2 .one .generated), .inModule 0 .leaveBody]

/-- Two transactions that both run together with one of two others. -/
def braided : List Action :=
  [.transaction "A" .generated, .transaction "B" .generated, .transaction "C" .generated,
    .transaction "D" .generated, .alternatives 0 [2, 3], .alternatives 1 [2, 3]]

/-- The kind of error that elaboration ends with. -/
def failure? (d : Draft) : Option String :=
  match d.design.elaborate {} with
  | .ok (.error e, _) => some e.kind
  | _ => none

/-- The draft is elaborated without an error. -/
def succeeds (d : Draft) : Bool :=
  match d.design.elaborate {} with
  | .ok (.ok _, _) => true
  | _ => false

end Draft

/-- `A` and `C` are in one group, and `A` is defined first: it makes no difference to prefer it. -/
theorem orderings_within_groups_of_chained :
    ∃ d d₀ f, (Draft.start {}).run (Draft.chained ++ [.before 0 2 false .generated]) = some d ∧
      (Draft.start {}).run Draft.chained = some d₀ ∧ Attempt.Gives d.design.fused f ∧
      f.groups.map (·.members) = [[0, 1, 2]] ∧ ¬ d.design.Joins 0 2 ∧
      ∀ sink, d.design.elaborate sink = d₀.design.elaborate sink := by
  have hrun : ∃ d ∈ (Draft.start {}).run (Draft.chained ++ [.before 0 2 false .generated]),
      (∃ f ∈ d.design.fused.result?, f.groups = [⟨3, [0, 1, 2]⟩]) ∧ ¬ d.design.Joins 0 2 ∧
      d.design.contradicted (.before 0 2 false .generated) = false := by
    decide +kernel
  obtain ⟨d, hd, ⟨f, hf, hgroups⟩, hjoins, hagree⟩ := hrun
  have hf := Attempt.result?_eq_some.1 hf
  obtain ⟨d₀, hd₀, homitted⟩ := orderings_within_groups
    (show (Draft.start {}).run (Draft.chained ++ .before 0 2 false .generated :: []) = some d from hd) hf
    (g := ⟨3, [0, 1, 2]⟩) (by rw [hgroups]; decide) (by decide) (by rw [hgroups]; decide)
  rw [List.append_nil] at hd₀
  refine ⟨d, d₀, f, hd, hd₀, hf, by rw [hgroups]; rfl, hjoins, homitted.tolerated ?_ (.inl hagree)⟩
  unfold Design.Fused.InOneGroup
  rw [hgroups]
  decide

/-- In a group of three an ordering against the definitions is refused, and between transactions of the same two groups
even one that follows them leads in a circle. Without these orderings both designs are fine. -/
theorem orderings_within_groups_matter :
    (∃ f, Attempt.Gives (Draft.of (Draft.chained ++ [.before 2 0 false .generated])).design.fused f ∧
      f.groups.map (·.members) = [[0, 1, 2]] ∧
      (Draft.of (Draft.chained ++ [.before 2 0 false .generated])).failure? = some "ScheduleOrder" ∧
      (Draft.of Draft.chained).succeeds = true) ∧
    ∃ f, Attempt.Gives (Draft.of (Draft.braided ++ [.before 0 1 false .generated])).design.fused f ∧
      f.groups.map (·.members) = [[0, 1, 2], [0, 1, 3]] ∧
      (Draft.of (Draft.braided ++ [.before 0 1 false .generated])).failure? = some "PriorityCycle" ∧
      (Draft.of Draft.braided).succeeds = true := by
  have hchained : ∃ f ∈ (Draft.of (Draft.chained ++ [.before 2 0 false .generated])).design.fused.result?,
      f.groups.map (·.members) = [[0, 1, 2]] := by decide +kernel
  have hbraided : ∃ f ∈ (Draft.of (Draft.braided ++ [.before 0 1 false .generated])).design.fused.result?,
      f.groups.map (·.members) = [[0, 1, 2], [0, 1, 3]] := by decide +kernel
  obtain ⟨f, hf, hmembers⟩ := hchained
  obtain ⟨f', hf', hmembers'⟩ := hbraided
  exact ⟨⟨f, Attempt.result?_eq_some.1 hf, hmembers, by decide +kernel, by decide +kernel⟩,
    f', Attempt.result?_eq_some.1 hf', hmembers', by decide +kernel, by decide +kernel⟩

end Interlock
