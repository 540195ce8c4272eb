import Interlock.Proofs.ConflictFree
import Interlock.Proofs.Fusion.Members
import Interlock.Proofs.Simulation.Steady

/-! Fairness of the scheduler that takes turns. In every cycle it grants the first member that wants to run
after the last one granted, and its register moves there. As the position moves on it comes nearer to a member
that has to wait, and passes no other member twice before it is there. -/

namespace Interlock

namespace Design

/-- The position of the first member that wants to run, going round from the one after `i`. -/
def turn (d : Design) (members : List NodeId) (k : Kernel) (i : Nat) : Option Nat :=
  Arbiter.turn members.length i fun j => members[j]?.any (d.Wanting k ·)

/-- A cycle of a class that takes turns, `i` being the position granted last: the register holds it until the
clock edge, the first member after it that wants to run is granted, alone, and its position is the next one. -/
structure TakesTurn (d : Design) (members : List NodeId) (last : SignalId) (k : Kernel) (i : Nat) : Prop where
  held : k.get last = .ok (UInt64.ofNat (2 ^ i))
  kept : ∀ k', k.SameCycle k' → k'.get last = k.get last
  granted : ∀ j t, members[j]? = some t → (d.Granted k t ↔ d.turn members k i = some j)
  one : (∃ t ∈ members, d.Wanting k t) → ∃! t, t ∈ members ∧ d.Granted k t
  idle : (∀ t ∈ members, ¬ d.Wanting k t) → d.turn members k i = none ∧ ∀ t ∈ members, ¬ d.Granted k t
  next : ∀ k', k.tick = .ok k' → k'.get last = .ok (UInt64.ofNat (2 ^ (d.turn members k i).getD i))

/-- The register holds a position. -/
def At (last : SignalId) (k : Kernel) (i : Nat) : Prop := (k.values.valuation last).toNat = 2 ^ i

end Design

namespace Arbiter

open Drivers Design

variable {d d' : Design} {members : List NodeId} {l : List GuardedAssign} {k k' : Kernel} {last : SignalId}
  {i j : Nat} {t u : NodeId}

/-- The member whose turn it is, and no other, is granted. -/
theorem Turns.granted_iff (h : Turns d members d'.netlist l last) (hw : Wired d d' l)
    (hm : ∀ t ∈ members, t ∈ d.transactions) (hk : Kernel.Reachable d'.lowered k) (hi : i < members.length)
    (hat : At last k i) (ht : members[j]? = some t) : d.Granted k t ↔ d.turn members k i = some j := by
  have hj := (List.getElem?_eq_some_iff.1 ht).1
  have hwants : ∀ (m : Nat) (u : NodeId), members[m]? = some u →
      members[m]?.any (d.Wanting k ·) = (wants d u).truth k.values.valuation := by
    intro m u hu
    rw [hu, Option.any_some, Bool.eq_iff_iff, decide_eq_true_iff]
    exact hw.wanting_iff hk (hm u (List.mem_of_getElem? hu))
  rw [hw.granted_iff hk (hm t (List.mem_of_getElem? ht)), h.runs_iff hw hk.steady hm hi hat ht, Design.turn,
    turn_eq_some hi, hwants j t ht]
  constructor
  · rintro ⟨hwant, hbefore⟩
    refine ⟨hj, hwant, fun m hlt hnear => ?_⟩
    have hu := List.getElem?_eq_getElem hlt
    exact (hwants m _ hu).trans (hbefore m _ hu hnear)
  · rintro ⟨-, hwant, hbefore⟩
    refine ⟨hwant, fun m u hu hnear => ?_⟩
    rw [← hwants m u hu]
    exact hbefore m (List.getElem?_eq_some_iff.1 hu).1 hnear

/-- Someone gets a turn where a member wants to run. -/
theorem exists_turn_of_wanting (hi : i < members.length) (ht : t ∈ members) (hwants : d.Wanting k t) :
    ∃ j, d.turn members k i = some j := by
  obtain ⟨j, hj⟩ := List.mem_iff_getElem?.1 ht
  refine exists_turn hi (List.getElem?_eq_some_iff.1 hj).1 ?_
  rw [hj, Option.any_some]
  exact decide_eq_true hwants

theorem turn_lt (hi : i < members.length) (hj : d.turn members k i = some j) : j < members.length :=
  ((turn_eq_some hi).1 hj).1

theorem turn_none (hi : i < members.length) (h : ∀ t ∈ members, ¬ d.Wanting k t) : d.turn members k i = none := by
  rw [Option.eq_none_iff_forall_ne_some]
  intro j hj
  obtain ⟨hlt, hwants, -⟩ := (turn_eq_some hi).1 hj
  rw [List.getElem?_eq_getElem hlt, Option.any_some, decide_eq_true_iff] at hwants
  exact h _ (List.getElem_mem hlt) hwants

/-- At a clock edge the register moves to the position that was granted, if one was. -/
theorem Turns.tick (h : Turns d members d'.netlist l last) (hw : Wired d d' l)
    (hm : ∀ t ∈ members, t ∈ d.transactions) (hk : Kernel.Reachable d'.lowered k) (hi : i < members.length)
    (hat : At last k i) (htick : k.tick = .ok k') : At last k' ((d.turn members k i).getD i) := by
  obtain ⟨r, hr, hwidth, hkind, -⟩ := h.register
  have hr' : d'.lowered.signals.get? last = some r := hr
  have hpos : 0 < d'.netlist.widthOf last := by
    rw [Netlist.widthOf_eq hr, hwidth]
    exact Nat.zero_lt_of_lt hi
  have hdriver := mem_sync_build (hw.logic.sole hw.sound hw.gains h.turn) rfl hpos
  obtain ⟨a, ha, hal, hv⟩ := Kernel.tick_register hr' hkind hk.steady.toReady htick hdriver rfl
  unfold At
  rw [hv]
  rcases h.next_value hw hk.steady hm (h.oneHot hw hm hk) ha hal with ⟨j, t, hj, hgrant, hvalue⟩ | ⟨hnone, hvalue⟩
  · have hturn := (h.granted_iff hw hm hk hi hat hj).1 ((hw.granted_iff hk (hm t (List.mem_of_getElem? hj))).2 hgrant)
    rw [hvalue, hturn, Option.getD_some]
  · rw [hvalue]
    cases hturn : d.turn members k i with
    | none => exact hat
    | some j =>
      have hj := List.getElem?_eq_getElem (turn_lt hi hturn)
      have hmem := List.mem_of_getElem? hj
      have hgrant := (hw.granted_iff hk (hm _ hmem)).1 ((h.granted_iff hw hm hk hi hat hj).2 hturn)
      rw [hnone _ hmem] at hgrant
      exact nomatch hgrant

/-- A cycle in which a member has to wait: another one that comes before it has the turn, and the next cycle
starts from there. -/
theorem Turns.wait (h : Turns d members d'.netlist l last) (hw : Wired d d' l)
    (hm : ∀ t ∈ members, t ∈ d.transactions) (hk : Kernel.Reachable d'.lowered k) (hi : i < members.length)
    (hat : At last k i) (ht : members[j]? = some t) (hwants : d.Wanting k t) (hnot : ¬ d.Granted k t) :
    ∃ m < members.length, d.turn members k i = some m ∧
      distance members.length i m < distance members.length i j ∧
      ∀ k', k.NextCycle k' → At last k' m := by
  obtain ⟨m, hturn⟩ := exists_turn_of_wanting hi (List.mem_of_getElem? ht) hwants
  obtain ⟨hlt, -, hbefore⟩ := (turn_eq_some hi).1 hturn
  have hj := (List.getElem?_eq_some_iff.1 ht).1
  refine ⟨m, hlt, hturn, ?_, fun k' ⟨k₀, htick, hsame⟩ => ?_⟩
  · rcases Nat.lt_trichotomy (distance members.length i m) (distance members.length i j) with hnear | heq | hfar
    · exact hnear
    · obtain rfl := distance_inj hi hlt hj heq
      exact absurd ((h.granted_iff hw hm hk hi hat ht).2 hturn) hnot
    · have hquiet := hbefore j hj hfar
      rw [ht, Option.any_some, decide_eq_false_iff_not] at hquiet
      exact absurd hwants hquiet
  · obtain ⟨r, hr, -, hkind, -⟩ := h.register
    have hr' : d'.lowered.signals.get? last = some r := hr
    have hnext := h.tick hw hm hk hi hat htick
    rw [hturn, Option.getD_some] at hnext
    exact (congrArg UInt64.toNat (hsame.register hr' hkind (hk.tick htick))).trans hnext

variable {p : Nat}

/-- Where the position is as near to a waiting member as `u` is, it is past `u`, which is not granted then. -/
theorem Turns.not_passed (h : Turns d members d'.netlist l last) (hw : Wired d d' l)
    (hm : ∀ t ∈ members, t ∈ d.transactions) (hk : Kernel.Reachable d'.lowered k) (hi : i < members.length)
    (hat : At last k i) (ht : members[j]? = some t) (hwants : d.Wanting k t) (hnot : ¬ d.Granted k t)
    (hu : members[p]? = some u) (hnear : distance members.length i j ≤ distance members.length p j) :
    ¬ d.Granted k u := by
  intro hgrant
  have hj := (List.getElem?_eq_some_iff.1 ht).1
  have hp := (List.getElem?_eq_some_iff.1 hu).1
  obtain ⟨m, -, hturn, hbefore, -⟩ := h.wait hw hm hk hi hat ht hwants hnot
  obtain rfl : m = p := Option.some.inj (hturn.symm.trans ((h.granted_iff hw hm hk hi hat hu).1 hgrant))
  exact absurd (distance_shrinks hi hp hj hbefore) (Nat.not_lt.2 hnear)

/-- So it stays for as long as the member has to wait. -/
theorem Turns.never_passed (h : Turns d members d'.netlist l last) (hw : Wired d d' l)
    (hm : ∀ t ∈ members, t ∈ d.transactions) (ht : members[j]? = some t) (hu : members[p]? = some u)
    (ks : List Kernel) :
    ∀ (k : Kernel) (i : Nat), Kernel.Reachable d'.lowered k → i < members.length → At last k i →
      (k :: ks).IsChain Kernel.NextCycle → (∀ x ∈ k :: ks, d.Wanting x t ∧ ¬ d.Granted x t) →
      distance members.length i j ≤ distance members.length p j → ∀ x ∈ k :: ks, ¬ d.Granted x u := by
  have hj := (List.getElem?_eq_some_iff.1 ht).1
  induction ks with
  | nil =>
    intro k i hk hi hat _ hwaits hnear x hx
    obtain rfl := List.mem_singleton.1 hx
    obtain ⟨hwants, hnot⟩ := hwaits x hx
    exact h.not_passed hw hm hk hi hat ht hwants hnot hu hnear
  | cons k' ks ih =>
    intro k i hk hi hat hchain hwaits hnear x hx
    obtain ⟨hwants, hnot⟩ := hwaits k (List.mem_cons_self ..)
    rw [List.isChain_cons_cons] at hchain
    obtain ⟨hnext, hrest⟩ := hchain
    rcases List.mem_cons.1 hx with rfl | hx
    · exact h.not_passed hw hm hk hi hat ht hwants hnot hu hnear
    · -- The position moves on, nearer to the member that waits.
      obtain ⟨m, hlt, -, hbefore, hmoves⟩ := h.wait hw hm hk hi hat ht hwants hnot
      have hnearer := distance_shrinks hi hlt hj hbefore
      exact ih k' m (hnext.reachable hk) hlt (hmoves k' hnext) hrest
        (fun y hy => hwaits y (List.mem_cons_of_mem _ hy)) (by omega) x hx

/-- While a member has to wait no other is granted twice. -/
theorem Turns.granted_once (h : Turns d members d'.netlist l last) (hw : Wired d d' l)
    (hm : ∀ t ∈ members, t ∈ d.transactions) (ht : members[j]? = some t) (hu : members[p]? = some u)
    (ks : List Kernel) :
    ∀ (k : Kernel) (i : Nat), Kernel.Reachable d'.lowered k → i < members.length → At last k i →
      (k :: ks).IsChain Kernel.NextCycle → (∀ x ∈ k :: ks, d.Wanting x t ∧ ¬ d.Granted x t) →
      (k :: ks).countP (d.Granted · u) ≤ 1 := by
  induction ks with
  | nil => exact fun _ _ _ _ _ _ _ => List.countP_le_length
  | cons k' ks ih =>
    intro k i hk hi hat hchain hwaits
    obtain ⟨hwants, hnot⟩ := hwaits k (List.mem_cons_self ..)
    rw [List.isChain_cons_cons] at hchain
    obtain ⟨hnext, hrest⟩ := hchain
    have hwaits' : ∀ x ∈ k' :: ks, d.Wanting x t ∧ ¬ d.Granted x t := fun x hx => hwaits x (List.mem_cons_of_mem _ hx)
    obtain ⟨m, hlt, hturn, -, hmoves⟩ := h.wait hw hm hk hi hat ht hwants hnot
    have hk' := hnext.reachable hk
    by_cases hgrant : d.Granted k u
    · obtain rfl : m = p := Option.some.inj (hturn.symm.trans ((h.granted_iff hw hm hk hi hat hu).1 hgrant))
      have hnever := h.never_passed hw hm ht hu ks k' m hk' hlt (hmoves k' hnext) hrest hwaits' (Nat.le_refl _)
      rw [List.countP_cons, List.countP_eq_zero.2 fun x hx => by simpa using hnever x hx]
      split <;> omega
    · rw [List.countP_cons_of_neg (by simpa using hgrant)]
      exact ih k' m hk' hlt (hmoves k' hnext) hrest hwaits'

theorem Turns.get_last (h : Turns d members d'.netlist l last) (hk : Kernel.Reachable d'.lowered k)
    (hi : i < members.length) (hat : At last k i) : k.get last = .ok (UInt64.ofNat (2 ^ i)) := by
  obtain ⟨r, hr, -⟩ := h.register
  have hr' : d'.lowered.signals.get? last = some r := hr
  have hfits : members.length ≤ 64 := h.fits
  have hlt : (2 : Nat) ^ i < 2 ^ 64 := Nat.pow_lt_pow_right (by decide) (by omega)
  have hvalue : k.values.valuation last = UInt64.ofNat (2 ^ i) := by
    rw [← UInt64.toNat_inj, UInt64.toNat_ofNat', Nat.mod_eq_of_lt hlt, hat]
  rw [hk.steady.get hr', hvalue]

/-- What happens in one cycle. -/
theorem Turns.cycle (h : Turns d members d'.netlist l last) (hw : Wired d d' l)
    (hm : ∀ t ∈ members, t ∈ d.transactions) (hk : Kernel.Reachable d'.lowered k) (hi : i < members.length)
    (hat : At last k i) : d.TakesTurn members last k i := by
  have hgranted := fun j t (hj : members[j]? = some t) => h.granted_iff hw hm hk hi hat hj
  refine ⟨h.get_last hk hi hat, fun k' hsame => ?_, hgranted, fun ⟨t, ht, hwants⟩ => ?_, fun hquiet => ?_,
    fun k' htick => ?_⟩
  · obtain ⟨r, hr, -, hkind, -⟩ := h.register
    have hr' : d'.lowered.signals.get? last = some r := hr
    rw [(hsame.reachable hk).steady.get hr', hk.steady.get hr', hsame.register hr' hkind hk]
  · obtain ⟨j, hturn⟩ := exists_turn_of_wanting hi ht hwants
    have hj := List.getElem?_eq_getElem (turn_lt hi hturn)
    refine ⟨_, ⟨List.mem_of_getElem? hj, (hgranted j _ hj).2 hturn⟩, fun u ⟨hu, hgrant⟩ => ?_⟩
    obtain ⟨p, hp⟩ := List.mem_iff_getElem?.1 hu
    obtain rfl : j = p := Option.some.inj (hturn.symm.trans ((hgranted p u hp).1 hgrant))
    exact Option.some.inj (hp.symm.trans hj)
  · have hturn := turn_none hi hquiet
    refine ⟨hturn, fun t ht hgrant => ?_⟩
    obtain ⟨j, hj⟩ := List.mem_iff_getElem?.1 ht
    have hsome := (hgranted j t hj).1 hgrant
    rw [hturn] at hsome
    cases hsome
  · refine h.get_last (hk.tick htick) ?_ (h.tick hw hm hk hi hat htick)
    cases hturn : d.turn members k i with
    | none => exact hi
    | some j => exact turn_lt hi hturn

end Arbiter

/-- The round-robin scheduler is fair. Each class with several members has a register with a single bit set, and
takes turns by it in every state that inputs and clock edges lead to. While a member wants to run in each of
some consecutive cycles and is not granted, no other is granted twice. -/
theorem takes_turns {d : Draft} (hd : d.Recorded) {sink sink' : DiagnosticSink} {e : Elaborated}
    (he : d.design.elaborate sink = .ok (.ok e, sink')) (hrobin : d.design.config.scheduler = .roundRobin)
    {f : Design.Fused} (hf : Attempt.Gives d.design.fused f) {s : Schedule}
    (hs : f.design.schedule f.map = .ok s) {members : List NodeId} (hm : members ∈ s.components)
    (hsev : 1 < members.length) :
    ∃ last r, e.netlist.signals.get? last = some r ∧ r.kind = .reg ∧ r.width = members.length ∧
      (∀ k, Kernel.Reachable e.netlist k → ∃ i < members.length, f.design.TakesTurn members last k i) ∧
      ∀ k ks, Kernel.Reachable e.netlist k → (k :: ks).IsChain Kernel.NextCycle → ∀ t ∈ members, ∀ u ∈ members,
        (∀ x ∈ k :: ks, f.design.Wanting x t ∧ ¬ f.design.Granted x t) →
        (k :: ks).countP (f.design.Granted · u) ≤ 1 := by
  obtain ⟨d', l, h, hnetlist⟩ := Design.elaborate_circuit hd.sound he hf hs
  obtain ⟨hconfig, -⟩ := Design.fused_settings hd.sound hf
  have hall := h.schedules.members members hm
  have hw := h.toWired
  rw [hnetlist]
  cases h.arbiters members hm with
  | eager hc => exact absurd ⟨hsev, hconfig ▸ hrobin⟩ hc
  | turns _ last ht =>
    obtain ⟨r, hr, hwidth, hkind, -⟩ := ht.register
    refine ⟨last, r, hr, hkind, hwidth, fun k hk => ?_, fun k ks hk hchain t htm u hum hwaits => ?_⟩
    · obtain ⟨i, hi, hat⟩ := ht.oneHot hw hall hk
      exact ⟨i, hi, ht.cycle hw hall hk hi hat⟩
    · obtain ⟨i, hi, hat⟩ := ht.oneHot hw hall hk
      obtain ⟨j, hj⟩ := List.mem_iff_getElem?.1 htm
      obtain ⟨p, hp⟩ := List.mem_iff_getElem?.1 hum
      exact ht.granted_once hw hall hj hp ks k i hk hi hat hchain hwaits

namespace Draft

/-- Three transactions that call one method. -/
def rotating : List Action :=
  [.transaction "A" .generated, .transaction "B" .generated, .transaction "C" .generated,
    .method { name := "m" } .generated, .openModule "",
    .inModule 0 (.openMethod 3 .one none .generated), .inModule 0 .leaveBody,
    .inModule 0 (.openTransaction 0 .one .generated),
    .inModule 0 (.call 3 (.zero 0) .one .generated), .inModule 0 .leaveBody,
    .inModule 0 (.openTransaction 1 .one .generated),
    .inModule 0 (.call 3 (.zero 0) .one .generated), .inModule 0 .leaveBody,
    .inModule 0 (.openTransaction 2 .one .generated),
    .inModule 0 (.call 3 (.zero 0) .one .generated), .inModule 0 .leaveBody]

end Draft

/-- `A` has the first turn and its position goes into the register; `C` waits for two cycles, in which `A` is
granted once. -/
theorem takes_turns_of_rotating :
    ∃ x : Draft.Trial, ∃ k : Kernel, ∃ last : SignalId,
      (Draft.under { scheduler := .roundRobin } Draft.rotating).trial? = some x ∧ x.kernel.tick = .ok k ∧
      x.fused.design.Granted x.kernel 0 ∧ k.get last = .ok 1 ∧
      [x.kernel, k].countP (x.fused.design.Granted · 0) ≤ 1 := by
  have hrec : (Draft.under { scheduler := .roundRobin } Draft.rotating).Recorded :=
    Draft.recorded_under (by decide +kernel)
  have hrobin : (Draft.under { scheduler := .roundRobin } Draft.rotating).design.config.scheduler = .roundRobin := by
    decide +kernel
  have htrial : ∃ x ∈ (Draft.under { scheduler := .roundRobin } Draft.rotating).trial?,
      ∃ k ∈ x.kernel.tick.toOption, x.schedule.components = [[0, 1, 2]] ∧ x.fused.design.Granted x.kernel 0 ∧
        (x.fused.design.Wanting x.kernel 2 ∧ ¬ x.fused.design.Granted x.kernel 2) ∧
        x.fused.design.Wanting k 2 ∧ ¬ x.fused.design.Granted k 2 := by
    decide +kernel
  obtain ⟨x, hx, k, hk', hclass, hgrant, hwait, hwait'⟩ := htrial
  obtain ⟨hf, hs, he, hk⟩ := Draft.trial_ok hx
  have htick : x.kernel.tick = .ok k := Except.toOption_eq_some.1 hk'
  have hmem : [0, 1, 2] ∈ x.schedule.components := by
    rw [hclass]
    exact List.mem_singleton_self _
  obtain ⟨last, -, -, -, -, hcycle, hfair⟩ := takes_turns hrec he hrobin hf hs hmem (by decide)
  obtain ⟨i, -, hturn⟩ := hcycle x.kernel hk
  have hlast := hturn.next k htick
  rw [(hturn.granted 0 0 rfl).1 hgrant] at hlast
  refine ⟨x, k, last, hx, htick, hgrant, hlast, hfair x.kernel [k] hk ?_ 2 (by decide) 0 (by decide) fun y hy => ?_⟩
  · exact List.isChain_cons_cons.2 ⟨⟨k, htick, .refl⟩, .singleton k⟩
  · rcases List.mem_cons.1 hy with rfl | hy
    · exact hwait
    · rw [List.mem_singleton.1 hy]
      exact hwait'

end Interlock
