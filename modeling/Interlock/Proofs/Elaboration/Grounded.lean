import Interlock.Proofs.CallLogic.Runs
import Interlock.Proofs.Elaboration.Closed
import Interlock.Proofs.Netlist.Loops
import Mathlib.Data.List.Induction

/-! Signals from which no chain of reads goes on forever. Requests and conditions that are grounded make grants
grounded, since a grant reads those of transactions that come before it in their class; and grants make what runs
and what is passed grounded, since the ways of calls to a method are longer than those to its callers. -/

namespace Interlock.Design

open Interlock.Expr (ReadsIn closed_readsIn)

variable {d d' : Design} {map : CallMap} {s : Schedule} {l : List GuardedAssign}

/-- Every chain of reads that starts here comes to an end. -/
def Grounded (d : Design) (x : SignalId) : Prop := Acc d.Feeds x

theorem grounded_of {x : SignalId} (h : ∀ a ∈ d.assigns, a.domain = .comb → a.target = x → ∀ y ∈ a.reads, d.Grounded y) :
    d.Grounded x := by
  refine Acc.intro x fun y hy => ?_
  obtain ⟨a, ha, hdomain, hx, hy⟩ := hy
  exact h a ha hdomain hx y hy

/-- Nothing but a wire is driven by combinational assignments. -/
theorem Regular.grounded (hr : d.Regular) {x : SignalId} {r : Signal} (hx : d.netlist.signals.get? x = some r)
    (hkind : r.kind ≠ .wire) : d.Grounded x := by
  refine grounded_of fun a ha hdomain hax => ?_
  obtain ⟨r', hr', haccepts⟩ := hr.domains a ha
  rw [hax, hx] at hr'
  obtain rfl := Option.some.inj hr'
  rw [hdomain] at haccepts
  unfold Netlist.SignalKind.accepts at haccepts
  split at haccepts <;> simp_all

theorem readsIn_read {S : SignalId → Prop} {x : SignalId} (h : S x) : ReadsIn S (d.read x) := by
  intro y hy
  rw [List.mem_singleton.1 hy]
  exact h

/-- The only assignment to a generated wire. -/
theorem Circuit.only (h : Circuit d map s d' l) {a b : GuardedAssign} (ha : a ∈ d'.assigns) (hb : b ∈ l)
    (he : a.target = b.target) : a = b := by
  rw [h.gains.assigns] at ha
  rcases List.mem_append.1 ha with ha | ha
  · exact absurd he (h.sound.undriven (h.logic.undriven b hb) a ha)
  · exact List.inj_on_of_nodup_map h.logic.nodup ha hb he

theorem Circuit.grounded (h : Circuit d map s d' l) {x : SignalId} {e : Expr} (hb : Drivers.always x e ∈ l)
    (he : ReadsIn d'.Grounded e) : d'.Grounded x := by
  refine grounded_of fun a ha _ hx y hy => ?_
  obtain rfl := h.only ha hb hx
  exact he y ((List.mem_append.1 hy).resolve_left List.not_mem_nil)

/-! ### Grants -/

theorem Circuit.grounded_grant (h : Circuit d map s d' l) (hr : d'.Regular)
    (hwants : ∀ t ∈ d.transactions, ReadsIn d'.Grounded (Arbiter.wants d t)) {t : NodeId} (ht : t ∈ d.transactions) :
    d'.Grounded (d.node t).activator := by
  obtain ⟨members, hm, ht⟩ := List.mem_flatten.1 ((h.schedules.classes t).2 ht)
  have hmembers := h.schedules.members members hm
  cases h.arbiters members hm with
  | eager _ hall =>
    -- Grants that come before are grounded, and with them the next one.
    have earlier : ∀ pre post, members = pre ++ post → ∀ u ∈ pre, d'.Grounded (d.node u).activator := by
      intro pre
      induction pre using List.reverseRecOn with
      | nil => exact fun _ _ u hu => absurd hu List.not_mem_nil
      | append_singleton pre v ih =>
        intro post he u hu
        rw [List.append_assoc, List.singleton_append] at he
        have hpre := ih (v :: post) he
        rcases List.mem_append.1 hu with hu | hu
        · exact hpre u hu
        · obtain rfl := List.mem_singleton.1 hu
          refine h.grounded (hall pre u post he) (Arbiter.closed_eagerGrant (closed_readsIn _) (hwants u ?_) fun w hw => ?_)
          · exact hmembers u (by simp [he])
          · obtain ⟨info, htr⟩ := h.sound.transaction (hmembers w (by simp [he, hw]))
            rw [Arbiter.grantOf_eq htr]
            exact readsIn_read (htr.activator ▸ hpre w hw)
    exact earlier members [] (List.append_nil _).symm t ht
  | turns _ last hturns =>
    obtain ⟨k, hk⟩ := List.mem_iff_getElem?.1 ht
    refine h.grounded (hturns.grants k t hk) (Arbiter.closed_turnGrant (closed_readsIn _) (fun x hx => ?_)
      (fun e he => ?_) k)
    · obtain ⟨r, hreg, -, hkind, -⟩ := hturns.register
      obtain rfl := List.mem_singleton.1 hx
      exact hr.grounded hreg (by rw [hkind]; decide)
    · obtain ⟨u, hu, rfl⟩ := List.mem_map.1 he
      exact hwants u (hmembers u hu)

/-! ### What runs, and what is passed -/

/-- The argument bus of a body. -/
def ArgumentOf (d : Design) (c : NodeId) (x : SignalId) : Prop := ∃ info ∈ (d.node c).method?, info.dataIn = some x

/-- Besides what is grounded, the calls of a body read the argument bus of the body at most. -/
def SitesGrounded (d d' : Design) : Prop :=
  ∀ c m sites, (m, sites) ∈ (d.node c).calls → ∀ s ∈ sites, ∀ x ∈ s.enable.reads ++ s.arg.reads,
    d'.Grounded x ∨ d.ArgumentOf c x

/-- Own combining functions read what they are given, or what is grounded. -/
def CombinersGrounded (d d' : Design) : Prop :=
  ∀ m info, (d.node m).method? = some info → ∀ f, info.combiner = some (.custom f) → ∀ args runs,
    (∀ a ∈ args, ReadsIn d'.Grounded a) → (∀ r ∈ runs, ReadsIn d'.Grounded r) → ReadsIn d'.Grounded (f args runs)

/-- A body whose activator and argument bus are grounded. -/
structure BodyGrounded (d d' : Design) (c : NodeId) : Prop where
  runs : d'.Grounded (d.node c).activator
  dataIn : ∀ x, d.ArgumentOf c x → d'.Grounded x

/-- A method is grounded where the bodies that call it and can run are. -/
theorem Circuit.grounded_callee (h : Circuit d map s d' l) (hsites : SitesGrounded d d')
    (hcombiners : CombinersGrounded d d') {m : NodeId} {info : MethodInfo} (hinfo : (d.node m).method? = some info)
    (hcallers : ∀ c n, d.nodes.get? c = some n → CallLogic.isLive d map c = true → d.Calls c m → BodyGrounded d d' c) :
    BodyGrounded d d' m := by
  have hcalls : ∀ call ∈ CallLogic.callsTo d map m, ReadsIn d'.Grounded call.active ∧ ReadsIn d'.Grounded call.arg := by
    intro call hcall
    obtain ⟨c, n, sites, site, hn, hlive, hmem, hsite, rfl⟩ := CallLogic.mem_callsTo h.sound hcall
    have hmem : (m, sites) ∈ (d.node c).calls := by rwa [node_of_get? hn]
    obtain ⟨hruns, hbus⟩ := hcallers c n hn hlive ⟨⟨sites, hmem⟩, info, hinfo⟩
    have hreads : ∀ x ∈ site.enable.reads ++ site.arg.reads, d'.Grounded x := fun x hx =>
      (hsites c m sites hmem site hsite x hx).elim id (hbus x)
    rw [node_of_get? hn] at hruns
    exact ⟨(closed_readsIn _).and (readsIn_read hruns) fun x hx => hreads x (List.mem_append_left _ hx),
      fun x hx => hreads x (List.mem_append_right _ hx)⟩
  obtain ⟨hrun, hbuses⟩ := h.driven hinfo
  refine ⟨?_, fun x hx => ?_⟩
  · rw [activator_of_method hinfo]
    refine h.grounded hrun ((closed_readsIn _).any fun e he => ?_)
    obtain ⟨call, hcall, rfl⟩ := List.mem_map.1 he
    exact (hcalls call hcall).1
  · obtain ⟨info', hinfo', hx⟩ := hx
    obtain rfl := Option.some.inj (hinfo.symm.trans hinfo')
    obtain ⟨e, he, ha⟩ := hbuses x hx
    exact h.grounded ha (CallLogic.closed_argument (closed_readsIn _) trivial hcalls (hcombiners m info hinfo) he)

theorem Circuit.grounded_body (h : Circuit d map s d' l) (hsites : SitesGrounded d d')
    (hcombiners : CombinersGrounded d d') (hgrants : ∀ t ∈ d.transactions, d'.Grounded (d.node t).activator)
    (c : NodeId) : c ∈ d.transactions ∨ (∃ info, (d.node c).method? = some info) → BodyGrounded d d' c := by
  have transaction : ∀ t ∈ d.transactions, BodyGrounded d d' t := fun t ht => ⟨hgrants t ht, fun x hx => by
    obtain ⟨info, hinfo, -⟩ := hx
    obtain ⟨_, htr⟩ := h.sound.transaction ht
    rw [Node.method?, htr.kind] at hinfo
    cases hinfo⟩
  -- The ways to the callers of a method are shorter than the longest one to the method.
  have method : ∀ (k : Nat) (m : NodeId) (info : MethodInfo), (d.node m).method? = some info →
      (∀ t ∈ d.transactions, ∀ callers, d.Way t callers m → callers.length < k) → BodyGrounded d d' m := by
    intro k
    induction k with
    | zero =>
      refine fun m info hinfo hways => h.grounded_callee hsites hcombiners hinfo fun c n hn hlive hcalls => ?_
      rcases h.live_cases hn hlive with ht | ⟨t, ht, callers, hway⟩
      · exact absurd (hways c ht [] (.direct hcalls)) (Nat.not_lt_zero _)
      · exact absurd (hways t ht _ (hway.extend hcalls)) (Nat.not_lt_zero _)
    | succ k ih =>
      refine fun m info hinfo hways => h.grounded_callee hsites hcombiners hinfo fun c n hn hlive hcalls => ?_
      rcases h.live_cases hn hlive with ht | ⟨t, -, callers, hway⟩
      · exact transaction c ht
      · obtain ⟨-, cinfo, hcinfo⟩ := hway.calls
        exact ih c cinfo hcinfo fun t ht callers hway => Nat.lt_of_succ_lt_succ (hways t ht _ (hway.extend hcalls))
  rintro (ht | ⟨info, hinfo⟩)
  · exact transaction c ht
  · refine method d.nodes.size c info hinfo fun t ht callers hway => ?_
    obtain ⟨hnodup, hlt⟩ := hway.nodup h.describes ht
    exact length_le_size hnodup hlt

end Interlock.Design
