import Interlock.Proofs.Elaboration.Closed
import Interlock.Proofs.Expr.Defined
import Interlock.Proofs.Fusion.Added
import Interlock.Proofs.Reach.Closed

/-! Designs in which every width is defined. Elaboration keeps that: what it generates is put together from
expressions of the design and reads of signals that fit a word. -/

namespace Interlock

/-- It is not a function of its own. -/
def Combiner.isStock : Combiner → Bool
  | custom _ => false
  | _ => true

namespace Design

open Interlock.Expr (closed_defined defined_substitute)

variable {d d' : Design}

/-- Every width is defined: of what is assigned and passed, of the conditions for it, and of what validators and
combiners make of such expressions. -/
structure Defined (d : Design) : Prop where
  assigns : ∀ a ∈ d.assigns, a.guard.Defined ∧ a.value.Defined
  sites : ∀ c m sites, (m, sites) ∈ (d.node c).calls → ∀ s ∈ sites, s.enable.Defined ∧ s.arg.Defined
  validators : ∀ m info, (d.node m).method? = some info → ∀ v, info.validator = some v →
    v.Keeps Expr.Defined Expr.Defined
  combiners : ∀ m info, (d.node m).method? = some info → ∀ f, info.combiner = some (.custom f) →
    ∀ args runs, (∀ a ∈ args, a.Defined) → (∀ r ∈ runs, r.Defined) → (f args runs).Defined

/-- Nothing but stock functions: no validator, and no combiner of its own. -/
def stock (info : MethodInfo) : Bool :=
  info.validator.isNone && match info.combiner with
    | some (.custom _) => false
    | _ => true

theorem stock_functions {info : MethodInfo} (h : stock info = true) :
    info.validator = none ∧ ∀ f, info.combiner ≠ some (.custom f) := by
  simp only [stock, Bool.and_eq_true, Option.isNone_iff_eq_none] at h
  refine ⟨h.1, fun f hf => ?_⟩
  rw [hf] at h
  exact absurd h.2 Bool.false_ne_true

theorem stock_method (h : ∀ n ∈ d.nodeList, n.method?.all stock = true) {m : NodeId} {info : MethodInfo}
    (hm : (d.node m).method? = some info) : stock info = true := by
  obtain ⟨n, hn, hnode, -⟩ := get?_of_method hm
  have hall := h n (Arena.mem_toList.2 ⟨m, hn⟩)
  rwa [← hnode, hm] at hall

/-- Where all functions are stock ones, it is enough to look at assignments and calls. -/
theorem Defined.of_stock (h : ((d.assigns.all fun a => a.guard.defined && a.value.defined) &&
    d.nodeList.all fun n => (n.calls.all fun c => c.2.all fun s => s.enable.defined && s.arg.defined) &&
      n.method?.all stock) = true) : d.Defined := by
  simp only [Bool.and_eq_true, List.all_eq_true] at h
  obtain ⟨hassigns, hnodes⟩ := h
  have functions : ∀ m info, (d.node m).method? = some info → info.validator = none ∧ ∀ f, info.combiner ≠ some (.custom f) :=
    fun m info hm => stock_functions (stock_method (fun n hn => (hnodes n hn).2) hm)
  refine ⟨hassigns, fun c m sites hc s hs => ?_, fun m info hm v hv => ?_, fun m info hm f hf => ?_⟩
  · obtain ⟨n, hn, hmem⟩ := get?_of_calls hc
    exact (hnodes n (Arena.mem_toList.2 ⟨c, hn⟩)).1 _ hmem s hs
  · cases (functions m info hm).1.symm.trans hv
  · exact absurd hf ((functions m info hm).2 f)

theorem defined_read (hr : d.Regular) (x : SignalId) : (d.read x).Defined := by
  refine decide_eq_true ?_
  unfold Netlist.widthOf
  split
  · rename_i s hs
    exact Nat.lt_of_le_of_lt (hr.narrow x s hs) (by decide)
  · decide

theorem defined_transactionSignal (hr : d.Regular) (t : NodeId) (pick : TransactionInfo → SignalId) :
    (d.transactionSignal t pick).Defined := by
  unfold transactionSignal
  split
  · exact defined_read hr _
  · split
    · exact defined_read hr _
    · exact closed_defined.zero (by decide)

theorem Regular.input (hr : d.Regular) {m : NodeId} {info : MethodInfo} (h : (d.node m).method? = some info) :
    info.input.width ≤ maxWidth := by
  obtain ⟨n, hn, -, hk⟩ := get?_of_method h
  exact (hr.nodes m n hn).input info hk

theorem Defined.fused {f : Fused} (h : d.Defined) (hd : d.Sound) (hr : d.Regular)
    (hf : Attempt.Gives d.fused f) : f.design.Defined := by
  have hr' := hr.fused hd hf
  obtain ⟨members, -, -, hassigns⟩ := fused_assigns hf hd
  refine ⟨fun a ha => ?_, fun c m sites hc s hs => ?_, fun m info hm v hv => ?_, fun m info hm g hg => ?_⟩
  · rw [hassigns, List.mem_append, List.mem_append] at ha
    rcases ha with (ha | ha) | ha
    · exact h.assigns a ha
    · obtain ⟨g, -, rfl⟩ := List.mem_map.1 ha
      exact ⟨closed_defined.one, closed_defined.one⟩
    · obtain ⟨m, -, hma⟩ := List.mem_filterMap.1 ha
      obtain ⟨origin, -, rfl⟩ := Option.map_eq_some_iff.1 hma
      refine ⟨closed_defined.one, closed_defined.any fun e he => ?_⟩
      obtain ⟨g, -, rfl⟩ := List.mem_map.1 he
      exact defined_transactionSignal hr' _ _
  · rcases fused_calls_cases hf hd hc with hc | ⟨-, -, -, -, module, he⟩
    · exact h.sites c m sites hc s hs
    · obtain ⟨-, rfl⟩ := Prod.mk.inj he
      obtain rfl := List.mem_singleton.1 hs
      exact ⟨closed_defined.one, closed_defined.zero (by decide)⟩
  · rcases fused_method_cases hf hd hm with hm | ⟨-, t, -, rfl⟩
    · exact h.validators m info hm v hv
    · cases hv
  · rcases fused_method_cases hf hd hm with hm | ⟨-, t, -, rfl⟩
    · exact h.combiners m info hm g hg
    · cases hg

theorem Defined.conditions {map : CallMap} (h : d.Defined) (hd : d.Sound) (hr : d.Regular)
    (hmap : Attempt.Gives (CallMap.build d) map) : ∀ r ∈ map.reaches, r.readiness.Defined := by
  refine CallMap.build_satisfies hd closed_defined closed_defined (fun _ he => he)
    (fun c m sites hc s hs f hf _ => ?_) (fun m info hm => ?_) hmap
  · obtain ⟨henable, harg⟩ := h.sites c m sites hc s hs
    exact ⟨defined_substitute hf henable, defined_substitute hf harg⟩
  · exact ⟨closed_defined.small (hr.input hm), defined_read hr _, h.validators m info hm⟩

/-- Generated logic is of defined width. -/
theorem Circuit.defined {map : CallMap} {s : Schedule} {l : List GuardedAssign} (h : Circuit d map s d' l)
    (hdef : d.Defined) (hr : d.Regular) (hmap : Attempt.Gives (CallMap.build d) map) : d'.Defined := by
  have wants : ∀ t ∈ d.transactions, (Arbiter.wants d t).Defined := by
    intro t ht
    obtain ⟨info, htr⟩ := h.sound.transaction ht
    exact Arbiter.closed_wants closed_defined htr (defined_read hr _) (defined_read hr _)
  have grants : ∀ t, (Arbiter.grantOf d t).Defined := fun t => defined_transactionSignal hr t _
  have calls : ∀ m, ∀ c ∈ CallLogic.callsTo d map m, c.active.Defined ∧ c.arg.Defined := by
    intro m call hcall
    obtain ⟨c, n, sites, s, hn, -, hsites, hs, rfl⟩ := CallLogic.mem_callsTo h.sound hcall
    obtain ⟨henable, harg⟩ := hdef.sites c m sites (by rw [node_of_get? hn]; exact hsites) s hs
    exact ⟨closed_defined.and (defined_read hr _) henable, harg⟩
  have node : ∀ i, d'.node i = d.node i := h.gains.node
  refine ⟨fun a ha => ?_, fun c m sites hc => ?_, fun m info hm => ?_, fun m info hm => ?_⟩
  · rw [h.gains.assigns] at ha
    rcases List.mem_append.1 ha with ha | ha
    · exact hdef.assigns a ha
    have members := h.schedules.members
    cases h.generated ha with
    | eager hm =>
      exact ⟨closed_defined.one, Arbiter.closed_eagerGrant closed_defined (wants _ (members _ hm _ (by simp)))
        fun u _ => grants u⟩
    | turn hm hl ht =>
      refine ⟨closed_defined.one, Arbiter.closed_turnGrant closed_defined ?_ (fun e he => ?_) _⟩
      · exact decide_eq_true (Nat.lt_of_le_of_lt hl.fits (by decide))
      · obtain ⟨u, hu, rfl⟩ := List.mem_map.1 he
        exact wants u (members _ hm u hu)
    | @last group _ hm hl =>
      have hgrants : ∀ e ∈ group.map (Arbiter.grantOf d), e.Defined := fun e he => by
        obtain ⟨u, -, rfl⟩ := List.mem_map.1 he
        exact grants u
      refine ⟨closed_defined.any hgrants, closed_defined.join hgrants ?_⟩
      rw [Expr.totalWidth_bits, List.length_map]
      · exact Nat.lt_of_le_of_lt hl.fits (by decide)
      · intro e he
        obtain ⟨u, hu, rfl⟩ := List.mem_map.1 he
        obtain ⟨info, htr⟩ := h.sound.transaction (members _ hm u hu)
        rw [Arbiter.grantOf_eq htr]
        exact htr.grant.widthOf
    | run _ _ =>
      refine ⟨closed_defined.one, closed_defined.any fun e he => ?_⟩
      obtain ⟨c, hc, rfl⟩ := List.mem_map.1 he
      exact (calls _ c hc).1
    | @dataIn m info bus e hm hinfo _ he =>
      obtain ⟨i, hi⟩ := Arena.mem_toList.1 hm
      have hinfo : (d.node i).method? = some info := by rw [node_of_get? hi, hinfo]
      exact ⟨closed_defined.one, CallLogic.closed_argument closed_defined (closed_defined.small (hr.input hinfo))
        (calls _) (hdef.combiners i info hinfo) he⟩
    | runnable _ _ =>
      exact ⟨closed_defined.one, CallLogic.closed_conditions closed_defined (hdef.conditions h.sound hr hmap) _⟩
  · rw [node] at hc
    exact hdef.sites c m sites hc
  · rw [node] at hm
    exact hdef.validators m info hm
  · rw [node] at hm
    exact hdef.combiners m info hm

end Design

end Interlock
