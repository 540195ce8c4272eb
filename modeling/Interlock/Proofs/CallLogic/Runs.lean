import Interlock.Proofs.Elaboration

/-! Why a method runs. It is called by a body that runs itself, and going back from caller to caller one
comes to a transaction that is granted: otherwise the callers would repeat themselves, and then some
transaction would reach a method through itself. -/

namespace Interlock.Design

variable {d d' : Design} {map : CallMap} {s : Schedule} {l : List GuardedAssign} {k : Kernel}

/-- A body that runs makes a call of a method. -/
structure Activates (d : Design) (k : Kernel) (c m : NodeId) : Prop where
  calls : d.Calls c m
  runs : d.runs k c = true
  site : ∃ site ∈ (d.node c).sitesTo m, site.enable.truth k.values.valuation = true

/-- A way on which every body runs and makes the next call. -/
inductive ActiveWay (d : Design) (k : Kernel) (t : NodeId) : List NodeId → NodeId → Prop
  | direct {m : NodeId} (h : d.Activates k t m) : ActiveWay d k t [] m
  | through {callers : List NodeId} {c m : NodeId} (hc : ActiveWay d k t callers c)
      (h : d.Activates k c m) : ActiveWay d k t (c :: callers) m

theorem ActiveWay.way {t m : NodeId} {callers : List NodeId} (h : d.ActiveWay k t callers m) :
    d.Way t callers m := by
  induction h with
  | direct h => exact .direct h.calls
  | through _ h ih => exact ih.extend h.calls

theorem Way.callee_lt {t m : NodeId} {callers : List NodeId} (h : d.Way t callers m) :
    m < d.nodes.size := by
  obtain ⟨-, info, hinfo⟩ := h.calls
  exact lt_of_method hinfo

/-- No method is on a way twice. -/
theorem Way.nodup (hmap : map.Describes d) {t m : NodeId} {callers : List NodeId} (ht : t ∈ d.transactions)
    (h : d.Way t callers m) : (m :: callers).Nodup ∧ ∀ x ∈ m :: callers, x < d.nodes.size := by
  have hm := h.callee_lt
  have hnew := (hmap.covers t ht callers m h).1
  induction h with
  | direct h => simpa using hm
  | through hc h ih =>
    obtain ⟨hnodup, hlt⟩ := ih hc.callee_lt (hmap.covers t ht _ _ hc).1
    refine ⟨List.nodup_cons.2 ⟨hnew, hnodup⟩, fun x hx => ?_⟩
    rcases List.mem_cons.1 hx with rfl | hx
    · exact hm
    · exact hlt x hx

theorem Sound.calls_of_caller (hd : d.Sound) {c m : NodeId} (hc : c ∈ d.callersOf m) {info : MethodInfo}
    (hm : (d.node m).method? = some info) : d.Calls c m := by
  obtain ⟨n, hn, hany⟩ := (CallLogic.mem_callersOf hd).1 hc
  obtain ⟨⟨m', sites⟩, hmem, he⟩ := List.any_eq_true.1 hany
  obtain rfl : m' = m := by simpa using he
  exact ⟨⟨sites, by rw [node_of_get? hn]; exact hmem⟩, info, hm⟩

theorem Sound.caller_of_calls (hd : d.Sound) {c m : NodeId} (h : d.Calls c m) : c ∈ d.callersOf m := by
  obtain ⟨⟨sites, hmem⟩, -⟩ := h
  obtain ⟨n, hn, hcalls⟩ := get?_of_calls hmem
  exact (CallLogic.mem_callersOf hd).2 ⟨n, hn, List.any_eq_true.2 ⟨(m, sites), hcalls, beq_self_eq_true m⟩⟩

theorem Sound.activator_isBit (hd : d.Sound) {c m : NodeId} (hc : c ∈ d.callersOf m) :
    d.netlist.IsBit (d.node c).activator := by
  obtain ⟨n, hn, -⟩ := (CallLogic.mem_callersOf hd).1 hc
  rw [node_of_get? hn]
  exact (hd.nodes c n hn).single _ n.activator_mem_control

/-- The last step of a way. -/
theorem Way.last (hd : d.Sound) {t m : NodeId} {callers : List NodeId} (h : d.Way t callers m) :
    (callers = [] ∧ t ∈ d.callersOf m) ∨
      ∃ c rest, callers = c :: rest ∧ c ∈ d.callersOf m ∧ d.Way t rest c := by
  cases h with
  | direct h => exact .inl ⟨rfl, hd.caller_of_calls h⟩
  | through hc h => exact .inr ⟨_, _, rfl, hd.caller_of_calls h, hc⟩

/-- What is driven for a method. -/
theorem Circuit.driven (h : Circuit d map s d' l) {m : NodeId} {info : MethodInfo}
    (hm : (d.node m).method? = some info) :
    Drivers.always info.run (.any ((CallLogic.callsTo d map m).map (·.active))) ∈ l ∧
      ∀ bus, info.dataIn = some bus →
        ∃ e, CallLogic.argument info (CallLogic.callsTo d map m) = .ok e ∧ Drivers.always bus e ∈ l := by
  obtain ⟨n, hn, hnode, -⟩ := get?_of_method hm
  have hdriven := h.methods n (Arena.mem_toList.2 ⟨m, hn⟩) info (hnode ▸ hm)
  rwa [(h.sound.nodes m n hn).id] at hdriven

/-- A method runs where a body that can run at all makes a call of it. -/
theorem Circuit.runs_iff (h : Circuit d map s d' l) (hk : k.Steady d'.lowered) {m : NodeId} {info : MethodInfo}
    (hm : (d.node m).method? = some info) :
    d.runs k m = true ↔ ∃ c ∈ d.callersOf m, CallLogic.isLive d map c = true ∧ d.Activates k c m := by
  have hvalue := h.value hk (h.sound.run_isBit hm).1 (h.driven hm).1
  rw [runs, activator_of_method hm, hvalue, Expr.truth_any, List.any_eq_true]
  simp only [List.mem_map, CallLogic.callsTo, List.mem_flatMap, List.mem_filter, CallLogic.callsFrom]
  constructor
  · rintro ⟨_, ⟨_, ⟨c, ⟨hc, hlive⟩, site, hsite, rfl⟩, rfl⟩, htruth⟩
    rw [Expr.truth_and, truth_read (h.sound.activator_isBit hc), Bool.and_eq_true] at htruth
    exact ⟨c, hc, hlive, h.sound.calls_of_caller hc hm, htruth.1, site, hsite, htruth.2⟩
  · rintro ⟨c, hc, hlive, -, hruns, site, hsite, htruth⟩
    refine ⟨_, ⟨_, ⟨c, ⟨hc, hlive⟩, site, hsite, rfl⟩, rfl⟩, ?_⟩
    rw [Expr.truth_and, truth_read (h.sound.activator_isBit hc), htruth, Bool.and_true]
    exact hruns

theorem Circuit.live_cases (h : Circuit d map s d' l) {c : NodeId} {n : Node} (hc : d.nodes.get? c = some n)
    (hlive : CallLogic.isLive d map c = true) :
    c ∈ d.transactions ∨ ∃ t ∈ d.transactions, ∃ callers, d.Way t callers c := by
  rw [CallLogic.isLive, Bool.or_eq_true, node_of_get? hc] at hlive
  rcases hlive with htr | hreached
  · unfold Node.isTransaction Node.transaction? at htr
    split at htr
    · exact .inl (h.sound.mem_transactions.2 ⟨n, _, hc, ‹_›⟩)
    · cases htr
  · obtain ⟨r, hr, he⟩ := List.any_eq_true.1 hreached
    obtain rfl : r.method = c := by simpa using he
    exact .inr ⟨r.transaction, (h.describes.right r hr).transaction, r.callers, (h.describes.right r hr).way⟩

/-- A body that runs is that of a granted transaction, or such a transaction has an active way to it. The
bodies met so far on the way back, from `c` on to `z`, are fewer than there are nodes. -/
theorem Circuit.granted_above (h : Circuit d map s d' l) (hk : k.Steady d'.lowered) :
    ∀ (fuel : Nat) (inner : List NodeId) (c z : NodeId), d.nodes.size < fuel + inner.length →
      (∃ n, d.nodes.get? c = some n) → CallLogic.isLive d map c = true → d.runs k c = true →
      (∀ t callers, d.Way t callers c → d.Way t (inner ++ c :: callers) z) →
      ∃ t ∈ d.transactions, d.runs k t = true ∧ (t = c ∨ ∃ callers, d.ActiveWay k t callers c) := by
  intro fuel
  induction fuel with
  | zero =>
    intro inner c z hfuel ⟨n, hn⟩ hlive hruns hway
    rcases h.live_cases hn hlive with htr | ⟨t, ht, callers, hc⟩
    · exact ⟨c, htr, hruns, .inl rfl⟩
    · -- Too many bodies have been met for all of them to differ.
      obtain ⟨hnodup, hlt⟩ := (hway t callers hc).nodup h.describes ht
      have := length_le_size hnodup hlt
      rw [List.length_cons, List.length_append] at this
      omega
  | succ fuel ih =>
    intro inner c z hfuel ⟨n, hn⟩ hlive hruns hway
    rcases h.live_cases hn hlive with htr | ⟨t, ht, callers, hc⟩
    · exact ⟨c, htr, hruns, .inl rfl⟩
    · obtain ⟨-, info, hinfo⟩ := hc.calls
      obtain ⟨b, hb, hblive, hactive⟩ := (h.runs_iff hk hinfo).1 hruns
      obtain ⟨m, hm, -⟩ := (CallLogic.mem_callersOf h.sound).1 hb
      obtain ⟨u, hu, hgrant, hway'⟩ := ih (inner ++ [c]) b z (by simp; omega) ⟨m, hm⟩ hblive hactive.runs
        fun t callers hw => by simpa using hway t (b :: callers) (hw.extend hactive.calls)
      refine ⟨u, hu, hgrant, .inr ?_⟩
      rcases hway' with rfl | ⟨callers, hway'⟩
      · exact ⟨[], .direct hactive⟩
      · exact ⟨b :: callers, .through hway' hactive⟩

/-- A method that runs is called on an active way from a granted transaction, through any body that makes
a call of it. -/
theorem Circuit.activeWay (h : Circuit d map s d' l) (hk : k.Steady d'.lowered) {c m : NodeId}
    (hc : c ∈ d.callersOf m) (hlive : CallLogic.isLive d map c = true) (hactive : d.Activates k c m) :
    ∃ t ∈ d.transactions, d.runs k t = true ∧ ∃ callers, callers.headD t = c ∧ d.ActiveWay k t callers m := by
  obtain ⟨n, hn, -⟩ := (CallLogic.mem_callersOf h.sound).1 hc
  obtain ⟨t, ht, hgrant, hway⟩ := h.granted_above hk (d.nodes.size + 1) [] c m (by simp) ⟨n, hn⟩ hlive
    hactive.runs fun t callers hw => hw.extend hactive.calls
  refine ⟨t, ht, hgrant, ?_⟩
  rcases hway with rfl | ⟨callers, hway⟩
  · exact ⟨[], rfl, .direct hactive⟩
  · exact ⟨c :: callers, rfl, .through hway hactive⟩

end Interlock.Design

/-! ### Where ways part

Where two active ways from a transaction to a method part: at a body that runs and makes both of the
calls with which they go on. -/

namespace Interlock

namespace CallMap

theorem clash?_none {as bs : List CallSite} (h : clash? as bs = none) {a b : CallSite} (ha : a ∈ as)
    (hb : b ∈ bs) : a.path.exclusiveWith b.path = true := by
  have hnone := List.findSome?_eq_none_iff.1 h a ha
  rw [Option.map_eq_none_iff, List.find?_eq_none] at hnone
  simpa using hnone b hb

theorem checkSecond_ok {d : Design} {r : Reach} {callers : List NodeId} (h : checkSecond d r callers = .ok ())
    (hm : (d.node r.method).isNonexclusive = false) {c x y : NodeId}
    (hfork : fork r.method r.transaction r.callers.reverse callers.reverse = (c, x, y)) {a b : CallSite}
    (ha : a ∈ (d.node c).sitesTo x) (hb : b ∈ (d.node c).sitesTo y) : a.path.exclusiveWith b.path = true := by
  unfold checkSecond at h
  rw [hm, if_neg Bool.false_ne_true, hfork] at h
  simp only at h
  split at h
  · exact nomatch h
  · exact clash?_none ‹_› ha hb

end CallMap

namespace Design

variable {d : Design} {k : Kernel}

/-- An active way from a caller, with the methods in between from the outside in. -/
def ActivePath (d : Design) (k : Kernel) : NodeId → List NodeId → NodeId → Prop
  | c, [], m => d.Activates k c m
  | c, a :: as, m => d.Activates k c a ∧ ActivePath d k a as m

theorem ActivePath.extend {c x m : NodeId} {as : List NodeId} (h : d.ActivePath k c as x)
    (hm : d.Activates k x m) : d.ActivePath k c (as ++ [x]) m := by
  induction as generalizing c with
  | nil => exact ⟨h, hm⟩
  | cons a as ih => exact ⟨h.1, ih h.2⟩

theorem ActiveWay.path {t m : NodeId} {callers : List NodeId} (h : d.ActiveWay k t callers m) :
    d.ActivePath k t callers.reverse m := by
  induction h with
  | direct h => exact h
  | through _ h ih =>
    rw [List.reverse_cons]
    exact ih.extend h

/-- Two different paths part at a caller that makes both of the calls. -/
theorem ActivePath.fork {c m : NodeId} {as bs : List NodeId} (ha : d.ActivePath k c as m)
    (hb : d.ActivePath k c bs m) (hne : as ≠ bs) :
    ∃ p x y, CallMap.fork m c as bs = (p, x, y) ∧ d.Activates k p x ∧ d.Activates k p y := by
  induction as generalizing c bs with
  | nil =>
    rcases bs with _ | ⟨b, bs⟩
    · exact absurd rfl hne
    · exact ⟨c, m, b, rfl, ha, hb.1⟩
  | cons a as ih =>
    rcases bs with _ | ⟨b, bs⟩
    · exact ⟨c, a, m, rfl, ha.1, hb⟩
    · rw [CallMap.fork]
      by_cases hab : a = b
      · subst hab
        rw [if_pos rfl]
        exact ih ha.2 hb.2 fun he => hne (congrArg (a :: ·) he)
      · rw [if_neg hab]
        exact ⟨c, a, b, rfl, ha.1, hb.1⟩

/-- Two active ways that have been compared part at calls of one body that exclude each other and are both
enabled. -/
theorem ActiveWay.part {r : Reach} {q : List NodeId} (hp : d.ActiveWay k r.transaction r.callers r.method)
    (hq : d.ActiveWay k r.transaction q r.method) (hne : r.callers ≠ q)
    (hm : (d.node r.method).isNonexclusive = false) (hcheck : CallMap.checkSecond d r q = .ok ()) :
    ∃ c x y, ∃ a ∈ (d.node c).sitesTo x, ∃ b ∈ (d.node c).sitesTo y, a.path.exclusiveWith b.path = true ∧
      a.enable.truth k.values.valuation = true ∧ b.enable.truth k.values.valuation = true := by
  obtain ⟨c, x, y, hfork, hx, hy⟩ := hp.path.fork hq.path fun he => hne (List.reverse_injective he)
  obtain ⟨a, ha, hat⟩ := hx.site
  obtain ⟨b, hb, hbt⟩ := hy.site
  exact ⟨c, x, y, a, ha, b, hb, CallMap.checkSecond_ok hcheck hm hfork ha hb, hat, hbt⟩

end Design

end Interlock
