import Interlock.Proofs.CallLogic.Runs
import Interlock.Proofs.Draft.Sites
import Interlock.Proofs.Readiness

/-! A method that is not nonexclusive is called at most once in a cycle. Two active calls of it come from
granted transactions on active ways. Ways of one transaction part on calls that exclude each other; two
transactions that reach the method conflict, or their bodies exclude each other. Where a method is reached
a third time the new way is compared with the first one only, and so is the question whether the ways of
two transactions join in a nonexclusive method: what these checks leave out are conditions here. -/

namespace Interlock

namespace Design

/-- A call of a method is active: its body can run at all and runs, and its enable is not zero. -/
structure ActiveSite (d : Design) (map : CallMap) (k : Kernel) (m c : NodeId) (i : Nat) : Prop where
  live : CallLogic.isLive d map c = true
  runs : k.get (d.node c).activator = .ok 1
  enabled : ∃ site, ((d.node c).sitesTo m)[i]? = some site ∧ site.enable.eval k.values.valuation ≠ 0

theorem activeSite_iff {d : Design} {map : CallMap} {k : Kernel} {m c : NodeId} {i : Nat} :
    d.ActiveSite map k m c i ↔ CallLogic.isLive d map c = true ∧ k.get (d.node c).activator = .ok 1 ∧
      ∃ site ∈ ((d.node c).sitesTo m)[i]?, site.enable.eval k.values.valuation ≠ 0 :=
  ⟨fun ⟨hlive, hruns, henabled⟩ => ⟨hlive, hruns, henabled⟩, fun ⟨hlive, hruns, henabled⟩ => ⟨hlive, hruns, henabled⟩⟩

instance (d : Design) (map : CallMap) (k : Kernel) (m c : NodeId) (i : Nat) : Decidable (d.ActiveSite map k m c i) :=
  decidable_of_iff _ activeSite_iff.symm

/-- Any two ways to a method that have each been compared with the first one part on calls that exclude
each other too. -/
def LaterWaysPart (d : Design) (map : CallMap) (t m : NodeId) : Prop :=
  ∀ r p q, map.find? t m = some r → d.Way t p m → d.Way t q m → p ≠ r.callers → q ≠ r.callers → p ≠ q →
    CallMap.checkSecond d { r with callers := p } q = .ok ()

/-- If the first ways of two transactions to a method join in a nonexclusive one, all of them do. -/
def WaysJoin (d : Design) (map : CallMap) (t u m : NodeId) : Prop :=
  d.mergesNonexclusive map t u m = true → ∀ p q, d.Way t p m → d.Way u q m →
    (lastCommon (m :: p) (m :: q)).any (fun x => (d.node x).isNonexclusive) = true

variable {d : Draft} {f d' : Design} {map : CallMap} {s : Schedule} {l : List GuardedAssign} {k : Kernel}

/-- Ways to an exclusive method that join in a nonexclusive one have the same direct caller. -/
theorem caller_of_join {t u m : NodeId} {p q : List NodeId} (hm : (f.node m).isNonexclusive = false)
    (h : (lastCommon (m :: p) (m :: q)).any (fun x => (f.node x).isNonexclusive) = true) :
    p.headD t = q.headD u := by
  rw [lastCommon, if_pos rfl, Option.any_some] at h
  rcases p with _ | ⟨a, p⟩
  · rw [lastCommon, Option.getD_none, hm] at h
    · exact nomatch h
    · exact fun _ _ _ _ he => nomatch he
  · rcases q with _ | ⟨b, q⟩
    · rw [lastCommon, Option.getD_none, hm] at h
      · exact nomatch h
      · exact fun _ _ _ _ _ he => nomatch he
    · by_cases hab : a = b
      · exact hab
      · rw [lastCommon, if_neg hab, Option.getD_none, hm] at h
        exact nomatch h

namespace Circuit

/-- Every body that belongs to a granted transaction is entered. -/
theorem entered (h : Circuit f map s d' l) (hk : Kernel.Reachable d'.lowered k) {t c : NodeId}
    (ht : t ∈ f.transactions) (hgt : f.runs k t = true) (hc : c ∈ t :: map.methodsOf t) :
    f.netlist.IsBit (f.node c).entry ∧ lowBit (k.values.valuation (f.node c).entry) = true := by
  rcases List.mem_cons.1 hc with rfl | hc
  · obtain ⟨info, htr⟩ := h.sound.transaction ht
    have hwants := h.wants hk ht hgt
    rw [Arbiter.truth_wants htr, Bool.and_eq_true] at hwants
    have hentry : (f.node c).entry = info.request := by rw [Node.entry, htr.kind]
    rw [hentry]
    exact ⟨htr.request, hwants.1⟩
  · obtain ⟨r, hr, rfl⟩ := List.mem_map.1 hc
    rw [List.mem_filter, beq_iff_eq] at hr
    obtain ⟨hr, rfl⟩ := hr
    have hway := (h.describes.right r hr).way
    obtain ⟨-, info, hinfo⟩ := hway.calls
    obtain ⟨n, -, hnode, hkind⟩ := get?_of_method hinfo
    have hentry : (f.node r.method).entry = info.ready := by rw [hnode, Node.entry, hkind]
    rw [hentry]
    exact ⟨(h.sound.run_isBit hinfo).2, h.ready_of_way hk ht hgt hway hinfo⟩

/-- A body that is entered is where its path says: the conditions there hold. -/
theorem holds_of_path (h : Circuit f map s d' l) (hk : Kernel.Reachable d'.lowered k) (hd : d.Recorded)
    (hf : Fusion.Fuses d.design f) {t c : NodeId} (ht : t ∈ f.transactions) (hgt : f.runs k t = true)
    (hc : c ∈ t :: map.methodsOf t) {path : ControlPath} (hpath : (f.node c).path = some path) :
    ∃ p ∈ d.points, p.path = path ∧ p.cond.truth k.values.valuation = true := by
  obtain ⟨hbit, hentered⟩ := h.entered hk ht hgt hc
  obtain ⟨p, hp, hpp, e, hdrives⟩ := hd.entry_driven hf hpath
  rw [h.recorded_value hk.steady hbit hdrives, Expr.truth_and, Bool.and_eq_true] at hentered
  exact ⟨p, hp, hpp, hentered.1⟩

/-- Transactions whose bodies exclude each other are not granted together. -/
theorem not_exclusive (h : Circuit f map s d' l) (hk : Kernel.Reachable d'.lowered k) (hd : d.Recorded)
    (hsep : d.Separate) (hf : Fusion.Fuses d.design f) {t u : NodeId} (ht : t ∈ f.transactions)
    (hu : u ∈ f.transactions) (hgt : f.runs k t = true) (hgu : f.runs k u = true) :
    f.staticallyExclusive map t u = false := by
  rw [Bool.eq_false_iff]
  intro hx
  unfold staticallyExclusive pathsOf at hx
  simp only [List.any_eq_true, List.mem_filterMap] at hx
  obtain ⟨_, ⟨c, hc, hcp⟩, _, ⟨c', hc', hcp'⟩, hx⟩ := hx
  obtain ⟨p, hp, rfl, hpt⟩ := h.holds_of_path hk hd hf ht hgt hc hcp
  obtain ⟨q, hq, rfl, hqt⟩ := h.holds_of_path hk hd hf hu hgu hc' hcp'
  exact hd.points_apart hsep hp hq hx ⟨hpt, hqt⟩

/-- Two granted transactions that do not conflict and reach the same method do so by ways that join in a
nonexclusive one. -/
theorem merges (h : Circuit f map s d' l) (hk : Kernel.Reachable d'.lowered k) (hd : d.Recorded)
    (hsep : d.Separate) (hf : Fusion.Fuses d.design f) {t u m : NodeId} (ht : t ∈ f.transactions)
    (hu : u ∈ f.transactions) (hne : t ≠ u) (hgt : f.runs k t = true) (hgu : f.runs k u = true)
    (hmt : m ∈ map.methodsOf t) (hmu : m ∈ map.methodsOf u) (hc : f.conflicting map t u = false) :
    f.mergesNonexclusive map t u m = true := by
  unfold conflicting at hc
  rw [h.not_exclusive hk hd hsep hf ht hu hgt hgu, bne_iff_ne.2 hne, Bool.true_and, Bool.not_false, Bool.and_true,
    Bool.or_eq_false_iff] at hc
  have hshares := List.any_eq_false.1 hc.1 m hmt
  rw [List.contains_iff_mem.2 hmu, Bool.true_and, Bool.not_eq_true', Bool.not_eq_false] at hshares
  exact hshares

/-- Active ways of granted transactions to an exclusive method have the same direct caller. -/
theorem same_caller (h : Circuit f map s d' l) (hk : Kernel.Reachable d'.lowered k) (hd : d.Recorded)
    (hsep : d.Separate) (hf : Fusion.Fuses d.design f) {m : NodeId} (hm : (f.node m).isNonexclusive = false)
    (hlater : ∀ t ∈ f.transactions, f.LaterWaysPart map t m)
    (hjoin : ∀ t ∈ f.transactions, ∀ u ∈ f.transactions, t ≠ u → s.conflict t u = false → f.WaysJoin map t u m)
    {t u : NodeId} {p q : List NodeId} (ht : t ∈ f.transactions) (hu : u ∈ f.transactions)
    (hgt : f.runs k t = true) (hgu : f.runs k u = true) (hp : f.ActiveWay k t p m) (hq : f.ActiveWay k u q m) :
    p.headD t = q.headD u := by
  by_cases htu : t = u
  · subst htu
    by_cases hpq : p = q
    · rw [hpq]
    · -- Two ways of one transaction part at calls that cannot both be enabled.
      have apart : ∀ r : Reach, r.transaction = t → r.method = m → ∀ p q, r.callers = p → f.ActiveWay k t p m →
          f.ActiveWay k t q m → p ≠ q → CallMap.checkSecond f r q ≠ .ok () := by
        rintro r rfl rfl _ q rfl hp hq hne hcheck
        obtain ⟨c, x, y, a, ha, b, hb, hx, hat, hbt⟩ := hp.part hq hne hm hcheck
        exact hd.sites_apart hsep hf ha hb hx ⟨hat, hbt⟩
      obtain ⟨-, r, hr, hrp⟩ := h.describes.covers t ht p m hp.way
      obtain ⟨-, r', hr', hrq⟩ := h.describes.covers t ht q m hq.way
      obtain rfl : r = r' := Option.some.inj (hr.symm.trans hr')
      obtain ⟨hrt, hrm⟩ := CallMap.find?_key hr
      by_cases hfp : r.callers = p
      · exact absurd (hrq.resolve_left fun hfq => hpq (hfp.symm.trans hfq)) (apart r hrt hrm p q hfp hp hq hpq)
      · by_cases hfq : r.callers = q
        · exact absurd (hrp.resolve_left hfp) (apart r hrt hrm q p hfq hq hp (Ne.symm hpq))
        · exact absurd (hlater t ht r p q hr hp.way hq.way (Ne.symm hfp) (Ne.symm hfq) hpq)
            (apart { r with callers := p } hrt hrm p q rfl hp hq hpq)
  · have hfree : s.conflict t u = false := Bool.eq_false_iff.2 fun hc => h.apart hk hc ⟨hgt, hgu⟩
    have hmt := h.describes.mem_of_way ht hp.way
    have hmu := h.describes.mem_of_way hu hq.way
    have hnot : ¬ (f.conflicting map t u = true ∧ f.conflicting map u t = true) := fun ⟨htu', hut'⟩ =>
      h.apart hk (h.schedules.conflict_of ht hu htu htu' hut') ⟨hgt, hgu⟩
    by_cases hc : f.conflicting map t u = true
    · have hc' : f.conflicting map u t = false := Bool.eq_false_iff.2 fun hc' => hnot ⟨hc, hc'⟩
      have hfree' : s.conflict u t = false := Bool.eq_false_iff.2 fun hc => h.apart hk hc ⟨hgu, hgt⟩
      have hmerge := h.merges hk hd hsep hf hu ht (Ne.symm htu) hgu hgt hmu hmt hc'
      exact (caller_of_join hm (hjoin u hu t ht (Ne.symm htu) hfree' hmerge q p hq.way hp.way)).symm
    · have hmerge := h.merges hk hd hsep hf ht hu htu hgt hgu hmt hmu (Bool.eq_false_iff.2 hc)
      exact caller_of_join hm (hjoin t ht u hu htu hfree hmerge p q hp.way hq.way)

/-- An active call is one of a body that can run at all, on an active way from a granted transaction. -/
theorem active_site (h : Circuit f map s d' l) (hk : Kernel.Reachable d'.lowered k) (hd : d.Recorded)
    (hfit : d.design.EnablesFit) (hf : Fusion.Fuses d.design f) {m c : NodeId} {i : Nat} {info : MethodInfo}
    (hm : (f.node m).method? = some info) (ha : f.ActiveSite map k m c i) :
    (∃ site, ((f.node c).sitesTo m)[i]? = some site ∧ site.enable.truth k.values.valuation = true) ∧
      ∃ t ∈ f.transactions, f.runs k t = true ∧ ∃ p : List NodeId, p.headD t = c ∧ f.ActiveWay k t p m := by
  obtain ⟨hlive, hruns, site, hsite, henabled⟩ := ha
  have hmem := List.mem_of_getElem? hsite
  have htruth := (hd.enable_iff hfit hf hmem).1 henabled
  obtain ⟨sites, hsites, -⟩ := Node.mem_calls_of_sites hmem
  have hcalls : f.Calls c m := ⟨⟨sites, hsites⟩, info, hm⟩
  have hcaller := h.sound.caller_of_calls hcalls
  have hactive : f.Activates k c m :=
    ⟨hcalls, (h.toWired.get_one hk (h.sound.activator_isBit hcaller)).1 hruns, site, hmem, htruth⟩
  exact ⟨⟨site, hsite, htruth⟩, h.activeWay hk.steady hcaller hlive hactive⟩

end Circuit

end Design

/-- With either scheduler and in every state that inputs and clock edges lead to, an exclusive method has at
most one active call, provided that the numbers of chains tell places apart, that later ways part as they do
from the first, and that ways join as the first ones do. -/
theorem active_sites_eq {d : Draft} (hd : d.Recorded) (hfit : d.design.EnablesFit) (hsep : d.Separate)
    {sink sink' : DiagnosticSink} {e : Elaborated} (he : d.design.elaborate sink = .ok (.ok e, sink'))
    {f : Design.Fused} (hf : Attempt.Gives d.design.fused f) {s : Schedule}
    (hs : f.design.schedule f.map = .ok s) {k : Kernel} (hk : Kernel.Reachable e.netlist k) {m : NodeId}
    {info : MethodInfo} (hm : (f.design.node m).method? = some info) (hexcl : info.nonexclusive = false)
    (hlater : ∀ t ∈ f.design.transactions, f.design.LaterWaysPart f.map t m)
    (hjoin : ∀ t ∈ f.design.transactions, ∀ u ∈ f.design.transactions, t ≠ u → s.conflict t u = false →
      f.design.WaysJoin f.map t u m)
    {c c' : NodeId} {i j : Nat} (hc : f.design.ActiveSite f.map k m c i)
    (hc' : f.design.ActiveSite f.map k m c' j) : c = c' ∧ i = j := by
  obtain ⟨d', l, h, hnetlist⟩ := Design.elaborate_circuit hd.sound he hf hs
  obtain ⟨-, -, hfuses⟩ := Design.fused_ok hd.sound hf
  rw [hnetlist] at hk
  have hmx : (f.design.node m).isNonexclusive = false := by
    unfold Node.isNonexclusive
    rw [hm, Option.any_some, hexcl]
  obtain ⟨⟨a, ha, hat⟩, t, ht, hgt, p, rfl, hp⟩ := h.active_site hk hd hfit hfuses hm hc
  obtain ⟨⟨b, hb, hbt⟩, u, hu, hgu, q, rfl, hq⟩ := h.active_site hk hd hfit hfuses hm hc'
  have hcaller := h.same_caller hk hd hsep hfuses hmx hlater hjoin ht hu hgt hgu hp hq
  rw [← hcaller] at hb
  exact ⟨hcaller, hd.sites_single hsep hfuses ha hb hat hbt⟩

namespace Draft

/-- A transaction that reaches a method on two ways, and another that calls it. -/
def forked : List Action :=
  [.transaction "A" .generated, .transaction "B" .generated, .method { name := "x" } .generated,
    .method { name := "y" } .generated, .method { name := "m" } .generated, .openModule "",
    .inModule 0 (.signal "c" 1 .input 0 .generated),
    .inModule 0 (.openMethod 4 .one none .generated), .inModule 0 .leaveBody,
    .inModule 0 (.openMethod 2 .one none .generated),
    .inModule 0 (.call 4 (.zero 0) .one .generated), .inModule 0 .leaveBody,
    .inModule 0 (.openMethod 3 .one none .generated),
    .inModule 0 (.call 4 (.zero 0) .one .generated), .inModule 0 .leaveBody,
    .inModule 0 (.openTransaction 0 .one .generated),
    .inModule 0 .branches,
    .inModule 0 (.branch 0 (.signal 12 1)),
    .inModule 0 (.call 2 (.zero 0) .one .generated), .inModule 0 .leave,
    .inModule 0 (.otherwise 0),
    .inModule 0 (.call 3 (.zero 0) .one .generated), .inModule 0 .leave, .inModule 0 .leaveBody,
    .inModule 0 (.openTransaction 1 .one .generated),
    .inModule 0 (.call 4 (.zero 0) .one .generated), .inModule 0 .leaveBody]

/-- A transaction that reaches a method on three ways, of which the last two part on calls that do not
exclude each other. -/
def rejoined : List Action :=
  [.transaction "A" .generated, .method { name := "x" } .generated, .method { name := "y" } .generated,
    .method { name := "z" } .generated, .method { name := "m" } .generated, .openModule "",
    .inModule 0 (.signal "c" 1 .input 0 .generated),
    .inModule 0 (.openMethod 4 .one none .generated), .inModule 0 .leaveBody,
    .inModule 0 (.openMethod 1 .one none .generated),
    .inModule 0 (.call 4 (.zero 0) .one .generated), .inModule 0 .leaveBody,
    .inModule 0 (.openMethod 2 .one none .generated),
    .inModule 0 (.call 4 (.zero 0) .one .generated), .inModule 0 .leaveBody,
    .inModule 0 (.openMethod 3 .one none .generated),
    .inModule 0 (.call 4 (.zero 0) .one .generated), .inModule 0 .leaveBody,
    .inModule 0 (.openTransaction 0 .one .generated),
    .inModule 0 .branches,
    .inModule 0 (.branch 0 (.signal 11 1)),
    .inModule 0 (.call 1 (.zero 0) .one .generated), .inModule 0 .leave,
    .inModule 0 (.otherwise 0),
    .inModule 0 (.call 2 (.zero 0) .one .generated),
    .inModule 0 (.call 3 (.zero 0) .one .generated), .inModule 0 .leave, .inModule 0 .leaveBody]

end Draft

/-- With `c` low only the call in `y` is active. -/
theorem active_sites_eq_of_forked :
    ∃ x : Draft.Trial, (Draft.of Draft.forked).trial? = some x ∧
      x.fused.design.ActiveSite x.fused.map x.kernel 4 3 0 ∧
      ∀ c i, x.fused.design.ActiveSite x.fused.map x.kernel 4 c i → c = 3 ∧ i = 0 := by
  have hrec : (Draft.of Draft.forked).Recorded := Draft.recorded_of (by decide +kernel)
  have htrial : ∃ x ∈ (Draft.of Draft.forked).trial?,
      (∃ info ∈ (x.fused.design.node 4).method?, info.nonexclusive = false) ∧
      x.fused.design.transactions = [0, 1] ∧ x.schedule.conflict 0 1 = true ∧ x.schedule.conflict 1 0 = true ∧
      (x.fused.map.find? 0 4).map (·.callers) = some [2] ∧
      (x.fused.design.callersOf 0 = [] ∧ x.fused.design.callersOf 1 = []) ∧
      (x.fused.design.callersOf 2 = [0] ∧ x.fused.design.callersOf 3 = [0]) ∧
      x.fused.design.callersOf 4 = [1, 2, 3] ∧
      x.fused.design.ActiveSite x.fused.map x.kernel 4 3 0 := by
    decide +kernel
  have hfit : (Draft.of Draft.forked).design.EnablesFit := by decide +kernel
  have hsep : (Draft.of Draft.forked).Separate := by decide +kernel
  obtain ⟨x, hx, ⟨info, hm, hexcl⟩, htr, h01, h10, hfirst, ⟨h0, h1⟩, ⟨h2, h3⟩, h4, hsite⟩ := htrial
  obtain ⟨hf, hs, he, hk⟩ := Draft.trial_ok hx
  obtain ⟨hsound, -, -⟩ := Design.fused_ok hrec.sound hf
  -- A way to `m` is a call by `B`, or one from `A` through `x` or `y`.
  have unreached : ∀ t p, ¬ x.fused.design.Way t p 0 ∧ ¬ x.fused.design.Way t p 1 := by
    intro t p
    refine ⟨fun hw => ?_, fun hw => ?_⟩
    · rcases hw.last hsound with ⟨-, hc⟩ | ⟨c, rest, -, hc, -⟩ <;> rw [h0] at hc <;> exact nomatch hc
    · rcases hw.last hsound with ⟨-, hc⟩ | ⟨c, rest, -, hc, -⟩ <;> rw [h1] at hc <;> exact nomatch hc
  have once : ∀ t p m, x.fused.design.callersOf m = [0] → x.fused.design.Way t p m → t = 0 ∧ p = [] := by
    intro t p m hcallers hw
    rcases hw.last hsound with ⟨rfl, hc⟩ | ⟨c, rest, -, hc, hw⟩
    · rw [hcallers, List.mem_singleton] at hc
      exact ⟨hc, rfl⟩
    · rw [hcallers, List.mem_singleton] at hc
      exact absurd (hc ▸ hw) (unreached t rest).1
  have ways : ∀ t p, x.fused.design.Way t p 4 → (t = 1 ∨ t = 2 ∨ t = 3) ∧ p = [] ∨ t = 0 ∧ (p = [2] ∨ p = [3]) := by
    intro t p hw
    rcases hw.last hsound with ⟨rfl, hc⟩ | ⟨c, rest, rfl, hc, hw⟩
    · rw [h4] at hc
      exact .inl ⟨by simpa using hc, rfl⟩
    · rw [h4] at hc
      simp only [List.mem_cons, List.not_mem_nil, or_false] at hc
      rcases hc with rfl | rfl | rfl
      · exact absurd hw (unreached t rest).2
      · obtain ⟨rfl, rfl⟩ := once t rest 2 h2 hw
        exact .inr ⟨rfl, .inl rfl⟩
      · obtain ⟨rfl, rfl⟩ := once t rest 3 h3 hw
        exact .inr ⟨rfl, .inr rfl⟩
  refine ⟨x, hx, hsite, fun c i hc => ?_⟩
  refine active_sites_eq hrec hfit hsep he hf hs hk hm hexcl (fun t ht r p q hr hp hq hpr hqr hpq => ?_)
    (fun t ht u hu hne hfree => ?_) hc hsite
  · rcases ways t p hp with ⟨ht, rfl⟩ | ⟨rfl, hp'⟩
    · rcases ways t q hq with ⟨-, rfl⟩ | ⟨rfl, -⟩
      · exact absurd rfl hpq
      · simp at ht
    · rw [hr, Option.map_some, Option.some.injEq] at hfirst
      rcases ways 0 q hq with ⟨h, -⟩ | ⟨-, hq'⟩
      · simp at h
      · rw [hfirst] at hpr hqr
        rw [hp'.resolve_left hpr, hq'.resolve_left hqr] at hpq
        exact absurd rfl hpq
  · rw [htr] at ht hu
    simp only [List.mem_cons, List.not_mem_nil, or_false] at ht hu
    rcases ht with rfl | rfl <;> rcases hu with rfl | rfl
    · exact absurd rfl hne
    · rw [h01] at hfree
      exact nomatch hfree
    · rw [h10] at hfree
      exact nomatch hfree
    · exact absurd rfl hne

/-- With `c` low both `y` and `z` call `m`, which is exclusive. -/
theorem active_sites_of_rejoined :
    ∃ x : Draft.Trial, (Draft.of Draft.rejoined).Recorded ∧ (Draft.of Draft.rejoined).trial? = some x ∧
      (x.fused.design.node 4).isNonexclusive = false ∧
      x.fused.design.ActiveSite x.fused.map x.kernel 4 2 0 ∧
      x.fused.design.ActiveSite x.fused.map x.kernel 4 3 0 := by
  have hrec : (Draft.of Draft.rejoined).Recorded := Draft.recorded_of (by decide +kernel)
  have htrial : ∃ x ∈ (Draft.of Draft.rejoined).trial?, (x.fused.design.node 4).isNonexclusive = false ∧
      x.fused.design.ActiveSite x.fused.map x.kernel 4 2 0 ∧
      x.fused.design.ActiveSite x.fused.map x.kernel 4 3 0 := by
    decide +kernel
  obtain ⟨x, hx, hsites⟩ := htrial
  exact ⟨x, hrec, hx, hsites⟩

end Interlock
