import Interlock.Arbiter
import Interlock.Proofs.Attempt
import Interlock.Proofs.Design.Gains

/-! What the arbiters drive: the grant of every transaction of a class, and for a class that takes turns
the register that holds the last one granted. The expressions are those of the design before any arbiter
was added, since signals read the same ever after. -/

namespace Interlock.Arbiter

open Drivers Design

variable {d₀ d d' : Design} {s : Schedule} {σ : Valuation}

theorem grantOf_eq {t : NodeId} {info : TransactionInfo} (h : d.HasTransaction t info) :
    grantOf d t = d.read info.grant := by
  rw [grantOf, transactionSignal, h.kind]

theorem wants_eq {t : NodeId} {info : TransactionInfo} (h : d.HasTransaction t info) :
    wants d t = (d.read info.request).and (d.read info.runnable) := by
  rw [wants, transactionSignal, transactionSignal, h.kind]

theorem truth_grantOf (hd : d.Sound) {t : NodeId} (ht : t ∈ d.transactions) :
    (grantOf d t).truth σ = lowBit (σ (d.node t).activator) := by
  obtain ⟨info, h⟩ := hd.transaction ht
  rw [grantOf_eq h, truth_read h.grant, h.activator]

theorem truth_wants {t : NodeId} {info : TransactionInfo} (h : d.HasTransaction t info) :
    (wants d t).truth σ = (lowBit (σ info.request) && lowBit (σ info.runnable)) := by
  rw [wants_eq h, Expr.truth_and, truth_read h.request, truth_read h.runnable]

/-! ### Steps -/

section

variable {l : List GuardedAssign} {t : NodeId} {info : TransactionInfo}

theorem hasTransaction_gains (hg : Gains d₀ d l) (h : d₀.HasTransaction t info) : d.HasTransaction t info := by
  obtain ⟨hkind, hact, hgen, hget, hreq, hrun, hgrant⟩ := h
  refine ⟨?_, ?_, ?_, ?_, hg.isBit hreq, hg.isBit hrun, hg.isBit hgrant⟩
  all_goals rw [hg.node]
  · exact hkind
  · exact hact
  · exact hgen
  · rw [hg.nodes]
    exact hget

theorem grantOf_gains (hg : Gains d₀ d l) (h : d₀.HasTransaction t info) : grantOf d t = grantOf d₀ t := by
  rw [grantOf_eq h, grantOf_eq (hasTransaction_gains hg h), hg.read (isBit_lt h.grant)]

theorem wants_gains (hg : Gains d₀ d l) (h : d₀.HasTransaction t info) : wants d t = wants d₀ t := by
  rw [wants_eq h, wants_eq (hasTransaction_gains hg h), hg.read (isBit_lt h.request),
    hg.read (isBit_lt h.runnable)]

theorem driveGrant_gains (hg : Gains d₀ d l) (h : d₀.HasTransaction t info) (value : Expr) :
    ∃ d', driveGrant d t value = .ok d' ∧ Gains d d' [always (d₀.node t).activator value] := by
  have ht : (d.node t).transaction? = some info := by
    rw [hg.node, h.transaction?]
  unfold driveGrant
  rw [ht, h.activator]
  exact ⟨_, rfl, drive_gains ..⟩

theorem driveGrant_netlist {value : Expr} (h : driveGrant d t value = .ok d') : d'.netlist = d.netlist := by
  unfold driveGrant at h
  split at h
  · rw [← Except.ok.inj h]
    rfl
  · cases h

theorem eagerGrant_gains (hd : d₀.Sound) (hg : Gains d₀ d l) (h : d₀.HasTransaction t info)
    (earlier : List NodeId) (hearlier : ∀ u ∈ earlier, u ∈ d₀.transactions) :
    eagerGrant d s earlier t = eagerGrant d₀ s earlier t := by
  have hgrants : (earlier.filter (s.conflict · t)).map (grantOf d) =
      (earlier.filter (s.conflict · t)).map (grantOf d₀) := by
    apply List.map_congr_left
    intro u hu
    obtain ⟨_, hu⟩ := hd.transaction (hearlier u (List.mem_filter.1 hu).1)
    exact grantOf_gains hg hu
  rw [eagerGrant, eagerGrant, wants_gains hg h, hgrants]

end

/-- An eager arbiter drives each grant from those before it. -/
theorem eager_gains (hd : d₀.Sound) {rest : List NodeId} :
    ∀ (earlier : List NodeId) {d : Design} {l : List GuardedAssign}, Gains d₀ d l →
      (∀ t ∈ earlier ++ rest, t ∈ d₀.transactions) →
      ∃ d' l', eager s earlier rest d = .ok d' ∧ Gains d d' l' ∧
        l'.map (·.target) = rest.map (fun t => (d₀.node t).activator) ∧
        ∀ pre t post, rest = pre ++ t :: post →
          always (d₀.node t).activator (eagerGrant d₀ s (earlier ++ pre) t) ∈ l' := by
  induction rest with
  | nil =>
    intro earlier d l _ _
    refine ⟨d, [], rfl, .refl d, rfl, fun pre t post h => ?_⟩
    simp at h
  | cons t rest ih =>
    intro earlier d l hg hall
    obtain ⟨info, ht⟩ := hd.transaction (hall t (by simp))
    have hvalue := eagerGrant_gains (s := s) hd hg ht earlier fun u hu => hall u (by simp [hu])
    obtain ⟨d₁, hd₁, hstep⟩ := driveGrant_gains hg ht (eagerGrant d s earlier t)
    rw [hvalue] at hstep
    obtain ⟨d₂, l', hd₂, hg', htargets, hmem⟩ := ih (earlier ++ [t]) (hg.trans hstep) (by simpa using hall)
    refine ⟨d₂, _, by rw [eager, hd₁]; exact hd₂, hstep.trans hg', ?_, fun pre u post h => ?_⟩
    · simp [htargets]
    · rcases pre with _ | ⟨v, pre⟩
      · obtain ⟨rfl, rfl⟩ := List.cons.inj h
        simp
      · obtain ⟨rfl, rfl⟩ := List.cons.inj h
        have := hmem pre u post rfl
        rw [List.append_assoc, List.singleton_append] at this
        exact List.mem_append_right _ this

/-- It adds no signals. -/
theorem eager_netlist {rest : List NodeId} : ∀ {earlier : List NodeId} {d d' : Design},
    eager s earlier rest d = .ok d' → d'.netlist = d.netlist := by
  induction rest with
  | nil => exact fun h => by rw [← Except.ok.inj h]
  | cons t rest ih =>
    intro earlier d d' h
    rw [eager, except_bind_ok] at h
    obtain ⟨d₁, h₁, h⟩ := h
    rw [ih h, driveGrant_netlist h₁]

/-- A round-robin arbiter drives each grant from the register and the wishes of all. -/
theorem driveTurns_gains (hd : d₀.Sound) {last : SignalId} {r : Signal} (wanting : List Expr)
    (ps : List (NodeId × Nat)) :
    ∀ {d : Design} {l : List GuardedAssign}, Gains d₀ d l → d.netlist.signals.get? last = some r →
      (∀ p ∈ ps, p.1 ∈ d₀.transactions) →
      ∃ d', ps.foldlM (fun d (t, k) => driveGrant d t (turnGrant (d.read last) wanting k)) d = .ok d' ∧
        Gains d d' (ps.map fun p =>
          always (d₀.node p.1).activator (turnGrant (.signal last r.width) wanting p.2)) := by
  induction ps with
  | nil => exact fun {d} _ _ _ _ => ⟨d, rfl, .refl d⟩
  | cons p ps ih =>
    intro d l hg hlast hall
    obtain ⟨info, ht⟩ := hd.transaction (hall p (List.mem_cons_self ..))
    have hread : d.read last = .signal last r.width := by
      rw [Design.read, Netlist.read, Netlist.widthOf_eq hlast]
    obtain ⟨d₁, hd₁, hstep⟩ := driveGrant_gains hg ht (turnGrant (.signal last r.width) wanting p.2)
    obtain ⟨d₂, hd₂, hrest⟩ := ih (hg.trans hstep) (hstep.signals _ _ hlast) fun q hq =>
      hall q (List.mem_cons_of_mem _ hq)
    refine ⟨d₂, ?_, hstep.trans hrest⟩
    rw [List.foldlM_cons, hread]
    exact except_bind_ok.2 ⟨d₁, hd₁, hd₂⟩

/-! ### Classes -/

/-- The logic of a class that takes turns: a register for the last one granted, and a grant for each
position. -/
structure Turns (d : Design) (members : List NodeId) (n : Netlist) (l : List GuardedAssign)
    (last : SignalId) : Prop where
  several : 1 < members.length
  fits : members.length ≤ maxWidth
  register : ∃ r, n.signals.get? last = some r ∧ r.width = members.length ∧ r.kind = .reg ∧
    r.init = UInt64.ofNat (1 <<< (members.length - 1)) &&& mask members.length
  grants : ∀ (k : Nat) t, members[k]? = some t → always (d.node t).activator
    (turnGrant (.signal last members.length) (members.map (wants d)) k) ∈ l
  turn : ⟨last, .any (members.map (grantOf d)), .join (members.map (grantOf d)), .sync⟩ ∈ l

theorem Turns.mono {members : List NodeId} {n n' : Netlist} {l l' : List GuardedAssign} {last : SignalId}
    (h : Turns d members n l last) (hn : ∀ x r, n.signals.get? x = some r → n'.signals.get? x = some r)
    (hl : ∀ a ∈ l, a ∈ l') : Turns d members n' l' last := by
  obtain ⟨hsev, hfits, ⟨r, hr, hreg⟩, hgrants, hturn⟩ := h
  exact ⟨hsev, hfits, ⟨r, hn _ _ hr, hreg⟩, fun k t ht => hl _ (hgrants k t ht), hl _ hturn⟩

/-- The logic of a class whose members are granted in order of priority. -/
def Eager (d : Design) (s : Schedule) (members : List NodeId) (l : List GuardedAssign) : Prop :=
  ∀ pre t post, members = pre ++ t :: post → always (d.node t).activator (eagerGrant d s pre t) ∈ l

/-- The logic of the arbiter of a class, by the scheduler of the design. -/
inductive Arbitrated (d : Design) (s : Schedule) (members : List NodeId) (n : Netlist)
    (l : List GuardedAssign) : Prop
  | eager (hc : ¬ (1 < members.length ∧ d.config.scheduler = .roundRobin)) (h : Eager d s members l)
  | turns (hc : d.config.scheduler = .roundRobin) (last : SignalId) (h : Turns d members n l last)

theorem Arbitrated.mono {members : List NodeId} {n n' : Netlist} {l l' : List GuardedAssign}
    (h : Arbitrated d s members n l) (hn : ∀ x r, n.signals.get? x = some r → n'.signals.get? x = some r)
    (hl : ∀ a ∈ l, a ∈ l') : Arbitrated d s members n' l' := by
  cases h with
  | eager hc h => exact .eager hc fun pre t post hm => hl _ (h pre t post hm)
  | turns hc last h => exact .turns hc last (h.mono hn hl)

theorem roundRobin_ok {index : Nat} {members : List NodeId} {l : List GuardedAssign} (hd : d₀.Sound)
    (hg : Gains d₀ d l) (hall : ∀ t ∈ members, t ∈ d₀.transactions)
    (hc : 1 < members.length) (h : roundRobin index members d = .ok d') :
    ∃ l', Gains d d' l' ∧ Turns d₀ members d'.netlist l' d.netlist.signals.size ∧
      l'.map (·.target) = members.map (fun t => (d₀.node t).activator) ++ [d.netlist.signals.size] ∧
      d'.netlist.signals.size = d.netlist.signals.size + 1 := by
  unfold roundRobin at h
  simp only at h
  split at h
  · exact nomatch h
  · rename_i hlen
    generalize hbase : "rr" ++ toString index ++ "_last" = base at h
    generalize hinit : UInt64.ofNat (1 <<< (members.length - 1)) = init at h
    have hnew := newSignal_gains d base members.length .reg init
    have hget := get?_newSignal d base members.length .reg init d.netlist.signals.size
    have hsize := size_newSignal d base members.length .reg init
    rw [if_pos rfl] at hget
    have hfst := newSignal_fst d base members.length .reg init
    generalize d.newSignal base members.length .reg init = added at h hnew hget hsize hfst
    obtain ⟨last, d₁⟩ := added
    simp only at h hnew hget hsize hfst
    subst hfst
    have hg₁ := hg.trans hnew
    have hwants : members.map (wants d₁) = members.map (wants d₀) := by
      apply List.map_congr_left
      intro t ht
      obtain ⟨_, ht⟩ := hd.transaction (hall t ht)
      exact wants_gains hg₁ ht
    obtain ⟨d₂, hd₂, hgrants⟩ := driveTurns_gains hd (members.map (wants d₀)) members.zipIdx hg₁ hget
      (fun p hp => hall _ (List.fst_mem_of_mem_zipIdx hp))
    rw [hwants, hd₂] at h
    obtain rfl := except_pure_ok.1 h
    have hg₂ := hg₁.trans hgrants
    have hgrantOf : members.map (grantOf d₂) = members.map (grantOf d₀) := by
      apply List.map_congr_left
      intro t ht
      obtain ⟨_, ht⟩ := hd.transaction (hall t ht)
      exact grantOf_gains hg₂ ht
    rw [hgrantOf]
    refine ⟨_, hnew.trans (hgrants.trans (assign_gains ..)), ?_, ?_, ?_⟩
    · refine ⟨hc, Nat.le_of_not_lt hlen, ⟨_, hgrants.signals _ _ hget, rfl, rfl, by rw [hinit]⟩,
        fun k t ht => ?_, by simp⟩
      simp only [List.nil_append, List.mem_append, List.mem_map]
      exact .inl ⟨(t, k), List.mk_mem_zipIdx_iff_getElem?.2 ht, rfl⟩
    · simp only [List.nil_append, List.map_append, List.map_cons, List.map_nil, List.map_map]
      congr 1
      conv_rhs => rw [← List.zipIdx_map_fst 0 members, List.map_map]
      rfl
    · have hkept : d₂.netlist = d₁.netlist := except_foldlM_ok (P := fun d => d.netlist = d₁.netlist)
        (fun p _ b b' hb hp => (driveGrant_netlist hp).trans hb) rfl hd₂
      show d₂.netlist.signals.size = _
      rw [hkept, hsize]

/-- The logic of the arbiters of some classes. It drives the grants of their members and new registers, each once,
and every new signal is the register of a class that takes turns. -/
structure Emitted (d₀ : Design) (s : Schedule) (classes : List (List NodeId)) (d d' : Design)
    (l : List GuardedAssign) : Prop where
  gains : Gains d d' l
  arbitrated : ∀ members ∈ classes, Arbitrated d₀ s members d'.netlist l
  nodup : (l.map (·.target)).Nodup
  targets : ∀ x ∈ l.map (·.target), (d.netlist.signals.size ≤ x ∧ x < d'.netlist.signals.size) ∨
    ∃ t ∈ classes.flatten, x = (d₀.node t).activator
  turns : ∀ x, d.netlist.signals.size ≤ x → x < d'.netlist.signals.size →
    ∃ members ∈ classes, Turns d₀ members d'.netlist l x

theorem Emitted.nil (d : Design) : Emitted d₀ s [] d d [] where
  gains := .refl d
  arbitrated := fun _ h => nomatch h
  nodup := List.nodup_nil
  targets := fun _ h => nomatch h
  turns := fun _ hle hlt => absurd hlt (Nat.not_lt.2 hle)

theorem activator_lt {t : NodeId} {l : List GuardedAssign} (hd : d₀.Sound) (hg : Gains d₀ d l)
    (ht : t ∈ d₀.transactions) : (d₀.node t).activator < d.netlist.signals.size := by
  obtain ⟨info, ht⟩ := hd.transaction ht
  rw [ht.activator]
  exact Nat.lt_of_lt_of_le (isBit_lt ht.grant) hg.size

theorem grants_nodup {members : List NodeId} (hd : d₀.Sound) (hall : ∀ t ∈ members, t ∈ d₀.transactions)
    (hnodup : members.Nodup) : (members.map fun t => (d₀.node t).activator).Nodup :=
  hnodup.map_on fun t ht u hu he => hd.activator_inj (hall t ht) (hall u hu) he

theorem emitClass_ok {index : Nat} {members : List NodeId} {l : List GuardedAssign} (hd : d₀.Sound)
    (hg : Gains d₀ d l) (hall : ∀ t ∈ members, t ∈ d₀.transactions) (hnodup : members.Nodup)
    (h : emitClass s d members index = .ok d') : ∃ l', Emitted d₀ s [members] d d' l' := by
  have hgrants := grants_nodup hd hall hnodup
  have hgranted : ∀ x ∈ members.map (fun t => (d₀.node t).activator),
      ∃ t ∈ [members].flatten, x = (d₀.node t).activator := by
    intro x hx
    obtain ⟨t, ht, rfl⟩ := List.mem_map.1 hx
    exact ⟨t, by simpa using ht, rfl⟩
  unfold emitClass at h
  rw [hg.config] at h
  split at h
  · rename_i hc
    obtain ⟨l', hg', hturns, htargets, hsize⟩ := roundRobin_ok hd hg hall hc.1 h
    refine ⟨l', hg', fun p hp => List.mem_singleton.1 hp ▸ .turns hc.2 _ hturns, ?_, fun x hx => ?_,
      fun x hle hlt => ⟨members, List.mem_singleton_self _, ?_⟩⟩
    · -- The register is new, and grants are signals of the design before.
      rw [htargets, List.nodup_append]
      refine ⟨hgrants, List.nodup_singleton _, fun x hx y hy hxy => ?_⟩
      obtain ⟨t, ht, rfl⟩ := List.mem_map.1 hx
      exact absurd (activator_lt hd hg (hall t ht)) (by simp [hxy, List.mem_singleton.1 hy])
    · rw [htargets, List.mem_append, List.mem_singleton] at hx
      rcases hx with hx | rfl
      · exact .inr (hgranted x hx)
      · exact .inl ⟨Nat.le_refl _, by omega⟩
    · obtain rfl : x = d.netlist.signals.size := by omega
      exact hturns
  · rename_i hc
    obtain ⟨d₁, l', hd₁, hg', htargets, hmem⟩ := eager_gains (s := s) hd [] hg (by simpa using hall)
    obtain rfl : d₁ = d' := Except.ok.inj (hd₁.symm.trans h)
    have heager : Eager d₀ s members l' := fun pre t post hp => by simpa using hmem pre t post hp
    refine ⟨l', hg', fun p hp => List.mem_singleton.1 hp ▸ .eager hc heager, htargets ▸ hgrants,
      fun x hx => .inr (hgranted x (htargets ▸ hx)), fun x hle hlt => ?_⟩
    rw [eager_netlist h] at hlt
    exact absurd hlt (Nat.not_lt.2 hle)

/-- Grants are told apart by their transactions, and registers are new for each class. -/
theorem Emitted.append {c₁ c₂ : List (List NodeId)} {d₁ : Design} {l l₁ l₂ : List GuardedAssign} (hd : d₀.Sound)
    (hg : Gains d₀ d l) (hall : ∀ t ∈ (c₁ ++ c₂).flatten, t ∈ d₀.transactions) (hnodup : (c₁ ++ c₂).flatten.Nodup)
    (h₁ : Emitted d₀ s c₁ d d₁ l₁) (h₂ : Emitted d₀ s c₂ d₁ d' l₂) : Emitted d₀ s (c₁ ++ c₂) d d' (l₁ ++ l₂) := by
  rw [List.flatten_append] at hall
  rw [List.flatten_append, List.nodup_append] at hnodup
  have hold : ∀ t ∈ c₁.flatten ++ c₂.flatten, (d₀.node t).activator < d.netlist.signals.size := fun t ht =>
    activator_lt hd hg (hall t ht)
  refine ⟨h₁.gains.trans h₂.gains, fun members hm => ?_, ?_, fun x hx => ?_, fun x hle hlt => ?_⟩
  · rcases List.mem_append.1 hm with hm | hm
    · exact (h₁.arbitrated members hm).mono h₂.gains.signals fun a ha => List.mem_append_left _ ha
    · exact (h₂.arbitrated members hm).mono (fun _ _ h => h) fun a ha => List.mem_append_right _ ha
  · rw [List.map_append, List.nodup_append]
    refine ⟨h₁.nodup, h₂.nodup, fun x hx y hy hxy => ?_⟩
    subst hxy
    rcases h₁.targets x hx with ⟨hle, hlt⟩ | ⟨t, ht, rfl⟩
    · rcases h₂.targets x hy with ⟨hle₂, -⟩ | ⟨u, hu, rfl⟩
      · exact absurd hlt (Nat.not_lt.2 hle₂)
      · exact absurd (hold u (List.mem_append_right _ hu)) (Nat.not_lt.2 hle)
    · rcases h₂.targets _ hy with ⟨hle₂, -⟩ | ⟨u, hu, htu⟩
      · exact absurd (hold t (List.mem_append_left _ ht)) (Nat.not_lt.2 (Nat.le_trans h₁.gains.size hle₂))
      · exact hnodup.2.2 t ht u hu (hd.activator_inj (hall t (List.mem_append_left _ ht))
          (hall u (List.mem_append_right _ hu)) htu)
  · rw [List.flatten_append]
    rw [List.map_append, List.mem_append] at hx
    rcases hx with hx | hx
    · rcases h₁.targets x hx with ⟨hle, hlt⟩ | ⟨t, ht, rfl⟩
      · exact .inl ⟨hle, Nat.lt_of_lt_of_le hlt h₂.gains.size⟩
      · exact .inr ⟨t, List.mem_append_left _ ht, rfl⟩
    · rcases h₂.targets x hx with ⟨hle, hlt⟩ | ⟨t, ht, rfl⟩
      · exact .inl ⟨Nat.le_trans h₁.gains.size hle, hlt⟩
      · exact .inr ⟨t, List.mem_append_right _ ht, rfl⟩
  · rcases Nat.lt_or_ge x d₁.netlist.signals.size with hx | hx
    · obtain ⟨p, hp, h⟩ := h₁.turns x hle hx
      exact ⟨p, List.mem_append_left _ hp, h.mono h₂.gains.signals fun a ha => List.mem_append_left _ ha⟩
    · obtain ⟨p, hp, h⟩ := h₂.turns x hx hlt
      exact ⟨p, List.mem_append_right _ hp, h.mono (fun _ _ h => h) fun a ha => List.mem_append_right _ ha⟩

theorem emit_ok (hd : d₀.Sound) (classes : List (List NodeId × Nat)) :
    ∀ {d d' : Design} {l : List GuardedAssign}, Gains d₀ d l →
      (∀ t ∈ (classes.map (·.1)).flatten, t ∈ d₀.transactions) → (classes.map (·.1)).flatten.Nodup →
      classes.foldlM (fun d (members, index) => emitClass s d members index) d = .ok d' →
      ∃ l', Emitted d₀ s (classes.map (·.1)) d d' l' := by
  induction classes with
  | nil =>
    intro d d' l _ _ _ h
    obtain rfl := except_pure_ok.1 h
    exact ⟨[], .nil d⟩
  | cons p classes ih =>
    intro d d' l hg hall hnodup h
    rw [List.foldlM_cons, except_bind_ok] at h
    obtain ⟨d₁, h₁, h⟩ := h
    have hall' := hall
    have hnodup' := hnodup
    rw [List.map_cons, List.flatten_cons] at hall' hnodup'
    obtain ⟨hnodup₁, hnodup₂, -⟩ := List.nodup_append.1 hnodup'
    obtain ⟨l₁, he₁⟩ := emitClass_ok hd hg (fun t ht => hall' t (List.mem_append_left _ ht)) hnodup₁ h₁
    obtain ⟨l₂, he₂⟩ := ih (hg.trans he₁.gains) (fun t ht => hall' t (List.mem_append_right _ ht)) hnodup₂ h
    exact ⟨l₁ ++ l₂, he₁.append hd hg hall hnodup he₂⟩

end Interlock.Arbiter
