import Interlock.Proofs.Arbiter
import Interlock.Proofs.Arbiter.Turn
import Interlock.Proofs.Expr.Fits

/-! Transactions of one class that conflict are never granted together. Where grants are given in order
of priority, the later of the two looks at the earlier one; where they are given in turn, only one is, and
the register that says whose turn it was keeps a single bit set. -/

namespace Interlock.Arbiter

open Drivers Design

variable {d d' : Design} {s : Schedule} {members : List NodeId} {l : List GuardedAssign} {k : Kernel}
  {last : SignalId}

theorem runs_eq (hw : Wired d d' l) (hk : k.Steady d'.lowered) {t : NodeId} (ht : t ∈ d.transactions)
    {e : Expr} (ha : always (d.node t).activator e ∈ l) : d.runs k t = e.truth k.values.valuation := by
  obtain ⟨info, h⟩ := hw.sound.transaction ht
  exact hw.value hk (h.activator ▸ h.grant) ha

/-! ### Order of priority -/

theorem truth_eagerGrant (hd : d.Sound) {earlier : List NodeId} (hearlier : ∀ u ∈ earlier, u ∈ d.transactions)
    (t : NodeId) : (eagerGrant d s earlier t).truth k.values.valuation =
      ((wants d t).truth k.values.valuation && !(earlier.any fun u => s.conflict u t && d.runs k u)) := by
  have hany : (Expr.any ((earlier.filter (s.conflict · t)).map (grantOf d))).truth k.values.valuation =
      earlier.any fun u => s.conflict u t && d.runs k u := by
    rw [Expr.truth_any, List.any_map, List.any_filter, Bool.eq_iff_iff, List.any_eq_true, List.any_eq_true]
    refine exists_congr fun u => and_congr_right fun hu => ?_
    rw [Function.comp_apply, truth_grantOf hd (hearlier u hu)]
    rfl
  rw [eagerGrant, Expr.truth_and, Expr.truth_not (Expr.width_any_pos _), hany]

/-- Of two members that conflict the later one is not granted where the earlier one is. -/
theorem Eager.later (h : Eager d s members l) (hw : Wired d d' l) (hk : k.Steady d'.lowered)
    (hm : ∀ t ∈ members, t ∈ d.transactions) {pre mid post : List NodeId} {t u : NodeId}
    (hsplit : members = pre ++ t :: (mid ++ u :: post)) (hc : s.conflict t u = true)
    (ht : d.runs k t = true) : d.runs k u = false := by
  have hu := h (pre ++ t :: mid) u post (by simp [hsplit])
  have hearlier : ∀ v ∈ pre ++ t :: mid, v ∈ d.transactions := fun v hv => hm v (by
    rw [hsplit]
    simp only [List.mem_append, List.mem_cons] at hv ⊢
    tauto)
  rw [runs_eq hw hk (hm u (by simp [hsplit])) hu, truth_eagerGrant hw.sound hearlier]
  have hany : (pre ++ t :: mid).any (fun v => s.conflict v u && d.runs k v) = true :=
    List.any_eq_true.2 ⟨t, by simp, by rw [hc, ht, Bool.and_self]⟩
  rw [hany, Bool.not_true, Bool.and_false]

/-! ### Turns -/

/-- Exactly one bit is set, and it is one of the lowest `n`. -/
def OneHot (n : Nat) (v : Word) : Prop := ∃ i < n, v.toNat = 2 ^ i

theorem OneHot.mask {n : Nat} {v : Word} (h : OneHot n v) : v &&& Interlock.mask n = v := by
  obtain ⟨i, hi, hv⟩ := h
  apply and_mask_of_lt
  rw [hv]
  exact Nat.pow_lt_pow_right (by decide) hi

theorem isBit_grantOf (hd : d.Sound) {t : NodeId} (ht : t ∈ d.transactions) :
    (grantOf d t).IsBit k.values.valuation ∧ (grantOf d t).bounded = true := by
  obtain ⟨info, h⟩ := hd.transaction ht
  rw [grantOf_eq h, Design.read, Netlist.read, h.grant.widthOf]
  exact ⟨⟨rfl, Expr.eval_eq_truth rfl rfl⟩, rfl⟩

/-- A member is granted where it wants to run and none of those that are nearer to the position granted last
does. -/
theorem Turns.runs_iff (h : Turns d members d'.netlist l last) (hw : Wired d d' l) (hk : k.Steady d'.lowered)
    (hm : ∀ t ∈ members, t ∈ d.transactions) {p : Nat} (hp : p < members.length)
    (hlast : (k.values.valuation last).toNat = 2 ^ p) {i : Nat} {t : NodeId} (hi : members[i]? = some t) :
    d.runs k t = true ↔ (wants d t).truth k.values.valuation = true ∧
      ∀ j u, members[j]? = some u → distance members.length p j < distance members.length p i →
        (wants d u).truth k.values.valuation = false := by
  have hfits : members.length ≤ 64 := h.fits
  have hlt := (List.getElem?_eq_some_iff.1 hi).1
  have hlen : (members.map (wants d)).length = members.length := List.length_map ..
  have hone : OneHot members.length (k.values.valuation last) := ⟨p, hp, hlast⟩
  have hread : ((Expr.signal last members.length).eval k.values.valuation).toNat = 2 ^ p := by
    rw [Expr.eval, hone.mask, hlast]
  have hget : ∀ j u, members[j]? = some u → (members.map (wants d)).getD j (.bit false) = wants d u := by
    intro j u hj
    rw [List.getD_eq_getElem?_getD, List.getElem?_map, hj, Option.map_some, Option.getD_some]
  rw [runs_eq hw hk (hm t (List.mem_of_getElem? hi)) (h.grants i t hi),
    truth_turnGrant (by omega) (by omega) (by omega) hread, hlen, hget i t hi]
  refine and_congr_right fun _ => ⟨fun hbefore j u hj hnear => ?_, fun hbefore j hj hnear => ?_⟩
  · rw [← hget j u hj]
    exact hbefore j (List.getElem?_eq_some_iff.1 hj).1 hnear
  · have hj := List.getElem?_eq_getElem hj
    rw [hget j _ hj]
    exact hbefore j _ hj hnear

/-- At most one member is granted where the register says whose turn it was. -/
theorem Turns.unique (h : Turns d members d'.netlist l last) (hw : Wired d d' l) (hk : k.Steady d'.lowered)
    (hm : ∀ t ∈ members, t ∈ d.transactions) (hone : OneHot members.length (k.values.valuation last))
    {i j : Nat} {t u : NodeId} (hi : members[i]? = some t) (hj : members[j]? = some u)
    (ht : d.runs k t = true) (hu : d.runs k u = true) : i = j := by
  obtain ⟨p, hp, hlast⟩ := hone
  obtain ⟨hwt, hbt⟩ := (h.runs_iff hw hk hm hp hlast hi).1 ht
  obtain ⟨hwu, hbu⟩ := (h.runs_iff hw hk hm hp hlast hj).1 hu
  rcases Nat.lt_trichotomy (distance members.length p i) (distance members.length p j) with hlt | heq | hlt
  · rw [hbu i t hi hlt] at hwt
    exact nomatch hwt
  · exact distance_inj hp (List.getElem?_eq_some_iff.1 hi).1 (List.getElem?_eq_some_iff.1 hj).1 heq
  · rw [hbt j u hj hlt] at hwu
    exact nomatch hwu

/-- What the register takes where someone is granted: the bit of the one who is. -/
theorem Turns.next (h : Turns d members d'.netlist l last) (hw : Wired d d' l) (hk : k.Steady d'.lowered)
    (hm : ∀ t ∈ members, t ∈ d.transactions) (hone : OneHot members.length (k.values.valuation last))
    {i : Nat} {t : NodeId} (hi : members[i]? = some t) (ht : d.runs k t = true) :
    ((Expr.join (members.map (grantOf d))).eval k.values.valuation).toNat = 2 ^ i := by
  have hfits : members.length ≤ 64 := h.fits
  refine Expr.toNat_join ?_ (by rwa [List.length_map]) fun j => ?_
  · rintro e he
    obtain ⟨u, hu, rfl⟩ := List.mem_map.1 he
    exact (isBit_grantOf hw.sound (hm u hu)).1
  · rw [List.map_map, List.getD_eq_getElem?_getD, List.getElem?_map]
    cases hj : members[j]? with
    | none =>
      rw [Option.map_none, Option.getD_none, eq_comm, decide_eq_false_iff_not]
      rintro rfl
      rw [hi] at hj
      exact nomatch hj
    | some u =>
      rw [Option.map_some, Option.getD_some, Function.comp_apply,
        truth_grantOf hw.sound (hm u (List.mem_of_getElem? hj))]
      show d.runs k u = decide (i = j)
      by_cases hu : d.runs k u = true
      · rw [hu, eq_comm, decide_eq_true_eq]
        exact h.unique hw hk hm hone hi hj ht hu
      · rw [Bool.not_eq_true] at hu
        rw [hu, eq_comm, decide_eq_false_iff_not]
        rintro rfl
        obtain rfl : t = u := Option.some.inj (hi.symm.trans hj)
        rw [ht] at hu
        exact nomatch hu

/-- What the driver of the register gives: the position that is granted, or what the register holds. -/
theorem Turns.next_value (h : Turns d members d'.netlist l last) (hw : Wired d d' l) (hk : k.Steady d'.lowered)
    (hm : ∀ t ∈ members, t ∈ d.transactions) (hone : OneHot members.length (k.values.valuation last)) {a : Assign}
    (ha : a ∈ d'.lowered.sync) (hat : a.target = last) :
    (∃ i t, members[i]? = some t ∧ d.runs k t = true ∧
      (a.value.eval k.values.valuation &&& mask (d'.lowered.widthOf last)).toNat = 2 ^ i) ∨
    ((∀ t ∈ members, d.runs k t = false) ∧
      a.value.eval k.values.valuation &&& mask (d'.lowered.widthOf last) = k.values.valuation last) := by
  obtain ⟨r, hr, hwidth, -, -⟩ := h.register
  have hlast : d'.netlist.widthOf last = members.length := by rw [Netlist.widthOf_eq hr, hwidth]
  have hlast' : d'.lowered.widthOf last = members.length := hlast
  have hsole := hw.logic.sole hw.sound hw.gains h.turn
  rw [sync_build hsole rfl (hw.gains.sync.trans hw.sound.sync) ha hat, hlast']
  simp only [hlast]
  have hbits : ∀ e ∈ members.map (grantOf d), e.IsBit k.values.valuation ∧ e.bounded = true := by
    intro e he
    obtain ⟨u, hu, rfl⟩ := List.mem_map.1 he
    exact isBit_grantOf hw.sound (hm u hu)
  have hjoin : (Expr.join (members.map (grantOf d))).width = members.length := by
    rw [Expr.width_join, Expr.totalWidth_bits fun e he => (hbits e he).1.1, List.length_map]
  have hany : (Expr.any (members.map (grantOf d))).eval k.values.valuation ≠ 0 ↔ ∃ t ∈ members, d.runs k t = true := by
    rw [Expr.eval_ne_zero_iff (Expr.closed_bounded.any fun e he => (hbits e he).2) (Expr.width_any fun e he => (hbits e he).1.1),
      Expr.truth_any, List.any_map, List.any_eq_true]
    refine exists_congr fun t => and_congr_right fun ht => ?_
    rw [Function.comp_apply, truth_grantOf hw.sound (hm t ht)]
    exact Iff.rfl
  split
  · rename_i hguard
    obtain ⟨t, ht, hgrant⟩ := hany.1 hguard
    obtain ⟨i, hi⟩ := List.mem_iff_getElem?.1 ht
    have hvalue := h.next hw hk hm hone hi hgrant
    have hnext : OneHot members.length ((Expr.join (members.map (grantOf d))).eval k.values.valuation) :=
      ⟨i, (List.getElem?_eq_some_iff.1 hi).1, hvalue⟩
    refine .inl ⟨i, t, hi, hgrant, ?_⟩
    rw [Expr.resize, if_pos hjoin, hnext.mask, hvalue]
  · rename_i hguard
    refine .inr ⟨fun t ht => ?_, ?_⟩
    · rw [← Bool.not_eq_true]
      exact fun hgrant => hguard (hany.2 ⟨t, ht, hgrant⟩)
    · rw [Netlist.read, hlast, Expr.eval, hone.mask, hone.mask]

/-- In every reachable state the register has exactly one bit set. -/
theorem Turns.oneHot (h : Turns d members d'.netlist l last) (hw : Wired d d' l)
    (hm : ∀ t ∈ members, t ∈ d.transactions) (hk : Kernel.Reachable d'.lowered k) :
    OneHot members.length (k.values.valuation last) := by
  have hfits : members.length ≤ 64 := h.fits
  have hsev := h.several
  obtain ⟨r, hr, -, hkind, hinit⟩ := h.register
  have hr : d'.lowered.signals.get? last = some r := hr
  refine hk.register hr hkind ?_ fun k hk hone a ha hat => ?_
  · have hlt : (2 : Nat) ^ (members.length - 1) < 2 ^ 64 := Nat.pow_lt_pow_right (by decide) (by omega)
    have hlt' : (2 : Nat) ^ (members.length - 1) < 2 ^ members.length := Nat.pow_lt_pow_right (by decide) (by omega)
    refine ⟨members.length - 1, by omega, ?_⟩
    rw [hinit, toNat_and_mask, UInt64.toNat_ofNat', Nat.one_shiftLeft, Nat.mod_eq_of_lt hlt,
      Nat.mod_eq_of_lt hlt']
  · rcases h.next_value hw hk hm hone ha hat with ⟨i, t, hi, -, hvalue⟩ | ⟨-, hvalue⟩
    · exact ⟨i, (List.getElem?_eq_some_iff.1 hi).1, hvalue⟩
    · rw [hvalue]
      exact hone

/-! ### Both -/

/-- Only a transaction that wants to is granted. -/
theorem Arbitrated.wants (h : Arbitrated d s members d'.netlist l) (hw : Wired d d' l)
    (hm : ∀ t ∈ members, t ∈ d.transactions) (hk : Kernel.Reachable d'.lowered k) {t : NodeId}
    (ht : t ∈ members) (hgt : d.runs k t = true) : (wants d t).truth k.values.valuation = true := by
  cases h with
  | eager _ h =>
    obtain ⟨pre, post, rfl⟩ := List.append_of_mem ht
    have hearlier : ∀ v ∈ pre, v ∈ d.transactions := fun v hv => hm v (List.mem_append_left _ hv)
    rw [runs_eq hw hk.steady (hm t ht) (h pre t post rfl), truth_eagerGrant hw.sound hearlier,
      Bool.and_eq_true] at hgt
    exact hgt.1
  | turns _ last h =>
    obtain ⟨i, hi⟩ := List.mem_iff_getElem?.1 ht
    obtain ⟨p, hp, hlast⟩ := h.oneHot hw hm hk
    exact ((h.runs_iff hw hk.steady hm hp hlast hi).1 hgt).1

theorem Arbitrated.apart (h : Arbitrated d s members d'.netlist l) (hw : Wired d d' l)
    (hm : ∀ t ∈ members, t ∈ d.transactions) (hk : Kernel.Reachable d'.lowered k) {t u : NodeId}
    (ht : t ∈ members) (hu : u ∈ members) (hne : t ≠ u) (hc : s.conflict t u = true)
    (hc' : s.conflict u t = true) : ¬ (d.runs k t = true ∧ d.runs k u = true) := by
  rintro ⟨hgt, hgu⟩
  cases h with
  | eager _ h =>
    obtain ⟨pre, post, rfl⟩ := List.append_of_mem ht
    rcases List.mem_append.1 hu with hu | hu
    · obtain ⟨pre', mid, rfl⟩ := List.append_of_mem hu
      have := h.later hw hk.steady hm (List.append_assoc ..) hc' hgu
      rw [hgt] at this
      exact nomatch this
    · obtain ⟨mid, post', rfl⟩ := List.append_of_mem ((List.mem_cons.1 hu).resolve_left (Ne.symm hne))
      have := h.later hw hk.steady hm rfl hc hgt
      rw [hgu] at this
      exact nomatch this
  | turns _ last h =>
    obtain ⟨i, hi⟩ := List.mem_iff_getElem?.1 ht
    obtain ⟨j, hj⟩ := List.mem_iff_getElem?.1 hu
    obtain rfl := h.unique hw hk.steady hm (h.oneHot hw hm hk) hi hj hgt hgu
    exact hne (Option.some.inj (hi.symm.trans hj))

end Interlock.Arbiter
