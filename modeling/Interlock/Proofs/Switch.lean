import Interlock.Proofs.Draft.Faithful
import Interlock.Proofs.Draft.Machines
import Interlock.Proofs.Expr.Defined

/-! A switch selects by value. Its arms are those of a chain of branches all of whose tests are put to one selector: a
case asks whether the selector has one of the listed values, a default asks for nothing. Where the listed values are
values that a selector of its width can have, the arm that is taken is the first one that is a default or lists the
value of the selector. A listed value with more bits is cut to the width, and so stands for another one. -/

namespace Interlock

namespace Draft

theorem any_congr {α : Type} {l : List α} {p q : α → Bool} (h : ∀ x ∈ l, p x = q x) : l.any p = l.any q := by
  rw [Bool.eq_iff_iff, List.any_eq_true, List.any_eq_true]
  exact exists_congr fun x => and_congr_right fun hx => by rw [h x hx]

/-- An arm of a switch. -/
inductive SwitchArm where
  | case (values : List Word)
  | otherwise
deriving DecidableEq, Repr

namespace SwitchArm

/-- What the arm asks of a selector. -/
def test (sel : Expr) : SwitchArm → Test
  | case values => .oneOf sel values
  | otherwise => .always

/-- Whether the arm is for this value. -/
def lists (v : Word) : SwitchArm → Bool
  | case values => values.contains v
  | otherwise => true

/-- Every listed value is one of so many bits. -/
def within (w : Nat) : SwitchArm → Bool
  | case values => values.all fun v => v.toNat < 2 ^ w
  | otherwise => true

variable {sel cond : Expr} {arm : SwitchArm} {arms : List SwitchArm} {σ : Valuation}

theorem holds_test (h : arm.within sel.width = true) : (arm.test sel).holds σ = arm.lists (sel.eval σ) := by
  cases arm with
  | case values =>
    simp only [within, List.all_eq_true, decide_eq_true_eq] at h
    rw [test, Test.holds, lists, List.contains_eq_any_beq]
    exact any_congr fun v hv => by rw [and_mask_of_lt (h v hv)]
  | otherwise => rfl

/-- The condition that is put down for an arm decides whether its test holds. -/
theorem decides_of_asks (h : (arm.test sel).Asks cond) : cond.Decides fun σ => (arm.test sel).holds σ := by
  cases arm with
  | case values => exact decides_oneOf h
  | otherwise => exact (show cond = .one from h) ▸ .one

/-- The condition that is put down for an arm has a value where the selector has one. -/
theorem defined_of_asks (h : (arm.test sel).Asks cond) (hsel : sel.Defined) : cond.Defined := by
  cases arm with
  | case values =>
    have hcond : Recording.caseCond sel values = .ok cond := h
    simp only [Recording.caseCond, except_bind_ok, except_pure_ok] at hcond
    obtain ⟨_, -, rfl⟩ := hcond
    refine Expr.closed_defined.any fun e he => ?_
    obtain ⟨v, -, rfl⟩ := List.mem_map.1 he
    exact Expr.closed_defined.binary .eq _ _ hsel (Expr.closed_defined.constant v hsel.width_lt)
  | otherwise =>
    obtain rfl : cond = .one := h
    exact Expr.closed_defined.one

end SwitchArm

/-- The first item with a property: it has it, and none of the items before has. -/
theorem findIdx?_eq_some_iff_take {α : Type} {l : List α} {p : α → Bool} {k : Nat} {x : α} (hk : l[k]? = some x) :
    l.findIdx? p = some k ↔ (l.take k).any p = false ∧ p x = true := by
  obtain ⟨hlt, rfl⟩ := List.getElem?_eq_some_iff.1 hk
  rw [List.findIdx?_eq_some_iff_getElem, List.any_eq_false]
  constructor
  · rintro ⟨_, hx, hbefore⟩
    refine ⟨fun y hy => ?_, hx⟩
    obtain ⟨i, hi, rfl⟩ := List.mem_take_iff_getElem.1 hy
    exact hbefore i (Nat.lt_of_lt_of_le hi (Nat.min_le_left ..))
  · rintro ⟨hbefore, hx⟩
    exact ⟨hlt, hx, fun i hi => hbefore _ (List.mem_take_iff_getElem.2 ⟨i, by omega, rfl⟩)⟩

section

variable {sel : Expr} {arms : List SwitchArm} {conds : List Expr} {σ : Valuation} {k : Nat} {arm : SwitchArm}
  {cond : Expr}

/-- The condition of an arm of a switch, with those of the earlier arms left out, decides whether the arm is the first
one that lists the value of the selector. -/
theorem decides_first (hasks : List.Forall₂ Test.Asks (arms.map (·.test sel)) conds)
    (hvalues : ∀ a ∈ arms, a.within sel.width = true) (harm : arms[k]? = some arm) (hcond : conds[k]? = some cond) :
    ((Expr.any (conds.take k)).not.and cond).eval σ ≠ 0 ↔ arms.findIdx? (·.lists (sel.eval σ)) = some k := by
  have hearlier : (Expr.any (conds.take k)).Decides fun σ => (arms.take k).any fun a => (a.test sel).holds σ :=
    .any ((List.forall₂_take k (List.forall₂_map_left_iff.1 hasks)).imp fun _ _ => SwitchArm.decides_of_asks)
  have hput : (arm.test sel).Asks cond := by
    have hrel := forall₂_getElem? hasks k
    rw [List.getElem?_map, harm, hcond] at hrel
    cases hrel with
    | some h => exact h
  have holds : ∀ a ∈ arms, (a.test sel).holds σ = a.lists (sel.eval σ) := fun a ha =>
    SwitchArm.holds_test (hvalues a ha)
  rw [(hearlier.not.and (SwitchArm.decides_of_asks hput)).ne_zero, findIdx?_eq_some_iff_take harm,
    any_congr fun a ha => holds a (List.mem_of_mem_take ha), holds arm (List.mem_of_getElem? harm),
    Bool.and_eq_true, Bool.not_eq_true']

theorem defined_arm (hasks : List.Forall₂ Test.Asks (arms.map (·.test sel)) conds) (hsel : sel.Defined)
    (hcond : cond ∈ conds) : ((Expr.any (conds.take k)).not.and cond).Defined := by
  have hall : ∀ c ∈ conds, c.Defined := by
    intro c hc
    obtain ⟨test, ht, hput⟩ := forall₂_right hasks.flip hc
    obtain ⟨arm, -, rfl⟩ := List.mem_map.1 ht
    exact SwitchArm.defined_of_asks hput hsel
  have hearlier : (Expr.any (conds.take k)).Defined :=
    Expr.closed_defined.any fun c hc => hall c (List.mem_of_mem_take hc)
  exact Expr.closed_defined.and (Expr.closed_defined.not hearlier) (hall cond hcond)

end

end Draft

open Draft

/-- The arms that are entered of a switch, in the order of recording: the position of the arm that is taken is that of
the first one which is a default or lists the value of the selector. So at most one arm is taken, and a default at the
end is taken exactly where no case lists the value. The listed values have no bits beyond the width of the
selector. -/
theorem switch_selects_by_value {config : Config} {actions : List Action} {d : Draft}
    (hrun : (start config).run actions = some d) {j : Nat} {path : ControlPath} {b : Recording.Chain}
    {entered : List (Nat × Expr)} (hj : d.chains[j]? = some ⟨path, .branches b, entered⟩) {sel : Expr}
    {arms : List SwitchArm} (harms : (transcript config actions).chains[j]? = some (arms.map (·.test sel)))
    (hvalues : ∀ a ∈ arms, a.within sel.width = true) :
    entered.length = arms.length ∧ (sel.Defined → ∀ a ∈ entered, ∀ σ, a.2.evalChecked σ = .ok (a.2.eval σ)) ∧
    ∀ σ,
      (∀ k a, entered[k]? = some a → (a.2.eval σ ≠ 0 ↔ arms.findIdx? (·.lists (sel.eval σ)) = some k)) ∧
      (∀ (k k' : Nat) (a a' : Nat × Expr), entered[k]? = some a → entered[k']? = some a' → a.2.eval σ ≠ 0 →
        a'.2.eval σ ≠ 0 → k = k') ∧
      ∀ cases : List (List Word), arms = cases.map .case ++ [.otherwise] → ∀ a, entered[cases.length]? = some a →
        (a.2.eval σ ≠ 0 ↔ ∀ values ∈ cases, sel.eval σ ∉ values) := by
  obtain ⟨tests, htests, conds, hasks, hcounts⟩ := (transcript_faithful hrun).chain hj
  obtain rfl : tests = arms.map (·.test sel) := Option.some.inj (htests.symm.trans harms)
  have hlength : conds.length = arms.length := by rw [← hasks.length_eq, List.length_map]
  have hentered : ∀ k a, entered[k]? = some a → ∃ arm cond, arms[k]? = some arm ∧ conds[k]? = some cond ∧
      a = (k, (Expr.any (conds.take k)).not.and cond) := by
    intro k a ha
    have hk : k < conds.length := hcounts.length ▸ (List.getElem?_eq_some_iff.1 ha).1
    refine ⟨_, _, List.getElem?_eq_getElem (hlength ▸ hk), List.getElem?_eq_getElem hk, ?_⟩
    exact Option.some.inj (ha.symm.trans (hcounts.arms k _ (List.getElem?_eq_getElem hk)))
  have taken : ∀ σ k a, entered[k]? = some a →
      (a.2.eval σ ≠ 0 ↔ arms.findIdx? (·.lists (sel.eval σ)) = some k) := by
    intro σ k a ha
    obtain ⟨arm, cond, harm, hcond, rfl⟩ := hentered k a ha
    exact decides_first hasks hvalues harm hcond
  refine ⟨hcounts.length.trans hlength, fun hdefined a ha σ => ?_, fun σ => ⟨taken σ, ?_, ?_⟩⟩
  · obtain ⟨k, hk⟩ := List.mem_iff_getElem?.1 ha
    obtain ⟨arm, cond, -, hcond, rfl⟩ := hentered k a hk
    exact (defined_arm hasks hdefined (List.mem_of_getElem? hcond)).evalChecked
  · intro k k' a a' ha ha' hne hne'
    exact Option.some.inj (((taken σ k a ha).1 hne).symm.trans ((taken σ k' a' ha').1 hne'))
  · rintro cases rfl a ha
    have hlast : (cases.map SwitchArm.case ++ [SwitchArm.otherwise])[cases.length]? = some .otherwise := by
      rw [List.getElem?_append_right (by rw [List.length_map]), List.length_map, Nat.sub_self]
      rfl
    rw [taken σ _ a ha, findIdx?_eq_some_iff_take hlast, List.take_left' (List.length_map ..), List.any_map,
      List.any_eq_false]
    simp [SwitchArm.lists]

/-- A switch on two bits with two cases, both for the value 3, and a default. -/
def overlapping : List Action :=
  [.openModule "", .inModule 0 (.signal "s" 2 .input 0 .generated), .inModule 0 .branches,
    .inModule 0 (.case 0 (.signal 0 2) [1, 3]), .inModule 0 .leave,
    .inModule 0 (.case 0 (.signal 0 2) [3, 0, 3]), .inModule 0 .leave, .inModule 0 (.otherwise 0), .inModule 0 .leave]

def overlappingArms : List SwitchArm := [.case [1, 3], .case [3, 0, 3], .otherwise]

theorem switch_selects_of_overlapping : ∃ d ∈ (start {}).run overlapping, ∃ c ∈ d.chains[0]?, ∃ a₀ a₁ a₂,
    c.arms = [(0, a₀), (1, a₁), (2, a₂)] ∧
      (∀ v : Word, v = 1 ∨ v = 3 → a₀.eval (fun _ => v) ≠ 0 ∧ a₁.eval (fun _ => v) = 0) ∧
      a₁.eval (fun _ => 0) ≠ 0 ∧ ∀ σ, a₂.eval σ ≠ 0 ↔ σ 0 &&& mask 2 ∉ [1, 3] ∧ σ 0 &&& mask 2 ∉ [3, 0, 3] := by
  have hchain : ∃ d ∈ (start {}).run overlapping, ∃ c ∈ d.chains[0]?, c.arms.map (·.1) = [0, 1, 2] ∧
      c.opener.machine? = none ∧ c.opener ≠ .when c.opener.number := by
    decide +kernel
  obtain ⟨d, hd, ⟨path, opener, arms⟩, hc, hnumbers, hmachine, hwhen⟩ := hchain
  obtain ⟨b, rfl⟩ : ∃ b, opener = .branches b := by
    cases opener with
    | branches b => exact ⟨b, rfl⟩
    | «when» number => exact absurd rfl hwhen
    | machine _ => cases hmachine
  obtain ⟨⟨_, a₀⟩, _, rfl, rfl, hrest⟩ := List.map_eq_cons_iff.1 hnumbers
  obtain ⟨⟨_, a₁⟩, _, rfl, rfl, hlast⟩ := List.map_eq_cons_iff.1 hrest
  obtain ⟨⟨_, a₂⟩, _, rfl, rfl, hnone⟩ := List.map_eq_cons_iff.1 hlast
  obtain rfl := List.map_eq_nil_iff.1 hnone
  have harms : (transcript {} overlapping).chains[0]? = some (overlappingArms.map (·.test (.signal 0 2))) := by
    decide +kernel
  obtain ⟨-, -, hselects⟩ := switch_selects_by_value hd hc harms (by decide +kernel)
  have first : ∀ v : Word, v = 1 ∨ v = 3 →
      overlappingArms.findIdx? (·.lists ((Expr.signal 0 2).eval fun _ => v)) = some 0 := by
    rintro v (rfl | rfl) <;> decide +kernel
  refine ⟨d, hd, _, hc, a₀, a₁, a₂, rfl, fun v hv => ⟨?_, ?_⟩, ?_, fun σ => ?_⟩
  · exact ((hselects fun _ => v).1 0 _ rfl).2 (first v hv)
  · by_contra hne
    exact absurd (((hselects fun _ => v).1 1 _ rfl).1 hne) (by rw [first v hv]; decide)
  · exact ((hselects fun _ => 0).1 1 _ rfl).2 (by decide +kernel)
  · simpa [Expr.eval] using (hselects σ).2.2 [[1, 3], [3, 0, 3]] rfl _ rfl

/-- A switch on two bits with a case for 5, and a default. -/
def unlisted : List Action :=
  [.openModule "", .inModule 0 (.signal "s" 2 .input 0 .generated), .inModule 0 .branches,
    .inModule 0 (.case 0 (.signal 0 2) [5]), .inModule 0 .leave, .inModule 0 (.otherwise 0), .inModule 0 .leave]

/-- The selector is 1, which no case lists, but the arm of the case is taken and the default is not: cut to two bits, 5
is 1. -/
theorem switch_mistakes_unlisted : ∃ d ∈ (start {}).run unlisted, ∃ c ∈ d.chains[0]?,
    (transcript {} unlisted).chains[0]? = some ([SwitchArm.case [5], .otherwise].map (·.test (.signal 0 2))) ∧
      (Expr.signal 0 2).eval (fun _ => 1) = 1 ∧
      [SwitchArm.case [5], .otherwise].findIdx? (·.lists 1) = some 1 ∧ c.arms.map (·.1) = [0, 1] ∧
      c.arms.map (·.2.eval fun _ => 1) = [1, 0] := by
  decide +kernel

end Interlock
