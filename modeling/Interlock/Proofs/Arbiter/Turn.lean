import Interlock.Arbiter
import Interlock.Proofs.Expr.Truth

/-! Taking turns. Positions are searched going round from the one after the last that was granted; the
first of them that wants to is granted, so no two are. Which one that is goes into a one-hot register. -/

namespace Interlock

namespace Expr

variable {σ : Valuation}

/-- A single bit of a word. -/
theorem truth_bits {p : Nat} (hp : p < 64) (e : Expr) :
    (e.bits p p).truth σ = (e.eval σ).toNat.testBit p := by
  unfold bits
  split
  · rename_i h
    rw [h.1]
    rfl
  · have hword : p % 2 ^ 64 % 64 = p := by omega
    rw [truth, eval, cut, if_neg (by omega), lowBit_and, lowBit_mask (by omega), Bool.and_true, lowBit,
      UInt64.toNat_shiftRight, UInt64.toNat_ofNat', hword, Nat.testBit_shiftRight, Nat.add_zero]

theorem testBit_place {offset : Nat} (ho : offset < 64) (b : Bool) (j : Nat) :
    (place b.toUInt64 offset).toNat.testBit j = (decide (offset = j) && b) := by
  cases b with
  | false =>
    show (place 0 offset).toNat.testBit j = _
    rw [place_zero_word, Bool.and_false, UInt64.toNat_zero, Nat.zero_testBit]
  | true =>
    have hlt : (2 : Nat) ^ offset < 2 ^ 64 := Nat.pow_lt_pow_right (by decide) ho
    have hword : offset % 2 ^ 64 % 64 = offset := by omega
    rw [place, if_pos ho, UInt64.toNat_shiftLeft, UInt64.toNat_ofNat', hword]
    show (1 <<< offset % 2 ^ 64).testBit j = _
    rw [Nat.one_shiftLeft, Nat.mod_eq_of_lt hlt, Nat.testBit_two_pow, Bool.and_true]

/-- An expression whose value is a single bit. -/
def IsBit (σ : Valuation) (e : Expr) : Prop := e.width = 1 ∧ e.eval σ = (e.truth σ).toUInt64

theorem testBit_evalParts {ps : List Expr} :
    ∀ {offset : Nat}, (∀ p ∈ ps, p.IsBit σ) → offset + ps.length ≤ 64 → ∀ j,
      (evalParts σ ps offset).toNat.testBit j =
        (decide (offset ≤ j) && (ps.map (truth σ)).getD (j - offset) false) := by
  induction ps with
  | nil =>
    intro offset _ _ j
    simp [evalParts]
  | cons p ps ih =>
    intro offset hps hlen j
    obtain ⟨hwidth, heval⟩ := hps p (List.mem_cons_self ..)
    rw [List.length_cons] at hlen
    rw [evalParts, UInt64.toNat_or, Nat.testBit_or, heval, testBit_place (by omega), hwidth,
      ih (fun q hq => hps q (List.mem_cons_of_mem _ hq)) (by omega)]
    rcases Nat.lt_trichotomy offset j with h | rfl | h
    · obtain ⟨m, rfl⟩ : ∃ m, j = offset + 1 + m := ⟨j - (offset + 1), by omega⟩
      have hne : ¬ offset = offset + 1 + m := by omega
      have hle : offset ≤ offset + 1 + m := by omega
      have hsub : offset + 1 + m - offset = m + 1 := by omega
      simp [hne, hle, hsub]
    · have hle : ¬ offset + 1 ≤ offset := by omega
      simp [hle]
    · have hne : ¬ offset = j := by omega
      have hle : ¬ offset ≤ j := by omega
      have hle' : ¬ offset + 1 ≤ j := by omega
      simp [hne, hle, hle']

/-- The bits of joined bits. -/
theorem testBit_join {ps : List Expr} (hps : ∀ p ∈ ps, p.IsBit σ) (hlen : ps.length ≤ 64) (j : Nat) :
    ((join ps).eval σ).toNat.testBit j = (ps.map (truth σ)).getD j false := by
  match ps with
  | [] => simp [join]
  | [p] =>
    have hp := (hps p (List.mem_cons_self ..)).2
    rw [join, hp, ← place_zero (p.truth σ).toUInt64, testBit_place (by omega)]
    cases j <;> simp
  | p :: q :: rest =>
    show ((concat (p :: q :: rest)).eval σ).toNat.testBit j = _
    rw [eval, testBit_evalParts hps (by omega)]
    simp

/-- Joined bits of which one is set. -/
theorem toNat_join {ps : List Expr} (hps : ∀ p ∈ ps, p.IsBit σ) (hlen : ps.length ≤ 64) {i : Nat}
    (h : ∀ j, (ps.map (truth σ)).getD j false = decide (i = j)) : ((join ps).eval σ).toNat = 2 ^ i := by
  apply Nat.eq_of_testBit_eq
  intro j
  rw [testBit_join hps hlen, h, Nat.testBit_two_pow]

end Expr

namespace Arbiter

variable {σ : Valuation} {n i j k : Nat}

/-- How many positions come between `i` and `k`, going round from `i`. -/
def distance (n i k : Nat) : Nat := (k + n - (i + 1)) % n

theorem distance_lt (hi : i < n) (k : Nat) : distance n i k < n := Nat.mod_lt _ (Nat.zero_lt_of_lt hi)

theorem distance_step (hi : i < n) {s : Nat} (h₁ : 1 ≤ s) (hs : s ≤ n) : distance n i ((i + s) % n) = s - 1 := by
  unfold distance
  rcases Nat.lt_or_ge (i + s) n with h | h
  · rw [Nat.mod_eq_of_lt h, show i + s + n - (i + 1) = s - 1 + n by omega, Nat.add_mod_right,
      Nat.mod_eq_of_lt (by omega)]
  · rw [Nat.mod_eq_sub_mod h, Nat.mod_eq_of_lt (a := i + s - n) (by omega),
      show i + s - n + n - (i + 1) = s - 1 by omega, Nat.mod_eq_of_lt (by omega)]

/-- Every position is so many steps away. -/
theorem step_distance (hi : i < n) (hk : k < n) : (i + (distance n i k + 1)) % n = k := by
  unfold distance
  rcases Nat.lt_or_ge i k with h | h
  · rw [show k + n - (i + 1) = k - (i + 1) + n by omega, Nat.add_mod_right, Nat.mod_eq_of_lt (a := k - (i + 1)) (by omega),
      show i + (k - (i + 1) + 1) = k by omega, Nat.mod_eq_of_lt hk]
  · rw [Nat.mod_eq_of_lt (a := k + n - (i + 1)) (by omega), show i + (k + n - (i + 1) + 1) = k + n by omega,
      Nat.add_mod_right, Nat.mod_eq_of_lt hk]

theorem distance_inj (hi : i < n) (hj : j < n) (hk : k < n) (h : distance n i j = distance n i k) : j = k := by
  rw [← step_distance hi hj, ← step_distance hi hk, h]

/-- What comes before `k` in a list in ascending order. -/
theorem mem_takeWhile_ne {f : Nat → Nat} {l : List Nat} (hl : l.Pairwise fun a b => f a < f b)
    (hk : k ∈ l ∨ ∀ a ∈ l, f a < f k) : j ∈ l.takeWhile (· ≠ k) ↔ j ∈ l ∧ f j < f k := by
  induction l with
  | nil => simp
  | cons a l ih =>
    rw [List.pairwise_cons] at hl
    by_cases ha : a = k
    · subst ha
      rw [List.takeWhile_cons_of_neg (by simp)]
      refine ⟨fun h => (nomatch h), fun ⟨hj, hlt⟩ => ?_⟩
      rcases List.mem_cons.1 hj with rfl | hj
      · exact absurd hlt (Nat.lt_irrefl _)
      · exact absurd (hl.1 j hj) (Nat.lt_asymm hlt)
    · have hrest : k ∈ l ∨ ∀ b ∈ l, f b < f k := by
        refine hk.imp (fun h => ?_) fun h b hb => h b (List.mem_cons_of_mem _ hb)
        exact (List.mem_cons.1 h).resolve_left (Ne.symm ha)
      have hak : f a < f k := by
        rcases hk with h | h
        · exact hl.1 k ((List.mem_cons.1 h).resolve_left (Ne.symm ha))
        · exact h a (List.mem_cons_self ..)
      rw [List.takeWhile_cons_of_pos (by simpa using ha), List.mem_cons, ih hl.2 hrest, List.mem_cons]
      constructor
      · rintro (rfl | ⟨hj, hlt⟩)
        · exact ⟨.inl rfl, hak⟩
        · exact ⟨.inr hj, hlt⟩
      · rintro ⟨rfl | hj, hlt⟩
        · exact .inl rfl
        · exact .inr ⟨hj, hlt⟩

/-- The positions between two others are those that are nearer. -/
theorem mem_between (hi : i < n) (hk : k < n) :
    j ∈ between n i k ↔ j < n ∧ distance n i j < distance n i k := by
  have hn : 0 < n := Nat.zero_lt_of_lt hi
  have hmem : ∀ j, j ∈ (List.range' 1 (n - 1)).map (fun s => (i + s) % n) ↔ j < n ∧ distance n i j < n - 1 := by
    intro j
    simp only [List.mem_map, List.mem_range'_1]
    constructor
    · rintro ⟨s, hs, rfl⟩
      refine ⟨Nat.mod_lt _ hn, ?_⟩
      rw [distance_step hi hs.1 (by omega)]
      omega
    · rintro ⟨hj, hlt⟩
      exact ⟨distance n i j + 1, by omega, step_distance hi hj⟩
  have hsorted : ((List.range' 1 (n - 1)).map fun s => (i + s) % n).Pairwise
      fun a b => distance n i a < distance n i b := by
    rw [List.pairwise_map]
    refine List.Pairwise.imp_of_mem (fun ha hb hab => ?_) List.pairwise_lt_range'
    rw [List.mem_range'_1] at ha hb
    rw [distance_step hi ha.1 (by omega), distance_step hi hb.1 (by omega)]
    omega
  have hle : ∀ a, distance n i a ≤ n - 1 := fun a => Nat.le_sub_one_of_lt (distance_lt hi a)
  unfold between
  rw [mem_takeWhile_ne hsorted, hmem]
  · have := hle k
    constructor
    · exact fun h => ⟨h.1.1, h.2⟩
    · exact fun h => ⟨⟨h.1, by omega⟩, h.2⟩
  · rcases Nat.lt_or_eq_of_le (hle k) with h | h
    · exact .inl ((hmem k).2 ⟨hk, h⟩)
    · refine .inr fun a ha => ?_
      rw [h]
      exact ((hmem a).1 ha).2

/-- The first position after `i` that wants to run, going round; `i` itself comes last. -/
def turn (n i : Nat) (wants : Nat → Bool) : Option Nat :=
  ((List.range' 1 n).map fun s => (i + s) % n).find? wants

/-- It is the nearest of those that want to. -/
theorem turn_eq_some {wants : Nat → Bool} (hi : i < n) : turn n i wants = some k ↔
    k < n ∧ wants k = true ∧ ∀ j < n, distance n i j < distance n i k → wants j = false := by
  have hlen : ((List.range' 1 n).map fun s => (i + s) % n).length = n := by
    rw [List.length_map, List.length_range']
  have hget : ∀ m (hm : m < ((List.range' 1 n).map fun s => (i + s) % n).length),
      ((List.range' 1 n).map fun s => (i + s) % n)[m] = (i + (m + 1)) % n := by
    intro m hm
    rw [List.getElem_map, List.getElem_range', Nat.one_mul, Nat.add_comm 1 m]
  rw [turn, List.find?_eq_some_iff_getElem]
  constructor
  · rintro ⟨hwants, m, hm, hmk, hbefore⟩
    rw [hget m hm] at hmk
    rw [hlen] at hm
    subst hmk
    refine ⟨Nat.mod_lt _ (Nat.zero_lt_of_lt hi), hwants, fun j hj hlt => ?_⟩
    rw [distance_step hi (by omega) (by omega), Nat.add_sub_cancel] at hlt
    have hj' := hbefore (distance n i j) hlt
    rwa [hget, step_distance hi hj, Bool.not_eq_true'] at hj'
  · rintro ⟨hk, hwants, hbefore⟩
    have hm : distance n i k < n := distance_lt hi k
    refine ⟨hwants, distance n i k, by rwa [hlen], by rw [hget, step_distance hi hk], fun m hmk => ?_⟩
    rw [hget, Bool.not_eq_true']
    refine hbefore _ (Nat.mod_lt _ (Nat.zero_lt_of_lt hi)) ?_
    rwa [distance_step hi (by omega) (by omega), Nat.add_sub_cancel]

/-- Someone gets a turn where someone wants to. -/
theorem exists_turn {wants : Nat → Bool} (hi : i < n) (hk : k < n) (hwants : wants k = true) :
    ∃ j, turn n i wants = some j := by
  rw [← Option.isSome_iff_exists, turn, List.find?_isSome]
  refine ⟨k, List.mem_map.2 ⟨distance n i k + 1, ?_, step_distance hi hk⟩, hwants⟩
  rw [List.mem_range'_1]
  have := distance_lt hi k
  omega

/-- From a position before `k` it is nearer to `k`. -/
theorem distance_shrinks (hi : i < n) (hj : j < n) (hk : k < n) (h : distance n i j < distance n i k) :
    distance n j k < distance n i k := by
  have hlt := distance_lt hi k
  -- From `i` it takes a step more to `j`, and from there what is left of the way to `k`.
  have hway : (j + (distance n i k - distance n i j)) % n = k :=
    calc (j + (distance n i k - distance n i j)) % n
      _ = ((i + (distance n i j + 1)) % n + (distance n i k - distance n i j)) % n := by rw [step_distance hi hj]
      _ = (i + (distance n i k + 1)) % n := by
        rw [Nat.mod_add_mod]
        congr 1
        omega
      _ = k := step_distance hi hk
  have hdistance := distance_step hj (s := distance n i k - distance n i j) (by omega) (by omega)
  rw [hway] at hdistance
  omega

/-- The position after the last one granted at which the search finds one that wants to. -/
theorem truth_turnGrant {last : Expr} {wanting : List Expr} (hlen : wanting.length ≤ 64)
    (hi : i < wanting.length) (hk : k < wanting.length) (hlast : (last.eval σ).toNat = 2 ^ i) :
    (turnGrant last wanting k).truth σ = true ↔
      (wanting.getD k (.bit false)).truth σ = true ∧
        ∀ j < wanting.length, distance wanting.length i j < distance wanting.length i k →
          (wanting.getD j (.bit false)).truth σ = false := by
  have hbit : ∀ p < wanting.length, (last.bits p p).truth σ = decide (i = p) := by
    intro p hp
    rw [Expr.truth_bits (by omega), hlast, Nat.testBit_two_pow]
  have hnone : ∀ p < wanting.length,
      ((Expr.any ((between wanting.length p k).map fun i => wanting.getD i (.bit false))).not).truth σ = true ↔
        ∀ j < wanting.length, distance wanting.length p j < distance wanting.length p k →
          (wanting.getD j (.bit false)).truth σ = false := by
    intro p hp
    rw [Expr.truth_not (Expr.width_any_pos _), Expr.truth_any]
    simp only [Bool.not_eq_true', List.any_eq_false, List.mem_map, mem_between hp hk, Bool.not_eq_true]
    constructor
    · exact fun h j hj hlt => h _ ⟨j, ⟨hj, hlt⟩, rfl⟩
    · rintro h _ ⟨j, ⟨hj, hlt⟩, rfl⟩
      exact h j hj hlt
  unfold turnGrant
  rw [Expr.truth_any]
  simp only [List.any_map, List.any_eq_true, List.mem_range, Function.comp_apply, Expr.truth_and,
    Bool.and_eq_true]
  constructor
  · rintro ⟨p, hp, ⟨hpi, hwant⟩, hrest⟩
    rw [hbit p hp, decide_eq_true_eq] at hpi
    subst hpi
    exact ⟨hwant, (hnone i hp).1 hrest⟩
  · rintro ⟨hwant, hrest⟩
    refine ⟨i, hi, ⟨?_, hwant⟩, (hnone i hi).2 hrest⟩
    rw [hbit i hi, decide_eq_true_eq]

end Arbiter

end Interlock
