import Interlock.Names
import Mathlib.Data.List.Nodup
import Mathlib.Data.List.Perm.Subperm

/-! Fresh names. Candidates differ from one another, so among one more of them than there are names one is free, and a
fresh name is the first of those. What is named by fresh names alone is named apart. -/

namespace Interlock.Names

variable {t : Names} {l : List String} {base name : String}

theorem candidate_succ_inj {m n : Nat} (h : candidate base (m + 1) = candidate base (n + 1)) : m = n := by
  have hnumber := (String.append_right_inj (base ++ "_")).1 h
  have hdigits := congrArg (fun s : String => Nat.ofDigitChars 10 s.toList 0) hnumber
  simp only [Nat.toString_eq_repr, Nat.toList_repr, Nat.ofDigitChars_ten_toDigits] at hdigits
  exact Nat.succ.inj hdigits

/-- The candidate without a number is shorter than those with one. -/
theorem candidate_succ_ne (base : String) (n : Nat) : candidate base (n + 1) ≠ base := by
  intro h
  have hlength := congrArg String.length h
  simp only [candidate, String.length_append] at hlength
  have : 0 < "_".length := by decide
  omega

theorem candidate_injective (base : String) : Function.Injective (candidate base) := by
  intro m n h
  rcases m with _ | m <;> rcases n with _ | n
  · rfl
  · exact absurd h.symm (candidate_succ_ne base n)
  · exact absurd h (candidate_succ_ne base m)
  · rw [candidate_succ_inj h]

theorem exists_free (t : Names) (base : String) : ∃ n ≤ t.size, candidate base n ∉ t.taken := by
  by_contra hnone
  have hall : ∀ n ≤ t.size, candidate base n ∈ t.taken := fun n hn => by_contra fun hfree => hnone ⟨n, hn, hfree⟩
  have hnodup : ((List.range (t.size + 1)).map (candidate base)).Nodup :=
    List.nodup_range.map (candidate_injective base)
  have hle : ((List.range (t.size + 1)).map (candidate base)).length ≤ t.taken.length := by
    refine (List.subperm_of_subset hnodup fun x hx => ?_).length_le
    obtain ⟨n, hn, rfl⟩ := List.mem_map.1 hx
    exact hall n (Nat.le_of_lt_succ (List.mem_range.1 hn))
  rw [List.length_map, List.length_range] at hle
  exact Nat.lt_irrefl _ hle

theorem freshName_eq_find? (t : Names) (base : String) :
    t.freshName base =
      (((List.range (t.size + 1)).find? fun n => candidate base n ∉ t.taken).map (candidate base)).getD base := by
  rw [List.find?_eq_findSome?_guard, List.map_findSome?, freshName]
  refine congrArg (fun f => ((List.range (t.size + 1)).findSome? f).getD base) (funext fun n => ?_)
  by_cases hn : candidate base n ∈ t.taken <;> simp [Option.guard, hn]

/-- A fresh name is the first candidate that is free, which is among those that are looked at. -/
theorem freshName_spec (t : Names) (base : String) :
    ∃ n ≤ t.size, t.freshName base = candidate base n ∧ candidate base n ∉ t.taken ∧
      ∀ m < n, candidate base m ∈ t.taken := by
  obtain ⟨k, hk, hfree⟩ := exists_free t base
  have hsome : ((List.range (t.size + 1)).find? fun n => candidate base n ∉ t.taken).isSome :=
    List.find?_isSome.2 ⟨k, List.mem_range.2 (Nat.lt_succ_of_le hk), decide_eq_true hfree⟩
  obtain ⟨n, hn⟩ := Option.isSome_iff_exists.1 hsome
  rw [freshName_eq_find?, hn]
  obtain ⟨hfree, hmem, hbefore⟩ := List.find?_range_eq_some.1 hn
  exact ⟨n, Nat.le_of_lt_succ (List.mem_range.1 hmem), rfl, of_decide_eq_true hfree, fun m hm => by
    simpa using hbefore m hm⟩

theorem freshName_free (t : Names) (base : String) : t.freshName base ∉ t.taken := by
  obtain ⟨n, -, hname, hfree, -⟩ := freshName_spec t base
  rw [hname]
  exact hfree

theorem taken_intern (h : name ∉ t.taken) : (t.intern name).2.taken = t.taken ++ [name] := by
  rw [intern, find?, List.idxOf?_eq_none_iff.2 h]

/-- The names are distinct, and all of them are taken. -/
structure Knows (t : Names) (l : List String) : Prop where
  nodup : l.Nodup
  taken : ∀ x ∈ l, x ∈ t.taken

theorem Knows.nil (t : Names) : t.Knows [] := ⟨List.nodup_nil, fun _ h => nomatch h⟩

/-- One more name, which is fresh. -/
theorem Knows.fresh (h : t.Knows l) (base : String) :
    (t.intern (t.freshName base)).2.Knows (l ++ [t.freshName base]) := by
  have hfree := freshName_free t base
  refine ⟨?_, fun x hx => ?_⟩
  · rw [List.nodup_append]
    refine ⟨h.nodup, List.nodup_singleton _, fun x hx y hy he => hfree ?_⟩
    rw [← List.mem_singleton.1 hy, ← he]
    exact h.taken x hx
  · rw [taken_intern hfree]
    rcases List.mem_append.1 hx with hx | hx
    · exact List.mem_append_left _ (h.taken x hx)
    · exact List.mem_append_right _ hx

end Interlock.Names
