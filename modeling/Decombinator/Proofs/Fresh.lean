/-
A numbered name that is not taken always exists, and the search finds it.

Different numbers give different names, because a number can be read back from its
digits.  So among as many consecutive numbers as there are taken names, and one more,
one is free, and the bound that the search runs under is never the reason it stops.
-/
import Decombinator.Fresh
import Mathlib.Data.List.Nodup
import Mathlib.Data.List.Perm.Subperm

namespace Decombinator.Fresh

theorem numbered_injective (stem : String) : ∀ m n, numbered stem m = numbered stem n → m = n := by
  intro m n h
  have hdigits : Nat.toDigits 10 m = Nat.toDigits 10 n := by
    simpa [numbered, Text.natText] using congrArg String.toList h
  rw [← Nat.ofDigitChars_ten_toDigits (n := m), hdigits, Nat.ofDigitChars_ten_toDigits]

theorem le_skipTaken (stem : String) (taken : List String) :
    ∀ fuel n, n ≤ skipTaken stem taken fuel n := by
  intro fuel
  induction fuel with
  | zero => intro n; exact Nat.le_refl n
  | succ fuel ih =>
      intro n
      rw [skipTaken]
      split
      · exact Nat.le_of_succ_le (ih (n + 1))
      · exact Nat.le_refl n

theorem le_firstFree (stem : String) (taken : List String) (n : Nat) :
    n ≤ firstFree stem taken n :=
  le_skipTaken stem taken taken.length n

/-- A search that ends on a taken name has passed over taken names only. -/
theorem skipTaken_passes (stem : String) (taken : List String) :
    ∀ fuel n, numbered stem (skipTaken stem taken fuel n) ∈ taken →
      ∀ i, i ≤ fuel → numbered stem (n + i) ∈ taken := by
  intro fuel
  induction fuel with
  | zero =>
      intro n h i hi
      have hzero : i = 0 := by omega
      subst hzero
      exact h
  | succ fuel ih =>
      intro n h i hi
      rw [skipTaken] at h
      by_cases hn : numbered stem n ∈ taken
      · rw [if_pos hn] at h
        rcases i with _ | i
        · exact hn
        · have := ih (n + 1) h i (by omega)
          rwa [Nat.add_right_comm, Nat.add_assoc] at this
      · rw [if_neg hn] at h
        exact absurd h hn

/-- **The name that is found is not taken.** -/
theorem firstFree_notMem (stem : String) (taken : List String) (n : Nat) :
    numbered stem (firstFree stem taken n) ∉ taken := by
  intro h
  have hall := skipTaken_passes stem taken taken.length n h
  have hnodup : ((List.range (taken.length + 1)).map fun i => numbered stem (n + i)).Nodup := by
    refine List.Nodup.map_on ?_ List.nodup_range
    intro i _ j _ hij
    have := numbered_injective stem _ _ hij
    omega
  have hsub : ((List.range (taken.length + 1)).map fun i => numbered stem (n + i)) ⊆ taken := by
    intro x hx
    obtain ⟨i, hi, rfl⟩ := List.mem_map.mp hx
    exact hall i (by have := List.mem_range.mp hi; omega)
  have hlen := (List.subperm_of_subset hnodup hsub).length_le
  simp only [List.length_map, List.length_range] at hlen
  omega

/-- Names with one stem and rising numbers are different. -/
theorem numbered_ne_of_lt (stem : String) {m n : Nat} (h : m < n) :
    numbered stem m ≠ numbered stem n := fun he =>
  Nat.ne_of_lt h (numbered_injective stem m n he)

end Decombinator.Fresh
