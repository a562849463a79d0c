/-
Decimal text, written and read.

A text writes a number if it is digits with at most one sign before them.  Reading accepts
exactly the texts that write a number of 64 bits, and gives that number; what is written for a
number is such a text, and it is one word.
-/
import Decombinator.Proofs.Text.Words

namespace Decombinator.Text

/-- The characters write the number in decimal: some digits, with at most one sign before
them. -/
inductive Decimal : List Char → Int → Prop
  | plain {ds : List Char} (hne : ds ≠ []) (hds : ∀ d ∈ ds, d.isDigit = true) :
      Decimal ds (Nat.ofDigitChars 10 ds 0)
  | plus {ds : List Char} (hne : ds ≠ []) (hds : ∀ d ∈ ds, d.isDigit = true) :
      Decimal ('+' :: ds) (Nat.ofDigitChars 10 ds 0)
  | minus {ds : List Char} (hne : ds ≠ []) (hds : ∀ d ∈ ds, d.isDigit = true) :
      Decimal ('-' :: ds) (-(Nat.ofDigitChars 10 ds 0 : Int))

/-! ### Reading -/

theorem readDigits_eq_some_iff {cs : List Char} {n : Nat} :
    readDigits cs = some n ↔
      cs ≠ [] ∧ (∀ d ∈ cs, d.isDigit = true) ∧ Nat.ofDigitChars 10 cs 0 = n := by
  unfold readDigits
  by_cases hnil : cs = []
  · simp [hnil]
  · by_cases hds : ∀ d ∈ cs, d.isDigit = true
    · have hall : cs.all Char.isDigit = true := List.all_eq_true.mpr hds
      rw [if_neg (by simpa using hnil), if_pos hall, Option.some.injEq]
      exact ⟨fun h => ⟨hnil, hds, h⟩, fun h => h.2.2⟩
    · have hall : ¬ cs.all Char.isDigit = true := fun h => hds (List.all_eq_true.mp h)
      rw [if_neg (by simpa using hnil), if_neg hall]
      exact ⟨nofun, fun h => absurd h.2.1 hds⟩

theorem fit64_eq_some_iff {k : Int} {n : Int64} : fit64 k = some n ↔ k = n.toInt := by
  unfold fit64
  constructor
  · intro h
    split at h
    · rename_i hk
      have hlt : k < 2 ^ 63 := Int.lt_of_le_sub_one hk.2
      rw [← Option.some.inj h, Int64.toInt_ofInt_of_le hk.1 hlt]
    · contradiction
  · intro h
    rw [h, if_pos ⟨Int64.le_toInt n, Int64.toInt_le n⟩, Int64.ofInt_toInt]

theorem bind_fit64_eq_some_iff {cs : List Char} {sign : Nat → Int} {n : Int64} :
    ((readDigits cs).bind fun k => fit64 (sign k)) = some n ↔
      cs ≠ [] ∧ (∀ d ∈ cs, d.isDigit = true) ∧ sign (Nat.ofDigitChars 10 cs 0) = n.toInt := by
  simp only [Option.bind_eq_some_iff, readDigits_eq_some_iff, fit64_eq_some_iff]
  constructor
  · rintro ⟨k, ⟨hne, hds, rfl⟩, hk⟩
    exact ⟨hne, hds, hk⟩
  · rintro ⟨hne, hds, hk⟩
    exact ⟨_, ⟨hne, hds, rfl⟩, hk⟩

/-- **Reading accepts the texts of 64-bit numbers**, and gives the number. -/
theorem readInt_eq_some_iff {w : String} {n : Int64} :
    readInt w = some n ↔ Decimal w.toList n.toInt := by
  unfold readInt
  generalize w.toList = cs
  constructor
  · intro h
    unfold readIntChars at h
    split at h
    · obtain ⟨hne, hds, hn⟩ := bind_fit64_eq_some_iff.mp h
      exact hn ▸ .plus hne hds
    · obtain ⟨hne, hds, hn⟩ := bind_fit64_eq_some_iff.mp h
      exact hn ▸ .minus hne hds
    · obtain ⟨hne, hds, hn⟩ := bind_fit64_eq_some_iff.mp h
      exact hn ▸ .plain hne hds
  · intro h
    generalize hk : n.toInt = k at h
    cases h with
    | plus hne hds => exact bind_fit64_eq_some_iff.mpr ⟨hne, hds, hk.symm⟩
    | minus hne hds => exact bind_fit64_eq_some_iff.mpr ⟨hne, hds, hk.symm⟩
    | plain hne hds =>
        -- A sign is no digit, so digits alone are read as they stand.
        have hread : readIntChars cs = (readDigits cs).bind fun k => fit64 k := by
          unfold readIntChars
          split
          · exact absurd (hds '+' (by simp)) (by decide)
          · exact absurd (hds '-' (by simp)) (by decide)
          · rfl
        rw [hread]
        exact bind_fit64_eq_some_iff.mpr ⟨hne, hds, hk.symm⟩

/-! ### Writing -/

theorem toList_natText (n : Nat) : (natText n).toList = Nat.toDigits 10 n :=
  String.toList_ofList

theorem isDigit_of_mem_natText {n : Nat} {d : Char} (h : d ∈ Nat.toDigits 10 n) :
    d.isDigit = true :=
  Nat.isDigit_of_mem_toDigits (by decide) (by decide) h

theorem intText_decimal (n : Int) : Decimal (intText n).toList n := by
  cases n with
  | ofNat n =>
      have hdigits := Decimal.plain Nat.toDigits_ne_nil fun _ => isDigit_of_mem_natText (n := n)
      rw [Nat.ofDigitChars_ten_toDigits, ← toList_natText] at hdigits
      exact hdigits
  | negSucc n =>
      have hdigits := Decimal.minus Nat.toDigits_ne_nil fun _ => isDigit_of_mem_natText (n := n + 1)
      rw [Nat.ofDigitChars_ten_toDigits, ← toList_natText] at hdigits
      show Decimal ("-" ++ natText (n + 1)).toList (-((n + 1 : Nat) : Int))
      rw [String.toList_append]
      exact hdigits

/-- Reading undoes writing. -/
theorem readInt_int64Text (n : Int64) : readInt (int64Text n) = some n :=
  readInt_eq_some_iff.mpr (intText_decimal n.toInt)

/-- A number is written as one word. -/
theorem isWord_of_decimal {w : String} {n : Int} (h : Decimal w.toList n) : IsWord w := by
  have hdigit : ∀ d : Char, d.isDigit = true → isBlank d = false := by
    intro d hd
    have hrange : 0x30 ≤ d.toNat ∧ d.toNat ≤ 0x39 := Char.isDigit_iff_toNat.mp hd
    simp [isBlank]
    omega
  unfold IsWord
  generalize w.toList = cs at h
  cases h with
  | plain hne hds => exact ⟨hne, fun c hc => hdigit c (hds c hc)⟩
  | plus hne hds =>
      refine ⟨by simp, fun c hc => ?_⟩
      rcases List.mem_cons.mp hc with rfl | hc
      · decide
      · exact hdigit c (hds c hc)
  | minus hne hds =>
      refine ⟨by simp, fun c hc => ?_⟩
      rcases List.mem_cons.mp hc with rfl | hc
      · decide
      · exact hdigit c (hds c hc)

end Decombinator.Text
