/-
Which texts have a given lower case.

A basic letter is the lower case of itself and of its capital, and as a rule of nothing else.  The
exceptions are `i` and `k`, which are also the lower cases of a dotted capital and of the sign for
kelvin.  A word of basic letters without these two is therefore recognised in exactly the ways of
writing it with capitals.
-/
import Mathlib.Data.Char
import Decombinator.Text.Lowercase

namespace Decombinator.Text

/-- One range holds the basic capitals.  The others lie beyond the basic characters and so do
their lower cases, but for two of them. -/
theorem caseRanges_basic : ∀ r ∈ caseRanges,
    (r.first = 65 ∧ r.last = 90 ∧ r.step = 1 ∧ r.lower = 97) ∨
      128 ≤ r.first ∧ (128 ≤ r.lower ∨ r.first = r.last ∧ (r.lower = 105 ∨ r.lower = 107)) := by
  decide +kernel

theorem toLower_of_capital {c : Char} (hA : 65 ≤ c.toNat) (hZ : c.toNat ≤ 90) :
    Char.ofNat (c.toNat - 65 + 97) = c.toLower := by
  have hall : ∀ n < 91, 65 ≤ n → Char.ofNat (n - 65 + 97) = (Char.ofNat n).toLower := by decide
  simpa using hall c.toNat (by omega) hA

theorem toLower_of_not_capital {c : Char} (hc : ¬ (65 ≤ c.toNat ∧ c.toNat ≤ 90)) :
    c.toLower = c :=
  dif_neg hc

theorem toNat_ofNat_of_pos {n : Nat} (h : 0 < (Char.ofNat n).toNat) : (Char.ofNat n).toNat = n := by
  by_cases hvalid : n.isValidChar
  · unfold Char.ofNat
    rw [dif_pos hvalid]
    rfl
  · unfold Char.ofNat at h
    rw [dif_neg hvalid] at h
    exact absurd h (lt_irrefl 0)

/-- What has a basic character other than `i` and `k` as its lower case. -/
theorem lowerChar_eq_iff {c d : Char} (hpos : 0 < d.toNat) (hd : d.toNat < 128) (hi : d ≠ 'i')
    (hk : d ≠ 'k') : lowerChar c = d ↔ c.toLower = d := by
  unfold lowerChar
  cases hfind : caseRanges.find? (·.covers c.toNat) with
  | none =>
      have hcapital := List.find?_eq_none.mp hfind _ List.mem_cons_self
      simp only [CaseRange.covers, Nat.mod_one, beq_self_eq_true, Bool.and_true, Bool.and_eq_true,
        decide_eq_true_eq] at hcapital
      rw [toLower_of_not_capital hcapital]
  | some r =>
      have hcovers := List.find?_some hfind
      simp only [CaseRange.covers, Bool.and_eq_true, decide_eq_true_eq] at hcovers
      show Char.ofNat (c.toNat - r.first + r.lower) = d ↔ c.toLower = d
      obtain ⟨hfirst, hlast, -, hlower⟩ | ⟨hfirst, hlower⟩ :=
        caseRanges_basic r (List.mem_of_find?_eq_some hfind)
      · rw [hfirst, hlower, toLower_of_capital (by omega) (by omega)]
      · have hnotCapital : ¬ (65 ≤ c.toNat ∧ c.toNat ≤ 90) := by omega
        rw [toLower_of_not_capital hnotCapital]
        refine iff_of_false (fun heq => ?_) fun heq => ?_
        · have hnat : d.toNat = c.toNat - r.first + r.lower := by
            rw [← heq] at hpos ⊢
            exact toNat_ofNat_of_pos hpos
          have hi' : d.toNat ≠ 105 := fun h => hi (Char.toNat_inj.mp h)
          have hk' : d.toNat ≠ 107 := fun h => hk (Char.toNat_inj.mp h)
          omega
        · rw [heq] at hcovers
          omega

/-- The characters that are the lower case of nothing but themselves and a basic letter. -/
def isPlain (d : Char) : Bool :=
  0 < d.toNat && d.toNat < 128 && d != 'i' && d != 'k'

theorem lower_eq_iff {word text : String} (h : text.toList.all isPlain) :
    lower word = text ↔ word.toList.map Char.toLower = text.toList := by
  rw [List.all_eq_true] at h
  rw [← String.toList_inj, lower, String.toList_map]
  generalize word.toList = cs at *
  generalize text.toList = ds at *
  induction cs generalizing ds with
  | nil => rfl
  | cons c cs ih =>
      cases ds with
      | nil => simp
      | cons d ds =>
          have hplain := h d List.mem_cons_self
          simp only [isPlain, Bool.and_eq_true, decide_eq_true_eq, bne_iff_ne] at hplain
          obtain ⟨⟨⟨hpos, hd⟩, hi⟩, hk⟩ := hplain
          have htail := ih ds fun e he => h e (List.mem_cons_of_mem d he)
          rw [List.map_cons, List.map_cons, List.cons.injEq, List.cons.injEq, htail,
            lowerChar_eq_iff hpos hd hi hk]

end Decombinator.Text
