/-
An entry goes to the parser that accepts it.

A session decides by one look whether an entry is a definition: it is if one of its words is an
equals sign, wherever that stands.  It then reads not the entry but its words with single spaces
between them.  Neither makes a difference.  No value has an equals sign in it, by induction on the
grammar, and every definition has one, so the look finds the one parser that can accept the entry.
And whether a parser accepts a text, and what it makes of it, depends on the words alone; only the
columns of its errors do not.
-/
import Decombinator.Proofs.Code.Grammar
import Decombinator.Proofs.Code.Viable
import Decombinator.Proofs.Session

namespace Decombinator

/-! ### The equals sign -/

namespace Grammar

mutual

/-- No value has an equals sign in it. -/
theorem Value.kind_ne_equals {ts : List Token} {c : Code} :
    Value ts c → ∀ t ∈ ts, t.kind ≠ .equals
  | .ap ht hf hx => by
      have hleft := hf.kind_ne_equals
      have hright := hx.kind_ne_equals
      simp only [List.forall_mem_cons, List.forall_mem_append]
      exact ⟨by simp [ht], hleft, hright⟩
  | .nil hl hr => by simp [hl, hr]
  | .list hl hs hr => by
      have hitems := hs.kind_ne_equals
      simp only [List.forall_mem_cons, List.forall_mem_append]
      exact ⟨by simp [hl], hitems, by simp [hr]⟩
  | .sym ht => by simp [ht]
  | .int ht => by simp [ht]
  | .prim ht => by simp [ht]

theorem Items.kind_ne_equals {ts : List Token} {cs : List Code} :
    Items ts cs → ∀ t ∈ ts, t.kind ≠ .equals
  | .one h => h.kind_ne_equals
  | .more h ht hs => by
      have hfirst := h.kind_ne_equals
      have hrest := hs.kind_ne_equals
      simp only [List.forall_mem_cons, List.forall_mem_append]
      exact ⟨hfirst, by simp [ht], hrest⟩

end

end Grammar

namespace Session

variable {mode : ParseMode} {text : String}

theorem isDefinition_of_line {d : Definition} (h : Definition.parse mode text = .ok d) :
    isDefinition text = true := by
  have hline : Grammar.Line (Token.lex text) d := Code.Parser.definition_eq_ok_iff.mp h
  unfold isDefinition
  cases hts : Token.lex text with
  | nil =>
      rw [hts] at hline
      cases hline
  | cons name ts =>
      rw [hts] at hline
      cases hline with
      | mk hname heq hc => simp [heq]

theorem isDefinition_of_value {c : Code} (h : Code.parse mode text = .ok c) :
    isDefinition text = false := by
  have hvalue : Grammar.Value (Token.lex text) c := Code.Parser.value_eq_ok_iff.mp h
  unfold isDefinition
  simpa using hvalue.kind_ne_equals

/-- What a text reads as: a definition, or the value of `it`. -/
inductive ReadsAs (text : String) : Definition → Prop
  | line {d : Definition} (h : Definition.parse .batch text = .ok d) : ReadsAs text d
  | value {c : Code} (h : Code.parse .batch text = .ok c) : ReadsAs text ⟨"it", c⟩

/-- Looking for an equals sign finds the parser. -/
theorem parseEntry_eq_ok_iff {d : Definition} :
    parseEntry .batch text = .ok d ↔ ReadsAs text d := by
  unfold parseEntry
  constructor
  · intro h
    split at h
    · exact .line h
    · cases hc : Code.parse .batch text with
      | ok c =>
          rw [hc] at h
          cases h
          exact .value hc
      | error e =>
          rw [hc] at h
          cases h
  · intro h
    cases h with
    | line h => simpa [isDefinition_of_line h] using h
    | value h => simp [isDefinition_of_value h, h]

/-! ### Single spaces -/

/-- Runs of blanks become single spaces, and the words stay. -/
theorem words_normalize (text : String) : Text.words (normalize text) = Text.words text :=
  Text.words_intercalate fun _ => Text.isWord_of_mem_words

/-- What a text reads as depends on its words alone. -/
theorem ReadsAs.of_words {text' : String} {d : Definition}
    (h : Text.words text = Text.words text') (hd : ReadsAs text d) : ReadsAs text' d := by
  cases hd with
  | line hd =>
      rw [Definition.parse_eq_lines, Reader.parse_eq_ok_iff, h] at hd
      refine .line ?_
      rw [Definition.parse_eq_lines, Reader.parse_eq_ok_iff]
      exact hd
  | value hc =>
      rw [Code.parse_eq_values, Reader.parse_eq_ok_iff, h] at hc
      refine .value ?_
      rw [Code.parse_eq_values, Reader.parse_eq_ok_iff]
      exact hc

theorem readsAs_normalize {d : Definition} : ReadsAs (normalize text) d ↔ ReadsAs text d :=
  ⟨.of_words (words_normalize text), .of_words (words_normalize text).symm⟩

/-! ### Entries -/

theorem enter_of_readsAs (s : Session) {d : Definition} (h : ReadsAs text d) :
    (s.enter text).result = .ok (Stages.ofDefinition s.dict d).print ∧
      (s.enter text).session = s.remember d.name (Stages.ofDefinition s.dict d) := by
  have hparse : parseEntry .batch (normalize text) = .ok d :=
    parseEntry_eq_ok_iff.mpr (readsAs_normalize.mpr h)
  simp [enter, hparse]

theorem enter_of_not_readsAs (s : Session) (h : ∀ d, ¬ ReadsAs text d) :
    (∃ r, (s.enter text).result = .error r) ∧ (s.enter text).session = s := by
  unfold enter
  cases hparse : parseEntry .batch (normalize text) with
  | ok d => exact absurd (readsAs_normalize.mp (parseEntry_eq_ok_iff.mp hparse)) (h d)
  | error e => simp [hparse]

/-- **An entry goes to the parser that accepts it.**  No text is both a definition and a value; a
definition has an equals sign and a value has none.  An entry succeeds if and only if its text, with
all its blanks as they are, is a definition or a value.  Then that definition, or that value as the
definition of `it`, is stored under its name; nothing else that is stored changes.  An entry that
does not succeed changes nothing. -/
theorem enter_dispatches (s : Session) (text : String) :
    (∀ mode d c, ¬ (Definition.parse mode text = .ok d ∧ Code.parse mode text = .ok c)) ∧
    (∀ mode d, Definition.parse mode text = .ok d → isDefinition text = true) ∧
    (∀ mode c, Code.parse mode text = .ok c → isDefinition text = false) ∧
    ((∃ line, (s.enter text).result = .ok line) ↔
      (∃ d, Definition.parse .batch text = .ok d) ∨ ∃ c, Code.parse .batch text = .ok c) ∧
    (∀ d, ReadsAs text d →
      (s.enter text).session = s.remember d.name (Stages.ofDefinition s.dict d) ∧
      ∀ x, ((s.enter text).session.defs.lookup x).map Stages.definition =
        if x = d.name then some d else (s.defs.lookup x).map Stages.definition) ∧
    ((∀ d, ¬ ReadsAs text d) → (s.enter text).session = s) := by
  have hreads : (∃ d, ReadsAs text d) ↔
      (∃ d, Definition.parse .batch text = .ok d) ∨ ∃ c, Code.parse .batch text = .ok c := by
    constructor
    · rintro ⟨d, h | h⟩
      · exact .inl ⟨d, h⟩
      · exact .inr ⟨_, h⟩
    · rintro (⟨d, h⟩ | ⟨c, h⟩)
      · exact ⟨d, .line h⟩
      · exact ⟨_, .value h⟩
  refine ⟨?_, fun _ _ => isDefinition_of_line, fun _ _ => isDefinition_of_value, ?_, ?_,
    fun h => (enter_of_not_readsAs s h).2⟩
  · rintro mode d c ⟨hd, hc⟩
    exact absurd (isDefinition_of_line hd) (by simp [isDefinition_of_value hc])
  · rw [← hreads]
    constructor
    · rintro ⟨line, hline⟩
      by_contra hnone
      obtain ⟨⟨r, hr⟩, -⟩ := enter_of_not_readsAs s (not_exists.mp hnone)
      rw [hr] at hline
      contradiction
    · rintro ⟨d, h⟩
      exact ⟨_, (enter_of_readsAs s h).1⟩
  · intro d h
    obtain ⟨-, hsession⟩ := enter_of_readsAs s h
    refine ⟨hsession, fun x => ?_⟩
    rw [hsession, lookup_remember]
    by_cases hx : x = d.name
    · rw [if_pos hx, if_pos hx]
      rfl
    · rw [if_neg hx, if_neg hx]

end Session

end Decombinator
