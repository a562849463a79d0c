/-
What a parse error says about the text.

A text that is rejected is either the start of an accepted text or it is not, and the error
tells which.  The column is the length of the text if the text can be continued; if not, it
is the column of the first token with which the text stops being the start of anything
accepted.  The parser that asks for another line does so exactly when one could help.

All of it rests on one property of a reader: from every state some words lead to the end of
an accepted text.  Then a text can be continued exactly if all its words are taken, and an
error at a word is an error that no later word can mend.  For the parser of values the words
are `nil` and closing parentheses, and the induction is on the stack of open constructs.
-/
import Decombinator.Proofs.Code.Reader

namespace Decombinator

/-! ### What a text can become -/

section

variable {α : Type} (parse : ParseMode → String → Except ParseError α)

/-- The text can be continued to an accepted one. -/
def Continues (text : String) : Prop :=
  ∃ more a, parse .batch (text ++ " " ++ more) = .ok a

/-- Some accepted text starts with these words. -/
def Starts (ws : List String) : Prop :=
  ∃ text a, parse .batch text = .ok a ∧ ws <+: Text.words text

/-- What a parser tells about a text that it rejects.  If `silent` holds, the text is not
reported as incomplete, whatever could follow. -/
structure ViablePrefix (text : String) (silent : Prop) : Prop where
  /-- The error is at the end of the text if the text can be continued. -/
  col_eq_iff : ∀ e, parse .batch text = .error e →
    (e.col = text.utf8ByteSize ↔ Continues parse text)
  /-- Otherwise it is at the first token with which the text is beyond repair. -/
  col_first : ∀ e, parse .batch text = .error e → ¬ Continues parse text →
    ∃ k t, (Token.lex text)[k]? = some t ∧ e.col = t.col ∧
      ¬ Starts parse ((Text.words text).take (k + 1)) ∧
      ∀ j < k, Starts parse ((Text.words text).take (j + 1))
  batch_final : ∀ e, parse .batch text = .error e → e.incomplete = false
  /-- Both modes accept the same texts, with the same result. -/
  interactive_ok : ∀ a, parse .interactive text = .ok a ↔ parse .batch text = .ok a
  /-- Both modes report the same message and column, and only the interactive mode tells
  apart what can be continued. -/
  interactive_error : ∀ e, parse .batch text = .error e →
    ∃ e', parse .interactive text = .error e' ∧
      e'.cause.message = e.cause.message ∧ e'.col = e.col ∧
      (e'.incomplete = true ↔ Continues parse text ∧ ¬ silent)

end

namespace Reader

variable {α : Type} {R : Reader α} {mode : ParseMode} {text : String}

/-- Words that can all be taken decide what the end of the text means. -/
theorem parse_of_after {st : R.State} (h : R.after R.start (Text.words text) = some st) :
    R.parse mode text = R.run mode text.utf8ByteSize st [] := by
  rw [← Token.lexemes_lex] at h
  exact run_of_after h

/-- Words that cannot all be taken are an error at the first that cannot, in either mode. -/
theorem parse_of_after_eq_none (h : R.after R.start (Text.words text) = none) :
    ∃ k t st cause, (Token.lex text)[k]? = some t ∧
      R.after R.start ((Text.words text).take k) = some st ∧
      R.after R.start ((Text.words text).take (k + 1)) = none ∧
      ∀ mode, R.parse mode text = .error ⟨cause, t.col, false⟩ := by
  rw [← Token.lexemes_lex] at h ⊢
  obtain ⟨k, t, st, cause, hk, hafter, hstep, hrun⟩ := run_of_after_eq_none h
  refine ⟨k, t, st, cause, hk, hafter, ?_, fun mode => hrun mode _⟩
  have htake : ((Token.lex text).map Token.lexeme).take (k + 1) =
      ((Token.lex text).map Token.lexeme).take k ++ [t.lexeme] := by
    rw [List.take_add_one, List.getElem?_map, hk]
    rfl
  rw [htake, after_append, hafter]
  show R.after st [t.lexeme] = none
  rw [after, hstep]

theorem parse_eq_ok_iff {a : α} :
    R.parse mode text = .ok a ↔
      ∃ st, R.after R.start (Text.words text) = some st ∧ R.finish st = .ok a := by
  constructor
  · intro h
    cases hafter : R.after R.start (Text.words text) with
    | none =>
        obtain ⟨_, _, _, _, _, _, _, hparse⟩ := parse_of_after_eq_none hafter
        rw [hparse] at h
        contradiction
    | some st =>
        refine ⟨st, rfl, ?_⟩
        rw [parse_of_after hafter, run] at h
        split at h
        · rename_i b hb
          rw [hb, Except.ok.inj h]
        · contradiction
  · intro h
    obtain ⟨st, hafter, hfinish⟩ := h
    rw [parse_of_after hafter, run, hfinish]

/-! ### Completing a text -/

/-- Some words lead from the state to the end of an accepted text. -/
def Completable (st : R.State) : Prop :=
  ∃ ws st' a, (∀ w ∈ ws, Text.IsWord w) ∧ R.after st ws = some st' ∧ R.finish st' = .ok a

theorem Completable.of_step {st st' : R.State} {w : String} (hw : Text.IsWord w)
    (hstep : R.step st w = .ok st') (h : R.Completable st') : R.Completable st := by
  obtain ⟨ws, st'', a, hws, hafter, hfinish⟩ := h
  refine ⟨w :: ws, st'', a, ?_, ?_, hfinish⟩
  · exact List.forall_mem_cons.mpr ⟨hw, hws⟩
  · rw [after_cons hstep]
    exact hafter

section

variable (hR : ∀ st : R.State, R.Completable st)

include hR

/-- Words start an accepted text exactly if they can all be taken. -/
theorem starts_iff {ws : List String} (hws : ∀ w ∈ ws, Text.IsWord w) :
    Starts R.parse ws ↔ ∃ st, R.after R.start ws = some st := by
  constructor
  · intro h
    obtain ⟨text, a, haccept, hstart⟩ := h
    obtain ⟨st, hafter, -⟩ := parse_eq_ok_iff.mp haccept
    exact exists_after_of_isPrefix hstart hafter
  · intro h
    obtain ⟨st, hafter⟩ := h
    obtain ⟨us, st', a, hus, hafter', hfinish⟩ := hR st
    obtain ⟨text, htext⟩ := Text.exists_words (List.forall_mem_append.mpr ⟨hws, hus⟩)
    refine ⟨text, a, parse_eq_ok_iff.mpr ⟨st', ?_, hfinish⟩, us, htext.symm⟩
    rw [htext, after_append, hafter]
    exact hafter'

/-- A text can be continued exactly if all its words can be taken. -/
theorem continues_iff :
    Continues R.parse text ↔ ∃ st, R.after R.start (Text.words text) = some st := by
  constructor
  · intro h
    obtain ⟨more, a, haccept⟩ := h
    obtain ⟨st, hafter, -⟩ := parse_eq_ok_iff.mp haccept
    rw [Text.words_append] at hafter
    exact exists_after_of_isPrefix (List.prefix_append _ _) hafter
  · intro h
    obtain ⟨st, hafter⟩ := h
    obtain ⟨us, st', a, hus, hafter', hfinish⟩ := hR st
    obtain ⟨more, hmore⟩ := Text.exists_words hus
    refine ⟨more, a, parse_eq_ok_iff.mpr ⟨st', ?_, hfinish⟩⟩
    rw [Text.words_append, hmore, after_append, hafter]
    exact hafter'

/-- If some words of a text cannot be taken, the error is at the first of them, and final. -/
theorem viablePrefix_of_after_eq_none (silent : Prop)
    (h : R.after R.start (Text.words text) = none) : ViablePrefix R.parse text silent := by
  obtain ⟨k, t, st, cause, hk, hbefore, hafter, hparse⟩ := parse_of_after_eq_none h
  have hfinal : ¬ Continues R.parse text := by
    rw [continues_iff hR, h]
    simp
  have hwords : ∀ n, ∀ w ∈ (Text.words text).take n, Text.IsWord w := by
    intro n w hw
    exact Text.isWord_of_mem_words (List.mem_of_mem_take hw)
  have herror : ∀ {mode e}, R.parse mode text = .error e → e = ⟨cause, t.col, false⟩ := by
    intro mode e he
    rw [hparse] at he
    exact (Except.error.inj he).symm
  constructor
  · intro e he
    have hcol : t.col < text.utf8ByteSize := Token.col_lt_of_mem_lex (List.mem_of_getElem? hk)
    rw [herror he]
    exact ⟨fun heq => absurd heq (Nat.ne_of_lt hcol), fun hcont => absurd hcont hfinal⟩
  · intro e he _
    refine ⟨k, t, hk, by rw [herror he], ?_, ?_⟩
    · rw [starts_iff hR (hwords (k + 1)), hafter]
      simp
    · -- A shorter start is a start of the words before the error, which can all be taken.
      intro j hj
      rw [starts_iff hR (hwords (j + 1))]
      exact exists_after_of_isPrefix (List.take_prefix_take_left hj) hbefore
  · intro e he
    rw [herror he]
  · intro a
    rw [hparse, hparse]
  · intro e he
    refine ⟨_, hparse .interactive, ?_, ?_, ?_⟩
    · rw [herror he]
    · rw [herror he]
    · simp [hfinal]

/-- If all words of a text can be taken, the only error is at its end. -/
theorem viablePrefix_of_after {silent : Prop} {st : R.State}
    (h : R.after R.start (Text.words text) = some st)
    (hsilent : ∀ cause more, R.finish st = .error (cause, more) → (more = true ↔ ¬ silent)) :
    ViablePrefix R.parse text silent := by
  have hcont : Continues R.parse text := (continues_iff hR).mpr ⟨st, h⟩
  cases hfinish : R.finish st with
  | ok a =>
      have hparse : ∀ mode, R.parse mode text = .ok a := by
        intro mode
        exact parse_eq_ok_iff.mpr ⟨st, h, hfinish⟩
      constructor <;> simp [hparse]
  | error why =>
      obtain ⟨cause, more⟩ := why
      have hparse : ∀ mode, R.parse mode text =
          .error ⟨cause, text.utf8ByteSize, more && mode == .interactive⟩ := by
        intro mode
        rw [parse_of_after h, run, hfinish]
      have herror : ∀ e, R.parse .batch text = .error e →
          e = ⟨cause, text.utf8ByteSize, more && false⟩ := by
        intro e he
        rw [hparse] at he
        exact (Except.error.inj he).symm
      constructor
      · intro e he
        rw [herror e he]
        simp [hcont]
      · intro e _ hfinal
        exact absurd hcont hfinal
      · intro e he
        rw [herror e he]
        simp
      · intro a
        rw [hparse, hparse]
        simp
      · intro e he
        refine ⟨_, hparse .interactive, ?_, ?_, ?_⟩
        · rw [herror e he]
        · rw [herror e he]
        · simp [hcont, hsilent cause more hfinish]

end

end Reader

namespace Code.Parser

open Reader

/-! ### Values -/

/-- What is open when a value is complete can be completed too: arguments that are missing
are given as `nil` and lists are closed, from the inside out. -/
theorem completable_complete (opened : List Frame) (c : Code) :
    values.Completable (complete c opened) := by
  induction opened generalizing c with
  | nil => exact ⟨[], .done c, c, by simp, rfl, rfl⟩
  | cons frame opened ih =>
      cases frame with
      | function =>
          have hstep : values.step (.value (.argument c :: opened)) "nil" =
              .ok (complete (.ap c (.prim .nil)) opened) := rfl
          exact Completable.of_step (by decide) hstep (ih _)
      | argument f => exact ih (.ap f c)
      | element before =>
          have hstep : values.step (.separator (c :: before) opened) ")" =
              .ok (complete (list (c :: before).reverse) opened) := rfl
          exact Completable.of_step (by decide) hstep (ih _)

theorem values_completable (st : State) : values.Completable st := by
  cases st with
  | value opened =>
      have hstep : values.step (.value opened) "nil" = .ok (complete (.prim .nil) opened) := rfl
      exact Completable.of_step (by decide) hstep (completable_complete opened _)
  | listStart opened =>
      have hstep : values.step (.listStart opened) ")" = .ok (complete (list []) opened) := rfl
      exact Completable.of_step (by decide) hstep (completable_complete opened _)
  | separator before opened =>
      have hstep : values.step (.separator before opened) ")" =
          .ok (complete (list before.reverse) opened) := rfl
      exact Completable.of_step (by decide) hstep (completable_complete opened _)
  | done c => exact ⟨[], .done c, c, by simp, rfl, rfl⟩

theorem values_finish_error {st : State} {cause : ParseError.Cause} {more : Bool}
    (h : values.finish st = .error (cause, more)) : more = true := by
  cases st <;> cases h <;> rfl

/-! ### Definitions -/

/-- Behind the equals sign, a line takes the words that its value takes. -/
theorem lines_after_value {name : String} {st st' : State} {ws : List String}
    (h : values.after st ws = some st') :
    lines.after (.value name st) ws = some (.value name st') := by
  induction ws generalizing st with
  | nil =>
      have hst : st = st' := Option.some.inj h
      rw [hst]
      rfl
  | cons w ws ih =>
      cases hstep : values.step st w with
      | ok st'' =>
          have hline : lines.step (.value name st) w = .ok (.value name st'') := by
            simp [lines, hstep]
          rw [after_cons hstep] at h
          rw [after_cons hline]
          exact ih h
      | error cause => simp [after, hstep] at h

theorem lines_completable (st : LineState) : lines.Completable st := by
  have hvalue : ∀ name st, lines.Completable (.value name st) := by
    intro name st
    obtain ⟨ws, st', c, hws, hafter, hfinish⟩ := values_completable st
    refine ⟨ws, .value name st', ⟨name, c⟩, hws, lines_after_value hafter, ?_⟩
    simp [lines, hfinish]
  have hnamed : ∀ name, lines.Completable (.named name) := by
    intro name
    have hstep : lines.step (.named name) "=" = .ok (.value name (.value [])) := rfl
    exact Completable.of_step (by decide) hstep (hvalue name _)
  cases st with
  | start =>
      have hstep : lines.step .start "x" = .ok (.named "x") := rfl
      exact Completable.of_step (by decide) hstep (hnamed "x")
  | named name => exact hnamed name
  | value name st => exact hvalue name st

/-- No word leads back to the start of a line. -/
theorem lines_step_ne_start {st st' : LineState} {w : String} (h : lines.step st w = .ok st') :
    st' ≠ .start := by
  intro hst'
  rw [hst'] at h
  unfold lines at h
  cases st <;> grind

theorem lines_after_ne_start {st st' : LineState} {ws : List String}
    (h : lines.after st ws = some st') : ws = [] ∧ st' = st ∨ st' ≠ .start := by
  induction ws generalizing st with
  | nil => exact .inl ⟨rfl, (Option.some.inj h).symm⟩
  | cons w ws ih =>
      cases hstep : lines.step st w with
      | ok st'' =>
          rw [after_cons hstep] at h
          rcases ih h with ⟨-, heq⟩ | hne
          · rw [heq]
            exact .inr (lines_step_ne_start hstep)
          · exact .inr hne
      | error cause => simp [after, hstep] at h

/-- The end of a line is an error that asks for more, unless the line is empty. -/
theorem lines_finish_error {st : LineState} {ws : List String} {cause : ParseError.Cause}
    {more : Bool} (hafter : lines.after .start ws = some st)
    (h : lines.finish st = .error (cause, more)) : more = true ↔ ws ≠ [] := by
  rcases lines_after_ne_start hafter with ⟨hws, hst⟩ | hne
  · rw [hst] at h
    cases h
    simp [hws]
  · have hws : ws ≠ [] := by
      intro hws
      rw [hws] at hafter
      exact hne (Option.some.inj hafter).symm
    cases st with
    | start => contradiction
    | named name =>
        cases h
        simp [hws]
    | value name st =>
        cases hfinish : values.finish st with
        | ok c => simp [lines, hfinish] at h
        | error why =>
            have hwhy : why = (cause, more) := by simpa [lines, hfinish] using h
            rw [hwhy] at hfinish
            simp [values_finish_error hfinish, hws]

end Code.Parser

/-- The errors of both parsers tell whether a text can be continued, and otherwise where it
stops being the start of an accepted one.  Only an empty line could be continued without
being reported as incomplete. -/
theorem Code.Parser.error_viablePrefix (text : String) :
    ViablePrefix Code.parse text False ∧
      ViablePrefix Definition.parse text (Token.lex text = []) := by
  have hvalues : Code.parse = values.parse := by
    funext mode text
    exact Code.parse_eq_values mode text
  have hlines : Definition.parse = lines.parse := by
    funext mode text
    exact Definition.parse_eq_lines mode text
  rw [hvalues, hlines]
  constructor
  · cases h : values.after values.start (Text.words text) with
    | none => exact Reader.viablePrefix_of_after_eq_none values_completable False h
    | some st =>
        refine Reader.viablePrefix_of_after values_completable h ?_
        intro cause more hfinish
        simp [values_finish_error hfinish]
  · cases h : lines.after lines.start (Text.words text) with
    | none => exact Reader.viablePrefix_of_after_eq_none lines_completable _ h
    | some st =>
        refine Reader.viablePrefix_of_after lines_completable h ?_
        intro cause more hfinish
        rw [lines_finish_error h hfinish, ← Token.lexemes_lex]
        simp

end Decombinator
