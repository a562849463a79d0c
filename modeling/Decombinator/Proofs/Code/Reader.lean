/-
Both parsers are readers of words.

A reader takes one word after another and keeps a state; a word that it cannot take is an
error at the column of that word, and the end of input is an error in the states that wait
for more.  Of a token only the word matters, since the word decides the kind, and the column
is only ever reported.  So what a text does to a reader is said by one function on lists of
words, `after`, and the two ways in which a text can be rejected are the two ways in which
`after` can end: in a state in which the input may not end, or not at all.

The parser of values is such a reader as it stands.  The parser of definitions is one with
two states more, for the name and for the equals sign.
-/
import Decombinator.Code.Parser
import Decombinator.Proofs.Text.Words

namespace Decombinator

/-- A machine that reads words. -/
structure Reader (α : Type) where
  State : Type
  start : State
  step : State → String → Except ParseError.Cause State
  /-- What the end of input means in a state: the result, or why there is none and whether
  another line may be asked for. -/
  finish : State → Except (ParseError.Cause × Bool) α

namespace Reader

variable {α : Type} (R : Reader α)

def run (mode : ParseMode) (stop : Nat) : R.State → List Token → Except ParseError α
  | st, [] =>
    match R.finish st with
    | .ok a => .ok a
    | .error (cause, more) => .error ⟨cause, stop, more && mode == .interactive⟩
  | st, t :: ts =>
    match R.step st t.lexeme with
    | .ok st' => run mode stop st' ts
    | .error cause => .error ⟨cause, t.col, false⟩

def parse (mode : ParseMode) (text : String) : Except ParseError α :=
  R.run mode text.utf8ByteSize R.start (Token.lex text)

/-- The state after some words, if they can all be taken. -/
def after : R.State → List String → Option R.State
  | st, [] => some st
  | st, w :: ws =>
    match R.step st w with
    | .ok st' => after st' ws
    | .error _ => none

variable {R} {mode : ParseMode} {stop : Nat}

theorem run_cons {st st' : R.State} {t : Token} (h : R.step st t.lexeme = .ok st')
    (ts : List Token) : R.run mode stop st (t :: ts) = R.run mode stop st' ts := by
  rw [run, h]

theorem run_cons_error {st : R.State} {t : Token} {cause : ParseError.Cause}
    (h : R.step st t.lexeme = .error cause) (ts : List Token) :
    R.run mode stop st (t :: ts) = .error ⟨cause, t.col, false⟩ := by
  rw [run, h]

theorem after_cons {st st' : R.State} {w : String} (h : R.step st w = .ok st') (ws : List String) :
    R.after st (w :: ws) = R.after st' ws := by
  rw [after, h]

theorem after_append (st : R.State) (ws us : List String) :
    R.after st (ws ++ us) = (R.after st ws).bind fun st' => R.after st' us := by
  induction ws generalizing st with
  | nil => rfl
  | cons w ws ih =>
      rw [List.cons_append, after, after]
      split
      · exact ih _
      · rfl

theorem exists_after_of_isPrefix {st st' : R.State} {ws us : List String} (hws : ws <+: us)
    (h : R.after st us = some st') : ∃ st'', R.after st ws = some st'' := by
  obtain ⟨vs, rfl⟩ := hws
  rw [after_append] at h
  obtain ⟨st'', hst'', -⟩ := Option.bind_eq_some_iff.mp h
  exact ⟨st'', hst''⟩

/-- Words that can be taken lead to the state in which the input ends. -/
theorem run_of_after {st st' : R.State} {ts : List Token}
    (h : R.after st (ts.map Token.lexeme) = some st') :
    R.run mode stop st ts = R.run mode stop st' [] := by
  induction ts generalizing st with
  | nil =>
      have hst : st = st' := by simpa [after] using h
      rw [hst]
  | cons t ts ih =>
      cases hstep : R.step st t.lexeme with
      | ok st'' =>
          rw [List.map_cons, after_cons hstep] at h
          rw [run_cons hstep]
          exact ih h
      | error cause => simp [after, hstep] at h

/-- If not all words can be taken, there is a first that cannot, and the error is there. -/
theorem run_of_after_eq_none {st : R.State} {ts : List Token}
    (h : R.after st (ts.map Token.lexeme) = none) :
    ∃ k t st' cause, ts[k]? = some t ∧
      R.after st ((ts.map Token.lexeme).take k) = some st' ∧
      R.step st' t.lexeme = .error cause ∧
      ∀ mode stop, R.run mode stop st ts = .error ⟨cause, t.col, false⟩ := by
  induction ts generalizing st with
  | nil => simp [after] at h
  | cons t ts ih =>
      cases hstep : R.step st t.lexeme with
      | ok st' =>
          rw [List.map_cons, after_cons hstep] at h
          obtain ⟨k, u, st'', cause, hk, hafter, hu, hrun⟩ := ih h
          refine ⟨k + 1, u, st'', cause, hk, ?_, hu, ?_⟩
          · rw [List.map_cons, List.take_succ_cons, after_cons hstep]
            exact hafter
          · intro mode stop
            rw [run_cons hstep]
            exact hrun mode stop
      | error cause =>
          refine ⟨0, t, st, cause, rfl, rfl, hstep, ?_⟩
          intro mode stop
          exact run_cons_error hstep ts

/-- An error is at the end of input or at a token. -/
theorem run_error_col {st : R.State} {ts : List Token} {e : ParseError}
    (h : R.run mode stop st ts = .error e) : e.col = stop ∨ ∃ t ∈ ts, e.col = t.col := by
  cases hafter : R.after st (ts.map Token.lexeme) with
  | none =>
      obtain ⟨k, t, _, _, hk, _, _, hrun⟩ := run_of_after_eq_none hafter
      rw [hrun] at h
      cases h
      exact .inr ⟨t, List.mem_of_getElem? hk, rfl⟩
  | some st' =>
      rw [run_of_after hafter, run] at h
      split at h
      · contradiction
      · cases h
        exact .inl rfl

end Reader

namespace Code.Parser

variable {mode : ParseMode} {stop : Nat}

theorem run_cons {st st' : State} {t : Token} (h : step st t = .ok st') (ts : List Token) :
    run mode stop st (t :: ts) = run mode stop st' ts := by
  rw [run, h]

theorem run_cons_error {st : State} {t : Token} {cause : ParseError.Cause}
    (h : step st t = .error cause) (ts : List Token) :
    run mode stop st (t :: ts) = .error ⟨cause, t.col, false⟩ := by
  rw [run, h]

/-! ### Values -/

/-- The parser of values. -/
def values : Reader Code where
  State := State
  start := .value []
  step st w := step st ⟨Token.Kind.ofWord w, w, 0⟩
  finish st :=
    match finish st with
    | .ok c => .ok c
    | .error cause => .error (cause, true)

theorem values_step {t : Token} (ht : t.kind = Token.Kind.ofWord t.lexeme) (st : State) :
    values.step st t.lexeme = step st t := by
  show step st ⟨Token.Kind.ofWord t.lexeme, t.lexeme, 0⟩ = step st t
  rw [← ht]
  cases st <;> rfl

theorem values_run {ts : List Token} (hts : ∀ t ∈ ts, t.kind = Token.Kind.ofWord t.lexeme)
    (st : State) : values.run mode stop st ts = run mode stop st ts := by
  induction ts generalizing st with
  | nil => cases st <;> rfl
  | cons t ts ih =>
      have ht : values.step st t.lexeme = step st t := values_step (hts t List.mem_cons_self) st
      cases hstep : step st t with
      | ok st' =>
          rw [Reader.run_cons (ht.trans hstep), run_cons hstep]
          exact ih (fun u hu => hts u (List.mem_cons_of_mem t hu)) st'
      | error cause => rw [Reader.run_cons_error (ht.trans hstep), run_cons_error hstep]

/-! ### Definitions -/

/-- The states of the parser of definitions. -/
inductive LineState
  | start
  | named (name : String)
  | value (name : String) (st : State)

/-- The parser of definitions. -/
def lines : Reader Definition where
  State := LineState
  start := .start
  step
    | .start, w =>
      match Token.Kind.ofWord w with
      | .sym => .ok (.named w)
      | k => .error (.expectedName k.label)
    | .named name, w =>
      match Token.Kind.ofWord w with
      | .equals => .ok (.value name (.value []))
      | _ => .error .expectedEquals
    | .value name st, w =>
      match values.step st w with
      | .ok st' => .ok (.value name st')
      | .error cause => .error cause
  finish
    | .start => .error (.expectedName "EOF", false)
    | .named _ => .error (.expectedEquals, true)
    | .value name st =>
      match values.finish st with
      | .ok c => .ok ⟨name, c⟩
      | .error why => .error why

/-- Behind the equals sign, a line is read as its value is. -/
theorem lines_run_value (name : String) (st : State) (ts : List Token) :
    lines.run mode stop (.value name st) ts =
      match values.run mode stop st ts with
      | .ok c => .ok ⟨name, c⟩
      | .error e => .error e := by
  induction ts generalizing st with
  | nil => cases st <;> rfl
  | cons t ts ih =>
      cases hstep : values.step st t.lexeme with
      | ok st' =>
          have hline : lines.step (.value name st) t.lexeme = .ok (.value name st') := by
            simp [lines, hstep]
          rw [Reader.run_cons hline, Reader.run_cons hstep]
          exact ih st'
      | error cause =>
          have hline : lines.step (.value name st) t.lexeme = .error cause := by
            simp [lines, hstep]
          rw [Reader.run_cons_error hline, Reader.run_cons_error hstep]

theorem lines_run {ts : List Token} (hts : ∀ t ∈ ts, t.kind = Token.Kind.ofWord t.lexeme) :
    lines.run mode stop .start ts = definition mode stop ts := by
  match ts, hts with
  | [], _ => rfl
  | name :: ts, hts =>
      have hname := hts name List.mem_cons_self
      by_cases hsym : name.kind = .sym
      · have hstep : lines.step .start name.lexeme = .ok (.named name.lexeme) := by
          simp [lines, ← hname, hsym]
        rw [Reader.run_cons hstep]
        match ts, hts with
        | [], _ =>
            rw [definition, hsym]
            rfl
        | eq :: ts, hts =>
            have heq := hts eq (by simp)
            by_cases hequals : eq.kind = .equals
            · have hstep : lines.step (.named name.lexeme) eq.lexeme =
                  .ok (.value name.lexeme (.value [])) := by
                simp [lines, ← heq, hequals]
              have hrest : values.run mode stop (.value []) ts = value mode stop ts :=
                values_run (fun t ht => hts t (by simp [ht])) (.value [])
              rw [Reader.run_cons hstep, lines_run_value, hrest]
              cases hvalue : value mode stop ts <;> simp [definition, hsym, hequals, hvalue]
            · have hstep : lines.step (.named name.lexeme) eq.lexeme = .error .expectedEquals := by
                simp [lines, ← heq]
              rw [Reader.run_cons_error hstep]
              simp [definition, hsym]
      · have hstep : lines.step .start name.lexeme =
            .error (.expectedName name.kind.label) := by
          simp [lines, ← hname]
        rw [Reader.run_cons_error hstep]
        simp [definition]

end Code.Parser

/-- A value is what the reader of values makes of the words. -/
theorem Code.parse_eq_values (mode : ParseMode) (text : String) :
    Code.parse mode text = Code.Parser.values.parse mode text :=
  (Parser.values_run (fun _ => Token.kind_of_mem_lex) _).symm

theorem Definition.parse_eq_lines (mode : ParseMode) (text : String) :
    Definition.parse mode text = Code.Parser.lines.parse mode text :=
  (Code.Parser.lines_run fun _ => Token.kind_of_mem_lex).symm

end Decombinator
