/-
Reading combinator code.

The grammar is

    value      := ap value value | ( ) | ( value , ... , value ) | symbol | integer | primitive
    definition := symbol = value

and one token decides what comes next.  So the parser is a fold over the tokens whose
state is the stack of constructs that are still open: a value that is complete is
handed to the innermost of them, which either waits for more or completes in turn.

The first token that no construct can take is where parsing stops.  Every state that
is reached without an error can still be completed to an accepted line, which is why
input that merely ends too early is told apart from input that is wrong.
-/
import Decombinator.Code
import Decombinator.Token

namespace Decombinator

/-! ### Errors -/

/-- Why a line is rejected. -/
inductive ParseError.Cause
  /-- The line does not start with a symbol; `found` names what is there. -/
  | expectedName (found : String)
  | expectedEquals
  /-- A complete value is followed by something else. -/
  | trailing (lexeme : String)
  | endOfInput
  /-- A token that starts no value. -/
  | unexpected (lexeme : String)
  | unclosedList
  | expectedSeparator (lexeme : String)
  deriving DecidableEq

def ParseError.Cause.message : ParseError.Cause → String
  | expectedName found => "expected definition name, got '" ++ found ++ "'"
  | expectedEquals => "expected '=' after definition name"
  | trailing lexeme => "unexpected trailing token '" ++ lexeme ++ "'"
  | endOfInput => "unexpected end of input"
  | unexpected lexeme => "unexpected token '" ++ lexeme ++ "'"
  | unclosedList => "list was not terminated with ')'"
  | expectedSeparator lexeme => "expected ',' or ')' in list, got '" ++ lexeme ++ "'"

/-- How the end of input in the middle of a value is reported. -/
inductive ParseMode
  /-- Like any other error. -/
  | batch
  /-- As incomplete input, so that a reader can ask for another line. -/
  | interactive
  deriving DecidableEq

/-- A rejected line: the cause, the byte column of the offending token (or the length of
the line), and whether the input is incomplete rather than wrong. -/
structure ParseError where
  cause : ParseError.Cause
  col : Nat
  incomplete : Bool
  deriving DecidableEq

namespace Code

namespace Parser

/-! ### Open constructs -/

/-- A construct that waits for a value. -/
inductive Frame
  /-- An application whose function comes next. -/
  | function
  /-- An application whose argument comes next. -/
  | argument (f : Code)
  /-- A list whose next element comes next; the elements before it are reversed. -/
  | element (before : List Code)
  deriving DecidableEq

inductive State
  /-- A value must come next. -/
  | value (opened : List Frame)
  /-- A list was just opened: a value or the closing parenthesis comes next. -/
  | listStart (opened : List Frame)
  /-- An element of a list is complete: a comma or the closing parenthesis comes next. -/
  | separator (before : List Code) (opened : List Frame)
  /-- The whole value is read. -/
  | done (c : Code)
  deriving DecidableEq

/-- Hands a complete value to the innermost open construct. -/
def complete (c : Code) : List Frame → State
  | [] => .done c
  | .function :: opened => .value (.argument c :: opened)
  | .argument f :: opened => complete (.ap f c) opened
  | .element before :: opened => .separator (c :: before) opened

/-- The state after a token that has to start a value. -/
def start (t : Token) (opened : List Frame) : Except ParseError.Cause State :=
  match t.kind with
  | .ap => .ok (.value (.function :: opened))
  | .lparen => .ok (.listStart opened)
  | .sym => .ok (complete (.sym t.lexeme) opened)
  | .int n => .ok (complete (.int n) opened)
  | .prim p => .ok (complete (.prim p) opened)
  | .equals | .comma | .rparen => .error (.unexpected t.lexeme)

def step : State → Token → Except ParseError.Cause State
  | .value opened, t => start t opened
  | .listStart opened, t =>
    match t.kind with
    | .rparen => .ok (complete (list []) opened)
    | _ => start t (.element [] :: opened)
  | .separator before opened, t =>
    match t.kind with
    | .comma => .ok (.value (.element before :: opened))
    | .rparen => .ok (complete (list before.reverse) opened)
    | _ => .error (.expectedSeparator t.lexeme)
  | .done _, t => .error (.trailing t.lexeme)

/-- What the end of input means in a state. -/
def finish : State → Except ParseError.Cause Code
  | .value _ | .listStart _ => .error .endOfInput
  | .separator _ _ => .error .unclosedList
  | .done c => .ok c

/-- An error at the end of input, whose column is `stop`. -/
def atEnd (mode : ParseMode) (stop : Nat) (cause : ParseError.Cause) : ParseError :=
  ⟨cause, stop, mode == .interactive⟩

/-- Reads the tokens from a state on; `stop` is the column of the end of input. -/
def run (mode : ParseMode) (stop : Nat) : State → List Token → Except ParseError Code
  | st, [] =>
    match finish st with
    | .ok c => .ok c
    | .error cause => .error (atEnd mode stop cause)
  | st, t :: ts =>
    match step st t with
    | .ok st' => run mode stop st' ts
    | .error cause => .error ⟨cause, t.col, false⟩

/-- Reads one value that has to use up the tokens. -/
def value (mode : ParseMode) (stop : Nat) (ts : List Token) : Except ParseError Code :=
  run mode stop (.value []) ts

/-- Reads a name, an equals sign and a value. -/
def definition (mode : ParseMode) (stop : Nat) : List Token → Except ParseError Definition
  | [] => .error ⟨.expectedName "EOF", stop, false⟩
  | name :: ts =>
    match name.kind with
    | .sym =>
      match ts with
      | [] => .error (atEnd mode stop .expectedEquals)
      | eq :: ts =>
        match eq.kind with
        | .equals =>
          match value mode stop ts with
          | .ok c => .ok ⟨name.lexeme, c⟩
          | .error e => .error e
        | _ => .error ⟨.expectedEquals, eq.col, false⟩
    | k => .error ⟨.expectedName k.label, name.col, false⟩

end Parser

/-- Reads a text that is one value. -/
def parse (mode : ParseMode) (text : String) : Except ParseError Code :=
  Parser.value mode text.utf8ByteSize (Token.lex text)

end Code

/-- Reads a text of the form `name = value`. -/
def Definition.parse (mode : ParseMode) (text : String) : Except ParseError Definition :=
  Code.Parser.definition mode text.utf8ByteSize (Token.lex text)

end Decombinator
