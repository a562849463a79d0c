/-
Error messages that show the source.

An error with a position is shown under a header, with the line it is on, a caret under
its column, and the lines around it.  The header counts lines and columns from one.
Positions outside the source are moved to the nearest one inside, so that there is always
a place for the caret.  Positions are 64-bit numbers, and counting a column from one wraps
at the last of them.
-/
import Decombinator.Code.Parser
import Decombinator.Machine.Value
import Decombinator.Text.Lines

namespace Decombinator

inductive Problem
  /-- Input that is wrong at a line, counted from one, and a byte column, counted from
  zero. -/
  | parse (line col : Int64) (msg : String)
  | incomplete (line col : Int64) (msg : String)
  | runtime (msg : String)
  | other (text : String)

namespace Problem

def ofParseError (line : Nat) (e : ParseError) : Problem :=
  let line := Int64.ofNat line
  let col := Int64.ofNat e.col
  if e.incomplete then incomplete line col e.cause.message else parse line col e.cause.message

def ofFault (f : Machine.Fault) : Problem :=
  runtime f.message

def isIncomplete : Problem → Bool
  | incomplete _ _ _ => true
  | _ => false

def header : Problem → String
  | parse _ _ _ => "PARSE ERROR"
  | incomplete _ _ _ => "INCOMPLETE INPUT"
  | runtime _ => "RUNTIME ERROR"
  | other _ => ""

/-- A line and a column as messages give them. -/
def place (line col : Int64) : String :=
  Text.int64Text line ++ ":" ++ Text.int64Text col

/-- The problem in one line. -/
def text : Problem → String
  | parse line col msg => "PARSE ERROR at " ++ place line (col + 1) ++ ": " ++ msg
  | incomplete line col msg => "INCOMPLETE INPUT at " ++ place line (col + 1) ++ ": " ++ msg
  | runtime msg => "RUNTIME ERROR: " ++ msg
  | other text => text

/-! ### Snippets -/

def padLeft (width : Nat) (text : String) : String :=
  String.ofList (List.replicate (width - text.length) ' ') ++ text

/-- A line of source with its number. -/
def numberedLine (n : Nat) (line : String) : String :=
  padLeft 4 (Text.natText n) ++ " | " ++ line ++ "\n"

/-- The number nearest to `n` from `lo` to `hi`. -/
def clamp (lo hi : Nat) (n : Int64) : Nat :=
  max lo (min hi n.toInt.toNat)

/-- The source around a position, both coordinates counted from one. -/
def snippet (lines : List String) (line col : Nat) : String :=
  let shown (n : Nat) := Text.trimReturns (lines.getD (n - 1) "")
  let before := if line > 1 then numberedLine (line - 1) (shown (line - 1)) else ""
  let caret := "     | " ++ String.ofList (List.replicate (col - 1) ' ') ++ "^\n"
  let after := if lines.getD line "" ≠ "" then numberedLine (line + 1) (shown (line + 1)) else ""
  before ++ numberedLine line (shown line) ++ caret ++ after

/-- The header and the source around a position that may be out of range. -/
def render (header name source : String) (line col : Int64) (msg : String) : String :=
  let lines := Text.lines source
  let line := clamp 1 lines.length line
  let width := (Text.trimReturns (lines.getD (line - 1) "")).utf8ByteSize
  let col := clamp 1 (width + 1) col
  let origin := if name = "" then "" else " in " ++ name
  header ++ origin ++ " at " ++ Text.natText line ++ ":" ++ Text.natText col ++ ": " ++ msg ++ "\n\n" ++ snippet lines line col

/-- The problem explained against the source, which may have a name.  Problems that the
source says nothing about have no explanation. -/
def explain? (p : Problem) (name source : String) : Option String :=
  match p with
  | parse line col msg | incomplete line col msg =>
    some (render p.header name source line (col + 1) msg)
  | runtime msg => if name = "" then none else some (p.header ++ " in " ++ name ++ ": " ++ msg)
  | other _ => none

/-- The problem explained against the source as well as it can be. -/
def explain (p : Problem) (name source : String) : String :=
  (p.explain? name source).getD p.text

end Problem

end Decombinator
