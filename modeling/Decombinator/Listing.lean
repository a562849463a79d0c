/-
Listings: sources of many definitions, one to a line.

Blank lines are passed over.  The first line that cannot be read ends the listing; what
came before it stands, and the error is shown against the whole source.
-/
import Decombinator.Diagnostic
import Decombinator.Stages

namespace Decombinator

namespace Listing

/-- What became of a listing. -/
structure Result where
  /-- The readable definitions, one to a line. -/
  output : String := ""
  trace : String := ""
  /-- The first line that cannot be read, counted from one, and why. -/
  error : Option (Nat × ParseError) := none

/-- Reads lines, the first of which has the number `n`. -/
def readLines (dict : Dictionary) (n : Nat) : List String → Result
  | [] => {}
  | line :: lines =>
    let line := Text.trimReturns line
    if Text.isBlankText line then readLines dict (n + 1) lines
    else
      match Stages.ofLine dict line with
      | .error e => { error := some (n, e) }
      | .ok s =>
        let rest := readLines dict (n + 1) lines
        { rest with output := s.print ++ "\n" ++ rest.output, trace := s.trace ++ rest.trace }

def read (dict : Dictionary) (source : String) : Result :=
  readLines dict 1 (Text.lines source)

/-- The error of a listing, explained; the source may have a name. -/
def Result.failure? (r : Result) (name source : String) : Option String :=
  r.error.map fun (n, e) => (Problem.ofParseError n e).explain name source

end Listing

end Decombinator
