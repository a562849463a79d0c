/-
The dialogue around a session.

An entry may take several lines: as long as it could still become complete, and the last
line was not blank, another line is asked for and joined to it with a space.  Entries that
start with a colon are commands.

Lines may have stray bytes.  The session deals in escaped texts, and so its dictionary is
escaped too; what it answers is shown without the escapes.
-/
import Decombinator.History
import Decombinator.Session

namespace Decombinator

/-- The dictionary with its texts escaped. -/
def Dictionary.escaped (d : Dictionary) : Dictionary :=
  ⟨d.entries.map fun e =>
    { e with ref := Text.Escaped.ofString e.ref, name := Text.Escaped.ofString e.name }⟩

structure Repl where
  /-- The dictionary that is searched. -/
  dict : Dictionary
  session : Session
  history : History
  /-- The lines of an entry that is not complete. -/
  pending : Option String := none

namespace Repl

/-- A dialogue at its start. -/
def start (dict : Dictionary) (tracing : Bool) (history : History) : Repl :=
  { dict, session := { dict := dict.escaped, tracing }, history }

/-- What is asked for next. -/
def prompt (r : Repl) : String :=
  if r.pending.isSome then "... " else "==> "

structure Reply where
  repl : Repl
  output : Output := {}
  quit : Bool := false

/-- Whether an entry is a command. -/
def isCommand (entry : String) : Bool :=
  (Text.trim entry).toList.head? == some ':'

/-- Whether another line has to be asked for after `line`, with `source` entered so far. -/
def wantsMore (source line : String) : Bool :=
  !isCommand source && !Text.isBlankText line &&
    match Session.parseEntry .interactive source with
    | .ok _ => false
    | .error e => e.incomplete

/-- What shows for what a session answers. -/
def shown (o : Output) : Output :=
  { out := Text.Escaped.shown o.out, err := Text.Escaped.shown o.err }

/-- Carries out a command. -/
def obey (r : Repl) (entry : String) : Reply :=
  match Session.Request.ofWords (Text.words entry) with
  | .names query =>
    let found := r.dict.printMatches (Text.Escaped.toRaw query) Session.maxMatches
    { repl := r, output := { out := found } }
  | request =>
    let done := r.session.perform request
    { repl := { r with session := done.session }, output := shown done.output, quit := done.quit }

/-- Takes a definition or a value. -/
def enter (r : Repl) (entry : String) : Reply :=
  let done := r.session.enter entry
  let output : Output := match done.result with
    | .ok line => { out := Output.blue line ++ "\n", err := done.trace }
    | .error e =>
      let col := Text.Escaped.column e.entry e.error.col
      { err := Output.red { e with error := { e.error with col } }.explain ++ "\n" }
  { repl := { r with session := done.session }, output := shown output }

/-- Takes a complete entry. -/
def take (r : Repl) (source : String) : Reply :=
  let entry := Text.trim source
  let r := { r with pending := none }
  if entry = "" then { repl := r }
  else
    let history := r.history.add (entry.map fun c => if c = '\n' then ' ' else c)
    let r := { r with history }
    if isCommand entry then r.obey entry else r.enter entry

/-- Takes a line. -/
def feed (r : Repl) (line : Text.InputLine) : Reply :=
  let line := Text.Escaped.ofRaw line.text
  let source := match r.pending with
    | some before => before ++ " " ++ line
    | none => line
  if wantsMore source line then { repl := { r with pending := some source } }
  else r.take source

/-- Runs a dialogue on lines that are all known, to the end of input or a request to quit.
The output includes the prompts. -/
def run (r : Repl) : List Text.InputLine → Output × History
  | [] => ({ out := r.prompt ++ "\n" }, r.history)
  | line :: lines =>
    let reply := r.feed line
    let out := r.prompt ++ reply.output.out
    if reply.quit then ({ out, err := reply.output.err }, reply.repl.history)
    else
      let rest := run reply.repl lines
      ({ out := out ++ rest.1.out, err := reply.output.err ++ rest.1.err }, rest.2)

end Repl

end Decombinator
