/-
The commands of the program.

What the words on the command line ask for is decided first, without touching anything
outside.  Carrying it out needs the texts of some files and perhaps the standard input,
and yields what to print and what to write.
-/
import Decombinator.Flags
import Decombinator.Listing
import Decombinator.Repl
import Decombinator.Settings

namespace Decombinator

def version : String := "0.3.0"

def usage : String :=
  "Galaxy decompiler " ++ version ++ "\n\n" ++
  "Usage:\n" ++
  "  decompile run [-names file.json] [-trace] <file|->    Decompile every definition of a file.\n" ++
  "  decompile repl [-names file.json]                     Start the REPL.\n" ++
  "  decompile names [-names file.json] <query>            Search the name dictionary.\n" ++
  "  decompile version                                     Print the version\n\n" ++
  "Environment:\n" ++
  "  DECOMPILE_DEBUG, DECOMPILE_NAMES, DECOMPILE_MAX_STACK_MB, DECOMPILE_HISTORY\n\n"

def banner : String :=
  "Galaxy decompiler " ++ version ++ " REPL\n" ++
  "Ctrl+C cancels input, Ctrl+D exits. Type :help for commands.\n"

inductive Command
  /-- Nothing to do but to print something. -/
  | say (exit : UInt32) (output : Output)
  | run (names : String) (trace : Bool) (source : String)
  | names (names query : String)
  | repl (names : String)

namespace Command

def namesFlag (s : Settings) : Flags.Spec :=
  ⟨"names", "name dictionary (JSON)", .text s.names⟩

def traceFlag (s : Settings) : Flags.Spec :=
  ⟨"trace", "dump every stage to stderr", .switch s.debug⟩

/-- Reads the flags of a command and goes on with them. -/
def withFlags (command : String) (specs : List Flags.Spec) (words : List String)
    (next : Flags.Parsed → Command) : Command :=
  match Flags.read specs [] words with
  | .ok parsed => next parsed
  | .error e => say 2 { err := e.message ++ Flags.help command specs }

/-- What the words ask for. -/
def ofWords (s : Settings) : List String → Command
  | [] => say 2 { out := usage }
  | word :: rest =>
    match word with
    | "run" =>
      withFlags "run" [namesFlag s, traceFlag s] rest fun p =>
        match p.args with
        | [source] => run (p.text "names" s.names) (p.switch "trace" s.debug) source
        | _ => say 2 { err := "usage: decompile run [-names file.json] [-trace] <file|->\n" }
    | "repl" => withFlags "repl" [namesFlag s] rest fun p => repl (p.text "names" s.names)
    | "names" =>
      withFlags "names" [namesFlag s] rest fun p =>
        names (p.text "names" s.names) (String.intercalate " " p.args)
    | "version" => say 0 { out := version ++ "\n" }
    | "-h" | "--help" | "help" => say 0 { out := usage }
    | _ => say 2 { out := usage, err := "decompile: unknown command " ++ Text.quote word ++ "\n" }

/-! ### Carrying out -/

/-- What a command leaves behind. -/
structure Result where
  exit : UInt32 := 0
  output : Output := {}
  /-- A file to write, with its text. -/
  write : Option (String × String) := none

/-- A failure to load the dictionary. -/
def loadFailure (e : LoadError) : Result :=
  { exit := 1, output := { err := "decompile: " ++ e.message ++ "\n" } }

/-- Decompiles a source that has been read. -/
def runSource (dict : Dictionary) (trace : Bool) (name source : String) : Result :=
  let r := Listing.read dict source
  let traced := if trace then r.trace else ""
  match r.failure? name source with
  | none => { output := { out := r.output, err := traced } }
  | some e => { exit := 1, output := { out := r.output, err := traced ++ e ++ "\n" } }

def runFile (files : Files) (stdin : String) (dict : Dictionary) (trace : Bool) (path : String) :
    Result :=
  if path = "-" then runSource dict trace path stdin
  else
    match files path with
    | .ok source => runSource dict trace path source
    | .error e =>
      let place := if e.opened then "" else "decompile: cannot read " ++ path ++ ": "
      { exit := 1, output := { err := place ++ e.message path ++ "\n" } }

/-- A dialogue at its start, with the history that is on file. -/
def startRepl (s : Settings) (files : Files) (dict : Dictionary) : Repl :=
  let history := match files s.history with
    | .ok text => History.read text
    | .error _ => []
  Repl.start dict s.debug history

/-- A whole dialogue on a standard input that is known to its end. -/
def runRepl (s : Settings) (files : Files) (stdin : String) (dict : Dictionary) : Result :=
  let (output, history) := (startRepl s files dict).run (Text.inputLines stdin)
  { output := { output with out := banner ++ output.out }
    write := some (s.history, history.write) }

/-- Carries out a command. -/
def execute (s : Settings) (files : Files) (stdin : String) (c : Command) : Result :=
  let withDictionary (path : String) (next : Dictionary → Result) : Result :=
    match Dictionary.load files path with
    | .ok dict => next dict
    | .error e => loadFailure e
  match c with
  | say exit output => { exit, output }
  | run path trace source => withDictionary path fun d => runFile files stdin d trace source
  | names path query => withDictionary path fun d => { output := { out := d.printMatches (.ofString query) 0 } }
  | repl path => withDictionary path fun d => runRepl s files stdin d

/-- Whether a command reads the standard input to its end. -/
def readsInput : Command → Bool
  | run _ _ source => source == "-"
  | _ => false

/-- The files that a command reads. -/
def reads (s : Settings) : Command → List String
  | say _ _ => []
  | run path _ source => [path, source]
  | names path _ => [path]
  | repl path => [path, s.history]

end Command

end Decombinator
