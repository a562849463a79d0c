/-
An interactive session.

A session remembers the definitions that were entered, in the order in which their names
first came up, with the latest definition of each.  A bare value is the definition of
`it`.  Definitions can be run: as they were entered, and as they read after all stages,
on the same arguments and with all other definitions at hand.
-/
import Decombinator.Dictionary.Search
import Decombinator.Diagnostic
import Decombinator.Machine.Observe
import Decombinator.Stages
import Decombinator.Text.Lowercase

namespace Decombinator

/-- What is written to the two output streams. -/
structure Output where
  out : String := ""
  err : String := ""

namespace Output

def red (text : String) : String :=
  "\x1b[31m" ++ text ++ "\x1b[0m"

def blue (text : String) : String :=
  "\x1b[94m" ++ text ++ "\x1b[0m"

end Output

structure Session where
  dict : Dictionary
  tracing : Bool
  /-- The names that were defined, in the order of their first definitions. -/
  order : List String := []
  /-- The latest definitions. -/
  defs : List (String × Stages) := []

namespace Session

/-! ### Entering definitions -/

/-- Whether an entry is a definition rather than a value: it has an equals sign. -/
def isDefinition (entry : String) : Bool :=
  (Token.lex entry).any fun t => t.kind == .equals

/-- Reads an entry as a definition or as the value of `it`. -/
def parseEntry (mode : ParseMode) (entry : String) : Except ParseError Definition :=
  if isDefinition entry then Definition.parse mode entry
  else
    match Code.parse mode entry with
    | .ok c => .ok ⟨"it", c⟩
    | .error e => .error e

/-- The session with a definition added or replaced. -/
def remember (s : Session) (name : String) (st : Stages) : Session :=
  { s with
    order := if name ∈ s.order then s.order else s.order ++ [name]
    defs := (name, st) :: s.defs.filter (·.1 != name) }

/-- The words of an entry with single spaces between them. -/
def normalize (entry : String) : String :=
  String.intercalate " " (Text.words entry)

/-- An entry that cannot be read, with its words as `normalize` leaves them. -/
structure Rejection where
  entry : String
  error : ParseError

def Rejection.explain (r : Rejection) : String :=
  (Problem.ofParseError 1 r.error).explain "" r.entry

/-- What becomes of an entry: the new session, the readable definition if there is one, and
what tracing shows. -/
structure Entered where
  session : Session
  result : Except Rejection String
  trace : String := ""

def enter (s : Session) (entry : String) : Entered :=
  let entry := normalize entry
  match parseEntry .batch entry with
  | .error e => { session := s, result := .error ⟨entry, e⟩ }
  | .ok d =>
    let st := Stages.ofDefinition s.dict d
    { session := s.remember d.name st, result := .ok st.print
      trace := if s.tracing then st.trace else "" }

/-! ### Running definitions -/

/-- The depth to which a session lets the machine go. -/
def fuel : Nat := 1000000000000000000

def policy : Machine.Policy := {}

/-- The memory after an effect, whatever its outcome. -/
def memoryAfter {α : Type} (m : Machine.Memory) : Machine.Outcome α → Machine.Memory
  | .value _ m' | .fault _ m' => m'
  | .outOfFuel => m

/-- Defines the value of a definition as a global, unless it fails. -/
def load (m : Machine.Memory) (name : String) (c : Code) : Machine.Memory :=
  match Machine.evalCode policy fuel c m with
  | .value v m' => m'.define name (.ready v)
  | outcome => memoryAfter m outcome

/-- Goes on to the next definition, unless it is the one to skip. -/
def loadNext (s : Session) (skip : String) (m : Machine.Memory) (name : String) : Machine.Memory :=
  if name = skip then m
  else
    match s.defs.lookup name with
    | some st => load m name st.definition.value
    | none => m

/-- A fresh memory with all definitions but one, evaluated in order.  Definitions that fail
stay undefined. -/
def globals (s : Session) (skip : String) : Machine.Memory :=
  s.order.foldl (s.loadNext skip) {}

/-- Runs a definition on arguments and shows the result. -/
def runOn (name : String) (start : Machine.Effect Machine.Value) (args : List Int64)
    (m : Machine.Memory) : String :=
  let shown : Machine.Effect String := do
    let v ← start
    let args := args.map fun n => Machine.Operand.ready (.int n)
    let r ← Machine.applyAll policy fuel (.ready v) args
    Machine.observe policy fuel r
  match shown m with
  | .value text _ => text
  | .fault f _ => Output.red ((Problem.ofFault f).explain name "")
  | .outOfFuel => Output.red "out of fuel"

/-- The arguments as integers, or the first that is none. -/
def readArgs : List String → Except String (List Int64)
  | [] => .ok []
  | a :: as =>
    match Text.readInt a with
    | none => .error a
    | some n =>
      match readArgs as with
      | .error e => .error e
      | .ok ns => .ok (n :: ns)

/-- Runs a definition as entered and as it reads after all stages. -/
def applyDefinition (s : Session) (name : String) (args : List String) : Output :=
  match s.defs.lookup name with
  | none => { err := Output.red ("no definition named " ++ name) ++ "\n" }
  | some st =>
    match readArgs args with
    | .error a => { err := Output.red ("argument " ++ a ++ " is not an integer") ++ "\n" }
    | .ok ns =>
      let asEntered := Machine.evalCode policy fuel st.definition.value
      let asRead := Machine.evalExpr policy fuel st.renamed
      { out :=
          "raw:  " ++ runOn name asEntered ns (s.globals name) ++ "\n" ++
          "expr: " ++ runOn name asRead ns (s.globals name) ++ "\n" }

/-! ### Commands -/

def helpText : String :=
  "\nInput is a definition (name = ap ...) or a bare value.\n\n" ++
  "REPL commands:\n" ++
  "  :names <query>          Fuzzy-search the name dictionary\n" ++
  "  :apply <name> <int>...  Run a definition and its decompiled form on arguments\n" ++
  "  :trace                  Toggle stage dumps\n" ++
  "  :quit                   Exit the REPL\n"

/-- How many entries of the dictionary a search shows. -/
def maxMatches : Nat := 10

/-- What becomes of a command. -/
structure Commanded where
  session : Session
  output : Output := {}
  quit : Bool := false

/-- What a command asks for. -/
inductive Request
  | quit
  | help
  | trace
  | names (query : String)
  /-- To run a definition; without a name, how to ask for that. -/
  | apply (words : List String)
  | unknown

/-- What the words of a command ask for.  The case of the first does not matter. -/
def Request.ofWords : List String → Request
  | [] => unknown
  | word :: rest =>
    match Text.lower word with
    | ":quit" | ":q" => quit
    | ":help" => help
    | ":trace" => trace
    | ":names" => names (String.intercalate " " rest)
    | ":apply" => apply rest
    | _ => unknown

/-- Carries out a request. -/
def perform (s : Session) : Request → Commanded
  | .quit => { session := s, quit := true }
  | .help => { session := s, output := { out := helpText } }
  | .trace =>
    { session := { s with tracing := !s.tracing }
      output := { out := "trace " ++ (if s.tracing then "off" else "on") ++ "\n" } }
  | .names query => { session := s, output := { out := s.dict.printMatches (.ofString query) maxMatches } }
  | .apply [] => { session := s, output := { out := "usage: :apply <name> <int>...\n" } }
  | .apply (name :: args) => { session := s, output := s.applyDefinition name args }
  | .unknown => { session := s, output := { out := "unknown command. Type :help for commands.\n" } }

def command (s : Session) (entry : String) : Commanded :=
  s.perform (.ofWords (Text.words entry))

end Session

end Decombinator
