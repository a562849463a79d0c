/-
The program.  It gathers what a command needs, has it carried out, and prints; only the
dialogue of a session goes back and forth.
-/
import Decombinator.Command

namespace Decombinator.Program

def readFile (path : String) : IO (Except FileError String) := do
  try
    let text ← IO.FS.readFile path
    pure (.ok text)
  catch
    | .noFileOrDirectory _ _ _ => pure (.error .missing)
    | .permissionDenied _ _ _ => pure (.error .denied)
    | .invalidArgument (some _) _ _ => pure (.error .nameTooLong)
    | .inappropriateType (some _) _ _ => pure (.error .notDirectory)
    | .inappropriateType none _ _ => pure (.error .isDirectory)
    | e => pure (.error (.unreadable (toString e)))

def writeFile (path text : String) : IO Unit := do
  try IO.FS.writeFile path text
  catch _ => pure ()

def print (o : Output) : IO Unit := do
  let out ← IO.getStdout
  out.putStr o.out
  out.flush
  (← IO.getStderr).putStr o.err

/-- The rest of the standard input. -/
partial def readInput (before : String) : IO String := do
  let line ← (← IO.getStdin).getLine
  if line = "" then pure before else readInput (before ++ line)

/-- Goes on with a dialogue until its end and returns the history.  Lines that were read
already come before those still to be read. -/
partial def dialogue (r : Repl) (lines : List Text.InputLine) : IO History := do
  print { out := r.prompt }
  let lines ← if lines.isEmpty then Text.inputLines <$> (← IO.getStdin).getLine else pure lines
  match lines with
  | [] =>
    print { out := "\n" }
    pure r.history
  | line :: lines =>
    let reply := r.feed line
    print reply.output
    if reply.quit then pure reply.repl.history else dialogue reply.repl lines

def readSettings : IO Settings := do
  let names := ["DECOMPILE_DEBUG", "DECOMPILE_NAMES", "DECOMPILE_MAX_STACK_MB", "DECOMPILE_HISTORY",
    "HOME"]
  let values ← names.mapM fun name => do
    let value ← IO.getEnv name
    pure (name, value.getD "")
  pure (Settings.ofEnv fun name => (values.lookup name).getD "")

def finish (r : Command.Result) : IO UInt32 := do
  print r.output
  match r.write with
  | some (path, text) => writeFile path text
  | none => pure ()
  pure r.exit

def run (args : List String) : IO UInt32 := do
  let settings ← readSettings
  let command := Command.ofWords settings args
  let texts ← (command.reads settings).mapM fun path => do
    let text ← readFile path
    pure (path, text)
  let files : Files := fun path => (texts.lookup path).getD (.error .missing)
  match command with
  | .repl path =>
    match Dictionary.load files path with
    | .error e => finish (Command.loadFailure e)
    | .ok dict =>
      print { out := banner }
      let history ← dialogue (Command.startRepl settings files dict) []
      finish { write := some (settings.history, history.write) }
  | command =>
    let stdin ← if command.readsInput then readInput "" else pure ""
    finish (command.execute settings files stdin)

end Decombinator.Program

def main (args : List String) : IO UInt32 :=
  Decombinator.Program.run args
