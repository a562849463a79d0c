/-
Flags on the command line.

A flag is written with one dash or two.  Its value follows an equals sign or, unless the
flag is a switch, is the next word.  The first word that is no flag ends them, a single
dash included; so does a double dash, which is dropped.
-/
import Decombinator.Text.Quoted

namespace Decombinator

namespace Flags

inductive Value
  | text (s : String)
  | switch (on : Bool)

/-- A flag that a command takes, with the value it has when it is not given. -/
structure Spec where
  name : String
  about : String
  default : Value

/-- The help on one flag. -/
def Spec.help (f : Spec) : String :=
  match f.default with
  | .text s =>
    "  -" ++ f.name ++ " string\n    \t" ++ f.about ++
      (if s = "" then "" else " (default " ++ Text.quote s ++ ")") ++ "\n"
  | .switch on =>
    "  -" ++ f.name ++ "\n    \t" ++ f.about ++ (if on then " (default true)" else "") ++ "\n"

/-- The help on all flags of a command. -/
def help (command : String) (specs : List Spec) : String :=
  "Usage of " ++ command ++ ":\n" ++ String.join (specs.map Spec.help)

/-- Why flags are rejected. -/
inductive Error
  /-- Help was asked for. -/
  | help
  | badSyntax (word : String)
  | undefined (name : String)
  | needsValue (name : String)
  | notSwitch (name value : String)

def Error.message : Error → String
  | help => ""
  | badSyntax word => "bad flag syntax: " ++ word ++ "\n"
  | undefined name => "flag provided but not defined: -" ++ name ++ "\n"
  | needsValue name => "flag needs an argument: -" ++ name ++ "\n"
  | notSwitch name value =>
    "invalid boolean value " ++ Text.quote value ++ " for -" ++ name ++ ": parse error\n"

def readSwitch : String → Option Bool
  | "1" | "t" | "T" | "true" | "TRUE" | "True" => some true
  | "0" | "f" | "F" | "false" | "FALSE" | "False" => some false
  | _ => none

/-- The name and, after an equals sign, the value in a flag without its dashes.  An equals
sign at the start belongs to the name. -/
def split (cs : List Char) : String × Option String :=
  match cs with
  | [] => ("", none)
  | c :: cs =>
    let name := String.ofList (c :: cs.takeWhile (· ≠ '='))
    match cs.dropWhile (· ≠ '=') with
    | [] => (name, none)
    | _ :: value => (name, some (String.ofList value))

/-- A word as the command line sees it. -/
inductive Word
  /-- The end of the flags; the word itself is an argument. -/
  | argument
  /-- The double dash. -/
  | stop
  | bad
  | flag (name : String) (value : Option String)

def Word.ofString (word : String) : Word :=
  let ofName (cs : List Char) : Word :=
    match cs with
    | [] | '-' :: _ | '=' :: _ => .bad
    | cs => let (name, value) := split cs; .flag name value
  match word.toList with
  | ['-', '-'] => .stop
  | '-' :: '-' :: cs => ofName cs
  | ['-'] => .argument
  | '-' :: cs => ofName cs
  | _ => .argument

/-- The flags given, the latest first, and the arguments after them. -/
structure Parsed where
  given : List (String × Value) := []
  args : List String := []

/-- Reads the flags at the front of the words, after those in `given`. -/
def read (specs : List Spec) (given : List (String × Value)) :
    List String → Except Error Parsed
  | [] => .ok { given }
  | word :: rest =>
    match Word.ofString word with
    | .argument => .ok { given, args := word :: rest }
    | .stop => .ok { given, args := rest }
    | .bad => .error (.badSyntax word)
    | .flag name value =>
      match specs.find? (·.name == name) with
      | none => .error (if name = "help" ∨ name = "h" then .help else .undefined name)
      | some spec =>
        match spec.default with
        | .switch _ =>
          match value with
          | none => read specs ((name, .switch true) :: given) rest
          | some v =>
            match readSwitch v with
            | some on => read specs ((name, .switch on) :: given) rest
            | none => .error (.notSwitch name v)
        | .text _ =>
          match value with
          | some v => read specs ((name, .text v) :: given) rest
          | none =>
            match rest with
            | v :: rest => read specs ((name, .text v) :: given) rest
            | [] => .error (.needsValue name)

/-- The value of a text flag. -/
def Parsed.text (p : Parsed) (name default : String) : String :=
  match p.given.lookup name with
  | some (.text s) => s
  | _ => default

/-- The value of a switch. -/
def Parsed.switch (p : Parsed) (name : String) (default : Bool) : Bool :=
  match p.given.lookup name with
  | some (.switch on) => on
  | _ => default

end Flags

end Decombinator
