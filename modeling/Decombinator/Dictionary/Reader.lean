/-
Dictionaries in JSON.

    {"symbols": [{"ref": ":1124", "name": "List.mem", "arity": 2, "returns": "bool"}]}

An entry without a name is named after its reference.  One with an arity is a function;
one with only a return kind is a value of that kind; any other has no declared type.

Keys are matched without regard to case and no others are allowed.  A null leaves a text
as it is and takes an arity back.  A list that is given again is read over the earlier
one: its first item over the first item, and so on, with fields it does not mention left
as they were.  Items beyond the end of the later list no longer count, but a still later
list is read over them too; only an empty list or a null forgets them.
-/
import Decombinator.Dictionary
import Decombinator.Json

namespace Decombinator.Dictionary

/-- An item of the list as far as it has been read. -/
structure Draft where
  ref : String := ""
  name : String := ""
  returns : String := ""
  arity : Option Int := none

/-- The list as far as it has been read: all items that were ever there, and how many of
them count. -/
structure Drafts where
  items : List Draft := []
  count : Nat := 0

/-- Letters that differ only in case have the same fold. -/
def foldKey (key : String) : String :=
  key.map fun c =>
    if c.toNat = 0x17f then 's'
    else if c.toNat = 0x212a then 'k'
    else c.toLower

/-- A text read over an earlier one. -/
def readText (old : String) : Json → Option String
  | .string s => some s
  | .null => some old
  | _ => none

def readArity : Json → Option (Option Int)
  | .number text => (Text.readIntChars text).map fun n => some n.toInt
  | .null => some none
  | _ => none

def readField (d : Draft) (field : String × Json) : Option Draft :=
  let (key, value) := field
  match foldKey key with
  | "ref" => (readText d.ref value).map fun s => { d with ref := s }
  | "name" => (readText d.name value).map fun s => { d with name := s }
  | "returns" => (readText d.returns value).map fun s => { d with returns := s }
  | "arity" => (readArity value).map fun n => { d with arity := n }
  | _ => none

/-- An item read over an earlier one. -/
def readDraft (d : Draft) : Json → Option Draft
  | .object fields => fields.foldlM readField d
  | .null => some d
  | _ => none

/-- Items read over earlier ones, of which there may be more or fewer. -/
def readOver : List Draft → List Json → Option (List Draft)
  | olds, [] => some olds
  | olds, item :: items => do
    let d ← readDraft (olds.head?.getD {}) item
    let ds ← readOver olds.tail items
    pure (d :: ds)

def readSymbols (old : Drafts) (field : String × Json) : Option Drafts :=
  let (key, value) := field
  match foldKey key, value with
  | "symbols", .null | "symbols", .array [] => some {}
  | "symbols", .array items =>
    (readOver old.items items).map fun ds => { items := ds, count := items.length }
  | _, _ => none

def readDocument : Json → Option (List Draft)
  | .null => some []
  | .object fields =>
    (fields.foldlM readSymbols {}).map fun ds => ds.items.take ds.count
  | _ => none

/-! ### Entries -/

def kindOf? : String → Option Kind
  | "" => some .unknown
  | "int" => some .int
  | "bool" => some .bool
  | "list" => some .list
  | _ => none

/-- The type that a return kind declares for a value. -/
def valueSignature : Kind → Option Signature
  | .int => some .int
  | .bool => some .bool
  | .list => some .list
  | .unknown | .func => none

def Draft.entry (d : Draft) : Except Error Entry :=
  let name := if d.name = "" then d.ref else d.name
  match kindOf? d.returns with
  | none => .error (.unknownKind d.ref d.returns)
  | some kind =>
    match d.arity with
    | some n =>
      if n < 0 then .error (.negativeArity d.ref n)
      else .ok ⟨d.ref, name, some (.func n kind)⟩
    | none => .ok ⟨d.ref, name, valueSignature kind⟩

/-- The dictionary that a JSON text holds. -/
def read (text : String) : Except Error Dictionary := do
  match (Json.first? text).bind readDocument with
  | none => .error .malformed
  | some drafts =>
    let entries ← drafts.mapM Draft.entry
    ofEntries entries

end Decombinator.Dictionary
