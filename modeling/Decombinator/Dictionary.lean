/-
Dictionaries: readable names and declared types for references.

A dictionary is a list of entries, in the order in which they were given.  Looking a
reference up finds its entry; `ofEntries` makes sure that there is at most one and that
no reference is empty.  The empty dictionary knows nothing.
-/
import Decombinator.Text.Integer
import Decombinator.Text.Quoted

namespace Decombinator

/-- What a value is, as far as declarations tell. -/
inductive Kind
  | unknown | int | bool | list | func
  deriving DecidableEq

namespace Kind

def name : Kind → String
  | unknown => "unknown"
  | int => "int"
  | bool => "bool"
  | list => "list"
  | func => "func"

end Kind

/-- A declared type.  Functions declare how many arguments they take and what they return. -/
inductive Signature
  | unknown
  | int
  | bool
  | list
  | func (arity : Int) (returns : Kind)
  deriving DecidableEq

namespace Signature

def kind : Signature → Kind
  | unknown => .unknown
  | int => .int
  | bool => .bool
  | list => .list
  | func _ _ => .func

def print : Signature → String
  | func arity returns => "func/" ++ Text.intText arity ++ " -> " ++ returns.name
  | sig => sig.kind.name

end Signature

/-- One row of a dictionary. -/
structure Entry where
  ref : String
  name : String
  signature : Option Signature
  deriving DecidableEq

structure Dictionary where
  entries : List Entry

namespace Dictionary

/-- Why a dictionary cannot be built. -/
inductive Error
  | emptyRef (name : String)
  | duplicateRef (ref : String)
  | unknownKind (ref kind : String)
  | negativeArity (ref : String) (arity : Int)
  /-- A text that is not a dictionary at all. -/
  | malformed
  deriving DecidableEq

def Error.message : Error → String
  | emptyRef name => "names: entry " ++ Text.quote name ++ " has an empty ref"
  | duplicateRef ref => "names: duplicate ref " ++ Text.quote ref
  | unknownKind ref kind => "names: " ++ ref ++ ": unknown return kind " ++ Text.quote kind
  | negativeArity ref arity => "names: " ++ ref ++ ": negative arity " ++ Text.intText arity
  | malformed => "names: decode: malformed dictionary"

def empty : Dictionary :=
  ⟨[]⟩

/-- The first fault of the entries, given the references before them. -/
def firstFault (seen : List String) : List Entry → Option Error
  | [] => none
  | e :: es =>
    if e.ref = "" then some (.emptyRef e.name)
    else if e.ref ∈ seen then some (.duplicateRef e.ref)
    else firstFault (e.ref :: seen) es

/-- The dictionary with the given entries, if no reference is empty or repeated. -/
def ofEntries (entries : List Entry) : Except Error Dictionary :=
  match firstFault [] entries with
  | some e => .error e
  | none => .ok ⟨entries⟩

def lookup (d : Dictionary) (ref : String) : Option Entry :=
  d.entries.find? fun e => e.ref == ref

/-- The readable name of a reference. -/
def name? (d : Dictionary) (ref : String) : Option String :=
  (d.lookup ref).map Entry.name

/-- The readable name of a reference that has one, and otherwise the reference itself. -/
def nameOf (d : Dictionary) (ref : String) : String :=
  (d.name? ref).getD ref

/-- The declared type of a reference. -/
def signature? (d : Dictionary) (ref : String) : Option Signature :=
  (d.lookup ref).bind Entry.signature

/-- The references in the order in which they were given. -/
def refs (d : Dictionary) : List String :=
  d.entries.map Entry.ref

def size (d : Dictionary) : Nat :=
  d.entries.length

end Dictionary

end Decombinator
