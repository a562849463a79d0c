/-
Values of the lazy machine.

A value is evaluated as far as its outermost form.  What it contains are operands, which
may be suspended: an operand is a value or the address of a computation that has not run,
or has run and left its outcome at that address.

Functions are data.  A primitive of two or three arguments collects them one at a time; a
closure collects its arguments in its environment.  Booleans, lists and nil can be applied
as well, and applying a boolean gives a function that waits for the other argument.

Probes exist to find out whether a function selects like a boolean.  They absorb any
argument and no program can write one.
-/
import Decombinator.Code
import Decombinator.Expr

namespace Decombinator.Machine

/-! ### Primitive functions, by the number of their arguments -/

inductive Unary
  | i | car | cdr | isnil | neg
  deriving DecidableEq

inductive Binary
  | cons | add | mul | div | eq | lt
  deriving DecidableEq

inductive Ternary
  | b | c | s
  deriving DecidableEq

def Unary.prim : Unary → Prim
  | i => .i
  | car => .car
  | cdr => .cdr
  | isnil => .isnil
  | neg => .neg

def Binary.prim : Binary → Prim
  | cons => .cons
  | add => .add
  | mul => .mul
  | div => .div
  | eq => .eq
  | lt => .lt

def Ternary.prim : Ternary → Prim
  | b => .b
  | c => .c
  | s => .s

/-! ### Values -/

mutual

inductive Value
  | int (n : Int64)
  | bool (b : Bool)
  | nil
  | cons (head tail : Operand)
  | unary (f : Unary)
  | binary (f : Binary)
  | binary1 (f : Binary) (x : Operand)
  | ternary (f : Ternary)
  | ternary1 (f : Ternary) (x : Operand)
  | ternary2 (f : Ternary) (x y : Operand)
  /-- Returns `x` whatever it is applied to: the boolean true with its first argument. -/
  | always (x : Operand)
  /-- Returns what it is applied to: the boolean false with its first argument. -/
  | second
  /-- A function of the parameters `param` and `rest`, of which earlier ones are already
  bound in `env`.  `label` is what it is shown as. -/
  | closure (label : String) (env : List (String × Operand)) (param : String)
      (rest : List String) (body : Expr)
  /-- One of two markers. -/
  | probe (first : Bool)

inductive Operand
  | ready (v : Value)
  | delayed (addr : Nat)

end

/-- The names in scope and what they stand for, the innermost first. -/
abbrev Env := List (String × Operand)

def Value.ofPrim : Prim → Value
  | .i => .unary .i
  | .car => .unary .car
  | .cdr => .unary .cdr
  | .isnil => .unary .isnil
  | .neg => .unary .neg
  | .cons => .binary .cons
  | .add => .binary .add
  | .mul => .binary .mul
  | .div => .binary .div
  | .eq => .binary .eq
  | .lt => .binary .lt
  | .b => .ternary .b
  | .c => .ternary .c
  | .s => .ternary .s
  | .t => .bool true
  | .nil => .nil

/-- The function with the given parameters. -/
def Value.function (env : Env) (param : String) (rest : List String) (body : Expr) : Value :=
  .closure ("fun(" ++ String.intercalate ", " (param :: rest) ++ ")") env param rest body

/-- The forms of values that messages tell apart. -/
inductive Tag
  | int | bool | nil | cons | function | probe
  deriving DecidableEq

def Tag.name : Tag → String
  | int => "int"
  | bool => "bool"
  | nil => "nil"
  | cons => "cons"
  | function => "function"
  | probe => "probe"

def Value.tag : Value → Tag
  | .int _ => .int
  | .bool _ => .bool
  | .nil => .nil
  | .cons _ _ => .cons
  | .probe _ => .probe
  | .unary _ | .binary _ | .binary1 _ _ | .ternary _ | .ternary1 _ _ | .ternary2 _ _ _
  | .always _ | .second | .closure _ _ _ _ _ => .function

/-- What a function is shown as. -/
def Value.label : Value → String
  | .unary f => f.prim.spelling
  | .binary f | .binary1 f _ => f.prim.spelling
  | .ternary f | .ternary1 f _ | .ternary2 f _ _ => f.prim.spelling
  | .always _ => "t1"
  | .second => "f1"
  | .closure label _ _ _ _ => label
  | .int _ | .bool _ | .nil | .cons _ _ | .probe _ => ""

/-! ### Faults -/

/-- Why an evaluation fails. -/
inductive Fault
  | stepLimit (limit : Nat)
  | cannotApply (found : Tag)
  | expectedBoolean (found : Tag)
  /-- A function that selects neither of two arguments. -/
  | notBoolean
  | expectedIntegers (op : BinOp) (left right : Tag)
  | divisionByZero
  | expectedList (found : Tag)
  | expectedInteger (found : Tag)
  | unbound (name : String)
  deriving DecidableEq

def Fault.message : Fault → String
  | stepLimit limit => "step limit of " ++ Text.natText limit ++ " exceeded"
  | cannotApply found => "cannot apply " ++ found.name
  | expectedBoolean found => "expected a boolean, got " ++ found.name
  | notBoolean => "function is not a boolean"
  | expectedIntegers op left right =>
    op.spelling ++ " expects integers, got " ++ left.name ++ " and " ++ right.name
  | divisionByZero => "division by zero"
  | expectedList found => "isnil expects a list, got " ++ found.name
  | expectedInteger found => "neg expects an integer, got " ++ found.name
  | unbound name => "unbound name " ++ name

/-- The message with the label that all faults share. -/
def Fault.text (f : Fault) : String :=
  "RUNTIME ERROR: " ++ f.message

/-! ### Arithmetic -/

/-- An operator on two integers.  Arithmetic wraps at 64 bits and division truncates. -/
def compute (op : BinOp) (x y : Int64) : Except Fault Value :=
  match op with
  | .add => .ok (.int (x + y))
  | .sub => .ok (.int (x - y))
  | .mul => .ok (.int (x * y))
  | .div => if y = 0 then .error .divisionByZero else .ok (.int (x / y))
  | .mod => if y = 0 then .error .divisionByZero else .ok (.int (x % y))
  | .eq => .ok (.bool (x = y))
  | .lt => .ok (.bool (x < y))
  | .and | .or => .error (.expectedIntegers op .int .int)

/-- An operator on two values, which have to be integers. -/
def arith (op : BinOp) : Value → Value → Except Fault Value
  | .int x, .int y => compute op x y
  | l, r => .error (.expectedIntegers op l.tag r.tag)

/-- The operator that a primitive of two arguments is; `cons` is none. -/
def Binary.operator? : Binary → Option BinOp
  | cons => none
  | add => some .add
  | mul => some .mul
  | div => some .div
  | eq => some .eq
  | lt => some .lt

def negate : Value → Except Fault Value
  | .int n => .ok (.int (-n))
  | v => .error (.expectedInteger v.tag)

def testNil : Value → Except Fault Value
  | .nil => .ok (.bool true)
  | .cons _ _ => .ok (.bool false)
  | v => .error (.expectedList v.tag)

end Decombinator.Machine
