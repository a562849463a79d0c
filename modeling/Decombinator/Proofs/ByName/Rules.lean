/-
Evaluation by name, without a memory.

The machine suspends arguments in memory and keeps their outcomes there, so that its values
mean something only together with a memory.  Here arguments are the computations
themselves: an argument that is used twice is evaluated twice.  Nothing else changes, and
what the machine computes is what these rules say (`Proofs/ByName/Machine.lean`), down to the
fault with which it fails.

A computation is described by what it asks for.  `next` says, without recursion, which
argument has to be evaluated next and how to go on with its value.  That leaves three rules
of evaluation: a value is its own result, so is a fault, and a demand is met by evaluating
what it asks for.  `Concludes` counts the demands that are met on the way.
-/
import Decombinator.Machine.Eval

namespace Decombinator.ByName

open Machine

/-! ### Values and computations -/

mutual

/-- A value evaluated as far as its outermost form. -/
inductive Val
  | int (n : Int64)
  | bool (b : Bool)
  | nil
  | cons (head tail : Arg)
  | unary (f : Unary)
  | binary (f : Binary)
  | binary1 (f : Binary) (x : Arg)
  | ternary (f : Ternary)
  | ternary1 (f : Ternary) (x : Arg)
  | ternary2 (f : Ternary) (x y : Arg)
  | always (x : Arg)
  | second
  /-- `label` is what the function is shown as. -/
  | closure (label : String) (env : List (String × Arg)) (param : String) (rest : List String)
      (body : Expr)
  | probe (first : Bool)

/-- A computation that may be asked for a value. -/
inductive Arg
  | ready (v : Val)
  | code (c : Code)
  | expr (e : Expr) (env : List (String × Arg))
  | apply (f x : Arg)

end

/-- The names in scope and what they stand for, the innermost first. -/
abbrev Scope := List (String × Arg)

/-- What the global names stand for. -/
structure Globals where
  lookup : String → Option Arg
  /-- What is raised by a name that stands for nothing. -/
  fault : String → Fault := .unbound

def Val.ofPrim : Prim → Val
  | .i => .unary .i
  | .car => .unary .car
  | .cdr => .unary .cdr
  | .isnil => .unary .isnil
  | .neg => .unary .neg
  | .cons => .binary .cons
  | .add => .binary .add
  | .mul => .binary .mul
  | .div => .binary .div
  | .eq => .binary .eq
  | .lt => .binary .lt
  | .b => .ternary .b
  | .c => .ternary .c
  | .s => .ternary .s
  | .t => .bool true
  | .nil => .nil

/-- The function with the given parameters. -/
def Val.function (env : Scope) (param : String) (rest : List String) (body : Expr) : Val :=
  .closure (Value.function [] param rest body).label env param rest body

def Val.tag : Val → Tag
  | .int _ => .int
  | .bool _ => .bool
  | .nil => .nil
  | .cons _ _ => .cons
  | .probe _ => .probe
  | .unary _ | .binary _ | .binary1 _ _ | .ternary _ | .ternary1 _ _ | .ternary2 _ _ _
  | .always _ | .second | .closure _ _ _ _ _ => .function

/-- What a function is shown as. -/
def Val.label : Val → String
  | .unary f => f.prim.spelling
  | .binary f | .binary1 f _ => f.prim.spelling
  | .ternary f | .ternary1 f _ | .ternary2 f _ _ => f.prim.spelling
  | .always _ => "t1"
  | .second => "f1"
  | .closure label _ _ _ _ => label
  | .int _ | .bool _ | .nil | .cons _ _ | .probe _ => ""

/-- The values that are neither data nor probes. -/
def Val.isFunction : Val → Bool
  | .int _ | .bool _ | .nil | .cons _ _ | .probe _ => false
  | _ => true

/-- What a computation asks for next. -/
inductive Next
  | ret (v : Val)
  /-- No value, and why. -/
  | stuck (f : Fault)
  | need (x : Arg) (k : Val → Next)

namespace Next

/-- Goes on with the value of a computation. -/
def bind : Next → (Val → Next) → Next
  | ret v, k => k v
  | stuck f, _ => stuck f
  | need x f, k => need x fun v => (f v).bind k

/-- Goes on with the result of a computation, if that is a value. -/
def follow : Except Fault Val → (Val → Next) → Next
  | .ok v, k => k v
  | .error f, _ => stuck f

/-- The value of an argument. -/
def of (x : Arg) : Next :=
  need x ret

/-- Chooses by a boolean.  Nothing else is ever chosen by. -/
def branch (yes no : Next) : Val → Next
  | .bool true => yes
  | .bool false => no
  | _ => stuck .notBoolean

/-- The integer or boolean that an operator computed, if it did.  It computes nothing else. -/
def computed : Except Fault Value → Next
  | .ok (.int n) => ret (.int n)
  | .ok (.bool b) => ret (.bool b)
  | .ok v => stuck (.expectedInteger v.tag)
  | .error f => stuck f

end Next

open Next

/-! ### The rules -/

def arith (op : BinOp) : Val → Val → Next
  | .int x, .int y => computed (compute op x y)
  | l, r => stuck (.expectedIntegers op l.tag r.tag)

def testNil : Val → Next
  | .nil => ret (.bool true)
  | .cons _ _ => ret (.bool false)
  | v => stuck (.expectedList v.tag)

def negate : Val → Next
  | .int n => ret (.int (-n))
  | v => stuck (.expectedInteger v.tag)

def Val.appliedUnary : Unary → Arg → Next
  | .i, x => of x
  | .car, x => need x fun
    | .cons head _ => of head
    | v => of (.apply (.ready v) (.ready (.bool true)))
  | .cdr, x => need x fun
    | .cons _ tail => of tail
    | v => of (.apply (.ready v) (.ready (.bool false)))
  | .isnil, x => need x testNil
  | .neg, x => need x negate

def Val.appliedBinary (g : Binary) (x y : Arg) : Next :=
  match g.operator? with
  | none => ret (.cons x y)
  | some op => need x fun a => need y fun b => arith op a b

def Val.appliedTernary : Ternary → Arg → Arg → Arg → Next
  | .b, x, y, z => of (.apply x (.apply y z))
  | .c, x, y, z => of (.apply (.apply x z) y)
  | .s, x, y, z => of (.apply (.apply x z) (.apply y z))

/-- A value applied to an argument. -/
def Val.applied : Val → Arg → Next
  | .int _, _ => stuck (.cannotApply .int)
  | .bool true, x => ret (.always x)
  | .bool false, _ => ret .second
  | .nil, _ => ret (.bool true)
  | .cons head tail, x => of (.apply (.apply x head) tail)
  | .unary g, x => Val.appliedUnary g x
  | .binary g, x => ret (.binary1 g x)
  | .binary1 g a, x => Val.appliedBinary g a x
  | .ternary g, x => ret (.ternary1 g x)
  | .ternary1 g a, x => ret (.ternary2 g a x)
  | .ternary2 g a b, x => Val.appliedTernary g a b x
  | .always y, _ => of y
  | .second, x => of x
  | .closure _ env p [] body, x => of (.expr body ((p, x) :: env))
  | .closure label env p (q :: rest) body, x =>
    ret (.closure label ((p, x) :: env) q rest body)
  | .probe first, _ => ret (.probe first)

section applied

variable {x y z : Arg}

@[simp] theorem Val.applied_true : (Val.bool true).applied x = ret (.always x) :=
  rfl

@[simp] theorem Val.applied_false : (Val.bool false).applied x = ret .second :=
  rfl

@[simp] theorem Val.applied_nil : Val.nil.applied x = ret (.bool true) :=
  rfl

@[simp] theorem Val.applied_cons : (Val.cons x y).applied z = of (.apply (.apply z x) y) :=
  rfl

@[simp] theorem Val.applied_unary {g : Unary} : (Val.unary g).applied x = appliedUnary g x :=
  rfl

@[simp] theorem Val.applied_binary {g : Binary} : (Val.binary g).applied x = ret (.binary1 g x) :=
  rfl

@[simp] theorem Val.applied_binary1 {g : Binary} :
    (Val.binary1 g x).applied y = appliedBinary g x y :=
  rfl

@[simp] theorem Val.applied_ternary {g : Ternary} :
    (Val.ternary g).applied x = ret (.ternary1 g x) :=
  rfl

@[simp] theorem Val.applied_ternary1 {g : Ternary} :
    (Val.ternary1 g x).applied y = ret (.ternary2 g x y) :=
  rfl

@[simp] theorem Val.applied_ternary2 {g : Ternary} :
    (Val.ternary2 g x y).applied z = appliedTernary g x y z :=
  rfl

@[simp] theorem Val.applied_always : (Val.always x).applied y = of x :=
  rfl

@[simp] theorem Val.applied_second : Val.second.applied x = of x :=
  rfl

@[simp] theorem Val.applied_closure {l : String} {env : Scope} {p : String} {b : Expr} :
    (Val.closure l env p [] b).applied x = of (.expr b ((p, x) :: env)) :=
  rfl

@[simp] theorem Val.applied_closure_cons {l : String} {env : Scope} {p q : String}
    {ps : List String} {b : Expr} :
    (Val.closure l env p (q :: ps) b).applied x = ret (.closure l ((p, x) :: env) q ps b) :=
  rfl

@[simp] theorem Val.applied_function {env : Scope} {p : String} {b : Expr} :
    (Val.function env p [] b).applied x = of (.expr b ((p, x) :: env)) :=
  rfl

end applied

/-- What a function gives when it is applied to the two probes. -/
def probed (x : Arg) : Arg :=
  .apply (.apply x (.ready (.probe true))) (.ready (.probe false))

/-- The boolean that a value is, as a value. -/
def truth (v : Val) : Next :=
  match v with
  | .bool b => ret (.bool b)
  | v =>
    if v.isFunction then
      need (probed (.ready v)) fun
        | .probe first => ret (.bool first)
        | _ => stuck .notBoolean
    else stuck (.expectedBoolean v.tag)

theorem truth_function {v : Val} (hv : v.isFunction) : truth v = need (probed (.ready v)) fun
    | .probe first => ret (.bool first)
    | _ => stuck .notBoolean := by
  cases v with
  | _ => first | rfl | cases hv

def truthOf (e : Expr) (env : Scope) : Next :=
  need (.expr e env) truth

def listVal (env : Scope) : List Expr → Val
  | [] => .nil
  | e :: es => .cons (.expr e env) (.ready (listVal env es))

/-- A function applied to arguments in turn. -/
def applyAll (f : Arg) (args : List Arg) : Arg :=
  args.foldl .apply f

def global (Γ : Globals) (x : String) : Next :=
  match Γ.lookup x with
  | some y => of y
  | none => stuck (Γ.fault x)

def nextCode (Γ : Globals) : Code → Next
  | .int n => ret (.int n)
  | .sym x => global Γ x
  | .prim p => ret (.ofPrim p)
  | .ap f x => need (.code f) fun v => v.applied (.code x)

def nextExpr (Γ : Globals) (env : Scope) : Expr → Next
  | .int n => ret (.int n)
  | .bool b => ret (.bool b)
  | .prim p => ret (.ofPrim p)
  | .func p ps b => ret (.function env p ps b)
  | .list es => ret (listVal env es)
  | .sym x =>
    match env.lookup x with
    | some y => of y
    | none => global Γ x
  | .neg a => need (.expr a env) fun v => of (.apply (.ready (.unary .neg)) (.ready v))
  | .not a => (truthOf a env).bind (branch (ret (.bool false)) (ret (.bool true)))
  | .isNil a => need (.expr a env) testNil
  | .binary .and l r => (truthOf l env).bind (branch (truthOf r env) (ret (.bool false)))
  | .binary .or l r => (truthOf l env).bind (branch (ret (.bool true)) (truthOf r env))
  | .binary op l r => need (.expr l env) fun a => need (.expr r env) fun b => arith op a b
  | .cond test yes no => (truthOf test env).bind (branch (of (.expr yes env)) (of (.expr no env)))
  | .matchList value empty h t b => need (.expr value env) fun
    | .nil => of (.expr empty env)
    | v => of (.apply (.ready v) (.ready (.function env h [t] b)))
  | .letCons h t value b => need (.expr value env) fun v =>
    of (.apply (.ready v) (.ready (.function env h [t] b)))
  | .letIn x value b => of (.expr b ((x, .expr value env) :: env))
  | .call f args => of (applyAll (.expr f env) (args.map fun a => .expr a env))

/-- What a computation asks for next. -/
def next (Γ : Globals) : Arg → Next
  | .ready v => ret v
  | .code c => nextCode Γ c
  | .expr e env => nextExpr Γ env e
  | .apply f x => need f fun v => v.applied x

/-- `Concludes Γ n c r`: following `n` gives the value `r`, or fails with the fault `r`, after
`c` demands. -/
inductive Concludes (Γ : Globals) : Next → Nat → Except Fault Val → Prop
  | ret (v : Val) : Concludes Γ (ret v) 0 (.ok v)
  | stuck (f : Fault) : Concludes Γ (stuck f) 0 (.error f)
  | need {x : Arg} {k : Val → Next} {c d : Nat} {r s : Except Fault Val}
      (hx : Concludes Γ (next Γ x) c r) (hk : Concludes Γ (follow r k) d s) :
      Concludes Γ (need x k) (c + d + 1) s

/-- `Yields Γ n c v`: following `n` gives `v`, after `c` demands. -/
def Yields (Γ : Globals) (n : Next) (c : Nat) (v : Val) : Prop :=
  Concludes Γ n c (.ok v)

/-- Following `n` gives `v`. -/
def Gives (Γ : Globals) (n : Next) (v : Val) : Prop :=
  ∃ c, Yields Γ n c v

/-- Following `n` fails with `f`. -/
def Raises (Γ : Globals) (n : Next) (f : Fault) : Prop :=
  ∃ c, Concludes Γ n c (.error f)

/-- The value of a computation. -/
def Evals (Γ : Globals) (x : Arg) (v : Val) : Prop :=
  Gives Γ (next Γ x) v

variable {Γ : Globals}

/-! ### Inversion -/

section Concludes

variable {x : Arg} {n : Next} {k : Val → Next} {c c' : Nat} {v w : Val} {f : Fault}
  {r s : Except Fault Val}

@[simp] theorem concludes_ret : Concludes Γ (ret v) c r ↔ c = 0 ∧ .ok v = r := by
  constructor
  · rintro ⟨⟩
    exact ⟨rfl, rfl⟩
  · rintro ⟨rfl, rfl⟩
    exact .ret v

@[simp] theorem concludes_stuck : Concludes Γ (stuck f) c r ↔ c = 0 ∧ .error f = r := by
  constructor
  · rintro ⟨⟩
    exact ⟨rfl, rfl⟩
  · rintro ⟨rfl, rfl⟩
    exact .stuck f

theorem concludes_need : Concludes Γ (need x k) c s ↔
    ∃ c₁ r c₂, Concludes Γ (next Γ x) c₁ r ∧ Concludes Γ (follow r k) c₂ s ∧
      c = c₁ + c₂ + 1 := by
  constructor
  · rintro ⟨⟩
    exact ⟨_, _, _, ‹_›, ‹_›, rfl⟩
  · rintro ⟨c₁, r, c₂, hx, hk, rfl⟩
    exact .need hx hk

theorem concludes_bind : Concludes Γ (n.bind k) c s ↔
    ∃ c₁ r c₂, Concludes Γ n c₁ r ∧ Concludes Γ (follow r k) c₂ s ∧ c = c₁ + c₂ := by
  induction n generalizing c with
  | ret v =>
      constructor
      · intro h
        exact ⟨0, .ok v, c, .ret v, h, by omega⟩
      · rintro ⟨c₁, r, c₂, hn, hk, rfl⟩
        obtain ⟨rfl, rfl⟩ := concludes_ret.mp hn
        rw [Nat.zero_add]
        exact hk
  | stuck f =>
      constructor
      · intro h
        exact ⟨0, .error f, c, .stuck f, h, by omega⟩
      · rintro ⟨c₁, r, c₂, hn, hk, rfl⟩
        obtain ⟨rfl, rfl⟩ := concludes_stuck.mp hn
        rw [Nat.zero_add]
        exact hk
  | need x f ih =>
      have hbind : ∀ (r : Except Fault Val) (c₂ : Nat),
          Concludes Γ (follow r fun v => (f v).bind k) c₂ s ↔
            ∃ d₁ u d₂, Concludes Γ (follow r f) d₁ u ∧ Concludes Γ (follow u k) d₂ s ∧
              c₂ = d₁ + d₂ := by
        intro r c₂
        cases r with
        | ok v => exact ih v
        | error e =>
            constructor
            · intro h
              exact ⟨0, .error e, c₂, .stuck e, h, by omega⟩
            · rintro ⟨d₁, u, d₂, hu, hk, rfl⟩
              obtain ⟨rfl, rfl⟩ := concludes_stuck.mp hu
              rw [Nat.zero_add]
              exact hk
      simp only [Next.bind, concludes_need, hbind]
      constructor
      · rintro ⟨c₁, r, _, hx, ⟨d₁, u, d₂, hf, hk, rfl⟩, rfl⟩
        exact ⟨c₁ + d₁ + 1, u, d₂, ⟨c₁, r, d₁, hx, hf, rfl⟩, hk, by omega⟩
      · rintro ⟨_, u, d₂, ⟨c₁, r, d₁, hx, hf, rfl⟩, hk, rfl⟩
        exact ⟨c₁, r, d₁ + d₂, hx, ⟨d₁, u, d₂, hf, hk, rfl⟩, by omega⟩

theorem concludes_of : Concludes Γ (of x) c r ↔ ∃ c', Concludes Γ (next Γ x) c' r ∧ c = c' + 1 := by
  have hret : ∀ (s : Except Fault Val) (d : Nat), Concludes Γ (follow s ret) d r ↔ d = 0 ∧ s = r := by
    intro s d
    cases s with
    | ok v => exact concludes_ret
    | error f => exact concludes_stuck
  rw [of, concludes_need]
  constructor
  · rintro ⟨c₁, s, c₂, hx, hk, rfl⟩
    obtain ⟨rfl, rfl⟩ := (hret s c₂).mp hk
    exact ⟨c₁, hx, rfl⟩
  · rintro ⟨c', hx, rfl⟩
    exact ⟨c', r, 0, hx, (hret r 0).mpr ⟨rfl, rfl⟩, rfl⟩

/-- A computation ends in one way at most, at one cost. -/
theorem Concludes.unique (h : Concludes Γ n c r) (h' : Concludes Γ n c' s) : c = c' ∧ r = s := by
  induction h generalizing c' s with
  | ret v =>
      obtain ⟨rfl, rfl⟩ := concludes_ret.mp h'
      exact ⟨rfl, rfl⟩
  | stuck f =>
      obtain ⟨rfl, rfl⟩ := concludes_stuck.mp h'
      exact ⟨rfl, rfl⟩
  | need _ _ ihx ihk =>
      obtain ⟨c₁, u, c₂, hx, hk, rfl⟩ := concludes_need.mp h'
      obtain ⟨rfl, rfl⟩ := ihx hx
      obtain ⟨rfl, rfl⟩ := ihk hk
      exact ⟨rfl, rfl⟩

/-- What follows a demand that fails is that failure. -/
theorem Raises.need (h : Raises Γ (next Γ x) f) : Raises Γ (.need x k) f := by
  obtain ⟨c, hx⟩ := h
  exact ⟨_, .need hx (.stuck f)⟩

theorem Raises.bind (h : Raises Γ n f) : Raises Γ (n.bind k) f := by
  obtain ⟨c, hn⟩ := h
  exact ⟨c, concludes_bind.mpr ⟨c, .error f, 0, hn, .stuck f, rfl⟩⟩

/-! ### Values -/

theorem Yields.ret (v : Val) : Yields Γ (ret v) 0 v :=
  Concludes.ret v

theorem Yields.need {d : Nat} (hx : Yields Γ (next Γ x) c v) (hk : Yields Γ (k v) d w) :
    Yields Γ (need x k) (c + d + 1) w :=
  Concludes.need hx hk

@[simp] theorem yields_ret : Yields Γ (ret v) c w ↔ c = 0 ∧ v = w := by
  unfold Yields
  rw [concludes_ret, Except.ok.injEq]

@[simp] theorem not_yields_stuck : ¬ Yields Γ (stuck f) c w := by
  rintro ⟨⟩

theorem yields_follow : Yields Γ (follow r k) c w ↔ ∃ v, r = .ok v ∧ Yields Γ (k v) c w := by
  cases r with
  | ok v => simp [follow]
  | error f => simp [follow]

theorem yields_need : Yields Γ (need x k) c w ↔
    ∃ c₁ v c₂, Yields Γ (next Γ x) c₁ v ∧ Yields Γ (k v) c₂ w ∧ c = c₁ + c₂ + 1 := by
  constructor
  · intro h
    obtain ⟨c₁, r, c₂, hx, hk, rfl⟩ := concludes_need.mp h
    obtain ⟨v, rfl, hk⟩ := yields_follow.mp hk
    exact ⟨c₁, v, c₂, hx, hk, rfl⟩
  · rintro ⟨c₁, v, c₂, hx, hk, rfl⟩
    exact .need hx hk

theorem yields_bind : Yields Γ (n.bind k) c w ↔
    ∃ c₁ v c₂, Yields Γ n c₁ v ∧ Yields Γ (k v) c₂ w ∧ c = c₁ + c₂ := by
  constructor
  · intro h
    obtain ⟨c₁, r, c₂, hn, hk, rfl⟩ := concludes_bind.mp h
    obtain ⟨v, rfl, hk⟩ := yields_follow.mp hk
    exact ⟨c₁, v, c₂, hn, hk, rfl⟩
  · rintro ⟨c₁, v, c₂, hn, hk, rfl⟩
    exact concludes_bind.mpr ⟨c₁, .ok v, c₂, hn, hk, rfl⟩

/-- A computation has at most one value, at one cost. -/
theorem Yields.unique (h : Yields Γ n c v) (h' : Yields Γ n c' w) : c = c' ∧ v = w := by
  obtain ⟨hc, hv⟩ := Concludes.unique h h'
  exact ⟨hc, Except.ok.inj hv⟩

end Concludes

/-! ### Values whatever they cost -/

section Gives

variable {n : Next} {x z : Arg} {K : Val → Next} {v w : Val}

@[simp] theorem gives_ret : Gives Γ (.ret v) w ↔ v = w := by
  constructor
  · rintro ⟨c, h⟩
    exact (yields_ret.mp h).2
  · rintro rfl
    exact ⟨0, .ret v⟩

@[simp] theorem not_gives_stuck {f : Fault} : ¬ Gives Γ (.stuck f) w :=
  fun ⟨_, h⟩ => not_yields_stuck h

@[simp] theorem gives_need : Gives Γ (.need x K) w ↔ ∃ v, Evals Γ x v ∧ Gives Γ (K v) w := by
  constructor
  · rintro ⟨c, h⟩
    obtain ⟨c₁, v, c₂, hx, hk, -⟩ := yields_need.mp h
    exact ⟨v, ⟨c₁, hx⟩, c₂, hk⟩
  · rintro ⟨v, ⟨c₁, hx⟩, c₂, hk⟩
    exact ⟨_, .need hx hk⟩

@[simp] theorem gives_bind : Gives Γ (n.bind K) w ↔ ∃ v, Gives Γ n v ∧ Gives Γ (K v) w := by
  constructor
  · rintro ⟨c, h⟩
    obtain ⟨c₁, v, c₂, hn, hk, -⟩ := yields_bind.mp h
    exact ⟨v, ⟨c₁, hn⟩, c₂, hk⟩
  · rintro ⟨v, ⟨c₁, hn⟩, c₂, hk⟩
    exact ⟨_, yields_bind.mpr ⟨c₁, v, c₂, hn, hk, rfl⟩⟩

@[simp] theorem gives_of : Gives Γ (.of x) w ↔ Evals Γ x w := by
  simp [Next.of]

@[simp] theorem evals_ready : Evals Γ (.ready v) w ↔ v = w :=
  gives_ret

@[simp] theorem evals_apply :
    Evals Γ (.apply x z) w ↔ ∃ v, Evals Γ x v ∧ Gives Γ (v.applied z) w :=
  gives_need

theorem Gives.unique {w' : Val} (h : Gives Γ n w) (h' : Gives Γ n w') : w = w' := by
  obtain ⟨c, h⟩ := h
  obtain ⟨c', h'⟩ := h'
  exact (h.unique h').2

theorem Evals.unique (h : Evals Γ x v) (h' : Evals Γ x w) : v = w :=
  Gives.unique h h'

/-- Going on with a value that is known. -/
theorem gives_bind_iff (h : Gives Γ n v) : Gives Γ (n.bind K) w ↔ Gives Γ (K v) w := by
  rw [gives_bind]
  exact ⟨fun ⟨_, hu, hw⟩ => h.unique hu ▸ hw, fun hw => ⟨v, h, hw⟩⟩

theorem gives_need_iff (h : Evals Γ x v) : Gives Γ (.need x K) w ↔ Gives Γ (K v) w := by
  rw [gives_need]
  exact ⟨fun ⟨_, hu, hw⟩ => h.unique hu ▸ hw, fun hw => ⟨v, h, hw⟩⟩

end Gives

/-! ### Computations that differ in cost only -/

/-- One computation is another one with `d` more demands. -/
def Shift (Γ : Globals) (d : Nat) (n n' : Next) : Prop :=
  ∀ c r, Concludes Γ n c r ↔ ∃ c', Concludes Γ n' c' r ∧ c = c' + d

namespace Shift

variable {d d' c : Nat} {n n' n'' : Next} {x y : Arg} {k : Val → Next} {v : Val}

theorem refl (n : Next) : Shift Γ 0 n n :=
  fun c _ => ⟨fun h => ⟨c, h, rfl⟩, fun ⟨_, h, hc⟩ => hc ▸ h⟩

theorem trans (h : Shift Γ d n n') (h' : Shift Γ d' n' n'') : Shift Γ (d + d') n n'' := by
  intro c r
  rw [h c r]
  constructor
  · rintro ⟨c₁, h₁, rfl⟩
    obtain ⟨c₂, h₂, rfl⟩ := (h' c₁ r).mp h₁
    exact ⟨c₂, h₂, by omega⟩
  · rintro ⟨c₂, h₂, rfl⟩
    exact ⟨c₂ + d', (h' _ r).mpr ⟨c₂, h₂, rfl⟩, by omega⟩

theorem of (x : Arg) : Shift Γ 1 (of x) (next Γ x) :=
  fun _ _ => concludes_of

theorem need (h : Shift Γ d (next Γ x) (next Γ y)) : Shift Γ d (need x k) (need y k) := by
  intro c s
  simp only [concludes_need, h _ _]
  constructor
  · rintro ⟨_, r, c₂, ⟨c₁, hy, rfl⟩, hk, rfl⟩
    exact ⟨c₁ + c₂ + 1, ⟨c₁, r, c₂, hy, hk, rfl⟩, by omega⟩
  · rintro ⟨_, ⟨c₁, r, c₂, hy, hk, rfl⟩, rfl⟩
    exact ⟨c₁ + d, r, c₂, ⟨c₁, hy, rfl⟩, hk, by omega⟩

/-- A demand that is met. -/
theorem met (h : Shift Γ d (next Γ x) (ret v)) : Shift Γ (d + 1) (Next.need x k) (k v) := by
  intro c s
  simp only [concludes_need, h _ _, concludes_ret]
  constructor
  · rintro ⟨_, r, c₂, ⟨_, ⟨rfl, rfl⟩, rfl⟩, hk, rfl⟩
    exact ⟨c₂, hk, by omega⟩
  · rintro ⟨c₂, hk, rfl⟩
    exact ⟨d, .ok v, c₂, ⟨0, ⟨rfl, rfl⟩, by omega⟩, hk, by omega⟩

theorem bind (h : Shift Γ d n n') : Shift Γ d (n.bind k) (n'.bind k) := by
  intro c s
  simp only [concludes_bind, h _ _]
  constructor
  · rintro ⟨_, r, c₂, ⟨c₁, hn, rfl⟩, hk, rfl⟩
    exact ⟨c₁ + c₂, ⟨c₁, r, c₂, hn, hk, rfl⟩, by omega⟩
  · rintro ⟨_, ⟨c₁, r, c₂, hn, hk, rfl⟩, rfl⟩
    exact ⟨c₁ + d, r, c₂, ⟨c₁, hn, rfl⟩, hk, by omega⟩

theorem apply {z : Arg} (h : Shift Γ d (next Γ x) (next Γ y)) :
    Shift Γ d (next Γ (.apply x z)) (next Γ (.apply y z)) :=
  h.need

theorem applyAll {args : List Arg} (h : Shift Γ d (next Γ x) (next Γ y)) :
    Shift Γ d (next Γ (applyAll x args)) (next Γ (applyAll y args)) := by
  induction args generalizing x y with
  | nil => exact h
  | cons z args ih => exact ih h.apply

/-- What a computation gives does not depend on what it costs. -/
theorem gives_iff (h : Shift Γ d n n') : Gives Γ n v ↔ Gives Γ n' v := by
  constructor
  · rintro ⟨c, hc⟩
    obtain ⟨c', hc', -⟩ := (h c (.ok v)).mp hc
    exact ⟨c', hc'⟩
  · rintro ⟨c, hc⟩
    exact ⟨c + d, (h _ _).mpr ⟨c, hc, rfl⟩⟩

end Shift

end Decombinator.ByName
