/-
Forms of expressions are evaluated as what they abbreviate.

An operator that has a primitive is a call of it, and so are a change of sign and the test for the
empty list.  A list is built by `cons`, a `let` is a call of a function, taking a list apart is a
call of the list, and a call with several arguments is a call of a call.  `expand` writes an
expression without these forms.

The expanded expression is evaluated the same way.  It makes more demands, for primitives and for
functions that it has written itself, and those are answered at once.  Everything else is asked
for on both sides and in the same order, so that faults are the same as well.
-/
import Decombinator.Proofs.ByName.Bisimulation
import Decombinator.Proofs.Expr.Desugaring

namespace Decombinator

/-! ### Expanded expressions -/

namespace Expr

/-- An operator applied to its operands, through its primitive if it has one. -/
def expandOperator (op : BinOp) (l r : Expr) : Expr :=
  match primOf? op with
  | some p => call (call (prim p) [l]) [r]
  | none => binary op l r

mutual

/-- The expression without the forms that abbreviate calls. -/
def expand : Expr → Expr
  | int n => int n
  | sym x => sym x
  | bool b => bool b
  | prim p => prim p
  | list es => expandList es
  | neg a => call (prim .neg) [a.expand]
  | not a => not a.expand
  | isNil a => call (prim .isnil) [a.expand]
  | binary op l r => expandOperator op l.expand r.expand
  | cond c a b => cond c.expand a.expand b.expand
  | matchList v e h t b => matchList v.expand e.expand h t b.expand
  | letCons h t v b => call v.expand [func h [t] b.expand]
  | letIn x v b => call (func x [] b.expand) [v.expand]
  | call f [] => call f.expand []
  | call f (a :: as) => expandCalls (call f.expand [a.expand]) as
  | func p ps b => func p ps b.expand

/-- The elements in front of each other. -/
def expandList : List Expr → Expr
  | [] => list []
  | e :: es => call (call (prim .cons) [e.expand]) [expandList es]

/-- Further arguments, one call for each. -/
def expandCalls (f : Expr) : List Expr → Expr
  | [] => f
  | a :: as => expandCalls (call f [a.expand]) as

end

end Expr

namespace ByName

open Machine

/-! ### The bisimulation -/

mutual

/-- `Expands x x'`: `x'` is `x` with all its expressions expanded, but for the demands that are
answered at once. -/
inductive Expands : Arg → Arg → Prop
  | ready {v v' : Val} (hv : ExpandsVal v v') : Expands (.ready v) (.ready v')
  | expr (e : Expr) {ρ ρ' : Scope} (hρ : ExpandsScope ρ ρ') :
      Expands (.expr e ρ) (.expr e.expand ρ')
  | apply {f f' x x' : Arg} (hf : Expands f f') (hx : Expands x x') :
      Expands (.apply f x) (.apply f' x')
  | call {f x : Arg} {e a : Expr} {ρ : Scope} (hf : Expands f (.expr e ρ))
      (hx : Expands x (.expr a ρ)) : Expands (.apply f x) (.expr (.call e [a]) ρ)
  | func (p : String) (ps : List String) (b : Expr) {ρ ρ' : Scope} (hρ : ExpandsScope ρ ρ') :
      Expands (.ready (.function ρ p ps b)) (.expr (.func p ps b.expand) ρ')
  | list (es : List Expr) {ρ ρ' : Scope} (hρ : ExpandsScope ρ ρ') :
      Expands (.ready (listVal ρ es)) (.expr (Expr.expandList es) ρ')

inductive ExpandsVal : Val → Val → Prop
  | int (n : Int64) : ExpandsVal (.int n) (.int n)
  | bool (b : Bool) : ExpandsVal (.bool b) (.bool b)
  | nil : ExpandsVal .nil .nil
  | probe (first : Bool) : ExpandsVal (.probe first) (.probe first)
  | cons {h h' t t' : Arg} (hh : Expands h h') (ht : Expands t t') :
      ExpandsVal (.cons h t) (.cons h' t')
  | unary (g : Unary) : ExpandsVal (.unary g) (.unary g)
  | binary (g : Binary) : ExpandsVal (.binary g) (.binary g)
  | binary1 (g : Binary) {x x' : Arg} (hx : Expands x x') :
      ExpandsVal (.binary1 g x) (.binary1 g x')
  | ternary (g : Ternary) : ExpandsVal (.ternary g) (.ternary g)
  | ternary1 (g : Ternary) {x x' : Arg} (hx : Expands x x') :
      ExpandsVal (.ternary1 g x) (.ternary1 g x')
  | ternary2 (g : Ternary) {x x' y y' : Arg} (hx : Expands x x') (hy : Expands y y') :
      ExpandsVal (.ternary2 g x y) (.ternary2 g x' y')
  | always {x x' : Arg} (hx : Expands x x') : ExpandsVal (.always x) (.always x')
  | second : ExpandsVal .second .second
  | closure (l p : String) (ps : List String) (b : Expr) {ρ ρ' : Scope}
      (hρ : ExpandsScope ρ ρ') : ExpandsVal (.closure l ρ p ps b) (.closure l ρ' p ps b.expand)

inductive ExpandsScope : Scope → Scope → Prop
  | nil : ExpandsScope [] []
  | cons (x : String) {y y' : Arg} {ρ ρ' : Scope} (hy : Expands y y') (hρ : ExpandsScope ρ ρ') :
      ExpandsScope ((x, y) :: ρ) ((x, y') :: ρ')

end

variable {Γ : Globals} {v v' : Val} {x x' z z' : Arg} {ρ ρ' : Scope}

theorem ExpandsVal.ofPrim (p : Prim) : ExpandsVal (.ofPrim p) (.ofPrim p) := by
  cases p with
  | i | car | cdr | isnil | neg => exact .unary _
  | cons | add | mul | div | eq | lt => exact .binary _
  | b | c | s => exact .ternary _
  | t => exact .bool true
  | nil => exact .nil

theorem ExpandsVal.function (hρ : ExpandsScope ρ ρ') (p : String) (ps : List String) (b : Expr) :
    ExpandsVal (.function ρ p ps b) (.function ρ' p ps b.expand) :=
  .closure _ p ps b hρ

theorem ExpandsVal.form (h : ExpandsVal v v') : Form Eq Expands v v' := by
  cases h with
  | int n => exact .int n
  | bool b => exact .bool b
  | nil => exact .nil
  | probe first => exact .probe first
  | cons hh ht => exact .cons hh ht
  | _ => exact .function rfl rfl rfl

theorem ExpandsScope.lookup (h : ExpandsScope ρ ρ') (x : String) :
    (ρ.lookup x = none ∧ ρ'.lookup x = none) ∨
      ∃ y y', ρ.lookup x = some y ∧ ρ'.lookup x = some y' ∧ Expands y y' := by
  induction ρ generalizing ρ' with
  | nil =>
      cases h
      exact .inl ⟨rfl, rfl⟩
  | cons b ρ ih =>
      cases h with
      | cons z hy hρ =>
          by_cases hxz : x = z
          · exact .inr ⟨_, _, by simp [hxz], by simp [hxz], hy⟩
          · have hne : (x == z) = false := by simpa using hxz
            simpa only [List.lookup_cons, hne] using ih hρ

theorem expands_compatible : Compatible Eq Expands ExpandsVal where
  ready := .ready
  apply := .apply
  int := .int
  bool := .bool
  nil := .nil
  probe := .probe
  cons := .cons
  form := ExpandsVal.form

/-! ### Applications -/

/-- Computations that go the same way, one of them expanded. -/
abbrev Unfolds (Γ : Globals) := Paired Γ Expands ExpandsVal

theorem applied_unfolds (hv : ExpandsVal v v') (hz : Expands z z') :
    Unfolds Γ (v.applied z) (v'.applied z') := by
  cases hv with
  | int n => exact .stuck _
  | bool b =>
      cases b with
      | true => exact .ret (.always hz)
      | false => exact .ret .second
  | nil => exact .ret (.bool true)
  | probe first => exact .ret (.probe first)
  | cons hh ht => exact .of (.apply (.apply hz hh) ht)
  | unary g => exact expands_compatible.appliedUnary g hz
  | binary g => exact .ret (.binary1 g hz)
  | binary1 g hx => exact expands_compatible.appliedBinary g hx hz
  | ternary g => exact .ret (.ternary1 g hz)
  | ternary1 g hx => exact .ret (.ternary2 g hx hz)
  | ternary2 g hx hy => exact expands_compatible.appliedTernary g hx hy hz
  | always hx => exact .of hx
  | second => exact .of hz
  | closure l p ps b hρ =>
      cases ps with
      | nil => exact .of (.expr b (.cons p hz hρ))
      | cons q ps => exact .ret (.closure l q ps b (.cons p hz hρ))

/-- A call of a primitive with one argument. -/
theorem Paired.unaryCall {R : Arg → Arg → Prop} {V : Val → Val → Prop} {n : Next} {a : Expr}
    (g : Unary) (h : Paired Γ R V n (Val.appliedUnary g (.expr a ρ))) :
    Paired Γ R V n (next Γ (.expr (.call (.prim g.prim) [a]) ρ)) := by
  have hprim : Val.ofPrim g.prim = .unary g := by cases g <;> rfl
  refine .right (.inlineRight ?_)
  show Paired Γ R V n ((Val.ofPrim g.prim).applied (.expr a ρ))
  rw [hprim]
  exact h

/-- A call of a primitive with two arguments. -/
theorem Paired.binaryCall {R : Arg → Arg → Prop} {V : Val → Val → Prop} {n : Next} {a b : Expr}
    (g : Binary) (h : Paired Γ R V n (Val.appliedBinary g (.expr a ρ) (.expr b ρ))) :
    Paired Γ R V n (next Γ (.expr (.call (.call (.prim g.prim) [a]) [b]) ρ)) := by
  have hprim : Val.ofPrim g.prim = .binary g := by cases g <;> rfl
  -- the inner call, what it calls and the primitive are each answered at once
  refine .right (.inlineRight (.inlineRight (.inlineRight ?_)))
  show Paired Γ R V n (((Val.ofPrim g.prim).applied (.expr a ρ)).bind fun v => v.applied (.expr b ρ))
  rw [hprim]
  exact h

/-! ### Steps -/

theorem list_unfolds (hρ : ExpandsScope ρ ρ') (es : List Expr) :
    Unfolds Γ (.ret (listVal ρ es)) (next Γ (.expr (Expr.expandList es) ρ')) := by
  cases es with
  | nil => exact .ret .nil
  | cons e es => exact .binaryCall .cons (.ret (.cons (.expr e hρ) (.list es hρ)))

theorem call_unfolds {f : Arg} {e a : Expr} (hf : Expands f (.expr e ρ))
    (hx : Expands x (.expr a ρ)) :
    Unfolds Γ (next Γ (.apply f x)) (next Γ (.expr (.call e [a]) ρ)) :=
  .right (.need hf fun _ _ hv => applied_unfolds hv hx)

theorem calls_unfolds (hρ : ExpandsScope ρ ρ') (as : List Expr) {f : Arg} {e : Expr}
    (hf : Expands f (.expr e ρ')) (hstep : Unfolds Γ (next Γ f) (next Γ (.expr e ρ'))) :
    Unfolds Γ (next Γ (applyAll f (as.map fun a => .expr a ρ)))
      (next Γ (.expr (Expr.expandCalls e as) ρ')) := by
  induction as generalizing f e with
  | nil => exact hstep
  | cons a as ih => exact ih (.call hf (.expr a hρ)) (call_unfolds hf (.expr a hρ))

theorem sym_unfolds {Γ : Frame} (hρ : ExpandsScope ρ ρ') (x : String) :
    Unfolds Γ (next Γ (.expr (.sym x) ρ)) (next Γ (.expr (.sym x) ρ')) := by
  simp only [next, nextExpr]
  obtain ⟨hnone, hnone'⟩ | ⟨y, y', hsome, hsome', hy⟩ := hρ.lookup x
  · rw [hnone, hnone']
    exact expands_compatible.global Γ x
  · rw [hsome, hsome']
    exact .of hy

theorem operation_unfolds (hρ : ExpandsScope ρ ρ') (op : BinOp) (l r : Expr) :
    Unfolds Γ (next Γ (.expr (.binary op l r) ρ))
      (next Γ (.expr (Expr.expandOperator op l.expand r.expand) ρ')) := by
  have hl := Expands.expr l hρ
  have hr := Expands.expr r hρ
  have harith : Unfolds Γ (.need (.expr l ρ) fun v => .need (.expr r ρ) fun w => arith op v w)
      (.need (.expr l.expand ρ') fun v => .need (.expr r.expand ρ') fun w => arith op v w) :=
    .need hl fun _ _ hv => .need hr fun _ _ hw => expands_compatible.arith op hv hw
  have hltruth := expands_compatible.truthOf (Γ := Γ) hl
  have hrtruth := expands_compatible.truthOf (Γ := Γ) hr
  cases op with
  | add => exact .binaryCall .add harith
  | mul => exact .binaryCall .mul harith
  | div => exact .binaryCall .div harith
  | eq => exact .binaryCall .eq harith
  | lt => exact .binaryCall .lt harith
  | sub | mod => exact harith
  | and => exact hltruth.bind fun _ _ hv => expands_compatible.branch hrtruth (.ret (.bool false)) hv
  | or => exact hltruth.bind fun _ _ hv => expands_compatible.branch (.ret (.bool true)) hrtruth hv

/-- An expression asks for what its expansion asks for. -/
theorem expr_unfolds {Γ : Frame} (hρ : ExpandsScope ρ ρ') (e : Expr) :
    Unfolds Γ (next Γ (.expr e ρ)) (next Γ (.expr e.expand ρ')) := by
  have hexpr := fun e => Expands.expr e hρ
  cases e with
  | int n => exact .ret (.int n)
  | sym x => exact sym_unfolds hρ x
  | bool b => exact .ret (.bool b)
  | prim p => exact .ret (.ofPrim p)
  | list es => exact list_unfolds hρ es
  | neg a =>
      refine .unaryCall .neg (.need (hexpr a) fun v v' hv => ?_)
      exact .left (.inlineLeft (.inlineLeft (expands_compatible.negate hv)))
  | not a =>
      exact (expands_compatible.truthOf (hexpr a)).bind fun _ _ hv =>
        expands_compatible.branch (.ret (.bool false)) (.ret (.bool true)) hv
  | isNil a => exact .unaryCall .isnil (.need (hexpr a) fun _ _ hv => expands_compatible.testNil hv)
  | binary op l r => exact operation_unfolds hρ op l r
  | cond c a b =>
      exact (expands_compatible.truthOf (hexpr c)).bind fun _ _ hv =>
        expands_compatible.branch (.of (hexpr a)) (.of (hexpr b)) hv
  | matchList value empty h t b =>
      refine .need (hexpr value) fun v v' hv => ?_
      have happly := Expands.apply (.ready hv) (.ready (.function hρ h [t] b))
      cases hv with
      | nil => exact .of (hexpr empty)
      | _ => exact .of happly
  | letCons h t value b =>
      refine .right (.need (hexpr value) fun v v' hv => ?_)
      exact .left (.inlineLeft (applied_unfolds hv (.func h [t] b hρ)))
  | letIn x value b => exact .right (.inlineRight (.of (.expr b (.cons x (hexpr value) hρ))))
  | call f args =>
      cases args with
      | nil => exact .of (hexpr f)
      | cons a as =>
          have hcall := Expands.call (hexpr f) (hexpr a)
          exact .left (calls_unfolds hρ as hcall (call_unfolds (hexpr f) (hexpr a)))
  | func p ps b => exact .ret (.function hρ p ps b)

theorem Expands.step {Γ : Frame} (h : Expands x x') : Unfolds Γ (next Γ x) (next Γ x') := by
  cases h with
  | ready hv => exact .ret hv
  | expr e hρ => exact expr_unfolds hρ e
  | apply hf hx => exact .need hf fun _ _ hv => applied_unfolds hv hx
  | call hf hx => exact call_unfolds hf hx
  | func p ps b hρ => exact .ret (.function hρ p ps b)
  | list es hρ => exact list_unfolds hρ es

theorem expands_bisimulation (Γ : Frame) : Bisimulation Γ Eq Expands ExpandsVal where
  toCompatible := expands_compatible
  step := Expands.step

/-- **Forms of expressions are evaluated as the calls that they abbreviate.**  With no limit on
steps and with any data as global names, the evaluations of an expression and of its expansion
both go on for ever, or both fail with the same fault, or both have values that are shown as the
same text. -/
theorem comes_expand_iff (e : Expr) (Γ : Frame) (memo : Bool) :
    let policy : Policy := { limit := none, memo := memo }
    (∃! r, Comes policy Γ (fun fuel => evalExpr policy fuel e) r) ∧
      ∀ r, Comes policy Γ (fun fuel => evalExpr policy fuel e) r ↔
        Comes policy Γ (fun fuel => evalExpr policy fuel e.expand) r := by
  intro policy
  have hfollows : ∀ fuel, Follows policy Γ fuel := follows rfl Γ
  refine ⟨(evalExpr_starts hfollows e).exists_unique hfollows, fun r => ?_⟩
  rw [(evalExpr_starts hfollows e).comes_iff hfollows,
    (evalExpr_starts hfollows e.expand).comes_iff hfollows]
  exact (expands_bisimulation Γ).means_iff (.expr e .nil)

end ByName

end Decombinator
