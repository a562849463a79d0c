/-
Code and its lambda term are evaluated alike.

A combinator collects its arguments and then applies them to each other; the function in its
place binds them to its parameters and then evaluates its body.  On the way the function looks
up names, which the combinator does not.  Otherwise they ask for the same things in the same
order, so they fail with the same fault and never one without the other.

What can be told apart is how they are shown: a combinator by its spelling, the function by its
parameter.
-/
import Decombinator.Proofs.ByName.Bisimulation
import Decombinator.Proofs.Meaning.Terms

namespace Decombinator.ByName

open Machine

/-! ### The functions in place of combinators -/

/-- The parameter with a number. -/
def param (k : Nat) : String :=
  Fresh.numbered "x" k

/-- What a combinator of three arguments does with them. -/
def combined : Ternary → String → String → String → Expr
  | .b, x, y, z => .call (.sym x) [.call (.sym y) [.sym z]]
  | .c, x, y, z => .call (.call (.sym x) [.sym z]) [.sym y]
  | .s, x, y, z => .call (.call (.sym x) [.sym z]) [.call (.sym y) [.sym z]]

/-- What a combinator and the function in its place are shown as. -/
inductive Relabelled : String → String → Prop
  | same (l : String) : Relabelled l l
  | identity (k : Nat) : Relabelled Unary.i.prim.spelling ("fun(" ++ param k ++ ")")
  | ternary (g : Ternary) (k : Nat) : Relabelled g.prim.spelling ("fun(" ++ param k ++ ")")

theorem ternary_toExpr (g : Ternary) (taken : List String) (next : Nat) :
    ∃ i j k, i < j ∧ j < k ∧ (Lambda.ofPrim taken next g.prim).1.toExpr =
      .func (param i) [] (.func (param j) [] (.func (param k) []
        (combined g (param i) (param j) (param k)))) := by
  obtain ⟨i, -, hx, -⟩ := Lambda.freshParam_spec taken next
  obtain ⟨j, hj, hy, -⟩ := Lambda.freshParam_spec taken (i + 1)
  obtain ⟨k, hk, hz, -⟩ := Lambda.freshParam_spec taken (j + 1)
  refine ⟨i, j, k, by omega, by omega, ?_⟩
  cases g with
  | _ =>
      simp only [Ternary.prim, Lambda.ofPrim, Lambda.ternary, hx, hy, hz, Lambda.toExpr]
      rfl

theorem lookup_params {i j k : Nat} (hij : i < j) (hjk : j < k) (x y z : Arg) :
    let ρ : Scope := [(param k, z), (param j, y), (param i, x)]
    ρ.lookup (param i) = some x ∧ ρ.lookup (param j) = some y ∧ ρ.lookup (param k) = some z := by
  have hxy := Fresh.numbered_ne_of_lt "x" hij
  have hxz := Fresh.numbered_ne_of_lt "x" (Nat.lt_trans hij hjk)
  have hyz := Fresh.numbered_ne_of_lt "x" hjk
  exact lookup_three (by simp [param, hxy, hxz, hyz]) x y z

/-! ### The bisimulation -/

mutual

/-- `Mirrors x x'`: evaluating `x'` goes the way of evaluating `x`, but for the names that it
looks up. -/
inductive Mirrors : Arg → Arg → Prop
  | ready {v v' : Val} (hv : MirrorsVal v v') : Mirrors (.ready v) (.ready v')
  | code (taken : List String) (c : Code) (next : Nat) :
      Mirrors (.code c) (.expr (Lambda.eliminate taken c next).1.toExpr [])
  | apply {f f' x x' : Arg} (hf : Mirrors f f') (hx : Mirrors x x') :
      Mirrors (.apply f x) (.apply f' x')
  | name {x x' : Arg} {ρ : Scope} {p : String} (hx : Mirrors x x') (hp : ρ.lookup p = some x') :
      Mirrors x (.expr (.sym p) ρ)
  | call {f x : Arg} {e a : Expr} {ρ : Scope} (hf : Mirrors f (.expr e ρ))
      (hx : Mirrors x (.expr a ρ)) : Mirrors (.apply f x) (.expr (.call e [a]) ρ)

inductive MirrorsVal : Val → Val → Prop
  | int (n : Int64) : MirrorsVal (.int n) (.int n)
  | bool (b : Bool) : MirrorsVal (.bool b) (.bool b)
  | nil : MirrorsVal .nil .nil
  | probe (first : Bool) : MirrorsVal (.probe first) (.probe first)
  | cons {h h' t t' : Arg} (hh : Mirrors h h') (ht : Mirrors t t') :
      MirrorsVal (.cons h t) (.cons h' t')
  | unary (g : Unary) : MirrorsVal (.unary g) (.unary g)
  | binary (g : Binary) : MirrorsVal (.binary g) (.binary g)
  | binary1 (g : Binary) {x x' : Arg} (hx : Mirrors x x') :
      MirrorsVal (.binary1 g x) (.binary1 g x')
  | always {x x' : Arg} (hx : Mirrors x x') : MirrorsVal (.always x) (.always x')
  | second : MirrorsVal .second .second
  | identity (k : Nat) :
      MirrorsVal (.unary .i) (.function [] (param k) [] (.sym (param k)))
  | ternary (g : Ternary) {i j k : Nat} (hij : i < j) (hjk : j < k) :
      MirrorsVal (.ternary g) (.function [] (param i) []
        (.func (param j) [] (.func (param k) [] (combined g (param i) (param j) (param k)))))
  | ternary1 (g : Ternary) {i j k : Nat} (hij : i < j) (hjk : j < k) {x x' : Arg}
      (hx : Mirrors x x') :
      MirrorsVal (.ternary1 g x) (.function [(param i, x')] (param j) []
        (.func (param k) [] (combined g (param i) (param j) (param k))))
  | ternary2 (g : Ternary) {i j k : Nat} (hij : i < j) (hjk : j < k) {x x' y y' : Arg}
      (hx : Mirrors x x') (hy : Mirrors y y') :
      MirrorsVal (.ternary2 g x y) (.function [(param j, y'), (param i, x')] (param k) []
        (combined g (param i) (param j) (param k)))

end

variable {Γ : Globals} {v v' : Val} {x x' y y' z z' : Arg}

theorem label_function {ρ : Scope} {p : String} {b : Expr} :
    (Val.function ρ p [] b).label = "fun(" ++ p ++ ")" := by
  show "fun(" ++ String.intercalate ", " [p] ++ ")" = _
  rw [String.intercalate_singleton]

theorem MirrorsVal.form (h : MirrorsVal v v') : Form Relabelled Mirrors v v' := by
  cases h with
  | int n => exact .int n
  | bool b => exact .bool b
  | nil => exact .nil
  | probe first => exact .probe first
  | cons hh ht => exact .cons hh ht
  | identity k => exact .function rfl rfl (label_function ▸ .identity k)
  | ternary g => exact .function rfl rfl (label_function ▸ .ternary g _)
  | ternary1 g => exact .function rfl rfl (label_function ▸ .ternary g _)
  | ternary2 g => exact .function rfl rfl (label_function ▸ .ternary g _)
  | _ => exact .function rfl rfl (.same _)

theorem mirrors_compatible : Compatible Relabelled Mirrors MirrorsVal where
  ready := .ready
  apply := .apply
  int := .int
  bool := .bool
  nil := .nil
  probe := .probe
  cons := .cons
  form := MirrorsVal.form

/-! ### Applications -/

/-- Computations that mirror each other step by step. -/
abbrev Parallel (Γ : Globals) := Paired Γ Mirrors MirrorsVal

/-- A combinator with all its arguments asks for what the body of its function asks for. -/
theorem appliedTernary_parallel (g : Ternary) {i j k : Nat} (hij : i < j) (hjk : j < k)
    (hx : Mirrors x x') (hy : Mirrors y y') (hz : Mirrors z z') :
    Parallel Γ (Val.appliedTernary g x y z) (.of (.expr (combined g (param i) (param j) (param k))
      [(param k, z'), (param j, y'), (param i, x')])) := by
  obtain ⟨hlx, hly, hlz⟩ := lookup_params hij hjk x' y' z'
  have hx := Mirrors.name hx hlx
  have hy := Mirrors.name hy hly
  have hz := Mirrors.name hz hlz
  cases g with
  | b => exact .of (.call hx (.call hy hz))
  | c => exact .of (.call (.call hx hz) hy)
  | s => exact .of (.call (.call hx hz) (.call hy hz))

theorem applied_parallel (hv : MirrorsVal v v') (hz : Mirrors z z') :
    Parallel Γ (v.applied z) (v'.applied z') := by
  cases hv with
  | int n => exact .stuck _
  | bool b =>
      cases b with
      | true => exact .ret (.always hz)
      | false => exact .ret .second
  | nil => exact .ret (.bool true)
  | probe first => exact .ret (.probe first)
  | cons hh ht => exact .of (.apply (.apply hz hh) ht)
  | unary g => exact mirrors_compatible.appliedUnary g hz
  | binary g => exact .ret (.binary1 g hz)
  | binary1 g hx => exact mirrors_compatible.appliedBinary g hx hz
  | always hx => exact .of hx
  | second => exact .of hz
  | identity k => exact .of (.name hz (by simp))
  | ternary g hij hjk => exact .right (.ret (.ternary1 g hij hjk hz))
  | ternary1 g hij hjk hx => exact .right (.ret (.ternary2 g hij hjk hx hz))
  | ternary2 g hij hjk hx hy => exact appliedTernary_parallel g hij hjk hx hy hz

/-! ### Steps -/

theorem ofPrim_parallel (taken : List String) (k : Nat) (p : Prim) :
    Parallel Γ (.ret (.ofPrim p)) (next Γ (.expr (Lambda.ofPrim taken k p).1.toExpr [])) := by
  have hternary : ∀ g : Ternary, Parallel Γ (.ret (.ternary g))
      (next Γ (.expr (Lambda.ofPrim taken k g.prim).1.toExpr [])) := by
    intro g
    obtain ⟨i, j, l, hij, hjl, heq⟩ := ternary_toExpr g taken k
    rw [heq]
    exact .ret (.ternary g hij hjl)
  cases p with
  | i => exact .ret (.identity _)
  | b => exact hternary .b
  | c => exact hternary .c
  | s => exact hternary .s
  | t => exact .ret (.bool true)
  | nil => exact .ret .nil
  | cons | add | mul | div | eq | lt => exact .ret (.binary _)
  | car | cdr | isnil | neg => exact .ret (.unary _)

/-- Code asks for what its lambda term asks for. -/
theorem code_parallel {Γ : Frame} (taken : List String) (c : Code) (k : Nat) :
    Parallel Γ (next Γ (.code c)) (next Γ (.expr (Lambda.eliminate taken c k).1.toExpr [])) := by
  cases c with
  | int n => exact .ret (.int n)
  | sym s => exact mirrors_compatible.global Γ s
  | prim p => exact ofPrim_parallel taken k p
  | ap f a =>
      have ha := Mirrors.code taken a (Lambda.eliminate taken f k).2
      exact .right (.need (.code taken f k) fun v v' hv => applied_parallel hv ha)

theorem Mirrors.step {Γ : Frame} {x x' : Arg} (h : Mirrors x x') : Parallel Γ (next Γ x) (next Γ x') := by
  -- values are not taken apart here
  induction h using Mirrors.rec (motive_2 := fun _ _ _ => True) with
  | ready hv _ => exact .ret hv
  | code taken c k => exact code_parallel taken c k
  | apply hf hx _ _ => exact .need hf fun _ _ hv => applied_parallel hv hx
  | name _ hp ih =>
      rw [next, nextExpr, hp]
      exact .right ih
  | call hf hx _ _ => exact .right (.need hf fun _ _ hv => applied_parallel hv hx)
  | _ => trivial

theorem mirrors_bisimulation (Γ : Frame) : Bisimulation Γ Relabelled Mirrors MirrorsVal where
  toCompatible := mirrors_compatible
  step := Mirrors.step

/-- **Code and its lambda term are evaluated alike.**  With no limit on steps and with any data
as global names, both evaluations go on for ever, or both fail with the same fault, or both have
values; and those are shown as the same text, up to the names of the functions in it. -/
theorem comes_ofCode (c : Code) (Γ : Frame) (memo : Bool) :
    let policy : Policy := { limit := none, memo := memo }
    ∃ r r', Comes policy Γ (fun fuel => evalCode policy fuel c) r ∧
      Comes policy Γ (fun fuel => evalExpr policy fuel (Lambda.ofCode c).toExpr) r' ∧
      r.Alike Relabelled r' := by
  intro policy
  have hfollows : ∀ fuel, Follows policy Γ fuel := follows rfl Γ
  obtain ⟨r, hr⟩ := exists_means Γ (.code c)
  obtain ⟨r', hr', halike⟩ := (mirrors_bisimulation Γ).means hr (.code c.symbols c 0)
  exact ⟨r, r', hr.comes hfollows (evalCode_starts hfollows c),
    hr'.comes hfollows (evalExpr_starts hfollows _), halike⟩

end Decombinator.ByName
