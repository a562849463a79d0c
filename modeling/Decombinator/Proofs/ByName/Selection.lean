/-
What a function that tells two probes apart does to other arguments.

A function passes for a boolean if it returns one of two probes.  To learn what it does to two
arbitrary arguments, it is run three times side by side: on the probes, on two integers and on the
arguments.  The runs go in lockstep as long as none of them looks at what it was given, and there
are few ways of looking.  A probe can be applied, as it absorbs arguments, and it can be the outcome
of a test of a function; an integer cannot be applied, and it is no outcome of a test.  All else
that can be done to integers fails on probes.  So either the run on integers fails, or no run ever
looks at what it was given, and then the function hands out one of its arguments as it is.

Tests apply functions to probes of their own.  These are the same in all runs and never leave the
test, so that the runs are told apart by whether they are inside of one.
-/
import Decombinator.Proofs.ByName.Rules

namespace Decombinator.ByName

open Machine Next

/-! ### Three runs -/

/-- What two of the runs are given where the other one is given probes. -/
structure Given where
  int : Bool → Int64
  arg : Bool → Arg

mutual

/-- Values that three runs have at the same point.  Probes of a test occur only inside of one. -/
inductive TripleVal (Γ : Globals) (σ : Given) (test : Bool) : Val → Val → Val → Prop
  | int (n : Int64) : TripleVal Γ σ test (.int n) (.int n) (.int n)
  | bool (b : Bool) : TripleVal Γ σ test (.bool b) (.bool b) (.bool b)
  | nil : TripleVal Γ σ test .nil .nil .nil
  | cons {h₁ h₂ h₃ t₁ t₂ t₃ : Arg} (hh : Triple Γ σ test h₁ h₂ h₃) (ht : Triple Γ σ test t₁ t₂ t₃) :
      TripleVal Γ σ test (.cons h₁ t₁) (.cons h₂ t₂) (.cons h₃ t₃)
  | unary (f : Unary) : TripleVal Γ σ test (.unary f) (.unary f) (.unary f)
  | binary (f : Binary) : TripleVal Γ σ test (.binary f) (.binary f) (.binary f)
  | binary1 (f : Binary) {x₁ x₂ x₃ : Arg} (hx : Triple Γ σ test x₁ x₂ x₃) :
      TripleVal Γ σ test (.binary1 f x₁) (.binary1 f x₂) (.binary1 f x₃)
  | ternary (f : Ternary) : TripleVal Γ σ test (.ternary f) (.ternary f) (.ternary f)
  | ternary1 (f : Ternary) {x₁ x₂ x₃ : Arg} (hx : Triple Γ σ test x₁ x₂ x₃) :
      TripleVal Γ σ test (.ternary1 f x₁) (.ternary1 f x₂) (.ternary1 f x₃)
  | ternary2 (f : Ternary) {x₁ x₂ x₃ y₁ y₂ y₃ : Arg} (hx : Triple Γ σ test x₁ x₂ x₃)
      (hy : Triple Γ σ test y₁ y₂ y₃) :
      TripleVal Γ σ test (.ternary2 f x₁ y₁) (.ternary2 f x₂ y₂) (.ternary2 f x₃ y₃)
  | always {x₁ x₂ x₃ : Arg} (hx : Triple Γ σ test x₁ x₂ x₃) :
      TripleVal Γ σ test (.always x₁) (.always x₂) (.always x₃)
  | second : TripleVal Γ σ test .second .second .second
  | closure (label : String) {env₁ env₂ env₃ : Scope} (henv : TripleScope Γ σ test env₁ env₂ env₃)
      (p : String) (ps : List String) (b : Expr) :
      TripleVal Γ σ test (.closure label env₁ p ps b) (.closure label env₂ p ps b)
        (.closure label env₃ p ps b)
  | probe (first : Bool) (htest : test = true) :
      TripleVal Γ σ test (.probe first) (.probe first) (.probe first)

/-- Computations that three runs have at the same point. -/
inductive Triple (Γ : Globals) (σ : Given) (test : Bool) : Arg → Arg → Arg → Prop
  /-- What the runs were given. -/
  | given (b : Bool) : Triple Γ σ test (.ready (.probe b)) (.ready (.int (σ.int b))) (σ.arg b)
  /-- A computation that comes from outside, of which nothing is known but its value. -/
  | known {x : Arg} (hx : ∀ v, Evals Γ x v → TripleVal Γ σ test v v v) : Triple Γ σ test x x x
  | ready {v₁ v₂ v₃ : Val} (hv : TripleVal Γ σ test v₁ v₂ v₃) :
      Triple Γ σ test (.ready v₁) (.ready v₂) (.ready v₃)
  | code (c : Code) : Triple Γ σ test (.code c) (.code c) (.code c)
  | expr (e : Expr) {env₁ env₂ env₃ : Scope} (henv : TripleScope Γ σ test env₁ env₂ env₃) :
      Triple Γ σ test (.expr e env₁) (.expr e env₂) (.expr e env₃)
  | apply {f₁ f₂ f₃ x₁ x₂ x₃ : Arg} (hf : Triple Γ σ test f₁ f₂ f₃)
      (hx : Triple Γ σ test x₁ x₂ x₃) :
      Triple Γ σ test (.apply f₁ x₁) (.apply f₂ x₂) (.apply f₃ x₃)

inductive TripleScope (Γ : Globals) (σ : Given) (test : Bool) : Scope → Scope → Scope → Prop
  | nil : TripleScope Γ σ test [] [] []
  | cons (p : String) {x₁ x₂ x₃ : Arg} {env₁ env₂ env₃ : Scope} (hx : Triple Γ σ test x₁ x₂ x₃)
      (henv : TripleScope Γ σ test env₁ env₂ env₃) :
      TripleScope Γ σ test ((p, x₁) :: env₁) ((p, x₂) :: env₂) ((p, x₃) :: env₃)

end

/-- The faults of looking at an integer where a probe can be looked at. -/
def Mistaken (f : Fault) : Prop :=
  f = .cannotApply .int ∨ f = .notBoolean

/-- Ways of going on that hand out what the runs were given as it is, or else fail on it, be it the
probe or the integer. -/
def Parts (Γ : Globals) (σ : Given) (k₁ k₂ k₃ : Val → Next) : Prop :=
  (k₁ = ret ∧ k₂ = ret ∧ k₃ = ret) ∨
    ∀ b, (∀ c v, ¬ Yields Γ (k₁ (.probe b)) c v) ∨
      ∃ f, Mistaken f ∧ Raises Γ (k₂ (.int (σ.int b))) f

/-- Runs in lockstep.  Where the one on probes fails, nothing is asked of the others. -/
inductive Lockstep (Γ : Globals) (σ : Given) (test : Bool) : Next → Next → Next → Prop
  | ret {v₁ v₂ v₃ : Val} (hv : TripleVal Γ σ test v₁ v₂ v₃) :
      Lockstep Γ σ test (.ret v₁) (.ret v₂) (.ret v₃)
  | stuck (f : Fault) (n₂ n₃ : Next) : Lockstep Γ σ test (.stuck f) n₂ n₃
  | need {within : Bool} {x₁ x₂ x₃ : Arg} {k₁ k₂ k₃ : Val → Next}
      (hx : Triple Γ σ within x₁ x₂ x₃)
      (hk : ∀ v₁ v₂ v₃, TripleVal Γ σ within v₁ v₂ v₃ →
        Lockstep Γ σ test (k₁ v₁) (k₂ v₂) (k₃ v₃))
      (hparts : Parts Γ σ k₁ k₂ k₃) :
      Lockstep Γ σ test (.need x₁ k₁) (.need x₂ k₂) (.need x₃ k₃)

variable {Γ : Globals} {σ : Given} {test : Bool} {x₁ x₂ x₃ y₁ y₂ y₃ z₁ z₂ z₃ : Arg}
  {v₁ v₂ v₃ w₁ w₂ w₃ : Val} {env₁ env₂ env₃ : Scope} {n₁ n₂ n₃ : Next} {k₁ k₂ k₃ : Val → Next}

mutual

/-- What three runs have at the same point they also have inside of a test. -/
theorem TripleVal.within {v₁ v₂ v₃ : Val} :
    TripleVal Γ σ test v₁ v₂ v₃ → TripleVal Γ σ true v₁ v₂ v₃
  | .int n => .int n
  | .bool b => .bool b
  | .nil => .nil
  | .cons hh ht => .cons hh.within ht.within
  | .unary f => .unary f
  | .binary f => .binary f
  | .binary1 f hx => .binary1 f hx.within
  | .ternary f => .ternary f
  | .ternary1 f hx => .ternary1 f hx.within
  | .ternary2 f hx hy => .ternary2 f hx.within hy.within
  | .always hx => .always hx.within
  | .second => .second
  | .closure label henv p ps b => .closure label henv.within p ps b
  | .probe first _ => .probe first rfl

theorem Triple.within {x₁ x₂ x₃ : Arg} : Triple Γ σ test x₁ x₂ x₃ → Triple Γ σ true x₁ x₂ x₃
  | .given b => .given b
  | .known hx => .known fun v hv => (hx v hv).within
  | .ready hv => .ready hv.within
  | .code c => .code c
  | .expr e henv => .expr e henv.within
  | .apply hf hx => .apply hf.within hx.within

theorem TripleScope.within {env₁ env₂ env₃ : Scope} :
    TripleScope Γ σ test env₁ env₂ env₃ → TripleScope Γ σ true env₁ env₂ env₃
  | .nil => .nil
  | .cons p hx henv => .cons p hx.within henv.within

end

theorem TripleScope.lookup (h : TripleScope Γ σ test env₁ env₂ env₃) (x : String) :
    (env₁.lookup x = none ∧ env₂.lookup x = none ∧ env₃.lookup x = none) ∨
      ∃ y₁ y₂ y₃, env₁.lookup x = some y₁ ∧ env₂.lookup x = some y₂ ∧ env₃.lookup x = some y₃ ∧
        Triple Γ σ test y₁ y₂ y₃ := by
  induction env₁ generalizing env₂ env₃ with
  | nil =>
      cases h
      exact Or.inl ⟨rfl, rfl, rfl⟩
  | cons b env₁ ih =>
      cases h with
      | cons p hx henv =>
          simp only [List.lookup_cons]
          cases x == p with
          | true => exact Or.inr ⟨_, _, _, rfl, rfl, rfl, hx⟩
          | false => exact ih henv

theorem TripleVal.cons_iff : TripleVal Γ σ test (.cons x₁ y₁) (.cons x₂ y₂) (.cons x₃ y₃) ↔
    Triple Γ σ test x₁ x₂ x₃ ∧ Triple Γ σ test y₁ y₂ y₃ := by
  refine ⟨fun h => ?_, fun ⟨hx, hy⟩ => .cons hx hy⟩
  cases h with
  | cons hx hy => exact ⟨hx, hy⟩

theorem TripleVal.isFunction_eq (h : TripleVal Γ σ test v₁ v₂ v₃) :
    v₂.isFunction = v₁.isFunction ∧ v₃.isFunction = v₁.isFunction := by
  cases h <;> exact ⟨rfl, rfl⟩

theorem TripleVal.ofPrim (p : Prim) : TripleVal Γ σ test (.ofPrim p) (.ofPrim p) (.ofPrim p) := by
  cases p <;> constructor

theorem TripleVal.function (henv : TripleScope Γ σ test env₁ env₂ env₃) (p : String)
    (ps : List String) (b : Expr) :
    TripleVal Γ σ test (.function env₁ p ps b) (.function env₂ p ps b) (.function env₃ p ps b) :=
  .closure _ henv p ps b

theorem TripleVal.listVal (henv : TripleScope Γ σ test env₁ env₂ env₃) (es : List Expr) :
    TripleVal Γ σ test (listVal env₁ es) (listVal env₂ es) (listVal env₃ es) := by
  induction es with
  | nil => exact .nil
  | cons e es ih => exact .cons (.expr e henv) (.ready ih)

theorem Triple.applyAll (hf : Triple Γ σ test x₁ x₂ x₃)
    (henv : TripleScope Γ σ test env₁ env₂ env₃) (args : List Expr) :
    Triple Γ σ test (applyAll x₁ (args.map fun a => .expr a env₁))
      (applyAll x₂ (args.map fun a => .expr a env₂))
      (applyAll x₃ (args.map fun a => .expr a env₃)) := by
  induction args generalizing x₁ x₂ x₃ with
  | nil => exact hf
  | cons a args ih => exact ih (hf.apply (.expr a henv))

/-! ### Ways of going on -/

/-- Handing out what the runs were given. -/
theorem Parts.ret : Parts Γ σ ret ret ret :=
  Or.inl ⟨rfl, rfl, rfl⟩

/-- Failing on a probe. -/
theorem Parts.rejects (h : ∀ b c v, ¬ Yields Γ (k₁ (.probe b)) c v) : Parts Γ σ k₁ k₂ k₃ :=
  Or.inr fun b => Or.inl (h b)

/-- Failing on an integer. -/
theorem Parts.mistaken {f : Fault} (hf : Mistaken f) (h : ∀ n, Raises Γ (k₂ (.int n)) f) :
    Parts Γ σ k₁ k₂ k₃ :=
  Or.inr fun b => Or.inr ⟨f, hf, h (σ.int b)⟩

/-- An integer cannot be applied. -/
theorem raises_apply_int (n : Int64) (x : Arg) :
    Raises Γ (of (.apply (.ready (.int n)) x)) (.cannotApply .int) :=
  Raises.need ⟨_, .need (.ret (.int n)) (.stuck _)⟩

namespace Lockstep

theorem of (hx : Triple Γ σ test x₁ x₂ x₃) : Lockstep Γ σ test (.of x₁) (.of x₂) (.of x₃) :=
  .need hx (fun _ _ _ hv => .ret hv) .ret

theorem bind (h : Lockstep Γ σ test n₁ n₂ n₃)
    (hk : ∀ v₁ v₂ v₃, TripleVal Γ σ test v₁ v₂ v₃ → Lockstep Γ σ test (k₁ v₁) (k₂ v₂) (k₃ v₃))
    (hparts : Parts Γ σ k₁ k₂ k₃) :
    Lockstep Γ σ test (n₁.bind k₁) (n₂.bind k₂) (n₃.bind k₃) := by
  induction h with
  | ret hv => exact hk _ _ _ hv
  | stuck f n₂ n₃ => exact .stuck f _ _
  | need hx _ hfirst ih =>
      refine .need hx ih ?_
      -- what is handed out goes on as `hparts` says, and what fails keeps failing
      rcases hfirst with ⟨rfl, rfl, rfl⟩ | hfirst
      · exact hparts
      · refine Or.inr fun b => (hfirst b).imp ?_ ?_
        · intro hnone c v hv
          obtain ⟨c₁, u, -, hu, -⟩ := yields_bind.mp hv
          exact hnone c₁ u hu
        · rintro ⟨f, hf, hraises⟩
          exact ⟨f, hf, hraises.bind⟩

/-! ### Primitive operations -/

theorem arith (op : BinOp) (hv : TripleVal Γ σ test v₁ v₂ v₃) (hw : TripleVal Γ σ test w₁ w₂ w₃) :
    Lockstep Γ σ test (arith op v₁ w₁) (arith op v₂ w₂) (arith op v₃ w₃) := by
  cases hv with
  | int m =>
      cases hw with
      | int n =>
          show Lockstep Γ σ test (computed (compute op m n)) (computed (compute op m n))
            (computed (compute op m n))
          rw [computed.eq_def]
          split
          · exact .ret (.int _)
          · exact .ret (.bool _)
          · exact .stuck _ _ _
          · exact .stuck _ _ _
      | _ => exact .stuck _ _ _
  | _ => exact .stuck _ _ _

theorem parts_arith (op : BinOp) : Parts Γ σ (ByName.arith op v₁) k₂ k₃ := by
  refine .rejects fun b c v => ?_
  cases v₁ <;> exact not_yields_stuck

/-- Both operands are asked for before they are looked at. -/
theorem operands (op : BinOp) (hx : Triple Γ σ test x₁ x₂ x₃) (hy : Triple Γ σ test y₁ y₂ y₃) :
    Lockstep Γ σ test (.need x₁ fun a => .need y₁ fun b => ByName.arith op a b)
      (.need x₂ fun a => .need y₂ fun b => ByName.arith op a b)
      (.need x₃ fun a => .need y₃ fun b => ByName.arith op a b) := by
  refine .need hx (fun _ _ _ hv => .need hy (fun _ _ _ hw => arith op hv hw) (parts_arith op)) ?_
  refine .rejects fun b c v hv => ?_
  obtain ⟨_, w, _, -, hstuck, -⟩ := yields_need.mp hv
  exact not_yields_stuck hstuck

theorem testNil (hv : TripleVal Γ σ test v₁ v₂ v₃) :
    Lockstep Γ σ test (testNil v₁) (testNil v₂) (testNil v₃) := by
  cases hv with
  | nil => exact .ret (.bool true)
  | cons => exact .ret (.bool false)
  | _ => exact .stuck _ _ _

theorem negate (hv : TripleVal Γ σ test v₁ v₂ v₃) :
    Lockstep Γ σ test (negate v₁) (negate v₂) (negate v₃) := by
  cases hv with
  | int n => exact .ret (.int (-n))
  | _ => exact .stuck _ _ _

theorem appliedUnary (g : Unary) (hx : Triple Γ σ test x₁ x₂ x₃) :
    Lockstep Γ σ test (Val.appliedUnary g x₁) (Val.appliedUnary g x₂) (Val.appliedUnary g x₃) := by
  cases g with
  | i => exact .of hx
  | car =>
      refine .need hx (fun v₁ v₂ v₃ hv => ?_) (.mistaken (Or.inl rfl) fun n => raises_apply_int n _)
      have happly := Triple.apply (.ready hv) (.ready (.bool true))
      cases hv with
      | cons hh _ => exact .of hh
      | _ => exact .of happly
  | cdr =>
      refine .need hx (fun v₁ v₂ v₃ hv => ?_) (.mistaken (Or.inl rfl) fun n => raises_apply_int n _)
      have happly := Triple.apply (.ready hv) (.ready (.bool false))
      cases hv with
      | cons _ ht => exact .of ht
      | _ => exact .of happly
  | isnil => exact .need hx (fun _ _ _ => testNil) (.rejects fun _ _ _ => not_yields_stuck)
  | neg => exact .need hx (fun _ _ _ => negate) (.rejects fun _ _ _ => not_yields_stuck)

theorem appliedBinary (g : Binary) (hx : Triple Γ σ test x₁ x₂ x₃)
    (hy : Triple Γ σ test y₁ y₂ y₃) :
    Lockstep Γ σ test (Val.appliedBinary g x₁ y₁) (Val.appliedBinary g x₂ y₂)
      (Val.appliedBinary g x₃ y₃) := by
  unfold Val.appliedBinary
  cases g.operator? with
  | none => exact .ret (.cons hx hy)
  | some op => exact operands op hx hy

theorem appliedTernary (g : Ternary) (hx : Triple Γ σ test x₁ x₂ x₃)
    (hy : Triple Γ σ test y₁ y₂ y₃) (hz : Triple Γ σ test z₁ z₂ z₃) :
    Lockstep Γ σ test (Val.appliedTernary g x₁ y₁ z₁) (Val.appliedTernary g x₂ y₂ z₂)
      (Val.appliedTernary g x₃ y₃ z₃) := by
  cases g with
  | b => exact .of (hx.apply (hy.apply hz))
  | c => exact .of ((hx.apply hz).apply hy)
  | s => exact .of ((hx.apply hz).apply (hy.apply hz))

theorem applied (hv : TripleVal Γ σ test v₁ v₂ v₃) (hx : Triple Γ σ test x₁ x₂ x₃) :
    Lockstep Γ σ test (v₁.applied x₁) (v₂.applied x₂) (v₃.applied x₃) := by
  cases hv with
  | int => exact .stuck _ _ _
  | bool b =>
      cases b with
      | true => exact .ret (.always hx)
      | false => exact .ret .second
  | nil => exact .ret (.bool true)
  | cons hh ht => exact .of ((hx.apply hh).apply ht)
  | unary g => exact appliedUnary g hx
  | binary g => exact .ret (.binary1 g hx)
  | binary1 g ha => exact appliedBinary g ha hx
  | ternary g => exact .ret (.ternary1 g hx)
  | ternary1 g ha => exact .ret (.ternary2 g ha hx)
  | ternary2 g ha hb => exact appliedTernary g ha hb hx
  | always hy => exact .of hy
  | second => exact .of hx
  | closure label henv p ps b =>
      cases ps with
      | nil => exact .of (.expr b (.cons p hx henv))
      | cons q ps => exact .ret (.closure label (.cons p hx henv) q ps b)
  | probe first htest => exact .ret (.probe first htest)

/-- Asking for a value and applying it. -/
theorem needApplied (hf : Triple Γ σ test x₁ x₂ x₃) (hx : Triple Γ σ test y₁ y₂ y₃) :
    Lockstep Γ σ test (.need x₁ fun v => v.applied y₁) (.need x₂ fun v => v.applied y₂)
      (.need x₃ fun v => v.applied y₃) :=
  .need hf (fun _ _ _ hv => applied hv hx) (.mistaken (Or.inl rfl) fun _ => ⟨0, .stuck _⟩)

/-! ### Tests -/

/-- A test of a function is over before its probes could leave it. -/
theorem truth (hv : TripleVal Γ σ test v₁ v₂ v₃) :
    Lockstep Γ σ test (truth v₁) (truth v₂) (truth v₃) := by
  by_cases hfun : v₁.isFunction
  · obtain ⟨heq₂, heq₃⟩ := hv.isFunction_eq
    rw [truth_function hfun, truth_function (heq₂.trans hfun), truth_function (heq₃.trans hfun)]
    have hprobed : Triple Γ σ true (probed (.ready v₁)) (probed (.ready v₂)) (probed (.ready v₃)) :=
      .apply (.apply (.ready hv.within) (.ready (.probe true rfl))) (.ready (.probe false rfl))
    refine .need hprobed (fun w₁ w₂ w₃ hw => ?_) (.mistaken (Or.inr rfl) fun _ => ⟨0, .stuck _⟩)
    cases hw with
    | probe first => exact .ret (.bool first)
    | _ => exact .stuck _ _ _
  · cases hv with
    | bool b => exact .ret (.bool b)
    | int | nil | cons | probe => exact .stuck _ _ _
    | _ => exact absurd rfl hfun

theorem truthOf (henv : TripleScope Γ σ test env₁ env₂ env₃) (e : Expr) :
    Lockstep Γ σ test (truthOf e env₁) (truthOf e env₂) (truthOf e env₃) :=
  .need (.expr e henv) (fun _ _ _ => truth) (.rejects fun _ _ _ => not_yields_stuck)

/-- Going on by the outcome of a test. -/
theorem choose {yes₁ yes₂ yes₃ no₁ no₂ no₃ : Next} (h : Lockstep Γ σ test n₁ n₂ n₃)
    (hyes : Lockstep Γ σ test yes₁ yes₂ yes₃) (hno : Lockstep Γ σ test no₁ no₂ no₃) :
    Lockstep Γ σ test (n₁.bind (branch yes₁ no₁)) (n₂.bind (branch yes₂ no₂))
      (n₃.bind (branch yes₃ no₃)) := by
  refine h.bind (fun v₁ v₂ v₃ hv => ?_) (.rejects fun _ _ _ => not_yields_stuck)
  cases hv with
  | bool b =>
      cases b with
      | true => exact hyes
      | false => exact hno
  | _ => exact .stuck _ _ _

/-! ### Computations -/

section Globals

variable (hΓ : ∀ x y, Γ.lookup x = some y → Triple Γ σ test y y y)

include hΓ

theorem global (x : String) :
    Lockstep Γ σ test (global Γ x) (global Γ x) (global Γ x) := by
  unfold ByName.global
  cases hx : Γ.lookup x with
  | some y => exact .of (hΓ x y hx)
  | none => exact .stuck _ _ _

theorem nextCode (c : Code) :
    Lockstep Γ σ test (nextCode Γ c) (nextCode Γ c) (nextCode Γ c) := by
  cases c with
  | int n => exact .ret (.int n)
  | sym x => exact global hΓ x
  | prim p => exact .ret (.ofPrim p)
  | ap f x => exact needApplied (.code f) (.code x)

theorem nextExpr (henv : TripleScope Γ σ test env₁ env₂ env₃) (e : Expr) :
    Lockstep Γ σ test (nextExpr Γ env₁ e) (nextExpr Γ env₂ e) (nextExpr Γ env₃ e) := by
  cases e with
  | int n => exact .ret (.int n)
  | bool b => exact .ret (.bool b)
  | prim p => exact .ret (.ofPrim p)
  | func p ps b => exact .ret (.function henv p ps b)
  | list es => exact .ret (.listVal henv es)
  | sym x =>
      rcases henv.lookup x with ⟨h₁, h₂, h₃⟩ | ⟨y₁, y₂, y₃, h₁, h₂, h₃, hy⟩
      · simp only [ByName.nextExpr, h₁, h₂, h₃]
        exact global hΓ x
      · simp only [ByName.nextExpr, h₁, h₂, h₃]
        exact .of hy
  | neg a =>
      refine .need (.expr a henv)
        (fun _ _ _ hv => .of (.apply (.ready (.unary .neg)) (.ready hv))) ?_
      refine .rejects fun b c v hv => ?_
      -- negating a probe fails
      obtain ⟨u, hu, hneg⟩ := evals_apply.mp (gives_of.mp ⟨c, hv⟩)
      obtain rfl := evals_ready.mp hu
      obtain ⟨w, hw, hstuck⟩ := gives_need.mp hneg
      obtain rfl := evals_ready.mp hw
      exact not_gives_stuck hstuck
  | not a => exact (truthOf henv a).choose (.ret (.bool false)) (.ret (.bool true))
  | isNil a =>
      exact .need (.expr a henv) (fun _ _ _ => testNil) (.rejects fun _ _ _ => not_yields_stuck)
  | binary op l r =>
      cases op with
      | and => exact (truthOf henv l).choose (truthOf henv r) (.ret (.bool false))
      | or => exact (truthOf henv l).choose (.ret (.bool true)) (truthOf henv r)
      | _ => exact operands _ (.expr l henv) (.expr r henv)
  | cond c yes no => exact (truthOf henv c).choose (.of (.expr yes henv)) (.of (.expr no henv))
  | matchList value empty h t b =>
      refine .need (.expr value henv) (fun v₁ v₂ v₃ hv => ?_)
        (.mistaken (Or.inl rfl) fun n => raises_apply_int n _)
      have happly := Triple.apply (.ready hv) (.ready (.function henv h [t] b))
      cases hv with
      | nil => exact .of (.expr empty henv)
      | _ => exact .of happly
  | letCons h t value b =>
      refine .need (.expr value henv) (fun _ _ _ hv => .of ?_)
        (.mistaken (Or.inl rfl) fun n => raises_apply_int n _)
      exact .apply (.ready hv) (.ready (.function henv h [t] b))
  | letIn x value b => exact .of (.expr b (.cons x (.expr value henv) henv))
  | call f args => exact .of (Triple.applyAll (.expr f henv) henv args)

end Globals

end Lockstep

/-! ### What comes of three runs -/

/-- What comes of the other two runs if the one on probes gives `v`. -/
inductive Trial (Γ : Globals) (σ : Given) (test : Bool) (v : Val) (n₂ n₃ : Next) : Prop
  | mistaken {f : Fault} (hf : Mistaken f) (h₂ : Raises Γ n₂ f)
  | value {v₂ v₃ : Val} {d : Nat} (hv : TripleVal Γ σ test v v₂ v₃) (h₂ : Gives Γ n₂ v₂)
      (h₃ : Shift Γ d n₃ (ret v₃))
  | given {b : Bool} {d : Nat} (hv : v = .probe b) (h₂ : Gives Γ n₂ (.int (σ.int b)))
      (h₃ : Shift Γ d n₃ (next Γ (σ.arg b)))

/-- A computation that has a value is this value, at some cost. -/
theorem Yields.shift {n : Next} {c : Nat} {v : Val} (h : Yields Γ n c v) :
    Shift Γ c n (Next.ret v) := by
  intro c' r
  constructor
  · intro hr
    obtain ⟨rfl, rfl⟩ := Concludes.unique h hr
    exact ⟨0, .ret v, by omega⟩
  · rintro ⟨c₀, hr, rfl⟩
    obtain ⟨rfl, rfl⟩ := concludes_ret.mp hr
    rw [Nat.zero_add]
    exact h

/-- Meeting a demand. -/
theorem Trial.need {within : Bool} {v w : Val} {c : Nat}
    (h : Trial Γ σ within w (next Γ x₂) (next Γ x₃)) (hparts : Parts Γ σ k₁ k₂ k₃)
    (hv : Yields Γ (k₁ w) c v)
    (hk : ∀ {w₂ w₃}, TripleVal Γ σ within w w₂ w₃ → Trial Γ σ test v (k₂ w₂) (k₃ w₃)) :
    Trial Γ σ test v (.need x₂ k₂) (.need x₃ k₃) := by
  cases h with
  | mistaken hf h₂ => exact .mistaken hf h₂.need
  | value hw h₂ h₃ =>
      cases hk hw with
      | mistaken hf hr =>
          obtain ⟨_, h₂⟩ := h₂
          obtain ⟨_, hr⟩ := hr
          exact .mistaken hf ⟨_, .need h₂ hr⟩
      | value hv hr₂ hr₃ => exact .value hv (gives_need.mpr ⟨_, h₂, hr₂⟩) (h₃.met.trans hr₃)
      | given hv hr₂ hr₃ => exact .given hv (gives_need.mpr ⟨_, h₂, hr₂⟩) (h₃.met.trans hr₃)
  | @given b d hw h₂ h₃ =>
      subst hw
      rcases hparts with ⟨rfl, rfl, rfl⟩ | hfails
      · obtain ⟨-, rfl⟩ := yields_ret.mp hv
        exact .given rfl (gives_of.mpr h₂) ((Shift.of _).trans h₃)
      · rcases hfails b with hnone | ⟨f, hf, hr⟩
        · exact absurd hv (hnone c v)
        · obtain ⟨_, h₂⟩ := h₂
          obtain ⟨_, hr⟩ := hr
          exact .mistaken hf ⟨_, .need h₂ hr⟩

/-- Computations that three runs have at the same point ask for the same thing next, unless they are
what the runs were given or come from outside. -/
theorem Triple.trial {c : Nat} {v : Val}
    (hΓ : ∀ x y, Γ.lookup x = some y → Triple Γ σ test y y y) (hx : Triple Γ σ test x₁ x₂ x₃)
    (hv : Yields Γ (next Γ x₁) c v)
    (hnext : Lockstep Γ σ test (next Γ x₁) (next Γ x₂) (next Γ x₃) →
      Trial Γ σ test v (next Γ x₂) (next Γ x₃)) :
    Trial Γ σ test v (next Γ x₂) (next Γ x₃) := by
  cases hx with
  | given b =>
      obtain ⟨-, rfl⟩ := yields_ret.mp hv
      exact .given rfl (evals_ready.mpr rfl) (.refl _)
  | known hx => exact .value (hx v ⟨c, hv⟩) ⟨c, hv⟩ hv.shift
  | ready htriple => exact hnext (.ret htriple)
  | code c => exact hnext (.nextCode hΓ c)
  | expr e henv => exact hnext (.nextExpr hΓ henv e)
  | apply hf hx => exact hnext (.needApplied hf hx)

/-- **Runs in lockstep** end in values at the same point, or hand out what they were given, unless
the run on integers fails. -/
theorem Lockstep.trial (hΓ : ∀ test x y, Γ.lookup x = some y → Triple Γ σ test y y y) {c : Nat}
    {r : Except Fault Val} (hr : Concludes Γ n₁ c r) :
    ∀ {test v n₂ n₃}, r = .ok v → Lockstep Γ σ test n₁ n₂ n₃ → Trial Γ σ test v n₂ n₃ := by
  induction hr with
  | ret v =>
      rintro test v n₂ n₃ ⟨rfl⟩ h
      cases h with
      | ret hv => exact .value hv (gives_ret.mpr rfl) (.refl _)
  | stuck f =>
      rintro test v n₂ n₃ ⟨⟩
  | need hx hk ihx ihk =>
      rintro test v n₂ n₃ rfl h
      obtain ⟨w, rfl, hw⟩ := yields_follow.mp hk
      cases h with
      | need hx' hk' hparts =>
          have hasked := hx'.trial (hΓ _) hx (ihx rfl)
          exact hasked.need hparts hw fun htriple => ihk rfl (hk' _ _ _ htriple)

/-! ### Computations without probes

A computation is without probes if it is at the same point as itself. -/

def Val.ProbeFree (Γ : Globals) (v : Val) : Prop :=
  ∀ σ, TripleVal Γ σ false v v v

def Arg.ProbeFree (Γ : Globals) (x : Arg) : Prop :=
  ∀ σ, Triple Γ σ false x x x

def Globals.ProbeFree (Γ : Globals) : Prop :=
  ∀ x y, Γ.lookup x = some y → y.ProbeFree Γ

theorem Globals.ProbeFree.triple (hΓ : Γ.ProbeFree) (σ : Given) (test : Bool) (x : String) (y : Arg)
    (hx : Γ.lookup x = some y) : Triple Γ σ test y y y := by
  cases test with
  | false => exact hΓ x y hx σ
  | true => exact (hΓ x y hx σ).within

/-- What is without probes has no value but one without probes. -/
theorem Arg.ProbeFree.evals {x : Arg} {v : Val} (hΓ : Γ.ProbeFree) (hx : x.ProbeFree Γ)
    (hv : Evals Γ x v) : v.ProbeFree Γ := by
  intro σ
  obtain ⟨c, hc⟩ := hv
  have htrial := (hx σ).trial (hΓ.triple σ false) hc (Lockstep.trial (hΓ.triple σ) hc rfl)
  cases htrial with
  | mistaken _ h₂ =>
      obtain ⟨_, h₂⟩ := h₂
      cases (Concludes.unique hc h₂).2
  | value htriple h₂ h₃ =>
      have h₃ := h₃.gives_iff.mpr (gives_ret.mpr rfl)
      rwa [← Gives.unique ⟨c, hc⟩ h₂, ← Gives.unique ⟨c, hc⟩ h₃] at htriple
  | given heq h₂ _ =>
      subst heq
      cases Gives.unique ⟨c, hc⟩ h₂

/-! ### Selection -/

/-- A function applied to two integers. -/
def onInts (v : Val) (i j : Int64) : Arg :=
  applyAll (.ready v) [.ready (.int i), .ready (.int j)]

/-- A function that gives a boolean hands out what this boolean selects, or else it fails on
integers. -/
theorem truth_trial {v : Val} {b : Bool} (hΓ : Γ.ProbeFree) (hv : v.ProbeFree Γ)
    (hfun : v.isFunction) (htruth : Gives Γ (truth v) (.bool b)) (σ : Given) :
    (∃ f, Mistaken f ∧ Raises Γ (next Γ (onInts v (σ.int true) (σ.int false))) f) ∨
      ∃ d, Shift Γ d (next Γ (applyAll (.ready v) [σ.arg true, σ.arg false]))
        (next Γ (σ.arg b)) := by
  rw [truth_function hfun] at htruth
  obtain ⟨w, ⟨c, hw⟩, hb⟩ := gives_need.mp htruth
  have hprobe : w = .probe b := by
    cases w with
    | probe first =>
        cases gives_ret.mp hb
        rfl
    | _ => exact absurd hb not_gives_stuck
  subst hprobe
  have hstart : Lockstep Γ σ false (next Γ (probed (.ready v)))
      (next Γ (onInts v (σ.int true) (σ.int false)))
      (next Γ (applyAll (.ready v) [σ.arg true, σ.arg false])) :=
    .needApplied (.apply (.ready (hv σ)) (.given true)) (.given false)
  cases Lockstep.trial (hΓ.triple σ) hw rfl hstart with
  | mistaken hf h₂ => exact Or.inl ⟨_, hf, h₂⟩
  | value htriple => cases htriple with | probe _ htest => cases htest
  | given heq _ h₃ =>
      cases heq
      exact Or.inr ⟨_, h₃⟩

/-- **A function that gives a boolean selects like it, or fails on any two integers.** -/
theorem truth_selects {v : Val} {b : Bool} (hΓ : Γ.ProbeFree) (hv : v.ProbeFree Γ)
    (hfun : v.isFunction) (htruth : Gives Γ (truth v) (.bool b)) :
    (∀ x y : Arg, ∃ d, Shift Γ d (next Γ (applyAll (.ready v) [x, y]))
      (next Γ (if b then x else y))) ∨
      ∀ i j, ∃ f, Mistaken f ∧ Raises Γ (next Γ (onInts v i j)) f := by
  by_cases hall : ∀ i j, ∃ f, Mistaken f ∧ Raises Γ (next Γ (onInts v i j)) f
  · exact Or.inr hall
  · obtain ⟨i, hi⟩ := Classical.not_forall.mp hall
    obtain ⟨j, hij⟩ := Classical.not_forall.mp hi
    refine Or.inl fun x y => ?_
    let σ : Given := ⟨fun first => if first then i else j, fun first => if first then x else y⟩
    rcases truth_trial hΓ hv hfun htruth σ with ⟨f, hf, hraises⟩ | hshift
    · exact absurd ⟨f, hf, hraises⟩ hij
    · exact hshift

end Decombinator.ByName
