/-
Arithmetic on 64 bits, before and after tidying.

An arithmetic expression has literals, symbols, signs and the five operators on integers.  Its
number is found by exact arithmetic on integers of any size, wrapping every result to 64 bits;
division truncates, and there is no number if anything in it divides by zero.  The smallest
integer divided by -1 wraps to itself, and leaves nothing.

The machine comes to that number, or fails because it divides by zero if there is none.  No other
fault can occur, so it does not matter which operand is evaluated first, and tidying, which
swaps operands and drops repeated ones, keeps number and failure alike.
-/
import Decombinator.Machine.Eval
import Decombinator.Proofs.Meaning.Algebra

namespace Decombinator

/-! ### Numbers -/

namespace BinOp

/-- The operators from integers to integers. -/
def isArithmetic : BinOp → Bool
  | add | sub | mul | div | mod => true
  | eq | lt | and | or => false

/-- The result of an operator on integers of any size.  Division truncates, and nothing can be
divided by zero. -/
def result? : BinOp → Int → Int → Option Int
  | add, m, n => some (m + n)
  | sub, m, n => some (m - n)
  | mul, m, n => some (m * n)
  | div, m, n => if n = 0 then none else some (m.tdiv n)
  | mod, m, n => if n = 0 then none else some (m.tmod n)
  | eq, _, _ | lt, _, _ | and, _, _ | or, _, _ => none

/-- The result of an operator, wrapped to 64 bits. -/
def wrapped? (op : BinOp) (m n : Int64) : Option Int64 :=
  (op.result? m.toInt n.toInt).map Int64.ofInt

section Wrapped

variable (m n : Int64)

@[simp] theorem wrapped_add : add.wrapped? m n = some (m + n) := by
  simp [wrapped?, result?, Int64.ofInt_add]

@[simp] theorem wrapped_sub : sub.wrapped? m n = some (m - n) := by
  simp [wrapped?, result?, Int64.ofInt_sub]

@[simp] theorem wrapped_mul : mul.wrapped? m n = some (m * n) := by
  simp [wrapped?, result?, Int64.ofInt_mul]

theorem toInt_eq_zero_iff : n.toInt = 0 ↔ n = 0 := by
  rw [← Int64.toInt_inj, Int64.toInt_zero]

@[simp] theorem wrapped_div : div.wrapped? m n = if n = 0 then none else some (m / n) := by
  rw [wrapped?, result?]
  by_cases hn : n = 0
  · rw [if_pos hn, if_pos ((toInt_eq_zero_iff n).mpr hn), Option.map_none]
  · rw [if_neg hn, if_neg (mt (toInt_eq_zero_iff n).mp hn), Option.map_some, ByName.div_eq_ofInt]

@[simp] theorem wrapped_mod : mod.wrapped? m n = if n = 0 then none else some (m % n) := by
  rw [wrapped?, result?]
  by_cases hn : n = 0
  · rw [if_pos hn, if_pos ((toInt_eq_zero_iff n).mpr hn), Option.map_none]
  · rw [if_neg hn, if_neg (mt (toInt_eq_zero_iff n).mp hn), Option.map_some, ← Int64.toInt_mod,
      Int64.ofInt_toInt]

end Wrapped

end BinOp

namespace Expr

def isArithmetic : Expr → Bool
  | int _ | sym _ => true
  | neg a => a.isArithmetic
  | binary op a b => op.isArithmetic && a.isArithmetic && b.isArithmetic
  | _ => false

/-- The number of an arithmetic expression, where symbols stand for what `σ` says. -/
def number? (σ : String → Int64) : Expr → Option Int64
  | int n => some n
  | sym x => some (σ x)
  | neg a => (number? σ a).map fun n => Int64.ofInt (-n.toInt)
  | binary op a b => (number? σ a).bind fun m => (number? σ b).bind (op.wrapped? m)
  | _ => none

variable {σ : String → Int64}

theorem number_neg (a : Expr) : (neg a).number? σ = (a.number? σ).map (- ·) := by
  simp [number?, Int64.ofInt_neg]

/-! ### Tidying keeps the number -/

/-- What is left of a dividend is its remainder, and there is a remainder where there is a
quotient. -/
theorem number_remainder (a b : Expr) :
    (binary .mod a b).number? σ =
      (binary .add a (neg (binary .mul b (binary .div a b)))).number? σ := by
  rw [number?, number?, number_neg, number?, number?]
  cases a.number? σ with
  | none => rfl
  | some m =>
      cases b.number? σ with
      | none => rfl
      | some n =>
          by_cases hn : n = 0
          · simp [hn]
          · simp [hn, ByName.sub_mul_div]

theorem Tidying.number_eq {e e' : Expr} (h : Tidying e e') : e'.number? σ = e.number? σ := by
  cases h with
  | same => rfl
  | literal n => simp [number?, Int64.ofInt_neg]
  | remainder a b => exact number_remainder a b
  | minus a b =>
      rw [number?, number?, number_neg]
      cases a.number? σ <;> cases b.number? σ <;> simp [Int64.add_neg_eq_sub]
  | minusLiteral a n => simp [number?, Int64.sub_neg]
  | minusLeft a b =>
      rw [number?, number?, number_neg]
      cases a.number? σ <;> cases b.number? σ <;> simp [Int64.sub_eq_add_neg, Int64.add_comm]
  | minusLeftLiteral n b =>
      simp only [number?]
      cases b.number? σ <;> simp [Int64.sub_neg, Int64.add_comm]
  | matching x yes b h t => rfl

theorem Tidying.isArithmetic {e e' : Expr} (h : Tidying e e') (he : e.isArithmetic) :
    e'.isArithmetic := by
  cases h <;> simp_all [Expr.isArithmetic, BinOp.isArithmetic]

/-- **Tidying keeps the number of an expression.** -/
theorem number_tidy (e : Expr) : e.tidy.number? σ = e.number? σ := by
  induction e with
  | neg a ih =>
      rw [tidy, (negation_tidying a.tidy).number_eq, number_neg, ih, number_neg]
  | binary op a b iha ihb =>
      rw [tidy, (operation_tidying op a.tidy b.tidy).number_eq, number?, iha, ihb, number?]
  | cond a b c => exact (conditional_tidying a.tidy b.tidy c.tidy).number_eq
  | _ => rfl

theorem isArithmetic_tidy {e : Expr} (he : e.isArithmetic) : e.tidy.isArithmetic := by
  induction e with
  | int n => rfl
  | sym x => rfl
  | neg a ih => exact (negation_tidying a.tidy).isArithmetic (ih he)
  | binary op a b iha ihb =>
      simp only [isArithmetic, Bool.and_eq_true] at he
      refine (operation_tidying op a.tidy b.tidy).isArithmetic ?_
      simp [isArithmetic, he.1.1, iha he.1.2, ihb he.2]
  | _ => simp [isArithmetic] at he

end Expr

/-! ### The machine comes to the number -/

namespace Machine

open Effect

/-- The outcome that a number stands for: division by zero, if there is none. -/
def answer : Option Int64 → Memory → Outcome Value
  | some n, m => .value (.int n) m
  | none, m => .fault .divisionByZero m

variable {policy : Policy} {σ : String → Int64}

theorem compute_eq {op : BinOp} (hop : op.isArithmetic) (m n : Int64) (mem : Memory) :
    ofExcept (compute op m n) mem = answer (op.wrapped? m n) mem := by
  cases op with
  | add => rw [BinOp.wrapped_add]; rfl
  | sub => rw [BinOp.wrapped_sub]; rfl
  | mul => rw [BinOp.wrapped_mul]; rfl
  | div =>
      rw [BinOp.wrapped_div, compute]
      by_cases hn : n = 0
      · rw [if_pos hn, if_pos hn]; rfl
      · rw [if_neg hn, if_neg hn]; rfl
  | mod =>
      rw [BinOp.wrapped_mod, compute]
      by_cases hn : n = 0
      · rw [if_pos hn, if_pos hn]; rfl
      · rw [if_neg hn, if_neg hn]; rfl
  | eq | lt | and | or => cases hop

/-- Evaluating an operator on integers: one operand, then the other, then the operation. -/
theorem eval_binary {op : BinOp} (hop : op.isArithmetic) (fuel : Nat) (a b : Expr) (env : Env) :
    eval policy (fuel + 1) (.binary op a b) env = (do
      let u ← eval policy fuel a env
      let v ← eval policy fuel b env
      ofExcept (arith op u v)) := by
  cases op with
  | and | or => cases hop
  | _ => rfl

theorem tick_unlimited (hlimit : policy.limit = none) (m : Memory) :
    tick policy m = .value () { m with steps := m.steps + 1 } := by
  rw [tick, hlimit]

/-- Changing a sign is an application, and so takes a step. -/
theorem apply_neg (hlimit : policy.limit = none) (fuel : Nat) (n : Int64) (m : Memory) :
    apply policy (fuel + 3) (.ready (.unary .neg)) (.ready (.int n)) m =
      .value (.ready (.int (-n))) { m with steps := m.steps + 1 } := by
  show Effect.bind (tick policy) _ m = _
  rw [Effect.bind, tick_unlimited hlimit]
  rfl

/-- What is bound where the expression is evaluated: its symbols, to integers. -/
def Assigns (σ : String → Int64) (e : Expr) (m : Memory) : Prop :=
  ∀ x ∈ e.free, m.globals.lookup x = some (.ready (.int (σ x)))

/-- **The machine comes to the number of an arithmetic expression**, and changes nothing but the
number of steps. -/
theorem eval_number (hlimit : policy.limit = none) {e : Expr} (he : e.isArithmetic) :
    ∃ N, ∀ fuel, N ≤ fuel → ∀ m, Assigns σ e m →
      ∃ k, eval policy fuel e [] m = answer (e.number? σ) { m with steps := k } := by
  induction e with
  | int n =>
      refine ⟨1, fun fuel hfuel m _ => ⟨m.steps, ?_⟩⟩
      obtain ⟨fuel, rfl⟩ := Nat.exists_eq_add_of_le' hfuel
      rfl
  | sym x =>
      refine ⟨2, fun fuel hfuel m hm => ⟨m.steps, ?_⟩⟩
      obtain ⟨fuel, rfl⟩ := Nat.exists_eq_add_of_le' hfuel
      have hx : m.globals.lookup x = some (.ready (.int (σ x))) := hm x (by simp [Expr.free])
      show Effect.bind (global x) _ m = _
      rw [Effect.bind, global, hx]
      rfl
  | neg a ih =>
      obtain ⟨N, hN⟩ := ih he
      refine ⟨N + 4, fun fuel hfuel m hm => ?_⟩
      obtain ⟨fuel, rfl⟩ := Nat.exists_eq_add_of_le' hfuel
      obtain ⟨k, hk⟩ := hN (fuel + N + 3) (by omega) m hm
      have hstart : eval policy (fuel + (N + 4)) (.neg a) [] m = Effect.bind
          (eval policy (fuel + N + 3) a []) (fun v => Effect.bind
            (apply policy (fuel + N + 3) (.ready (.unary .neg)) (.ready v))
            (force policy (fuel + N + 3))) m := rfl
      rw [hstart, Effect.bind, hk, Expr.number_neg]
      cases a.number? σ with
      | none => exact ⟨k, rfl⟩
      | some n =>
          refine ⟨k + 1, ?_⟩
          show Effect.bind (apply _ _ _ _) _ _ = _
          rw [Effect.bind, apply_neg hlimit]
          rfl
  | binary op a b iha ihb =>
      simp only [Expr.isArithmetic, Bool.and_eq_true] at he
      obtain ⟨Na, hNa⟩ := iha he.1.2
      obtain ⟨Nb, hNb⟩ := ihb he.2
      refine ⟨Na + Nb + 1, fun fuel hfuel m hm => ?_⟩
      obtain ⟨fuel, rfl⟩ := Nat.exists_eq_add_of_le' hfuel
      obtain ⟨k, hk⟩ := hNa (fuel + (Na + Nb)) (by omega) m
        fun x hx => hm x (List.mem_append_left _ hx)
      obtain ⟨k', hk'⟩ := hNb (fuel + (Na + Nb)) (by omega) { m with steps := k }
        fun x hx => hm x (List.mem_append_right _ hx)
      rw [← Nat.add_assoc, eval_binary he.1.1]
      show ∃ k, Effect.bind (eval policy _ a []) _ m = _
      rw [Effect.bind, hk, Expr.number?]
      cases a.number? σ with
      | none => exact ⟨k, rfl⟩
      | some p =>
          show ∃ k, Effect.bind (eval policy _ b []) _ _ = _
          rw [Effect.bind, hk']
          cases b.number? σ with
          | none => exact ⟨k', rfl⟩
          | some q => exact ⟨k', compute_eq he.1.1 p q _⟩
  | _ => cases he

/-- **Tidying arithmetic is exact on 64 bits, failures included.**  Where the symbols of an
arithmetic expression stand for integers, and with no limit on steps, the expression and its tidy
form both evaluate to its number, or both fail because something is divided by zero. -/
theorem evalExpr_tidy_exact (hlimit : policy.limit = none) {e : Expr} (he : e.isArithmetic)
    (m : Memory) (hm : ∀ x ∈ e.symbols, m.globals.lookup x = some (.ready (.int (σ x)))) :
    ∃ N, ∀ fuel, N ≤ fuel →
      (∃ m', evalExpr policy fuel e m = answer (e.number? σ) m') ∧
        ∃ m', evalExpr policy fuel e.tidy m = answer (e.number? σ) m' := by
  obtain ⟨N, hN⟩ := eval_number (σ := σ) hlimit he
  obtain ⟨N', hN'⟩ := eval_number (σ := σ) hlimit (Expr.isArithmetic_tidy he)
  have hassigns : Assigns σ e { m with steps := 0 } :=
    fun x hx => hm x (Expr.mem_symbols_of_mem_free hx)
  have htidy : Assigns σ e.tidy { m with steps := 0 } :=
    fun x hx => hassigns x ((Expr.tidy_retains e).mem_iff x |>.mp hx)
  refine ⟨N + N', fun fuel hfuel => ⟨?_, ?_⟩⟩
  · obtain ⟨k, hk⟩ := hN fuel (by omega) _ hassigns
    exact ⟨_, hk⟩
  · obtain ⟨k, hk⟩ := hN' fuel (by omega) _ htidy
    rw [Expr.number_tidy] at hk
    exact ⟨_, hk⟩

/-- `(x + -(y * (x / y))) + -(smallest)`, where `x` is the smallest integer and `y` is -1: the
quotient wraps, the remainder is 0, and the sign of the literal cannot be changed. -/
theorem evalExpr_tidy_exact_smallest :
    let e : Expr := .binary .add
      (.binary .add (.sym "x")
        (.neg (.binary .mul (.sym "y") (.binary .div (.sym "x") (.sym "y")))))
      (.neg (.int Int64.minValue))
    let σ : String → Int64 := fun x => if x = "x" then Int64.minValue else -1
    let m : Memory := { globals := [("x", .ready (.int (σ "x"))), ("y", .ready (.int (σ "y")))] }
    let policy : Policy := { limit := none }
    e.tidy = .binary .sub (.binary .mod (.sym "x") (.sym "y")) (.int Int64.minValue) ∧
      e.number? σ = some Int64.minValue ∧
      ∃ N, ∀ fuel, N ≤ fuel →
        (∃ m', evalExpr policy fuel e m = .value (.int Int64.minValue) m') ∧
          ∃ m', evalExpr policy fuel e.tidy m = .value (.int Int64.minValue) m' := by
  intro e σ m policy
  have hnumber : e.number? σ = some Int64.minValue := by decide +kernel
  have hm : ∀ x ∈ e.symbols, m.globals.lookup x = some (.ready (.int (σ x))) := by
    intro x hx
    have hx : x ∈ ["x", "y", "x", "y"] := hx
    simp only [List.mem_cons, List.not_mem_nil, or_false] at hx
    rcases hx with rfl | rfl | rfl | rfl <;> rfl
  refine ⟨by rfl, hnumber, ?_⟩
  have hlimit : policy.limit = none := rfl
  have h := evalExpr_tidy_exact hlimit (σ := σ) (e := e) rfl m hm
  rwa [hnumber] at h

end Machine

end Decombinator
