/-
Two runs of the evaluator, compared.

Two runs may differ in their fuel or in the terms on which they run.  They do the same things
in the same order for as long as both go on.  What can be said of two such runs is a relation
between effects that is respected by everything the evaluator is put together from, and then it
holds between the two evaluators: `Likewise.succ` is the induction on fuel, for any relation.

More fuel changes nothing but being out of fuel, and a limit on steps changes nothing but what
takes more steps.
-/
import Decombinator.Machine.Eval

namespace Decombinator.Machine

open Effect

variable {α β : Type} {policy policy' : Policy} {fuel fuel' : Nat}

/-! ### Effects that take no steps -/

/-- The number of steps taken when an outcome was reached. -/
def Outcome.steps? : Outcome α → Option Nat
  | .value _ m | .fault _ m => some m.steps
  | .outOfFuel => none

/-- An effect that takes no steps. -/
def Steady (p : Effect α) : Prop :=
  ∀ m n, (p m).steps? = some n → n = m.steps

namespace Steady

theorem pure (a : α) : Steady (Pure.pure a : Effect α) :=
  fun _ _ h => (Option.some.inj h).symm

theorem fail (f : Fault) : Steady (Effect.fail f : Effect α) :=
  fun _ _ h => (Option.some.inj h).symm

theorem outOfFuel : Steady (Effect.outOfFuel : Effect α) := by
  intro m n h
  cases h

theorem delay (s : Suspension) : Steady (Effect.delay s) :=
  fun _ _ h => (Option.some.inj h).symm

theorem load (addr : Nat) : Steady (Effect.load addr) :=
  fun _ _ h => (Option.some.inj h).symm

theorem ofExcept (r : Except Fault α) : Steady (Effect.ofExcept r) := by
  cases r with
  | ok a => exact .pure a
  | error f => exact .fail f

theorem global (x : String) : Steady (Effect.global x) := by
  intro m n h
  rw [Effect.global] at h
  cases hx : m.globals.lookup x with
  | some v =>
      rw [hx] at h
      exact (Option.some.inj h).symm
  | none =>
      rw [hx] at h
      exact (Option.some.inj h).symm

theorem lookup (env : Env) (x : String) : Steady (Effect.lookup env x) := by
  rw [Effect.lookup]
  cases env.lookup x with
  | some v => exact .pure v
  | none => exact .global x

theorem bind {p : Effect α} {k : α → Effect β} (hp : Steady p) (hk : ∀ a, Steady (k a)) :
    Steady (p >>= k) := by
  intro m n h
  have h : (Effect.bind p k m).steps? = some n := h
  rw [Effect.bind] at h
  cases hpm : p m with
  | value a m' =>
      rw [hpm] at h
      have hm' : m'.steps = m.steps := hp m _ (by rw [hpm]; rfl)
      rw [hk a m' n h, hm']
  | fault f m' =>
      rw [hpm] at h
      exact hp m n (by rw [hpm]; exact h)
  | outOfFuel =>
      rw [hpm] at h
      cases h

theorem delayList (env : Env) (es : List Expr) : Steady (Machine.delayList env es) := by
  induction es with
  | nil => exact .pure _
  | cons e es ih => exact ih.bind fun _ => (Steady.delay _).bind fun _ => .pure _

theorem delayArgs (env : Env) (es : List Expr) : Steady (Machine.delayArgs env es) := by
  induction es with
  | nil => exact .pure _
  | cons e es ih => exact (Steady.delay _).bind fun _ => ih.bind fun _ => .pure _

end Steady

/-! ### Relations between runs -/

/-- Keeps the outcome of a suspended computation, if outcomes are kept, and goes on with it. -/
def settle (policy : Policy) (addr : Nat) (k : Operand → Effect Value) :
    Except Fault Operand → Effect Value
  | .ok y => do
    if policy.memo then store addr (.done y)
    k y
  | .error f => do
    if policy.memo then store addr (.failed f)
    fail f

/-- Memory after an outcome is kept, if outcomes are kept. -/
def Memory.keep (m : Memory) (policy : Policy) (addr : Nat) (c : Cell) : Memory :=
  if policy.memo then { m with cells := m.cells.setIfInBounds addr c } else m

theorem settle_ok (policy : Policy) (addr : Nat) (k : Operand → Effect Value) (y : Operand)
    (m : Memory) : settle policy addr k (.ok y) m = k y (m.keep policy addr (.done y)) := by
  rw [settle, Memory.keep]
  cases policy.memo <;> rfl

theorem settle_error (policy : Policy) (addr : Nat) (k : Operand → Effect Value) (f : Fault)
    (m : Memory) :
    settle policy addr k (.error f) m = .fault f (m.keep policy addr (.failed f)) := by
  rw [settle, Memory.keep]
  cases policy.memo <;> rfl

@[simp] theorem Memory.keep_steps (m : Memory) (policy : Policy) (addr : Nat) (c : Cell) :
    (m.keep policy addr c).steps = m.steps := by
  rw [Memory.keep]
  cases policy.memo <;> rfl

theorem force_delayed (policy : Policy) (fuel addr : Nat) :
    force policy (fuel + 1) (.delayed addr) = (load addr >>= fun c =>
      match c with
      | none => Effect.outOfFuel
      | some (.done y) => force policy fuel y
      | some (.failed f) => fail f
      | some (.pending s) =>
        attempt (resume policy fuel s) >>= settle policy addr (force policy fuel)) :=
  rfl

section Force

variable {m : Memory} {addr : Nat}

theorem force_done (policy : Policy) (fuel : Nat) {y : Operand}
    (h : m.cells[addr]? = some (.done y)) :
    force policy (fuel + 1) (.delayed addr) m = force policy fuel y m := by
  rw [force_delayed]
  show Effect.bind (load addr) _ m = _
  rw [Effect.bind, load, h]

theorem force_failed (policy : Policy) (fuel : Nat) {f : Fault}
    (h : m.cells[addr]? = some (.failed f)) :
    force policy (fuel + 1) (.delayed addr) m = .fault f m := by
  rw [force_delayed]
  show Effect.bind (load addr) _ m = _
  rw [Effect.bind, load, h]
  rfl

theorem force_pending (policy : Policy) (fuel : Nat) {s : Suspension}
    (h : m.cells[addr]? = some (.pending s)) :
    force policy (fuel + 1) (.delayed addr) m =
      match resume policy fuel s m with
      | .value y m' => force policy fuel y (m'.keep policy addr (.done y))
      | .fault f m' => .fault f (m'.keep policy addr (.failed f))
      | .outOfFuel => .outOfFuel := by
  rw [force_delayed]
  show Effect.bind (load addr) _ m = _
  rw [Effect.bind, load, h]
  show Effect.bind (attempt (resume policy fuel s)) _ m = _
  rw [Effect.bind, attempt]
  cases resume policy fuel s m with
  | value y m' => exact settle_ok policy addr _ y m'
  | fault f m' => exact settle_error policy addr _ f m'
  | outOfFuel => rfl

end Force

/-- A relation between effects that everything the evaluator is put together from respects. -/
structure Respected (policy policy' : Policy)
    (R : ∀ {α : Type}, Effect α → Effect α → Prop) : Prop where
  steady : ∀ {α : Type} {p : Effect α}, Steady p → R p p
  bind : ∀ {α β : Type} {p q : Effect α} {k l : α → Effect β},
    R p q → (∀ a, R (k a) (l a)) → R (p >>= k) (q >>= l)
  tick : R (tick policy) (tick policy')
  settle : ∀ {p q : Effect Operand} {k l : Operand → Effect Value} (addr : Nat),
    R p q → (∀ y, R (k y) (l y)) →
    R (attempt p >>= Machine.settle policy addr k) (attempt q >>= Machine.settle policy' addr l)

/-- Two evaluators are related. -/
structure Likewise (R : ∀ {α : Type}, Effect α → Effect α → Prop) (policy policy' : Policy)
    (fuel fuel' : Nat) : Prop where
  apply : ∀ f x, R (apply policy fuel f x) (apply policy' fuel' f x)
  applyUnary : ∀ g x, R (applyUnary policy fuel g x) (applyUnary policy' fuel' g x)
  applyBinary : ∀ g x y, R (applyBinary policy fuel g x y) (applyBinary policy' fuel' g x y)
  applyTernary : ∀ g x y z,
    R (applyTernary policy fuel g x y z) (applyTernary policy' fuel' g x y z)
  force : ∀ x, R (force policy fuel x) (force policy' fuel' x)
  resume : ∀ s, R (resume policy fuel s) (resume policy' fuel' s)
  run : ∀ c, R (run policy fuel c) (run policy' fuel' c)
  eval : ∀ e env, R (eval policy fuel e env) (eval policy' fuel' e env)
  applyAll : ∀ f xs, R (applyAll policy fuel f xs) (applyAll policy' fuel' f xs)
  truth : ∀ v, R (truth policy fuel v) (truth policy' fuel' v)
  truthOf : ∀ e env, R (truthOf policy fuel e env) (truthOf policy' fuel' e env)

namespace Likewise

variable {R : ∀ {α : Type}, Effect α → Effect α → Prop}

theorem apply_succ (r : Respected policy policy' R) (h : Likewise R policy policy' fuel fuel')
    (f x : Operand) :
    R (Machine.apply policy (fuel + 1) f x) (Machine.apply policy' (fuel' + 1) f x) := by
  rw [Machine.apply, Machine.apply]
  refine r.bind r.tick fun _ => r.bind (h.force f) fun v => ?_
  cases v with
  | int => exact r.steady (.fail _)
  | bool b => cases b <;> exact r.steady (.pure _)
  | cons head tail => exact r.bind (h.apply x head) fun g => h.apply g tail
  | unary g => exact h.applyUnary g x
  | binary1 g a => exact h.applyBinary g a x
  | ternary2 g a b => exact h.applyTernary g a b x
  | closure label env p rest body =>
      cases rest with
      | nil => exact r.bind (h.eval body _) fun _ => r.steady (.pure _)
      | cons => exact r.steady (.pure _)
  | _ => exact r.steady (.pure _)

theorem applyUnary_succ (r : Respected policy policy' R) (h : Likewise R policy policy' fuel fuel')
    (g : Unary) (x : Operand) :
    R (Machine.applyUnary policy (fuel + 1) g x) (Machine.applyUnary policy' (fuel' + 1) g x) := by
  cases g with
  | i => exact r.steady (.pure x)
  | car =>
      refine r.bind (h.force x) fun v => ?_
      cases v with
      | cons => exact r.steady (.pure _)
      | _ => exact h.apply _ _
  | cdr =>
      refine r.bind (h.force x) fun v => ?_
      cases v with
      | cons => exact r.steady (.pure _)
      | _ => exact h.apply _ _
  | isnil =>
      exact r.bind (h.force x) fun _ => r.bind (r.steady (.ofExcept _)) fun _ => r.steady (.pure _)
  | neg =>
      exact r.bind (h.force x) fun _ => r.bind (r.steady (.ofExcept _)) fun _ => r.steady (.pure _)

theorem applyBinary_succ (r : Respected policy policy' R) (h : Likewise R policy policy' fuel fuel')
    (g : Binary) (x y : Operand) :
    R (Machine.applyBinary policy (fuel + 1) g x y)
      (Machine.applyBinary policy' (fuel' + 1) g x y) := by
  rw [Machine.applyBinary, Machine.applyBinary]
  cases g.operator? with
  | none => exact r.steady (.pure _)
  | some op =>
      refine r.bind (h.force x) fun a => r.bind (h.force y) fun b => ?_
      exact r.bind (r.steady (.ofExcept _)) fun _ => r.steady (.pure _)

theorem applyTernary_succ (r : Respected policy policy' R)
    (h : Likewise R policy policy' fuel fuel') (g : Ternary) (x y z : Operand) :
    R (Machine.applyTernary policy (fuel + 1) g x y z)
      (Machine.applyTernary policy' (fuel' + 1) g x y z) := by
  cases g with
  | b => exact r.bind (r.steady (.delay _)) fun _ => h.apply _ _
  | c => exact r.bind (h.apply x z) fun _ => h.apply _ _
  | s =>
      exact r.bind (r.steady (.delay _)) fun _ => r.bind (h.apply x z) fun _ => h.apply _ _

theorem force_succ (r : Respected policy policy' R) (h : Likewise R policy policy' fuel fuel')
    (x : Operand) :
    R (Machine.force policy (fuel + 1) x) (Machine.force policy' (fuel' + 1) x) := by
  cases x with
  | ready v => exact r.steady (.pure v)
  | delayed addr =>
      rw [force_delayed, force_delayed]
      refine r.bind (r.steady (.load addr)) fun c => ?_
      cases c with
      | none => exact r.steady .outOfFuel
      | some c =>
          cases c with
          | done y => exact h.force y
          | failed f => exact r.steady (.fail f)
          | pending s => exact r.settle addr (h.resume s) h.force

theorem resume_succ (r : Respected policy policy' R) (h : Likewise R policy policy' fuel fuel')
    (s : Suspension) :
    R (Machine.resume policy (fuel + 1) s) (Machine.resume policy' (fuel' + 1) s) := by
  cases s with
  | code c => exact h.run c
  | expr e env => exact r.bind (h.eval e env) fun _ => r.steady (.pure _)
  | apply f x => exact h.apply f x

theorem run_succ (r : Respected policy policy' R) (h : Likewise R policy policy' fuel fuel')
    (c : Code) : R (Machine.run policy (fuel + 1) c) (Machine.run policy' (fuel' + 1) c) := by
  cases c with
  | int n => exact r.steady (.pure _)
  | sym x => exact r.steady (.global x)
  | prim p => exact r.steady (.pure _)
  | ap f x =>
      exact r.bind (h.run f) fun _ => r.bind (r.steady (.delay _)) fun _ => h.apply _ _

theorem eval_succ (r : Respected policy policy' R) (h : Likewise R policy policy' fuel fuel')
    (e : Expr) (env : Env) :
    R (Machine.eval policy (fuel + 1) e env) (Machine.eval policy' (fuel' + 1) e env) := by
  have hpure : ∀ {α : Type} (a : α), R (pure a) (pure a) := fun a => r.steady (.pure a)
  have hoperation : ∀ (op : BinOp) (a b : Expr),
      R (do
          let v ← Machine.eval policy fuel a env
          let w ← Machine.eval policy fuel b env
          ofExcept (arith op v w))
        (do
          let v ← Machine.eval policy' fuel' a env
          let w ← Machine.eval policy' fuel' b env
          ofExcept (arith op v w)) := fun op a b =>
    r.bind (h.eval a env) fun _ => r.bind (h.eval b env) fun _ => r.steady (.ofExcept _)
  cases e with
  | int n => exact hpure _
  | bool b => exact hpure _
  | prim p => exact hpure _
  | func p ps b => exact hpure _
  | list es => exact r.steady (.delayList env es)
  | sym x => exact r.bind (r.steady (.lookup env x)) h.force
  | neg a =>
      exact r.bind (h.eval a env) fun _ => r.bind (h.apply _ _) h.force
  | not a => exact r.bind (h.truthOf a env) fun _ => hpure _
  | isNil a => exact r.bind (h.eval a env) fun _ => r.steady (.ofExcept _)
  | binary op a b =>
      cases op with
      | and =>
          refine r.bind (h.truthOf a env) fun t => ?_
          cases t with
          | true => exact r.bind (h.truthOf b env) fun _ => hpure _
          | false => exact hpure _
      | or =>
          refine r.bind (h.truthOf a env) fun t => ?_
          cases t with
          | true => exact hpure _
          | false => exact r.bind (h.truthOf b env) fun _ => hpure _
      | _ => exact hoperation _ a b
  | cond test yes no =>
      refine r.bind (h.truthOf test env) fun t => ?_
      cases t with
      | true => exact h.eval yes env
      | false => exact h.eval no env
  | matchList value empty hd tl b =>
      refine r.bind (h.eval value env) fun v => ?_
      cases v with
      | nil => exact h.eval empty env
      | _ => exact r.bind (h.apply _ _) h.force
  | letCons hd tl value b =>
      exact r.bind (h.eval value env) fun _ => r.bind (h.apply _ _) h.force
  | letIn x value b => exact r.bind (r.steady (.delay _)) fun _ => h.eval b _
  | call f args =>
      refine r.bind (h.eval f env) fun _ => r.bind (r.steady (.delayArgs env args)) fun xs => ?_
      exact r.bind (h.applyAll _ xs) h.force

theorem applyAll_succ (r : Respected policy policy' R) (h : Likewise R policy policy' fuel fuel')
    (f : Operand) (xs : List Operand) :
    R (Machine.applyAll policy (fuel + 1) f xs) (Machine.applyAll policy' (fuel' + 1) f xs) := by
  cases xs with
  | nil => exact r.steady (.pure f)
  | cons x xs => exact r.bind (h.apply f x) fun g => h.applyAll g xs

theorem truth_succ (r : Respected policy policy' R) (h : Likewise R policy policy' fuel fuel')
    (v : Value) : R (Machine.truth policy (fuel + 1) v) (Machine.truth policy' (fuel' + 1) v) := by
  -- a function is applied to probes, and the result is looked at
  have hprobed : ∀ {k : Value → Effect Bool}, (∀ w, Steady (k w)) → R
      (do
        let g ← Machine.apply policy fuel (.ready v) (.ready (.probe true))
        let r ← Machine.apply policy fuel g (.ready (.probe false))
        let w ← Machine.force policy fuel r
        k w)
      (do
        let g ← Machine.apply policy' fuel' (.ready v) (.ready (.probe true))
        let r ← Machine.apply policy' fuel' g (.ready (.probe false))
        let w ← Machine.force policy' fuel' r
        k w) := by
    intro k hk
    refine r.bind (h.apply _ _) fun _ => r.bind (h.apply _ _) fun _ => ?_
    exact r.bind (h.force _) fun w => r.steady (hk w)
  cases v with
  | bool b => exact r.steady (.pure b)
  | int => exact r.steady (.fail _)
  | nil => exact r.steady (.fail _)
  | cons => exact r.steady (.fail _)
  | probe => exact r.steady (.fail _)
  | _ =>
      refine hprobed fun w => ?_
      cases w with
      | probe first => exact .pure first
      | _ => exact .fail _

theorem truthOf_succ (r : Respected policy policy' R) (h : Likewise R policy policy' fuel fuel')
    (e : Expr) (env : Env) :
    R (Machine.truthOf policy (fuel + 1) e env) (Machine.truthOf policy' (fuel' + 1) e env) := by
  rw [Machine.truthOf, Machine.truthOf]
  exact r.bind (h.eval e env) fun v => h.truth v

/-- **A relation that is respected goes from one depth of the evaluators to the next.** -/
theorem succ (r : Respected policy policy' R) (h : Likewise R policy policy' fuel fuel') :
    Likewise R policy policy' (fuel + 1) (fuel' + 1) where
  apply := h.apply_succ r
  applyUnary := h.applyUnary_succ r
  applyBinary := h.applyBinary_succ r
  applyTernary := h.applyTernary_succ r
  force := h.force_succ r
  resume := h.resume_succ r
  run := h.run_succ r
  eval := h.eval_succ r
  applyAll := h.applyAll_succ r
  truth := h.truth_succ r
  truthOf := h.truthOf_succ r

/-- An evaluator that is out of fuel, and one that may not be. -/
theorem zero (h : ∀ {α : Type} (q : Effect α), (fuel' = 0 → q = Effect.outOfFuel) →
    R Effect.outOfFuel q) : Likewise R policy policy' 0 fuel' where
  apply _ _ := h _ fun h0 => by rw [h0]; rfl
  applyUnary _ _ := h _ fun h0 => by rw [h0]; rfl
  applyBinary _ _ _ := h _ fun h0 => by rw [h0]; rfl
  applyTernary _ _ _ _ := h _ fun h0 => by rw [h0]; rfl
  force _ := h _ fun h0 => by rw [h0]; rfl
  resume _ := h _ fun h0 => by rw [h0]; rfl
  run _ := h _ fun h0 => by rw [h0]; rfl
  eval _ _ := h _ fun h0 => by rw [h0]; rfl
  applyAll _ _ := h _ fun h0 => by rw [h0]; rfl
  truth _ := h _ fun h0 => by rw [h0]; rfl
  truthOf _ _ := h _ fun h0 => by rw [h0]; rfl

end Likewise

/-! ### More fuel -/

/-- `q` has the outcome of `p`, unless `p` is out of fuel. -/
def Extends (p q : Effect α) : Prop :=
  ∀ m, p m = .outOfFuel ∨ p m = q m

theorem Extends.bind {p q : Effect α} {k l : α → Effect β} (hp : Extends p q)
    (hk : ∀ a, Extends (k a) (l a)) : Extends (p >>= k) (q >>= l) := by
  intro m
  show Effect.bind p k m = .outOfFuel ∨ Effect.bind p k m = Effect.bind q l m
  rw [Effect.bind, Effect.bind]
  rcases hp m with hout | heq
  · rw [hout]
    exact Or.inl rfl
  · rw [← heq]
    cases p m with
    | value a m' => exact hk a m'
    | fault f m' => exact Or.inr rfl
    | outOfFuel => exact Or.inl rfl

theorem Extends.attempt {p q : Effect α} (hp : Extends p q) :
    Extends (Effect.attempt p) (Effect.attempt q) := by
  intro m
  rw [Effect.attempt, Effect.attempt]
  rcases hp m with hout | heq
  · rw [hout]
    exact Or.inl rfl
  · rw [heq]
    exact Or.inr rfl

theorem extends_respected (policy : Policy) : Respected policy policy Extends where
  steady _ := fun _ => Or.inr rfl
  bind := .bind
  tick := fun _ => Or.inr rfl
  settle addr hp hk := by
    refine hp.attempt.bind fun r m => ?_
    cases r with
    | ok y =>
        rw [settle_ok, settle_ok]
        exact hk y _
    | error f =>
        rw [settle_error, settle_error]
        exact Or.inr rfl

/-- **More fuel changes nothing but being out of fuel.** -/
theorem extends_of_le (policy : Policy) (h : fuel ≤ fuel') :
    Likewise Extends policy policy fuel fuel' := by
  induction fuel generalizing fuel' with
  | zero => exact .zero fun _ _ _ => Or.inl rfl
  | succ fuel ih =>
      obtain ⟨n, rfl⟩ := Nat.exists_eq_add_of_le' (show 1 ≤ fuel' by omega)
      exact (ih (show fuel ≤ n by omega)).succ (extends_respected policy)

/-! ### A limit on steps -/

/-- What a limit of `k` steps makes of an outcome: nothing, if it took no more, and a failure if
it took more or was not reached. -/
def Cut (k : Nat) (o : Outcome α) : Outcome α → Prop := fun o' =>
  match o.steps? with
  | some n => if n ≤ k then o' = o else ∃ m, o' = .fault (.stepLimit k) m
  | none => o' = .outOfFuel ∨ ∃ m, o' = .fault (.stepLimit k) m

/-- `p` is what a limit of `k` steps makes of `q`, from any memory that is not over the limit.
Steps are never taken back. -/
def Limits (k : Nat) (p q : Effect α) : Prop :=
  ∀ m, (∀ n, (q m).steps? = some n → m.steps ≤ n) ∧ (m.steps ≤ k → Cut k (q m) (p m))

theorem cut_over {k : Nat} {o : Outcome α} (h : ∀ n, o.steps? = some n → k < n) (m : Memory) :
    Cut k o (.fault (.stepLimit k) m) := by
  unfold Cut
  cases hn : o.steps? with
  | none => exact Or.inr ⟨m, rfl⟩
  | some n =>
      have hlt := h n hn
      show if n ≤ k then _ else _
      rw [if_neg (by omega)]
      exact ⟨m, rfl⟩

theorem cut_refl {k : Nat} {o : Outcome α} (h : ∀ n, o.steps? = some n → n ≤ k) : Cut k o o := by
  unfold Cut
  cases hn : o.steps? with
  | none =>
      cases o with
      | outOfFuel => exact Or.inl rfl
      | _ => cases hn
  | some n =>
      show if n ≤ k then _ else _
      rw [if_pos (h n hn)]

theorem cut_value {k : Nat} {a : α} {m : Memory} {o : Outcome α} (h : Cut k (.value a m) o) :
    (m.steps ≤ k ∧ o = .value a m) ∨ (k < m.steps ∧ ∃ m', o = .fault (.stepLimit k) m') := by
  unfold Cut at h
  by_cases hle : m.steps ≤ k
  · exact Or.inl ⟨hle, by simpa [Outcome.steps?, hle] using h⟩
  · exact Or.inr ⟨by omega, by simpa [Outcome.steps?, hle] using h⟩

theorem cut_fault {k : Nat} {f : Fault} {m : Memory} {o : Outcome α} (h : Cut k (.fault f m) o) :
    (m.steps ≤ k ∧ o = .fault f m) ∨ (k < m.steps ∧ ∃ m', o = .fault (.stepLimit k) m') := by
  unfold Cut at h
  by_cases hle : m.steps ≤ k
  · exact Or.inl ⟨hle, by simpa [Outcome.steps?, hle] using h⟩
  · exact Or.inr ⟨by omega, by simpa [Outcome.steps?, hle] using h⟩

namespace Limits

variable {k : Nat}

theorem steady {p : Effect α} (h : Steady p) : Limits k p p := by
  intro m
  refine ⟨fun n hn => Nat.le_of_eq (h m n hn).symm, fun hm => cut_refl fun n hn => ?_⟩
  rw [h m n hn]
  exact hm

theorem bind {p q : Effect α} {f g : α → Effect β} (hp : Limits k p q)
    (hf : ∀ a, Limits k (f a) (g a)) : Limits k (p >>= f) (q >>= g) := by
  intro m
  obtain ⟨hmono, hcut⟩ := hp m
  show (∀ n, (Effect.bind q g m).steps? = some n → _) ∧
    (_ → Cut k (Effect.bind q g m) (Effect.bind p f m))
  rw [Effect.bind, Effect.bind]
  cases hq : q m with
  | value a m' =>
      rw [hq] at hmono hcut
      have hle : m.steps ≤ m'.steps := hmono _ rfl
      refine ⟨fun n hn => Nat.le_trans hle ((hf a m').1 n hn), fun hm => ?_⟩
      rcases cut_value (hcut hm) with ⟨hm', hpm⟩ | ⟨hover, m'', hpm⟩
      · rw [hpm]
        exact (hf a m').2 hm'
      · -- the rest of the run only takes further steps
        rw [hpm]
        exact cut_over (fun n hn => Nat.lt_of_lt_of_le hover ((hf a m').1 n hn)) m''
  | fault e m' =>
      rw [hq] at hmono hcut
      refine ⟨hmono, fun hm => ?_⟩
      rcases cut_fault (hcut hm) with ⟨hm', hpm⟩ | ⟨hover, m'', hpm⟩
      · rw [hpm]
        exact cut_refl fun n hn => Option.some.inj hn ▸ hm'
      · rw [hpm]
        exact cut_over (fun n hn => Option.some.inj hn ▸ hover) m''
  | outOfFuel =>
      rw [hq] at hcut
      refine ⟨by simp [Outcome.steps?], fun hm => ?_⟩
      rcases hcut hm with hpm | ⟨m'', hpm⟩
      · rw [hpm]
        exact Or.inl rfl
      · rw [hpm]
        exact Or.inr ⟨m'', rfl⟩

theorem tick (memo : Bool) : Limits k (tick ⟨some k, memo⟩) (tick ⟨none, memo⟩) := by
  intro m
  refine ⟨fun n hn => ?_, fun hm => ?_⟩
  · have hn : m.steps + 1 = n := Option.some.inj hn
    omega
  · unfold Effect.tick
    by_cases hover : m.steps + 1 > k
    · simp only [hover, if_true]
      exact cut_over (fun n hn => Option.some.inj hn ▸ hover) _
    · simp only [hover, if_false]
      exact cut_refl fun n hn => Option.some.inj hn ▸ Nat.not_lt.mp hover

theorem settle (memo : Bool) {p q : Effect Operand} {f g : Operand → Effect Value} (addr : Nat)
    (hp : Limits k p q) (hf : ∀ y, Limits k (f y) (g y)) :
    Limits k (attempt p >>= Machine.settle ⟨some k, memo⟩ addr f)
      (attempt q >>= Machine.settle ⟨none, memo⟩ addr g) := by
  intro m
  obtain ⟨hmono, hcut⟩ := hp m
  show (∀ n, (Effect.bind (attempt q) _ m).steps? = some n → _) ∧
    (_ → Cut k (Effect.bind (attempt q) _ m) (Effect.bind (attempt p) _ m))
  rw [Effect.bind, Effect.bind, attempt, attempt]
  cases hq : q m with
  | value y m' =>
      rw [hq] at hmono hcut
      have hle : m.steps ≤ m'.steps := hmono _ rfl
      -- keeping an outcome takes no steps
      obtain ⟨hmono', hcut'⟩ := hf y (m'.keep ⟨none, memo⟩ addr (.done y))
      rw [Memory.keep_steps] at hmono' hcut'
      simp only [settle_ok]
      refine ⟨fun n hn => Nat.le_trans hle (hmono' n hn), fun hm => ?_⟩
      rcases cut_value (hcut hm) with ⟨hm', hpm⟩ | ⟨hover, m'', hpm⟩
      · simp only [hpm, settle_ok]
        exact hcut' hm'
      · -- the limit is reached on the way: that is kept as the outcome, and reported
        simp only [hpm, settle_error]
        exact cut_over (fun n hn => Nat.lt_of_lt_of_le hover (hmono' n hn)) _
  | fault e m' =>
      rw [hq] at hmono hcut
      have hle : m.steps ≤ m'.steps := hmono _ rfl
      simp only [settle_error]
      let failed : Outcome Value := .fault e (m'.keep ⟨none, memo⟩ addr (.failed e))
      have hsteps : ∀ n, failed.steps? = some n → n = m'.steps := fun n hn => by
        rw [← Option.some.inj hn, Memory.keep_steps]
      refine ⟨fun n hn => hsteps n hn ▸ hle, fun hm => ?_⟩
      rcases cut_fault (hcut hm) with ⟨hm', hpm⟩ | ⟨hover, m'', hpm⟩
      · simp only [hpm, settle_error]
        exact cut_refl fun n hn => hsteps n hn ▸ hm'
      · simp only [hpm, settle_error]
        exact cut_over (fun n hn => hsteps n hn ▸ hover) _
  | outOfFuel =>
      rw [hq] at hcut
      refine ⟨by simp [Outcome.steps?], fun hm => ?_⟩
      rcases hcut hm with hpm | ⟨m'', hpm⟩
      · rw [hpm]
        exact Or.inl rfl
      · simp only [hpm, settle_error]
        exact Or.inr ⟨_, rfl⟩

end Limits

theorem limits_respected (k : Nat) (memo : Bool) :
    Respected ⟨some k, memo⟩ ⟨none, memo⟩ (Limits k) where
  steady := .steady
  bind := .bind
  tick := .tick memo
  settle := .settle memo

/-- **A limit on steps changes nothing but what takes more steps.** -/
theorem limits (k : Nat) (memo : Bool) (fuel : Nat) :
    Likewise (Limits k) ⟨some k, memo⟩ ⟨none, memo⟩ fuel fuel := by
  induction fuel with
  | zero =>
      refine .zero fun q hq => ?_
      rw [hq rfl]
      exact .steady .outOfFuel
  | succ fuel ih => exact ih.succ (limits_respected k memo)

end Decombinator.Machine
