/-
What evaluation does to memory.

Memory only grows.  A computation that is given nothing above some level returns nothing above
it, and what it adds to memory is not above it either; what was there before keeps its level.
If everything up to some level was grounded, it still is.  And as long as no step is taken, the
only thing that happens to a cell is that a value or a failure takes its place.

All of this is one invariant of the evaluator, proved by induction on the fuel.
-/
import Decombinator.Proofs.Machine.References
import Decombinator.Proofs.Machine.Runs

namespace Decombinator.Machine

open Effect

/-! ### Later memories -/

/-- A cell that needs no more work. -/
def Cell.Settled : Cell → Prop
  | done (.ready _) => True
  | failed _ => True
  | _ => False

/-- A memory and what it has become. -/
structure Later (m m' : Memory) : Prop where
  sane : Sane m'
  size : m.cells.size ≤ m'.cells.size
  steps : m.steps ≤ m'.steps
  globals : m'.globals = m.globals
  calm : m'.steps = m.steps → ∀ a, a < m.cells.size →
    m'.cells[a]? = m.cells[a]? ∨ ∃ c, m'.cells[a]? = some c ∧ c.Settled

/-- Levels of a memory, and of what it has become. -/
structure Regrades (L L' : Node → Nat) (m m' : Memory) : Prop where
  agree : ∀ n, n.Exists m → L' n = L n
  graded : Graded L' m'
  solid : ∀ b, Solid L b m → Solid L' b m'

/-- Steps were taken only within the limit. -/
def Allowed (policy : Policy) (m m' : Memory) : Prop :=
  ∀ k, policy.limit = some k → m.steps < m'.steps → m'.steps ≤ k

variable {policy : Policy} {fuel l : Nat} {L L' L'' : Node → Nat} {m m' m'' : Memory}
  {x y : Operand} {v : Value} {env : Env} {s : Suspension} {α β : Type}

theorem Later.refl (hs : Sane m) : Later m m :=
  ⟨hs, Nat.le_refl _, Nat.le_refl _, rfl, fun _ _ _ => Or.inl rfl⟩

theorem Later.trans (h : Later m m') (h' : Later m' m'') : Later m m'' where
  sane := h'.sane
  size := Nat.le_trans h.size h'.size
  steps := Nat.le_trans h.steps h'.steps
  globals := h'.globals.trans h.globals
  calm hsteps a ha := by
    have hle := h.steps
    have hle' := h'.steps
    rcases h'.calm (by omega) a (Nat.lt_of_lt_of_le ha h.size) with heq | hsettled
    · rw [heq]
      exact h.calm (by omega) a ha
    · exact Or.inr hsettled

theorem Allowed.refl : Allowed policy m m :=
  fun _ _ h => absurd h (Nat.lt_irrefl _)

theorem Allowed.trans (h : Allowed policy m m') (h' : Allowed policy m' m'')
    (hle : m'.steps ≤ m''.steps) : Allowed policy m m'' := by
  intro k hk hlt
  by_cases hsteps : m'.steps < m''.steps
  · exact h' k hk hsteps
  · have heq : m''.steps = m'.steps := by omega
    rw [heq]
    exact h k hk (by omega)

theorem Later.exists (h : Later m m') {n : Node} (hn : n.Exists m) : n.Exists m' := by
  cases n with
  | name x => trivial
  | addr a => exact Nat.lt_of_lt_of_le hn h.size

theorem Regrades.refl (hg : Graded L m) : Regrades L L m m :=
  ⟨fun _ _ => rfl, hg, fun _ h => h⟩

theorem Regrades.trans (h : Later m m') (hr : Regrades L L' m m') (hr' : Regrades L' L'' m' m'') :
    Regrades L L'' m m'' :=
  ⟨fun n hn => (hr'.agree n (h.exists hn)).trans (hr.agree n hn), hr'.graded,
    fun b hb => hr'.solid b (hr.solid b hb)⟩

theorem Later.orderly (h : Later m m') (hr : Regrades L L' m m') : Orderly L' m' :=
  ⟨h.sane, hr.graded⟩

/-! ### What was there keeps its level -/

section Low

variable (h : Later m m') (hr : Regrades L L' m m')

include h hr

theorem Low.grow {n : Node} (hn : Low L l m n) : Low L' l m' n := by
  refine ⟨h.exists hn.1, ?_⟩
  rw [hr.agree n hn.1]
  exact hn.2

theorem Inside.grow (hx : Inside (Low L l m) x) : Inside (Low L' l m') x :=
  hx.mono fun _ => Low.grow h hr

theorem InsideVal.grow (hv : InsideVal (Low L l m) v) : InsideVal (Low L' l m') v :=
  hv.mono fun _ => Low.grow h hr

theorem InsideEnv.grow (henv : InsideEnv (Low L l m) env) : InsideEnv (Low L' l m') env :=
  henv.mono fun _ => Low.grow h hr

end Low

theorem Inside.raise {l' : Nat} (hx : Inside (Low L l m) x) (hl : l ≤ l') : Inside (Low L l' m) x :=
  hx.mono fun _ hn => ⟨hn.1, Nat.le_trans hn.2 hl⟩

theorem InsideVal.raise {l' : Nat} (hv : InsideVal (Low L l m) v) (hl : l ≤ l') :
    InsideVal (Low L l' m) v :=
  hv.mono fun _ hn => ⟨hn.1, Nat.le_trans hn.2 hl⟩

/-- All names are within a level. -/
def Open (L : Node → Nat) (l : Nat) : Prop :=
  ∀ x, L (.name x) ≤ l

theorem Open.grow (ho : Open L l) (hr : Regrades L L' m m') : Open L' l := by
  intro x
  rw [hr.agree (.name x) trivial]
  exact ho x

theorem Open.low (ho : Open L l) (x : String) : Low L l m (.name x) :=
  ⟨trivial, ho x⟩

/-! ### Outcomes -/

/-- An outcome that leaves memory orderly and is what `post` says. -/
def Grows (policy : Policy) (L : Node → Nat) (m : Memory)
    (post : (Node → Nat) → Memory → α → Prop) : Outcome α → Prop
  | .value a m' => Later m m' ∧ Allowed policy m m' ∧ ∃ L', Regrades L L' m m' ∧ post L' m' a
  | .fault _ m' => Later m m' ∧ ∃ L', Regrades L L' m m'
  | .outOfFuel => True

namespace Grows

variable {post : (Node → Nat) → Memory → α → Prop} {post' : (Node → Nat) → Memory → β → Prop}
  {p : Effect α} {k : α → Effect β}

theorem pure (ho : Orderly L m) {a : α} (h : post L m a) :
    Grows policy L m post ((Pure.pure a : Effect α) m) :=
  ⟨.refl ho.sane, .refl, L, .refl ho.graded, h⟩

theorem fail (ho : Orderly L m) (f : Fault) :
    Grows policy L m post ((Effect.fail f : Effect α) m) :=
  ⟨.refl ho.sane, L, .refl ho.graded⟩

theorem mono {post' : (Node → Nat) → Memory → α → Prop} {o : Outcome α}
    (ho : Grows policy L m post o)
    (h : ∀ {L' m' a}, Later m m' → post L' m' a → post' L' m' a) : Grows policy L m post' o := by
  cases o with
  | value a m' =>
      obtain ⟨hl, hallow, L', hr, hpost⟩ := ho
      exact ⟨hl, hallow, L', hr, h hl hpost⟩
  | fault e m' => exact ho
  | outOfFuel => trivial

/-- An outcome from a later memory is one from the memory before. -/
theorem after {o : Outcome α} (h : Later m m') (hallow : Allowed policy m m')
    (hr : Regrades L L' m m') (ho : Grows policy L' m' post o) : Grows policy L m post o := by
  cases o with
  | value a m'' =>
      obtain ⟨hl, hallow', L'', hr', hpost⟩ := ho
      exact ⟨h.trans hl, hallow.trans hallow' hl.steps, L'', hr.trans h hr', hpost⟩
  | fault e m'' =>
      obtain ⟨hl, L'', hr'⟩ := ho
      exact ⟨h.trans hl, L'', hr.trans h hr'⟩
  | outOfFuel => trivial

theorem bind (hp : Grows policy L m post (p m))
    (hk : ∀ {L' m' a}, Later m m' → Regrades L L' m m' → post L' m' a →
      Grows policy L' m' post' (k a m')) : Grows policy L m post' ((p >>= k) m) := by
  show Grows policy L m post' (Effect.bind p k m)
  rw [Effect.bind]
  cases hpm : p m with
  | value a m' =>
      rw [hpm] at hp
      obtain ⟨hl, hallow, L', hr, hpost⟩ := hp
      exact (hk hl hr hpost).after hl hallow hr
  | fault e m' =>
      rw [hpm] at hp
      exact hp
  | outOfFuel => trivial

theorem ofExcept (ho : Orderly L m) {r : Except Fault Value}
    (h : ∀ u, r = .ok u → InsideVal (Low L l m) u) :
    Grows policy L m (fun L' m' u => InsideVal (Low L' l m') u) (Effect.ofExcept r m) := by
  cases r with
  | ok u => exact .pure ho (h u rfl)
  | error f => exact .fail ho f

theorem ofExcept_ready (ho : Orderly L m) {r : Except Fault Value}
    (h : ∀ u, r = .ok u → InsideVal (Low L l m) u) :
    Grows policy L m (fun L' m' y => Inside (Low L' l m') y)
      ((do
        let u ← Effect.ofExcept r
        Pure.pure (.ready u) : Effect Operand) m) :=
  (Grows.ofExcept ho h).bind fun h₁ hr₁ hu => .pure (h₁.orderly hr₁) (inside_ready.mpr hu)

end Grows

/-! ### Small effects -/

/-- Taking a step. -/
theorem tick_grows (ho : Orderly L m) :
    Grows policy L m (fun _ m' _ => m.steps < m'.steps) (tick policy m) := by
  let m' : Memory := { m with steps := m.steps + 1 }
  have hl : Later m m' :=
    ⟨ho.sane.withSteps _, Nat.le_refl _, Nat.le_succ _, rfl, fun h => absurd h (Nat.succ_ne_self _)⟩
  have hr : Regrades L L m m' := ⟨fun _ _ => rfl, ho.graded, fun _ h => h⟩
  rw [tick]
  cases hlimit : policy.limit with
  | none =>
      refine ⟨hl, fun k hk _ => ?_, L, hr, Nat.lt_succ_self _⟩
      rw [hlimit] at hk
      cases hk
  | some k =>
      by_cases hover : m.steps + 1 > k
      · simp only [hover, if_true]
        exact ⟨hl, L, hr⟩
      · simp only [hover, if_false]
        refine ⟨hl, fun k' hk' _ => ?_, L, hr, Nat.lt_succ_self _⟩
        rw [hlimit] at hk'
        obtain rfl := Option.some.inj hk'
        exact Nat.not_lt.mp hover

theorem later_push (hs : Sane m) (hsus : ∀ n, s.Occurs n → n.Exists m) : Later m (m.push s) where
  sane := hs.push hsus
  size := by
    show m.cells.size ≤ (m.cells.push _).size
    rw [Array.size_push]
    omega
  steps := Nat.le_refl _
  globals := rfl
  calm _ a ha := by
    refine Or.inl ?_
    show (m.cells.push _)[a]? = _
    rw [Array.getElem?_push, if_neg (by omega)]

theorem Later.put {a : Nat} {c : Cell} (h : Later m m') (hs : Sane (m'.put a c))
    (hc : m'.steps = m.steps → c.Settled) : Later m (m'.put a c) where
  sane := hs
  size := by
    show m.cells.size ≤ (m'.cells.setIfInBounds a c).size
    rw [Array.size_setIfInBounds]
    exact h.size
  steps := h.steps
  globals := h.globals
  calm hsteps b hb := by
    have hb' : b < m'.cells.size := Nat.lt_of_lt_of_le hb h.size
    show (m'.cells.setIfInBounds a c)[b]? = _ ∨ ∃ c', (m'.cells.setIfInBounds a c)[b]? = some c' ∧ _
    by_cases hab : a = b
    · subst hab
      rw [Array.getElem?_setIfInBounds_self_of_lt hb']
      exact Or.inr ⟨c, rfl, hc hsteps⟩
    · rw [Array.getElem?_setIfInBounds_ne hab]
      exact h.calm hsteps b hb

/-- Suspending a computation. -/
theorem delay_grows (ho : Orderly L m) (hs : ∀ n, s.Occurs n → Low L l m n) :
    Grows policy L m (fun L' m' x => Inside (Low L' l m') x) (delay s m) := by
  obtain ⟨L', hagree, hnew, hgraded, hsolid⟩ := ho.push hs
  refine ⟨later_push ho.sane fun n hn => (hs n hn).1, .refl, L', ⟨hagree, hgraded, hsolid⟩, ?_⟩
  refine inside_delayed.mpr ⟨?_, Nat.le_of_eq hnew⟩
  show m.cells.size < (m.cells.push _).size
  rw [Array.size_push]
  omega

theorem occurs_expr (e : Expr) (henv : InsideEnv (Low L l m) env) (hopen : Open L l) (n : Node)
    (hn : (Suspension.expr e env).Occurs n) : Low L l m n := by
  rcases hn with ⟨q, hq, hn⟩ | ⟨x, rfl⟩
  · exact henv q hq n hn
  · exact hopen.low x

theorem delayList_grows (es : List Expr) : ∀ {L m}, Orderly L m → InsideEnv (Low L l m) env →
    Open L l → Grows policy L m (fun L' m' v => InsideVal (Low L' l m') v)
      (delayList env es m) := by
  induction es with
  | nil => exact fun ho _ _ => .pure ho insideVal_nil
  | cons e es ih =>
      intro L m ho henv hopen
      refine (ih ho henv hopen).bind fun h hr htail => ?_
      have hopen := hopen.grow hr
      refine (delay_grows (h.orderly hr) (occurs_expr e (henv.grow h hr) hopen)).bind
        fun h' hr' hhead => ?_
      exact .pure (h'.orderly hr')
        (insideVal_cons.mpr ⟨hhead, inside_ready.mpr (htail.grow h' hr')⟩)

theorem delayArgs_grows (es : List Expr) : ∀ {L m}, Orderly L m → InsideEnv (Low L l m) env →
    Open L l → Grows policy L m (fun L' m' xs => ∀ x ∈ xs, Inside (Low L' l m') x)
      (delayArgs env es m) := by
  induction es with
  | nil => exact fun ho _ _ => .pure ho (by simp)
  | cons e es ih =>
      intro L m ho henv hopen
      refine (delay_grows ho (occurs_expr e henv hopen)).bind fun h hr hx => ?_
      refine (ih (h.orderly hr) (henv.grow h hr) (hopen.grow hr)).bind fun h' hr' hxs => ?_
      refine .pure (h'.orderly hr') fun y hy => ?_
      rcases List.mem_cons.mp hy with rfl | hy
      · exact hx.grow h' hr'
      · exact hxs y hy

theorem global_grows (ho : Orderly L m) {x : String} (hx : L (.name x) ≤ l) :
    Grows policy L m (fun L' m' y => Inside (Low L' l m') y ∧ ∃ v, y = .ready v) (global x m) := by
  rw [global]
  cases hlookup : m.globals.lookup x with
  | none => exact .fail ho _
  | some v => exact .pure ho ⟨(ho.global hlookup).raise hx, ho.sane.ready hlookup⟩

theorem lookup_grows (ho : Orderly L m) (henv : InsideEnv (Low L l m) env) (hopen : Open L l)
    (x : String) : Grows policy L m (fun L' m' y => Inside (Low L' l m') y) (lookup env x m) := by
  rw [lookup]
  cases hlookup : env.lookup x with
  | some v => exact .pure ho (henv.lookup hlookup)
  | none => exact (global_grows ho (hopen x)).mono fun _ h => h.1

/-! ### The invariant -/

/-- Evaluation with this much fuel keeps memory orderly, and stays within the level of what it is
given. -/
structure Confined (policy : Policy) (fuel : Nat) : Prop where
  /-- Every application takes a step. -/
  apply : ∀ {L l m f x}, Orderly L m → Inside (Low L l m) f → Inside (Low L l m) x →
    Grows policy L m (fun L' m' y => Inside (Low L' l m') y ∧ m.steps < m'.steps)
      (apply policy fuel f x m)
  applyUnary : ∀ {L l m x} (g : Unary), Orderly L m → Inside (Low L l m) x →
    Grows policy L m (fun L' m' y => Inside (Low L' l m') y) (applyUnary policy fuel g x m)
  applyBinary : ∀ {L l m x y} (g : Binary), Orderly L m → Inside (Low L l m) x →
    Inside (Low L l m) y →
    Grows policy L m (fun L' m' y => Inside (Low L' l m') y) (applyBinary policy fuel g x y m)
  applyTernary : ∀ {L l m x y z} (g : Ternary), Orderly L m → Inside (Low L l m) x →
    Inside (Low L l m) y → Inside (Low L l m) z →
    Grows policy L m (fun L' m' y => Inside (Low L' l m') y) (applyTernary policy fuel g x y z m)
  force : ∀ {L l m x}, Orderly L m → Inside (Low L l m) x →
    Grows policy L m (fun L' m' v => InsideVal (Low L' l m') v) (force policy fuel x m)
  /-- What is still suspended took a step. -/
  resume : ∀ {L l m s}, Orderly L m → (∀ n, s.Occurs n → Low L l m n) →
    Grows policy L m (fun L' m' y => Inside (Low L' l m') y ∧
      ((∃ v, y = .ready v) ∨ m.steps < m'.steps)) (resume policy fuel s m)
  run : ∀ {L l m} (c : Code), Orderly L m → (∀ x ∈ c.occurrences, L (.name x) ≤ l) →
    Grows policy L m (fun L' m' y => Inside (Low L' l m') y ∧
      ((∃ v, y = .ready v) ∨ m.steps < m'.steps)) (run policy fuel c m)
  eval : ∀ {L l m env} (e : Expr), Orderly L m → InsideEnv (Low L l m) env → Open L l →
    Grows policy L m (fun L' m' v => InsideVal (Low L' l m') v) (eval policy fuel e env m)
  applyAll : ∀ {L l m f xs}, Orderly L m → Inside (Low L l m) f →
    (∀ x ∈ xs, Inside (Low L l m) x) →
    Grows policy L m (fun L' m' y => Inside (Low L' l m') y ∧ (y = f ∨ m.steps < m'.steps))
      (applyAll policy fuel f xs m)
  truth : ∀ {L l m v}, Orderly L m → InsideVal (Low L l m) v →
    Grows policy L m (fun _ _ _ => True) (truth policy fuel v m)
  truthOf : ∀ {L l m env} (e : Expr), Orderly L m → InsideEnv (Low L l m) env → Open L l →
    Grows policy L m (fun _ _ _ => True) (truthOf policy fuel e env m)

namespace Confined

theorem apply_succ (h : Confined policy fuel) {f : Operand} (ho : Orderly L m)
    (hf : Inside (Low L l m) f) (hx : Inside (Low L l m) x) :
    Grows policy L m (fun L' m' y => Inside (Low L' l m') y ∧ m.steps < m'.steps)
      (Machine.apply policy (fuel + 1) f x m) := by
  rw [Machine.apply]
  refine (tick_grows ho).bind fun {L₁ m₁ _} h₁ hr₁ htick => ?_
  -- what follows the step
  suffices hrest : Grows policy L₁ m₁ (fun L' m' y => Inside (Low L' l m') y) _ from
    hrest.mono fun hl hy => ⟨hy, Nat.lt_of_lt_of_le htick hl.steps⟩
  have hx := hx.grow h₁ hr₁
  refine (h.force (h₁.orderly hr₁) (hf.grow h₁ hr₁)).bind fun {L₂ m₂ v} h₂ hr₂ hv => ?_
  have ho := h₂.orderly hr₂
  have hx := hx.grow h₂ hr₂
  cases v with
  | int n => exact .fail ho _
  | bool b =>
      cases b with
      | true => exact .pure ho (inside_ready.mpr (insideVal_always.mpr hx))
      | false => exact .pure ho (inside_ready.mpr insideVal_second)
  | nil => exact .pure ho (inside_ready.mpr insideVal_bool)
  | cons head tail =>
      obtain ⟨hhead, htail⟩ := insideVal_cons.mp hv
      refine (h.apply ho hx hhead).bind fun h₃ hr₃ hg => ?_
      exact (h.apply (h₃.orderly hr₃) hg.1 (htail.grow h₃ hr₃)).mono fun _ hy => hy.1
  | unary g => exact h.applyUnary g ho hx
  | binary g => exact .pure ho (inside_ready.mpr (insideVal_binary1.mpr hx))
  | binary1 g a => exact h.applyBinary g ho (insideVal_binary1.mp hv) hx
  | ternary g => exact .pure ho (inside_ready.mpr (insideVal_ternary1.mpr hx))
  | ternary1 g a =>
      exact .pure ho (inside_ready.mpr (insideVal_ternary2.mpr ⟨insideVal_ternary1.mp hv, hx⟩))
  | ternary2 g a b =>
      obtain ⟨ha, hb⟩ := insideVal_ternary2.mp hv
      exact h.applyTernary g ho ha hb hx
  | always y => exact .pure ho (insideVal_always.mp hv)
  | second => exact .pure ho hx
  | closure label env p rest body =>
      obtain ⟨henv, hopen⟩ := insideVal_closure.mp hv
      have henv := henv.cons p hx
      cases rest with
      | nil =>
          refine (h.eval body ho henv fun y => (hopen y).2).bind fun h₃ hr₃ hw => ?_
          exact .pure (h₃.orderly hr₃) (inside_ready.mpr hw)
      | cons q rest => exact .pure ho (inside_ready.mpr (insideVal_closure.mpr ⟨henv, hopen⟩))
  | probe first => exact .pure ho (inside_ready.mpr insideVal_probe)

theorem applyUnary_succ (h : Confined policy fuel) (g : Unary) (ho : Orderly L m)
    (hx : Inside (Low L l m) x) :
    Grows policy L m (fun L' m' y => Inside (Low L' l m') y)
      (Machine.applyUnary policy (fuel + 1) g x m) := by
  have hbool : ∀ {L' m'} (b : Bool), Inside (Low L' l m') (.ready (.bool b)) :=
    fun b => inside_ready.mpr insideVal_bool
  cases g with
  | i => exact .pure ho hx
  | car =>
      refine (h.force ho hx).bind fun {L₁ m₁ v} h₁ hr₁ hv => ?_
      have happly : Grows policy L₁ m₁ (fun L' m' y => Inside (Low L' l m') y) _ :=
        (h.apply (h₁.orderly hr₁) (inside_ready.mpr hv) (hbool true)).mono fun _ hy => hy.1
      cases v with
      | cons head tail => exact .pure (h₁.orderly hr₁) (insideVal_cons.mp hv).1
      | _ => exact happly
  | cdr =>
      refine (h.force ho hx).bind fun {L₁ m₁ v} h₁ hr₁ hv => ?_
      have happly : Grows policy L₁ m₁ (fun L' m' y => Inside (Low L' l m') y) _ :=
        (h.apply (h₁.orderly hr₁) (inside_ready.mpr hv) (hbool false)).mono fun _ hy => hy.1
      cases v with
      | cons head tail => exact .pure (h₁.orderly hr₁) (insideVal_cons.mp hv).2
      | _ => exact happly
  | isnil =>
      refine (h.force ho hx).bind fun h₁ hr₁ _ => ?_
      exact .ofExcept_ready (h₁.orderly hr₁) fun _ hu => insideVal_testNil hu
  | neg =>
      refine (h.force ho hx).bind fun h₁ hr₁ _ => ?_
      exact .ofExcept_ready (h₁.orderly hr₁) fun _ hu => insideVal_negate hu

theorem applyBinary_succ (h : Confined policy fuel) (g : Binary) (ho : Orderly L m)
    (hx : Inside (Low L l m) x) (hy : Inside (Low L l m) y) :
    Grows policy L m (fun L' m' y => Inside (Low L' l m') y)
      (Machine.applyBinary policy (fuel + 1) g x y m) := by
  rw [Machine.applyBinary]
  cases g.operator? with
  | none => exact .pure ho (inside_ready.mpr (insideVal_cons.mpr ⟨hx, hy⟩))
  | some op =>
      refine (h.force ho hx).bind fun h₁ hr₁ _ => ?_
      refine (h.force (h₁.orderly hr₁) (hy.grow h₁ hr₁)).bind fun h₂ hr₂ _ => ?_
      exact .ofExcept_ready (h₂.orderly hr₂) fun _ hu => insideVal_arith hu

theorem applyTernary_succ (h : Confined policy fuel) {z : Operand} (g : Ternary) (ho : Orderly L m)
    (hx : Inside (Low L l m) x) (hy : Inside (Low L l m) y) (hz : Inside (Low L l m) z) :
    Grows policy L m (fun L' m' y => Inside (Low L' l m') y)
      (Machine.applyTernary policy (fuel + 1) g x y z m) := by
  have hyz : ∀ n, (Suspension.apply y z).Occurs n → Low L l m n := by
    rintro n (hn | hn)
    · exact hy n hn
    · exact hz n hn
  cases g with
  | b =>
      refine (delay_grows ho hyz).bind fun h₁ hr₁ hd => ?_
      exact (h.apply (h₁.orderly hr₁) (hx.grow h₁ hr₁) hd).mono fun _ hw => hw.1
  | c =>
      refine (h.apply ho hx hz).bind fun h₁ hr₁ hw => ?_
      exact (h.apply (h₁.orderly hr₁) hw.1 (hy.grow h₁ hr₁)).mono fun _ hw => hw.1
  | s =>
      refine (delay_grows ho hyz).bind fun h₁ hr₁ hd => ?_
      refine (h.apply (h₁.orderly hr₁) (hx.grow h₁ hr₁) (hz.grow h₁ hr₁)).bind fun h₂ hr₂ hw => ?_
      exact (h.apply (h₂.orderly hr₂) hw.1 (hd.grow h₂ hr₂)).mono fun _ hw => hw.1

/-! ### Forcing -/

/-- The outcome of a suspended computation may be kept. -/
theorem keep (h : Confined policy fuel) {a : Nat} (ho : Orderly L m)
    (ha : m.cells[a]? = some (.pending s)) (hr : Machine.resume policy fuel s m = .value y m') :
    Later m (m'.keep policy a (.done y)) ∧ Allowed policy m (m'.keep policy a (.done y)) ∧
      ((∃ v, y = .ready v) ∨ m.steps < m'.steps) ∧
      ∃ L', Regrades L L' m (m'.keep policy a (.done y)) ∧
        Inside (Low L' (L (.addr a)) (m'.keep policy a (.done y))) y := by
  have hlevels := h.resume ho (ho.cell ha)
  rw [hr] at hlevels
  obtain ⟨hl, hallow, L', hrl, hy, hready⟩ := hlevels
  rw [Memory.keep]
  cases policy.memo with
  | false => exact ⟨hl, hallow, hready, L', hrl, hy⟩
  | true =>
      have hlt : a < m.cells.size := (Array.getElem?_eq_some_iff.mp ha).1
      have hlevel : L' (.addr a) = L (.addr a) := hrl.agree (.addr a) hlt
      have hsane : Sane (m'.put a (.done y)) := hl.sane.put fun n hn => (hy n hn).1
      -- without a step the outcome is a value
      have hsettled : m'.steps = m.steps → (Cell.done y).Settled := by
        intro hsteps
        rcases hready with ⟨v, rfl⟩ | hlt
        · trivial
        · omega
      refine ⟨hl.put hsane hsettled, hallow, hready, L', ⟨hrl.agree, ?_, fun b hb => ?_⟩, ?_⟩
      · refine updates_put.graded hrl.graded fun n hn => ?_
        rw [hlevel]
        exact (hy n hn).2
      · by_cases hle : L (.addr a) ≤ b
        · -- two levels that tell the computation from its own address
          obtain ⟨L₀, hg₀, hsolid₀, hone, hzero⟩ := ho.sane.apart ha (hb _ hle)
          have hapart := h.resume ⟨ho.sane, hg₀⟩ hzero
          rw [hr] at hapart
          obtain ⟨-, -, L₁, hr₁, hy₁, -⟩ := hapart
          have ha₁ : 0 < L₁ (.addr a) := by
            rw [hr₁.agree (.addr a) hlt, hone]
            exact Nat.zero_lt_one
          exact fun n hn => updates_put.grounded hr₁.graded ha₁ (hr₁.solid 0 hsolid₀)
            (fun n hn => (hy₁ n hn).2) (hrl.solid b hb n hn)
        · refine updates_put.solid hrl.graded ?_ (hrl.solid b hb)
          rw [hlevel]
          exact Nat.not_le.mp hle
      · exact hy.mono fun n hn => ⟨Node.exists_put.mpr hn.1, hn.2⟩

/-- So may its failure. -/
theorem keep_failed (h : Confined policy fuel) {a : Nat} {e : Fault} (ho : Orderly L m)
    (ha : m.cells[a]? = some (.pending s)) (hr : Machine.resume policy fuel s m = .fault e m') :
    Later m (m'.keep policy a (.failed e)) ∧
      ∃ L', Regrades L L' m (m'.keep policy a (.failed e)) := by
  have hresume := h.resume ho (ho.cell ha)
  rw [hr] at hresume
  obtain ⟨hl, L', hrl⟩ := hresume
  rw [Memory.keep]
  cases policy.memo with
  | false => exact ⟨hl, L', hrl⟩
  | true =>
      have hsane : Sane (m'.put a (.failed e)) := hl.sane.put fun n hn => hn.elim
      refine ⟨hl.put hsane fun _ => trivial, L', hrl.agree, ?_, fun b hb n hn => ?_⟩
      · exact updates_put.graded hrl.graded fun n hn => hn.elim
      · refine (hrl.solid b hb n hn).mono fun h => ?_
        rcases updates_put h with ⟨-, hn⟩ | ⟨-, hn⟩
        · exact hn.elim
        · exact hn

theorem force_succ (h : Confined policy fuel) (ho : Orderly L m) (hx : Inside (Low L l m) x) :
    Grows policy L m (fun L' m' v => InsideVal (Low L' l m') v)
      (Machine.force policy (fuel + 1) x m) := by
  cases x with
  | ready v => exact .pure ho (inside_ready.mp hx)
  | delayed a =>
      obtain ⟨hlt, hlevel⟩ := inside_delayed.mp hx
      have hcell : m.cells[a]? = some m.cells[a] := Array.getElem?_eq_getElem hlt
      cases hc : m.cells[a] with
      | done y =>
          rw [hc] at hcell
          rw [force_done policy fuel hcell]
          exact (h.force ho (ho.cell hcell)).mono fun _ hv => hv.raise hlevel
      | failed e =>
          rw [hc] at hcell
          rw [force_failed policy fuel hcell]
          exact .fail ho e
      | pending s =>
          rw [hc] at hcell
          rw [force_pending policy fuel hcell]
          cases hr : Machine.resume policy fuel s m with
          | value y m' =>
              obtain ⟨hl, hallow, -, L', hrl, hy⟩ := h.keep ho hcell hr
              exact (h.force (hl.orderly hrl) (hy.raise hlevel)).after hl hallow hrl
          | fault e m' => exact h.keep_failed ho hcell hr
          | outOfFuel => trivial

/-! ### Code and expressions -/

theorem resume_succ (h : Confined policy fuel) (ho : Orderly L m)
    (hs : ∀ n, s.Occurs n → Low L l m n) :
    Grows policy L m (fun L' m' y => Inside (Low L' l m') y ∧
      ((∃ v, y = .ready v) ∨ m.steps < m'.steps)) (Machine.resume policy (fuel + 1) s m) := by
  cases s with
  | code c => exact h.run c ho fun x hx => (hs (.name x) ⟨x, hx, rfl⟩).2
  | expr e env =>
      have henv : InsideEnv (Low L l m) env := fun q hq n hn => hs n (Or.inl ⟨q, hq, hn⟩)
      have hopen : Open L l := fun x => (hs (.name x) (Or.inr ⟨x, rfl⟩)).2
      refine (h.eval e ho henv hopen).bind fun {L₁ m₁ v} h₁ hr₁ hv => ?_
      exact .pure (h₁.orderly hr₁) ⟨inside_ready.mpr hv, Or.inl ⟨v, rfl⟩⟩
  | apply f x =>
      refine (h.apply ho (fun n hn => hs n (Or.inl hn)) fun n hn => hs n (Or.inr hn)).mono ?_
      exact fun _ hy => ⟨hy.1, Or.inr hy.2⟩

theorem run_succ (h : Confined policy fuel) (c : Code) (ho : Orderly L m)
    (hc : ∀ x ∈ c.occurrences, L (.name x) ≤ l) :
    Grows policy L m (fun L' m' y => Inside (Low L' l m') y ∧
      ((∃ v, y = .ready v) ∨ m.steps < m'.steps)) (Machine.run policy (fuel + 1) c m) := by
  cases c with
  | int n => exact .pure ho ⟨inside_ready.mpr insideVal_int, Or.inl ⟨_, rfl⟩⟩
  | sym x =>
      refine (global_grows ho (hc x (List.mem_singleton_self x))).mono fun _ hy => ?_
      exact ⟨hy.1, Or.inl hy.2⟩
  | prim p => exact .pure ho ⟨inside_ready.mpr (insideVal_ofPrim p), Or.inl ⟨_, rfl⟩⟩
  | ap f a =>
      refine (h.run f ho fun x hx => hc x (List.mem_append_left _ hx)).bind
        fun {L₁ m₁ g} h₁ hr₁ hg => ?_
      have ha : ∀ n, (Suspension.code a).Occurs n → Low L₁ l m₁ n := by
        rintro n ⟨x, hx, rfl⟩
        exact Low.grow h₁ hr₁ ⟨trivial, hc x (List.mem_append_right _ hx)⟩
      refine (delay_grows (h₁.orderly hr₁) ha).bind fun h₂ hr₂ hd => ?_
      refine (h.apply (h₂.orderly hr₂) (hg.1.grow h₂ hr₂) hd).mono fun _ hy => ⟨hy.1, Or.inr ?_⟩
      exact Nat.lt_of_le_of_lt (Nat.le_trans h₁.steps h₂.steps) hy.2

/-- Applying and forcing the result. -/
theorem applyForce (h : Confined policy fuel) {f : Operand} (ho : Orderly L m)
    (hf : Inside (Low L l m) f) (hx : Inside (Low L l m) x) :
    Grows policy L m (fun L' m' v => InsideVal (Low L' l m') v)
      ((Machine.apply policy fuel f x >>= Machine.force policy fuel) m) :=
  (h.apply ho hf hx).bind fun h₁ hr₁ hy => h.force (h₁.orderly hr₁) hy.1

theorem eval_succ (h : Confined policy fuel) (e : Expr) (ho : Orderly L m)
    (henv : InsideEnv (Low L l m) env) (hopen : Open L l) :
    Grows policy L m (fun L' m' v => InsideVal (Low L' l m') v)
      (Machine.eval policy (fuel + 1) e env m) := by
  have hbool : ∀ {L' m' b}, InsideVal (Low L' l m') (.bool b) := insideVal_bool
  have hoperation : ∀ (op : BinOp) (a b : Expr),
      Grows policy L m (fun L' m' v => InsideVal (Low L' l m') v)
        ((do
          let v ← Machine.eval policy fuel a env
          let w ← Machine.eval policy fuel b env
          Effect.ofExcept (arith op v w) : Effect Value) m) := by
    intro op a b
    refine (h.eval a ho henv hopen).bind fun h₁ hr₁ _ => ?_
    refine (h.eval b (h₁.orderly hr₁) (henv.grow h₁ hr₁) (hopen.grow hr₁)).bind fun h₂ hr₂ _ => ?_
    exact .ofExcept (h₂.orderly hr₂) fun _ hu => insideVal_arith hu
  have hfunction : ∀ {L' m'} (h₁ : Later m m') (hr₁ : Regrades L L' m m') (p : String)
      (ps : List String) (b : Expr), InsideVal (Low L' l m') (.function env p ps b) :=
    fun h₁ hr₁ _ _ _ => insideVal_closure.mpr ⟨henv.grow h₁ hr₁, (hopen.grow hr₁).low⟩
  cases e with
  | int n => exact .pure ho insideVal_int
  | bool b => exact .pure ho hbool
  | prim p => exact .pure ho (insideVal_ofPrim p)
  | func p ps b => exact .pure ho (hfunction (.refl ho.sane) (.refl ho.graded) p ps b)
  | list es => exact delayList_grows es ho henv hopen
  | sym x =>
      exact (lookup_grows ho henv hopen x).bind fun h₁ hr₁ hy => h.force (h₁.orderly hr₁) hy
  | neg a =>
      refine (h.eval a ho henv hopen).bind fun h₁ hr₁ hv => ?_
      exact h.applyForce (h₁.orderly hr₁) (inside_ready.mpr insideVal_unary) (inside_ready.mpr hv)
  | not a =>
      exact (h.truthOf a ho henv hopen).bind fun h₁ hr₁ _ => .pure (h₁.orderly hr₁) hbool
  | isNil a =>
      refine (h.eval a ho henv hopen).bind fun h₁ hr₁ _ => ?_
      exact .ofExcept (h₁.orderly hr₁) fun _ hu => insideVal_testNil hu
  | binary op a b =>
      have hsecond : ∀ {L₁ m₁}, Later m m₁ → Regrades L L₁ m m₁ →
          Grows policy L₁ m₁ (fun L' m' v => InsideVal (Low L' l m') v)
            ((do
              let t ← Machine.truthOf policy fuel b env
              pure (.bool t) : Effect Value) m₁) := fun h₁ hr₁ =>
        (h.truthOf b (h₁.orderly hr₁) (henv.grow h₁ hr₁) (hopen.grow hr₁)).bind
          fun h₂ hr₂ _ => .pure (h₂.orderly hr₂) hbool
      cases op with
      | and =>
          refine (h.truthOf a ho henv hopen).bind fun {L₁ m₁ t} h₁ hr₁ _ => ?_
          cases t with
          | true => exact hsecond h₁ hr₁
          | false => exact .pure (h₁.orderly hr₁) hbool
      | or =>
          refine (h.truthOf a ho henv hopen).bind fun {L₁ m₁ t} h₁ hr₁ _ => ?_
          cases t with
          | true => exact .pure (h₁.orderly hr₁) hbool
          | false => exact hsecond h₁ hr₁
      | _ => exact hoperation _ a b
  | cond test yes no =>
      refine (h.truthOf test ho henv hopen).bind fun {L₁ m₁ t} h₁ hr₁ _ => ?_
      cases t with
      | true => exact h.eval yes (h₁.orderly hr₁) (henv.grow h₁ hr₁) (hopen.grow hr₁)
      | false => exact h.eval no (h₁.orderly hr₁) (henv.grow h₁ hr₁) (hopen.grow hr₁)
  | matchList value empty p q b =>
      refine (h.eval value ho henv hopen).bind fun {L₁ m₁ v} h₁ hr₁ hv => ?_
      have happly := h.applyForce (h₁.orderly hr₁) (inside_ready.mpr hv)
        (inside_ready.mpr (hfunction h₁ hr₁ p [q] b))
      cases v with
      | nil => exact h.eval empty (h₁.orderly hr₁) (henv.grow h₁ hr₁) (hopen.grow hr₁)
      | _ => exact happly
  | letCons p q value b =>
      refine (h.eval value ho henv hopen).bind fun h₁ hr₁ hv => ?_
      exact h.applyForce (h₁.orderly hr₁) (inside_ready.mpr hv)
        (inside_ready.mpr (hfunction h₁ hr₁ p [q] b))
  | letIn x value b =>
      refine (delay_grows ho (occurs_expr value henv hopen)).bind fun h₁ hr₁ hd => ?_
      exact h.eval b (h₁.orderly hr₁) ((henv.grow h₁ hr₁).cons x hd) (hopen.grow hr₁)
  | call f args =>
      refine (h.eval f ho henv hopen).bind fun h₁ hr₁ hg => ?_
      refine (delayArgs_grows args (h₁.orderly hr₁) (henv.grow h₁ hr₁) (hopen.grow hr₁)).bind
        fun h₂ hr₂ hxs => ?_
      refine (h.applyAll (h₂.orderly hr₂) (inside_ready.mpr (hg.grow h₂ hr₂)) hxs).bind ?_
      exact fun h₃ hr₃ hy => h.force (h₃.orderly hr₃) hy.1

theorem applyAll_succ (h : Confined policy fuel) {f : Operand} {xs : List Operand}
    (ho : Orderly L m) (hf : Inside (Low L l m) f) (hxs : ∀ x ∈ xs, Inside (Low L l m) x) :
    Grows policy L m (fun L' m' y => Inside (Low L' l m') y ∧ (y = f ∨ m.steps < m'.steps))
      (Machine.applyAll policy (fuel + 1) f xs m) := by
  cases xs with
  | nil => exact .pure ho ⟨hf, Or.inl rfl⟩
  | cons x xs =>
      refine (h.apply ho hf (hxs x List.mem_cons_self)).bind fun {L₁ m₁ g} h₁ hr₁ hg => ?_
      have hxs : ∀ y ∈ xs, Inside (Low L₁ l m₁) y := fun y hy =>
        (hxs y (List.mem_cons_of_mem _ hy)).grow h₁ hr₁
      refine (h.applyAll (h₁.orderly hr₁) hg.1 hxs).mono fun h₂ hy => ⟨hy.1, Or.inr ?_⟩
      exact Nat.lt_of_lt_of_le hg.2 h₂.steps

theorem truth_succ (h : Confined policy fuel) (ho : Orderly L m) (hv : InsideVal (Low L l m) v) :
    Grows policy L m (fun _ _ _ => True) (Machine.truth policy (fuel + 1) v m) := by
  have hprobe : ∀ {L' m'} (first : Bool), Inside (Low L' l m') (.ready (.probe first)) :=
    fun _ => inside_ready.mpr insideVal_probe
  have hprobed : ∀ {k : Value → Effect Bool},
      (∀ {L' m'} w, Orderly L' m' → Grows policy L' m' (fun _ _ _ => True) (k w m')) →
      Grows policy L m (fun _ _ _ => True)
        ((do
          let g ← Machine.apply policy fuel (.ready v) (.ready (.probe true))
          let r ← Machine.apply policy fuel g (.ready (.probe false))
          let w ← Machine.force policy fuel r
          k w : Effect Bool) m) := by
    intro k hk
    refine (h.apply ho (inside_ready.mpr hv) (hprobe true)).bind fun h₁ hr₁ hg => ?_
    refine (h.apply (h₁.orderly hr₁) hg.1 (hprobe false)).bind fun h₂ hr₂ hr => ?_
    exact (h.force (h₂.orderly hr₂) hr.1).bind fun h₃ hr₃ _ => hk _ (h₃.orderly hr₃)
  cases v with
  | bool b => exact .pure ho trivial
  | int => exact .fail ho _
  | nil => exact .fail ho _
  | cons => exact .fail ho _
  | probe => exact .fail ho _
  | _ =>
      refine hprobed fun w ho => ?_
      cases w with
      | probe first => exact .pure ho trivial
      | _ => exact .fail ho _

theorem truthOf_succ (h : Confined policy fuel) (e : Expr) (ho : Orderly L m)
    (henv : InsideEnv (Low L l m) env) (hopen : Open L l) :
    Grows policy L m (fun _ _ _ => True) (Machine.truthOf policy (fuel + 1) e env m) :=
  (h.eval e ho henv hopen).bind fun h₁ hr₁ hv => h.truth (h₁.orderly hr₁) hv

end Confined

/-- **Evaluation keeps memory orderly.** -/
theorem confined (policy : Policy) (fuel : Nat) : Confined policy fuel := by
  induction fuel with
  | zero =>
      exact {
        apply := fun _ _ _ => trivial
        applyUnary := fun _ _ _ => trivial
        applyBinary := fun _ _ _ _ => trivial
        applyTernary := fun _ _ _ _ _ => trivial
        force := fun _ _ => trivial
        resume := fun _ _ => trivial
        run := fun _ _ _ => trivial
        eval := fun _ _ _ _ => trivial
        applyAll := fun _ _ _ => trivial
        truth := fun _ _ => trivial
        truthOf := fun _ _ _ _ => trivial }
  | succ fuel h =>
      exact {
        apply := h.apply_succ
        applyUnary := h.applyUnary_succ
        applyBinary := h.applyBinary_succ
        applyTernary := h.applyTernary_succ
        force := h.force_succ
        resume := h.resume_succ
        run := h.run_succ
        eval := h.eval_succ
        applyAll := h.applyAll_succ
        truth := h.truth_succ
        truthOf := h.truthOf_succ }

end Decombinator.Machine
