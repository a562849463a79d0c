/-
Functions that pass for booleans.

A machine is used by evaluating code, expressions and data on it, by applying and forcing what came
of that, and by asking which boolean a function is.  In between, names are defined as what
evaluations give, each of them once and before a computation has failed for want of it.  A `Bench`
is a machine together with the operands that have come of using it.  What it has in memory can be
read by name, whatever was done, and no probe is ever among the operands at hand.

So what is known by name of functions that tell two probes apart holds on every bench.  Such a
function need not select like a boolean: since a probe absorbs what it is applied to, a function may
apply its argument and still return it.  But then it fails on integers.
-/
import Mathlib.Logic.Relation
import Decombinator.Proofs.ByName.Selection
import Decombinator.Proofs.ByName.Verdict

namespace Decombinator.ByName

open Machine

/-! ### Using a machine -/

/-- What can be evaluated on a machine by itself. -/
inductive Source
  | data (d : Data)
  | code (c : Code)
  | expr (e : Expr)

def Source.eval (policy : Policy) (fuel : Nat) : Source → Effect Value
  | data d => pure d.value
  | code c => evalCode policy fuel c
  | expr e => evalExpr policy fuel e

/-- The computation that is evaluated. -/
def Source.arg : Source → Arg
  | data d => .ready d.val
  | code c => .code c
  | expr e => .expr e []

inductive Act
  | eval (s : Source)
  | apply (f x : Operand)
  | force (x : Operand)
  | truth (v : Value)

namespace Act

/-- The operands that have to be at hand. -/
def operands : Act → List Operand
  | eval _ => []
  | apply f x => [f, x]
  | force x => [x]
  | truth v => [.ready v]

/-- The operands that come of it.  Forcing a list makes its first element and the rest of it
available. -/
def run (policy : Policy) (fuel : Nat) : Act → Effect (List Operand)
  | eval s => do
    let v ← s.eval policy fuel
    pure [.ready v]
  | apply f x => do
    let r ← Machine.apply policy fuel f x
    pure [r]
  | force x => do
    match ← Machine.force policy fuel x with
    | .cons head tail => pure [.ready (.cons head tail), head, tail]
    | v => pure [.ready v]
  | truth v => do
    let _ ← Machine.truth policy fuel v
    pure []

end Act

/-- A machine, the operands at hand, and what its names were defined as. -/
structure Bench where
  memory : Memory := {}
  hand : List Operand := []
  defs : List (String × Source) := []

/-- The bench after an act.  What a failure did to the memory stays. -/
def Bench.after (policy : Policy) (fuel : Nat) (b : Bench) (a : Act) : Bench :=
  match a.run policy fuel b.memory with
  | .value ys m => { b with memory := m, hand := ys ++ b.hand }
  | .fault _ m => { b with memory := m }
  | .outOfFuel => b

inductive Step (policy : Policy) : Bench → Bench → Prop
  | acts {b : Bench} (fuel : Nat) (a : Act) (hown : ∀ y ∈ a.operands, y ∈ b.hand) :
      Step policy b (b.after policy fuel a)
  | defines {b : Bench} {x : String} {s : Source} {fuel : Nat} {v : Value} {m : Memory}
      (hnew : b.defs.lookup x = none) (hrun : s.eval policy fuel b.memory = .value v m)
      (hunmet : ∀ a : Nat, m.cells[a]? ≠ some (.failed (.unbound x))) :
      Step policy b { b with memory := m.define x (.ready v), defs := (x, s) :: b.defs }

/-- One bench comes of using another one. -/
def Leads (policy : Policy) : Bench → Bench → Prop :=
  Relation.ReflTransGen (Step policy)

/-! ### Reading a bench -/

/-- A machine on which some of the names of `Γ` are still to be defined. -/
def Globals.during (Γ : Globals) (env : Env) : World where
  names := Γ
  env := env
  excused f := ∃ x, f = .unbound x ∧ global Γ x ≠ .stuck (.unbound x) ∧ env.lookup x = none
  missing {x} hnone := by
    by_cases hx : global Γ x = .stuck (.unbound x)
    · exact Or.inl hx
    · exact Or.inr ⟨x, rfl, hx, hnone⟩

/-- What the names of a bench stand for. -/
def Bench.names (b : Bench) : Globals :=
  { lookup := fun x => (b.defs.lookup x).map Source.arg }

/-- An operand that stands for a computation without probes. -/
def Clean (Γ : Globals) (H : List Arg) (y : Operand) : Prop :=
  ∃ x, Reads H y x ∧ x.ProbeFree Γ

/-- A bench that is read by name. -/
structure Readable (Γ : Globals) (H : List Arg) (b : Bench) : Prop where
  sound : Sound (Γ.during b.memory.globals) H b.memory
  hand : ∀ y ∈ b.hand, Clean Γ H y
  defined : ∀ x, (b.defs.lookup x).isSome → (b.memory.globals.lookup x).isSome

variable {policy : Policy} {Γ : Globals} {H H' : List Arg} {b b' : Bench} {m : Memory} {fuel : Nat}

theorem Clean.grow (h : H <+: H') {y : Operand} : Clean Γ H y → Clean Γ H' y :=
  fun ⟨x, hx, hfree⟩ => ⟨x, hx.grow h, hfree⟩

theorem Clean.value (hΓ : Γ.ProbeFree) {v : Value} (h : Clean Γ H (.ready v)) :
    ∃ v', ReadsVal H v v' ∧ v'.ProbeFree Γ := by
  obtain ⟨x, hx, hfree⟩ := h
  cases hx with
  | ready hv => exact ⟨_, hv, hfree.evals hΓ (evals_ready.mpr rfl)⟩

theorem readable_start (Γ : Globals) : Readable Γ [] {} where
  sound := ⟨rfl, fun a c hc => by simp at hc, rfl, fun x y hy => by cases hy⟩
  hand y hy := by cases hy
  defined x hx := by cases hx

theorem Data.probeFree (d : Data) : d.val.ProbeFree Γ := by
  intro σ
  induction d with
  | int n => exact .int n
  | bool b => exact .bool b
  | nil => exact .nil
  | cons _ _ ihh iht => exact .cons (.ready ihh) (.ready iht)

theorem Source.probeFree (s : Source) : s.arg.ProbeFree Γ := by
  intro σ
  cases s with
  | data d => exact .ready (d.probeFree σ)
  | code c => exact .code c
  | expr e => exact .expr e .nil

theorem Bench.names_probeFree (b : Bench) : b.names.ProbeFree := by
  intro x y hy
  obtain ⟨s, -, rfl⟩ := Option.map_eq_some_iff.mp hy
  exact s.probeFree

theorem during_follows (hlimit : policy.limit = none) (Γ : Globals) (env : Env) (fuel : Nat) :
    Follows policy (Γ.during env) fuel :=
  followsWithin (fun limit hsome => by rw [hlimit] at hsome; cases hsome) fuel

/-! ### What comes of using a machine -/

/-- What is left of a computation whose values are without probes. -/
theorem Left.clean {n : Next} {y : Operand} (h : Left Γ H n y)
    (hn : ∀ v, Gives Γ n v → v.ProbeFree Γ) : Clean Γ H y := by
  obtain ⟨y', d, hy, hshift, -⟩ := h
  exact ⟨y', hy, fun σ => .known fun v hv => hn v (hshift.gives_iff.mpr hv) σ⟩

/-- What is left of a computation, if it is a value. -/
theorem Left.gives {n : Next} {v : Value} (h : Left Γ H n (.ready v)) :
    ∃ v', ReadsVal H v v' ∧ Gives Γ n v' := by
  obtain ⟨y', d, hy, hshift, -⟩ := h
  cases hy with
  | ready hv => exact ⟨_, hv, hshift.gives_iff.mpr (evals_ready.mpr rfl)⟩

/-- An effect returns what is left of the computation that it follows. -/
theorem Reaches.left_keeps {α : Type} {Γ : World} {n : Next} {rank : Nat} {f : α → Operand}
    {o : Outcome α} (h : Reaches Γ H n fuel rank f o) :
    Keeps Γ H (fun H' a => Left Γ H' n (f a)) (fun _ => True) o := by
  cases o with
  | value a m => exact h
  | fault e m => exact ⟨h.1, trivial⟩
  | outOfFuel => trivial

theorem Source.eval_reaches {Γ : World} (h : Follows policy Γ fuel) (hs : Sound Γ H m)
    (s : Source) :
    Reaches Γ H (next Γ s.arg) (fuel + 1) 6 .ready (s.eval policy fuel m) := by
  cases s with
  | data d => exact .ret hs rfl (d.reads H)
  | code c => exact h.evalCode hs c
  | expr e => exact h.evalExpr hs e

/-- **Whatever is done, the operands that come of it are without probes.** -/
theorem Act.run_keeps {env : Env} (h : Follows policy (Γ.during env) fuel) (hΓ : Γ.ProbeFree)
    (hs : Sound (Γ.during env) H m) (a : Act) (hown : ∀ y ∈ a.operands, Clean Γ H y) :
    Keeps (Γ.during env) H (fun H' ys => ∀ y ∈ ys, Clean Γ H' y) (fun _ => True)
      (a.run policy fuel m) := by
  cases a with
  | eval s =>
      refine (s.eval_reaches h hs).left_keeps.bind (fun _ hs hleft => .pure hs ?_) id
      rintro y (_ | ⟨_, ⟨⟩⟩)
      exact hleft.clean fun v hv => s.probeFree.evals hΓ hv
  | apply f x =>
      obtain ⟨f', hf, hffree⟩ := hown f (by simp [operands])
      obtain ⟨x', hx, hxfree⟩ := hown x (by simp [operands])
      have hfree : (Arg.apply f' x').ProbeFree Γ := fun σ => .apply (hffree σ) (hxfree σ)
      refine (h.apply hs hf hx).left_keeps.bind (fun _ hs hleft => .pure hs ?_) id
      rintro y (_ | ⟨_, ⟨⟩⟩)
      exact hleft.clean fun v hv => hfree.evals hΓ hv
  | force x =>
      obtain ⟨x', hx, hxfree⟩ := hown x (by simp [operands])
      refine (h.force hs hx).left_keeps.bind (fun {H' m' v} _ hs hleft => ?_) id
      obtain ⟨v', hread, hv⟩ := hleft.gives
      have hfree : v'.ProbeFree Γ := hxfree.evals hΓ hv
      have hself : Clean Γ H' (.ready v) := ⟨.ready v', .ready hread, fun σ => .ready (hfree σ)⟩
      cases hread with
      | cons hh ht =>
          have hparts := fun σ => TripleVal.cons_iff.mp (hfree σ)
          refine .pure hs ?_
          rintro y (_ | ⟨_, _ | ⟨_, _ | ⟨_, ⟨⟩⟩⟩⟩)
          · exact hself
          · exact ⟨_, hh, fun σ => (hparts σ).1⟩
          · exact ⟨_, ht, fun σ => (hparts σ).2⟩
      | _ =>
          refine .pure hs ?_
          rintro y (_ | ⟨_, ⟨⟩⟩)
          exact hself
  | truth v =>
      obtain ⟨v', hv, -⟩ := (hown (.ready v) (by simp [operands])).value hΓ
      refine (h.truth hs hv).left_keeps.bind (fun _ hs _ => .pure hs ?_) id
      rintro y ⟨⟩

/-- A cell fits into another world with the same names that excuses its failure, if it has
failed. -/
theorem Holds.excuse {Γ Γ' : World} {c : Cell} {x : Arg} (h : Holds Γ H c x)
    (hnames : Γ'.names = Γ.names) (hexcused : ∀ f, c = .failed f → Γ.excused f → Γ'.excused f) :
    Holds Γ' H c x := by
  cases h with
  | pending hs hy => exact .pending hs (by rwa [hnames])
  | done hy => exact .done (by rwa [hnames])
  | failed f hx =>
      refine .failed f ?_
      rw [hnames]
      exact hx.imp_right (hexcused f rfl)

/-- Defining a name. -/
theorem Sound.defines {env : Env} (hs : Sound (Γ.during env) H m) {x : String} {y : Arg}
    {z : Operand} (hx : Γ.lookup x = some y) (hz : Left Γ H (.of y) z)
    (hunmet : ∀ a : Nat, m.cells[a]? ≠ some (.failed (.unbound x))) :
    Sound (Γ.during ((x, z) :: env)) H (m.define x z) := by
  have hlookup : ∀ {x'}, x' ≠ x → List.lookup x' ((x, z) :: env) = env.lookup x' := by
    intro x' hne
    have hne : (x' == x) = false := by simpa using hne
    rw [List.lookup_cons, hne]
  refine ⟨hs.size, fun a c hc => ?_, congrArg ((x, z) :: ·) hs.globals, fun x' z' hx' => ?_⟩
  · obtain ⟨y', hy', hholds⟩ := hs.cell a c hc
    refine ⟨y', hy', hholds.excuse rfl fun f hf hexcused => ?_⟩
    obtain ⟨x', rfl, hname, hmissing⟩ := hexcused
    have hne : x' ≠ x := by
      rintro rfl
      exact hunmet a (hf ▸ hc)
    exact ⟨x', rfl, hname, (hlookup hne).trans hmissing⟩
  · have hx' : List.lookup x' ((x, z) :: env) = some z' := hx'
    by_cases hxx : x' = x
    · subst hxx
      rw [List.lookup_cons_self] at hx'
      obtain rfl := Option.some.inj hx'
      exact ⟨y, hx, hz⟩
    · rw [hlookup hxx] at hx'
      exact hs.known x' z' hx'

theorem Bench.defs_after (policy : Policy) (fuel : Nat) (b : Bench) (a : Act) :
    (b.after policy fuel a).defs = b.defs := by
  unfold after
  split <;> rfl

/-- Definitions stay. -/
theorem Step.lookup_defs (h : Step policy b b') {x : String} {s : Source}
    (hx : b.defs.lookup x = some s) : b'.defs.lookup x = some s := by
  cases h with
  | acts fuel a =>
      rw [b.defs_after]
      exact hx
  | @defines y _ _ _ _ hnew =>
      have hne : (x == y) = false := by
        rw [beq_eq_false_iff_ne]
        rintro rfl
        simp [hnew] at hx
      show List.lookup x ((y, _) :: b.defs) = some s
      rw [List.lookup_cons, hne]
      exact hx

theorem Leads.lookup_defs (h : Leads policy b b') {x : String} {s : Source}
    (hx : b.defs.lookup x = some s) : b'.defs.lookup x = some s := by
  induction h with
  | refl => exact hx
  | tail _ hstep ih => exact hstep.lookup_defs ih

/-- Acts leave names alone. -/
theorem Readable.memory (hb : Readable Γ H b) (hgrow : H <+: H')
    (hs : Sound (Γ.during b.memory.globals) H' m) : Readable Γ H' { b with memory := m } := by
  have hglobals : m.globals = b.memory.globals := hs.globals
  refine ⟨?_, fun y hy => (hb.hand y hy).grow hgrow, ?_⟩
  · show Sound (Γ.during m.globals) H' m
    rwa [hglobals]
  · show ∀ x, (b.defs.lookup x).isSome → (m.globals.lookup x).isSome
    rw [hglobals]
    exact hb.defined

theorem Readable.after (hlimit : policy.limit = none) (hΓ : Γ.ProbeFree) (hb : Readable Γ H b)
    (fuel : Nat) (a : Act) (hown : ∀ y ∈ a.operands, y ∈ b.hand) :
    ∃ H', H <+: H' ∧ Readable Γ H' (b.after policy fuel a) := by
  have hkeeps := a.run_keeps (during_follows hlimit Γ b.memory.globals fuel) hΓ hb.sound
    fun y hy => hb.hand y (hown y hy)
  unfold Bench.after
  cases hrun : a.run policy fuel b.memory with
  | value ys m =>
      rw [hrun] at hkeeps
      obtain ⟨H', hgrow, hs, hys⟩ := hkeeps
      have hread := hb.memory hgrow hs
      refine ⟨H', hgrow, hread.sound, fun y hy => ?_, hread.defined⟩
      rcases List.mem_append.mp hy with hy | hy
      · exact hys y hy
      · exact hread.hand y hy
  | fault f m =>
      rw [hrun] at hkeeps
      obtain ⟨⟨H', hgrow, hs⟩, -⟩ := hkeeps
      exact ⟨H', hgrow, hb.memory hgrow hs⟩
  | outOfFuel => exact ⟨H, List.prefix_rfl, hb⟩

/-- **One more step.** -/
theorem Step.readable (hlimit : policy.limit = none) (hΓ : Γ.ProbeFree) (h : Step policy b b')
    (hb : Readable Γ H b) (hdefs : ∀ x s, b'.defs.lookup x = some s → Γ.lookup x = some s.arg) :
    ∃ H', H <+: H' ∧ Readable Γ H' b' := by
  cases h with
  | acts fuel a hown => exact hb.after hlimit hΓ fuel a hown
  | @defines x s fuel v m hnew hrun hunmet =>
      have hreaches := s.eval_reaches (during_follows hlimit Γ b.memory.globals fuel) hb.sound
      rw [hrun] at hreaches
      obtain ⟨H', hgrow, hs, y, d, hy, hshift, -⟩ := hreaches
      have hread := hb.memory hgrow hs
      have hleft : Left Γ H' (.of s.arg) (.ready v) :=
        ⟨y, 1 + d, hy, (Shift.of _).trans hshift, Or.inr ⟨v, rfl⟩⟩
      have hx : Γ.lookup x = some s.arg := hdefs x s (by simp)
      refine ⟨H', hgrow, hread.sound.defines hx hleft hunmet, hread.hand, fun z hz => ?_⟩
      show (List.lookup z ((x, Operand.ready v) :: m.globals)).isSome
      have hz : (List.lookup z ((x, s) :: b.defs)).isSome := hz
      rw [List.lookup_cons] at hz ⊢
      cases hzx : z == x with
      | true => rfl
      | false =>
          rw [hzx] at hz
          exact hread.defined z hz

theorem Leads.readable (hlimit : policy.limit = none) (hΓ : Γ.ProbeFree) (h : Leads policy b b')
    (hdefs : ∀ x s, b'.defs.lookup x = some s → Γ.lookup x = some s.arg) :
    ∀ {H}, Readable Γ H b → ∃ H', H <+: H' ∧ Readable Γ H' b' := by
  induction h using Relation.ReflTransGen.head_induction_on with
  | refl => exact fun hb => ⟨_, List.prefix_rfl, hb⟩
  | head hstep hrest ih =>
      intro H hb
      obtain ⟨H₁, hgrow₁, h₁⟩ := hstep.readable hlimit hΓ hb fun x s hx =>
        hdefs x s (Leads.lookup_defs hrest hx)
      obtain ⟨H₂, hgrow₂, h₂⟩ := ih h₁
      exact ⟨H₂, hgrow₁.trans hgrow₂, h₂⟩

/-- When all names are defined, no fault is excused. -/
theorem Readable.strict (hb : Readable b.names H b) :
    (b.names.during b.memory.globals).Strict := by
  refine ⟨?_⟩
  rintro f ⟨x, -, hname, hmissing⟩
  cases hx : b.defs.lookup x with
  | none => exact hname (by simp [global, Bench.names, hx])
  | some s =>
      have hsome := hb.defined x (by simp [hx])
      simp [hmissing] at hsome

/-! ### Selecting -/

/-- Applies an operand to arguments and forces what that gives. -/
def call (policy : Policy) (f : Operand) (xs : List Operand) (fuel : Nat) : Effect Value := do
  let r ← Machine.applyAll policy fuel f xs
  Machine.force policy fuel r

/-- Two evaluations, each in its memory, that come to the same verdict: both go on for ever, or
both fail with the same fault, or both have values that are shown alike. -/
def Agree (policy : Policy) (m m' : Memory) (start start' : Nat → Effect Value) : Prop :=
  ∃ r, ComesFrom policy m start r ∧ ComesFrom policy m' start' r

/-- Two evaluations on a bench that cannot be told apart: they agree, and if they have values,
then whatever is applied to the one and to the other agrees as well. -/
structure Indistinguishable (policy : Policy) (b : Bench) (start start' : Nat → Effect Value) :
    Prop where
  agree : Agree policy b.memory b.memory start start'
  values : ∀ fuel w m, start fuel b.memory = .value w m →
    ∀ fuel' w' m', start' fuel' b.memory = .value w' m' →
    ∀ f ∈ b.hand, Agree policy m m' (call policy f [.ready w]) (call policy f [.ready w'])

/-- An evaluation of the value of a computation is an evaluation of the computation. -/
theorem Reaches.next_of {Γ : World} {x : Arg} {rank : Nat} {o : Outcome Value}
    (h : Reaches Γ H (.of x) fuel rank .ready o) :
    Reaches Γ H (next Γ x) fuel (rank + 5) .ready o := by
  cases o with
  | value v m =>
      obtain ⟨H', hgrow, hs, hleft⟩ := h
      obtain ⟨v', hread, hv⟩ := hleft.gives
      obtain ⟨c, hc⟩ := gives_of.mp hv
      exact ⟨H', hgrow, hs, .ready v', c, .ready hread, hc.shift, Or.inr ⟨v, rfl⟩⟩
  | fault e m =>
      refine ⟨h.1, h.2.imp_left ?_⟩
      rintro ⟨c, he⟩
      obtain ⟨c', he', -⟩ := concludes_of.mp he
      exact ⟨c', he'⟩
  | outOfFuel =>
      intro c r hr
      have hle := h (c + 1) r (concludes_of.mpr ⟨c, hr, rfl⟩)
      omega

/-- What comes of a computation comes of one that costs more. -/
theorem Means.shift {d : Nat} {x y : Arg} {r : Verdict} (h : Shift Γ d (next Γ x) (next Γ y))
    (hr : Means Γ y r) : Means Γ x r := by
  cases hr with
  | diverges hnone =>
      refine .diverges fun c r hr => ?_
      obtain ⟨c', hr', -⟩ := (h c r).mp hr
      exact hnone c' r hr'
  | fails hf => exact .fails (h.raises hf)
  | endless hv hnone => exact .endless (h.gives_iff.mpr hv) hnone
  | shown hv ht => exact .shown (h.gives_iff.mpr hv) ht

section Begins

variable {Γ : World}

theorem call_begins (h : ∀ fuel, Follows policy Γ fuel) (hs : Sound Γ H m) {f : Operand} {f' : Arg}
    {xs : List Operand} {xs' : List Arg} (hf : Reads H f f')
    (hxs : List.Forall₂ (Reads H) xs xs') :
    Begins Γ H m (applyAll f' xs') 7 (call policy f xs) := fun fuel =>
  Reaches.next_of ((h fuel).thenForce ((h fuel).applyAll hs hf hxs))

theorem force_begins (h : ∀ fuel, Follows policy Γ fuel) (hs : Sound Γ H m) {x : Operand} {x' : Arg}
    (hx : Reads H x x') : Begins Γ H m x' 5 fun fuel => Machine.force policy fuel x := fun fuel =>
  ((h fuel).force hs hx).shift (.refl _) (by omega)

variable [Γ.Strict] {m' : Memory} {x x' : Arg} {d rank rank' : Nat}
  {start start' : Nat → Effect Value}

theorem Begins.agree (h : ∀ fuel, Follows policy Γ fuel) (hstart : Begins Γ H m x rank start)
    (hstart' : Begins Γ H' m' x' rank' start') (hshift : Shift Γ d (next Γ x) (next Γ x')) :
    Agree policy m m' start start' := by
  obtain ⟨r, hr⟩ := exists_means Γ x'
  exact ⟨r, (hr.shift hshift).comesFrom h hstart, hr.comesFrom h hstart'⟩

/-- The value of an evaluation is the value by name. -/
theorem Begins.value (hstart : Begins Γ H m x rank start) {w : Value} {fuel : Nat}
    (hw : start fuel m = .value w m') :
    ∃ H' w', H <+: H' ∧ Sound Γ H' m' ∧ ReadsVal H' w w' ∧ Evals Γ x w' := by
  have hkeeps := hstart.keeps fuel
  rw [hw] at hkeeps
  obtain ⟨H', hgrow, hs, w', hread, hevals⟩ := hkeeps
  exact ⟨H', w', hgrow, hs, hread, hevals⟩

/-- Evaluations of computations that differ in what they cost cannot be told apart: their values
are the same by name, and what is applied to them does not see more. -/
theorem Begins.indistinguishable (h : ∀ fuel, Follows policy Γ fuel)
    (hhand : ∀ y ∈ b.hand, ∃ y', Reads H y y')
    (hstart : Begins Γ H b.memory x rank start) (hstart' : Begins Γ H b.memory x' rank' start')
    (hshift : Shift Γ d (next Γ x) (next Γ x')) : Indistinguishable policy b start start' := by
  refine ⟨hstart.agree h hstart' hshift, fun fuel w m hw fuel' w' m' hw' f hf => ?_⟩
  obtain ⟨H₁, u, hgrow, hs, hread, hu⟩ := hstart.value hw
  obtain ⟨H₁', u', hgrow', hs', hread', hu'⟩ := hstart'.value hw'
  obtain rfl : u = u' := Evals.unique (hshift.gives_iff.mp hu) hu'
  obtain ⟨f', hf⟩ := hhand f hf
  exact (call_begins h hs (hf.grow hgrow) (.cons (.ready hread) .nil)).agree h
    (call_begins h hs' (hf.grow hgrow') (.cons (.ready hread') .nil)) (.refl _)

end Begins

/-! ### Showing functions -/

theorem Val.isFunction_of_tag {v : Val} (h : v.tag = .function) : v.isFunction := by
  cases v with
  | int | bool | nil | cons | probe => cases h
  | _ => rfl

theorem probeBool_eq (v : Value) (fuel : Nat) (m : Memory) :
    probeBool policy fuel v m =
      match Machine.truth policy fuel v m with
      | .value t m' => .value (some t) { m' with steps := m.steps }
      | .fault _ m' => .value none { m' with steps := m.steps }
      | .outOfFuel => .outOfFuel := by
  unfold probeBool
  simp only [bind, Effect.bind, Effect.getSteps, Effect.attempt]
  cases Machine.truth policy fuel v m with
  | value t m' => rfl
  | fault f m' => rfl
  | outOfFuel => rfl

/-- A function is shown as the boolean it passes for, and else by its label. -/
theorem observe_function {v : Value} (hfun : v.tag = .function) (fuel : Nat) (m : Memory) :
    observe policy (fuel + 3) (.ready v) m =
      match Machine.truth policy (fuel + 2) v m with
      | .value t m' => .value (boolText t) { m' with steps := m.steps }
      | .fault _ m' => .value ("<" ++ v.label ++ ">") { m' with steps := m.steps }
      | .outOfFuel => .outOfFuel := by
  have hplain : observe policy (fuel + 3) (.ready v) m = showPlain policy (fuel + 2) v m := by
    cases v with
    | cons => cases hfun
    | _ => rfl
  rw [hplain]
  cases v with
  | int | bool | nil | cons | probe => cases hfun
  | _ =>
      simp only [showPlain, bind, Effect.bind, probeBool_eq]
      cases Machine.truth policy (fuel + 2) _ m with
      | value t m' => rfl
      | fault f m' => rfl
      | outOfFuel => rfl

theorem boolText_injective {t t' : Bool} (h : boolText t = boolText t') : t = t' := by
  revert h
  cases t <;> cases t' <;> decide

theorem boolText_ne_label (t : Bool) (l : String) : "<" ++ l ++ ">" ≠ boolText t := by
  intro h
  have hchars := congrArg String.toList h
  cases t <;> simp [boolText] at hchars

/-- A function is shown as a boolean just if it passes for that boolean. -/
theorem observe_boolText_iff {v : Value} (hfun : v.tag = .function) (m : Memory) (t : Bool) :
    (∃ fuel m', observe policy fuel (.ready v) m = .value (boolText t) m') ↔
      ∃ fuel m', Machine.truth policy fuel v m = .value t m' := by
  constructor
  · rintro ⟨fuel, m', hshown⟩
    obtain _ | _ | _ | fuel := fuel
    · cases hshown
    · cases hshown
    · cases hshown
    · rw [observe_function hfun] at hshown
      cases htruth : Machine.truth policy (fuel + 2) v m with
      | value t' m'' =>
          rw [htruth] at hshown
          obtain ⟨htext, -⟩ := Outcome.value.inj hshown
          exact ⟨fuel + 2, m'', boolText_injective htext ▸ htruth⟩
      | fault f m'' =>
          rw [htruth] at hshown
          exact absurd (Outcome.value.inj hshown).1 (boolText_ne_label t v.label)
      | outOfFuel =>
          rw [htruth] at hshown
          cases hshown
  · rintro ⟨fuel, m', htruth⟩
    obtain _ | _ | fuel := fuel
    · cases htruth
    · cases v with
      | int | bool | nil | cons | probe => cases hfun
      | _ => cases htruth
    · exact ⟨fuel + 3, _, by rw [observe_function hfun, htruth]⟩

/-! ### Functions that pass for booleans -/

/-- A bench and one that comes of it are read alike, with what names stand for in the end. -/
theorem Leads.exists_readable (hlimit : policy.limit = none) (hb : Leads policy {} b)
    (hlater : Leads policy b b') :
    ∃ H H', H <+: H' ∧ Readable b'.names H b ∧ Readable b'.names H' b' := by
  have hdefs : ∀ x s, b'.defs.lookup x = some s → b'.names.lookup x = some s.arg :=
    fun x s hx => Option.map_eq_some_iff.mpr ⟨s, hx, rfl⟩
  have hΓ := b'.names_probeFree
  obtain ⟨H, -, hread⟩ := hb.readable hlimit hΓ (fun x s hx => hdefs x s (hlater.lookup_defs hx))
    (readable_start _)
  obtain ⟨H', hgrow, hread'⟩ := hlater.readable hlimit hΓ hdefs hread
  exact ⟨H, H', hgrow, hread, hread'⟩

/-- **A function that passes for a boolean selects like it, or fails on integers.**  Take any
function that is at hand on a machine without a limit on steps.  It is shown as a boolean just if
it passes for that boolean.  And if it does, then at any later time one of two things holds.
Applied to any two operands at hand, it cannot be told apart from the one that the boolean selects:
both go on for ever, or fail with the same fault, or have values with which everything that is done
comes to the same.  Or else it fails on any two integers, since it applies one of them or takes it
for the outcome of a test. -/
theorem selects_or_fails (hlimit : policy.limit = none) (hb : Leads policy {} b) {v : Value}
    (hv : .ready v ∈ b.hand) (hfun : v.tag = .function) (t : Bool) :
    ((∃ fuel m, observe policy fuel (.ready v) b.memory = .value (boolText t) m) ↔
      ∃ fuel m, Machine.truth policy fuel v b.memory = .value t m) ∧
    ∀ fuel m, Machine.truth policy fuel v b.memory = .value t m → ∀ b', Leads policy b b' →
      (∀ x ∈ b'.hand, ∀ y ∈ b'.hand, Indistinguishable policy b' (call policy (.ready v) [x, y])
        fun fuel => Machine.force policy fuel (if t then x else y)) ∨
      ∀ i j : Int64, ∃ f, (f = .cannotApply .int ∨ f = .notBoolean) ∧
        ComesFrom policy b'.memory (call policy (.ready v) [.ready (.int i), .ready (.int j)])
          (.fails f) := by
  refine ⟨observe_boolText_iff hfun _ t, fun fuel m htruth b' hlater => ?_⟩
  have hΓ := b'.names_probeFree
  obtain ⟨H, H', hgrow, hread, hread'⟩ := hb.exists_readable hlimit hlater
  have hstrict := hread'.strict
  have hfollows := during_follows hlimit b'.names b'.memory.globals
  obtain ⟨v', hv', hfree⟩ := (hread.hand _ hv).value hΓ
  -- the test of the function was at an earlier time, when names may have been missing
  have hgives : Gives b'.names (ByName.truth v') (.bool t) := by
    have hreaches := (during_follows hlimit b'.names b.memory.globals fuel).truth hread.sound hv'
    rw [htruth] at hreaches
    obtain ⟨_, -, -, hleft⟩ := hreaches
    obtain ⟨w, hw, hgives⟩ := hleft.gives
    cases hw
    exact hgives
  have hselects := truth_selects hΓ hfree (Val.isFunction_of_tag (hv'.tag_eq ▸ hfun)) hgives
  have hbegins := fun {x y : Operand} {x' y' : Arg} (hx : Reads H' x x') (hy : Reads H' y y') =>
    call_begins hfollows hread'.sound (.ready (hv'.grow hgrow)) (.cons hx (.cons hy .nil))
  rcases hselects with hselects | hfails
  · refine Or.inl fun x hx y hy => ?_
    obtain ⟨x', hx, -⟩ := hread'.hand x hx
    obtain ⟨y', hy, -⟩ := hread'.hand y hy
    have hchosen : Reads H' (if t then x else y) (if t then x' else y') := by
      cases t with
      | true => exact hx
      | false => exact hy
    obtain ⟨d, hshift⟩ := hselects x' y'
    refine (hbegins hx hy).indistinguishable hfollows (fun z hz => ?_)
      (force_begins hfollows hread'.sound hchosen) hshift
    obtain ⟨z', hz, -⟩ := hread'.hand z hz
    exact ⟨z', hz⟩
  · refine Or.inr fun i j => ?_
    obtain ⟨f, hf, hraises⟩ := hfails i j
    exact ⟨f, hf, Means.comesFrom hfollows (hbegins (.ready (.int i)) (.ready (.int j)))
      (.fails hraises)⟩

/-- A flipped boolean, applied to an element of a list that fails when it is forced, and to an
integer. -/
theorem selects_or_fails_flipped :
    let policy : Policy := { limit := none }
    let b := ({} : Bench).after policy 9 (.eval (.code (.ap (.prim .c) (.prim .t))))
    ∃ (v : Value) (x : Operand) (b' : Bench), Leads policy {} b ∧ .ready v ∈ b.hand ∧
      v.tag = .function ∧ (∃ m, Machine.truth policy 9 v b.memory = .value false m) ∧
      Leads policy b b' ∧ x ∈ b'.hand ∧ .ready (.int 7) ∈ b'.hand ∧
      (∃ m, Machine.force policy 9 x b'.memory = .fault .divisionByZero m) ∧
      Indistinguishable policy b' (call policy (.ready v) [x, .ready (.int 7)])
        fun fuel => Machine.force policy fuel (.ready (.int 7)) := by
  intro policy b
  let b₁ := b.after policy 9 (.eval (.expr (.list [.binary .div (.int 1) (.int 0)])))
  let b₂ := b₁.after policy 9 (.force (.ready (.cons (.delayed 1) (.ready .nil))))
  let b₃ := b₂.after policy 9 (.eval (.data (.int 7)))
  have hb : Leads policy {} b := .single (.acts 9 _ (by simp [Act.operands]))
  have hforce : Step policy b₁ b₂ := by
    refine .acts 9 _ ?_
    rintro y (_ | ⟨_, ⟨⟩⟩)
    exact .head _
  have hlater : Leads policy b b₃ :=
    .tail (.tail (.single (.acts 9 _ (by simp [Act.operands]))) hforce)
      (.acts 9 _ (by simp [Act.operands]))
  have hv : .ready (.ternary1 .c (.delayed 0)) ∈ b.hand := .head _
  have hx : .delayed 1 ∈ b₃.hand := .tail _ (.tail _ (.head _))
  have hy : .ready (.int 7) ∈ b₃.hand := .head _
  have htruth : ∃ m, Machine.truth policy 9 (.ternary1 .c (.delayed 0)) b.memory = .value false m :=
    ⟨_, rfl⟩
  refine ⟨_, _, b₃, hb, hv, rfl, htruth, hlater, hx, hy, ⟨_, rfl⟩, ?_⟩
  obtain ⟨m, htruth⟩ := htruth
  rcases (selects_or_fails rfl hb hv rfl false).2 9 m htruth b₃ hlater with hselects | hfails
  · exact hselects _ hx _ hy
  · obtain ⟨f, -, N, hN⟩ := hfails 0 0
    obtain ⟨m', hfault⟩ := hN (N + 9) (by omega)
    cases hfault

/-- The flipped identity applied to 5 passes for true, as a probe that is applied to 5 remains the
probe.  Applied to 1 and 2 it fails, and 1 does not. -/
theorem not_agree_call :
    let policy : Policy := { limit := none }
    let b := ({} : Bench).after policy 9 (.eval (.code (.ap (.ap (.prim .c) (.prim .i)) (.int 5))))
    ∃ v : Value, Leads policy {} b ∧ .ready v ∈ b.hand ∧ v.tag = .function ∧
      (∃ m, Machine.truth policy 9 v b.memory = .value true m) ∧
      (∃ m, observe policy 9 (.ready v) b.memory = .value "true" m) ∧
      ¬ Agree policy b.memory b.memory (call policy (.ready v) [.ready (.int 1), .ready (.int 2)])
        fun fuel => Machine.force policy fuel (.ready (.int 1)) := by
  intro policy b
  refine ⟨.ternary2 .c (.delayed 0) (.delayed 1), .single (.acts 9 _ (by simp [Act.operands])),
    .head _, rfl, ⟨_, rfl⟩, ⟨_, rfl⟩, ?_⟩
  have hfails : ComesFrom policy b.memory
      (call policy (.ready (.ternary2 .c (.delayed 0) (.delayed 1)))
        [.ready (.int 1), .ready (.int 2)])
      (.fails (.cannotApply .int)) := by
    refine ⟨9, fun fuel hfuel => ?_⟩
    obtain ⟨fuel, rfl⟩ := Nat.exists_eq_add_of_le' hfuel
    exact ⟨_, rfl⟩
  rintro ⟨r, hr, hforce⟩
  obtain rfl := hr.unique hfails
  obtain ⟨N, hN⟩ := hforce
  obtain ⟨m, hfault⟩ := hN (N + 1) (by omega)
  cases hfault

end Decombinator.ByName
