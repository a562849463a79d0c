/-
Memories, read as computations by name.

Every address of a memory stands for one computation, the one that was suspended there,
whatever has become of it since.  A memory is sound if its cells agree with that: what is
pending or done differs from the computation in cost only; what has failed is a computation
that fails in the same way.  Global names stand for computations as well,
and what the machine has for them is what is left of these.  Soundness is kept by every effect,
and addresses never change what they stand for.

`Reaches` is what will be proved of every function of the evaluator.  If the function
returns, what it returns is what is left of a computation by name.  If it fails, that
computation fails with the same fault.  And if it is out of fuel, then the computation, if it
ends at all, makes more demands than the fuel allowed for.

There are faults that do not come from the computation: the machine may run out of steps, and it
may meet a name before it has been defined.  A `World` says which of them are excused.
-/
import Decombinator.Proofs.ByName.Rules

namespace Decombinator.ByName

open Machine

/-! ### What machine values stand for -/

mutual

/-- What a machine value stands for, given what the addresses stand for. -/
inductive ReadsVal (H : List Arg) : Value → Val → Prop
  | int (n : Int64) : ReadsVal H (.int n) (.int n)
  | bool (b : Bool) : ReadsVal H (.bool b) (.bool b)
  | nil : ReadsVal H .nil .nil
  | cons {h t : Operand} {h' t' : Arg} (hh : Reads H h h') (ht : Reads H t t') :
      ReadsVal H (.cons h t) (.cons h' t')
  | unary (f : Unary) : ReadsVal H (.unary f) (.unary f)
  | binary (f : Binary) : ReadsVal H (.binary f) (.binary f)
  | binary1 (f : Binary) {x : Operand} {x' : Arg} (hx : Reads H x x') :
      ReadsVal H (.binary1 f x) (.binary1 f x')
  | ternary (f : Ternary) : ReadsVal H (.ternary f) (.ternary f)
  | ternary1 (f : Ternary) {x : Operand} {x' : Arg} (hx : Reads H x x') :
      ReadsVal H (.ternary1 f x) (.ternary1 f x')
  | ternary2 (f : Ternary) {x y : Operand} {x' y' : Arg} (hx : Reads H x x') (hy : Reads H y y') :
      ReadsVal H (.ternary2 f x y) (.ternary2 f x' y')
  | always {x : Operand} {x' : Arg} (hx : Reads H x x') : ReadsVal H (.always x) (.always x')
  | second : ReadsVal H .second .second
  | closure (label : String) {env : Env} {env' : Scope} (henv : ReadsEnv H env env') (p : String)
      (ps : List String) (b : Expr) :
      ReadsVal H (.closure label env p ps b) (.closure label env' p ps b)
  | probe (first : Bool) : ReadsVal H (.probe first) (.probe first)

inductive Reads (H : List Arg) : Operand → Arg → Prop
  | ready {v : Value} {v' : Val} (hv : ReadsVal H v v') : Reads H (.ready v) (.ready v')
  | delayed {a : Nat} {x : Arg} (ha : H[a]? = some x) : Reads H (.delayed a) x

inductive ReadsEnv (H : List Arg) : Env → Scope → Prop
  | nil : ReadsEnv H [] []
  | cons (x : String) {v : Operand} {v' : Arg} {env : Env} {env' : Scope} (hv : Reads H v v')
      (henv : ReadsEnv H env env') : ReadsEnv H ((x, v) :: env) ((x, v') :: env')

end

theorem getElem_of_isPrefix {H H' : List Arg} (h : H <+: H') {a : Nat} {x : Arg}
    (ha : H[a]? = some x) : H'[a]? = some x := by
  obtain ⟨rest, rfl⟩ := h
  obtain ⟨hlt, -⟩ := List.getElem?_eq_some_iff.mp ha
  rw [List.getElem?_append_left hlt]
  exact ha

mutual

theorem ReadsVal.grow {H H' : List Arg} (h : H <+: H') {v : Value} {v' : Val} :
    ReadsVal H v v' → ReadsVal H' v v'
  | .int n => .int n
  | .bool b => .bool b
  | .nil => .nil
  | .cons hh ht => .cons (hh.grow h) (ht.grow h)
  | .unary f => .unary f
  | .binary f => .binary f
  | .binary1 f hx => .binary1 f (hx.grow h)
  | .ternary f => .ternary f
  | .ternary1 f hx => .ternary1 f (hx.grow h)
  | .ternary2 f hx hy => .ternary2 f (hx.grow h) (hy.grow h)
  | .always hx => .always (hx.grow h)
  | .second => .second
  | .closure label henv p ps b => .closure label (henv.grow h) p ps b
  | .probe first => .probe first

theorem Reads.grow {H H' : List Arg} (h : H <+: H') {x : Operand} {x' : Arg} :
    Reads H x x' → Reads H' x x'
  | .ready hv => .ready (hv.grow h)
  | .delayed ha => .delayed (getElem_of_isPrefix h ha)

theorem ReadsEnv.grow {H H' : List Arg} (h : H <+: H') {env : Env} {env' : Scope} :
    ReadsEnv H env env' → ReadsEnv H' env env'
  | .nil => .nil
  | .cons x hv henv => .cons x (hv.grow h) (henv.grow h)

end

theorem ReadsVal.tag_eq {H : List Arg} {v : Value} {v' : Val} (h : ReadsVal H v v') :
    v.tag = v'.tag := by
  cases h <;> rfl

theorem ReadsEnv.lookup {H : List Arg} {env : Env} {env' : Scope} (h : ReadsEnv H env env')
    (x : String) :
    (env.lookup x = none ∧ env'.lookup x = none) ∨
      ∃ v v', env.lookup x = some v ∧ env'.lookup x = some v' ∧ Reads H v v' := by
  induction env generalizing env' with
  | nil =>
      cases h
      exact Or.inl ⟨rfl, rfl⟩
  | cons b env ih =>
      cases h with
      | cons y hv henv =>
          rw [List.lookup_cons, List.lookup_cons]
          cases x == y with
          | true => exact Or.inr ⟨_, _, rfl, rfl, hv⟩
          | false => exact ih henv

/-! ### Sound memories -/

/-- The computation that a suspension is. -/
inductive Suspends (H : List Arg) : Suspension → Arg → Prop
  | code (c : Code) : Suspends H (.code c) (.code c)
  | expr (e : Expr) {env : Env} {env' : Scope} (henv : ReadsEnv H env env') :
      Suspends H (.expr e env) (.expr e env')
  | apply {f x : Operand} {f' x' : Arg} (hf : Reads H f f') (hx : Reads H x x') :
      Suspends H (.apply f x) (.apply f' x')

/-- What global names stand for by name, and what a machine has for them. -/
structure World where
  names : Globals
  env : Env
  /-- The faults that may come up on the machine although they do not come up by name. -/
  excused : Fault → Prop
  /-- Not to have a name is such a fault, unless nobody has it. -/
  missing : ∀ {x : String}, env.lookup x = none →
    global names x = .stuck (.unbound x) ∨ excused (.unbound x)

instance : Coe World Globals :=
  ⟨World.names⟩

/-- In such a world every fault comes from the computation. -/
class World.Strict (Γ : World) : Prop where
  not_excused : ∀ f, ¬ Γ.excused f

variable {Γ : World} {H H' : List Arg} {m m' : Memory}

theorem Suspends.grow (h : H <+: H') {s : Suspension} {x : Arg} (hs : Suspends H s x) :
    Suspends H' s x := by
  cases hs with
  | code c => exact .code c
  | expr e henv => exact .expr e (henv.grow h)
  | apply hf hx => exact .apply (hf.grow h) (hx.grow h)

/-- `y` is what is left of a computation: it has the same value, and is ready or costs less. -/
def Left (Γ : Globals) (H : List Arg) (n : Next) (y : Operand) : Prop :=
  ∃ y' d, Reads H y y' ∧ Shift Γ d n (next Γ y') ∧ (1 ≤ d ∨ ∃ v, y = .ready v)

theorem Left.grow {Γ : Globals} (h : H <+: H') {n : Next} {y : Operand} :
    Left Γ H n y → Left Γ H' n y :=
  fun ⟨y', d, hy, hs, hd⟩ => ⟨y', d, hy.grow h, hs, hd⟩

/-- What may have become of a computation that was suspended. -/
inductive Holds (Γ : World) (H : List Arg) : Cell → Arg → Prop
  | pending {s : Suspension} {x y : Arg} {d : Nat} (hs : Suspends H s y)
      (hy : Shift Γ d (next Γ x) (next Γ y)) : Holds Γ H (.pending s) x
  | done {y : Operand} {x : Arg} (hy : Left Γ H (next Γ x) y) : Holds Γ H (.done y) x
  | failed (f : Fault) {x : Arg} (hx : Raises Γ (next Γ x) f ∨ Γ.excused f) : Holds Γ H (.failed f) x

theorem Holds.grow (h : H <+: H') {c : Cell} {x : Arg} (hc : Holds Γ H c x) : Holds Γ H' c x := by
  cases hc with
  | pending hs hy => exact .pending (hs.grow h) hy
  | done hy => exact .done (hy.grow h)
  | failed f hx => exact .failed f hx

/-- A memory that agrees with what its addresses stand for. -/
structure Sound (Γ : World) (H : List Arg) (m : Memory) : Prop where
  size : m.cells.size = H.length
  cell : ∀ (a : Nat) (c : Cell), m.cells[a]? = some c → ∃ x, H[a]? = some x ∧ Holds Γ H c x
  globals : m.globals = Γ.env
  known : ∀ (x : String) (y : Operand), Γ.env.lookup x = some y →
    ∃ y', Γ.names.lookup x = some y' ∧ Left Γ H (.of y') y

theorem Sound.withSteps (h : Sound Γ H m) (steps : Nat) : Sound Γ H { m with steps } :=
  ⟨h.size, h.cell, h.globals, h.known⟩

/-- Suspending a computation. -/
theorem Sound.push (h : Sound Γ H m) {s : Suspension} {x : Arg} (hs : Suspends H s x) :
    Sound Γ (H ++ [x]) { m with cells := m.cells.push (.pending s) } := by
  have hgrow : H <+: H ++ [x] := List.prefix_append H [x]
  refine ⟨by simp [h.size], fun a c hc => ?_, h.globals, fun z y hy => ?_⟩
  · rw [Array.getElem?_push, h.size] at hc
    split at hc
    · rename_i ha
      obtain rfl := Option.some.inj hc
      exact ⟨x, by simp [ha], .pending (hs.grow hgrow) (.refl _)⟩
    · obtain ⟨y, hy, hc⟩ := h.cell a c hc
      exact ⟨y, getElem_of_isPrefix hgrow hy, hc.grow hgrow⟩
  · obtain ⟨y', hz, hleft⟩ := h.known z y hy
    exact ⟨y', hz, hleft.grow hgrow⟩

/-- Keeping an outcome. -/
theorem Sound.store (h : Sound Γ H m) {a : Nat} {x : Arg} {c : Cell} (ha : H[a]? = some x)
    (hc : Holds Γ H c x) : Sound Γ H { m with cells := m.cells.setIfInBounds a c } := by
  refine ⟨by simp [h.size], fun b c' hb => ?_, h.globals, h.known⟩
  rw [Array.getElem?_setIfInBounds] at hb
  by_cases hab : a = b
  · subst hab
    rw [if_pos rfl] at hb
    split at hb
    · obtain rfl := Option.some.inj hb
      exact ⟨x, ha, hc⟩
    · cases hb
  · rw [if_neg hab] at hb
    exact h.cell b c' hb

/-! ### Effects that follow a computation -/

/-- A result after `c` demands takes more than `fuel` only if `c` is large enough.  Between two
demands the evaluator goes at most five calls deep; `rank` counts the calls still to come
before the next one. -/
def Tires (Γ : Globals) (n : Next) (fuel rank : Nat) : Prop :=
  ∀ c r, Concludes Γ n c r → fuel ≤ 5 * c + rank

variable {α β : Type}

/-- The outcome of an effect that follows the computation `n`; `f` says which operand its
result is. -/
def Reaches (Γ : World) (H : List Arg) (n : Next) (fuel rank : Nat) (f : α → Operand) :
    Outcome α → Prop
  | .value a m => ∃ H', H <+: H' ∧ Sound Γ H' m ∧ Left Γ H' n (f a)
  | .fault e m => (∃ H', H <+: H' ∧ Sound Γ H' m) ∧ (Raises Γ n e ∨ Γ.excused e)
  | .outOfFuel => Tires Γ n fuel rank

variable {n n' : Next} {fuel fuel' rank rank' d : Nat} {f : α → Operand} {g : β → Operand}
  {x y : Arg} {K : Val → Next} {p : Effect α} {k : α → Effect β}

theorem Reaches.grow (h : H <+: H') {o : Outcome α} (ho : Reaches Γ H' n fuel rank f o) :
    Reaches Γ H n fuel rank f o := by
  cases o with
  | value a m =>
      obtain ⟨H'', hgrow, hs, hl⟩ := ho
      exact ⟨H'', h.trans hgrow, hs, hl⟩
  | fault e m =>
      obtain ⟨⟨H'', hgrow, hs⟩, hfails⟩ := ho
      exact ⟨⟨H'', h.trans hgrow, hs⟩, hfails⟩
  | outOfFuel => exact ho

theorem Shift.raises {Γ : Globals} (h : Shift Γ d n n') {e : Fault} (hn : Raises Γ n' e) :
    Raises Γ n e := by
  obtain ⟨c, hc⟩ := hn
  exact ⟨c + d, (h _ _).mpr ⟨c, hc, rfl⟩⟩

theorem Shift.tires {Γ : Globals} (h : Shift Γ d n n') (ht : Tires Γ n' fuel' rank')
    (hle : fuel + rank' ≤ fuel' + 5 * d + rank) : Tires Γ n fuel rank := by
  intro c r hr
  obtain ⟨c', hr', rfl⟩ := (h c r).mp hr
  have := ht c' r hr'
  omega

/-- Following what is left of a computation is following the computation. -/
theorem Reaches.shift {o : Outcome α} (ho : Reaches Γ H n' fuel' rank' f o) (h : Shift Γ d n n')
    (hle : fuel + rank' ≤ fuel' + 5 * d + rank) : Reaches Γ H n fuel rank f o := by
  cases o with
  | value a m =>
      obtain ⟨H', hgrow, hs, y, e, hy, hy', he⟩ := ho
      refine ⟨H', hgrow, hs, y, d + e, hy, h.trans hy', ?_⟩
      rcases he with he | hready
      · exact Or.inl (by omega)
      · exact Or.inr hready
  | fault e m => exact ⟨ho.1, ho.2.imp_left h.raises⟩
  | outOfFuel => exact h.tires ho hle

theorem Reaches.bind (hp : Reaches Γ H n' fuel' rank' f (p m))
    (hk : ∀ {H' m' a y d}, H <+: H' → Sound Γ H' m' → Reads H' (f a) y → Shift Γ d n' (next Γ y) →
      (1 ≤ d ∨ ∃ v, f a = .ready v) → Reaches Γ H' n fuel rank g (k a m'))
    (hf : ∀ {e}, Raises Γ n' e → Raises Γ n e) (ht : Tires Γ n' fuel' rank' → Tires Γ n fuel rank) :
    Reaches Γ H n fuel rank g ((p >>= k) m) := by
  show Reaches Γ H n fuel rank g (Effect.bind p k m)
  rw [Effect.bind]
  cases hpm : p m with
  | value a m' =>
      rw [hpm] at hp
      obtain ⟨H', hgrow, hs, y, d, hy, hshift, hd⟩ := hp
      exact (hk hgrow hs hy hshift hd).grow hgrow
  | fault e m' =>
      rw [hpm] at hp
      exact ⟨hp.1, hp.2.imp_left hf⟩
  | outOfFuel =>
      rw [hpm] at hp
      exact ht hp

theorem Tires.need {Γ : Globals} (h : Tires Γ (next Γ x) fuel' rank')
    (hle : fuel + rank' ≤ fuel' + 5 + rank) : Tires Γ (Next.need x K) fuel rank := by
  intro c s hs
  obtain ⟨c₁, r, c₂, hx, -, rfl⟩ := concludes_need.mp hs
  have := h c₁ r hx
  omega

theorem Raises.applyAll {Γ : Globals} {args : List Arg} {e : Fault} (h : Raises Γ (next Γ x) e) :
    Raises Γ (next Γ (applyAll x args)) e := by
  induction args generalizing x with
  | nil => exact h
  | cons z args ih => exact ih h.need

theorem Tires.applyAll {Γ : Globals} (h : Tires Γ (next Γ x) fuel rank) (args : List Arg) :
    Tires Γ (next Γ (applyAll x args)) fuel rank := by
  induction args generalizing x with
  | nil => exact h
  | cons z args ih => exact ih (h.need (by omega))

theorem Tires.bind {Γ : Globals} (h : Tires Γ n fuel' rank') (hle : fuel + rank' ≤ fuel' + rank) :
    Tires Γ (n.bind K) fuel rank := by
  intro c s hs
  obtain ⟨c₁, r, c₂, hn, -, rfl⟩ := concludes_bind.mp hs
  have := h c₁ r hn
  omega

/-- Meeting a demand and going on with its value. -/
theorem Reaches.need {p : Effect Value} {k : Value → Effect β}
    (hp : Reaches Γ H (next Γ x) fuel' rank' .ready (p m))
    (hk : ∀ {H' m' v v'}, H <+: H' → Sound Γ H' m' → ReadsVal H' v v' →
      Reaches Γ H' (K v') fuel (rank + 4) g (k v m'))
    (hle : fuel + rank' ≤ fuel' + 5 + rank) :
    Reaches Γ H (Next.need x K) fuel rank g ((p >>= k) m) := by
  refine hp.bind ?_ Raises.need fun ht => ht.need hle
  rintro H' m' v y d hgrow hs (⟨hv⟩ | ⟨-⟩) hshift -
  exact (hk hgrow hs hv).shift hshift.met (by omega)

/-- Going on with what is left of a computation, where its value is applied and demanded. -/
theorem Reaches.through (args : List Arg) (hp : Reaches Γ H (next Γ x) fuel' rank' f (p m))
    (hk : ∀ {H' m' a y d}, H <+: H' → Sound Γ H' m' → Reads H' (f a) y →
      Shift Γ d (next Γ x) (next Γ y) →
      Reaches Γ H' (Next.need (applyAll y args) K) fuel (rank + 5 * d) g (k a m'))
    (hle : fuel + rank' ≤ fuel' + 5 + rank) :
    Reaches Γ H (Next.need (applyAll x args) K) fuel rank g ((p >>= k) m) := by
  refine hp.bind ?_ (fun h => h.applyAll.need) fun h => (h.applyAll args).need hle
  intro H' m' a y d hgrow hs hy hshift _
  exact (hk hgrow hs hy hshift).shift hshift.applyAll.need (by omega)

/-- Going on with a boolean. -/
theorem Reaches.bindBool {p : Effect Bool} {k : Bool → Effect β}
    (hp : Reaches Γ H n fuel' rank' (fun b => .ready (.bool b)) (p m))
    (hk : ∀ {H' m'} (b : Bool), H <+: H' → Sound Γ H' m' →
      Reaches Γ H' (K (.bool b)) fuel rank g (k b m'))
    (hle : fuel + rank' ≤ fuel' + rank) :
    Reaches Γ H (n.bind K) fuel rank g ((p >>= k) m) := by
  refine hp.bind ?_ Raises.bind fun ht => ht.bind hle
  rintro H' m' b y d hgrow hs (⟨⟨⟩⟩ | ⟨-⟩) hshift -
  exact (hk b hgrow hs).shift hshift.bind (by omega)

theorem Reaches.left (hs : Sound Γ H m) {a : α} (h : Left Γ H n (f a)) :
    Reaches Γ H n fuel rank f ((pure a : Effect α) m) :=
  ⟨H, List.prefix_rfl, hs, h⟩

/-- Returning the value of a computation. -/
theorem Reaches.ret (hs : Sound Γ H m) {a : α} {v : Value} {v' : Val} (hf : f a = .ready v)
    (h : ReadsVal H v v') : Reaches Γ H (.ret v') fuel rank f ((pure a : Effect α) m) :=
  .left hs ⟨.ready v', 0, hf ▸ .ready h, .refl _, Or.inr ⟨v, hf⟩⟩

/-- Returning a result in another form. -/
theorem Reaches.map {φ : α → β} (hp : Reaches Γ H n fuel rank f (p m)) (hφ : ∀ a, g (φ a) = f a) :
    Reaches Γ H n fuel rank g ((p >>= fun a => pure (φ a)) m) := by
  refine hp.bind ?_ id id
  intro H' m' a y d _ hs hy hshift hd
  rw [← hφ a] at hy hd
  exact .left hs ⟨y, d, hy, hshift, hd⟩

/-- Returning an operand for its value. -/
theorem Reaches.of (hs : Sound Γ H m) {a : Operand} (h : Reads H a x) :
    Reaches Γ H (.of x) fuel rank id ((pure a : Effect Operand) m) :=
  .left hs ⟨x, 1, h, .of x, Or.inl (Nat.le_refl 1)⟩

theorem Reaches.stuck (hs : Sound Γ H m) (e : Fault) :
    Reaches Γ H (.stuck e) fuel rank f ((Effect.fail e : Effect α) m) :=
  ⟨⟨H, List.prefix_rfl, hs⟩, Or.inl ⟨0, .stuck e⟩⟩

theorem Reaches.delay (hs : Sound Γ H m) {s : Suspension} {k : Operand → Effect β}
    (hsus : Suspends H s x)
    (hk : ∀ {H' m' a}, H <+: H' → Sound Γ H' m' → Reads H' a x →
      Reaches Γ H' n fuel rank g (k a m')) :
    Reaches Γ H n fuel rank g ((Effect.delay s >>= k) m) := by
  have hgrow : H <+: H ++ [x] := List.prefix_append H [x]
  refine (hk hgrow (hs.push hsus) (.delayed ?_)).grow hgrow
  rw [hs.size, List.getElem?_concat_length]

/-! ### Data -/

/-- First-order data. -/
inductive Data
  | int (n : Int64)
  | bool (b : Bool)
  | nil
  | cons (head tail : Data)

def Data.val : Data → Val
  | int n => .int n
  | bool b => .bool b
  | nil => .nil
  | cons h t => .cons (.ready h.val) (.ready t.val)

/-- Global names that stand for data. -/
abbrev Frame := List (String × Data)

/-- The machine value of first-order data, which needs no memory. -/
def Data.value : Data → Value
  | int n => .int n
  | bool b => .bool b
  | nil => .nil
  | cons h t => .cons (.ready h.value) (.ready t.value)

theorem Data.reads (H : List Arg) (d : Data) : ReadsVal H d.value d.val := by
  induction d with
  | int n => exact .int n
  | bool b => exact .bool b
  | nil => exact .nil
  | cons h t ihh iht => exact .cons (.ready ihh) (.ready iht)

/-- The global names of a machine. -/
def Frame.env (Γ : Frame) : Env :=
  Γ.map fun b => (b.1, .ready b.2.value)

theorem Frame.lookup_env (Γ : Frame) (x : String) :
    Γ.env.lookup x = (Γ.lookup x).map fun d => .ready d.value := by
  induction Γ with
  | nil => rfl
  | cons b Γ ih =>
      obtain ⟨y, d⟩ := b
      rw [Frame.env, List.map_cons, List.lookup_cons, List.lookup_cons]
      cases x == y with
      | true => rfl
      | false => exact ih

/-- A machine that has data for the global names excuses no fault. -/
def Frame.world (Γ : Frame) : World where
  names := { lookup := fun x => (Γ.lookup x).map fun d => .ready d.val }
  env := Γ.env
  excused _ := False
  missing := by
    intro x henv
    rw [Γ.lookup_env, Option.map_eq_none_iff] at henv
    exact Or.inl (by simp [global, henv])

instance : Coe Frame World :=
  ⟨Frame.world⟩

instance (Γ : Frame) : Γ.world.Strict :=
  ⟨fun _ hf => hf⟩

theorem Frame.global_cases (Γ : Frame) (x : String) :
    (∃ d : Data, global Γ x = .of (.ready d.val)) ∨ global Γ x = .stuck (.unbound x) := by
  have hnames : Γ.world.names.lookup x = (Γ.lookup x).map fun d => Arg.ready d.val := rfl
  unfold global
  rw [hnames]
  cases Γ.lookup x with
  | some d => exact Or.inl ⟨d, rfl⟩
  | none => exact Or.inr rfl

/-- The memory of a fresh machine with the given global names. -/
def Frame.memory (Γ : Frame) : Memory :=
  { globals := Γ.env }

theorem Frame.memory_sound (Γ : Frame) : Sound Γ [] Γ.memory := by
  refine ⟨rfl, fun a c h => by simp [Frame.memory] at h, rfl, fun x y hy => ?_⟩
  have henv : (Γ.lookup x).map (fun d => Operand.ready d.value) = some y :=
    (Γ.lookup_env x).symm.trans hy
  obtain ⟨d, hd, rfl⟩ := Option.map_eq_some_iff.mp henv
  refine ⟨.ready d.val, ?_, .ready d.val, 1, .ready (d.reads []), .of _, Or.inl (Nat.le_refl 1)⟩
  show (Γ.lookup x).map _ = _
  rw [hd]
  rfl

end Decombinator.ByName
