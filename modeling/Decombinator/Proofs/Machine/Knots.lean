/-
Suspended computations that become their own outcome.

The evaluator calls itself.  `Calls` says which call makes which, for the calls that code leads to,
and in which memory.  A cell whose outcome is suspended again is linked to it, and where links lead
in a circle forcing never ends, without taking a step.  That is a knot.

With a limit, nothing else keeps an evaluation of code from returning: between two steps it only
follows links, of which there are finitely many.  Nor is a knot ever passed by, since a call
returns only if all calls do that it makes.  So an evaluation returns if and only if it does not
come to a knot.
-/
import Decombinator.Proofs.Machine.Limit
import Mathlib.Data.Finset.Card

namespace Decombinator.Machine

open Effect Relation

variable {policy : Policy} {m m' : Memory} {L L' : Node → Nat} {x y : Operand} {a b : Nat}
  {α β : Type}

/-! ### Calls -/

/-- A call of the evaluator that does not evaluate expressions. -/
inductive Call
  | apply (f x : Operand)
  | unary (g : Unary) (x : Operand)
  | binary (g : Binary) (x y : Operand)
  | ternary (g : Ternary) (x y z : Operand)
  | force (x : Operand)
  | resume (s : Suspension)
  | run (c : Code)
  /-- Running code and forcing what comes of it. -/
  | evaluate (c : Code)

/-- The call has an outcome. -/
def Call.Halts (policy : Policy) (m : Memory) : Call → Prop
  | apply f x => Machine.Halts (fun fuel => Machine.apply policy fuel f x) m
  | unary g x => Machine.Halts (fun fuel => applyUnary policy fuel g x) m
  | binary g x y => Machine.Halts (fun fuel => applyBinary policy fuel g x y) m
  | ternary g x y z => Machine.Halts (fun fuel => applyTernary policy fuel g x y z) m
  | force x => Machine.Halts (fun fuel => Machine.force policy fuel x) m
  | resume s => Machine.Halts (fun fuel => Machine.resume policy fuel s) m
  | run c => Machine.Halts (fun fuel => Machine.run policy fuel c) m
  | evaluate c =>
    Machine.Halts (fun fuel => Machine.run policy fuel c >>= fun x => Machine.force policy fuel x) m

/-- An application takes a step, and what is applied comes to a value. -/
def Enters (policy : Policy) (f : Operand) (m : Memory) (v : Value) (m' : Memory) : Prop :=
  ∃ m₁, tick policy m = .value () m₁ ∧
    Converges (fun fuel => force policy fuel f) m₁ (.value v m')

/-- One call makes another, each in the memory as it then is. -/
inductive Calls (policy : Policy) : Call × Memory → Call × Memory → Prop
  | function {f x : Operand} {m m₁ : Memory} (ht : tick policy m = .value () m₁) :
      Calls policy (.apply f x, m) (.force f, m₁)
  | head {f x h t : Operand} {m m' : Memory} (hf : Enters policy f m (.cons h t) m') :
      Calls policy (.apply f x, m) (.apply x h, m')
  | tail {f x h t g : Operand} {m m' m'' : Memory} (hf : Enters policy f m (.cons h t) m')
      (hg : Converges (fun fuel => apply policy fuel x h) m' (.value g m'')) :
      Calls policy (.apply f x, m) (.apply g t, m'')
  | unary {f x : Operand} {g : Unary} {m m' : Memory} (hf : Enters policy f m (.unary g) m') :
      Calls policy (.apply f x, m) (.unary g x, m')
  | binary {f x y : Operand} {g : Binary} {m m' : Memory}
      (hf : Enters policy f m (.binary1 g y) m') :
      Calls policy (.apply f x, m) (.binary g y x, m')
  | ternary {f x y z : Operand} {g : Ternary} {m m' : Memory}
      (hf : Enters policy f m (.ternary2 g y z) m') :
      Calls policy (.apply f x, m) (.ternary g y z x, m')
  | operand {g : Unary} {x : Operand} {m : Memory} (hg : g ≠ .i) :
      Calls policy (.unary g x, m) (.force x, m)
  /-- The head of what is no cell, or the tail. -/
  | part {g : Unary} {first : Bool} {x : Operand} {v : Value} {m m' : Memory}
      (hg : g = if first then .car else .cdr) (hv : ∀ h t, v ≠ .cons h t)
      (hx : Converges (fun fuel => force policy fuel x) m (.value v m')) :
      Calls policy (.unary g x, m) (.apply (.ready v) (.ready (.bool first)), m')
  | left {g : Binary} {op : BinOp} {x y : Operand} {m : Memory} (hg : g.operator? = some op) :
      Calls policy (.binary g x y, m) (.force x, m)
  | right {g : Binary} {op : BinOp} {x y : Operand} {v : Value} {m m' : Memory}
      (hg : g.operator? = some op)
      (hx : Converges (fun fuel => force policy fuel x) m (.value v m')) :
      Calls policy (.binary g x y, m) (.force y, m')
  | compose {x y z : Operand} {m : Memory} :
      Calls policy (.ternary .b x y z, m) (.apply x (.delayed m.cells.size), m.push (.apply y z))
  | exchange {x y z : Operand} {m : Memory} : Calls policy (.ternary .c x y z, m) (.apply x z, m)
  | exchanged {x y z w : Operand} {m m' : Memory}
      (hw : Converges (fun fuel => apply policy fuel x z) m (.value w m')) :
      Calls policy (.ternary .c x y z, m) (.apply w y, m')
  | share {x y z : Operand} {m : Memory} :
      Calls policy (.ternary .s x y z, m) (.apply x z, m.push (.apply y z))
  | shared {x y z w : Operand} {m m' : Memory}
      (hw : Converges (fun fuel => apply policy fuel x z) (m.push (.apply y z)) (.value w m')) :
      Calls policy (.ternary .s x y z, m) (.apply w (.delayed m.cells.size), m')
  | link {a : Nat} {y : Operand} {m : Memory} (ha : m.cells[a]? = some (.done y)) :
      Calls policy (.force (.delayed a), m) (.force y, m)
  | pending {a : Nat} {s : Suspension} {m : Memory} (ha : m.cells[a]? = some (.pending s)) :
      Calls policy (.force (.delayed a), m) (.resume s, m)
  | outcome {a : Nat} {s : Suspension} {y : Operand} {m m' : Memory}
      (ha : m.cells[a]? = some (.pending s))
      (hs : Converges (fun fuel => resume policy fuel s) m (.value y m')) :
      Calls policy (.force (.delayed a), m) (.force y, m'.keep policy a (.done y))
  | code {c : Code} {m : Memory} : Calls policy (.resume (.code c), m) (.run c, m)
  | application {f x : Operand} {m : Memory} :
      Calls policy (.resume (.apply f x), m) (.apply f x, m)
  | callee {c d : Code} {m : Memory} : Calls policy (.run (.ap c d), m) (.run c, m)
  | called {c d : Code} {g : Operand} {m m' : Memory}
      (hg : Converges (fun fuel => run policy fuel c) m (.value g m')) :
      Calls policy (.run (.ap c d), m) (.apply g (.delayed m'.cells.size), m'.push (.code d))
  | start {c : Code} {m : Memory} : Calls policy (.evaluate c, m) (.run c, m)
  | result {c : Code} {x : Operand} {m m' : Memory}
      (hx : Converges (fun fuel => run policy fuel c) m (.value x m')) :
      Calls policy (.evaluate c, m) (.force x, m')

/-! ### Knots -/

/-- The outcome of a suspended computation is suspended. -/
def Links (m : Memory) (a b : Nat) : Prop :=
  m.cells[a]? = some (.done (.delayed b))

/-- A call leads to forcing a computation whose links lead back to it. -/
def Knots (policy : Policy) (q : Call) (m : Memory) : Prop :=
  ∃ a m', ReflTransGen (Calls policy) (q, m) (.force (.delayed a), m') ∧
    TransGen (Links m') a a

variable {q q' : Call}

theorem Knots.calls (h : Knots policy q' m') (hc : Calls policy (q, m) (q', m')) :
    Knots policy q m := by
  obtain ⟨a, m'', hpath, hcircle⟩ := h
  exact ⟨a, m'', .head hc hpath, hcircle⟩

theorem calls_of_links (h : ReflTransGen (Links m) a b) :
    ReflTransGen (Calls policy) (.force (.delayed a), m) (.force (.delayed b), m) := by
  induction h with
  | refl => exact .refl
  | tail _ hlink ih => exact ih.tail (.link hlink)

/-- Links that lead in a circle are followed for ever. -/
theorem force_circle (h : TransGen (Links m) a a) (fuel : Nat) :
    force policy fuel (.delayed a) m = .outOfFuel := by
  induction fuel generalizing a with
  | zero => rfl
  | succ fuel ih =>
      obtain ⟨b, hlink, hback⟩ := TransGen.head'_iff.mp h
      rw [force_done policy fuel hlink]
      exact ih (.tail' hback hlink)

section Reached

open Classical

/-- The cells that links lead to. -/
noncomputable def reached (m : Memory) (a : Nat) : Finset Nat :=
  (Finset.range m.cells.size).filter fun b => ReflTransGen (Links m) a b

theorem mem_reached : b ∈ reached m a ↔ b < m.cells.size ∧ ReflTransGen (Links m) a b := by
  rw [reached, Finset.mem_filter, Finset.mem_range]

theorem card_reached_lt (h : Links m a b) (ha : ¬ TransGen (Links m) a a) :
    (reached m b).card < (reached m a).card := by
  refine Finset.card_lt_card (Finset.ssubset_iff_subset_ne.mpr ⟨fun c hc => ?_, fun heq => ?_⟩)
  · obtain ⟨hlt, hpath⟩ := mem_reached.mp hc
    exact mem_reached.mpr ⟨hlt, .head h hpath⟩
  · have hlt : a < m.cells.size := (Array.getElem?_eq_some_iff.mp h).1
    have hself : a ∈ reached m b := heq ▸ mem_reached.mpr ⟨hlt, .refl⟩
    exact ha (.head' h (mem_reached.mp hself).2)

end Reached

/-- There are finitely many links, so they come to an end or lead in a circle. -/
theorem acc_links (h : ∀ b, ReflTransGen (Links m) a b → ¬ TransGen (Links m) b b) :
    Acc (fun b a => Links m a b) a := by
  induction hcard : (reached m a).card using Nat.strongRecOn generalizing a with
  | ind n ih =>
      subst hcard
      refine .intro a fun b hlink => ?_
      exact ih _ (card_reached_lt hlink (h a .refl)) (fun c hpath => h c (.head hlink hpath)) rfl

/-! ### A knot is not passed by -/

namespace Halts

variable {p : Nat → Effect α} {k : α → Nat → Effect β} {r : α}

theorem pred (h : Halts p m) : Halts (fun fuel => p (fuel + 1)) m := by
  obtain ⟨o, ho, N, hN⟩ := h
  exact ⟨o, ho, N, fun fuel hfuel => hN (fuel + 1) (by omega)⟩

/-- What comes first in an evaluation with an outcome has an outcome. -/
theorem first (hp : ∀ {fuel fuel'}, fuel ≤ fuel' → Extends (p fuel) (p fuel'))
    (h : Halts (fun fuel => p fuel >>= fun a => k a fuel) m) : Halts p m := by
  rcases halts_or_diverges hp m with hhalts | hdiverges
  · exact hhalts
  · obtain ⟨o, ho, N, hN⟩ := h
    have hout : Effect.bind (p N) (fun a => k a N) m = .outOfFuel := by
      rw [Effect.bind, hdiverges N]
    exact absurd ((hN N (Nat.le_refl N)).symm.trans hout) ho

/-- So does what comes after it. -/
theorem rest (h : Halts (fun fuel => p fuel >>= fun a => k a fuel) m)
    (hp : Converges p m (.value r m')) : Halts (k r) m' := by
  obtain ⟨o, ho, N, hN⟩ := h
  obtain ⟨-, N', hN'⟩ := hp
  refine ⟨o, ho, N + N', fun fuel hfuel => ?_⟩
  have hbind : Effect.bind (p fuel) (fun a => k a fuel) m = k r fuel m' := by
    rw [Effect.bind, hN' fuel (by omega)]
  exact hbind.symm.trans (hN fuel (by omega))

end Halts

theorem converges_const {p : Effect α} {r : α} (h : p m = .value r m') :
    Converges (fun _ => p) m (.value r m') :=
  ⟨by simp, 0, fun _ _ => h⟩

theorem converges_delay (s : Suspension) :
    Converges (fun _ => delay s) m (.value (.delayed m.cells.size) (m.push s)) :=
  converges_const rfl

section Extends

variable {fuel fuel' : Nat} (h : fuel ≤ fuel')

include h

theorem force_extends (x : Operand) : Extends (force policy fuel x) (force policy fuel' x) :=
  (extends_of_le policy h).force x

theorem apply_extends (f x : Operand) : Extends (apply policy fuel f x) (apply policy fuel' f x) :=
  (extends_of_le policy h).apply f x

theorem resume_extends (s : Suspension) : Extends (resume policy fuel s) (resume policy fuel' s) :=
  (extends_of_le policy h).resume s

theorem run_extends (c : Code) : Extends (run policy fuel c) (run policy fuel' c) :=
  (extends_of_le policy h).run c

end Extends

/-- An application that has an outcome, after what is applied has come to a value. -/
theorem Enters.rest {f : Operand} {v : Value} (h : Enters policy f m v m')
    {k : Value → Nat → Effect Operand}
    (hhalts : Halts (fun fuel => tick policy >>= fun _ =>
      force policy fuel f >>= fun v => k v fuel) m) :
    Halts (k v) m' := by
  obtain ⟨m₁, ht, hf⟩ := h
  exact (hhalts.rest (converges_const ht)).rest hf


theorem applyBinary_operator {g : Binary} {op : BinOp} (hg : g.operator? = some op)
    (h : Halts (fun fuel => applyBinary policy fuel g x y) m) :
    Halts (fun fuel => force policy fuel x >>= fun v => force policy fuel y >>= fun w =>
      (do
        let r ← Effect.ofExcept (arith op v w)
        pure (.ready r) : Effect Operand)) m := by
  have hbinary := h.pred
  simp only [applyBinary, hg] at hbinary
  exact hbinary

/-- **A call returns only if the calls do that it makes.** -/
theorem Calls.halts {s s' : Call × Memory} (hc : Calls policy s s') (h : s.1.Halts policy s.2) :
    s'.1.Halts policy s'.2 := by
  cases hc with
  | function ht => exact ((Halts.pred h).rest (converges_const ht)).first fun h => force_extends h _
  | head hf => exact (hf.rest (Halts.pred h)).first fun h => apply_extends h _ _
  | tail hf hg => exact (hf.rest (Halts.pred h)).rest hg
  | unary hf => exact hf.rest (Halts.pred h)
  | binary hf => exact hf.rest (Halts.pred h)
  | ternary hf => exact hf.rest (Halts.pred h)
  | @operand g x _ hg =>
      have hunary := Halts.pred h
      cases g with
      | i => exact absurd rfl hg
      | _ => exact hunary.first fun h => force_extends h _
  | @part g first x v _ _ hg hv hx =>
      subst hg
      cases first with
      | _ =>
          have hrest := (Halts.pred h).rest hx
          cases v with
          | cons hd tl => exact absurd rfl (hv hd tl)
          | _ => exact hrest
  | left hg => exact (applyBinary_operator hg h).first fun h => force_extends h _
  | right hg hx => exact ((applyBinary_operator hg h).rest hx).first fun h => force_extends h _
  | compose => exact (Halts.pred h).rest (converges_delay _)
  | exchange => exact (Halts.pred h).first fun h => apply_extends h _ _
  | exchanged hw => exact (Halts.pred h).rest hw
  | share => exact ((Halts.pred h).rest (converges_delay _)).first fun h => apply_extends h _ _
  | shared hw => exact ((Halts.pred h).rest (converges_delay _)).rest hw
  | link ha => exact (Halts.pred h).congr fun fuel => (force_done policy fuel ha).symm
  | @pending a s m ha =>
      have hextends : ∀ {fuel fuel'}, fuel ≤ fuel' → Extends (resume policy fuel s)
          (resume policy fuel' s) := fun h => resume_extends h s
      rcases halts_or_diverges (p := fun fuel => resume policy fuel s) hextends m with
        hhalts | hdiverges
      · exact hhalts
      · obtain ⟨o, ho, N, hN⟩ := Halts.pred h
        have hresume : resume policy N s m = .outOfFuel := hdiverges N
        have hout : force policy (N + 1) (.delayed a) m = .outOfFuel := by
          rw [force_pending policy N ha, hresume]
        exact absurd ((hN N (Nat.le_refl N)).symm.trans hout) ho
  | @outcome a s y m m' ha hs =>
      obtain ⟨o, ho, N, hN⟩ := Halts.pred h
      obtain ⟨-, N', hN'⟩ := hs
      refine ⟨o, ho, N + N', fun fuel hfuel => ?_⟩
      have hresume : resume policy fuel s m = .value y m' := hN' fuel (by omega)
      have hforce : force policy (fuel + 1) (.delayed a) m =
          force policy fuel y (m'.keep policy a (.done y)) := by
        rw [force_pending policy fuel ha, hresume]
      exact hforce.symm.trans (hN fuel (by omega))
  | code => exact Halts.pred h
  | application => exact Halts.pred h
  | callee => exact (Halts.pred h).first fun h => run_extends h _
  | called hg => exact ((Halts.pred h).rest hg).rest (converges_delay _)
  | start => exact Halts.first (fun h => run_extends h _) h
  | result hx => exact Halts.rest h hx

theorem halts_of_path {s s' : Call × Memory} (hpath : ReflTransGen (Calls policy) s s')
    (h : s.1.Halts policy s.2) : s'.1.Halts policy s'.2 := by
  induction hpath with
  | refl => exact h
  | tail _ hc ih => exact hc.halts ih

theorem Knots.not_halts (h : Knots policy q m) : ¬ q.Halts policy m := by
  intro hhalts
  obtain ⟨a, m', hpath, hcircle⟩ := h
  obtain ⟨o, ho, N, hN⟩ := halts_of_path hpath hhalts
  exact ho ((hN N (Nat.le_refl N)).symm.trans (force_circle hcircle N))

/-! ### Memories of code

Expressions may use any name, so where a name is above some level there are no expressions up to
that level. -/

/-- Nothing at level zero has to do with expressions. -/
structure Coded (L : Node → Nat) (m : Memory) : Prop extends Orderly L m where
  above : ∃ x, 0 < L (.name x)

namespace Coded

variable (h : Coded L m)

include h

theorem later (hl : Later m m') (hr : Regrades L L' m m') : Coded L' m' := by
  obtain ⟨x, hx⟩ := h.above
  refine ⟨hl.orderly hr, x, ?_⟩
  rwa [hr.agree (.name x) trivial]

theorem delay (policy : Policy) {s : Suspension} (hs : ∀ n, s.Occurs n → Low L 0 m n) :
    Grows policy L m (fun L' m' x => Inside (Low L' 0 m') x) (Effect.delay s m) :=
  delay_grows h.toOrderly hs

theorem not_names : ¬ ∀ x, Low L 0 m (.name x) := by
  intro hnames
  obtain ⟨x, hx⟩ := h.above
  exact Nat.not_le.mpr hx (hnames x).2

end Coded

/-- All that a call is given has the property. -/
def Call.Within (P : Node → Prop) : Call → Prop
  | apply f x => Inside P f ∧ Inside P x
  | unary _ x => Inside P x
  | binary _ x y => Inside P x ∧ Inside P y
  | ternary _ x y z => Inside P x ∧ Inside P y ∧ Inside P z
  | force x => Inside P x
  | resume s => ∀ n, s.Occurs n → P n
  | run c | evaluate c => ∀ x ∈ c.occurrences, P (.name x)

/-! ### What comes to no knot returns -/

/-- After one more step, calls that come to no knot return. -/
def Ahead (policy : Policy) (m : Memory) : Prop :=
  ∀ ⦃q m' L⦄, m.steps < m'.steps → Allowed policy m m' → Coded L m' → q.Within (Low L 0 m') →
    ¬ Knots policy q m' → q.Halts policy m'

theorem Ahead.later (h : Ahead policy m) (hl : Later m m') (hallow : Allowed policy m m') :
    Ahead policy m' := fun _ _ _ hlt hallow' =>
  h (Nat.lt_of_le_of_lt hl.steps hlt) (hallow.trans hallow' (Nat.le_of_lt hlt))

/-- An effect that keeps memory orderly, and what comes after it. -/
theorem Halts.grow {p : Nat → Effect α} {k : α → Nat → Effect β}
    {post : (Node → Nat) → Memory → α → Prop} (hp : Halts p m) (hc : Coded L m)
    (hgrows : ∀ fuel, Grows policy L m post (p fuel m))
    (hk : ∀ {L' m' r}, Converges p m (.value r m') → Later m m' → Allowed policy m m' →
      Coded L' m' → Regrades L L' m m' → post L' m' r → Halts (k r) m') :
    Halts (fun fuel => p fuel >>= fun r => k r fuel) m := by
  refine hp.bind fun {r m'} hr => ?_
  obtain ⟨hl, hallow, L', hregrades, hpost⟩ := hr.of_forall hgrows
  exact hk hr hl hallow (hc.later hl hregrades) hregrades hpost

section Ahead

variable (h : Ahead policy m) (hc : Coded L m)

include h hc

theorem apply_returns {f : Operand} (hf : Inside (Low L 0 m) f) (hx : Inside (Low L 0 m) x)
    (hknot : ¬ Knots policy (.apply f x) m) : Halts (fun fuel => apply policy fuel f x) m := by
  refine .succ ?_
  simp only [apply]
  refine tick_halts.grow hc (fun _ => tick_grows hc.toOrderly)
    fun {L₁ m₁ _} ht h₁ ha₁ hc₁ hr₁ hlt => ?_
  obtain ⟨-, N, htick⟩ := ht
  have htick : tick policy m = .value () m₁ := htick N (Nat.le_refl N)
  have hforce : Halts (fun fuel => force policy fuel f) m₁ :=
    h (q := .force f) hlt ha₁ hc₁ (hf.grow h₁ hr₁) fun hk => hknot (hk.calls (.function htick))
  refine hforce.grow hc₁ (fun fuel => (confined policy fuel).force hc₁.toOrderly (hf.grow h₁ hr₁))
    fun {L₂ m₂ v} hv h₂ ha₂ hc₂ hr₂ hinside => ?_
  have henters : Enters policy f m v m₂ := ⟨m₁, htick, hv⟩
  have hx := (hx.grow h₁ hr₁).grow h₂ hr₂
  have hlt : m.steps < m₂.steps := Nat.lt_of_lt_of_le hlt h₂.steps
  have ha₂ : Allowed policy m m₂ := ha₁.trans ha₂ h₂.steps
  -- whatever is called next is called after a step
  have hnext : ∀ {q}, Calls policy (.apply f x, m) (q, m₂) → q.Within (Low L₂ 0 m₂) →
      q.Halts policy m₂ := fun hcall hq => h hlt ha₂ hc₂ hq fun hk => hknot (hk.calls hcall)
  cases v with
  | int n => exact .fail _
  | bool b => cases b <;> exact .pure _
  | cons head tail =>
      obtain ⟨hhead, htail⟩ := insideVal_cons.mp hinside
      have hfirst : Halts (fun fuel => apply policy fuel x head) m₂ :=
        hnext (.head henters) ⟨hx, hhead⟩
      refine hfirst.grow hc₂ (fun fuel => (confined policy fuel).apply hc₂.toOrderly hx hhead)
        fun {L₃ m₃ g} hg h₃ ha₃ hc₃ hr₃ hin => ?_
      exact h (q := .apply g tail) (Nat.lt_of_lt_of_le hlt h₃.steps) (ha₂.trans ha₃ h₃.steps) hc₃
        ⟨hin.1, htail.grow h₃ hr₃⟩ fun hk => hknot (hk.calls (.tail henters hg))
  | unary g => exact hnext (.unary henters) hx
  | binary1 g a => exact hnext (.binary henters) ⟨insideVal_binary1.mp hinside, hx⟩
  | ternary2 g a b =>
      obtain ⟨ha, hb⟩ := insideVal_ternary2.mp hinside
      exact hnext (.ternary henters) ⟨ha, hb, hx⟩
  | closure label env p rest body =>
      exact (hc₂.not_names (insideVal_closure.mp hinside).2).elim
  | _ => exact .pure _

theorem run_returns (c : Code) (hnames : ∀ x ∈ c.occurrences, Low L 0 m (.name x))
    (hknot : ¬ Knots policy (.run c) m) : Halts (fun fuel => run policy fuel c) m := by
  induction c generalizing m L with
  | int n => exact .succ (.pure _)
  | sym x => exact .succ (global_halts x)
  | prim p => exact .succ (.pure _)
  | ap f d ihf _ =>
      have hf : ∀ x ∈ f.occurrences, Low L 0 m (.name x) :=
        fun x hx => hnames x (List.mem_append_left _ hx)
      have hrun := ihf h hc hf fun hk => hknot (hk.calls .callee)
      refine .succ (hrun.grow hc (fun fuel => (confined policy fuel).run f hc.toOrderly
        fun x hx => (hf x hx).2) fun {L₁ m₁ g} hg h₁ ha₁ hc₁ hr₁ hin => ?_)
      have hd : ∀ n, (Suspension.code d).Occurs n → Low L₁ 0 m₁ n := by
        rintro n ⟨x, hx, rfl⟩
        exact Low.grow h₁ hr₁ (hnames x (List.mem_append_right _ hx))
      refine (Halts.delay _).grow hc₁ (fun _ => hc₁.delay policy hd)
        fun {L₂ m₂ z} hz h₂ ha₂ hc₂ hr₂ hin₂ => ?_
      obtain ⟨-, N, hz⟩ := hz
      obtain ⟨rfl, rfl⟩ := Outcome.value.inj (hz N (Nat.le_refl N))
      exact apply_returns ((h.later h₁ ha₁).later h₂ ha₂) hc₂ (hin.1.grow h₂ hr₂) hin₂
        fun hk => hknot (hk.calls (.called hg))

theorem resume_returns (s : Suspension) (hs : ∀ n, s.Occurs n → Low L 0 m n)
    (hknot : ¬ Knots policy (.resume s) m) : Halts (fun fuel => resume policy fuel s) m := by
  refine .succ ?_
  cases s with
  | code c =>
      exact run_returns h hc c (fun x hx => hs _ ⟨x, hx, rfl⟩) fun hk => hknot (hk.calls .code)
  | expr e env => exact (hc.not_names fun x => hs _ (.inr ⟨x, rfl⟩)).elim
  | apply f x =>
      exact apply_returns h hc (fun n hn => hs n (.inl hn)) (fun n hn => hs n (.inr hn))
        fun hk => hknot (hk.calls .application)

/-- A suspended computation is run, and its outcome is forced after a step, unless it is a
value. -/
theorem force_pending_returns {s : Suspension} (ha : m.cells[a]? = some (.pending s))
    (hlevel : L (.addr a) = 0) (hknot : ¬ Knots policy (.force (.delayed a)) m) :
    Halts (fun fuel => force policy fuel (.delayed a)) m := by
  have hs : ∀ n, s.Occurs n → Low L 0 m n := hlevel ▸ hc.toOrderly.cell ha
  have hresume := resume_returns h hc s hs fun hk => hknot (hk.calls (.pending ha))
  refine force_halts_of_resume ha hresume fun {y m'} hy => ?_
  have houtcome : ¬ Knots policy (.force y) (m'.keep policy a (.done y)) :=
    fun hk => hknot (hk.calls (.outcome ha hy))
  obtain ⟨-, N, hN⟩ := hy
  obtain ⟨hl, hallow, hready, L', hr, hin⟩ :=
    (confined policy N).keep hc.toOrderly ha (hN N (Nat.le_refl N))
  rw [hlevel] at hin
  rcases hready with ⟨v, rfl⟩ | hlt
  · exact .succ (.pure v)
  · have hlt : m.steps < (m'.keep policy a (.done y)).steps := by rwa [Memory.keep_steps]
    exact h (q := .force y) hlt hallow (hc.later hl hr) hin houtcome

/-- Forcing follows links, to a value, a failure or a computation that has not run. -/
theorem force_returns (hx : Inside (Low L 0 m) x) (hknot : ¬ Knots policy (.force x) m) :
    Halts (fun fuel => force policy fuel x) m := by
  cases x with
  | ready v => exact .succ (.pure v)
  | delayed a =>
      have hacc : Acc (fun b a => Links m a b) a :=
        acc_links fun b hpath hcircle => hknot ⟨b, m, calls_of_links hpath, hcircle⟩
      induction hacc with
      | intro a _ ih =>
          obtain ⟨hlt, hle⟩ := inside_delayed.mp hx
          have hlevel : L (.addr a) = 0 := Nat.le_zero.mp hle
          obtain ⟨c, hcell⟩ : ∃ c, m.cells[a]? = some c := ⟨_, Array.getElem?_eq_getElem hlt⟩
          cases c with
          | pending s => exact force_pending_returns h hc hcell hlevel hknot
          | failed e => exact .succ (.of_eq (by simp) fun fuel => force_failed policy fuel hcell)
          | done y =>
              have hy : Inside (Low L 0 m) y := hlevel ▸ hc.toOrderly.cell hcell
              have hforce : Halts (fun fuel => force policy fuel y) m := by
                cases y with
                | ready v => exact .succ (.pure v)
                | delayed b => exact ih b hcell hy fun hk => hknot (hk.calls (.link hcell))
              exact .succ (hforce.congr fun fuel => force_done policy fuel hcell)

theorem unary_returns (g : Unary) (hx : Inside (Low L 0 m) x)
    (hknot : ¬ Knots policy (.unary g x) m) : Halts (fun fuel => applyUnary policy fuel g x) m := by
  have hforce : g ≠ .i → Halts (fun fuel => force policy fuel x) m := fun hg =>
    force_returns h hc hx fun hk => hknot (hk.calls (.operand hg))
  have hgrows : ∀ fuel, Grows policy L m (fun L' m' v => InsideVal (Low L' 0 m') v)
      (force policy fuel x m) := fun fuel => (confined policy fuel).force hc.toOrderly hx
  -- a part of what is no cell is got by applying it
  have hpart : ∀ (first : Bool) {L₁ m₁ v}, (g = if first then .car else .cdr) →
      Converges (fun fuel => force policy fuel x) m (.value v m₁) → Ahead policy m₁ → Coded L₁ m₁ →
      InsideVal (Low L₁ 0 m₁) v → (∀ hd tl, v ≠ .cons hd tl) →
      Halts (fun fuel => apply policy fuel (.ready v) (.ready (.bool first))) m₁ := by
    intro first L₁ m₁ v hg hv h₁ hc₁ hin hcons
    exact apply_returns h₁ hc₁ (inside_ready.mpr hin) (inside_ready.mpr insideVal_bool)
      fun hk => hknot (hk.calls (.part hg hcons hv))
  refine .succ ?_
  cases g with
  | i => exact .pure x
  | car =>
      refine (hforce (by simp)).grow hc hgrows fun {L₁ m₁ v} hv h₁ ha₁ hc₁ _ hin => ?_
      have hpart := hpart true rfl hv (h.later h₁ ha₁) hc₁ hin
      cases v with
      | cons head tail => exact .pure head
      | _ => exact hpart (by simp)
  | cdr =>
      refine (hforce (by simp)).grow hc hgrows fun {L₁ m₁ v} hv h₁ ha₁ hc₁ _ hin => ?_
      have hpart := hpart false rfl hv (h.later h₁ ha₁) hc₁ hin
      cases v with
      | cons head tail => exact .pure tail
      | _ => exact hpart (by simp)
  | isnil => exact (hforce (by simp)).bind fun _ => (Halts.ofExcept _).bind fun _ => .pure _
  | neg => exact (hforce (by simp)).bind fun _ => (Halts.ofExcept _).bind fun _ => .pure _

theorem binary_returns (g : Binary) (hx : Inside (Low L 0 m) x) (hy : Inside (Low L 0 m) y)
    (hknot : ¬ Knots policy (.binary g x y) m) :
    Halts (fun fuel => applyBinary policy fuel g x y) m := by
  refine .succ ?_
  simp only [applyBinary]
  cases hg : g.operator? with
  | none => exact .pure _
  | some op =>
      have hforce := force_returns h hc hx fun hk => hknot (hk.calls (.left hg))
      refine hforce.grow hc (fun fuel => (confined policy fuel).force hc.toOrderly hx)
        fun {L₁ m₁ v} hv h₁ ha₁ hc₁ hr₁ _ => ?_
      have hsecond := force_returns (h.later h₁ ha₁) hc₁ (hy.grow h₁ hr₁)
        fun hk => hknot (hk.calls (.right hg hv))
      exact hsecond.bind fun _ => (Halts.ofExcept _).bind fun _ => .pure _

theorem ternary_returns {z : Operand} (g : Ternary) (hx : Inside (Low L 0 m) x)
    (hy : Inside (Low L 0 m) y) (hz : Inside (Low L 0 m) z)
    (hknot : ¬ Knots policy (.ternary g x y z) m) :
    Halts (fun fuel => applyTernary policy fuel g x y z) m := by
  have hyz : ∀ n, (Suspension.apply y z).Occurs n → Low L 0 m n := by
    rintro n (hn | hn)
    · exact hy n hn
    · exact hz n hn
  obtain ⟨hl, hallow, L', hr, hd⟩ := hc.delay policy hyz
  have h' : Ahead policy (m.push (.apply y z)) := h.later hl hallow
  have hc' : Coded L' (m.push (.apply y z)) := hc.later hl hr
  have hx' := hx.grow hl hr
  refine .succ ?_
  cases g with
  | b => exact (apply_returns h' hc' hx' hd fun hk => hknot (hk.calls .compose)).congr fun _ => rfl
  | c =>
      have hfirst := apply_returns h hc hx hz fun hk => hknot (hk.calls .exchange)
      refine hfirst.grow hc (fun fuel => (confined policy fuel).apply hc.toOrderly hx hz)
        fun {L₁ m₁ w} hw h₁ ha₁ hc₁ hr₁ hin => ?_
      exact apply_returns (h.later h₁ ha₁) hc₁ hin.1 (hy.grow h₁ hr₁)
        fun hk => hknot (hk.calls (.exchanged hw))
  | s =>
      have hz' := hz.grow hl hr
      have hfirst := apply_returns h' hc' hx' hz' fun hk => hknot (hk.calls .share)
      have hboth := hfirst.grow (k := fun w fuel => apply policy fuel w (.delayed m.cells.size)) hc'
        (fun fuel => (confined policy fuel).apply hc'.toOrderly hx' hz')
        fun {L₁ m₁ w} hw h₁ ha₁ hc₁ hr₁ hin => apply_returns (h'.later h₁ ha₁) hc₁ hin.1
          (hd.grow h₁ hr₁) fun hk => hknot (hk.calls (.shared hw))
      exact hboth.congr fun _ => rfl

theorem evaluate_returns (c : Code) (hnames : ∀ x ∈ c.occurrences, Low L 0 m (.name x))
    (hknot : ¬ Knots policy (.evaluate c) m) :
    Halts (fun fuel => run policy fuel c >>= fun x => force policy fuel x) m := by
  have hrun := run_returns h hc c hnames fun hk => hknot (hk.calls .start)
  refine hrun.grow hc (fun fuel => (confined policy fuel).run c hc.toOrderly
    fun x hx => (hnames x hx).2) fun {L₁ m₁ x} hx h₁ ha₁ hc₁ _ hin => ?_
  exact force_returns (h.later h₁ ha₁) hc₁ hin.1 fun hk => hknot (hk.calls (.result hx))

end Ahead

/-- **With a limit, a call of code that comes to no knot returns.** -/
theorem Call.halts {k : Nat} (hlimit : policy.limit = some k) (hc : Coded L m)
    (hq : q.Within (Low L 0 m)) (hknot : ¬ Knots policy q m) : q.Halts policy m := by
  -- by induction on the steps that are left
  induction hleft : k + 1 - m.steps using Nat.strongRecOn generalizing q m L with
  | ind left ih =>
      have h : Ahead policy m := by
        intro q' m' L' hlt hallow hc' hq' hknot'
        have hle : m'.steps ≤ k := hallow k hlimit hlt
        exact ih (k + 1 - m'.steps) (by omega) hc' hq' hknot' rfl
      cases q with
      | apply f x => exact apply_returns h hc hq.1 hq.2 hknot
      | unary g x => exact unary_returns h hc g hq hknot
      | binary g x y => exact binary_returns h hc g hq.1 hq.2 hknot
      | ternary g x y z => exact ternary_returns h hc g hq.1 hq.2.1 hq.2.2 hknot
      | force x => exact force_returns h hc hq hknot
      | resume s => exact resume_returns h hc s hq hknot
      | run c => exact run_returns h hc c hq hknot
      | evaluate c => exact evaluate_returns h hc c hq hknot

/-- A call of code returns if and only if it comes to no knot. -/
theorem Call.halts_iff {k : Nat} (hlimit : policy.limit = some k) (hc : Coded L m)
    (hq : q.Within (Low L 0 m)) : q.Halts policy m ↔ ¬ Knots policy q m :=
  ⟨fun h hk => hk.not_halts h, Call.halts hlimit hc hq⟩

end Decombinator.Machine
