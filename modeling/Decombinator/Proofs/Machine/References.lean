/-
What memory refers to.

A value refers to addresses and, through code, to global names; an address refers to what its
cell refers to, and a name to what its value refers to.  `Mentions` is the graph of these
references.  A node is grounded if following references from it comes to an end: it does not lead
to anything that refers to itself, directly or through others.

That nodes stay grounded when outcomes are kept is not obvious.  They do because a computation only
gets hold of what it refers to and of what is new, so that its outcome does not refer to the
address where it is going to be kept.  Levels say this: a grading gives every node a level, and
nothing refers to a higher level.
-/
import Decombinator.Machine.Memory
import Mathlib.Logic.Relation

namespace Decombinator.Machine

/-! ### References -/

/-- What can be referred to. -/
inductive Node
  | addr (a : Nat)
  | name (x : String)

mutual

/-- A value refers to a node. -/
inductive OccursVal (n : Node) : Value → Prop
  | head {h t : Operand} (hh : Occurs n h) : OccursVal n (.cons h t)
  | tail {h t : Operand} (ht : Occurs n t) : OccursVal n (.cons h t)
  | binary1 {g : Binary} {x : Operand} (hx : Occurs n x) : OccursVal n (.binary1 g x)
  | ternary1 {g : Ternary} {x : Operand} (hx : Occurs n x) : OccursVal n (.ternary1 g x)
  | ternary2 {g : Ternary} {x y z : Operand} (hz : z = x ∨ z = y) (h : Occurs n z) :
      OccursVal n (.ternary2 g x y)
  | always {x : Operand} (hx : Occurs n x) : OccursVal n (.always x)
  | env {label : String} {env : Env} {p : String} {ps : List String} {b : Expr}
      {q : String × Operand} (hq : q ∈ env) (h : Occurs n q.2) :
      OccursVal n (.closure label env p ps b)
  /-- Expressions are not told apart by the names in them. -/
  | body {label : String} {env : Env} {p : String} {ps : List String} {b : Expr} {x : String}
      (hn : n = .name x) : OccursVal n (.closure label env p ps b)

inductive Occurs (n : Node) : Operand → Prop
  | ready {v : Value} (hv : OccursVal n v) : Occurs n (.ready v)
  | delayed {a : Nat} (hn : n = .addr a) : Occurs n (.delayed a)

end

def Suspension.Occurs (n : Node) : Suspension → Prop
  | code c => ∃ x ∈ c.occurrences, n = .name x
  | expr _ env => (∃ q ∈ env, Machine.Occurs n q.2) ∨ ∃ x, n = .name x
  | apply f x => Machine.Occurs n f ∨ Machine.Occurs n x

def Cell.Occurs (n : Node) : Cell → Prop
  | pending s => s.Occurs n
  | done x => Machine.Occurs n x
  | failed _ => False

/-- One node of memory refers to another. -/
def Mentions (m : Memory) : Node → Node → Prop
  | .addr a, n => ∃ c, m.cells[a]? = some c ∧ c.Occurs n
  | .name x, n => ∃ v, m.globals.lookup x = some v ∧ Occurs n v

/-! ### References inside a set -/

variable {P Q : Node → Prop}

def InsideVal (P : Node → Prop) (v : Value) : Prop :=
  ∀ n, OccursVal n v → P n

/-- An operand refers to nothing outside of `P`. -/
def Inside (P : Node → Prop) (x : Operand) : Prop :=
  ∀ n, Occurs n x → P n

def InsideEnv (P : Node → Prop) (env : Env) : Prop :=
  ∀ q ∈ env, Inside P q.2

section Inside

variable {v : Value} {x y : Operand} {a : Nat}

theorem Inside.mono (hx : Inside P x) (h : ∀ n, P n → Q n) : Inside Q x :=
  fun n hn => h n (hx n hn)

theorem InsideVal.mono (hv : InsideVal P v) (h : ∀ n, P n → Q n) : InsideVal Q v :=
  fun n hn => h n (hv n hn)

@[simp] theorem inside_ready : Inside P (.ready v) ↔ InsideVal P v := by
  constructor
  · intro h n hn
    exact h n (.ready hn)
  · intro h n hn
    cases hn with
    | ready hv => exact h n hv

@[simp] theorem inside_delayed : Inside P (.delayed a) ↔ P (.addr a) := by
  constructor
  · intro h
    exact h _ (.delayed rfl)
  · intro h n hn
    cases hn with
    | delayed hn => exact hn ▸ h

@[simp] theorem insideVal_cons : InsideVal P (.cons x y) ↔ Inside P x ∧ Inside P y := by
  constructor
  · intro h
    exact ⟨fun n hn => h n (.head hn), fun n hn => h n (.tail hn)⟩
  · intro h n hn
    cases hn with
    | head hx => exact h.1 n hx
    | tail hy => exact h.2 n hy

@[simp] theorem insideVal_binary1 {g : Binary} : InsideVal P (.binary1 g x) ↔ Inside P x := by
  constructor
  · intro h n hn
    exact h n (.binary1 hn)
  · intro h n hn
    cases hn with
    | binary1 hx => exact h n hx

@[simp] theorem insideVal_ternary1 {g : Ternary} : InsideVal P (.ternary1 g x) ↔ Inside P x := by
  constructor
  · intro h n hn
    exact h n (.ternary1 hn)
  · intro h n hn
    cases hn with
    | ternary1 hx => exact h n hx

@[simp] theorem insideVal_ternary2 {g : Ternary} :
    InsideVal P (.ternary2 g x y) ↔ Inside P x ∧ Inside P y := by
  constructor
  · intro h
    exact ⟨fun n hn => h n (.ternary2 (Or.inl rfl) hn), fun n hn => h n (.ternary2 (Or.inr rfl) hn)⟩
  · intro h n hn
    cases hn with
    | ternary2 hz hn =>
        rcases hz with rfl | rfl
        · exact h.1 n hn
        · exact h.2 n hn

@[simp] theorem insideVal_always : InsideVal P (.always x) ↔ Inside P x := by
  constructor
  · intro h n hn
    exact h n (.always hn)
  · intro h n hn
    cases hn with
    | always hx => exact h n hx

@[simp] theorem insideVal_closure {label p : String} {env : Env} {ps : List String} {b : Expr} :
    InsideVal P (.closure label env p ps b) ↔ InsideEnv P env ∧ ∀ x, P (.name x) := by
  constructor
  · intro h
    exact ⟨fun q hq n hn => h n (.env hq hn), fun x => h _ (.body rfl)⟩
  · intro h n hn
    cases hn with
    | env hq hn => exact h.1 _ hq n hn
    | body hn => exact hn ▸ h.2 _

/-- Integers, booleans, nil and probes refer to nothing, nor do functions without arguments. -/
theorem insideVal_int {n : Int64} : InsideVal P (.int n) := by
  intro n h
  cases h

theorem insideVal_bool {b : Bool} : InsideVal P (.bool b) := by
  intro n h
  cases h

theorem insideVal_nil : InsideVal P .nil := by
  intro n h
  cases h

theorem insideVal_unary {g : Unary} : InsideVal P (.unary g) := by
  intro n h
  cases h

theorem insideVal_second : InsideVal P .second := by
  intro n h
  cases h

theorem insideVal_probe {first : Bool} : InsideVal P (.probe first) := by
  intro n h
  cases h

theorem insideVal_ofPrim (p : Prim) : InsideVal P (.ofPrim p) := by
  intro n h
  cases p <;> cases h

theorem InsideEnv.mono {env : Env} (henv : InsideEnv P env) (h : ∀ n, P n → Q n) :
    InsideEnv Q env :=
  fun q hq => (henv q hq).mono h

theorem InsideEnv.cons {env : Env} (p : String) (hx : Inside P x) (henv : InsideEnv P env) :
    InsideEnv P ((p, x) :: env) := by
  intro q hq
  rcases List.mem_cons.mp hq with rfl | hq
  · exact hx
  · exact henv q hq

theorem Env.mem_of_lookup {env : Env} {p : String} (h : env.lookup p = some x) : (p, x) ∈ env := by
  obtain ⟨before, after, rfl, -⟩ := List.lookup_eq_some_iff.mp h
  exact List.mem_append_right before List.mem_cons_self

theorem InsideEnv.lookup {env : Env} (henv : InsideEnv P env) {p : String}
    (h : env.lookup p = some x) : Inside P x :=
  henv (p, x) (Env.mem_of_lookup h)

/-- What an operator computes is an integer or a boolean. -/
theorem insideVal_arith {op : BinOp} {v w u : Value} (h : arith op v w = .ok u) :
    InsideVal P u := by
  have hcompute : ∀ a b : Int64, compute op a b = .ok u → InsideVal P u := by
    intro a b h
    have hint : ∀ {n}, Except.ok (ε := Fault) (Value.int n) = .ok u → InsideVal P u := by
      rintro n h
      cases h
      exact insideVal_int
    have hbool : ∀ {t}, Except.ok (ε := Fault) (Value.bool t) = .ok u → InsideVal P u := by
      rintro t h
      cases h
      exact insideVal_bool
    cases op with
    | add => exact hint h
    | sub => exact hint h
    | mul => exact hint h
    | div =>
        rw [compute] at h
        split at h
        · cases h
        · exact hint h
    | mod =>
        rw [compute] at h
        split at h
        · cases h
        · exact hint h
    | eq => exact hbool h
    | lt => exact hbool h
    | and => cases h
    | or => cases h
  rw [arith.eq_def] at h
  split at h
  · exact hcompute _ _ h
  · cases h

theorem insideVal_testNil {v u : Value} (h : testNil v = .ok u) : InsideVal P u := by
  rw [testNil.eq_def] at h
  split at h <;> cases h <;> exact insideVal_bool

theorem insideVal_negate {v u : Value} (h : negate v = .ok u) : InsideVal P u := by
  rw [negate.eq_def] at h
  split at h <;> cases h
  exact insideVal_int

end Inside

/-! ### Sane memories -/

/-- A name exists even if it is not defined. -/
def Node.Exists (m : Memory) : Node → Prop
  | addr a => a < m.cells.size
  | name _ => True

structure Sane (m : Memory) : Prop where
  bounded : ∀ {n n'}, Mentions m n n' → n'.Exists m
  /-- Names stand for values. -/
  ready : ∀ {x v}, m.globals.lookup x = some v → ∃ u, v = .ready u

/-- Nothing refers to a higher level. -/
def Graded (L : Node → Nat) (m : Memory) : Prop :=
  ∀ ⦃n n'⦄, Mentions m n n' → L n' ≤ L n

structure Orderly (L : Node → Nat) (m : Memory) : Prop where
  sane : Sane m
  graded : Graded L m

/-- The nodes up to a level. -/
def Low (L : Node → Nat) (l : Nat) (m : Memory) (n : Node) : Prop :=
  n.Exists m ∧ L n ≤ l

variable {L L' : Node → Nat} {l : Nat} {m m' : Memory} {n n₀ : Node}

/-- Following references from a node comes to an end. -/
def Grounded (m : Memory) (n : Node) : Prop :=
  Acc (fun n' n => Mentions m n n') n

/-- So it does up to a level. -/
def Solid (L : Node → Nat) (l : Nat) (m : Memory) : Prop :=
  ∀ n, L n ≤ l → Grounded m n

/-- Where less is referred to, following references ends all the more. -/
theorem Grounded.mono (hn : Grounded m n) (h : ∀ {n n'}, Mentions m' n n' → Mentions m n n') :
    Grounded m' n :=
  Subrelation.accessible h hn

theorem Grounded.of_not_exists (h : ¬ n.Exists m) : Grounded m n := by
  cases n with
  | name x => exact absurd trivial h
  | addr a =>
      refine .intro _ fun n' hn' => ?_
      obtain ⟨c, hc, -⟩ := hn'
      exact absurd (Array.getElem?_eq_some_iff.mp hc).1 h

/-! ### Changing what one node refers to -/

/-- `m'` is `m`, except that a node refers to other things. -/
def Updates (m m' : Memory) (n₀ : Node) (T : Node → Prop) : Prop :=
  ∀ ⦃n n'⦄, Mentions m' n n' → (n = n₀ ∧ T n') ∨ (n ≠ n₀ ∧ Mentions m n n')

namespace Updates

variable {T : Node → Prop} (u : Updates m m' n₀ T)

include u

theorem old {n' : Node} (hne : n ≠ n₀) (h : Mentions m' n n') : Mentions m n n' := by
  rcases u h with ⟨he, -⟩ | ⟨-, hn⟩
  · exact absurd he hne
  · exact hn

theorem new (h : Mentions m' n₀ n) : T n := by
  rcases u h with ⟨-, hn⟩ | ⟨hne, -⟩
  · exact hn
  · exact absurd rfl hne

/-- Nothing changes for a node from which the changed one cannot be reached. -/
theorem apart (S : Node → Prop) (hclosed : ∀ {n n'}, S n → Mentions m n n' → S n') (hn₀ : ¬ S n₀)
    (hn : Grounded m n) (hS : S n) : Grounded m' n := by
  induction hn with
  | intro n _ ih =>
      refine .intro n fun n' hn' => ?_
      have hold : Mentions m n n' := u.old (fun he => hn₀ (he ▸ hS)) hn'
      exact ih n' hold (hclosed hS hold)

theorem graded (hg : Graded L m) (hT : ∀ n, T n → L n ≤ L n₀) : Graded L m' := by
  intro n n' h
  rcases u h with ⟨rfl, hn⟩ | ⟨-, hn⟩
  · exact hT n' hn
  · exact hg hn

/-- Below the level of the node nothing changes. -/
theorem solid (hg : Graded L m) (hl : l < L n₀) (hsolid : Solid L l m) : Solid L l m' :=
  fun n hn => u.apart (fun n => L n ≤ l) (fun hn h => Nat.le_trans (hg h) hn) (Nat.not_le.mpr hl)
    (hsolid n hn) hn

/-- If what the node refers to is below it, all that was grounded is. -/
theorem grounded (hg : Graded L m) (hl : l < L n₀) (hsolid : Solid L l m)
    (hT : ∀ n, T n → L n ≤ l) (hn : Grounded m n) : Grounded m' n := by
  induction hn with
  | intro n _ ih =>
      refine .intro n fun n' hn' => ?_
      by_cases he : n = n₀
      · subst he
        exact u.solid hg hl hsolid n' (hT n' (u.new hn'))
      · exact ih n' (u.old he hn')

end Updates

/-! ### Levels of cells and names -/

/-- What a cell refers to is not above its address. -/
theorem Orderly.cell (ho : Orderly L m) {a : Nat} {c : Cell} (ha : m.cells[a]? = some c) (n : Node)
    (hn : c.Occurs n) : Low L (L (.addr a)) m n :=
  have hmentions : Mentions m (.addr a) n := ⟨c, ha, hn⟩
  ⟨ho.sane.bounded hmentions, ho.graded hmentions⟩

theorem Orderly.global (ho : Orderly L m) {x : String} {v : Operand}
    (hx : m.globals.lookup x = some v) : Inside (Low L (L (.name x)) m) v := fun n hn =>
  have hmentions : Mentions m (.name x) n := ⟨v, hx, hn⟩
  ⟨ho.sane.bounded hmentions, ho.graded hmentions⟩

/-- Steps do not matter. -/
theorem Sane.withSteps (hs : Sane m) (n : Nat) : Sane { m with steps := n } :=
  ⟨hs.bounded, hs.ready⟩

/-! ### Suspending a computation -/

section Delay

/-- Memory after a computation is suspended. -/
def Memory.push (m : Memory) (s : Suspension) : Memory :=
  { m with cells := m.cells.push (.pending s) }

variable {s : Suspension}

theorem updates_push : Updates m (m.push s) (.addr m.cells.size) s.Occurs := by
  intro n n' h
  cases n with
  | name x => exact Or.inr ⟨by simp, h⟩
  | addr a =>
      obtain ⟨c, hc, hn⟩ := h
      have hc : (m.cells.push (.pending s))[a]? = some c := hc
      rw [Array.getElem?_push] at hc
      by_cases ha : a = m.cells.size
      · rw [if_pos ha] at hc
        obtain rfl := Option.some.inj hc
        exact Or.inl ⟨by rw [ha], hn⟩
      · rw [if_neg ha] at hc
        exact Or.inr ⟨by simp [ha], c, hc, hn⟩

theorem Node.Exists.push {n : Node} (h : n.Exists m) : n.Exists (m.push s) := by
  cases n with
  | name x => trivial
  | addr a =>
      have h : a < m.cells.size := h
      show a < (m.cells.push (.pending s)).size
      rw [Array.size_push]
      omega

theorem Node.exists_push (h : n.Exists (m.push s)) : n.Exists m ∨ n = .addr m.cells.size := by
  cases n with
  | name x => exact Or.inl trivial
  | addr a =>
      have h : a < (m.cells.push (.pending s)).size := h
      rw [Array.size_push] at h
      by_cases ha : a = m.cells.size
      · exact Or.inr (by rw [ha])
      · exact Or.inl (show a < m.cells.size by omega)

theorem Sane.push (hs : Sane m) (hsus : ∀ n, s.Occurs n → n.Exists m) : Sane (m.push s) where
  bounded h := by
    rcases updates_push h with ⟨-, hn⟩ | ⟨-, hn⟩
    · exact (hsus _ hn).push
    · exact (hs.bounded hn).push
  ready := hs.ready

theorem Grounded.push (hs : Sane m) (hn : Grounded m n) (hexists : n.Exists m) :
    Grounded (m.push s) n :=
  updates_push.apart (Node.Exists m) (fun _ => hs.bounded) (Nat.lt_irrefl _) hn hexists

/-- A suspended computation is grounded if what it refers to is. -/
theorem grounded_new (hs : Sane m) (hsus : ∀ n, s.Occurs n → n.Exists m ∧ Grounded m n) :
    Grounded (m.push s) (.addr m.cells.size) := by
  refine .intro _ fun n hn => ?_
  obtain ⟨hexists, hground⟩ := hsus n (updates_push.new hn)
  exact hground.push hs hexists

open Classical in
/-- The new address may have any level that is not below what it refers to. -/
theorem Orderly.push (ho : Orderly L m) (hsus : ∀ n, s.Occurs n → Low L l m n) :
    ∃ L', (∀ n, n.Exists m → L' n = L n) ∧ L' (.addr m.cells.size) = l ∧ Graded L' (m.push s) ∧
      ∀ b, Solid L b m → Solid L' b (m.push s) := by
  have hold : ∀ n : Node, n.Exists m → n ≠ .addr m.cells.size := by
    rintro n hn rfl
    exact Nat.lt_irrefl _ hn
  refine ⟨fun n => if n = .addr m.cells.size then l else L n, fun n hn => if_neg (hold n hn),
    if_pos rfl, fun n n' h => ?_, fun b hb n hn => ?_⟩
  · show (if n' = .addr m.cells.size then l else L n') ≤ if n = .addr m.cells.size then l else L n
    rcases updates_push h with ⟨rfl, hn⟩ | ⟨hne, hn⟩
    · obtain ⟨hexists, hle⟩ := hsus n' hn
      rw [if_neg (hold n' hexists), if_pos rfl]
      exact hle
    · rw [if_neg (hold n' (ho.sane.bounded hn)), if_neg hne]
      exact ho.graded hn
  · have hn : (if n = .addr m.cells.size then l else L n) ≤ b := hn
    by_cases hnew : n = .addr m.cells.size
    · rw [if_pos hnew] at hn
      rw [hnew]
      refine grounded_new ho.sane fun n' hn' => ⟨(hsus n' hn').1, ?_⟩
      exact hb n' (Nat.le_trans (hsus n' hn').2 hn)
    · rw [if_neg hnew] at hn
      have hground : Grounded m n := hb n hn
      by_cases hexists : n.Exists m
      · exact hground.push ho.sane hexists
      · refine .of_not_exists fun h => ?_
        rcases Node.exists_push h with h | h
        · exact hexists h
        · exact hnew h

end Delay

/-! ### Keeping an outcome -/

section Store

/-- Memory after a cell is replaced. -/
def Memory.put (m : Memory) (a : Nat) (c : Cell) : Memory :=
  { m with cells := m.cells.setIfInBounds a c }

variable {a : Nat} {c : Cell}

theorem updates_put : Updates m (m.put a c) (.addr a) c.Occurs := by
  intro n n' h
  cases n with
  | name x => exact Or.inr ⟨by simp, h⟩
  | addr b =>
      obtain ⟨c', hc, hn⟩ := h
      have hc : (m.cells.setIfInBounds a c)[b]? = some c' := hc
      by_cases hb : a = b
      · subst hb
        rw [Array.getElem?_setIfInBounds_self] at hc
        split at hc
        · obtain rfl := Option.some.inj hc
          exact Or.inl ⟨rfl, hn⟩
        · cases hc
      · rw [Array.getElem?_setIfInBounds_ne hb] at hc
        refine Or.inr ⟨fun he => hb (Node.addr.inj he).symm, c', hc, hn⟩

theorem Node.exists_put {n : Node} : n.Exists (m.put a c) ↔ n.Exists m := by
  cases n with
  | name x => exact Iff.rfl
  | addr b =>
      show b < (m.cells.setIfInBounds a c).size ↔ _
      rw [Array.size_setIfInBounds]
      exact Iff.rfl

theorem Sane.put (hs : Sane m) (hc : ∀ n, c.Occurs n → n.Exists m) : Sane (m.put a c) where
  bounded h := by
    rcases updates_put h with ⟨-, hn⟩ | ⟨-, hn⟩
    · exact Node.exists_put.mpr (hc _ hn)
    · exact Node.exists_put.mpr (hs.bounded hn)
  ready := hs.ready

open Classical in
/-- A suspended computation does not reach its own address: there is a grading that tells them
apart. -/
theorem Sane.apart {s : Suspension} (hs : Sane m) (ha : m.cells[a]? = some (.pending s))
    (hground : Grounded m (.addr a)) :
    ∃ L, Graded L m ∧ Solid L 0 m ∧ L (.addr a) = 1 ∧ ∀ n, s.Occurs n → Low L 0 m n := by
  let Reached (n : Node) : Prop := ∃ n₀, s.Occurs n₀ ∧ Relation.ReflTransGen (Mentions m) n₀ n
  have hnot : ¬ Reached (.addr a) := by
    rintro ⟨n₀, hn₀, hpath⟩
    have hcycle : Relation.TransGen (Mentions m) (.addr a) (.addr a) := .head' ⟨_, ha, hn₀⟩ hpath
    have hacc := hground.transGen
    generalize Node.addr a = n at hcycle hacc
    induction hacc with
    | intro n _ ih => exact ih n (Relation.transGen_swap.mpr hcycle) hcycle
  have hreached : ∀ {n}, Reached n → Grounded m n := by
    rintro n ⟨n₀, hn₀, hpath⟩
    induction hpath with
    | refl => exact hground.inv ⟨_, ha, hn₀⟩
    | tail _ h ih => exact ih.inv h
  refine ⟨fun n => if Reached n then 0 else 1, fun n n' h => ?_, fun n hn => ?_, if_neg hnot,
    fun n hn => ?_⟩
  · show (if Reached n' then 0 else 1) ≤ if Reached n then 0 else 1
    by_cases hn : Reached n
    · obtain ⟨n₀, hn₀, hpath⟩ := hn
      rw [if_pos ⟨n₀, hn₀, hpath.tail h⟩]
      exact Nat.zero_le _
    · rw [if_neg hn]
      split <;> omega
  · have hn : (if Reached n then 0 else 1) ≤ 0 := hn
    by_cases h : Reached n
    · exact hreached h
    · rw [if_neg h] at hn
      omega
  · have hmentions : Mentions m (.addr a) n := ⟨_, ha, hn⟩
    exact ⟨hs.bounded hmentions, Nat.le_of_eq (if_pos ⟨n, hn, .refl⟩)⟩

end Store

end Decombinator.Machine
