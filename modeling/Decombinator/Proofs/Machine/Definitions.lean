/-
Evaluating one definition after another.

A session evaluates its definitions in turn on one machine, and defines each result that is no
failure.  Names are looked up when they are needed, so a definition may use names that come later,
or its own.  With a limit on steps one would think that every evaluation returns.  It does not:
`x` defined as `t (x 1)` is a function that returns a suspended computation, which is `x 1`; its
outcome is the computation itself, and once that is kept, forcing it never ends, without taking a
step.

Such knots are all that can go wrong: an evaluation returns if and only if it comes to none.  And it
takes a name that depends on itself.  If none of the names that the code uses leads to such a name,
by way of the definitions made so far, then they are grounded in memory, and the evaluation
returns.  Many evaluations return that use such names, like those of a list that is its own tail, or
of a function that calls itself.
-/
import Decombinator.Code
import Decombinator.Proofs.Fresh
import Decombinator.Proofs.Machine.Knots

namespace Decombinator.Machine

open Relation

variable {policy : Policy} {defs all : List (String × Code)} {m m' : Memory} {x y : String}
  {c : Code} {v : Value} {k top : Nat} {rank : String → Nat}

/-! ### Sessions -/

/-- The evaluation comes to a value or a failure. -/
def Returns {α : Type} (p : Nat → Effect α) (m : Memory) : Prop :=
  (∃ a m', Converges p m (.value a m')) ∨ ∃ f m', Converges p m (.fault f m')

theorem Halts.returns {α : Type} {p : Nat → Effect α} (h : Halts p m) : Returns p m := by
  obtain ⟨o, ho⟩ := h
  cases o with
  | value a m' => exact Or.inl ⟨a, m', ho⟩
  | fault f m' => exact Or.inr ⟨f, m', ho⟩
  | outOfFuel => exact absurd rfl ho.1

theorem Returns.halts {α : Type} {p : Nat → Effect α} (h : Returns p m) : Halts p m := by
  rcases h with ⟨a, m', h⟩ | ⟨f, m', h⟩
  · exact ⟨_, h⟩
  · exact ⟨_, h⟩

/-- The memory of a machine on which code was evaluated in turn, with the definitions that were
made, the last one first. -/
inductive Entered (policy : Policy) : List (String × Code) → Memory → Prop
  | start : Entered policy [] {}
  | defined {defs : List (String × Code)} {m m' : Memory} {c : Code} {v : Value} (x : String)
      (h : Entered policy defs m)
      (hc : Converges (fun fuel => evalCode policy fuel c) m (.value v m')) :
      Entered policy ((x, c) :: defs) (m'.define x (.ready v))
  | failed {defs : List (String × Code)} {m m' : Memory} {c : Code} {f : Fault}
      (h : Entered policy defs m)
      (hc : Converges (fun fuel => evalCode policy fuel c) m (.fault f m')) :
      Entered policy defs m'

/-- One name is defined by means of another. -/
def Uses (defs : List (String × Code)) (x y : String) : Prop :=
  ∃ c, (x, c) ∈ defs ∧ y ∈ c.symbols

/-- A name that depends on itself, or on one that does. -/
def Circular (defs : List (String × Code)) (x : String) : Prop :=
  ∃ y, ReflTransGen (Uses defs) x y ∧ TransGen (Uses defs) y y

theorem Circular.uses (h : Circular defs x) : ∃ y, Uses defs x y := by
  obtain ⟨y, hpath, hcycle⟩ := h
  rcases hpath.cases_head with rfl | ⟨z, hz, -⟩
  · obtain ⟨z, hz, -⟩ := TransGen.head'_iff.mp hcycle
    exact ⟨z, hz⟩
  · exact ⟨z, hz⟩

/-! ### Ranks

The rank of a name is the number of names it depends on.  Definitions go down in rank, except
for circular names, which are above all others. -/

/-- Ranks that go down along definitions, up to `top`. -/
structure Ranks (rank : String → Nat) (top : Nat) (defs : List (String × Code)) : Prop where
  le : ∀ x, rank x ≤ top + 1
  lt : ∀ {x y}, Uses defs x y → rank x ≤ top → rank y < rank x

/-- All names that definitions use. -/
def used (defs : List (String × Code)) : Finset String :=
  (defs.flatMap fun d => d.2.symbols).toFinset

theorem mem_used (h : Uses defs x y) : y ∈ used defs := by
  obtain ⟨c, hc, hy⟩ := h
  exact List.mem_toFinset.mpr (List.mem_flatMap.mpr ⟨(x, c), hc, hy⟩)

section Rank

open Classical

/-- The names that a name depends on. -/
noncomputable def dependencies (defs : List (String × Code)) (x : String) : Finset String :=
  (used defs).filter fun y => TransGen (Uses defs) x y

theorem mem_dependencies : y ∈ dependencies defs x ↔ TransGen (Uses defs) x y := by
  refine ⟨fun h => (Finset.mem_filter.mp h).2, fun h => Finset.mem_filter.mpr ⟨?_, h⟩⟩
  obtain ⟨z, -, hz⟩ := TransGen.tail'_iff.mp h
  exact mem_used hz

/-- What is used depends on less, unless it depends on itself. -/
theorem card_dependencies_lt (h : Uses defs x y) (hy : ¬ Circular defs y) :
    (dependencies defs y).card < (dependencies defs x).card := by
  refine Finset.card_lt_card (Finset.ssubset_iff_subset_ne.mpr ⟨fun z hz => ?_, fun heq => ?_⟩)
  · exact mem_dependencies.mpr (.head h (mem_dependencies.mp hz))
  · have hself : y ∈ dependencies defs y := heq ▸ mem_dependencies.mpr (.single h)
    exact hy ⟨y, .refl, mem_dependencies.mp hself⟩

/-- There are such ranks, with all names in range that are not circular. -/
theorem exists_ranks (defs : List (String × Code)) :
    ∃ rank top, Ranks rank top defs ∧ ∀ x, ¬ Circular defs x → rank x ≤ top := by
  let rank (x : String) : Nat :=
    if Circular defs x then (used defs).card + 1 else (dependencies defs x).card
  have hcard : ∀ x, (dependencies defs x).card ≤ (used defs).card := fun x =>
    Finset.card_le_card (Finset.filter_subset _ _)
  have hrank : ∀ {x}, ¬ Circular defs x → rank x = (dependencies defs x).card := fun h => if_neg h
  have htop : ∀ {x}, Circular defs x → rank x = (used defs).card + 1 := fun h => if_pos h
  refine ⟨rank, (used defs).card, ⟨fun x => ?_, fun {x y} h hle => ?_⟩, fun x hx => ?_⟩
  · by_cases hx : Circular defs x
    · exact Nat.le_of_eq (htop hx)
    · rw [hrank hx]
      exact Nat.le_succ_of_le (hcard x)
  · have hx : ¬ Circular defs x := fun hx => by
      rw [htop hx] at hle
      omega
    have hy : ¬ Circular defs y := fun ⟨z, hpath, hcycle⟩ => hx ⟨z, .head h hpath, hcycle⟩
    rw [hrank hx, hrank hy]
    exact card_dependencies_lt h hy
  · rw [hrank hx]
    exact hcard x

end Rank

/-! ### Names and their values -/

theorem updates_define (m : Memory) (x : String) (z : Operand) :
    Updates m (m.define x z) (.name x) (Occurs · z) := by
  intro n n' h
  cases n with
  | addr a => exact Or.inr ⟨by simp, h⟩
  | name y =>
      obtain ⟨w, hw, hn⟩ := h
      have hw : List.lookup y ((x, z) :: m.globals) = some w := hw
      rw [List.lookup_cons] at hw
      cases hyx : y == x with
      | true =>
          rw [hyx] at hw
          obtain rfl := Option.some.inj hw
          exact Or.inl ⟨by rw [eq_of_beq hyx], hn⟩
      | false =>
          rw [hyx] at hw
          exact Or.inr ⟨fun he => by simp [Node.name.inj he] at hyx, w, hw, hn⟩

theorem Sane.define (hs : Sane m) (x : String) (hv : InsideVal (Node.Exists m) v) :
    Sane (m.define x (.ready v)) where
  bounded {n n'} h := by
    have hexists : n'.Exists m := by
      rcases updates_define m x (.ready v) h with ⟨-, hn⟩ | ⟨-, hn⟩
      · exact inside_ready.mpr hv n' hn
      · exact hs.bounded hn
    exact hexists
  ready {y w} h := by
    have h : List.lookup y ((x, .ready v) :: m.globals) = some w := h
    rw [List.lookup_cons] at h
    cases hyx : y == x with
    | true =>
        rw [hyx] at h
        exact ⟨v, (Option.some.inj h).symm⟩
    | false =>
        rw [hyx] at h
        exact hs.ready h

/-! ### What a session preserves -/

/-- Memory has levels by which names are above their rank, and up to `top` everything is
grounded. -/
def Ranked (rank : String → Nat) (top : Nat) (m : Memory) : Prop :=
  ∃ L, Orderly L m ∧ (∀ x, L (.name x) = rank x + 1) ∧ Solid L (top + 1) m

theorem evalCode_grows {L : Node → Nat} {l : Nat} (ho : Orderly L m)
    (hc : ∀ x ∈ c.symbols, L (.name x) ≤ l) (fuel : Nat) :
    Grows policy L { m with steps := 0 } (fun L' m' v => InsideVal (Low L' l m') v)
      (evalCode policy fuel c m) := by
  have ho : Orderly L { m with steps := 0 } := ⟨ho.sane.withSteps 0, ho.graded⟩
  have hc : ∀ x ∈ c.occurrences, L (.name x) ≤ l := fun x hx => hc x (List.mem_eraseDups.mpr hx)
  exact ((confined policy fuel).run c ho hc).bind fun h₁ hr₁ hy =>
    (confined policy fuel).force (h₁.orderly hr₁) hy.1

theorem depth_le_one (m : Memory) (n : Node) : depth m n ≤ 1 := by
  rw [depth]
  split <;> omega

theorem not_mentions_empty (n n' : Node) : ¬ Mentions {} n n' := by
  intro h
  cases n <;> simp [Mentions] at h

theorem sane_empty : Sane {} :=
  ⟨fun h => (not_mentions_empty _ _ h).elim, by simp⟩

/-- Evaluating definitions leaves no address that does not exist. -/
theorem Entered.sane (h : Entered policy defs m) : Sane m := by
  induction h with
  | start => exact sane_empty
  | @defined _ m _ _ _ x _ hc ih =>
      obtain ⟨hl, -, L, -, hv⟩ :=
        hc.of_forall (evalCode_grows ih.orderly fun y _ => depth_le_one m (.name y))
      exact hl.sane.define x (hv.mono fun _ hn => hn.1)
  | @failed _ m _ _ _ _ hc ih =>
      exact (hc.of_forall (evalCode_grows ih.orderly fun y _ => depth_le_one m (.name y))).1.sane

theorem Ranks.name_le (hranks : Ranks rank top defs) {L : Node → Nat}
    (hnames : ∀ x, L (.name x) = rank x + 1) (x : String) : L (.name x) ≤ top + 2 := by
  rw [hnames x]
  exact Nat.succ_le_succ (hranks.le x)

theorem Regrades.names {L L' : Node → Nat} (hr : Regrades L L' m m')
    (hnames : ∀ x, L (.name x) = rank x + 1) (x : String) : L' (.name x) = rank x + 1 := by
  rw [hr.agree (.name x) trivial]
  exact hnames x

theorem Ranked.failed {f : Fault} (h : Ranked rank top m) (hranks : Ranks rank top defs)
    (hc : Converges (fun fuel => evalCode policy fuel c) m (.fault f m')) : Ranked rank top m' := by
  obtain ⟨L, ho, hnames, hsolid⟩ := h
  obtain ⟨hl, L', hr⟩ := hc.of_forall (evalCode_grows ho fun x _ => hranks.name_le hnames x)
  exact ⟨L', hl.orderly hr, hr.names hnames, hr.solid _ hsolid⟩

/-- A result is defined at a level above all that it refers to.  If the name is circular this is
not so, but its level is too high to matter. -/
theorem Ranked.defined (h : Ranked rank top m) (hranks : Ranks rank top defs)
    (hx : (x, c) ∈ defs) (hc : Converges (fun fuel => evalCode policy fuel c) m (.value v m')) :
    Ranked rank top (m'.define x (.ready v)) := by
  obtain ⟨L, ho, hnames, hsolid⟩ := h
  have u := updates_define m' x (.ready v)
  by_cases hle : rank x ≤ top
  · have hlevel : ∀ y ∈ c.symbols, L (.name y) ≤ rank x := by
      intro y hy
      rw [hnames y]
      exact hranks.lt ⟨c, hx, hy⟩ hle
    obtain ⟨hl, -, L', hr, hv⟩ := hc.of_forall (evalCode_grows ho hlevel)
    have habove : rank x < L' (.name x) := by
      rw [hr.names hnames x]
      exact Nat.lt_succ_self _
    have hbelow : ∀ n, Occurs n (.ready v) → L' n ≤ rank x :=
      fun n hn => (inside_ready.mpr hv n hn).2
    have hsolid := hr.solid _ hsolid
    refine ⟨L', ⟨hl.sane.define x (hv.mono fun _ hn => hn.1), ?_⟩, hr.names hnames, fun n hn => ?_⟩
    · exact u.graded hr.graded fun n hn => Nat.le_trans (hbelow n hn) (Nat.le_of_lt habove)
    · exact u.grounded hr.graded habove (fun n hn => hsolid n (by omega)) hbelow (hsolid n hn)
  · obtain ⟨hl, -, L', hr, hv⟩ :=
      hc.of_forall (evalCode_grows ho fun x _ => hranks.name_le hnames x)
    have habove : top + 2 ≤ L' (.name x) := by
      rw [hr.names hnames x]
      omega
    refine ⟨L', ⟨hl.sane.define x (hv.mono fun _ hn => hn.1), ?_⟩, hr.names hnames, ?_⟩
    · refine u.graded hr.graded fun n hn => Nat.le_trans ?_ habove
      exact (inside_ready.mpr hv n hn).2
    · exact u.solid hr.graded habove (hr.solid _ hsolid)

def nameLevel (rank : String → Nat) : Node → Nat
  | .addr _ => 0
  | .name x => rank x + 1

theorem ranked_start (rank : String → Nat) (top : Nat) : Ranked rank top {} := by
  have hgraded : Graded (nameLevel rank) {} := fun n n' h => (not_mentions_empty n n' h).elim
  refine ⟨nameLevel rank, ⟨sane_empty, hgraded⟩, fun _ => rfl, fun n _ => ?_⟩
  exact .intro n fun n' h => (not_mentions_empty n n' h).elim

/-- The ranks may be those of all definitions that are ever made. -/
theorem Entered.ranked (h : Entered policy defs m) (hranks : Ranks rank top all)
    (hdefs : ∀ d ∈ defs, d ∈ all) : Ranked rank top m := by
  induction h with
  | start => exact ranked_start rank top
  | defined x h hc ih =>
      refine (ih fun d hd => hdefs d (List.mem_cons_of_mem _ hd)).defined hranks ?_ hc
      exact hdefs _ List.mem_cons_self
  | failed h hc ih => exact (ih hdefs).failed hranks hc

/-! ### Names that no definition uses -/

/-- One name is at level one, the others are at level zero. -/
def Marks (L : Node → Nat) (x : String) : Prop :=
  ∀ y, L (.name y) = if y = x then 1 else 0

theorem Marks.le_one {L : Node → Nat} (h : Marks L x) (y : String) : L (.name y) ≤ 1 := by
  rw [h y]
  split <;> omega

theorem Marks.eq_zero {L : Node → Nat} (h : Marks L x) (hy : y ≠ x) : L (.name y) = 0 := by
  rw [h y, if_neg hy]

theorem Regrades.marks {L L' : Node → Nat} (hr : Regrades L L' m m') (h : Marks L x) :
    Marks L' x := by
  intro y
  rw [hr.agree (.name y) trivial]
  exact h y

def markLevel (x : String) : Node → Nat
  | .addr _ => 0
  | .name y => if y = x then 1 else 0

/-- A name that no definition uses can be above everything that a session deals with. -/
theorem Entered.marks (h : Entered policy defs m) (hx : x ∉ used defs) :
    ∃ L, Orderly L m ∧ Marks L x := by
  induction h with
  | start =>
      have hgraded : Graded (markLevel x) {} := fun n n' h => (not_mentions_empty n n' h).elim
      exact ⟨markLevel x, ⟨sane_empty, hgraded⟩, fun _ => rfl⟩
  | @defined defs m m' c v z _ hc ih =>
      have hdefs : x ∉ used defs ∧ x ∉ c.symbols := by
        simpa [used, not_or, and_comm] using hx
      obtain ⟨L, ho, hmarks⟩ := ih hdefs.1
      have hsymbols : ∀ y ∈ c.symbols, L (.name y) ≤ 0 := fun y hy =>
        Nat.le_of_eq (hmarks.eq_zero fun he => hdefs.2 (he ▸ hy))
      obtain ⟨hl, -, L', hr, hv⟩ := hc.of_forall (evalCode_grows ho hsymbols)
      refine ⟨L', ⟨hl.sane.define z (hv.mono fun _ hn => hn.1), ?_⟩, hr.marks hmarks⟩
      refine (updates_define m' z (.ready v)).graded hr.graded fun n hn => ?_
      exact Nat.le_trans (inside_ready.mpr hv n hn).2 (Nat.zero_le _)
  | failed _ hc ih =>
      obtain ⟨L, ho, hmarks⟩ := ih hx
      obtain ⟨hl, L', hr⟩ := hc.of_forall (evalCode_grows ho fun y _ => hmarks.le_one y)
      exact ⟨L', hl.orderly hr, hr.marks hmarks⟩

/-- Sessions have to do with code only. -/
theorem Entered.coded (h : Entered policy defs m) (c : Code) :
    ∃ L, Coded L m ∧ ∀ x ∈ c.symbols, L (.name x) = 0 := by
  let taken := c.symbols ++ defs.flatMap fun d => d.2.symbols
  obtain ⟨x, hx⟩ : ∃ x, x ∉ taken := ⟨_, Fresh.firstFree_notMem "" taken 0⟩
  have hfresh : x ∉ used defs ∧ x ∉ c.symbols :=
    ⟨fun h => hx (List.mem_append_right _ (List.mem_toFinset.mp h)),
      fun h => hx (List.mem_append_left _ h)⟩
  obtain ⟨L, ho, hmarks⟩ := h.marks hfresh.1
  refine ⟨L, ⟨ho, x, ?_⟩, fun y hy => hmarks.eq_zero fun he => hfresh.2 (he ▸ hy)⟩
  rw [hmarks x, if_pos rfl]
  exact Nat.zero_lt_one

/-! ### A circular definition -/

theorem Entered.of_eq {fuel : Nat} (x : String) (h : Entered policy defs m)
    (heq : evalCode policy fuel c m = .value v m') :
    Entered policy ((x, c) :: defs) (m'.define x (.ready v)) :=
  .defined x h (converges_of_eq (evalCode_extends policy c) heq (by simp))

/-- `t (x 1)`, to be the definition of `x`. -/
def knot : Code :=
  .ap (.prim .t) (.ap (.sym "x") (.int 1))

/-- The memory once it is: `x` returns the suspended computation `x 1`. -/
def tied : Memory where
  cells := #[.pending (.code (.ap (.sym "x") (.int 1)))]
  globals := [("x", .ready (.always (.delayed 0)))]
  steps := 1

theorem entered_tied : Entered ⟨some 100, true⟩ [("x", knot)] tied := by
  have heq : evalCode ⟨some 100, true⟩ 3 knot {} =
      .value (.always (.delayed 0)) { tied with globals := [] } := rfl
  exact Entered.start.of_eq "x" heq

/-! ### Evaluations that return -/

theorem evalCode_halts_of_not_circular (hlimit : policy.limit = some k) (h : Entered policy defs m)
    (hc : ∀ x ∈ c.symbols, ¬ Circular defs x) : Halts (fun fuel => evalCode policy fuel c) m := by
  obtain ⟨rank, top, hranks, hnot⟩ := exists_ranks defs
  obtain ⟨L, ho, hnames, hsolid⟩ := h.ranked hranks fun _ hd => hd
  refine evalCode_halts hlimit ho.sane c fun x hx => ⟨trivial, hsolid _ ?_⟩
  rw [hnames x]
  exact Nat.succ_le_succ (hnot x (hc x (List.mem_eraseDups.mpr hx)))

theorem evalCode_halts_iff (hlimit : policy.limit = some k) (h : Entered policy defs m) :
    Halts (fun fuel => evalCode policy fuel c) m ↔
      ¬ Knots policy (.evaluate c) { m with steps := 0 } := by
  obtain ⟨L, hcoded, hsymbols⟩ := h.coded c
  have hcoded : Coded L { m with steps := 0 } :=
    ⟨⟨hcoded.sane.withSteps 0, hcoded.graded⟩, hcoded.above⟩
  have hnames : (Call.evaluate c).Within (Low L 0 { m with steps := 0 }) := fun x hx =>
    ⟨trivial, Nat.le_of_eq (hsymbols x (List.mem_eraseDups.mpr hx))⟩
  rw [← Call.halts_iff hlimit hcoded hnames]
  exact ⟨fun h => h.congr fun _ => rfl, fun h => Halts.congr h fun _ => rfl⟩

/-- **With a limit, evaluations return.**  After any sequence of evaluations and definitions,
evaluating code comes to a value or a failure if and only if it does not come to a suspended
computation that has become its own outcome.  Code that uses no circular name does not. -/
theorem evalCode_returns (hlimit : policy.limit = some k) (h : Entered policy defs m) :
    (Returns (fun fuel => evalCode policy fuel c) m ↔
      ¬ Knots policy (.evaluate c) { m with steps := 0 }) ∧
    ((∀ x ∈ c.symbols, ¬ Circular defs x) → Returns (fun fuel => evalCode policy fuel c) m) := by
  refine ⟨?_, fun hc => (evalCode_halts_of_not_circular hlimit h hc).returns⟩
  rw [← evalCode_halts_iff hlimit h]
  exact ⟨Returns.halts, Halts.returns⟩

/-- Beside the knot there is a list of ones that is its own tail: a number can be had from it, and
code that uses neither returns anyway. -/
theorem evalCode_returns_beside_circular :
    let policy : Policy := ⟨some 100, true⟩
    let ones : Code := .ap (.ap (.prim .cons) (.int 1)) (.sym "ones")
    let first : Code := .ap (.prim .car) (.ap (.prim .cdr) (.sym "ones"))
    ∃ m, Entered policy [("y", .ap (.prim .neg) (.int 3)), ("ones", ones), ("x", knot)] m ∧
      Returns (fun fuel => evalCode policy fuel (.ap (.ap (.prim .add) (.sym "y")) (.int 1))) m ∧
      ¬ Knots policy (.evaluate first) { m with steps := 0 } := by
  intro policy ones first
  let cells : Array Cell := #[.pending (.code (.ap (.sym "x") (.int 1))), .pending (.code (.int 1)),
    .pending (.code (.sym "ones"))]
  let list : Value := .cons (.delayed 1) (.delayed 2)
  have hones : evalCode policy 6 ones tied = .value list ⟨cells, tied.globals, 2⟩ := rfl
  have hy : evalCode policy 6 (.ap (.prim .neg) (.int 3))
      ⟨cells, ("ones", .ready list) :: tied.globals, 2⟩ = .value (.int (-3))
        ⟨cells.push (.done (.ready (.int 3))), ("ones", .ready list) :: tied.globals, 1⟩ := rfl
  have h := (entered_tied.of_eq "ones" hones).of_eq "y" hy
  refine ⟨_, h, (evalCode_returns rfl h).2 fun x hx hcircular => ?_, (evalCode_returns rfl h).1.mp ?_⟩
  · obtain rfl : x = "y" := by simpa [Code.symbols, Code.occurrences] using hx
    obtain ⟨z, c, hc, hz⟩ := hcircular.uses
    obtain rfl : c = .ap (.prim .neg) (.int 3) := by simpa using hc
    simp [Code.symbols, Code.occurrences] at hz
  · exact Or.inl ⟨.int 1, _, converges_of_eq (evalCode_extends policy first)
      (show evalCode policy 12 first _ = _ from rfl) (by simp)⟩

/-- With a circular name it may not: here no amount of fuel is enough, after two steps of the
hundred that are allowed. -/
theorem evalCode_diverges : Entered ⟨some 100, true⟩ [("x", knot)] tied ∧
    Diverges (fun fuel => evalCode ⟨some 100, true⟩ fuel (.ap (.sym "x") (.int 1))) tied := by
  refine ⟨entered_tied, fun fuel => ?_⟩
  -- the second step makes the computation its own outcome
  let m : Memory := { tied with
    cells := #[.done (.delayed 0), .pending (.code (.int 1)), .pending (.code (.int 1))]
    steps := 2 }
  match fuel with
  | 0 => rfl
  | 1 => rfl
  | 2 => rfl
  | 3 => rfl
  | 4 => rfl
  | fuel + 5 =>
      show force ⟨some 100, true⟩ (fuel + 4) (.delayed 0) m = _
      exact force_circle (.single (show Links m 0 0 from rfl)) (fuel + 4)

end Decombinator.Machine
