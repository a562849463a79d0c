/-
The machine evaluates by name.

Every function of the evaluator follows the computation by name that it stands for, up to the
faults that are excused: with a limit on steps, that it is exceeded.  The functions call each
other with one unit of fuel less, so this is one induction on fuel over all of them: `Follows`
says it of one amount of fuel, and each function is shown to follow if all functions do with one
unit less.
-/
import Decombinator.Proofs.ByName.Memory
import Mathlib.Data.List.Forall2

namespace Decombinator.ByName

open Machine

variable {policy : Policy} {Γ : World} {fuel : Nat} {H : List Arg} {m : Memory}

/-- All functions of the evaluator follow, with a given amount of fuel. -/
structure Follows (policy : Policy) (Γ : World) (fuel : Nat) : Prop where
  apply : ∀ {H m f x f' x'}, Sound Γ H m → Reads H f f' → Reads H x x' →
    Reaches Γ H (next Γ (.apply f' x')) fuel 0 id (apply policy fuel f x m)
  applyUnary : ∀ {H m x x'} (g : Unary), Sound Γ H m → Reads H x x' →
    Reaches Γ H (Val.appliedUnary g x') fuel 0 id (applyUnary policy fuel g x m)
  applyBinary : ∀ {H m x y x' y'} (g : Binary), Sound Γ H m → Reads H x x' → Reads H y y' →
    Reaches Γ H (Val.appliedBinary g x' y') fuel 0 id (applyBinary policy fuel g x y m)
  applyTernary : ∀ {H m x y z x' y' z'} (g : Ternary), Sound Γ H m → Reads H x x' → Reads H y y' →
    Reads H z z' →
    Reaches Γ H (Val.appliedTernary g x' y' z') fuel 0 id (applyTernary policy fuel g x y z m)
  force : ∀ {H m x x'}, Sound Γ H m → Reads H x x' →
    Reaches Γ H (next Γ x') fuel 4 .ready (force policy fuel x m)
  resume : ∀ {H m s x}, Sound Γ H m → Suspends H s x →
    Reaches Γ H (next Γ x) fuel 3 id (resume policy fuel s m)
  run : ∀ {H m} (c : Code), Sound Γ H m →
    Reaches Γ H (next Γ (.code c)) fuel 1 id (run policy fuel c m)
  eval : ∀ {H m env env'} (e : Expr), Sound Γ H m → ReadsEnv H env env' →
    Reaches Γ H (next Γ (.expr e env')) fuel 2 .ready (eval policy fuel e env m)
  applyAll : ∀ {H m f f' xs xs'}, Sound Γ H m → Reads H f f' → List.Forall₂ (Reads H) xs xs' →
    Reaches Γ H (.of (applyAll f' xs')) fuel 1 id (Machine.applyAll policy fuel f xs m)
  truth : ∀ {H m v v'}, Sound Γ H m → ReadsVal H v v' →
    Reaches Γ H (truth v') fuel 0 (fun b => .ready (.bool b)) (Machine.truth policy fuel v m)
  truthOf : ∀ {H m env env'} (e : Expr), Sound Γ H m → ReadsEnv H env env' →
    Reaches Γ H (truthOf e env') fuel 0 (fun b => .ready (.bool b))
      (Machine.truthOf policy fuel e env m)

/-- Whether exceeding the limit on steps, if there is one, is excused. -/
def World.Allows (Γ : World) (policy : Policy) : Prop :=
  ∀ limit, policy.limit = some limit → Γ.excused (.stepLimit limit)

/-- Counting a step. -/
theorem Reaches.tick (hlimit : Γ.Allows policy) (hs : Sound Γ H m) {α : Type} {n : Next}
    {rank : Nat} {f : α → Operand} {k : Unit → Effect α}
    (hk : ∀ {m'}, Sound Γ H m' → Reaches Γ H n fuel rank f (k () m')) :
    Reaches Γ H n fuel rank f ((Effect.tick policy >>= k) m) := by
  have hs := hs.withSteps (m.steps + 1)
  show Reaches Γ H n fuel rank f (Effect.bind (Effect.tick policy) k m)
  unfold Effect.bind Effect.tick
  cases hpolicy : policy.limit with
  | none => exact hk hs
  | some limit =>
      by_cases hover : m.steps + 1 > limit
      · simp only [hover, if_true]
        exact ⟨⟨H, List.prefix_rfl, hs⟩, Or.inr (hlimit limit hpolicy)⟩
      · simp only [hover, if_false]
        exact hk hs

/-! ### Forcing -/

theorem force_ready (hs : Sound Γ H m) {v : Value} {v' : Val} (hv : ReadsVal H v v') :
    Reaches Γ H (.ret v') (fuel + 1) 1 .ready (force policy fuel (.ready v) m) := by
  cases fuel with
  | zero => exact fun c _ _ => by omega
  | succ fuel => exact .ret hs rfl hv

/-- Forcing what is left of a computation. -/
theorem Follows.force_left (h : Follows policy Γ fuel) (hs : Sound Γ H m) {n : Next} {y : Operand}
    (hy : Left Γ H n y) : Reaches Γ H n (fuel + 1) 1 .ready (Machine.force policy fuel y m) := by
  obtain ⟨y', d, hy, hshift, hd | ⟨v, rfl⟩⟩ := hy
  · exact (h.force hs hy).shift hshift (by omega)
  · cases hy with
    | ready hv => exact (force_ready hs hv).shift hshift (by omega)

theorem Follows.thenForce (h : Follows policy Γ fuel) {n : Next} {rank : Nat} {p : Effect Operand}
    (hp : Reaches Γ H n fuel rank id (p m)) :
    Reaches Γ H n (fuel + 1) (rank + 1) .ready ((p >>= Machine.force policy fuel) m) := by
  refine hp.bind ?_ id fun ht c v hy => ?_
  · intro H' m' a y d _ hs hy hshift hd
    exact (h.force_left hs ⟨y, d, hy, hshift, hd⟩).shift (.refl n) (by omega)
  · have := ht c v hy
    omega

/-- Keeping an outcome, if outcomes are kept. -/
theorem Reaches.keep (policy : Policy) (hs : Sound Γ H m) {a : Nat} {x : Arg} {c : Cell}
    (ha : H[a]? = some x) (hc : Holds Γ H c x) {α : Type} {n : Next} {rank : Nat}
    {f : α → Operand} {k : Effect α}
    (hk : ∀ {m'}, Sound Γ H m' → Reaches Γ H n fuel rank f (k m')) :
    Reaches Γ H n fuel rank f
      ((do if policy.memo then Effect.store a c
           k : Effect α) m) := by
  cases hmemo : policy.memo with
  | true => exact hk (hs.store ha hc)
  | false => exact hk hs

theorem Follows.force_succ (h : Follows policy Γ fuel) (hs : Sound Γ H m) {x : Operand} {x' : Arg}
    (hx : Reads H x x') :
    Reaches Γ H (next Γ x') (fuel + 1) 4 .ready (Machine.force policy (fuel + 1) x m) := by
  cases hx with
  | ready hv => exact .ret hs rfl hv
  | @delayed a _ ha =>
      rw [Machine.force]
      show Reaches Γ H (next Γ x') (fuel + 1) 4 .ready (Effect.bind (Effect.load a) _ m)
      rw [Effect.bind, Effect.load]
      cases hcell : m.cells[a]? with
      | none =>
          have hlt := (List.getElem?_eq_some_iff.mp ha).1
          rw [Array.getElem?_eq_none_iff, hs.size] at hcell
          omega
      | some c =>
          obtain ⟨y, hy, hc⟩ := hs.cell a c hcell
          obtain rfl := Option.some.inj (ha.symm.trans hy)
          cases hc with
          | done hleft => exact (h.force_left hs hleft).shift (.refl _) (by omega)
          | failed e hfails => exact ⟨⟨H, List.prefix_rfl, hs⟩, hfails⟩
          | @pending s _ _ _ hsus hshift =>
              have hresume : Reaches Γ H (next Γ x') fuel 3 id _ :=
                (h.resume hs hsus).shift hshift (by omega)
              show Reaches Γ H (next Γ x') (fuel + 1) 4 .ready
                (Effect.bind (Effect.attempt (Machine.resume policy fuel s)) _ m)
              rw [Effect.bind, Effect.attempt]
              cases hr : Machine.resume policy fuel s m with
              | value y m' =>
                  rw [hr] at hresume
                  obtain ⟨H', hgrow, hs', hleft⟩ := hresume
                  refine Reaches.grow hgrow ?_
                  exact Reaches.keep policy hs' (getElem_of_isPrefix hgrow ha) (.done hleft)
                    fun hs'' => (h.force_left hs'' hleft).shift (.refl _) (by omega)
              | fault e m' =>
                  rw [hr] at hresume
                  obtain ⟨⟨H', hgrow, hs'⟩, hfails⟩ := hresume
                  refine Reaches.grow hgrow ?_
                  exact Reaches.keep policy hs' (getElem_of_isPrefix hgrow ha) (.failed e hfails)
                    fun hs'' => ⟨⟨H', List.prefix_rfl, hs''⟩, hfails⟩
              | outOfFuel =>
                  rw [hr] at hresume
                  intro c v hy
                  have := hresume c v hy
                  omega

/-! ### Primitive operations -/

theorem compute_reaches (hs : Sound Γ H m) (op : BinOp) (x y : Int64) {rank : Nat} :
    Reaches Γ H (.computed (compute op x y)) fuel rank .ready
      (Effect.ofExcept (compute op x y) m) := by
  have hdiv : ∀ {r : Except Fault Value},
      (r = .error .divisionByZero ∨ ∃ n, r = .ok (.int n)) →
      Reaches Γ H (.computed r) fuel rank .ready (Effect.ofExcept r m) := by
    rintro r (rfl | ⟨n, rfl⟩)
    · exact .stuck hs _
    · exact .ret hs rfl (.int n)
  cases op with
  | add => exact .ret hs rfl (.int _)
  | sub => exact .ret hs rfl (.int _)
  | mul => exact .ret hs rfl (.int _)
  | div =>
      refine hdiv ?_
      rw [compute]
      split
      · exact Or.inl rfl
      · exact Or.inr ⟨_, rfl⟩
  | mod =>
      refine hdiv ?_
      rw [compute]
      split
      · exact Or.inl rfl
      · exact Or.inr ⟨_, rfl⟩
  | eq => exact .ret hs rfl (.bool _)
  | lt => exact .ret hs rfl (.bool _)
  | and => exact .stuck hs _
  | or => exact .stuck hs _

theorem arith_reaches (hs : Sound Γ H m) (op : BinOp) {a b : Value} {a' b' : Val}
    (ha : ReadsVal H a a') (hb : ReadsVal H b b') {rank : Nat} :
    Reaches Γ H (arith op a' b') fuel rank .ready
      (Effect.ofExcept (Machine.arith op a b) m) := by
  have htag := hb.tag_eq
  cases ha with
  | int x =>
      cases hb with
      | int y => exact compute_reaches hs op x y
      | _ => exact .stuck hs _
  | _ =>
      show Reaches Γ H (.stuck (.expectedIntegers op _ b'.tag)) fuel rank .ready
        (Effect.fail (.expectedIntegers op _ b.tag) m)
      rw [htag]
      exact .stuck hs _

theorem testNil_reaches (hs : Sound Γ H m) {v : Value} {v' : Val} (hv : ReadsVal H v v')
    {rank : Nat} :
    Reaches Γ H (testNil v') fuel rank .ready (Effect.ofExcept (Machine.testNil v) m) := by
  cases hv with
  | nil => exact .ret hs rfl (.bool true)
  | cons => exact .ret hs rfl (.bool false)
  | _ => exact .stuck hs _

theorem negate_reaches (hs : Sound Γ H m) {v : Value} {v' : Val} (hv : ReadsVal H v v')
    {rank : Nat} :
    Reaches Γ H (negate v') fuel rank .ready (Effect.ofExcept (Machine.negate v) m) := by
  cases hv with
  | int n => exact .ret hs rfl (.int (-n))
  | _ => exact .stuck hs _

/-! ### Application -/

theorem Follows.applyUnary_succ (h : Follows policy Γ fuel) (hs : Sound Γ H m) {x : Operand}
    {x' : Arg} (g : Unary) (hx : Reads H x x') :
    Reaches Γ H (Val.appliedUnary g x') (fuel + 1) 0 id
      (Machine.applyUnary policy (fuel + 1) g x m) := by
  cases g with
  | i => exact .of hs hx
  | car =>
      refine (h.force hs hx).need (fun _ hs hv => ?_) (by omega)
      have hread := Reads.ready hv
      cases hv with
      | cons hhead _ => exact .of hs hhead
      | _ => exact (h.apply hs hread (.ready (.bool true))).shift (.of _) (by omega)
  | cdr =>
      refine (h.force hs hx).need (fun _ hs hv => ?_) (by omega)
      have hread := Reads.ready hv
      cases hv with
      | cons _ htail => exact .of hs htail
      | _ => exact (h.apply hs hread (.ready (.bool false))).shift (.of _) (by omega)
  | isnil =>
      refine (h.force hs hx).need (fun _ hs hv => ?_) (by omega)
      exact (testNil_reaches hs hv).map fun _ => rfl
  | neg =>
      refine (h.force hs hx).need (fun _ hs hv => ?_) (by omega)
      exact (negate_reaches hs hv).map fun _ => rfl

theorem Follows.applyBinary_succ (h : Follows policy Γ fuel) (hs : Sound Γ H m) {x y : Operand}
    {x' y' : Arg} (g : Binary) (hx : Reads H x x') (hy : Reads H y y') :
    Reaches Γ H (Val.appliedBinary g x' y') (fuel + 1) 0 id
      (Machine.applyBinary policy (fuel + 1) g x y m) := by
  rw [Val.appliedBinary, Machine.applyBinary]
  cases g.operator? with
  | none => exact .ret hs rfl (.cons hx hy)
  | some op =>
      refine (h.force hs hx).need (fun hgrow hs ha => ?_) (by omega)
      refine (h.force hs (hy.grow hgrow)).need (fun hgrow hs hb => ?_) (by omega)
      exact (arith_reaches hs op (ha.grow hgrow) hb).map fun _ => rfl

/-- Applying what an application gives. -/
theorem Follows.applyTwice (h : Follows policy Γ fuel) (hs : Sound Γ H m) {f x y : Operand}
    {f' x' y' : Arg} (hf : Reads H f f') (hx : Reads H x x') (hy : Reads H y y') :
    Reaches Γ H (.of (.apply (.apply f' x') y')) (fuel + 1) 0 id
      ((Machine.apply policy fuel f x >>= fun g => Machine.apply policy fuel g y) m) := by
  have htwice : Reaches Γ H (next Γ (.apply (.apply f' x') y')) fuel 0 id
      ((Machine.apply policy fuel f x >>= fun g => Machine.apply policy fuel g y) m) :=
    (h.apply hs hf hx).through []
      (fun hgrow hs hg _ => (h.apply hs hg (hy.grow hgrow)).shift (.refl _) (by omega)) (by omega)
  exact htwice.shift (.of _) (by omega)

theorem Follows.applyTernary_succ (h : Follows policy Γ fuel) (hs : Sound Γ H m)
    {x y z : Operand} {x' y' z' : Arg} (g : Ternary) (hx : Reads H x x') (hy : Reads H y y')
    (hz : Reads H z z') :
    Reaches Γ H (Val.appliedTernary g x' y' z') (fuel + 1) 0 id
      (Machine.applyTernary policy (fuel + 1) g x y z m) := by
  cases g with
  | b =>
      refine .delay hs (.apply hy hz) fun hgrow hs hyz => ?_
      exact (h.apply hs (hx.grow hgrow) hyz).shift (.of _) (by omega)
  | c => exact h.applyTwice hs hx hz hy
  | s =>
      refine .delay hs (.apply hy hz) fun hgrow hs hyz => ?_
      exact h.applyTwice hs (hx.grow hgrow) (hz.grow hgrow) hyz

theorem Follows.apply_succ (h : Follows policy Γ fuel) (hlimit : Γ.Allows policy)
    (hs : Sound Γ H m) {f x : Operand} {f' x' : Arg} (hf : Reads H f f') (hx : Reads H x x') :
    Reaches Γ H (next Γ (.apply f' x')) (fuel + 1) 0 id
      (Machine.apply policy (fuel + 1) f x m) := by
  rw [Machine.apply]
  refine .tick hlimit hs fun hs => (h.force hs hf).need (fun hgrow hs hv => ?_) (by omega)
  replace hx := hx.grow hgrow
  cases hv with
  | int n => exact .stuck hs _
  | bool b =>
      cases b with
      | true => exact .ret hs rfl (.always hx)
      | false => exact .ret hs rfl .second
  | nil => exact .ret hs rfl (.bool true)
  | cons hhead htail => exact (h.applyTwice hs hx hhead htail).shift (.refl _) (by omega)
  | unary g => exact (h.applyUnary g hs hx).shift (.refl _) (by omega)
  | binary g => exact .ret hs rfl (.binary1 g hx)
  | binary1 g ha => exact (h.applyBinary g hs ha hx).shift (.refl _) (by omega)
  | ternary g => exact .ret hs rfl (.ternary1 g hx)
  | ternary1 g ha => exact .ret hs rfl (.ternary2 g ha hx)
  | ternary2 g ha hb => exact (h.applyTernary g hs ha hb hx).shift (.refl _) (by omega)
  | always hy => exact .of hs hy
  | second => exact .of hs hx
  | closure label henv p ps body =>
      cases ps with
      | nil =>
          refine Reaches.map (f := .ready) ?_ fun _ => rfl
          exact (h.eval body hs (.cons p hx henv)).shift (.of _) (by omega)
      | cons q rest => exact .ret hs rfl (.closure label (.cons p hx henv) q rest body)
  | probe first => exact .ret hs rfl (.probe first)

theorem Shift.one_le_of_ready {d : Nat} {x : Arg} {K : Val → Next} {v : Val}
    (h : Shift Γ d (.need x K) (.ret v)) : 1 ≤ d := by
  obtain ⟨c₁, -, c₂, -, -, hd⟩ := concludes_need.mp ((h (0 + d) (.ok v)).mpr ⟨0, .ret v, rfl⟩)
  omega

theorem Follows.applyAll_succ (h : Follows policy Γ fuel) (hs : Sound Γ H m) {f : Operand}
    {f' : Arg} {xs : List Operand} {xs' : List Arg} (hf : Reads H f f')
    (hxs : List.Forall₂ (Reads H) xs xs') :
    Reaches Γ H (.of (ByName.applyAll f' xs')) (fuel + 1) 1 id
      (Machine.applyAll policy (fuel + 1) f xs m) := by
  cases hxs with
  | nil => exact .of hs hf
  | @cons x x' xs xs' hx hxs =>
      have hrest : ∀ {H'}, H <+: H' → List.Forall₂ (Reads H') xs xs' := fun hgrow =>
        hxs.imp fun _ _ hz => hz.grow hgrow
      refine (h.apply hs hf hx).bind ?_ (fun hfails => hfails.applyAll.need)
        fun ht => (ht.applyAll xs').need (by omega)
      intro H' m' g y d hgrow hs hy hshift hd
      have hd : 1 ≤ d := by
        rcases hd with hd | ⟨v, rfl⟩
        · exact hd
        · cases hy with
          | ready hv => exact Shift.one_le_of_ready hshift
      exact (h.applyAll hs hy (hrest hgrow)).shift hshift.applyAll.need (by omega)

/-! ### Booleans -/

/-- Probing a function. -/
theorem Follows.probed_succ (h : Follows policy Γ fuel) (hs : Sound Γ H m) {v : Value} {v' : Val}
    (hv : ReadsVal H v v') :
    Reaches Γ H
      (.need (probed (.ready v')) fun
        | .probe first => .ret (.bool first)
        | _ => .stuck .notBoolean) (fuel + 1) 0 (fun b => .ready (.bool b))
      ((do
        let g ← Machine.apply policy fuel (.ready v) (.ready (.probe true))
        let r ← Machine.apply policy fuel g (.ready (.probe false))
        match ← Machine.force policy fuel r with
        | .probe first => pure first
        | _ => Effect.fail .notBoolean : Effect Bool) m) := by
  refine (h.apply hs (.ready hv) (.ready (.probe true))).through [.ready (.probe false)] ?_
    (by omega)
  intro H' m' g y d _ hs hg _
  refine (h.apply hs hg (.ready (.probe false))).through [] ?_ (by omega)
  intro H' m' r y d _ hs hr _
  refine (h.force hs hr).need (fun _ hs hw => ?_) (by omega)
  cases hw with
  | probe first => exact .ret hs rfl (.bool first)
  | _ => exact .stuck hs _

theorem Follows.truth_succ (h : Follows policy Γ fuel) (hs : Sound Γ H m) {v : Value} {v' : Val}
    (hv : ReadsVal H v v') :
    Reaches Γ H (ByName.truth v') (fuel + 1) 0 (fun b => .ready (.bool b))
      (Machine.truth policy (fuel + 1) v m) := by
  have hprobed := h.probed_succ hs hv
  cases hv with
  | bool b => exact .ret hs rfl (.bool b)
  | int n => exact .stuck hs _
  | nil => exact .stuck hs _
  | cons => exact .stuck hs _
  | probe => exact .stuck hs _
  | _ => exact hprobed

theorem Follows.truthOf_succ (h : Follows policy Γ fuel) (hs : Sound Γ H m) {env : Env}
    {env' : Scope} (e : Expr) (henv : ReadsEnv H env env') :
    Reaches Γ H (ByName.truthOf e env') (fuel + 1) 0 (fun b => .ready (.bool b))
      (Machine.truthOf policy (fuel + 1) e env m) := by
  refine (h.eval e hs henv).need (fun _ hs hv => ?_) (by omega)
  exact (h.truth hs hv).shift (.refl _) (by omega)

/-! ### Code and expressions -/

theorem global_reaches (hs : Sound Γ H m) (x : String) {rank : Nat} :
    Reaches Γ H (global Γ x) fuel rank id (Effect.global x m) := by
  rw [Effect.global, hs.globals]
  cases henv : Γ.env.lookup x with
  | some y =>
      obtain ⟨y', hname, hleft⟩ := hs.known x y henv
      rw [global, hname]
      exact .left hs hleft
  | none =>
      rcases Γ.missing henv with hname | hexcused
      · rw [hname]
        exact .stuck hs _
      · exact ⟨⟨H, List.prefix_rfl, hs⟩, Or.inr hexcused⟩

theorem ofPrim_reads (H : List Arg) (p : Prim) : ReadsVal H (.ofPrim p) (.ofPrim p) := by
  cases p <;> constructor

theorem Follows.run_succ (h : Follows policy Γ fuel) (hs : Sound Γ H m) (c : Code) :
    Reaches Γ H (next Γ (.code c)) (fuel + 1) 1 id (Machine.run policy (fuel + 1) c m) := by
  cases c with
  | int n => exact .ret hs rfl (.int n)
  | sym x => exact global_reaches hs x
  | prim p => exact .ret hs rfl (ofPrim_reads H p)
  | ap f x =>
      refine (h.run f hs).through [] (fun _ hs hg _ => ?_) (by omega)
      refine .delay hs (.code x) fun hgrow hs hx => ?_
      exact (h.apply hs (hg.grow hgrow) hx).shift (.refl _) (by omega)

theorem Follows.resume_succ (h : Follows policy Γ fuel) (hs : Sound Γ H m) {s : Suspension}
    {x : Arg} (hsus : Suspends H s x) :
    Reaches Γ H (next Γ x) (fuel + 1) 3 id (Machine.resume policy (fuel + 1) s m) := by
  cases hsus with
  | code c => exact (h.run c hs).shift (.refl _) (by omega)
  | expr e henv =>
      refine Reaches.map (f := .ready) ?_ fun _ => rfl
      exact (h.eval e hs henv).shift (.refl _) (by omega)
  | apply hf hx => exact (h.apply hs hf hx).shift (.refl _) (by omega)

theorem delayList_value {env : Env} {env' : Scope} (es : List Expr) :
    ∀ {H : List Arg} {m : Memory}, Sound Γ H m → ReadsEnv H env env' →
      ∃ v m' H', delayList env es m = .value v m' ∧ H <+: H' ∧ Sound Γ H' m' ∧
        ReadsVal H' v (listVal env' es) := by
  induction es with
  | nil => exact fun hs _ => ⟨.nil, _, _, rfl, List.prefix_rfl, hs, .nil⟩
  | cons e es ih =>
      intro H m hs henv
      obtain ⟨v, m₁, H₁, heq, hgrow, hs₁, hv⟩ := ih hs henv
      have hgrow' : H₁ <+: H₁ ++ [.expr e env'] := List.prefix_append _ _
      refine ⟨.cons (.delayed m₁.cells.size) (.ready v), _, _, ?_, hgrow.trans hgrow',
        hs₁.push (.expr e (henv.grow hgrow)), .cons (.delayed ?_) (.ready (hv.grow hgrow'))⟩
      · show Effect.bind (delayList env es) _ m = _
        rw [Effect.bind, heq]
        rfl
      · rw [hs₁.size, List.getElem?_concat_length]

theorem delayArgs_value {env : Env} {env' : Scope} (es : List Expr) :
    ∀ {H : List Arg} {m : Memory}, Sound Γ H m → ReadsEnv H env env' →
      ∃ xs m' H', delayArgs env es m = .value xs m' ∧ H <+: H' ∧ Sound Γ H' m' ∧
        List.Forall₂ (Reads H') xs (es.map fun e => .expr e env') := by
  induction es with
  | nil => exact fun hs _ => ⟨[], _, _, rfl, List.prefix_rfl, hs, .nil⟩
  | cons e es ih =>
      intro H m hs henv
      have hgrow : H <+: H ++ [.expr e env'] := List.prefix_append _ _
      obtain ⟨xs, m', H', heq, hgrow', hs', hxs⟩ := ih (hs.push (.expr e henv)) (henv.grow hgrow)
      refine ⟨.delayed m.cells.size :: xs, m', H', ?_, hgrow.trans hgrow', hs',
        .cons (.delayed (getElem_of_isPrefix hgrow' ?_)) hxs⟩
      · show Effect.bind (Effect.delay (.expr e env)) (fun x => delayArgs env es >>= fun xs =>
          pure (x :: xs)) m = _
        rw [Effect.bind, Effect.delay]
        show Effect.bind (delayArgs env es) _ _ = _
        rw [Effect.bind, heq]
        rfl
      · rw [hs.size, List.getElem?_concat_length]

/-- Applying a value and forcing the result. -/
theorem Follows.applyForce (h : Follows policy Γ fuel) (rank : Nat) (hs : Sound Γ H m)
    {f x : Operand} {f' x' : Arg} (hf : Reads H f f') (hx : Reads H x x') :
    Reaches Γ H (.of (.apply f' x')) (fuel + 1) rank .ready
      ((Machine.apply policy fuel f x >>= Machine.force policy fuel) m) :=
  (h.thenForce (h.apply hs hf hx)).shift (.of _) (by omega)

theorem function_reads {env : Env} {env' : Scope} (henv : ReadsEnv H env env') (p : String)
    (ps : List String) (b : Expr) :
    ReadsVal H (.function env p ps b) (.function env' p ps b) :=
  .closure _ henv p ps b

theorem Follows.eval_sym (h : Follows policy Γ fuel) (hs : Sound Γ H m) {env : Env}
    {env' : Scope} (x : String) (henv : ReadsEnv H env env') :
    Reaches Γ H (next Γ (.expr (.sym x) env')) (fuel + 1) 2 .ready
      (Machine.eval policy (fuel + 1) (.sym x) env m) := by
  show Reaches Γ H (nextExpr Γ env' (.sym x)) (fuel + 1) 2 .ready
    ((Effect.lookup env x >>= Machine.force policy fuel) m)
  rw [nextExpr, Effect.lookup]
  rcases henv.lookup x with ⟨hv, hv'⟩ | ⟨v, v', hv, hv', hread⟩
  · rw [hv, hv']
    exact (h.thenForce (global_reaches hs x)).shift (.refl _) (Nat.le_refl _)
  · rw [hv, hv']
    exact (h.force hs hread).shift (.of v') (by omega)

theorem Follows.eval_call (h : Follows policy Γ fuel) (hs : Sound Γ H m) {env : Env}
    {env' : Scope} (f : Expr) (args : List Expr) (henv : ReadsEnv H env env') :
    Reaches Γ H (next Γ (.expr (.call f args) env')) (fuel + 1) 2 .ready
      (Machine.eval policy (fuel + 1) (.call f args) env m) := by
  refine (h.eval f hs henv).through _ ?_ (by omega)
  intro H' m' g y d hgrow hs hg _
  obtain ⟨xs, m'', H'', heq, hgrow', hs', hxs⟩ := delayArgs_value args hs (henv.grow hgrow)
  have hall := h.thenForce (h.applyAll hs' (hg.grow hgrow') hxs)
  refine Reaches.grow hgrow' ?_
  show Reaches Γ H'' _ _ _ _ (Effect.bind (delayArgs env args) _ m')
  rw [Effect.bind, heq]
  exact hall.shift (.refl _) (by omega)

theorem Follows.eval_succ (h : Follows policy Γ fuel) (hs : Sound Γ H m) {env : Env}
    {env' : Scope} (e : Expr) (henv : ReadsEnv H env env') :
    Reaches Γ H (next Γ (.expr e env')) (fuel + 1) 2 .ready
      (Machine.eval policy (fuel + 1) e env m) := by
  have hoperation : ∀ (op : BinOp) (l r : Expr),
      Reaches Γ H (.need (.expr l env') fun a => .need (.expr r env') fun b => arith op a b)
        (fuel + 1) 2 .ready
        ((do
          let a ← Machine.eval policy fuel l env
          let b ← Machine.eval policy fuel r env
          Effect.ofExcept (Machine.arith op a b) : Effect Value) m) := by
    intro op l r
    refine (h.eval l hs henv).need (fun hgrow hs ha => ?_) (by omega)
    refine (h.eval r hs (henv.grow hgrow)).need (fun hgrow hs hb => ?_) (by omega)
    exact arith_reaches hs op (ha.grow hgrow) hb
  cases e with
  | int n => exact .ret hs rfl (.int n)
  | bool b => exact .ret hs rfl (.bool b)
  | prim p => exact .ret hs rfl (ofPrim_reads H p)
  | func p ps b => exact .ret hs rfl (function_reads henv p ps b)
  | list es =>
      obtain ⟨v, m', H', heq, hgrow, hs', hv⟩ := delayList_value es hs henv
      refine Reaches.grow hgrow ?_
      show Reaches Γ H' _ _ _ _ (delayList env es m)
      rw [heq]
      exact .ret hs' rfl hv
  | sym x => exact h.eval_sym hs x henv
  | neg a =>
      refine (h.eval a hs henv).need (fun _ hs hv => ?_) (by omega)
      exact h.applyForce _ hs (.ready (.unary .neg)) (.ready hv)
  | not a =>
      refine (h.truthOf a hs henv).bindBool (fun b _ hs => ?_) (by omega)
      cases b with
      | true => exact .ret hs rfl (.bool false)
      | false => exact .ret hs rfl (.bool true)
  | isNil a =>
      refine (h.eval a hs henv).need (fun _ hs hv => ?_) (by omega)
      exact testNil_reaches hs hv
  | binary op l r =>
      cases op with
      | and =>
          refine (h.truthOf l hs henv).bindBool (fun b hgrow hs => ?_) (by omega)
          cases b with
          | true =>
              have hr := h.truthOf r hs (henv.grow hgrow)
              exact (hr.shift (.refl _) (by omega)).map fun _ => rfl
          | false => exact .ret hs rfl (.bool false)
      | or =>
          refine (h.truthOf l hs henv).bindBool (fun b hgrow hs => ?_) (by omega)
          cases b with
          | true => exact .ret hs rfl (.bool true)
          | false =>
              have hr := h.truthOf r hs (henv.grow hgrow)
              exact (hr.shift (.refl _) (by omega)).map fun _ => rfl
      | _ => exact hoperation _ l r
  | cond test yes no =>
      refine (h.truthOf test hs henv).bindBool (fun b hgrow hs => ?_) (by omega)
      cases b with
      | true => exact (h.eval yes hs (henv.grow hgrow)).shift (.of _) (by omega)
      | false => exact (h.eval no hs (henv.grow hgrow)).shift (.of _) (by omega)
  | matchList value empty p q b =>
      refine (h.eval value hs henv).need (fun hgrow hs hv => ?_) (by omega)
      have henv := henv.grow hgrow
      have happly := h.applyForce 6 hs (.ready hv) (.ready (function_reads henv p [q] b))
      cases hv with
      | nil => exact (h.eval empty hs henv).shift (.of _) (by omega)
      | _ => exact happly
  | letCons p q value b =>
      refine (h.eval value hs henv).need (fun hgrow hs hv => ?_) (by omega)
      exact h.applyForce _ hs (.ready hv) (.ready (function_reads (henv.grow hgrow) p [q] b))
  | letIn x value b =>
      refine .delay hs (.expr value henv) fun hgrow hs hv => ?_
      exact (h.eval b hs (.cons x hv (henv.grow hgrow))).shift (.of _) (by omega)
  | call f args => exact h.eval_call hs f args henv

/-! ### All fuel -/

theorem follows_zero (policy : Policy) (Γ : World) : Follows policy Γ 0 where
  apply _ _ _ := fun _ _ _ => Nat.zero_le _
  applyUnary _ _ _ := fun _ _ _ => Nat.zero_le _
  applyBinary _ _ _ _ := fun _ _ _ => Nat.zero_le _
  applyTernary _ _ _ _ _ := fun _ _ _ => Nat.zero_le _
  force _ _ := fun _ _ _ => Nat.zero_le _
  resume _ _ := fun _ _ _ => Nat.zero_le _
  run _ _ := fun _ _ _ => Nat.zero_le _
  eval _ _ _ := fun _ _ _ => Nat.zero_le _
  applyAll _ _ _ := fun _ _ _ => Nat.zero_le _
  truth _ _ := fun _ _ _ => Nat.zero_le _
  truthOf _ _ _ := fun _ _ _ => Nat.zero_le _

/-- **The machine evaluates by name**, as far as the limit on steps allows. -/
theorem followsWithin (hlimit : Γ.Allows policy) (fuel : Nat) : Follows policy Γ fuel := by
  induction fuel with
  | zero => exact follows_zero policy Γ
  | succ fuel h =>
      exact {
        apply := fun hs hf hx => h.apply_succ hlimit hs hf hx
        applyUnary := fun g hs hx => h.applyUnary_succ hs g hx
        applyBinary := fun g hs hx hy => h.applyBinary_succ hs g hx hy
        applyTernary := fun g hs hx hy hz => h.applyTernary_succ hs g hx hy hz
        force := fun hs hx => h.force_succ hs hx
        resume := fun hs hsus => h.resume_succ hs hsus
        run := fun c hs => h.run_succ hs c
        eval := fun e hs henv => h.eval_succ hs e henv
        applyAll := fun hs hf hxs => h.applyAll_succ hs hf hxs
        truth := fun hs hv => h.truth_succ hs hv
        truthOf := fun e hs henv => h.truthOf_succ hs e henv }

theorem Follows.evalCode (h : Follows policy Γ fuel) (hs : Sound Γ H m) (c : Code) :
    Reaches Γ H (next Γ (.code c)) (fuel + 1) 6 .ready (Machine.evalCode policy fuel c m) :=
  (h.thenForce (h.run c (hs.withSteps 0))).shift (.refl _) (by omega)

theorem Follows.evalExpr (h : Follows policy Γ fuel) (hs : Sound Γ H m) (e : Expr) :
    Reaches Γ H (next Γ (.expr e [])) (fuel + 1) 6 .ready (Machine.evalExpr policy fuel e m) :=
  (h.eval e (hs.withSteps 0) .nil).shift (.refl _) (by omega)

/-- **With no limit on steps, the machine evaluates by name.** -/
theorem follows (hlimit : policy.limit = none) (Γ : Frame) (fuel : Nat) :
    Follows policy Γ fuel :=
  followsWithin (fun limit h => by simp [hlimit] at h) fuel

end Decombinator.ByName
