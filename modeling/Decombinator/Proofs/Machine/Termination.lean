/-
With a limit on steps, evaluation ends where memory is grounded.

Only applications count as steps, so this is not for the limit alone to see to: between two
steps, forcing a suspended computation can lead to forcing another, and evaluating an expression
to evaluating its parts.  As long as no step is taken, forcing only ever moves on to what a cell
refers to, and evaluating to a part of the expression or to a name of its environment.  Neither
can go on for ever, if what the evaluation starts from is grounded.

So there are three inductions inside each other: on the steps that are left, on the references,
and on the expression.
-/
import Decombinator.Proofs.Machine.Growth

namespace Decombinator.Machine

open Effect

variable {policy : Policy} {m m' : Memory} {x y : Operand} {v : Value} {env : Env} {α β : Type}

/-! ### Evaluations that end -/

/-- With fuel enough the outcome is `o`, and fuel is not what it stopped for. -/
def Converges (p : Nat → Effect α) (m : Memory) (o : Outcome α) : Prop :=
  o ≠ .outOfFuel ∧ ∃ N, ∀ fuel, N ≤ fuel → p fuel m = o

/-- What holds with any fuel holds of the outcome. -/
theorem Converges.of_forall {p : Nat → Effect α} {o : Outcome α} (h : Converges p m o)
    {P : Outcome α → Prop} (hP : ∀ fuel, P (p fuel m)) : P o := by
  obtain ⟨-, N, hN⟩ := h
  rw [← hN N (Nat.le_refl N)]
  exact hP N

/-- With fuel enough there is an outcome. -/
def Halts (p : Nat → Effect α) (m : Memory) : Prop :=
  ∃ o, Converges p m o

namespace Halts

variable {p : Nat → Effect α}

theorem of_eq {o : Outcome α} (ho : o ≠ .outOfFuel) (h : ∀ fuel, p fuel m = o) : Halts p m :=
  ⟨o, ho, 0, fun fuel _ => h fuel⟩

theorem pure (a : α) : Halts (fun _ => (Pure.pure a : Effect α)) m :=
  of_eq (o := .value a m) (by simp) fun _ => rfl

theorem fail (f : Fault) : Halts (fun _ => (Effect.fail f : Effect α)) m :=
  of_eq (o := .fault f m) (by simp) fun _ => rfl

theorem delay (s : Suspension) : Halts (fun _ => Effect.delay s) m :=
  of_eq (o := .value (.delayed m.cells.size) (m.push s)) (by simp) fun _ => rfl

theorem ofExcept (r : Except Fault α) : Halts (fun _ => Effect.ofExcept r) m := by
  cases r with
  | ok a => exact .pure a
  | error f => exact .fail f

theorem succ (h : Halts (fun fuel => p (fuel + 1)) m) : Halts p m := by
  obtain ⟨o, ho, N, hN⟩ := h
  refine ⟨o, ho, N + 1, fun fuel hfuel => ?_⟩
  obtain ⟨fuel, rfl⟩ := Nat.exists_eq_add_of_le' (show 1 ≤ fuel by omega)
  exact hN fuel (by omega)

theorem congr {q : Nat → Effect α} (hq : Halts q m') (h : ∀ fuel, p fuel m = q fuel m') :
    Halts p m := by
  obtain ⟨o, ho, N, hN⟩ := hq
  exact ⟨o, ho, N, fun fuel hfuel => (h fuel).trans (hN fuel hfuel)⟩

theorem bind {k : α → Nat → Effect β} (hp : Halts p m)
    (hk : ∀ {a m'}, Converges p m (.value a m') → Halts (k a) m') :
    Halts (fun fuel => p fuel >>= fun a => k a fuel) m := by
  obtain ⟨o, ho, N, hN⟩ := hp
  have hbind : ∀ fuel, N ≤ fuel → (p fuel >>= fun a => k a fuel) m =
      match o with
      | .value a m' => k a fuel m'
      | .fault f m' => .fault f m'
      | .outOfFuel => .outOfFuel := by
    intro fuel hfuel
    show Effect.bind (p fuel) _ m = _
    simp only [Effect.bind, hN fuel hfuel]
    cases o <;> rfl
  cases o with
  | value a m' =>
      obtain ⟨o', ho', N', hN'⟩ := hk ⟨ho, N, hN⟩
      refine ⟨o', ho', N + N', fun fuel hfuel => ?_⟩
      exact (hbind fuel (by omega)).trans (hN' fuel (by omega))
  | fault f m' => exact ⟨.fault f m', by simp, N, hbind⟩
  | outOfFuel => exact absurd rfl ho

end Halts

/-! ### What evaluation gives

It is enough to tell the nodes that are grounded from those that are not. -/

/-- A node from which references can be followed, all the way. -/
def Node.Stands (m : Memory) (n : Node) : Prop :=
  n.Exists m ∧ Grounded m n

open Classical in
/-- Two levels: what is grounded, and what is not. -/
noncomputable def depth (m : Memory) (n : Node) : Nat :=
  if Grounded m n then 0 else 1

/-- A memory and what it has become, with all that was grounded. -/
structure Forward (m m' : Memory) : Prop extends Later m m' where
  stands : ∀ {n : Node}, n.Stands m → n.Stands m'

theorem Forward.refl (hs : Sane m) : Forward m m :=
  ⟨.refl hs, fun hn => hn⟩

theorem Forward.trans {m'' : Memory} (h : Forward m m') (h' : Forward m' m'') : Forward m m'' :=
  ⟨h.toLater.trans h'.toLater, fun hn => h'.stands (h.stands hn)⟩

theorem depth_eq_zero {n : Node} (hn : Grounded m n) : depth m n = 0 :=
  if_pos hn

theorem graded_depth : Graded (depth m) m := by
  intro n n' h
  by_cases hn : Grounded m n
  · rw [depth_eq_zero (hn.inv h)]
    exact Nat.zero_le _
  · rw [depth, depth, if_neg hn]
    split <;> omega

theorem solid_depth : Solid (depth m) 0 m := by
  intro n hn
  by_cases h : Grounded m n
  · exact h
  · rw [depth, if_neg h] at hn
    omega

theorem Node.Stands.low {n : Node} (hn : n.Stands m) : Low (depth m) 0 m n :=
  ⟨hn.1, Nat.le_of_eq (depth_eq_zero hn.2)⟩

section Depth

variable {L : Node → Nat} (h : Later m m') (hr : Regrades (depth m) L m m')

include hr

theorem Regrades.stands {n : Node} (hn : Low L 0 m' n) : n.Stands m' :=
  ⟨hn.1, hr.solid 0 solid_depth n hn.2⟩

include h

theorem Regrades.forward : Forward m m' := by
  refine ⟨h, fun {n} hn => hr.stands ⟨h.exists hn.1, ?_⟩⟩
  rw [hr.agree n hn.1]
  exact hn.low.2

end Depth

/-- An operand that refers to what is there and is grounded. -/
abbrev Known (m : Memory) (x : Operand) : Prop :=
  Inside (Node.Stands m) x

abbrev KnownVal (m : Memory) (v : Value) : Prop :=
  InsideVal (Node.Stands m) v

abbrev KnownEnv (m : Memory) (env : Env) : Prop :=
  InsideEnv (Node.Stands m) env

/-- All names are grounded. -/
def Named (m : Memory) : Prop :=
  ∀ x, (Node.name x).Stands m

theorem Known.later (hx : Known m x) (h : Forward m m') : Known m' x :=
  hx.mono fun _ => h.stands

theorem KnownVal.later (hv : KnownVal m v) (h : Forward m m') : KnownVal m' v :=
  hv.mono fun _ => h.stands

theorem KnownEnv.later (henv : KnownEnv m env) (h : Forward m m') : KnownEnv m' env :=
  henv.mono fun _ => h.stands

theorem Named.later (hnames : Named m) (h : Forward m m') : Named m' :=
  fun x => h.stands (hnames x)

theorem KnownVal.ready (hv : KnownVal m v) : Known m (.ready v) :=
  inside_ready.mpr hv

/-- An outcome that is a value, if it is one, as `post` says. -/
def Delivers (policy : Policy) (m : Memory) (post : Memory → α → Prop) : Outcome α → Prop
  | .value a m' => Forward m m' ∧ Allowed policy m m' ∧ post m' a
  | _ => True

theorem Grows.delivers {o : Outcome α} {post : (Node → Nat) → Memory → α → Prop}
    {post' : Memory → α → Prop} (h : Grows policy (depth m) m post o)
    (hpost : ∀ {L m' a}, (∀ n, Low L 0 m' n → n.Stands m') → post L m' a → post' m' a) :
    Delivers policy m post' o := by
  cases o with
  | value a m' =>
      obtain ⟨hl, hallow, L, hr, ha⟩ := h
      exact ⟨hr.forward hl, hallow, hpost (fun _ => hr.stands) ha⟩
  | fault f m' => trivial
  | outOfFuel => trivial

namespace Sane

variable {f : Operand} (hs : Sane m)

include hs

theorem orderly : Orderly (depth m) m :=
  ⟨hs, graded_depth⟩

theorem apply (hf : Known m f) (hx : Known m x) (fuel : Nat) :
    Delivers policy m (fun m' y => Known m' y ∧ m.steps < m'.steps)
      (Machine.apply policy fuel f x m) :=
  ((confined policy fuel).apply hs.orderly (hf.mono fun _ => Node.Stands.low)
    (hx.mono fun _ => Node.Stands.low)).delivers fun hlow h => ⟨h.1.mono hlow, h.2⟩

theorem force (hx : Known m x) (fuel : Nat) :
    Delivers policy m (fun m' v => KnownVal m' v) (Machine.force policy fuel x m) :=
  ((confined policy fuel).force hs.orderly (hx.mono fun _ => Node.Stands.low)).delivers
    fun hlow h => h.mono hlow

theorem run (c : Code) (hc : ∀ p ∈ c.occurrences, (Node.name p).Stands m) (fuel : Nat) :
    Delivers policy m (fun m' y => Known m' y ∧ ((∃ v, y = .ready v) ∨ m.steps < m'.steps))
      (Machine.run policy fuel c m) :=
  ((confined policy fuel).run c hs.orderly fun p hp => (hc p hp).low.2).delivers
    fun hlow h => ⟨h.1.mono hlow, h.2⟩

theorem eval (e : Expr) (henv : KnownEnv m env) (hnames : Named m) (fuel : Nat) :
    Delivers policy m (fun m' v => KnownVal m' v) (Machine.eval policy fuel e env m) :=
  ((confined policy fuel).eval e hs.orderly (henv.mono fun _ => Node.Stands.low)
    fun p => (hnames p).low.2).delivers fun hlow h => h.mono hlow

theorem applyAll {xs : List Operand} (hf : Known m f) (hxs : ∀ x ∈ xs, Known m x) (fuel : Nat) :
    Delivers policy m (fun m' y => Known m' y ∧ (y = f ∨ m.steps < m'.steps))
      (Machine.applyAll policy fuel f xs m) :=
  ((confined policy fuel).applyAll hs.orderly (hf.mono fun _ => Node.Stands.low)
    fun x hx => (hxs x hx).mono fun _ => Node.Stands.low).delivers
      fun hlow h => ⟨h.1.mono hlow, h.2⟩

theorem truthOf (e : Expr) (henv : KnownEnv m env) (hnames : Named m) (fuel : Nat) :
    Delivers policy m (fun _ _ => True) (Machine.truthOf policy fuel e env m) :=
  ((confined policy fuel).truthOf e hs.orderly (henv.mono fun _ => Node.Stands.low)
    fun p => (hnames p).low.2).delivers fun _ h => h

theorem tick : Delivers policy m (fun m' _ => m.steps < m'.steps) (Effect.tick policy m) :=
  (tick_grows hs.orderly).delivers fun _ h => h

theorem delay (policy : Policy) {s : Suspension} (h : ∀ n, s.Occurs n → n.Stands m) :
    Delivers policy m (fun m' x => Known m' x) (Effect.delay s m) :=
  (delay_grows hs.orderly fun n hn => (h n hn).low).delivers fun hlow h => h.mono hlow

theorem delayArgs (policy : Policy) (es : List Expr) (henv : KnownEnv m env) (hnames : Named m) :
    Delivers policy m (fun m' xs => ∀ x ∈ xs, Known m' x) (Machine.delayArgs env es m) :=
  (delayArgs_grows es hs.orderly (henv.mono fun _ => Node.Stands.low)
    fun p => (hnames p).low.2).delivers fun hlow h x hx => (h x hx).mono hlow

theorem forward_push {s : Suspension} (h : ∀ n, s.Occurs n → n.Stands m) : Forward m (m.push s) :=
  ⟨later_push hs fun n hn => (h n hn).1, fun hn => ⟨hn.1.push, hn.2.push hs hn.1⟩⟩

theorem known_new {s : Suspension} (h : ∀ n, s.Occurs n → n.Stands m) :
    Known (m.push s) (.delayed m.cells.size) := by
  refine inside_delayed.mpr ⟨?_, grounded_new hs h⟩
  show m.cells.size < (m.cells.push _).size
  rw [Array.size_push]
  exact Nat.lt_succ_self _

end Sane

/-- An effect, and what comes after it. -/
theorem Halts.andThen {p : Nat → Effect α} {k : α → Nat → Effect β} {post : Memory → α → Prop}
    (hp : Halts p m) (hdelivers : ∀ fuel, Delivers policy m post (p fuel m))
    (hk : ∀ {m' a}, Forward m m' → Allowed policy m m' → post m' a → Halts (k a) m') :
    Halts (fun fuel => p fuel >>= fun a => k a fuel) m := by
  refine hp.bind fun {a m'} hc => ?_
  obtain ⟨hl, hallow, hpost⟩ := hc.of_forall hdelivers
  exact hk hl hallow hpost

/-! ### After a step -/

/-- From this memory every evaluation ends. -/
structure HaltsAt (policy : Policy) (m : Memory) : Prop where
  apply : ∀ {f x}, Known m f → Known m x → Halts (fun fuel => apply policy fuel f x) m
  force : ∀ {x}, Known m x → Halts (fun fuel => force policy fuel x) m
  eval : ∀ {env} (e : Expr), KnownEnv m env → Named m →
    Halts (fun fuel => eval policy fuel e env) m

/-- So it does from what this memory becomes. -/
def Safe (policy : Policy) (m : Memory) : Prop :=
  ∀ m', Forward m m' → Allowed policy m m' → HaltsAt policy m'

/-- So it does once a step has been taken. -/
def Onward (policy : Policy) (m : Memory) : Prop :=
  ∀ m', Sane m' → m.steps < m'.steps → Allowed policy m m' → HaltsAt policy m'

theorem Safe.here (h : Safe policy m) (hs : Sane m) : HaltsAt policy m :=
  h m (.refl hs) .refl

theorem Safe.later (h : Safe policy m) (hl : Forward m m') (hallow : Allowed policy m m') :
    Safe policy m' :=
  fun m'' hl' hallow' => h m'' (hl.trans hl') (hallow.trans hallow' hl'.steps)

theorem Onward.later (h : Onward policy m) (hl : Forward m m') (hallow : Allowed policy m m') :
    Onward policy m' := fun m'' hs hlt hallow' =>
  h m'' hs (Nat.lt_of_le_of_lt hl.steps hlt) (hallow.trans hallow' (Nat.le_of_lt hlt))

theorem Onward.safe (h : Onward policy m) (hallow : Allowed policy m m')
    (hlt : m.steps < m'.steps) : Safe policy m' := fun m'' hl' hallow' =>
  h m'' hl'.sane (Nat.lt_of_lt_of_le hlt hl'.steps) (hallow.trans hallow' hl'.steps)

section Safe

variable {z : Operand} (h : Safe policy m) (hs : Sane m)

include h hs

theorem applyUnary_halts (g : Unary) (hx : Known m x) :
    Halts (fun fuel => applyUnary policy fuel g x) m := by
  refine .succ ?_
  cases g with
  | i => exact .pure x
  | car =>
      refine ((h.here hs).force hx).andThen (hs.force hx) fun {m' v} hl hallow hv => ?_
      have happly := (h m' hl hallow).apply hv.ready (inside_ready.mpr (insideVal_bool (b := true)))
      cases v with
      | cons head tail => exact .pure head
      | _ => exact happly
  | cdr =>
      refine ((h.here hs).force hx).andThen (hs.force hx) fun {m' v} hl hallow hv => ?_
      have happly := (h m' hl hallow).apply hv.ready (inside_ready.mpr (insideVal_bool (b := false)))
      cases v with
      | cons head tail => exact .pure tail
      | _ => exact happly
  | isnil =>
      exact ((h.here hs).force hx).bind fun _ => (Halts.ofExcept _).bind fun _ => .pure _
  | neg =>
      exact ((h.here hs).force hx).bind fun _ => (Halts.ofExcept _).bind fun _ => .pure _

theorem applyBinary_halts (g : Binary) (hx : Known m x) (hy : Known m y) :
    Halts (fun fuel => applyBinary policy fuel g x y) m := by
  refine .succ ?_
  simp only [applyBinary]
  cases g.operator? with
  | none => exact .pure _
  | some op =>
      refine ((h.here hs).force hx).andThen (hs.force hx) fun {m' v} hl hallow _ => ?_
      refine ((h m' hl hallow).force (hy.later hl)).bind fun _ => ?_
      exact (Halts.ofExcept _).bind fun _ => .pure _

theorem applyTernary_halts (g : Ternary) (hx : Known m x) (hy : Known m y) (hz : Known m z) :
    Halts (fun fuel => applyTernary policy fuel g x y z) m := by
  have hyz : ∀ n, (Suspension.apply y z).Occurs n → n.Stands m := by
    rintro n (hn | hn)
    · exact hy n hn
    · exact hz n hn
  refine .succ ?_
  cases g with
  | b =>
      refine (Halts.delay _).andThen (fun _ => hs.delay policy hyz) fun {m' d} hl hallow hd => ?_
      exact (h m' hl hallow).apply (hx.later hl) hd
  | c =>
      refine ((h.here hs).apply hx hz).andThen (hs.apply hx hz) fun {m' w} hl hallow hw => ?_
      exact (h m' hl hallow).apply hw.1 (hy.later hl)
  | s =>
      refine (Halts.delay _).andThen (fun _ => hs.delay policy hyz) fun {m₁ d} h₁ ha₁ hd => ?_
      have hx := hx.later h₁
      have hz := hz.later h₁
      refine ((h m₁ h₁ ha₁).apply hx hz).andThen (h₁.sane.apply hx hz) fun {m₂ w} h₂ ha₂ hw => ?_
      exact (h.later h₁ ha₁ m₂ h₂ ha₂).apply hw.1 (hd.later h₂)

theorem applyAll_halts_of_safe (xs : List Operand) : ∀ {f}, Known m f → (∀ x ∈ xs, Known m x) →
    Halts (fun fuel => applyAll policy fuel f xs) m := by
  induction xs generalizing m with
  | nil => exact fun {f} _ _ => .succ (.pure f)
  | cons x xs ih =>
      intro f hf hxs
      have hx := hxs x List.mem_cons_self
      refine .succ (((h.here hs).apply hf hx).andThen (hs.apply hf hx) fun hl hallow hg => ?_)
      exact ih (h.later hl hallow) hl.sane hg.1 fun z hz =>
        (hxs z (List.mem_cons_of_mem _ hz)).later hl

end Safe

/-! ### Small effects -/

theorem global_halts (p : String) : Halts (fun _ => global p) m := by
  refine .of_eq (o := global p m) ?_ fun _ => rfl
  rw [global]
  split <;> simp

theorem lookup_halts (p : String) : Halts (fun _ => lookup env p) m := by
  cases h : env.lookup p with
  | some x => exact (Halts.pure x).congr fun _ => by rw [lookup, h]; rfl
  | none => exact (global_halts p).congr fun _ => by rw [lookup, h]

theorem tick_halts : Halts (fun _ => tick policy) m := by
  refine .of_eq (o := tick policy m) ?_ fun _ => rfl
  rw [tick]
  split
  · split <;> simp
  · simp

/-! ### Applications

An application takes a step before anything else. -/

section Onward

variable (h : Onward policy m) (hs : Sane m)

include h hs

theorem apply_halts {f : Operand} (hf : Known m f) (hx : Known m x) :
    Halts (fun fuel => apply policy fuel f x) m := by
  refine .succ ?_
  simp only [apply]
  refine tick_halts.andThen (fun _ => hs.tick) fun {m₁ _} h₁ ha₁ hlt => ?_
  have hsafe := h.safe ha₁ hlt
  have hf := hf.later h₁
  refine ((hsafe.here h₁.sane).force hf).andThen (h₁.sane.force hf) fun {m₂ v} h₂ ha₂ hv => ?_
  have hsafe := hsafe.later h₂ ha₂
  have hs := h₂.sane
  have hx := (hx.later h₁).later h₂
  cases v with
  | int n => exact .fail _
  | bool b => cases b <;> exact .pure _
  | cons head tail =>
      obtain ⟨hhead, htail⟩ := insideVal_cons.mp hv
      refine ((hsafe.here hs).apply hx hhead).andThen (hs.apply hx hhead) fun {m₃ g} h₃ ha₃ hg => ?_
      exact (hsafe m₃ h₃ ha₃).apply hg.1 (Known.later htail h₃)
  | unary g => exact applyUnary_halts hsafe hs g hx
  | binary1 g a => exact applyBinary_halts hsafe hs g (insideVal_binary1.mp hv) hx
  | ternary2 g a b =>
      obtain ⟨ha, hb⟩ := insideVal_ternary2.mp hv
      exact applyTernary_halts hsafe hs g ha hb hx
  | closure label env p rest body =>
      obtain ⟨henv, hnames⟩ := insideVal_closure.mp hv
      cases rest with
      | nil => exact ((hsafe.here hs).eval body (henv.cons p hx) hnames).bind fun _ => .pure _
      | cons q rest => exact .pure _
  | _ => exact .pure _

/-- Applying and forcing the result. -/
theorem applyForce_halts {f : Operand} (hf : Known m f) (hx : Known m x) :
    Halts (fun fuel => apply policy fuel f x >>= fun y => force policy fuel y) m := by
  refine (apply_halts h hs hf hx).andThen (hs.apply hf hx) fun {m' y} hl hallow hy => ?_
  exact ((h.safe hallow hy.2).here hl.sane).force hy.1

theorem applyAllForce_halts (xs : List Operand) (hv : KnownVal m v) (hxs : ∀ x ∈ xs, Known m x) :
    Halts (fun fuel => applyAll policy fuel (.ready v) xs >>= fun y => force policy fuel y) m := by
  have happly : Halts (fun fuel => applyAll policy fuel (.ready v) xs) m := by
    cases xs with
    | nil => exact .succ (.pure _)
    | cons x xs =>
        have hx := hxs x List.mem_cons_self
        refine .succ ((apply_halts h hs hv.ready hx).andThen (hs.apply hv.ready hx)
          fun hl hallow hg => ?_)
        exact applyAll_halts_of_safe (h.safe hallow hg.2) hl.sane xs hg.1 fun z hz =>
          (hxs z (List.mem_cons_of_mem _ hz)).later hl
  refine happly.andThen (hs.applyAll hv.ready hxs) fun {m' y} hl hallow hy => ?_
  rcases hy.2 with rfl | hlt
  · exact .succ (.pure v)
  · exact ((h.safe hallow hlt).here hl.sane).force hy.1

theorem run_halts (c : Code) (hc : ∀ p ∈ c.occurrences, (Node.name p).Stands m) :
    Halts (fun fuel => run policy fuel c) m := by
  induction c generalizing m with
  | int n => exact .succ (.pure _)
  | sym x => exact .succ (global_halts x)
  | prim p => exact .succ (.pure _)
  | ap f a ihf _ =>
      have hf : ∀ p ∈ f.occurrences, (Node.name p).Stands m :=
        fun p hp => hc p (List.mem_append_left _ hp)
      refine .succ ((ihf h hs hf).andThen (hs.run f hf) fun {m₁ g} h₁ ha₁ hg => ?_)
      have hcode : ∀ n, (Suspension.code a).Occurs n → n.Stands m₁ := by
        rintro n ⟨p, hp, rfl⟩
        exact h₁.stands (hc p (List.mem_append_right _ hp))
      refine (Halts.delay _).andThen (fun _ => h₁.sane.delay policy hcode)
        fun {m₂ d} h₂ ha₂ hd => ?_
      exact apply_halts ((h.later h₁ ha₁).later h₂ ha₂) h₂.sane (hg.1.later h₂) hd

theorem truth_halts (hv : KnownVal m v) : Halts (fun fuel => truth policy fuel v) m := by
  have hprobed : ∀ {k : Value → Effect Bool}, (∀ {m'} w, Halts (fun _ => k w) m') →
      Halts (fun fuel => do
        let g ← apply policy fuel (.ready v) (.ready (.probe true))
        let r ← apply policy fuel g (.ready (.probe false))
        let w ← force policy fuel r
        k w) m := by
    intro k hk
    have hprobe : ∀ {m' : Memory} (first : Bool), Known m' (.ready (.probe first)) :=
      fun _ => inside_ready.mpr insideVal_probe
    refine (apply_halts h hs hv.ready (hprobe true)).andThen (hs.apply hv.ready (hprobe true))
      fun {m₁ g} h₁ ha₁ hg => ?_
    have hsafe := h.safe ha₁ hg.2
    refine ((hsafe.here h₁.sane).apply hg.1 (hprobe false)).andThen
      (h₁.sane.apply hg.1 (hprobe false)) fun {m₂ r} h₂ ha₂ hr => ?_
    exact ((hsafe m₂ h₂ ha₂).force hr.1).bind fun _ => hk _
  refine .succ ?_
  cases v with
  | bool b => exact .pure b
  | int => exact .fail _
  | nil => exact .fail _
  | cons => exact .fail _
  | probe => exact .fail _
  | _ =>
      refine hprobed fun w => ?_
      cases w with
      | probe first => exact .pure first
      | _ => exact .fail _

end Onward

/-! ### Forcing -/

/-- An operand that can be forced now and as long as no step is taken. -/
def Fine (policy : Policy) (m : Memory) (x : Operand) : Prop :=
  ∀ m', Forward m m' → Allowed policy m m' → Halts (fun fuel => force policy fuel x) m'

theorem Fine.later (hx : Fine policy m x) (hl : Forward m m') (hallow : Allowed policy m m') :
    Fine policy m' x :=
  fun m'' hl' hallow' => hx m'' (hl.trans hl') (hallow.trans hallow' hl'.steps)

theorem fine_ready (v : Value) : Fine policy m (.ready v) :=
  fun _ _ _ => .succ (.pure v)

/-- A suspended computation can be forced if it can be run, and its outcome can be forced. -/
theorem force_halts_of_resume {a : Nat} {s : Suspension} (ha : m.cells[a]? = some (.pending s))
    (hresume : Halts (fun fuel => resume policy fuel s) m)
    (hforce : ∀ {y m'}, Converges (fun fuel => resume policy fuel s) m (.value y m') →
      Halts (fun fuel => force policy fuel y) (m'.keep policy a (.done y))) :
    Halts (fun fuel => force policy fuel (.delayed a)) m := by
  obtain ⟨o, ho, N, hN⟩ := hresume
  have heq : ∀ fuel, N ≤ fuel → resume policy fuel s m = o := hN
  cases o with
  | outOfFuel => exact absurd rfl ho
  | fault e m' =>
      refine .succ ⟨.fault e (m'.keep policy a (.failed e)), by simp, N, fun fuel hfuel => ?_⟩
      show force policy (fuel + 1) (.delayed a) m = _
      rw [force_pending policy fuel ha, heq fuel hfuel]
  | value y m' =>
      obtain ⟨o', ho', N', hN'⟩ := hforce ⟨ho, N, hN⟩
      refine .succ ⟨o', ho', N + N', fun fuel hfuel => ?_⟩
      show force policy (fuel + 1) (.delayed a) m = _
      rw [force_pending policy fuel ha, heq fuel (by omega)]
      exact hN' fuel (by omega)

/-- A suspended computation that can be run can be forced. -/
theorem force_pending_halts (h : Onward policy m) (hs : Sane m) {a : Nat} {s : Suspension}
    (ha : m.cells[a]? = some (.pending s)) (hground : Grounded m (.addr a))
    (hresume : Halts (fun fuel => resume policy fuel s) m) :
    Halts (fun fuel => force policy fuel (.delayed a)) m := by
  refine force_halts_of_resume ha hresume fun {y m'} hc => ?_
  obtain ⟨-, N, hN⟩ := hc
  obtain ⟨hl, hallow, hready, L', hr, hy⟩ :=
    (confined policy N).keep hs.orderly ha (hN N (Nat.le_refl N))
  rw [depth_eq_zero hground] at hy
  rcases hready with ⟨v, rfl⟩ | hlt
  · exact .succ (.pure v)
  · have hlt : m.steps < (m'.keep policy a (.done y)).steps := by rwa [Memory.keep_steps]
    exact (h _ hl.sane hlt hallow).force (hy.mono fun _ => hr.stands)

/-- Forcing an address later on, unless its cell is as it was. -/
theorem force_later (h : Onward policy m) {a : Nat} (ha : (Node.addr a).Stands m) (hl : Forward m m')
    (hallow : Allowed policy m m')
    (hsame : m'.cells[a]? = m.cells[a]? → Halts (fun fuel => force policy fuel (.delayed a)) m') :
    Halts (fun fuel => force policy fuel (.delayed a)) m' := by
  by_cases hlt : m.steps < m'.steps
  · exact (h m' hl.sane hlt hallow).force (inside_delayed.mpr (hl.stands ha))
  · have hsteps : m'.steps = m.steps := Nat.le_antisymm (Nat.not_lt.mp hlt) hl.steps
    rcases hl.calm hsteps a ha.1 with heq | ⟨c, hc, hsettled⟩
    · exact hsame heq
    · cases c with
      | pending s => exact hsettled.elim
      | failed e => exact .succ (.of_eq (by simp) fun fuel => force_failed policy fuel hc)
      | done y =>
          cases y with
          | delayed b => exact hsettled.elim
          | ready v =>
              have hready : Halts (fun fuel => force policy fuel (.ready v)) m' := .succ (.pure v)
              exact .succ (.congr hready fun fuel => force_done policy fuel hc)

/-! ### Expressions -/

/-- What it takes to evaluate in an environment. -/
structure Workable (policy : Policy) (m : Memory) (env : Env) : Prop where
  onward : Onward policy m
  sane : Sane m
  known : KnownEnv m env
  named : Named m
  fine : ∀ q ∈ env, Fine policy m q.2

namespace Workable

theorem later (h : Workable policy m env) (hl : Forward m m') (hallow : Allowed policy m m') :
    Workable policy m' env :=
  ⟨h.onward.later hl hallow, hl.sane, h.known.later hl, h.named.later hl,
    fun q hq => (h.fine q hq).later hl hallow⟩

theorem cons (h : Workable policy m env) (p : String) (hx : Known m x) (hfine : Fine policy m x) :
    Workable policy m ((p, x) :: env) := by
  refine ⟨h.onward, h.sane, h.known.cons p hx, h.named, fun q hq => ?_⟩
  rcases List.mem_cons.mp hq with rfl | hq
  · exact hfine
  · exact h.fine q hq

theorem occurs (h : Workable policy m env) (e : Expr) (n : Node)
    (hn : (Suspension.expr e env).Occurs n) : n.Stands m := by
  rcases hn with ⟨q, hq, hn⟩ | ⟨x, rfl⟩
  · exact h.known q hq n hn
  · exact h.named x

theorem function (h : Workable policy m env) (p : String) (ps : List String) (b : Expr) :
    Known m (.ready (.function env p ps b)) :=
  inside_ready.mpr (insideVal_closure.mpr ⟨h.known, h.named⟩)

/-- A name stands for something that can be forced: in the environment everything can, and
elsewhere names stand for values. -/
theorem lookup (h : Workable policy m env) {p : String}
    (heq : Effect.lookup env p m = .value x m') : m' = m ∧ Fine policy m x := by
  rw [Effect.lookup] at heq
  cases hlookup : env.lookup p with
  | some y =>
      rw [hlookup] at heq
      obtain ⟨rfl, rfl⟩ := Outcome.value.inj heq
      exact ⟨rfl, h.fine (p, y) (Env.mem_of_lookup hlookup)⟩
  | none =>
      rw [hlookup] at heq
      simp only [global] at heq
      cases hglobal : m.globals.lookup p with
      | none =>
          rw [hglobal] at heq
          cases heq
      | some y =>
          rw [hglobal] at heq
          obtain ⟨rfl, rfl⟩ := Outcome.value.inj heq
          obtain ⟨v, rfl⟩ := h.sane.ready hglobal
          exact ⟨rfl, fine_ready v⟩

/-- An expression suspended in the environment can be forced, if it can be evaluated there. -/
theorem fine_push {e : Expr} (h : Workable policy m env)
    (heval : ∀ {m'}, Workable policy m' env → Halts (fun fuel => eval policy fuel e env) m') :
    Fine policy (m.push (.expr e env)) (.delayed m.cells.size) := by
  have hpush : Forward m (m.push (.expr e env)) := h.sane.forward_push (h.occurs e)
  have hcell : (m.push (.expr e env)).cells[m.cells.size]? = some (.pending (.expr e env)) :=
    Array.getElem?_push_size
  have hstands := inside_delayed.mp (h.sane.known_new (h.occurs e))
  have h := h.later hpush .refl
  intro m' hl hallow
  refine force_later h.onward hstands hl hallow fun hsame => ?_
  refine force_pending_halts (h.onward.later hl hallow) hl.sane (hsame.trans hcell)
    (hl.stands hstands).2 ?_
  exact .succ ((heval (h.later hl hallow)).bind fun _ => .pure _)

end Workable

theorem delayList_halts (es : List Expr) : Halts (fun _ => delayList env es) m := by
  induction es with
  | nil => exact .pure _
  | cons e es ih => exact ih.bind fun _ => (Halts.delay _).bind fun _ => .pure _

theorem delayArgs_halts (es : List Expr) : Halts (fun _ => delayArgs env es) m := by
  induction es generalizing m with
  | nil => exact .pure _
  | cons e es ih => exact (Halts.delay _).bind fun _ => ih.bind fun _ => .pure _

theorem truthOf_halts {e : Expr} (h : Workable policy m env)
    (heval : Halts (fun fuel => eval policy fuel e env) m) :
    Halts (fun fuel => truthOf policy fuel e env) m :=
  .succ (heval.andThen (h.sane.eval e h.known h.named) fun hl hallow hv =>
    truth_halts (h.onward.later hl hallow) hl.sane hv)

theorem eval_halts : ∀ (e : Expr) {m : Memory} {env : Env}, Workable policy m env →
    Halts (fun fuel => eval policy fuel e env) m
  | .int n, m, env, h => .succ (.pure _)
  | .bool b, m, env, h => .succ (.pure _)
  | .prim p, m, env, h => .succ (.pure _)
  | .func p ps b, m, env, h => .succ (.pure _)
  | .list es, m, env, h => .succ (delayList_halts es)
  | .sym x, m, env, h => by
      refine .succ ((lookup_halts x).bind fun {y m'} hc => ?_)
      obtain ⟨-, N, heq⟩ := hc
      obtain ⟨rfl, hfine⟩ := h.lookup (heq N (Nat.le_refl N))
      exact hfine _ (.refl h.sane) .refl
  | .neg a, m, env, h => by
      refine .succ ((eval_halts a h).andThen (h.sane.eval a h.known h.named)
        fun {m' v} hl hallow hv => ?_)
      have hneg : Known m' (.ready (.unary .neg)) := inside_ready.mpr insideVal_unary
      exact applyForce_halts (h.onward.later hl hallow) hl.sane hneg hv.ready
  | .not a, m, env, h =>
      .succ ((truthOf_halts h (eval_halts a h)).bind fun _ => .pure _)
  | .isNil a, m, env, h => .succ ((eval_halts a h).bind fun _ => .ofExcept _)
  | .binary op a b, m, env, h => by
      have hoperation : ∀ op : BinOp, Halts (fun fuel => (do
          let v ← Machine.eval policy fuel a env
          let w ← Machine.eval policy fuel b env
          Effect.ofExcept (arith op v w) : Effect Value)) m := by
        intro op
        refine (eval_halts a h).andThen (h.sane.eval a h.known h.named) fun hl hallow _ => ?_
        exact (eval_halts b (h.later hl hallow)).bind fun _ => .ofExcept _
      have hsecond : ∀ {m'}, Forward m m' → Allowed policy m m' → Halts (fun fuel => (do
          let t ← Machine.truthOf policy fuel b env
          pure (.bool t) : Effect Value)) m' := fun hl hallow =>
        have h := h.later hl hallow
        (truthOf_halts h (eval_halts b h)).bind fun _ => .pure _
      have hfirst := truthOf_halts h (eval_halts a h)
      refine .succ ?_
      cases op with
      | and =>
          refine hfirst.andThen (h.sane.truthOf a h.known h.named) fun {m' t} hl hallow _ => ?_
          cases t with
          | true => exact hsecond hl hallow
          | false => exact .pure _
      | or =>
          refine hfirst.andThen (h.sane.truthOf a h.known h.named) fun {m' t} hl hallow _ => ?_
          cases t with
          | true => exact .pure _
          | false => exact hsecond hl hallow
      | _ => exact hoperation _
  | .cond test yes no, m, env, h => by
      have htest := truthOf_halts h (eval_halts test h)
      refine .succ (htest.andThen (h.sane.truthOf test h.known h.named) fun {m' t} hl hallow _ => ?_)
      cases t with
      | true => exact eval_halts yes (h.later hl hallow)
      | false => exact eval_halts no (h.later hl hallow)
  | .matchList value empty p q b, m, env, h => by
      refine .succ ((eval_halts value h).andThen (h.sane.eval value h.known h.named)
        fun {m' v} hl hallow hv => ?_)
      have h := h.later hl hallow
      have happly := applyForce_halts h.onward hl.sane hv.ready (h.function p [q] b)
      cases v with
      | nil => exact eval_halts empty h
      | _ => exact happly
  | .letCons p q value b, m, env, h => by
      refine .succ ((eval_halts value h).andThen (h.sane.eval value h.known h.named)
        fun {m' v} hl hallow hv => ?_)
      have h := h.later hl hallow
      exact applyForce_halts h.onward hl.sane hv.ready (h.function p [q] b)
  | .letIn x value b, m, env, h => by
      have hfine := h.fine_push fun h' => eval_halts value h'
      have hpush : Forward m (m.push (.expr value env)) := h.sane.forward_push (h.occurs value)
      have hknown := h.sane.known_new (h.occurs value)
      refine .succ (.congr (eval_halts b ((h.later hpush .refl).cons x hknown hfine)) ?_)
      exact fun _ => rfl
  | .call f args, m, env, h => by
      refine .succ ((eval_halts f h).andThen (h.sane.eval f h.known h.named)
        fun {m₁ g} h₁ ha₁ hg => ?_)
      have h := h.later h₁ ha₁
      refine (delayArgs_halts args).andThen (fun _ => h.sane.delayArgs policy args h.known h.named)
        fun {m₂ xs} h₂ ha₂ hxs => ?_
      exact applyAllForce_halts (h.onward.later h₂ ha₂) h₂.sane xs (hg.later h₂) hxs

/-! ### The three inductions -/

/-- As long as no step is taken, forcing an address only moves on to what its cell refers to. -/
theorem force_delayed_halts (h : Onward policy m) (hs : Sane m) {a : Nat}
    (ha : (Node.addr a).Stands m) : Fine policy m (.delayed a) := by
  have hacc : Acc (fun n' n => Mentions m n n') (.addr a) := ha.2
  generalize hn : Node.addr a = n at hacc
  induction hacc generalizing a with
  | intro n _ ih =>
      subst hn
      obtain ⟨c, hc⟩ : ∃ c, m.cells[a]? = some c := ⟨_, Array.getElem?_eq_getElem ha.1⟩
      have hknown : ∀ {n}, c.Occurs n → n.Stands m := by
        intro n hn
        have hmentions : Mentions m (.addr a) n := ⟨c, hc, hn⟩
        exact ⟨hs.bounded hmentions, ha.2.inv hmentions⟩
      have hnext : ∀ {x}, (∀ n, Occurs n x → c.Occurs n) → Fine policy m x := by
        intro x hx
        cases x with
        | ready v => exact fine_ready v
        | delayed b =>
            have hb : c.Occurs (.addr b) := hx _ (.delayed rfl)
            exact ih (.addr b) ⟨c, hc, hb⟩ (hknown hb) rfl
      intro m' hl hallow
      refine force_later h ha hl hallow fun hsame => ?_
      have hc' : m'.cells[a]? = some c := hsame.trans hc
      have honward := h.later hl hallow
      cases c with
      | failed f => exact .succ (.of_eq (by simp) fun fuel => force_failed policy fuel hc')
      | done y =>
          have hy : Fine policy m y := hnext fun _ hn => hn
          exact .succ (.congr (hy m' hl hallow) fun fuel => force_done policy fuel hc')
      | pending s =>
          refine force_pending_halts honward hl.sane hc' (hl.stands ha).2 (.succ ?_)
          cases s with
          | code c =>
              refine run_halts honward hl.sane c fun p hp => ?_
              exact hl.stands (hknown ⟨p, hp, rfl⟩)
          | apply f x =>
              refine apply_halts honward hl.sane ?_ ?_
              · exact fun n hn => hl.stands (hknown (.inl hn))
              · exact fun n hn => hl.stands (hknown (.inr hn))
          | expr e env =>
              have hwork : Workable policy m env :=
                ⟨h, hs, fun q hq n hn => hknown (.inl ⟨q, hq, hn⟩), fun p => hknown (.inr ⟨p, rfl⟩),
                  fun q hq => hnext fun n hn => .inl ⟨q, hq, hn⟩⟩
              exact (eval_halts e (hwork.later hl hallow)).bind fun _ => .pure _

theorem fine_of_known (h : Onward policy m) (hs : Sane m) (hx : Known m x) : Fine policy m x := by
  cases x with
  | ready v => exact fine_ready v
  | delayed a => exact force_delayed_halts h hs (inside_delayed.mp hx)

theorem haltsAt_of_onward (h : Onward policy m) (hs : Sane m) : HaltsAt policy m where
  apply hf hx := apply_halts h hs hf hx
  force hx := fine_of_known h hs hx m (.refl hs) .refl
  eval e henv hnames :=
    eval_halts e ⟨h, hs, henv, hnames, fun q hq => fine_of_known h hs (henv q hq)⟩

/-- With a limit, every evaluation ends. -/
theorem haltsAt {k : Nat} (hlimit : policy.limit = some k) (hs : Sane m) : HaltsAt policy m := by
  -- by induction on the steps that are left
  induction hleft : k + 1 - m.steps using Nat.strongRecOn generalizing m with
  | ind left ih =>
      refine haltsAt_of_onward (fun m' hs' hlt hallow => ?_) hs
      have hle : m'.steps ≤ k := hallow k hlimit hlt
      exact ih (k + 1 - m'.steps) (by omega) hs' rfl

theorem evalExpr_halts {k : Nat} (hlimit : policy.limit = some k) (hs : Sane m)
    (hnames : Named m) (e : Expr) : Halts (fun fuel => evalExpr policy fuel e) m := by
  have henv : KnownEnv m [] := fun q hq => (List.not_mem_nil hq).elim
  exact .congr ((haltsAt hlimit (hs.withSteps 0)).eval e henv hnames) fun _ => rfl

theorem evalCode_halts {k : Nat} (hlimit : policy.limit = some k) (hs : Sane m) (c : Code)
    (hc : ∀ p ∈ c.occurrences, (Node.name p).Stands m) :
    Halts (fun fuel => evalCode policy fuel c) m := by
  have hhalts : ∀ {m'}, Sane m' → HaltsAt policy m' := haltsAt hlimit
  have hs := hs.withSteps 0
  have hrun : Halts (fun fuel => run policy fuel c >>= fun x => force policy fuel x)
      { m with steps := 0 } := by
    refine (run_halts (fun _ hs' _ _ => hhalts hs') hs c hc).andThen (hs.run c hc) fun hl _ hx => ?_
    exact (hhalts hl.sane).force hx.1
  exact .congr hrun fun _ => rfl

end Decombinator.Machine
