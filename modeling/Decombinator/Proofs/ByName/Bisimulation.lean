/-
Two computations that go the same way.

A relation between computations is a bisimulation if related computations ask for related
things and go on alike, up to demands of one of them, which are replaced by what they ask for.
Then both go on for ever, or both fail with the same fault, or both have values of the same form,
which are shown alike.

The demands that are replaced are an inductive part of the relation.  There are finitely many
before anything else happens, so that no computation is related to one that makes such demands
for ever.

Primitive operations on related values go the same way whatever the relation, as long as it is
compatible with application and related values have the same form.
-/
import Decombinator.Proofs.ByName.Verdict

namespace Decombinator.ByName

open Machine

/-! ### Steps -/

/-- Computations that ask for what `R` relates and return what `V` relates. -/
inductive Paired (Γ : Globals) (R : Arg → Arg → Prop) (V : Val → Val → Prop) : Next → Next → Prop
  | ret {v v' : Val} (hv : V v v') : Paired Γ R V (.ret v) (.ret v')
  | stuck (f : Fault) : Paired Γ R V (.stuck f) (.stuck f)
  | need {x x' : Arg} {k k' : Val → Next} (hx : R x x')
      (hk : ∀ v v', V v v' → Paired Γ R V (k v) (k' v')) : Paired Γ R V (.need x k) (.need x' k')
  | inlineLeft {x : Arg} {k : Val → Next} {n : Next} (h : Paired Γ R V ((next Γ x).bind k) n) :
      Paired Γ R V (.need x k) n
  | inlineRight {n : Next} {x : Arg} {k : Val → Next} (h : Paired Γ R V n ((next Γ x).bind k)) :
      Paired Γ R V n (.need x k)

theorem Next.bind_ret (n : Next) : n.bind .ret = n := by
  induction n with
  | need x k ih => exact congrArg (Next.need x) (funext ih)
  | _ => rfl

theorem Next.bind_assoc (n : Next) (k k' : Val → Next) :
    (n.bind k).bind k' = n.bind fun v => (k v).bind k' := by
  induction n with
  | need x _ ih => exact congrArg (Next.need x) (funext ih)
  | _ => rfl

/-- Related values, or the same fault. -/
inductive Agrees (V : Val → Val → Prop) : Except Fault Val → Except Fault Val → Prop
  | ok {v v' : Val} (hv : V v v') : Agrees V (.ok v) (.ok v')
  | error (f : Fault) : Agrees V (.error f) (.error f)

variable {Γ : Globals} {R : Arg → Arg → Prop} {V : Val → Val → Prop} {L : String → String → Prop}
  {x x' : Arg} {v v' : Val}

namespace Paired

variable {n n' : Next}

theorem of (hx : R x x') : Paired Γ R V (.of x) (.of x') :=
  .need hx fun _ _ hv => .ret hv

theorem left (h : Paired Γ R V (next Γ x) n) : Paired Γ R V (.of x) n :=
  .inlineLeft ((Next.bind_ret _).symm ▸ h)

theorem right (h : Paired Γ R V n (next Γ x)) : Paired Γ R V n (.of x) :=
  .inlineRight ((Next.bind_ret _).symm ▸ h)

theorem bind {k k' : Val → Next} (h : Paired Γ R V n n')
    (hk : ∀ v v', V v v' → Paired Γ R V (k v) (k' v')) :
    Paired Γ R V (n.bind k) (n'.bind k') := by
  induction h with
  | ret hv => exact hk _ _ hv
  | stuck f => exact .stuck f
  | need hx _ ih => exact .need hx ih
  | inlineLeft _ ih =>
      rw [Next.bind_assoc] at ih
      exact .inlineLeft ih
  | inlineRight _ ih =>
      rw [Next.bind_assoc] at ih
      exact .inlineRight ih

theorem swap (h : Paired Γ R V n n') : Paired Γ (flip R) (flip V) n' n := by
  induction h with
  | ret hv => exact .ret hv
  | stuck f => exact .stuck f
  | need hx _ ih => exact .need hx fun v v' hv => ih v' v hv
  | inlineLeft _ ih => exact .inlineRight ih
  | inlineRight _ ih => exact .inlineLeft ih

/-- What one of two paired computations ends in, the other ends in. -/
theorem concludes (step : ∀ {x x'}, R x x' → Paired Γ R V (next Γ x) (next Γ x')) {c : Nat}
    {r : Except Fault Val} (h : Paired Γ R V n n') (hr : Concludes Γ n c r) :
    ∃ c' r', Concludes Γ n' c' r' ∧ Agrees V r r' := by
  induction c using Nat.strongRecOn generalizing n n' r with
  | _ c ih =>
      -- only the demands of the right side leave the cost of the left side as it is
      induction h with
      | ret hv =>
          obtain ⟨rfl, rfl⟩ := concludes_ret.mp hr
          exact ⟨0, _, .ret _, .ok hv⟩
      | stuck f =>
          obtain ⟨rfl, rfl⟩ := concludes_stuck.mp hr
          exact ⟨0, _, .stuck f, .error f⟩
      | need hx hk _ =>
          obtain ⟨c₁, s, c₂, hs, hrest, rfl⟩ := concludes_need.mp hr
          obtain ⟨c₁', s', hs', hagree⟩ := ih c₁ (by omega) (step hx) hs
          cases hagree with
          | ok hv =>
              obtain ⟨c₂', r', hr', hagree⟩ := ih c₂ (by omega) (hk _ _ hv) hrest
              exact ⟨_, r', .need hs' hr', hagree⟩
          | error f =>
              obtain ⟨rfl, rfl⟩ := concludes_stuck.mp hrest
              exact ⟨_, _, .need hs' (.stuck f), .error f⟩
      | inlineLeft h _ =>
          obtain ⟨c₁, s, c₂, hs, hrest, rfl⟩ := concludes_need.mp hr
          exact ih (c₁ + c₂) (by omega) h (concludes_bind.mpr ⟨c₁, s, c₂, hs, hrest, rfl⟩)
      | inlineRight _ ihright =>
          obtain ⟨c', r', hr', hagree⟩ := ihright hr
          obtain ⟨c₁, s, c₂, hs, hrest, rfl⟩ := concludes_bind.mp hr'
          exact ⟨_, r', .need hs hrest, hagree⟩

end Paired

/-! ### Bisimulations -/

/-- Values of the same form.  Functions may differ in what they are shown as, as far as `L` says. -/
inductive Form (L : String → String → Prop) (R : Arg → Arg → Prop) : Val → Val → Prop
  | int (n : Int64) : Form L R (.int n) (.int n)
  | bool (b : Bool) : Form L R (.bool b) (.bool b)
  | nil : Form L R .nil .nil
  | probe (first : Bool) : Form L R (.probe first) (.probe first)
  | cons {h h' t t' : Arg} (hh : R h h') (ht : R t t') : Form L R (.cons h t) (.cons h' t')
  | function {v v' : Val} (hv : v.isFunction) (hv' : v'.isFunction) (hl : L v.label v'.label) :
      Form L R v v'

/-- Relations between computations and between values that go together with application and
with data. -/
structure Compatible (L : String → String → Prop) (R : Arg → Arg → Prop) (V : Val → Val → Prop) :
    Prop where
  ready : ∀ {v v'}, V v v' → R (.ready v) (.ready v')
  apply : ∀ {f f' x x'}, R f f' → R x x' → R (.apply f x) (.apply f' x')
  int : ∀ n, V (.int n) (.int n)
  bool : ∀ b, V (.bool b) (.bool b)
  nil : V .nil .nil
  probe : ∀ first, V (.probe first) (.probe first)
  cons : ∀ {h h' t t'}, R h h' → R t t' → V (.cons h t) (.cons h' t')
  form : ∀ {v v'}, V v v' → Form L R v v'

/-- Relations between computations and between values that no step leaves. -/
structure Bisimulation (Γ : Globals) (L : String → String → Prop) (R : Arg → Arg → Prop)
    (V : Val → Val → Prop) : Prop extends Compatible L R V where
  step : ∀ {x x'}, R x x' → Paired Γ R V (next Γ x) (next Γ x')

theorem Form.swap (h : Form L R v v') : Form (flip L) (flip R) v' v := by
  cases h with
  | int n => exact .int n
  | bool b => exact .bool b
  | nil => exact .nil
  | probe first => exact .probe first
  | cons hh ht => exact .cons hh ht
  | function hv hv' hl => exact .function hv' hv hl

theorem Form.isFunction_eq (h : Form L R v v') : v.isFunction = v'.isFunction := by
  cases h with
  | function hv hv' _ => rw [hv, hv']
  | _ => rfl

theorem Form.nil_iff (h : Form L R v v') : v = .nil ↔ v' = .nil := by
  cases h with
  | nil => exact iff_of_true rfl rfl
  | function hv hv' _ =>
      refine iff_of_false (fun he => ?_) fun he => ?_
      · subst he
        cases hv
      · subst he
        cases hv'
  | _ => simp

theorem Form.ne_cons (h : Form L R v v') (hv : ∀ hd tl, v ≠ .cons hd tl) (hd tl : Arg) :
    v' ≠ .cons hd tl := by
  rintro rfl
  cases h with
  | cons hh ht => exact hv _ _ rfl
  | function _ hv' _ => cases hv'

theorem Val.tag_of_isFunction (hv : v.isFunction) : v.tag = .function := by
  cases v with
  | int | bool | nil | cons | probe => cases hv
  | _ => rfl

theorem Form.tag_eq (h : Form L R v v') : v.tag = v'.tag := by
  cases h with
  | function hv hv' _ => rw [Val.tag_of_isFunction hv, Val.tag_of_isFunction hv']
  | _ => rfl

theorem Form.int_of_tag (h : Form L R v v') (hv : v.tag = .int) :
    ∃ n, v = .int n ∧ v' = .int n := by
  cases h with
  | int n => exact ⟨n, rfl, rfl⟩
  | function hfun _ _ =>
      rw [Val.tag_of_isFunction hfun] at hv
      cases hv
  | _ => cases hv

/-! ### Primitive operations -/

theorem arith_of_tag {w : Val} {op : BinOp} (h : ¬ (v.tag = .int ∧ w.tag = .int)) :
    arith op v w = .stuck (.expectedIntegers op v.tag w.tag) := by
  cases v with
  | int m =>
      cases w with
      | int n => exact absurd ⟨rfl, rfl⟩ h
      | _ => rfl
  | _ => rfl

theorem testNil_of_isFunction (hv : v.isFunction) :
    testNil v = .stuck (.expectedList .function) := by
  cases v with
  | int | bool | nil | cons | probe => cases hv
  | _ => rfl

theorem negate_of_isFunction (hv : v.isFunction) :
    negate v = .stuck (.expectedInteger .function) := by
  cases v with
  | int | bool | nil | cons | probe => cases hv
  | _ => rfl

namespace Compatible

variable {w w' : Val} {y y' z z' : Arg}

theorem swap (b : Compatible L R V) : Compatible (flip L) (flip R) (flip V) where
  ready h := b.ready h
  apply hf hx := b.apply hf hx
  int := b.int
  bool := b.bool
  nil := b.nil
  probe := b.probe
  cons hh ht := b.cons hh ht
  form h := (b.form h).swap

theorem data (b : Compatible L R V) (d : Data) : V d.val d.val := by
  induction d with
  | int n => exact b.int n
  | bool t => exact b.bool t
  | nil => exact b.nil
  | cons _ _ ihh iht => exact b.cons (b.ready ihh) (b.ready iht)

/-- A name that stands for data. -/
theorem global (b : Compatible L R V) (Γ : Frame) (x : String) :
    Paired Γ R V (global Γ x) (global Γ x) := by
  rcases Γ.global_cases x with ⟨d, heq⟩ | heq
  · rw [heq]
    exact .of (b.ready (b.data d))
  · rw [heq]
    exact .stuck _

theorem computed (b : Compatible L R V) (r : Except Fault Value) :
    Paired Γ R V (.computed r) (.computed r) := by
  rw [Next.computed.eq_def]
  split
  · exact .ret (b.int _)
  · exact .ret (b.bool _)
  · exact .stuck _
  · exact .stuck _

theorem arith (b : Compatible L R V) (op : BinOp) (hv : V v v') (hw : V w w') :
    Paired Γ R V (arith op v w) (arith op v' w') := by
  have hvtag := (b.form hv).tag_eq
  have hwtag := (b.form hw).tag_eq
  by_cases hint : v.tag = .int ∧ w.tag = .int
  · obtain ⟨m, rfl, rfl⟩ := (b.form hv).int_of_tag hint.1
    obtain ⟨n, rfl, rfl⟩ := (b.form hw).int_of_tag hint.2
    exact b.computed _
  · rw [arith_of_tag hint, arith_of_tag (hvtag ▸ hwtag ▸ hint), hvtag, hwtag]
    exact .stuck _

theorem testNil (b : Compatible L R V) (hv : V v v') :
    Paired Γ R V (testNil v) (testNil v') := by
  cases b.form hv with
  | nil => exact .ret (b.bool true)
  | cons => exact .ret (b.bool false)
  | function hfun hfun' _ =>
      rw [testNil_of_isFunction hfun, testNil_of_isFunction hfun']
      exact .stuck _
  | _ => exact .stuck _

theorem negate (b : Compatible L R V) (hv : V v v') : Paired Γ R V (negate v) (negate v') := by
  cases b.form hv with
  | int n => exact .ret (b.int (-n))
  | function hfun hfun' _ =>
      rw [negate_of_isFunction hfun, negate_of_isFunction hfun']
      exact .stuck _
  | _ => exact .stuck _

theorem appliedUnary (b : Compatible L R V) (g : Unary) (hx : R x x') :
    Paired Γ R V (Val.appliedUnary g x) (Val.appliedUnary g x') := by
  have hselect : ∀ {v v'} (t : Bool), V v v' →
      R (.apply (.ready v) (.ready (.bool t))) (.apply (.ready v') (.ready (.bool t))) :=
    fun t hv => b.apply (b.ready hv) (b.ready (b.bool t))
  cases g with
  | i => exact .of hx
  | car =>
      refine .need hx fun v v' hv => ?_
      have happly := hselect true hv
      cases b.form hv with
      | cons hh _ => exact .of hh
      | function hfun hfun' _ =>
          cases v with
          | cons => cases hfun
          | _ =>
              cases v' with
              | cons => cases hfun'
              | _ => exact .of happly
      | _ => exact .of happly
  | cdr =>
      refine .need hx fun v v' hv => ?_
      have happly := hselect false hv
      cases b.form hv with
      | cons _ ht => exact .of ht
      | function hfun hfun' _ =>
          cases v with
          | cons => cases hfun
          | _ =>
              cases v' with
              | cons => cases hfun'
              | _ => exact .of happly
      | _ => exact .of happly
  | isnil => exact .need hx fun _ _ hv => b.testNil hv
  | neg => exact .need hx fun _ _ hv => b.negate hv

theorem appliedBinary (b : Compatible L R V) (g : Binary) (hx : R x x') (hy : R y y') :
    Paired Γ R V (Val.appliedBinary g x y) (Val.appliedBinary g x' y') := by
  rw [Val.appliedBinary, Val.appliedBinary]
  cases g.operator? with
  | none => exact .ret (b.cons hx hy)
  | some op => exact .need hx fun _ _ hv => .need hy fun _ _ hw => b.arith op hv hw

theorem appliedTernary (b : Compatible L R V) (g : Ternary) (hx : R x x') (hy : R y y')
    (hz : R z z') : Paired Γ R V (Val.appliedTernary g x y z) (Val.appliedTernary g x' y' z') := by
  cases g with
  | b => exact .of (b.apply hx (b.apply hy hz))
  | c => exact .of (b.apply (b.apply hx hz) hy)
  | s => exact .of (b.apply (b.apply hx hz) (b.apply hy hz))

/-- Related values are the same boolean, or none. -/
theorem truth (b : Compatible L R V) (h : V v v') : Paired Γ R V (truth v) (truth v') := by
  cases b.form h with
  | bool t => exact .ret (b.bool t)
  | function hv hv' _ =>
      rw [truth_function hv, truth_function hv']
      have hprobe := fun first => b.ready (b.probe first)
      refine .need (b.apply (b.apply (b.ready h) (hprobe true)) (hprobe false)) fun w w' hw => ?_
      cases b.form hw with
      | probe first => exact .ret (b.bool first)
      | function hw hw' _ =>
          cases w with
          | probe => cases hw
          | _ =>
              cases w' with
              | probe => cases hw'
              | _ => exact .stuck .notBoolean
      | _ => exact .stuck .notBoolean
  | _ => exact .stuck _

theorem truthOf (b : Compatible L R V) {e e' : Expr} {ρ ρ' : Scope}
    (h : R (.expr e ρ) (.expr e' ρ')) : Paired Γ R V (truthOf e ρ) (truthOf e' ρ') :=
  .need h fun _ _ hv => b.truth hv

theorem branch (b : Compatible L R V) {yes yes' no no' : Next} (hyes : Paired Γ R V yes yes')
    (hno : Paired Γ R V no no') (hv : V v v') :
    Paired Γ R V (.branch yes no v) (.branch yes' no' v') := by
  cases b.form hv with
  | bool t =>
      cases t with
      | true => exact hyes
      | false => exact hno
  | function hfun hfun' _ =>
      cases v with
      | bool => cases hfun
      | _ =>
          cases v' with
          | bool => cases hfun'
          | _ => exact .stuck .notBoolean
  | _ => exact .stuck .notBoolean

end Compatible

/-- Texts that differ only in the names of functions, as far as `L` says. -/
inductive Alike (L : String → String → Prop) : String → String → Prop
  | same (t : String) : Alike L t t
  | function {f g : String} (h : L f g) : Alike L ("<" ++ f ++ ">") ("<" ++ g ++ ">")
  | append {s s' t t' : String} (hs : Alike L s s') (ht : Alike L t t') :
      Alike L (s ++ t) (s' ++ t')

theorem Alike.intercalate (sep : String) {ts ts' : List String}
    (h : List.Forall₂ (Alike L) ts ts') :
    Alike L (String.intercalate sep ts) (String.intercalate sep ts') := by
  induction h with
  | nil => exact .same _
  | cons ht hts ih =>
      cases hts with
      | nil => simpa using ht
      | cons _ _ =>
          rw [String.intercalate_cons_cons, String.intercalate_cons_cons]
          exact (ht.append (.same sep)).append ih

theorem Alike.eq {t t' : String} (h : Alike Eq t t') : t = t' := by
  induction h with
  | same t => rfl
  | function h => rw [h]
  | append _ _ ihs iht => rw [ihs, iht]

namespace Bisimulation

theorem swap (b : Bisimulation Γ L R V) : Bisimulation Γ (flip L) (flip R) (flip V) where
  toCompatible := b.toCompatible.swap
  step h := (b.step h).swap

theorem evals (b : Bisimulation Γ L R V) (hx : R x x') (h : Evals Γ x v) :
    ∃ v', Evals Γ x' v' ∧ V v v' := by
  obtain ⟨c, hv⟩ := h
  obtain ⟨c', r', hr', hagree⟩ := (b.step hx).concludes b.step hv
  cases hagree with
  | ok hv => exact ⟨_, ⟨c', hr'⟩, hv⟩

theorem raises (b : Bisimulation Γ L R V) {f : Fault} {n n' : Next} (hn : Paired Γ R V n n')
    (h : Raises Γ n f) : Raises Γ n' f := by
  obtain ⟨c, hf⟩ := h
  obtain ⟨c', r', hr', hagree⟩ := hn.concludes b.step hf
  cases hagree
  exact ⟨c', hr'⟩

/-! ### Texts -/

theorem spine (b : Bisimulation Γ L R V) {items : List Arg} (h : Spine Γ x items v) (hx : R x x') :
    ∃ items' v', Spine Γ x' items' v' ∧ List.Forall₂ R items items' ∧ V v v' := by
  induction h generalizing x' with
  | last hv hcons =>
      obtain ⟨v', hv', hvv⟩ := b.evals hx hv
      exact ⟨[], v', .last hv' ((b.form hvv).ne_cons hcons), .nil, hvv⟩
  | cons hv _ ih =>
      obtain ⟨v', hv', hvv⟩ := b.evals hx hv
      cases b.form hvv with
      | cons hh ht =>
          obtain ⟨items', w, hspine, hitems, hw⟩ := ih ht
          exact ⟨_, w, .cons hv' hspine, .cons hh hitems, hw⟩
      | function hfun _ _ => cases hfun

theorem breaks (b : Bisimulation Γ L R V) {f : Fault} (h : Breaks Γ x f) (hx : R x x') :
    Breaks Γ x' f := by
  induction h generalizing x' with
  | here hf => exact .here (b.raises (b.step hx) hf)
  | tail hv _ ih =>
      obtain ⟨v', hv', hvv⟩ := b.evals hx hv
      cases b.form hvv with
      | cons _ ht => exact .tail hv' (ih ht)
      | function hfun _ _ => cases hfun

theorem prints (b : Bisimulation Γ L R V) {t : String} (h : Prints Γ v t) (hv : V v v') :
    ∃ t', Prints Γ v' t' ∧ Alike L t t' := by
  have hform := b.form hv
  have hisFunction := hform.isFunction_eq
  cases h with
  | int n =>
      cases hform with
      | int => exact ⟨_, .int n, .same _⟩
      | function hfun _ _ => cases hfun
  | bool t =>
      cases hform with
      | bool => exact ⟨_, .bool t, .same _⟩
      | function hfun _ _ => cases hfun
  | nil =>
      cases hform with
      | nil => exact ⟨_, .nil, .same _⟩
      | function hfun _ _ => cases hfun
  | probe first =>
      cases hform with
      | probe => exact ⟨_, .probe first, .same _⟩
      | function hfun _ _ => cases hfun
  | boolean hfun hb =>
      obtain ⟨c, hb⟩ := hb
      obtain ⟨c', r', hr', hagree⟩ := (b.truth hv).concludes b.step hb
      cases hagree with
      | ok hw =>
          cases b.form hw with
          | bool t => exact ⟨_, .boolean (hisFunction ▸ hfun) ⟨c', hr'⟩, .same _⟩
          | function hw _ _ => cases hw
  | function hfun hf =>
      have hfails := b.raises (b.truth hv) hf
      have hlabel : L v.label v'.label := by
        cases hform with
        | function _ _ hl => exact hl
        | _ => cases hfun
      exact ⟨_, .function (hisFunction ▸ hfun) hfails, .function hlabel⟩

end Bisimulation

mutual

/-- **Related computations are shown alike.** -/
theorem Displays.alike (b : Bisimulation Γ L R V) {x x' : Arg} {t : String} :
    Displays Γ x t → R x x' → ∃ t', Displays Γ x' t' ∧ Alike L t t'
  | .failure hf, hx => ⟨_, .failure (b.breaks hf hx), .same _⟩
  | .plain hs hv, hx => by
      obtain ⟨items', v', hs', hitems, hvv⟩ := b.spine hs hx
      obtain ⟨t', ht', halike⟩ := b.prints hv hvv
      cases hitems
      exact ⟨t', .plain hs' ht', halike⟩
  | .list hs hys, hx => by
      obtain ⟨items', v', hs', hitems, hvv⟩ := b.spine hs hx
      obtain rfl := (b.form hvv).nil_iff.mp rfl
      obtain ⟨ts', hts', halike⟩ := hys.alike b hitems
      cases hitems
      exact ⟨_, .list hs' hts', ((Alike.same _).append (.intercalate _ halike)).append (.same _)⟩
  | .dotted hs hne hys hv, hx => by
      obtain ⟨items', v', hs', hitems, hvv⟩ := b.spine hs hx
      obtain ⟨t', ht', hlast⟩ := b.prints hv hvv
      obtain ⟨ts', hts', halike⟩ := hys.alike b hitems
      have hne' : v' ≠ .nil := fun he => hne ((b.form hvv).nil_iff.mpr he)
      have helements := (Alike.same "[").append (Alike.intercalate ", " halike)
      cases hitems
      refine ⟨_, .dotted hs' hne' hts' ht', ?_⟩
      exact ((helements.append (.same _)).append hlast).append (.same _)

theorem DisplaysAll.alike (b : Bisimulation Γ L R V) {xs xs' : List Arg} {ts : List String} :
    DisplaysAll Γ xs ts → List.Forall₂ R xs xs' →
      ∃ ts', DisplaysAll Γ xs' ts' ∧ List.Forall₂ (Alike L) ts ts'
  | .nil, h => by
      cases h
      exact ⟨[], .nil, .nil⟩
  | .cons ht hts, h => by
      cases h with
      | cons hx hxs =>
          obtain ⟨t', ht', halike⟩ := ht.alike b hx
          obtain ⟨ts', hts', hall⟩ := hts.alike b hxs
          exact ⟨_, .cons ht' hts', .cons halike hall⟩

end

/-! ### Verdicts -/

/-- The same verdict, up to the names of functions in what is shown. -/
inductive Verdict.Alike (L : String → String → Prop) : Verdict → Verdict → Prop
  | diverges : Alike L .diverges .diverges
  | fails (f : Fault) : Alike L (.fails f) (.fails f)
  | endless : Alike L .endless .endless
  | shown {t t' : String} (h : ByName.Alike L t t') : Alike L (.shown t) (.shown t')

theorem Verdict.Alike.eq {r r' : Verdict} (h : r.Alike Eq r') : r = r' := by
  cases h with
  | shown ht => rw [ht.eq]
  | _ => rfl

/-- **The same comes of related computations.** -/
theorem Bisimulation.means (b : Bisimulation Γ L R V) {r : Verdict} (hr : Means Γ x r)
    (hx : R x x') : ∃ r', Means Γ x' r' ∧ r.Alike L r' := by
  cases hr with
  | diverges hnone =>
      refine ⟨.diverges, .diverges fun c r hr => ?_, .diverges⟩
      obtain ⟨c', r', hr', -⟩ := (b.step hx).swap.concludes (fun h => (b.step h).swap) hr
      exact hnone c' r' hr'
  | fails hf => exact ⟨.fails _, .fails (b.raises (b.step hx) hf), .fails _⟩
  | endless hv hnone =>
      obtain ⟨v', hv', hvv⟩ := b.evals hx hv
      refine ⟨.endless, .endless hv' fun t ht => ?_, .endless⟩
      obtain ⟨t', ht', -⟩ := ht.alike b.swap (b.ready hvv)
      exact hnone t' ht'
  | shown hv ht =>
      obtain ⟨v', hv', hvv⟩ := b.evals hx hv
      obtain ⟨t', ht', halike⟩ := ht.alike b (b.ready hvv)
      exact ⟨.shown t', .shown hv' ht', .shown halike⟩

/-- The very same, if functions are shown as the same. -/
theorem Bisimulation.means_iff (b : Bisimulation Γ Eq R V) {r : Verdict} (hx : R x x') :
    Means Γ x r ↔ Means Γ x' r := by
  refine ⟨fun hr => ?_, fun hr => ?_⟩
  · obtain ⟨r', hr', halike⟩ := b.means hr hx
    exact halike.eq ▸ hr'
  · have hflip : flip Eq = (Eq : String → String → Prop) := by
      funext s t
      exact propext eq_comm
    obtain ⟨r', hr', halike⟩ := b.swap.means hr hx
    rw [hflip] at halike
    exact halike.eq ▸ hr'

end Decombinator.ByName
