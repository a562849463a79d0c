/-
Primitives stand for themselves.

A primitive asks its arguments for a value, takes it apart, or applies it, and related
arguments answer alike.  The tests of conditionals are of this kind too: they apply what is
no boolean to two probes, and learn which one it selects.
-/
import Decombinator.Proofs.Meaning.Relation

namespace Decombinator.ByName

open Machine

variable {Γ : Globals} {j k c d : Nat} {n n' : Next} {v w : Val} {x x' y y' z z' : Arg}

theorem refines_bind {K : Val → Next}
    (h : ∀ c v, c ≤ k → Yields Γ n c v → Refines Γ (k - c) (K v) x') :
    Refines Γ k (n.bind K) x' := by
  rw [refines_iff]
  intro c w hc hy
  obtain ⟨c₁, v, c₂, hn, hk, rfl⟩ := yields_bind.mp hy
  have hm := (h c₁ v (by omega) hn).matches (by omega) hk
  rwa [show k - (c₁ + c₂) = k - c₁ - c₂ by omega]

theorem Below.matches (h : Below Γ k x x') (hc : c ≤ k) (hy : Yields Γ (next Γ x) c v) :
    Matches Γ (k - c) v x' :=
  Refines.matches h hc hy

theorem Matches.below (h : Matches Γ k v x') (hjk : j ≤ k) : Below Γ j (.ready v) x' :=
  below_ready.mpr (h.mono hjk)

theorem int_matches (n : Int64) (hx' : Evals Γ x' (.int n)) : Matches Γ k (.int n) x' :=
  hx'

theorem bool_matches (b : Bool) (hx' : Evals Γ x' (.bool b)) : Matches Γ k (.bool b) x' :=
  hx'

/-! ### Functions of one argument -/

/-- Taking the head of anything is applying it to true. -/
theorem same_car (z : Arg) :
    Same Γ (.apply (.ready (.unary .car)) z) (.apply z (.ready (.bool true))) := by
  intro w
  simp only [evals_apply, evals_ready, exists_eq_left', Val.applied_unary, Val.appliedUnary,
    gives_need]
  refine exists_congr fun u => and_congr_right fun _ => ?_
  cases u with
  | cons h t => simp
  | _ => simp only [gives_of, evals_apply, evals_ready, exists_eq_left']

/-- Taking the tail of anything is applying it to false. -/
theorem same_cdr (z : Arg) :
    Same Γ (.apply (.ready (.unary .cdr)) z) (.apply z (.ready (.bool false))) := by
  intro w
  simp only [evals_apply, evals_ready, exists_eq_left', Val.applied_unary, Val.appliedUnary,
    gives_need]
  refine exists_congr fun u => and_congr_right fun _ => ?_
  cases u with
  | cons h t => simp
  | _ => simp only [gives_of, evals_apply, evals_ready, exists_eq_left']

/-- Taking a part of a value. -/
theorem part_refines (b : Bool) {K : Val → Next} (hz : Below Γ k z z')
    (hcell : ∀ h t, K (.cons h t) = .of (if b then h else t))
    (hother : ∀ v, (∀ h t, v ≠ .cons h t) → K v = .of (.apply (.ready v) (.ready (.bool b)))) :
    Refines Γ k (.need z K) (.apply z' (.ready (.bool b))) := by
  refine refines_need fun c u hc hy => ?_
  have hu := hz.matches (by omega) hy
  by_cases hcons : ∃ h t, u = .cons h t
  · obtain ⟨h, t, rfl⟩ := hcons
    obtain ⟨h', t', hz', hparts⟩ := hu
    obtain ⟨hh, ht⟩ := hparts (k - (c + 1)) (by omega)
    rw [hcell]
    refine Refines.same (x := if b then h' else t') ?_ ?_
    · refine (Refines.of_below ?_).mono (Nat.le_succ _)
      cases b with
      | true => exact hh
      | false => exact ht
    · refine Same.symm (((Same.of_evals hz').apply _).trans ?_)
      intro w
      cases b <;> simp
  · rw [hother u fun h t hu => hcons ⟨h, t, hu⟩]
    refine (Refines.of_below ?_).mono (Nat.le_succ _)
    exact (hu.below (by omega)).apply (below_ready.mpr (bool_matches b (evals_ready.mpr rfl)))

theorem appliedUnary_refines (g : Unary) (hz : Below Γ k z z') :
    Refines Γ k (Val.appliedUnary g z) (.apply (.ready (.unary g)) z') := by
  cases g with
  | i => exact refines_of_apply hz rfl
  | car =>
      refine Refines.same (part_refines true hz (fun _ _ => rfl) fun v hv => ?_) (same_car z').symm
      cases v with
      | cons h t => exact absurd rfl (hv h t)
      | _ => rfl
  | cdr =>
      refine Refines.same (part_refines false hz (fun _ _ => rfl) fun v hv => ?_) (same_cdr z').symm
      cases v with
      | cons h t => exact absurd rfl (hv h t)
      | _ => rfl
  | isnil =>
      refine refines_need fun c u hc hy => ?_
      have hu := hz.matches (by omega) hy
      cases u with
      | nil =>
          have hz' : Evals Γ z' .nil := hu
          refine refines_ret.mpr (bool_matches true ?_)
          simp only [evals_apply, evals_ready, exists_eq_left', Val.applied_unary,
            Val.appliedUnary, gives_need]
          exact ⟨.nil, hz', by simp [testNil]⟩
      | cons h t =>
          obtain ⟨h', t', hz', -⟩ := hu
          refine refines_ret.mpr (bool_matches false ?_)
          simp only [evals_apply, evals_ready, exists_eq_left', Val.applied_unary,
            Val.appliedUnary, gives_need]
          exact ⟨.cons h' t', hz', by simp [testNil]⟩
      | _ => exact refines_stuck
  | neg =>
      refine refines_need fun c u hc hy => ?_
      have hu := hz.matches (by omega) hy
      cases u with
      | int m =>
          have hz' : Evals Γ z' (.int m) := hu
          refine refines_ret.mpr (int_matches (-m) ?_)
          simp only [evals_apply, evals_ready, exists_eq_left', Val.applied_unary,
            Val.appliedUnary, gives_need]
          exact ⟨.int m, hz', by simp [negate]⟩
      | _ => exact refines_stuck

theorem unary_matches (g : Unary) : Matches Γ k (.unary g) (.ready (.unary g)) :=
  matches_ready rfl rfl fun _ _ _ _ hz => appliedUnary_refines g hz

/-! ### Operators and combinators -/

/-- A computed integer or boolean. -/
theorem computed_refines {r : Except Fault Value}
    (h : ∀ w, Gives Γ (.computed r) w → Evals Γ x' w) : Refines Γ k (.computed r) x' := by
  rw [refines_iff]
  intro c w _ hy
  have hw := h w ⟨c, hy⟩
  rw [Next.computed.eq_def] at hy
  split at hy
  · obtain ⟨-, rfl⟩ := yields_ret.mp hy
    exact hw
  · obtain ⟨-, rfl⟩ := yields_ret.mp hy
    exact hw
  · exact absurd hy not_yields_stuck
  · exact absurd hy not_yields_stuck

theorem arith_refines (op : BinOp) {u : Arg} (hx : Below Γ k x x') (hy : Below Γ k y y')
    (h : ∀ a b w, Evals Γ x' a → Evals Γ y' b → Gives Γ (arith op a b) w → Evals Γ u w) :
    Refines Γ k (.need x fun a => .need y fun b => arith op a b) u := by
  refine refines_need fun c a hc ha => refines_need fun c' b hc' hb => ?_
  have hma := hx.matches (by omega) ha
  have hmb := hy.matches (by omega) hb
  cases a with
  | int m =>
      cases b with
      | int m' => exact computed_refines fun w hw => h _ _ w hma hmb hw
      | _ => exact refines_stuck
  | _ => exact refines_stuck

theorem binary1_matches (g : Binary) (hx : Below Γ k x x') :
    Matches Γ k (.binary1 g x) (.ready (.binary1 g x')) := by
  refine matches_ready rfl rfl fun j hj z z' hz => ?_
  have hx := hx.mono (Nat.le_of_lt hj)
  show Refines Γ j (Val.appliedBinary g x z) _
  have happlied : ∀ w, Evals Γ (.apply (.ready (.binary1 g x')) z') w ↔
      Gives Γ (Val.appliedBinary g x' z') w := by
    intro w
    simp
  rw [Val.appliedBinary]
  cases hop : g.operator? with
  | none =>
      refine refines_ret.mpr ⟨x', z', ?_, fun i hi => ?_⟩
      · rw [happlied, Val.appliedBinary, hop]
        simp
      · exact ⟨hx.mono (Nat.le_of_lt hi), hz.mono (Nat.le_of_lt hi)⟩
  | some op =>
      refine arith_refines op hx hz fun a b w ha hb hw => ?_
      rw [happlied, Val.appliedBinary, hop]
      simp only [gives_need]
      exact ⟨a, ha, b, hb, hw⟩

/-- A function that collects an argument. -/
theorem refines_ret_apply {v' w' : Val} (h : Matches Γ k w (.ready w')) (hv' : v'.applied z' = .ret w') :
    Refines Γ k (.ret w) (.apply (.ready v') z') :=
  (refines_ret.mpr h).same (Same.symm (.apply_ret hv'))

theorem binary_matches (g : Binary) : Matches Γ k (.binary g) (.ready (.binary g)) :=
  matches_ready rfl rfl fun _ _ _ _ hz => refines_ret_apply (binary1_matches g hz) rfl

theorem ternary2_matches (g : Ternary) (hx : Below Γ k x x') (hy : Below Γ k y y') :
    Matches Γ k (.ternary2 g x y) (.ready (.ternary2 g x' y')) := by
  refine matches_ready rfl rfl fun j hj z z' hz => ?_
  have hx := hx.mono (Nat.le_of_lt hj)
  have hy := hy.mono (Nat.le_of_lt hj)
  cases g with
  | b => exact refines_of_apply (hx.apply (hy.apply hz)) rfl
  | c => exact refines_of_apply ((hx.apply hz).apply hy) rfl
  | s => exact refines_of_apply ((hx.apply hz).apply (hy.apply hz)) rfl

theorem ternary1_matches (g : Ternary) (hx : Below Γ k x x') :
    Matches Γ k (.ternary1 g x) (.ready (.ternary1 g x')) :=
  matches_ready rfl rfl fun _ hj _ _ hz =>
    refines_ret_apply (ternary2_matches g (hx.mono (Nat.le_of_lt hj)) hz) rfl

theorem ternary_matches (g : Ternary) : Matches Γ k (.ternary g) (.ready (.ternary g)) :=
  matches_ready rfl rfl fun _ _ _ _ hz => refines_ret_apply (ternary1_matches g hz) rfl

theorem ofPrim_matches (p : Prim) : Matches Γ k (.ofPrim p) (.ready (.ofPrim p)) := by
  cases p with
  | i => exact unary_matches .i
  | car => exact unary_matches .car
  | cdr => exact unary_matches .cdr
  | isnil => exact unary_matches .isnil
  | neg => exact unary_matches .neg
  | cons => exact binary_matches .cons
  | add => exact binary_matches .add
  | mul => exact binary_matches .mul
  | div => exact binary_matches .div
  | eq => exact binary_matches .eq
  | lt => exact binary_matches .lt
  | b => exact ternary_matches .b
  | c => exact ternary_matches .c
  | s => exact ternary_matches .s
  | t => exact bool_matches true (evals_ready.mpr rfl)
  | nil => exact (evals_ready.mpr rfl : Evals Γ (.ready .nil) .nil)

/-! ### Tests -/

theorem truth_other (hv : v.isFunction = false) (hbool : ∀ b, v ≠ .bool b) :
    truth v = .stuck (.expectedBoolean v.tag) := by
  cases v with
  | bool b => exact absurd rfl (hbool b)
  | _ => first | rfl | cases hv

theorem probe_matches (first : Bool) : Matches Γ k (.probe first) (.ready (.probe first)) :=
  (evals_ready.mpr rfl : Evals Γ _ (.probe first))

theorem Below.probed (h : Below Γ k x x') : Below Γ k (probed x) (probed x') :=
  (h.apply (below_ready.mpr (probe_matches true))).apply (below_ready.mpr (probe_matches false))

/-- What selects a probe is the boolean that it selects by. -/
theorem gives_truth_of_probed {first : Bool} (hx : ∀ v, Evals Γ x v → v.Selects)
    (hprobed : Evals Γ (ByName.probed x) (.probe first)) :
    Gives Γ (.need x truth) (.bool first) := by
  obtain ⟨u, hu, -⟩ := evals_apply.mp hprobed
  obtain ⟨v, hv, -⟩ := evals_apply.mp hu
  have hready := ((((Same.of_evals hv).apply _).apply _) _).mp hprobed
  refine gives_need.mpr ⟨v, hv, ?_⟩
  rcases hx v hv with hfun | ⟨b, rfl⟩
  · rw [truth_function hfun]
    exact gives_need.mpr ⟨_, hready, gives_ret.mpr rfl⟩
  · cases b <;> simpa [truth] using hready

/-- Related computations have the same truth. -/
theorem Below.truth (hx : Below Γ k x x') (hc : c ≤ k) (hy : Yields Γ (.need x truth) c v) :
    ∃ b, v = .bool b ∧ Gives Γ (.need x' truth) (.bool b) := by
  obtain ⟨c₁, u, c₂, hu, htruth, rfl⟩ := yields_need.mp hy
  have hm := hx.matches (by omega) hu
  cases hfun : u.isFunction with
  | true =>
      rw [truth_function hfun] at htruth
      obtain ⟨c₃, p, c₄, hp, hv, rfl⟩ := yields_need.mp htruth
      have hprobed := (hm.below (Nat.le_refl _)).probed.matches (by omega) hp
      cases p with
      | probe first =>
          obtain ⟨-, rfl⟩ := yields_ret.mp hv
          exact ⟨first, rfl, gives_truth_of_probed ((matches_function hfun).mp hm).1 hprobed⟩
      | _ => exact absurd hv not_yields_stuck
  | false =>
      by_cases hbool : ∃ b, u = .bool b
      · obtain ⟨b, rfl⟩ := hbool
        obtain ⟨-, rfl⟩ := yields_ret.mp htruth
        exact ⟨b, rfl, gives_need.mpr ⟨_, hm, gives_ret.mpr rfl⟩⟩
      · rw [truth_other hfun fun b hb => hbool ⟨b, hb⟩] at htruth
        exact absurd htruth not_yields_stuck

/-- A test whose outcome is the result. -/
theorem truth_refines (hx : Below Γ k x x')
    (h : ∀ b, Gives Γ (.need x' truth) (.bool b) → Evals Γ z (.bool b)) :
    Refines Γ k (.need x truth) z := by
  rw [refines_iff]
  intro c v hc hy
  obtain ⟨b, rfl, hb⟩ := hx.truth hc hy
  exact bool_matches b (h b hb)

/-- A test that decides how to go on. -/
theorem branch_refines {yes no : Next} (hx : Below Γ k x x')
    (hyes : Gives Γ (.need x' truth) (.bool true) → Refines Γ k yes z)
    (hno : Gives Γ (.need x' truth) (.bool false) → Refines Γ k no z) :
    Refines Γ k ((Next.need x truth).bind (.branch yes no)) z := by
  refine refines_bind fun c v hc hy => ?_
  obtain ⟨b, rfl, hb⟩ := hx.truth hc hy
  cases b with
  | true => exact (hyes hb).mono (Nat.sub_le k c)
  | false => exact (hno hb).mono (Nat.sub_le k c)

end Decombinator.ByName
