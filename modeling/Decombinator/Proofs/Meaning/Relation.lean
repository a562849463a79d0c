/-
When one computation can stand for another.

`Below Γ k x x'` says that within `k` demands nothing can be learned from `x` that cannot be
learned from `x'` in the same way.  If `x` is an integer, a boolean, nil or a cell then so
is `x'`, with parts that are below each other.  If `x` is a function then `x'` may be a
function or a boolean, or have no value at all as long as it is not applied: what counts
is that the results of applying both are below each other.  That is what reading a
function that swaps two branches as a negation needs, since a negation is strict where
the function is not.

The relation is indexed by the number of demands, because the results of applications are
not smaller in any other sense.  It is not transitive, but what is above may be replaced
by anything equivalent to it.
-/
import Decombinator.Proofs.ByName.Rules
import Mathlib.Data.List.Forall2

namespace Decombinator.ByName

variable {Γ : Globals}

/-! ### Computations with the same value -/

/-- Two computations with the same value, if any. -/
def Same (Γ : Globals) (x y : Arg) : Prop :=
  ∀ v, Evals Γ x v ↔ Evals Γ y v

namespace Same

variable {x y z : Arg} {v w : Val}

theorem refl (x : Arg) : Same Γ x x :=
  fun _ => Iff.rfl

theorem symm (h : Same Γ x y) : Same Γ y x :=
  fun v => (h v).symm

theorem trans (h : Same Γ x y) (h' : Same Γ y z) : Same Γ x z :=
  fun v => (h v).trans (h' v)

theorem of_next (h : next Γ x = next Γ y) : Same Γ x y := by
  intro v
  rw [Evals, Evals, h]

/-- A computation is the same as its value. -/
theorem of_evals (h : Evals Γ x v) : Same Γ x (.ready v) := by
  intro u
  rw [evals_ready]
  exact ⟨h.unique, fun he => he ▸ h⟩

theorem apply (h : Same Γ x y) (z : Arg) : Same Γ (.apply x z) (.apply y z) := by
  intro v
  simp only [evals_apply, h _]

/-- Applying a value that goes on with a computation. -/
theorem apply_of (h : v.applied z = .of y) : Same Γ (.apply (.ready v) z) y := by
  intro u
  simp [h]

/-- Applying a value that gives a value. -/
theorem apply_ret (h : v.applied z = .ret w) : Same Γ (.apply (.ready v) z) (.ready w) := by
  intro u
  simp [h]

end Same

/-! ### The relation -/

/-- The values that may stand for a function. -/
def Val.Selects (v : Val) : Prop :=
  v.isFunction ∨ ∃ b, v = .bool b

/-- `x'` stands for the computation that goes on with `n`, as far as `k` demands tell. -/
def Refines (Γ : Globals) (k : Nat) (n : Next) (x' : Arg) : Prop :=
  ∀ c v, c ≤ k → Yields Γ n c v →
    match v with
    | .cons h t => ∃ h' t', Evals Γ x' (.cons h' t') ∧
        ∀ j, j < k - c → Refines Γ j (next Γ h) h' ∧ Refines Γ j (next Γ t) t'
    | v =>
      if v.isFunction then
        (∀ v', Evals Γ x' v' → v'.Selects) ∧
          ∀ j, j < k - c → ∀ z z', Refines Γ j (next Γ z) z' →
            Refines Γ j (v.applied z) (.apply x' z')
      else Evals Γ x' v
termination_by k

/-- `x'` stands for `x`, as far as `k` demands tell. -/
def Below (Γ : Globals) (k : Nat) (x x' : Arg) : Prop :=
  Refines Γ k (next Γ x) x'

/-- `x'` stands for the value `v`, as far as `k` demands tell. -/
def Matches (Γ : Globals) (k : Nat) (v : Val) (x' : Arg) : Prop :=
  match v with
  | .cons h t => ∃ h' t', Evals Γ x' (.cons h' t') ∧
      ∀ j, j < k → Below Γ j h h' ∧ Below Γ j t t'
  | v =>
    if v.isFunction then
      (∀ v', Evals Γ x' v' → v'.Selects) ∧
        ∀ j, j < k → ∀ z z', Below Γ j z z' → Refines Γ j (v.applied z) (.apply x' z')
    else Evals Γ x' v

theorem refines_iff {k : Nat} {n : Next} {x' : Arg} :
    Refines Γ k n x' ↔ ∀ c v, c ≤ k → Yields Γ n c v → Matches Γ (k - c) v x' := by
  rw [Refines]
  rfl

variable {j k c d : Nat} {n n' : Next} {v w : Val} {x x' y y' z z' : Arg}

theorem Refines.matches (h : Refines Γ k n x') (hc : c ≤ k) (hy : Yields Γ n c v) :
    Matches Γ (k - c) v x' :=
  refines_iff.mp h c v hc hy

theorem matches_function (hv : v.isFunction) : Matches Γ k v x' ↔
    (∀ v', Evals Γ x' v' → v'.Selects) ∧
      ∀ j, j < k → ∀ z z', Below Γ j z z' → Refines Γ j (v.applied z) (.apply x' z') := by
  cases v with
  | int => cases hv
  | bool => cases hv
  | nil => cases hv
  | cons => cases hv
  | probe => cases hv
  | _ => exact Iff.rfl

/-- Data other than cells is matched by itself only. -/
theorem Matches.evals (h : Matches Γ k v x') (hv : v.isFunction = false)
    (hcons : ∀ h t, v ≠ .cons h t) : Evals Γ x' v := by
  cases v with
  | int => exact h
  | bool => exact h
  | nil => exact h
  | probe => exact h
  | cons => exact absurd rfl (hcons _ _)
  | _ => cases hv

/-! ### Fewer demands, other costs -/

theorem Matches.mono (h : Matches Γ k v x') (hjk : j ≤ k) : Matches Γ j v x' := by
  cases hv : v.isFunction with
  | true =>
      rw [matches_function hv] at h ⊢
      exact ⟨h.1, fun i hi => h.2 i (Nat.lt_of_lt_of_le hi hjk)⟩
  | false =>
      cases v with
      | cons =>
          obtain ⟨h', t', hx', hparts⟩ := h
          exact ⟨h', t', hx', fun i hi => hparts i (Nat.lt_of_lt_of_le hi hjk)⟩
      | int => exact h
      | bool => exact h
      | nil => exact h
      | probe => exact h
      | _ => cases hv

theorem Refines.mono (h : Refines Γ k n x') (hjk : j ≤ k) : Refines Γ j n x' := by
  rw [refines_iff] at h ⊢
  exact fun c v hc hy => (h c v (Nat.le_trans hc hjk) hy).mono (by omega)

theorem Below.mono (h : Below Γ k x x') (hjk : j ≤ k) : Below Γ j x x' :=
  Refines.mono h hjk

/-- Demands that do not count leave more for the rest. -/
theorem Refines.shift (hs : Shift Γ d n n') (h : Refines Γ k n' x') : Refines Γ (k + d) n x' := by
  rw [refines_iff] at h ⊢
  intro c v hc hy
  obtain ⟨c', hy', rfl⟩ := (hs c (.ok v)).mp hy
  have hm := h c' v (by omega) hy'
  rwa [show k + d - (c' + d) = k - c' by omega]

theorem Refines.of_below (h : Below Γ k x x') : Refines Γ (k + 1) (.of x) x' :=
  Refines.shift (.of x) h

theorem refines_ret : Refines Γ k (.ret v) x' ↔ Matches Γ k v x' := by
  rw [refines_iff]
  constructor
  · intro h
    exact h 0 v (Nat.zero_le k) (.ret v)
  · rintro h c w - hy
    obtain ⟨rfl, rfl⟩ := yields_ret.mp hy
    exact h

theorem refines_stuck {f : Machine.Fault} : Refines Γ k (.stuck f) x' :=
  refines_iff.mpr fun _ _ _ hy => absurd hy not_yields_stuck

/-- A demand that is met, and what comes after it. -/
theorem refines_need {K : Val → Next}
    (h : ∀ c v, c + 1 ≤ k → Yields Γ (next Γ x) c v → Refines Γ (k - (c + 1)) (K v) x') :
    Refines Γ k (.need x K) x' := by
  rw [refines_iff]
  intro c w hc hy
  obtain ⟨c₁, v, c₂, hx, hk, rfl⟩ := yields_need.mp hy
  have hm := (h c₁ v (by omega) hx).matches (by omega) hk
  rwa [show k - (c₁ + c₂ + 1) = k - (c₁ + 1) - c₂ by omega]

/-! ### Replacing what is above by the same -/

theorem Refines.same (h : Refines Γ k n x) (hs : Same Γ x y) : Refines Γ k n y := by
  induction k using Nat.strongRecOn generalizing n x y with
  | _ k ih =>
      rw [refines_iff] at h ⊢
      intro c v hc hy
      have hm := h c v hc hy
      cases hv : v.isFunction with
      | true =>
          rw [matches_function hv] at hm ⊢
          refine ⟨fun v' hv' => hm.1 v' ((hs v').mpr hv'), fun j hj z z' hz => ?_⟩
          exact ih j (by omega) (hm.2 j hj z z' hz) (hs.apply z')
      | false =>
          cases v with
          | cons =>
              obtain ⟨h', t', hx', hparts⟩ := hm
              exact ⟨h', t', (hs _).mp hx', hparts⟩
          | int => exact (hs _).mp hm
          | bool => exact (hs _).mp hm
          | nil => exact (hs _).mp hm
          | probe => exact (hs _).mp hm
          | _ => cases hv

theorem Matches.same (h : Matches Γ k v x) (hs : Same Γ x y) : Matches Γ k v y :=
  refines_ret.mp ((refines_ret.mpr h).same hs)

theorem Below.same (h : Below Γ k z x) (hs : Same Γ x y) : Below Γ k z y :=
  Refines.same h hs

/-- What is below may be replaced by the same, if it is no more expensive. -/
theorem Below.of_next (h : Below Γ k x x') (hxy : next Γ y = next Γ x) : Below Γ k y x' := by
  rw [Below, hxy]
  exact h

/-! ### Application -/

theorem below_ready : Below Γ k (.ready v) x' ↔ Matches Γ k v x' :=
  refines_ret

/-- A function matches a function that gives the same when it is applied. -/
theorem matches_ready {v' : Val} (hv : v.isFunction) (hv' : v'.isFunction)
    (h : ∀ j, j < k → ∀ z z', Below Γ j z z' → Refines Γ j (v.applied z) (.apply (.ready v') z')) :
    Matches Γ k v (.ready v') :=
  (matches_function hv).mpr ⟨fun _ hw => evals_ready.mp hw ▸ Or.inl hv', h⟩

theorem refines_of_apply {v' : Val} (h : Below Γ k x x') (hv' : v'.applied z' = .of x') :
    Refines Γ k (.of x) (.apply (.ready v') z') :=
  ((Refines.of_below h).mono (Nat.le_succ k)).same (Same.symm (.apply_of hv'))

theorem always_matches (hz : Below Γ k z z') : Matches Γ k (.always z) (.ready (.always z')) :=
  matches_ready rfl rfl fun _ hj _ _ _ => refines_of_apply (hz.mono (Nat.le_of_lt hj)) rfl

theorem second_matches : Matches Γ k .second (.ready .second) :=
  matches_ready rfl rfl fun _ _ _ _ hu => refines_of_apply hu rfl

/-- Applying a value, given that applying is understood with fewer demands. -/
theorem Matches.applied_of
    (happly : ∀ i, i < k → ∀ {f f' z z'}, Below Γ i f f' → Below Γ i z z' →
      Below Γ i (.apply f z) (.apply f' z'))
    (hv : Matches Γ (k + 1) v x') (hz : Below Γ k z z') :
    Refines Γ k (v.applied z) (.apply x' z') := by
  cases hfun : v.isFunction with
  | true => exact ((matches_function hfun).mp hv).2 k (Nat.lt_succ_self k) z z' hz
  | false =>
      cases v with
      | int => exact refines_stuck
      | nil =>
          have hx' : Evals Γ x' .nil := hv
          refine refines_ret.mpr (Matches.same (x := .ready (.bool true)) (evals_ready.mpr rfl) ?_)
          exact (((Same.of_evals hx').apply z').trans (.apply_ret rfl)).symm
      | probe first =>
          have hx' : Evals Γ x' (.probe first) := hv
          refine refines_ret.mpr (Matches.same (x := .ready (.probe first)) (evals_ready.mpr rfl) ?_)
          exact (((Same.of_evals hx').apply z').trans (.apply_ret rfl)).symm
      | bool b =>
          have hx' : Evals Γ x' (.bool b) := hv
          have hsame := (Same.of_evals hx').apply z'
          cases b with
          | true =>
              refine Refines.same ?_ (hsame.trans (.apply_ret rfl)).symm
              exact refines_ret.mpr (always_matches hz)
          | false =>
              refine Refines.same ?_ (hsame.trans (.apply_ret rfl)).symm
              exact refines_ret.mpr second_matches
      | cons h t =>
          obtain ⟨h', t', hx', hparts⟩ := hv
          refine Refines.same (x := .apply (.apply z' h') t') ?_
            (((Same.of_evals hx').apply z').trans (.apply_of rfl)).symm
          cases k with
          | zero =>
              refine refines_need fun c v hc => ?_
              omega
          | succ i =>
              refine Refines.of_below ?_
              have hparts := hparts i (by omega)
              exact happly i (Nat.lt_succ_self i)
                (happly i (Nat.lt_succ_self i) (hz.mono (Nat.le_succ i)) hparts.1) hparts.2
      | _ => cases hfun

/-- **Application keeps the relation.** -/
theorem Below.apply (hx : Below Γ k x x') (hz : Below Γ k z z') :
    Below Γ k (.apply x z) (.apply x' z') := by
  induction k using Nat.strongRecOn generalizing x x' z z' with
  | _ k ih =>
      refine refines_need fun c v hc hy => ?_
      have hv := Refines.matches hx (by omega) hy
      refine Matches.applied_of (fun i hi => ih i (by omega)) (hv.mono (by omega)) ?_
      exact hz.mono (by omega)

theorem Below.applyAll {args args' : List Arg} (hx : Below Γ k x x')
    (hargs : List.Forall₂ (Below Γ k) args args') :
    Below Γ k (applyAll x args) (applyAll x' args') := by
  induction hargs generalizing x x' with
  | nil => exact hx
  | cons hz _ ih => exact ih (hx.apply hz)

end Decombinator.ByName
