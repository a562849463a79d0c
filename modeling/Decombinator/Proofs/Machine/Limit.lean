/-
The step limit is sharp, and otherwise it cannot be seen.

`limits` compares the two evaluators call by call, for each amount of fuel.  Here the fuel goes:
without a limit an evaluation either has an outcome or goes on for ever, and with a limit it
always has one.
-/
import Decombinator.Proofs.ByName.Memory
import Decombinator.Proofs.Machine.Termination

namespace Decombinator.Machine

open Effect

variable {α : Type} {k : Nat} {p limited unlimited : Nat → Effect α} {m m' : Memory}

/-! ### Fresh machines -/

theorem insideVal_data {P : Node → Prop} (d : ByName.Data) : InsideVal P d.value := by
  induction d with
  | int n => exact insideVal_int
  | bool b => exact insideVal_bool
  | nil => exact insideVal_nil
  | cons h t ihh iht => exact insideVal_cons.mpr ⟨inside_ready.mpr ihh, inside_ready.mpr iht⟩

/-- In a fresh machine nothing refers to anything. -/
theorem not_mentions_memory (Γ : ByName.Frame) (n n' : Node) : ¬ Mentions Γ.memory n n' := by
  intro h
  cases n with
  | addr a =>
      obtain ⟨c, hc, -⟩ := h
      cases hc
  | name x =>
      obtain ⟨v, hv, hn⟩ := h
      have hlookup : (Γ.lookup x).map (fun d => Operand.ready d.value) = some v :=
        (Γ.lookup_env x).symm.trans hv
      obtain ⟨d, -, rfl⟩ := Option.map_eq_some_iff.mp hlookup
      exact inside_ready.mpr (insideVal_data (P := fun _ => False) d) n' hn

theorem sane_memory (Γ : ByName.Frame) : Sane Γ.memory where
  bounded h := (not_mentions_memory Γ _ _ h).elim
  ready := by
    intro x v hv
    have hlookup : (Γ.lookup x).map (fun d => Operand.ready d.value) = some v :=
      (Γ.lookup_env x).symm.trans hv
    obtain ⟨d, -, rfl⟩ := Option.map_eq_some_iff.mp hlookup
    exact ⟨d.value, rfl⟩

theorem named_memory (Γ : ByName.Frame) : Named Γ.memory :=
  fun _ => ⟨trivial, .intro _ fun n h => (not_mentions_memory Γ _ n h).elim⟩

/-! ### Outcomes without fuel -/

/-- No amount of fuel is enough. -/
def Diverges (p : Nat → Effect α) (m : Memory) : Prop :=
  ∀ fuel, p fuel m = .outOfFuel

section Extends

variable (h : ∀ {fuel fuel'}, fuel ≤ fuel' → Extends (p fuel) (p fuel'))

include h

/-- More fuel does not change an outcome. -/
theorem converges_of_eq {fuel : Nat} {o : Outcome α} (heq : p fuel m = o) (ho : o ≠ .outOfFuel) :
    Converges p m o := by
  subst heq
  exact ⟨ho, fuel, fun fuel' hle => ((h hle m).resolve_left ho).symm⟩

theorem halts_or_diverges (m : Memory) : Halts p m ∨ Diverges p m := by
  by_cases hdiverges : Diverges p m
  · exact Or.inr hdiverges
  · obtain ⟨fuel, hne⟩ := Classical.not_forall.mp hdiverges
    exact Or.inl ⟨p fuel m, converges_of_eq h rfl hne⟩

end Extends

/-- The evaluation fails, and the message is that it takes more than `k` steps. -/
def Exceeds (k : Nat) (p : Nat → Effect α) (m : Memory) : Prop :=
  ∃ f m', Converges p m (.fault f m') ∧
    f.message = "step limit of " ++ Text.natText k ++ " exceeded"

/-! ### Sharpness -/

/-- How an evaluation with a limit of `k` steps compares to the same evaluation without. -/
structure Sharp (k : Nat) (limited unlimited : Nat → Effect α) (m : Memory) : Prop where
  ends : Halts limited m
  /-- An outcome within the limit is the same, with all that is left in memory. -/
  within : ∀ {o n}, Converges unlimited m o → o.steps? = some n → n ≤ k → Converges limited m o
  beyond : ∀ {o n}, Converges unlimited m o → o.steps? = some n → k < n → Exceeds k limited m
  endless : Diverges unlimited m → Exceeds k limited m
  /-- There is no fourth case. -/
  total : (∃ o n, Converges unlimited m o ∧ o.steps? = some n) ∨ Diverges unlimited m

theorem Outcome.exists_steps {o : Outcome α} (h : o ≠ .outOfFuel) : ∃ n, o.steps? = some n := by
  cases o with
  | value a m => exact ⟨m.steps, rfl⟩
  | fault f m => exact ⟨m.steps, rfl⟩
  | outOfFuel => exact absurd rfl h

/-- An evaluation that ends exceeds the limit, if with some fuel that is all it can do. -/
theorem exceeds_of_halts (h : Halts p m) {N : Nat}
    (hN : ∀ fuel, N ≤ fuel → p fuel m = .outOfFuel ∨ ∃ m', p fuel m = .fault (.stepLimit k) m') :
    Exceeds k p m := by
  obtain ⟨o, ho, N', hN'⟩ := h
  have heq : p (N + N') m = o := hN' (N + N') (by omega)
  rcases hN (N + N') (by omega) with hout | ⟨m', hfault⟩
  · exact absurd (heq.symm.trans hout) ho
  · obtain rfl := heq.symm.trans hfault
    exact ⟨.stepLimit k, m', ⟨ho, N', hN'⟩, rfl⟩

theorem sharp_of_cut (hcut : ∀ fuel, Cut k (unlimited fuel m) (limited fuel m))
    (hends : Halts limited m) (htotal : Halts unlimited m ∨ Diverges unlimited m) :
    Sharp k limited unlimited m where
  ends := hends
  within := by
    rintro o n ⟨ho, N, hN⟩ hn hle
    refine ⟨ho, N, fun fuel hfuel => ?_⟩
    have h := hcut fuel
    rw [hN fuel hfuel] at h
    simpa [Cut, hn, hle] using h
  beyond := by
    rintro o n ⟨ho, N, hN⟩ hn hlt
    refine exceeds_of_halts hends (N := N) fun fuel hfuel => Or.inr ?_
    have h := hcut fuel
    rw [hN fuel hfuel] at h
    simpa [Cut, hn, Nat.not_le.mpr hlt] using h
  endless := by
    intro hdiverges
    refine exceeds_of_halts hends (N := 0) fun fuel _ => ?_
    have h := hcut fuel
    rw [hdiverges fuel] at h
    exact h
  total := by
    rcases htotal with ⟨o, ho⟩ | hdiverges
    · obtain ⟨n, hn⟩ := Outcome.exists_steps ho.1
      exact Or.inl ⟨o, n, ho, hn⟩
    · exact Or.inr hdiverges

/-! ### Evaluations -/

theorem Likewise.runForce {policy policy' : Policy} {R : ∀ {α : Type}, Effect α → Effect α → Prop}
    {fuel fuel' : Nat} (h : Likewise R policy policy' fuel fuel') (r : Respected policy policy' R)
    (c : Code) : R (Machine.run policy fuel c >>= Machine.force policy fuel)
      (Machine.run policy' fuel' c >>= Machine.force policy' fuel') :=
  r.bind (h.run c) h.force

theorem evalCode_extends (policy : Policy) (c : Code) {fuel fuel' : Nat} (hle : fuel ≤ fuel') :
    Extends (evalCode policy fuel c) (evalCode policy fuel' c) := fun m =>
  (extends_of_le policy hle).runForce (extends_respected policy) c { m with steps := 0 }

theorem evalExpr_extends (policy : Policy) (e : Expr) {fuel fuel' : Nat} (hle : fuel ≤ fuel') :
    Extends (evalExpr policy fuel e) (evalExpr policy fuel' e) := fun m =>
  (extends_of_le policy hle).eval e [] { m with steps := 0 }

variable (k : Nat) (memo : Bool)

theorem evalCode_sharp (hs : Sane m) (hnames : Named m) (c : Code) :
    Sharp k (fun fuel => evalCode ⟨some k, memo⟩ fuel c)
      (fun fuel => evalCode ⟨none, memo⟩ fuel c) m := by
  refine sharp_of_cut (fun fuel => ?_) (evalCode_halts rfl hs c fun p _ => hnames p)
    (halts_or_diverges (evalCode_extends _ c) m)
  have h := (limits k memo fuel).runForce (limits_respected k memo) c { m with steps := 0 }
  exact h.2 (Nat.zero_le k)

theorem evalExpr_sharp (hs : Sane m) (hnames : Named m) (e : Expr) :
    Sharp k (fun fuel => evalExpr ⟨some k, memo⟩ fuel e)
      (fun fuel => evalExpr ⟨none, memo⟩ fuel e) m := by
  refine sharp_of_cut (fun fuel => ?_) (evalExpr_halts rfl hs hnames e)
    (halts_or_diverges (evalExpr_extends _ e) m)
  have h := (limits k memo fuel).eval e [] { m with steps := 0 }
  exact h.2 (Nat.zero_le k)

/-- **The step limit is sharp.**  On a fresh machine with any first-order data for its names,
evaluating any code or any expression with a limit ends; it is the evaluation without a limit, as
long as that takes no more steps, and otherwise it fails with the limit. -/
theorem step_limit_sharp (Γ : ByName.Frame) :
    (∀ c : Code, Sharp k (fun fuel => evalCode ⟨some k, memo⟩ fuel c)
      (fun fuel => evalCode ⟨none, memo⟩ fuel c) Γ.memory) ∧
    (∀ e : Expr, Sharp k (fun fuel => evalExpr ⟨some k, memo⟩ fuel e)
      (fun fuel => evalExpr ⟨none, memo⟩ fuel e) Γ.memory) :=
  ⟨evalCode_sharp k memo (sane_memory Γ) (named_memory Γ),
    evalExpr_sharp k memo (sane_memory Γ) (named_memory Γ)⟩

end Decombinator.Machine
