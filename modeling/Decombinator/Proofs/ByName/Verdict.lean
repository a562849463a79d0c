/-
What comes of an evaluation.

An evaluation goes on for ever, or fails, or has a value; and a value may take for ever to be
shown, or it is shown as some text.  Which of these it is does not depend on the fuel, if there is
enough of it, and evaluation by name says which, in any memory that can be read by name.  So there
is exactly one verdict.  On a fresh machine it is the same whether the machine keeps the outcomes
of suspended computations or not.
-/
import Decombinator.Proofs.ByName.Observe

namespace Decombinator.ByName

open Machine

/-- What comes of an evaluation. -/
inductive Verdict
  | diverges
  | fails (f : Fault)
  /-- There is a value that takes for ever to be shown. -/
  | endless
  | shown (text : String)

/-- What comes of a computation by name. -/
inductive Means (Γ : Globals) (x : Arg) : Verdict → Prop
  | diverges (h : ∀ c r, ¬ Concludes Γ (next Γ x) c r) : Means Γ x .diverges
  | fails {f : Fault} (h : Raises Γ (next Γ x) f) : Means Γ x (.fails f)
  | endless {v : Val} (hv : Evals Γ x v) (h : ∀ t, ¬ Displays Γ (.ready v) t) : Means Γ x .endless
  | shown {v : Val} {t : String} (hv : Evals Γ x v) (h : Displays Γ (.ready v) t) :
      Means Γ x (.shown t)

/-- What comes of an evaluation that begins in the memory `m`, with as much fuel as it takes. -/
def ComesFrom (policy : Policy) (m : Memory) (start : Nat → Effect Value) : Verdict → Prop
  | .diverges => ∀ fuel, start fuel m = .outOfFuel
  | .fails f => ∃ N, ∀ fuel, N ≤ fuel → ∃ m', start fuel m = .fault f m'
  | .endless => ∃ N, ∀ fuel, N ≤ fuel → ∃ u m', start fuel m = .value u m' ∧
      ∀ fuel', observe policy fuel' (.ready u) m' = .outOfFuel
  | .shown t => ∃ N, ∀ fuel, N ≤ fuel → ∃ u m' m'', start fuel m = .value u m' ∧
      observe policy fuel (.ready u) m' = .value t m''

/-- What comes of an evaluation on a fresh machine, with the names of `Γ` defined. -/
def Comes (policy : Policy) (Γ : Frame) (start : Nat → Effect Value) : Verdict → Prop :=
  ComesFrom policy Γ.memory start

variable {policy : Policy} {Γ : World} {H : List Arg} {m : Memory} {x : Arg} {rank : Nat}
  {start : Nat → Effect Value}

theorem exists_means (Γ : Globals) (x : Arg) : ∃ r, Means Γ x r := by
  by_cases hends : ∃ c r, Concludes Γ (next Γ x) c r
  · obtain ⟨c, r, hr⟩ := hends
    cases r with
    | error f => exact ⟨.fails f, .fails ⟨c, hr⟩⟩
    | ok v =>
        by_cases hshown : ∃ t, Displays Γ (.ready v) t
        · obtain ⟨t, ht⟩ := hshown
          exact ⟨.shown t, .shown ⟨c, hr⟩ ht⟩
        · exact ⟨.endless, .endless ⟨c, hr⟩ fun t ht => hshown ⟨t, ht⟩⟩
  · exact ⟨.diverges, .diverges fun c r hr => hends ⟨c, r, hr⟩⟩

section Strict

variable [Γ.Strict]

/-- A computation that goes on for ever by name is never ended by the machine. -/
theorem Begins.diverges (hstart : Begins Γ H m x rank start)
    (h : ∀ c r, ¬ Concludes Γ (next Γ x) c r) (fuel : Nat) : start fuel m = .outOfFuel := by
  have hkeeps := hstart.keeps fuel
  cases heq : start fuel m with
  | value u m' =>
      rw [heq] at hkeeps
      obtain ⟨H', -, -, v, -, c, hv⟩ := hkeeps
      exact absurd hv (h c (.ok v))
  | fault e m' =>
      rw [heq] at hkeeps
      obtain ⟨-, c, he⟩ := hkeeps
      exact absurd he (h c (.error e))
  | outOfFuel => rfl

theorem observe_diverges (h : ∀ fuel, Follows policy Γ fuel) {y : Operand} (hs : Sound Γ H m)
    (hy : Reads H y x) (hnone : ∀ t, ¬ Displays Γ x t) (fuel : Nat) :
    observe policy fuel y m = .outOfFuel := by
  have hkeeps := (observe_keeps h fuel).1 hs hy
  cases heq : observe policy fuel y m with
  | value t m' =>
      rw [heq] at hkeeps
      obtain ⟨H', -, -, ht⟩ := hkeeps
      exact absurd ht (hnone t)
  | fault e m' =>
      rw [heq] at hkeeps
      exact hkeeps.2.elim
  | outOfFuel => rfl

/-- **What comes of a computation by name comes of its evaluation**, in any sound memory. -/
theorem Means.comesFrom {r : Verdict} (h : ∀ fuel, Follows policy Γ fuel)
    (hstart : Begins Γ H m x rank start) (hr : Means Γ x r) : ComesFrom policy m start r := by
  cases hr with
  | diverges hnone => exact hstart.diverges hnone
  | fails hf =>
      obtain ⟨c, he⟩ := hf
      exact ⟨5 * c + rank, fun fuel hfuel => hstart.fails he hfuel⟩
  | endless hv hnone =>
      obtain ⟨c, hy⟩ := hv
      refine ⟨5 * c + rank, fun fuel hfuel => ?_⟩
      obtain ⟨u, m', H', heq, hs, hread⟩ := hstart.returns hy hfuel
      exact ⟨u, m', heq, observe_diverges h hs (.ready hread) hnone⟩
  | shown hv ht =>
      obtain ⟨c, hy⟩ := hv
      obtain ⟨N, hobserve⟩ := observe_ends h ht
      refine ⟨5 * c + rank + N, fun fuel hfuel => ?_⟩
      obtain ⟨u, m', H', heq, hs, hread⟩ := hstart.returns hy (show 5 * c + rank ≤ fuel by omega)
      have hends := hobserve fuel (by omega) hs (.ready hread)
      obtain ⟨t, m'', -, hobs, -, rfl⟩ := hends.value (by simp)
      exact ⟨u, m', m'', heq, hobs⟩

end Strict

/-! ### One verdict -/

/-- What an evaluation looks like with a given amount of fuel. -/
def seen (policy : Policy) (m : Memory) (start : Nat → Effect Value) (fuel : Nat) : Verdict :=
  match start fuel m with
  | .outOfFuel => .diverges
  | .fault f _ => .fails f
  | .value u m' =>
    match observe policy fuel (.ready u) m' with
    | .value t _ => .shown t
    | .fault _ _ | .outOfFuel => .endless

/-- With fuel enough, an evaluation looks like what comes of it. -/
theorem ComesFrom.seen_eq {r : Verdict} (h : ComesFrom policy m start r) :
    ∃ N, ∀ fuel, N ≤ fuel → seen policy m start fuel = r := by
  cases r with
  | diverges => exact ⟨0, fun fuel _ => by simp [seen, h fuel]⟩
  | fails f =>
      obtain ⟨N, hN⟩ := h
      refine ⟨N, fun fuel hfuel => ?_⟩
      obtain ⟨m', heq⟩ := hN fuel hfuel
      simp [seen, heq]
  | endless =>
      obtain ⟨N, hN⟩ := h
      refine ⟨N, fun fuel hfuel => ?_⟩
      obtain ⟨u, m', heq, hnone⟩ := hN fuel hfuel
      simp [seen, heq, hnone fuel]
  | shown t =>
      obtain ⟨N, hN⟩ := h
      refine ⟨N, fun fuel hfuel => ?_⟩
      obtain ⟨u, m', m'', heq, hshow⟩ := hN fuel hfuel
      simp [seen, heq, hshow]

theorem ComesFrom.unique {r r' : Verdict} (h : ComesFrom policy m start r)
    (h' : ComesFrom policy m start r') : r = r' := by
  obtain ⟨N, hN⟩ := h.seen_eq
  obtain ⟨N', hN'⟩ := h'.seen_eq
  rw [← hN (N + N') (Nat.le_add_right N N'), hN' (N + N') (Nat.le_add_left N' N)]

/-! ### Fresh machines -/

section Fresh

variable {Γ : Frame}

theorem Means.comes {r : Verdict} (h : ∀ fuel, Follows policy Γ fuel) (hstart : Starts Γ x start)
    (hr : Means Γ x r) : Comes policy Γ start r :=
  hr.comesFrom h hstart.begins

theorem Comes.unique {r r' : Verdict} (h : Comes policy Γ start r) (h' : Comes policy Γ start r') :
    r = r' :=
  ComesFrom.unique h h'

/-- **Evaluation by name says what comes of an evaluation.** -/
theorem Starts.comes_iff {r : Verdict} (h : ∀ fuel, Follows policy Γ fuel)
    (hstart : Starts Γ x start) : Comes policy Γ start r ↔ Means Γ x r := by
  refine ⟨fun hr => ?_, fun hr => hr.comes h hstart⟩
  obtain ⟨r', hr'⟩ := exists_means Γ x
  rwa [hr.unique (hr'.comes h hstart)]

theorem Starts.exists_unique (h : ∀ fuel, Follows policy Γ fuel) (hstart : Starts Γ x start) :
    ∃! r, Comes policy Γ start r := by
  obtain ⟨r, hr⟩ := exists_means Γ x
  exact ⟨r, hr.comes h hstart, fun r' hr' => hr'.unique (hr.comes h hstart)⟩

end Fresh

/-! ### Keeping outcomes -/

/-- **Whether outcomes are kept cannot be observed.**  A machine that runs a suspended computation
each time it is needed, instead of keeping its first outcome, comes to the same verdict: with no
limit on steps and with any data as global names, both evaluations of any code or expression go on
for ever, or both fail with the same fault, or both have values that are shown as the same text. -/
theorem comes_memo_iff (Γ : Frame) :
    let need : Policy := { limit := none, memo := true }
    let name : Policy := { limit := none, memo := false }
    (∀ c : Code, (∃! r, Comes need Γ (fun fuel => evalCode need fuel c) r) ∧
      ∀ r, Comes need Γ (fun fuel => evalCode need fuel c) r ↔
        Comes name Γ (fun fuel => evalCode name fuel c) r) ∧
    (∀ e : Expr, (∃! r, Comes need Γ (fun fuel => evalExpr need fuel e) r) ∧
      ∀ r, Comes need Γ (fun fuel => evalExpr need fuel e) r ↔
        Comes name Γ (fun fuel => evalExpr name fuel e) r) := by
  intro need name
  have hneed : ∀ fuel, Follows need Γ fuel := follows rfl Γ
  have hname : ∀ fuel, Follows name Γ fuel := follows rfl Γ
  constructor
  · intro c
    refine ⟨(evalCode_starts hneed c).exists_unique hneed, fun r => ?_⟩
    rw [(evalCode_starts hneed c).comes_iff hneed, (evalCode_starts hname c).comes_iff hname]
  · intro e
    refine ⟨(evalExpr_starts hneed e).exists_unique hneed, fun r => ?_⟩
    rw [(evalExpr_starts hneed e).comes_iff hneed, (evalExpr_starts hname e).comes_iff hname]

end Decombinator.ByName
