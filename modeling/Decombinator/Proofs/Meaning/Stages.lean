/-
The readable form of a definition means what its code means.

Each stage represents the one before.  Representing is not transitive, since a function may
be represented by what has no value until it is applied; but the text of data is the same
for a computation and for what represents it, and like all that passes from one to the other it
can be passed on from stage to stage.

There is one condition.  A connective is recognised by its shape, and stands for what it
was recognised in only if the operands that are evaluated have boolean values.  Without it the
readable form may fail or show something else where the code has a value.  Tidying needs no
condition.
-/
import Decombinator.Proofs.ByName.Data
import Decombinator.Proofs.Lambda.Shrink
import Decombinator.Proofs.Meaning.Idioms
import Decombinator.Proofs.Stages

namespace Decombinator.ByName

open Decombinator.Expr Machine

variable {Γ : Globals} {v : Val} {x x' : Arg} {e e' : Expr} {t : String}

/-! ### Texts -/

theorem Represents.of_evals (h : Represents Γ x x') (hx : Evals Γ x v) :
    Represents Γ (.ready v) x' :=
  fun _ => below_ready.mpr (h.matches hx)

/-- The text of a value that is no list is the text of what represents it. -/
theorem Plain.represents (hv : Plain Γ v t) (h : Represents Γ (.ready v) x') :
    ∃ v', Evals Γ x' v' ∧ Plain Γ v' t ∧ (∀ hd tl, v' ≠ .cons hd tl) ∧ (v = .nil ↔ v' = .nil) := by
  have hm : Matches Γ 0 v x' := h.matches (evals_ready.mpr rfl)
  cases hv with
  | int n => exact ⟨_, hm, .int n, by simp, by simp⟩
  | bool b => exact ⟨_, hm, .bool b, by simp, by simp⟩
  | nil => exact ⟨_, hm, .nil, by simp, by simp⟩
  | @function _ b c hfun hb =>
      have htruth : Gives Γ (.need (.ready v) truth) (.bool b) :=
        gives_need.mpr ⟨v, evals_ready.mpr rfl, c, hb⟩
      obtain ⟨v', hv', d, hd⟩ := gives_need.mp (h.truth htruth)
      have hvnil : v ≠ .nil := fun he => by
        subst he
        cases hfun
      rcases ((matches_function hfun).mp hm).1 v' hv' with hfun' | ⟨b', rfl⟩
      · refine ⟨v', hv', .function hfun' hd, fun hd tl he => ?_, iff_of_false hvnil fun he => ?_⟩
        · subst he
          cases hfun'
        · subst he
          cases hfun'
      · obtain ⟨-, heq⟩ := yields_ret.mp hd
        cases heq
        exact ⟨_, hv', .bool b, by simp, by simp [hvnil]⟩

/-- The elements of a list are represented by the elements of what represents it. -/
theorem Spine.represents {items : List Arg} (hs : Spine Γ x items v) (h : Represents Γ x x') :
    ∃ items' z, List.Forall₂ (Represents Γ) items items' ∧ Represents Γ (.ready v) z ∧
      ∀ v', Evals Γ z v' → (∀ hd tl, v' ≠ .cons hd tl) → Spine Γ x' items' v' := by
  induction hs generalizing x' with
  | last hx _ => exact ⟨[], x', .nil, h.of_evals hx, fun v' hv' hcons => .last hv' hcons⟩
  | cons hx _ ih =>
      obtain ⟨hd', tl', hx', hhd, htl⟩ := h.cons hx
      obtain ⟨items', z, hitems, hz, hspine⟩ := ih htl
      exact ⟨hd' :: items', z, .cons hhd hitems, hz, fun v' hv' hcons =>
        .cons hx' (hspine v' hv' hcons)⟩

theorem Spine.evals {items : List Arg} (h : Spine Γ x items v) : ∃ u, Evals Γ x u := by
  cases h with
  | last hx _ => exact ⟨_, hx⟩
  | cons hx _ => exact ⟨_, hx⟩

theorem Shows.evals (h : Shows Γ x t) : ∃ u, Evals Γ x u := by
  cases h with
  | plain hx _ => exact hx.evals
  | list hx _ => exact hx.evals
  | dotted hx _ _ _ => exact hx.evals

mutual

/-- **The text of a computation is the text of what represents it.** -/
theorem Shows.represents {x x' : Arg} {t : String} :
    Shows Γ x t → Represents Γ x x' → Shows Γ x' t
  | .plain hx hv, h => by
      obtain ⟨items', z, hitems, hz, hspine⟩ := hx.represents h
      obtain ⟨v', hv', hplain, hcons, -⟩ := hv.represents hz
      cases hitems
      exact .plain (hspine v' hv' hcons) hplain
  | .list hx hys, h => by
      obtain ⟨items', z, hitems, hz, hspine⟩ := hx.represents h
      have hnil : Evals Γ z .nil := hz.matches (k := 0) (evals_ready.mpr rfl)
      have hall := hys.represents hitems
      cases hitems
      exact .list (hspine .nil hnil (by simp)) hall
  | .dotted hx hne hys hv, h => by
      obtain ⟨items', z, hitems, hz, hspine⟩ := hx.represents h
      obtain ⟨v', hv', hplain, hcons, hnil⟩ := hv.represents hz
      have hall := hys.represents hitems
      cases hitems
      exact .dotted (hspine v' hv' hcons) (fun he => hne (hnil.mpr he)) hall hplain

theorem ShowsAll.represents {xs xs' : List Arg} {ts : List String} :
    ShowsAll Γ xs ts → List.Forall₂ (Represents Γ) xs xs' → ShowsAll Γ xs' ts
  | .nil, h => by
      cases h
      exact .nil
  | .cons hx hxs, h => by
      cases h with
      | cons hhead htail => exact .cons (hx.represents hhead) (hxs.represents htail)

end

/-! ### Stages -/

theorem Stands.represents {names : List String} (h : Stands Γ names id e e') :
    Represents Γ (.expr e []) (.expr e' []) :=
  fun k => h k [] [] (fun _ _ => rfl) fun y _ => scope_refl [] y

theorem shrink_passes {P : Arg → Prop} (hP : ∀ {x x'}, Represents Γ x x' → P x → P x') {u : Lambda}
    (hu : u.Hygienic) (h : P (.expr u.toExpr [])) : P (.expr u.shrink.toExpr []) :=
  Lambda.Reduces.preserves (P := fun u => P (.expr u.toExpr []))
    (fun hstep hu => hP (Contracts.stands hstep).represents hu) (Lambda.shrink_reduces hu) h

/-- Without a dictionary only bound names change. -/
theorem rename_represents (hy : e.Hygienic) :
    Represents Γ (.expr e []) (.expr (e.rename .empty) []) := by
  obtain ⟨ν, heq, hapart, hfree⟩ := rename_eq_mapNames .empty e
  have hsep : Separates ν e := fun x hx y hsym => hapart x hx y (Or.inr hsym)
  rw [heq]
  refine fun k => stands_mapNames hsep k [] [] spares_nil fun y hyf => ?_
  have hbound : y ∉ e.binders := fun hb => hy.2 y hb hyf
  rw [hfree y hbound]
  exact scope_refl [] y

section Stages

variable (d : Definition)

/-- Shrinking leaves no function that uses its parameter once applied, so folding makes no
flipped conjunction that is applied. -/
theorem not_part_flipped_folded (v p : String) (x : Folded) :
    ¬ Folded.Part (.ap (.flipped v p) x) (Stages.ofDefinition .empty d).folded := by
  have hlambda := Lambda.ofCode_hygienic d.value
  refine Folded.not_part_flipped ((Stages.shrunk_retains .empty d).hygiene hlambda) ?_ v p x
  intro p b a hpart
  exact Lambda.count_ne_one_of_shrink hlambda hpart

/-- The symbols of the code stay global: no stage binds them. -/
theorem folded_legible : Legible d.value.symbols (Stages.ofDefinition .empty d).folded where
  hygienic := Stages.folded_hygienic .empty d
  named := Stages.empty_notMem_binders_folded .empty d
  apart p hp hsymbol := by
    refine (Stages.folded_hygienic .empty d).unfree p hp ?_
    exact ((Stages.folded_retains .empty d).mem_iff p).mpr (Lambda.mem_free_ofCode.mpr hsymbol)
  straight := not_part_flipped_folded d

theorem idioms_represents
    (hlogical : Logical Γ d.value.symbols (Stages.ofDefinition .empty d).idioms) :
    Represents Γ (.expr (Stages.ofDefinition .empty d).folded.toExpr [])
      (.expr (Stages.ofDefinition .empty d).idioms []) :=
  (recognise_stands _ [] (folded_legible d) hlogical).represents

/-- The idioms are logical if the readable form is by its form. -/
theorem idioms_logical (h : (Stages.ofDefinition .empty d).renamed.isLogical) :
    Logical Γ d.value.symbols (Stages.ofDefinition .empty d).idioms := by
  have htidied : (Stages.ofDefinition .empty d).tidied.isLogical := isLogical_rename .empty _ ▸ h
  exact logical_of_isLogical (isLogical_tidy _ ▸ htidied)

/-- What passes from a computation to all that represent it goes through all stages. -/
theorem renamed_passes {P : Arg → Prop} (hP : ∀ {x x'}, Represents Γ x x' → P x → P x')
    (hlogical : Logical Γ d.value.symbols (Stages.ofDefinition .empty d).idioms)
    (h : P (.code d.value)) : P (.expr (Stages.ofDefinition .empty d).renamed []) := by
  have hlambda : P (.expr (Stages.ofDefinition .empty d).lambda.toExpr []) :=
    hP (ofCode_represents d.value) h
  have hshrunk : P (.expr (Stages.ofDefinition .empty d).shrunk.toExpr []) :=
    shrink_passes hP (Lambda.ofCode_hygienic d.value) hlambda
  have hfolded : P (.expr (Stages.ofDefinition .empty d).folded.toExpr []) :=
    hP (ofLambda_stands _).represents hshrunk
  have hidioms : P (.expr (Stages.ofDefinition .empty d).idioms []) :=
    hP (idioms_represents d hlogical) hfolded
  have htidied : P (.expr (Stages.ofDefinition .empty d).tidied []) :=
    hP (tidy_stands _).represents hidioms
  exact hP (rename_represents (Stages.tidied_hygienic .empty d)) htidied

/-- Data that code shows by name goes through all stages. -/
theorem renamed_shows
    (hlogical : Logical Γ d.value.symbols (Stages.ofDefinition .empty d).idioms)
    (h : Shows Γ (.code d.value) t) :
    Shows Γ (.expr (Stages.ofDefinition .empty d).renamed []) t :=
  renamed_passes (P := fun x => Shows Γ x t) d (fun hrep hx => hx.represents hrep) hlogical h

end Stages

/-! ### The machine -/

section Machine

variable {policy : Policy} {Γ : Frame} {t : String}

/-- The text of what a fresh machine evaluates to, if that has a value and can be shown. -/
def Frame.text? (Γ : Frame) (policy : Policy) (fuel : Nat) (start : Effect Value) :
    Option String :=
  match (start >>= fun u => observe policy fuel (.ready u)) Γ.memory with
  | .value t _ => some t
  | .fault _ _ | .outOfFuel => none

theorem text?_eq_some {start : Effect Value} {fuel : Nat} :
    Γ.text? policy fuel start = some t ↔ ∃ u m m', start Γ.memory = .value u m ∧
      observe policy fuel (.ready u) m = .value t m' := by
  show (match Effect.bind start _ Γ.memory with
    | .value t _ => some t
    | .fault _ _ | .outOfFuel => none) = some t ↔ _
  rw [Effect.bind]
  cases start Γ.memory with
  | value u m =>
      cases hshow : observe policy fuel (.ready u) m with
      | value t' m' => simp [hshow]
      | fault f m' => simp [hshow]
      | outOfFuel => simp [hshow]
  | fault f m => simp
  | outOfFuel => simp

/-- Data that the machine shows for a computation is its text by name. -/
theorem Starts.shows {start : Nat → Effect Value} {fuel fuel' : Nat}
    (h : ∀ fuel, Follows policy Γ fuel) (hstart : Starts Γ x start)
    (hshow : Γ.text? policy fuel' (start fuel) = some t) (ht : FirstOrder t) : Shows Γ x t := by
  obtain ⟨u, m, m', heval, hobserve⟩ := text?_eq_some.mp hshow
  have hkeeps := hstart.begins.keeps fuel
  rw [heval] at hkeeps
  obtain ⟨H, -, hs, v, hread, hv⟩ := hkeeps
  have hshown := (observe_keeps h fuel').1 hs (.ready hread)
  rw [hobserve] at hshown
  obtain ⟨-, -, -, htext⟩ := hshown
  exact (htext.shows ht).represents (Same.of_evals hv).symm.equiv.1

theorem shows_of_evalCode {c : Code} {fuel fuel' : Nat} (h : ∀ fuel, Follows policy Γ fuel)
    (hshow : Γ.text? policy fuel' (evalCode policy fuel c) = some t) (ht : FirstOrder t) :
    Shows Γ (.code c) t :=
  (evalCode_starts h c).shows h hshow ht

/-- The machine shows the text that an expression has by name. -/
theorem evalExpr_of_shows (h : ∀ fuel, Follows policy Γ fuel) (hs : Shows Γ (.expr e []) t) :
    ∃ N, ∀ fuel, N ≤ fuel → Γ.text? policy fuel (evalExpr policy fuel e) = some t := by
  obtain ⟨v, c, hy⟩ := hs.evals
  have hshown : Shows Γ (.ready v) t := hs.represents (Same.of_evals ⟨c, hy⟩).equiv.1
  obtain ⟨N, hobserve⟩ := observe_ends h hshown.displays
  refine ⟨5 * c + 6 + N, fun fuel hfuel => text?_eq_some.mpr ?_⟩
  obtain ⟨u, m, H, heval, hsound, hread⟩ :=
    (evalExpr_starts h e).begins.returns hy (show _ ≤ fuel by omega)
  obtain ⟨t', m', H', hobs, -, rfl⟩ := (hobserve fuel (by omega) hsound (.ready hread)).value (by simp)
  exact ⟨u, m, m', heval, hobs⟩

/-- **The readable form of a definition shows what its code shows.**  If code has a value
that is shown as data, and the connectives that are recognised in it join booleans, then the
readable form has a value, and it is shown by the same text. -/
theorem text_renamed (d : Definition) {fuel fuel' : Nat} (hlimit : policy.limit = none)
    (hlogical : Logical Γ d.value.symbols (Stages.ofDefinition .empty d).idioms)
    (hshow : Γ.text? policy fuel' (evalCode policy fuel d.value) = some t) (ht : FirstOrder t) :
    ∃ N, ∀ fuel, N ≤ fuel →
      Γ.text? policy fuel (evalExpr policy fuel (Stages.ofDefinition .empty d).renamed) = some t := by
  have hfollows : ∀ fuel, Follows policy Γ fuel := follows hlimit Γ
  have hcode : Shows Γ (.code d.value) t := shows_of_evalCode hfollows hshow ht
  exact evalExpr_of_shows hfollows (renamed_shows d hlogical hcode)

/-- A symbol that is not bound stands for the data of the frame. -/
theorem Spares.evals_sym {names : List String} {ρ : Scope} {x : String} {a : Data} {v : Val}
    (hρ : Spares names ρ) (hx : x ∈ names) (ha : Γ.lookup x = some a) :
    Evals Γ (.expr (.sym x) ρ) v ↔ a.val = v := by
  have hlookup : Γ.world.names.lookup x = some (.ready a.val) := by simp [Frame.world, ha]
  simp [Evals, next, nextExpr, hρ x hx, global, hlookup]

end Machine

/-- `[car(x) || y, car(z) || 5]`, where `x` is `[false]`, `y` is true and `z` is `[true]`. -/
theorem text_renamed_booleans :
    let either (p q : Code) : Code := .ap (.ap (.ap (.ap (.prim .s) (.prim .i)) (.prim .i)) p) q
    let first (x : String) : Code := .ap (.prim .car) (.sym x)
    let d : Definition := ⟨"d", .list [either (first "x") (.sym "y"), either (first "z") (.int 5)]⟩
    let policy : Policy := { limit := none }
    let Γ : Frame := [("x", .cons (.bool false) .nil), ("y", .bool true),
      ("z", .cons (.bool true) .nil)]
    Logical Γ d.value.symbols (Stages.ofDefinition .empty d).idioms ∧
      Γ.text? policy 30 (evalCode policy 30 d.value) = some "[true, true]" ∧
      ∃ N, ∀ fuel, N ≤ fuel → Γ.text? policy fuel
        (evalExpr policy fuel (Stages.ofDefinition .empty d).renamed) = some "[true, true]" := by
  intro either first d policy Γ
  have hidioms : (Stages.ofDefinition .empty d).idioms =
      .list [.binary .or (.call (.prim .car) [.sym "x"]) (.sym "y"),
        .binary .or (.call (.prim .car) [.sym "z"]) (.int 5)] :=
    eq_of_equal _ (by decide +kernel)
  have hlogical : Logical Γ d.value.symbols (Stages.ofDefinition .empty d).idioms := by
    rw [hidioms]
    intro c hc ρ hρ
    have hcar : ∀ {s t v}, s ∈ d.value.symbols → Γ.lookup s = some (.cons (.bool t) .nil) →
        (Evals Γ (.expr (.call (.prim .car) [.sym s]) ρ) v ↔ .bool t = v) := by
      intro s t v hs ht
      have hcons : Evals Γ (.expr (.sym s) ρ) (.cons (.ready (.bool t)) (.ready .nil)) :=
        (hρ.evals_sym hs ht).mpr rfl
      have hprim : Same Γ (.expr (.prim .car) ρ) (.ready (.unary .car)) := .of_next rfl
      have hsame := (same_call (.prim .car) (.sym s) ρ).trans ((hprim.apply _).trans
        ((same_car _).trans ((Same.of_evals hcons).apply _)))
      exact (hsame v).trans (by simp)
    have hx : Boolean Γ (.expr (.call (.prim .car) [.sym "x"]) ρ) :=
      fun v hv => ⟨false, ((hcar (by decide) rfl).mp hv).symm⟩
    have hy : Boolean Γ (.expr (.sym "y") ρ) :=
      fun v hv => ⟨true, ((hρ.evals_sym (a := .bool true) (by decide) rfl).mp hv).symm⟩
    have hz : ∀ v, Evals Γ (.expr (.call (.prim .car) [.sym "z"]) ρ) v → v = .bool true :=
      fun v hv => ((hcar (by decide) rfl).mp hv).symm
    rcases List.mem_cons.mp hc with rfl | hc
    · exact ⟨hx, fun _ => hy⟩
    · obtain rfl := List.mem_singleton.mp hc
      exact ⟨fun v hv => ⟨true, hz v hv⟩, fun hv => by simpa using hz _ hv⟩
  have hshow : Γ.text? policy 30 (evalCode policy 30 d.value) = some "[true, true]" := by
    decide +kernel
  exact ⟨hlogical, hshow, text_renamed d rfl hlogical hshow (by decide)⟩

/-- `1 == 2 || 5`: the code selects 5, and the readable form wants a boolean. -/
theorem text_renamed_number :
    let d : Definition := ⟨"d", .ap (.ap (.ap (.ap (.prim .s) (.prim .i)) (.prim .i))
      (.ap (.ap (.prim .eq) (.int 1)) (.int 2))) (.int 5)⟩
    let policy : Policy := { limit := none }
    Frame.text? [] policy 30 (evalCode policy 30 d.value) = some "5" ∧ ∀ fuel, ∃ m,
      evalExpr policy (fuel + 4) (Stages.ofDefinition .empty d).renamed (Frame.memory []) =
        .fault (.expectedBoolean .int) m := by
  refine ⟨by decide +kernel, fun fuel => ?_⟩
  have hrenamed : (Stages.ofDefinition .empty ⟨"d", .ap (.ap (.ap (.ap (.prim .s) (.prim .i))
      (.prim .i)) (.ap (.ap (.prim .eq) (.int 1)) (.int 2))) (.int 5)⟩).renamed =
      .binary .or (.binary .eq (.int 1) (.int 2)) (.int 5) := by rfl
  rw [hrenamed]
  exact ⟨_, rfl⟩

/-! ### Tidying -/

/-- **The tidy form of an expression shows what the expression shows.**  If an expression has a
value that is shown as data, then its tidy form has a value, and it is shown by the same text. -/
theorem text_tidy {policy : Policy} {Γ : Frame} {t : String} (e : Expr) {fuel fuel' : Nat}
    (hlimit : policy.limit = none)
    (hshow : Γ.text? policy fuel' (evalExpr policy fuel e) = some t) (ht : FirstOrder t) :
    ∃ N, ∀ fuel, N ≤ fuel → Γ.text? policy fuel (evalExpr policy fuel e.tidy) = some t := by
  have hfollows : ∀ fuel, Follows policy Γ fuel := follows hlimit Γ
  have hshows : Shows Γ (.expr e []) t := (evalExpr_starts hfollows e).shows hfollows hshow ht
  exact evalExpr_of_shows hfollows (hshows.represents (tidy_stands e).represents)

/-- `[f([-17]), -x + 5]`, where `f` is `fun(l) -> if isnil(l) { 0 } else { let h::r = l in
h + -(x * (h / x)) }` and `x` is 3.  Its tidy form has a match, a remainder and a difference. -/
theorem text_tidy_remainder :
    let f : Expr := .func "l" [] (.cond (.isNil (.sym "l")) (.int 0) (.letCons "h" "r" (.sym "l")
      (.binary .add (.sym "h")
        (.neg (.binary .mul (.sym "x") (.binary .div (.sym "h") (.sym "x")))))))
    let f' : Expr := .func "l" [] (.matchList (.sym "l") (.int 0) "h" "r"
      (.binary .mod (.sym "h") (.sym "x")))
    let e : Expr := .list [.call f [.list [.neg (.int 17)]],
      .binary .add (.neg (.sym "x")) (.int 5)]
    let policy : Policy := { limit := none }
    let Γ : Frame := [("x", .int 3)]
    e.tidy = .list [.call f' [.list [.int (-17)]], .binary .sub (.int 5) (.sym "x")] ∧
      Γ.text? policy 30 (evalExpr policy 30 e) = some "[-2, 2]" ∧
      ∃ N, ∀ fuel, N ≤ fuel →
        Γ.text? policy fuel (evalExpr policy fuel e.tidy) = some "[-2, 2]" := by
  intro f f' e policy Γ
  have hshow : Γ.text? policy 30 (evalExpr policy 30 e) = some "[-2, 2]" := by decide +kernel
  exact ⟨by rfl, hshow, text_tidy e rfl hshow (by decide)⟩

end Decombinator.ByName
