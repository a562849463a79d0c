/-
Running a definition beside the others.

A session runs a definition twice, as it was entered and as it reads after all stages, on one
machine on which the other definitions have been evaluated in turn.  Some of these may have failed,
and what has failed for want of a name keeps failing after the name is defined.  So a name need not
stand for its definition on that machine.  But both runs begin in the same memory, and that memory
can be read by name as it is.  Then what is known of the stages can be used: what has data for
value as it was entered has the same as it reads.

The machine knows definitions by the names they were entered under, and the readable form refers to
them by the names of the dictionary.  So it takes a dictionary that leaves the names alone.
-/
import Decombinator.Proofs.ByName.Snapshot
import Decombinator.Proofs.Locality
import Decombinator.Proofs.Machine.Definitions
import Decombinator.Proofs.Meaning.Stages
import Decombinator.Proofs.Session

namespace Decombinator

open Machine

/-! ### What is seen of a value -/

/-- What is seen of a value without looking into it. -/
inductive Shape
  | int (n : Int64)
  | bool (b : Bool)
  | nil
  | cons
  | probe (first : Bool)
  | function
  deriving DecidableEq

def Machine.Value.shape : Value → Shape
  | .int n => .int n
  | .bool b => .bool b
  | .nil => .nil
  | .cons _ _ => .cons
  | .probe first => .probe first
  | .unary _ | .binary _ | .binary1 _ _ | .ternary _ | .ternary1 _ _ | .ternary2 _ _ _
  | .always _ | .second | .closure _ _ _ _ _ => .function

namespace ByName

def Val.shape : Val → Shape
  | .int n => .int n
  | .bool b => .bool b
  | .nil => .nil
  | .cons _ _ => .cons
  | .probe first => .probe first
  | .unary _ | .binary _ | .binary1 _ _ | .ternary _ | .ternary1 _ _ | .ternary2 _ _ _
  | .always _ | .second | .closure _ _ _ _ _ => .function

theorem ReadsVal.shape_eq {H : List Arg} {v : Value} {v' : Val} (h : ReadsVal H v v') :
    v.shape = v'.shape := by
  cases h <;> rfl

/-- A computation has a value that looks like `s`. -/
def Looks (Γ : Globals) (s : Shape) (x : Arg) : Prop :=
  ∃ v, Evals Γ x v ∧ v.shape = s

section Looks

variable {Γ : Globals} {x x' : Arg} {s : Shape}

/-- Data looks like what represents it. -/
theorem Looks.represents (hs : s ≠ .function) (h : Represents Γ x x') (hx : Looks Γ s x) :
    Looks Γ s x' := by
  obtain ⟨v, hv, rfl⟩ := hx
  cases v with
  | cons hd tl =>
      obtain ⟨hd', tl', hx', -⟩ := h.cons hv
      exact ⟨_, hx', rfl⟩
  | int n => exact ⟨_, (h.matches (k := 0) hv).evals rfl (by simp), rfl⟩
  | bool b => exact ⟨_, (h.matches (k := 0) hv).evals rfl (by simp), rfl⟩
  | nil => exact ⟨_, (h.matches (k := 0) hv).evals rfl (by simp), rfl⟩
  | probe first => exact ⟨_, (h.matches (k := 0) hv).evals rfl (by simp), rfl⟩
  | _ => exact absurd rfl hs

theorem Represents.applyAll (h : Represents Γ x x') (args : List Arg) :
    Represents Γ (applyAll x args) (applyAll x' args) := by
  intro k
  exact (h k).applyAll (List.forall₂_same.mpr fun z _ => Below.refl z)

/-- What a definition does on arguments, as far as that is data, goes through all stages. -/
theorem renamed_looks (d : Definition) (args : List Arg) (hs : s ≠ .function)
    (hlogical : (Stages.ofDefinition .empty d).renamed.isLogical)
    (h : Looks Γ s (applyAll (.code d.value) args)) :
    Looks Γ s (applyAll (.expr (Stages.ofDefinition .empty d).renamed []) args) :=
  renamed_passes (P := fun x => Looks Γ s (applyAll x args)) d
    (fun hrep hx => hx.represents hs (hrep.applyAll args)) (idioms_logical d hlogical) h

end Looks

end ByName

namespace Session

open ByName

/-! ### Loading definitions -/

section Loading

variable {m : Memory}

/-- **Evaluating one more definition.** -/
theorem load_entered (h : ∃ defs, Machine.Entered policy defs m) (name : String) (c : Code) :
    ∃ defs, Machine.Entered policy defs (load m name c) := by
  obtain ⟨defs, h⟩ := h
  unfold load
  cases heval : evalCode policy fuel c m with
  | value v m' => exact ⟨(name, c) :: defs, h.of_eq name heval⟩
  | fault f m' =>
      exact ⟨defs, .failed h (converges_of_eq (evalCode_extends policy c) heval (by simp))⟩
  | outOfFuel => exact ⟨defs, h⟩

theorem loadNext_entered (s : Session) (skip : String) (h : ∃ defs, Machine.Entered policy defs m)
    (name : String) : ∃ defs, Machine.Entered policy defs (s.loadNext skip m name) := by
  unfold loadNext
  by_cases hskip : name = skip
  · rwa [if_pos hskip]
  · rw [if_neg hskip]
    cases s.defs.lookup name with
    | some st => exact load_entered h name _
    | none => exact h

theorem foldl_entered (s : Session) (skip : String) (names : List String) :
    ∀ {m}, (∃ defs, Machine.Entered policy defs m) →
      ∃ defs, Machine.Entered policy defs (names.foldl (s.loadNext skip) m) := by
  induction names with
  | nil => exact fun h => h
  | cons name names ih => exact fun h => ih (s.loadNext_entered skip h name)

/-- On the machine of a session definitions have been evaluated in turn. -/
theorem globals_entered (s : Session) (skip : String) :
    ∃ defs, Machine.Entered policy defs (s.globals skip) :=
  s.foldl_entered skip s.order ⟨[], .start⟩

theorem globals_sane (s : Session) (skip : String) : Sane (s.globals skip) := by
  obtain ⟨_, h⟩ := s.globals_entered skip
  exact h.sane

end Loading

/-! ### Running a definition -/

/-- A definition, applied to arguments in turn. -/
def applied (start : Effect Value) (args : List Int64) : Effect Operand := do
  let v ← start
  Machine.applyAll policy fuel (.ready v) (args.map fun n => .ready (.int n))

/-- What a session shows of a run is what is observed of the application. -/
theorem runOn_eq (name : String) (start : Effect Value) (args : List Int64) (m : Memory) :
    runOn name start args m =
      match (applied start args >>= observe policy fuel) m with
      | .value text _ => text
      | .fault f _ => Output.red ((Problem.ofFault f).explain name "")
      | .outOfFuel => Output.red "out of fuel" := by
  have hshown : (do
      let v ← start
      let r ← Machine.applyAll policy fuel (.ready v) (args.map fun n => .ready (.int n))
      observe policy fuel r : Effect String) m = (applied start args >>= observe policy fuel) m := by
    show Effect.bind start _ m = Effect.bind (Effect.bind start _) _ m
    unfold Effect.bind
    cases start m with
    | value v m' => rfl
    | fault f m' => rfl
    | outOfFuel => rfl
  rw [← hshown]
  rfl

/-- What is seen of a run. -/
inductive Result
  | value (s : Shape)
  | fault (f : Fault)
  | outOfFuel
  deriving DecidableEq

/-- Applies a definition to arguments and evaluates what that gives. -/
def result (start : Effect Value) (args : List Int64) (m : Memory) : Result :=
  match (applied start args >>= force policy fuel) m with
  | .value v _ => .value v.shape
  | .fault f _ => .fault f
  | .outOfFuel => .outOfFuel

theorem result_of_applied {start : Effect Value} {args : List Int64} {m m' : Memory} {f : Fault}
    (h : applied start args m = .fault f m') : result start args m = .fault f := by
  unfold result
  show (match Effect.bind (applied start args) (force policy fuel) m with
    | .value v _ => Result.value v.shape
    | .fault f _ => .fault f
    | .outOfFuel => .outOfFuel) = .fault f
  rw [Effect.bind, h]

section Running

variable {Γ : World} {H : List Arg} {m : Memory} {x : Arg} {start : Effect Value} {s : Shape}

/-- Arguments by name. -/
def operands (args : List Int64) : List Arg :=
  args.map fun n => .ready (.int n)

theorem reads_operands (H : List Arg) (args : List Int64) :
    List.Forall₂ (Reads H) (args.map fun n => .ready (.int n)) (operands args) := by
  induction args with
  | nil => exact .nil
  | cons n args ih => exact .cons (.ready (.int n)) ih

/-- A run follows the application by name. -/
theorem result_reaches (h : Follows policy Γ fuel) (args : List Int64)
    (hstart : Reaches Γ H (next Γ x) (fuel + 1) 6 .ready (start m)) :
    Reaches Γ H (.of (applyAll x (operands args))) (fuel + 1) 2 .ready
      ((applied start args >>= force policy fuel) m) := by
  refine h.thenForce (Reaches.through (operands args) hstart ?_ (by omega))
  intro H' m' v y d _ hs hy _
  exact (h.applyAll hs hy (reads_operands H' args)).shift (.refl _) (by omega)

/-- A run that gives a value is a computation with such a value. -/
theorem looks_of_result (h : Follows policy Γ fuel) (args : List Int64)
    (hstart : Reaches Γ H (next Γ x) (fuel + 1) 6 .ready (start m))
    (hresult : result start args m = .value s) : Looks Γ s (applyAll x (operands args)) := by
  have hreaches := result_reaches h args hstart
  unfold result at hresult
  cases hrun : (applied start args >>= force policy fuel) m with
  | value w m' =>
      rw [hrun] at hreaches hresult
      obtain ⟨H', v, -, -, hread, hv⟩ := hreaches.yields rfl
      exact ⟨v, gives_of.mp hv, hread.shape_eq ▸ Result.value.inj hresult⟩
  | fault f m' =>
      rw [hrun] at hresult
      cases hresult
  | outOfFuel =>
      rw [hrun] at hresult
      cases hresult

/-- A run of a computation that has a value gives it, unless a fault comes up that is excused. -/
theorem result_of_looks (h : Follows policy Γ fuel) (args : List Int64)
    (hstart : Reaches Γ H (next Γ x) (fuel + 1) 6 .ready (start m))
    (hlooks : Looks Γ s (applyAll x (operands args))) :
    result start args m = .value s ∨ (∃ f, Γ.excused f ∧ result start args m = .fault f) ∨
      result start args m = .outOfFuel := by
  obtain ⟨v, hv, rfl⟩ := hlooks
  have hgives : Gives Γ (.of (applyAll x (operands args))) v := gives_of.mpr hv
  have hreaches := result_reaches h args hstart
  unfold result
  cases hrun : (applied start args >>= force policy fuel) m with
  | value w m' =>
      rw [hrun] at hreaches
      obtain ⟨H', v', -, -, hread, hv'⟩ := hreaches.yields rfl
      rw [hgives.unique hv']
      exact Or.inl (congrArg Result.value hread.shape_eq)
  | fault f m' =>
      rw [hrun] at hreaches
      rcases hreaches.2 with ⟨c, hraises⟩ | hexcused
      · obtain ⟨c', hyields⟩ := hgives
        cases (Concludes.unique hraises hyields).2
      · exact Or.inr (Or.inl ⟨f, hexcused, rfl⟩)
  | outOfFuel => exact Or.inr (Or.inr rfl)

section Definitions

variable {d : Definition} {e : Expr} {args : List Int64}
  (he : e = (Stages.ofDefinition .empty d).renamed) (hlogical : e.isLogical)
  (hraw : result (evalCode policy fuel d.value) args m = .value s) (hs : s ≠ .function)

include he hlogical hraw hs

/-- What a definition does on arguments as entered, if that is data, it does as it reads, unless a
fault comes up that is excused. -/
theorem result_of_sound (h : Follows policy Γ fuel) (hm : Sound Γ H m) :
    result (evalExpr policy fuel e) args m = .value s ∨
      (∃ f, Γ.excused f ∧ result (evalExpr policy fuel e) args m = .fault f) ∨
      result (evalExpr policy fuel e) args m = .outOfFuel := by
  have hcode : Looks Γ s (applyAll (.code d.value) (operands args)) :=
    looks_of_result h args (h.evalCode hm _) hraw
  have hexpr : Looks Γ s (applyAll (.expr e []) (operands args)) := by
    rw [he] at hlogical ⊢
    exact renamed_looks d (operands args) hs hlogical hcode
  exact result_of_looks h args (h.evalExpr hm e) hexpr

/-- Whatever fault comes up, there is a world in which it is not excused, unless it is the limit. -/
theorem result_of_sane (hm : Sane m) :
    result (evalExpr policy fuel e) args m = .value s ∨
      (∃ limit, result (evalExpr policy fuel e) args m = .fault (.stepLimit limit)) ∨
      result (evalExpr policy fuel e) args m = .outOfFuel := by
  have hread : ∀ f, (∀ limit, f ≠ .stepLimit limit) →
      result (evalExpr policy fuel e) args m = .value s ∨
      (∃ f', f' ≠ f ∧ result (evalExpr policy fuel e) args m = .fault f') ∨
      result (evalExpr policy fuel e) args m = .outOfFuel := by
    intro f hf
    obtain ⟨Γ, H, hsound, hlimit, hexcused⟩ := exists_reading hm hf
    have hfollows : Follows policy Γ fuel := followsWithin (fun limit _ => hlimit limit) fuel
    refine (result_of_sound he hlogical hraw hs hfollows hsound).imp_right (Or.imp_left ?_)
    rintro ⟨f', hf', heq⟩
    exact ⟨f', fun he => hexcused (he ▸ hf'), heq⟩
  cases hresult : result (evalExpr policy fuel e) args m with
  | value s' => simpa [hresult] using hread .notBoolean (by simp)
  | outOfFuel => exact Or.inr (Or.inr rfl)
  | fault f =>
      by_cases hf : ∃ limit, f = .stepLimit limit
      · obtain ⟨limit, rfl⟩ := hf
        exact Or.inr (Or.inl ⟨limit, rfl⟩)
      · have hfault := hread f fun limit he => hf ⟨limit, he⟩
        simp [hresult] at hfault

end Definitions

end Running

/-- A definition that is stored has gone through the stages. -/
theorem stored_eq {dict : Dictionary} {tracing : Bool} {steps : List Step} {name : String}
    {st : Stages} (h : (run { dict, tracing } steps).defs.lookup name = some st) :
    st = Stages.ofDefinition dict st.definition := by
  rw [(run_records dict tracing steps).lookup] at h
  obtain ⟨d, -, rfl⟩ := Option.map_eq_some_iff.mp h
  rfl

/-- **References resolve alike in a definition as entered and as it reads.**  Take any session and a
definition in it.  Let the dictionary have no other names for what the definition refers to, and
declare no types for these and for its parameters; and let its connectives join booleans.  If the
definition as entered, applied to integers beside the other definitions, has data for value, then
it has the same value as it reads, as far as that can be seen without looking into it, unless the
machine is stopped by the limit on steps or by its depth.  In no case is a name unbound, even if
other definitions have failed for want of a name and keep failing. -/
theorem result_renamed (dict : Dictionary) (tracing : Bool) (steps : List Step) (name : String)
    (args : List Int64) :
    let s := run { dict, tracing } steps
    let m := s.globals name
    ∀ (st : Stages) (shape : Shape), s.defs.lookup name = some st →
      (∀ x ∈ st.definition.value.symbols, dict.nameOf x = x ∧ dict.signature? x = none) →
      (∀ x ∈ st.folded.binders, dict.signature? x = none) →
      st.renamed.isLogical →
      result (evalCode policy fuel st.definition.value) args m = .value shape →
      shape ≠ .function →
      (result (evalExpr policy fuel st.renamed) args m = .value shape ∨
        (∃ limit, result (evalExpr policy fuel st.renamed) args m = .fault (.stepLimit limit)) ∨
        result (evalExpr policy fuel st.renamed) args m = .outOfFuel) ∧
      ∀ x m', applied (evalExpr policy fuel st.renamed) args m ≠ .fault (.unbound x) m' := by
  intro s m st shape hst hsymbols hparams hlogical hraw hshape
  have hstages : st = Stages.ofDefinition dict st.definition := stored_eq hst
  -- The dictionary makes no difference, so what is known without one applies.
  have hrenamed : st.renamed = (Stages.ofDefinition .empty st.definition).renamed := by
    rw [hstages] at hparams ⊢
    exact Stages.renamed_eq_empty (fun x hx => (hsymbols x hx).1) (fun x hx => (hsymbols x hx).2)
      hparams
  have hresult := result_of_sane hrenamed hlogical hraw hshape (s.globals_sane name)
  refine ⟨hresult, fun x m' hunbound => ?_⟩
  rw [result_of_applied hunbound] at hresult
  rcases hresult with heq | ⟨limit, heq⟩ | heq
  · cases heq
  · cases heq
  · cases heq

/-- A session after lines that are read as given definitions. -/
theorem run_lines (s : Session) (lines : List String) (ds : List Definition)
    (h : lines.map (fun line => (Step.line line).accepted?) = ds.map some) :
    run s (lines.map .line) =
      ds.foldl (fun s d => s.remember d.name (Stages.ofDefinition s.dict d)) s := by
  induction lines generalizing s ds with
  | nil =>
      cases ds with
      | nil => rfl
      | cons d ds => cases h
  | cons line lines ih =>
      cases ds with
      | nil => cases h
      | cons d ds =>
          obtain ⟨hline, hlines⟩ := List.cons.inj h
          have hline : (Step.line line).accepted? = some d := hline
          have hstep : s.step (.line line) = s.remember d.name (Stages.ofDefinition s.dict d) := by
            rw [step_eq, hline]
          show run (s.step (.line line)) (lines.map .line) = _
          rw [hstep, ih _ ds hlines]
          rfl

/-- `f` adds `one` twice.  What it refers to is entered after it.  So is `pair`, whose head was
needed before `one` was there; it keeps failing when `one` is there, and `f` does not need it.  The
dictionary has a name for something else. -/
theorem result_renamed_later :
    let dict : Dictionary := ⟨[⟨"g", "foo", some .bool⟩]⟩
    let s := run { dict, tracing := false } (["f = ap ap b inc inc", "inc = ap add one",
      "pair = ap ap cons one nil", "bad = ap car pair", "one = 1"].map .line)
    let m := s.globals "f"
    ∃ st, s.defs.lookup "f" = some st ∧
      result (evalCode policy fuel (.sym "one")) [] m = .value (.int 1) ∧
      result (evalCode policy fuel (.ap (.prim .car) (.sym "pair"))) [] m =
        .fault (.unbound "one") ∧
      result (evalCode policy fuel st.definition.value) [5] m = .value (.int 7) ∧
      (result (evalExpr policy fuel st.renamed) [5] m = .value (.int 7) ∨
        (∃ limit, result (evalExpr policy fuel st.renamed) [5] m = .fault (.stepLimit limit)) ∨
        result (evalExpr policy fuel st.renamed) [5] m = .outOfFuel) ∧
      ∀ x m', applied (evalExpr policy fuel st.renamed) [5] m ≠ .fault (.unbound x) m' := by
  intro dict s m
  let d : Definition := ⟨"f", .ap (.ap (.prim .b) (.sym "inc")) (.sym "inc")⟩
  have hs := run_lines { dict, tracing := false }
    ["f = ap ap b inc inc", "inc = ap add one", "pair = ap ap cons one nil", "bad = ap car pair",
      "one = 1"]
    [d, ⟨"inc", .ap (.prim .add) (.sym "one")⟩,
      ⟨"pair", .ap (.ap (.prim .cons) (.sym "one")) (.prim .nil)⟩,
      ⟨"bad", .ap (.prim .car) (.sym "pair")⟩, ⟨"one", .int 1⟩] (by decide +kernel)
  have hm := congrArg (globals · "f") hs
  have hst : s.defs.lookup "f" = some (Stages.ofDefinition dict d) := by
    rw [show s = _ from hs]
    rfl
  have hraw : result (evalCode policy fuel d.value) [5] m = .value (.int 7) := by
    rw [show m = _ from hm]
    decide +kernel
  refine ⟨_, hst, ?_, ?_, hraw, result_renamed dict false _ "f" [5] _ (.int 7) hst
    (by decide +kernel) (by decide +kernel) (by decide +kernel) hraw (by decide)⟩
  · rw [show m = _ from hm]
    decide +kernel
  · rw [show m = _ from hm]
    decide +kernel

/-- `f` is `g`, which the dictionary calls `foo`.  As entered it is 5, and as it reads it refers to
a name that the machine does not have. -/
theorem result_renamed_other_name :
    let s := run { dict := ⟨[⟨"g", "foo", none⟩]⟩, tracing := false }
      (["g = 5", "f = ap i g"].map .line)
    let m := s.globals "f"
    ∃ st, s.defs.lookup "f" = some st ∧
      result (evalCode policy fuel st.definition.value) [] m = .value (.int 5) ∧
      result (evalExpr policy fuel st.renamed) [] m = .fault (.unbound "foo") := by
  intro s m
  have hs := run_lines { dict := ⟨[⟨"g", "foo", none⟩]⟩, tracing := false } ["g = 5", "f = ap i g"]
    [⟨"g", .int 5⟩, ⟨"f", .ap (.prim .i) (.sym "g")⟩] (by decide +kernel)
  refine ⟨Stages.ofDefinition ⟨[⟨"g", "foo", none⟩]⟩ ⟨"f", .ap (.prim .i) (.sym "g")⟩, ?_, ?_, ?_⟩
  · rw [show s = _ from hs]
    rfl
  · rw [show m = _ from congrArg (globals · "f") hs]
    decide +kernel
  · rw [show m = _ from congrArg (globals · "f") hs]
    decide +kernel

end Session

end Decombinator
