/-
What a session remembers.

A session goes through entries and commands.  What it remembers can be read off the steps alone:
the definitions that were accepted on the way, and how often tracing was switched.  The order is
that of the first definitions of the names, and each name stands for its last definition.

Each step does one of three things: it adds a definition, it switches tracing, or it leaves the
session as it is (`step_eq`).  Everything about runs comes from that by induction on the steps.
-/
import Mathlib.Data.List.Induction
import Mathlib.Data.List.Nodup
import Mathlib.Logic.Function.Iterate
import Decombinator.Proofs.Text.Lowercase
import Decombinator.Session

namespace Decombinator.Session

/-! ### Steps -/

inductive Step
  | line (entry : String)
  | command (entry : String)

def step (s : Session) : Step → Session
  | .line entry => (s.enter entry).session
  | .command entry => (s.command entry).session

/-- The session after some steps. -/
def run (s : Session) (steps : List Step) : Session :=
  steps.foldl step s

/-- The definition that is read from a step, if there is one. -/
def Step.accepted? : Step → Option Definition
  | .line entry => (parseEntry .batch (normalize entry)).toOption
  | .command _ => none

/-- Whether a step is the command that switches tracing, in upper or lower case. -/
def Step.isTrace : Step → Bool
  | .line _ => false
  | .command entry =>
    (Text.words entry).head?.any fun word => word.toList.map Char.toLower == ":trace".toList

/-- The definitions that are read from steps, in their order. -/
def accepted (steps : List Step) : List Definition :=
  steps.filterMap Step.accepted?

/-- The last definition of a name. -/
def last? (name : String) (ds : List Definition) : Option Definition :=
  (ds.filter (·.name = name)).getLast?

variable {s : Session} {dict : Dictionary} {tracing : Bool} {steps : List Step}

/-! ### One step -/

theorem enter_result (s : Session) (entry text : String) : (s.enter entry).result = .ok text ↔
    ∃ d, (Step.line entry).accepted? = some d ∧ (Stages.ofDefinition s.dict d).print = text := by
  unfold enter Step.accepted?
  cases hparse : parseEntry .batch (normalize entry) with
  | error e => simp [hparse, Except.toOption]
  | ok d => simp [hparse, Except.toOption]

theorem ofWords_eq_trace_iff (words : List String) : Request.ofWords words = .trace ↔
    words.head?.any fun word => word.toList.map Char.toLower == ":trace".toList := by
  cases words with
  | nil => simp [Request.ofWords]
  | cons word rest =>
      have hcase : Text.lower word = ":trace" ↔ word.toList.map Char.toLower = ":trace".toList :=
        Text.lower_eq_iff (by decide)
      rw [List.head?_cons, Option.any_some, beq_iff_eq, ← hcase, Request.ofWords]
      split <;> simp_all

/-- Only switching tracing changes a session. -/
theorem perform_session {r : Request} (h : r ≠ .trace) : (s.perform r).session = s := by
  cases r with
  | trace => exact absurd rfl h
  | apply words =>
      cases words with
      | nil => rfl
      | cons => rfl
  | _ => rfl

/-- What a step does to a session. -/
theorem step_eq (s : Session) (x : Step) : s.step x =
    match x.accepted? with
    | some d => s.remember d.name (Stages.ofDefinition s.dict d)
    | none => { s with tracing := s.tracing ^^ x.isTrace } := by
  cases x with
  | line entry =>
      unfold step enter Step.accepted?
      cases hparse : parseEntry .batch (normalize entry) with
      | error e => simp [hparse, Except.toOption, Step.isTrace]
      | ok d => simp [hparse, Except.toOption]
  | command entry =>
      have htrace := ofWords_eq_trace_iff (Text.words entry)
      show (s.perform _).session = { s with tracing := s.tracing ^^ Step.isTrace (.command entry) }
      by_cases h : Request.ofWords (Text.words entry) = .trace
      · have hx : Step.isTrace (.command entry) = true := htrace.mp h
        rw [h, hx, Bool.xor_true]
        rfl
      · have hx : Step.isTrace (.command entry) = false := by
          rw [← Bool.not_eq_true]
          exact fun hx => h (htrace.mpr hx)
        rw [perform_session h, hx, Bool.xor_false]

theorem isTrace_of_accepted {x : Step} {d : Definition} (h : x.accepted? = some d) :
    x.isTrace = false := by
  cases x with
  | line => rfl
  | command => cases h

/-! ### Remembering -/

theorem lookup_filter_ne (defs : List (String × Stages)) (name x : String) :
    (defs.filter (·.1 != name)).lookup x = if x = name then none else defs.lookup x := by
  induction defs with
  | nil => simp
  | cons b defs ih =>
      obtain ⟨n, st⟩ := b
      by_cases hn : n = name
      · subst hn
        by_cases hx : x = n
        · simpa [hx] using ih
        · have hne : (x == n) = false := by simpa using hx
          simpa [List.lookup_cons, hne, hx] using ih
      · by_cases hx : x = n
        · simp [hx, hn]
        · have hne : (x == n) = false := by simpa using hx
          simpa [List.lookup_cons, hne, hn] using ih

theorem lookup_remember (s : Session) (name x : String) (st : Stages) :
    (s.remember name st).defs.lookup x = if x = name then some st else s.defs.lookup x := by
  unfold remember
  by_cases hx : x = name
  · simp [hx]
  · have hne : (x == name) = false := by simp [hx]
    simp [List.lookup_cons, hne, lookup_filter_ne, hx]

/-- The names of the definitions are those in the order, once each. -/
theorem keys_remember (name : String) (st : Stages) (horder : s.order.Nodup)
    (hkeys : (s.defs.map Prod.fst).Perm s.order) :
    (s.remember name st).order.Nodup ∧
      ((s.remember name st).defs.map Prod.fst).Perm (s.remember name st).order := by
  have hfilter : (s.defs.filter (·.1 != name)).map Prod.fst =
      (s.defs.map Prod.fst).erase name := by
    rw [List.Nodup.erase_eq_filter (hkeys.nodup_iff.mpr horder), List.filter_map]
    rfl
  unfold remember
  by_cases hname : name ∈ s.order
  · simp only [hname, if_true, List.map_cons, hfilter]
    refine ⟨horder, ?_⟩
    have hmem : name ∈ s.defs.map Prod.fst := hkeys.mem_iff.mpr hname
    exact (List.perm_cons_erase hmem).symm.trans hkeys
  · simp only [hname, if_false, List.map_cons, hfilter]
    have hmem : name ∉ s.defs.map Prod.fst := fun h => hname (hkeys.mem_iff.mp h)
    rw [List.erase_of_not_mem hmem]
    refine ⟨horder.append (List.nodup_singleton name) (by simpa using hname), ?_⟩
    exact (hkeys.cons name).trans (List.perm_append_singleton name s.order).symm

/-! ### Runs -/

theorem accepted_concat (steps : List Step) (x : Step) :
    accepted (steps ++ [x]) = accepted steps ++ x.accepted?.toList := by
  unfold accepted
  rw [List.filterMap_append]
  cases h : x.accepted? with
  | some d => simp [h]
  | none => simp [h]

/-- A name that comes up again changes nothing in the order of first names. -/
theorem eraseDups_concat (names : List String) (x : String) : (names ++ [x]).eraseDups =
    if x ∈ names then names.eraseDups else names.eraseDups ++ [x] := by
  rw [List.eraseDups_append]
  by_cases hx : x ∈ names
  · simp [List.removeAll, hx]
  · simp [List.removeAll, hx, List.eraseDups_cons]

theorem last?_concat (name : String) (ds : List Definition) (d : Definition) :
    last? name (ds ++ [d]) = if d.name = name then some d else last? name ds := by
  unfold last?
  rw [List.filter_append, List.getLast?_append]
  by_cases h : d.name = name
  · simp [h]
  · simp [h]

/-- What a session is like after some steps. -/
structure Records (dict : Dictionary) (tracing : Bool) (steps : List Step) (s : Session) :
    Prop where
  dict_eq : s.dict = dict
  nodup : s.order.Nodup
  /-- Names stand in the order of their first definitions. -/
  order_eq : s.order = ((accepted steps).map Definition.name).eraseDups
  keys : (s.defs.map Prod.fst).Perm s.order
  /-- Names stand for their last definitions. -/
  lookup : ∀ name, s.defs.lookup name =
    (last? name (accepted steps)).map (Stages.ofDefinition dict)
  tracing_eq : s.tracing = not^[steps.countP Step.isTrace] tracing

theorem records_nil : Records dict tracing [] { dict, tracing } where
  dict_eq := rfl
  nodup := List.nodup_nil
  order_eq := rfl
  keys := .nil
  lookup _ := rfl
  tracing_eq := rfl

/-- **A step keeps the records.** -/
theorem Records.step (h : Records dict tracing steps s) (x : Step) :
    Records dict tracing (steps ++ [x]) (s.step x) := by
  rw [step_eq]
  cases hx : x.accepted? with
  | some d =>
      have haccepted : accepted (steps ++ [x]) = accepted steps ++ [d] := by
        rw [accepted_concat, hx]
        rfl
      have hcount : (steps ++ [x]).countP Step.isTrace = steps.countP Step.isTrace := by
        simp [List.countP_append, isTrace_of_accepted hx]
      obtain ⟨hnodup, hkeys⟩ := keys_remember d.name (Stages.ofDefinition s.dict d) h.nodup h.keys
      refine ⟨h.dict_eq, hnodup, ?_, hkeys, fun name => ?_, ?_⟩
      · have hmem : d.name ∈ s.order ↔ d.name ∈ (accepted steps).map Definition.name := by
          rw [h.order_eq, List.mem_eraseDups]
        rw [haccepted, List.map_append, List.map_singleton, eraseDups_concat, ← h.order_eq]
        unfold remember
        simp only [hmem]
      · rw [lookup_remember, haccepted, last?_concat, h.lookup, h.dict_eq]
        by_cases hname : name = d.name
        · simp [hname]
        · simp [hname, Ne.symm hname]
      · rw [hcount]
        exact h.tracing_eq
  | none =>
      have haccepted : accepted (steps ++ [x]) = accepted steps := by
        rw [accepted_concat, hx]
        simp
      refine ⟨h.dict_eq, h.nodup, haccepted ▸ h.order_eq, h.keys, haccepted ▸ h.lookup, ?_⟩
      show (s.tracing ^^ x.isTrace) = _
      rw [List.countP_append, h.tracing_eq]
      by_cases htrace : x.isTrace = true
      · simp [htrace, Function.iterate_succ_apply']
      · simp [htrace]

theorem run_records (dict : Dictionary) (tracing : Bool) (steps : List Step) :
    Records dict tracing steps (run { dict, tracing } steps) := by
  induction steps using List.reverseRecOn with
  | nil => exact records_nil
  | append_singleton steps x ih =>
      unfold run at ih ⊢
      rw [List.foldl_append]
      exact ih.step x

/-- A step that neither defines a name nor switches tracing leaves a session as it is. -/
theorem step_of_neither {x : Step} (haccepted : x.accepted? = none) (htrace : x.isTrace = false) :
    s.step x = s := by
  rw [step_eq, haccepted, htrace]
  show { s with tracing := s.tracing ^^ false } = s
  rw [Bool.xor_false]

/-- **What a session remembers.**  After any steps from a new session: the order lists the names
that were defined, each once and in the order of their first definitions; exactly these names have
definitions, and each stands for the stages of its last one; tracing has been switched once for
each command to do so; a step that is neither leaves the session as it is; and a line is
answered by its readable definition if and only if it was accepted. -/
theorem run_state (dict : Dictionary) (tracing : Bool) (steps : List Step) :
    let s := run { dict, tracing } steps
    let ds := accepted steps
    (s.order.Nodup ∧ s.order = (ds.map Definition.name).eraseDups) ∧
    ((s.defs.map Prod.fst).Perm s.order ∧
      ∀ name, s.defs.lookup name = (last? name ds).map (Stages.ofDefinition dict)) ∧
    s.tracing = not^[steps.countP Step.isTrace] tracing ∧
    (∀ x : Step, x.accepted? = none → x.isTrace = false → s.step x = s) ∧
    ∀ entry text, (s.enter entry).result = .ok text ↔
      ∃ d, (Step.line entry).accepted? = some d ∧ (Stages.ofDefinition dict d).print = text := by
  intro s ds
  have h : Records dict tracing steps s := run_records dict tracing steps
  refine ⟨⟨h.nodup, h.order_eq⟩, ⟨h.keys, h.lookup⟩, h.tracing_eq, ?_, fun entry text => ?_⟩
  · intro x haccepted htrace
    exact step_of_neither haccepted htrace
  · rw [enter_result, h.dict_eq]

theorem run_state_help :
    let s := run { dict := ⟨[]⟩, tracing := false } [.line "x = ap add 1", .command ":Trace"]
    (Step.command ":help").accepted? = none ∧ (Step.command ":help").isTrace = false ∧
      s.tracing = true ∧ s.step (.command ":help") = s := by
  have hhelp : (Step.command ":help").isTrace = false := by decide +kernel
  have hcount : [Step.line "x = ap add 1", .command ":Trace"].countP Step.isTrace = 1 := by decide +kernel
  obtain ⟨-, -, htracing, hsame, -⟩ :=
    run_state ⟨[]⟩ false [.line "x = ap add 1", .command ":Trace"]
  rw [hcount] at htracing
  exact ⟨rfl, hhelp, htracing, hsame _ rfl hhelp⟩

end Decombinator.Session
