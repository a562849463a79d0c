/-
Memories, read by name as they are.

If it is known how a memory came about, its addresses stand for what was suspended there.  But any
memory can be read, by what it holds at the moment.  Every address is given a name of its own, and
the name stands for what its cell holds: the computation that is pending, or the outcome that was
kept.  The name of a cell that has failed stands for nothing, and raises the fault that was kept.
Cells may refer to each other in a circle, since names may.

So whatever was done to a machine before, from now on it evaluates by name, apart from the limit on
steps.
-/
import Decombinator.Proofs.ByName.Memory
import Decombinator.Proofs.Fresh
import Decombinator.Proofs.Machine.References
import Mathlib.Algebra.Order.BigOperators.Group.List
import Mathlib.Algebra.Order.Group.Nat

namespace Decombinator.ByName

open Machine

/-! ### Names for addresses -/

/-- Names for the addresses of a memory, apart from its global names. -/
structure Naming (m : Memory) where
  name : Nat → String
  injective : ∀ a b, name a = name b → a = b
  fresh : ∀ a, m.globals.lookup (name a) = none

theorem lookup_eq_none_of_length {env : Env} {x : String}
    (h : ∀ b ∈ env, b.1.length < x.length) : env.lookup x = none := by
  refine List.lookup_eq_none_iff.mpr fun b hb => ?_
  rw [bne_iff_ne]
  rintro rfl
  exact Nat.lt_irrefl _ (h b hb)

/-- Names that are longer than all others, and so apart from any given one too. -/
theorem exists_naming (m : Memory) (x : String) : ∃ ν : Naming m, ∀ a, ν.name a ≠ x := by
  let lengths := x.length :: m.globals.map fun b => b.1.length
  let stem := String.ofList (List.replicate (lengths.sum + 1) '#')
  have hlong : ∀ l ∈ lengths, ∀ a, l < (Fresh.numbered stem a).length := by
    intro l hl a
    have hle : l ≤ lengths.sum := List.le_sum_of_mem hl
    have hstem : stem.length = lengths.sum + 1 := by simp [stem]
    rw [Fresh.numbered, String.length_append, hstem]
    omega
  refine ⟨⟨Fresh.numbered stem, Fresh.numbered_injective stem, fun a => ?_⟩, fun a he => ?_⟩
  · refine lookup_eq_none_of_length fun b hb => hlong _ ?_ a
    exact List.mem_cons_of_mem _ (List.mem_map_of_mem hb)
  · have he : Fresh.numbered stem a = x := he
    have hlt := hlong x.length List.mem_cons_self a
    rw [he] at hlt
    exact Nat.lt_irrefl _ hlt

/-! ### Reading what memory holds -/

mutual

/-- A value, with names for the addresses in it. -/
def readVal (name : Nat → String) : Value → Val
  | .int n => .int n
  | .bool b => .bool b
  | .nil => .nil
  | .cons h t => .cons (readOperand name h) (readOperand name t)
  | .unary f => .unary f
  | .binary f => .binary f
  | .binary1 f x => .binary1 f (readOperand name x)
  | .ternary f => .ternary f
  | .ternary1 f x => .ternary1 f (readOperand name x)
  | .ternary2 f x y => .ternary2 f (readOperand name x) (readOperand name y)
  | .always x => .always (readOperand name x)
  | .second => .second
  | .closure label env p ps b => .closure label (readEnv name env) p ps b
  | .probe first => .probe first

def readOperand (name : Nat → String) : Operand → Arg
  | .ready v => .ready (readVal name v)
  | .delayed a => .code (.sym (name a))

def readEnv (name : Nat → String) : List (String × Operand) → Scope
  | [] => []
  | (x, y) :: env => (x, readOperand name y) :: readEnv name env

end

def readSuspension (name : Nat → String) : Suspension → Arg
  | .code c => .code c
  | .expr e env => .expr e (readEnv name env)
  | .apply f x => .apply (readOperand name f) (readOperand name x)

/-- What a cell stands for, or the fault that it has instead. -/
def readCell (name : Nat → String) : Cell → Except Fault Arg
  | .pending s => .ok (readSuspension name s)
  | .done y => .ok (readOperand name y)
  | .failed f => .error f

namespace Naming

variable {m : Memory} (ν : Naming m)

/-- The cell whose address has a given name. -/
def cell? (x : String) : Option Cell :=
  ((List.range m.cells.size).find? fun a => ν.name a == x).bind fun a => m.cells[a]?

theorem cell?_name {a : Nat} {c : Cell} (ha : m.cells[a]? = some c) :
    ν.cell? (ν.name a) = some c := by
  have hlt : a < m.cells.size := (Array.getElem?_eq_some_iff.mp ha).1
  have hfind : ((List.range m.cells.size).find? fun b => ν.name b == ν.name a) = some a := by
    cases hb : (List.range m.cells.size).find? fun b => ν.name b == ν.name a with
    | none => simpa using List.find?_eq_none.mp hb a (List.mem_range.mpr hlt)
    | some b =>
        have hname := List.find?_some hb
        rw [ν.injective b a (eq_of_beq hname)]
  rw [cell?, hfind, Option.bind_some, ha]

theorem exists_name {x : String} {c : Cell} (h : ν.cell? x = some c) : ∃ a, x = ν.name a := by
  obtain ⟨a, ha, -⟩ := Option.bind_eq_some_iff.mp h
  have hname := List.find?_some ha
  exact ⟨a, (eq_of_beq hname).symm⟩

/-- A global name is not the name of a cell. -/
theorem cell?_global {x : String} {y : Operand} (hx : m.globals.lookup x = some y) :
    ν.cell? x = none := by
  cases hcell : ν.cell? x with
  | none => rfl
  | some c =>
      obtain ⟨a, rfl⟩ := ν.exists_name hcell
      cases hx.symm.trans (ν.fresh a)

/-- What names stand for at the moment. -/
def names : Globals where
  lookup x :=
    match ν.cell? x with
    | some c => (readCell ν.name c).toOption
    | none => (m.globals.lookup x).map (readOperand ν.name)
  fault x :=
    match ν.cell? x with
    | some (.failed f) => f
    | _ => .unbound x

/-- The world in which the memory is as it is. -/
def world : World where
  names := ν.names
  env := m.globals
  excused f := (∃ limit, f = .stepLimit limit) ∨ ∃ a, f = .unbound (ν.name a)
  missing {x} hx := by
    cases hcell : ν.cell? x with
    | none => exact Or.inl (by simp [global, names, hcell, hx])
    | some c =>
        obtain ⟨a, rfl⟩ := ν.exists_name hcell
        exact Or.inr (Or.inr ⟨a, rfl⟩)

theorem global_name {a : Nat} {c : Cell} (ha : m.cells[a]? = some c) :
    global ν.names (ν.name a) =
      match readCell ν.name c with
      | .ok x => .of x
      | .error f => .stuck f := by
  have hcell := ν.cell?_name ha
  cases c with
  | pending s => simp [global, names, hcell, readCell, Except.toOption]
  | done y => simp [global, names, hcell, readCell, Except.toOption]
  | failed f => simp [global, names, hcell, readCell, Except.toOption]

/-! ### Soundness -/

/-- Addresses stand for their names. -/
def addresses : List Arg :=
  (List.range m.cells.size).map fun a => .code (.sym (ν.name a))

theorem getElem_addresses {a : Nat} (ha : a < m.cells.size) :
    ν.addresses[a]? = some (.code (.sym (ν.name a))) := by
  simp [addresses, ha]

mutual

theorem reads_val : ∀ v : Value, InsideVal (Node.Exists m) v →
    ReadsVal ν.addresses v (readVal ν.name v)
  | .int n, _ => .int n
  | .bool b, _ => .bool b
  | .nil, _ => .nil
  | .cons h t, hv =>
      have hparts := insideVal_cons.mp hv
      .cons (reads_operand h hparts.1) (reads_operand t hparts.2)
  | .unary f, _ => .unary f
  | .binary f, _ => .binary f
  | .binary1 f x, hv => .binary1 f (reads_operand x (insideVal_binary1.mp hv))
  | .ternary f, _ => .ternary f
  | .ternary1 f x, hv => .ternary1 f (reads_operand x (insideVal_ternary1.mp hv))
  | .ternary2 f x y, hv =>
      have hparts := insideVal_ternary2.mp hv
      .ternary2 f (reads_operand x hparts.1) (reads_operand y hparts.2)
  | .always x, hv => .always (reads_operand x (insideVal_always.mp hv))
  | .second, _ => .second
  | .closure label env p ps b, hv =>
      .closure label (reads_env env (insideVal_closure.mp hv).1) p ps b
  | .probe first, _ => .probe first

theorem reads_operand : ∀ x : Operand, Inside (Node.Exists m) x →
    Reads ν.addresses x (readOperand ν.name x)
  | .ready v, hx => .ready (reads_val v (inside_ready.mp hx))
  | .delayed _, hx => .delayed (ν.getElem_addresses (inside_delayed.mp hx))

theorem reads_env : ∀ env : List (String × Operand), InsideEnv (Node.Exists m) env →
    ReadsEnv ν.addresses env (readEnv ν.name env)
  | [], _ => .nil
  | (x, y) :: env, henv =>
      .cons x (reads_operand y (henv (x, y) List.mem_cons_self))
        (reads_env env fun q hq => henv q (List.mem_cons_of_mem _ hq))

end

theorem suspends (s : Suspension) (h : ∀ n, s.Occurs n → n.Exists m) :
    Suspends ν.addresses s (readSuspension ν.name s) := by
  cases s with
  | code c => exact .code c
  | expr e env => exact .expr e (ν.reads_env env fun q hq n hn => h n (Or.inl ⟨q, hq, hn⟩))
  | apply f x =>
      exact .apply (ν.reads_operand f fun n hn => h n (Or.inl hn))
        (ν.reads_operand x fun n hn => h n (Or.inr hn))

/-- **A memory is sound in the world in which it is as it is.** -/
theorem sound (hs : Sane m) : Sound ν.world ν.addresses m := by
  refine ⟨by simp [addresses], fun a c ha => ?_, rfl, fun x y hx => ?_⟩
  · have hlt : a < m.cells.size := (Array.getElem?_eq_some_iff.mp ha).1
    have hinside : ∀ n, c.Occurs n → n.Exists m := fun n hn =>
      hs.bounded (n := .addr a) ⟨c, ha, hn⟩
    refine ⟨_, ν.getElem_addresses hlt, ?_⟩
    have hnext := ν.global_name ha
    cases c with
    | pending s =>
        refine .pending (d := 1) (ν.suspends s hinside) ?_
        show Shift _ 1 (global ν.names (ν.name a)) _
        rw [hnext]
        exact .of _
    | done y =>
        refine .done ⟨_, 1, ν.reads_operand y hinside, ?_, Or.inl (Nat.le_refl 1)⟩
        show Shift _ 1 (global ν.names (ν.name a)) _
        rw [hnext]
        exact .of _
    | failed f =>
        refine .failed f (Or.inl ⟨0, ?_⟩)
        show Concludes _ (global ν.names (ν.name a)) 0 _
        rw [hnext]
        exact .stuck f
  · have hinside : Inside (Node.Exists m) y := fun n hn =>
      hs.bounded (n := .name x) ⟨y, hx, hn⟩
    refine ⟨readOperand ν.name y, ?_, _, 1, ν.reads_operand y hinside, .of _, Or.inl (Nat.le_refl 1)⟩
    show ν.names.lookup x = _
    simp [names, ν.cell?_global hx, show m.globals.lookup x = some y from hx]

end Naming

/-- No fault has to be excused but that the limit is exceeded: whatever else is raised in some
reading of a memory, there is another one in which it is not excused. -/
theorem exists_reading {m : Memory} (hs : Sane m) {f : Fault} (hf : ∀ limit, f ≠ .stepLimit limit) :
    ∃ (Γ : World) (H : List Arg), Sound Γ H m ∧ (∀ limit, Γ.excused (.stepLimit limit)) ∧
      ¬ Γ.excused f := by
  let x : String :=
    match f with
    | .unbound x => x
    | _ => ""
  obtain ⟨ν, hν⟩ := exists_naming m x
  refine ⟨ν.world, ν.addresses, ν.sound hs, fun limit => Or.inl ⟨limit, rfl⟩, ?_⟩
  rintro (⟨limit, rfl⟩ | ⟨a, rfl⟩)
  · exact hf limit rfl
  · exact hν a rfl

end Decombinator.ByName
