/-
The grammar of printed expressions.

The rules take characters from the front of a text and give the expression that they print
together with what is left.  They follow the priorities of the printer, one level for each:
level 0 is an atom and the calls made on it, level 1 puts signs in front, and every further
level joins operands of the level below by the operators of its own priority, from the left.
A word is as long as it can be, and what it begins is decided by the word alone.

At most one rule applies to a text, so a text is read in at most one way.
-/
import Decombinator.Expr.Printer
import Mathlib.Data.List.Basic

namespace Decombinator.Expr

/-! ### Words and signs -/

/-- A character of a word: a letter or digit of ASCII, or an underscore. -/
def isWordChar (c : Char) : Bool :=
  c.isAlphanum || c == '_'

/-- The word at the front, and what follows it. -/
def word (cs : List Char) : String × List Char :=
  (String.ofList (cs.takeWhile isWordChar), cs.dropWhile isWordChar)

/-- What follows `sign`, if that is what the text begins with. -/
def skip (sign : String) (cs : List Char) : Option (List Char) :=
  if sign.toList.isPrefixOf cs then some (cs.drop sign.toList.length) else none

/-- An operator with the blanks around it. -/
def joint (op : BinOp) : String :=
  " " ++ op.spelling ++ " "

/-- The operator at the front, and what follows it. -/
def operator? (cs : List Char) : Option (BinOp × List Char) :=
  [BinOp.add, .sub, .mul, .div, .mod, .eq, .lt, .and, .or].findSome? fun op =>
    (skip (joint op) cs).map fun rest => (op, rest)

/-- What a word begins that does not stand for itself. -/
inductive Opening
  | nilTest | conditional | matching | binding | function
  deriving DecidableEq

def openings : List (String × Opening) :=
  [("isnil", .nilTest), ("if", .conditional), ("match", .matching), ("let", .binding),
    ("fun", .function)]

/-- What a word stands for.  Digits may go beyond the largest integer, as they do in the text of
the smallest. -/
def ofWord? (w : String) : Option Expr :=
  match Text.readDigits w.toList with
  | some n => some (int (Int64.ofNat n))
  | none =>
    match Prim.ofSpelling? w with
    | some p => some (prim p)
    | none =>
      match w with
      | "" => none
      | "true" => some (bool true)
      | "false" => some (bool false)
      | _ => some (sym w)

/-- What a minus sign makes of its operand: a sign in front of digits belongs to the
integer. -/
def negated : Expr → Expr
  | int n => int (-n)
  | a => neg a

/-! ### The rules -/

/-- Words with commas between them. -/
inductive ReadsNames : List Char → List String → List Char → Prop
  | last {cs rest : List Char} {x : String} (hword : word cs = (x, rest))
      (hrest : rest.head? ≠ some ',') : ReadsNames cs [x] rest
  | more {cs cs₁ rest : List Char} {x : String} {xs : List String}
      (hword : word cs = (x, ", ".toList ++ cs₁)) (hxs : ReadsNames cs₁ xs rest) :
      ReadsNames cs (x :: xs) rest

mutual

/-- `ReadsLevel k cs e rest`: at level `k`, `e` is read from the front of `cs`, and `rest` is
left. -/
inductive ReadsLevel : Nat → List Char → Expr → List Char → Prop
  | calls {cs cs₁ rest : List Char} {f e : Expr} (hf : ReadsAtom cs f cs₁)
      (he : ReadsCalls f cs₁ e rest) : ReadsLevel 0 cs e rest
  | minus {cs rest : List Char} {a : Expr} (ha : ReadsLevel 1 cs a rest) :
      ReadsLevel 1 ('-' :: cs) (negated a) rest
  | bang {cs rest : List Char} {a : Expr} (ha : ReadsLevel 1 cs a rest) :
      ReadsLevel 1 ('!' :: cs) (not a) rest
  | unsigned {cs rest : List Char} {e : Expr} (hminus : cs.head? ≠ some '-')
      (hbang : cs.head? ≠ some '!') (he : ReadsLevel 0 cs e rest) : ReadsLevel 1 cs e rest
  | chain {k : Nat} {cs cs₁ rest : List Char} {a e : Expr} (ha : ReadsLevel (k + 1) cs a cs₁)
      (he : ReadsChain (k + 2) a cs₁ e rest) : ReadsLevel (k + 2) cs e rest

/-- Behind `a`, the operators of one priority, from the left. -/
inductive ReadsChain : Nat → Expr → List Char → Expr → List Char → Prop
  | done {k : Nat} {a : Expr} {cs : List Char}
      (hcs : ∀ op rest, operator? cs = some (op, rest) → op.priority ≠ k) : ReadsChain k a cs a cs
  | next {k : Nat} {op : BinOp} {a b e : Expr} {cs cs₁ cs₂ rest : List Char}
      (hop : operator? cs = some (op, cs₁)) (hk : op.priority = k)
      (hb : ReadsLevel (k - 1) cs₁ b cs₂) (he : ReadsChain k (binary op a b) cs₂ e rest) :
      ReadsChain k a cs e rest

/-- Behind `f`, its calls. -/
inductive ReadsCalls : Expr → List Char → Expr → List Char → Prop
  | done {f : Expr} {cs : List Char} (hcs : cs.head? ≠ some '(') : ReadsCalls f cs f cs
  | next {f e : Expr} {es : List Expr} {cs cs₁ rest : List Char} (hes : ReadsItems ')' cs es cs₁)
      (he : ReadsCalls (call f es) cs₁ e rest) : ReadsCalls f ('(' :: cs) e rest

/-- Expressions with commas between them, up to a bracket. -/
inductive ReadsItems : Char → List Char → List Expr → List Char → Prop
  | none {close : Char} {rest : List Char} : ReadsItems close (close :: rest) [] rest
  | some {close : Char} {cs rest : List Char} {es : List Expr} (hcs : cs.head? ≠ some close)
      (hes : ReadsSome close cs es rest) : ReadsItems close cs es rest

inductive ReadsSome : Char → List Char → List Expr → List Char → Prop
  | last {close : Char} {cs rest : List Char} {e : Expr} (hclose : close ≠ ',')
      (he : ReadsLevel 7 cs e (close :: rest)) : ReadsSome close cs [e] rest
  | more {close : Char} {cs cs₁ rest : List Char} {e : Expr} {es : List Expr}
      (he : ReadsLevel 7 cs e (", ".toList ++ cs₁)) (hes : ReadsSome close cs₁ es rest) :
      ReadsSome close cs (e :: es) rest

inductive ReadsAtom : List Char → Expr → List Char → Prop
  | paren {cs rest : List Char} {e : Expr} (he : ReadsLevel 7 cs e (")".toList ++ rest)) :
      ReadsAtom ('(' :: cs) e rest
  | bracket {cs rest : List Char} {es : List Expr} (hes : ReadsItems ']' cs es rest) :
      ReadsAtom ('[' :: cs) (list es) rest
  | word {cs rest : List Char} {w : String} {e : Expr} (hword : word cs = (w, rest))
      (hw : openings.lookup w = none) (he : ofWord? w = some e) : ReadsAtom cs e rest
  | form {cs cs₁ rest : List Char} {w : String} {o : Opening} {e : Expr}
      (hword : Expr.word cs = (w, cs₁)) (hw : openings.lookup w = some o)
      (he : ReadsForm o cs₁ e rest) : ReadsAtom cs e rest

/-- What follows the word that begins a form. -/
inductive ReadsForm : Opening → List Char → Expr → List Char → Prop
  | isNil {cs rest : List Char} {a : Expr} (ha : ReadsLevel 7 cs a (")".toList ++ rest)) :
      ReadsForm .nilTest ('(' :: cs) (isNil a) rest
  | cond {cs cs₁ cs₂ rest : List Char} {a b c : Expr}
      (ha : ReadsLevel 7 cs a (" \x7b ".toList ++ cs₁))
      (hb : ReadsLevel 7 cs₁ b (" \x7d else \x7b ".toList ++ cs₂))
      (hc : ReadsLevel 7 cs₂ c (" \x7d".toList ++ rest)) :
      ReadsForm .conditional (' ' :: cs) (cond a b c) rest
  | matchList {cs cs₁ cs₂ cs₃ cs₄ rest : List Char} {v e b : Expr} {h t : String}
      (hv : ReadsLevel 7 cs v (" \x7b [] => ".toList ++ cs₁))
      (he : ReadsLevel 7 cs₁ e (", ".toList ++ cs₂)) (hh : word cs₂ = (h, "::".toList ++ cs₃))
      (ht : word cs₃ = (t, " => ".toList ++ cs₄)) (hb : ReadsLevel 7 cs₄ b (" \x7d".toList ++ rest)) :
      ReadsForm .matching (' ' :: cs) (matchList v e h t b) rest
  | letCons {cs cs₁ cs₂ cs₃ rest : List Char} {v b : Expr} {h t : String}
      (hh : word cs = (h, "::".toList ++ cs₁)) (ht : word cs₁ = (t, " = ".toList ++ cs₂))
      (hv : ReadsLevel 7 cs₂ v (" in ".toList ++ cs₃)) (hb : ReadsLevel 7 cs₃ b rest) :
      ReadsForm .binding (' ' :: cs) (letCons h t v b) rest
  | letIn {cs cs₁ cs₂ rest : List Char} {v b : Expr} {x : String}
      (hx : word cs = (x, " = ".toList ++ cs₁)) (hv : ReadsLevel 7 cs₁ v (" in ".toList ++ cs₂))
      (hb : ReadsLevel 7 cs₂ b rest) : ReadsForm .binding (' ' :: cs) (letIn x v b) rest
  | func {cs cs₁ rest : List Char} {p : String} {ps : List String} {b : Expr}
      (hps : ReadsNames cs (p :: ps) (") -> ".toList ++ cs₁)) (hb : ReadsLevel 7 cs₁ b rest) :
      ReadsForm .function ('(' :: cs) (func p ps b) rest

end

/-! ### Unambiguity -/

theorem ReadsNames.unique {cs rest rest' : List Char} {xs xs' : List String}
    (h : ReadsNames cs xs rest) (h' : ReadsNames cs xs' rest') : xs = xs' ∧ rest = rest' := by
  induction h generalizing xs' with
  | last hword hrest =>
      cases h' with
      | last hword' =>
          obtain ⟨rfl, rfl⟩ := Prod.mk.inj (hword.symm.trans hword')
          exact ⟨rfl, rfl⟩
      | more hword' =>
          obtain ⟨-, rfl⟩ := Prod.mk.inj (hword.symm.trans hword')
          exact absurd rfl hrest
  | more hword hxs ih =>
      cases h' with
      | last hword' hrest' =>
          obtain ⟨-, rfl⟩ := Prod.mk.inj (hword'.symm.trans hword)
          exact absurd rfl hrest'
      | more hword' hxs' =>
          obtain ⟨rfl, hcs⟩ := Prod.mk.inj (hword.symm.trans hword')
          obtain rfl := List.append_cancel_left hcs
          obtain ⟨rfl, rfl⟩ := ih hxs'
          exact ⟨rfl, rfl⟩

mutual

theorem ReadsLevel.unique {k : Nat} {cs rest rest' : List Char} {e e' : Expr} :
    ReadsLevel k cs e rest → ReadsLevel k cs e' rest' → e = e' ∧ rest = rest'
  | .calls hf he, .calls hf' he' => by
      obtain ⟨rfl, rfl⟩ := hf.unique hf'
      exact he.unique he'
  | .minus ha, .minus ha' => by
      obtain ⟨rfl, rfl⟩ := ha.unique ha'
      exact ⟨rfl, rfl⟩
  | .bang ha, .bang ha' => by
      obtain ⟨rfl, rfl⟩ := ha.unique ha'
      exact ⟨rfl, rfl⟩
  | .unsigned _ _ he, .unsigned _ _ he' => he.unique he'
  | .minus _, .unsigned hminus _ _ => absurd rfl hminus
  | .unsigned hminus _ _, .minus _ => absurd rfl hminus
  | .bang _, .unsigned _ hbang _ => absurd rfl hbang
  | .unsigned _ hbang _, .bang _ => absurd rfl hbang
  | .chain ha he, .chain ha' he' => by
      obtain ⟨rfl, rfl⟩ := ha.unique ha'
      exact he.unique he'
termination_by structural h => h

theorem ReadsChain.unique {k : Nat} {a : Expr} {cs rest rest' : List Char} {e e' : Expr} :
    ReadsChain k a cs e rest → ReadsChain k a cs e' rest' → e = e' ∧ rest = rest'
  | .done _, .done _ => ⟨rfl, rfl⟩
  | .done hcs, .next hop hk _ _ => absurd hk (hcs _ _ hop)
  | .next hop hk _ _, .done hcs => absurd hk (hcs _ _ hop)
  | .next hop _ hb he, .next hop' _ hb' he' => by
      obtain ⟨rfl, rfl⟩ := Prod.mk.inj (Option.some.inj (hop.symm.trans hop'))
      obtain ⟨rfl, rfl⟩ := hb.unique hb'
      exact he.unique he'
termination_by structural h => h

theorem ReadsCalls.unique {f : Expr} {cs rest rest' : List Char} {e e' : Expr} :
    ReadsCalls f cs e rest → ReadsCalls f cs e' rest' → e = e' ∧ rest = rest'
  | .done _, .done _ => ⟨rfl, rfl⟩
  | .done hcs, .next _ _ => absurd rfl hcs
  | .next _ _, .done hcs => absurd rfl hcs
  | .next hes he, .next hes' he' => by
      obtain ⟨rfl, rfl⟩ := hes.unique hes'
      exact he.unique he'
termination_by structural h => h

theorem ReadsItems.unique {close : Char} {cs rest rest' : List Char} {es es' : List Expr} :
    ReadsItems close cs es rest → ReadsItems close cs es' rest' → es = es' ∧ rest = rest'
  | .none, .none => ⟨rfl, rfl⟩
  | .none, .some hcs _ => absurd rfl hcs
  | .some hcs _, .none => absurd rfl hcs
  | .some _ hes, .some _ hes' => hes.unique hes'
termination_by structural h => h

theorem ReadsSome.unique {close : Char} {cs rest rest' : List Char} {es es' : List Expr} :
    ReadsSome close cs es rest → ReadsSome close cs es' rest' → es = es' ∧ rest = rest'
  | .last _ he, .last _ he' => by
      obtain ⟨rfl, hrest⟩ := he.unique he'
      exact ⟨rfl, (List.cons.inj hrest).2⟩
  | .last hclose he, .more he' _ => absurd (List.cons.inj (he.unique he').2).1 hclose
  | .more he _, .last hclose he' => absurd (List.cons.inj (he.unique he').2).1.symm hclose
  | .more he hes, .more he' hes' => by
      obtain ⟨rfl, hcs⟩ := he.unique he'
      obtain rfl := List.append_cancel_left hcs
      obtain ⟨rfl, rfl⟩ := hes.unique hes'
      exact ⟨rfl, rfl⟩
termination_by structural h => h

theorem ReadsAtom.unique {cs rest rest' : List Char} {e e' : Expr} :
    ReadsAtom cs e rest → ReadsAtom cs e' rest' → e = e' ∧ rest = rest'
  | .paren he, .paren he' => by
      obtain ⟨rfl, hrest⟩ := he.unique he'
      exact ⟨rfl, List.append_cancel_left hrest⟩
  | .bracket hes, .bracket hes' => by
      obtain ⟨rfl, rfl⟩ := hes.unique hes'
      exact ⟨rfl, rfl⟩
  | .word hword _ he, .word hword' _ he' => by
      obtain ⟨rfl, rfl⟩ := Prod.mk.inj (hword.symm.trans hword')
      exact ⟨Option.some.inj (he.symm.trans he'), rfl⟩
  | .form hword hw he, .form hword' hw' he' => by
      obtain ⟨rfl, rfl⟩ := Prod.mk.inj (hword.symm.trans hword')
      obtain rfl := Option.some.inj (hw.symm.trans hw')
      exact he.unique he'
  | .word hword hw _, .form hword' hw' _ => by
      obtain ⟨rfl, rfl⟩ := Prod.mk.inj (hword.symm.trans hword')
      exact nomatch hw.symm.trans hw'
  | .form hword hw _, .word hword' hw' _ => by
      obtain ⟨rfl, rfl⟩ := Prod.mk.inj (hword.symm.trans hword')
      exact nomatch hw.symm.trans hw'
  -- No word starts with a bracket.
  | .paren _, .word hword _ he => by
      obtain ⟨rfl, rfl⟩ := Prod.mk.inj hword
      exact nomatch he
  | .paren _, .form hword hw _ => by
      obtain ⟨rfl, rfl⟩ := Prod.mk.inj hword
      exact nomatch hw
  | .bracket _, .word hword _ he => by
      obtain ⟨rfl, rfl⟩ := Prod.mk.inj hword
      exact nomatch he
  | .bracket _, .form hword hw _ => by
      obtain ⟨rfl, rfl⟩ := Prod.mk.inj hword
      exact nomatch hw
  | .word hword _ he, .paren _ => by
      obtain ⟨rfl, rfl⟩ := Prod.mk.inj hword
      exact nomatch he
  | .form hword hw _, .paren _ => by
      obtain ⟨rfl, rfl⟩ := Prod.mk.inj hword
      exact nomatch hw
  | .word hword _ he, .bracket _ => by
      obtain ⟨rfl, rfl⟩ := Prod.mk.inj hword
      exact nomatch he
  | .form hword hw _, .bracket _ => by
      obtain ⟨rfl, rfl⟩ := Prod.mk.inj hword
      exact nomatch hw
termination_by structural h => h

theorem ReadsForm.unique {o : Opening} {cs rest rest' : List Char} {e e' : Expr} :
    ReadsForm o cs e rest → ReadsForm o cs e' rest' → e = e' ∧ rest = rest'
  | .isNil ha, .isNil ha' => by
      obtain ⟨rfl, hrest⟩ := ha.unique ha'
      exact ⟨rfl, List.append_cancel_left hrest⟩
  | .cond ha hb hc, .cond ha' hb' hc' => by
      obtain ⟨rfl, hcs⟩ := ha.unique ha'
      obtain rfl := List.append_cancel_left hcs
      obtain ⟨rfl, hcs⟩ := hb.unique hb'
      obtain rfl := List.append_cancel_left hcs
      obtain ⟨rfl, hrest⟩ := hc.unique hc'
      exact ⟨rfl, List.append_cancel_left hrest⟩
  | .matchList hv he hh ht hb, .matchList hv' he' hh' ht' hb' => by
      obtain ⟨rfl, hcs⟩ := hv.unique hv'
      obtain rfl := List.append_cancel_left hcs
      obtain ⟨rfl, hcs⟩ := he.unique he'
      obtain rfl := List.append_cancel_left hcs
      obtain ⟨rfl, hcs⟩ := Prod.mk.inj (hh.symm.trans hh')
      obtain rfl := List.append_cancel_left hcs
      obtain ⟨rfl, hcs⟩ := Prod.mk.inj (ht.symm.trans ht')
      obtain rfl := List.append_cancel_left hcs
      obtain ⟨rfl, hrest⟩ := hb.unique hb'
      exact ⟨rfl, List.append_cancel_left hrest⟩
  | .letCons hh ht hv hb, .letCons hh' ht' hv' hb' => by
      obtain ⟨rfl, hcs⟩ := Prod.mk.inj (hh.symm.trans hh')
      obtain rfl := List.append_cancel_left hcs
      obtain ⟨rfl, hcs⟩ := Prod.mk.inj (ht.symm.trans ht')
      obtain rfl := List.append_cancel_left hcs
      obtain ⟨rfl, hcs⟩ := hv.unique hv'
      obtain rfl := List.append_cancel_left hcs
      obtain ⟨rfl, rfl⟩ := hb.unique hb'
      exact ⟨rfl, rfl⟩
  | .letIn hx hv hb, .letIn hx' hv' hb' => by
      obtain ⟨rfl, hcs⟩ := Prod.mk.inj (hx.symm.trans hx')
      obtain rfl := List.append_cancel_left hcs
      obtain ⟨rfl, hcs⟩ := hv.unique hv'
      obtain rfl := List.append_cancel_left hcs
      obtain ⟨rfl, rfl⟩ := hb.unique hb'
      exact ⟨rfl, rfl⟩
  | .letCons hh _ _ _, .letIn hx _ _ => nomatch (Prod.mk.inj (hh.symm.trans hx)).2
  | .letIn hx _ _, .letCons hh _ _ _ => nomatch (Prod.mk.inj (hx.symm.trans hh)).2
  | .func hps hb, .func hps' hb' => by
      obtain ⟨hnames, hcs⟩ := hps.unique hps'
      obtain ⟨rfl, rfl⟩ := List.cons.inj hnames
      obtain rfl := List.append_cancel_left hcs
      obtain ⟨rfl, rfl⟩ := hb.unique hb'
      exact ⟨rfl, rfl⟩
termination_by structural h => h

end

/-! ### The front of a text -/

/-- A text that is one word. -/
def Unbroken (w : String) : Prop :=
  w ≠ "" ∧ w.toList.all isWordChar = true

instance (w : String) : Decidable (Unbroken w) :=
  inferInstanceAs (Decidable (_ ∧ _))

theorem Unbroken.exists_cons {w : String} (h : Unbroken w) :
    ∃ c cs, w.toList = c :: cs ∧ isWordChar c = true := by
  obtain ⟨c, cs, hcons⟩ := List.exists_cons_of_ne_nil (l := w.toList) (by simpa using h.1)
  exact ⟨c, cs, hcons, List.all_eq_true.mp h.2 c (by simp [hcons])⟩

/-- A word that stands before the text ends there. -/
def Apart (cs : List Char) : Prop :=
  ∀ c ∈ cs.head?, isWordChar c = false

/-- An expression that stands before the text ends there, if its operators have a priority
below `k`. -/
structure Clear (k : Nat) (cs : List Char) : Prop where
  apart : Apart cs
  uncalled : cs.head? ≠ some '('
  unjoined : ∀ op rest, operator? cs = some (op, rest) → k ≤ op.priority

theorem Clear.mono {j k : Nat} {cs : List Char} (h : Clear k cs) (hjk : j ≤ k) : Clear j cs :=
  ⟨h.apart, h.uncalled, fun op rest hop => Nat.le_trans hjk (h.unjoined op rest hop)⟩

theorem apart_cons {c : Char} {cs : List Char} (hc : isWordChar c = false) : Apart (c :: cs) := by
  simpa [Apart] using hc

theorem word_append {w : String} {cs : List Char} (h : Unbroken w) (hcs : Apart cs) :
    word (w.toList ++ cs) = (w, cs) := by
  have hw := List.all_eq_true.mp h.2
  have hstop : cs.takeWhile isWordChar = [] ∧ cs.dropWhile isWordChar = cs := by
    cases cs with
    | nil => exact ⟨rfl, rfl⟩
    | cons c cs => simp [hcs c rfl]
  unfold word
  rw [List.takeWhile_append_of_pos hw, List.dropWhile_append_of_pos hw, hstop.1, hstop.2,
    List.append_nil, String.ofList_toList]

theorem operator?_joint (op : BinOp) (cs : List Char) :
    operator? ((joint op).toList ++ cs) = some (op, cs) := by
  cases op <;> rfl

theorem clear_joint (op : BinOp) (cs : List Char) :
    Clear op.priority ((joint op).toList ++ cs) where
  apart := by cases op <;> exact apart_cons rfl
  uncalled := by cases op <;> exact fun h => absurd (Option.some.inj h) (by decide)
  unjoined op' rest h := by
    rw [operator?_joint] at h
    cases h
    exact Nat.le_refl _

end Decombinator.Expr
