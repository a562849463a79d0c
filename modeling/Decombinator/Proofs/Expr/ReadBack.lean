/-
Printed expressions can be read back.

Parentheses are printed only where a priority asks for them, and names are printed as they are,
so not every expression can be recovered from its text.  An expression is legible if its names
are words that mean nothing else, and if it has none of the few nodes that are printed like
another one: `-5` is also the text of an integer, `==` and `<` are also operators, and `isnil`
with an argument is also the test; a function as an operand takes in what follows it, and a
sign is printed outside the call of what it stands before.

The text of a legible expression is read as that expression, in every position in which the
printer puts it.  How reading goes on behind an expression depends on what follows, so the
statement is about a text with an arbitrary rest: whatever is read behind the expression, with
calls at level 0 and with operators at the levels from 2, is read of the whole text.  Since a
text is read in at most one way, legible expressions with the same text are the same.
-/
import Decombinator.Proofs.Expr.Grammar
import Decombinator.Proofs.Expr.Names
import Decombinator.Proofs.Text.Integer
import Mathlib.Tactic.FinCases

namespace Decombinator.Expr

/-! ### Legible expressions -/

/-- The words that a name must not be. -/
def reserved : List String :=
  Prim.all.map Prim.spelling ++
    ["true", "false", "fun", "if", "else", "match", "let", "in", "isnil"]

/-- A word that starts with no digit and is not reserved. -/
structure IsName (x : String) : Prop where
  unbroken : Unbroken x
  start : x.toList.head?.any Char.isDigit = false
  unreserved : x ∉ reserved

def isFunc : Expr → Bool
  | func _ _ _ => true
  | _ => false

/-- Whether the text starts with a sign. -/
def isSigned : Expr → Bool
  | neg _ | not _ => true
  | int n => n < 0
  | _ => false

/-- Whether no other node is printed like this one. -/
def isPlain : Expr → Bool
  | prim p => p ≠ .eq ∧ p ≠ .lt ∧ p ≠ .isnil
  | neg (int _) => false
  | binary _ a b => !a.isFunc && !b.isFunc
  | call f _ => !f.isSigned
  | _ => true

structure Legible (e : Expr) : Prop where
  names : ∀ x ∈ e.symbols ++ e.binders, IsName x
  nodes : ∀ n ∈ e.nodes, n.isPlain = true

instance (x : String) : Decidable (IsName x) :=
  decidable_of_iff (Unbroken x ∧ x.toList.head?.any Char.isDigit = false ∧ x ∉ reserved)
    ⟨fun h => ⟨h.1, h.2.1, h.2.2⟩, fun h => ⟨h.1, h.2, h.3⟩⟩

instance (e : Expr) : Decidable (Legible e) :=
  decidable_of_iff ((∀ x ∈ e.symbols ++ e.binders, IsName x) ∧ ∀ n ∈ e.nodes, n.isPlain = true)
    ⟨fun h => ⟨h.1, h.2⟩, fun h => ⟨h.1, h.2⟩⟩

namespace Legible

variable {e a : Expr}

theorem part (h : Legible e) (ha : a ∈ e.parts) : Legible a where
  names x hx := h.names x (List.mem_append.mpr
    ((List.mem_append.mp hx).imp (mem_symbols_of_part ha) (mem_binders_of_part ha)))
  nodes n hn := h.nodes n (mem_nodes_of_part ha hn)

theorem plain (h : Legible e) : e.isPlain = true :=
  h.nodes e (by rw [nodes_eq_parts]; exact List.mem_cons_self)

theorem binder (h : Legible e) {x : String} (hx : x ∈ e.ownBinders) : IsName x :=
  h.names x (List.mem_append_right _ (mem_binders_of_own hx))

theorem symbol {x : String} (h : Legible (sym x)) : IsName x :=
  h.names x (List.mem_append_left _ List.mem_cons_self)

end Legible

/-! ### The characters of an expression -/

def chars (e : Expr) : List Char :=
  (print e).toList

/-- The characters of `e` in a position that allows priorities up to `limit`. -/
def slot (limit : Nat) (e : Expr) : List Char :=
  (within limit e (print e)).toList

/-- The characters of expressions with commas between them. -/
def items (es : List Expr) : List Char :=
  (String.intercalate ", " (printAll es)).toList

theorem slot_of_le {limit : Nat} {e : Expr} (h : e.priority ≤ limit) : slot limit e = chars e := by
  rw [slot, within, if_neg (Nat.not_lt.mpr h), chars]

theorem slot_of_lt {limit : Nat} {e : Expr} (h : limit < e.priority) :
    slot limit e = '(' :: (chars e ++ ")".toList) := by
  rw [slot, within, if_pos h, String.toList_append, String.toList_append]
  rfl

theorem items_singleton (e : Expr) : items [e] = chars e := by
  show (String.intercalate ", " [print e]).toList = _
  rw [String.intercalate_singleton, chars]

theorem items_cons_cons (e f : Expr) (es : List Expr) :
    items (e :: f :: es) = chars e ++ (", ".toList ++ items (f :: es)) := by
  show (String.intercalate ", " (print e :: print f :: printAll es)).toList = _
  rw [String.intercalate_cons_cons, String.toList_append, String.toList_append, List.append_assoc]
  rfl

section Chars

variable (a b c v e f : Expr) (h t x p : String) (ps : List String) (es : List Expr)

theorem chars_list : chars (list es) = '[' :: (items es ++ [']']) := by
  show ("[" ++ String.intercalate ", " (printAll es) ++ "]").toList = _
  rw [String.toList_append, String.toList_append]
  rfl

theorem chars_neg : chars (neg a) = '-' :: slot 1 a := by
  show ("-" ++ within 1 a (print a)).toList = _
  rw [String.toList_append]
  rfl

theorem chars_not : chars (not a) = '!' :: slot 1 a := by
  show ("!" ++ within 1 a (print a)).toList = _
  rw [String.toList_append]
  rfl

theorem chars_call : chars (call f es) = slot 1 f ++ '(' :: (items es ++ [')']) := by
  show (within 1 f (print f) ++ "(" ++ String.intercalate ", " (printAll es) ++ ")").toList = _
  simp only [String.toList_append, List.append_assoc]
  rfl

theorem chars_binary (op : BinOp) :
    chars (binary op a b) =
      slot op.priority a ++ ((joint op).toList ++ slot (op.priority - 1) b) := by
  show (within op.priority a (print a) ++ " " ++ op.spelling ++ " " ++
    within (op.priority - 1) b (print b)).toList = _
  simp only [slot, joint, String.toList_append, List.append_assoc]

theorem chars_isNil :
    chars (isNil a) = "isnil".toList ++ ("(".toList ++ (chars a ++ ")".toList)) := by
  show ("isnil(" ++ print a ++ ")").toList = _
  simp only [String.toList_append, List.append_assoc]
  rfl

theorem chars_cond :
    chars (cond a b c) = "if".toList ++ (" ".toList ++ (chars a ++ (" \x7b ".toList ++ (chars b ++
      (" \x7d else \x7b ".toList ++ (chars c ++ " \x7d".toList)))))) := by
  show ("if " ++ print a ++ " \x7b " ++ print b ++ " \x7d else \x7b " ++ print c ++ " \x7d").toList = _
  simp only [String.toList_append, List.append_assoc]
  rfl

theorem chars_matchList :
    chars (matchList v e h t b) = "match".toList ++ (" ".toList ++ (chars v ++
      (" \x7b [] => ".toList ++ (chars e ++ (", ".toList ++ (h.toList ++ ("::".toList ++ (t.toList ++
        (" => ".toList ++ (chars b ++ " \x7d".toList)))))))))) := by
  show ("match " ++ print v ++ " \x7b [] => " ++ print e ++ ", " ++ h ++ "::" ++ t ++ " => " ++
      print b ++ " \x7d").toList = _
  simp only [String.toList_append, List.append_assoc]
  rfl

theorem chars_letCons :
    chars (letCons h t v b) = "let".toList ++ (" ".toList ++ (h.toList ++ ("::".toList ++ (t.toList ++
      (" = ".toList ++ (chars v ++ (" in ".toList ++ chars b))))))) := by
  show ("let " ++ h ++ "::" ++ t ++ " = " ++ print v ++ " in " ++ print b).toList = _
  simp only [String.toList_append, List.append_assoc]
  rfl

theorem chars_letIn :
    chars (letIn x v b) = "let".toList ++ (" ".toList ++ (x.toList ++ (" = ".toList ++ (chars v ++
      (" in ".toList ++ chars b))))) := by
  show ("let " ++ x ++ " = " ++ print v ++ " in " ++ print b).toList = _
  simp only [String.toList_append, List.append_assoc]
  rfl

theorem chars_func :
    chars (func p ps b) = "fun".toList ++ ("(".toList ++
      ((String.intercalate ", " (p :: ps)).toList ++ (") -> ".toList ++ chars b))) := by
  show ("fun(" ++ String.intercalate ", " (p :: ps) ++ ") -> " ++ print b).toList = _
  simp only [String.toList_append, List.append_assoc]
  rfl

end Chars

/-! ### Words by themselves -/

/-- The word is read as the expression. -/
structure StandsFor (w : String) (e : Expr) : Prop where
  unbroken : Unbroken w
  notOpening : openings.lookup w = none
  meaning : ofWord? w = some e

theorem lookup_openings_eq_none {w : String} (h : w ∉ openings.map Prod.fst) :
    openings.lookup w = none := by
  refine List.lookup_eq_none_iff.mpr fun p hp => ?_
  simpa using fun hw : w = p.1 => h (hw ▸ List.mem_map_of_mem hp)

theorem unbroken_natText (n : Nat) : Unbroken (Text.natText n) := by
  constructor
  · intro h
    exact Nat.toDigits_ne_nil (by rw [← Text.toList_natText n, h]; rfl)
  · rw [Text.toList_natText, List.all_eq_true]
    intro c hc
    simp [isWordChar, Char.isAlphanum, Text.isDigit_of_mem_natText hc]

theorem natText_standsFor (n : Nat) : StandsFor (Text.natText n) (int (Int64.ofNat n)) := by
  have hread : Text.readDigits (Text.natText n).toList = some n := by
    rw [Text.toList_natText, Text.readDigits_eq_some_iff]
    exact ⟨Nat.toDigits_ne_nil, fun _ => Text.isDigit_of_mem_natText, Nat.ofDigitChars_ten_toDigits⟩
  refine ⟨unbroken_natText n, lookup_openings_eq_none fun hmem => ?_, by unfold ofWord?; rw [hread]⟩
  have hnone : ∀ w ∈ openings.map Prod.fst, Text.readDigits w.toList = none := by decide
  rw [hnone _ hmem] at hread
  contradiction

theorem spelling_standsFor {p : Prim} (h : (prim p).isPlain = true) :
    StandsFor p.spelling (prim p) := by
  constructor <;> cases p <;> first | rfl | decide | contradiction

theorem name_standsFor {x : String} (h : IsName x) : StandsFor x (sym x) := by
  have hsub : ∀ w ∈ openings.map Prod.fst, w ∈ reserved := by decide
  have hprim : Prim.ofSpelling? x = none := by
    refine List.find?_eq_none.mpr fun p hp heq => h.unreserved ?_
    have hx : p.spelling = x := by simpa using heq
    exact List.mem_append_left _ (hx ▸ List.mem_map_of_mem hp)
  have hdigits : Text.readDigits x.toList = none := by
    obtain ⟨c, cs, hcons, -⟩ := h.unbroken.exists_cons
    have hfirst : c.isDigit = false := by simpa [hcons] using h.start
    refine Option.eq_none_iff_forall_not_mem.mpr fun n hn => ?_
    have hdigit := (Text.readDigits_eq_some_iff.mp hn).2.1 c (by simp [hcons])
    simp [hfirst] at hdigit
  refine ⟨h.unbroken, lookup_openings_eq_none fun hx => h.unreserved (hsub x hx), ?_⟩
  simp only [ofWord?, hdigits, hprim]
  split
  · exact absurd rfl h.unbroken.1
  · exact absurd (by decide) h.unreserved
  · exact absurd (by decide) h.unreserved
  · rfl

/-! ### The first character -/

/-- Whether an atom can start with the character. -/
def isOpening (c : Char) : Bool :=
  c == '(' || c == '[' || isWordChar c

/-- The text is not empty, and its first character is one of these. -/
def Starts (p : Char → Bool) (cs : List Char) : Prop :=
  ∃ c ∈ cs.head?, p c = true

theorem Starts.append {p : Char → Bool} {cs : List Char} (h : Starts p cs) (ds : List Char) :
    Starts p (cs ++ ds) := by
  obtain ⟨c, hc, hp⟩ := h
  cases cs with
  | nil => contradiction
  | cons d cs => exact ⟨c, hc, hp⟩

theorem Starts.head?_ne {p : Char → Bool} {cs : List Char} {d : Char} (h : Starts p cs)
    (hd : p d = false) : cs.head? ≠ some d := by
  obtain ⟨c, hc, hp⟩ := h
  rintro heq
  rw [heq] at hc
  cases hc
  simp [hd] at hp

theorem starts_word {w : String} (hw : Unbroken w) : Starts isOpening w.toList := by
  obtain ⟨c, cs, hcons, hc⟩ := hw.exists_cons
  exact ⟨c, by simp [hcons], by simp [isOpening, hc]⟩

/-! ### Integers -/

theorem chars_int_of_nonneg {n : Int64} (h : (int n).isSigned = false) :
    ∃ m, n = Int64.ofNat m ∧ chars (int n) = (Text.natText m).toList := by
  have hn : ¬ n < 0 := by simpa [isSigned] using h
  rw [Int64.lt_iff_toInt_lt] at hn
  obtain ⟨m, hm⟩ := Int.eq_ofNat_of_zero_le (Int.not_lt.mp hn)
  refine ⟨m, ?_, ?_⟩
  · rw [← Int64.ofInt_toInt n, hm, Int64.ofInt_eq_ofNat]
  · show (Text.intText n.toInt).toList = _
    rw [hm]
    rfl

theorem chars_int_of_neg {n : Int64} (h : (int n).isSigned = true) :
    ∃ m, n = -Int64.ofNat m ∧ chars (int n) = '-' :: (Text.natText m).toList := by
  have hn : n < 0 := by simpa [isSigned] using h
  rw [Int64.lt_iff_toInt_lt] at hn
  obtain ⟨m, hm⟩ := Int.eq_negSucc_of_lt_zero hn
  refine ⟨m + 1, ?_, ?_⟩
  · rw [← Int64.ofInt_toInt n, hm, Int.negSucc_eq, Int64.ofInt_neg]
    rfl
  · show (Text.intText n.toInt).toList = _
    rw [hm]
    show ("-" ++ Text.natText (m + 1)).toList = _
    rw [String.toList_append]
    rfl

/-! ### Where texts start -/

theorem starts_slot {p : Char → Bool} {k : Nat} {e : Expr} (hp : p '(' = true)
    (h : e.priority ≤ k → Starts p (chars e)) : Starts p (slot k e) := by
  by_cases hk : e.priority ≤ k
  · rw [slot_of_le hk]
    exact h hk
  · rw [slot_of_lt (Nat.lt_of_not_le hk)]
    exact ⟨'(', rfl, hp⟩

/-- Without a sign, a text of level 0 starts like an atom. -/
theorem starts_opening {e : Expr} (h : Legible e) (hsign : e.isSigned = false)
    (hp : e.priority ≤ 1) : Starts isOpening (chars e) := by
  induction e with
  | int n =>
      obtain ⟨m, -, hchars⟩ := chars_int_of_nonneg hsign
      rw [hchars]
      exact starts_word (unbroken_natText m)
  | sym x => exact starts_word h.symbol.unbroken
  | bool b => cases b <;> exact ⟨_, rfl, rfl⟩
  | prim p =>
      have hplain := h.plain
      cases p <;> first | contradiction | exact ⟨_, rfl, rfl⟩
  | list es =>
      rw [chars_list]
      exact ⟨_, rfl, rfl⟩
  | isNil a =>
      rw [chars_isNil]
      exact ⟨_, rfl, rfl⟩
  | call f es ihf =>
      rw [chars_call]
      have hf : f.isSigned = false := by simpa [isPlain] using h.plain
      exact (starts_slot rfl (ihf (h.part (by simp [parts])) hf)).append _
  | binary op a b => cases op <;> contradiction
  | neg | not | cond | matchList | letCons | letIn | func => contradiction

/-- Whether an expression can start with the character. -/
def isLeading (c : Char) : Bool :=
  c == '-' || c == '!' || isOpening c

theorem Starts.leading {cs : List Char} (h : Starts isOpening cs) : Starts isLeading cs := by
  obtain ⟨c, hc, hopen⟩ := h
  exact ⟨c, hc, by simp [isLeading, hopen]⟩

theorem starts_leading {e : Expr} (h : Legible e) : Starts isLeading (chars e) := by
  induction e with
  | int n =>
      by_cases hsign : (int n).isSigned = true
      · obtain ⟨m, -, hchars⟩ := chars_int_of_neg hsign
        rw [hchars]
        exact ⟨_, rfl, rfl⟩
      · exact (starts_opening h (by simpa using hsign) (by simp [priority])).leading
  | neg a =>
      rw [chars_neg]
      exact ⟨_, rfl, rfl⟩
  | not a =>
      rw [chars_not]
      exact ⟨_, rfl, rfl⟩
  | binary op a b iha =>
      rw [chars_binary]
      exact (starts_slot rfl fun _ => iha (h.part (by simp [parts]))).append _
  | cond =>
      rw [chars_cond]
      exact ⟨_, rfl, rfl⟩
  | matchList =>
      rw [chars_matchList]
      exact ⟨_, rfl, rfl⟩
  | letCons =>
      rw [chars_letCons]
      exact ⟨_, rfl, rfl⟩
  | letIn =>
      rw [chars_letIn]
      exact ⟨_, rfl, rfl⟩
  | func =>
      rw [chars_func]
      exact ⟨_, rfl, rfl⟩
  | sym | bool | prim | list | isNil | call =>
      exact (starts_opening h rfl (by simp [priority])).leading

/-! ### Levels -/

theorem readsChain_of_clear {k : Nat} {cs : List Char} (a : Expr) (h : Clear (k + 1) cs) :
    ReadsChain k a cs a cs := by
  refine .done fun op rest hop => ?_
  have hlt := h.unjoined op rest hop
  omega

/-- What is read at a level is read at every level above it, as long as no operator follows that
a level in between would take. -/
theorem readsLevel_of_clear {j k : Nat} {e : Expr} {cs rest : List Char}
    (h : ReadsLevel (j + 1) cs e rest) (hjk : j ≤ k) (hrest : Clear (k + 2) rest) :
    ReadsLevel (k + 1) cs e rest := by
  induction hjk with
  | refl => exact h
  | step _ ih => exact .chain (ih (hrest.mono (Nat.le_succ _))) (readsChain_of_clear e hrest)

/-! ### Reading back in a position -/

/-- The characters of `e` are read as `e` in each position in which the printer puts them: as the
function of a call, behind a sign, as an operand, and where any expression may stand. -/
structure ReadsBack (e : Expr) : Prop where
  asFunction : e.isSigned = false → e.priority ≤ 1 → ∀ rest, Apart rest → ∀ x r,
    ReadsCalls e rest x r → ReadsLevel 0 (chars e ++ rest) x r
  behindSign : e.priority ≤ 1 → ∀ rest, Clear 0 rest → ReadsLevel 1 (chars e ++ rest) e rest
  asOperand : e.isFunc = false → ∀ k, e.priority ≤ k + 2 → k + 2 ≤ 7 → ∀ rest, Clear (k + 2) rest →
    ∀ x r, ReadsChain (k + 2) e rest x r → ReadsLevel (k + 2) (chars e ++ rest) x r
  anywhere : ∀ rest, Clear 8 rest → ReadsLevel 7 (chars e ++ rest) e rest

theorem priority_mem_levels (op : BinOp) : 3 ≤ op.priority ∧ op.priority ≤ 7 := by
  cases op <;> decide

namespace ReadsBack

variable {e : Expr}

/-- Forms that only parentheses bring into another position. -/
theorem ofWhole (hp : 1 < e.priority) (hop : e.isFunc = true ∨ 7 < e.priority)
    (h : ∀ rest, Clear 8 rest → ReadsLevel 7 (chars e ++ rest) e rest) : ReadsBack e where
  asFunction _ hle := absurd hle (Nat.not_le.mpr hp)
  behindSign hle := absurd hle (Nat.not_le.mpr hp)
  asOperand hf k hle hk := by
    rcases hop with hop | hop
    · simp [hf] at hop
    · omega
  anywhere := h

theorem ofOperator {op : BinOp} {a b : Expr}
    (h : ∀ rest, Clear op.priority rest → ∀ x r, ReadsChain op.priority (binary op a b) rest x r →
      ReadsLevel op.priority (chars (binary op a b) ++ rest) x r) : ReadsBack (binary op a b) := by
  have hlevels := priority_mem_levels op
  obtain ⟨j, hj⟩ : ∃ j, op.priority = j + 2 := ⟨op.priority - 2, by omega⟩
  have hread : ∀ rest, Clear (j + 3) rest →
      ReadsLevel (j + 2) (chars (binary op a b) ++ rest) (binary op a b) rest := by
    intro rest hrest
    rw [hj] at h
    exact h rest (hrest.mono (Nat.le_succ _)) _ _ (readsChain_of_clear _ hrest)
  constructor
  · intro _ (hle : op.priority ≤ 1)
    omega
  · intro (hle : op.priority ≤ 1)
    omega
  · intro _ k (hle : op.priority ≤ k + 2) _ rest hrest x r hx
    rcases Nat.lt_or_eq_of_le hle with hlt | heq
    · have hread := hread rest (hrest.mono (by omega))
      exact .chain (readsLevel_of_clear hread (by omega) hrest) hx
    · rw [← heq] at hrest hx ⊢
      exact h rest hrest x r hx
  · intro rest hrest
    exact readsLevel_of_clear (hread rest (hrest.mono (by omega))) (by omega) hrest

/-- Behind a sign and above, there is nothing more to read. -/
theorem ofLow (hfunction : e.isSigned = false → ∀ rest, Apart rest → ∀ x r,
      ReadsCalls e rest x r → ReadsLevel 0 (chars e ++ rest) x r)
    (hsign : ∀ rest, Clear 0 rest → ReadsLevel 1 (chars e ++ rest) e rest) : ReadsBack e where
  asFunction hs _ := hfunction hs
  behindSign _ := hsign
  asOperand _ k _ _ rest hrest _ _ hx :=
    .chain (readsLevel_of_clear (hsign rest (hrest.mono (Nat.zero_le _))) (Nat.zero_le k) hrest) hx
  anywhere rest hrest :=
    readsLevel_of_clear (hsign rest (hrest.mono (Nat.zero_le _))) (Nat.zero_le 6) hrest

theorem ofSigned (hs : e.isSigned = true)
    (h : ∀ rest, Clear 0 rest → ReadsLevel 1 (chars e ++ rest) e rest) : ReadsBack e :=
  .ofLow (fun hno => by simp [hs] at hno) h

theorem ofFunction (hstart : Starts isOpening (chars e))
    (h : ∀ rest, Apart rest → ∀ x r, ReadsCalls e rest x r → ReadsLevel 0 (chars e ++ rest) x r) :
    ReadsBack e := by
  refine .ofLow (fun _ => h) fun rest hrest => ?_
  have hfront := hstart.append rest
  exact .unsigned (hfront.head?_ne rfl) (hfront.head?_ne rfl)
    (h rest hrest.apart _ _ (.done hrest.uncalled))

end ReadsBack

/-! ### Slots -/

/-- What the printer puts behind an expression that may be any. -/
def closings : List String :=
  [")", "]", ", ", " \x7b ", " \x7d else \x7b ", " \x7d", " \x7b [] => ", " in "]

theorem clear_closing {k : Nat} {sign : String} (h : sign ∈ closings) (cs : List Char) :
    Clear k (sign.toList ++ cs) := by
  have hop : operator? (sign.toList ++ cs) = none := by
    fin_cases h <;> rfl
  refine ⟨?_, ?_, fun op rest heq => by simp [hop] at heq⟩
  · fin_cases h <;> exact apart_cons rfl
  · fin_cases h <;> exact fun heq => absurd (Option.some.inj heq) (by decide)

theorem ReadsBack.before {e : Expr} (he : ReadsBack e) {sign : String} (h : sign ∈ closings)
    (cs : List Char) : ReadsLevel 7 (chars e ++ (sign.toList ++ cs)) e (sign.toList ++ cs) :=
  he.anywhere _ (clear_closing h cs)

theorem IsName.before {x : String} (hx : IsName x) {sign : String}
    (h : sign ∈ ["::", " = ", " => ", ", "]) (cs : List Char) :
    word (x.toList ++ (sign.toList ++ cs)) = (x, sign.toList ++ cs) := by
  refine word_append hx.unbroken ?_
  fin_cases h <;> exact apart_cons rfl

section Slots

variable {e x : Expr} {rest r : List Char} (he : ReadsBack e)

include he

theorem readsAtom_paren : ReadsAtom ('(' :: (chars e ++ ")".toList) ++ rest) e rest := by
  rw [List.cons_append, List.append_assoc]
  exact .paren (he.before (by decide) rest)

theorem readsLevel_zero_slot (hs : e.isSigned = false) (hrest : Apart rest)
    (hx : ReadsCalls e rest x r) : ReadsLevel 0 (slot 1 e ++ rest) x r := by
  by_cases hp : e.priority ≤ 1
  · rw [slot_of_le hp]
    exact he.asFunction hs hp rest hrest x r hx
  · rw [slot_of_lt (Nat.lt_of_not_le hp)]
    exact .calls (readsAtom_paren he) hx

theorem readsLevel_one_paren (hrest : Clear 0 rest) :
    ReadsLevel 1 ('(' :: (chars e ++ ")".toList) ++ rest) e rest :=
  .unsigned (by simp) (by simp) (.calls (readsAtom_paren he) (.done hrest.uncalled))

theorem readsLevel_one_slot (hrest : Clear 0 rest) : ReadsLevel 1 (slot 1 e ++ rest) e rest := by
  by_cases hp : e.priority ≤ 1
  · rw [slot_of_le hp]
    exact he.behindSign hp rest hrest
  · rw [slot_of_lt (Nat.lt_of_not_le hp)]
    exact readsLevel_one_paren he hrest

theorem readsLevel_slot {k : Nat} (hf : e.isFunc = false) (hk : k + 2 ≤ 7)
    (hrest : Clear (k + 2) rest) (hx : ReadsChain (k + 2) e rest x r) :
    ReadsLevel (k + 2) (slot (k + 2) e ++ rest) x r := by
  by_cases hp : e.priority ≤ k + 2
  · rw [slot_of_le hp]
    exact he.asOperand hf k hp hk rest hrest x r hx
  · rw [slot_of_lt (Nat.lt_of_not_le hp)]
    have hparen := readsLevel_one_paren he (hrest.mono (Nat.zero_le _))
    exact .chain (readsLevel_of_clear hparen (Nat.zero_le k) hrest) hx

end Slots

theorem readsSome_items {close : Char} (hclose : close = ')' ∨ close = ']') {e : Expr}
    {es : List Expr} (h : ∀ a ∈ e :: es, ReadsBack a) (rest : List Char) :
    ReadsSome close (items (e :: es) ++ close :: rest) (e :: es) rest := by
  induction es generalizing e with
  | nil =>
      have he := h e List.mem_cons_self
      rw [items_singleton]
      rcases hclose with rfl | rfl
      · exact .last (by decide) (he.before (show ")" ∈ closings by decide) rest)
      · exact .last (by decide) (he.before (show "]" ∈ closings by decide) rest)
  | cons f es ih =>
      rw [items_cons_cons, List.append_assoc, List.append_assoc]
      exact .more ((h e List.mem_cons_self).before (by decide) _)
        (ih fun a ha => h a (List.mem_cons_of_mem _ ha))

theorem readsItems_items {close : Char} (hclose : close = ')' ∨ close = ']') {es : List Expr}
    (h : ∀ e ∈ es, ReadsBack e) (hstart : ∀ e ∈ es, Starts isLeading (chars e)) (rest : List Char) :
    ReadsItems close (items es ++ close :: rest) es rest := by
  cases es with
  | nil => exact .none
  | cons e es =>
      have hfront : Starts isLeading (items (e :: es) ++ close :: rest) := by
        refine Starts.append ?_ _
        cases es with
        | nil => exact items_singleton e ▸ hstart e List.mem_cons_self
        | cons f es => exact items_cons_cons e f es ▸ (hstart e List.mem_cons_self).append _
      have hne : (items (e :: es) ++ close :: rest).head? ≠ some close :=
        hfront.head?_ne (by rcases hclose with rfl | rfl <;> rfl)
      exact .some hne (readsSome_items hclose h rest)

theorem readsNames_intercalate {p : String} {ps : List String} (h : ∀ x ∈ p :: ps, IsName x)
    {rest : List Char} (hrest : Apart rest) (hcomma : rest.head? ≠ some ',') :
    ReadsNames ((String.intercalate ", " (p :: ps)).toList ++ rest) (p :: ps) rest := by
  induction ps generalizing p with
  | nil =>
      rw [String.intercalate_singleton]
      exact .last (word_append (h p List.mem_cons_self).unbroken hrest) hcomma
  | cons q ps ih =>
      rw [String.intercalate_cons_cons, String.toList_append, String.toList_append,
        List.append_assoc, List.append_assoc]
      exact .more ((h p List.mem_cons_self).before (by decide) _)
        (ih fun x hx => h x (List.mem_cons_of_mem _ hx))

/-! ### Forms that start with a word -/

theorem readsLevel_one_of_atom {cs rest : List Char} {e : Expr} (hstart : Starts isOpening cs)
    (h : ReadsAtom cs e rest) (hrest : rest.head? ≠ some '(') : ReadsLevel 1 cs e rest :=
  .unsigned (hstart.head?_ne rfl) (hstart.head?_ne rfl) (.calls h (.done hrest))

theorem StandsFor.readsAtom {w : String} {e : Expr} (h : StandsFor w e) {rest : List Char}
    (hrest : Apart rest) : ReadsAtom (w.toList ++ rest) e rest :=
  .word (word_append h.unbroken hrest) h.notOpening h.meaning

theorem StandsFor.readsBack {w : String} {e : Expr} (h : StandsFor w e)
    (hchars : chars e = w.toList) : ReadsBack e := by
  refine .ofFunction (hchars ▸ starts_word h.unbroken) fun rest hrest x r hx => ?_
  rw [hchars]
  exact .calls (h.readsAtom hrest) hx

theorem readsAtom_form {w : String} {o : Opening} {e : Expr} {cs rest : List Char}
    (hw : (w, o) ∈ openings) (hcs : Apart cs) (h : ReadsForm o cs e rest) :
    ReadsAtom (w.toList ++ cs) e rest := by
  have hword : Unbroken w ∧ openings.lookup w = some o := by
    fin_cases hw <;> exact ⟨by decide, rfl⟩
  exact .form (word_append hword.1 hcs) hword.2 h

theorem ReadsBack.ofForm {e : Expr} (hp : 1 < e.priority) (hop : e.isFunc = true ∨ 7 < e.priority)
    {w : String} {o : Opening} (hw : (w, o) ∈ openings) {cs : List Char}
    (hchars : chars e = w.toList ++ cs) (hcs : ∀ rest, Apart (cs ++ rest))
    (h : ∀ rest, Clear 8 rest → ReadsForm o (cs ++ rest) e rest) : ReadsBack e := by
  refine .ofWhole hp hop fun rest hrest => ?_
  have hstart : Starts isOpening w.toList := by
    fin_cases hw <;> exact ⟨_, rfl, rfl⟩
  have hatom := readsAtom_form hw (hcs rest) (h rest hrest)
  rw [hchars, List.append_assoc]
  exact readsLevel_of_clear (readsLevel_one_of_atom (hstart.append _) hatom hrest.uncalled)
    (Nat.zero_le 6) hrest

section Forms

variable {a b c v e : Expr} {h t x p : String} {ps : List String}

theorem readsBack_isNil (ha : ReadsBack a) : ReadsBack (isNil a) := by
  refine .ofFunction (by rw [chars_isNil]; exact ⟨_, rfl, rfl⟩) fun rest _ x r hx => ?_
  have hform := ReadsForm.isNil (ha.before (by decide) rest)
  rw [chars_isNil]
  simp only [List.append_assoc]
  exact .calls (readsAtom_form (by decide) (apart_cons rfl) hform) hx

theorem readsBack_cond (ha : ReadsBack a) (hb : ReadsBack b) (hc : ReadsBack c) :
    ReadsBack (cond a b c) := by
  refine .ofForm (o := .conditional) (by simp [priority]) (by simp [priority]) (by decide)
    (chars_cond ..) (fun _ => apart_cons rfl) fun rest _ => ?_
  simp only [List.append_assoc]
  exact .cond (ha.before (by decide) _) (hb.before (by decide) _) (hc.before (by decide) _)

theorem readsBack_matchList (hh : IsName h) (ht : IsName t) (hv : ReadsBack v) (he : ReadsBack e)
    (hb : ReadsBack b) : ReadsBack (matchList v e h t b) := by
  refine .ofForm (o := .matching) (by simp [priority]) (by simp [priority]) (by decide)
    (chars_matchList ..) (fun _ => apart_cons rfl) fun rest _ => ?_
  simp only [List.append_assoc]
  exact .matchList (hv.before (by decide) _) (he.before (by decide) _) (hh.before (by decide) _)
    (ht.before (by decide) _) (hb.before (by decide) _)

theorem readsBack_letCons (hh : IsName h) (ht : IsName t) (hv : ReadsBack v) (hb : ReadsBack b) :
    ReadsBack (letCons h t v b) := by
  refine .ofForm (o := .binding) (by simp [priority]) (by simp [priority]) (by decide)
    (chars_letCons ..) (fun _ => apart_cons rfl) fun rest hrest => ?_
  simp only [List.append_assoc]
  exact .letCons (hh.before (by decide) _) (ht.before (by decide) _) (hv.before (by decide) _)
    (hb.anywhere rest hrest)

theorem readsBack_letIn (hx : IsName x) (hv : ReadsBack v) (hb : ReadsBack b) :
    ReadsBack (letIn x v b) := by
  refine .ofForm (o := .binding) (by simp [priority]) (by simp [priority]) (by decide)
    (chars_letIn ..) (fun _ => apart_cons rfl) fun rest hrest => ?_
  simp only [List.append_assoc]
  exact .letIn (hx.before (by decide) _) (hv.before (by decide) _) (hb.anywhere rest hrest)

theorem readsBack_func (hps : ∀ x ∈ p :: ps, IsName x) (hb : ReadsBack b) :
    ReadsBack (func p ps b) := by
  refine .ofForm (o := .function) (by simp [priority]) (.inl rfl) (by decide)
    (chars_func ..) (fun _ => apart_cons rfl) fun rest hrest => ?_
  have hcomma : ∀ cs, (") -> ".toList ++ cs).head? ≠ some ',' := fun cs heq =>
    absurd (Option.some.inj heq) (by decide)
  simp only [List.append_assoc]
  exact .func (readsNames_intercalate hps (apart_cons rfl) (hcomma _)) (hb.anywhere rest hrest)

theorem readsBack_list {es : List Expr} (h : ∀ e ∈ es, ReadsBack e)
    (hstart : ∀ e ∈ es, Starts isLeading (chars e)) : ReadsBack (list es) := by
  refine .ofFunction (by rw [chars_list]; exact ⟨_, rfl, rfl⟩) fun rest _ x r hx => ?_
  rw [chars_list, List.cons_append, List.append_assoc]
  exact .calls (.bracket (readsItems_items (.inr rfl) h hstart rest)) hx

theorem readsBack_call {f : Expr} {es : List Expr} (hlegible : Legible (call f es))
    (hf : ReadsBack f) (h : ∀ e ∈ es, ReadsBack e) : ReadsBack (call f es) := by
  have hs : f.isSigned = false := by simpa [isPlain] using hlegible.plain
  have hstart : ∀ e ∈ es, Starts isLeading (chars e) := fun e he =>
    starts_leading (hlegible.part (by simp [parts, he]))
  refine .ofFunction (starts_opening hlegible rfl (Nat.le_refl _)) fun rest _ x r hx => ?_
  rw [chars_call, List.append_assoc, List.cons_append, List.append_assoc]
  exact readsLevel_zero_slot hf hs (apart_cons rfl)
    (.next (readsItems_items (.inl rfl) h hstart rest) hx)

theorem readsBack_neg (hlegible : Legible (neg a)) (ha : ReadsBack a) : ReadsBack (neg a) := by
  have hneg : negated a = neg a := by
    have hplain := hlegible.plain
    cases a <;> first | rfl | contradiction
  refine .ofSigned rfl fun rest hrest => ?_
  rw [chars_neg, List.cons_append, ← hneg]
  exact .minus (readsLevel_one_slot ha hrest)

theorem readsBack_not (ha : ReadsBack a) : ReadsBack (not a) := by
  refine .ofSigned rfl fun rest hrest => ?_
  rw [chars_not, List.cons_append]
  exact .bang (readsLevel_one_slot ha hrest)

theorem readsBack_int (n : Int64) : ReadsBack (int n) := by
  by_cases hs : (int n).isSigned = true
  · obtain ⟨m, hm, hchars⟩ := chars_int_of_neg hs
    refine .ofSigned hs fun rest hrest => ?_
    have hdigits := natText_standsFor m
    rw [hchars, List.cons_append, hm]
    exact .minus (readsLevel_one_of_atom ((starts_word hdigits.unbroken).append _)
      (hdigits.readsAtom hrest.apart) hrest.uncalled)
  · obtain ⟨m, hm, hchars⟩ := chars_int_of_nonneg (by simpa using hs)
    exact (hm ▸ natText_standsFor m).readsBack hchars

/-- The left operand is read at the level of the operator, where what follows it continues the
chain; the right one is read a level below, where it does not. -/
theorem readsBack_binary {op : BinOp} (hlegible : Legible (binary op a b)) (ha : ReadsBack a)
    (hb : ReadsBack b) : ReadsBack (binary op a b) := by
  have hplain : a.isFunc = false ∧ b.isFunc = false := by simpa [isPlain] using hlegible.plain
  have hlevels := priority_mem_levels op
  refine .ofOperator fun rest hrest x r hx => ?_
  obtain ⟨k, hk⟩ : ∃ k, op.priority = k + 3 := ⟨op.priority - 3, by omega⟩
  have hclear := clear_joint op (slot (op.priority - 1) b ++ rest)
  have hop := operator?_joint op (slot (op.priority - 1) b ++ rest)
  rw [chars_binary, List.append_assoc, List.append_assoc]
  rw [hk] at hrest hx hlevels hclear hop ⊢
  have hright : ReadsLevel (k + 2) (slot (k + 2) b ++ rest) b rest :=
    readsLevel_slot hb hplain.2 (by omega) (hrest.mono (Nat.le_succ _)) (readsChain_of_clear b hrest)
  exact readsLevel_slot ha hplain.1 hlevels.2 hclear (.next hop hk hright hx)

end Forms

/-! ### The whole text -/

theorem readsBack {e : Expr} (h : Legible e) : ReadsBack e := by
  induction e with
  | int n => exact readsBack_int n
  | sym x => exact (name_standsFor h.symbol).readsBack rfl
  | bool b =>
      cases b with
      | true => exact (⟨by decide, rfl, rfl⟩ : StandsFor "true" _).readsBack rfl
      | false => exact (⟨by decide, rfl, rfl⟩ : StandsFor "false" _).readsBack rfl
  | prim p =>
      have hchars : chars (prim p) = p.spelling.toList := by
        have hplain := h.plain
        cases p <;> first | rfl | contradiction
      exact (spelling_standsFor h.plain).readsBack hchars
  | list es ih =>
      exact readsBack_list (fun e he => ih e he (h.part he)) fun e he => starts_leading (h.part he)
  | neg a ih => exact readsBack_neg h (ih (h.part (by simp [parts])))
  | not a ih => exact readsBack_not (ih (h.part (by simp [parts])))
  | isNil a ih => exact readsBack_isNil (ih (h.part (by simp [parts])))
  | binary op a b iha ihb =>
      exact readsBack_binary h (iha (h.part (by simp [parts]))) (ihb (h.part (by simp [parts])))
  | cond a b c iha ihb ihc =>
      exact readsBack_cond (iha (h.part (by simp [parts]))) (ihb (h.part (by simp [parts])))
        (ihc (h.part (by simp [parts])))
  | matchList v e x y b ihv ihe ihb =>
      exact readsBack_matchList (h.binder (by simp [ownBinders])) (h.binder (by simp [ownBinders]))
        (ihv (h.part (by simp [parts]))) (ihe (h.part (by simp [parts])))
        (ihb (h.part (by simp [parts])))
  | letCons x y v b ihv ihb =>
      exact readsBack_letCons (h.binder (by simp [ownBinders])) (h.binder (by simp [ownBinders]))
        (ihv (h.part (by simp [parts]))) (ihb (h.part (by simp [parts])))
  | letIn x v b ihv ihb =>
      exact readsBack_letIn (h.binder (by simp [ownBinders])) (ihv (h.part (by simp [parts])))
        (ihb (h.part (by simp [parts])))
  | call f es ihf ihes =>
      exact readsBack_call h (ihf (h.part (by simp [parts])))
        fun e he => ihes e he (h.part (by simp [parts, he]))
  | func p ps b ihb => exact readsBack_func (fun x hx => h.binder hx) (ihb (h.part (by simp [parts])))

/-- A legible expression is read from its text, and nothing is left. -/
theorem readsLevel_print {e : Expr} (h : Legible e) : ReadsLevel 7 (print e).toList e [] := by
  have hend : Clear 8 [] := by
    refine ⟨nofun, nofun, fun op rest hop => ?_⟩
    rw [show operator? [] = none from rfl] at hop
    contradiction
  have hread := (readsBack h).anywhere [] hend
  rwa [List.append_nil] at hread

/-- **Legible expressions with the same text are the same.** -/
theorem print_eq_print_iff {e₁ e₂ : Expr} (h₁ : Legible e₁) (h₂ : Legible e₂) :
    print e₁ = print e₂ ↔ e₁ = e₂ := by
  refine ⟨fun h => ?_, congrArg print⟩
  have hread := readsLevel_print h₁
  rw [h] at hread
  exact (hread.unique (readsLevel_print h₂)).1

/-- `x - (y - -5(z))` and `x - y - -5(z)`. -/
theorem print_sub_ne_print_sub :
    Legible (binary .sub (sym "x") (binary .sub (sym "y") (neg (call (int 5) [sym "z"])))) ∧
      Legible (binary .sub (binary .sub (sym "x") (sym "y")) (neg (call (int 5) [sym "z"]))) ∧
      print (binary .sub (sym "x") (binary .sub (sym "y") (neg (call (int 5) [sym "z"])))) ≠
        print (binary .sub (binary .sub (sym "x") (sym "y")) (neg (call (int 5) [sym "z"]))) :=
  have h₁ : Legible (binary .sub (sym "x") (binary .sub (sym "y") (neg (call (int 5) [sym "z"])))) :=
    by decide
  have h₂ : Legible (binary .sub (binary .sub (sym "x") (sym "y")) (neg (call (int 5) [sym "z"]))) :=
    by decide
  ⟨h₁, h₂, fun h => nomatch (print_eq_print_iff h₁ h₂).mp h⟩

end Decombinator.Expr
