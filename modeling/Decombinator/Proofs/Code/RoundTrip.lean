/-
Parsing undoes printing.

A tree is printed as words with spaces between them, and every word of it is read back as the
kind of token that it was printed for: `ap` and the primitives are keywords, an integer is read
as itself, and a symbol is read as a symbol if it is one word that is neither a keyword nor an
integer.  That condition is no more than what the lexer asks of a symbol, so every tree that
was ever parsed meets it.
-/
import Decombinator.Proofs.Code.Grammar
import Decombinator.Proofs.Text.Integer

namespace Decombinator

/-! ### Symbols -/

/-- What a name has to be so that it can be written as a symbol. -/
structure IsSymbol (w : String) : Prop where
  nonempty : w ≠ ""
  unbroken : ∀ c ∈ w.toList, Text.isBlank c = false
  notKeyword : w ∉ Token.keywords.map Prod.fst
  notInteger : ∀ n : Int, Text.Decimal w.toList n →
    n < Int64.minValue.toInt ∨ Int64.maxValue.toInt < n

/-- Every symbol of the tree can be written. -/
def Code.Writable (c : Code) : Prop :=
  ∀ x ∈ c.symbols, IsSymbol x

/-- The name and every symbol of the value can be written. -/
def Definition.Writable (d : Definition) : Prop :=
  IsSymbol d.name ∧ d.value.Writable

namespace Token

theorem lookup_keywords_eq_none_iff {w : String} :
    keywords.lookup w = none ↔ w ∉ keywords.map Prod.fst := by
  rw [List.lookup_eq_none_iff]
  constructor
  · intro h hw
    obtain ⟨p, hp, rfl⟩ := List.mem_map.mp hw
    simpa using h p hp
  · intro h p hp
    have hne : w ≠ p.1 := fun hw => h (hw ▸ List.mem_map_of_mem hp)
    simpa using hne

/-- A word is a symbol if it is neither a keyword nor a 64-bit integer. -/
theorem ofWord_eq_sym_iff {w : String} :
    Kind.ofWord w = .sym ↔ w ∉ keywords.map Prod.fst ∧ Text.readInt w = none := by
  unfold Kind.ofWord
  rw [← lookup_keywords_eq_none_iff]
  cases hk : keywords.lookup w with
  | none => cases hn : Text.readInt w <;> simp
  | some k =>
      have hsym : ∀ p ∈ keywords, p.2 ≠ .sym := by decide
      obtain ⟨l, r, hlist, -⟩ := List.lookup_eq_some_iff.mp hk
      have hmem : (w, k) ∈ keywords := by rw [hlist]; simp
      simpa using hsym (w, k) hmem

/-- No keyword is an integer. -/
theorem ofWord_int64Text (n : Int64) : Kind.ofWord (Text.int64Text n) = .int n := by
  have hread := Text.readInt_int64Text n
  have hkeyword : ∀ w ∈ keywords.map Prod.fst, Text.readInt w = none := by decide
  have hlookup : keywords.lookup (Text.int64Text n) = none := by
    rw [lookup_keywords_eq_none_iff]
    intro hw
    rw [hkeyword _ hw] at hread
    contradiction
  simp only [Kind.ofWord, hlookup, hread]

theorem ofWord_spelling (p : Prim) : Kind.ofWord p.spelling = .prim p := by
  cases p <;> decide

end Token

theorem readInt_eq_none_iff {w : String} :
    Text.readInt w = none ↔ ∀ n : Int, Text.Decimal w.toList n →
      n < Int64.minValue.toInt ∨ Int64.maxValue.toInt < n := by
  rw [Int64.toInt_minValue, Int64.toInt_maxValue]
  constructor
  · intro h n hn
    by_contra hrange
    have hn64 : (Int64.ofInt n).toInt = n := Int64.toInt_ofInt_of_le (by omega) (by omega)
    rw [← hn64, ← Text.readInt_eq_some_iff, h] at hn
    contradiction
  · intro h
    cases hn : Text.readInt w with
    | none => rfl
    | some n =>
        have hlow := Int64.le_toInt n
        have hhigh := Int64.toInt_lt n
        rcases h _ (Text.readInt_eq_some_iff.mp hn) with hlt | hle <;> omega

/-- A name can be written as a symbol exactly if it is one word and that word is a symbol. -/
theorem isSymbol_iff {w : String} : IsSymbol w ↔ Text.IsWord w ∧ Token.Kind.ofWord w = .sym := by
  rw [Token.ofWord_eq_sym_iff, readInt_eq_none_iff]
  unfold Text.IsWord
  constructor
  · intro h
    exact ⟨⟨by simpa using h.nonempty, h.unbroken⟩, h.notKeyword, h.notInteger⟩
  · rintro ⟨⟨hne, hblank⟩, hkeyword, hint⟩
    exact ⟨by simpa using hne, hblank, hkeyword, hint⟩

instance (w : String) : Decidable (IsSymbol w) :=
  decidable_of_iff _ isSymbol_iff.symm

instance (c : Code) : Decidable c.Writable :=
  inferInstanceAs (Decidable (∀ x ∈ c.symbols, IsSymbol x))

instance (d : Definition) : Decidable d.Writable :=
  inferInstanceAs (Decidable (_ ∧ _))

/-! ### The words of what is printed -/

namespace Code

theorem writable_iff {c : Code} : c.Writable ↔ ∀ x ∈ c.occurrences, IsSymbol x := by
  unfold Writable symbols
  simp only [List.mem_eraseDups]

theorem writable_ap {f x : Code} : (ap f x).Writable ↔ f.Writable ∧ x.Writable := by
  simp only [writable_iff, occurrences, List.mem_append, or_imp, forall_and]

theorem writable_sym {x : String} : (sym x).Writable ↔ IsSymbol x := by
  simp [writable_iff, occurrences]

/-- A list can be written if its elements can. -/
theorem writable_foldr {cs : List Code} (h : ∀ c ∈ cs, c.Writable) :
    (cs.foldr (fun c tail => ap (ap (prim .cons) c) tail) (prim .nil)).Writable := by
  induction cs with
  | nil => simp [writable_iff, occurrences]
  | cons c cs ih =>
      have hcons : (prim .cons).Writable := by simp [writable_iff, occurrences]
      rw [List.foldr_cons, writable_ap, writable_ap]
      exact ⟨⟨hcons, h c (by simp)⟩, ih fun d hd => h d (by simp [hd])⟩

theorem words_print_ap (f x : Code) :
    Text.words (ap f x).print = "ap" :: (Text.words f.print ++ Text.words x.print) := by
  have hap : "ap " ++ f.print = "ap" ++ " " ++ f.print := rfl
  rw [print, Text.words_append, hap, Text.words_append, Text.words_of_isWord (by decide)]
  rfl

end Code

namespace Grammar

/-- Tokens whose kinds are those of their words. -/
def Lexed (ts : List Token) : Prop :=
  ∀ t ∈ ts, t.kind = Token.Kind.ofWord t.lexeme

theorem Lexed.append {ts us : List Token} : Lexed (ts ++ us) ↔ Lexed ts ∧ Lexed us := by
  simp only [Lexed, List.mem_append, or_imp, forall_and]

theorem Lexed.cons {t : Token} {ts : List Token} :
    Lexed (t :: ts) ↔ t.kind = Token.Kind.ofWord t.lexeme ∧ Lexed ts := by
  simp only [Lexed, List.mem_cons, forall_eq_or_imp]

/-- A text of one word is one token. -/
theorem exists_token_of_isWord {w : String} (hw : Text.IsWord w) {ts : List Token}
    (hlexed : Lexed ts) (hwords : ts.map Token.lexeme = Text.words w) :
    ∃ t, ts = [t] ∧ t.lexeme = w ∧ t.kind = Token.Kind.ofWord w := by
  rw [Text.words_of_isWord hw, List.map_eq_singleton_iff] at hwords
  obtain ⟨t, rfl, ht⟩ := hwords
  exact ⟨t, rfl, ht, ht ▸ hlexed t (by simp)⟩

/-- **The words that a tree is printed as write the tree.** -/
theorem value_of_print {c : Code} (h : c.Writable) {ts : List Token} (hlexed : Lexed ts)
    (hwords : ts.map Token.lexeme = Text.words c.print) : Value ts c := by
  induction c generalizing ts with
  | ap f x ihf ihx =>
      obtain ⟨hf, hx⟩ := Code.writable_ap.mp h
      rw [Code.words_print_ap] at hwords
      obtain ⟨t, us, rfl, ht, hus⟩ := List.map_eq_cons_iff.mp hwords
      obtain ⟨fs, xs, rfl, hfs, hxs⟩ := List.map_eq_append_iff.mp hus
      obtain ⟨hkind, hrest⟩ := Lexed.cons.mp hlexed
      obtain ⟨hlf, hlx⟩ := Lexed.append.mp hrest
      have hap : t.kind = .ap := by
        rw [hkind, ht]
        decide
      exact .ap hap (ihf hf hlf hfs) (ihx hx hlx hxs)
  | int n =>
      have hword := Text.isWord_of_decimal (Text.intText_decimal n.toInt)
      obtain ⟨t, rfl, -, ht⟩ := exists_token_of_isWord hword hlexed hwords
      exact .int (ht.trans (Token.ofWord_int64Text n))
  | sym x =>
      obtain ⟨hword, hsym⟩ := isSymbol_iff.mp (Code.writable_sym.mp h)
      obtain ⟨t, rfl, hlexeme, ht⟩ := exists_token_of_isWord hword hlexed hwords
      rw [← hlexeme]
      exact .sym (ht.trans hsym)
  | prim p =>
      have hword : Text.IsWord p.spelling := by cases p <;> decide
      obtain ⟨t, rfl, -, ht⟩ := exists_token_of_isWord hword hlexed hwords
      exact .prim (ht.trans (Token.ofWord_spelling p))

theorem line_of_print {d : Definition} (h : d.Writable) {ts : List Token} (hlexed : Lexed ts)
    (hwords : ts.map Token.lexeme = Text.words d.print) : Line ts d := by
  obtain ⟨name, c⟩ := d
  obtain ⟨hname, hc⟩ := h
  obtain ⟨hword, hsym⟩ := isSymbol_iff.mp hname
  have hprint : Definition.print ⟨name, c⟩ = name ++ " " ++ "=" ++ " " ++ c.print := by
    simp [Definition.print, String.append_assoc]
  rw [hprint, Text.words_append, Text.words_append, Text.words_of_isWord hword,
    Text.words_of_isWord (by decide)] at hwords
  obtain ⟨t, us, rfl, ht, hus⟩ := List.map_eq_cons_iff.mp hwords
  obtain ⟨e, vs, rfl, he, hvs⟩ := List.map_eq_cons_iff.mp hus
  obtain ⟨htkind, hrest⟩ := Lexed.cons.mp hlexed
  obtain ⟨hekind, hvalue⟩ := Lexed.cons.mp hrest
  have hequals : e.kind = .equals := by
    rw [hekind, he]
    decide
  subst ht
  exact .mk (htkind.trans hsym) hequals (value_of_print hc hvalue hvs)

/-! ### What is parsed can be written -/

mutual

/-- The symbols of a value are among its words. -/
theorem Value.writable {ts : List Token} {c : Code} :
    Value ts c → (∀ t ∈ ts, t.kind = .sym → IsSymbol t.lexeme) → c.Writable
  | .ap _ hf hx, h => by
      rw [Code.writable_ap]
      exact ⟨hf.writable fun t ht => h t (by simp [ht]), hx.writable fun t ht => h t (by simp [ht])⟩
  | .nil _ _, _ => by simp [Code.writable_iff, Code.occurrences]
  | .list _ hs _, h => Code.writable_foldr (hs.writable fun t ht => h t (by simp [ht]))
  | .sym ht, h => Code.writable_sym.mpr (h _ (by simp) ht)
  | .int _, _ => by simp [Code.writable_iff, Code.occurrences]
  | .prim _, _ => by simp [Code.writable_iff, Code.occurrences]

theorem Items.writable {ts : List Token} {cs : List Code} :
    Items ts cs → (∀ t ∈ ts, t.kind = .sym → IsSymbol t.lexeme) → ∀ c ∈ cs, c.Writable
  | .one hc, h => by simpa using hc.writable h
  | .more hc _ hs, h => by
      simp only [List.forall_mem_cons]
      exact ⟨hc.writable fun t ht => h t (by simp [ht]), hs.writable fun t ht => h t (by simp [ht])⟩

end

end Grammar

/-- The symbols of a text can be written. -/
theorem Token.isSymbol_of_mem_lex {t : Token} {text : String} (h : t ∈ lex text)
    (ht : t.kind = .sym) : IsSymbol t.lexeme := by
  have hword : t.lexeme ∈ Text.words text := by
    rw [← lexemes_lex]
    exact List.mem_map_of_mem h
  exact isSymbol_iff.mpr ⟨Text.isWord_of_mem_words hword, (kind_of_mem_lex h).symm.trans ht⟩

open Code.Parser

theorem Code.parse_print_of_writable {c : Code} (h : c.Writable) (mode : ParseMode) :
    parse mode c.print = .ok c :=
  value_eq_ok_iff.mpr
    (Grammar.value_of_print h (fun _ => Token.kind_of_mem_lex) (Token.lexemes_lex c.print))

theorem Definition.parse_print_of_writable {d : Definition} (h : d.Writable) (mode : ParseMode) :
    parse mode d.print = .ok d :=
  definition_eq_ok_iff.mpr
    (Grammar.line_of_print h (fun _ => Token.kind_of_mem_lex) (Token.lexemes_lex d.print))

theorem Code.writable_of_parse {mode : ParseMode} {text : String} {c : Code}
    (h : parse mode text = .ok c) : c.Writable :=
  (value_eq_ok_iff.mp h).writable fun _ => Token.isSymbol_of_mem_lex

theorem Definition.writable_of_parse {mode : ParseMode} {text : String} {d : Definition}
    (h : parse mode text = .ok d) : d.Writable := by
  have hsymbol : ∀ t ∈ Token.lex text, t.kind = .sym → IsSymbol t.lexeme :=
    fun _ => Token.isSymbol_of_mem_lex
  have hline : Grammar.Line (Token.lex text) d := definition_eq_ok_iff.mp h
  cases hts : Token.lex text with
  | nil =>
      rw [hts] at hline
      cases hline
  | cons t ts =>
      rw [hts] at hline hsymbol
      cases hline with
      | mk hname heq hvalue =>
          exact ⟨hsymbol t (by simp) hname, hvalue.writable fun u hu => hsymbol u (by simp [hu])⟩

/-- Printing and parsing again gives back every tree and every definition whose names can be
written, and those are all that parsing ever returns. -/
theorem parse_print (mode : ParseMode) :
    (∀ c : Code, c.Writable → Code.parse mode c.print = .ok c) ∧
    (∀ d : Definition, d.Writable → Definition.parse mode d.print = .ok d) ∧
    (∀ text c, Code.parse mode text = .ok c → c.Writable ∧ Code.parse mode c.print = .ok c) ∧
    (∀ text d, Definition.parse mode text = .ok d →
      d.Writable ∧ Definition.parse mode d.print = .ok d) := by
  refine ⟨fun c hc => Code.parse_print_of_writable hc mode,
    fun d hd => Definition.parse_print_of_writable hd mode, ?_, ?_⟩
  · intro text c h
    have hc := Code.writable_of_parse h
    exact ⟨hc, Code.parse_print_of_writable hc mode⟩
  · intro text d h
    have hd := Definition.writable_of_parse h
    exact ⟨hd, Definition.parse_print_of_writable hd mode⟩

/-- The least 64-bit integer is one, and one more than the greatest is a symbol. -/
theorem parse_print_extremes :
    let d : Definition :=
      ⟨"(x", .ap (.ap (.prim .cons) (.int Int64.minValue)) (.sym "9223372036854775808")⟩
    d.Writable ∧ Definition.parse .batch d.print = .ok d ∧
      Code.parse .batch d.value.print = .ok d.value := by
  intro d
  have hd : d.Writable := by decide
  exact ⟨hd, (parse_print .batch).2.1 d hd, (parse_print .batch).1 d.value hd.2⟩

end Decombinator
