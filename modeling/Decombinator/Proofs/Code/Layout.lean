/-
How the tokens lie in a text.

Columns are counted in bytes, and characters take from one to four of them.  The tokens of a text
and the blanks between them account for all of its bytes: a lexeme is the run of bytes that starts
at its column, what no lexeme covers is blank, and there is a blank between any two lexemes.  So a
caret under a column points at the token it is meant for, and text is neither lost nor run together.

All of it is an induction on how a text is cut.  The statements are about the whole text, of which
what has been passed is a part; so the columns in them are those of the text and need no shifting.
-/
import Decombinator.Proofs.Code.Viable
import Mathlib.Data.List.Chain

namespace Decombinator

namespace Text

/-- A blank of the text takes the bytes from `p` up to `q`. -/
def BlankAt (text : String) (p q : Nat) : Prop :=
  ∃ before c after, text.toList = before ++ c :: after ∧ isBlank c = true ∧
    byteLength before = p ∧ p + c.utf8Size = q

namespace Cut

variable {text : String} {before rest : List Char} {ks : List Chunk}

theorem le_col (h : Cut before rest ks) : ∀ k ∈ ks, byteLength before ≤ k.col := by
  induction h with
  | stop before => simp
  | blank hc h ih =>
      intro k hk
      have hle := ih k hk
      rw [byteLength_concat] at hle
      omega
  | last hne hw => simp
  | word hne hw hc h ih =>
      intro k hk
      rcases List.mem_cons.mp hk with rfl | hk
      · exact Nat.le_refl _
      · have hle := ih k hk
        rw [byteLength_concat, byteLength_append] at hle
        omega

/-- A byte that is still to come is in a word or in a blank. -/
theorem covers (h : Cut before rest ks) (htext : text.toList = before ++ rest) {i : Nat}
    (hle : byteLength before ≤ i) (hlt : i < text.utf8ByteSize) :
    (∃ k ∈ ks, k.col ≤ i ∧ i < k.col + byteLength k.text) ∨
      ∃ p q, BlankAt text p q ∧ p ≤ i ∧ i < q := by
  rw [← byteLength_toList, htext] at hlt
  induction h with
  | stop before =>
      rw [List.append_nil] at hlt
      omega
  | @blank before rest c ks hc h ih =>
      by_cases hi : i < byteLength before + c.utf8Size
      · exact .inr ⟨_, _, ⟨before, c, rest, htext, hc, rfl, rfl⟩, hle, hi⟩
      · refine ih (by simp [htext]) ?_ ?_
        · rw [byteLength_concat]
          omega
        · rw [List.append_assoc, List.singleton_append]
          exact hlt
  | @last before w hne hw =>
      rw [byteLength_append] at hlt
      exact .inl ⟨_, List.mem_singleton_self _, hle, hlt⟩
  | @word before w rest c ks hne hw hc h ih =>
      have hsplit : before ++ (w ++ c :: rest) = before ++ w ++ [c] ++ rest := by simp
      by_cases hi : i < byteLength before + byteLength w
      · exact .inl ⟨_, List.mem_cons_self, hle, hi⟩
      by_cases hi' : i < byteLength (before ++ w) + c.utf8Size
      · refine .inr ⟨_, _, ⟨before ++ w, c, rest, by simp [htext], hc, rfl, rfl⟩, ?_, hi'⟩
        rw [byteLength_append]
        omega
      · have hrest := ih (by rw [htext, hsplit]) (by rw [byteLength_concat]; omega) (hsplit ▸ hlt)
        rcases hrest with ⟨k, hk, hcol⟩ | hblank
        · exact .inl ⟨k, List.mem_cons_of_mem _ hk, hcol⟩
        · exact .inr hblank

/-- There is a blank between a word and the next one. -/
theorem separated (h : Cut before rest ks) (htext : text.toList = before ++ rest) :
    ks.IsChain fun k k' =>
      ∃ p q, BlankAt text p q ∧ k.col + byteLength k.text ≤ p ∧ q ≤ k'.col := by
  induction h with
  | stop before => exact .nil
  | blank hc h ih => exact ih (by simp [htext])
  | last hne hw => exact .singleton _
  | @word before w rest c ks hne hw hc h ih =>
      rw [List.isChain_cons]
      refine ⟨fun k hk => ?_, ih (by simp [htext])⟩
      have hle := h.le_col k (List.mem_of_mem_head? hk)
      rw [byteLength_concat] at hle
      refine ⟨_, _, ⟨before ++ w, c, rest, by simp [htext], hc, rfl, rfl⟩, ?_, hle⟩
      rw [byteLength_append]

end Cut

end Text

namespace Token

/-- The column behind a token. -/
def endCol (t : Token) : Nat :=
  t.col + t.lexeme.utf8ByteSize

theorem endCol_ofChunk (k : Text.Chunk) :
    (ofChunk k).endCol = k.col + Text.byteLength k.text := by
  rw [← Text.utf8ByteSize_ofList]
  rfl

/-- There is a blank between a token and the next one. -/
theorem separated_lex (text : String) :
    (lex text).IsChain fun t t' => ∃ p q, Text.BlankAt text p q ∧ t.endCol ≤ p ∧ q ≤ t'.col := by
  rw [lex, List.isChain_map]
  simp only [endCol_ofChunk]
  exact (Text.cut_chunks text).separated rfl

theorem cols_lex (text : String) : ((lex text).map col).Pairwise (· < ·) := by
  have hlt : (lex text).IsChain fun t t' => t.col < t'.col := by
    refine (separated_lex text).imp fun t t' h => ?_
    obtain ⟨p, q, ⟨_, c, _, -, -, -, hq⟩, hp, hcol⟩ := h
    have hpos := c.utf8Size_pos
    unfold endCol at hp
    omega
  exact ((List.isChain_map col).mpr hlt).pairwise

/-- A lexeme is the run of bytes at its column. -/
theorem bytes_lex {t : Token} {text : String} (h : t ∈ lex text) :
    text.toUTF8.extract t.col t.endCol = t.lexeme.toUTF8 := by
  obtain ⟨k, hk, rfl⟩ := List.mem_map.mp h
  obtain ⟨pre, post, htext, hpre⟩ := (Text.cut_chunks text).exists_split rfl k hk
  have hbytes : text.toUTF8 = (String.ofList pre).toUTF8 ++
      ((ofChunk k).lexeme.toUTF8 ++ (String.ofList post).toUTF8) := by
    rw [← String.ofList_toList (s := text), htext, List.append_assoc]
    simp [String.ofList_append, ofChunk]
  have hcol : (ofChunk k).col = (String.ofList pre).toUTF8.size := by
    rw [String.toUTF8_eq_toByteArray, String.size_toByteArray, Text.utf8ByteSize_ofList, hpre]
    rfl
  have hend : (ofChunk k).endCol = (ofChunk k).col + (ofChunk k).lexeme.toUTF8.size := by
    rw [String.toUTF8_eq_toByteArray, String.size_toByteArray]
    rfl
  rw [hbytes, hend]
  calc
    _ = ((ofChunk k).lexeme.toUTF8 ++ (String.ofList post).toUTF8).extract 0
        (ofChunk k).lexeme.toUTF8.size := ByteArray.extract_append_size_add' (i := 0) hcol
    _ = (ofChunk k).lexeme.toUTF8 := ByteArray.extract_append_eq_left rfl

theorem covered_lex {text : String} {i : Nat} (h : i < text.utf8ByteSize) :
    (∃ t ∈ lex text, t.col ≤ i ∧ i < t.endCol) ∨ ∃ p q, Text.BlankAt text p q ∧ p ≤ i ∧ i < q := by
  rcases (Text.cut_chunks text).covers rfl (Nat.zero_le i) h with ⟨k, hk, hle, hlt⟩ | hblank
  · refine .inl ⟨ofChunk k, List.mem_map_of_mem hk, hle, ?_⟩
    rw [endCol_ofChunk]
    exact hlt
  · exact .inr hblank

/-- The tokens of two texts with a space between them are those of the one and then those of the
other, which are moved by what stands before them. -/
theorem lex_append (text more : String) : lex (text ++ " " ++ more) =
    lex text ++ (lex more).map fun t => { t with col := text.utf8ByteSize + 1 + t.col } := by
  have hmore : Text.chunksFrom (text.utf8ByteSize + 1) more.toList =
      (Text.chunks more).map fun k => { k with col := text.utf8ByteSize + 1 + k.col } :=
    Text.chunksFrom_add _ 0 more.toList
  unfold lex
  rw [Text.chunks, Text.toList_append_space, Text.chunksFrom_append (by decide),
    Text.byteLength_toList, Nat.zero_add]
  show List.map ofChunk (_ ++ Text.chunksFrom (text.utf8ByteSize + 1) more.toList) = _
  rw [hmore, List.map_append, List.map_map, List.map_map]
  rfl

end Token

/-- A text that is rejected although it could go on is rejected where the input ends. -/
theorem Reader.col_of_continues {α : Type} {R : Reader α} {text : String} {e : ParseError}
    {parse : ParseMode → String → Except ParseError α}
    (hparse : ∀ mode text, parse mode text = R.parse mode text) {mode : ParseMode}
    (he : parse mode text = .error e) (h : Continues parse text) : e.col = text.utf8ByteSize := by
  obtain ⟨more, a, haccept⟩ := h
  rw [hparse, parse_eq_ok_iff, Text.words_append] at haccept
  obtain ⟨st, hafter, -⟩ := haccept
  obtain ⟨st', hafter'⟩ := exists_after_of_isPrefix (List.prefix_append _ _) hafter
  rw [hparse, parse_of_after hafter', run] at he
  split at he
  · cases he
  · cases he
    rfl

/-- **Lexing neither loses nor merges text.**  The columns of the tokens of a text increase.  Every
lexeme is the run of bytes at its column, is not empty and has no blank in it.  Every byte of the
text is in a lexeme or in a blank, and between two lexemes there is a blank.  The input ends at the
number of bytes of the text: that is the column at which either parser rejects a text that could go
on.  The tokens of two texts with a space between them are those of both, and only the columns of
the latter change. -/
theorem Token.lex_lossless (text : String) :
    ((lex text).map col).Pairwise (· < ·) ∧
    (∀ t ∈ lex text, t.lexeme ≠ "" ∧ (∀ c ∈ t.lexeme.toList, Text.isBlank c = false) ∧
      text.toUTF8.extract t.col t.endCol = t.lexeme.toUTF8) ∧
    (∀ i < text.utf8ByteSize, (∃ t ∈ lex text, t.col ≤ i ∧ i < t.endCol) ∨
      ∃ p q, Text.BlankAt text p q ∧ p ≤ i ∧ i < q) ∧
    ((lex text).IsChain fun t t' => ∃ p q, Text.BlankAt text p q ∧ t.endCol ≤ p ∧ q ≤ t'.col) ∧
    (∀ mode e, (Code.parse mode text = .error e ∧ Continues Code.parse text) ∨
      (Definition.parse mode text = .error e ∧ Continues Definition.parse text) →
      e.col = text.utf8ByteSize) ∧
    ∀ more, lex (text ++ " " ++ more) =
      lex text ++ (lex more).map fun t => { t with col := text.utf8ByteSize + 1 + t.col } := by
  refine ⟨cols_lex text, fun t ht => ?_, fun i hi => covered_lex hi, separated_lex text, ?_,
    lex_append text⟩
  · have hword : Text.IsWord t.lexeme :=
      Text.isWord_of_mem_words (lexemes_lex text ▸ List.mem_map_of_mem ht)
    exact ⟨by simpa using hword.1, hword.2, bytes_lex ht⟩
  · rintro mode e (⟨he, hcont⟩ | ⟨he, hcont⟩)
    · exact Reader.col_of_continues Code.parse_eq_values he hcont
    · exact Reader.col_of_continues Definition.parse_eq_lines he hcont

-- `é` takes two bytes and the ideographic space three.
example : (Token.lex " é\u3000ap +7\n").map (fun t => (t.lexeme, t.col)) =
    [("é", 1), ("ap", 6), ("+7", 9)] := by decide +kernel

end Decombinator
