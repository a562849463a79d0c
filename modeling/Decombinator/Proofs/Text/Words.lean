/-
The words of a text.

Cutting a text at blanks is local: what stands before a blank and what stands after it are
cut apart from each other.  So the words of two texts with a blank between them are the
words of the one and then those of the other, and any list of words is the list of words of
some text.

`Cut` gives the rules by which a text is cut, from any point of it on, with what has been passed
kept for the columns.  What is true of every word, and of where it stands, is read off the rules.
-/
import Decombinator.Token
import Mathlib.Data.List.TakeWhile

namespace Decombinator

namespace Text

/-- A text that is one word: it is not empty, and nothing in it is blank. -/
def IsWord (w : String) : Prop :=
  w.toList ≠ [] ∧ ∀ c ∈ w.toList, isBlank c = false

instance (w : String) : Decidable (IsWord w) :=
  decidable_of_iff ((!w.toList.isEmpty && w.toList.all (!isBlank ·)) = true) (by simp [IsWord])

/-! ### Bytes -/

theorem utf8ByteSize_ofList (cs : List Char) : (String.ofList cs).utf8ByteSize = byteLength cs := by
  induction cs with
  | nil => rfl
  | cons c cs ih =>
      show _ = c.utf8Size + byteLength cs
      rw [String.ofList_cons, String.utf8ByteSize_append, String.utf8ByteSize_singleton, ih]

theorem byteLength_toList (text : String) : byteLength text.toList = text.utf8ByteSize := by
  rw [← utf8ByteSize_ofList, String.ofList_toList]

theorem byteLength_append (cs ds : List Char) :
    byteLength (cs ++ ds) = byteLength cs + byteLength ds := by
  rw [← utf8ByteSize_ofList, String.ofList_append, String.utf8ByteSize_append, utf8ByteSize_ofList,
    utf8ByteSize_ofList]

theorem byteLength_concat (cs : List Char) (c : Char) :
    byteLength (cs ++ [c]) = byteLength cs + c.utf8Size :=
  byteLength_append cs [c]

theorem byteLength_pos {cs : List Char} (h : cs ≠ []) : 0 < byteLength cs := by
  cases cs with
  | nil => exact absurd rfl h
  | cons c cs =>
      show 0 < c.utf8Size + byteLength cs
      have hpos := c.utf8Size_pos
      omega

/-! ### Cutting at a blank -/

theorem chunksFrom_nil (col : Nat) : chunksFrom col [] = [] := by
  unfold chunksFrom
  rfl

theorem chunksFrom_of_blank {c : Char} (hc : isBlank c = true) (col : Nat) (cs : List Char) :
    chunksFrom col (c :: cs) = chunksFrom (col + c.utf8Size) cs := by
  rw [chunksFrom.eq_def]
  exact if_pos hc

theorem chunksFrom_of_word {c : Char} (hc : isBlank c = false) (col : Nat) (cs : List Char) :
    chunksFrom col (c :: cs) =
      ⟨col, c :: cs.takeWhile (!isBlank ·)⟩ ::
        chunksFrom (col + byteLength (c :: cs.takeWhile (!isBlank ·))) (cs.dropWhile (!isBlank ·)) := by
  rw [chunksFrom.eq_def]
  exact if_neg (by simp [hc])

/-- A word and what is left behind it take the bytes of both. -/
theorem byteLength_word (c : Char) (cs : List Char) :
    byteLength (c :: cs.takeWhile (!isBlank ·)) + byteLength (cs.dropWhile (!isBlank ·)) =
      byteLength (c :: cs) := by
  rw [← byteLength_append, List.cons_append, List.takeWhile_append_dropWhile]

section Blank

variable {b : Char} (hb : isBlank b = true)

include hb

theorem takeWhile_blank (cs ds : List Char) :
    (cs ++ b :: ds).takeWhile (!isBlank ·) = cs.takeWhile (!isBlank ·) := by
  induction cs with
  | nil => simp [hb]
  | cons c cs ih => simp [List.takeWhile_cons, ih]

theorem dropWhile_blank (cs ds : List Char) :
    (cs ++ b :: ds).dropWhile (!isBlank ·) = cs.dropWhile (!isBlank ·) ++ b :: ds := by
  induction cs with
  | nil => simp [hb]
  | cons c cs ih =>
      by_cases hc : isBlank c = true
      · simp [hc]
      · simp [hc, ih]

/-- A blank separates what stands before it from what stands after it. -/
theorem chunksFrom_append (col : Nat) (cs ds : List Char) :
    chunksFrom col (cs ++ b :: ds) =
      chunksFrom col cs ++ chunksFrom (col + byteLength cs + b.utf8Size) ds := by
  fun_induction chunksFrom col cs with
  | case1 col =>
      rw [List.nil_append, chunksFrom_of_blank hb]
      rfl
  | case2 col c cs hc ih =>
      rw [List.cons_append, chunksFrom_of_blank hc, ih]
      show _ = _ ++ chunksFrom (col + (c.utf8Size + byteLength cs) + b.utf8Size) ds
      rw [Nat.add_assoc col]
  | case3 col c cs hc word ih =>
      -- The word ends where it did before the blank was put behind it.
      have hword : col + byteLength word + byteLength (cs.dropWhile (!isBlank ·)) =
          col + byteLength (c :: cs) := by
        rw [Nat.add_assoc, byteLength_word]
      rw [List.cons_append, chunksFrom_of_word (by simpa using hc), takeWhile_blank hb,
        dropWhile_blank hb, ih, hword]
      rfl

end Blank

/-- Where a text starts only moves its words. -/
theorem chunksFrom_add (n col : Nat) (cs : List Char) :
    chunksFrom (n + col) cs = (chunksFrom col cs).map fun k => { k with col := n + k.col } := by
  fun_induction chunksFrom col cs with
  | case1 col => rw [chunksFrom_nil, List.map_nil]
  | case2 col c cs hc ih => rw [chunksFrom_of_blank hc, Nat.add_assoc, ih]
  | case3 col c cs hc word ih =>
      rw [chunksFrom_of_word (by simpa using hc), Nat.add_assoc, ih, List.map_cons]

theorem texts_chunksFrom (col col' : Nat) (cs : List Char) :
    (chunksFrom col cs).map Chunk.text = (chunksFrom col' cs).map Chunk.text := by
  rw [← Nat.add_zero col, ← Nat.add_zero col', chunksFrom_add, chunksFrom_add, List.map_map,
    List.map_map]
  rfl

theorem words_eq (text : String) (col : Nat) :
    words text = ((chunksFrom col text.toList).map Chunk.text).map String.ofList := by
  rw [texts_chunksFrom col 0, List.map_map]
  rfl

theorem toList_append_space (text text' : String) :
    (text ++ " " ++ text').toList = text.toList ++ ' ' :: text'.toList := by
  rw [String.toList_append, String.toList_append, List.append_assoc]
  rfl

/-- **The words of two texts with a space between them** are those of both. -/
theorem words_append (text text' : String) :
    words (text ++ " " ++ text') = words text ++ words text' := by
  rw [words_eq _ 0, toList_append_space, chunksFrom_append (by decide), List.map_append,
    List.map_append, ← words_eq, ← words_eq]

/-! ### How a text is cut -/

/-- The words of `rest`, which stands in a text behind `before`.  A word ends at a blank or with
the text. -/
inductive Cut : (before rest : List Char) → List Chunk → Prop
  | stop (before : List Char) : Cut before [] []
  | blank {before rest : List Char} {c : Char} {ks : List Chunk} (hc : isBlank c = true)
      (h : Cut (before ++ [c]) rest ks) : Cut before (c :: rest) ks
  | last {before w : List Char} (hne : w ≠ []) (hw : ∀ c ∈ w, isBlank c = false) :
      Cut before w [⟨byteLength before, w⟩]
  | word {before w rest : List Char} {c : Char} {ks : List Chunk} (hne : w ≠ [])
      (hw : ∀ c ∈ w, isBlank c = false) (hc : isBlank c = true)
      (h : Cut (before ++ w ++ [c]) rest ks) :
      Cut before (w ++ c :: rest) (⟨byteLength before, w⟩ :: ks)

/-- Nothing in a word is blank. -/
theorem isBlank_of_mem_word {c : Char} (hc : isBlank c = false) {cs : List Char} :
    ∀ d ∈ c :: cs.takeWhile (!isBlank ·), isBlank d = false := by
  intro d hd
  rcases List.mem_cons.mp hd with rfl | hd
  · exact hc
  · simpa using List.mem_takeWhile_imp hd

/-- Cutting follows the rules. -/
theorem cut_chunksFrom (before rest : List Char) :
    Cut before rest (chunksFrom (byteLength before) rest) := by
  match rest with
  | [] =>
      rw [chunksFrom_nil]
      exact .stop before
  | c :: cs =>
      by_cases hc : isBlank c = true
      · rw [chunksFrom_of_blank hc, ← byteLength_concat]
        exact .blank hc (cut_chunksFrom (before ++ [c]) cs)
      · replace hc : isBlank c = false := by simpa using hc
        have hsplit : c :: cs = (c :: cs.takeWhile (!isBlank ·)) ++ cs.dropWhile (!isBlank ·) := by
          rw [List.cons_append, List.takeWhile_append_dropWhile]
        rw [chunksFrom_of_word hc, ← byteLength_append]
        cases hrest : cs.dropWhile (!isBlank ·) with
        | nil =>
            rw [hrest, List.append_nil] at hsplit
            rw [chunksFrom_nil, hsplit]
            exact .last (by simp) (isBlank_of_mem_word hc)
        | cons d ds =>
            have hd : isBlank d = true := by
              have hhead := List.head?_dropWhile_not (!isBlank ·) cs
              rw [hrest] at hhead
              simpa using hhead
            rw [hrest] at hsplit
            rw [chunksFrom_of_blank hd, ← byteLength_concat, hsplit]
            exact .word (by simp) (isBlank_of_mem_word hc) hd (cut_chunksFrom _ ds)
termination_by rest.length
decreasing_by
  · simp
  · have hle := (List.dropWhile_sublist (l := cs) (p := (!isBlank ·))).length_le
    rw [hrest, List.length_cons] at hle
    simp only [List.length_cons]
    omega

theorem cut_chunks (text : String) : Cut [] text.toList (chunks text) :=
  cut_chunksFrom [] text.toList

namespace Cut

variable {text : String} {before rest : List Char} {ks : List Chunk}

theorem isWord (h : Cut before rest ks) :
    ∀ k ∈ ks, k.text ≠ [] ∧ ∀ c ∈ k.text, isBlank c = false := by
  induction h with
  | stop before => simp
  | blank hc h ih => exact ih
  | last hne hw => simpa using ⟨hne, hw⟩
  | word hne hw hc h ih => exact List.forall_mem_cons.mpr ⟨⟨hne, hw⟩, ih⟩

/-- A word stands at its column. -/
theorem exists_split (h : Cut before rest ks) (htext : text.toList = before ++ rest) :
    ∀ k ∈ ks, ∃ pre post, text.toList = pre ++ k.text ++ post ∧ byteLength pre = k.col := by
  induction h with
  | stop before => simp
  | blank hc h ih => exact ih (by simp [htext])
  | @last before w hne hw =>
      intro k hk
      rw [List.mem_singleton.mp hk]
      exact ⟨before, [], by simp [htext], rfl⟩
  | @word before w rest c ks hne hw hc h ih =>
      intro k hk
      rcases List.mem_cons.mp hk with rfl | hk
      · exact ⟨before, c :: rest, by simp [htext], rfl⟩
      · exact ih (by simp [htext]) k hk

end Cut

/-! ### Words -/

/-- The words of a text are words. -/
theorem isWord_of_mem_words {w text : String} (h : w ∈ words text) : IsWord w := by
  obtain ⟨k, hk, rfl⟩ := List.mem_map.mp h
  unfold IsWord
  rw [String.toList_ofList]
  exact (cut_chunks text).isWord k hk

/-- A word is its own only word. -/
theorem words_of_isWord {w : String} (h : IsWord w) : words w = [w] := by
  obtain ⟨c, cs, hw⟩ := List.exists_cons_of_ne_nil h.1
  have hblank : ∀ d ∈ c :: cs, isBlank d = false := hw ▸ h.2
  have htake : cs.takeWhile (!isBlank ·) = cs :=
    List.takeWhile_eq_self_iff.mpr fun d hd => by simp [hblank d (List.mem_cons_of_mem _ hd)]
  have hdrop : cs.dropWhile (!isBlank ·) = [] :=
    List.dropWhile_eq_nil_iff.mpr fun d hd => by simp [hblank d (List.mem_cons_of_mem _ hd)]
  rw [words_eq w 0, hw, chunksFrom_of_word (hblank c (by simp)), htake, hdrop, chunksFrom_nil]
  show [String.ofList (c :: cs)] = [w]
  rw [← hw, String.ofList_toList]

/-- Words with spaces between them are read as they are. -/
theorem words_intercalate {ws : List String} (h : ∀ w ∈ ws, IsWord w) :
    words (String.intercalate " " ws) = ws := by
  induction ws with
  | nil =>
      rw [String.intercalate_nil]
      show (chunksFrom 0 []).map _ = []
      rw [chunksFrom_nil, List.map_nil]
  | cons w ws ih =>
      have hw : words w = [w] := words_of_isWord (h w List.mem_cons_self)
      cases ws with
      | nil => rw [String.intercalate_singleton, hw]
      | cons u us =>
          rw [String.intercalate_cons_cons, words_append, hw,
            ih fun v hv => h v (List.mem_cons_of_mem w hv)]
          rfl

/-- Every list of words is the list of words of some text. -/
theorem exists_words {ws : List String} (h : ∀ w ∈ ws, IsWord w) : ∃ text, words text = ws :=
  ⟨_, words_intercalate h⟩

end Text

/-! ### Tokens -/

namespace Token

theorem lexemes_lex (text : String) : (lex text).map lexeme = Text.words text := by
  unfold lex Text.words
  rw [List.map_map]
  rfl

theorem kind_of_mem_lex {t : Token} {text : String} (h : t ∈ lex text) :
    t.kind = Kind.ofWord t.lexeme := by
  obtain ⟨k, -, rfl⟩ := List.mem_map.mp h
  rfl

/-- A token stands inside the text. -/
theorem col_lt_of_mem_lex {t : Token} {text : String} (h : t ∈ lex text) :
    t.col < text.utf8ByteSize := by
  obtain ⟨k, hk, rfl⟩ := List.mem_map.mp h
  obtain ⟨pre, post, htext, hpre⟩ := (Text.cut_chunks text).exists_split rfl k hk
  have hpos := Text.byteLength_pos ((Text.cut_chunks text).isWord k hk).1
  rw [← Text.byteLength_toList, htext, Text.byteLength_append, Text.byteLength_append]
  show k.col < _
  omega

end Token

end Decombinator
