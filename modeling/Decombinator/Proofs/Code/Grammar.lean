/-
The parser accepts exactly the grammar.

The grammar is stated on lists of tokens, rule by rule, with the tree that each rule denotes.
The parser knows nothing of it: it keeps a stack of open constructs and takes one token at a
time.  The two are tied together by what happens to one value in the middle of a run.

  * From a state that waits for a value, the tokens of a value lead to the state in which
    that value is complete, whatever is open and whatever comes next.
  * A run that succeeds from a state that waits for a value starts with the tokens of a
    value, and goes on from the state in which it is complete.

The second is an induction on the number of tokens, together with the same statement about
the rest of a list.  With nothing open, both are about the whole input.
-/
import Decombinator.Proofs.Code.Reader

namespace Decombinator

/-! ### The grammar -/

namespace Grammar

mutual

/-- The tokens that write a value, and the tree that they denote. -/
inductive Value : List Token → Code → Prop
  | ap {t : Token} {ts us : List Token} {f x : Code} (ht : t.kind = .ap) (hf : Value ts f)
      (hx : Value us x) : Value (t :: (ts ++ us)) (.ap f x)
  | nil {l r : Token} (hl : l.kind = .lparen) (hr : r.kind = .rparen) : Value [l, r] (.prim .nil)
  | list {l r : Token} {ts : List Token} {cs : List Code} (hl : l.kind = .lparen)
      (h : Items ts cs) (hr : r.kind = .rparen) :
      Value (l :: (ts ++ [r])) (cs.foldr (fun c tail => .ap (.ap (.prim .cons) c) tail) (.prim .nil))
  | sym {t : Token} (ht : t.kind = .sym) : Value [t] (.sym t.lexeme)
  | int {t : Token} {n : Int64} (ht : t.kind = .int n) : Value [t] (.int n)
  | prim {t : Token} {p : Prim} (ht : t.kind = .prim p) : Value [t] (.prim p)

/-- One or more values with commas between them. -/
inductive Items : List Token → List Code → Prop
  | one {ts : List Token} {c : Code} (h : Value ts c) : Items ts [c]
  | more {t : Token} {ts us : List Token} {c : Code} {cs : List Code} (h : Value ts c)
      (ht : t.kind = .comma) (hs : Items us cs) : Items (ts ++ t :: us) (c :: cs)

end

/-- The tokens that write a definition. -/
inductive Line : List Token → Definition → Prop
  | mk {name eq : Token} {ts : List Token} {c : Code} (hname : name.kind = .sym)
      (heq : eq.kind = .equals) (h : Value ts c) : Line (name :: eq :: ts) ⟨name.lexeme, c⟩

/-- What stands behind an element of a list: the closing parenthesis, or a comma and more
elements before it. -/
inductive Rest : List Token → List Code → Prop
  | close {r : Token} (hr : r.kind = .rparen) : Rest [r] []
  | more {t r : Token} {ts : List Token} {cs : List Code} (ht : t.kind = .comma)
      (h : Items ts cs) (hr : r.kind = .rparen) : Rest (t :: (ts ++ [r])) cs

/-- A value does not start with a closing parenthesis. -/
theorem Value.starts {ts : List Token} {c : Code} (h : Value ts c) :
    ∃ t us, ts = t :: us ∧ t.kind ≠ .rparen := by
  cases h with
  | ap ht => exact ⟨_, _, rfl, by simp [ht]⟩
  | nil hl => exact ⟨_, _, rfl, by simp [hl]⟩
  | list hl => exact ⟨_, _, rfl, by simp [hl]⟩
  | sym ht => exact ⟨_, _, rfl, by simp [ht]⟩
  | int ht => exact ⟨_, _, rfl, by simp [ht]⟩
  | prim ht => exact ⟨_, _, rfl, by simp [ht]⟩

theorem Items.starts {ts : List Token} {cs : List Code} (h : Items ts cs) :
    ∃ t us, ts = t :: us ∧ t.kind ≠ .rparen := by
  cases h with
  | one h => exact h.starts
  | more h =>
      obtain ⟨t, us, rfl, ht⟩ := h.starts
      exact ⟨t, _, rfl, ht⟩

/-- An element and what stands behind it are elements and a closing parenthesis. -/
theorem Rest.items {ts us : List Token} {c : Code} {cs : List Code} (h : Rest us cs)
    (hc : Value ts c) : ∃ vs r, ts ++ us = vs ++ [r] ∧ r.kind = .rparen ∧ Items vs (c :: cs) := by
  cases h with
  | @close r hr => exact ⟨ts, r, rfl, hr, .one hc⟩
  | @more t r vs _ ht h hr => exact ⟨ts ++ t :: vs, r, by simp, hr, .more hc ht h⟩

end Grammar

namespace Code.Parser

open Grammar

variable {mode : ParseMode} {stop : Nat}

/-! ### What is in the grammar is accepted -/

/-- A list that was just opened waits for its first element, unless it is closed. -/
theorem run_listStart {t : Token} (ht : t.kind ≠ .rparen) (opened : List Frame) (ts : List Token) :
    run mode stop (.listStart opened) (t :: ts) =
      run mode stop (.value (.element [] :: opened)) (t :: ts) := by
  have hstep : step (.listStart opened) t = step (.value (.element [] :: opened)) t := by
    simp [step]
  rw [run, run, hstep]

mutual

/-- The tokens of a value lead to the state in which the value is complete. -/
theorem run_value {ts : List Token} {c : Code} :
    Value ts c → ∀ (opened : List Frame) (rest : List Token),
      run mode stop (.value opened) (ts ++ rest) = run mode stop (complete c opened) rest
  | @Value.ap t ts us f x ht hf hx, opened, rest => by
      have hstep : step (.value opened) t = .ok (.value (.function :: opened)) := by
        simp [step, start, ht]
      rw [List.cons_append, run_cons hstep, List.append_assoc, run_value hf (.function :: opened)]
      exact run_value hx (.argument f :: opened) rest
  | @Value.nil l r hl hr, opened, rest => by
      have hopen : step (.value opened) l = .ok (.listStart opened) := by simp [step, start, hl]
      have hclose : step (.listStart opened) r = .ok (complete (list []) opened) := by
        simp [step, hr]
      rw [List.cons_append, List.cons_append, run_cons hopen, run_cons hclose]
      rfl
  | @Value.list l r ts cs hl h hr, opened, rest => by
      have hopen : step (.value opened) l = .ok (.listStart opened) := by simp [step, start, hl]
      have hitems := run_items h [] opened hr rest
      obtain ⟨t, us, hts, ht⟩ := h.starts
      rw [List.cons_append, run_cons hopen, List.append_assoc, List.cons_append, List.nil_append]
      rw [hts, List.cons_append] at hitems ⊢
      rw [run_listStart ht, hitems]
      rfl
  | @Value.sym t ht, opened, rest => run_cons (by simp [step, start, ht]) rest
  | @Value.int t n ht, opened, rest => run_cons (by simp [step, start, ht]) rest
  | @Value.prim t p ht, opened, rest => run_cons (by simp [step, start, ht]) rest

/-- The elements of a list and its end lead to the state in which the list is complete. -/
theorem run_items {ts : List Token} {cs : List Code} :
    Items ts cs → ∀ (before : List Code) (opened : List Frame) {r : Token}, r.kind = .rparen →
      ∀ rest : List Token, run mode stop (.value (.element before :: opened)) (ts ++ r :: rest) =
        run mode stop (complete (list (before.reverse ++ cs)) opened) rest
  | @Items.one ts c h, before, opened, r, hr, rest => by
      have hclose : step (.separator (c :: before) opened) r =
          .ok (complete (list (c :: before).reverse) opened) := by
        simp [step, hr]
      rw [run_value h (.element before :: opened)]
      show run mode stop (.separator (c :: before) opened) (r :: rest) = _
      rw [run_cons hclose, List.reverse_cons]
  | @Items.more t ts us c cs h ht hs, before, opened, r, hr, rest => by
      have hcomma : step (.separator (c :: before) opened) t =
          .ok (.value (.element (c :: before) :: opened)) := by
        simp [step, ht]
      rw [List.append_assoc, run_value h (.element before :: opened)]
      show run mode stop (.separator (c :: before) opened) (t :: (us ++ r :: rest)) = _
      rw [run_cons hcomma, run_items hs (c :: before) opened hr rest, List.reverse_cons,
        List.append_assoc]
      rfl

end

/-! ### What is accepted is in the grammar -/

mutual

/-- A run that succeeds from a state that waits for a value starts with the tokens of one. -/
theorem exists_value_of_run {opened : List Frame} {ts : List Token} {d : Code}
    (h : run mode stop (.value opened) ts = .ok d) :
    ∃ us vs c, ts = us ++ vs ∧ Value us c ∧ run mode stop (complete c opened) vs = .ok d := by
  match ts with
  | [] => simp [run, finish] at h
  | t :: ts =>
      cases hk : t.kind with
      | ap =>
          replace h : run mode stop (.value (.function :: opened)) ts = .ok d := by
            simpa [run, step, start, hk] using h
          obtain ⟨us, vs, f, hts, hf, h⟩ := exists_value_of_run h
          replace h : run mode stop (.value (.argument f :: opened)) vs = .ok d := h
          obtain ⟨us', vs', x, hvs, hx, h⟩ := exists_value_of_run h
          refine ⟨t :: (us ++ us'), vs', .ap f x, ?_, .ap hk hf hx, h⟩
          rw [hts, hvs, List.cons_append, List.append_assoc]
      | lparen =>
          replace h : run mode stop (.listStart opened) ts = .ok d := by
            simpa [run, step, start, hk] using h
          obtain ⟨us, vs, c, hts, hc, h⟩ := exists_list_of_run h
          exact ⟨t :: us, vs, c, by rw [hts, List.cons_append], hc hk, h⟩
      | sym => exact ⟨[t], ts, _, rfl, .sym hk, by simpa [run, step, start, hk] using h⟩
      | int n => exact ⟨[t], ts, _, rfl, .int hk, by simpa [run, step, start, hk] using h⟩
      | prim p => exact ⟨[t], ts, _, rfl, .prim hk, by simpa [run, step, start, hk] using h⟩
      | _ => simp [run, step, start, hk] at h
termination_by (ts.length, 0)
decreasing_by all_goals grind

/-- A run that succeeds behind an opening parenthesis starts with the rest of a value. -/
theorem exists_list_of_run {opened : List Frame} {ts : List Token} {d : Code}
    (h : run mode stop (.listStart opened) ts = .ok d) :
    ∃ us vs c, ts = us ++ vs ∧ (∀ {l : Token}, l.kind = .lparen → Value (l :: us) c) ∧
      run mode stop (complete c opened) vs = .ok d := by
  match ts with
  | [] => simp [run, finish] at h
  | r :: ts =>
      by_cases hr : r.kind = .rparen
      · refine ⟨[r], ts, list [], rfl, fun hl => .nil hl hr, ?_⟩
        simpa [run, step, hr] using h
      · -- The first element and what stands behind it make up the list.
        rw [run_listStart hr] at h
        obtain ⟨us, vs, c, hts, hc, h⟩ := exists_value_of_run h
        replace h : run mode stop (.separator [c] opened) vs = .ok d := h
        obtain ⟨us', vs', cs, hvs, hrest, h⟩ := exists_rest_of_run h
        obtain ⟨ws, e, hws, he, hitems⟩ := hrest.items hc
        refine ⟨ws ++ [e], vs', list (c :: cs), ?_, fun hl => .list hl hitems he, h⟩
        rw [hts, hvs, ← hws, List.append_assoc]
termination_by (ts.length, 1)
decreasing_by all_goals grind

/-- A run that succeeds behind an element of a list starts with the rest of the list. -/
theorem exists_rest_of_run {before : List Code} {opened : List Frame} {ts : List Token} {d : Code}
    (h : run mode stop (.separator before opened) ts = .ok d) :
    ∃ us vs cs, ts = us ++ vs ∧ Rest us cs ∧
      run mode stop (complete (list (before.reverse ++ cs)) opened) vs = .ok d := by
  match ts with
  | [] => simp [run, finish] at h
  | t :: ts =>
      cases hk : t.kind with
      | rparen =>
          refine ⟨[t], ts, [], rfl, .close hk, ?_⟩
          simpa [run, step, hk] using h
      | comma =>
          replace h : run mode stop (.value (.element before :: opened)) ts = .ok d := by
            simpa [run, step, hk] using h
          obtain ⟨us, vs, c, hts, hc, h⟩ := exists_value_of_run h
          replace h : run mode stop (.separator (c :: before) opened) vs = .ok d := h
          obtain ⟨us', vs', cs, hvs, hrest, h⟩ := exists_rest_of_run h
          obtain ⟨ws, e, hws, he, hitems⟩ := hrest.items hc
          refine ⟨t :: (ws ++ [e]), vs', c :: cs, ?_, .more hk hitems he, ?_⟩
          · rw [hts, hvs, List.cons_append, ← hws, List.append_assoc]
          · rw [List.reverse_cons, List.append_assoc] at h
            exact h
      | _ => simp [run, step, hk] at h
termination_by (ts.length, 0)
decreasing_by all_goals grind

end

/-- With nothing open, a value uses up the tokens. -/
theorem value_eq_ok_iff {ts : List Token} {c : Code} :
    value mode stop ts = .ok c ↔ Value ts c := by
  unfold value
  constructor
  · intro h
    obtain ⟨us, vs, c', rfl, hc, h⟩ := exists_value_of_run h
    match vs with
    | [] =>
        have hcc : c' = c := by simpa [run, complete, finish] using h
        rw [List.append_nil, ← hcc]
        exact hc
    | v :: vs => simp [run, complete, step] at h
  · intro h
    have hrun : run mode stop (.value []) (ts ++ []) = .ok c := run_value h [] []
    rw [List.append_nil] at hrun
    exact hrun

theorem definition_eq_ok_iff {ts : List Token} {d : Definition} :
    definition mode stop ts = .ok d ↔ Line ts d := by
  constructor
  · intro h
    match ts with
    | [] => simp [definition] at h
    | [name] => by_cases hname : name.kind = .sym <;> simp [definition, hname] at h
    | name :: eq :: ts =>
        by_cases hname : name.kind = .sym
        · by_cases heq : eq.kind = .equals
          · cases hc : value mode stop ts with
            | ok c =>
                have hd : (⟨name.lexeme, c⟩ : Definition) = d := by
                  simpa [definition, hname, heq, hc] using h
                rw [← hd]
                exact .mk hname heq (value_eq_ok_iff.1 hc)
            | error e => simp [definition, hname, heq, hc] at h
          · simp [definition, hname] at h
        · simp [definition] at h
  · intro h
    cases h with
    | mk hname heq hc => simp [definition, hname, heq, value_eq_ok_iff.2 hc]

end Code.Parser

/-! ### Texts -/

/-- A text is a value exactly if its tokens are in the grammar, and a definition exactly if
they are.  The grammar gives a text one meaning at most, and a text that it gives none is
rejected at one of its tokens or at its end. -/
theorem Grammar.parse_accepts_iff (mode : ParseMode) (text : String) :
    (∀ c, Code.parse mode text = .ok c ↔ Value (Token.lex text) c) ∧
    (∀ d, Definition.parse mode text = .ok d ↔ Line (Token.lex text) d) ∧
    (∀ c c', Value (Token.lex text) c → Value (Token.lex text) c' → c = c') ∧
    (∀ d d', Line (Token.lex text) d → Line (Token.lex text) d' → d = d') ∧
    ((∃ c, Code.parse mode text = .ok c) ∨
      ∃ e, Code.parse mode text = .error e ∧
        (e.col = text.utf8ByteSize ∨ ∃ t ∈ Token.lex text, e.col = t.col)) ∧
    ((∃ d, Definition.parse mode text = .ok d) ∨
      ∃ e, Definition.parse mode text = .error e ∧
        (e.col = text.utf8ByteSize ∨ ∃ t ∈ Token.lex text, e.col = t.col)) := by
  have hvalue : ∀ c, Code.parse mode text = .ok c ↔ Value (Token.lex text) c :=
    fun _ => Code.Parser.value_eq_ok_iff
  have hline : ∀ d, Definition.parse mode text = .ok d ↔ Line (Token.lex text) d :=
    fun _ => Code.Parser.definition_eq_ok_iff
  refine ⟨hvalue, hline, ?_, ?_, ?_, ?_⟩
  · intro c c' h h'
    have hcc : Except.ok c = Except.ok c' := ((hvalue c).mpr h).symm.trans ((hvalue c').mpr h')
    exact Except.ok.inj hcc
  · intro d d' h h'
    have hdd : Except.ok d = Except.ok d' := ((hline d).mpr h).symm.trans ((hline d').mpr h')
    exact Except.ok.inj hdd
  · cases h : Code.parse mode text with
    | ok c => exact .inl ⟨c, rfl⟩
    | error e =>
        rw [Code.parse_eq_values] at h
        exact .inr ⟨e, rfl, Reader.run_error_col h⟩
  · cases h : Definition.parse mode text with
    | ok d => exact .inl ⟨d, rfl⟩
    | error e =>
        rw [Definition.parse_eq_lines] at h
        exact .inr ⟨e, rfl, Reader.run_error_col h⟩

end Decombinator
