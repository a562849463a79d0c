/-
What recognition makes of a function and of an application, and that it keeps the names.

Recognition is a long list of shapes.  `Abstraction` and `Reading` are those lists, one
constructor for each idiom, with what is known when it is recognised; whatever is proved
of recognition is proved of them, idiom by idiom.

No idiom loses a name.  The two that drop subterms, the connectives, drop a let of which
nothing but its value is free, and the negation drops parameters that its test does not
mention.  A let that is moved out of a function's way does not capture the argument, since
parameters are never free in what surrounds them.
-/
import Decombinator.Expr.Idioms
import Decombinator.Proofs.Expr.Names
import Decombinator.Proofs.Folded

namespace Decombinator.Expr

/-! ### The idioms -/

/-- What a function of the parameter `p` may be read as. -/
inductive Abstraction (p : String) : Expr → Expr → Prop
  | plain (e : Expr) : Abstraction p e (func p [] e)
  | more (q : String) (rest : List String) (b : Expr) :
      Abstraction p (func q rest b) (func p (q :: rest) b)
  | not {q : String} {test : Expr} (hp : test.mentions p = false) (hq : test.mentions q = false) :
      Abstraction p (func q [] (cond test (sym q) (sym p))) (not test)

/-- What an application may be read as, where `lists` are the symbols known to be lists. -/
inductive Reading (dict : Dictionary) (lists : List String) : Expr → Expr → Expr → Prop
  | neg (x : Expr) : Reading dict lists (prim .neg) x (neg x)
  | isNil (x : Expr) : Reading dict lists (prim .isnil) x (isNil x)
  | call (f x : Expr) : Reading dict lists f x (call f [x])
  | extend (g : Expr) (args : List Expr) (x : Expr) :
      Reading dict lists (call g args) x (call g (args ++ [x]))
  | operator {g : Expr} {op : BinOp} (h : operatorOf? g = some op) (a x : Expr) :
      Reading dict lists (call g [a]) x (binary op a x)
  | choice {g : Expr} (h : isBoolean dict lists g) (a x : Expr) :
      Reading dict lists (call g [a]) x (cond g a x)
  | predicate {g : Expr} {args : List Expr} (h : isPredicate dict lists args.length g)
      (a x : Expr) : Reading dict lists (call g (args ++ [a])) x (cond (call g args) a x)
  | parts (g h t : String) (b : Expr) :
      Reading dict lists (sym g) (func h [t] b) (letCons h t (sym g) b)
  | partsThen (g h t p : String) (ps : List String) (b : Expr) :
      Reading dict lists (sym g) (func h (t :: p :: ps) b) (letCons h t (sym g) (func p ps b))
  | bind {f b : Expr} {p : String} (h : takeParam f = some (p, b)) (x : Expr) :
      Reading dict lists f x (letIn p x b)
  | or (v : String) (l x : Expr) :
      Reading dict lists (letIn v l (call (sym v) [sym v])) x (binary .or l x)
  | and (v p : String) (l x : Expr) :
      Reading dict lists (letIn v l (func p [] (call (sym v) [sym p, sym v]))) x (binary .and l x)
  | andFlipped (v p : String) (l x : Expr) :
      Reading dict lists (letIn v l (func p [] (call (sym p) [sym v, sym p]))) x (binary .and l x)

theorem abstract_abstraction (p : String) (e : Expr) : Abstraction p e (abstract p e) := by
  rw [abstract.eq_def]
  split
  · rename_i q rest b
    split
    · rename_i test yes no
      split
      · rename_i h
        obtain ⟨rfl, rfl, hp, hq⟩ := h
        exact .not (by simpa using hp) (by simpa using hq)
      · exact .more q [] _
    · exact .more q _ _
  · exact .plain _

variable {dict : Dictionary} {lists : List String}

theorem extendCall_reading (g : Expr) (args : List Expr) (x : Expr) :
    Reading dict lists (call g args) x (extendCall dict lists g args x) := by
  rw [extendCall.eq_def]
  split
  · rename_i a
    split
    · exact .choice ‹_› a x
    · split
      · exact .operator ‹_› a x
      · exact .extend g [a] x
  · split
    · rename_i a ha
      split
      · rename_i h
        obtain ⟨init, rfl⟩ := List.getLast?_eq_some_iff.mp ha
        rw [List.dropLast_concat]
        refine .predicate ?_ a x
        simpa using h
      · exact .extend g args x
    · rename_i ha
      obtain rfl := List.getLast?_eq_none_iff.mp ha
      exact .extend g [] x

theorem bindOrCall_reading (f x : Expr) : Reading dict lists f x (bindOrCall f x) := by
  rw [bindOrCall]
  split
  · exact .bind ‹_› x
  · exact .call f x

theorem destructure_reading (g : String) (x : Expr) :
    Reading dict lists (sym g) x (destructure (sym g) x) := by
  rw [destructure.eq_def]
  split
  · rename_i h t rest b
    split
    · exact .parts g h t b
    · exact .partsThen g h t _ _ b
  · exact .call (sym g) x

/-- The body of `v(v)` and nothing else. -/
theorem eq_of_isOrBody {v : String} {b : Expr} (h : isOrBody v b) : b = call (sym v) [sym v] := by
  rw [isOrBody.eq_def] at h
  split at h
  · simp only [Bool.and_eq_true, beq_iff_eq] at h
    rw [h.1, h.2]
  · exact absurd h Bool.false_ne_true

theorem eq_sym_of_symName {e : Expr} {x : String} (hx : x ≠ "") (h : e.symName?.getD "" = x) :
    e = sym x := by
  cases e with
  | sym y => exact congrArg sym h
  | _ => exact absurd h.symm hx

/-- What `isAndBody` takes for `v(p, v)` or `p(v, p)` is that, unless a name is empty. -/
theorem eq_of_isAndBody {v : String} {b : Expr} (hv : v ≠ "") (hb : "" ∉ b.binders)
    (h : isAndBody v b) :
    ∃ p, b = func p [] (call (sym v) [sym p, sym v]) ∨ b = func p [] (call (sym p) [sym v, sym p]) := by
  rw [isAndBody.eq_def] at h
  split at h
  · rename_i p f x y
    have hp : p ≠ "" := fun he => hb (by simp [he])
    simp only [List.map_cons, List.map_nil, Bool.or_eq_true, beq_iff_eq, List.cons.injEq,
      and_true] at h
    refine ⟨p, ?_⟩
    rcases h with ⟨hf, hx, hy⟩ | ⟨hf, hx, hy⟩
    · rw [eq_sym_of_symName hv hf, eq_sym_of_symName hp hx, eq_sym_of_symName hv hy]
      exact Or.inl rfl
    · rw [eq_sym_of_symName hp hf, eq_sym_of_symName hv hx, eq_sym_of_symName hp hy]
      exact Or.inr rfl
  · exact absurd h Bool.false_ne_true

theorem applyTo_reading (dict : Dictionary) (before lists : List String) {f : Expr} (x : Expr)
    (hf : "" ∉ f.binders) :
    Reading dict lists f x (applyTo dict before lists f x).1 := by
  rw [applyTo.eq_def]
  split
  · exact .neg x
  · split
    · exact .isNil _
    · exact .isNil x
  · split
    · exact destructure_reading _ x
    · exact .call _ x
  · rename_i v l body
    split
    · obtain rfl := eq_of_isOrBody ‹_›
      exact .or v l x
    · split
      · simp only [binders_letIn, List.mem_cons, List.mem_append, not_or] at hf
        obtain ⟨p, rfl | rfl⟩ := eq_of_isAndBody (Ne.symm hf.1) hf.2.2 ‹_›
        · exact .and v p l x
        · exact .andFlipped v p l x
      · exact bindOrCall_reading _ x
  · exact extendCall_reading _ _ x
  · exact bindOrCall_reading f x

/-! ### Idioms keep the names -/

theorem Abstraction.retains {p : String} {e e' : Expr} (h : Abstraction p e e') :
    Retains (p :: e.binders) (e.free.filter (· ≠ p)) e'.binders e'.free := by
  cases h with
  | plain => exact ⟨by simp, by simp [free]⟩
  | more q rest b => exact ⟨by simp, by simp [free]⟩
  | @not q test hp hq =>
      have hp' := notMem_free_of_mentions hp
      have hq' := notMem_free_of_mentions hq
      refine ⟨fun z => ?_, fun z => ?_⟩
      · simp only [binders_not, binders_func, binders_cond, binders_sym, List.nil_append,
          List.append_nil, List.count_cons]
        omega
      · simp only [free, List.mem_filter, List.mem_append, List.mem_cons, List.not_mem_nil,
          or_false, decide_eq_true_eq]
        grind

/-- Taking the first parameter away takes one binder away. -/
theorem takeParam_count {f b : Expr} {p : String} (h : takeParam f = some (p, b)) (z : String) :
    f.binders.count z = b.binders.count z + if p = z then 1 else 0 := by
  fun_induction takeParam f generalizing b p with
  | case1 x v body ih =>
      obtain ⟨⟨q, body'⟩, hbody, heq⟩ := Option.map_eq_some_iff.mp h
      obtain ⟨rfl, rfl⟩ := Prod.mk.inj heq
      simp only [binders_letIn, List.count_cons, List.count_append, ih hbody]
      omega
  | case2 q body =>
      obtain ⟨rfl, rfl⟩ := Prod.mk.inj (Option.some.inj h)
      simp [List.count_cons]
  | case3 q r rest body =>
      obtain ⟨rfl, rfl⟩ := Prod.mk.inj (Option.some.inj h)
      simp [List.count_cons]
  | case4 => simp at h

/-- The parameter under a let is not the name of the let, and its value does not use it. -/
theorem takeParam_letIn {x q : String} {v body body' : Expr}
    (h : takeParam body = some (q, body')) (hy : (letIn x v body).Hygienic) :
    body.Hygienic ∧ q ≠ x ∧ q ∉ v.free := by
  rw [Hygienic, binders_letIn, free] at hy
  obtain ⟨hx, hdistinct⟩ := List.nodup_cons.mp hy.distinct
  have hq : q ∈ body.binders :=
    List.count_pos_iff.mp (by rw [takeParam_count h, if_pos rfl]; omega)
  refine ⟨⟨(List.nodup_append.mp hdistinct).2.1, fun w hw hwf => ?_⟩, fun he => ?_, fun hv => ?_⟩
  · have hwx : w ≠ x := fun he => hx (he ▸ List.mem_append_right _ hw)
    exact hy.unfree w (List.mem_cons_of_mem _ (List.mem_append_right _ hw))
      (List.mem_append_right _ (List.mem_filter.mpr ⟨hwf, by simpa using hwx⟩))
  · exact hx (he ▸ List.mem_append_right _ hq)
  · exact hy.unfree q (List.mem_cons_of_mem _ (List.mem_append_right _ hq))
      (List.mem_append_left _ hv)

/-- Taking the first parameter away frees its name. -/
theorem takeParam_free {f b : Expr} {p : String} (h : takeParam f = some (p, b)) (hy : f.Hygienic)
    (z : String) : z ∈ f.free ↔ z ∈ b.free ∧ z ≠ p := by
  fun_induction takeParam f generalizing b p with
  | case1 x v body ih =>
      obtain ⟨⟨q, body'⟩, hbody, heq⟩ := Option.map_eq_some_iff.mp h
      obtain ⟨rfl, rfl⟩ := Prod.mk.inj heq
      obtain ⟨hbody', hqx, hqv⟩ := takeParam_letIn hbody hy
      have hiff := ih hbody hbody'
      simp only [free, List.mem_append, List.mem_filter, decide_eq_true_eq]
      grind
  | case2 q body =>
      obtain ⟨rfl, rfl⟩ := Prod.mk.inj (Option.some.inj h)
      simp [free]
  | case3 q r rest body =>
      obtain ⟨rfl, rfl⟩ := Prod.mk.inj (Option.some.inj h)
      simp [free]
      grind
  | case4 => simp at h

theorem operatorOf_closed {g : Expr} {op : BinOp} (h : operatorOf? g = some op) :
    g.free = [] ∧ g.binders = [] := by
  rw [operatorOf?.eq_def] at h
  split at h <;> simp_all [free]

theorem Reading.retains {f x e : Expr} (h : Reading dict lists f x e) (hf : f.Hygienic) :
    Retains (f.binders ++ x.binders) (f.free ++ x.free) e.binders e.free := by
  cases h with
  | neg => exact ⟨by simp, by simp [free]⟩
  | isNil => exact ⟨by simp, by simp [free]⟩
  | call => exact ⟨by simp, by simp [free]⟩
  | extend g args => exact ⟨by simp, by simp [free, or_and_right, exists_or]⟩
  | operator hop a =>
      obtain ⟨hfree, hbinders⟩ := operatorOf_closed hop
      exact ⟨by simp, by simp [free, hfree]⟩
  | choice _ a => exact ⟨by simp, by simp [free]⟩
  | predicate _ a => exact ⟨by simp, by simp [free]; grind⟩
  | parts g h t b => exact ⟨by simp, by simp [free]⟩
  | partsThen g h t p ps b => exact ⟨by simp, by simp [free]; grind⟩
  | @bind _ b p hp =>
      refine ⟨fun z => ?_, fun z => ?_⟩
      · simp only [binders_letIn, List.count_cons, List.count_append, takeParam_count hp,
          beq_iff_eq]
        omega
      · simp only [free, List.mem_append, List.mem_filter, decide_eq_true_eq,
          takeParam_free hp hf z]
        grind
  | or v l => exact ⟨by simp [List.count_cons], by simp [free]⟩
  | and v p l => exact ⟨by simp [List.count_cons]; omega, by simp [free]; grind⟩
  | andFlipped v p l => exact ⟨by simp [List.count_cons]; omega, by simp [free]; grind⟩

theorem recogniseAll_retains {items : List Folded}
    (ih : ∀ t ∈ items, ∀ lists, t.Hygienic → "" ∉ t.binders →
      Retains t.binders t.free (recognise dict t lists).1.binders (recognise dict t lists).1.free) :
    ∀ lists, Hygiene (Folded.bindersAll items) (Folded.freeAll items) →
      "" ∉ Folded.bindersAll items →
      Retains (Folded.bindersAll items) (Folded.freeAll items)
        ((recogniseAll dict items lists).1.flatMap binders)
        (freeAll (recogniseAll dict items lists).1) := by
  induction items with
  | nil => exact fun _ _ _ => .refl _ _
  | cons t ts ihts =>
      intro lists hy hempty
      rw [Folded.bindersAll, List.mem_append, not_or] at hempty
      have ht := ih t (by simp) lists hy.left hempty.1
      have hts := ihts (fun u hu => ih u (List.mem_cons_of_mem _ hu)) (recognise dict t lists).2
        hy.right hempty.2
      exact ht.append hts

theorem recognise_retains (t : Folded) :
    ∀ lists, t.Hygienic → "" ∉ t.binders →
      Retains t.binders t.free (recognise dict t lists).1.binders (recognise dict t lists).1.free := by
  induction t with
  | fn p body ih =>
      intro lists hy hempty
      rw [Folded.binders, List.mem_cons, not_or] at hempty
      have hbody := ih lists hy.under hempty.2
      exact (hbody.under p).trans (abstract_abstraction p _).retains
  | ap f x ihf ihx =>
      intro lists hy hempty
      rw [Folded.binders, List.mem_append, not_or] at hempty
      have hf := ihf lists hy.left hempty.1
      have hx := ihx (recognise dict f lists).2 hy.right hempty.2
      have hread := applyTo_reading dict (recognise dict f lists).2
        (recognise dict x (recognise dict f lists).2).2 (recognise dict x (recognise dict f lists).2).1
        fun h => hempty.1 (hf.mem_binders h)
      exact (hf.append hx).trans (hread.retains (hf.hygiene hy.left))
  | list items ih =>
      intro lists hy hempty
      have hitems := recogniseAll_retains ih lists hy hempty
      refine ⟨fun z => ?_, fun z => hitems.mem_iff z⟩
      exact (binders_list (recogniseAll dict items lists).1).symm ▸ hitems.count_le z
  | sym x => exact fun _ _ _ => .refl _ _
  | int n => exact fun _ _ _ => .refl _ _
  | prim p =>
      intro lists _ _
      rw [recognise]
      split <;> exact .refl _ _
  | falsity => exact fun _ _ _ => .refl _ _

/-- **Recognition keeps the names of a hygienic term**, if none of them is empty. -/
theorem ofFolded_retains (dict : Dictionary) {t : Folded} (hy : t.Hygienic)
    (hempty : "" ∉ t.binders) :
    Retains t.binders t.free (ofFolded dict t).binders (ofFolded dict t).free :=
  recognise_retains t [] hy hempty

end Decombinator.Expr
