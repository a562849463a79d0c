/-
What combinator elimination makes of code.

The parameters of the new functions are numbered through the whole tree and avoid its
symbols, so the term is hygienic.  Each combinator uses all its arguments, so every
function of the term uses its parameter.  And nothing else is free in the term than the
symbols of the code.
-/
import Decombinator.Lambda.Elimination
import Decombinator.Proofs.Fresh
import Decombinator.Proofs.Lambda.Contraction

namespace Decombinator.Lambda

/-- What holds of a term that code was turned into, with parameters numbered from `next` on,
and of the number to go on from. -/
structure Eliminated (taken : List String) (next : Nat) (c : Code) (r : Lambda × Nat) : Prop where
  le : next ≤ r.2
  /-- Binders have numbers of their own and avoid the names that are taken. -/
  numbered : ∀ z ∈ r.1.binders,
    z ∉ taken ∧ ∃ k, next ≤ k ∧ k < r.2 ∧ z = Fresh.numbered "x" k
  nodup : r.1.binders.Nodup
  mem_free : ∀ z, z ∈ r.1.free ↔ z ∈ c.occurrences
  relevant : r.1.Relevant

theorem freshParam_spec (taken : List String) (next : Nat) :
    ∃ k, next ≤ k ∧ freshParam taken next = (Fresh.numbered "x" k, k + 1) ∧
      Fresh.numbered "x" k ∉ taken :=
  ⟨Fresh.firstFree "x" taken next, Fresh.le_firstFree "x" taken next, rfl,
    Fresh.firstFree_notMem "x" taken next⟩

/-- A function of three parameters whose body uses each of them and nothing else. -/
theorem ternary_eliminated {taken : List String} {next : Nat} {p : Prim}
    {body : Lambda → Lambda → Lambda → Lambda}
    (hbinders : ∀ x y z, (body (sym x) (sym y) (sym z)).binders = [])
    (hfree : ∀ x y z w, w ∈ (body (sym x) (sym y) (sym z)).free ↔ w = x ∨ w = y ∨ w = z)
    (hrelevant : ∀ x y z, (body (sym x) (sym y) (sym z)).Relevant) :
    Eliminated taken next (.prim p) (ternary taken next body) := by
  obtain ⟨i, hi, hx, hxt⟩ := freshParam_spec taken next
  obtain ⟨j, hj, hy, hyt⟩ := freshParam_spec taken (i + 1)
  obtain ⟨k, hk, hz, hzt⟩ := freshParam_spec taken (j + 1)
  have hxy := Fresh.numbered_ne_of_lt "x" (show i < j by omega)
  have hxz := Fresh.numbered_ne_of_lt "x" (show i < k by omega)
  have hyz := Fresh.numbered_ne_of_lt "x" (show j < k by omega)
  rw [ternary]
  simp only [hx, hy, hz]
  refine ⟨?_, ?_, ?_, ?_, ?_⟩
  · show next ≤ k + 1
    omega
  · intro w hw
    simp only [binders, hbinders, List.mem_cons, List.not_mem_nil, or_false] at hw
    rcases hw with rfl | rfl | rfl
    · exact ⟨hxt, i, by omega, by show i < k + 1; omega, rfl⟩
    · exact ⟨hyt, j, by omega, by show j < k + 1; omega, rfl⟩
    · exact ⟨hzt, k, by omega, by show k < k + 1; omega, rfl⟩
  · simp [binders, hbinders, hxy, hxz, hyz]
  · intro w
    simp only [mem_free_fn, hfree, Code.occurrences, List.not_mem_nil, iff_false]
    rintro ⟨⟨⟨rfl | rfl | rfl, hnz⟩, hny⟩, hnx⟩
    · exact hnx rfl
    · exact hny rfl
    · exact hnz rfl
  · refine ⟨?_, ?_, ?_, hrelevant _ _ _⟩
    · simp [mem_free_fn, hfree, hxy, hxz]
    · simp [mem_free_fn, hfree, hyz]
    · simp [hfree]

theorem ofPrim_eliminated (taken : List String) (next : Nat) (p : Prim) :
    Eliminated taken next (.prim p) (ofPrim taken next p) := by
  have hprim : Eliminated taken next (.prim p) (prim p, next) :=
    ⟨Nat.le_refl _, by simp [binders], by simp [binders], by simp [free, Code.occurrences], trivial⟩
  cases p with
  | i =>
      obtain ⟨k, hk, hx, hxt⟩ := freshParam_spec taken next
      simp only [ofPrim, hx]
      refine ⟨by show next ≤ k + 1; omega, ?_, by simp [binders], ?_, by simp [free], trivial⟩
      · intro w hw
        have hw : w = Fresh.numbered "x" k := by simpa [binders] using hw
        subst hw
        exact ⟨hxt, k, hk, Nat.lt_succ_self k, rfl⟩
      · simp [free, Code.occurrences]
  | b =>
      rw [ofPrim]
      refine ternary_eliminated (fun _ _ _ => rfl) (fun x y z w => ?_) fun _ _ _ => ?_
      · simp [free]
      · exact ⟨trivial, trivial, trivial⟩
  | c =>
      rw [ofPrim]
      refine ternary_eliminated (fun _ _ _ => rfl) (fun x y z w => ?_) fun _ _ _ => ?_
      · simp only [free, List.cons_append, List.nil_append, List.mem_cons, List.not_mem_nil,
          or_false]
        rw [or_comm (a := w = z)]
      · exact ⟨⟨trivial, trivial⟩, trivial⟩
  | s =>
      rw [ofPrim]
      refine ternary_eliminated (fun _ _ _ => rfl) (fun x y z w => ?_) fun _ _ _ => ?_
      · simp only [free, List.cons_append, List.nil_append, List.mem_cons, List.not_mem_nil,
          or_false]
        constructor
        · rintro (h | h | h | h)
          · exact Or.inl h
          · exact Or.inr (Or.inr h)
          · exact Or.inr (Or.inl h)
          · exact Or.inr (Or.inr h)
        · rintro (h | h | h)
          · exact Or.inl h
          · exact Or.inr (Or.inr (Or.inl h))
          · exact Or.inr (Or.inl h)
      · exact ⟨⟨trivial, trivial⟩, trivial, trivial⟩
  | _ => exact hprim

theorem eliminate_eliminated (taken : List String) :
    ∀ (c : Code) (next : Nat), Eliminated taken next c (eliminate taken c next) := by
  intro c
  induction c with
  | ap f x ihf ihx =>
      intro next
      have hf := ihf next
      have hx := ihx (eliminate taken f next).2
      have hfx := hf.le
      have hxr := hx.le
      rw [eliminate]
      refine ⟨Nat.le_trans hf.le hx.le, ?_, ?_, ?_, hf.relevant, hx.relevant⟩
      · intro z hz
        rcases mem_binders_ap.mp hz with h | h
        · obtain ⟨ht, k, h1, h2, hk⟩ := hf.numbered z h
          exact ⟨ht, k, h1, Nat.lt_of_lt_of_le h2 hx.le, hk⟩
        · obtain ⟨ht, k, h1, h2, hk⟩ := hx.numbered z h
          exact ⟨ht, k, Nat.le_trans hf.le h1, h2, hk⟩
      · -- The argument's numbers start where the function's end.
        refine List.nodup_append.mpr ⟨hf.nodup, hx.nodup, fun z hz w hw he => ?_⟩
        obtain ⟨-, i, -, hi, rfl⟩ := hf.numbered z hz
        obtain ⟨-, j, hj, -, rfl⟩ := hx.numbered w hw
        exact Fresh.numbered_ne_of_lt "x" (show i < j by omega) he
      · intro z
        rw [mem_free_ap, hf.mem_free, hx.mem_free, Code.occurrences, List.mem_append]
  | sym y =>
      intro next
      exact ⟨Nat.le_refl _, by simp [eliminate, binders], by simp [eliminate, binders],
        by simp [eliminate, free, Code.occurrences], trivial⟩
  | int n =>
      intro next
      exact ⟨Nat.le_refl _, by simp [eliminate, binders], by simp [eliminate, binders],
        by simp [eliminate, free, Code.occurrences], trivial⟩
  | prim p => intro next; exact ofPrim_eliminated taken next p

theorem mem_symbols {c : Code} {z : String} : z ∈ c.symbols ↔ z ∈ c.occurrences :=
  List.mem_eraseDups

/-- Nothing is free in the term but the symbols of the code. -/
theorem mem_free_ofCode {c : Code} {z : String} : z ∈ (ofCode c).free ↔ z ∈ c.symbols := by
  rw [mem_symbols]
  exact (eliminate_eliminated c.symbols c 0).mem_free z

theorem ofCode_hygienic (c : Code) : (ofCode c).Hygienic := by
  have h := eliminate_eliminated c.symbols c 0
  refine ⟨h.nodup, fun z hz hfree => ?_⟩
  exact (h.numbered z hz).1 (mem_free_ofCode.mp hfree)

theorem ofCode_relevant (c : Code) : (ofCode c).Relevant :=
  (eliminate_eliminated c.symbols c 0).relevant

/-- Parameters are numbered, so none has the empty name. -/
theorem empty_notMem_binders_ofCode (c : Code) : "" ∉ (ofCode c).binders := by
  intro hmem
  obtain ⟨-, k, -, -, hk⟩ := (eliminate_eliminated c.symbols c 0).numbered "" hmem
  have := congrArg String.toList hk
  simp [Fresh.numbered] at this

end Decombinator.Lambda
