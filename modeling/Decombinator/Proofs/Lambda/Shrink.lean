/-
Shrinking a hygienic term is a sequence of contractions.

Neither pass checks for capture, and inlining works with uses counted once, before it
starts.  What makes both right is an invariant of the walk: between the term that is still
to be walked and the bindings that still wait to be used, no name is bound twice, none is
both bound and free, and a name that waits is used at most once.  The passes carry the
waiting bindings beside the term; the contractions are those of the term with the waiting
bindings put in place, `fill env t`.  The invariant is carried along the runs of the passes,
which need no fuel.

Rounds end when nothing is left to contract.  What is left in a term that comes from code
are redexes that would copy an argument that is no atom.
-/
import Decombinator.Proofs.Lambda.Elimination
import Decombinator.Proofs.Lambda.Rounds

namespace Decombinator.Lambda

variable {linear : String → Bool} {env rest : Bindings} {t t' : Lambda}

/-- A name that is free neither in a term nor in what is put in place stays so. -/
theorem notMem_free_reduct {allowed : String → Lambda → Lambda → Prop} {z : String}
    (hred : Reduces allowed (fill env t) t') (ht : z ∉ t.free)
    (hargs : ∀ b ∈ env, z ∉ b.2.free) : z ∉ t'.free := by
  intro hfree
  rcases mem_free_fill (hred.mem_free hfree) with ⟨hmem, -⟩ | ⟨b, hb, hmem⟩
  · exact ht hmem
  · exact hargs b hb hmem

/-! ### Inlining -/

/-- What holds of a term and of the bindings that wait to be used in it. -/
structure Waiting (linear : String → Bool) (env : Bindings) (t : Lambda) : Prop where
  /-- Binders of the term, binders of the bindings' values and waiting names are all
  different. -/
  distinct : ∀ z, t.binders.count z + (env.total fun a => a.binders.count z) + env.names.count z ≤ 1
  /-- No binder's name is free anywhere. -/
  unfree : ∀ z, t.binders.count z + (env.total fun a => a.binders.count z) ≠ 0 →
    z ∉ t.free ∧ ∀ b ∈ env, z ∉ b.2.free
  /-- No value uses a waiting name. -/
  closed : ∀ z ∈ env.names, env.total (count z) = 0
  /-- Linear names are used at most once. -/
  once : ∀ z, linear z = true → t.count z + env.total (count z) ≤ 1
  /-- Only linear names wait. -/
  linear_of_mem : ∀ z ∈ env.names, linear z = true

namespace Waiting

variable {f x body : Lambda} {p : String}

theorem fn (h : Waiting linear env (fn p body)) : Waiting linear env body := by
  refine ⟨fun z => ?_, fun z hz => ?_, h.closed, h.once, h.linear_of_mem⟩
  · have := h.distinct z
    rw [count_binders_fn] at this
    omega
  · have hdist := h.distinct z
    have hun := h.unfree z (by rw [count_binders_fn]; omega)
    refine ⟨fun hfree => hun.1 (mem_free_fn.mpr ⟨hfree, fun he => ?_⟩), hun.2⟩
    -- The parameter itself is free in the body, but it is bound once and not again.
    rw [count_binders_fn, if_pos he.symm] at hdist
    omega

theorem «fun» (h : Waiting linear env (ap f x)) : Waiting linear env f := by
  refine ⟨fun z => ?_, fun z hz => ?_, h.closed, fun z hz => ?_, h.linear_of_mem⟩
  · have := h.distinct z
    rw [count_binders_ap] at this
    omega
  · have hun := h.unfree z (by rw [count_binders_ap]; omega)
    exact ⟨fun hfree => hun.1 (mem_free_ap.mpr (Or.inl hfree)), hun.2⟩
  · have := h.once z hz
    simp only [count] at this
    omega

theorem mem_names_unused {z : String} (h : z ∈ (env.unused f).names) : z ∈ env.names := by
  obtain ⟨a, ha⟩ := Bindings.mem_names.mp h
  exact Bindings.mem_names.mpr ⟨a, List.mem_of_mem_filter ha⟩

theorem count_names_unused (env : Bindings) (f : Lambda) (z : String) :
    (env.unused f).names.count z ≤ env.names.count z :=
  List.Sublist.count_le z (List.Sublist.map Prod.fst List.filter_sublist)

/-- Forgetting bindings that a term does not need keeps the invariant. -/
theorem unused (h : Waiting linear env t) : Waiting linear (env.unused f) t := by
  have hle : ∀ μ, (env.unused f).total μ ≤ env.total μ := fun μ =>
    Bindings.total_filter_le μ _ env
  refine ⟨fun z => ?_, fun z hz => ?_, fun z hz => ?_, fun z hz => ?_, fun z hz => ?_⟩
  · have := h.distinct z
    have := hle fun a => a.binders.count z
    have := count_names_unused env f z
    omega
  · have := hle fun a => a.binders.count z
    have hun := h.unfree z (by omega)
    exact ⟨hun.1, fun b hb => hun.2 b (List.mem_of_mem_filter hb)⟩
  · have := h.closed z (mem_names_unused hz)
    have := hle (count z)
    omega
  · have := h.once z hz
    have := hle (count z)
    omega
  · exact h.linear_of_mem z (mem_names_unused hz)

theorem arg (h : Waiting linear env (ap f x)) : Waiting linear env x := by
  refine ⟨fun z => ?_, fun z hz => ?_, h.closed, fun z hz => ?_, h.linear_of_mem⟩
  · have := h.distinct z
    rw [count_binders_ap] at this
    omega
  · have hun := h.unfree z (by rw [count_binders_ap]; omega)
    exact ⟨fun hfree => hun.1 (mem_free_ap.mpr (Or.inr hfree)), hun.2⟩
  · have := h.once z hz
    simp only [count] at this
    omega

theorem count_le_one (h : Waiting linear env t) : ∀ b ∈ env, t.count b.1 ≤ 1 := by
  intro b hb
  have := h.once b.1 (h.linear_of_mem b.1 (Bindings.mem_names_of_mem hb))
  omega

/-! What is known of a term that the filled one reduces to. -/

section Reduct

theorem measure_le {μ : Lambda → Nat} (hμ : Additive μ) (h : Waiting linear env t)
    (hred : Reduces Affine (fill env t) t') :
    μ t' + (env.unused t).total μ ≤ μ t + env.total μ := by
  have := hred.measure_le hμ
  have := fill_measure hμ t env h.count_le_one
  omega

theorem count_eq_zero (h : Waiting linear env t) (hred : Reduces Affine (fill env t) t')
    {z : String} (hz : z ∈ env.names) : t'.count z = 0 := by
  have hle := hred.measure_le (additive_count z)
  rw [count_fill_eq_zero hz (h.closed z hz)] at hle
  omega

end Reduct

/-- The function of an application uses up bindings that the argument does not need. -/
theorem fill_arg (h : Waiting linear env (ap f x)) : fill (env.unused f) x = fill env x := by
  refine fill_congr fun y hy => ?_
  by_cases hf : f.count y = 0
  · exact Bindings.lookup_unused hf env
  · have hnot : y ∉ env.names := fun hmem => by
      have := h.once y (h.linear_of_mem y hmem)
      simp only [count] at this
      omega
    rw [Bindings.lookup_eq_none.mpr hnot,
      Bindings.lookup_eq_none.mpr fun hmem => hnot (mem_names_unused hmem)]

/-! A redex whose parameter is linear, after its function and its argument were walked. -/

section Redex

variable {x' : Lambda} (h : Waiting linear env (ap f x))
  (hf : Reduces Affine (fill env f) (Lambda.fn p body)) (hx : Reduces Affine (fill env x) x')

include h hf hx

/-- Nothing in the redex and in the bindings that are left was not there before. -/
theorem redex_measure_le {μ : Lambda → Nat} (hμ : Additive μ) :
    μ (Lambda.fn p body) + μ x' + (env.unused (ap f x)).total μ ≤ μ f + μ x + env.total μ := by
  have h1 := h.fun.measure_le hμ hf
  have hx' : Reduces Affine (fill (env.unused f) x) x' := by
    rw [h.fill_arg]
    exact hx
  have h2 := (h.arg.unused (f := f)).measure_le hμ hx'
  rw [Bindings.unused_ap]
  omega

theorem redex_distinct (z : String) :
    (if p = z then 1 else 0) + body.binders.count z + x'.binders.count z
      + ((env.unused (ap f x)).total fun a => a.binders.count z)
      + (env.unused (ap f x)).names.count z ≤ 1 := by
  have hle := redex_measure_le h hf hx (additive_binders z)
  have hdist := h.distinct z
  have hnames := count_names_unused env (ap f x) z
  rw [count_binders_ap] at hdist
  simp only [count_binders_fn] at hle
  omega

/-- A name that the redex or the bindings bind is free in neither. -/
theorem redex_unfree {z : String}
    (hz : (Lambda.fn p body).binders.count z + x'.binders.count z
      + ((env.unused (ap f x)).total fun a => a.binders.count z) ≠ 0) :
    z ∉ (Lambda.fn p body).free ∧ z ∉ x'.free ∧ ∀ b ∈ env.unused (ap f x), z ∉ b.2.free := by
  have hle := redex_measure_le h hf hx (additive_binders z)
  have hbound : (ap f x).binders.count z + (env.total fun a => a.binders.count z) ≠ 0 := by
    rw [count_binders_ap]
    omega
  obtain ⟨hfree, hargs⟩ := h.unfree z hbound
  rw [mem_free_ap, not_or] at hfree
  exact ⟨notMem_free_reduct hf hfree.1 hargs, notMem_free_reduct hx hfree.2 hargs,
    fun b hb => hargs b (List.mem_of_mem_filter hb)⟩

theorem redex_contracts (hp : linear p = true) :
    Contracts Affine (ap (Lambda.fn p body) x') (fill [(p, x')] body) := by
  refine .redex ?_ ?_ ?_
  · have := redex_measure_le h hf hx (additive_count p)
    have := h.once p hp
    simp only [count] at *
    show body.count p ≤ 1
    omega
  · intro hmem
    have := redex_distinct h hf hx p
    have := List.count_pos_iff.mpr hmem
    simp only [if_pos] at *
    omega
  · intro q hq
    have hpos := List.count_pos_iff.mpr hq
    exact (redex_unfree h hf hx (z := q) (by rw [count_binders_fn]; omega)).2.1

/-- The parameter does not wait already. -/
theorem redex_drop : (env.unused (ap f x)).drop p = env.unused (ap f x) := by
  refine List.filter_eq_self.mpr fun b hb => ?_
  have hpos := List.count_pos_iff.mpr (Bindings.mem_names_of_mem hb)
  have hdist := redex_distinct h hf hx b.1
  have hne : b.1 ≠ p := fun he => by
    rw [if_pos he.symm] at hdist
    omega
  simpa using hne

/-- **Binding the parameter keeps the invariant.** -/
theorem redex_bind (hp : linear p = true) :
    Waiting linear ((p, x') :: env.unused (ap f x)) body := by
  have hbody : ∀ {z}, body.binders.count z + x'.binders.count z
      + ((env.unused (ap f x)).total fun a => a.binders.count z) ≠ 0 → z ∉ body.free := by
    intro z hz hfree
    have hdist := redex_distinct h hf hx z
    have hun := redex_unfree h hf hx (z := z) (by rw [count_binders_fn]; omega)
    refine hun.1 (mem_free_fn.mpr ⟨hfree, fun he => ?_⟩)
    rw [if_pos he.symm] at hdist
    omega
  refine ⟨fun z => ?_, fun z hz => ?_, fun z hz => ?_, fun z hz => ?_, fun z hz => ?_⟩
  · have hdist := redex_distinct h hf hx z
    simp only [Bindings.total_cons, Bindings.names, List.map_cons, List.count_cons, beq_iff_eq] at *
    omega
  · rw [Bindings.total_cons] at hz
    have hun := redex_unfree h hf hx (z := z) (by rw [count_binders_fn]; simp only at hz; omega)
    refine ⟨hbody (by simp only at hz; omega), fun b hb => ?_⟩
    rcases List.mem_cons.mp hb with rfl | hmem
    · exact hun.2.1
    · exact hun.2.2 b hmem
  · rw [Bindings.total_cons]
    rcases List.mem_cons.mp hz with rfl | hmem
    · -- The parameter is bound by the function alone, so no value uses it.
      have hun := redex_unfree h hf hx (z := z) (by rw [count_binders_fn]; simp)
      have hdist := redex_distinct h hf hx z
      rw [if_pos rfl] at hdist
      have hx0 : x'.count z = 0 := Lambda.count_eq_zero hun.2.1 fun hb => by
        have := List.count_pos_iff.mpr hb
        omega
      have hargs : (env.unused (ap f x)).total (count z) = 0 := by
        refine Bindings.total_eq_zero fun b hb => ?_
        refine Lambda.count_eq_zero (hun.2.2 b hb) fun hbind => ?_
        have hpos := List.count_pos_iff.mpr hbind
        have := Bindings.le_total_of_mem (fun a => a.binders.count z) hb
        omega
      simp only
      omega
    · have hx0 : x'.count z = 0 := h.arg.count_eq_zero hx (mem_names_unused hmem)
      have := h.closed z (mem_names_unused hmem)
      have := Bindings.total_filter_le (count z) (fun b => (ap f x).count b.1 = 0) env
      simp only [Bindings.unused]
      omega
  · have hle := redex_measure_le h hf hx (additive_count z)
    have := h.once z hz
    simp only [count, Bindings.total_cons] at *
    omega
  · rcases List.mem_cons.mp hz with rfl | hmem
    · exact hp
    · exact h.linear_of_mem z (mem_names_unused hmem)

omit hx in
/-- In the body of the redex nothing but the parameter is waited for. -/
theorem redex_unused : (env.unused (ap f x)).unused body = env.unused (ap f x) := by
  refine List.filter_eq_self.mpr fun b hb => ?_
  have hzero : body.count b.1 = 0 :=
    h.fun.count_eq_zero hf (mem_names_unused (Bindings.mem_names_of_mem hb))
  simpa using hzero

omit hx in
theorem redex_fill : fill ((p, x') :: env.unused (ap f x)) body = fill [(p, x')] body := by
  refine fill_congr fun z hz => ?_
  have hnot : z ∉ (env.unused (ap f x)).names := fun hmem =>
    hz (h.fun.count_eq_zero hf (mem_names_unused hmem))
  rw [List.lookup_cons, List.lookup_cons, Bindings.lookup_eq_none.mpr hnot, List.lookup_nil]

/-- When the body was walked and the parameter's binding dropped, the bindings are left that
the redex does not use. -/
theorem redex_rest :
    Bindings.drop p (Bindings.unused body ((p, x') :: env.unused (ap f x)))
      = env.unused (ap f x) := by
  have hrest := h.redex_unused hf
  rw [Bindings.unused] at hrest
  rw [Bindings.unused, List.filter_cons, hrest]
  split
  · rw [Bindings.drop, List.filter_cons, if_neg (by simp)]
    exact h.redex_drop hf hx
  · exact h.redex_drop hf hx

end Redex

end Waiting

theorem unused_leaf (h : ∀ z, t.count z = 0) (env : Bindings) : env.unused t = env :=
  List.filter_eq_self.mpr fun c _ => by simp [h c.1]

/-- **Inlining contracts affine redexes**, of the term with the waiting bindings put in place,
and leaves the bindings that the term does not use. -/
theorem Inlines.reduces (h : Inlines linear env t t' rest) (hw : Waiting linear env t) :
    rest = env.unused t ∧ Reduces Affine (fill env t) t' := by
  induction h with
  | @fn _ _ p _ _ _ ih =>
      obtain ⟨hrest, hred⟩ := ih hw.fn
      exact ⟨hrest, hred.fn p⟩
  | @redex env _ _ rest p f b x x' b' _ _ hp _ ihf ihx ihb =>
      obtain ⟨rfl, hredf⟩ := ihf hw.fun
      obtain ⟨rfl, hredx⟩ := ihx hw.arg.unused
      rw [← Bindings.unused_ap, Bindings.put] at ihb
      rw [hw.fill_arg] at hredx
      rw [hw.redex_drop hredf hredx] at ihb
      obtain ⟨hrest, hredb⟩ := ihb (hw.redex_bind hredf hredx hp)
      rw [hw.redex_fill hredf] at hredb
      refine ⟨?_, (hredf.ap hredx).trans (hredb.head (hw.redex_contracts hredf hredx hp))⟩
      rw [hrest]
      exact hw.redex_rest hredf hredx
  | ap _ _ _ ihf ihx =>
      obtain ⟨rfl, hredf⟩ := ihf hw.fun
      obtain ⟨rfl, hredx⟩ := ihx hw.arg.unused
      rw [hw.fill_arg] at hredx
      exact ⟨(Bindings.unused_ap _ _ _).symm, hredf.ap hredx⟩
  | bound hy =>
      refine ⟨(Bindings.unused_sym _ _).symm, ?_⟩
      rw [fill, hy]
      exact .refl
  | unbound hy =>
      refine ⟨?_, ?_⟩
      · rw [Bindings.unused_sym, Bindings.drop_of_lookup hy]
      · rw [fill, hy]
        exact .refl
  | int n => exact ⟨(unused_leaf (fun _ => rfl) _).symm, .refl⟩
  | prim q => exact ⟨(unused_leaf (fun _ => rfl) _).symm, .refl⟩

theorem waiting_nil (h : t.Hygienic) : Waiting (fun p => t.count p == 1) [] t := by
  refine ⟨fun z => ?_, fun z hz => ?_, fun z hz => ?_, fun z hz => ?_, fun z hz => ?_⟩
  · have := h.count_le_one z
    simpa [Bindings.total, Bindings.names] using this
  · have hpos : 0 < t.binders.count z := by
      simp only [Bindings.total, List.foldr_nil] at hz
      omega
    exact ⟨h.unfree z (List.count_pos_iff.mp hpos), by simp⟩
  · simp [Bindings.names] at hz
  · have hone : t.count z = 1 := by simpa using hz
    simp [hone, Bindings.total]
  · simp [Bindings.names] at hz

theorem inlined_reduces (h : t.Hygienic) : Reduces Affine t t.inlined := by
  have hred := ((inlined_inlines t).reduces (waiting_nil h)).2
  rwa [fill_nil] at hred

/-! ### Relabelling -/

/-- What holds of a term and of the names that stand for atoms in it. -/
structure Aliased (env : Bindings) (t : Lambda) : Prop where
  atoms : ∀ b ∈ env, b.2.isAtom
  /-- Binders are different from each other and from the names that stand for something. -/
  distinct : ∀ z, t.binders.count z ≤ 1 ∧ (z ∈ env.names → z ∉ t.binders)
  /-- No binder's name is free in the term or is an atom that a name stands for. -/
  unfree : ∀ z ∈ t.binders, z ∉ t.free ∧ ∀ b ∈ env, z ∉ b.2.free
  /-- No name stands for one that stands for something itself. -/
  closed : ∀ z ∈ env.names, ∀ b ∈ env, z ∉ b.2.free

namespace Aliased

variable {f x body : Lambda} {p : String}

theorem fn (h : Aliased env (fn p body)) : Aliased env body := by
  have hcount : ∀ z, body.binders.count z + (if p = z then 1 else 0) ≤ 1 := fun z => by
    have := (h.distinct z).1
    rwa [count_binders_fn] at this
  refine ⟨h.atoms, fun z => ⟨?_, fun hz hb => ?_⟩, fun z hz => ?_, h.closed⟩
  · have := hcount z
    omega
  · exact (h.distinct z).2 hz (mem_binders_fn.mpr (Or.inr hb))
  · have hun := h.unfree z (mem_binders_fn.mpr (Or.inr hz))
    refine ⟨fun hfree => hun.1 (mem_free_fn.mpr ⟨hfree, fun he => ?_⟩), hun.2⟩
    have := hcount z
    have := List.count_pos_iff.mpr hz
    rw [if_pos he.symm] at *
    omega

/-- Both parts of an application are aliased if it is. -/
theorem part (h : Aliased env t) {u : Lambda} (hb : ∀ z, u.binders.count z ≤ t.binders.count z)
    (hf : ∀ z ∈ u.free, z ∈ t.free) : Aliased env u := by
  have hmem : ∀ z ∈ u.binders, z ∈ t.binders := fun z hz =>
    List.count_pos_iff.mp (Nat.lt_of_lt_of_le (List.count_pos_iff.mpr hz) (hb z))
  refine ⟨h.atoms, fun z => ⟨Nat.le_trans (hb z) (h.distinct z).1, fun hz hu => ?_⟩,
    fun z hz => ?_, h.closed⟩
  · exact (h.distinct z).2 hz (hmem z hu)
  · have hun := h.unfree z (hmem z hz)
    exact ⟨fun hfree => hun.1 (hf z hfree), hun.2⟩

theorem «fun» (h : Aliased env (ap f x)) : Aliased env f :=
  h.part (fun z => by rw [count_binders_ap]; omega) fun z hz => mem_free_ap.mpr (Or.inl hz)

theorem arg (h : Aliased env (ap f x)) : Aliased env x :=
  h.part (fun z => by rw [count_binders_ap]; omega) fun z hz => mem_free_ap.mpr (Or.inr hz)

section Reduct

variable (h : Aliased env t) (hred : Reduces Atomic (fill env t) t')

include h hred

theorem count_binders_le (z : String) : t'.binders.count z ≤ t.binders.count z := by
  have hcheap : Reduces Cheap (fill env t) t' := hred.mono fun _ _ _ => Or.inr
  have hle := hcheap.count_binders_le z
  rwa [binders_fill_of_atoms h.atoms] at hle

theorem mem_binders {z : String} (hz : z ∈ t'.binders) : z ∈ t.binders :=
  List.count_pos_iff.mp
    (Nat.lt_of_lt_of_le (List.count_pos_iff.mpr hz) (h.count_binders_le hred z))

/-- Names that stand for something are gone. -/
theorem notMem_free {z : String} (hz : z ∈ env.names) : z ∉ t'.free := by
  intro hfree
  rcases mem_free_fill (hred.mem_free hfree) with ⟨-, hnot⟩ | ⟨b, hb, hmem⟩
  · exact hnot hz
  · exact h.closed z hz b hb hmem

end Reduct

section Redex

variable {x' : Lambda} (h : Aliased env (ap f x))
  (hf : Reduces Atomic (fill env f) (Lambda.fn p body)) (hx : Reduces Atomic (fill env x) x')

include h hf hx

/-- A name that the function binds is neither free in the redex nor stood for. -/
theorem redex_unfree {z : String} (hz : z ∈ (Lambda.fn p body).binders) :
    z ∉ (Lambda.fn p body).free ∧ z ∉ x'.free ∧ ∀ b ∈ env, z ∉ b.2.free := by
  have hmem : z ∈ (ap f x).binders := mem_binders_ap.mpr (Or.inl (h.fun.mem_binders hf hz))
  obtain ⟨hfree, hargs⟩ := h.unfree z hmem
  rw [mem_free_ap, not_or] at hfree
  exact ⟨notMem_free_reduct hf hfree.1 hargs, notMem_free_reduct hx hfree.2 hargs, hargs⟩

omit hx in
theorem redex_notMem_binders : p ∉ body.binders := by
  intro hmem
  have hle := h.fun.count_binders_le hf p
  have hone := (h.fun.distinct p).1
  have hpos := List.count_pos_iff.mpr hmem
  rw [count_binders_fn, if_pos rfl] at hle
  omega

theorem redex_contracts (hatom : x'.isAtom) :
    Contracts Atomic (ap (Lambda.fn p body) x') (fill [(p, x')] body) :=
  .redex hatom (h.redex_notMem_binders hf) fun _ hq =>
    (h.redex_unfree hf hx (mem_binders_fn.mpr (Or.inr hq))).2.1

theorem redex_bind (hatom : x'.isAtom) : Aliased ((p, x') :: env) body := by
  have hp := h.redex_unfree hf hx (mem_binders_fn.mpr (Or.inl (rfl : p = p)))
  have hbody : ∀ {z}, z ∈ body.binders → z ∉ body.free := fun {z} hz hfree => by
    refine (h.redex_unfree hf hx (mem_binders_fn.mpr (Or.inr hz))).1
      (mem_free_fn.mpr ⟨hfree, fun he => ?_⟩)
    exact h.redex_notMem_binders hf (he ▸ hz)
  refine ⟨fun b hb => ?_, fun z => ⟨?_, fun hz hb => ?_⟩, fun z hz => ⟨hbody hz, fun b hb => ?_⟩,
    fun z hz b hb => ?_⟩
  · rcases List.mem_cons.mp hb with rfl | hmem
    · exact hatom
    · exact h.atoms b hmem
  · have := h.fun.count_binders_le hf z
    have := (h.fun.distinct z).1
    rw [count_binders_fn] at *
    omega
  · rcases List.mem_cons.mp hz with rfl | hmem
    · exact h.redex_notMem_binders hf hb
    · exact (h.fun.distinct z).2 hmem (h.fun.mem_binders hf (mem_binders_fn.mpr (Or.inr hb)))
  · have hun := h.redex_unfree hf hx (mem_binders_fn.mpr (Or.inr hz))
    rcases List.mem_cons.mp hb with rfl | hmem
    · exact hun.2.1
    · exact hun.2.2 b hmem
  · rcases List.mem_cons.mp hz with rfl | hzmem
    · rcases List.mem_cons.mp hb with rfl | hbmem
      · exact hp.2.1
      · exact hp.2.2 b hbmem
    · rcases List.mem_cons.mp hb with rfl | hbmem
      · exact h.arg.notMem_free hx hzmem
      · exact h.closed z hzmem b hbmem

omit hx in
/-- In the body of the redex nothing but the parameter still stands for something. -/
theorem redex_fill : fill ((p, x') :: env) body = fill [(p, x')] body := by
  refine fill_congr fun z hz => ?_
  have hnot : z ∉ env.names := fun hmem => by
    refine hz (count_eq_zero (t := Lambda.fn p body) (h.fun.notMem_free hf hmem) fun hb => ?_)
    exact (h.fun.distinct z).2 hmem (h.fun.mem_binders hf hb)
  rw [List.lookup_cons, List.lookup_cons, Bindings.lookup_eq_none.mpr hnot, List.lookup_nil]

end Redex

/-- Following a symbol takes one step, since no chain is longer. -/
theorem chases_eq_fill (h : Aliased env t) {y : String} {u : Lambda} (hy : Chases env (sym y) u) :
    u = fill env (sym y) := by
  have hclosed : ∀ {z a}, env.lookup z = some a → ∀ w ∈ a.free, env.lookup w = none := by
    intro z a hz w hw
    exact Bindings.lookup_eq_none.mpr fun hmem =>
      h.closed w hmem _ (Bindings.mem_of_lookup hz) hw
  rw [fill]
  cases hy with
  | stop hfinal =>
      cases hl : env.lookup y with
      | none => rfl
      | some a =>
          obtain rfl := hfinal y rfl a hl
          rw [hclosed hl y (by simp [free])] at hl
          cases hl
  | @follow _ a _ hl hne ha =>
      have hfinal : Final env a := by
        rintro z rfl c hc
        rw [hclosed hl z (by simp [free])] at hc
        cases hc
      rw [hl]
      exact ha.unique (.stop hfinal)

end Aliased

/-- **Relabelling contracts redexes with atomic arguments**, of the term with what names stand
for put in place. -/
theorem Relabels.reduces (h : Relabels env t t') (ha : Aliased env t) :
    Reduces Atomic (fill env t) t' := by
  induction h with
  | @fn _ p _ _ _ ih => exact (ih ha.fn).fn p
  | redex _ _ hatom _ ihf ihx ihb =>
      have hredf := ihf ha.fun
      have hredx := ihx ha.arg
      have hredb := ihb (ha.redex_bind hredf hredx hatom)
      rw [ha.redex_fill hredf] at hredb
      exact (hredf.ap hredx).trans (hredb.head (ha.redex_contracts hredf hredx hatom))
  | ap _ _ _ ihf ihx => exact (ihf ha.fun).ap (ihx ha.arg)
  | sym hy => rw [ha.chases_eq_fill hy]
  | int n => exact .refl
  | prim q => exact .refl

theorem aliased_nil (h : t.Hygienic) : Aliased [] t :=
  ⟨by simp, fun z => ⟨h.count_le_one z, by simp [Bindings.names]⟩,
    fun z hz => ⟨h.unfree z hz, by simp⟩, by simp [Bindings.names]⟩

theorem relabelled_reduces (h : t.Hygienic) : Reduces Atomic t t.relabelled := by
  have hred := (relabelled_relabels t).reduces (aliased_nil h)
  rwa [fill_nil] at hred

/-! ### Rounds -/

theorem round_reduces (h : t.Hygienic) : Reduces Cheap t t.round := by
  have hin : Reduces Cheap t t.inlined := (inlined_reduces h).mono fun _ _ _ => Or.inl
  exact hin.trans ((relabelled_reduces (hin.hygienic h)).mono fun _ _ _ => Or.inr)

theorem Settles.reduces (h : Settles t t') (ht : t.Hygienic) : Reduces Cheap t t' := by
  induction h with
  | done _ => exact .refl
  | again _ _ ih =>
      have hround := round_reduces ht
      exact hround.trans (ih (hround.hygienic ht))

/-- **Shrinking a hygienic term contracts redexes and does nothing else.** -/
theorem shrink_reduces (h : t.Hygienic) : Reduces Cheap t t.shrink :=
  (shrink_settles t).reduces h

/-! ### What is left -/

/-- A redex that is left has an argument that is no atom and a parameter whose name is not
used exactly once. -/
theorem redex_of_shrink {b a : Lambda} {p : String} (hpart : Part (ap (fn p b) a) t.shrink) :
    a.isAtom = false ∧ t.shrink.count p ≠ 1 := by
  have hround := (shrink_settles t).round_eq
  exact (round_settled (Nat.le_of_eq (congrArg size hround.symm))).2 p b a hpart

/-- **A shrunk term has no redex whose parameter is used once.** -/
theorem count_ne_one_of_shrink {b a : Lambda} {p : String} (h : t.Hygienic)
    (hpart : Part (ap (fn p b) a) t.shrink) : b.count p ≠ 1 := by
  have hfn : Part (fn p b) t.shrink := (Part.function a .refl).trans hpart
  rw [← hfn.count_eq ((shrink_reduces h).hygienic h)]
  exact (redex_of_shrink hpart).2

theorem Part.relevant {u : Lambda} (h : Part u t) (ht : t.Relevant) : u.Relevant := by
  induction h with
  | refl => exact ht
  | body p _ ih => exact ih ht.2
  | function x _ ih => exact ih ht.1
  | argument f _ ih => exact ih ht.2

theorem count_ne_zero_of_mem_free {z : String} (h : z ∈ t.free) : t.count z ≠ 0 := by
  induction t with
  | fn p b ih => exact ih (mem_free_fn.mp h).1
  | ap f x ihf ihx =>
      rw [count]
      rcases mem_free_ap.mp h with hf | hx
      · have := ihf hf
        omega
      · have := ihx hx
        omega
  | sym y =>
      have hzy : z = y := by simpa [free] using h
      simp [count, hzy]
  | int n => simp [free] at h
  | prim q => simp [free] at h

/-- In the shrunk form of code every redex that is left would copy its argument. -/
theorem two_le_count_of_shrink {c : Code} {b a : Lambda} {p : String}
    (hpart : Part (ap (fn p b) a) (ofCode c).shrink) : 2 ≤ b.count p := by
  have hhygienic := ofCode_hygienic c
  have hfn : Part (fn p b) (ofCode c).shrink := (Part.function a .refl).trans hpart
  have hused : p ∈ b.free :=
    (hfn.relevant ((shrink_reduces hhygienic).relevant (ofCode_relevant c))).1
  have hzero := count_ne_zero_of_mem_free hused
  have hone := count_ne_one_of_shrink hhygienic hpart
  omega

/-- **Shrinking leaves nothing that it could contract.**  In no redex that is left, whatever the
names of the term, is the argument an atom or the parameter's name used exactly once in the
term; and in a term that comes from code every redex that is left uses its parameter twice at
least. -/
theorem shrink_irreducible :
    (∀ (t : Lambda) p b a, Part (ap (fn p b) a) t.shrink →
      a.isAtom = false ∧ t.shrink.count p ≠ 1) ∧
    ∀ (c : Code) p b a, Part (ap (fn p b) a) (ofCode c).shrink → 2 ≤ b.count p :=
  ⟨fun _ _ _ _ => redex_of_shrink, fun _ _ _ _ => two_le_count_of_shrink⟩

/-- `s i i (f 1)`: the argument is no atom, and the parameter is used twice. -/
theorem shrink_irreducible_twice :
    let c : Code := .ap (.ap (.ap (.prim .s) (.prim .i)) (.prim .i)) (.ap (.sym "f") (.int 1))
    let b : Lambda := ap (sym "x2") (sym "x2")
    let a : Lambda := ap (sym "f") (int 1)
    Part (ap (fn "x2" b) a) (ofCode c).shrink ∧ a.isAtom = false ∧
      (ofCode c).shrink.count "x2" ≠ 1 ∧ 2 ≤ b.count "x2" := by
  intro c b a
  have hshrunk : (ofCode c).shrink = ap (fn "x2" b) a := by decide +kernel
  have hpart : Part (ap (fn "x2" b) a) (ofCode c).shrink := hshrunk ▸ .refl
  exact ⟨hpart, (shrink_irreducible.1 _ _ _ _ hpart).1, (shrink_irreducible.1 _ _ _ _ hpart).2,
    shrink_irreducible.2 _ _ _ _ hpart⟩

end Decombinator.Lambda
