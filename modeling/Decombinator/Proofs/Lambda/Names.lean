/-
Names in lambda terms, and textual replacement of symbols.

A symbol is bound or free by where it stands, but counting its uses ignores that, and so
does replacing it.  In a hygienic term the difference never matters: a bound name is used
below its one binder only, and nothing that is put in place of a symbol is captured.
-/
import Decombinator.Lambda.Shrink
import Decombinator.Proofs.Names

namespace Decombinator.Lambda

/-- The names that are used where nothing binds them. -/
def free : Lambda → List String
  | fn p body => body.free.filter (· ≠ p)
  | ap f x => f.free ++ x.free
  | sym x => [x]
  | int _ | prim _ => []

/-- The names in binding positions. -/
def binders : Lambda → List String
  | fn p body => p :: body.binders
  | ap f x => f.binders ++ x.binders
  | sym _ | int _ | prim _ => []

def Hygienic (t : Lambda) : Prop :=
  Hygiene t.binders t.free

theorem mem_free_fn {p z : String} {body : Lambda} :
    z ∈ (fn p body).free ↔ z ∈ body.free ∧ z ≠ p := by
  simp [free]

theorem mem_free_ap {f x : Lambda} {z : String} : z ∈ (ap f x).free ↔ z ∈ f.free ∨ z ∈ x.free := by
  simp [free]

theorem mem_binders_fn {p z : String} {body : Lambda} :
    z ∈ (fn p body).binders ↔ z = p ∨ z ∈ body.binders := by
  simp [binders]

theorem mem_binders_ap {f x : Lambda} {z : String} :
    z ∈ (ap f x).binders ↔ z ∈ f.binders ∨ z ∈ x.binders := by
  simp [binders]

theorem count_binders_fn (p z : String) (body : Lambda) :
    (fn p body).binders.count z = body.binders.count z + if p = z then 1 else 0 := by
  simp [binders, List.count_cons]

theorem count_binders_ap (z : String) (f x : Lambda) :
    (ap f x).binders.count z = f.binders.count z + x.binders.count z := by
  simp [binders]

/-- A name that is used is free, unless something binds it. -/
theorem mem_free_of_count {z : String} {t : Lambda} (h : t.count z ≠ 0) (hb : z ∉ t.binders) :
    z ∈ t.free := by
  induction t with
  | fn p body ih =>
      rw [mem_binders_fn, not_or] at hb
      exact mem_free_fn.mpr ⟨ih h hb.2, hb.1⟩
  | ap f x ihf ihx =>
      rw [mem_binders_ap, not_or] at hb
      rw [mem_free_ap]
      by_cases hf : f.count z = 0
      · exact Or.inr (ihx (by simpa [count, hf] using h) hb.2)
      · exact Or.inl (ihf hf hb.1)
  | sym y =>
      by_cases hy : y = z
      · simp [free, hy]
      · simp [count, hy] at h
  | int n => simp [count] at h
  | prim p => simp [count] at h

theorem count_eq_zero {z : String} {t : Lambda} (hf : z ∉ t.free) (hb : z ∉ t.binders) :
    t.count z = 0 := by
  by_contra h
  exact hf (mem_free_of_count h hb)

/-! ### Bindings -/

namespace Bindings

/-- The names that are bound. -/
def names (env : Bindings) : List String :=
  env.map Prod.fst

/-- A measure of terms, summed over what the names stand for. -/
def total (μ : Lambda → Nat) (env : Bindings) : Nat :=
  env.foldr (fun b n => μ b.2 + n) 0

/-- The bindings whose names a term does not use. -/
def unused (t : Lambda) (env : Bindings) : Bindings :=
  env.filter fun b => t.count b.1 = 0

theorem total_cons (μ : Lambda → Nat) (b : String × Lambda) (env : Bindings) :
    total μ (b :: env) = μ b.2 + total μ env := by
  simp [total]

theorem total_filter_le (μ : Lambda → Nat) (keep : String × Lambda → Bool) (env : Bindings) :
    total μ (env.filter keep) ≤ total μ env := by
  induction env with
  | nil => exact Nat.le_refl _
  | cons b env ih =>
      rw [List.filter_cons]
      split
      · rw [total_cons, total_cons]
        omega
      · rw [total_cons]
        omega

/-- A binding counts in the sum over all of them. -/
theorem le_total_of_mem (μ : Lambda → Nat) {b : String × Lambda} {env : Bindings} (h : b ∈ env) :
    μ b.2 ≤ total μ env := by
  induction env with
  | nil => simp at h
  | cons b' env ih =>
      rw [total_cons]
      rcases List.mem_cons.mp h with rfl | h'
      · exact Nat.le_add_right _ _
      · exact Nat.le_trans (ih h') (Nat.le_add_left _ _)

theorem total_eq_zero {μ : Lambda → Nat} {env : Bindings} (h : ∀ b ∈ env, μ b.2 = 0) :
    total μ env = 0 := by
  induction env with
  | nil => rfl
  | cons b env ih =>
      rw [total_cons, h b (by simp), ih fun c hc => h c (List.mem_cons_of_mem _ hc)]

theorem mem_of_lookup {x : String} {a : Lambda} {env : Bindings} (h : env.lookup x = some a) :
    (x, a) ∈ env := by
  induction env with
  | nil => simp at h
  | cons b env ih =>
      obtain ⟨y, c⟩ := b
      rw [List.lookup_cons] at h
      by_cases hxy : x = y
      · subst hxy
        simp at h
        simp [h]
      · have hne : (x == y) = false := by simpa using hxy
        rw [hne] at h
        exact List.mem_cons_of_mem _ (ih h)

theorem lookup_eq_none {x : String} {env : Bindings} : env.lookup x = none ↔ x ∉ env.names := by
  induction env with
  | nil => simp [names]
  | cons b env ih =>
      obtain ⟨y, c⟩ := b
      rw [List.lookup_cons]
      by_cases hxy : x = y
      · subst hxy
        simp [names]
      · have hne : (x == y) = false := by simpa using hxy
        rw [hne]
        simp only [names, List.map_cons, List.mem_cons, hxy, false_or] at ih ⊢
        exact ih

theorem mem_names_of_mem {b : String × Lambda} {env : Bindings} (h : b ∈ env) : b.1 ∈ env.names :=
  List.mem_map_of_mem h

theorem mem_names {x : String} {env : Bindings} : x ∈ env.names ↔ ∃ a, (x, a) ∈ env := by
  simp [names]

theorem unused_ap (f x : Lambda) (env : Bindings) : unused (ap f x) env = unused x (unused f env) := by
  simp only [unused, List.filter_filter, count, Nat.add_eq_zero_iff, Bool.decide_and]
  exact List.filter_congr fun b _ => Bool.and_comm _ _

theorem lookup_unused {t : Lambda} {x : String} (h : t.count x = 0) (env : Bindings) :
    (unused t env).lookup x = env.lookup x := by
  induction env with
  | nil => rfl
  | cons b env ih =>
      obtain ⟨y, c⟩ := b
      rw [unused, List.filter_cons]
      by_cases hy : t.count y = 0
      · rw [if_pos (by simpa using hy), List.lookup_cons, List.lookup_cons]
        split
        · rfl
        · exact ih
      · have hxy : (x == y) = false := by
          have hne : x ≠ y := fun he => hy (he ▸ h)
          simpa using hne
        rw [if_neg (by simpa using hy), List.lookup_cons, hxy]
        exact ih

/-- Taking the bindings of one name away takes at least its value out of the sum. -/
theorem total_without (μ : Lambda → Nat) {x : String} {a : Lambda} {env : Bindings}
    (h : (x, a) ∈ env) : μ a + total μ (unused (sym x) env) ≤ total μ env := by
  induction env with
  | nil => simp at h
  | cons b env ih =>
      obtain ⟨y, c⟩ := b
      rw [unused, List.filter_cons, total_cons]
      rcases List.mem_cons.mp h with heq | hmem
      · cases heq
        rw [if_neg (by simp [count])]
        exact Nat.add_le_add_left (total_filter_le μ _ env) _
      · have hrest := ih hmem
        rw [unused] at hrest
        split
        · rw [total_cons]
          omega
        · omega

theorem unused_sym (y : String) (env : Bindings) : unused (sym y) env = drop y env := by
  refine List.filter_congr fun b _ => ?_
  by_cases hy : b.1 = y
  · simp [count, hy]
  · have hy' : ¬ y = b.1 := fun he => hy he.symm
    simp [count, hy, hy']

theorem drop_of_lookup {y : String} {env : Bindings} (h : env.lookup y = none) :
    drop y env = env := by
  refine List.filter_eq_self.mpr fun b hb => ?_
  have hy : b.1 ≠ y := fun he => lookup_eq_none.mp h (he ▸ mem_names_of_mem hb)
  simpa using hy

end Bindings

/-! ### Textual replacement -/

/-- Replaces symbols by what they stand for, whatever binds them. -/
def fill (env : Bindings) : Lambda → Lambda
  | fn p body => fn p (fill env body)
  | ap f x => ap (fill env f) (fill env x)
  | sym x => (env.lookup x).getD (sym x)
  | int n => int n
  | prim p => prim p

/-- Only the bindings of names that are used matter. -/
theorem fill_congr {env env' : Bindings} {t : Lambda}
    (h : ∀ x, t.count x ≠ 0 → env.lookup x = env'.lookup x) : fill env t = fill env' t := by
  induction t with
  | fn p body ih => rw [fill, fill, ih h]
  | ap f x ihf ihx =>
      rw [fill, fill, ihf fun y hy => h y (by simp only [count]; omega),
        ihx fun y hy => h y (by simp only [count]; omega)]
  | sym y => rw [fill, fill, h y (by simp [count])]
  | int n => rfl
  | prim p => rfl

theorem fill_nil (t : Lambda) : fill [] t = t := by
  induction t with
  | fn p body ih => rw [fill, ih]
  | ap f x ihf ihx => rw [fill, ihf, ihx]
  | sym y => rfl
  | int n => rfl
  | prim p => rfl

/-- A measure that adds up over the nodes of a term. -/
structure Additive (μ : Lambda → Nat) : Prop where
  fn : ∀ p, ∃ k, ∀ body, μ (fn p body) = μ body + k
  ap : ∃ k, ∀ f x, μ (ap f x) = μ f + μ x + k

theorem additive_count (z : String) : Additive (count z) :=
  ⟨fun _ => ⟨0, fun _ => rfl⟩, ⟨0, fun _ _ => rfl⟩⟩

theorem additive_binders (z : String) : Additive fun t => t.binders.count z :=
  ⟨fun p => ⟨_, fun body => count_binders_fn p z body⟩,
    ⟨0, fun f x => count_binders_ap z f x⟩⟩

/-- **Replacement moves and never copies**, as long as each name is used at most once: what
is in the result and in the bindings that were not used was in the term and in the
bindings before. -/
theorem fill_measure {μ : Lambda → Nat} (hμ : Additive μ) :
    ∀ (t : Lambda) (env : Bindings), (∀ b ∈ env, t.count b.1 ≤ 1) →
      μ (fill env t) + (env.unused t).total μ ≤ μ t + env.total μ := by
  intro t
  induction t with
  | fn p body ih =>
      intro env honce
      obtain ⟨k, hk⟩ := hμ.fn p
      have := ih env honce
      rw [fill, hk, hk]
      show μ (fill env body) + k + (env.unused body).total μ ≤ _
      omega
  | ap f x ihf ihx =>
      intro env honce
      obtain ⟨k, hk⟩ := hμ.ap
      have hboth : ∀ b ∈ env, f.count b.1 + x.count b.1 ≤ 1 := honce
      -- What `f` has used up is not asked for again in `x`.
      have hx : fill env x = fill (env.unused f) x := by
        refine fill_congr fun y hy => ?_
        by_cases hf : f.count y = 0
        · exact (Bindings.lookup_unused hf env).symm
        · have hnone : ∀ {e : Bindings}, (∀ b ∈ e, b ∈ env) → e.lookup y = none := by
            intro e he
            rw [Bindings.lookup_eq_none, Bindings.mem_names]
            rintro ⟨a, ha⟩
            have := hboth _ (he _ ha)
            simp only at this
            omega
          rw [hnone fun b hb => hb]
          exact (hnone fun b hb => List.mem_of_mem_filter hb).symm
      have h1 := ihf env fun b hb => by have := hboth b hb; omega
      have h2 := ihx (env.unused f) fun b hb => by
        have := hboth b (List.mem_of_mem_filter hb); omega
      rw [fill, hk, hk, hx, Bindings.unused_ap]
      omega
  | sym y =>
      intro env _
      cases hl : env.lookup y with
      | some a =>
          have := Bindings.total_without μ (Bindings.mem_of_lookup hl)
          rw [fill, hl]
          simp only [Option.getD_some]
          omega
      | none =>
          have := Bindings.total_filter_le μ (fun b => (sym y).count b.1 = 0) env
          rw [fill, hl]
          simp only [Option.getD_none, Bindings.unused]
          omega
  | int n =>
      intro env _
      have := Bindings.total_filter_le μ (fun b => (int n).count b.1 = 0) env
      rw [fill, Bindings.unused]
      omega
  | prim p =>
      intro env _
      have := Bindings.total_filter_le μ (fun b => (prim p).count b.1 = 0) env
      rw [fill, Bindings.unused]
      omega

/-- A name that stands for something is gone, unless a binding brings it back. -/
theorem count_fill_eq_zero {env : Bindings} {z : String} (hz : z ∈ env.names)
    (hargs : env.total (count z) = 0) (t : Lambda) : (fill env t).count z = 0 := by
  induction t with
  | fn p body ih => exact ih
  | ap f x ihf ihx => rw [fill, count, ihf, ihx]
  | sym y =>
      rw [fill]
      cases hl : env.lookup y with
      | some a =>
          have := Bindings.le_total_of_mem (count z) (Bindings.mem_of_lookup hl)
          simp only [Option.getD_some] at this ⊢
          omega
      | none =>
          have hyz : y ≠ z := fun he => Bindings.lookup_eq_none.mp hl (he ▸ hz)
          simp [count, hyz]
  | int n => rfl
  | prim p => rfl

/-- A free name of the result was free before, or came with a binding. -/
theorem mem_free_fill {env : Bindings} {z : String} {t : Lambda} (h : z ∈ (fill env t).free) :
    (z ∈ t.free ∧ z ∉ env.names) ∨ ∃ b ∈ env, z ∈ b.2.free := by
  induction t with
  | fn p body ih =>
      rw [fill, mem_free_fn] at h
      rcases ih h.1 with ⟨hf, hn⟩ | hb
      · exact Or.inl ⟨mem_free_fn.mpr ⟨hf, h.2⟩, hn⟩
      · exact Or.inr hb
  | ap f x ihf ihx =>
      rw [fill, mem_free_ap] at h
      rcases h with h | h
      · rcases ihf h with ⟨hf, hn⟩ | hb
        · exact Or.inl ⟨mem_free_ap.mpr (Or.inl hf), hn⟩
        · exact Or.inr hb
      · rcases ihx h with ⟨hf, hn⟩ | hb
        · exact Or.inl ⟨mem_free_ap.mpr (Or.inr hf), hn⟩
        · exact Or.inr hb
  | sym y =>
      rw [fill] at h
      cases hl : env.lookup y with
      | some a =>
          rw [hl] at h
          exact Or.inr ⟨(y, a), Bindings.mem_of_lookup hl, h⟩
      | none =>
          rw [hl] at h
          have hzy : z = y := by simpa [free] using h
          exact Or.inl ⟨by simp [free, hzy], hzy ▸ Bindings.lookup_eq_none.mp hl⟩
  | int n => simp [fill, free] at h
  | prim p => simp [fill, free] at h

/-! ### Replacing one symbol -/

theorem lookup_single (p : String) (a : Lambda) (x : String) :
    List.lookup x [(p, a)] = if x = p then some a else none := by
  rw [List.lookup_cons]
  by_cases h : x = p
  · simp [h]
  · have hne : (x == p) = false := by simpa using h
    simp [h, hne]

/-- Where nothing is captured, the free names of the replacement take the place of the
name. -/
theorem mem_free_fill_single {p z : String} {a b : Lambda} (hp : p ∉ b.binders)
    (hcap : ∀ q ∈ b.binders, q ∉ a.free) :
    z ∈ (fill [(p, a)] b).free ↔ (z ∈ b.free ∧ z ≠ p) ∨ (p ∈ b.free ∧ z ∈ a.free) := by
  induction b with
  | fn q body ih =>
      rw [mem_binders_fn, not_or] at hp
      have hq := hcap q (mem_binders_fn.mpr (Or.inl rfl))
      rw [fill, mem_free_fn, mem_free_fn, mem_free_fn,
        ih hp.2 fun r hr => hcap r (mem_binders_fn.mpr (Or.inr hr))]
      constructor
      · rintro ⟨⟨hz, hzp⟩ | ⟨hpb, hza⟩, hzq⟩
        · exact Or.inl ⟨⟨hz, hzq⟩, hzp⟩
        · exact Or.inr ⟨⟨hpb, hp.1⟩, hza⟩
      · rintro (⟨⟨hz, hzq⟩, hzp⟩ | ⟨⟨hpb, -⟩, hza⟩)
        · exact ⟨Or.inl ⟨hz, hzp⟩, hzq⟩
        · exact ⟨Or.inr ⟨hpb, hza⟩, fun he => hq (he ▸ hza)⟩
  | ap f x ihf ihx =>
      rw [mem_binders_ap, not_or] at hp
      rw [fill, mem_free_ap, mem_free_ap, mem_free_ap,
        ihf hp.1 fun r hr => hcap r (mem_binders_ap.mpr (Or.inl hr)),
        ihx hp.2 fun r hr => hcap r (mem_binders_ap.mpr (Or.inr hr))]
      grind
  | sym y =>
      rw [fill, lookup_single]
      by_cases hy : y = p
      · subst hy
        simp [free]
      · simp only [if_neg hy, Option.getD_none, free, List.mem_singleton]
        constructor
        · intro hz
          exact Or.inl ⟨hz, fun he => hy (hz ▸ he)⟩
        · rintro (⟨hz, -⟩ | ⟨hpy, -⟩)
          · exact hz
          · exact absurd hpy.symm hy
  | int n => simp [fill, free]
  | prim p => simp [fill, free]

/-! ### Replacing symbols by atoms -/

theorem size_of_isAtom {a : Lambda} (h : a.isAtom) : a.size = 1 := by
  cases a <;> simp [isAtom, size] at h ⊢

theorem binders_of_isAtom {a : Lambda} (h : a.isAtom) : a.binders = [] := by
  cases a <;> simp [isAtom, binders] at h ⊢

variable {env : Bindings}

theorem binders_fill_of_atoms (h : ∀ b ∈ env, b.2.isAtom) (t : Lambda) :
    (fill env t).binders = t.binders := by
  induction t with
  | fn p body ih => rw [fill, binders, binders, ih]
  | ap f x ihf ihx => rw [fill, binders, binders, ihf, ihx]
  | sym y =>
      rw [fill]
      cases hl : env.lookup y with
      | some a => exact binders_of_isAtom (h _ (Bindings.mem_of_lookup hl))
      | none => rfl
  | int n => rfl
  | prim p => rfl

end Decombinator.Lambda
