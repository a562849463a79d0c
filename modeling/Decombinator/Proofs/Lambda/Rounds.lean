/-
Shrinking ends on every term, whatever its names.

The passes are written with fuel, and this file says what they do without it.  `Inlines`,
`Relabels` and `Chases` are the finite runs of the two passes and of the loop that follows
symbols, one rule for each branch, with no bound on their depth or length; `Settles` is a
finite sequence of rounds.  A term has at most one run of each kind.  What has to be shown is
that it has one, and that the fuel lasts to its end.

Names may be repeated and may shadow each other, so nothing is known about what a symbol
refers to.  Two things hold all the same.

  * A binding that waits is used once and then dropped, so the nodes of the term and of the
    waiting bindings together never increase, and contracting a redex takes two of them away.
  * An argument is followed to its end before a parameter is made to stand for it.  So
    whichever name is bound next, no chain of symbols turns back on itself.

A pass that leaves a term with as many nodes as it had has contracted nothing, and then it
has walked the term as it stands and found nothing to contract.
-/
import Decombinator.Proofs.Lambda.Contraction

namespace Decombinator.Lambda

variable {linear : String → Bool} {env rest : Bindings} {a t t' u : Lambda} {p y : String}

/-! ### Runs of inlining -/

/-- A finite run of inlining.  It starts with the bindings `env` waiting and ends with the
bindings `rest`. -/
inductive Inlines (linear : String → Bool) : Bindings → Lambda → Lambda → Bindings → Prop
  | fn {env rest : Bindings} {p : String} {b b' : Lambda} (hb : Inlines linear env b b' rest) :
      Inlines linear env (fn p b) (fn p b') rest
  | redex {env env₁ env₂ rest : Bindings} {p : String} {f b x x' b' : Lambda}
      (hf : Inlines linear env f (fn p b) env₁) (hx : Inlines linear env₁ x x' env₂)
      (hp : linear p = true) (hb : Inlines linear (env₂.put p x') b b' rest) :
      Inlines linear env (ap f x) b' (rest.drop p)
  | ap {env env₁ env₂ : Bindings} {f f' x x' : Lambda}
      (hf : Inlines linear env f f' env₁) (hx : Inlines linear env₁ x x' env₂)
      (hhead : ∀ p b, f' = fn p b → linear p = false) :
      Inlines linear env (ap f x) (ap f' x') env₂
  | bound {env : Bindings} {y : String} {a : Lambda} (hy : env.lookup y = some a) :
      Inlines linear env (sym y) a (env.drop y)
  | unbound {env : Bindings} {y : String} (hy : env.lookup y = none) :
      Inlines linear env (sym y) (sym y) env
  | int {env : Bindings} (n : Int64) : Inlines linear env (int n) (int n) env
  | prim {env : Bindings} (q : Prim) : Inlines linear env (prim q) (prim q) env

theorem Bindings.total_drop_le (μ : Lambda → Nat) (y : String) (env : Bindings) :
    (env.drop y).total μ ≤ env.total μ :=
  total_filter_le μ _ env

namespace Inlines

/-- **Inlining adds no nodes** to the term and the waiting bindings. -/
theorem size_le (h : Inlines linear env t t' rest) :
    t'.size + rest.total size ≤ t.size + env.total size := by
  induction h with
  | fn _ ih =>
      simp only [size]
      omega
  | @redex env env₁ env₂ rest p f b x x' b' _ _ _ _ ihf ihx ihb =>
      have hdrop := Bindings.total_drop_le size p env₂
      have hrest := Bindings.total_drop_le size p rest
      rw [Bindings.put, Bindings.total_cons] at ihb
      simp only [size] at ihf ihb ⊢
      omega
  | ap _ _ _ ihf ihx =>
      simp only [size]
      omega
  | @bound env y a hy =>
      have hout := Bindings.total_without size (Bindings.mem_of_lookup hy)
      rw [Bindings.unused_sym] at hout
      omega
  | unbound _ => exact Nat.le_refl _
  | int n => exact Nat.le_refl _
  | prim q => exact Nat.le_refl _

/-- No binding is added for good. -/
theorem sublist (h : Inlines linear env t t' rest) : rest.Sublist env := by
  induction h with
  | fn _ ih => exact ih
  | @redex env env₁ env₂ rest p f b x x' b' _ _ _ _ ihf ihx ihb =>
      have hput : (rest.drop p).Sublist ((env₂.put p x').drop p) := ihb.filter _
      have hdrop : (env₂.put p x').drop p = env₂.drop p := by
        simp [Bindings.put, Bindings.drop]
      rw [hdrop] at hput
      exact hput.trans (List.filter_sublist.trans (ihx.trans ihf))
  | ap _ _ _ ihf ihx => exact ihx.trans ihf
  | bound _ => exact List.filter_sublist
  | unbound _ => exact .refl _
  | int n => exact .refl _
  | prim q => exact .refl _

theorem rest_nil (h : Inlines linear [] t t' rest) : rest = [] :=
  List.sublist_nil.mp h.sublist

theorem unique (h : Inlines linear env t t' rest) :
    ∀ {u rest'}, Inlines linear env t u rest' → t' = u ∧ rest = rest' := by
  induction h with
  | fn _ ih =>
      intro u rest' h'
      cases h' with
      | fn hb =>
          obtain ⟨rfl, rfl⟩ := ih hb
          exact ⟨rfl, rfl⟩
  | redex _ _ hp _ ihf ihx ihb =>
      intro u rest' h'
      cases h' with
      | redex hf hx _ hb =>
          obtain ⟨heq, rfl⟩ := ihf hf
          obtain ⟨rfl, rfl⟩ := Lambda.fn.inj heq
          obtain ⟨rfl, rfl⟩ := ihx hx
          obtain ⟨rfl, rfl⟩ := ihb hb
          exact ⟨rfl, rfl⟩
      | ap hf _ hhead =>
          obtain ⟨heq, -⟩ := ihf hf
          simp [hhead _ _ heq.symm] at hp
  | ap _ _ hhead ihf ihx =>
      intro u rest' h'
      cases h' with
      | redex hf _ hp _ =>
          obtain ⟨heq, -⟩ := ihf hf
          simp [hhead _ _ heq] at hp
      | ap hf hx _ =>
          obtain ⟨rfl, rfl⟩ := ihf hf
          obtain ⟨rfl, rfl⟩ := ihx hx
          exact ⟨rfl, rfl⟩
  | bound hy =>
      intro u rest' h'
      cases h' with
      | bound hy' =>
          cases hy.symm.trans hy'
          exact ⟨rfl, rfl⟩
      | unbound hy' => cases hy.symm.trans hy'
  | unbound hy =>
      intro u rest' h'
      cases h' with
      | bound hy' => cases hy.symm.trans hy'
      | unbound _ => exact ⟨rfl, rfl⟩
  | int n =>
      rintro _ _ ⟨⟩
      exact ⟨rfl, rfl⟩
  | prim q =>
      rintro _ _ ⟨⟩
      exact ⟨rfl, rfl⟩

/-- A run that keeps all nodes of a term has changed nothing, and there was no linear redex. -/
theorem settled (h : Inlines linear env t t' rest) (henv : env = []) (hsize : t.size ≤ t'.size) :
    t' = t ∧ ∀ q c d, Part (Lambda.ap (Lambda.fn q c) d) t → linear q = false := by
  induction h with
  | @fn _ _ p _ _ _ ih =>
      simp only [size] at hsize
      obtain ⟨rfl, hpart⟩ := ih henv (by omega)
      refine ⟨rfl, fun q c d h => ?_⟩
      cases h with
      | body _ h => exact hpart q c d h
  | @redex env env₁ env₂ rest p f b x x' b' hf hx _ hb =>
      -- The function and its application are gone, and nothing has come in their place.
      subst henv
      have hf' := hf.size_le
      have hx' := hx.size_le
      have hb' := hb.size_le
      have hdrop := Bindings.total_drop_le size p env₂
      rw [Bindings.put, Bindings.total_cons] at hb'
      simp only [size, Bindings.total, List.foldr_nil] at hf' hx' hb' hdrop hsize
      omega
  | @ap env env₁ env₂ f f' x x' hf hx hhead ihf ihx =>
      subst henv
      obtain rfl := hf.rest_nil
      have hf' := hf.size_le
      have hx' := hx.size_le
      obtain rfl := hx.rest_nil
      simp only [size, Bindings.total, List.foldr_nil] at hf' hx' hsize
      obtain ⟨rfl, hpartf⟩ := ihf rfl (by omega)
      obtain ⟨rfl, hpartx⟩ := ihx rfl (by omega)
      refine ⟨rfl, fun q c d h => ?_⟩
      cases h with
      | refl => exact hhead q c rfl
      | function _ h => exact hpartf q c d h
      | argument _ h => exact hpartx q c d h
  | bound hy =>
      subst henv
      simp at hy
  | unbound _ => exact ⟨rfl, fun q c d h => by cases h⟩
  | int n => exact ⟨rfl, fun q c d h => by cases h⟩
  | prim q => exact ⟨rfl, fun q c d h => by cases h⟩

end Inlines

/-- **Inlining ends**, within as many levels as the term and the waiting bindings have nodes. -/
theorem inline_inlines (linear : String → Bool) :
    ∀ (fuel : Nat) (env : Bindings) (t : Lambda), t.size + env.total size ≤ fuel →
      Inlines linear env t (inline linear fuel env t).1 (inline linear fuel env t).2 := by
  intro fuel
  induction fuel with
  | zero =>
      intro env t hfuel
      cases t <;> simp [size] at hfuel
  | succ fuel ih =>
      intro env t hfuel
      cases t with
      | fn p b =>
          simp only [size] at hfuel
          exact .fn (ih env b (by omega))
      | ap f x =>
          simp only [size] at hfuel
          have hf := ih env f (by omega)
          have hfsize := hf.size_le
          rw [inline]
          generalize inline linear fuel env f = rf at *
          obtain ⟨f', env₁⟩ := rf
          have hfpos : 0 < f'.size := by cases f' <;> simp [size]
          have hx := ih env₁ x (by simp only at hfsize; omega)
          have hxsize := hx.size_le
          simp only at hf hfsize ⊢
          generalize inline linear fuel env₁ x = rx at *
          obtain ⟨x', env₂⟩ := rx
          simp only at hx hxsize ⊢
          split
          · rename_i p b
            split
            · rename_i hp
              refine .redex hf hx hp (ih (env₂.put p x') b ?_)
              have hdrop := Bindings.total_drop_le size p env₂
              rw [Bindings.put, Bindings.total_cons]
              simp only [size] at hfsize ⊢
              omega
            · rename_i hp
              refine .ap hf hx fun q c heq => ?_
              obtain ⟨rfl, -⟩ := Lambda.fn.inj heq
              simpa using hp
          · rename_i hfn
            exact .ap hf hx fun q c heq => absurd heq (hfn q c)
      | sym y =>
          rw [inline]
          cases hy : env.lookup y with
          | some a => exact .bound hy
          | none => exact .unbound hy
      | int n => exact .int n
      | prim q => exact .prim q

theorem inlined_inlines (t : Lambda) : Inlines (fun p => t.count p == 1) [] t t.inlined [] := by
  have h := inline_inlines (fun p => t.count p == 1) t.size [] t (by simp [Bindings.total])
  have hrest := h.rest_nil
  rw [hrest] at h
  exact h

/-! ### Following symbols -/

/-- A term at which following symbols stops: no symbol, or one that is not bound or stands for
itself. -/
def Final (env : Bindings) (t : Lambda) : Prop :=
  ∀ y, t = sym y → ∀ a, env.lookup y = some a → a = sym y

/-- A finite run of the loop that follows symbols. -/
inductive Chases (env : Bindings) : Lambda → Lambda → Prop
  | stop {t : Lambda} (ht : Final env t) : Chases env t t
  | follow {y : String} {a u : Lambda} (hy : env.lookup y = some a) (hne : a ≠ sym y)
      (ha : Chases env a u) : Chases env (sym y) u

namespace Chases

theorem final (h : Chases env t u) : Final env u := by
  induction h with
  | stop ht => exact ht
  | follow _ _ _ ih => exact ih

theorem unique (h : Chases env t u) : ∀ {u'}, Chases env t u' → u = u' := by
  induction h with
  | stop ht =>
      intro u' h'
      cases h' with
      | stop _ => rfl
      | follow hy hne _ => exact absurd (ht _ rfl _ hy) hne
  | follow hy hne _ ih =>
      intro u' h'
      cases h' with
      | stop ht => exact absurd (ht _ rfl _ hy) hne
      | follow hy' _ ha =>
          cases hy.symm.trans hy'
          exact ih ha

theorem isAtom (h : Chases env t u) (henv : ∀ c ∈ env, c.2.isAtom) (ht : t.isAtom) : u.isAtom := by
  induction h with
  | stop _ => exact ht
  | follow hy _ _ ih => exact ih (henv _ (Bindings.mem_of_lookup hy))

end Chases

theorem chase_of_final (ht : Final env t) (n : Nat) : chase env n t = t := by
  cases n with
  | zero => rfl
  | succ n =>
      cases t with
      | sym y =>
          rw [chase]
          cases hy : env.lookup y with
          | some a =>
              obtain rfl := ht y rfl a hy
              simp
          | none => rfl
      | _ => rfl

/-- Chains of symbols end, and there are as many bindings as it takes to follow any of them. -/
structure Resolvable (env : Bindings) : Prop where
  atoms : ∀ c ∈ env, c.2.isAtom
  ends : ∀ y, Chases env (sym y) (chase env env.length (sym y))

/-! A parameter is bound to a term that is followed to its end. -/

theorem lookup_bind (hy : y ≠ p) : List.lookup y ((p, a) :: env) = env.lookup y := by
  rw [List.lookup_cons, show (y == p) = false by simpa using hy]

theorem Final.bind (p : String) (ht : Final env t) (hne : t ≠ sym p) : Final ((p, a) :: env) t := by
  rintro y rfl c hc
  have hyp : y ≠ p := fun he => hne (congrArg sym he)
  exact ht y rfl c ((lookup_bind hyp).symm.trans hc)

section Bind

variable (p : String) (ha : Final env a)

include ha

theorem final_bind_self : Final ((p, a) :: env) a := by
  by_cases hap : a = sym p
  · rintro y rfl c hc
    obtain rfl := Lambda.sym.inj hap
    rw [List.lookup_cons_self] at hc
    exact (Option.some.inj hc).symm
  · exact ha.bind p hap

theorem chases_param (n : Nat) :
    Chases ((p, a) :: env) (sym p) (chase ((p, a) :: env) (n + 1) (sym p)) := by
  have hlast := final_bind_self p ha
  rw [chase, List.lookup_cons_self]
  show Chases _ _ (if a = sym p then a else chase ((p, a) :: env) n a)
  by_cases hap : a = sym p
  · rw [if_pos hap, ← hap]
    exact .stop hlast
  · rw [if_neg hap, chase_of_final hlast]
    exact .follow List.lookup_cons_self hap (.stop hlast)

/-- One binding more makes a chain longer by one step at most. -/
theorem Chases.bind (h : Chases env t u) :
    ∀ n, chase env n t = u → Chases ((p, a) :: env) t (chase ((p, a) :: env) (n + 1) t) := by
  induction h with
  | @stop t ht =>
      intro n _
      by_cases htp : t = sym p
      · rw [htp]
        exact chases_param p ha n
      · have ht' : Final ((p, a) :: env) t := ht.bind p htp
        rw [chase_of_final ht']
        exact .stop ht'
  | @follow y c u hy hne hc ih =>
      intro n hn
      by_cases hyp : y = p
      · rw [hyp]
        exact chases_param p ha n
      · have hy' : List.lookup y ((p, a) :: env) = some c := (lookup_bind hyp).trans hy
        cases n with
        | zero =>
            -- The chain ends in `y`, which does not stand for itself.
            have hlast := hc.final
            rw [← hn] at hlast
            exact absurd (hlast y rfl c hy) hne
        | succ n =>
            rw [chase, hy] at hn
            simp only [if_neg hne] at hn
            rw [chase, hy']
            simp only [if_neg hne]
            exact .follow hy' hne (ih n hn)

end Bind

/-- **Binding a parameter keeps chains finite.** -/
theorem Resolvable.bind (h : Resolvable env) (p : String) (hatom : a.isAtom) (ha : Final env a) :
    Resolvable ((p, a) :: env) := by
  refine ⟨fun c hc => ?_, fun y => (h.ends y).bind p ha _ rfl⟩
  rcases List.mem_cons.mp hc with rfl | hc
  · exact hatom
  · exact h.atoms c hc

theorem resolvable_nil : Resolvable [] :=
  ⟨by simp, fun _ => .stop fun _ _ _ hc => by simp at hc⟩

/-! ### Runs of relabelling -/

/-- A finite run of relabelling. -/
inductive Relabels : Bindings → Lambda → Lambda → Prop
  | fn {env : Bindings} {p : String} {b b' : Lambda} (hb : Relabels env b b') :
      Relabels env (fn p b) (fn p b')
  | redex {env : Bindings} {p : String} {f b x x' b' : Lambda} (hf : Relabels env f (fn p b))
      (hx : Relabels env x x') (hatom : x'.isAtom = true) (hb : Relabels ((p, x') :: env) b b') :
      Relabels env (ap f x) b'
  | ap {env : Bindings} {f f' x x' : Lambda} (hf : Relabels env f f') (hx : Relabels env x x')
      (hhead : ∀ p b, f' = fn p b → x'.isAtom = false) : Relabels env (ap f x) (ap f' x')
  | sym {env : Bindings} {y : String} {u : Lambda} (hy : Chases env (sym y) u) :
      Relabels env (sym y) u
  | int {env : Bindings} (n : Int64) : Relabels env (int n) (int n)
  | prim {env : Bindings} (q : Prim) : Relabels env (prim q) (prim q)

namespace Relabels

/-- An atom that relabelling results in is followed to its end. -/
theorem final (h : Relabels env t u) (hu : u.isAtom) : Final env u := by
  induction h with
  | fn _ _ => simp [Lambda.isAtom] at hu
  | @redex env p f b x x' b' _ _ hatom _ _ ihx ihb =>
      rintro y rfl c hc
      have hbody := ihb hu
      by_cases hyp : y = p
      · -- The parameter ends its chain only if it stands for itself.
        subst hyp
        have hx : x' = Lambda.sym y := hbody y rfl x' List.lookup_cons_self
        exact ihx hatom y hx c hc
      · exact hbody y rfl c ((lookup_bind hyp).trans hc)
  | ap _ _ _ => simp [Lambda.isAtom] at hu
  | sym hy => exact hy.final
  | int n => rintro y ⟨⟩
  | prim q => rintro y ⟨⟩

theorem size_le (h : Relabels env t u) (henv : ∀ c ∈ env, c.2.isAtom) : u.size ≤ t.size := by
  induction h with
  | fn _ ih =>
      have := ih henv
      simp only [size]
      omega
  | redex _ _ hatom _ ihf ihx ihb =>
      have hf := ihf henv
      have hb := ihb fun c hc => by
        rcases List.mem_cons.mp hc with rfl | hc
        · exact hatom
        · exact henv c hc
      simp only [size] at hf ⊢
      omega
  | ap _ _ _ ihf ihx =>
      have := ihf henv
      have := ihx henv
      simp only [size]
      omega
  | sym hy =>
      rw [size_of_isAtom (hy.isAtom henv rfl)]
      exact Nat.le_refl _
  | int n => exact Nat.le_refl _
  | prim q => exact Nat.le_refl _

theorem unique (h : Relabels env t u) : ∀ {u'}, Relabels env t u' → u = u' := by
  induction h with
  | fn _ ih =>
      intro u' h'
      cases h' with
      | fn hb => rw [ih hb]
  | redex _ _ hatom _ ihf ihx ihb =>
      intro u' h'
      cases h' with
      | redex hf hx _ hb =>
          obtain ⟨rfl, rfl⟩ := Lambda.fn.inj (ihf hf)
          obtain rfl := ihx hx
          exact ihb hb
      | ap hf hx hhead =>
          obtain rfl := ihx hx
          simp [hhead _ _ (ihf hf).symm] at hatom
  | ap _ _ hhead ihf ihx =>
      intro u' h'
      cases h' with
      | redex hf hx hatom _ =>
          obtain rfl := ihx hx
          simp [hhead _ _ (ihf hf)] at hatom
      | ap hf hx _ => rw [ihf hf, ihx hx]
  | sym hy =>
      intro u' h'
      cases h' with
      | sym hy' => exact hy.unique hy'
  | int n =>
      rintro _ ⟨⟩
      rfl
  | prim q =>
      rintro _ ⟨⟩
      rfl

/-- A run that keeps all nodes of a term has changed nothing, and no redex had an atomic
argument. -/
theorem settled (h : Relabels env t u) (henv : env = []) (hsize : t.size ≤ u.size) :
    u = t ∧ ∀ q c d, Part (Lambda.ap (Lambda.fn q c) d) t → d.isAtom = false := by
  induction h with
  | fn _ ih =>
      simp only [size] at hsize
      obtain ⟨rfl, hpart⟩ := ih henv (by omega)
      refine ⟨rfl, fun q c d h => ?_⟩
      cases h with
      | body _ h => exact hpart q c d h
  | redex hf _ hatom hb =>
      subst henv
      have hf' := hf.size_le (by simp)
      have hb' := hb.size_le (by simpa using hatom)
      simp only [size] at hf' hsize
      omega
  | ap hf hx hhead ihf ihx =>
      subst henv
      have hf' := hf.size_le (by simp)
      have hx' := hx.size_le (by simp)
      simp only [size] at hsize
      obtain ⟨rfl, hpartf⟩ := ihf rfl (by omega)
      obtain ⟨rfl, hpartx⟩ := ihx rfl (by omega)
      refine ⟨rfl, fun q c d h => ?_⟩
      cases h with
      | refl => exact hhead q c rfl
      | function _ h => exact hpartf q c d h
      | argument _ h => exact hpartx q c d h
  | sym hy =>
      subst henv
      refine ⟨?_, fun q c d h => by cases h⟩
      cases hy with
      | stop _ => rfl
      | follow hy _ _ => simp at hy
  | int n => exact ⟨rfl, fun q c d h => by cases h⟩
  | prim q => exact ⟨rfl, fun q c d h => by cases h⟩

end Relabels

/-- **Relabelling ends**, within as many levels as the term has nodes. -/
theorem relabel_relabels :
    ∀ (fuel : Nat) (env : Bindings) (t : Lambda), Resolvable env → t.size ≤ fuel →
      Relabels env t (relabel fuel env t) := by
  intro fuel
  induction fuel with
  | zero =>
      intro env t _ hfuel
      cases t <;> simp [size] at hfuel
  | succ fuel ih =>
      intro env t henv hfuel
      cases t with
      | fn p b =>
          simp only [size] at hfuel
          exact .fn (ih env b henv (by omega))
      | ap f x =>
          simp only [size] at hfuel
          have hf := ih env f henv (by omega)
          have hx := ih env x henv (by omega)
          have hfsize := hf.size_le henv.atoms
          rw [relabel]
          generalize relabel fuel env f = f' at *
          generalize relabel fuel env x = x' at *
          split
          · rename_i p b
            split
            · rename_i hatom
              simp only [size] at hfsize
              exact .redex hf hx hatom (ih _ b (henv.bind p hatom (hx.final hatom)) (by omega))
            · rename_i hatom
              exact .ap hf hx fun _ _ _ => by simpa using hatom
          · rename_i hfn
            exact .ap hf hx fun q c heq => absurd heq (hfn q c)
      | sym y => exact .sym (henv.ends y)
      | int n => exact .int n
      | prim q => exact .prim q

theorem relabelled_relabels (t : Lambda) : Relabels [] t t.relabelled :=
  relabel_relabels t.size [] t resolvable_nil (Nat.le_refl _)

/-! ### Rounds -/

/-- A finite sequence of rounds, up to the first that changes nothing. -/
inductive Settles : Lambda → Lambda → Prop
  | done {t : Lambda} (ht : t.round = t) : Settles t t
  | again {t u : Lambda} (ht : t.round ≠ t) (hu : Settles t.round u) : Settles t u

theorem size_inlined_le (t : Lambda) : t.inlined.size ≤ t.size := by
  simpa [Bindings.total] using (inlined_inlines t).size_le

theorem size_round_le (t : Lambda) : t.round.size ≤ t.inlined.size :=
  (relabelled_relabels t.inlined).size_le (by simp)

/-- **A round that leaves a term with as many nodes as it had has changed nothing**, and there
was nothing to contract. -/
theorem round_settled (h : t.size ≤ t.round.size) :
    t.round = t ∧ ∀ p b a, Part (ap (fn p b) a) t → a.isAtom = false ∧ t.count p ≠ 1 := by
  have hin := size_inlined_le t
  have hre := size_round_le t
  obtain ⟨hinlined, hlinear⟩ := (inlined_inlines t).settled rfl (by omega)
  have hround : t.round = t.relabelled := by rw [round, hinlined]
  rw [hround] at h ⊢
  obtain ⟨hrelabelled, hatomic⟩ := (relabelled_relabels t).settled rfl h
  exact ⟨hrelabelled, fun p b a hpart =>
    ⟨hatomic p b a hpart, by simpa using hlinear p b a hpart⟩⟩

theorem size_round_lt (h : t.round ≠ t) : t.round.size < t.size :=
  Nat.lt_of_not_le fun hle => h (round_settled hle).1

theorem Settles.unique (h : Settles t u) : ∀ {u'}, Settles t u' → u = u' := by
  induction h with
  | done ht =>
      intro u' h'
      cases h' with
      | done _ => rfl
      | again hne _ => exact absurd ht hne
  | again hne _ ih =>
      intro u' h'
      cases h' with
      | done ht => exact absurd ht hne
      | again _ hu => exact ih hu

theorem Settles.round_eq (h : Settles t u) : u.round = u := by
  induction h with
  | done ht => exact ht
  | again _ _ ih => exact ih

/-- **Rounds end**, after as many of them as the term has nodes at most. -/
theorem settle_settles : ∀ (fuel : Nat) (t : Lambda), t.size ≤ fuel → Settles t (settle fuel t) := by
  intro fuel
  induction fuel with
  | zero =>
      intro t hfuel
      cases t <;> simp [size] at hfuel
  | succ fuel ih =>
      intro t hfuel
      rw [settle]
      by_cases ht : t.round = t
      · rw [if_pos ht]
        exact .done ht
      · rw [if_neg ht]
        have hlt := size_round_lt ht
        exact .again ht (ih t.round (by omega))

theorem shrink_settles (t : Lambda) : Settles t t.shrink :=
  settle_settles t.size t (Nat.le_refl _)

/-- **Shrinking ends on every term.**  Each pass of a round has exactly one finite run; a round
changes nothing or makes the term smaller; and there is exactly one finite sequence of rounds,
at the end of which a round changes nothing. -/
theorem shrink_ends (t : Lambda) :
    (∀ t' rest, Inlines (fun p => t.count p == 1) [] t t' rest ↔ t' = t.inlined ∧ rest = []) ∧
    (∀ u, Relabels [] t.inlined u ↔ u = t.round) ∧
    (t.round = t ∨ t.round.size < t.size) ∧
    (∀ u, Settles t u ↔ u = t.shrink) ∧ t.shrink.round = t.shrink := by
  refine ⟨fun t' rest => ⟨fun h => h.unique (inlined_inlines t), ?_⟩,
    fun u => ⟨fun h => h.unique (relabelled_relabels t.inlined), ?_⟩, ?_,
    fun u => ⟨fun h => h.unique (shrink_settles t), ?_⟩, (shrink_settles t).round_eq⟩
  · rintro ⟨rfl, rfl⟩
    exact inlined_inlines t
  · rintro rfl
    exact relabelled_relabels t.inlined
  · by_cases h : t.round = t
    · exact Or.inl h
    · exact Or.inr (size_round_lt h)
  · rintro rfl
    exact shrink_settles t

end Decombinator.Lambda
