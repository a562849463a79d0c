/-
What of a dictionary a definition depends on.

A dictionary is asked for two things: for declared types, when applications are read, and
for readable names, when names are replaced.  Both are asked by name.  The readable name is
asked of references only, since names that something binds are given numbers.  The type is
asked of any symbol that is applied, and that may be a parameter: parameters are named by
elimination, and a dictionary that happens to declare a type for such a name is believed.

So two dictionaries give the same result if they agree on the references of a definition
and declare the same types for the parameters that are left when it has been shrunk.
-/
import Decombinator.Proofs.Stages

namespace Decombinator

/-- Two dictionaries declare the same types for some names. -/
def Dictionary.DeclareAlike (dict dict' : Dictionary) (xs : List String) : Prop :=
  ∀ x ∈ xs, dict.signature? x = dict'.signature? x

theorem Dictionary.DeclareAlike.mono {dict dict' : Dictionary} {xs ys : List String}
    (h : dict.DeclareAlike dict' xs) (hys : ∀ y ∈ ys, y ∈ xs) : dict.DeclareAlike dict' ys :=
  fun y hy => h y (hys y hy)

namespace Expr

variable {dict dict' : Dictionary}

/-! ### Reading applications -/

theorem signatureOf_congr {x : String} (h : dict.signature? x = dict'.signature? x)
    (lists : List String) : signatureOf dict lists x = signatureOf dict' lists x := by
  unfold signatureOf
  rw [h]

theorem kindOf_congr {x : String} (h : dict.signature? x = dict'.signature? x)
    (lists : List String) : kindOf dict lists x = kindOf dict' lists x := by
  unfold kindOf
  rw [signatureOf_congr h]

theorem isBoolean_congr {e : Expr} (h : dict.DeclareAlike dict' e.symbols) (lists : List String) :
    isBoolean dict lists e = isBoolean dict' lists e := by
  cases e with
  | sym x =>
      rw [isBoolean, isBoolean, kindOf_congr (h x (by simp))]
  | _ => rfl

theorem isPredicate_congr {e : Expr} (h : dict.DeclareAlike dict' e.symbols) (lists : List String)
    (n : Int) : isPredicate dict lists n e = isPredicate dict' lists n e := by
  cases e with
  | sym x =>
      rw [isPredicate, isPredicate, signatureOf_congr (h x (by simp))]
  | _ => rfl

theorem extendCall_congr {g : Expr} (h : dict.DeclareAlike dict' g.symbols) (lists : List String)
    (args : List Expr) (x : Expr) :
    extendCall dict lists g args x = extendCall dict' lists g args x := by
  unfold extendCall
  rw [isBoolean_congr h]
  simp only [isPredicate_congr h]

/-- Reading an application asks for the types of symbols of its function only. -/
theorem applyTo_congr {f : Expr} (h : dict.DeclareAlike dict' f.symbols)
    (before after : List String) (x : Expr) :
    applyTo dict before after f x = applyTo dict' before after f x := by
  cases f with
  | sym g =>
      rw [applyTo, applyTo, kindOf_congr (h g (by simp))]
  | call g args =>
      have hg : dict.DeclareAlike dict' g.symbols := h.mono fun y hy => by simp [hy]
      rw [applyTo, applyTo, extendCall_congr hg]
  | prim p => cases p <;> rfl
  | _ => rfl

theorem recogniseAll_congr {items : List Folded}
    (ih : ∀ t ∈ items, t.Hygienic → "" ∉ t.binders → dict.DeclareAlike dict' (t.free ++ t.binders) →
      ∀ lists, recognise dict t lists = recognise dict' t lists)
    (hy : Hygiene (Folded.bindersAll items) (Folded.freeAll items))
    (hnamed : "" ∉ Folded.bindersAll items)
    (h : dict.DeclareAlike dict' (Folded.freeAll items ++ Folded.bindersAll items)) :
    ∀ lists, recogniseAll dict items lists = recogniseAll dict' items lists := by
  induction items with
  | nil => intro lists; rfl
  | cons t ts ihts =>
      intro lists
      rw [Folded.bindersAll, List.mem_append, not_or] at hnamed
      rw [Folded.freeAll, Folded.bindersAll] at h
      have ht := ih t (by simp) hy.left hnamed.1 (h.mono (by simp; grind)) lists
      have hts := ihts (fun u hu => ih u (List.mem_cons_of_mem _ hu)) hy.right hnamed.2
        (h.mono (by simp; grind))
      unfold recogniseAll
      simp only [ht, hts]

/-- Dictionaries that declare the same types for all names of a term read it alike. -/
theorem recognise_congr (t : Folded) :
    t.Hygienic → "" ∉ t.binders → dict.DeclareAlike dict' (t.free ++ t.binders) →
      ∀ lists, recognise dict t lists = recognise dict' t lists := by
  induction t with
  | fn p body ih =>
      intro hy hnamed h lists
      rw [Folded.binders, List.mem_cons, not_or] at hnamed
      have hbody := ih hy.under hnamed.2 (h.mono (by simp [Folded.free, Folded.binders]; grind)) lists
      unfold recognise
      simp only [hbody]
  | ap f x ihf ihx =>
      intro hy hnamed h lists
      rw [Folded.binders, List.mem_append, not_or] at hnamed
      rw [Folded.free, Folded.binders] at h
      have hf := ihf hy.left hnamed.1 (h.mono (by simp; grind))
      have hx := ihx hy.right hnamed.2 (h.mono (by simp; grind))
      -- The symbols of the function as it was read are names of the function.
      have hsymbols : dict.DeclareAlike dict' (recognise dict' f lists).1.symbols := by
        have hretains := @recognise_retains dict' f lists hy.left hnamed.1
        refine h.mono fun y hy' => ?_
        rcases mem_free_or_binders hy' with hfree | hbound
        · simp [(hretains.mem_iff y).mp hfree]
        · simp [hretains.mem_binders hbound]
      unfold recognise
      simp only [hf, hx, applyTo_congr hsymbols]
  | list items ih =>
      intro hy hnamed h lists
      unfold recognise
      simp only [recogniseAll_congr ih hy hnamed h lists]
  | _ => intro _ _ _ _; rfl

/-! ### Replacing names -/

theorem mapNames_congr {ν ν' : String → String} {e : Expr}
    (h : ∀ x, x ∈ e.binders ∨ x ∈ e.symbols → ν x = ν' x) : e.mapNames ν = e.mapNames ν' := by
  induction e with
  | list es ih =>
      rw [mapNames, mapNames, mapNamesAll_eq_map, mapNamesAll_eq_map]
      refine congrArg list (List.map_congr_left fun e he => ih e he fun x hx => h x ?_)
      rw [binders_list, symbols_list, List.mem_flatMap, List.mem_flatMap]
      exact hx.imp (fun hx => ⟨e, he, hx⟩) (fun hx => ⟨e, he, hx⟩)
  | call f es ihf ih =>
      simp only [binders_call, symbols_call, List.mem_append, List.mem_flatMap] at h
      rw [mapNames, mapNames, mapNamesAll_eq_map, mapNamesAll_eq_map,
        ihf fun x hx => h x (hx.imp Or.inl Or.inl)]
      refine congrArg (call _) (List.map_congr_left fun e he => ih e he fun x hx => h x ?_)
      exact hx.imp (fun hx => Or.inr ⟨e, he, hx⟩) (fun hx => Or.inr ⟨e, he, hx⟩)
  | func p ps b ih =>
      simp only [binders_func, symbols_func, List.mem_cons, List.mem_append] at h
      have hps : ps.map ν = ps.map ν' := List.map_congr_left fun x hx => h x (by simp [hx])
      rw [mapNames, mapNames, h p (by simp), hps,
        ih fun x hx => h x (hx.imp (fun hx => Or.inr (Or.inr hx)) id)]
  | _ => simp_all [mapNames] <;> grind

section Scopes

variable {scope scope' : Scope} (hbound : scope.bound = scope'.bound)
  (hreserved : scope.reserved = scope'.reserved)

include hbound hreserved

/-- Which names are given does not depend on the dictionary, once it is known which names are
reserved. -/
theorem after_congr (xs : List String) : ∀ r, scope.after xs r = scope'.after xs r := by
  have hstep : ∀ x r, (scope.rename x r).2 = (scope'.rename x r).2 := by
    intro x r
    unfold Scope.rename
    rw [hbound, hreserved]
    by_cases hx : x ∈ scope'.bound
    · rw [if_pos hx, if_pos hx]
    · rw [if_neg hx, if_neg hx]
  induction xs with
  | nil => intro r; rfl
  | cons x xs ih =>
      intro r
      rw [after_cons, after_cons, hstep, ih]

theorem naming_congr {x : String}
    (hname : x ∉ scope.bound → scope.dict.nameOf x = scope'.dict.nameOf x) (r : Renaming) :
    scope.naming r x = scope'.naming r x := by
  unfold Scope.naming Scope.rename
  by_cases hx : x ∈ scope.bound
  · rw [if_pos hx, if_pos (hbound ▸ hx), hreserved]
  · rw [if_neg hx, if_neg (hbound ▸ hx), hname hx]

end Scopes

/-- Replacing names asks for the readable names of references only. -/
theorem rename_congr {e : Expr} (h : ∀ x ∈ e.free, dict.nameOf x = dict'.nameOf x) :
    e.rename dict = e.rename dict' := by
  have hreference : ∀ x ∈ e.symbols, x ∉ e.binders → dict.nameOf x = dict'.nameOf x := by
    intro x hx hb
    exact h x ((mem_free_or_binders hx).resolve_right hb)
  have hreserved : (Scope.of dict e).reserved = (Scope.of dict' e).reserved := by
    refine List.map_congr_left fun x hx => ?_
    obtain ⟨hx, hb⟩ := List.mem_filter.mp hx
    exact hreference x hx (by simpa using hb)
  have hbound : (Scope.of dict e).bound = (Scope.of dict' e).bound := rfl
  rw [rename_eq_naming, rename_eq_naming, after_congr hbound hreserved]
  refine mapNames_congr fun x hx => naming_congr hbound hreserved (fun hb => ?_) _
  exact hreference x (hx.resolve_left hb) hb

end Expr

namespace Stages

variable {dict dict' : Dictionary} {d : Definition}

theorem idioms_eq_of_declareAlike (hsymbols : dict.DeclareAlike dict' d.value.symbols)
    (hparams : dict.DeclareAlike dict' (ofDefinition dict d).folded.binders) :
    (ofDefinition dict d).idioms = (ofDefinition dict' d).idioms := by
  have halike : dict.DeclareAlike dict'
      ((ofDefinition dict d).folded.free ++ (ofDefinition dict d).folded.binders) := by
    intro x hx
    rcases List.mem_append.mp hx with hfree | hbound
    · exact hsymbols x (Lambda.mem_free_ofCode.mp (((folded_retains dict d).mem_iff x).mp hfree))
    · exact hparams x hbound
  exact congrArg Prod.fst (Expr.recognise_congr _ (folded_hygienic dict d)
    (empty_notMem_binders_folded dict d) halike [])

theorem idioms_congr (hsymbols : ∀ x ∈ d.value.symbols, dict.lookup x = dict'.lookup x)
    (hparams : dict.DeclareAlike dict' (ofDefinition dict d).folded.binders) :
    (ofDefinition dict d).idioms = (ofDefinition dict' d).idioms := by
  refine idioms_eq_of_declareAlike (fun x hx => ?_) hparams
  unfold Dictionary.signature?
  rw [hsymbols x hx]

/-- A dictionary that has neither other names nor types for what a definition refers to, nor
types for its parameters, is as good as none. -/
theorem renamed_eq_empty (hnames : ∀ x ∈ d.value.symbols, dict.nameOf x = x)
    (hsymbols : dict.DeclareAlike .empty d.value.symbols)
    (hparams : dict.DeclareAlike .empty (ofDefinition dict d).folded.binders) :
    (ofDefinition dict d).renamed = (ofDefinition .empty d).renamed := by
  have htidied : (ofDefinition dict d).tidied = (ofDefinition .empty d).tidied :=
    congrArg Expr.tidy (idioms_eq_of_declareAlike hsymbols hparams)
  show (ofDefinition dict d).tidied.rename dict = (ofDefinition .empty d).tidied.rename .empty
  rw [htidied]
  refine Expr.rename_congr fun x hx => hnames x ?_
  exact Lambda.mem_free_ofCode.mp (((tidied_retains .empty d).mem_iff x).mp hx)

/-- **A dictionary matters only for what a definition refers to**, apart from the types that it
declares for names of parameters: two dictionaries that agree on the name and the symbols of
a definition give the same readable expression and the same line. -/
theorem print_eq_of_agree (d : Definition) (dict dict' : Dictionary)
    (hname : dict.lookup d.name = dict'.lookup d.name)
    (hsymbols : ∀ x ∈ d.value.symbols, dict.lookup x = dict'.lookup x)
    (hparams : dict.DeclareAlike dict' (ofDefinition dict d).folded.binders) :
    (ofDefinition dict d).renamed = (ofDefinition dict' d).renamed ∧
      (ofDefinition dict d).print = (ofDefinition dict' d).print := by
  have hnameOf : ∀ {x}, dict.lookup x = dict'.lookup x → dict.nameOf x = dict'.nameOf x := by
    intro x hx
    unfold Dictionary.nameOf Dictionary.name?
    rw [hx]
  have htidied : (ofDefinition dict d).tidied = (ofDefinition dict' d).tidied :=
    congrArg Expr.tidy (idioms_congr hsymbols hparams)
  have hrenamed : (ofDefinition dict d).renamed = (ofDefinition dict' d).renamed := by
    show (ofDefinition dict d).tidied.rename dict = (ofDefinition dict' d).tidied.rename dict'
    rw [htidied]
    refine Expr.rename_congr fun x hx => hnameOf (hsymbols x ?_)
    exact Lambda.mem_free_ofCode.mp (((tidied_retains dict' d).mem_iff x).mp hx)
  refine ⟨hrenamed, ?_⟩
  show dict.nameOf d.name ++ " = " ++ _ = dict'.nameOf d.name ++ " = " ++ _
  rw [hnameOf hname, hrenamed]

/-- `f` is `λx2. g (x2 1) x2`.  One dictionary has a readable name for `x2`, and the other a type
for a name that does not occur. -/
theorem print_eq_of_agree_renamed :
    let d : Definition := ⟨"f", .ap (.ap (.prim .s) (.ap (.ap (.prim .b) (.sym "g"))
      (.ap (.ap (.prim .c) (.prim .i)) (.int 1)))) (.prim .i)⟩
    let dict : Dictionary := ⟨[⟨"g", "pair", some (.func 2 .list)⟩, ⟨"x2", "two", none⟩]⟩
    let dict' : Dictionary := ⟨[⟨"x99", "no", some .bool⟩, ⟨"g", "pair", some (.func 2 .list)⟩]⟩
    dict.lookup d.name = dict'.lookup d.name ∧
      (∀ x ∈ d.value.symbols, dict.lookup x = dict'.lookup x) ∧
      dict.DeclareAlike dict' (ofDefinition dict d).folded.binders ∧
      (ofDefinition dict d).renamed = (ofDefinition dict' d).renamed ∧
      (ofDefinition dict d).print = (ofDefinition dict' d).print := by
  intro d dict dict'
  have hname : dict.lookup d.name = dict'.lookup d.name := by decide +kernel
  have hsymbols : ∀ x ∈ d.value.symbols, dict.lookup x = dict'.lookup x := by decide +kernel
  have hparams : dict.DeclareAlike dict' (ofDefinition dict d).folded.binders := by
    unfold Dictionary.DeclareAlike
    decide +kernel
  exact ⟨hname, hsymbols, hparams, print_eq_of_agree d dict dict' hname hsymbols hparams⟩

/-- `f` is `λx2. x2 1 2` and refers to nothing.  A dictionary that declares `x2` a boolean turns
the application into a conditional. -/
theorem print_ne_of_declared_param :
    let d : Definition := ⟨"f", .ap (.ap (.prim .c) (.ap (.ap (.prim .c) (.prim .i)) (.int 1))) (.int 2)⟩
    let dict : Dictionary := ⟨[⟨"x2", "foo", some .bool⟩]⟩
    Dictionary.ofEntries dict.entries = .ok dict ∧
      dict.lookup d.name = Dictionary.empty.lookup d.name ∧
      (∀ x ∈ d.value.symbols, dict.lookup x = Dictionary.empty.lookup x) ∧
      (ofDefinition .empty d).print = "f = fun(_x0) -> _x0(1, 2)" ∧
      (ofDefinition dict d).print = "f = fun(_x0) -> if _x0 \x7b 1 \x7d else \x7b 2 \x7d" := by
  intro d dict
  exact ⟨rfl, by decide +kernel, by decide +kernel, by decide +kernel, by decide +kernel⟩

end Stages

end Decombinator
