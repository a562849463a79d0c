/-
What is shown of a computation, by name.

`Displays` says which text a computation is shown as: data in full, a function by the boolean
that it selects like or else by its label, and a failure in its place.  The machine shows
exactly these texts, and it shows them whenever it has fuel enough.
-/
import Decombinator.Machine.Observe
import Decombinator.Proofs.ByName.Machine

namespace Decombinator.ByName

open Machine

/-! ### The texts of computations -/

/-- The elements of a list, and the value that it ends in. -/
inductive Spine (Γ : Globals) : Arg → List Arg → Val → Prop
  | last {x : Arg} {v : Val} (hx : Evals Γ x v) (hv : ∀ h t, v ≠ .cons h t) : Spine Γ x [] v
  | cons {x h t : Arg} {items : List Arg} {v : Val} (hx : Evals Γ x (.cons h t))
      (ht : Spine Γ t items v) : Spine Γ x (h :: items) v

/-- A list that fails before its end. -/
inductive Breaks (Γ : Globals) : Arg → Fault → Prop
  | here {x : Arg} {f : Fault} (hx : Raises Γ (next Γ x) f) : Breaks Γ x f
  | tail {x h t : Arg} {f : Fault} (hx : Evals Γ x (.cons h t)) (ht : Breaks Γ t f) : Breaks Γ x f

/-- The text of a value that is no list. -/
inductive Prints (Γ : Globals) : Val → String → Prop
  | int (n : Int64) : Prints Γ (.int n) (Text.int64Text n)
  | bool (b : Bool) : Prints Γ (.bool b) (boolText b)
  | nil : Prints Γ .nil "[]"
  | probe (first : Bool) : Prints Γ (.probe first) "<probe>"
  | boolean {v : Val} {b : Bool} (hv : v.isFunction) (hb : Gives Γ (truth v) (.bool b)) :
      Prints Γ v (boolText b)
  | function {v : Val} {f : Fault} (hv : v.isFunction) (hf : Raises Γ (truth v) f) :
      Prints Γ v ("<" ++ v.label ++ ">")

mutual

/-- The text of a computation. -/
inductive Displays (Γ : Globals) : Arg → String → Prop
  | failure {x : Arg} {f : Fault} (hx : Breaks Γ x f) : Displays Γ x (failureText f)
  | plain {x : Arg} {v : Val} {t : String} (hx : Spine Γ x [] v) (hv : Prints Γ v t) :
      Displays Γ x t
  | list {x y : Arg} {ys : List Arg} {ts : List String} (hx : Spine Γ x (y :: ys) .nil)
      (hys : DisplaysAll Γ (y :: ys) ts) :
      Displays Γ x ("[" ++ String.intercalate ", " ts ++ "]")
  | dotted {x y : Arg} {ys : List Arg} {ts : List String} {v : Val} {t : String}
      (hx : Spine Γ x (y :: ys) v) (hne : v ≠ .nil) (hys : DisplaysAll Γ (y :: ys) ts)
      (hv : Prints Γ v t) :
      Displays Γ x ("[" ++ String.intercalate ", " ts ++ " | " ++ t ++ "]")

inductive DisplaysAll (Γ : Globals) : List Arg → List String → Prop
  | nil : DisplaysAll Γ [] []
  | cons {x : Arg} {xs : List Arg} {t : String} {ts : List String} (hx : Displays Γ x t)
      (hxs : DisplaysAll Γ xs ts) : DisplaysAll Γ (x :: xs) (t :: ts)

end

variable {policy : Policy} {Γ : World} {fuel rank : Nat} {H : List Arg} {m m' : Memory} {α : Type}
  {f : α → Operand} {n : Next}

theorem Spine.not_cons {Γ : Globals} {x : Arg} {items : List Arg} {v : Val} (h : Spine Γ x items v) :
    ∀ hd tl, v ≠ .cons hd tl := by
  induction h with
  | last _ hv => exact hv
  | cons _ _ ih => exact ih

/-! ### Outcomes -/

/-- An outcome that keeps memory sound, returns nothing but what `post` allows and fails only
as `bad` allows.  `tired` says whether it may be out of fuel. -/
def Meets (tired : Prop) (Γ : World) (H : List Arg) (post : List Arg → α → Prop)
    (bad : Fault → Prop) : Outcome α → Prop
  | .value a m => ∃ H', H <+: H' ∧ Sound Γ H' m ∧ post H' a
  | .fault e m => (∃ H', H <+: H' ∧ Sound Γ H' m) ∧ bad e
  | .outOfFuel => tired

/-- If there is an outcome, it is as `post` and `bad` say. -/
abbrev Keeps := @Meets α True

/-- There is an outcome, and it is as `post` and `bad` say. -/
abbrev Ends := @Meets α False

namespace Meets

variable {tired : Prop} {β : Type} {post : List Arg → α → Prop} {post' : List Arg → β → Prop}
  {bad bad' : Fault → Prop} {p : Effect α} {k : α → Effect β}

theorem grow {H' : List Arg} (h : H <+: H') {o : Outcome α} (ho : Meets tired Γ H' post bad o) :
    Meets tired Γ H post bad o := by
  cases o with
  | value a m =>
      obtain ⟨H'', hgrow, hs, hpost⟩ := ho
      exact ⟨H'', h.trans hgrow, hs, hpost⟩
  | fault e m =>
      obtain ⟨⟨H'', hgrow, hs⟩, hbad⟩ := ho
      exact ⟨⟨H'', h.trans hgrow, hs⟩, hbad⟩
  | outOfFuel => exact ho

theorem mono {post' : List Arg → α → Prop} {o : Outcome α} (ho : Meets tired Γ H post bad o)
    (h : ∀ {H' a}, post H' a → post' H' a) : Meets tired Γ H post' bad o := by
  cases o with
  | value a m =>
      obtain ⟨H', hgrow, hs, hpost⟩ := ho
      exact ⟨H', hgrow, hs, h hpost⟩
  | fault e m => exact ho
  | outOfFuel => exact ho

theorem bind (hp : Meets tired Γ H post bad (p m))
    (hk : ∀ {H' m' a}, H <+: H' → Sound Γ H' m' → post H' a → Meets tired Γ H' post' bad' (k a m'))
    (hbad : ∀ {e}, bad e → bad' e) : Meets tired Γ H post' bad' ((p >>= k) m) := by
  show Meets tired Γ H post' bad' (Effect.bind p k m)
  rw [Effect.bind]
  cases hpm : p m with
  | value a m' =>
      rw [hpm] at hp
      obtain ⟨H', hgrow, hs, hpost⟩ := hp
      exact (hk hgrow hs hpost).grow hgrow
  | fault e m' =>
      rw [hpm] at hp
      exact ⟨hp.1, hbad hp.2⟩
  | outOfFuel =>
      rw [hpm] at hp
      exact hp

theorem pure (hs : Sound Γ H m) {a : α} (h : post H a) :
    Meets tired Γ H post bad ((Pure.pure a : Effect α) m) :=
  ⟨H, List.prefix_rfl, hs, h⟩

/-- Turning a failure into a value. -/
theorem attempt (hp : Meets tired Γ H post bad (p m)) :
    Meets tired Γ H (fun H' r => match r with | .ok a => post H' a | .error e => bad e)
      (fun _ => False) (Effect.attempt p m) := by
  rw [Effect.attempt]
  cases hpm : p m with
  | value a m' =>
      rw [hpm] at hp
      exact hp
  | fault e m' =>
      rw [hpm] at hp
      obtain ⟨⟨H', hgrow, hs⟩, hbad⟩ := hp
      exact ⟨H', hgrow, hs, hbad⟩
  | outOfFuel =>
      rw [hpm] at hp
      exact hp

/-- An outcome that can neither fail nor be out of fuel is a value. -/
theorem value {o : Outcome α} (ho : Ends Γ H post bad o) (hbad : ∀ e, ¬ bad e) :
    ∃ a m H', o = .value a m ∧ Sound Γ H' m ∧ post H' a := by
  cases o with
  | value a m =>
      obtain ⟨H', -, hs, hpost⟩ := ho
      exact ⟨a, m, H', rfl, hs, hpost⟩
  | fault e m => exact absurd ho.2 (hbad e)
  | outOfFuel => exact ho.elim

end Meets

/-- What an evaluation returns. -/
theorem Reaches.yields {a : α} {w : Value} (hf : f a = .ready w)
    (h : Reaches Γ H n fuel rank f (.value a m)) :
    ∃ H' v, H <+: H' ∧ Sound Γ H' m ∧ ReadsVal H' w v ∧ Gives Γ n v := by
  obtain ⟨H', hgrow, hs, y, d, hy, hshift, -⟩ := h
  rw [hf] at hy
  cases hy with
  | @ready _ v hv =>
      exact ⟨H', v, hgrow, hs, hv, 0 + d, (hshift (0 + d) (.ok v)).mpr ⟨0, .ret v, rfl⟩⟩

section Strict

variable [Γ.Strict]

/-- Where no fault is excused, a fault comes up by name too. -/
theorem Reaches.raises {e : Fault} (h : Reaches Γ H n fuel rank f (.fault e m)) :
    (∃ H', H <+: H' ∧ Sound Γ H' m) ∧ Raises Γ n e :=
  ⟨h.1, h.2.resolve_right (World.Strict.not_excused e)⟩

theorem Reaches.keeps {o : Outcome α} (h : Reaches Γ H n fuel rank f o)
    (hf : ∀ a, ∃ w, f a = .ready w) :
    Keeps Γ H (fun H' a => ∀ w, f a = .ready w → ∃ v, ReadsVal H' w v ∧ Gives Γ n v)
      (Raises Γ n) o := by
  cases o with
  | value a m =>
      obtain ⟨w, hw⟩ := hf a
      obtain ⟨H', v, hgrow, hs, hread, hy⟩ := h.yields hw
      refine ⟨H', hgrow, hs, fun w' hw' => ?_⟩
      obtain rfl := Operand.ready.inj (hw.symm.trans hw')
      exact ⟨v, hread, hy⟩
  | fault e m => exact h.raises
  | outOfFuel => trivial

/-- A computation that ends by name is ended by an evaluation with fuel enough. -/
theorem Reaches.ends {o : Outcome α} {c : Nat} {r : Except Fault Val}
    (h : Reaches Γ H n fuel rank f o) (hf : ∀ a, ∃ w, f a = .ready w) (hr : Concludes Γ n c r)
    (hfuel : 5 * c + rank < fuel) :
    Ends Γ H (fun H' a => ∀ w, f a = .ready w → ∃ v, ReadsVal H' w v ∧ r = .ok v)
      (fun e => r = .error e) o := by
  cases o with
  | value a m =>
      obtain ⟨w, hw⟩ := hf a
      obtain ⟨H', v, hgrow, hs, hread, c', hy⟩ := h.yields hw
      refine ⟨H', hgrow, hs, fun w' hw' => ?_⟩
      obtain rfl := Operand.ready.inj (hw.symm.trans hw')
      exact ⟨v, hread, (Concludes.unique hr hy).2⟩
  | fault e m =>
      obtain ⟨hs, c', he⟩ := h.raises
      exact ⟨hs, (Concludes.unique hr he).2⟩
  | outOfFuel => exact absurd (h c r hr) (by omega)

/-! ### What the machine shows is right -/

/-- Forcing gives the result by name. -/
theorem force_keeps (h : Follows policy Γ fuel) (hs : Sound Γ H m) {x : Operand} {x' : Arg}
    (hx : Reads H x x') :
    Keeps Γ H (fun H' v => ∃ v', ReadsVal H' v v' ∧ Evals Γ x' v') (Raises Γ (next Γ x'))
      (force policy fuel x m) :=
  ((h.force hs hx).keeps fun v => ⟨v, rfl⟩).mono fun hread => hread _ rfl

theorem spine_keeps (h : ∀ fuel, Follows policy Γ fuel) (fuel : Nat) :
    ∀ {H m x x'}, Sound Γ H m → Reads H x x' →
      Keeps Γ H (fun H' r => ∃ items v, List.Forall₂ (Reads H') r.1 items ∧ ReadsVal H' r.2 v ∧
        Spine Γ x' items v) (Breaks Γ x') (spine policy fuel x m) := by
  induction fuel with
  | zero => exact fun _ _ => trivial
  | succ fuel ih =>
      intro H m x x' hs hx
      refine (force_keeps (h fuel) hs hx).bind (fun _ hs hv => ?_) .here
      obtain ⟨v', hv, hy⟩ := hv
      have hread := hv
      cases hv with
      | cons hhead htail =>
          refine (ih hs htail).bind (fun hgrow hs hrest => ?_) (.tail hy)
          obtain ⟨items, w, hitems, hw, hspine⟩ := hrest
          exact .pure hs ⟨_, w, .cons (hhead.grow hgrow) hitems, hw, .cons hy hspine⟩
      | _ => exact .pure hs ⟨[], _, .nil, hread, .last hy (by simp)⟩

/-- Finding out which boolean a function is. -/
theorem probeBool_keeps (h : Follows policy Γ fuel) (hs : Sound Γ H m) {v : Value} {v' : Val}
    (hv : ReadsVal H v v') :
    Keeps Γ H (fun _ r => match r with
        | some b => Gives Γ (truth v') (.bool b)
        | none => ∃ e, Raises Γ (truth v') e) (fun _ => False)
      (probeBool policy fuel v m) := by
  show Keeps Γ H _ _ ((Effect.attempt (Machine.truth policy fuel v) >>= _) m)
  have htruth := ((h.truth hs hv).keeps fun b => ⟨.bool b, rfl⟩).attempt
  refine htruth.bind (fun {H' m' r} _ hs hr => ?_) id
  cases r with
  | error e => exact .pure (hs.withSteps _) ⟨e, hr⟩
  | ok b =>
      obtain ⟨w, hw, hy⟩ := hr (.bool b) rfl
      cases hw
      exact .pure (hs.withSteps _) hy

theorem ReadsVal.label_eq {v : Value} {v' : Val} (h : ReadsVal H v v') : v.label = v'.label := by
  cases h <;> rfl

/-- A function is shown as the boolean it is, and else by its label. -/
theorem showFunction_keeps (h : Follows policy Γ fuel) (hs : Sound Γ H m) {v : Value} {v' : Val}
    (hv : ReadsVal H v v') (hfun : v'.isFunction) :
    Keeps Γ H (fun _ t => Prints Γ v' t) (fun _ => False)
      ((probeBool policy fuel v >>= fun r =>
        match r with
        | some b => pure (boolText b)
        | none => pure ("<" ++ v.label ++ ">") : Effect String) m) := by
  refine (probeBool_keeps h hs hv).bind (fun {H' m' r} _ hs hr => ?_) id
  cases r with
  | some b => exact .pure hs (.boolean hfun hr)
  | none =>
      obtain ⟨e, he⟩ := hr
      rw [hv.label_eq]
      exact .pure hs (.function hfun he)

theorem showPlain_keeps (h : Follows policy Γ fuel) (hs : Sound Γ H m) {v : Value} {v' : Val}
    (hv : ReadsVal H v v') (hcons : ∀ hd tl, v' ≠ .cons hd tl) :
    Keeps Γ H (fun _ t => Prints Γ v' t) (fun _ => False) (showPlain policy fuel v m) := by
  have hfunction := showFunction_keeps h hs hv
  cases hv with
  | int n => exact .pure hs (.int n)
  | bool b => exact .pure hs (.bool b)
  | nil => exact .pure hs .nil
  | cons => exact absurd rfl (hcons _ _)
  | probe first => exact .pure hs (.probe first)
  | _ => exact hfunction rfl

/-- **What the machine shows is the text of the computation.** -/
theorem observe_keeps (h : ∀ fuel, Follows policy Γ fuel) (fuel : Nat) :
    (∀ {H m x x'}, Sound Γ H m → Reads H x x' →
      Keeps Γ H (fun _ t => Displays Γ x' t) (fun _ => False) (observe policy fuel x m)) ∧
    (∀ {H m xs xs'}, Sound Γ H m → List.Forall₂ (Reads H) xs xs' →
      Keeps Γ H (fun _ ts => DisplaysAll Γ xs' ts) (fun _ => False)
        (observeAll policy fuel xs m)) := by
  induction fuel with
  | zero => exact ⟨fun _ _ => trivial, fun _ _ => trivial⟩
  | succ fuel ih =>
      obtain ⟨ihone, ihall⟩ := ih
      refine ⟨fun hs hx => ?_, fun hs hxs => ?_⟩
      · refine (spine_keeps h fuel hs hx).attempt.bind (fun {H' m' r} _ hs hr => ?_) id
        cases r with
        | error e => exact .pure hs (.failure hr)
        | ok r =>
            obtain ⟨items, last⟩ := r
            obtain ⟨items', v, hitems, hv, hspine⟩ := hr
            cases hitems with
            | nil =>
                exact (showPlain_keeps (h fuel) hs hv hspine.not_cons).mono (.plain hspine)
            | cons hitem hitems =>
                have hread := hv
                have hall := ihall hs (.cons hitem hitems)
                cases hv with
                | nil => exact hall.bind (fun _ hs hts => .pure hs (.list hspine hts)) id
                | _ =>
                    refine hall.bind (fun hgrow hs hts => ?_) id
                    refine (showPlain_keeps (h fuel) hs (hread.grow hgrow) hspine.not_cons).bind
                      (fun _ hs ht => .pure hs ?_) id
                    exact .dotted hspine (by simp) hts ht
      · cases hxs with
        | nil => exact .pure hs .nil
        | cons hx hxs =>
            refine (ihone hs hx).bind (fun hgrow hs ht => ?_) id
            refine (ihall hs (hxs.imp fun _ _ hz => hz.grow hgrow)).bind (fun _ hs hts => ?_) id
            exact .pure hs (.cons ht hts)

/-! ### The machine shows all there is to show -/

variable {x' : Arg} {v' : Val}

theorem force_ends {c : Nat} {r : Except Fault Val} (h : Follows policy Γ fuel)
    (hr : Concludes Γ (next Γ x') c r) (hfuel : 5 * c + 4 < fuel) (hs : Sound Γ H m) {x : Operand}
    (hx : Reads H x x') :
    Ends Γ H (fun H' v => ∃ v', ReadsVal H' v v' ∧ r = .ok v') (fun e => r = .error e)
      (force policy fuel x m) :=
  ((h.force hs hx).ends (fun v => ⟨v, rfl⟩) hr hfuel).mono fun hread => hread _ rfl

theorem spine_ends (h : ∀ fuel, Follows policy Γ fuel) {items : List Arg}
    (hspine : Spine Γ x' items v') :
    ∃ N, ∀ fuel, N ≤ fuel → ∀ {H m x}, Sound Γ H m → Reads H x x' →
      Ends Γ H (fun H' r => List.Forall₂ (Reads H') r.1 items ∧ ReadsVal H' r.2 v')
        (fun _ => False) (spine policy fuel x m) := by
  induction hspine with
  | last hx hv =>
      obtain ⟨c, hy⟩ := hx
      refine ⟨5 * c + 6, fun fuel hfuel H m x hs hx => ?_⟩
      obtain ⟨fuel, rfl⟩ := Nat.exists_eq_add_of_le' (show 1 ≤ fuel by omega)
      refine (force_ends (h fuel) hy (by omega) hs hx).bind (fun _ hs hread => ?_) (by simp)
      obtain ⟨w, hread, heq⟩ := hread
      cases heq
      have hsame := hread
      cases hread with
      | cons => exact absurd rfl (hv _ _)
      | _ => exact .pure hs ⟨.nil, hsame⟩
  | cons hx _ ih =>
      obtain ⟨c, hy⟩ := hx
      obtain ⟨N, ih⟩ := ih
      refine ⟨5 * c + 6 + N, fun fuel hfuel H m x hs hx => ?_⟩
      obtain ⟨fuel, rfl⟩ := Nat.exists_eq_add_of_le' (show 1 ≤ fuel by omega)
      refine (force_ends (h fuel) hy (by omega) hs hx).bind (fun _ hs hread => ?_) (by simp)
      obtain ⟨w, hread, heq⟩ := hread
      cases heq
      cases hread with
      | cons hhead htail =>
          refine (ih fuel (by omega) hs htail).bind (fun hgrow hs hrest => ?_) id
          exact .pure hs ⟨.cons (hhead.grow hgrow) hrest.1, hrest.2⟩

theorem spine_breaks (h : ∀ fuel, Follows policy Γ fuel) {e : Fault} (hbreaks : Breaks Γ x' e) :
    ∃ N, ∀ fuel, N ≤ fuel → ∀ {H m x}, Sound Γ H m → Reads H x x' →
      Ends Γ H (fun _ _ => False) (fun e' => e' = e) (spine policy fuel x m) := by
  induction hbreaks with
  | here hx =>
      obtain ⟨c, hr⟩ := hx
      refine ⟨5 * c + 6, fun fuel hfuel H m x hs hx => ?_⟩
      obtain ⟨fuel, rfl⟩ := Nat.exists_eq_add_of_le' (show 1 ≤ fuel by omega)
      refine (force_ends (h fuel) hr (by omega) hs hx).bind (fun _ hs hread => ?_) fun heq => ?_
      · obtain ⟨w, -, heq⟩ := hread
        cases heq
      · cases heq
        rfl
  | tail hx _ ih =>
      obtain ⟨c, hy⟩ := hx
      obtain ⟨N, ih⟩ := ih
      refine ⟨5 * c + 6 + N, fun fuel hfuel H m x hs hx => ?_⟩
      obtain ⟨fuel, rfl⟩ := Nat.exists_eq_add_of_le' (show 1 ≤ fuel by omega)
      refine (force_ends (h fuel) hy (by omega) hs hx).bind (fun _ hs hread => ?_) (by simp)
      obtain ⟨w, hread, heq⟩ := hread
      cases heq
      cases hread with
      | cons hhead htail => exact (ih fuel (by omega) hs htail).bind (fun _ _ hrest => hrest.elim) id

theorem probeBool_ends {c : Nat} {r : Except Fault Val} (h : Follows policy Γ fuel)
    (hr : Concludes Γ (truth v') c r) (hfuel : 5 * c < fuel) (hs : Sound Γ H m) {v : Value}
    (hv : ReadsVal H v v') :
    Ends Γ H (fun _ o => match o with
        | some b => r = .ok (.bool b)
        | none => ∃ e, r = .error e) (fun _ => False)
      (probeBool policy fuel v m) := by
  show Ends Γ H _ _ ((Effect.attempt (Machine.truth policy fuel v) >>= _) m)
  have htruth := ((h.truth hs hv).ends (fun b => ⟨.bool b, rfl⟩) hr (by omega)).attempt
  refine htruth.bind (fun {H' m' o} _ hs ho => ?_) id
  cases o with
  | error e => exact .pure (hs.withSteps _) ⟨e, ho⟩
  | ok b =>
      obtain ⟨w, hw, heq⟩ := ho (.bool b) rfl
      cases hw
      exact .pure (hs.withSteps _) heq

theorem showFunction_ends (h : ∀ fuel, Follows policy Γ fuel) {t : String}
    (hprints : Prints Γ v' t) (hfun : v'.isFunction) :
    ∃ N, ∀ fuel, N ≤ fuel → ∀ {H m v}, Sound Γ H m → ReadsVal H v v' →
      Ends Γ H (fun _ t' => t' = t) (fun _ => False)
        ((probeBool policy fuel v >>= fun r =>
          match r with
          | some b => pure (boolText b)
          | none => pure ("<" ++ v.label ++ ">") : Effect String) m) := by
  cases hprints with
  | boolean _ hb =>
      obtain ⟨c, hr⟩ := hb
      refine ⟨5 * c + 1, fun fuel hfuel H m v hs hv => ?_⟩
      refine (probeBool_ends (h fuel) hr (by omega) hs hv).bind (fun {H' m' o} _ hs ho => ?_) id
      cases o with
      | some b' =>
          cases ho
          exact .pure hs rfl
      | none =>
          obtain ⟨e, heq⟩ := ho
          cases heq
  | function _ hf =>
      obtain ⟨c, hr⟩ := hf
      refine ⟨5 * c + 1, fun fuel hfuel H m v hs hv => ?_⟩
      refine (probeBool_ends (h fuel) hr (by omega) hs hv).bind (fun {H' m' o} _ hs ho => ?_) id
      cases o with
      | some b' => cases ho
      | none => exact .pure hs (by rw [hv.label_eq])
  | _ => cases hfun

theorem showPlain_ends (h : ∀ fuel, Follows policy Γ fuel) {t : String} (hprints : Prints Γ v' t) :
    ∃ N, ∀ fuel, N ≤ fuel → ∀ {H m v}, Sound Γ H m → ReadsVal H v v' →
      Ends Γ H (fun _ t' => t' = t) (fun _ => False) (showPlain policy fuel v m) := by
  by_cases hfun : v'.isFunction
  · obtain ⟨N, hshow⟩ := showFunction_ends h hprints hfun
    refine ⟨N, fun fuel hfuel H m v hs hv => ?_⟩
    have hshown := hshow fuel hfuel hs hv
    cases hv with
    | int => cases hfun
    | bool => cases hfun
    | nil => cases hfun
    | cons => cases hfun
    | probe => cases hfun
    | _ => exact hshown
  · refine ⟨0, fun fuel _ H m v hs hv => ?_⟩
    cases hprints with
    | int n => cases hv; exact .pure hs rfl
    | bool b => cases hv; exact .pure hs rfl
    | nil => cases hv; exact .pure hs rfl
    | probe first => cases hv; exact .pure hs rfl
    | boolean hv' _ => exact absurd hv' hfun
    | function hv' _ => exact absurd hv' hfun

end Strict

mutual

/-- **The text of a computation is shown by the machine**, with fuel enough. -/
theorem observe_ends [Γ.Strict] (h : ∀ fuel, Follows policy Γ fuel) {x' : Arg} {t : String} :
    Displays Γ x' t → ∃ N, ∀ fuel, N ≤ fuel → ∀ {H m x}, Sound Γ H m → Reads H x x' →
      Ends Γ H (fun _ t' => t' = t) (fun _ => False) (observe policy fuel x m)
  | .failure hx => by
      obtain ⟨N, hspine⟩ := spine_breaks h hx
      refine ⟨N + 1, fun fuel hfuel H m x hs hx => ?_⟩
      obtain ⟨fuel, rfl⟩ := Nat.exists_eq_add_of_le' (show 1 ≤ fuel by omega)
      refine (hspine fuel (by omega) hs hx).attempt.bind (fun {H' m' r} _ hs hr => ?_) id
      cases r with
      | error e => exact .pure hs (by rw [hr])
      | ok r => exact hr.elim
  | .plain hx hv => by
      obtain ⟨N, hspine⟩ := spine_ends h hx
      obtain ⟨N', hshow⟩ := showPlain_ends h hv
      refine ⟨N + N' + 1, fun fuel hfuel H m x hs hx => ?_⟩
      obtain ⟨fuel, rfl⟩ := Nat.exists_eq_add_of_le' (show 1 ≤ fuel by omega)
      refine (hspine fuel (by omega) hs hx).attempt.bind (fun {H' m' r} _ hs hr => ?_) id
      cases r with
      | error e => exact hr.elim
      | ok r =>
          obtain ⟨items, last⟩ := r
          obtain ⟨hitems, hlast⟩ := hr
          cases hitems
          exact hshow fuel (by omega) hs hlast
  | .list hx hys => by
      obtain ⟨N, hspine⟩ := spine_ends h hx
      obtain ⟨N', hshow⟩ := observeAll_ends h hys
      refine ⟨N + N' + 1, fun fuel hfuel H m x hs hx => ?_⟩
      obtain ⟨fuel, rfl⟩ := Nat.exists_eq_add_of_le' (show 1 ≤ fuel by omega)
      refine (hspine fuel (by omega) hs hx).attempt.bind (fun {H' m' r} _ hs hr => ?_) id
      cases r with
      | error e => exact hr.elim
      | ok r =>
          obtain ⟨items, last⟩ := r
          obtain ⟨hitems, hlast⟩ := hr
          have hall := hshow fuel (by omega) hs hitems
          cases hlast
          cases hitems
          refine hall.bind (fun _ hs hts => ?_) id
          subst hts
          exact .pure hs rfl
  | .dotted hx hne hys hv => by
      obtain ⟨N, hspine⟩ := spine_ends h hx
      obtain ⟨N', hshow⟩ := observeAll_ends h hys
      obtain ⟨N'', hplain⟩ := showPlain_ends h hv
      refine ⟨N + N' + N'' + 1, fun fuel hfuel H m x hs hx => ?_⟩
      obtain ⟨fuel, rfl⟩ := Nat.exists_eq_add_of_le' (show 1 ≤ fuel by omega)
      refine (hspine fuel (by omega) hs hx).attempt.bind (fun {H' m' r} _ hs hr => ?_) id
      cases r with
      | error e => exact hr.elim
      | ok r =>
          obtain ⟨items, last⟩ := r
          obtain ⟨hitems, hlast⟩ := hr
          have hall := hshow fuel (by omega) hs hitems
          have hread := hlast
          cases hitems
          cases hlast with
          | nil => exact absurd rfl hne
          | _ =>
              refine hall.bind (fun hgrow hs hts => ?_) id
              refine (hplain fuel (by omega) hs (hread.grow hgrow)).bind (fun _ hs ht => ?_) id
              subst hts ht
              exact .pure hs rfl

theorem observeAll_ends [Γ.Strict] (h : ∀ fuel, Follows policy Γ fuel) {xs' : List Arg}
    {ts : List String} :
    DisplaysAll Γ xs' ts → ∃ N, ∀ fuel, N ≤ fuel → ∀ {H m xs}, Sound Γ H m →
      List.Forall₂ (Reads H) xs xs' →
      Ends Γ H (fun _ ts' => ts' = ts) (fun _ => False) (observeAll policy fuel xs m)
  | .nil => by
      refine ⟨1, fun fuel hfuel H m xs hs hxs => ?_⟩
      obtain ⟨fuel, rfl⟩ := Nat.exists_eq_add_of_le' hfuel
      cases hxs
      exact .pure hs rfl
  | .cons hx hxs => by
      obtain ⟨N, hone⟩ := observe_ends h hx
      obtain ⟨N', hall⟩ := observeAll_ends h hxs
      refine ⟨N + N' + 1, fun fuel hfuel H m xs hs hxs => ?_⟩
      obtain ⟨fuel, rfl⟩ := Nat.exists_eq_add_of_le' (show 1 ≤ fuel by omega)
      cases hxs with
      | cons hx hxs =>
          refine (hone fuel (by omega) hs hx).bind (fun hgrow hs ht => ?_) id
          refine (hall fuel (by omega) hs (hxs.imp fun _ _ hz => hz.grow hgrow)).bind
            (fun _ hs hts => ?_) id
          subst ht hts
          exact .pure hs rfl

end

/-! ### Evaluations -/

/-- `Begins Γ H m x rank start`: in a memory that is read as `H`, `start` evaluates `x`. -/
def Begins (Γ : World) (H : List Arg) (m : Memory) (x : Arg) (rank : Nat)
    (start : Nat → Effect Value) : Prop :=
  ∀ fuel, Reaches Γ H (next Γ x) (fuel + 1) rank .ready (start fuel m)

namespace Begins

variable [Γ.Strict] {x : Arg} {start : Nat → Effect Value}

/-- An evaluation gives the result by name. -/
theorem keeps (h : Begins Γ H m x rank start) (fuel : Nat) :
    Keeps Γ H (fun H' v => ∃ v', ReadsVal H' v v' ∧ Evals Γ x v') (Raises Γ (next Γ x))
      (start fuel m) :=
  ((h fuel).keeps fun v => ⟨v, rfl⟩).mono fun hread => hread _ rfl

/-- An evaluation gives the result by name, if there is one, with fuel enough. -/
theorem ends (h : Begins Γ H m x rank start) {c : Nat} {r : Except Fault Val}
    (hr : Concludes Γ (next Γ x) c r) {fuel : Nat} (hfuel : 5 * c + rank ≤ fuel) :
    Ends Γ H (fun H' v => ∃ v', ReadsVal H' v v' ∧ r = .ok v') (fun e => r = .error e)
      (start fuel m) :=
  ((h fuel).ends (fun v => ⟨v, rfl⟩) hr (by omega)).mono fun hread => hread _ rfl

theorem returns (h : Begins Γ H m x rank start) {c : Nat} {v : Val}
    (hv : Yields Γ (next Γ x) c v) {fuel : Nat} (hfuel : 5 * c + rank ≤ fuel) :
    ∃ u m' H', start fuel m = .value u m' ∧ Sound Γ H' m' ∧ ReadsVal H' u v := by
  obtain ⟨u, m', H', heq, hs, v', hread, hv'⟩ := (h.ends hv hfuel).value (by simp)
  cases hv'
  exact ⟨u, m', H', heq, hs, hread⟩

theorem fails (h : Begins Γ H m x rank start) {c : Nat} {e : Fault}
    (he : Concludes Γ (next Γ x) c (.error e)) {fuel : Nat} (hfuel : 5 * c + rank ≤ fuel) :
    ∃ m', start fuel m = .fault e m' := by
  have hends := h.ends he hfuel
  cases heq : start fuel m with
  | value u m' =>
      rw [heq] at hends
      obtain ⟨H', -, -, v, -, hv⟩ := hends
      cases hv
  | fault e' m' =>
      rw [heq] at hends
      cases hends.2
      exact ⟨m', rfl⟩
  | outOfFuel =>
      rw [heq] at hends
      exact hends.elim

end Begins

/-! ### Evaluations on a fresh machine -/

section Fresh

variable {Γ : Frame}

/-- `Starts Γ x start`: with the names of `Γ` defined, `start` evaluates `x`. -/
def Starts (Γ : Frame) (x : Arg) (start : Nat → Effect Value) : Prop :=
  ∀ fuel, Reaches Γ [] (next Γ x) (fuel + 1) 6 .ready (start fuel Γ.memory)

theorem evalCode_starts (h : ∀ fuel, Follows policy Γ fuel) (c : Code) :
    Starts Γ (.code c) fun fuel => evalCode policy fuel c := fun fuel =>
  (h fuel).evalCode Γ.memory_sound c

theorem evalExpr_starts (h : ∀ fuel, Follows policy Γ fuel) (e : Expr) :
    Starts Γ (.expr e []) fun fuel => evalExpr policy fuel e := fun fuel =>
  (h fuel).evalExpr Γ.memory_sound e

theorem Starts.begins {x : Arg} {start : Nat → Effect Value} (h : Starts Γ x start) :
    Begins Γ [] Γ.memory x 6 start :=
  h

end Fresh

end Decombinator.ByName
