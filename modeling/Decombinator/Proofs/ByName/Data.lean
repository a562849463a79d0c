/-
Texts that show data only.

Such a text shows no failure, and no function but one that selects like a boolean.  `Shows`
says which of them a computation is shown as, in terms of values alone.
-/
import Decombinator.Proofs.ByName.Observe

namespace Decombinator.ByName

open Machine

/-- The text of a value that is no list. -/
inductive Plain (Γ : Globals) : Val → String → Prop
  | int (n : Int64) : Plain Γ (.int n) (Text.int64Text n)
  | bool (b : Bool) : Plain Γ (.bool b) (boolText b)
  | nil : Plain Γ .nil "[]"
  | function {v : Val} {b : Bool} {c : Nat} (hv : v.isFunction)
      (hb : Yields Γ (truth v) c (.bool b)) : Plain Γ v (boolText b)

mutual

/-- The text of a computation. -/
inductive Shows (Γ : Globals) : Arg → String → Prop
  | plain {x : Arg} {v : Val} {t : String} (hx : Spine Γ x [] v) (hv : Plain Γ v t) : Shows Γ x t
  | list {x y : Arg} {ys : List Arg} {ts : List String} (hx : Spine Γ x (y :: ys) .nil)
      (hys : ShowsAll Γ (y :: ys) ts) : Shows Γ x ("[" ++ String.intercalate ", " ts ++ "]")
  | dotted {x y : Arg} {ys : List Arg} {ts : List String} {v : Val} {t : String}
      (hx : Spine Γ x (y :: ys) v) (hne : v ≠ .nil) (hys : ShowsAll Γ (y :: ys) ts)
      (hv : Plain Γ v t) :
      Shows Γ x ("[" ++ String.intercalate ", " ts ++ " | " ++ t ++ "]")

inductive ShowsAll (Γ : Globals) : List Arg → List String → Prop
  | nil : ShowsAll Γ [] []
  | cons {x : Arg} {xs : List Arg} {t : String} {ts : List String} (hx : Shows Γ x t)
      (hxs : ShowsAll Γ xs ts) : ShowsAll Γ (x :: xs) (t :: ts)

end

/-- Text that shows data only: neither a failure nor a function. -/
def FirstOrder (t : String) : Prop :=
  '<' ∉ t.toList

instance (t : String) : Decidable (FirstOrder t) :=
  inferInstanceAs (Decidable ('<' ∉ t.toList))

theorem FirstOrder.left {s t : String} (h : FirstOrder (s ++ t)) : FirstOrder s := fun hs =>
  h (String.toList_append ▸ List.mem_append_left _ hs)

theorem FirstOrder.right {s t : String} (h : FirstOrder (s ++ t)) : FirstOrder t := fun ht =>
  h (String.toList_append ▸ List.mem_append_right _ ht)

theorem mem_intercalate {sep : List Char} {l : List Char} {ls : List (List Char)} {c : Char}
    (hl : l ∈ ls) (hc : c ∈ l) : c ∈ sep.intercalate ls := by
  induction ls with
  | nil => cases hl
  | cons l' ls ih =>
      cases ls with
      | nil =>
          obtain rfl := List.mem_singleton.mp hl
          simpa [List.intercalate] using hc
      | cons l'' ls =>
          rw [List.intercalate_cons_cons, List.mem_append, List.mem_append]
          rcases List.mem_cons.mp hl with rfl | hl
          · exact Or.inl (Or.inl hc)
          · exact Or.inr (ih hl)

theorem FirstOrder.of_mem {sep : String} {ts : List String}
    (h : FirstOrder (String.intercalate sep ts)) {t : String} (ht : t ∈ ts) : FirstOrder t := by
  intro hc
  rw [FirstOrder, String.toList_intercalate] at h
  exact h (mem_intercalate (List.mem_map_of_mem ht) hc)

variable {Γ : Globals}

theorem Prints.plain {v : Val} {t : String} (h : Prints Γ v t) (ht : FirstOrder t) :
    Plain Γ v t := by
  cases h with
  | int n => exact .int n
  | bool b => exact .bool b
  | nil => exact .nil
  | probe first => exact absurd (by simp) ht
  | boolean hv hb =>
      obtain ⟨c, hb⟩ := hb
      exact .function hv hb
  | function hv hf => exact absurd (by simp) ht.left.left

theorem Plain.prints {v : Val} {t : String} (h : Plain Γ v t) : Prints Γ v t := by
  cases h with
  | int n => exact .int n
  | bool b => exact .bool b
  | nil => exact .nil
  | function hv hb => exact .boolean hv ⟨_, hb⟩

mutual

/-- A computation that is shown as data is that data. -/
theorem Displays.shows {x : Arg} {t : String} : Displays Γ x t → FirstOrder t → Shows Γ x t
  | .failure _, ht => absurd (by simp) ht.left.left
  | .plain hx hv, ht => .plain hx (hv.plain ht)
  | .list hx hys, ht => .list hx (hys.shows fun _ hmem => ht.left.right.of_mem hmem)
  | .dotted hx hne hys hv, ht =>
      .dotted hx hne (hys.shows fun _ hmem => ht.left.left.left.right.of_mem hmem)
        (hv.plain ht.left.right)

theorem DisplaysAll.shows {xs : List Arg} {ts : List String} :
    DisplaysAll Γ xs ts → (∀ t ∈ ts, FirstOrder t) → ShowsAll Γ xs ts
  | .nil, _ => .nil
  | .cons hx hxs, ht =>
      .cons (hx.shows (ht _ (by simp))) (hxs.shows fun t hmem => ht t (by simp [hmem]))

end

mutual

/-- Data is shown as what it is. -/
theorem Shows.displays {x : Arg} {t : String} : Shows Γ x t → Displays Γ x t
  | .plain hx hv => .plain hx hv.prints
  | .list hx hys => .list hx hys.displays
  | .dotted hx hne hys hv => .dotted hx hne hys.displays hv.prints

theorem ShowsAll.displays {xs : List Arg} {ts : List String} :
    ShowsAll Γ xs ts → DisplaysAll Γ xs ts
  | .nil => .nil
  | .cons hx hxs => .cons hx.displays hxs.displays

end

end Decombinator.ByName
