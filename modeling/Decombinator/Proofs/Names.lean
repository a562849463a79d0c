/-
Names that are bound and names that are free.

Every stage of decompilation is a tree with binders, and all of them keep one discipline:
no two binders share a name, and no name is both bound and free.  What a stage may do to
the names is therefore said of two lists, the names in binding positions and the free
ones, whatever the trees are.
-/
import Mathlib.Data.List.Nodup

namespace Decombinator

/-- No name is bound twice, and none is both bound and free. -/
structure Hygiene (binders free : List String) : Prop where
  /-- Binders are pairwise distinct. -/
  distinct : binders.Nodup
  /-- A binder's name does not occur free. -/
  unfree : ∀ x ∈ binders, x ∉ free

namespace Hygiene

variable {binders free binders' free' : List String}

theorem count_le_one (h : Hygiene binders free) (x : String) : binders.count x ≤ 1 :=
  List.nodup_iff_count_le_one.mp h.distinct x

/-- Dropping binders and free names keeps hygiene. -/
theorem mono (h : Hygiene binders free) (hb : ∀ x, binders'.count x ≤ binders.count x)
    (hf : ∀ x ∈ free', x ∈ free) : Hygiene binders' free' := by
  refine ⟨List.nodup_iff_count_le_one.mpr fun x => ?_, fun x hx hfree => ?_⟩
  · exact Nat.le_trans (hb x) (h.count_le_one x)
  · have hmem : x ∈ binders :=
      List.count_pos_iff.mp (Nat.lt_of_lt_of_le (List.count_pos_iff.mpr hx) (hb x))
    exact h.unfree x hmem (hf x hfree)

/-- Below a binder there is one name more that may be free, but it is not bound again. -/
theorem under {p : String} (h : Hygiene (p :: binders) (free.filter (· ≠ p))) :
    Hygiene binders free := by
  obtain ⟨hp, hdistinct⟩ := List.nodup_cons.mp h.distinct
  refine ⟨hdistinct, fun x hx hfree => ?_⟩
  have hxp : x ≠ p := fun he => hp (he ▸ hx)
  exact h.unfree x (List.mem_cons_of_mem _ hx) (List.mem_filter.mpr ⟨hfree, by simpa using hxp⟩)

theorem left (h : Hygiene (binders ++ binders') (free ++ free')) : Hygiene binders free :=
  ⟨(List.nodup_append.mp h.distinct).1, fun x hx hfree =>
    h.unfree x (List.mem_append_left _ hx) (List.mem_append_left _ hfree)⟩

theorem right (h : Hygiene (binders ++ binders') (free ++ free')) : Hygiene binders' free' :=
  ⟨(List.nodup_append.mp h.distinct).2.1, fun x hx hfree =>
    h.unfree x (List.mem_append_right _ hx) (List.mem_append_right _ hfree)⟩

end Hygiene

/-- One tree has the names of another, as a stage keeps them: the primed one has no binder
that the other has not, and the same free names. -/
structure Retains (binders free binders' free' : List String) : Prop where
  count_le : ∀ z, binders'.count z ≤ binders.count z
  mem_iff : ∀ z, z ∈ free' ↔ z ∈ free

namespace Retains

variable {binders free binders' free' binders'' free'' : List String}

theorem trans (h : Retains binders free binders' free') (h' : Retains binders' free' binders'' free'') :
    Retains binders free binders'' free'' :=
  ⟨fun z => Nat.le_trans (h'.count_le z) (h.count_le z), fun z => (h'.mem_iff z).trans (h.mem_iff z)⟩

theorem hygiene (h : Retains binders free binders' free') (hy : Hygiene binders free) :
    Hygiene binders' free' :=
  hy.mono h.count_le fun z => (h.mem_iff z).mp

theorem refl (binders free : List String) : Retains binders free binders free :=
  ⟨fun _ => Nat.le_refl _, fun _ => Iff.rfl⟩

theorem under (p : String) (h : Retains binders free binders' free') :
    Retains (p :: binders) (free.filter (· ≠ p)) (p :: binders') (free'.filter (· ≠ p)) := by
  refine ⟨fun z => ?_, fun z => ?_⟩
  · rw [List.count_cons, List.count_cons]
    exact Nat.add_le_add_right (h.count_le z) _
  · rw [List.mem_filter, List.mem_filter, h.mem_iff]

theorem append {bs fs bs' fs' : List String} (h : Retains binders free binders' free')
    (h' : Retains bs fs bs' fs') :
    Retains (binders ++ bs) (free ++ fs) (binders' ++ bs') (free' ++ fs') := by
  refine ⟨fun z => ?_, fun z => ?_⟩
  · rw [List.count_append, List.count_append]
    exact Nat.add_le_add (h.count_le z) (h'.count_le z)
  · rw [List.mem_append, List.mem_append, h.mem_iff, h'.mem_iff]

theorem mem_binders (h : Retains binders free binders' free') {z : String} (hz : z ∈ binders') :
    z ∈ binders :=
  List.count_pos_iff.mp (Nat.lt_of_lt_of_le (List.count_pos_iff.mpr hz) (h.count_le z))

end Retains

end Decombinator
