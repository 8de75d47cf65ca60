import Mathlib.Data.List.Sort

/-! # Unstable sorts

A sort like `std::sort` leaves elements in any order of which neither comes before the other. What it makes of
a list is therefore a parameter of the code that sorts, and what is proved holds of every such sort.
-/

namespace CrossTransfer.Library

variable {α : Type*} {before : α → α → Prop}

/-- A sort by a comparison. -/
structure UnstableSort (before : α → α → Prop) where
  sort : List α → List α
  perm : ∀ xs, (sort xs).Perm xs
  sorted : ∀ xs, (sort xs).Pairwise fun x y => ¬before y x

namespace UnstableSort

variable (s : UnstableSort before)

theorem mem_sort {x : α} {xs : List α} : x ∈ s.sort xs ↔ x ∈ xs := (s.perm xs).mem_iff

theorem sort_nil : s.sort [] = [] := List.perm_nil.mp (s.perm [])

theorem sort_eq_cons {xs : List α} (h : xs ≠ []) : ∃ first rest, s.sort xs = first :: rest := by
  apply List.exists_cons_of_ne_nil
  intro hnil
  obtain ⟨x, hx⟩ := List.exists_mem_of_ne_nil _ h
  have hx' := s.mem_sort.mpr hx
  simp [hnil] at hx'

/-- A sort by insertion, if the comparison is a strict weak order. -/
def insertion [DecidableRel before] (asymm : ∀ x y, before x y → ¬before y x)
    (trans : ∀ x y z, ¬before y x → ¬before z y → ¬before z x) : UnstableSort before where
  sort := List.insertionSort fun x y => ¬before y x
  perm := List.perm_insertionSort _
  sorted xs := by
    have htotal : Std.Total fun x y => ¬before y x :=
      ⟨fun x y => or_iff_not_imp_left.mpr fun hnot => asymm y x (not_not.mp hnot)⟩
    have htrans : IsTrans α fun x y => ¬before y x := ⟨trans⟩
    exact List.pairwise_insertionSort _ xs

end UnstableSort

end CrossTransfer.Library
