import CrossTransfer.Library.OrderedMap
import Mathlib.Data.List.Perm.Subperm

/-! # Sets of keys and loops over them

The key set of a map whose values live elsewhere, and the order in which a loop meets the keys of
a map: any order, fixed when the loop starts (`MapOrder`).
-/

namespace CrossTransfer.Library

abbrev OrderedSet (κ : Type*) [Ord κ] := Std.ExtTreeSet κ compare

namespace OrderedSet

variable {κ : Type*} [Ord κ] [Std.TransOrd κ] [Std.LawfulEqOrd κ] (s : OrderedSet κ)

@[simp] theorem mem_insert_iff (k a : κ) : a ∈ s.insert k ↔ a = k ∨ a ∈ s := by
  rw [Std.ExtTreeSet.mem_insert, Std.LawfulEqCmp.compare_eq_iff_eq, eq_comm]

@[simp] theorem mem_erase_iff (k a : κ) : a ∈ s.erase k ↔ a ≠ k ∧ a ∈ s := by
  rw [Std.ExtTreeSet.mem_erase, Ne, Std.LawfulEqCmp.compare_eq_iff_eq, eq_comm]

omit [Std.LawfulEqOrd κ] in
@[simp] theorem not_mem_empty_iff (a : κ) : a ∉ (∅ : OrderedSet κ) := Std.ExtTreeSet.not_mem_empty

variable {s} {s' : OrderedSet κ}

theorem nodup_toList (s : OrderedSet κ) : s.toList.Nodup := by
  refine (Std.ExtTreeSet.distinct_toList (t := s)).imp fun hne heq => ?_
  exact hne (Std.LawfulEqCmp.compare_eq_iff_eq.mpr heq)

theorem size_le (h : ∀ a ∈ s', a ∈ s) : s'.size ≤ s.size := by
  rw [← Std.ExtTreeSet.length_toList, ← Std.ExtTreeSet.length_toList]
  refine ((nodup_toList s').subperm fun a ha => ?_).length_le
  rw [Std.ExtTreeSet.mem_toList] at ha ⊢
  exact h a ha

/-- One key more. -/
theorem size_le_succ {k : κ} (h : ∀ a ∈ s', a = k ∨ a ∈ s) : s'.size ≤ s.size + 1 := by
  have hle : s'.size ≤ (s.insert k).size := size_le fun a ha => (mem_insert_iff s k a).mpr (h a ha)
  exact hle.trans Std.ExtTreeSet.size_insert_le

end OrderedSet

/-- The order in which a loop over a map meets its keys. -/
structure MapOrder (κ : Type*) where
  visit : List κ → List κ
  perm : ∀ keys, (visit keys).Perm keys

namespace MapOrder

variable {κ : Type*} (order : MapOrder κ)

/-- The keys in the order of the map. -/
def sorted : MapOrder κ := ⟨id, fun keys => .refl keys⟩

variable [Ord κ] [Std.TransOrd κ]

/-- The keys of a set, in the order of the loop. -/
def keysOf (s : OrderedSet κ) : List κ := order.visit s.toList

@[simp] theorem mem_keysOf [Std.LawfulEqOrd κ] (s : OrderedSet κ) (a : κ) :
    a ∈ order.keysOf s ↔ a ∈ s := by
  rw [keysOf, (order.perm _).mem_iff]
  exact Std.ExtTreeSet.mem_toList

/-- A loop meets each key once. -/
theorem nodup_keysOf [Std.LawfulEqOrd κ] (s : OrderedSet κ) : (order.keysOf s).Nodup := by
  rw [keysOf, (order.perm _).nodup_iff]
  exact OrderedSet.nodup_toList s

end MapOrder

end CrossTransfer.Library
