import Mathlib.Algebra.Order.BigOperators.Group.List
import Mathlib.Algebra.Order.Group.Nat

/-! # Maps and sums over a list of which one entry changes -/

namespace CrossTransfer.Library

/-- An entry may be replaced by one with the same image. -/
theorem map_set_of_eq {α β : Type*} {f : α → β} {l : List α} {i : Nat} {a b : α} (h : l[i]? = some a)
    (hab : f b = f a) : (l.set i b).map f = l.map f := by
  obtain ⟨hi, rfl⟩ := List.getElem?_eq_some_iff.mp h
  rw [List.map_set, hab, ← List.map_set, List.set_getElem_self]

/-- Replacing an entry exchanges its summand. -/
theorem sum_map_set {α M : Type*} [AddCommMonoid M] (f : α → M) (l : List α) {i : Nat} {a : α} (b : α)
    (h : l[i]? = some a) : ((l.set i b).map f).sum + f a = (l.map f).sum + f b := by
  induction l generalizing i with
  | nil => cases h
  | cons x l ih =>
    cases i with
    | zero =>
      obtain rfl := Option.some.inj h
      simp only [List.set_cons_zero, List.map_cons, List.sum_cons]
      rw [add_right_comm, add_comm (f b), add_right_comm, add_comm (f x), add_right_comm]
    | succ i =>
      simp only [List.set_cons_succ, List.map_cons, List.sum_cons, add_assoc, ih h]

theorem countP_set {α : Type*} (p : α → Bool) (l : List α) {i : Nat} {a : α} (b : α)
    (h : l[i]? = some a) : (l.set i b).countP p + (p a).toNat = l.countP p + (p b).toNat := by
  induction l generalizing i with
  | nil => cases h
  | cons x l ih =>
    cases i with
    | zero =>
      obtain rfl := Option.some.inj h
      simp only [List.set_cons_zero, List.countP_cons]
      cases p x <;> cases p b <;> simp
    | succ i =>
      have hrest := ih h
      simp only [List.set_cons_succ, List.countP_cons]
      omega

/-- One summand at its bound leaves the sum within the bounds. -/
theorem sum_map_raise {α M : Type*} [AddCommMonoid M] [PartialOrder M] [IsOrderedAddMonoid M]
    {f g : α → M} {l : List α} (hle : ∀ x ∈ l, f x ≤ g x) {i : Nat} {a : α} (h : l[i]? = some a) :
    (l.map f).sum + g a ≤ (l.map g).sum + f a := by
  induction l generalizing i with
  | nil => cases h
  | cons x l ih =>
    rw [List.forall_mem_cons] at hle
    simp only [List.map_cons, List.sum_cons]
    cases i with
    | zero =>
      obtain rfl := Option.some.inj h
      calc f x + (l.map f).sum + g x = (l.map f).sum + (f x + g x) := by rw [add_comm (f x), add_assoc]
        _ ≤ (l.map g).sum + (f x + g x) := add_le_add (List.sum_le_sum hle.2) le_rfl
        _ = g x + (l.map g).sum + f x := by rw [add_comm (f x), ← add_assoc, add_comm (g x)]
    | succ i =>
      calc f x + (l.map f).sum + g a = f x + ((l.map f).sum + g a) := add_assoc ..
        _ ≤ g x + ((l.map g).sum + f a) := add_le_add hle.1 (ih hle.2 h)
        _ = g x + (l.map g).sum + f a := (add_assoc ..).symm

/-- One of the entries with distinct keys is left out. -/
theorem sum_map_filter_ne {α κ M : Type*} [AddCommMonoid M] [DecidableEq κ] (key : α → κ) (f : α → M)
    {l : List α} {k : κ} {a : α} (hnodup : (l.map key).Nodup) (h : l.find? (fun x => key x = k) = some a) :
    ((l.filter fun x => key x ≠ k).map f).sum + f a = (l.map f).sum := by
  induction l with
  | nil => cases h
  | cons x l ih =>
    obtain ⟨hx, hl⟩ := List.nodup_cons.mp hnodup
    by_cases hk : key x = k
    · rw [List.find?_cons_of_pos (by simpa using hk)] at h
      obtain rfl := Option.some.inj h
      have hrest : (l.filter fun y => key y ≠ k) = l := by
        apply List.filter_eq_self.mpr
        intro y hy
        simpa using fun heq => hx (List.mem_map.mpr ⟨y, hy, heq.trans hk.symm⟩)
      rw [List.filter_cons_of_neg (by simpa using hk), hrest, List.map_cons, List.sum_cons, add_comm]
    · rw [List.find?_cons_of_neg (by simpa using hk)] at h
      rw [List.filter_cons_of_pos (by simpa using hk)]
      simp only [List.map_cons, List.sum_cons, add_assoc, ih hl h]

/-- The entry with a key is exchanged. -/
theorem sum_map_assign {α κ M : Type*} [AddCommMonoid M] [DecidableEq κ] (key : α → κ) (f : α → M)
    {l : List α} {k : κ} {a : α} (b : α) (hnodup : (l.map key).Nodup)
    (h : l.find? (fun x => key x = k) = some a) :
    ((l.map fun x => if key x = k then b else x).map f).sum + f a = (l.map f).sum + f b := by
  induction l with
  | nil => cases h
  | cons x l ih =>
    obtain ⟨hx, hl⟩ := List.nodup_cons.mp hnodup
    simp only [List.map_cons, List.sum_cons]
    by_cases hk : key x = k
    · rw [List.find?_cons_of_pos (by simpa using hk)] at h
      obtain rfl := Option.some.inj h
      have hrest : (l.map fun y => if key y = k then b else y) = l := by
        nth_rewrite 2 [← List.map_id l]
        refine List.map_congr_left fun y hy => if_neg fun heq => ?_
        exact hx (List.mem_map.mpr ⟨y, hy, heq.trans hk.symm⟩)
      rw [if_pos hk, hrest, add_comm (f b), add_right_comm, add_comm _ (f x)]
    · rw [List.find?_cons_of_neg (by simpa using hk)] at h
      rw [if_neg hk, add_assoc, ih hl h, add_assoc]

end CrossTransfer.Library
