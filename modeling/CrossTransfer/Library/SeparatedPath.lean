import Mathlib.Data.List.Infix
import Mathlib.Data.List.TakeWhile

/-! # Paths with a separator

A path is a list of symbols in which a separator stands between the names. `Below p q` says that `q`
goes on behind `p` and a separator, `Within p q` that it is `p` itself or below it. Names hold no
separator, so a path is within one entry of a directory at most (`name_unique`).
-/

namespace CrossTransfer.Library

namespace SeparatedPath

variable {α : Type*} {sep : α} {p q r base name name' : List α}

def Below (sep : α) (p q : List α) : Prop := (p ++ [sep]) <+: q

def Within (sep : α) (p q : List α) : Prop := q = p ∨ Below sep p q

theorem Below.length_lt (h : Below sep p q) : p.length < q.length := by
  have hle := h.length_le
  rw [List.length_append, List.length_singleton] at hle
  exact hle

theorem Below.toPrefix (h : Below sep p q) : p <+: q := (List.prefix_append p [sep]).trans h

theorem Within.refl (p : List α) : Within sep p p := .inl rfl

theorem Within.length_le (h : Within sep p q) : p.length ≤ q.length := by
  obtain rfl | hbelow := h
  · exact le_rfl
  · exact hbelow.length_lt.le

theorem Below.trans_within (h : Below sep p q) (h' : Within sep q r) : Below sep p r := by
  obtain rfl | hbelow := h'
  · exact h
  · exact h.trans hbelow.toPrefix

theorem Within.trans (h : Within sep p q) (h' : Within sep q r) : Within sep p r := by
  obtain rfl | hbelow := h
  · exact h'
  · exact .inr (hbelow.trans_within h')

theorem Below.not_within (h : Below sep p q) : ¬Within sep q p := fun hwithin => by
  have := h.length_lt
  have := hwithin.length_le
  omega

/-- What is within an entry of a directory is below the directory. -/
theorem below_entry (h : Within sep (base ++ sep :: name) q) : Below sep base q := by
  have hentry : Below sep base (base ++ sep :: name) := ⟨name, by simp⟩
  exact hentry.trans_within h

theorem takeWhile_of_within [DecidableEq α] (hname : sep ∉ name) (h : Within sep name q) :
    q.takeWhile (· ≠ sep) = name := by
  have hclean : ∀ x ∈ name, (decide (x ≠ sep)) = true := fun x hx =>
    decide_eq_true fun heq => hname (heq ▸ hx)
  obtain rfl | ⟨rest, rfl⟩ := h
  · exact List.takeWhile_eq_self_iff.mpr hclean
  · rw [List.append_assoc, List.takeWhile_append_of_pos hclean, List.singleton_append,
      List.takeWhile_cons_of_neg (by simp), List.append_nil]

/-- A list is split at its first separator in one way. -/
theorem append_sep_inj (hname : sep ∉ name) (hname' : sep ∉ name')
    (h : name ++ sep :: p = name' ++ sep :: q) : name = name' ∧ p = q := by
  classical
  have hwithin : Within sep name (name ++ sep :: p) := .inr ⟨p, by simp⟩
  have hwithin' : Within sep name' (name' ++ sep :: q) := .inr ⟨q, by simp⟩
  have heq : name = name' := by
    rw [← takeWhile_of_within hname hwithin, h, takeWhile_of_within hname' hwithin']
  subst heq
  exact ⟨rfl, (List.cons.inj (List.append_cancel_left h)).2⟩

/-- A path is within one entry of a directory. -/
theorem name_unique (hname : sep ∉ name) (hname' : sep ∉ name')
    (h : Within sep (base ++ sep :: name) q) (h' : Within sep (base ++ sep :: name') q) :
    name = name' := by
  classical
  have htail : ∀ {n}, Within sep (base ++ sep :: n) q → Within sep n (q.drop (base.length + 1)) := by
    intro n hn
    obtain rfl | ⟨rest, rfl⟩ := hn
    · exact .inl (by simp [List.drop_append])
    · exact .inr ⟨rest, by simp [List.drop_append]⟩
  rw [← takeWhile_of_within hname (htail h), ← takeWhile_of_within hname' (htail h')]

/-- What an entry of a directory is below, the directory is within. -/
theorem within_of_below_entry (hname : sep ∉ name) (h : Below sep p (base ++ sep :: name)) :
    Within sep p base := by
  obtain ⟨rest, hrest⟩ := h
  rw [List.append_assoc, List.singleton_append] at hrest
  obtain ⟨mid, rfl, htail⟩ | ⟨mid, rfl, htail⟩ := List.append_eq_append_iff.mp hrest
  · cases mid with
    | nil => exact .inl (by simp)
    | cons x mid =>
      obtain ⟨rfl, -⟩ := List.cons.inj htail
      exact .inr ⟨mid, by simp⟩
  · cases mid with
    | nil => exact .inl (by simp)
    | cons x mid =>
      obtain ⟨-, hmid⟩ := List.cons.inj htail
      exact absurd (hmid ▸ List.mem_append_right mid (List.mem_cons_self ..)) hname

@[simp] theorem below_cons {x : α} : Below sep (x :: p) (x :: q) ↔ Below sep p q := by
  simp [Below]

@[simp] theorem within_cons {x : α} : Within sep (x :: p) (x :: q) ↔ Within sep p q := by
  simp [Within]

end SeparatedPath

end CrossTransfer.Library
