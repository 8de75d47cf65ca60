import Mathlib.Data.List.DropRight

/-! # Trimming

`strip p` removes the elements that satisfy `p` at both ends of a list.
-/

namespace CrossTransfer.Library

variable {α : Type*} {p q : α → Bool} {x y pre post : List α}

/-- A list without what satisfies `p` at its ends. -/
def strip (p : α → Bool) (x : List α) : List α := (x.dropWhile p).rdropWhile p

theorem dropWhile_append_of_head (h : ∀ a ∈ y.head?, q a = false) :
    (x ++ y).dropWhile q = x.dropWhile q ++ y := by
  rw [List.dropWhile_append]
  split
  · rename_i hempty
    rw [List.isEmpty_iff.mp hempty, List.nil_append]
    cases y with
    | nil => rfl
    | cons a y => rw [List.dropWhile_cons_of_neg (by simp [h a rfl])]
  · rfl

theorem rdropWhile_append_of_last (h : ∀ a ∈ x.getLast?, q a = false) :
    (x ++ y).rdropWhile q = x ++ y.rdropWhile q := by
  rw [← List.head?_reverse] at h
  rw [List.rdropWhile, List.reverse_append, dropWhile_append_of_head h, List.reverse_append,
    List.reverse_reverse]
  rfl

theorem dropWhile_append_of_forall (h : ∀ a ∈ pre, p a = true) :
    (pre ++ x).dropWhile p = x.dropWhile p := by
  rw [List.dropWhile_append, if_pos]
  rw [List.isEmpty_iff, List.dropWhile_eq_nil_iff]
  exact h

theorem rdropWhile_append_of_forall (h : ∀ a ∈ post, p a = true) :
    (x ++ post).rdropWhile p = x.rdropWhile p := by
  rw [List.rdropWhile, List.reverse_append, dropWhile_append_of_forall fun a ha => h a (by simpa using ha)]
  rfl

/-- A list between what is stripped from it. -/
theorem exists_eq_strip (p : α → Bool) (x : List α) : ∃ pre post, x = pre ++ strip p x ++ post ∧
    (∀ a ∈ pre, p a = true) ∧ ∀ a ∈ post, p a = true := by
  refine ⟨x.takeWhile p, (x.dropWhile p).rtakeWhile p, ?_, fun a ha => List.mem_takeWhile_imp ha,
    fun a ha => List.mem_rtakeWhile_imp ha⟩
  rw [strip, List.append_assoc, List.rdropWhile_append_rtakeWhile, List.takeWhile_append_dropWhile]

theorem head?_strip (a : α) (h : a ∈ (strip p x).head?) : p a = false := by
  have hhead : a ∈ (x.dropWhile p).head? := by
    obtain ⟨rest, hrest⟩ := List.rdropWhile_prefix p (x.dropWhile p)
    have hstrip : ((x.dropWhile p).rdropWhile p).head? = some a := h
    rw [← hrest, List.head?_append, hstrip]
    rfl
  have hnot := List.head?_dropWhile_not p x
  rw [Option.mem_def.mp hhead] at hnot
  exact hnot

theorem getLast?_strip (a : α) (h : a ∈ (strip p x).getLast?) : p a = false := by
  have hne : strip p x ≠ [] := by
    intro hnil
    rw [hnil] at h
    cases h
  have hlast := List.rdropWhile_last_not p (x.dropWhile p) hne
  rw [List.getLast?_eq_some_getLast hne, Option.mem_some_iff] at h
  rw [← h]
  exact Bool.eq_false_iff.mpr hlast

/-- Stripping less leaves what is between the same margins. -/
theorem strip_append (hpre : ∀ a ∈ x.head?, q a = false) (hpost : ∀ a ∈ x.getLast?, q a = false)
    (hne : x ≠ []) : strip q (pre ++ x ++ post) = pre.dropWhile q ++ x ++ post.rdropWhile q := by
  obtain ⟨a, rest, rfl⟩ := List.exists_cons_of_ne_nil hne
  rw [strip, List.append_assoc, dropWhile_append_of_head (by simpa using hpre), ← List.append_assoc]
  apply rdropWhile_append_of_last
  intro b hb
  rw [List.getLast?_append_of_ne_nil _ hne] at hb
  exact hpost b hb

theorem exists_margins (h : ∀ a, q a = true → p a = true) (x : List α) :
    ∃ pre post, strip q x = pre ++ strip p x ++ post ∧
      (∀ a ∈ pre, p a = true) ∧ ∀ a ∈ post, p a = true := by
  have hnot : ∀ a, p a = false → q a = false := fun a ha =>
    Bool.eq_false_iff.mpr fun hq => Bool.false_ne_true (ha ▸ h a hq)
  obtain ⟨pre, post, hx, hpre, hpost⟩ := exists_eq_strip p x
  by_cases hne : strip p x = []
  · -- Everything is margin.
    rw [hne, List.append_nil] at hx
    have hall : ∀ a ∈ x, p a = true := by
      rw [hx]
      exact List.forall_mem_append.mpr ⟨hpre, hpost⟩
    refine ⟨strip q x, [], by rw [hne, List.append_nil, List.append_nil], fun a ha => hall a ?_,
      List.forall_mem_nil _⟩
    exact (List.dropWhile_sublist q).subset ((List.rdropWhile_prefix q _).subset ha)
  · refine ⟨pre.dropWhile q, post.rdropWhile q, ?_, fun a ha => hpre a ((List.dropWhile_sublist q).subset ha),
      fun a ha => hpost a ((List.rdropWhile_prefix q _).subset ha)⟩
    conv_lhs => rw [hx]
    exact strip_append (fun a ha => hnot a (head?_strip a ha))
      (fun a ha => hnot a (getLast?_strip a ha)) hne

/-- The margins do not matter to a list that is stripped anyway. -/
theorem strip_margins (hpre : ∀ a ∈ pre, p a = true) (hpost : ∀ a ∈ post, p a = true) :
    strip p (pre ++ x ++ post) = strip p x := by
  rw [strip, List.append_assoc, dropWhile_append_of_forall hpre, List.dropWhile_append]
  split
  · rename_i hempty
    rw [List.isEmpty_iff] at hempty
    rw [strip, hempty, List.dropWhile_eq_nil_iff.mpr hpost]
  · exact rdropWhile_append_of_forall hpost

theorem strip_strip (x : List α) : strip p (strip p x) = strip p x := by
  obtain ⟨pre, post, hx, hpre, hpost⟩ := exists_eq_strip p x
  conv_rhs => rw [hx]
  exact (strip_margins hpre hpost).symm

end CrossTransfer.Library
