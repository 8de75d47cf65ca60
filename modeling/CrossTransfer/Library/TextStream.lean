import Mathlib.Data.List.Basic

/-! # Reading a text

A text is read line by line (`getlines`) and a line word by word (`word`), as the text streams of an
imperative language do: a line ends at a separator or at the end of the text, a word is what stands
between blanks. What has been written with a separator behind it is read back.
-/

namespace CrossTransfer.Library

variable {α : Type*} [DecidableEq α] {sep : α} {x y : List α}

/-- The lines of a text. What follows the last separator is a line if it is not empty. -/
def getlines (sep : α) : List α → List (List α)
  | [] => []
  | c :: rest =>
    if c = sep then [] :: getlines sep rest
    else
      match getlines sep rest with
      | [] => [[c]]
      | line :: lines => (c :: line) :: lines

theorem getlines_line (hx : sep ∉ x) (y : List α) :
    getlines sep (x ++ sep :: y) = x :: getlines sep y := by
  induction x with
  | nil => simp [getlines]
  | cons c x ih =>
    rw [List.mem_cons, not_or] at hx
    rw [List.cons_append, getlines, if_neg (Ne.symm hx.1), ih hx.2]

/-- The lines of a text of complete lines. -/
theorem getlines_flatMap {β : Type*} (f : β → List α) (xs : List β) (hxs : ∀ b ∈ xs, sep ∉ f b)
    (y : List α) :
    getlines sep ((xs.flatMap fun b => f b ++ [sep]) ++ y) = xs.map f ++ getlines sep y := by
  induction xs with
  | nil => rfl
  | cons b xs ih =>
    obtain ⟨hb, hrest⟩ := List.forall_mem_cons.mp hxs
    rw [List.flatMap_cons, List.append_assoc, List.append_assoc, List.singleton_append,
      getlines_line hb, ih hrest]
    rfl

section Words

omit [DecidableEq α]

variable {p blank : α → Bool}

/-- A word is read up to what does not belong to it. -/
theorem takeWhile_append_of_head (hx : ∀ a ∈ x, p a = true) (hy : ∀ a ∈ y.head?, p a = false) :
    (x ++ y).takeWhile p = x ∧ (x ++ y).dropWhile p = y := by
  rw [List.takeWhile_append_of_pos hx, List.dropWhile_append_of_pos hx]
  cases y with
  | nil => simp
  | cons a y =>
    have ha := hy a rfl
    simp [ha]

/-- The next word, which is not empty, and what follows it. -/
def word (blank : α → Bool) (x : List α) : Option (List α × List α) :=
  let start := x.dropWhile blank
  if start.isEmpty then none
  else some (start.takeWhile (!blank ·), start.dropWhile (!blank ·))

theorem word_append {w : List α} {b : α} (hne : w ≠ []) (hw : ∀ c ∈ w, blank c = false)
    (hb : blank b = true) : word blank (w ++ b :: y) = some (w, b :: y) := by
  cases w with
  | nil => exact absurd rfl hne
  | cons c w =>
    have hc : blank c = false := hw c List.mem_cons_self
    have hall : ∀ a ∈ c :: w, (!blank a) = true := fun a ha => by simp [hw a ha]
    obtain ⟨htake, hdrop⟩ := takeWhile_append_of_head (y := b :: y) hall (by simp [hb])
    have hstart : (c :: w ++ b :: y).dropWhile blank = c :: w ++ b :: y := by
      rw [List.cons_append, List.dropWhile_cons_of_neg (by simp [hc])]
    rw [word, hstart, htake, hdrop]
    rfl

end Words

end CrossTransfer.Library
