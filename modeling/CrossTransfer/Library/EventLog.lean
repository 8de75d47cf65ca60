import Mathlib.Data.List.Basic

/-! # Order in a log

A log grows at its end. `Followed P Q log` says that after every entry with `P` there is one with
`Q`, and `Separated P Q R log` that there is one with `Q` between an entry with `P` and a later one
with `R`. The first is what a writer has to know before it adds an entry with `R`, so that the
second stays true.

That some entries are in the log in a certain order is that their list is a sublist of the log.
-/

namespace CrossTransfer.Library

variable {α : Type*} {P Q R : α → Prop} {log out : List α}

/-- After every entry with `P` there is one with `Q`. -/
def Followed (P Q : α → Prop) (log : List α) : Prop :=
  ∀ before x after, log = before ++ x :: after → P x → ∃ y ∈ after, Q y

/-- Between an entry with `P` and a later one with `R` there is one with `Q`. -/
def Separated (P Q R : α → Prop) (log : List α) : Prop :=
  ∀ before x between z after, log = before ++ x :: (between ++ z :: after) → P x → R z →
    ∃ y ∈ between, Q y

/-- An entry of a longer log is an old one or a new one. -/
theorem append_eq_append_cons {before after : List α} {x : α}
    (h : log ++ out = before ++ x :: after) :
    (∃ rest, log = before ++ x :: rest ∧ after = rest ++ out) ∨
      ∃ rest, out = rest ++ x :: after ∧ before = log ++ rest := by
  obtain ⟨rest, hbefore, hout⟩ | ⟨rest, hlog, hafter⟩ := List.append_eq_append_iff.mp h
  · exact .inr ⟨rest, hout, hbefore⟩
  · cases rest with
    | nil => exact .inr ⟨[], by simpa using hafter.symm, by simpa using hlog.symm⟩
    | cons y rest =>
      obtain ⟨rfl, rfl⟩ := List.cons.inj hafter
      exact .inl ⟨rest, hlog, rfl⟩

theorem followed_nil : Followed P Q [] := by
  intro before x after h
  simp at h

theorem separated_nil : Separated P Q R [] := by
  intro before x between z after h
  simp at h

theorem followed_of_not (h : ∀ x ∈ log, ¬ P x) : Followed P Q log := by
  rintro before x after rfl hx
  exact absurd hx (h x (by simp))

theorem Followed.append (h : Followed P Q log) (hout : ∀ x ∈ out, ¬ P x) :
    Followed P Q (log ++ out) := by
  intro before x after heq hx
  obtain ⟨rest, hlog, rfl⟩ | ⟨rest, rfl, -⟩ := append_eq_append_cons heq
  · obtain ⟨y, hmem, hy⟩ := h before x rest hlog hx
    exact ⟨y, List.mem_append_left _ hmem, hy⟩
  · exact absurd hx (hout x (by simp))

/-- A new entry with `Q` follows everything. -/
theorem followed_snoc {y : α} (hy : Q y) (hnot : ¬ P y) : Followed P Q (log ++ [y]) := by
  intro before x after heq hx
  obtain ⟨rest, -, rfl⟩ | ⟨rest, hsingle, -⟩ := append_eq_append_cons heq
  · exact ⟨y, by simp, hy⟩
  · have hmem : x ∈ [y] := by rw [hsingle]; simp
    obtain rfl := List.mem_singleton.mp hmem
    exact absurd hx hnot

theorem Separated.append (h : Separated P Q R log) (hout : ∀ z ∈ out, ¬ R z) :
    Separated P Q R (log ++ out) := by
  intro before x between z after heq hx hz
  rw [← List.cons_append, ← List.append_assoc] at heq
  obtain ⟨rest, hlog, -⟩ | ⟨rest, rfl, -⟩ := append_eq_append_cons heq
  · exact h before x between z rest (by simpa using hlog) hx hz
  · exact absurd hz (hout z (by simp))

/-- An entry with `R` may be added where `P` is followed by `Q`. -/
theorem Separated.snoc (h : Separated P Q R log) (hfollowed : Followed P Q log) (z : α) :
    Separated P Q R (log ++ [z]) := by
  intro before x between z' after heq hx hz
  rw [← List.cons_append, ← List.append_assoc] at heq
  obtain ⟨rest, hlog, -⟩ | ⟨rest, hsingle, hbefore⟩ := append_eq_append_cons heq
  · exact h before x between z' rest (by simpa using hlog) hx hz
  · have hrest : rest = [] := by
      cases rest with
      | nil => rfl
      | cons y rest => simp at hsingle
    rw [hrest, List.append_nil] at hbefore
    exact hfollowed before x between hbefore.symm hx

/-! ## Entries in order -/

/-- The last of some entries in order is the last one of the log, or they were there before. -/
theorem snoc_sublist_snoc (xs : List α) {y z : α} :
    (xs ++ [y]).Sublist (log ++ [z]) ↔ (xs ++ [y]).Sublist log ∨ y = z ∧ xs.Sublist log := by
  rw [← List.reverse_sublist, List.reverse_append, List.reverse_append, List.reverse_singleton,
    List.reverse_singleton, List.singleton_append, List.singleton_append, List.cons_sublist_cons',
    List.reverse_sublist, ← List.reverse_concat, List.reverse_sublist]

theorem pair_sublist_snoc {x y z : α} :
    [x, y].Sublist (log ++ [z]) ↔ [x, y].Sublist log ∨ y = z ∧ x ∈ log := by
  rw [← List.singleton_sublist (a := x)]
  exact snoc_sublist_snoc [x]

theorem triple_sublist_snoc {w x y z : α} :
    [w, x, y].Sublist (log ++ [z]) ↔ [w, x, y].Sublist log ∨ y = z ∧ [w, x].Sublist log :=
  snoc_sublist_snoc [w, x]

end CrossTransfer.Library
