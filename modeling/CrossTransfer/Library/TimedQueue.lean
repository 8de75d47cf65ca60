import Mathlib.Data.List.Sort
import Mathlib.Data.Prod.Lex

/-! # Timed queues

The entries of a queue have a key (when they are due) and the number under which they came in. A new
entry goes behind the entries with the same key. So the queue is sorted by key and then by number
(`Queued`), and the front entry is the least of all.
-/

namespace CrossTransfer.Library

namespace TimedQueue

variable {α κ : Type*} [LinearOrder κ] {key : α → κ} {number : α → Nat} {a b : α} {xs ys : List α}

/-- Put an entry behind those that are not due later. -/
def emplace (key : α → κ) (a : α) (xs : List α) : List α :=
  xs.orderedInsert (fun a b => key a < key b) a

/-- `a` comes before `b`: it has the smaller key, or the same key and the smaller number. -/
def Sooner (key : α → κ) (number : α → Nat) (a b : α) : Prop :=
  toLex (key a, number a) < toLex (key b, number b)

def Queued (key : α → κ) (number : α → Nat) (xs : List α) : Prop :=
  xs.Pairwise (Sooner key number)

theorem sooner_iff : Sooner key number a b ↔ key a < key b ∨ key a = key b ∧ number a < number b :=
  Prod.Lex.toLex_lt_toLex

theorem mem_emplace : b ∈ emplace key a xs ↔ b = a ∨ b ∈ xs :=
  List.mem_orderedInsert _

theorem emplace_perm : (emplace key a xs).Perm (a :: xs) :=
  List.perm_orderedInsert _ _ _

theorem Queued.sublist (h : Queued key number xs) (hsub : ys.Sublist xs) : Queued key number ys :=
  List.Pairwise.sublist hsub h

/-- The queue stays sorted when the new entry has the largest number. -/
theorem Queued.emplace (h : Queued key number xs) (hnew : ∀ b ∈ xs, number b < number a) :
    Queued key number (emplace key a xs) := by
  induction xs with
  | nil => exact List.pairwise_singleton _ _
  | cons x xs ih =>
    obtain ⟨hx, hxs⟩ := List.pairwise_cons.mp h
    rw [TimedQueue.emplace, List.orderedInsert_cons]
    split
    · rename_i hlt
      refine List.pairwise_cons.mpr ⟨fun b hb => ?_, h⟩
      have hax : Sooner key number a x := sooner_iff.mpr (.inl hlt)
      obtain rfl | hb := List.mem_cons.mp hb
      · exact hax
      · exact lt_trans hax (hx b hb)
    · rename_i hle
      refine List.pairwise_cons.mpr
        ⟨fun b hb => ?_, ih hxs fun b hb => hnew b (List.mem_cons_of_mem _ hb)⟩
      obtain rfl | hb := mem_emplace.mp hb
      · obtain hlt | heq := (not_lt.mp hle).lt_or_eq
        · exact sooner_iff.mpr (.inl hlt)
        · exact sooner_iff.mpr (.inr ⟨heq, hnew x List.mem_cons_self⟩)
      · exact hx b hb

/-- No entry is sooner than the front one. -/
theorem Queued.front (h : Queued key number (a :: xs)) (hb : b ∈ xs) : ¬ Sooner key number b a :=
  not_lt.mpr (le_of_lt (List.rel_of_pairwise_cons h hb))

/-- With distinct numbers, the entry removed is the only one with its number. -/
theorem number_ne_of_mem_eraseP {n : Nat} (h : xs.Pairwise fun a b => number a ≠ number b)
    (hb : b ∈ xs.eraseP (number · == n)) : number b ≠ n := by
  induction xs with
  | nil => simp at hb
  | cons x xs ih =>
    obtain ⟨hx, hxs⟩ := List.pairwise_cons.mp h
    by_cases heq : number x = n
    · rw [List.eraseP_cons_of_pos (by simpa using heq)] at hb
      exact fun hbn => hx b hb (heq.trans hbn.symm)
    · rw [List.eraseP_cons_of_neg (by simpa using heq)] at hb
      obtain rfl | hb := List.mem_cons.mp hb
      · exact heq
      · exact ih hxs hb

end TimedQueue

end CrossTransfer.Library
