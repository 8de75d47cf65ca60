import Mathlib.Data.List.Basic
import Mathlib.Data.List.Nodup
import Mathlib.Order.Interval.Finset.Nat

/-! # A capped set in the order of insertion

A reader remembers what it has seen as a list, in the order of insertion and without repetition, and
forgets the oldest entries beyond a cap. The source of what it sees shows, at any time, some of the
newest `limit` things that exist, each with its `age`: the number of things that existed before it.

If nothing that is gone comes back, and the cap is at least twice the limit, then the reader never
forgets what it may still be shown (`Remembers.next`): what it has not seen is new
(`Remembers.born_le_of_not_seen`).
-/

namespace CrossTransfer.Library

variable {α : Type*}

/-- Insert what is not there at the end. -/
def insertAll [DecidableEq α] (s xs : List α) : List α :=
  xs.foldl (fun s x => if x ∈ s then s else s ++ [x]) s

/-- The newest `cap` entries. -/
def keepLast (cap : Nat) (s : List α) : List α := s.drop (s.length - cap)

theorem length_keepLast_le (cap : Nat) (s : List α) : (keepLast cap s).length ≤ cap := by
  rw [keepLast, List.length_drop]
  omega

/-- What `insertAll` adds. -/
structure Added (s xs new : List α) : Prop where
  sublist : new.Sublist xs
  missing : ∀ x ∈ new, x ∉ s
  nodup : new.Nodup
  all : ∀ x ∈ xs, x ∈ s ∨ x ∈ new

theorem insertAll_added [DecidableEq α] (s xs : List α) :
    ∃ new, insertAll s xs = s ++ new ∧ Added s xs new := by
  induction xs generalizing s with
  | nil => exact ⟨[], by simp [insertAll], .refl _, by simp, List.nodup_nil, by simp⟩
  | cons x xs ih =>
    rw [insertAll, List.foldl_cons]
    change ∃ new, insertAll (if x ∈ s then s else s ++ [x]) xs = s ++ new ∧ Added s (x :: xs) new
    by_cases hx : x ∈ s
    · rw [if_pos hx]
      obtain ⟨new, heq, added⟩ := ih s
      refine ⟨new, heq, added.sublist.cons x, added.missing, added.nodup, ?_⟩
      rw [List.forall_mem_cons]
      exact ⟨.inl hx, added.all⟩
    · rw [if_neg hx]
      obtain ⟨new, heq, added⟩ := ih (s ++ [x])
      have hnew : ∀ y ∈ new, y ∉ s ∧ y ≠ x := by simpa using added.missing
      refine ⟨x :: new, by simp [heq], added.sublist.cons_cons x, ?_, ?_, ?_⟩
      · rw [List.forall_mem_cons]
        exact ⟨hx, fun y hy => (hnew y hy).1⟩
      · exact List.nodup_cons.mpr ⟨fun hmem => (hnew x hmem).2 rfl, added.nodup⟩
      · rw [List.forall_mem_cons]
        refine ⟨.inr List.mem_cons_self, fun y hy => ?_⟩
        obtain hy | hy := added.all y hy
        · exact (List.mem_append.mp hy).imp id fun h => by simp [List.mem_singleton.mp h]
        · exact .inr (List.mem_cons_of_mem _ hy)

theorem insertAll_of_nodup [DecidableEq α] {s xs : List α} (nodup : xs.Nodup)
    (fresh : ∀ x ∈ xs, x ∉ s) : insertAll s xs = s ++ xs := by
  induction xs generalizing s with
  | nil => simp [insertAll]
  | cons x xs ih =>
    rw [List.nodup_cons] at nodup
    rw [List.forall_mem_cons] at fresh
    rw [insertAll, List.foldl_cons, if_neg fresh.1]
    change insertAll (s ++ [x]) xs = s ++ x :: xs
    rw [ih nodup.2, List.append_assoc, List.singleton_append]
    intro y hy
    rw [List.mem_append, List.mem_singleton, not_or]
    exact ⟨fresh.2 y hy, fun heq => nodup.1 (heq ▸ hy)⟩

theorem insertAll_nil_of_nodup [DecidableEq α] {xs : List α} (nodup : xs.Nodup) :
    insertAll [] xs = xs :=
  insertAll_of_nodup nodup fun _ _ => List.not_mem_nil

/-- The snapshot shows some of the newest `limit` of `born` things. -/
structure Window (age : α → Nat) (limit : Nat) (items : List α) (born : Nat) : Prop where
  few : items.length ≤ limit
  old : ∀ x ∈ items, age x < born
  recent : ∀ x ∈ items, born ≤ age x + limit

/-- What a reader has seen, after the snapshot `items` of `born` things. -/
structure Remembers (age : α → Nat) (limit : Nat) (seen items : List α) (born : Nat) : Prop where
  nodup : seen.Nodup
  items : ∀ x ∈ items, x ∈ seen
  old : ∀ x ∈ seen, age x < born
  /-- Few things that came in after another one are older. -/
  late : ∀ before x after, seen = before ++ x :: after →
    (after.filter fun y => age y < age x).length < limit

namespace Remembers

variable {age : α → Nat} {limit cap born born' : Nat} {seen items items' new : List α}

theorem empty : Remembers age limit [] [] 0 := ⟨List.nodup_nil, by simp, by simp, by simp⟩

/-- Only the ages of what has been seen matter. -/
theorem congr {age' : α → Nat} (h : Remembers age limit seen items born)
    (same : ∀ x ∈ seen, age' x = age x) : Remembers age' limit seen items born where
  nodup := h.nodup
  items := h.items
  old x hx := (same x hx).trans_lt (h.old x hx)
  late before x after hsplit := by
    have hfilter : after.filter (fun y => age' y < age' x) = after.filter fun y => age y < age x := by
      refine List.filter_congr fun y hy => ?_
      rw [same x (by simp [hsplit]), same y (by simp [hsplit, hy])]
    rw [hfilter]
    exact h.late before x after hsplit

/-- What has not been seen did not exist when the reader looked last. -/
theorem born_le_of_not_seen (h : Remembers age limit seen items born)
    (kept : ∀ x ∈ items', age x < born → x ∈ items) {x : α} (hx : x ∈ items') (hnew : x ∉ seen) :
    born ≤ age x := by
  by_contra hold
  exact hnew (h.items x (kept x hx (Nat.not_le.mp hold)))

/-- After a thing that is still shown, few came in. -/
theorem few_after (window : Window age limit items' born') {after : List α} {x : α}
    (hx : x ∈ items') (old : ∀ y ∈ after, age y < born')
    (inj : ∀ y ∈ after, ∀ z ∈ after, age y = age z → y = z) (nodup : after.Nodup)
    (other : ∀ y ∈ after, age y ≠ age x)
    (late : (after.filter fun y => age y < age x).length < limit) :
    after.length < 2 * limit := by
  have hnewer : (after.filter fun y => !decide (age y < age x)).length < limit := by
    have hnodup : ((after.filter fun y => !decide (age y < age x)).map age).Nodup := by
      refine (nodup.filter _).map_on fun y hy z hz => ?_
      exact inj y (List.mem_of_mem_filter hy) z (List.mem_of_mem_filter hz)
    have hsubset : ((after.filter fun y => !decide (age y < age x)).map age).toFinset ⊆
        Finset.Ioo (age x) born' := by
      intro n hn
      obtain ⟨y, hy, rfl⟩ := List.mem_map.mp (List.mem_toFinset.mp hn)
      obtain ⟨hmem, hge⟩ := List.mem_filter.mp hy
      rw [Finset.mem_Ioo]
      have hne := other y hmem
      simp only [Bool.not_eq_true', decide_eq_false_iff_not, not_lt] at hge
      exact ⟨lt_of_le_of_ne hge (Ne.symm hne), old y hmem⟩
    have hcard := Finset.card_le_card hsubset
    rw [List.toFinset_card_of_nodup hnodup, List.length_map, Nat.card_Ioo] at hcard
    have hrecent := window.recent x hx
    have hold := window.old x hx
    omega
  have hsplit := List.length_eq_length_filter_add (l := after) fun y => decide (age y < age x)
  omega

/-- What is added comes late, but none of it is older than what was there. -/
theorem late_append (h : Remembers age limit seen items born) (added : Added seen items' new)
    (few : items'.length ≤ limit) (kept : ∀ x ∈ items', age x < born → x ∈ items)
    {before after : List α} {x : α} (hsplit : seen ++ new = before ++ x :: after) :
    (after.filter fun y => age y < age x).length < limit := by
  have fresh : ∀ pre, new = pre ++ x :: after →
      (after.filter fun y => age y < age x).length < limit := by
    intro pre hnew
    have hlength := added.sublist.length_le
    rw [hnew, List.length_append, List.length_cons] at hlength
    have hfilter := List.length_filter_le (fun y => decide (age y < age x)) after
    omega
  obtain ⟨mid, -, hnew⟩ | ⟨rest, hseen, hafter⟩ := List.append_eq_append_iff.mp hsplit
  · exact fresh mid hnew
  · cases rest with
    | nil => exact fresh [] hafter.symm
    | cons y rest =>
      obtain ⟨rfl, heq⟩ := List.cons.inj hafter
      have hold : age x < born := h.old x (by simp [hseen])
      have hnone : new.filter (fun y => age y < age x) = [] := by
        rw [List.filter_eq_nil_iff]
        intro y hy hlt
        have hitem := kept y (added.sublist.subset hy) ((of_decide_eq_true hlt).trans hold)
        exact added.missing y hy (h.items y hitem)
      have heq : after = rest ++ new := heq
      rw [heq, List.filter_append, hnone, List.append_nil]
      exact h.late before x rest hseen

theorem mem_keepLast {l before after : List α} {x : α} (hl : l = before ++ x :: after)
    (room : after.length < cap) : x ∈ keepLast cap l := by
  have hle : l.length - cap ≤ before.length := by
    rw [hl, List.length_append, List.length_cons]
    omega
  rw [keepLast, hl, List.drop_append_of_le_length (by rwa [hl] at hle)]
  exact List.mem_append_right _ List.mem_cons_self

/-- The next snapshot is inserted, and the oldest entries are forgotten. -/
theorem next [DecidableEq α] (h : Remembers age limit seen items born) (window : Window age limit items' born')
    (grows : born ≤ born') (kept : ∀ x ∈ items', age x < born → x ∈ items)
    (inj : ∀ x y, (x ∈ seen ∨ x ∈ items') → (y ∈ seen ∨ y ∈ items') → age x = age y → x = y)
    (room : 2 * limit ≤ cap) :
    Remembers age limit (keepLast cap (insertAll seen items')) items' born' := by
  obtain ⟨new, heq, added⟩ := insertAll_added seen items'
  rw [heq]
  have known : ∀ x ∈ seen ++ new, x ∈ seen ∨ x ∈ items' := fun x hx =>
    (List.mem_append.mp hx).imp_right fun hx => added.sublist.subset hx
  have nodup : (seen ++ new).Nodup := by
    rw [List.nodup_append]
    refine ⟨h.nodup, added.nodup, ?_⟩
    rintro x hx y hy rfl
    exact added.missing x hy hx
  have old : ∀ x ∈ seen ++ new, age x < born' := by
    intro x hx
    obtain hx | hx := known x hx
    · exact (h.old x hx).trans_le grows
    · exact window.old x hx
  constructor
  · exact nodup.sublist (List.drop_sublist _ _)
  · intro x hx
    obtain ⟨before, after, hsplit⟩ := List.append_of_mem (List.mem_append.mpr (added.all x hx))
    -- It is among the newest `2 * limit`, and so it is not forgotten.
    refine mem_keepLast hsplit (lt_of_lt_of_le ?_ room)
    have hafter : ∀ y ∈ after, y ∈ seen ++ new := fun y hy => by simp [hsplit, hy]
    rw [hsplit] at nodup
    have hnodup := (List.nodup_append.mp nodup).2.1
    obtain ⟨hother, hnodup⟩ := List.nodup_cons.mp hnodup
    refine few_after window hx (fun y hy => old y (hafter y hy)) ?_ hnodup ?_
      (h.late_append added window.few kept hsplit)
    · exact fun y hy z hz => inj y z (known y (hafter y hy)) (known z (hafter z hz))
    · intro y hy hage
      rw [inj y x (known y (hafter y hy)) (.inr hx) hage] at hy
      exact hother hy
  · exact fun x hx => old x (List.mem_of_mem_drop hx)
  · intro before x after hsplit
    have hwhole : seen ++ new =
        ((seen ++ new).take ((seen ++ new).length - cap) ++ before) ++ x :: after := by
      rw [List.append_assoc, ← hsplit]
      exact (List.take_append_drop _ _).symm
    exact h.late_append added window.few kept hwhole

end Remembers

end CrossTransfer.Library
