import Mathlib.Data.List.Nodup
import Mathlib.Tactic.ByContra

/-! # Lists that are read entry by entry

A reader takes the entries of a document one after another and checks each against those it has read
before. `readAll_ok_iff` separates the two things it does: the entries are decoded, and the decoded
list is in order (`InOrder`), each entry with those before it.
-/

namespace CrossTransfer.Library

namespace CheckedList

variable {α β ε κ : Type*}

/-- Read the entries behind `acc`. -/
def readAll (read : List α → β → Except ε α) : List β → List α → Except ε (List α)
  | [], acc => .ok acc
  | item :: items, acc => (read acc item).bind fun x => readAll read items (acc ++ [x])

/-- Each entry passes a check that may look at the entries before it. -/
def InOrder (check : List α → α → Prop) : List α → List α → Prop
  | _, [] => True
  | acc, x :: xs => check acc x ∧ InOrder check (acc ++ [x]) xs

variable {read : List α → β → Except ε α} {decode : β → Option α}
  {check check' : List α → α → Prop} {items : List β} {acc out xs : List α}

@[simp] theorem inOrder_nil : InOrder check acc [] := trivial

@[simp] theorem inOrder_cons {x : α} :
    InOrder check acc (x :: xs) ↔ check acc x ∧ InOrder check (acc ++ [x]) xs := Iff.rfl

theorem readAll_ok_iff
    (hread : ∀ acc item x, read acc item = .ok x ↔ decode item = some x ∧ check acc x) :
    readAll read items acc = .ok out ↔
      ∃ xs, items.mapM decode = some xs ∧ InOrder check acc xs ∧ out = acc ++ xs := by
  induction items generalizing acc with
  | nil => simp [readAll, eq_comm]
  | cons item items ih =>
    constructor
    · intro h
      cases hx : read acc item with
      | error e => simp [readAll, hx, Except.bind] at h
      | ok x =>
        obtain ⟨hdecode, hcheck⟩ := (hread acc item x).mp hx
        rw [readAll, hx] at h
        obtain ⟨xs, hxs, horder, rfl⟩ := ih.mp h
        exact ⟨x :: xs, by simp [List.mapM_cons, hdecode, hxs], ⟨hcheck, horder⟩, by simp⟩
    · rintro ⟨out, hout, horder, rfl⟩
      rw [List.mapM_cons, Option.bind_eq_bind, Option.bind_eq_some_iff] at hout
      obtain ⟨x, hdecode, hout⟩ := hout
      rw [Option.bind_eq_bind, Option.bind_eq_some_iff] at hout
      obtain ⟨xs, hxs, hout⟩ := hout
      cases hout
      have hx : read acc item = .ok x := (hread acc item x).mpr ⟨hdecode, horder.1⟩
      rw [readAll, hx]
      exact ih.mpr ⟨xs, hxs, horder.2, by simp⟩

theorem length_of_mapM (h : items.mapM decode = some xs) : xs.length = items.length := by
  induction items generalizing xs with
  | nil =>
    cases h
    rfl
  | cons item items ih =>
    rw [List.mapM_cons, Option.bind_eq_bind, Option.bind_eq_some_iff] at h
    obtain ⟨x, -, h⟩ := h
    rw [Option.bind_eq_bind, Option.bind_eq_some_iff] at h
    obtain ⟨rest, hrest, h⟩ := h
    cases h
    rw [List.length_cons, List.length_cons, ih hrest]

theorem mem_of_mapM {x : α} (h : items.mapM decode = some xs) (hx : x ∈ xs) :
    ∃ item ∈ items, decode item = some x := by
  induction items generalizing xs with
  | nil =>
    cases h
    cases hx
  | cons item items ih =>
    rw [List.mapM_cons, Option.bind_eq_bind, Option.bind_eq_some_iff] at h
    obtain ⟨first, hfirst, h⟩ := h
    rw [Option.bind_eq_bind, Option.bind_eq_some_iff] at h
    obtain ⟨rest, hrest, h⟩ := h
    cases h
    obtain rfl | hx := List.mem_cons.mp hx
    · exact ⟨item, List.mem_cons_self, hfirst⟩
    · obtain ⟨source, hmem, hdecode⟩ := ih hrest hx
      exact ⟨source, List.mem_cons_of_mem _ hmem, hdecode⟩

/-- A list of which each entry is decoded. -/
theorem mapM_eq_map {value : β → α} (h : ∀ item ∈ items, decode item = some (value item)) :
    items.mapM decode = some (items.map value) := by
  induction items with
  | nil => rfl
  | cons item items ih =>
    rw [List.forall_mem_cons] at h
    simp [List.mapM_cons, h.1, ih h.2]

/-- Entries that were written are read back. -/
theorem mapM_map {encode : α → β} (h : ∀ x, decode (encode x) = some x) :
    (xs.map encode).mapM decode = some xs := by
  induction xs with
  | nil => rfl
  | cons x xs ih => simp [List.mapM_cons, h, ih]

theorem inOrder_and :
    InOrder (fun acc x => check acc x ∧ check' acc x) acc xs ↔
      InOrder check acc xs ∧ InOrder check' acc xs := by
  induction xs generalizing acc with
  | nil => simp
  | cons x xs ih =>
    simp only [inOrder_cons, ih]
    tauto

/-- A check of the entry alone. -/
theorem inOrder_forall {p : α → Prop} : InOrder (fun _ x => p x) acc xs ↔ ∀ x ∈ xs, p x := by
  induction xs generalizing acc with
  | nil => simp
  | cons x xs ih => simp [ih]

/-- A check that holds of every entry behind any part of the list. -/
theorem inOrder_of_append (h : ∀ before x after, acc ++ xs = before ++ x :: after → check before x) :
    InOrder check acc xs := by
  induction xs generalizing acc with
  | nil => trivial
  | cons x xs ih =>
    refine ⟨h acc x xs rfl, ih fun before y after heq => h before y after ?_⟩
    rwa [List.append_assoc, List.singleton_append] at heq

/-- The check that a key is new. -/
theorem inOrder_fresh {key : α → κ} :
    InOrder (fun acc x => key x ∉ acc.map key) acc xs ↔
      (xs.map key).Nodup ∧ ∀ x ∈ xs, key x ∉ acc.map key := by
  induction xs generalizing acc with
  | nil => simp
  | cons x xs ih =>
    simp only [inOrder_cons, ih, List.map_append, List.map_cons, List.map_nil, List.mem_append,
      List.mem_singleton, List.nodup_cons, List.forall_mem_cons, not_or]
    constructor
    · rintro ⟨hx, hnodup, hxs⟩
      refine ⟨⟨fun hmem => ?_, hnodup⟩, hx, fun y hy => (hxs y hy).1⟩
      obtain ⟨y, hy, hkey⟩ := List.mem_map.mp hmem
      exact (hxs y hy).2 hkey
    · rintro ⟨⟨hfirst, hnodup⟩, hx, hxs⟩
      exact ⟨hx, hnodup, fun y hy => ⟨hxs y hy, fun hkey => hfirst (hkey ▸ List.mem_map_of_mem hy)⟩⟩

end CheckedList

end CrossTransfer.Library
