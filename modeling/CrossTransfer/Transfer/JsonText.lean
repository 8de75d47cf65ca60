import Mathlib.Data.List.Sort
import Mathlib.Data.Nat.Log
import CrossTransfer.Library.CheckedList
import CrossTransfer.Transfer.Manifest

/-! # The text of a JSON document

A control message is the text that `nlohmann::json::dump()` makes of a document: no blanks, the
entries of an object in the order of their keys, numbers in decimal, strings as they are unless a
byte has to be escaped. `Prints` says so of the documents the core writes, and `HasLength` how long
their text is.
-/

namespace CrossTransfer.Transfer

open CrossTransfer.Library
open Paths

/-! ## Numbers -/

/-- The decimal digits of a number. -/
def decimalLength (n : Nat) : Nat := Nat.log 10 n + 1

theorem decimalLength_pos (n : Nat) : 0 < decimalLength n := Nat.succ_pos _

theorem decimalLength_mono {m n : Nat} (h : m ≤ n) : decimalLength m ≤ decimalLength n :=
  Nat.succ_le_succ (Nat.log_mono_right h)

theorem decimalLength_le_iff {n k : Nat} (hk : 0 < k) : decimalLength n ≤ k ↔ n < 10 ^ k := by
  rw [decimalLength, Nat.succ_le_iff]
  obtain rfl | hn := Nat.eq_zero_or_pos n
  · simp [hk]
  · exact Nat.log_lt_iff_lt_pow (by norm_num) hn.ne'

theorem length_ascii (s : String) : (ascii s).length = s.length := by
  simp [ascii, String.length_toList]

theorem length_ascii_toString (n : Nat) : (ascii (toString n)).length = decimalLength n := by
  rw [length_ascii]
  have hpos : 0 < (Nat.repr n).length := Nat.length_repr_pos
  apply le_antisymm
  · exact (Nat.length_repr_le_iff (decimalLength_pos n)).mpr
      ((decimalLength_le_iff (decimalLength_pos n)).mp le_rfl)
  · exact (decimalLength_le_iff hpos).mpr ((Nat.length_repr_le_iff hpos).mp le_rfl)

/-! ## Texts -/

/-- The texts with commas between them. -/
def commaList : List Bytes → Bytes
  | [] => []
  | [text] => text
  | text :: texts => text ++ 0x2C :: commaList texts

/-- The length of a `commaList`, from the lengths of its texts. -/
def commaLength (lengths : List Nat) : Nat := lengths.sum + (lengths.length - 1)

theorem length_commaList (texts : List Bytes) :
    (commaList texts).length = commaLength (texts.map List.length) := by
  fun_induction commaList texts with
  | case1 => rfl
  | case2 text => simp [commaLength]
  | case3 text texts hne ih =>
    have hpos : 0 < texts.length := List.length_pos_of_ne_nil (by simpa using hne)
    simp only [commaLength, List.length_append, List.length_cons, List.map_cons, List.sum_cons,
      List.length_map, ih]
    omega

def quoted (s : Bytes) : Bytes := 0x22 :: s ++ [0x22]

/-- A string whose text is the string itself: UTF-8, and nothing in it to escape. -/
def plain (s : Bytes) : Bool :=
  validUtf8 s && s.all fun u => decide (0x20 ≤ u) && u != 0x22 && u != 0x5C

/-- An entry of an object. -/
def member (key text : Bytes) : Bytes := quoted key ++ 0x3A :: text

@[simp] theorem length_quoted (s : Bytes) : (quoted s).length = s.length + 2 := by simp [quoted]

@[simp] theorem length_member (key text : Bytes) :
    (member key text).length = key.length + 3 + text.length := by
  simp [member]
  omega

/-- The order in which the entries of an object are printed. -/
def byKey (entries : List (Bytes × Json)) : List (Bytes × Json) :=
  entries.insertionSort fun a b => a.1 ≤ b.1

/-- What `dump()` makes of the documents the core writes; `none` is an exception. -/
structure Prints (dump : Json → Option Bytes) : Prop where
  bool : ∀ b, dump (.bool b) = some (ascii (if b then "true" else "false"))
  unsigned : ∀ n, dump (.unsigned n) = some (ascii (toString n.toNat))
  str : ∀ s, plain s = true → dump (.str s) = some (quoted s)
  arr : ∀ items texts, items.mapM dump = some texts →
    dump (.arr items) = some (0x5B :: commaList texts ++ [0x5D])
  obj : ∀ entries texts, (∀ e ∈ entries, plain e.1 = true) →
    (byKey entries).mapM (fun e => (dump e.2).map (member e.1)) = some texts →
      dump (.obj entries) = some (0x7B :: commaList texts ++ [0x7D])

/-! ## Exceptions -/

mutual

/-- Every string of the document is UTF-8, keys included. -/
def Json.utf8 : Json → Bool
  | .str s => validUtf8 s
  | .arr items => utf8Items items
  | .obj entries => utf8Entries entries
  | _ => true

def utf8Items : List Json → Bool
  | [] => true
  | j :: items => j.utf8 && utf8Items items

def utf8Entries : List (Bytes × Json) → Bool
  | [] => true
  | (key, j) :: entries => validUtf8 key && (j.utf8 && utf8Entries entries)

end

/-- `dump()` throws on a document with a string that is not UTF-8, and on no other. -/
def StrictDump (dump : Json → Option Bytes) : Prop := ∀ j, dump j = none ↔ j.utf8 = false

theorem utf8Items_map {α : Type*} {item : α → Json} {xs : List α}
    (h : ∀ x ∈ xs, (item x).utf8 = true) : utf8Items (xs.map item) = true := by
  induction xs with
  | nil => rfl
  | cons x xs ih =>
    rw [List.forall_mem_cons] at h
    rw [List.map_cons, utf8Items, h.1, ih h.2, Bool.and_true]

/-! ## Lengths -/

/-- The document has a text, of this length. -/
def HasLength (dump : Json → Option Bytes) (j : Json) (n : Nat) : Prop :=
  ∃ text, dump j = some text ∧ text.length = n

theorem commaLength_perm {lengths lengths' : List Nat} (h : lengths.Perm lengths') :
    commaLength lengths = commaLength lengths' := by
  rw [commaLength, commaLength, h.sum_eq, h.length_eq]

/-- Documents with texts, and what is computed from their lengths. -/
theorem exists_texts {dump : Json → Option Bytes} {items : List Json} {lengths : List Nat}
    (h : List.Forall₂ (HasLength dump) items lengths) :
    ∃ text : Json → Bytes, (∀ j ∈ items, dump j = some (text j)) ∧
      lengths = items.map fun j => (text j).length := by
  refine ⟨fun j => (dump j).getD [], ?_⟩
  induction h with
  | nil => simp
  | cons hj _ ih =>
    obtain ⟨text, htext, hlength⟩ := hj
    rw [List.forall_mem_cons]
    exact ⟨⟨by simp [htext], ih.1⟩, by simp [htext, hlength, ih.2]⟩

namespace Prints

variable {dump : Json → Option Bytes} (h : Prints dump)
include h

theorem hasLength_bool (b : Bool) : HasLength dump (.bool b) (if b then 4 else 5) :=
  ⟨_, h.bool b, by cases b <;> rfl⟩

theorem hasLength_unsigned (n : UInt64) :
    HasLength dump (.unsigned n) (decimalLength n.toNat) :=
  ⟨_, h.unsigned n, length_ascii_toString _⟩

theorem hasLength_str {s : Bytes} (hs : plain s = true) :
    HasLength dump (.str s) (s.length + 2) :=
  ⟨_, h.str s hs, length_quoted s⟩

theorem hasLength_arr {items : List Json} {lengths : List Nat}
    (hitems : List.Forall₂ (HasLength dump) items lengths) :
    HasLength dump (.arr items) (commaLength lengths + 2) := by
  obtain ⟨text, htext, rfl⟩ := exists_texts hitems
  refine ⟨_, h.arr items _ (CheckedList.mapM_eq_map htext), ?_⟩
  simp [length_commaList, Function.comp_def]

/-- An array of one kind of item. -/
theorem hasLength_arr_map {α : Type*} {item : α → Json} {length : α → Nat} {xs : List α}
    (hitem : ∀ x ∈ xs, HasLength dump (item x) (length x)) :
    HasLength dump (.arr (xs.map item)) (commaLength (xs.map length) + 2) := by
  apply h.hasLength_arr
  rw [List.forall₂_map_left_iff, List.forall₂_map_right_iff, List.forall₂_same]
  exact hitem

/-- The length of an object does not depend on the order of its entries. -/
theorem hasLength_obj {entries : List (Bytes × Json)} {lengths : List Nat}
    (hkeys : (entries.map Prod.fst).all plain = true)
    (hvalues : List.Forall₂ (HasLength dump) (entries.map Prod.snd) lengths) :
    HasLength dump (.obj entries)
      (commaLength (List.zipWith (fun e n => e.1.length + 3 + n) entries lengths) + 2) := by
  obtain ⟨text, htext, rfl⟩ := exists_texts hvalues
  have hsorted : (byKey entries).Perm entries := List.perm_insertionSort _ _
  have hmembers : (byKey entries).mapM (fun e => (dump e.2).map (member e.1)) =
      some ((byKey entries).map fun e => member e.1 (text e.2)) := by
    refine CheckedList.mapM_eq_map fun e he => ?_
    have hvalue := htext e.2 (List.mem_map_of_mem (hsorted.mem_iff.mp he))
    rw [hvalue, Option.map_some]
  have hlengths : List.zipWith (fun e n => e.1.length + 3 + n) entries
      ((entries.map Prod.snd).map fun j => (text j).length) =
      entries.map fun e => (member e.1 (text e.2)).length := by
    simp [List.zipWith_map_right, List.zipWith_self]
  rw [List.all_map, List.all_eq_true] at hkeys
  refine ⟨_, h.obj entries _ hkeys hmembers, ?_⟩
  rw [hlengths, ← commaLength_perm (hsorted.map _)]
  simp [length_commaList, Function.comp_def]

end Prints

/-! ## A printer -/

mutual

/-- The text of a document that has no fractions and no string to escape. -/
def dumpPlain : Json → Option Bytes
  | .null => some (ascii "null")
  | .bool b => some (ascii (if b then "true" else "false"))
  | .unsigned n => some (ascii (toString n.toNat))
  | .integer n => some (ascii (toString n))
  | .float _ => none
  | .str s => if plain s then some (quoted s) else none
  | .arr items => (dumpItems items).map fun texts => 0x5B :: commaList texts ++ [0x5D]
  | .obj entries => (dumpEntries entries).map fun texts =>
    let sorted := texts.insertionSort fun a b => a.1 ≤ b.1
    0x7B :: commaList (sorted.map fun e => member e.1 e.2) ++ [0x7D]

def dumpItems : List Json → Option (List Bytes)
  | [] => some []
  | j :: items => (dumpPlain j).bind fun text => (dumpItems items).map (text :: ·)

/-- The keys with the texts of their values. -/
def dumpEntries : List (Bytes × Json) → Option (List (Bytes × Bytes))
  | [] => some []
  | (key, j) :: entries =>
    (dumpPlain j).bind fun text => (dumpEntries entries).map ((key, text) :: ·)

end

theorem dumpItems_of_mapM {items : List Json} {texts : List Bytes}
    (h : items.mapM dumpPlain = some texts) : dumpItems items = some texts := by
  induction items generalizing texts with
  | nil => simpa [dumpItems] using h
  | cons j items ih =>
    simp only [List.mapM_cons, Option.bind_eq_bind, Option.bind_eq_some_iff, Option.pure_def,
      Option.some.injEq] at h
    obtain ⟨text, htext, rest, hrest, rfl⟩ := h
    simp [dumpItems, htext, ih hrest]

theorem dumpEntries_eq {entries : List (Bytes × Json)}
    (h : ∀ e ∈ entries, ∃ text, dumpPlain e.2 = some text) :
    dumpEntries entries = some (entries.map fun e => (e.1, (dumpPlain e.2).getD [])) := by
  induction entries with
  | nil => rfl
  | cons e entries ih =>
    rw [List.forall_mem_cons] at h
    obtain ⟨⟨text, htext⟩, hrest⟩ := h
    simp [dumpEntries, htext, ih hrest]

theorem mapM_eq_some {α : Type*} {f : α → Option Bytes} {xs : List α} {texts : List Bytes}
    (h : xs.mapM f = some texts) :
    (∀ x ∈ xs, ∃ text, f x = some text) ∧ texts = xs.map fun x => (f x).getD [] := by
  induction xs generalizing texts with
  | nil => simpa using h.symm
  | cons x xs ih =>
    simp only [List.mapM_cons, Option.bind_eq_bind, Option.bind_eq_some_iff, Option.pure_def,
      Option.some.injEq] at h
    obtain ⟨text, htext, rest, hrest, rfl⟩ := h
    obtain ⟨hall, rfl⟩ := ih hrest
    exact ⟨List.forall_mem_cons.mpr ⟨⟨text, htext⟩, hall⟩, by simp [htext]⟩

theorem prints_dumpPlain : Prints dumpPlain where
  bool _ := rfl
  unsigned _ := rfl
  str s hs := by rw [dumpPlain, if_pos hs]
  arr items texts h := by rw [dumpPlain, dumpItems_of_mapM h, Option.map_some]
  obj entries texts _ h := by
    obtain ⟨hall, rfl⟩ := mapM_eq_some h
    have hvalues : ∀ e ∈ entries, ∃ text, dumpPlain e.2 = some text := by
      intro e he
      obtain ⟨text, htext⟩ := hall e ((List.mem_insertionSort _).mpr he)
      obtain ⟨value, hvalue, -⟩ := Option.map_eq_some_iff.mp htext
      exact ⟨value, hvalue⟩
    have hsort : (entries.map fun e => (e.1, (dumpPlain e.2).getD [])).insertionSort
        (fun a b => a.1 ≤ b.1) = (byKey entries).map fun e => (e.1, (dumpPlain e.2).getD []) := by
      rw [byKey, List.map_insertionSort _ (fun a b : Bytes × Bytes => a.1 ≤ b.1)]
      exact fun _ _ _ _ => Iff.rfl
    have hmember : ∀ e ∈ byKey entries, member e.1 ((dumpPlain e.2).getD []) =
        ((dumpPlain e.2).map (member e.1)).getD [] := by
      intro e he
      obtain ⟨value, hvalue⟩ := hvalues e ((List.mem_insertionSort _).mp he)
      simp [hvalue]
    rw [dumpPlain, dumpEntries_eq hvalues, Option.map_some]
    simp only [hsort, List.map_map]
    rw [← List.map_congr_left hmember]
    rfl

end CrossTransfer.Transfer
