import Mathlib.Data.List.DropRight

/-! # Searching a text and its encoding

`after` is the text behind the first occurrence of a pattern. An encoding is transparent for some
symbols if it writes each of them as itself and never uses them to write anything else, as UTF-8 does
with ASCII: then a search for such symbols finds the same places before and after encoding.
-/

namespace CrossTransfer.Library

variable {α β : Type*}

/-- What follows the first occurrence of the pattern, which is not empty. -/
def after [BEq α] (pat : List α) : List α → Option (List α)
  | [] => none
  | a :: x => if pat.isPrefixOf (a :: x) then some ((a :: x).drop pat.length) else after pat x

theorem prefix_append_of_disjoint {x y pat : List α} (h : ∀ a ∈ pat, a ∉ y) :
    pat <+: x ++ y ↔ pat <+: x := by
  refine ⟨fun hstart => ?_, fun hstart => hstart.trans (List.prefix_append x y)⟩
  obtain hshort | hlong := List.prefix_or_prefix_of_prefix hstart (List.prefix_append x y)
  · exact hshort
  · -- What the pattern has beyond `x` would stand in `y`.
    obtain ⟨more, rfl⟩ := hlong
    cases more with
    | nil => exact ⟨[], by simp⟩
    | cons a more =>
      obtain ⟨rest, hrest⟩ := hstart
      rw [List.append_assoc, List.append_cancel_left_eq] at hrest
      exact absurd (hrest ▸ List.mem_cons_self) (h a (by simp))

section After

variable [BEq α] [LawfulBEq α] {p : α} {ps x y : List α}

theorem after_cons {a : α} (h : ¬p :: ps <+: a :: x) : after (p :: ps) (a :: x) = after (p :: ps) x := by
  rw [after, if_neg (mt List.isPrefixOf_iff_prefix.mp h)]

theorem after_cons_of_ne {a : α} (h : p ≠ a) : after (p :: ps) (a :: x) = after (p :: ps) x :=
  after_cons fun hstart => h (List.cons_prefix_cons.mp hstart).1

/-- An occurrence does not begin where its first symbol is not. -/
theorem after_append_of_notMem (h : p ∉ y) : after (p :: ps) (y ++ x) = after (p :: ps) x := by
  induction y with
  | nil => rfl
  | cons a y ih =>
    rw [List.mem_cons, not_or] at h
    rw [List.cons_append, after_cons_of_ne h.1, ih h.2]

theorem after_of_start (h : p :: ps <+: x) : after (p :: ps) x = some (x.drop (ps.length + 1)) := by
  cases x with
  | nil => simp at h
  | cons a x =>
    rw [after, if_pos (List.isPrefixOf_iff_prefix.mpr h)]
    rfl

theorem after_pattern : after (p :: ps) (p :: ps ++ x) = some x := by
  rw [after_of_start (List.prefix_append _ x), ← List.length_cons (a := p), List.drop_left]

theorem eq_append_of_after {r : List α} (h : after (p :: ps) x = some r) :
    ∃ w, x = w ++ p :: ps ++ r := by
  induction x with
  | nil => cases h
  | cons a x ih =>
    rw [after] at h
    split at h
    · rename_i hstart
      obtain ⟨rest, hrest⟩ := List.isPrefixOf_iff_prefix.mp hstart
      rw [← hrest, List.drop_left, Option.some.injEq] at h
      exact ⟨[], by rw [← hrest, h, List.nil_append]⟩
    · obtain ⟨w, hw⟩ := ih h
      exact ⟨a :: w, by rw [hw, List.cons_append, List.cons_append]⟩

end After

/-- The symbols `b` with `plain b` are written as themselves, and only they are written with them. -/
structure Transparent (enc : α → List β) (sym : β → α) (plain : β → Prop) : Prop where
  alone : ∀ b, plain b → enc (sym b) = [b]
  foreign : ∀ a, (∃ b, plain b ∧ a = sym b) ∨ enc a ≠ [] ∧ ∀ b ∈ enc a, ¬plain b

namespace Transparent

variable {enc : α → List β} {sym : β → α} {plain : β → Prop} {pat : List β} {x : List α}

theorem encode_map (T : Transparent enc sym plain) (hpat : ∀ b ∈ pat, plain b) :
    (pat.map sym).flatMap enc = pat := by
  induction pat with
  | nil => rfl
  | cons b pat ih =>
    rw [List.forall_mem_cons] at hpat
    rw [List.map_cons, List.flatMap_cons, T.alone b hpat.1, ih hpat.2]
    rfl

theorem sym_ne (T : Transparent enc sym plain) {a : α} {b : β} (hb : plain b)
    (hforeign : ∀ c ∈ enc a, ¬plain c) : sym b ≠ a := by
  rintro rfl
  exact hforeign b (by rw [T.alone b hb]; exact List.mem_singleton_self b) hb

theorem sym_inj (T : Transparent enc sym plain) {b c : β} (hb : plain b) (hc : plain c) :
    sym b = sym c ↔ b = c := by
  refine ⟨fun h => ?_, congrArg sym⟩
  have henc := congrArg enc h
  rw [T.alone b hb, T.alone c hc] at henc
  exact List.singleton_inj.mp henc

theorem prefix_iff (T : Transparent enc sym plain) (hpat : ∀ b ∈ pat, plain b) :
    pat <+: x.flatMap enc ↔ pat.map sym <+: x := by
  induction pat generalizing x with
  | nil => simp
  | cons p pat ih =>
    rw [List.forall_mem_cons] at hpat
    cases x with
    | nil => simp
    | cons a x =>
      rw [List.flatMap_cons, List.map_cons, List.cons_prefix_cons]
      obtain ⟨b, hb, rfl⟩ | ⟨hne, hforeign⟩ := T.foreign a
      · rw [T.alone b hb, List.singleton_append, List.cons_prefix_cons, ih hpat.2, T.sym_inj hpat.1 hb]
      · -- No symbol of the pattern is used to write `a`.
        obtain ⟨c, rest, hc⟩ := List.exists_cons_of_ne_nil hne
        rw [hc, List.cons_append, List.cons_prefix_cons]
        have hpc : p ≠ c := by
          rintro rfl
          exact hforeign p (hc ▸ List.mem_cons_self) hpat.1
        exact iff_of_false (fun h => hpc h.1) fun h => T.sym_ne hpat.1 hforeign h.1

theorem drop_of_start (T : Transparent enc sym plain) (hpat : ∀ b ∈ pat, plain b)
    (h : pat.map sym <+: x) : (x.flatMap enc).drop pat.length = (x.drop pat.length).flatMap enc := by
  obtain ⟨rest, rfl⟩ := h
  rw [List.flatMap_append, T.encode_map hpat, List.drop_left, List.drop_left' (List.length_map _)]

/-- The search goes the same way in the encoded text. -/
theorem after_encode [BEq α] [LawfulBEq α] [BEq β] [LawfulBEq β] (T : Transparent enc sym plain) {p : β}
    {ps : List β} (hpat : ∀ b ∈ p :: ps, plain b) :
    after (p :: ps) (x.flatMap enc) = (after ((p :: ps).map sym) x).map (·.flatMap enc) := by
  have hp := hpat p List.mem_cons_self
  induction x with
  | nil => rfl
  | cons a x ih =>
    by_cases hstart : (p :: ps).map sym <+: a :: x
    · rw [after_of_start ((T.prefix_iff hpat).mpr hstart), List.map_cons, after_of_start hstart,
        Option.map_some, List.length_map, ← List.length_cons (a := p), T.drop_of_start hpat hstart]
    · have hright : after ((p :: ps).map sym) (a :: x) = after ((p :: ps).map sym) x := after_cons hstart
      rw [hright, ← ih, List.flatMap_cons]
      obtain ⟨b, hb, rfl⟩ | ⟨-, hforeign⟩ := T.foreign a
      · have hleft : ¬p :: ps <+: b :: x.flatMap enc := by
          have hiff := T.prefix_iff (x := sym b :: x) hpat
          rw [List.flatMap_cons, T.alone b hb] at hiff
          exact mt hiff.mp hstart
        rw [T.alone b hb, List.singleton_append, after_cons hleft]
      · exact after_append_of_notMem fun hmem => hforeign p hmem hp

/-- A cut at the first symbol of a kind. -/
theorem takeWhile_encode (T : Transparent enc sym plain) {q : β → Bool} {r : α → Bool}
    (same : ∀ b, plain b → r (sym b) = q b) (through : ∀ b, ¬plain b → q b = true)
    (through' : ∀ a, (∀ b, plain b → a ≠ sym b) → r a = true) :
    (x.flatMap enc).takeWhile q = (x.takeWhile r).flatMap enc := by
  induction x with
  | nil => rfl
  | cons a x ih =>
    rw [List.flatMap_cons, List.takeWhile_cons]
    obtain ⟨b, hb, rfl⟩ | ⟨-, hforeign⟩ := T.foreign a
    · rw [T.alone b hb, List.singleton_append, List.takeWhile_cons, same b hb]
      split
      · rw [List.flatMap_cons, T.alone b hb, ih]
        rfl
      · rfl
    · rw [List.takeWhile_append_of_pos fun b hb => through b (hforeign b hb),
        if_pos (through' a fun b hb => (T.sym_ne hb hforeign).symm), List.flatMap_cons, ih]

/-- Dropping symbols of a kind at the front. -/
theorem dropWhile_encode (T : Transparent enc sym plain) {q : β → Bool} {r : α → Bool}
    (same : ∀ b, plain b → r (sym b) = q b) (stays : ∀ b, ¬plain b → q b = false)
    (stays' : ∀ a, (∀ b, plain b → a ≠ sym b) → r a = false) :
    (x.flatMap enc).dropWhile q = (x.dropWhile r).flatMap enc := by
  induction x with
  | nil => rfl
  | cons a x ih =>
    rw [List.flatMap_cons, List.dropWhile_cons]
    obtain ⟨b, hb, rfl⟩ | ⟨hne, hforeign⟩ := T.foreign a
    · rw [T.alone b hb, List.singleton_append, List.dropWhile_cons, same b hb]
      split
      · exact ih
      · rw [List.flatMap_cons, T.alone b hb]
        rfl
    · obtain ⟨c, rest, hc⟩ := List.exists_cons_of_ne_nil hne
      have hq : q c = false := stays c (hforeign c (hc ▸ List.mem_cons_self))
      rw [stays' a fun b hb => (T.sym_ne hb hforeign).symm, hc, List.cons_append, List.dropWhile_cons, hq]
      simp only [Bool.false_eq_true, if_false]
      rw [List.flatMap_cons, hc, List.cons_append]

/-- Dropping symbols of a kind at the end. -/
theorem rdropWhile_encode (T : Transparent enc sym plain) {q : β → Bool} {r : α → Bool}
    (same : ∀ b, plain b → r (sym b) = q b) (stays : ∀ b, ¬plain b → q b = false)
    (stays' : ∀ a, (∀ b, plain b → a ≠ sym b) → r a = false) :
    (x.flatMap enc).rdropWhile q = (x.rdropWhile r).flatMap enc := by
  induction x using List.reverseRecOn with
  | nil => rfl
  | append_singleton x a ih =>
    rw [List.flatMap_append, List.flatMap_singleton, List.rdropWhile_concat]
    obtain ⟨b, hb, rfl⟩ | ⟨hne, hforeign⟩ := T.foreign a
    · rw [T.alone b hb, List.rdropWhile_concat, same b hb]
      split
      · exact ih
      · rw [List.flatMap_append, List.flatMap_singleton, T.alone b hb]
    · obtain ⟨rest, c, hc⟩ := List.eq_nil_or_concat' (enc a) |>.resolve_left hne
      have hq : q c = false := stays c (hforeign c (hc ▸ by simp))
      rw [stays' a fun b hb => (T.sym_ne hb hforeign).symm, hc, ← List.append_assoc,
        List.rdropWhile_concat, hq]
      simp only [Bool.false_eq_true, if_false]
      rw [List.flatMap_append, List.flatMap_singleton, hc, List.append_assoc]

end Transparent

end CrossTransfer.Library
