import CrossTransfer.App.CoreReading

/-! # The spelling of a code

Both normalisations give the symbols that a text spells, if these are a code. They differ in what they
see in the text: the app trims it and maps it to upper case by Unicode, the core takes no character that
is not plain (`result_normalize`).
-/

namespace CrossTransfer.App

open CrossTransfer.Library
open CrossTransfer.Transfer
open CrossTransfer.Share (normalizeFrom decodeSymbol kLength)

/-- The symbols that a text in upper case stands for. -/
def symbols (x : Text) : Text := (x.filter (!isSeparator ·)).map mapped

/-- The symbols that the app sees in a text. -/
def symbolsOf (m : CaseMapping) (x : Text) : Text := symbols ((trim x).flatMap m.upper)

/-- The symbols of a text, trimmed and in upper case, are a code. -/
def Spells (m : CaseMapping) (x : Text) : Prop :=
  (symbolsOf m x).all takeCodeAlphabet.contains = true ∧ (symbolsOf m x).length = 10

instance (m : CaseMapping) (x : Text) : Decidable (Spells m x) := inferInstanceAs (Decidable (_ ∧ _))

/-- A text in ASCII without line ends, vertical tabs and form feeds. -/
def Plain (x : Text) : Prop := ∀ c ∈ x, c.val < 128 ∧ ¬(10 ≤ c.val ∧ c.val ≤ 13)

instance (x : Text) : Decidable (Plain x) := inferInstanceAs (Decidable (∀ c ∈ x, _))

/-! ## The app -/

theorem symbols_append (x y : Text) : symbols (x ++ y) = symbols x ++ symbols y := by
  rw [symbols, List.filter_append, List.map_append]
  rfl

theorem normalizeRunes_eq (buf x : Text) : normalizeRunes buf x =
    if (symbols x).all takeCodeAlphabet.contains = true ∧ (buf ++ symbols x).length = 10 then
      some (buf ++ symbols x)
    else none := by
  induction x generalizing buf with
  | nil =>
    rw [symbols, List.filter_nil, List.map_nil, List.append_nil, List.all_nil, normalizeRunes]
    exact if_congr (by rw [eq_self_iff_true, true_and]) rfl rfl
  | cons c x ih =>
    rw [normalizeRunes]
    by_cases hsep : isSeparator c = true
    · have hskip : symbols (c :: x) = symbols x := by
        rw [symbols, List.filter_cons_of_neg (by simp [hsep])]
        rfl
      rw [if_pos hsep, hskip, ih]
    · have hsymbol : symbols (c :: x) = mapped c :: symbols x := by
        rw [symbols, List.filter_cons_of_pos (by simp [hsep])]
        rfl
      have hall : (symbols (c :: x)).all takeCodeAlphabet.contains = true ↔
          takeCodeAlphabet.contains (mapped c) = true ∧ (symbols x).all takeCodeAlphabet.contains = true := by
        rw [hsymbol, List.all_cons, Bool.and_eq_true]
      rw [if_neg hsep]
      split
      · rename_i hin
        rw [ih, List.append_assoc, List.singleton_append, ← hsymbol]
        exact if_congr (and_congr_left' (hall.trans (and_iff_right hin)).symm) rfl rfl
      · rename_i hout
        exact (if_neg fun h => hout (hall.mp h.1).1).symm

theorem normalizeTakeCode_eq (m : CaseMapping) (x : Text) :
    normalizeTakeCode m x = if Spells m x then some (symbolsOf m x) else none := by
  rw [normalizeTakeCode, normalizeRunes_eq, List.nil_append]
  rfl

/-- The margins that `trim` removes do not matter. -/
theorem normalizeTakeCode_margins (m : CaseMapping) {pre x post : Text}
    (hpre : ∀ c ∈ pre, isWhiteSpace c = true) (hpost : ∀ c ∈ post, isWhiteSpace c = true) :
    normalizeTakeCode m (pre ++ x ++ post) = normalizeTakeCode m x := by
  have htrim : trim (pre ++ x ++ post) = trim x := strip_margins hpre hpost
  rw [normalizeTakeCode, htrim]
  rfl

/-- A character that stays and is neither a separator nor a symbol spoils the code. -/
theorem not_spells_of_colon (m : CaseMapping) {x : Text} (h : rune 58 ∈ x) : ¬Spells m x := by
  rintro ⟨hall, -⟩
  obtain ⟨pre, post, hx, hpre, hpost⟩ := exists_eq_strip isWhiteSpace x
  have hstays : rune 58 ∈ trim x := by
    rw [hx, List.append_assoc, List.mem_append, List.mem_append] at h
    obtain hmem | hmem | hmem := h
    · exact absurd (hpre _ hmem) (by decide)
    · exact hmem
    · exact absurd (hpost _ hmem) (by decide)
  have hupper : rune 58 ∈ (trim x).flatMap m.upper :=
    List.mem_flatMap.mpr ⟨rune 58, hstays, by rw [m.upper_ascii 58 (by decide)]; exact List.mem_singleton_self _⟩
  have hsymbol : mapped (rune 58) ∈ symbolsOf m x :=
    List.mem_map_of_mem (List.mem_filter.mpr ⟨hupper, by decide⟩)
  exact absurd (List.all_eq_true.mp hall _ hsymbol) (by decide)

/-! ## The core -/

/-- A returned code; the empty text is none. -/
def result (code : Bytes) : Option Text := if code.isEmpty then none else some (text code)

/-- `toUpperCase` of a byte. -/
def upperByte (b : UInt8) : UInt8 := if 97 ≤ b ∧ b ≤ 122 then b - 32 else b

theorem normalizeFrom_cons (out s : Bytes) (b : UInt8) : normalizeFrom out (b :: s) =
    if b = 45 ∨ b = 32 ∨ b = 9 ∨ b = 95 then normalizeFrom out s
    else match decodeSymbol (upperByte b) with
      | none => []
      | some symbol => if kLength ≤ out.length then [] else normalizeFrom (out ++ [symbol]) s := rfl

theorem isSeparator_upper (b : UInt8) :
    isSeparator (rune (upperByte b)) = true ↔ b = 45 ∨ b = 32 ∨ b = 9 ∨ b = 95 := by
  revert b
  apply Paths.forall_byte
  decide

theorem decodeSymbol_rune (b : UInt8) : (decodeSymbol b).map rune =
    if takeCodeAlphabet.contains (mapped (rune b)) = true then some (mapped (rune b)) else none := by
  revert b
  apply Paths.forall_byte
  decide

/-- A byte that no code is spelled with. -/
theorem stray_byte {b : UInt8} (h : ¬b < 128 ∨ 10 ≤ b ∧ b ≤ 13) :
    ¬(b = 45 ∨ b = 32 ∨ b = 9 ∨ b = 95) ∧ decodeSymbol (upperByte b) = none := by
  revert b
  apply Paths.forall_byte
  decide

theorem normalizeFrom_stray {b : UInt8} (h : ¬b < 128 ∨ 10 ≤ b ∧ b ≤ 13) {s : Bytes} (hmem : b ∈ s)
    (out : Bytes) : normalizeFrom out s = [] := by
  induction s generalizing out with
  | nil => cases hmem
  | cons c s ih =>
    rw [normalizeFrom_cons]
    obtain rfl | hmem := List.mem_cons.mp hmem
    · obtain ⟨hsep, hdecode⟩ := stray_byte h
      rw [if_neg hsep, hdecode]
    · split
      · exact ih hmem out
      · split
        · rfl
        · split
          · rfl
          · exact ih hmem _

/-- The loops go together on ASCII. -/
theorem normalizeFrom_ascii (m : CaseMapping) {s : Bytes} (h : ∀ b ∈ s, b < 128) {out : Bytes}
    (hout : out.length ≤ kLength) :
    result (normalizeFrom out s) = normalizeRunes (text out) ((text s).flatMap m.upper) := by
  induction s generalizing out with
  | nil =>
    have hnil : (text []).flatMap m.upper = [] := rfl
    have htext : (text out).length = out.length := List.length_map _
    rw [normalizeFrom, hnil, normalizeRunes, htext]
    by_cases hlength : out.length = kLength
    · have hne : out.isEmpty = false := by
        rw [List.isEmpty_eq_false_iff]
        rintro rfl
        cases hlength
      have hten : out.length = 10 := hlength
      rw [if_pos hlength, if_pos hten, result, hne]
      rfl
    · have hten : out.length ≠ 10 := hlength
      rw [if_neg hlength, if_neg hten]
      rfl
  | cons b s ih =>
    obtain ⟨hb, hs⟩ := List.forall_mem_cons.mp h
    have hupper : m.upper (rune b) = [rune (upperByte b)] := m.upper_ascii b hb
    have hcons : text (b :: s) = rune b :: text s := rfl
    rw [hcons, List.flatMap_cons, hupper, List.singleton_append, normalizeFrom_cons, normalizeRunes]
    by_cases hsep : b = 45 ∨ b = 32 ∨ b = 9 ∨ b = 95
    · rw [if_pos hsep, if_pos ((isSeparator_upper b).mpr hsep), ih hs hout]
    · rw [if_neg hsep, if_neg fun hrune => hsep ((isSeparator_upper b).mp hrune)]
      have hdecode := decodeSymbol_rune (upperByte b)
      cases hsymbol : decodeSymbol (upperByte b) with
      | none =>
        rw [hsymbol, Option.map_none] at hdecode
        split at hdecode
        · cases hdecode
        · rename_i hno
          rw [if_neg hno]
          rfl
      | some symbol =>
        rw [hsymbol, Option.map_some] at hdecode
        split at hdecode
        · rename_i hin
          rw [Option.some.injEq] at hdecode
          have hbuf : text out ++ [rune symbol] = text (out ++ [symbol]) := by
            rw [text, text, List.map_append]
            rfl
          rw [if_pos hin, ← hdecode, hbuf]
          dsimp only
          by_cases hfull : kLength ≤ out.length
          · -- An eleventh symbol: the app finds out at the end.
            have hlong : ¬(text (out ++ [symbol]) ++ symbols ((text s).flatMap m.upper)).length = 10 := by
              have hten : 10 ≤ out.length := hfull
              rw [List.length_append, text, List.length_map, List.length_append, List.length_singleton]
              omega
            rw [if_pos hfull, normalizeRunes_eq, if_neg fun h => hlong h.2]
            rfl
          · rw [if_neg hfull]
            apply ih hs
            rw [List.length_append, List.length_singleton]
            omega
        · cases hdecode

theorem utf8_text {s : Bytes} (h : ∀ b ∈ s, b < 128) : utf8 (text s) = s :=
  utf8_transparent.encode_map h

/-- A text whose characters are in ASCII is spelled with bytes. -/
theorem exists_text {x : Text} (h : ∀ c ∈ x, c.val < 128) : ∃ s, x = text s ∧ ∀ b ∈ s, b < 128 := by
  induction x with
  | nil => exact ⟨[], rfl, List.forall_mem_nil _⟩
  | cons c x ih =>
    obtain ⟨hc, hx⟩ := List.forall_mem_cons.mp h
    obtain ⟨s, rfl, hs⟩ := ih hx
    obtain ⟨b, hb, rfl⟩ | hhigh := rune_cases c
    · exact ⟨b :: s, rfl, List.forall_mem_cons.mpr ⟨hb, hs⟩⟩
    · exact absurd hc (Nat.not_lt.mpr hhigh)

theorem isSeparator_of_white {c : Rune} (hwhite : isWhiteSpace c = true) (hlow : c.val < 128)
    (hend : ¬(10 ≤ c.val ∧ c.val ≤ 13)) : c = rune 9 ∨ c = rune 32 := by
  simp only [isWhiteSpace, Bool.or_eq_true, decide_eq_true_eq, List.contains_iff_mem, List.mem_cons,
    List.not_mem_nil, or_false] at hwhite
  simp only [Fin.ext_iff, rune, UInt8.reduceToNat]
  omega

/-- In a plain text there is nothing to trim but separators. -/
theorem symbolsOf_plain (m : CaseMapping) {x : Text} (h : Plain x) :
    symbolsOf m x = symbols (x.flatMap m.upper) := by
  have margin {y : Text} (hy : ∀ c ∈ y, isWhiteSpace c = true) (hplain : Plain y) :
      symbols (y.flatMap m.upper) = [] := by
    induction y with
    | nil => rfl
    | cons c y ih =>
      obtain ⟨hc, hrest⟩ := List.forall_mem_cons.mp hy
      obtain ⟨⟨hlow, hend⟩, hplain⟩ := List.forall_mem_cons.mp hplain
      rw [List.flatMap_cons, symbols_append, ih hrest hplain, List.append_nil]
      obtain rfl | rfl := isSeparator_of_white hc hlow hend
      · rw [m.upper_ascii 9 (by decide)]
        decide
      · rw [m.upper_ascii 32 (by decide)]
        decide
  obtain ⟨pre, post, hx, hpre, hpost⟩ := exists_eq_strip isWhiteSpace x
  have hplain := h
  rw [hx, Plain, List.forall_mem_append, List.forall_mem_append] at hplain
  conv_rhs => rw [hx]
  rw [List.flatMap_append, List.flatMap_append, symbols_append, symbols_append, margin hpre hplain.1.1,
    margin hpost hplain.2, List.nil_append, List.append_nil]
  rfl

/-- The core takes what the app takes, if it is plain. -/
theorem result_normalize (m : CaseMapping) (x : Text) :
    result (Share.normalize (utf8 x)) = if Plain x ∧ Spells m x then some (symbolsOf m x) else none := by
  by_cases hplain : Plain x
  · obtain ⟨s, rfl, hs⟩ := exists_text fun c hc => (hplain c hc).1
    have hascii : result (normalizeFrom [] s) = normalizeRunes (text []) ((text s).flatMap m.upper) :=
      normalizeFrom_ascii m hs (Nat.zero_le _)
    have hnil : text [] ++ symbols ((text s).flatMap m.upper) = symbolsOf m (text s) := by
      rw [symbolsOf_plain m hplain]
      rfl
    rw [normalizeRunes_eq, hnil, ← symbolsOf_plain m hplain] at hascii
    rw [utf8_text hs]
    exact hascii.trans (if_congr (and_iff_right hplain).symm rfl rfl)
  · -- A character that is not plain is written with a byte that is no symbol.
    rw [if_neg fun h => hplain h.1]
    obtain ⟨c, hc, hbad⟩ : ∃ c ∈ x, ¬(c.val < 128 ∧ ¬(10 ≤ c.val ∧ c.val ≤ 13)) := by
      rw [Plain, Classical.not_forall] at hplain
      obtain ⟨c, hc⟩ := hplain
      exact ⟨c, Classical.not_imp.mp hc⟩
    obtain ⟨b, hb, hstray⟩ : ∃ b ∈ c.encode, ¬b < 128 ∨ 10 ≤ b ∧ b ≤ 13 := by
      obtain ⟨b, hb, rfl⟩ | hhigh := rune_cases c
      · refine ⟨b, by rw [encode_rune hb]; exact List.mem_singleton_self b, .inr ?_⟩
        simp only [UInt8.le_iff_toNat_le, UInt8.reduceToNat]
        have hlow := lt_128.mp hb
        have hval : (rune b).val = b.toNat := rfl
        omega
      · obtain ⟨hne, hforeign⟩ := encode_foreign hhigh
        obtain ⟨b, rest, hcode⟩ := List.exists_cons_of_ne_nil hne
        have hmem : b ∈ c.encode := hcode ▸ List.mem_cons_self
        exact ⟨b, hmem, .inl (hforeign b hmem)⟩
    have hmem : b ∈ utf8 x := List.mem_flatMap.mpr ⟨c, hc, hb⟩
    rw [Share.normalize, normalizeFrom_stray hstray hmem]
    rfl

end CrossTransfer.App
