import Mathlib.Data.List.TakeWhile
import Mathlib.Tactic
import CrossTransfer.Library.JsonScanner

/-! # Printed JSON reads back

Documents are printed on one line or indented, and with the characters escaped that Go's
`encoding/json` escapes. The scanner reads such a text back as the document it was printed from
(`read_print`), if the document is not nested too deeply.
-/

namespace CrossTransfer.Library

namespace Json

/-! ## Printing -/

/-- The blanks of a printed document. -/
structure Layout where
  /-- In front of what stands at this depth. -/
  newline : Nat → List Char
  afterColon : List Char
  newline_blank : ∀ depth, ∀ c ∈ newline depth, isBlank c = true
  afterColon_blank : ∀ c ∈ afterColon, isBlank c = true

def Layout.compact : Layout where
  newline := fun _ => []
  afterColon := []
  newline_blank := by simp
  afterColon_blank := by simp

/-- Two spaces for each open array and object. -/
def Layout.indented : Layout where
  newline := fun depth => '\n' :: List.replicate (2 * depth) ' '
  afterColon := [' ']
  newline_blank := by
    intro depth c hc
    obtain rfl | hc := List.mem_cons.mp hc
    · rfl
    · rw [List.eq_of_mem_replicate hc]
      rfl
  afterColon_blank := by simp [isBlank]

/-- A hexadecimal digit in lower case. -/
def hexChar (n : Nat) : Char := Nat.digitChar n

/-- `\u` and four hexadecimal digits. -/
def unitEscape (n : Nat) : List Char :=
  ['\\', 'u', hexChar (n / 0x1000 % 16), hexChar (n / 0x100 % 16), hexChar (n / 16 % 16), hexChar (n % 16)]

/-- A character inside quotes. -/
def escape (c : Char) : List Char :=
  if c = '"' then ['\\', '"']
  else if c = '\\' then ['\\', '\\']
  else if c = '\x08' then ['\\', 'b']
  else if c = '\x0C' then ['\\', 'f']
  else if c = '\n' then ['\\', 'n']
  else if c = '\r' then ['\\', 'r']
  else if c = '\t' then ['\\', 't']
  else if c.toNat < 0x20 ∨ c = '<' ∨ c = '>' ∨ c = '&' ∨ c.toNat = 0x2028 ∨ c.toNat = 0x2029 then
    unitEscape c.toNat
  else [c]

def quote (cs : List Char) : List Char := '"' :: cs.flatMap escape ++ ['"']

mutual

/-- The text of a document at this depth. -/
def print (l : Layout) (depth : Nat) : Value → List Char
  | .null => "null".toList
  | .bool true => "true".toList
  | .bool false => "false".toList
  | .number n => n.val
  | .str s => quote s
  | .arr [] => ['[', ']']
  | .arr (v :: vs) =>
    '[' :: l.newline (depth + 1) ++ print l (depth + 1) v ++ printItems l depth vs
  | .obj [] => ['{', '}']
  | .obj ((key, v) :: ms) =>
    '{' :: l.newline (depth + 1) ++ quote key ++ ':' :: l.afterColon ++ print l (depth + 1) v ++
      printMembers l depth ms

/-- What follows the first items of an array. -/
def printItems (l : Layout) (depth : Nat) : List Value → List Char
  | [] => l.newline depth ++ [']']
  | v :: vs => ',' :: l.newline (depth + 1) ++ print l (depth + 1) v ++ printItems l depth vs

/-- What follows the first members of an object. -/
def printMembers (l : Layout) (depth : Nat) : List (List Char × Value) → List Char
  | [] => l.newline depth ++ ['}']
  | (key, v) :: ms =>
    ',' :: l.newline (depth + 1) ++ quote key ++ ':' :: l.afterColon ++ print l (depth + 1) v ++
      printMembers l depth ms

end

mutual

/-- How deeply arrays and objects are nested. -/
def Value.depth : Value → Nat
  | .arr items => itemsDepth items + 1
  | .obj members => membersDepth members + 1
  | _ => 0

def itemsDepth : List Value → Nat
  | [] => 0
  | v :: vs => max v.depth (itemsDepth vs)

def membersDepth : List (List Char × Value) → Nat
  | [] => 0
  | (_, v) :: ms => max v.depth (membersDepth ms)

end

/-! ## Strings -/

/-- A piece that stands for the character. -/
def Stands (c : Char) (p : Piece) : Prop := p = .char c ∨ p = .unit c.toNat

theorem not_surrogate (c : Char) :
    isHighSurrogate c.toNat = false ∧ isLowSurrogate c.toNat = false := by
  have hvalid : c.toNat < 0xD800 ∨ 0xDFFF < c.toNat ∧ c.toNat < 0x110000 := c.valid
  simp only [isHighSurrogate, isLowSurrogate, Bool.and_eq_false_iff, decide_eq_false_iff_not]
  omega

@[simp] theorem unitChar_toNat (c : Char) : unitChar c.toNat = c := by
  simp [unitChar, not_surrogate]

theorem joinPieces_stands {cs : List Char} {ps : List Piece} (h : List.Forall₂ Stands cs ps) :
    joinPieces ps = cs := by
  induction h with
  | nil => rfl
  | @cons c p cs ps hp hps ih =>
    obtain rfl | rfl := hp
    · rw [joinPieces, ih]
    · -- A character is not a surrogate, so that it makes no pair with the next unit.
      cases hps with
      | nil => simp [joinPieces]
      | @cons d q ds qs hq hqs =>
        obtain rfl | rfl := hq
        · simp [joinPieces, ← ih]
        · rw [joinPieces, (not_surrogate c).1, Bool.false_and, if_neg Bool.false_ne_true,
            unitChar_toNat, ih]

theorem hexDigit_hexChar : ∀ n < 16, hexDigit (hexChar n) = some n := by decide

namespace Scanner

variable {stack : List Frame} {role : Role} {pieces : List Piece}

theorem feed_cons (s : Scanner) (c : Char) (cs : List Char) :
    s.feed (c :: cs) = (s.step c).bind fun s => s.feed cs := rfl

@[simp] theorem feed_nil (s : Scanner) : s.feed [] = some s := rfl

theorem feed_append (s : Scanner) (cs ds : List Char) :
    s.feed (cs ++ ds) = (s.feed cs).bind fun s => s.feed ds :=
  List.foldlM_append

/-- Four hexadecimal digits are a code unit. -/
theorem feed_unitEscape {n : Nat} (hn : n < 0x10000) :
    feed ⟨stack, .text role pieces .none⟩ (unitEscape n) =
      some ⟨stack, .text role (pieces ++ [.unit n]) .none⟩ := by
  have hdigit : ∀ m, hexDigit (hexChar (m % 16)) = some (m % 16) :=
    fun m => hexDigit_hexChar _ (Nat.mod_lt _ (by decide))
  have hvalue : 16 * (16 * (16 * (n / 0x1000 % 16) + n / 0x100 % 16) + n / 16 % 16) + n % 16 = n := by
    omega
  simp [unitEscape, feed_cons, step, stepText, hdigit, hvalue]

theorem feed_escape (stack : List Frame) (role : Role) (pieces : List Piece) (c : Char) :
    ∃ p, Stands c p ∧ feed ⟨stack, .text role pieces .none⟩ (escape c) =
      some ⟨stack, .text role (pieces ++ [p]) .none⟩ := by
  unfold escape
  split_ifs with hquote hslash hb hf hn hr ht hunit
  case pos => subst c; exact ⟨.char '"', .inl rfl, rfl⟩
  case pos => subst c; exact ⟨.char '\\', .inl rfl, rfl⟩
  case pos => subst c; exact ⟨.char '\x08', .inl rfl, rfl⟩
  case pos => subst c; exact ⟨.char '\x0C', .inl rfl, rfl⟩
  case pos => subst c; exact ⟨.char '\n', .inl rfl, rfl⟩
  case pos => subst c; exact ⟨.char '\r', .inl rfl, rfl⟩
  case pos => subst c; exact ⟨.char '\t', .inl rfl, rfl⟩
  case pos =>
    have hsmall : c.toNat < 0x10000 := by
      obtain h | rfl | rfl | rfl | h | h := hunit
      · omega
      · decide
      · decide
      · decide
      · omega
      · omega
    exact ⟨.unit c.toNat, .inr rfl, feed_unitEscape hsmall⟩
  case neg =>
    have hprinted : ¬c.toNat < 0x20 := fun h => hunit (.inl h)
    exact ⟨.char c, .inl rfl, by simp [feed_cons, step, stepText, hquote, hslash, hprinted]⟩

/-- A string up to its closing quote. -/
theorem feed_escapes (stack : List Frame) (role : Role) (pieces : List Piece) (cs : List Char) :
    ∃ ps, List.Forall₂ Stands cs ps ∧ feed ⟨stack, .text role pieces .none⟩ (cs.flatMap escape) =
      some ⟨stack, .text role (pieces ++ ps) .none⟩ := by
  induction cs generalizing pieces with
  | nil => exact ⟨[], .nil, by simp⟩
  | cons c cs ih =>
    obtain ⟨p, hp, hfirst⟩ := feed_escape stack role pieces c
    obtain ⟨ps, hps, hrest⟩ := ih (pieces ++ [p])
    refine ⟨p :: ps, .cons hp hps, ?_⟩
    rw [List.flatMap_cons, feed_append, hfirst, Option.bind_some, hrest]
    simp

/-- A string after its opening quote. -/
theorem feed_quoted (cs : List Char) (rest : List Char) :
    feed ⟨stack, .text role [] .none⟩ (cs.flatMap escape ++ '"' :: rest) =
      (match role with
        | .value => feed ⟨stack, .done (.str cs)⟩ rest
        | .key before => feed ⟨stack, .colon before cs⟩ rest) := by
  obtain ⟨ps, hps, hfeed⟩ := feed_escapes stack role [] cs
  rw [feed_append, hfeed, Option.bind_some, feed_cons]
  have hjoin := joinPieces_stands hps
  cases role <;> simp [step, stepText, closeText, hjoin]

/-! ## Blanks and delimiters -/

theorem isWordChar_of_isBlank {c : Char} (h : isBlank c = true) : isWordChar c = false := by
  simp only [isBlank, Bool.or_eq_true, beq_iff_eq] at h
  obtain ((rfl | rfl) | rfl) | rfl := h <;> rfl

/-- Nothing is being read. -/
def Between (s : Scanner) : Prop :=
  match s.phase with
  | .text .. => False
  | .word _ => False
  | _ => True

theorem between_value (stack : List Frame) : Between ⟨stack, .value⟩ := trivial

theorem between_key (stack : List Frame) (before : List (List Char × Value)) :
    Between ⟨stack, .key before⟩ := trivial

theorem step_between {s : Scanner} (h : s.Between) (c : Char) : s.step c = s.stepOutside c := by
  obtain ⟨stack, phase⟩ := s
  cases phase <;> first | rfl | exact h.elim

/-- Blanks between what is read. -/
theorem feed_blanks {s : Scanner} (h : s.Between) {blanks : List Char}
    (hblank : ∀ c ∈ blanks, isBlank c = true) (rest : List Char) :
    s.feed (blanks ++ rest) = s.feed rest := by
  induction blanks with
  | nil => rfl
  | cons c cs ih =>
    rw [List.forall_mem_cons] at hblank
    rw [List.cons_append, feed_cons, step_between h, stepOutside, if_pos hblank.1, Option.bind_some,
      ih hblank.2]

/-- A value that has been read up to a character that does not belong to it. -/
theorem feed_settled {s t : Scanner} {v : Value} (h : s.settle = some t) (ht : t.phase = .done v)
    {c : Char} (hc : isWordChar c = false) (rest : List Char) :
    s.feed (c :: rest) = t.feed (c :: rest) := by
  have hstep : s.step c = t.step c := by
    have hbetween : t.Between := by simp [Between, ht]
    rw [step_between hbetween]
    obtain ⟨stack, phase⟩ := s
    cases phase with
    | word cs => simp [step, hc, h]
    | text role pieces escape =>
      cases h
      cases ht
    | value => cases h; rfl
    | key before => cases h; rfl
    | colon before key => cases h; rfl
    | done w => cases h; rfl
  rw [feed_cons, feed_cons, hstep]

/-- The same with blanks in front of that character. -/
theorem feed_settled_blanks {s t : Scanner} {v : Value} (h : s.settle = some t)
    (ht : t.phase = .done v) {blanks : List Char} (hblank : ∀ c ∈ blanks, isBlank c = true) {c : Char}
    (hc : isWordChar c = false) (rest : List Char) :
    s.feed (blanks ++ c :: rest) = t.feed (c :: rest) := by
  have hbetween : t.Between := by simp [Between, ht]
  rw [← feed_blanks hbetween hblank]
  cases blanks with
  | nil => exact feed_settled h ht hc rest
  | cons b bs => exact feed_settled h ht (isWordChar_of_isBlank (hblank b List.mem_cons_self)) _

/-! ## Words -/

theorem feed_wordChars {cs ds : List Char} (h : ds.all isWordChar = true) :
    feed ⟨stack, .word cs⟩ ds = some ⟨stack, .word (cs ++ ds)⟩ := by
  induction ds generalizing cs with
  | nil => simp
  | cons d ds ih =>
    rw [List.all_cons, Bool.and_eq_true] at h
    simp [feed_cons, step, h.1, ih h.2]

/-- A number or a name. -/
theorem feed_word {cs : List Char} (h : cs.all isWordChar = true) (hcs : cs ≠ []) :
    feed ⟨stack, .value⟩ cs = some ⟨stack, .word cs⟩ := by
  obtain ⟨c, cs, rfl⟩ := List.exists_cons_of_ne_nil hcs
  rw [List.all_cons, Bool.and_eq_true] at h
  have hblank : isBlank c = false := by
    by_contra hblank
    rw [isWordChar_of_isBlank (by simpa using hblank)] at h
    cases h.1
  have hother : ∀ d, isWordChar d = false → c ≠ d := by
    rintro d hd rfl
    rw [hd] at h
    cases h.1
  have hstep : step ⟨stack, .value⟩ c = some ⟨stack, .word [c]⟩ := by
    simp [step, stepOutside, hblank, stepValue, h.1, hother '"' rfl, hother '[' rfl, hother '{' rfl,
      hother ']' rfl]
  rw [feed_cons, hstep, Option.bind_some, feed_wordChars h.2, List.singleton_append]

theorem wordValue_number (n : Number) : wordValue n.val = some (.number n) := by
  have hne : ∀ cs, isNumber cs = false → n.val ≠ cs := by
    intro cs hcs heq
    have hn := n.property
    rw [heq, hcs] at hn
    cases hn
  rw [wordValue, if_neg (hne _ (by decide)), if_neg (hne _ (by decide)), if_neg (hne _ (by decide)),
    dif_pos n.property]

theorem Number.all_isWordChar (n : Number) : n.val.all isWordChar = true :=
  (Bool.and_eq_true_iff.mp n.property).1

theorem Number.ne_nil (n : Number) : n.val ≠ [] := by
  intro hnil
  have hn := n.property
  rw [hnil] at hn
  cases hn

/-! ## Brackets -/

theorem step_openItems (h : stack.length < maxDepth) :
    step ⟨stack, .value⟩ '[' = some ⟨.items [] :: stack, .value⟩ := by
  simp [step, stepOutside, isBlank, stepValue, h]

theorem step_openMembers (h : stack.length < maxDepth) :
    step ⟨stack, .value⟩ '{' = some ⟨stack, .key []⟩ := by
  simp [step, stepOutside, isBlank, stepValue, h]

/-- A key and its colon. -/
theorem feed_key (before : List (List Char × Value)) (key rest : List Char) :
    feed ⟨stack, .key before⟩ (quote key ++ ':' :: rest) =
      feed ⟨.member before key :: stack, .value⟩ rest := by
  have hquote : step ⟨stack, .key before⟩ '"' = some ⟨stack, .text (.key before) [] .none⟩ := rfl
  have hcolon : step ⟨stack, .colon before key⟩ ':' = some ⟨.member before key :: stack, .value⟩ := rfl
  rw [quote, List.cons_append, List.cons_append, feed_cons, hquote, Option.bind_some,
    List.append_assoc, List.singleton_append, feed_quoted]
  exact (feed_cons ..).trans (by rw [hcolon, Option.bind_some])

end Scanner

/-! ## Documents -/

section Documents

open Scanner

variable (l : Layout)

/-- What has been fed is the value, once it is known to have ended. -/
def Fed (s : Option Scanner) (stack : List Frame) (v : Value) : Prop :=
  s.bind settle = some ⟨stack, .done v⟩

theorem fed_word (cs : List Char) (stack : List Frame) {v : Value} (h : cs.all isWordChar = true)
    (hcs : cs ≠ []) (hv : wordValue cs = some v) : Fed (feed ⟨stack, .value⟩ cs) stack v := by
  rw [Fed, feed_word h hcs]
  simp [settle, hv]

theorem Fed.exists {s : Option Scanner} {stack : List Frame} {v : Value} (h : Fed s stack v) :
    ∃ t, s = some t ∧ t.settle = some ⟨stack, .done v⟩ := Option.bind_eq_some_iff.mp h

mutual

theorem fed_print : ∀ (v : Value) (depth : Nat) (stack : List Frame),
    stack.length + v.depth ≤ maxDepth →
      Fed (feed ⟨stack, .value⟩ (print l depth v)) stack v
  | .null, _, stack, _ => fed_word "null".toList stack (by decide) (by decide) rfl
  | .bool true, _, stack, _ => fed_word "true".toList stack (by decide) (by decide) rfl
  | .bool false, _, stack, _ => fed_word "false".toList stack (by decide) (by decide) rfl
  | .number n, _, stack, _ =>
    fed_word n.val stack (Number.all_isWordChar n) (Number.ne_nil n) (wordValue_number n)
  | .str s, _, stack, _ => by
    have hquote : step ⟨stack, .value⟩ '"' = some ⟨stack, .text .value [] .none⟩ := rfl
    rw [print, quote, List.cons_append, feed_cons, hquote, Option.bind_some, feed_quoted]
    rfl
  | .arr [], _, stack, h => by
    rw [print, feed_cons, step_openItems h]
    rfl
  | .arr (v :: vs), depth, stack, h => by
    rw [Value.depth, itemsDepth] at h
    obtain ⟨s, hs, hsettle⟩ := (fed_print v (depth + 1) (.items [] :: stack)
      (by rw [List.length_cons]; omega)).exists
    rw [print, List.append_assoc, List.cons_append, feed_cons, step_openItems (by omega),
      Option.bind_some, feed_blanks (between_value _) (l.newline_blank _), feed_append, hs, Option.bind_some]
    exact fed_printItems vs depth stack [] v s (by omega) hsettle
  | .obj [], _, stack, h => by
    rw [print, feed_cons, step_openMembers h]
    rfl
  | .obj ((key, v) :: ms), depth, stack, h => by
    rw [Value.depth, membersDepth] at h
    obtain ⟨s, hs, hsettle⟩ := (fed_print v (depth + 1) (.member [] key :: stack)
      (by rw [List.length_cons]; omega)).exists
    simp only [print, List.append_assoc, List.cons_append]
    rw [feed_cons, step_openMembers (by omega), Option.bind_some,
      feed_blanks (between_key _ _) (l.newline_blank _), feed_key, feed_blanks (between_value _) l.afterColon_blank,
      feed_append, hs, Option.bind_some]
    exact fed_printMembers ms depth stack [] key v s (by omega) hsettle

theorem fed_printItems : ∀ (vs : List Value) (depth : Nat) (stack : List Frame)
    (before : List Value) (v : Value) (s : Scanner),
    stack.length + 1 + itemsDepth vs ≤ maxDepth →
      s.settle = some ⟨.items before :: stack, .done v⟩ →
        Fed (s.feed (printItems l depth vs)) stack (.arr (before ++ v :: vs))
  | [], depth, stack, before, v, s, _, hs => by
    rw [printItems, feed_settled_blanks hs rfl (l.newline_blank _) (by rfl)]
    rfl
  | w :: vs, depth, stack, before, v, s, h, hs => by
    rw [itemsDepth] at h
    have hcomma : step ⟨.items before :: stack, .done v⟩ ',' =
        some ⟨.items (before ++ [v]) :: stack, .value⟩ := rfl
    obtain ⟨t, ht, hsettle⟩ := (fed_print w (depth + 1) (.items (before ++ [v]) :: stack)
      (by rw [List.length_cons]; omega)).exists
    have hrest := fed_printItems vs depth stack (before ++ [v]) w t (by omega) hsettle
    simp only [printItems, List.append_assoc, List.cons_append]
    rw [feed_settled hs rfl (by rfl), feed_cons, hcomma, Option.bind_some,
      feed_blanks (between_value _) (l.newline_blank _), feed_append, ht, Option.bind_some]
    simpa using hrest

theorem fed_printMembers : ∀ (ms : List (List Char × Value)) (depth : Nat) (stack : List Frame)
    (before : List (List Char × Value)) (key : List Char) (v : Value) (s : Scanner),
    stack.length + 1 + membersDepth ms ≤ maxDepth →
      s.settle = some ⟨.member before key :: stack, .done v⟩ →
        Fed (s.feed (printMembers l depth ms)) stack (.obj (before ++ (key, v) :: ms))
  | [], depth, stack, before, key, v, s, _, hs => by
    rw [printMembers, feed_settled_blanks hs rfl (l.newline_blank _) (by rfl)]
    rfl
  | (key', w) :: ms, depth, stack, before, key, v, s, h, hs => by
    rw [membersDepth] at h
    have hcomma : step ⟨.member before key :: stack, .done v⟩ ',' =
        some ⟨stack, .key (before ++ [(key, v)])⟩ := rfl
    obtain ⟨t, ht, hsettle⟩ := (fed_print w (depth + 1) (.member (before ++ [(key, v)]) key' :: stack)
      (by rw [List.length_cons]; omega)).exists
    have hrest := fed_printMembers ms depth stack (before ++ [(key, v)]) key' w t (by omega) hsettle
    simp only [printMembers, List.append_assoc, List.cons_append]
    rw [feed_settled hs rfl (by rfl), feed_cons, hcomma, Option.bind_some,
      feed_blanks (between_key _ _) (l.newline_blank _), feed_key, feed_blanks (between_value _) l.afterColon_blank,
      feed_append, ht, Option.bind_some]
    simpa using hrest

end

/-- A printed document is read. -/
theorem read_print {v : Value} (h : v.depth ≤ maxDepth) : read (print l 0 v) = some v := by
  have hfed : Fed (feed {} (print l 0 v)) [] v := fed_print l v 0 [] (by simpa using h)
  rw [read, hfed]
  rfl

end Documents

/-! ## Integers -/

/-- The digits of a positive number have no leading zero. -/
theorem toDigits_eq_cons {n : Nat} (hn : 0 < n) :
    ∃ c cs, Nat.toDigits 10 n = c :: cs ∧ c ≠ '0' := by
  induction n using Nat.strongRecOn with
  | ind n ih =>
    by_cases hsmall : n < 10
    · refine ⟨n.digitChar, [], Nat.toDigits_of_lt_base hsmall, ?_⟩
      interval_cases n <;> decide
    · obtain ⟨c, cs, hcs, hc⟩ := ih (n / 10) (by omega) (by omega)
      rw [Nat.toDigits_of_base_le (by decide) (by omega), hcs]
      exact ⟨c, _, rfl, hc⟩

theorem toDigits_isDigit {n : Nat} : ∀ c ∈ Nat.toDigits 10 n, c.isDigit = true :=
  fun _ hc => Nat.isDigit_of_mem_toDigits (by decide) (by decide) hc

theorem isWordChar_of_isDigit {c : Char} (h : c.isDigit = true) : isWordChar c = true := by
  simp [isWordChar, Char.isAlphanum, h]

theorem afterInteger_toDigits (n : Nat) : afterInteger (Nat.toDigits 10 n) = some [] := by
  obtain rfl | hn := Nat.eq_zero_or_pos n
  · rfl
  · have hdigits := toDigits_isDigit (n := n)
    obtain ⟨c, cs, hcs, hc⟩ := toDigits_eq_cons hn
    rw [hcs, List.forall_mem_cons] at hdigits
    rw [hcs]
    unfold afterInteger
    split
    · exact absurd (List.cons.inj ‹_›).1 hc
    · rename_i heq
      cases heq
      rw [if_pos hdigits.1, afterDigits, List.dropWhile_eq_nil_iff.mpr hdigits.2]
    · rename_i heq
      cases heq

/-- `strconv.AppendInt` in base 10. -/
def decimal : Int → List Char
  | .ofNat n => Nat.toDigits 10 n
  | .negSucc n => '-' :: Nat.toDigits 10 (n + 1)

theorem dropMinus_toDigits (n : Nat) : dropMinus (Nat.toDigits 10 n) = Nat.toDigits 10 n := by
  have hdigits := toDigits_isDigit (n := n)
  unfold dropMinus
  split
  · rename_i heq
    rw [heq, List.forall_mem_cons] at hdigits
    exact absurd hdigits.1 (by decide)
  · rfl

theorem isNumber_decimal (n : Int) : isNumber (decimal n) = true := by
  have hword : ∀ m, (Nat.toDigits 10 m).all isWordChar = true := fun m =>
    List.all_eq_true.mpr fun c hc => isWordChar_of_isDigit (toDigits_isDigit c hc)
  cases n with
  | ofNat n => simp [isNumber, decimal, hword, dropMinus_toDigits, afterInteger_toDigits, afterFraction,
      afterExponent]
  | negSucc n => simp [isNumber, decimal, hword, dropMinus, afterInteger_toDigits, afterFraction,
      afterExponent, isWordChar]

def Number.ofInt (n : Int) : Number := ⟨decimal n, isNumber_decimal n⟩

/-- The value of some digits. -/
def digitsValue (cs : List Char) : Option Nat :=
  if cs ≠ [] ∧ cs.all Char.isDigit = true then some (Nat.ofDigitChars 10 cs 0) else none

/-- `strconv.ParseInt` in base 10 with 64 bits. -/
def Number.toInt64 (n : Number) : Option Int :=
  let value :=
    match n.val with
    | '-' :: cs => (digitsValue cs).map fun m => -(m : Int)
    | cs => (digitsValue cs).map fun m => (m : Int)
  value.filter fun k => -2 ^ 63 ≤ k && k < 2 ^ 63

theorem digitsValue_toDigits (n : Nat) : digitsValue (Nat.toDigits 10 n) = some n := by
  have hall : (Nat.toDigits 10 n).all Char.isDigit = true := List.all_eq_true.mpr toDigits_isDigit
  rw [digitsValue, if_pos ⟨Nat.toDigits_ne_nil, hall⟩, Nat.ofDigitChars_ten_toDigits]

/-- A 64-bit integer is read back. -/
theorem toInt64_ofInt {n : Int} (h : -2 ^ 63 ≤ n ∧ n < 2 ^ 63) :
    (Number.ofInt n).toInt64 = some n := by
  have hrange : (decide (-2 ^ 63 ≤ n) && decide (n < 2 ^ 63)) = true := by simpa using h
  cases n with
  | negSucc n =>
    have hvalue : (digitsValue (Nat.toDigits 10 (n + 1))).map (fun m => -(m : Int)) =
        some (Int.negSucc n) := by
      rw [digitsValue_toDigits]
      rfl
    simp only [Number.toInt64, Number.ofInt, decimal, hvalue, Option.filter_some, hrange, if_true]
  | ofNat n =>
    have hdigits := toDigits_isDigit (n := n)
    have hvalue : (digitsValue (Nat.toDigits 10 n)).map (fun m => (m : Int)) = some (Int.ofNat n) := by
      rw [digitsValue_toDigits]
      rfl
    simp only [Number.toInt64, Number.ofInt, decimal]
    split
    · rename_i heq
      rw [heq, List.forall_mem_cons] at hdigits
      exact absurd hdigits.1 (by decide)
    · simp only [hvalue, Option.filter_some, hrange, if_true]

end Json

end CrossTransfer.Library
