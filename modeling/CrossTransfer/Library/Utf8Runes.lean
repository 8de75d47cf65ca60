import Mathlib.Data.List.Basic

/-! # UTF-8 as a sequence of code points

Bytes are read one code point at a time. Where no code point is encoded, the lenient reader takes one
byte for U+FFFD and goes on with the next one (`runes`), and the strict reader fails (`runes?`); they
agree on encoded texts, and on those only.
-/

namespace CrossTransfer.Library

namespace Utf8

def encode (cs : List Char) : List UInt8 := cs.flatMap String.utf8EncodeChar

/-- The code point that the bytes start with. -/
def firstRune (bytes : List UInt8) : Option Char := bytes.toByteArray.utf8DecodeChar? 0

@[simp] theorem encode_nil : encode [] = [] := rfl

@[simp] theorem encode_cons (c : Char) (cs : List Char) :
    encode (c :: cs) = String.utf8EncodeChar c ++ encode cs := rfl

@[simp] theorem encode_append (cs ds : List Char) : encode (cs ++ ds) = encode cs ++ encode ds :=
  List.flatMap_append

theorem firstRune_encode (c : Char) (rest : List UInt8) :
    firstRune (String.utf8EncodeChar c ++ rest) = some c := by
  rw [firstRune, List.toByteArray_append]
  exact ByteArray.utf8DecodeChar?_utf8EncodeChar_append

theorem utf8EncodeChar_ne_nil (c : Char) : String.utf8EncodeChar c ≠ [] := by
  have hlength := String.length_utf8EncodeChar c
  have hpos := Char.utf8Size_pos c
  intro hnil
  rw [hnil] at hlength
  simp at hlength
  omega

/-- `[]rune(s)` and the loop of a decoder: what is no code point is one U+FFFD a byte. -/
def runes : List UInt8 → List Char
  | [] => []
  | byte :: rest =>
    match firstRune (byte :: rest) with
    | some c => c :: runes (rest.drop (c.utf8Size - 1))
    | none => '\uFFFD' :: runes rest
termination_by bytes => bytes.length
decreasing_by all_goals (simp only [List.length_drop, List.length_cons]; omega)

/-- The code points of a valid string; `none` if it is not valid. -/
def runes? : List UInt8 → Option (List Char)
  | [] => some []
  | byte :: rest =>
    match firstRune (byte :: rest) with
    | some c => (runes? (rest.drop (c.utf8Size - 1))).map (c :: ·)
    | none => none
termination_by bytes => bytes.length
decreasing_by (simp only [List.length_drop, List.length_cons]; omega)

/-! ## Encoded texts -/

/-- What an encoded code point leaves when it has been read. -/
theorem encode_cases (c : Char) (rest : List UInt8) :
    ∃ byte tail, String.utf8EncodeChar c ++ rest = byte :: tail ∧
      tail.drop (c.utf8Size - 1) = rest := by
  have hlength := String.length_utf8EncodeChar c
  cases hbytes : String.utf8EncodeChar c with
  | nil => exact absurd hbytes (utf8EncodeChar_ne_nil c)
  | cons byte bytes =>
    rw [hbytes, List.length_cons] at hlength
    refine ⟨byte, bytes ++ rest, rfl, ?_⟩
    rw [← hlength, Nat.add_sub_cancel, List.drop_left]

theorem runes_append (c : Char) (rest : List UInt8) :
    runes (String.utf8EncodeChar c ++ rest) = c :: runes rest := by
  have hfirst := firstRune_encode c rest
  obtain ⟨byte, tail, hbytes, htail⟩ := encode_cases c rest
  rw [hbytes] at hfirst ⊢
  rw [runes, hfirst]
  simp [htail]

theorem runes?_append (c : Char) (rest : List UInt8) :
    runes? (String.utf8EncodeChar c ++ rest) = (runes? rest).map (c :: ·) := by
  have hfirst := firstRune_encode c rest
  obtain ⟨byte, tail, hbytes, htail⟩ := encode_cases c rest
  rw [hbytes] at hfirst ⊢
  rw [runes?, hfirst]
  simp [htail]

@[simp] theorem runes_encode (cs : List Char) : runes (encode cs) = cs := by
  induction cs with
  | nil => rw [encode_nil, runes]
  | cons c cs ih => rw [encode_cons, runes_append, ih]

@[simp] theorem runes?_encode (cs : List Char) : runes? (encode cs) = some cs := by
  induction cs with
  | nil => rw [encode_nil, runes?]
  | cons c cs ih => rw [encode_cons, runes?_append, ih, Option.map_some]

end Utf8

end CrossTransfer.Library
