import CrossTransfer.Share.TakeCode
import CrossTransfer.Transfer.Utf8

/-! # Take-codes in the app

`normalizeTakeCode` and `extractTakeCode` of `format.dart`. A Dart string is taken as its `runes`; a
lone surrogate is one of them. What the functions look for is ASCII, so it makes no difference that
`RegExp` and `startsWith` see UTF-16. Case mapping is a parameter of which the model knows what Unicode
says of ASCII (`CaseMapping`).
-/

namespace CrossTransfer.App

open CrossTransfer.Library
open CrossTransfer.Transfer

/-- A code point. -/
abbrev Rune := Fin 0x110000

abbrev Text := List Rune

/-- The code point of a byte. -/
def rune (b : UInt8) : Rune := ⟨b.toNat, b.toNat_lt.trans (by decide)⟩

/-- A text in ASCII. -/
def text (s : Bytes) : Text := s.map rune

/-- `utf8.encode` of a code point; a lone surrogate is written as U+FFFD. -/
def Rune.encode (c : Rune) : Bytes :=
  String.utf8EncodeChar (if c.val.isValidChar then Char.ofNat c.val else Char.ofNat 0xFFFD)

/-- The UTF-8 bytes of a string, as the core gets it. -/
def utf8 (s : Text) : Bytes := s.flatMap Rune.encode

/-- `toUpperCase` and `toLowerCase`, code point by code point. -/
structure CaseMapping where
  upper : Rune → Text
  lower : Rune → Text
  upper_ascii : ∀ b < 128, upper (rune b) = [rune (if 97 ≤ b ∧ b ≤ 122 then b - 32 else b)]
  lower_ascii : ∀ b < 128, lower (rune b) = [rune (if 65 ≤ b ∧ b ≤ 90 then b + 32 else b)]
  /-- Besides ASCII only `İ` and the Kelvin sign have a lower case that begins with ASCII. -/
  lower_foreign : ∀ c : Rune, 128 ≤ c.val →
    ∃ first rest, lower c = first :: rest ∧ (128 ≤ first.val ∨ first = rune 105 ∨ first = rune 107)

/-- What `trim` removes: white space and the byte order mark. -/
def isWhiteSpace (c : Rune) : Bool :=
  decide (9 ≤ c.val ∧ c.val ≤ 13) || decide (0x2000 ≤ c.val ∧ c.val ≤ 0x200A) ||
    [0x20, 0x85, 0xA0, 0x1680, 0x2028, 0x2029, 0x202F, 0x205F, 0x3000, 0xFEFF].contains c.val

/-- `trim`. -/
def trim (s : Text) : Text := (s.dropWhile isWhiteSpace).rdropWhile isWhiteSpace

def takeCodeAlphabet : Text := text (ascii "0123456789ABCDEFGHJKMNPQRSTVWXYZ")

/-- The characters that `normalizeTakeCode` skips. -/
def isSeparator (c : Rune) : Bool := c == rune 45 || c == rune 32 || c == rune 95 || c == rune 9

/-- The symbol of a confusable character. -/
def mapped (c : Rune) : Rune :=
  if c = rune 79 then rune 48  -- O
  else if c = rune 73 ∨ c = rune 76 then rune 49  -- I, L
  else c

/-- The loop of `normalizeTakeCode`, and the check of the length behind it. -/
def normalizeRunes (buf : Text) : Text → Option Text
  | [] => if buf.length = 10 then some buf else none
  | c :: rest =>
    if isSeparator c then normalizeRunes buf rest
    else if takeCodeAlphabet.contains (mapped c) then normalizeRunes (buf ++ [mapped c]) rest
    else none

def normalizeTakeCode (m : CaseMapping) (input : Text) : Option Text :=
  normalizeRunes [] ((trim input).flatMap m.upper)

/-- `[^/?#]`. -/
def inSegment (c : Rune) : Bool := !(c == rune 47 || c == rune 63 || c == rune 35)

/-- Group 1 of the first match of `/r/([^/?#]+)`. -/
def firstSegment : Text → Option Text
  | [] => none
  | c :: rest =>
    let segment := ((c :: rest).drop 3).takeWhile inSegment
    if (text (ascii "/r/")).isPrefixOf (c :: rest) && !segment.isEmpty then some segment
    else firstSegment rest

/-- Whether `extractTakeCode` takes the trimmed text for a link. -/
def isLink (m : CaseMapping) (s : Text) : Bool :=
  let lower := s.flatMap m.lower
  (text (ascii "http://")).isPrefixOf lower || (text (ascii "https://")).isPrefixOf lower ||
    (text (ascii "crosstransfer:")).isPrefixOf lower

def extractTakeCode (m : CaseMapping) (input : Text) : Option Text :=
  let s := trim input
  if s.isEmpty then none
  else if isLink m s then (firstSegment s).bind (normalizeTakeCode m)
  else normalizeTakeCode m s

end CrossTransfer.App
