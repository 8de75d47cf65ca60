import CrossTransfer.Library.TextSearch
import CrossTransfer.Transfer.PathSanitize

/-! # Take-codes

The spelling of take-codes and of links to them, from `take_code.cpp`.
-/

namespace CrossTransfer.Share

open CrossTransfer.Library
open CrossTransfer.Transfer

def kAlphabet : Bytes := ascii "0123456789ABCDEFGHJKMNPQRSTVWXYZ"

def kLength : Nat := 10

/-- `DecodeTable`: the symbol a character stands for. -/
def decodeSymbol (c : UInt8) : Option UInt8 :=
  if c = 79 then some 48  -- O
  else if c = 73 ∨ c = 76 then some 49  -- I, L
  else if kAlphabet.contains c then some c
  else none

/-- The loop of `Normalize`; `out` are the symbols so far. -/
def normalizeFrom (out : Bytes) : Bytes → Bytes
  | [] => if out.length = kLength then out else []
  | c :: rest =>
    if c = 45 ∨ c = 32 ∨ c = 9 ∨ c = 95 then normalizeFrom out rest
    else
      let upper := if 97 ≤ c ∧ c ≤ 122 then c - 32 else c
      match decodeSymbol upper with
      | none => []
      | some symbol => if kLength ≤ out.length then [] else normalizeFrom (out ++ [symbol]) rest

/-- The canonical spelling of a code; empty if it is not one. -/
def normalize (input : Bytes) : Bytes := normalizeFrom [] input

/-- `Format`. -/
def format (canonical : Bytes) : Bytes :=
  if canonical.length ≠ kLength then canonical else canonical.take 5 ++ [45] ++ canonical.drop 5

/-! ## Links -/

/-- `isspace` in the C locale. -/
def isSpace (c : UInt8) : Bool := decide (9 ≤ c ∧ c ≤ 13) || c == 32

/-- `Trim`. -/
def trim (s : Bytes) : Bytes := (s.dropWhile isSpace).rdropWhile isSpace

/-- `tolower` in the C locale. -/
def toLower (c : UInt8) : UInt8 := if 65 ≤ c ∧ c ≤ 90 then c + 32 else c

/-- `IEquals`. -/
def iEquals (a b : Bytes) : Bool := a.map toLower == b.map toLower

/-- `scheme_prefix`. -/
def schemePrefix : Bytes := ascii "crosstransfer:"

/-- The text behind the scheme of a link; `none` if the text is taken for a bare code. -/
def behindScheme (s : Bytes) : Option Bytes :=
  match after (ascii "://") s with
  | some rest => some rest
  | none =>
    if schemePrefix.length < s.length ∧ iEquals (s.take schemePrefix.length) schemePrefix then
      some (s.drop schemePrefix.length)
    else none

/-- The text behind `/r/`, or behind a leading `r/`. -/
def behindMarker (rest : Bytes) : Option Bytes :=
  match after (ascii "/r/") rest with
  | some code => some code
  | none =>
    match rest with
    | c :: slash :: code =>
      if (c = 114 ∨ c = 82) ∧ slash = 47 ∧ code ≠ [] then some code else none
    | _ => none

/-- What ends the code in a link: `?`, `#` or `/`. -/
def endsCode (c : UInt8) : Bool := c == 63 || c == 35 || c == 47

/-- The code of a bare code or of a link; empty if there is none. -/
def parseCodeOrLink (input : Bytes) : Bytes :=
  let s := trim input
  if s.isEmpty then []
  else
    match behindScheme s with
    | none => normalize s
    | some rest =>
      match behindMarker rest with
      | none => []
      | some code => normalize (code.takeWhile (!endsCode ·))

end CrossTransfer.Share
