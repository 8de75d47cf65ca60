import Mathlib.Data.List.Basic

/-! # A scanner for JSON

A push-down machine that reads a document one character at a time. On its stack are the arrays and
objects that are open, with what has been read of them; a number or a name ends at the first character
that cannot belong to it (`settle`).

Objects are lists of members, in the order of the text and with repeated keys: what a key means is left
to whoever reads the document.
-/

namespace CrossTransfer.Library

namespace Json

/-! ## Documents -/

/-- The characters of numbers and of the names `null`, `true` and `false`. -/
def isWordChar (c : Char) : Bool := c.isAlphanum || c == '+' || c == '-' || c == '.'

def isBlank (c : Char) : Bool := c == ' ' || c == '\t' || c == '\n' || c == '\r'

/-- What follows the digits at the front. -/
def afterDigits (cs : List Char) : List Char := cs.dropWhile Char.isDigit

/-- What follows an integer without leading zeros. -/
def afterInteger : List Char → Option (List Char)
  | '0' :: cs => some cs
  | c :: cs => if c.isDigit then some (afterDigits cs) else none
  | [] => none

def afterFraction : List Char → Option (List Char)
  | '.' :: c :: cs => if c.isDigit then some (afterDigits cs) else none
  | ['.'] => none
  | cs => some cs

def dropSign : List Char → List Char
  | '+' :: cs => cs
  | '-' :: cs => cs
  | cs => cs

def afterExponent : List Char → Option (List Char)
  | [] => some []
  | e :: cs =>
    if e = 'e' ∨ e = 'E' then
      match dropSign cs with
      | c :: cs => if c.isDigit then some (afterDigits cs) else none
      | [] => none
    else some (e :: cs)

/-- What follows the minus sign. -/
def dropMinus : List Char → List Char
  | '-' :: cs => cs
  | cs => cs

/-- `-? (0 | [1-9][0-9]*) (\. [0-9]+)? ([eE] [+-]? [0-9]+)?` -/
def isNumber (cs : List Char) : Bool :=
  cs.all isWordChar &&
    (((afterInteger (dropMinus cs)).bind afterFraction).bind afterExponent) == some []

/-- A number, as it is written. -/
abbrev Number := { cs : List Char // isNumber cs = true }

inductive Value where
  | null
  | bool (b : Bool)
  | number (n : Number)
  | str (s : List Char)
  | arr (items : List Value)
  | obj (members : List (List Char × Value))

/-! ## Strings -/

/-- A character of a string, or the code unit of a `\u` escape. -/
inductive Piece where
  | char (c : Char)
  | unit (n : Nat)

def isHighSurrogate (n : Nat) : Bool := 0xD800 ≤ n && n < 0xDC00

def isLowSurrogate (n : Nat) : Bool := 0xDC00 ≤ n && n < 0xE000

/-- A lone surrogate is read as U+FFFD. -/
def unitChar (n : Nat) : Char :=
  if isHighSurrogate n || isLowSurrogate n then '\uFFFD' else Char.ofNat n

/-- The string; two surrogates that make a pair are one character. -/
def joinPieces : List Piece → List Char
  | [] => []
  | .char c :: rest => c :: joinPieces rest
  | .unit n :: .unit m :: rest =>
    if isHighSurrogate n && isLowSurrogate m then
      Char.ofNat (0x10000 + (n - 0xD800) * 0x400 + (m - 0xDC00)) :: joinPieces rest
    else unitChar n :: joinPieces (.unit m :: rest)
  | .unit n :: rest => unitChar n :: joinPieces rest

def hexDigit (c : Char) : Option Nat :=
  if '0' ≤ c && c ≤ '9' then some (c.toNat - '0'.toNat)
  else if 'a' ≤ c && c ≤ 'f' then some (c.toNat - 'a'.toNat + 10)
  else if 'A' ≤ c && c ≤ 'F' then some (c.toNat - 'A'.toNat + 10)
  else none

/-- What `\` and this character stand for. -/
def escaped : Char → Option Char
  | '"' => some '"'
  | '\\' => some '\\'
  | '/' => some '/'
  | 'b' => some '\x08'
  | 'f' => some '\x0C'
  | 'n' => some '\n'
  | 'r' => some '\r'
  | 't' => some '\t'
  | _ => none

/-- Where the scanner is in an escape. -/
inductive Escape where
  | none
  | backslash
  /-- So many hexadecimal digits are missing. -/
  | unit (missing value : Nat)

/-! ## The scanner -/

/-- An open array or object that waits for a value. -/
inductive Frame where
  | items (before : List Value)
  | member (before : List (List Char × Value)) (key : List Char)

/-- What a string is. -/
inductive Role where
  | value
  | key (before : List (List Char × Value))

inductive Phase where
  | value
  | key (before : List (List Char × Value))
  | colon (before : List (List Char × Value)) (key : List Char)
  | text (role : Role) (pieces : List Piece) (escape : Escape)
  | word (cs : List Char)
  | done (v : Value)

structure Scanner where
  stack : List Frame := []
  phase : Phase := .value

def maxDepth : Nat := 10000

def wordValue (cs : List Char) : Option Value :=
  if cs = "null".toList then some .null
  else if cs = "true".toList then some (.bool true)
  else if cs = "false".toList then some (.bool false)
  else if h : isNumber cs = true then some (.number ⟨cs, h⟩)
  else none

namespace Scanner

/-- The string is complete. -/
def closeText (stack : List Frame) (pieces : List Piece) : Role → Scanner
  | .value => ⟨stack, .done (.str (joinPieces pieces))⟩
  | .key before => ⟨stack, .colon before (joinPieces pieces)⟩

/-- A character inside a string. -/
def stepText (stack : List Frame) (role : Role) (pieces : List Piece) (c : Char) :
    Escape → Option Scanner
  | .none =>
    if c = '"' then some (closeText stack pieces role)
    else if c = '\\' then some ⟨stack, .text role pieces .backslash⟩
    else if c.toNat < 0x20 then none
    else some ⟨stack, .text role (pieces ++ [.char c]) .none⟩
  | .backslash =>
    if c = 'u' then some ⟨stack, .text role pieces (.unit 4 0)⟩
    else (escaped c).map fun d => ⟨stack, .text role (pieces ++ [.char d]) .none⟩
  | .unit missing value =>
    (hexDigit c).map fun d =>
      if missing ≤ 1 then ⟨stack, .text role (pieces ++ [.unit (16 * value + d)]) .none⟩
      else ⟨stack, .text role pieces (.unit (missing - 1) (16 * value + d))⟩

/-- The first character of a value; an array may also end where its first item could be. -/
def stepValue (stack : List Frame) (c : Char) : Option Scanner :=
  if c = '"' then some ⟨stack, .text .value [] .none⟩
  else if c = '[' then
    if stack.length < maxDepth then some ⟨.items [] :: stack, .value⟩ else none
  else if c = '{' then
    if stack.length < maxDepth then some ⟨stack, .key []⟩ else none
  else if c = ']' then
    match stack with
    | .items [] :: stack => some ⟨stack, .done (.arr [])⟩
    | _ => none
  else if isWordChar c then some ⟨stack, .word [c]⟩
  else none

/-- The first character of a key; an object may also end where its first key could be. -/
def stepKey (stack : List Frame) (before : List (List Char × Value)) (c : Char) : Option Scanner :=
  if c = '"' then some ⟨stack, .text (.key before) [] .none⟩
  else if c = '}' ∧ before.isEmpty then some ⟨stack, .done (.obj [])⟩
  else none

/-- A character after a value. -/
def stepDone (v : Value) (c : Char) : List Frame → Option Scanner
  | [] => none
  | .items before :: stack =>
    if c = ',' then some ⟨.items (before ++ [v]) :: stack, .value⟩
    else if c = ']' then some ⟨stack, .done (.arr (before ++ [v]))⟩
    else none
  | .member before key :: stack =>
    if c = ',' then some ⟨stack, .key (before ++ [(key, v)])⟩
    else if c = '}' then some ⟨stack, .done (.obj (before ++ [(key, v)]))⟩
    else none

/-- A number or name is complete. -/
def settle (s : Scanner) : Option Scanner :=
  match s.phase with
  | .word cs => (wordValue cs).map fun v => { s with phase := .done v }
  | _ => some s

/-- A character outside of strings, numbers and names. -/
def stepOutside (s : Scanner) (c : Char) : Option Scanner :=
  if isBlank c then some s
  else
    match s.phase with
    | .value => stepValue s.stack c
    | .key before => stepKey s.stack before c
    | .colon before key => if c = ':' then some ⟨.member before key :: s.stack, .value⟩ else none
    | .done v => stepDone v c s.stack
    | .text .. => none
    | .word _ => none

def step (s : Scanner) (c : Char) : Option Scanner :=
  match s.phase with
  | .text role pieces escape => stepText s.stack role pieces c escape
  | .word cs =>
    if isWordChar c then some { s with phase := .word (cs ++ [c]) }
    else s.settle.bind fun s => stepOutside s c
  | _ => stepOutside s c

def feed (s : Scanner) (cs : List Char) : Option Scanner := cs.foldlM step s

/-- The document, if nothing is open. -/
def result (s : Scanner) : Option Value :=
  match s with
  | ⟨[], .done v⟩ => some v
  | _ => none

end Scanner

/-- The document that the text is. -/
def read (cs : List Char) : Option Value :=
  ((Scanner.feed {} cs).bind Scanner.settle).bind Scanner.result

end Json

end CrossTransfer.Library
