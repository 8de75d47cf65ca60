import CrossTransfer.Library.OrderedMap
import CrossTransfer.Library.TextStream
import CrossTransfer.Share.ManifestSignature
import CrossTransfer.Share.TakeCode
import CrossTransfer.Transfer.Utf8

/-! # The data streams of a session

The streams of `minirtc/src/transport/data_transport.{h,cpp}`, as `MiniRtcAddDataStream` of
`api/minirtc.cpp` and `AddDataStream` of `pc/peer_connection.cpp` configure them, and their lines in
the session description: `LocalStreamSdpLines` writes them, `ParseRemoteStreams` reads those of the
peer. A pointer to a stream is modelled by the name of the stream.
-/

namespace CrossTransfer.Minirtc

open CrossTransfer.Library
open CrossTransfer.Transfer
open CrossTransfer.Share

structure DataStreamConfig where
  name : Bytes
  reliable : Bool := false
deriving DecidableEq, Repr

/-- `MiniRtcAddDataStream`, before the peer is connected. -/
def addDataStream (streams : List DataStreamConfig) (name : Bytes) (reliable : Bool) :
    List DataStreamConfig :=
  if name = [] then streams
  else if streams.any (·.name == name) then streams
  else streams ++ [⟨name, reliable⟩]

/-- The streams of a peer after some calls of `MiniRtcAddDataStream`. -/
def configure (calls : List (Bytes × Bool)) : List DataStreamConfig :=
  calls.foldl (fun streams (name, reliable) => addDataStream streams name reliable) []

structure Stream where
  reliable : Bool
  localSsrc : UInt32
  remoteSsrc : UInt32 := 0
deriving DecidableEq, Repr

structure DataTransport where
  streams : OrderedMap Bytes Stream
  byRemoteSsrc : OrderedMap UInt32 Bytes := ∅

/-! ## Numbers in a line -/

def isDigit (c : UInt8) : Bool := decide (0x30 ≤ c ∧ c ≤ 0x39)

/-- What `operator>>` reads of a decimal number: whether it has a minus sign, and its digits. -/
def readNumber (text : Bytes) : Option (Bool × Nat × Bytes) :=
  let start := text.dropWhile isSpace
  let unsigned := if start.head? = some 0x2D ∨ start.head? = some 0x2B then start.tail else start
  let digits := unsigned.takeWhile isDigit
  if digits.isEmpty then none
  else some (start.head? = some 0x2D, decimalValue digits, unsigned.dropWhile isDigit)

/-- `operator>>` of a `uint32_t`. A minus sign negates the number read. -/
def readUInt32 (text : Bytes) : Option (UInt32 × Bytes) :=
  match readNumber text with
  | none => none
  | some (negative, n, rest) =>
    if 2 ^ 32 ≤ n then none
    else some (if negative then 0 - UInt32.ofNat n else UInt32.ofNat n, rest)

/-- `operator>>` of an `int`. -/
def readInt (text : Bytes) : Option (Int × Bytes) :=
  match readNumber text with
  | none => none
  | some (negative, n, rest) =>
    if negative then if 2 ^ 31 < n then none else some (-n, rest)
    else if 2 ^ 31 ≤ n then none else some (n, rest)

/-! ## The lines of a session description -/

def streamPrefix : Bytes := ascii "a=x-data-stream:"

/-- What `ParseRemoteStreams` makes of a line by itself. -/
inductive LineReading
  | other
  | malformed
  | stream (name : Bytes) (ssrc : UInt32) (reliable : Int)
deriving DecidableEq, Repr

/-- A line without the `\r` at its end. -/
def chomp (line : Bytes) : Bytes := if line.getLast? = some 0x0D then line.dropLast else line

def isStreamLine (line : Bytes) : Bool := streamPrefix.isPrefixOf (chomp line)

def readFields (text : Bytes) : Option (Bytes × UInt32 × Int) := do
  let (name, text) ← word isSpace text
  let (ssrc, text) ← readUInt32 text
  let (reliable, _) ← readInt text
  return (name, ssrc, reliable)

def readLine (line : Bytes) : LineReading :=
  if !isStreamLine line then .other
  else
    match readFields ((chomp line).drop 16) with
    | none => .malformed
    | some (name, ssrc, reliable) => if ssrc = 0 then .malformed else .stream name ssrc reliable

namespace DataTransport

/-- The constructor; `localSsrc` stands for what `GenerateUniqueSsrc` gives for each stream. -/
def create (configs : List DataStreamConfig) (localSsrc : Bytes → UInt32) : DataTransport where
  streams := configs.foldl (fun streams cfg =>
    streams.insert cfg.name { reliable := cfg.reliable, localSsrc := localSsrc cfg.name }) ∅

/-- The line of a stream, without the line feed. -/
def streamLine (name : Bytes) (s : Stream) : Bytes :=
  streamPrefix ++ name ++ 0x20 :: ascii (toString s.localSsrc.toNat) ++
    0x20 :: ascii (if s.reliable then "1" else "0") ++ [0x0D]

def localStreamSdpLines (t : DataTransport) : Bytes :=
  t.streams.toList.flatMap fun (name, s) => streamLine name s ++ [0x0A]

/-- The stream has got its remote SSRC. -/
def assign (t : DataTransport) (name : Bytes) (ssrc : UInt32) : DataTransport where
  streams := t.streams.modify name fun s => { s with remoteSsrc := ssrc }
  byRemoteSsrc := t.byRemoteSsrc.insert ssrc name

/-- The loop of `ParseRemoteStreams` over the lines, with the number of those matched so far. -/
def parseLines : List Bytes → Nat → DataTransport → Bool × DataTransport
  | [], matched, t => (matched == t.streams.size, t)
  | line :: lines, matched, t =>
    match readLine line with
    | .other => parseLines lines matched t
    | .malformed => (false, t)
    | .stream name ssrc reliable =>
      match t.streams[name]? with
      | none => parseLines lines matched t
      | some s =>
        if decide (reliable ≠ 0) ≠ s.reliable then (false, t)
        else parseLines lines (matched + 1) (t.assign name ssrc)

def parseRemoteStreams (t : DataTransport) (sdp : Bytes) : Bool × DataTransport :=
  parseLines (getlines 0x0A sdp) 0 { t with byRemoteSsrc := ∅ }

end DataTransport

/-! ## The lines that are written are read -/

theorem streamPrefix_length : streamPrefix.length = 16 := rfl

theorem digits_toString (n : Nat) : ∀ c ∈ ascii (toString n), isDigit c = true := by
  intro c hc
  have hdigit := digit_of_mem_toString hc
  exact decide_eq_true ⟨UInt8.le_iff_toNat_le.mpr hdigit.1, UInt8.le_iff_toNat_le.mpr hdigit.2⟩

theorem toString_ne_nil (n : Nat) : ascii (toString n) ≠ [] := by
  rw [ascii_toString, ne_eq, List.map_eq_nil_iff]
  exact Nat.toDigits_ne_nil

theorem notDigit_space {c : UInt8} (h : isDigit c = true) : isSpace c = false ∧ c ≠ 0x2D ∧ c ≠ 0x2B := by
  revert h
  exact Paths.forall_byte (p := fun c => isDigit c = true → isSpace c = false ∧ c ≠ 0x2D ∧ c ≠ 0x2B)
    (by decide) c

/-- A number behind a blank and in front of something that is not a digit. -/
theorem readNumber_toString (n : Nat) {rest : Bytes} (hrest : ∀ c ∈ rest.head?, isDigit c = false) :
    readNumber (0x20 :: (ascii (toString n) ++ rest)) = some (false, n, rest) := by
  obtain ⟨c, digits, hdigits⟩ := List.exists_cons_of_ne_nil (toString_ne_nil n)
  have hall := digits_toString n
  obtain ⟨hspace, hminus, hplus⟩ := notDigit_space (hall c (hdigits ▸ List.mem_cons_self))
  have hstart : (0x20 :: (ascii (toString n) ++ rest)).dropWhile isSpace = ascii (toString n) ++ rest := by
    rw [List.dropWhile_cons_of_pos rfl, hdigits, List.cons_append,
      List.dropWhile_cons_of_neg (by simp [hspace])]
  have hhead : (ascii (toString n) ++ rest).head? = some c := by
    rw [hdigits]
    rfl
  obtain ⟨htake, hdrop⟩ := takeWhile_append_of_head hall hrest
  have hvalue := decimalValue_toString n
  unfold readNumber
  have hsome : (ascii (toString n)).isEmpty = false := by
    rw [hdigits]
    rfl
  simp only [hstart, hhead, Option.some.injEq, hminus, hplus, or_self, if_false, htake, hdrop, hvalue,
    hsome, Bool.false_eq_true, decide_false]

theorem readUInt32_toString (v : UInt32) {rest : Bytes} (hrest : ∀ c ∈ rest.head?, isDigit c = false) :
    readUInt32 (0x20 :: (ascii (toString v.toNat) ++ rest)) = some (v, rest) := by
  rw [readUInt32, readNumber_toString _ hrest]
  dsimp only
  rw [if_neg (Nat.not_le.mpr v.toNat_lt), UInt32.ofNat_toNat]
  rfl

/-- The last field of a line. -/
theorem readInt_reliable (reliable : Bool) :
    readInt (0x20 :: ascii (if reliable then "1" else "0")) = some (if reliable then 1 else 0, []) := by
  cases reliable <;> decide

/-- Names that may stand in a line. -/
def NameOk (name : Bytes) : Prop := name ≠ [] ∧ ∀ c ∈ name, isSpace c = false

namespace DataTransport

theorem readFields_streamLine {name : Bytes} (hname : NameOk name) (s : Stream) :
    readFields (name ++ 0x20 :: ascii (toString s.localSsrc.toNat) ++
      0x20 :: ascii (if s.reliable then "1" else "0")) =
      some (name, s.localSsrc, if s.reliable then 1 else 0) := by
  rw [List.append_assoc, List.cons_append, readFields, word_append hname.1 hname.2 rfl,
    Option.bind_eq_bind, Option.bind_some]
  dsimp only
  rw [readUInt32_toString _ (by simp; decide), Option.bind_eq_bind, Option.bind_some]
  dsimp only
  rw [readInt_reliable]
  rfl

/-- The line of a stream is read as it has been written. -/
theorem readLine_streamLine {name : Bytes} (hname : NameOk name) {s : Stream} (hssrc : s.localSsrc ≠ 0) :
    readLine (streamLine name s) = .stream name s.localSsrc (if s.reliable then 1 else 0) := by
  have hchomp : chomp (streamLine name s) = streamPrefix ++ (name ++
      0x20 :: ascii (toString s.localSsrc.toNat) ++ 0x20 :: ascii (if s.reliable then "1" else "0")) := by
    rw [chomp, streamLine, if_pos List.getLast?_concat, List.dropLast_concat, List.append_assoc,
      List.append_assoc, List.append_assoc]
  have hmarked : isStreamLine (streamLine name s) = true := by
    rw [isStreamLine, hchomp]
    exact List.isPrefixOf_iff_prefix.mpr (List.prefix_append _ _)
  have hdrop : (chomp (streamLine name s)).drop 16 = name ++
      0x20 :: ascii (toString s.localSsrc.toNat) ++ 0x20 :: ascii (if s.reliable then "1" else "0") := by
    rw [hchomp, ← streamPrefix_length, List.drop_left]
  rw [readLine, hmarked, hdrop, readFields_streamLine hname]
  exact if_neg hssrc

theorem newline_not_mem_streamLine {name : Bytes} (hname : NameOk name) (s : Stream) :
    0x0A ∉ streamLine name s := by
  have hmarked : (0x0A : UInt8) ∉ streamPrefix := by decide
  have hspace : (0x0A : UInt8) ∉ name := fun h => absurd (hname.2 _ h) (by decide)
  have hreliable : (0x0A : UInt8) ∉ ascii (if s.reliable then "1" else "0") := by
    cases s.reliable <;> decide
  have hblank : (0x0A : UInt8) ≠ 0x20 := by decide
  have hreturn : (0x0A : UInt8) ≠ 0x0D := by decide
  simp only [streamLine, List.mem_append, List.mem_cons, List.not_mem_nil, or_false, not_or]
  exact ⟨⟨⟨⟨hmarked, hspace⟩, hblank, newline_not_mem_toString _⟩, hblank, hreliable⟩, hreturn⟩

/-- The lines of a transport, one for each stream. -/
theorem getlines_localStreamSdpLines (t : DataTransport) (hnames : ∀ name ∈ t.streams, NameOk name) :
    getlines 0x0A t.localStreamSdpLines = t.streams.toList.map fun (name, s) => streamLine name s := by
  have hmem : ∀ e ∈ t.streams.toList, 0x0A ∉ streamLine e.1 e.2 := fun e he => by
    have hget : t.streams[e.1]? = some e.2 := Std.ExtTreeMap.mem_toList_iff_getElem?_eq_some.mp he
    refine newline_not_mem_streamLine (hnames e.1 ?_) e.2
    rw [Std.ExtTreeMap.mem_iff_isSome_getElem?, hget, Option.isSome_some]
  have hlines := getlines_flatMap (fun e : Bytes × Stream => streamLine e.1 e.2) t.streams.toList hmem []
  rwa [List.append_nil, getlines, List.append_nil] at hlines

end DataTransport

end CrossTransfer.Minirtc
