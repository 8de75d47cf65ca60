import Mathlib.Data.List.Basic
import Mathlib.Tactic

/-! # Wire constants, data blocks and SACK datagrams

`core/src/transfer/protocol.h` and `block_codec.{h,cpp}`.  Byte strings are lists of
`UInt8`; the fields of the two datagram kinds have the fixed-width types of the
source, so that every value of a `Sack` or a `BlockHeader` is one the code can hold.
-/

namespace CrossTransfer.Transfer

/-- A `std::string` or byte buffer. -/
abbrev Bytes := List UInt8

/-! ## Constants of `protocol.h` -/

def kProtoVersion : UInt8 := 1
def kBlockMagic : UInt16 := 0x4342
def kBlockHeaderSize : Nat := 12
def kBlockPayloadSize : Nat := 1100
def kBlockFlagLast : UInt8 := 1
def kMaxDatagram : Nat := 1150
def kSackMagic : UInt16 := 0x4353
def kSackHeaderSize : Nat := 28
def kSackRunSize : Nat := 8
def kSackMaxRuns : Nat := (kMaxDatagram - kSackHeaderSize) / kSackRunSize
def kSackFlagComplete : UInt8 := 1
def kMaxFilesPerTransfer : Nat := 65535
def kMaxFileSize : Nat := kBlockPayloadSize * 0xFFFFFFFF
def kSackIntervalMs : Nat := 60
def kSackCompleteRepeatMs : Nat := 200
def kRepairMinHoldMs : Nat := 120

/-! ## Records -/

structure BlockHeader where
  flags : UInt8
  fileIndex : UInt16
  blockIndex : UInt32
  len : UInt16
deriving DecidableEq, Repr

/-- A run of consecutive block indices `[start, start + length)`. -/
structure SackRun where
  start : UInt32
  length : UInt32
deriving DecidableEq, Repr

structure Sack where
  fileIndex : UInt16 := 0
  flags : UInt8 := 0
  /-- Every block below it has been received. -/
  ackBase : UInt32 := 0
  /-- Highest received block + 1. -/
  frontier : UInt32 := 0
  receivedCount : UInt32 := 0
  recvRateBps : UInt32 := 0
  lossPermille : UInt16 := 0
  /-- Missing runs in `[ackBase, frontier)`, ascending. -/
  holes : List SackRun := []
deriving DecidableEq, Repr

/-- The `complete` flag of a SACK. -/
def Sack.isComplete (s : Sack) : Bool := s.flags &&& kSackFlagComplete != 0

/-! ## Big-endian fields -/

def put16 (v : UInt16) : Bytes := [(v >>> 8).toUInt8, v.toUInt8]

def put32 (v : UInt32) : Bytes :=
  [(v >>> 24).toUInt8, (v >>> 16).toUInt8, (v >>> 8).toUInt8, v.toUInt8]

/-- The byte at `i`; every read of the decoders is below the checked length. -/
def byteAt (p : Bytes) (i : Nat) : UInt8 := p.getD i 0

def get16 (p : Bytes) (i : Nat) : UInt16 :=
  ((byteAt p i).toUInt16 <<< 8) ||| (byteAt p (i + 1)).toUInt16

def get32 (p : Bytes) (i : Nat) : UInt32 :=
  ((byteAt p i).toUInt32 <<< 24) ||| ((byteAt p (i + 1)).toUInt32 <<< 16) |||
    ((byteAt p (i + 2)).toUInt32 <<< 8) ||| (byteAt p (i + 3)).toUInt32

/-! ## Data blocks -/

/-- `EncodeBlock`; `none` stands for the return value 0.  `payload` is the buffer the
    source reads `len` bytes from. -/
def encodeBlock (h : BlockHeader) (payload : Bytes) : Option Bytes :=
  if kBlockPayloadSize < h.len.toNat then none
  else some (put16 kBlockMagic ++ [kProtoVersion, h.flags] ++ put16 h.fileIndex ++
    put32 h.blockIndex ++ put16 h.len ++ payload.take h.len.toNat)

def decodeBlock (data : Bytes) : Option (BlockHeader × Bytes) :=
  if data.length < kBlockHeaderSize then none
  else if get16 data 0 ≠ kBlockMagic ∨ byteAt data 2 ≠ kProtoVersion then none
  else
    let plen := get16 data 10
    if kBlockPayloadSize < plen.toNat then none
    else if data.length ≠ kBlockHeaderSize + plen.toNat then none
    else some (⟨byteAt data 3, get16 data 4, get32 data 6, plen⟩, data.drop kBlockHeaderSize)

/-! ## SACKs -/

def encodeRun (r : SackRun) : Bytes := put32 r.start ++ put32 r.length

/-- `EncodeSack`: at most `kSackMaxRuns` holes, the rest are dropped. -/
def encodeSack (s : Sack) : Bytes :=
  let runs := s.holes.take kSackMaxRuns
  put16 kSackMagic ++ [kProtoVersion, s.flags] ++ put16 s.fileIndex ++
    put16 (UInt16.ofNat runs.length) ++ put32 s.ackBase ++ put32 s.frontier ++
    put32 s.receivedCount ++ put32 s.recvRateBps ++ put16 s.lossPermille ++ put16 0 ++
    runs.flatMap encodeRun

/-- The run loop of `DecodeSack`: an empty run rejects the datagram. -/
def decodeRuns : Nat → Bytes → Option (List SackRun)
  | 0, _ => some []
  | n + 1, p =>
    let r : SackRun := ⟨get32 p 0, get32 p 4⟩
    if r.length = 0 then none
    else (decodeRuns n (p.drop kSackRunSize)).map (r :: ·)

def decodeSack (data : Bytes) : Option Sack :=
  if data.length < kSackHeaderSize then none
  else if get16 data 0 ≠ kSackMagic ∨ byteAt data 2 ≠ kProtoVersion then none
  else
    let runs := get16 data 6
    if data.length ≠ kSackHeaderSize + runs.toNat * kSackRunSize then none
    else (decodeRuns runs.toNat (data.drop kSackHeaderSize)).map fun holes =>
      { flags := byteAt data 3
        fileIndex := get16 data 4
        ackBase := get32 data 8
        frontier := get32 data 12
        receivedCount := get32 data 16
        recvRateBps := get32 data 20
        lossPermille := get16 data 24
        holes := holes }

/-! ## Round trips -/

theorem kSackMaxRuns_eq : kSackMaxRuns = 140 := rfl

@[simp] theorem length_put16 (v : UInt16) : (put16 v).length = 2 := rfl
@[simp] theorem length_put32 (v : UInt32) : (put32 v).length = 4 := rfl
@[simp] theorem length_encodeRun (r : SackRun) : (encodeRun r).length = 8 := rfl

/-- Two bytes put in big-endian order read back as the value. -/
theorem join16 (v : UInt16) :
    ((v >>> 8).toUInt8.toUInt16 <<< 8) ||| v.toUInt8.toUInt16 = v := by
  apply UInt16.toNat_inj.mp
  apply Nat.eq_of_testBit_eq
  intro i
  have above : i ≥ 16 → v.toNat.testBit i = false := fun h =>
    Nat.testBit_lt_two_pow (lt_of_lt_of_le v.toNat_lt (Nat.pow_le_pow_right (by norm_num) h))
  simp only [UInt16.toNat_or, UInt16.toNat_shiftLeft, UInt8.toNat_toUInt16, UInt16.toNat_toUInt8,
    UInt16.toNat_shiftRight, Nat.testBit_or, Nat.testBit_mod_two_pow, Nat.testBit_shiftLeft,
    Nat.testBit_shiftRight, UInt16.reduceToNat, Nat.reduceMod]
  grind

/-- Four bytes put in big-endian order read back as the value. -/
theorem join32 (v : UInt32) :
    ((v >>> 24).toUInt8.toUInt32 <<< 24) ||| ((v >>> 16).toUInt8.toUInt32 <<< 16) |||
      ((v >>> 8).toUInt8.toUInt32 <<< 8) ||| v.toUInt8.toUInt32 = v := by
  apply UInt32.toNat_inj.mp
  apply Nat.eq_of_testBit_eq
  intro i
  have above : i ≥ 32 → v.toNat.testBit i = false := fun h =>
    Nat.testBit_lt_two_pow (lt_of_lt_of_le v.toNat_lt (Nat.pow_le_pow_right (by norm_num) h))
  simp only [UInt32.toNat_or, UInt32.toNat_shiftLeft, UInt8.toNat_toUInt32, UInt32.toNat_toUInt8,
    UInt32.toNat_shiftRight, Nat.testBit_or, Nat.testBit_mod_two_pow, Nat.testBit_shiftLeft,
    Nat.testBit_shiftRight, UInt32.reduceToNat, Nat.reduceMod]
  grind

/-- The run table of an encoded SACK decodes to itself. -/
theorem decodeRuns_encodeRun (runs : List SackRun) (nonempty : ∀ r ∈ runs, r.length ≠ 0) :
    decodeRuns runs.length (runs.flatMap encodeRun) = some runs := by
  induction runs with
  | nil => rfl
  | cons r rest ih =>
    have hr : r.length ≠ 0 := nonempty r (by simp)
    have hrest := ih fun r' hr' => nonempty r' (by simp [hr'])
    simp only [List.length_cons, List.flatMap_cons, decodeRuns]
    have start : get32 (encodeRun r ++ rest.flatMap encodeRun) 0 = r.start := join32 r.start
    have length : get32 (encodeRun r ++ rest.flatMap encodeRun) 4 = r.length := join32 r.length
    have tail : (encodeRun r ++ rest.flatMap encodeRun).drop kSackRunSize =
        rest.flatMap encodeRun := rfl
    rw [start, length, tail, if_neg hr, hrest]
    rfl

/-- A SACK whose holes are non-empty survives the wire, its hole list cut to the first
    `kSackMaxRuns` runs. -/
theorem decodeSack_encodeSack (s : Sack) (nonempty : ∀ r ∈ s.holes, r.length ≠ 0) :
    decodeSack (encodeSack s) = some { s with holes := s.holes.take kSackMaxRuns } := by
  have count : (s.holes.take kSackMaxRuns).length ≤ 140 := by
    rw [List.length_take, kSackMaxRuns_eq]; omega
  have wire : (UInt16.ofNat (s.holes.take kSackMaxRuns).length).toNat =
      (s.holes.take kSackMaxRuns).length := by
    rw [UInt16.toNat_ofNat']; omega
  have table : ((s.holes.take kSackMaxRuns).flatMap encodeRun).length =
      (s.holes.take kSackMaxRuns).length * kSackRunSize := by
    rw [List.length_flatMap]
    simp [kSackRunSize]
  have runs := decodeRuns_encodeRun (s.holes.take kSackMaxRuns)
    fun r hr => nonempty r (List.mem_of_mem_take hr)
  have magic : get16 (encodeSack s) 0 = kSackMagic := join16 kSackMagic
  have version : byteAt (encodeSack s) 2 = kProtoVersion := rfl
  have runCount : get16 (encodeSack s) 6 = UInt16.ofNat (s.holes.take kSackMaxRuns).length :=
    join16 _
  have size : (encodeSack s).length =
      kSackHeaderSize + (s.holes.take kSackMaxRuns).length * kSackRunSize := by
    rw [← table]
    simp only [encodeSack, List.length_append, length_put16, length_put32, List.length_cons,
      List.length_nil, kSackHeaderSize]
  have body : (encodeSack s).drop kSackHeaderSize = (s.holes.take kSackMaxRuns).flatMap encodeRun :=
    rfl
  simp only [decodeSack, magic, version, runCount, wire, size, body, runs]
  rw [if_neg (by omega), if_neg (by simp), if_neg (by simp)]
  have fileIndex : get16 (encodeSack s) 4 = s.fileIndex := join16 _
  have ackBase : get32 (encodeSack s) 8 = s.ackBase := join32 _
  have frontier : get32 (encodeSack s) 12 = s.frontier := join32 _
  have received : get32 (encodeSack s) 16 = s.receivedCount := join32 _
  have rate : get32 (encodeSack s) 20 = s.recvRateBps := join32 _
  have loss : get16 (encodeSack s) 24 = s.lossPermille := join16 _
  rw [fileIndex, ackBase, frontier, received, rate, loss]
  rfl

end CrossTransfer.Transfer
