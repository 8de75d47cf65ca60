import CrossTransfer.Minirtc.RtpPacket
import CrossTransfer.Transfer.Utf8

/-! # The packetizer of the data streams

`minirtc/src/rtp/rtp_packetizer/rtp_packetizer_generic.{h,cpp}`, with the header extension of
`rtp_packetizer.cpp`. `Build` cuts a payload into packets of `MAX_NALU_LEN` bytes; what a receiver
gets is what `RtpPacket::Parse` makes of the frames.

* `exists_build`: every frame is accepted, and what is read from it.
* `run_preserves_iff`: `Build` copies each piece from the start of the payload, so a payload
  arrives if and only if it repeats itself after `MAX_NALU_LEN` bytes.
-/

namespace CrossTransfer.Minirtc

open CrossTransfer.Library
open CrossTransfer.Transfer

def maxNaluLen : Nat := 1150

def isValidOneByteExtensionId (id : UInt8) : Bool := 1 ≤ id && id ≤ 14

/-- The ids that may stand in a one-byte header. -/
abbrev OneByteExtensionId := { id : UInt8 // isValidOneByteExtensionId id = true }

structure RtpPacketizerGeneric where
  version : UInt8 := kRtpVersion
  hasPadding : Bool := false
  hasExtension : Bool := false
  csrcCount : UInt8 := 0
  marker : Bool := false
  payloadType : UInt32
  sequenceNumber : UInt16 := 0
  timestamp : UInt32 := 0
  ssrc : UInt32
  rtpPacketFrame : Bytes := []
  absSendTimeExtId : Option OneByteExtensionId := none

namespace RtpPacketizerGeneric

variable (s : RtpPacketizerGeneric) (payload : Bytes) (timestamp : UInt32)

def setAbsoluteSendTimeExtensionId (extensionId : Option UInt8) : RtpPacketizerGeneric :=
  match extensionId with
  | none => { s with absSendTimeExtId := none }
  | some id =>
    if h : isValidOneByteExtensionId id = true then { s with absSendTimeExtId := some ⟨id, h⟩ }
    else { s with absSendTimeExtId := none }

/-- What `AppendAbsoluteSendTimeExtension` appends. -/
def absoluteSendTimeExtension : Bytes :=
  match s.absSendTimeExtId with
  | none => []
  | some id => put16 kOneByteExtensionProfileId ++ ([0, 1, (id.1 <<< 4) ||| 2, 0, 0, 0] : Bytes)

/-- The fixed header; with `csrc_count_` 0, no CSRC follows it. -/
def fixedHeader : Bytes :=
  (s.version <<< 6 ||| s.hasPadding.toUInt8 <<< 5 ||| s.hasExtension.toUInt8 <<< 4 ||| s.csrcCount) ::
  (s.marker.toUInt32 <<< 7 ||| s.payloadType).toUInt8 ::
  (put16 s.sequenceNumber ++ put32 s.timestamp ++ put32 s.ssrc)

def lastPacketSize : Nat := payload.length % maxNaluLen

def packetNum : Nat := payload.length / maxNaluLen + if lastPacketSize payload ≠ 0 then 1 else 0

/-- The bytes of the payload that go into packet `index`. -/
def pieceSize (index : Nat) : Nat :=
  if index = packetNum payload - 1 ∧ 0 < lastPacketSize payload then lastPacketSize payload
  else maxNaluLen

/-- The members that a round of `Build` sets before it writes the frame. The conversion to
    `PAYLOAD_TYPE` and back keeps `payload_type_`. -/
def prepare (index : Nat) : RtpPacketizerGeneric :=
  { s with
    version := kRtpVersion
    hasPadding := false
    hasExtension := s.absSendTimeExtId.isSome
    csrcCount := 0
    marker := index == packetNum payload - 1
    sequenceNumber := s.sequenceNumber + 1
    timestamp := timestamp }

/-- A round of `Build`. It inserts `payload` up to `payload + size`, whatever the index. -/
def buildPacket (index : Nat) : Option (RtpPacketizerGeneric × RtpPacket) := do
  let s := s.prepare payload timestamp index
  let piece ← readBytes payload 0 (pieceSize payload index)
  let extension := if s.hasExtension then s.absoluteSendTimeExtension else []
  let s := { s with rtpPacketFrame := s.fixedHeader ++ extension ++ piece }
  let (_, packet) ← RtpPacket.build {} s.rtpPacketFrame
  return (s, packet)

/-- `Build`; `use_rtp_packet_to_send` only chooses the class of the packets, which is built alike. -/
def build : Option (RtpPacketizerGeneric × List RtpPacket) :=
  (List.range (packetNum payload)).foldlM (fun (s, packets) index => do
    let (s, packet) ← s.buildPacket payload timestamp index
    return (s, packets ++ [packet])) (s, [])

/-! ## A frame is read -/

end RtpPacketizerGeneric

namespace RtpPacket

/-- The bytes that `Payload` and `PayloadSize` show. -/
def payload (p : RtpPacket) : Bytes := (p.buffer.drop p.payloadOffset).take p.payloadSize

/-- The packet is what `Parse` makes of its datagram. -/
def Parsed (p : RtpPacket) : Prop := build {} p.buffer = some (true, p)

end RtpPacket

namespace RtpPacketizerGeneric

open RtpPacket

variable {s : RtpPacketizerGeneric} {payload : Bytes} {timestamp : UInt32} {index : Nat}

/-- A valid id and the length that stands beside it are read back. -/
theorem extensionByte {id : UInt8} (h : isValidOneByteExtensionId id = true) :
    ((id <<< 4) ||| 2) >>> 4 = id ∧ ((id <<< 4) ||| 2) &&& 0x0F = 2 ∧ id ≠ 0 ∧ id ≠ 15 := by
  revert h
  exact Paths.forall_byte (p := fun id => isValidOneByteExtensionId id = true →
    ((id <<< 4) ||| 2) >>> 4 = id ∧ ((id <<< 4) ||| 2) &&& 0x0F = 2 ∧ id ≠ 0 ∧ id ≠ 15)
    (by decide) id

/-- What `Parse` reads from the fixed header. -/
def headed (first second : UInt8) (s : RtpPacketizerGeneric) : RtpPacket :=
  { version := kRtpVersion
    hasExtension := (first >>> 4) &&& 0x01 != 0
    marker := (second >>> 7) &&& 0x01 != 0
    payloadType := second &&& 0x7F
    sequenceNumber := s.sequenceNumber
    timestamp := s.timestamp
    ssrc := s.ssrc
    payloadOffset := kFixedHeaderSize }

theorem parseFixed_header {first second : UInt8} (hversion : (first >>> 6) &&& 0x03 = kRtpVersion)
    (hpadding : (first >>> 5) &&& 0x01 = 0) (hcsrc : first &&& 0x0F = 0) (rest : Bytes) :
    parseFixed {} (first :: second ::
      (put16 s.sequenceNumber ++ put32 s.timestamp ++ put32 s.ssrc) ++ rest) =
      some (true, headed first second s) := by
  have hsize : ¬ (first :: second ::
      (put16 s.sequenceNumber ++ put32 s.timestamp ++ put32 s.ssrc) ++ rest).length < kFixedHeaderSize := by
    simp [put16, put32, kFixedHeaderSize]
  have hsequence : read16 (first :: second ::
      (put16 s.sequenceNumber ++ put32 s.timestamp ++ put32 s.ssrc) ++ rest) 2 = some s.sequenceNumber :=
    congrArg some (join16 s.sequenceNumber)
  have htimestamp : read32 (first :: second ::
      (put16 s.sequenceNumber ++ put32 s.timestamp ++ put32 s.ssrc) ++ rest) 4 = some s.timestamp :=
    congrArg some (join32 s.timestamp)
  have hssrc : read32 (first :: second ::
      (put16 s.sequenceNumber ++ put32 s.timestamp ++ put32 s.ssrc) ++ rest) 8 = some s.ssrc :=
    congrArg some (join32 s.ssrc)
  unfold parseFixed
  rw [if_neg hsize, hsequence, htimestamp, hssrc]
  simp only [read8, List.cons_append, List.getElem?_cons_zero, List.getElem?_cons_succ,
    Option.bind_eq_bind, Option.bind_some, hversion, hpadding, hcsrc]
  rfl

theorem parseCsrcs_none {p : RtpPacket} {b : Bytes} (hcount : p.csrcCount = 0)
    (hsize : kFixedHeaderSize ≤ b.length) :
    p.parseCsrcs b = some (true, { p with csrcs := [], payloadOffset := kFixedHeaderSize }) := by
  unfold parseCsrcs
  rw [hcount]
  simp [Nat.not_lt.mpr hsize]

theorem parseExtensions_none {p : RtpPacket} {b : Bytes} (hextension : p.hasExtension = false) :
    p.parseExtensions b = some (true, p) := by
  simp [parseExtensions, hextension]

/-- The extension that `AppendAbsoluteSendTimeExtension` writes, behind a fixed header. -/
theorem parseExtensions_absoluteSendTime {p : RtpPacket} {id : OneByteExtensionId}
    (hid : s.absSendTimeExtId = some id) (hextension : p.hasExtension = true)
    (hnone : p.extensions = []) {header : Bytes} (hoffset : p.payloadOffset = header.length)
    (rest : Bytes) :
    p.parseExtensions (header ++ (s.absoluteSendTimeExtension ++ rest)) =
      some (true, { p with
        extensionProfile := kOneByteExtensionProfileId
        extensionLen := 1
        extensions := [⟨id.1, 3, header.length + 5, [0, 0, 0]⟩]
        payloadOffset := header.length + 8 }) := by
  obtain ⟨hshift, hmask, hzero, hfifteen⟩ := extensionByte id.2
  have hextended : s.absoluteSendTimeExtension ++ rest =
      put16 kOneByteExtensionProfileId ++ (put16 1 ++ ((id.1 <<< 4 ||| 2) :: 0 :: 0 :: 0 :: rest)) := by
    rw [absoluteSendTimeExtension, hid]
    rfl
  rw [hextended]
  generalize hbuffer : header ++ (put16 kOneByteExtensionProfileId ++
    (put16 1 ++ ((id.1 <<< 4 ||| 2) :: 0 :: 0 :: 0 :: rest))) = buffer
  have hlength : buffer.length = header.length + 8 + rest.length := by
    rw [← hbuffer]
    simp [put16]
    omega
  have hprofile : read16 buffer header.length = some kOneByteExtensionProfileId := by
    rw [← hbuffer, ← Nat.add_zero header.length, read16_append, read16_put16]
  have hlen : read16 buffer (header.length + 2) = some 1 := by
    rw [← hbuffer, read16_append]
    rfl
  have helement : read8 buffer (header.length + 4) = some (id.1 <<< 4 ||| 2) := by
    rw [← hbuffer, read8_append]
    rfl
  have hdata : readBytes buffer (header.length + 4 + 1) 3 = some [0, 0, 0] := by
    rw [readBytes_of_le (by omega), ← hbuffer, Nat.add_assoc, List.drop_append,
      List.drop_eq_nil_of_le (Nat.le_add_right _ _), Nat.add_sub_cancel_left]
    rfl
  have hfirst : extensionStep buffer (header.length + 8) (header.length + 4, []) =
      some (.inl (header.length + 8, [⟨id.1, 3, header.length + 5, [0, 0, 0]⟩])) := by
    have hthree : ((2 : UInt8) + 1).toNat = 3 := rfl
    have hinside : header.length + 4 < header.length + 8 := by omega
    simp only [extensionStep, if_pos hinside, helement, Option.bind_eq_bind, Option.bind_some, hshift,
      if_neg hzero, if_neg hfifteen, hmask, hthree, hdata]
    rw [if_neg (by omega), List.nil_append]
    rfl
  have hlast : extensionStep buffer (header.length + 8)
      (header.length + 8, [⟨id.1, 3, header.length + 5, [0, 0, 0]⟩]) =
      some (.inr (true, [⟨id.1, 3, header.length + 5, [0, 0, 0]⟩])) := by
    simp [extensionStep]
  -- One element fills the four bytes of the area, so that the loop ends after it.
  have hloop : iterate (extensionStep buffer (header.length + 8)) 5 (header.length + 4, []) =
      some (true, [⟨id.1, 3, header.length + 5, [0, 0, 0]⟩]) := by
    rw [iterate_succ_continue hfirst, iterate_succ_leave hlast]
  have harea : ¬ buffer.length < header.length + 8 := by omega
  have hhead : ¬ buffer.length < header.length + 4 := by omega
  simp [parseExtensions, hextension, hoffset, hhead, hprofile, hlen, hnone, hloop, harea]

theorem parsePadding_none {p : RtpPacket} {b : Bytes} (hpadding : p.hasPadding = false)
    (hsize : p.payloadOffset ≤ b.length) :
    p.parsePadding b =
      some (true, { p with paddingSize := 0, payloadSize := b.length - p.payloadOffset }) := by
  simp [parsePadding, hpadding, Nat.not_lt.mpr hsize]

/-- The payload type reaches into the bit of the marker. -/
def typeMarks (payloadType : UInt32) : Bool := payloadType.toNat.testBit 7

theorem marker_read (marker : Bool) (payloadType : UInt32) :
    ((marker.toUInt32 <<< 7 ||| payloadType).toUInt8 >>> 7 &&& 0x01 != 0) =
      (marker || typeMarks payloadType) := by
  have hbit : ∀ u : UInt8, (u >>> 7 &&& 0x01 != 0) = u.toNat.testBit 7 :=
    Paths.forall_byte (by decide)
  have hmarker : ∀ m : Bool, (m.toUInt32 <<< 7).toNat.testBit 7 = m := by decide
  rw [hbit, UInt32.toNat_toUInt8, Nat.testBit_mod_two_pow _ 8 7, UInt32.toNat_or, Nat.testBit_or,
    hmarker]
  rfl

/-- What `Parse` reads from the frame of a piece. -/
structure Reads (p : RtpPacket) (piece : Bytes) (sequenceNumber : UInt16) (marker : Bool) : Prop where
  parsed : p.Parsed
  payload : p.payload = piece
  payloadSize : p.payloadSize = piece.length
  sequenceNumber : p.sequenceNumber = sequenceNumber
  marker : p.marker = marker

/-- What `Parse` makes of a header, an area of `n` bytes for the extensions, and the piece. -/
theorem exists_reads_of_extensions {first second : UInt8} (hversion : (first >>> 6) &&& 0x03 = kRtpVersion)
    (hpadding : (first >>> 5) &&& 0x01 = 0) (hcsrc : first &&& 0x0F = 0) {area piece : Bytes}
    {header : Bytes} (hheader : header = first :: second ::
      (put16 s.sequenceNumber ++ put32 s.timestamp ++ put32 s.ssrc)) {q : RtpPacket}
    (hextensions : (headed first second s).parseExtensions (header ++ (area ++ piece)) = some (true, q))
    (hoffset : q.payloadOffset = kFixedHeaderSize + area.length) (hnone : q.hasPadding = false) :
    ∃ p, RtpPacket.build {} (header ++ (area ++ piece)) = some (true, p) ∧
      Reads p piece q.sequenceNumber q.marker := by
  have hlength : (header ++ (area ++ piece)).length = kFixedHeaderSize + (area.length + piece.length) := by
    simp [hheader, put16, put32, kFixedHeaderSize]
    omega
  have hfixed : parseFixed {} (header ++ (area ++ piece)) = some (true, headed first second s) := by
    rw [hheader]
    exact parseFixed_header hversion hpadding hcsrc _
  have hcsrcs : (headed first second s).parseCsrcs (header ++ (area ++ piece)) =
      some (true, headed first second s) :=
    parseCsrcs_none rfl (by omega)
  have hrest := parsePadding_none (b := header ++ (area ++ piece)) hnone (by omega)
  have hsize : (header ++ (area ++ piece)).length - q.payloadOffset = piece.length := by omega
  rw [hsize] at hrest
  have hbuild : RtpPacket.build {} (header ++ (area ++ piece)) = some (true, { q with
      paddingSize := 0
      payloadSize := piece.length
      buffer := header ++ (area ++ piece)
      size := (header ++ (area ++ piece)).length }) := by
    simp only [RtpPacket.build, RtpPacket.parse, hfixed, Attempt.success_andThen, hcsrcs, hextensions, hrest]
  have hpayload : ((header ++ (area ++ piece)).drop q.payloadOffset).take piece.length = piece := by
    have hfront : q.payloadOffset = (header ++ area).length := by
      simp [hoffset, hheader, put16, put32, kFixedHeaderSize]
      omega
    rw [hfront, ← List.append_assoc, List.drop_left, List.take_length]
  exact ⟨_, hbuild, hbuild, hpayload, rfl, rfl, rfl⟩

/-- A frame as `Build` writes it is accepted. -/
theorem exists_reads (hversion : s.version = kRtpVersion) (hpadding : s.hasPadding = false)
    (hextension : s.hasExtension = s.absSendTimeExtId.isSome) (hcsrc : s.csrcCount = 0)
    (piece : Bytes) : ∃ p,
      RtpPacket.build {} (s.fixedHeader ++
        (if s.hasExtension then s.absoluteSendTimeExtension else []) ++ piece) = some (true, p) ∧
      Reads p piece s.sequenceNumber (s.marker || typeMarks s.payloadType) := by
  rw [List.append_assoc, ← marker_read]
  have hheader : s.fixedHeader = (if s.hasExtension then 0x90 else 0x80 : UInt8) ::
      (s.marker.toUInt32 <<< 7 ||| s.payloadType).toUInt8 ::
      (put16 s.sequenceNumber ++ put32 s.timestamp ++ put32 s.ssrc) := by
    rw [fixedHeader, hversion, hpadding, hcsrc]
    cases s.hasExtension <;> rfl
  have hlength : s.fixedHeader.length = kFixedHeaderSize := by
    simp [hheader, put16, put32, kFixedHeaderSize]
  cases hid : s.absSendTimeExtId with
  | none =>
    rw [hid, Option.isSome_none] at hextension
    rw [hextension] at hheader ⊢
    exact exists_reads_of_extensions (by decide) (by decide) (by decide) hheader
      (parseExtensions_none rfl) rfl rfl
  | some id =>
    rw [hid, Option.isSome_some] at hextension
    rw [hextension] at hheader ⊢
    exact exists_reads_of_extensions (by decide) (by decide) (by decide) hheader
      (parseExtensions_absoluteSendTime hid rfl rfl hlength.symm piece)
      (by simp [absoluteSendTimeExtension, hid, put16, hlength]) rfl

/-! ## A call of Build -/

/-- The bytes that packet `index` carries. -/
def piece (payload : Bytes) (index : Nat) : Bytes := payload.take (pieceSize payload index)

theorem packetNum_eq : packetNum payload = (payload.length + (maxNaluLen - 1)) / maxNaluLen := by
  unfold packetNum lastPacketSize maxNaluLen
  by_cases h : payload.length % 1150 = 0
  · rw [if_neg (not_not.mpr h)]
    omega
  · rw [if_pos h]
    omega

theorem pieceSize_le (h : index < packetNum payload) :
    pieceSize payload index ≤ payload.length ∧ pieceSize payload index ≤ maxNaluLen ∧
      index * maxNaluLen + pieceSize payload index = min ((index + 1) * maxNaluLen) payload.length := by
  simp only [pieceSize, packetNum_eq, lastPacketSize, maxNaluLen] at h ⊢
  split <;> omega

/-- After `n` rounds: what has been sent is as long as it must be, and its byte `i` is the one at
    `i % MAX_NALU_LEN` of the payload. -/
theorem pieces_flatten {n : Nat} (h : n ≤ packetNum payload) :
    ((List.range n).map (piece payload)).flatten.length = min (n * maxNaluLen) payload.length ∧
      ∀ i < min (n * maxNaluLen) payload.length,
        ((List.range n).map (piece payload)).flatten[i]? = payload[i % maxNaluLen]? := by
  induction n with
  | zero => simp
  | succ n ih =>
    obtain ⟨hlength, hbytes⟩ := ih (Nat.le_of_succ_le h)
    have hindex : n < packetNum payload := h
    obtain ⟨hinside, hshort, hnext⟩ := pieceSize_le hindex
    have hpiece : (piece payload n).length = pieceSize payload n := by
      simp [piece, hinside]
    have hfull : min (n * maxNaluLen) payload.length = n * maxNaluLen := by
      simp only [maxNaluLen] at hnext ⊢
      omega
    rw [hfull] at hlength hbytes
    rw [List.range_succ, List.map_append, List.map_singleton, List.flatten_append, List.flatten_singleton]
    refine ⟨by rw [List.length_append, hlength, hpiece, hnext], fun i hi => ?_⟩
    by_cases hold : i < n * maxNaluLen
    · rw [List.getElem?_append_left (by omega), hbytes i hold]
    · have hmod : i % maxNaluLen = i - n * maxNaluLen := by
        have hsplit : i = i - n * maxNaluLen + maxNaluLen * n := by
          rw [Nat.mul_comm maxNaluLen]
          omega
        rw [hsplit, Nat.add_mul_mod_self_left, Nat.mod_eq_of_lt (by omega)]
        omega
      rw [List.getElem?_append_right (by omega), hlength, hmod, piece, List.getElem?_take_of_lt (by omega)]

/-- Behind its first `MAX_NALU_LEN` bytes the payload repeats itself. -/
def Repeats (payload : Bytes) : Prop :=
  ∀ i < payload.length, payload[i]? = payload[i % maxNaluLen]?

instance : Decidable (Repeats payload) := inferInstanceAs (Decidable (∀ i < payload.length, _))

theorem pieces_flatten_eq_iff :
    ((List.range (packetNum payload)).map (piece payload)).flatten = payload ↔ Repeats payload := by
  obtain ⟨hlength, hbytes⟩ := pieces_flatten (le_refl (packetNum payload))
  have hall : min (packetNum payload * maxNaluLen) payload.length = payload.length := by
    rw [packetNum_eq, maxNaluLen]
    omega
  rw [hall] at hlength hbytes
  refine ⟨fun heq i hi => ?_, fun hrepeats => ?_⟩
  · rw [← hbytes i hi, heq]
  · apply List.ext_getElem?
    intro i
    by_cases hi : i < payload.length
    · rw [hbytes i hi, hrepeats i hi]
    · rw [List.getElem?_eq_none (by omega), List.getElem?_eq_none (by omega)]

/-- The first packets of a call, of a packetizer that has sent `sent` packets before. -/
structure Sends (s : RtpPacketizerGeneric) (payload : Bytes) (sent n : Nat) (packets : List RtpPacket) :
    Prop where
  parsed : ∀ p ∈ packets, p.Parsed
  payloads : packets.map (·.payload) = (List.range n).map (piece payload)
  short : ∀ p ∈ packets, p.payloadSize ≤ maxNaluLen
  markers : packets.map (·.marker) =
    (List.range n).map fun i => i == packetNum payload - 1 || typeMarks s.payloadType
  numbers : packets.map (·.sequenceNumber) = (List.range' (sent + 1) n).map UInt16.ofNat

/-- What a call leaves as it was, and the numbers used up. -/
structure Follows (s s' : RtpPacketizerGeneric) (sent : Nat) : Prop where
  payloadType : s'.payloadType = s.payloadType
  absSendTimeExtId : s'.absSendTimeExtId = s.absSendTimeExtId
  sequenceNumber : s'.sequenceNumber = UInt16.ofNat sent

/-- A round of `Build`. -/
theorem exists_buildPacket {sent : Nat} (timestamp : UInt32) (hsent : s.sequenceNumber = UInt16.ofNat sent)
    (h : index < packetNum payload) :
    ∃ s' p, s.buildPacket payload timestamp index = some (s', p) ∧ Follows s s' (sent + 1) ∧
      Reads p (piece payload index) (UInt16.ofNat (sent + 1))
        (index == packetNum payload - 1 || typeMarks s.payloadType) := by
  have hpiece : readBytes payload 0 (pieceSize payload index) = some (piece payload index) := by
    rw [readBytes_of_le (by have := pieceSize_le h; omega), List.drop_zero, piece]
  have hnext : s.sequenceNumber + 1 = UInt16.ofNat (sent + 1) := by
    rw [hsent, UInt16.ofNat_add]
    rfl
  obtain ⟨p, hbuild, hreads⟩ := exists_reads (s := s.prepare payload timestamp index) rfl rfl rfl rfl
    (piece payload index)
  have hround : s.buildPacket payload timestamp index = some ({ s.prepare payload timestamp index with
      rtpPacketFrame := (s.prepare payload timestamp index).fixedHeader ++
        (if (s.prepare payload timestamp index).hasExtension then
          (s.prepare payload timestamp index).absoluteSendTimeExtension else []) ++
        piece payload index }, p) := by
    rw [buildPacket, hpiece, Option.bind_eq_bind, Option.bind_some]
    dsimp only
    rw [hbuild]
    rfl
  exact ⟨_, p, hround, ⟨rfl, rfl, hnext⟩, hnext ▸ hreads⟩

/-- The loop of `Build`: after `n` rounds, the first `n` packets have been sent. -/
theorem exists_buildPackets {sent : Nat} (hsent : s.sequenceNumber = UInt16.ofNat sent) {n : Nat}
    (hn : n ≤ packetNum payload) :
    ∃ s' packets, (List.range n).foldlM (fun (s, packets) index => do
        let (s, packet) ← buildPacket s payload timestamp index
        return (s, packets ++ [packet])) (s, []) = some (s', packets) ∧
      Follows s s' (sent + n) ∧ Sends s payload sent n packets := by
  induction n with
  | zero => exact ⟨s, [], rfl, ⟨rfl, rfl, hsent⟩, ⟨by simp, rfl, by simp, rfl, rfl⟩⟩
  | succ n ih =>
    obtain ⟨s', packets, hloop, hfollows, hsends⟩ := ih (Nat.le_of_succ_le hn)
    have hindex : n < packetNum payload := hn
    obtain ⟨s'', p, hround, hnext, hreads⟩ :=
      exists_buildPacket timestamp hfollows.sequenceNumber hindex
    have hsize := pieceSize_le hindex
    have hfold : (List.range (n + 1)).foldlM (fun (s, packets) index => do
        let (s, packet) ← buildPacket s payload timestamp index
        return (s, packets ++ [packet])) (s, []) = some (s'', packets ++ [p]) := by
      rw [List.range_succ, List.foldlM_append, hloop]
      simp [hround]
    refine ⟨s'', packets ++ [p], hfold, ⟨?_, ?_, hnext.sequenceNumber⟩, ⟨?_, ?_, ?_, ?_, ?_⟩⟩
    · rw [hnext.payloadType, hfollows.payloadType]
    · rw [hnext.absSendTimeExtId, hfollows.absSendTimeExtId]
    · simp only [List.mem_append, List.mem_singleton]
      rintro q (hq | rfl)
      · exact hsends.parsed q hq
      · exact hreads.parsed
    · simp [List.range_succ, hsends.payloads, hreads.payload]
    · simp only [List.mem_append, List.mem_singleton]
      rintro q (hq | rfl)
      · exact hsends.short q hq
      · rw [hreads.payloadSize, piece, List.length_take]
        omega
    · simp [List.range_succ, hsends.markers, hreads.marker, hfollows.payloadType]
    · have hnumber : sent + n + 1 = sent + 1 + 1 * n := by omega
      rw [List.range'_concat, ← hnumber]
      simp [hsends.numbers, hreads.sequenceNumber]

/-- What `Build` does: it has a result, and its packets are read as they have been written. -/
theorem exists_build {sent : Nat} (hsent : s.sequenceNumber = UInt16.ofNat sent) (payload : Bytes)
    (timestamp : UInt32) :
    ∃ s' packets, s.build payload timestamp = some (s', packets) ∧
      Follows s s' (sent + packetNum payload) ∧ Sends s payload sent (packetNum payload) packets :=
  exists_buildPackets hsent le_rfl

/-! ## What a call must bring about -/

/-- The packets of a call bring the payload over. -/
structure Preserves (payload : Bytes) (packets : List RtpPacket) : Prop where
  parsed : ∀ p ∈ packets, p.Parsed
  payload : (packets.map (·.payload)).flatten = payload
  short : ∀ p ∈ packets, p.payloadSize ≤ maxNaluLen
  marker : packets.map (·.marker) = (List.range packets.length).map (· + 1 == packets.length)

/-- The payloads that `Build` brings over: it takes every packet from the front of the payload, and a
    payload type of more than seven bits marks every packet. -/
def Preservable (payloadType : UInt32) (payload : Bytes) : Prop :=
  Repeats payload ∧ (typeMarks payloadType = false ∨ payload.length ≤ maxNaluLen)

theorem markers_iff {n : Nat} {always : Bool} :
    ((List.range n).map fun i => i == n - 1 || always) = (List.range n).map (· + 1 == n) ↔
      always = false ∨ n ≤ 1 := by
  rw [List.map_inj_left]
  simp only [List.mem_range]
  refine ⟨fun h => ?_, fun h i hi => ?_⟩
  · by_contra hmany
    rw [not_or, Bool.not_eq_false, not_le] at hmany
    have hfirst := h 0 (by omega)
    rw [hmany.1, Bool.or_true, eq_comm, beq_iff_eq] at hfirst
    omega
  · have hlast : (i == n - 1) = (i + 1 == n) := by
      rw [Bool.eq_iff_iff, beq_iff_eq, beq_iff_eq]
      omega
    obtain rfl | hone := h
    · rw [Bool.or_false, hlast]
    · have hi : i + 1 = n := by omega
      simp [hlast, hi]

/-- What a call has sent brings the payload over if and only if the payload is one of those. -/
theorem Sends.preserves_iff {sent : Nat} {packets : List RtpPacket}
    (h : Sends s payload sent (packetNum payload) packets) :
    Preserves payload packets ↔ Preservable s.payloadType payload := by
  have hlength : packets.length = packetNum payload := by
    simpa using congrArg List.length h.payloads
  have hmarker : packets.map (·.marker) = (List.range packets.length).map (· + 1 == packets.length) ↔
      typeMarks s.payloadType = false ∨ payload.length ≤ maxNaluLen := by
    have hone : packetNum payload ≤ 1 ↔ payload.length ≤ maxNaluLen := by
      rw [packetNum_eq, maxNaluLen]
      omega
    rw [h.markers, hlength, markers_iff, hone]
  have hpayload : (packets.map (·.payload)).flatten = payload ↔ Repeats payload := by
    rw [h.payloads, pieces_flatten_eq_iff]
  exact ⟨fun hp => ⟨hpayload.mp hp.payload, hmarker.mp hp.marker⟩,
    fun hp => ⟨h.parsed, hpayload.mpr hp.1, h.short, hmarker.mpr hp.2⟩⟩

/-! ## Any calls -/

inductive Call
  | setAbsoluteSendTimeExtensionId (extensionId : Option UInt8)
  | build (payload : Bytes) (timestamp : UInt32)

def Call.payload? : Call → Option Bytes
  | .setAbsoluteSendTimeExtensionId _ => none
  | .build payload _ => some payload

/-- The calls one after another, and for each call of `Build` its payload and its packets. -/
def run : List Call → RtpPacketizerGeneric →
    Option (RtpPacketizerGeneric × List (Bytes × List RtpPacket))
  | [], s => some (s, [])
  | .setAbsoluteSendTimeExtensionId extensionId :: calls, s =>
    run calls (s.setAbsoluteSendTimeExtensionId extensionId)
  | .build payload timestamp :: calls, s => do
    let (s, packets) ← s.build payload timestamp
    let (s, rest) ← run calls s
    return (s, (payload, packets) :: rest)

theorem setAbsoluteSendTimeExtensionId_follows (extensionId : Option UInt8) :
    (s.setAbsoluteSendTimeExtensionId extensionId).payloadType = s.payloadType ∧
      (s.setAbsoluteSendTimeExtensionId extensionId).sequenceNumber = s.sequenceNumber := by
  unfold setAbsoluteSendTimeExtensionId
  cases extensionId with
  | none => exact ⟨rfl, rfl⟩
  | some id =>
    dsimp only
    split <;> exact ⟨rfl, rfl⟩

/-- The packets of all calls are numbered through, and those of each call bring its payload over. -/
structure RunPreserves (calls : List Call) (sent : Nat) (batches : List (Bytes × List RtpPacket)) :
    Prop where
  payloads : batches.map (·.1) = calls.filterMap Call.payload?
  preserves : ∀ batch ∈ batches, Preserves batch.1 batch.2
  numbers : (batches.flatMap (·.2)).map (·.sequenceNumber) =
    (List.range' (sent + 1) (batches.flatMap (·.2)).length).map UInt16.ofNat

theorem exists_run {sent : Nat} (calls : List Call) (hsent : s.sequenceNumber = UInt16.ofNat sent) :
    ∃ s' batches, s.run calls = some (s', batches) ∧
      batches.map (·.1) = calls.filterMap Call.payload? ∧
      (∀ batch ∈ batches, Preserves batch.1 batch.2 ↔ Preservable s.payloadType batch.1) ∧
      (batches.flatMap (·.2)).map (·.sequenceNumber) =
        (List.range' (sent + 1) (batches.flatMap (·.2)).length).map UInt16.ofNat := by
  induction calls generalizing s sent with
  | nil => exact ⟨s, [], rfl, rfl, by simp, rfl⟩
  | cons call calls ih =>
    cases call with
    | setAbsoluteSendTimeExtensionId extensionId =>
      obtain ⟨htype, hnumber⟩ := setAbsoluteSendTimeExtensionId_follows (s := s) extensionId
      rw [← hnumber] at hsent
      rw [← htype]
      exact ih hsent
    | build payload timestamp =>
      obtain ⟨s', packets, hbuild, hfollows, hsends⟩ := exists_build hsent payload timestamp
      obtain ⟨s'', batches, hrun, hpayloads, hpreserves, hnumbers⟩ := ih hfollows.sequenceNumber
      have hlength : packets.length = packetNum payload := by
        simpa using congrArg List.length hsends.payloads
      refine ⟨s'', (payload, packets) :: batches, ?_, ?_, ?_, ?_⟩
      · rw [run, hbuild, Option.bind_eq_bind, Option.bind_some]
        simp [hrun]
      · simp [hpayloads, Call.payload?]
      · rw [List.forall_mem_cons]
        exact ⟨hsends.preserves_iff, hfollows.payloadType ▸ hpreserves⟩
      · rw [List.flatMap_cons, List.map_append, hsends.numbers, hnumbers, ← List.map_append,
          List.length_append, hlength, Nat.add_right_comm sent, List.range'_append_1]

/-- For all calls on a packetizer: every packet is read, and the payloads of all calls arrive if and
    only if each of them is one that `Build` brings over. -/
theorem run_preserves_iff (ssrc payloadType : UInt32) (calls : List Call) :
    ∃ s batches, run calls { ssrc := ssrc, payloadType := payloadType } = some (s, batches) ∧
      (RunPreserves calls 0 batches ↔
        ∀ payload ∈ calls.filterMap Call.payload?, Preservable payloadType payload) := by
  have hstart : ({ ssrc := ssrc, payloadType := payloadType } : RtpPacketizerGeneric).sequenceNumber =
      UInt16.ofNat 0 := rfl
  obtain ⟨s, batches, hrun, hpayloads, hpreserves, hnumbers⟩ := exists_run calls hstart
  refine ⟨s, batches, hrun, fun h payload hpayload => ?_, fun h => ⟨hpayloads, fun batch hbatch => ?_, hnumbers⟩⟩
  · rw [← hpayloads] at hpayload
    obtain ⟨batch, hbatch, rfl⟩ := List.mem_map.mp hpayload
    exact (hpreserves batch hbatch).mp (h.preserves batch hbatch)
  · refine (hpreserves batch hbatch).mpr (h batch.1 ?_)
    rw [← hpayloads]
    exact List.mem_map_of_mem hbatch

/-- A payload of two packets arrives with the front of the first one in place of its last byte. -/
theorem not_run_preserves : ¬ ∀ (ssrc payloadType : UInt32) (calls : List Call),
    (∀ payload ∈ calls.filterMap Call.payload?, payload ≠ []) →
    ∃ s batches, run calls { ssrc := ssrc, payloadType := payloadType } = some (s, batches) ∧
      RunPreserves calls 0 batches := by
  intro h
  obtain ⟨s, batches, hrun, hpreserves⟩ := h 1 120 [.build (List.replicate maxNaluLen 0 ++ [1]) 0]
    (by simp [Call.payload?])
  have hstart : ({ ssrc := 1, payloadType := 120 } : RtpPacketizerGeneric).sequenceNumber =
      UInt16.ofNat 0 := rfl
  obtain ⟨s', batches', hrun', hpayloads, hiff, -⟩ :=
    exists_run [.build (List.replicate maxNaluLen 0 ++ [1]) 0] hstart
  obtain ⟨rfl, rfl⟩ := Prod.mk.inj (Option.some.inj (hrun.symm.trans hrun'))
  have hmem : List.replicate maxNaluLen 0 ++ [1] ∈ batches.map (·.1) := by
    rw [hpayloads]
    exact List.mem_singleton_self _
  obtain ⟨batch, hbatch, hpayload⟩ := List.mem_map.mp hmem
  have hrepeats := ((hiff batch hbatch).mp (hpreserves.preserves batch hbatch)).1
  rw [hpayload] at hrepeats
  have hlast := hrepeats maxNaluLen (by simp)
  have hfront : (List.replicate maxNaluLen (0 : UInt8) ++ [1])[0]? = some 0 := rfl
  rw [Nat.mod_self, hfront, List.getElem?_append_right (by simp), List.length_replicate,
    Nat.sub_self] at hlast
  exact absurd hlast (by decide)

end RtpPacketizerGeneric

end CrossTransfer.Minirtc
