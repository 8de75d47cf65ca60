import CrossTransfer.Library.Attempt
import CrossTransfer.Library.Loop
import CrossTransfer.Minirtc.RtcpPacket

/-! # Congestion control feedback

`minirtc/src/rtcp/congestion_control_feedback.{h,cpp}`: `Create` writes the reports on received packets
as blocks, one for each SSRC, into as many RTCP packets as the limit of the buffer asks for; `Parse`
reads such a packet.

`Create` computes the arrival time offset in `float`; the function `ticks` stands for this product
`1024 * seconds`.
-/

namespace CrossTransfer.Minirtc

open CrossTransfer.Library
open CrossTransfer.Transfer

/-- Microseconds, or one of the two infinities. -/
inductive TimeDelta
  | minusInfinity
  | plusInfinity
  | us (value : Int)
deriving DecidableEq, Repr

def TimeDelta.isFinite : TimeDelta → Bool
  | .us _ => true
  | _ => false

inductive EcnMarking
  | notEct
  | ect1
  | ect0
  | ce
deriving DecidableEq, Repr

structure PacketInfo where
  ssrc : UInt32
  sequenceNumber : UInt16
  arrivalTimeOffset : TimeDelta := .minusInfinity
  ecn : EcnMarking := .notEct
deriving DecidableEq, Repr

def kSenderSsrcLength : Nat := 4
def kHeaderPerMediaSssrcLength : Nat := 8
def kTimestampLength : Nat := 4
def kFeedbackHeaderLength : Nat := kHeaderLength + kSenderSsrcLength + kTimestampLength
def kMinReportBlockLength : Nat := kHeaderPerMediaSssrcLength + 4
def kMaxReportsPerSsrc : Nat := 16384
def kMaxRtcpPacketLength : Nat := 0xFFFF * 4
def kFeedbackMessageType : UInt8 := 11
def kPacketType : UInt8 := 205

/-! ## One report -/

/-- `To13bitAto` of a finite offset. -/
def to13bitAto (ticks : Int → Int) (us : Int) : UInt16 :=
  if us < 0 then 0x1FFF else UInt16.ofInt (min (ticks us) 0x1FFE)

def kEcnEct1 : UInt16 := 0x01
def kEcnEct0 : UInt16 := 0x02
def kEcnCe : UInt16 := 0x03

def to2BitEcn : EcnMarking → UInt16
  | .notEct => 0
  | .ect1 => kEcnEct1 <<< 13
  | .ect0 => kEcnEct0 <<< 13
  | .ce => kEcnCe <<< 13

/-- The sixteen bits of a report. -/
def packetInfo (ticks : Int → Int) (p : PacketInfo) : UInt16 :=
  match p.arrivalTimeOffset with
  | .us us => 0x8000 ||| to2BitEcn p.ecn ||| to13bitAto ticks us
  | _ => 0

def atoToTimeDelta (receiveInfo : UInt16) : TimeDelta :=
  let ato := receiveInfo &&& 0x1FFF
  if ato = 0x1FFE then .plusInfinity
  else if ato = 0x1FFF then .minusInfinity
  else .us (1000000 * ato.toNat / 1024 : Nat)

def toEcnMarking (receiveInfo : UInt16) : EcnMarking :=
  let ecn := (receiveInfo >>> 13) &&& 0x03
  if ecn = kEcnEct1 then .ect1
  else if ecn = kEcnEct0 then .ect0
  else if ecn = kEcnCe then .ce
  else .notEct

/-- A report as it is read, before it is made a `PacketInfo`. -/
structure Report where
  ssrc : UInt32
  sequenceNumber : UInt16
  packetInfo : UInt16
deriving DecidableEq, Repr

def Report.received (r : Report) : Bool := r.packetInfo &&& 0x8000 != 0

/-- What `Parse` puts into `packets_`. -/
def Report.toPacketInfo (r : Report) : PacketInfo where
  ssrc := r.ssrc
  sequenceNumber := r.sequenceNumber
  arrivalTimeOffset := if r.received then atoToTimeDelta r.packetInfo else .minusInfinity
  ecn := toEcnMarking r.packetInfo

/-! ## Create -/

/-- The buffer up to the position, and what the callback has been given. -/
structure Output where
  buffer : Bytes := []
  emitted : List Bytes := []
deriving DecidableEq, Repr

def onBufferFull (o : Output) : Bool × Output :=
  if o.buffer.length = 0 then (false, o) else (true, { buffer := [], emitted := o.emitted ++ [o.buffer] })

structure CongestionControlFeedback where
  senderSsrc : UInt32 := 0
  reportTimestampCompactNtp : UInt32 := 0
  packets : List PacketInfo := []

/-- A report block. -/
def encodeBlock (ticks : Int → Int) (ssrc : UInt32) (base : UInt16) (reports : List PacketInfo) : Bytes :=
  put32 ssrc ++ (put16 base ++ (put16 (UInt16.ofNat reports.length) ++
    (reports.flatMap (fun p => put16 (packetInfo ticks p)) ++
      if reports.length % 2 ≠ 0 then put16 0 else [])))

/-- A round of the loop over the report blocks of a fragment, with the reports not written yet and the
    blocks so far. `room` is what the fragment has for blocks and timestamp. -/
def blockStep (ticks : Int → Int) (room : Nat) :
    List PacketInfo × Bytes → Option ((List PacketInfo × Bytes) ⊕ (List PacketInfo × Bytes))
  | ([], blocks) => some (.inr ([], blocks))
  | (first :: packets, blocks) =>
    if room - blocks.length < kMinReportBlockLength + kTimestampLength then
      some (.inr (first :: packets, blocks))
    else
      let maxReports := min
        ((room - blocks.length - kTimestampLength - kHeaderPerMediaSssrcLength) / 4 * 2) kMaxReportsPerSsrc
      let reports := ((first :: packets).take maxReports).takeWhile (·.ssrc == first.ssrc)
      let blocks := blocks ++ encodeBlock ticks first.ssrc first.sequenceNumber reports
      let rest := (first :: packets).drop reports.length
      -- The block has hit a limit.
      if rest.head?.any (·.ssrc == first.ssrc) then some (.inr (rest, blocks))
      else some (.inl (rest, blocks))

namespace CongestionControlFeedback

variable (ticks : Int → Int) (f : CongestionControlFeedback)

/-- A fragment: its blocks, then the timestamp, then the header in front of both. -/
def fragment (capacity : Nat) (packets : List PacketInfo) : Option (List PacketInfo × Bytes) := do
  let (rest, blocks) ← iterate (blockStep ticks (capacity - (kHeaderLength + kSenderSsrcLength)))
    (packets.length + 1) (packets, [])
  let size := kHeaderLength + kSenderSsrcLength + blocks.length + kTimestampLength
  return (rest, createHeader kFeedbackMessageType kPacketType (size / 4 - 1) ++
    (put32 f.senderSsrc ++ (blocks ++ put32 f.reportTimestampCompactNtp)))

/-- The loop that empties the buffer until there is room. -/
def makeRoomStep (maxLength minPacketLength : Nat) (o : Output) : Option (Output ⊕ (Bool × Output)) :=
  if maxLength - o.buffer.length < minPacketLength then
    let (ok, o) := onBufferFull o
    if ok then some (.inl o) else some (.inr (false, o))
  else some (.inr (true, o))

def minPacketLength : Nat := kFeedbackHeaderLength + if f.packets = [] then 0 else kMinReportBlockLength

/-- A round of the outer loop of `Create`. The buffer is emptied at most once before a fragment. -/
def createStep (maxLength : Nat) :
    List PacketInfo × Output → Option ((List PacketInfo × Output) ⊕ (Bool × Output))
  | (packets, o) => do
    let (ok, o) ← iterate (makeRoomStep maxLength f.minPacketLength) 2 o
    if !ok then some (.inr (false, o))
    else
      let capacity := min ((maxLength - o.buffer.length) / 4 * 4) kMaxRtcpPacketLength
      let (rest, written) ← f.fragment ticks capacity packets
      let o := { o with buffer := o.buffer ++ written }
      if rest = [] then some (.inr (true, o))
      else
        let (ok, o) := onBufferFull o
        if ok then some (.inl (rest, o)) else some (.inr (false, o))

/-- `Create`; the buffer holds what has been written before. -/
def create (buffer : Bytes) (maxLength : Nat) : Option (Bool × Output) :=
  if maxLength < buffer.length then some (false, { buffer := buffer })
  else iterate (f.createStep ticks maxLength) (f.packets.length + 1) (f.packets, { buffer := buffer })

end CongestionControlFeedback

/-! ## Parse -/

/-- What `Parse` reads; `packets_` is made of the reports. -/
structure ParsedFeedback where
  senderSsrc : UInt32 := 0
  reportTimestampCompactNtp : UInt32 := 0
  reports : List Report := []
deriving DecidableEq, Repr

def ParsedFeedback.packets (f : ParsedFeedback) : List PacketInfo := f.reports.map Report.toPacketInfo

/-- A round of the loop of `Parse`: where it is, and the reports so far. -/
def parseBlockStep (buffer : Bytes) (payloadEnd : Nat) :
    Nat × List Report → Option ((Nat × List Report) ⊕ (Bool × List Report))
  | (payload, reports) =>
    if payload + kHeaderPerMediaSssrcLength < payloadEnd then do
      let ssrc ← read32 buffer payload
      let baseSeqno ← read16 buffer (payload + 4)
      let numReports ← read16 buffer (payload + 6)
      let payload := payload + 8
      if payloadEnd < payload + 2 * numReports.toNat then some (.inr (false, reports))
      else do
        let block ← (List.range numReports.toNat).mapM fun i => do
          let packetInfo ← read16 buffer (payload + 2 * i)
          return Report.mk ssrc (baseSeqno + UInt16.ofNat i) packetInfo
        let padding := if numReports.toNat % 2 ≠ 0 then 2 else 0
        some (.inl (payload + 2 * numReports.toNat + padding, reports ++ block))
    else some (.inr (payload == payloadEnd, reports))

/-- `CongestionControlFeedback::Parse`. -/
def parseFeedback (h : RtcpCommonHeader) (buffer : Bytes) : Option (Bool × ParsedFeedback) :=
  if h.payloadSize % 4 ≠ 0 ∨ h.payloadSize < kSenderSsrcLength + kTimestampLength then some (false, {})
  else do
    let senderSsrc ← read32 buffer h.payload
    let payloadEnd := h.payload + h.payloadSize - 4
    let timestamp ← read32 buffer payloadEnd
    let (ok, reports) ← iterate (parseBlockStep buffer payloadEnd) (h.payloadSize + 1) (h.payload + 4, [])
    return (ok, ⟨senderSsrc, timestamp, reports⟩)

/-- A datagram with one RTCP packet: the common header is parsed, then the feedback. -/
def parseFragment (buffer : Bytes) : Option (Bool × ParsedFeedback) := do
  let (ok, h) ← RtcpCommonHeader.parse {} buffer
  if ok then parseFeedback h buffer else some (false, {})

end CrossTransfer.Minirtc
