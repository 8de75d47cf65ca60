import CrossTransfer.Minirtc.ByteIo
import CrossTransfer.Transfer.Utf8

/-! # The header of RTCP packets

`CreateHeader` of `minirtc/src/rtcp/rtcp_packet/rtcp_packet.{h,cpp}` and `RtcpCommonHeader::Parse` of
`rtcp_common_header.{h,cpp}`. A header says how long its packet is, in words of four bytes.
-/

namespace CrossTransfer.Minirtc

open CrossTransfer.Transfer

def kHeaderLength : Nat := 4

/-- `CreateHeader`. The length is in words, and does not count the header. -/
def createHeader (countOrFormat packetType : UInt8) (length : Nat) : Bytes :=
  (0x80 ||| countOrFormat) :: packetType :: put16 (UInt16.ofNat length)

/-- A payload is given by where it starts in the buffer, and its size. -/
structure RtcpCommonHeader where
  packetType : UInt8 := 0
  countOrFormat : UInt8 := 0
  paddingSize : UInt8 := 0
  payloadSize : Nat := 0
  payload : Nat := 0
deriving DecidableEq, Repr

namespace RtcpCommonHeader

variable (h : RtcpCommonHeader) (buffer : Bytes)

/-- The padding at the end of the payload. -/
def parsePadding : Option (Bool × RtcpCommonHeader) :=
  if h.payloadSize = 0 then some (false, h)
  else do
    let paddingSize ← read8 buffer (h.payload + h.payloadSize - 1)
    let h := { h with paddingSize := paddingSize }
    if paddingSize = 0 then some (false, h)
    else if h.payloadSize < paddingSize.toNat then some (false, h)
    else some (true, { h with payloadSize := h.payloadSize - paddingSize.toNat })

def parse : Option (Bool × RtcpCommonHeader) :=
  if buffer.length < kHeaderLength then some (false, h)
  else do
    let first ← read8 buffer 0
    if first >>> 6 ≠ 2 then some (false, h)
    else do
      let packetType ← read8 buffer 1
      let length ← read16 buffer 2
      let h := { h with
        countOrFormat := first &&& 0x1F
        packetType := packetType
        payloadSize := length.toNat * 4
        payload := kHeaderLength
        paddingSize := 0 }
      if buffer.length < kHeaderLength + h.payloadSize then some (false, h)
      else if first &&& 0x20 ≠ 0 then h.parsePadding buffer
      else some (true, h)

end RtcpCommonHeader

theorem format_read {countOrFormat : UInt8} (h : countOrFormat < 0x1F) :
    (0x80 ||| countOrFormat) >>> 6 = 2 ∧ (0x80 ||| countOrFormat) &&& 0x1F = countOrFormat ∧
      (0x80 ||| countOrFormat) &&& 0x20 = 0 := by
  revert h
  exact Paths.forall_byte (p := fun c => c < 0x1F → (0x80 ||| c) >>> 6 = 2 ∧ (0x80 ||| c) &&& 0x1F = c ∧
    (0x80 ||| c) &&& 0x20 = 0) (by decide) countOrFormat

theorem length_createHeader (countOrFormat packetType : UInt8) (length : Nat) :
    (createHeader countOrFormat packetType length).length = kHeaderLength := rfl

/-- A packet whose header says how long it is. -/
theorem parse_createHeader {countOrFormat packetType : UInt8} {length : Nat} {body : Bytes}
    (hformat : countOrFormat < 0x1F) (hbody : body.length = length * 4) (hlength : length < 2 ^ 16) :
    RtcpCommonHeader.parse {} (createHeader countOrFormat packetType length ++ body) =
      some (true, ⟨packetType, countOrFormat, 0, length * 4, kHeaderLength⟩) := by
  obtain ⟨hversion, hcount, hpadding⟩ := format_read hformat
  have hsize : (createHeader countOrFormat packetType length ++ body).length = kHeaderLength + length * 4 := by
    rw [List.length_append, length_createHeader, hbody]
  have hread : read16 (createHeader countOrFormat packetType length ++ body) 2 =
      some (UInt16.ofNat length) := congrArg some (join16 _)
  have hwords : (UInt16.ofNat length).toNat = length := UInt16.toNat_ofNat_of_lt' hlength
  have hfirst : read8 (createHeader countOrFormat packetType length ++ body) 0 =
      some (0x80 ||| countOrFormat) := rfl
  have htype : read8 (createHeader countOrFormat packetType length ++ body) 1 = some packetType := rfl
  have hheader : ¬ (createHeader countOrFormat packetType length ++ body).length < kHeaderLength := by
    omega
  have hwhole : ¬ (createHeader countOrFormat packetType length ++ body).length <
      kHeaderLength + length * 4 := by omega
  simp only [RtcpCommonHeader.parse, if_neg hheader, hfirst, Option.bind_eq_bind, Option.bind_some,
    hversion, ne_eq, not_true_eq_false, if_false, htype, hread, hwords, if_neg hwhole, hcount, hpadding]

end CrossTransfer.Minirtc
