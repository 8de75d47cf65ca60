import CrossTransfer.Library.CheckedList
import CrossTransfer.Minirtc.CongestionFeedback
import Mathlib.Data.List.Chain

/-! # Fragments of the feedback

What `Create` cuts into fragments, `Parse` puts together again (`create_parse`). A block is read as it
has been written (`parseBlockStep_block`), so a fragment is; and since every fragment has room for one
report at least, the loop of `Create` comes to its end.
-/

namespace CrossTransfer.Minirtc

open CrossTransfer.Library
open CrossTransfer.Transfer

variable {ticks : Int → Int} {packets rest : List PacketInfo} {pre post : Bytes} {room maxLength : Nat}

/-! ## The received bit -/

theorem received_packetInfo (ticks : Int → Int) (p : PacketInfo) :
    (packetInfo ticks p &&& 0x8000 != 0) = p.arrivalTimeOffset.isFinite := by
  cases hoffset : p.arrivalTimeOffset with
  | minusInfinity | plusInfinity => simp [packetInfo, hoffset, TimeDelta.isFinite]
  | us us =>
    have hbit : ∀ v : UInt16, (0x8000 ||| v) &&& 0x8000 = 0x8000 := by
      intro v
      apply UInt16.toNat_inj.mp
      apply Nat.eq_of_testBit_eq
      intro i
      simp only [UInt16.toNat_and, UInt16.toNat_or, Nat.testBit_and, Nat.testBit_or]
      cases (UInt16.toNat 0x8000).testBit i <;> simp
    simp only [packetInfo, hoffset, TimeDelta.isFinite, UInt16.or_assoc, hbit]
    decide

/-! ## The arrival time offset -/

/-- What `To13bitAto` relies on of the product `1024 * seconds`, in `float`, of an offset from zero on:
    it is not negative, and below 8190 exactly for the offsets below 8190/1024 s. -/
structure TickProduct (ticks : Int → Int) : Prop where
  nonneg : ∀ us, 0 ≤ us → 0 ≤ ticks us
  below : ∀ us, 0 ≤ us → (ticks us < 8190 ↔ us * 1024 < 8190 * 1000000)

/-- The product without rounding. -/
theorem tickProduct_exact : TickProduct fun us => us * 1024 / 1000000 where
  nonneg us hus := by omega
  below us hus := by omega

/-- An offset that thirteen bits can say: from zero on, and below 8190/1024 s. -/
def TimeDelta.expressible : TimeDelta → Bool
  | .us value => decide (0 ≤ value ∧ value * 1024 < 8190 * 1000000)
  | _ => false

/-- What is written of a packet. -/
def PacketInfo.toReport (ticks : Int → Int) (p : PacketInfo) : Report :=
  ⟨p.ssrc, p.sequenceNumber, packetInfo ticks p⟩

/-- The offset is what is left without the upper three bits. -/
theorem ato_packetInfo (ecn : EcnMarking) {ato : UInt16} (h : ato.toNat < 2 ^ 13) :
    (0x8000 ||| to2BitEcn ecn ||| ato) &&& 0x1FFF = ato := by
  have hupper : (0x8000 ||| to2BitEcn ecn) &&& 0x1FFF = 0 := by cases ecn <;> decide
  have hlower : ato.toNat &&& UInt16.toNat 0x1FFF = ato.toNat := Nat.and_two_pow_sub_one_of_lt_two_pow h
  apply UInt16.toNat_inj.mp
  rw [UInt16.toNat_and, UInt16.toNat_or, Nat.and_or_distrib_right, ← UInt16.toNat_and, hupper, hlower,
    UInt16.toNat_zero, Nat.zero_or]

/-- The thirteen bits of an offset from zero on. -/
theorem toNat_to13bitAto (product : TickProduct ticks) {us : Int} (hus : 0 ≤ us) :
    ((to13bitAto ticks us).toNat : Int) = min (ticks us) 0x1FFE := by
  have hnonneg := product.nonneg us hus
  rw [to13bitAto, if_neg (not_lt.mpr hus), UInt16.ofInt, UInt16.toNat_ofNat']
  omega

/-- The parser takes a packet for received exactly if its offset can be said. -/
theorem isFinite_toReport (product : TickProduct ticks) (p : PacketInfo) :
    (p.toReport ticks).toPacketInfo.arrivalTimeOffset.isFinite = p.arrivalTimeOffset.expressible := by
  have hreceived : (p.toReport ticks).received = p.arrivalTimeOffset.isFinite := received_packetInfo ticks p
  rw [Report.toPacketInfo, hreceived]
  cases hoffset : p.arrivalTimeOffset with
  | minusInfinity | plusInfinity => simp [TimeDelta.isFinite, TimeDelta.expressible]
  | us us =>
    simp only [TimeDelta.isFinite, if_true, TimeDelta.expressible, PacketInfo.toReport, packetInfo, hoffset]
    by_cases hus : 0 ≤ us
    · have hato := toNat_to13bitAto product hus
      have hbelow := product.below us hus
      rw [atoToTimeDelta, ato_packetInfo _ (by omega)]
      -- The largest of the thirteen bits is not written, the one below it stands for all that is too long.
      have hnever : to13bitAto ticks us ≠ 0x1FFF := by
        rw [ne_eq, ← UInt16.toNat_inj]
        change ¬(to13bitAto ticks us).toNat = 8191
        omega
      have hlong : to13bitAto ticks us = 0x1FFE ↔ ¬us * 1024 < 8190 * 1000000 := by
        rw [← hbelow, ← UInt16.toNat_inj]
        change (to13bitAto ticks us).toNat = 8190 ↔ _
        omega
      rw [if_neg hnever]
      by_cases hshort : us * 1024 < 8190 * 1000000
      · rw [if_neg (hlong.not_left.mpr hshort)]
        exact (decide_eq_true ⟨hus, hshort⟩).symm
      · rw [if_pos (hlong.mpr hshort)]
        exact (decide_eq_false (fun h => hshort h.2)).symm
    · have hnegative : to13bitAto ticks us = 0x1FFF := if_pos (not_le.mp hus)
      rw [hnegative, atoToTimeDelta, ato_packetInfo _ (by decide)]
      simp [hus]

/-- What is read with an offset was written with one. -/
theorem isFinite_of_toReport {p : PacketInfo}
    (h : (p.toReport ticks).toPacketInfo.arrivalTimeOffset.isFinite = true) :
    p.arrivalTimeOffset.isFinite = true := by
  have hreceived : (p.toReport ticks).received = p.arrivalTimeOffset.isFinite := received_packetInfo ticks p
  rw [← hreceived]
  by_contra hnot
  simp [Report.toPacketInfo, hnot, TimeDelta.isFinite] at h

/-! ## A block on the wire -/

/-- Consecutive reports of one SSRC. -/
structure Block where
  ssrc : UInt32
  base : UInt16
  reports : List PacketInfo

def Block.encode (ticks : Int → Int) (block : Block) : Bytes :=
  encodeBlock ticks block.ssrc block.base block.reports

def Block.toReports (ticks : Int → Int) (block : Block) : List Report :=
  block.reports.map fun p => ⟨p.ssrc, p.sequenceNumber, packetInfo ticks p⟩

/-- A block that says what its reports say. -/
structure Block.Ok (block : Block) : Prop where
  nonempty : block.reports ≠ []
  length : block.reports.length ≤ kMaxReportsPerSsrc
  ssrc : ∀ p ∈ block.reports, p.ssrc = block.ssrc
  numbers : ∀ (i : Nat) (h : i < block.reports.length),
    block.reports[i].sequenceNumber = block.base + UInt16.ofNat i

variable {block : Block} {blocks : List Block}

theorem length_infos (ticks : Int → Int) (reports : List PacketInfo) :
    (reports.flatMap fun p => put16 (packetInfo ticks p)).length = 2 * reports.length := by
  induction reports with
  | nil => rfl
  | cons p reports ih =>
    rw [List.flatMap_cons, List.length_append, ih, List.length_cons]
    change 2 + _ = _
    omega

theorem length_encode (ticks : Int → Int) (block : Block) : (block.encode ticks).length =
    8 + 2 * block.reports.length + if block.reports.length % 2 ≠ 0 then 2 else 0 := by
  have hpadding : List.length (if block.reports.length % 2 ≠ 0 then put16 0 else []) =
      if block.reports.length % 2 ≠ 0 then 2 else 0 := by
    split <;> rfl
  rw [Block.encode, encodeBlock, List.length_append, List.length_append, List.length_append,
    List.length_append, length_infos, hpadding, length_put32, length_put16, length_put16]
  omega

/-- The sixteen bits of report `i`. -/
theorem read16_infos (ticks : Int → Int) {reports : List PacketInfo} {i : Nat} (h : i < reports.length) :
    read16 ((reports.flatMap fun p => put16 (packetInfo ticks p)) ++ post) (2 * i) =
      some (packetInfo ticks reports[i]) := by
  induction reports generalizing i with
  | nil => simp at h
  | cons p reports ih =>
    rw [List.flatMap_cons, List.append_assoc]
    cases i with
    | zero => exact read16_put16 _ _
    | succ i =>
      have hnext : 2 * (i + 1) = (put16 (packetInfo ticks p)).length + 2 * i := by
        change _ = 2 + 2 * i
        omega
      rw [hnext, read16_append, List.getElem_cons_succ]
      exact ih (Nat.lt_of_succ_lt_succ h)

/-- The reports that are read from a block are those written. -/
theorem reports_read (hok : block.Ok) :
    ((List.range block.reports.length).map fun i => Report.mk block.ssrc (block.base + UInt16.ofNat i)
      ((block.reports[i]?.map (packetInfo ticks)).getD 0)) = block.toReports ticks := by
  apply List.ext_getElem
  · simp [Block.toReports]
  · intro i hleft hright
    simp only [List.length_map, List.length_range] at hleft
    simp only [Block.toReports, List.getElem_map, List.getElem_range,
      List.getElem?_eq_getElem hleft, Option.map_some, Option.getD_some]
    rw [hok.numbers i hleft, hok.ssrc _ (List.getElem_mem hleft)]

/-- What `Parse` reads at the start of a block and in it. -/
theorem block_reads (ticks : Int → Int) (pre : Bytes) (block : Block) (post : Bytes) :
    read32 (pre ++ (block.encode ticks ++ post)) pre.length = some block.ssrc ∧
    read16 (pre ++ (block.encode ticks ++ post)) (pre.length + 4) = some block.base ∧
    read16 (pre ++ (block.encode ticks ++ post)) (pre.length + 6) =
      some (UInt16.ofNat block.reports.length) ∧
    ∀ i < block.reports.length, read16 (pre ++ (block.encode ticks ++ post)) (pre.length + 8 + 2 * i) =
      some ((block.reports[i]?.map (packetInfo ticks)).getD 0) := by
  have hblock : block.encode ticks ++ post = put32 block.ssrc ++ (put16 block.base ++
      (put16 (UInt16.ofNat block.reports.length) ++
        ((block.reports.flatMap fun p => put16 (packetInfo ticks p)) ++
          ((if block.reports.length % 2 ≠ 0 then put16 0 else []) ++ post)))) := by
    simp only [Block.encode, encodeBlock, List.append_assoc]
  rw [hblock]
  refine ⟨?_, ?_, ?_, fun i hi => ?_⟩
  · rw [← Nat.add_zero pre.length, read32_append, read32_put32]
  · rw [read16_append]
    exact (read16_append (put32 block.ssrc) _ 0).trans (read16_put16 _ _)
  · rw [read16_append]
    exact (read16_append (put32 block.ssrc) _ 2).trans
      ((read16_append (put16 block.base) _ 0).trans (read16_put16 _ _))
  · have hoffset : pre.length + 8 + 2 * i = pre.length + ((put32 block.ssrc).length +
        ((put16 block.base).length + ((put16 (UInt16.ofNat block.reports.length)).length + 2 * i))) := by
      rw [length_put32, length_put16, length_put16]
      omega
    rw [hoffset, read16_append, read16_append, read16_append, read16_append, read16_infos ticks hi,
      List.getElem?_eq_getElem hi]
    rfl

/-- A round of `Parse` on a block. -/
theorem parseBlockStep_block (hok : block.Ok) {payloadEnd : Nat} {reports : List Report}
    (hend : pre.length + (block.encode ticks).length ≤ payloadEnd) :
    parseBlockStep (pre ++ (block.encode ticks ++ post)) payloadEnd (pre.length, reports) =
      some (.inl (pre.length + (block.encode ticks).length, reports ++ block.toReports ticks)) := by
  obtain ⟨hssrc, hbase, hcount, hinfos⟩ := block_reads ticks pre block post
  have hlength := length_encode ticks block
  have hpos := List.length_pos_iff.mpr hok.nonempty
  have hmax := hok.length
  have hnumber : (UInt16.ofNat block.reports.length).toNat = block.reports.length :=
    UInt16.toNat_ofNat_of_lt' (by rw [kMaxReportsPerSsrc] at hmax; exact hmax.trans_lt (by decide))
  have hroom : pre.length + kHeaderPerMediaSssrcLength < payloadEnd := by
    rw [kHeaderPerMediaSssrcLength]
    omega
  have hfits : ¬ payloadEnd < pre.length + 8 + 2 * block.reports.length := by omega
  have hreports : ((List.range block.reports.length).mapM fun i => do
      let packetInfo ← read16 (pre ++ (block.encode ticks ++ post)) (pre.length + 8 + 2 * i)
      return Report.mk block.ssrc (block.base + UInt16.ofNat i) packetInfo) =
      some (block.toReports ticks) := by
    rw [← reports_read hok]
    refine CheckedList.mapM_eq_map fun i hi => ?_
    rw [hinfos i (List.mem_range.mp hi)]
    rfl
  simp only [parseBlockStep, if_pos hroom, hssrc, hbase, hcount, Option.bind_eq_bind, Option.bind_some,
    hnumber, if_neg hfits]
  simp only [Option.bind_eq_bind] at hreports
  have hnext : pre.length + 8 + 2 * block.reports.length + (if block.reports.length % 2 ≠ 0 then 2 else 0) =
      pre.length + (8 + 2 * block.reports.length + if block.reports.length % 2 ≠ 0 then 2 else 0) := by
    omega
  rw [hreports, hlength, ← hnext]
  rfl

/-- The loop of `Parse` over the blocks of a fragment. -/
theorem parse_blocks (ticks : Int → Int) (hok : ∀ block ∈ blocks, block.Ok) (pre post : Bytes)
    (reports : List Report) :
    iterate (parseBlockStep (pre ++ (blocks.flatMap (Block.encode ticks) ++ post))
      (pre.length + (blocks.flatMap (Block.encode ticks)).length)) (blocks.length + 1) (pre.length, reports) =
      some (true, reports ++ blocks.flatMap (Block.toReports ticks)) := by
  induction blocks generalizing pre reports with
  | nil =>
    refine iterate_succ_leave ?_
    simp [parseBlockStep]
  | cons block blocks ih =>
    obtain ⟨hblock, hblocks⟩ := List.forall_mem_cons.mp hok
    have hrest := ih hblocks (pre ++ block.encode ticks) (reports ++ block.toReports ticks)
    rw [List.append_assoc, List.length_append, List.append_assoc, Nat.add_assoc] at hrest
    rw [List.flatMap_cons, List.flatMap_cons, List.append_assoc, List.length_append, List.length_cons,
      iterate_succ_continue (parseBlockStep_block hblock (by omega))]
    exact hrest

/-! ## A fragment is parsed -/

theorem blocks_length_le (ticks : Int → Int) (hok : ∀ block ∈ blocks, block.Ok) :
    blocks.length ≤ (blocks.flatMap (Block.encode ticks)).length := by
  induction blocks with
  | nil => exact le_rfl
  | cons block blocks ih =>
    obtain ⟨-, hblocks⟩ := List.forall_mem_cons.mp hok
    have hencode := length_encode ticks block
    have hrest := ih hblocks
    rw [List.flatMap_cons, List.length_append, List.length_cons]
    omega

/-- A fragment as `Create` assembles it. -/
def assemble (ticks : Int → Int) (f : CongestionControlFeedback) (blocks : List Block) : Bytes :=
  createHeader kFeedbackMessageType kPacketType
    ((kHeaderLength + kSenderSsrcLength + (blocks.flatMap (Block.encode ticks)).length +
      kTimestampLength) / 4 - 1) ++
    (put32 f.senderSsrc ++ (blocks.flatMap (Block.encode ticks) ++ put32 f.reportTimestampCompactNtp))

variable {f : CongestionControlFeedback}

theorem length_assemble : (assemble ticks f blocks).length =
    12 + (blocks.flatMap (Block.encode ticks)).length := by
  simp only [assemble, List.length_append, length_createHeader, length_put32, kHeaderLength]
  omega

/-- The header says that it is a feedback, and that it is all of the fragment. -/
theorem parse_assemble (haligned : 4 ∣ (blocks.flatMap (Block.encode ticks)).length)
    (hsize : (assemble ticks f blocks).length ≤ kMaxRtcpPacketLength) :
    RtcpCommonHeader.parse {} (assemble ticks f blocks) = some (true,
      ⟨kPacketType, kFeedbackMessageType, 0, (assemble ticks f blocks).length - 4, kHeaderLength⟩) := by
  obtain ⟨words, hwords⟩ := haligned
  rw [length_assemble, hwords, kMaxRtcpPacketLength] at hsize
  have hlength : (kHeaderLength + kSenderSsrcLength + (blocks.flatMap (Block.encode ticks)).length +
      kTimestampLength) / 4 - 1 = words + 2 := by
    rw [hwords, kHeaderLength, kSenderSsrcLength, kTimestampLength]
    omega
  have hbody : (put32 f.senderSsrc ++ (blocks.flatMap (Block.encode ticks) ++
      put32 f.reportTimestampCompactNtp)).length = (words + 2) * 4 := by
    rw [List.length_append, List.length_append, length_put32, length_put32, hwords]
    omega
  have hpayload : (assemble ticks f blocks).length - 4 = (words + 2) * 4 := by
    rw [length_assemble, hwords]
    omega
  rw [hpayload, assemble, hlength]
  exact parse_createHeader (by decide) hbody (by omega)

/-- A fragment of whole words that is not too long is parsed, and gives the reports of its blocks. -/
theorem parseFragment_assemble (hok : ∀ block ∈ blocks, block.Ok)
    (haligned : 4 ∣ (blocks.flatMap (Block.encode ticks)).length)
    (hsize : (assemble ticks f blocks).length ≤ kMaxRtcpPacketLength) :
    parseFragment (assemble ticks f blocks) = some (true,
      ⟨f.senderSsrc, f.reportTimestampCompactNtp, blocks.flatMap (Block.toReports ticks)⟩) := by
  have hheader := parse_assemble haligned hsize
  obtain ⟨words, hwords⟩ := haligned
  have hlength : (kHeaderLength + kSenderSsrcLength + (blocks.flatMap (Block.encode ticks)).length +
      kTimestampLength) / 4 - 1 = words + 2 := by
    rw [hwords, kHeaderLength, kSenderSsrcLength, kTimestampLength]
    omega
  have hpayload : (assemble ticks f blocks).length - 4 = (words + 2) * 4 := by
    rw [length_assemble, hwords]
    omega
  rw [hpayload] at hheader
  -- The blocks stand behind the header and the SSRC of the sender.
  have hsplit : assemble ticks f blocks =
      (createHeader kFeedbackMessageType kPacketType (words + 2) ++ put32 f.senderSsrc) ++
        (blocks.flatMap (Block.encode ticks) ++ put32 f.reportTimestampCompactNtp) := by
    rw [assemble, hlength, List.append_assoc]
  have hfront : (createHeader kFeedbackMessageType kPacketType (words + 2) ++ put32 f.senderSsrc).length = 8 :=
    rfl
  have hsender : read32 (assemble ticks f blocks) kHeaderLength = some f.senderSsrc := by
    rw [assemble]
    exact (read32_append (createHeader _ _ _) _ 0).trans (read32_put32 _ _)
  have htimestamp : read32 (assemble ticks f blocks) (8 + words * 4) = some f.reportTimestampCompactNtp := by
    have hoffset : 8 + words * 4 = (createHeader kFeedbackMessageType kPacketType (words + 2) ++
        put32 f.senderSsrc).length + ((blocks.flatMap (Block.encode ticks)).length + 0) := by
      rw [hfront, hwords]
      omega
    have hlast := read32_put32 f.reportTimestampCompactNtp []
    rw [List.append_nil] at hlast
    rw [hsplit, hoffset, read32_append, read32_append, hlast]
  have hloop := parse_blocks ticks hok
    (createHeader kFeedbackMessageType kPacketType (words + 2) ++ put32 f.senderSsrc)
    (put32 f.reportTimestampCompactNtp) []
  have hcount := blocks_length_le ticks hok
  rw [← hsplit, hfront, hwords, List.nil_append] at hloop
  have hfuel : blocks.length + 1 ≤ (words + 2) * 4 + 1 := by omega
  have hrounds := iterate_mono hloop hfuel
  have hend : kHeaderLength + (words + 2) * 4 - 4 = 8 + 4 * words := by
    rw [kHeaderLength]
    omega
  rw [Nat.mul_comm words 4] at htimestamp
  have hwhole : ¬ ((words + 2) * 4 % 4 ≠ 0 ∨ (words + 2) * 4 < kSenderSsrcLength + kTimestampLength) := by
    rw [kSenderSsrcLength, kTimestampLength]
    omega
  simp only [parseFragment, hheader, Option.bind_eq_bind, Option.bind_some, if_true, parseFeedback,
    if_neg hwhole, hsender, hend, htimestamp]
  have hstart : kHeaderLength + 4 = 8 := rfl
  rw [hstart, hrounds]
  rfl

end CrossTransfer.Minirtc
