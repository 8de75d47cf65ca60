import CrossTransfer.Minirtc.FeedbackFragments
import Mathlib.Data.List.TakeWhile

/-! # Feedback is read as it was written

`Create` takes the reports in order, a fragment at a time. `Written` is what its inner loop keeps; a
fragment takes a report at least, so that the outer loop comes to its end, and what a parser reads from
the fragments is all the reports.
-/

namespace CrossTransfer.Minirtc

open CrossTransfer.Library
open CrossTransfer.Transfer

variable {ticks : Int → Int} {f : CongestionControlFeedback} {first : PacketInfo}
  {packets rest : List PacketInfo} {bytes : Bytes} {room capacity maxLength maxReports : Nat}

/-- Inside a run of one SSRC the sequence numbers are consecutive. -/
def Consecutive (packets : List PacketInfo) : Prop :=
  packets.IsChain fun p q => p.ssrc = q.ssrc → q.sequenceNumber = p.sequenceNumber + 1

/-! ## The next block -/

/-- The reports that `Create` takes for a block. -/
def nextBlock (maxReports : Nat) (first : PacketInfo) (packets : List PacketInfo) : Block where
  ssrc := first.ssrc
  base := first.sequenceNumber
  reports := ((first :: packets).take maxReports).takeWhile (·.ssrc == first.ssrc)

theorem nextBlock_front (maxReports : Nat) (first : PacketInfo) (packets : List PacketInfo) :
    (nextBlock maxReports first packets).reports <+: first :: packets :=
  (List.takeWhile_prefix _).trans (List.take_prefix _ _)

theorem nextBlock_head (first : PacketInfo) (packets : List PacketInfo) (hmax : 0 < maxReports) : ∃ reports,
    (nextBlock maxReports first packets).reports = first :: reports := by
  cases maxReports with
  | zero => contradiction
  | succ maxReports => exact ⟨(packets.take maxReports).takeWhile (·.ssrc == first.ssrc), by simp [nextBlock]⟩

theorem length_nextBlock : (nextBlock maxReports first packets).reports.length ≤ maxReports :=
  (List.takeWhile_prefix _).length_le.trans (List.length_take_le _ _)

theorem nextBlock_ssrc : ∀ p ∈ (nextBlock maxReports first packets).reports, p.ssrc = first.ssrc := by
  intro p hp
  have hsame := List.mem_takeWhile_imp hp
  simpa using hsame

/-- The numbers of a block count from the number of its first report. -/
theorem nextBlock_numbers (hconsecutive : Consecutive (first :: packets)) (hmax : 0 < maxReports) :
    ∀ (i : Nat) (h : i < (nextBlock maxReports first packets).reports.length),
      (nextBlock maxReports first packets).reports[i].sequenceNumber =
        first.sequenceNumber + UInt16.ofNat i := by
  have hfront := List.IsChain.prefix hconsecutive (nextBlock_front maxReports first packets)
  have hchain := List.isChain_iff_getElem.mp hfront
  intro i
  induction i with
  | zero =>
    intro h
    obtain ⟨reports, hreports⟩ := nextBlock_head first packets hmax
    simp [hreports]
  | succ i ih =>
    intro h
    have hssrc : (nextBlock maxReports first packets).reports[i].ssrc =
        (nextBlock maxReports first packets).reports[i + 1].ssrc :=
      (nextBlock_ssrc _ (List.getElem_mem _)).trans (nextBlock_ssrc _ (List.getElem_mem _)).symm
    rw [hchain i h hssrc, ih (by omega), UInt16.add_assoc, UInt16.ofNat_add]
    rfl

theorem nextBlock_ok (hconsecutive : Consecutive (first :: packets)) (hmax : 0 < maxReports)
    (hlimit : maxReports ≤ kMaxReportsPerSsrc) : (nextBlock maxReports first packets).Ok where
  nonempty := by
    obtain ⟨reports, hreports⟩ := nextBlock_head first packets hmax
    simp [hreports]
  length := length_nextBlock.trans hlimit
  ssrc := nextBlock_ssrc
  numbers := nextBlock_numbers hconsecutive hmax

/-! ## The loop over the blocks -/

/-- The blocks that are in a fragment with this room, and the reports that are left. -/
structure Written (ticks : Int → Int) (room : Nat) (packets : List PacketInfo) (blocks : List Block)
    (rest : List PacketInfo) : Prop where
  ok : ∀ block ∈ blocks, block.Ok
  split : packets = blocks.flatMap Block.reports ++ rest
  fits : (blocks.flatMap (Block.encode ticks)).length + kTimestampLength ≤ room
  aligned : 4 ∣ (blocks.flatMap (Block.encode ticks)).length

variable {blocks : List Block} {block : Block}

theorem Written.nil (hroom : kTimestampLength ≤ room) : Written ticks room packets [] packets where
  ok := by simp
  split := rfl
  fits := by simpa using hroom
  aligned := by simp

theorem Written.snoc (h : Written ticks room packets blocks (block.reports ++ rest)) (hok : block.Ok)
    (hfits : (blocks.flatMap (Block.encode ticks)).length + (block.encode ticks).length +
      kTimestampLength ≤ room) : Written ticks room packets (blocks ++ [block]) rest where
  ok := by
    intro b hb
    obtain hb | hb := List.mem_append.mp hb
    · exact h.ok b hb
    · rw [List.mem_singleton.mp hb]
      exact hok
  split := by simpa using h.split
  fits := by simpa using hfits
  aligned := by
    have haligned := h.aligned
    have hencode : 4 ∣ (block.encode ticks).length := by
      rw [length_encode]
      split <;> omega
    simpa using Nat.dvd_add haligned hencode

/-- A fragment with a block has taken a report. -/
theorem Written.progress (h : Written ticks room packets blocks rest) (hblocks : blocks ≠ []) :
    rest.length < packets.length := by
  obtain ⟨block, blocks, rfl⟩ := List.exists_cons_of_ne_nil hblocks
  have hpos := List.length_pos_iff.mpr (h.ok block List.mem_cons_self).nonempty
  rw [h.split, List.flatMap_cons, List.length_append, List.length_append]
  omega

/-- The largest number of reports that is allowed for a block leaves room for padding and timestamp. -/
theorem encode_fits (ticks : Int → Int) {left : Nat} (hleft : 16 ≤ left)
    (hreports : block.reports.length ≤ (left - kTimestampLength - kHeaderPerMediaSssrcLength) / 4 * 2) :
    (block.encode ticks).length + kTimestampLength ≤ left := by
  rw [length_encode, kTimestampLength]
  rw [kTimestampLength, kHeaderPerMediaSssrcLength] at hreports
  split <;> omega

/-- How many reports `Create` allows for a block. -/
def maxReportsFor (left : Nat) : Nat :=
  min ((left - kTimestampLength - kHeaderPerMediaSssrcLength) / 4 * 2) kMaxReportsPerSsrc

theorem maxReportsFor_pos {left : Nat} (hleft : 16 ≤ left) : 0 < maxReportsFor left := by
  simp only [maxReportsFor, kTimestampLength, kHeaderPerMediaSssrcLength, kMaxReportsPerSsrc]
  omega

/-- A block more. -/
theorem Written.next (h : Written ticks room packets blocks (first :: rest)) (hconsecutive : Consecutive packets)
    {left : Nat} (hroom : left + (blocks.flatMap (Block.encode ticks)).length = room) (hleft : 16 ≤ left)
    (hblock : block = nextBlock (maxReportsFor left) first rest) :
    Written ticks room packets (blocks ++ [block]) ((first :: rest).drop block.reports.length) ∧
      ((first :: rest).drop block.reports.length).length < (first :: rest).length := by
  have hsuffix : Consecutive (first :: rest) := by
    rw [h.split] at hconsecutive
    exact hconsecutive.right_of_append
  have hok : block.Ok := by
    rw [hblock]
    exact nextBlock_ok hsuffix (maxReportsFor_pos hleft) (Nat.min_le_right _ _)
  have hfits : (block.encode ticks).length + kTimestampLength ≤ left := by
    apply encode_fits ticks hleft
    rw [hblock]
    exact length_nextBlock.trans (Nat.min_le_left _ _)
  have hsplit : first :: rest = block.reports ++ (first :: rest).drop block.reports.length := by
    rw [hblock]
    exact List.prefix_append_drop (nextBlock_front ..)
  constructor
  · rw [hsplit] at h
    exact h.snoc hok (by omega)
  · have hpos := List.length_pos_iff.mpr hok.nonempty
    rw [List.length_drop]
    exact Nat.sub_lt (Nat.succ_pos _) hpos

/-- The loop over the blocks of a fragment. -/
theorem blocks_loop (ticks : Int → Int) (hconsecutive : Consecutive packets) (hroom : 16 ≤ room) :
    ∃ out, iterate (blockStep ticks room) (packets.length + 1) (packets, []) = some out ∧
      ∃ blocks, Written ticks room packets blocks out.1 ∧ out.2 = blocks.flatMap (Block.encode ticks) ∧
        (out.1 = [] ∨ out.1.length < packets.length) := by
  apply iterate_total (blockStep ticks room)
    (fun s => ∃ blocks, Written ticks room packets blocks s.1 ∧ s.2 = blocks.flatMap (Block.encode ticks))
    (fun s => s.1.length)
  · rintro ⟨rest, bytes⟩ ⟨blocks, hwritten, hbytes⟩
    simp only at hwritten hbytes
    cases rest with
    | nil => exact .inr ⟨_, rfl, blocks, hwritten, hbytes, .inl rfl⟩
    | cons first rest =>
      have hfits := hwritten.fits
      have hneeded : kMinReportBlockLength + kTimestampLength = 16 := rfl
      by_cases hfull : room - bytes.length < kMinReportBlockLength + kTimestampLength
      · -- No room for another block; there is one already, for the room was enough in the beginning.
        have hblocks : blocks ≠ [] := by
          rintro rfl
          rw [hbytes, hneeded, List.flatMap_nil, List.length_nil] at hfull
          omega
        exact .inr ⟨_, if_pos hfull, blocks, hwritten, hbytes, .inr (hwritten.progress hblocks)⟩
      · obtain ⟨block, hblock⟩ : ∃ block, block = nextBlock (maxReportsFor (room - bytes.length)) first rest :=
          ⟨_, rfl⟩
        rw [hneeded] at hfull
        have hleft : room - bytes.length + (blocks.flatMap (Block.encode ticks)).length = room := by
          rw [← hbytes] at hfits ⊢
          omega
        obtain ⟨hnext, hprogress⟩ := hwritten.next hconsecutive hleft (by omega) hblock
        have hout : bytes ++ block.encode ticks = (blocks ++ [block]).flatMap (Block.encode ticks) := by
          simp [hbytes]
        have hround : blockStep ticks room (first :: rest, bytes) =
            if ((first :: rest).drop block.reports.length).head?.any (·.ssrc == first.ssrc) then
              some (.inr ((first :: rest).drop block.reports.length, bytes ++ block.encode ticks))
            else some (.inl ((first :: rest).drop block.reports.length, bytes ++ block.encode ticks)) := by
          rw [hblock]
          exact if_neg hfull
        rw [hround]
        split
        · exact .inr ⟨_, rfl, _, hnext, hout, .inr (hnext.progress (by simp))⟩
        · exact .inl ⟨_, rfl, ⟨_, hnext, hout⟩, hprogress⟩
  · exact ⟨[], .nil (by rw [kTimestampLength]; omega), rfl⟩
  · exact Nat.lt_succ_self _

/-! ## A fragment -/

theorem fragment_written (ticks : Int → Int) (f : CongestionControlFeedback)
    (hconsecutive : Consecutive packets) (hcapacity : 24 ≤ capacity) :
    ∃ rest blocks, f.fragment ticks capacity packets = some (rest, assemble ticks f blocks) ∧
      Written ticks (capacity - 8) packets blocks rest ∧ (rest = [] ∨ rest.length < packets.length) := by
  have hroom : 16 ≤ capacity - 8 := by omega
  obtain ⟨⟨rest, bytes⟩, hloop, blocks, hwritten, hbytes, hprogress⟩ := blocks_loop ticks hconsecutive hroom
  refine ⟨rest, blocks, ?_, hwritten, hprogress⟩
  have hheader : kHeaderLength + kSenderSsrcLength = 8 := rfl
  rw [CongestionControlFeedback.fragment, hheader, hloop]
  simp only at hbytes
  rw [hbytes]
  rfl

/-- What is read from a report, and what should be: its SSRC, its number and whether it was received. -/
def Report.key (r : Report) : UInt32 × UInt16 × Bool := (r.ssrc, r.sequenceNumber, r.received)

def PacketInfo.key (p : PacketInfo) : UInt32 × UInt16 × Bool :=
  (p.ssrc, p.sequenceNumber, p.arrivalTimeOffset.isFinite)

/-- What is taken of a packet by a sender that asks for the offset. -/
def PacketInfo.readKey (p : PacketInfo) : UInt32 × UInt16 × Bool :=
  (p.ssrc, p.sequenceNumber, p.arrivalTimeOffset.expressible)

/-- A fragment that respects the limit, says how long it is, and is read as these reports. -/
structure Carries (ticks : Int → Int) (maxLength : Nat) (fragment : Bytes) (reports : List PacketInfo) :
    Prop where
  fits : fragment.length ≤ maxLength
  aligned : fragment.length % 4 = 0
  header : ∃ length, read16 fragment 2 = some length ∧ (length.toNat + 1) * 4 = fragment.length
  parsed : ∃ parsed, parseFragment fragment = some (true, parsed) ∧
    parsed.reports = reports.map (PacketInfo.toReport ticks)
  whole : RtcpCommonHeader.parse {} fragment = some (true,
    ⟨kPacketType, kFeedbackMessageType, 0, fragment.length - 4, kHeaderLength⟩)

theorem toReports_flatten (ticks : Int → Int) (blocks : List Block) :
    blocks.flatMap (Block.toReports ticks) =
      (blocks.flatMap Block.reports).map (PacketInfo.toReport ticks) := by
  rw [List.map_flatMap]
  rfl

/-- The received bit is read as it is written. -/
theorem map_key_toReport (ticks : Int → Int) (infos : List PacketInfo) :
    (infos.map (PacketInfo.toReport ticks)).map Report.key = infos.map PacketInfo.key := by
  rw [List.map_map]
  refine List.map_congr_left fun p _ => ?_
  exact congrArg (p.ssrc, p.sequenceNumber, ·) (received_packetInfo ticks p)

/-- The offset that is read is finite if the one that is written can be said. -/
theorem map_readKey_toReport (product : TickProduct ticks) (infos : List PacketInfo) :
    ((infos.map (PacketInfo.toReport ticks)).map Report.toPacketInfo).map PacketInfo.key =
      infos.map PacketInfo.readKey := by
  rw [List.map_map, List.map_map]
  refine List.map_congr_left fun p _ => ?_
  exact congrArg (p.ssrc, p.sequenceNumber, ·) (isFinite_toReport product p)

theorem Written.carries (h : Written ticks (capacity - 8) packets blocks rest) (hcapacity : 24 ≤ capacity)
    (hmax : capacity ≤ maxLength) (hlimit : capacity ≤ kMaxRtcpPacketLength) :
    Carries ticks maxLength (assemble ticks f blocks) (blocks.flatMap Block.reports) := by
  have hlength : (assemble ticks f blocks).length = 12 + (blocks.flatMap (Block.encode ticks)).length :=
    length_assemble
  have hfits := h.fits
  obtain ⟨words, hwords⟩ := h.aligned
  rw [kTimestampLength] at hfits
  constructor
  · omega
  · omega
  · refine ⟨UInt16.ofNat (words + 2), ?_, ?_⟩
    · have hheader : (kHeaderLength + kSenderSsrcLength + (blocks.flatMap (Block.encode ticks)).length +
          kTimestampLength) / 4 - 1 = words + 2 := by
        rw [hwords, kHeaderLength, kSenderSsrcLength, kTimestampLength]
        omega
      rw [assemble, hheader]
      exact congrArg some (join16 _)
    · rw [kMaxRtcpPacketLength] at hlimit
      rw [UInt16.toNat_ofNat_of_lt' (by rw [UInt16.size]; omega)]
      omega
  · exact ⟨_, parseFragment_assemble h.ok h.aligned (by omega), toReports_flatten ticks blocks⟩
  · exact parse_assemble h.aligned (by omega)

/-! ## The loop over the fragments -/

/-- All that is sent: `Create` leaves the last fragment in the buffer, and its caller sends that one. -/
def Output.fragments (o : Output) : List Bytes := o.emitted ++ [o.buffer]

theorem minPacketLength_le : f.minPacketLength ≤ 24 := by
  unfold CongestionControlFeedback.minPacketLength
  split <;> decide

/-- With nothing in the buffer a round writes the next fragment, and gives it away unless it is the last. -/
theorem createStep_fragment (hmax : 24 ≤ maxLength) {emitted : List Bytes} {written : Bytes}
    (hwritten : f.fragment ticks (min (maxLength / 4 * 4) kMaxRtcpPacketLength) packets =
      some (rest, written)) (hpos : written.length ≠ 0) :
    f.createStep ticks maxLength (packets, ⟨[], emitted⟩) =
      if rest = [] then some (.inr (true, ⟨written, emitted⟩))
      else some (.inl (rest, ⟨[], emitted ++ [written]⟩)) := by
  have hmin : ¬ maxLength - ([] : Bytes).length < f.minPacketLength := by
    have hle := minPacketLength_le (f := f)
    rw [List.length_nil]
    omega
  have hroom : iterate (CongestionControlFeedback.makeRoomStep maxLength f.minPacketLength) 2
      ⟨[], emitted⟩ = some (true, ⟨[], emitted⟩) :=
    iterate_succ_leave (if_neg hmin)
  simp only [CongestionControlFeedback.createStep, hroom, Option.bind_eq_bind, Option.bind_some,
    List.length_nil, Nat.sub_zero, hwritten, List.nil_append, onBufferFull, if_neg hpos]
  rfl

theorem create_carries (ticks : Int → Int) (hconsecutive : Consecutive f.packets) (hmax : 24 ≤ maxLength) :
    ∃ out, f.create ticks [] maxLength = some out ∧ out.1 = true ∧
      ∃ parts, List.Forall₂ (Carries ticks maxLength) out.2.fragments parts ∧ f.packets = parts.flatten := by
  have hstart : ¬ maxLength < ([] : Bytes).length := Nat.not_lt_zero _
  rw [CongestionControlFeedback.create, if_neg hstart]
  apply iterate_total (f.createStep ticks maxLength)
    (fun s => s.2.buffer = [] ∧
      ∃ parts, List.Forall₂ (Carries ticks maxLength) s.2.emitted parts ∧ f.packets = parts.flatten ++ s.1)
    (fun s => s.1.length)
  · rintro ⟨packets, buffer, emitted⟩ ⟨hbuffer, parts, hparts, hsplit⟩
    simp only at hbuffer hparts hsplit
    subst hbuffer
    have hcapacity : 24 ≤ min (maxLength / 4 * 4) kMaxRtcpPacketLength := by
      rw [kMaxRtcpPacketLength]
      omega
    have hsuffix : Consecutive packets := by
      rw [hsplit] at hconsecutive
      exact hconsecutive.right_of_append
    obtain ⟨rest, blocks, hfragment, hwritten, hprogress⟩ :=
      fragment_written ticks f hsuffix hcapacity
    have hcarries : Carries ticks maxLength (assemble ticks f blocks) (blocks.flatMap Block.reports) :=
      hwritten.carries hcapacity ((Nat.min_le_left _ _).trans (Nat.div_mul_le_self _ _)) (Nat.min_le_right _ _)
    have hall : List.Forall₂ (Carries ticks maxLength) (emitted ++ [assemble ticks f blocks])
        (parts ++ [blocks.flatMap Block.reports]) :=
      List.rel_append hparts (.cons hcarries .nil)
    have htaken : f.packets = (parts ++ [blocks.flatMap Block.reports]).flatten ++ rest := by
      rw [hsplit, hwritten.split]
      simp
    rw [createStep_fragment hmax hfragment (by rw [length_assemble]; omega)]
    obtain rfl | hrest := hprogress
    · refine .inr ⟨_, if_pos rfl, rfl, _, hall, ?_⟩
      rw [htaken, List.append_nil]
    · by_cases hlast : rest = []
      · refine .inr ⟨_, if_pos hlast, rfl, _, hall, ?_⟩
        rw [htaken, hlast, List.append_nil]
      · exact .inl ⟨_, if_neg hlast, ⟨rfl, _, hall, htaken⟩, hrest⟩
  · exact ⟨rfl, [], .nil, rfl⟩
  · exact Nat.lt_succ_self _

/-! ## All the reports -/

theorem exists_carries {fragments : List Bytes} {parts : List (List PacketInfo)} {fragment : Bytes}
    (h : List.Forall₂ (Carries ticks maxLength) fragments parts) (hmem : fragment ∈ fragments) :
    ∃ reports ∈ parts, Carries ticks maxLength fragment reports := by
  induction h with
  | nil => contradiction
  | cons hcarries _ ih =>
    obtain rfl | hmem := List.mem_cons.mp hmem
    · exact ⟨_, List.mem_cons_self, hcarries⟩
    · obtain ⟨reports, hreports, hcarries⟩ := ih hmem
      exact ⟨reports, List.mem_cons_of_mem _ hreports, hcarries⟩

theorem carries_parsed {fragments : List Bytes} {parts : List (List PacketInfo)}
    (h : List.Forall₂ (Carries ticks maxLength) fragments parts) :
    ∃ parsed : List ParsedFeedback, fragments.mapM parseFragment = some (parsed.map (true, ·)) ∧
      parsed.flatMap (·.reports) = parts.flatten.map (PacketInfo.toReport ticks) := by
  induction h with
  | nil => exact ⟨[], rfl, rfl⟩
  | cons hcarries _ ih =>
    obtain ⟨parsed, hparsed, hreports⟩ := hcarries.parsed
    obtain ⟨others, hothers, hrest⟩ := ih
    refine ⟨parsed :: others, ?_, ?_⟩
    · rw [List.mapM_cons, hparsed, hothers]
      rfl
    · simp [hreports, hrest]

theorem flatMap_packets (parsed : List ParsedFeedback) :
    parsed.flatMap ParsedFeedback.packets = (parsed.flatMap (·.reports)).map Report.toPacketInfo := by
  rw [List.map_flatMap]
  rfl

/-- Reports whose numbers are consecutive in each run of an SSRC are sent in fragments within the limit,
    and read from them again, all and in order. What `packets` returns of them has a finite offset exactly
    for those whose offset was from zero on and below 8190/1024 s. -/
theorem create_parse (ticks : Int → Int) (f : CongestionControlFeedback) (maxLength : Nat)
    (hconsecutive : Consecutive f.packets) (hmax : 24 ≤ maxLength) :
    ∃ o, f.create ticks [] maxLength = some (true, o) ∧
      (∀ fragment ∈ o.fragments, fragment.length ≤ maxLength ∧ fragment.length % 4 = 0 ∧
        ∃ length, read16 fragment 2 = some length ∧ (length.toNat + 1) * 4 = fragment.length) ∧
      ∃ parsed : List ParsedFeedback, o.fragments.mapM parseFragment = some (parsed.map (true, ·)) ∧
        (parsed.flatMap (·.reports)).map Report.key = f.packets.map PacketInfo.key ∧
        (TickProduct ticks →
          (parsed.flatMap ParsedFeedback.packets).map PacketInfo.key = f.packets.map PacketInfo.readKey) := by
  obtain ⟨⟨ok, o⟩, hcreate, hok, parts, hparts, hpackets⟩ := create_carries ticks hconsecutive hmax
  simp only at hok hparts
  subst hok
  refine ⟨o, hcreate, fun fragment hfragment => ?_, ?_⟩
  · obtain ⟨reports, -, hcarries⟩ := exists_carries hparts hfragment
    exact ⟨hcarries.fits, hcarries.aligned, hcarries.header⟩
  · obtain ⟨parsed, hparsed, hreports⟩ := carries_parsed hparts
    rw [← hpackets] at hreports
    refine ⟨parsed, hparsed, by rw [hreports, map_key_toReport], fun product => ?_⟩
    rw [flatMap_packets, hreports, map_readKey_toReport product]

/-- A run over the end of the sequence numbers with a report that is nine seconds old, and a report of
    another SSRC, with room for one block in a fragment. -/
theorem create_parse_wrappedNumber : ∃ o,
    CongestionControlFeedback.create (fun us => us * 1024 / 1000000)
      ⟨1, 2, [⟨7, 65535, .us 250000, .ect1⟩, ⟨7, 0, .us 9000000, .notEct⟩, ⟨9, 4, .us 0, .ce⟩]⟩ [] 26 =
        some (true, o) ∧
    ∃ parsed : List ParsedFeedback, o.fragments.mapM parseFragment = some (parsed.map (true, ·)) ∧
      (parsed.flatMap (·.reports)).map Report.key = [(7, 65535, true), (7, 0, true), (9, 4, true)] ∧
      (parsed.flatMap ParsedFeedback.packets).map PacketInfo.key =
        [(7, 65535, true), (7, 0, false), (9, 4, true)] := by
  obtain ⟨o, hcreate, -, parsed, hparsed, hkeys, hread⟩ := create_parse (fun us => us * 1024 / 1000000)
    ⟨1, 2, [⟨7, 65535, .us 250000, .ect1⟩, ⟨7, 0, .us 9000000, .notEct⟩, ⟨9, 4, .us 0, .ce⟩]⟩ 26
    (by simp [Consecutive]) (by decide)
  exact ⟨o, hcreate, parsed, hparsed, hkeys, hread tickProduct_exact⟩

end CrossTransfer.Minirtc
