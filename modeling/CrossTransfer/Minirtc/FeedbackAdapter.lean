import CrossTransfer.Library.ListSums
import CrossTransfer.Library.Machine
import CrossTransfer.Library.UnstableSort
import CrossTransfer.Minirtc.CongestionFeedback
import CrossTransfer.Minirtc.SeqNumUnwrapper

/-! # The bytes in flight

`minirtc/src/qos/transport_feedback_adapter.{h,cc}`: packets that were sent are kept until a feedback says
that they have been received, or for a minute. A feedback names them by SSRC and RTP number. What the adapter
counts as in flight are the packets that were sent behind the last one that any feedback has named
(`outstanding_run`).

There is one route, as nothing in the transport sets another one. Times are in microseconds. What is only
logged is left out.
-/

namespace CrossTransfer.Minirtc

open CrossTransfer.Library

structure SentPacket where
  sendTime : Option Int := none
  size : Nat
  priorUnackedData : Nat := 0
  audio : Bool := false
  sequenceNumber : Int
  dataInFlight : Int := 0

/-- An SSRC and an RTP number. -/
abbrev RtpKey := UInt32 × UInt16

structure PacketFeedback where
  creationTime : Int
  sent : SentPacket
  ssrc : UInt32
  rtpSequenceNumber : UInt16

namespace PacketFeedback

variable (p : PacketFeedback)

def number : Int := p.sent.sequenceNumber

def rtpKey : RtpKey := (p.ssrc, p.rtpSequenceNumber)

end PacketFeedback

/-- The bytes in flight on the route, if it has an entry. -/
abbrev InFlightBytesTracker := Option Int

namespace InFlightBytesTracker

variable (bytes : InFlightBytesTracker) (p : PacketFeedback)

def getOutstandingData : Int := bytes.getD 0

def addInFlightPacketBytes : InFlightBytesTracker := some (bytes.getOutstandingData + p.sent.size)

def removeInFlightPacketBytes : InFlightBytesTracker :=
  if p.sent.sendTime.isNone then bytes
  -- An entry without bytes is erased.
  else bytes.bind fun n => if n - p.sent.size = 0 then none else some (n - p.sent.size)

end InFlightBytesTracker

structure TransportFeedbackAdapter where
  pendingUntrackedSize : Nat := 0
  seqNumUnwrapper : SeqNumUnwrapper := {}
  lastAckSeqNum : Int := -1
  inFlight : InFlightBytesTracker := none
  currentOffset : Option Int := none
  lastFeedbackCompactNtpTime : Option UInt32 := none
  rtpToTransportSequenceNumber : RtpKey → Option Int := fun _ => none
  history : List PacketFeedback := []

/-- What `AddPacket` reads of a packet. -/
structure TrackedRtpPacket where
  ssrc : UInt32
  sequenceNumber : UInt16
  transportSequenceNumber : Option Int
  size : Nat
  audio : Bool := false

/-- `rtc::SentPacket`. -/
structure SentPacketInfo where
  packetId : Int
  sendTimeMs : Int
  includedInFeedback : Bool
  includedInAllocation : Bool
  packetSizeBytes : Nat

structure PacketResult where
  sentPacket : SentPacket
  receiveTime : Option Int
  ecn : EcnMarking

/-- The comparison that the results are sorted by. -/
def PacketResult.Before (r s : PacketResult) : Prop :=
  r.sentPacket.sequenceNumber < s.sentPacket.sequenceNumber

instance : DecidableRel PacketResult.Before := fun _ _ => inferInstanceAs (Decidable (_ < _))

/-- `std::sort` of results. -/
abbrev ResultSort := UnstableSort PacketResult.Before

def ResultSort.insertion : ResultSort :=
  UnstableSort.insertion (fun r s => by simp only [PacketResult.Before]; omega)
    fun r s q => by simp only [PacketResult.Before]; omega

structure TransportPacketsFeedback where
  feedbackTime : Int
  dataInFlight : Int
  transportSupportsEcn : Bool
  packetFeedbacks : List PacketResult

def kSendTimeHistoryWindow : Int := 60000000

/-- `DivideRoundToNearest`. -/
def divideRoundToNearest (dividend divisor : Int) : Int :=
  let quotient := dividend.tdiv divisor
  let remainder := dividend.tmod divisor
  if dividend < 0 then (if divisor / 2 < -remainder then quotient - 1 else quotient)
  else if (divisor - 1) / 2 < remainder then quotient + 1 else quotient

def compactNtpIntervalToTimeDelta (interval : UInt32) : Int :=
  let value : Int := if 0x80000000 < interval then interval.toNat - 2 ^ 32 else interval.toNat
  divideRoundToNearest (value * 1000000) 65536

/-- `emplace` of a map from the numbers, which leaves an entry that is there. -/
def emplaceByNumber (p : PacketFeedback) : List PacketFeedback → List PacketFeedback
  | [] => [p]
  | q :: rest =>
    if p.number < q.number then p :: q :: rest
    else if p.number = q.number then q :: rest
    else q :: emplaceByNumber p rest

/-- An entry is written again. -/
def assignByNumber (p : PacketFeedback) (history : List PacketFeedback) : List PacketFeedback :=
  history.map fun q => if q.number = p.number then p else q

namespace TransportFeedbackAdapter

variable (t : TransportFeedbackAdapter)

def getOutstandingData : Int := t.inFlight.getOutstandingData

def find (number : Int) : Option PacketFeedback := t.history.find? (·.number = number)

def eraseNumber (number : Int) : List PacketFeedback := t.history.filter (·.number ≠ number)

/-- The loop of `AddPacket` over the packets that are too old. -/
def expire (creationTime : Int) : List PacketFeedback → TransportFeedbackAdapter → TransportFeedbackAdapter
  | [], t => { t with history := [] }
  | p :: rest, t =>
    if kSendTimeHistoryWindow < creationTime - p.creationTime then
      -- What was acknowledged is not in flight any more.
      expire creationTime rest { t with
        inFlight := if t.lastAckSeqNum < p.number then t.inFlight.removeInFlightPacketBytes p else t.inFlight
        rtpToTransportSequenceNumber := Function.update t.rtpToTransportSequenceNumber p.rtpKey none }
    else { t with history := p :: rest }

/-- `AddPacket`. -/
def addPacket (packet : TrackedRtpPacket) (overheadBytes : Nat) (creationTime : Int) :
    TransportFeedbackAdapter :=
  match packet.transportSequenceNumber with
  | none => t
  | some transportNumber =>
    let (number, seqNumUnwrapper) := t.seqNumUnwrapper.unwrap (wrap transportNumber)
    let feedback : PacketFeedback :=
      { creationTime
        sent := { size := packet.size + overheadBytes, audio := packet.audio, sequenceNumber := number }
        ssrc := packet.ssrc
        rtpSequenceNumber := packet.sequenceNumber }
    let t := expire creationTime t.history { t with seqNumUnwrapper }
    -- A key that is sent again keeps the number of its first packet.
    let known := t.rtpToTransportSequenceNumber feedback.rtpKey
    { t with
      rtpToTransportSequenceNumber :=
        Function.update t.rtpToTransportSequenceNumber feedback.rtpKey (some (known.getD number))
      history := emplaceByNumber feedback t.history }

/-- `RemovePacket`. -/
def removePacket (key : RtpKey) : Bool × TransportFeedbackAdapter :=
  match t.rtpToTransportSequenceNumber key with
  | none => (false, t)
  | some number =>
    let inFlight := (t.find number).elim t.inFlight t.inFlight.removeInFlightPacketBytes
    (true, { t with
      inFlight
      history := t.eraseNumber number
      rtpToTransportSequenceNumber := Function.update t.rtpToTransportSequenceNumber key none })

/-- `ProcessSentPacket`. -/
def processSentPacket (packet : SentPacketInfo) : Option SentPacket × TransportFeedbackAdapter :=
  if packet.includedInFeedback ∨ packet.packetId ≠ -1 then
    let (number, seqNumUnwrapper) := t.seqNumUnwrapper.unwrap (wrap packet.packetId)
    let t := { t with seqNumUnwrapper }
    match t.find number with
    | none => (none, t)
    | some known =>
      let sent := { known.sent with
        sendTime := some (packet.sendTimeMs * 1000)
        priorUnackedData := known.sent.priorUnackedData + t.pendingUntrackedSize }
      let t := { t with pendingUntrackedSize := 0 }
      -- A packet that is sent again is in flight already.
      if known.sent.sendTime.isSome then
        (none, { t with history := assignByNumber { known with sent } t.history })
      else
        let inFlight := if t.lastAckSeqNum < number then t.inFlight.addInFlightPacketBytes { known with sent }
          else t.inFlight
        let sent := { sent with dataInFlight := inFlight.getOutstandingData }
        (some sent, { t with inFlight, history := assignByNumber { known with sent } t.history })
  else if packet.includedInAllocation then
    -- No feedback will name these bytes; the next packet takes them along.
    (none, { t with pendingUntrackedSize := t.pendingUntrackedSize + packet.packetSizeBytes })
  else (none, t)

/-- All numbers up to this one are acknowledged. -/
def acknowledge (number : Int) : TransportFeedbackAdapter :=
  if t.lastAckSeqNum < number then
    { t with
      inFlight := (t.history.filter fun p => t.lastAckSeqNum < p.number ∧ p.number ≤ number).foldl
        InFlightBytesTracker.removeInFlightPacketBytes t.inFlight
      lastAckSeqNum := number }
  else t

/-- `RetrievePacketFeedback` of a number. -/
def retrieve (number : Int) (received : Bool) : Option PacketFeedback × TransportFeedbackAdapter :=
  let t := t.acknowledge number
  match t.find number with
  | none => (none, t)
  | some p =>
    if p.sent.sendTime.isNone then (none, t)
    else if received then
      (some p, { t with
        rtpToTransportSequenceNumber := Function.update t.rtpToTransportSequenceNumber p.rtpKey none
        history := t.eraseNumber number })
    -- A packet that was lost stays, as a later feedback may say that it was received.
    else (some p, t)

/-- `RetrievePacketFeedback` of a key. -/
def retrievePacketFeedback (key : RtpKey) (received : Bool) :
    Option PacketFeedback × TransportFeedbackAdapter :=
  match t.rtpToTransportSequenceNumber key with
  | none => (none, t)
  | some number => t.retrieve number received

/-- When a packet was received. -/
def receiveTime (offset : Int) : TimeDelta → Option Int
  | .us us => some (offset - us)
  | _ => none

/-- The loop over the packets of a feedback. -/
def results (offset : Int) : List PacketInfo → TransportFeedbackAdapter →
    List PacketResult × TransportFeedbackAdapter
  | [], t => ([], t)
  | info :: infos, t =>
    let (found, t) := t.retrievePacketFeedback (info.ssrc, info.sequenceNumber) info.arrivalTimeOffset.isFinite
    let (rest, t) := results offset infos t
    (found.elim rest fun p => ⟨p.sent, receiveTime offset info.arrivalTimeOffset, info.ecn⟩ :: rest, t)

/-- When the sender of a feedback started to count, on the own clock. -/
def offsetAfter (timestamp : UInt32) (feedbackReceiveTime : Int) : Int :=
  -- The clock of the peer may go back.
  let feedbackDelta := t.lastFeedbackCompactNtpTime.elim 0 fun last =>
    compactNtpIntervalToTimeDelta (timestamp - last)
  if feedbackDelta < 0 then feedbackReceiveTime else t.currentOffset.getD feedbackReceiveTime + feedbackDelta

/-- `ProcessCongestionControlFeedback`. -/
def processCongestionControlFeedback (sort : ResultSort) (feedback : CongestionControlFeedback)
    (feedbackReceiveTime : Int) : Option TransportPacketsFeedback × TransportFeedbackAdapter :=
  if feedback.packets = [] then (none, t)
  else
    let offset := t.offsetAfter feedback.reportTimestampCompactNtp feedbackReceiveTime
    let (found, t) := results offset feedback.packets
      { t with
        currentOffset := some offset
        lastFeedbackCompactNtpTime := some feedback.reportTimestampCompactNtp }
    if found = [] then (none, t)
    else
      (some {
        feedbackTime := feedbackReceiveTime
        dataInFlight := t.getOutstandingData
        transportSupportsEcn := found.all fun r => r.receiveTime.isNone || r.ecn != .notEct
        packetFeedbacks := sort.sort found }, t)

end TransportFeedbackAdapter

namespace PacketFeedback

variable (p : PacketFeedback)

/-- The bytes of a packet that was sent. -/
def sentSize : Int := if p.sent.sendTime.isSome then p.sent.size else 0

theorem sentSize_nonneg : 0 ≤ p.sentSize := by
  unfold sentSize
  split <;> simp

/-- The bytes of a packet that count when all numbers up to `ack` are acknowledged. -/
def counted (ack : Int) : Int := if ack < p.number then p.sentSize else 0

theorem counted_nonneg (ack : Int) : 0 ≤ p.counted ack := by
  unfold counted
  split
  · exact p.sentSize_nonneg
  · exact le_rfl

end PacketFeedback

/-- The bytes of all packets that count. -/
def outstanding (ack : Int) (history : List PacketFeedback) : Int :=
  (history.map fun p => p.counted ack).sum

/-- The packets are in the order of their numbers. -/
def ByNumber (history : List PacketFeedback) : Prop := (history.map (·.number)).Pairwise (· < ·)

section History

variable {history : List PacketFeedback} {p : PacketFeedback} {ack number : Int}

theorem outstanding_cons : outstanding ack (p :: history) = p.counted ack + outstanding ack history :=
  List.sum_cons

theorem outstanding_nonneg (ack : Int) (history : List PacketFeedback) : 0 ≤ outstanding ack history := by
  apply List.sum_nonneg
  intro n hn
  obtain ⟨p, -, rfl⟩ := List.mem_map.mp hn
  exact p.counted_nonneg ack

theorem ByNumber.nodup (h : ByNumber history) : (history.map (·.number)).Nodup := h.imp fun hlt => hlt.ne

theorem ByNumber.sublist {history' : List PacketFeedback} (h : ByNumber history)
    (hsub : history'.Sublist history) : ByNumber history' :=
  List.Pairwise.sublist (hsub.map _) h

/-- A packet that was not sent yet does not count. -/
theorem outstanding_emplace (hunsent : p.sent.sendTime = none) (ack : Int) (history : List PacketFeedback) :
    outstanding ack (emplaceByNumber p history) = outstanding ack history := by
  have hnone : p.counted ack = 0 := by simp [PacketFeedback.counted, PacketFeedback.sentSize, hunsent]
  induction history with
  | nil => rw [emplaceByNumber, outstanding_cons, hnone, zero_add]
  | cons q rest ih =>
    rw [emplaceByNumber]
    split
    · rw [outstanding_cons, hnone, zero_add]
    · split
      · rfl
      · rw [outstanding_cons, ih, outstanding_cons]

theorem number_mem_emplace {q : PacketFeedback} (h : q ∈ emplaceByNumber p history) :
    q = p ∨ q ∈ history := by
  induction history with
  | nil => exact .inl (List.mem_singleton.mp h)
  | cons r rest ih =>
    rw [emplaceByNumber] at h
    split at h
    · exact List.mem_cons.mp h
    · split at h
      · exact .inr h
      · obtain rfl | h := List.mem_cons.mp h
        · exact .inr List.mem_cons_self
        · exact (ih h).imp_right (List.mem_cons_of_mem _)

theorem ByNumber.emplace (h : ByNumber history) (p : PacketFeedback) :
    ByNumber (emplaceByNumber p history) := by
  induction history with
  | nil => exact List.pairwise_singleton _ _
  | cons q rest ih =>
    obtain ⟨hq, hrest⟩ := List.pairwise_cons.mp h
    rw [emplaceByNumber]
    split
    · rename_i hlt
      refine List.pairwise_cons.mpr ⟨fun n hn => ?_, h⟩
      obtain rfl | hn := List.mem_cons.mp hn
      · exact hlt
      · exact hlt.trans (hq n hn)
    · split
      · exact h
      · refine List.pairwise_cons.mpr ⟨fun n hn => ?_, ih hrest⟩
        obtain ⟨r, hr, rfl⟩ := List.mem_map.mp hn
        obtain rfl | hr := number_mem_emplace hr
        · show q.number < r.number
          omega
        · exact hq _ (List.mem_map_of_mem hr)

theorem ByNumber.assign (h : ByNumber history) (p : PacketFeedback) :
    ByNumber (assignByNumber p history) := by
  have hsame : (assignByNumber p history).map (·.number) = history.map (·.number) := by
    rw [assignByNumber, List.map_map]
    refine List.map_congr_left fun q _ => ?_
    by_cases hq : q.number = p.number <;> simp [hq]
  rwa [ByNumber, hsame]

/-- The numbers up to `number` are no longer counted. -/
theorem outstanding_split (hlt : ack < number) (history : List PacketFeedback) :
    outstanding ack history =
      ((history.filter fun p => ack < p.number ∧ p.number ≤ number).map (·.sentSize)).sum +
        outstanding number history := by
  induction history with
  | nil => rfl
  | cons p rest ih =>
    rw [outstanding_cons, outstanding_cons, ih]
    by_cases hin : ack < p.number ∧ p.number ≤ number
    · rw [List.filter_cons_of_pos (by simpa using hin), List.map_cons, List.sum_cons]
      have hack : p.counted ack = p.sentSize := if_pos hin.1
      have hnumber : p.counted number = 0 := if_neg (by omega)
      omega
    · rw [List.filter_cons_of_neg (by simpa using hin)]
      have hsame : p.counted ack = p.counted number := by
        unfold PacketFeedback.counted
        congr 1
        exact propext ⟨fun h => by omega, fun h => by omega⟩
      omega

end History

namespace InFlightBytesTracker

variable {bytes : InFlightBytesTracker} {p : PacketFeedback}

theorem outstanding_add (hsent : p.sent.sendTime.isSome) :
    (bytes.addInFlightPacketBytes p).getOutstandingData = bytes.getOutstandingData + p.sentSize := by
  simp [addInFlightPacketBytes, getOutstandingData, PacketFeedback.sentSize, hsent]

/-- There is an entry to take the bytes from, unless there are none. -/
theorem outstanding_remove (h : p.sentSize ≤ bytes.getOutstandingData) :
    (bytes.removeInFlightPacketBytes p).getOutstandingData = bytes.getOutstandingData - p.sentSize := by
  cases hsent : p.sent.sendTime with
  | none => simp [removeInFlightPacketBytes, PacketFeedback.sentSize, hsent]
  | some time =>
    have hsize : p.sentSize = p.sent.size := by simp [PacketFeedback.sentSize, hsent]
    rw [hsize] at h ⊢
    cases bytes with
    | none =>
      -- There is no entry, so the packet has no bytes either.
      have hzero : (p.sent.size : Int) = 0 := le_antisymm h (by simp)
      simp [removeInFlightPacketBytes, hsent, getOutstandingData, hzero]
    | some n =>
      simp only [removeInFlightPacketBytes, hsent, Option.isNone_some, Option.bind_some]
      by_cases hall : n - (p.sent.size : Int) = 0
      · simp [hall, getOutstandingData]
      · simp [hall, getOutstandingData]

theorem outstanding_foldl (gone : List PacketFeedback) (bytes : InFlightBytesTracker)
    (h : (gone.map (·.sentSize)).sum ≤ bytes.getOutstandingData) :
    (gone.foldl removeInFlightPacketBytes bytes).getOutstandingData =
      bytes.getOutstandingData - (gone.map (·.sentSize)).sum := by
  induction gone generalizing bytes with
  | nil => simp
  | cons p gone ih =>
    rw [List.map_cons, List.sum_cons] at h ⊢
    have hrest : 0 ≤ (gone.map (·.sentSize)).sum := by
      apply List.sum_nonneg
      intro n hn
      obtain ⟨q, -, rfl⟩ := List.mem_map.mp hn
      exact q.sentSize_nonneg
    -- The bytes of the rest are still there after the first one is taken.
    have hremove := outstanding_remove (show p.sentSize ≤ bytes.getOutstandingData by omega)
    rw [List.foldl_cons, ih _ (by omega), hremove]
    omega

end InFlightBytesTracker

namespace TransportFeedbackAdapter

variable {t : TransportFeedbackAdapter} {p : PacketFeedback} {number : Int}

variable (t) in
/-- The bytes in flight are those of the packets that count. -/
structure Counts : Prop where
  byNumber : ByNumber t.history
  bytes : t.getOutstandingData = outstanding t.lastAckSeqNum t.history

theorem Counts.expire (creationTime : Int) (history : List PacketFeedback) (t : TransportFeedbackAdapter)
    (hbyNumber : ByNumber history) (hbytes : t.getOutstandingData = outstanding t.lastAckSeqNum history) :
    (expire creationTime history t).Counts := by
  -- The bytes in flight are those of the history that the loop has left.
  induction history generalizing t with
  | nil => exact ⟨.nil, hbytes⟩
  | cons p rest ih =>
    rw [TransportFeedbackAdapter.expire]
    split
    · apply ih _ hbyNumber.of_cons
      rw [outstanding_cons] at hbytes
      have hrest := outstanding_nonneg t.lastAckSeqNum rest
      by_cases hcounts : t.lastAckSeqNum < p.number
      · have hsize : p.counted t.lastAckSeqNum = p.sentSize := if_pos hcounts
        simp only [getOutstandingData, hcounts, if_true]
        rw [InFlightBytesTracker.outstanding_remove]
        · show t.getOutstandingData - _ = _
          omega
        · show _ ≤ t.getOutstandingData
          omega
      · have hnone : p.counted t.lastAckSeqNum = 0 := if_neg hcounts
        simp only [getOutstandingData, hcounts, if_false]
        show t.getOutstandingData = _
        omega
    · exact ⟨hbyNumber, hbytes⟩

theorem Counts.addPacket (h : t.Counts) (packet : TrackedRtpPacket) (overheadBytes : Nat) (creationTime : Int) :
    (t.addPacket packet overheadBytes creationTime).Counts := by
  unfold TransportFeedbackAdapter.addPacket
  split
  · exact h
  · rename_i transportNumber _
    have hexpired := Counts.expire creationTime t.history
      { t with seqNumUnwrapper := (t.seqNumUnwrapper.unwrap (wrap transportNumber)).2 } h.byNumber h.bytes
    exact ⟨hexpired.byNumber.emplace _, hexpired.bytes.trans (outstanding_emplace rfl _ _).symm⟩

/-- An entry is erased that counts for nothing, or for what is taken from the bytes in flight. -/
theorem Counts.erase (h : t.Counts) (hfind : t.find number = some p) :
    outstanding t.lastAckSeqNum (t.eraseNumber number) + p.counted t.lastAckSeqNum =
      outstanding t.lastAckSeqNum t.history :=
  sum_map_filter_ne PacketFeedback.number (fun p => p.counted t.lastAckSeqNum) h.byNumber.nodup hfind

theorem find_number (h : t.find number = some p) : p.number = number := by
  have hfound := List.find?_some h
  exact of_decide_eq_true hfound

theorem eraseNumber_of_none (h : t.find number = none) : t.eraseNumber number = t.history := by
  apply List.filter_eq_self.mpr
  intro p hp
  have hnot := List.find?_eq_none.mp h p hp
  simpa using hnot

/-- A packet is removed before a feedback has named it or a later one, or before it was sent. -/
def Unpassed (t : TransportFeedbackAdapter) (key : RtpKey) : Prop :=
  ∀ number, t.rtpToTransportSequenceNumber key = some number → ∀ p, t.find number = some p →
    t.lastAckSeqNum < number ∨ p.sent.sendTime = none

theorem Counts.removePacket (h : t.Counts) {key : RtpKey} (hkey : t.Unpassed key) :
    (t.removePacket key).2.Counts := by
  unfold TransportFeedbackAdapter.removePacket
  split
  · exact h
  · rename_i number hnumber
    refine ⟨h.byNumber.sublist List.filter_sublist, ?_⟩
    cases hfind : t.find number with
    | none =>
      show t.getOutstandingData = outstanding t.lastAckSeqNum (t.eraseNumber number)
      rw [eraseNumber_of_none hfind]
      exact h.bytes
    | some p =>
      have herase := h.erase hfind
      -- What is taken from the bytes in flight was counted there.
      have hcounted : p.counted t.lastAckSeqNum = p.sentSize := by
        obtain hlt | hunsent := hkey number hnumber p hfind
        · exact if_pos (find_number hfind ▸ hlt)
        · simp [PacketFeedback.counted, PacketFeedback.sentSize, hunsent]
      have hrest := outstanding_nonneg t.lastAckSeqNum (t.eraseNumber number)
      have hbytes := h.bytes
      show (t.inFlight.removeInFlightPacketBytes p).getOutstandingData =
        outstanding t.lastAckSeqNum (t.eraseNumber number)
      rw [InFlightBytesTracker.outstanding_remove]
      · show t.getOutstandingData - _ = _
        omega
      · show _ ≤ t.getOutstandingData
        omega

/-- An entry is written again when its packet is sent, which counts if it was not sent before. -/
theorem Counts.assign (h : t.Counts) {known : PacketFeedback} (hfind : t.find number = some known)
    {sent : SentPacket} (hsame : sent.sequenceNumber = known.sent.sequenceNumber)
    (hsize : sent.size = known.sent.size) (hsent : sent.sendTime.isSome) :
    outstanding t.lastAckSeqNum (assignByNumber { known with sent } t.history) =
      outstanding t.lastAckSeqNum t.history +
        if known.sent.sendTime.isNone ∧ t.lastAckSeqNum < number then (known.sent.size : Int) else 0 := by
  have hnumber : PacketFeedback.number { known with sent } = number := hsame.trans (find_number hfind)
  have hsum := sum_map_assign PacketFeedback.number (fun p => p.counted t.lastAckSeqNum)
    { known with sent } h.byNumber.nodup hfind
  rw [assignByNumber, hnumber, outstanding, outstanding]
  simp only [PacketFeedback.counted, hnumber, PacketFeedback.sentSize, hsent, if_true, hsize,
    find_number hfind] at hsum ⊢
  cases htime : known.sent.sendTime with
  | none =>
    simp only [htime, Option.isSome_none, Bool.false_eq_true, if_false, ite_self, add_zero] at hsum
    simpa using hsum
  | some time =>
    simp only [htime, Option.isSome_some, if_true] at hsum
    simpa using add_right_cancel hsum

theorem Counts.processSentPacket (h : t.Counts) (packet : SentPacketInfo) :
    (t.processSentPacket packet).2.Counts := by
  have hbytes := h.bytes
  unfold TransportFeedbackAdapter.processSentPacket
  dsimp only
  split
  · split
    · exact ⟨h.byNumber, hbytes⟩
    · rename_i known hfind
      change t.find _ = some known at hfind
      split
      · -- Sent before: only its time is new.
        rename_i hsent
        refine ⟨h.byNumber.assign _, ?_⟩
        show t.getOutstandingData = outstanding t.lastAckSeqNum (assignByNumber _ t.history)
        rw [h.assign hfind, hbytes]
        · simp [Option.isSome_iff_ne_none.mp hsent]
        all_goals rfl
      · -- Sent for the first time: its bytes are added, unless a feedback was ahead of it.
        rename_i hunsent
        refine ⟨h.byNumber.assign _, ?_⟩
        show _ = outstanding t.lastAckSeqNum (assignByNumber _ t.history)
        have hnone : known.sent.sendTime.isNone := by simpa using hunsent
        rw [h.assign hfind]
        · by_cases hbehind : t.lastAckSeqNum < (t.seqNumUnwrapper.unwrap (wrap packet.packetId)).1
          · simp only [getOutstandingData, hbehind, hnone, if_true, and_self]
            rw [InFlightBytesTracker.outstanding_add rfl]
            exact congrArg (· + _) hbytes
          · simp only [getOutstandingData, hbehind, if_false, and_false, add_zero]
            exact hbytes
        all_goals rfl
  · split
    · exact ⟨h.byNumber, hbytes⟩
    · exact h

theorem Counts.acknowledge (h : t.Counts) (number : Int) :
    (t.acknowledge number).Counts ∧ number ≤ (t.acknowledge number).lastAckSeqNum := by
  unfold TransportFeedbackAdapter.acknowledge
  split
  · rename_i hlt
    refine ⟨⟨h.byNumber, ?_⟩, le_rfl⟩
    have hbytes := h.bytes
    have hsplit := outstanding_split hlt t.history
    have hrest := outstanding_nonneg number t.history
    show (t.history.filter _ |>.foldl _ t.inFlight).getOutstandingData = outstanding number t.history
    rw [InFlightBytesTracker.outstanding_foldl]
    · show t.getOutstandingData - _ = _
      omega
    · show _ ≤ t.getOutstandingData
      omega
  · rename_i hnot
    exact ⟨h, not_lt.mp hnot⟩

theorem Counts.retrieve (h : t.Counts) (number : Int) (received : Bool) :
    (t.retrieve number received).2.Counts := by
  obtain ⟨hacknowledged, hpassed⟩ := h.acknowledge number
  unfold TransportFeedbackAdapter.retrieve
  dsimp only
  split
  · exact hacknowledged
  · rename_i p hfind
    split
    · exact hacknowledged
    · split
      · -- What is erased does not count any more.
        refine ⟨hacknowledged.byNumber.sublist List.filter_sublist, ?_⟩
        have herase := hacknowledged.erase hfind
        have hnone : p.counted (t.acknowledge number).lastAckSeqNum = 0 :=
          if_neg (not_lt.mpr (find_number hfind ▸ hpassed))
        rw [hnone, add_zero] at herase
        exact hacknowledged.bytes.trans herase.symm
      · exact hacknowledged

theorem Counts.retrievePacketFeedback (h : t.Counts) (key : RtpKey) (received : Bool) :
    (t.retrievePacketFeedback key received).2.Counts := by
  unfold TransportFeedbackAdapter.retrievePacketFeedback
  split
  · exact h
  · exact h.retrieve _ _

theorem Counts.results (offset : Int) (infos : List PacketInfo) (h : t.Counts) :
    (results offset infos t).2.Counts := by
  induction infos generalizing t with
  | nil => exact h
  | cons info infos ih => exact ih (h.retrievePacketFeedback _ _)

theorem Counts.processCongestionControlFeedback (h : t.Counts) (sort : ResultSort)
    (feedback : CongestionControlFeedback) (feedbackReceiveTime : Int) :
    (t.processCongestionControlFeedback sort feedback feedbackReceiveTime).2.Counts := by
  unfold TransportFeedbackAdapter.processCongestionControlFeedback
  split
  · exact h
  · dsimp only
    split
    all_goals exact Counts.results _ _ ⟨h.byNumber, h.bytes⟩

/-! ## Runs -/

inductive AdapterCall
  | addPacket (packet : TrackedRtpPacket) (overheadBytes : Nat) (creationTime : Int)
  | removePacket (key : RtpKey)
  | processSentPacket (packet : SentPacketInfo)
  | processCongestionControlFeedback (feedback : CongestionControlFeedback) (feedbackReceiveTime : Int)

def call (sort : ResultSort) (t : TransportFeedbackAdapter) : AdapterCall → TransportFeedbackAdapter
  | .addPacket packet overheadBytes creationTime => t.addPacket packet overheadBytes creationTime
  | .removePacket key => (t.removePacket key).2
  | .processSentPacket packet => (t.processSentPacket packet).2
  | .processCongestionControlFeedback feedback time =>
    (t.processCongestionControlFeedback sort feedback time).2

/-- The calls come one at a time, under a mutex. -/
def machine (sort : ResultSort) : Machine TransportFeedbackAdapter AdapterCall :=
  ⟨{}, fun t a => some (t.call sort a)⟩

def Allowed (t : TransportFeedbackAdapter) : AdapterCall → Prop
  | .removePacket key => t.Unpassed key
  | _ => True

/-- Whatever is sent, removed and named by feedbacks, and in whatever order, what the adapter reports as in
    flight are the bytes of the packets that were sent and are behind the last one that was acknowledged. -/
theorem outstanding_run {sort : ResultSort} {as : List AdapterCall} (run : (machine sort).Run Allowed as t) :
    t.getOutstandingData = outstanding t.lastAckSeqNum t.history ∧ ByNumber t.history := by
  have hcounts : t.Counts := by
    refine run.invariant Counts (show Counts {} from ⟨List.Pairwise.nil, rfl⟩) ?_
    intro t a t' h hallowed hstep
    obtain rfl := Option.some.inj hstep
    cases a with
    | addPacket packet overheadBytes creationTime => exact h.addPacket packet overheadBytes creationTime
    | removePacket key => exact h.removePacket hallowed
    | processSentPacket packet => exact h.processSentPacket packet
    | processCongestionControlFeedback feedback time =>
      exact h.processCongestionControlFeedback sort feedback time
  exact ⟨hcounts.bytes, hcounts.byNumber⟩

/-- Two packets are sent, and a feedback names the first one. -/
theorem outstanding_run_two : ∃ t, (machine .insertion).Run Allowed
    [.addPacket ⟨7, 40, some 0, 1000, false⟩ 28 10000, .processSentPacket ⟨0, 10, true, true, 1028⟩,
      .addPacket ⟨7, 41, some 1, 500, false⟩ 28 11000, .processSentPacket ⟨1, 11, true, true, 528⟩,
      .processCongestionControlFeedback ⟨1, 0, [⟨7, 40, .us 5000, .notEct⟩]⟩ 60000] t ∧
    outstanding t.lastAckSeqNum t.history = 528 := by
  obtain ⟨t, ht, hbytes⟩ : ∃ t, (machine .insertion).exec
      [.addPacket ⟨7, 40, some 0, 1000, false⟩ 28 10000, .processSentPacket ⟨0, 10, true, true, 1028⟩,
        .addPacket ⟨7, 41, some 1, 500, false⟩ 28 11000, .processSentPacket ⟨1, 11, true, true, 528⟩,
        .processCongestionControlFeedback ⟨1, 0, [⟨7, 40, .us 5000, .notEct⟩]⟩ 60000] {} = some t ∧
      t.getOutstandingData = 528 :=
    ⟨_, rfl, by decide⟩
  have run : (machine .insertion).Run Allowed _ t := .of_exec (by simp [Allowed]) ht
  exact ⟨t, run, (outstanding_run run).1 ▸ hbytes⟩

end TransportFeedbackAdapter

end CrossTransfer.Minirtc
