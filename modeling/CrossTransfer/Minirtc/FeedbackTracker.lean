import CrossTransfer.Library.Machine
import CrossTransfer.Library.OrderedMap
import CrossTransfer.Library.UnstableSort
import CrossTransfer.Minirtc.FeedbackRoundTrip
import CrossTransfer.Minirtc.SeqNumUnwrapper

/-! # The tracker of received packets

`minirtc/src/qos/congestion_control_feedback_tracker.{h,cc}`: a tracker keeps the packets of one SSRC that
have arrived since the last feedback (`packets_`) and what it knows of older ones (`history_`). A feedback
reports every number from behind the last one of the feedback before up to the greatest one that arrived
(`addPacketsToFeedback_eq`). Of a packet that arrived more than once since then it reports the last copy.
-/

namespace CrossTransfer.Minirtc

open CrossTransfer.Library

/-- What is read of a received packet. Times are in microseconds. -/
structure RtpPacketReceived where
  ssrc : UInt32
  sequenceNumber : UInt16
  arrivalTime : Int
  ecn : EcnMarking := .notEct
  marker : Bool := false
deriving DecidableEq

/-- `PacketInfo` of the tracker. -/
structure TrackedPacket where
  ssrc : UInt32
  unwrappedSequenceNumber : Int
  arrivalTime : Int
  ecn : EcnMarking
deriving DecidableEq

/-- The comparison that the packets are sorted by. -/
def TrackedPacket.Before (p q : TrackedPacket) : Prop :=
  p.unwrappedSequenceNumber < q.unwrappedSequenceNumber ∨
    p.unwrappedSequenceNumber = q.unwrappedSequenceNumber ∧ p.arrivalTime < q.arrivalTime

/-- `std::sort` of packets. -/
abbrev PacketSort := UnstableSort TrackedPacket.Before

instance : DecidableRel TrackedPacket.Before := fun _ _ => inferInstanceAs (Decidable (_ ∨ _ ∧ _))

def PacketSort.insertion : PacketSort :=
  UnstableSort.insertion (fun p q => by simp only [TrackedPacket.Before]; omega)
    fun p q r => by simp only [TrackedPacket.Before]; omega

def kMaxHistorySize : Nat := 16384

structure CongestionControlFeedbackTracker where
  lastSequenceNumberInFeedback : Option Int := none
  unwrapper : SeqNumUnwrapper := {}
  packets : List TrackedPacket := []
  history : OrderedMap Int TrackedPacket := ∅
  historyOrder : List Int := []

/-- The offset and the marking that a feedback is going to report. -/
abbrev Marked := TimeDelta × EcnMarking

def leastOffset (offset : TimeDelta) (candidate : Int) : TimeDelta :=
  match offset with
  | .us us => .us (min us candidate)
  | _ => .us candidate

def firstCopy (feedbackTime : Int) (known : Marked) (p : TrackedPacket) : Marked :=
  (leastOffset known.1 (feedbackTime - p.arrivalTime),
    if p.ecn = .ce then .ce else if known.2 = .notEct then p.ecn else known.2)

/-- Another copy of a packet. -/
def nextCopy (feedbackTime : Int) (known : Marked) (p : TrackedPacket) : Marked :=
  (leastOffset known.1 (feedbackTime - p.arrivalTime), if p.ecn = .ce then .ce else known.2)

namespace CongestionControlFeedbackTracker

variable (t : CongestionControlFeedbackTracker)

/-- The number of a packet, and the packet as it is kept. -/
def track (p : RtpPacketReceived) : TrackedPacket :=
  ⟨p.ssrc, (t.unwrapper.unwrap p.sequenceNumber).1, p.arrivalTime, p.ecn⟩

/-- The history with a packet; the oldest entry goes when there are too many. -/
def remember (p : TrackedPacket) : OrderedMap Int TrackedPacket × List Int :=
  match t.history[p.unwrappedSequenceNumber]? with
  | none =>
    let history := t.history.insert p.unwrappedSequenceNumber p
    let order := t.historyOrder ++ [p.unwrappedSequenceNumber]
    if kMaxHistorySize < order.length then (order.head?.elim history history.erase, order.tail)
    else (history, order)
  | some known =>
    (t.history.insert p.unwrappedSequenceNumber
      { known with
        arrivalTime := if p.arrivalTime < known.arrivalTime then p.arrivalTime else known.arrivalTime
        ecn := if p.ecn = .ce then .ce else known.ecn }, t.historyOrder)

/-- `ReceivedPacket`. -/
def receivedPacket (p : RtpPacketReceived) : CongestionControlFeedbackTracker :=
  let info := t.track p
  { lastSequenceNumberInFeedback := t.lastSequenceNumberInFeedback.map fun last =>
      if info.unwrappedSequenceNumber < last + 1 then info.unwrappedSequenceNumber - 1 else last
    unwrapper := (t.unwrapper.unwrap p.sequenceNumber).2
    packets := t.packets ++ [info]
    history := (t.remember info).1
    historyOrder := (t.remember info).2 }

/-- What the history says about a number. -/
def known (feedbackTime seq : Int) : Marked :=
  match t.history[seq]? with
  | some p => (.us (feedbackTime - p.arrivalTime), p.ecn)
  | none => (.minusInfinity, .notEct)

/-- A round of the loop of `AddPacketsToFeedback`: the report on a number, and the packets that are left.
    There is no round behind the last packet. -/
def report (feedbackTime : Int) (ssrc : UInt32) (seq : Int) :
    List TrackedPacket → Option (PacketInfo × List TrackedPacket)
  | [] => none
  | first :: rest =>
    let known := t.known feedbackTime seq
    if seq = first.unwrappedSequenceNumber then
      let (offset, ecn) := (rest.takeWhile (·.unwrappedSequenceNumber == seq)).foldl
        (nextCopy feedbackTime) (firstCopy feedbackTime known first)
      some (⟨ssrc, wrap seq, offset, ecn⟩, rest.dropWhile (·.unwrappedSequenceNumber == seq))
    else some (⟨ssrc, wrap seq, known.1, known.2⟩, first :: rest)

def reports (feedbackTime : Int) (ssrc : UInt32) :
    Nat → Int → List TrackedPacket → Option (List PacketInfo)
  | 0, _, _ => some []
  | n + 1, seq, packets => do
    let (info, packets) ← t.report feedbackTime ssrc seq packets
    let infos ← reports feedbackTime ssrc n (seq + 1) packets
    return info :: infos

/-- `AddPacketsToFeedback`: the reports that are added. -/
def addPacketsToFeedback (s : PacketSort) (feedbackTime : Int) :
    Option (List PacketInfo × CongestionControlFeedbackTracker) :=
  match s.sort t.packets with
  | [] => some ([], t)
  | first :: rest => do
    let last := t.lastSequenceNumberInFeedback.getD (first.unwrappedSequenceNumber - 1)
    let back := (rest.getLastD first).unwrappedSequenceNumber
    let infos ← t.reports feedbackTime first.ssrc (back - last).toNat (last + 1) (first :: rest)
    return (infos, { t with lastSequenceNumberInFeedback := some back, packets := [] })

end CongestionControlFeedbackTracker

/-! ## Sorted packets -/

section Sorted

variable {packets : List TrackedPacket} {seq start : Int}

/-- The copies of a packet. -/
def copies (seq : Int) (packets : List TrackedPacket) : List TrackedPacket :=
  packets.filter (·.unwrappedSequenceNumber == seq)

def InOrder (packets : List TrackedPacket) : Prop :=
  packets.Pairwise fun p q => p.unwrappedSequenceNumber ≤ q.unwrappedSequenceNumber

theorem PacketSort.inOrder (s : PacketSort) (packets : List TrackedPacket) : InOrder (s.sort packets) := by
  apply (s.sorted packets).imp
  intro p q hnot
  by_contra hlt
  exact hnot (.inl (not_le.mp hlt))

/-- The last packet has the greatest number. -/
theorem InOrder.getLastD {first : TrackedPacket} {rest : List TrackedPacket}
    (hsorted : InOrder (first :: rest)) : rest.getLastD first ∈ first :: rest ∧
      ∀ p ∈ first :: rest, p.unwrappedSequenceNumber ≤ (rest.getLastD first).unwrappedSequenceNumber := by
  induction rest generalizing first with
  | nil => simp
  | cons second rest ih =>
    obtain ⟨hfirst, hrest⟩ := List.pairwise_cons.mp hsorted
    obtain ⟨hmem, hle⟩ := ih hrest
    rw [List.getLastD_cons]
    refine ⟨List.mem_cons_of_mem _ hmem, fun p hp => ?_⟩
    obtain rfl | hp := List.mem_cons.mp hp
    · exact (hfirst second (by simp)).trans (hle second (by simp))
    · exact hle p hp

/-- The copies of the first number stand in front. -/
theorem takeWhile_copies (hsorted : InOrder packets)
    (hfrom : ∀ p ∈ packets, seq ≤ p.unwrappedSequenceNumber) :
    packets.takeWhile (·.unwrappedSequenceNumber == seq) = copies seq packets ∧
      packets.dropWhile (·.unwrappedSequenceNumber == seq) =
        packets.filter fun p => !(p.unwrappedSequenceNumber == seq) := by
  induction packets with
  | nil => exact ⟨rfl, rfl⟩
  | cons p packets ih =>
    obtain ⟨hfirst, hrest⟩ := List.pairwise_cons.mp hsorted
    by_cases hp : p.unwrappedSequenceNumber = seq
    · obtain ⟨htake, hdrop⟩ := ih hrest fun q hq => hfrom q (by simp [hq])
      simp [copies, hp, htake, hdrop]
    · -- Whatever comes behind is greater than the number, too.
      have hp' : seq < p.unwrappedSequenceNumber := lt_of_le_of_ne (hfrom p (by simp)) (Ne.symm hp)
      have hnone : ∀ q ∈ packets, q.unwrappedSequenceNumber ≠ seq := by
        intro q hq
        have hle := hfirst q hq
        omega
      have hcopies : copies seq (p :: packets) = [] := by simpa [copies, hp] using hnone
      have hothers : packets.filter (fun q => !(q.unwrappedSequenceNumber == seq)) = packets := by
        simpa using hnone
      simp [hcopies, hp, hothers]

/-- Another number has its copies among the packets that are left. -/
theorem copies_of_ne {other : Int} (hne : other ≠ seq) :
    copies other (packets.filter fun p => !(p.unwrappedSequenceNumber == seq)) = copies other packets := by
  rw [copies, copies, List.filter_filter]
  apply List.filter_congr
  intro p _
  by_cases hp : p.unwrappedSequenceNumber = other <;> simp [hp, hne]

end Sorted

namespace CongestionControlFeedbackTracker

variable {t : CongestionControlFeedbackTracker} {feedbackTime start : Int} {ssrc : UInt32} {n : Nat}
  {packets : List TrackedPacket}

variable (t) in
/-- The report on a number, from its copies. -/
def marked (feedbackTime seq : Int) (packets : List TrackedPacket) : Marked :=
  match copies seq packets with
  | [] => t.known feedbackTime seq
  | first :: rest =>
    rest.foldl (nextCopy feedbackTime) (firstCopy feedbackTime (t.known feedbackTime seq) first)

variable (t) in
def infoOf (feedbackTime : Int) (ssrc : UInt32) (packets : List TrackedPacket) (seq : Int) : PacketInfo :=
  ⟨ssrc, wrap seq, (t.marked feedbackTime seq packets).1, (t.marked feedbackTime seq packets).2⟩

theorem report_eq {first : TrackedPacket} {rest : List TrackedPacket} (hsorted : InOrder (first :: rest))
    (hfrom : ∀ p ∈ first :: rest, start ≤ p.unwrappedSequenceNumber) :
    t.report feedbackTime ssrc start (first :: rest) =
      some (t.infoOf feedbackTime ssrc (first :: rest) start,
        (first :: rest).filter fun p => !(p.unwrappedSequenceNumber == start)) := by
  obtain ⟨htake, hdrop⟩ := takeWhile_copies (List.pairwise_cons.mp hsorted).2
    fun p hp => hfrom p (by simp [hp])
  obtain ⟨htake', hdrop'⟩ := takeWhile_copies hsorted hfrom
  by_cases hfirst : start = first.unwrappedSequenceNumber
  · have hcopies : copies start (first :: rest) = first :: copies start rest := by
      simp [copies, hfirst]
    simp [report, infoOf, marked, hcopies, ← hfirst, htake, hdrop]
  · have hne : ¬first.unwrappedSequenceNumber = start := fun h => hfirst h.symm
    have hcopies : copies start (first :: rest) = [] := by
      rw [← htake']
      simp [hne]
    rw [← hdrop']
    simp [report, infoOf, marked, hcopies, hfirst, hne]

/-- The loop reports each number once, in order. -/
theorem reports_eq (hsorted : InOrder packets)
    (hfrom : ∀ p ∈ packets, start ≤ p.unwrappedSequenceNumber)
    (hback : n ≠ 0 → ∃ p ∈ packets, p.unwrappedSequenceNumber = start + n - 1) :
    t.reports feedbackTime ssrc n start packets =
      some ((List.range n).map fun i : Nat => t.infoOf feedbackTime ssrc packets (start + i)) := by
  induction n generalizing start packets with
  | zero => rfl
  | succ n ih =>
    obtain ⟨back, hmem, hback⟩ := hback (by omega)
    obtain ⟨first, rest, rfl⟩ := List.exists_cons_of_ne_nil (List.ne_nil_of_mem hmem)
    have hleft := @ih (start + 1) ((first :: rest).filter fun p => !(p.unwrappedSequenceNumber == start))
      (hsorted.filter _) ?_ ?_
    · have hsame (i : Nat) : t.infoOf feedbackTime ssrc
          ((first :: rest).filter fun p => !(p.unwrappedSequenceNumber == start)) (start + 1 + i) =
          t.infoOf feedbackTime ssrc (first :: rest) (start + (i + 1 : Nat)) := by
        have hseq : start + 1 + (i : Int) = start + (i + 1 : Nat) := by omega
        rw [hseq, infoOf, infoOf, marked, marked, copies_of_ne (by omega)]
      rw [reports, report_eq hsorted hfrom, List.range_succ_eq_map]
      simp [hleft, hsame]
    · intro p hp
      obtain ⟨hp, hne⟩ := List.mem_filter.mp hp
      have hle := hfrom p hp
      simp only [Bool.not_eq_true', beq_eq_false_iff_ne] at hne
      omega
    · intro hn
      refine ⟨back, List.mem_filter.mpr ⟨hmem, ?_⟩, by omega⟩
      simp only [Bool.not_eq_true', beq_eq_false_iff_ne]
      omega

/-! ## What is reported on a number -/

/-- The offset of the latest of some copies. -/
theorem foldl_nextCopy (feedbackTime : Int) {known : Marked} {us : Int} (hus : known.1 = .us us)
    (copies : List TrackedPacket) :
    ∃ least, (copies.foldl (nextCopy feedbackTime) known).1 = .us least ∧ least ≤ us ∧
      (∀ p ∈ copies, least ≤ feedbackTime - p.arrivalTime) ∧
      (least = us ∨ ∃ p ∈ copies, least = feedbackTime - p.arrivalTime) := by
  induction copies generalizing known us with
  | nil => exact ⟨us, hus, le_rfl, by simp, .inl rfl⟩
  | cons p copies ih =>
    have hnext : (nextCopy feedbackTime known p).1 = .us (min us (feedbackTime - p.arrivalTime)) := by
      simp [nextCopy, hus, leastOffset]
    obtain ⟨least, hleast, hle, hall, hfound⟩ := ih hnext
    refine ⟨least, hleast, hle.trans (min_le_left ..), ?_, ?_⟩
    · intro q hq
      obtain rfl | hq := List.mem_cons.mp hq
      · exact hle.trans (min_le_right ..)
      · exact hall q hq
    · obtain hfound | ⟨q, hq, hfound⟩ := hfound
      · obtain hmin | hmin := min_choice us (feedbackTime - p.arrivalTime)
        · exact .inl (hfound.trans hmin)
        · exact .inr ⟨p, by simp, hfound.trans hmin⟩
      · exact .inr ⟨q, by simp [hq], hfound⟩

/-- The latest copy is reported if the history does not know of a later one. -/
theorem marked_latest (feedbackTime : Int) {seq : Int} (hmem : ∃ p ∈ packets, p.unwrappedSequenceNumber = seq)
    (hknown : ∀ v, t.history[seq]? = some v →
      ∃ q ∈ packets, q.unwrappedSequenceNumber = seq ∧ v.arrivalTime ≤ q.arrivalTime) :
    ∃ latest ∈ packets, latest.unwrappedSequenceNumber = seq ∧
      (∀ p ∈ packets, p.unwrappedSequenceNumber = seq → p.arrivalTime ≤ latest.arrivalTime) ∧
      (t.marked feedbackTime seq packets).1 = .us (feedbackTime - latest.arrivalTime) := by
  have hcopies (p : TrackedPacket) : p ∈ copies seq packets ↔ p ∈ packets ∧ p.unwrappedSequenceNumber = seq := by
    simp [copies]
  have hsome : copies seq packets ≠ [] := by
    obtain ⟨p, hp, hseq⟩ := hmem
    exact List.ne_nil_of_mem ((hcopies p).mpr ⟨hp, hseq⟩)
  obtain ⟨first, rest, hsplit⟩ := List.exists_cons_of_ne_nil hsome
  -- The first copy is compared with the history, each other copy with what there is.
  have hfirst : ∃ us, (firstCopy feedbackTime (t.known feedbackTime seq) first).1 = .us us ∧
      us ≤ feedbackTime - first.arrivalTime ∧ ∃ q ∈ copies seq packets, feedbackTime - q.arrivalTime ≤ us := by
    cases hhistory : t.history[seq]? with
    | none =>
      exact ⟨feedbackTime - first.arrivalTime, by simp [firstCopy, known, hhistory, leastOffset], le_rfl,
        first, by simp [hsplit], le_rfl⟩
    | some v =>
      refine ⟨min (feedbackTime - v.arrivalTime) (feedbackTime - first.arrivalTime),
        by simp [firstCopy, known, hhistory, leastOffset], min_le_right .., ?_⟩
      obtain ⟨q, hq, hseq, hle⟩ := hknown v hhistory
      obtain hmin | hmin := min_choice (feedbackTime - v.arrivalTime) (feedbackTime - first.arrivalTime)
      · exact ⟨q, (hcopies q).mpr ⟨hq, hseq⟩, by omega⟩
      · exact ⟨first, by simp [hsplit], by omega⟩
  obtain ⟨us, hus, hle, q, hq, hge⟩ := hfirst
  obtain ⟨least, hleast, hleus, hall, hfound⟩ := foldl_nextCopy feedbackTime hus rest
  have hall' : ∀ p ∈ copies seq packets, least ≤ feedbackTime - p.arrivalTime := by
    rw [hsplit, List.forall_mem_cons]
    exact ⟨hleus.trans hle, hall⟩
  have hlatest : ∃ p ∈ copies seq packets, least = feedbackTime - p.arrivalTime := by
    obtain hfound | ⟨p, hp, hfound⟩ := hfound
    · exact ⟨q, hq, le_antisymm (hall' q hq) (hfound ▸ hge)⟩
    · exact ⟨p, by simp [hsplit, hp], hfound⟩
  obtain ⟨latest, hmem, hlatest⟩ := hlatest
  refine ⟨latest, ((hcopies latest).mp hmem).1, ((hcopies latest).mp hmem).2, fun p hp hseq => ?_, ?_⟩
  · have hle := hall' p ((hcopies p).mpr ⟨hp, hseq⟩)
    omega
  · rw [marked, hsplit, ← hlatest]
    exact hleast

/-- What is reported as received has been seen. -/
theorem seen_of_marked {seq : Int} (h : (t.marked feedbackTime seq packets).1.isFinite = true) :
    (∃ p ∈ packets, p.unwrappedSequenceNumber = seq) ∨ ∃ v, t.history[seq]? = some v := by
  cases hcopies : copies seq packets with
  | cons p rest =>
    have hp : p ∈ copies seq packets := by simp [hcopies]
    exact .inl ⟨p, by simpa [copies] using hp⟩
  | nil =>
    rw [marked, hcopies] at h
    cases hhistory : t.history[seq]? with
    | none => simp [known, hhistory, TimeDelta.isFinite] at h
    | some v => exact .inr ⟨v, rfl⟩

/-! ## What a tracker knows -/

/-- The history after a packet has no other entries than before, and none that is later than the packet. -/
theorem get_remember {p v : TrackedPacket} {seq : Int} (h : (t.remember p).1[seq]? = some v) :
    seq = p.unwrappedSequenceNumber ∧ v.arrivalTime ≤ p.arrivalTime ∨
      seq ≠ p.unwrappedSequenceNumber ∧ t.history[seq]? = some v := by
  have hinsert {q : TrackedPacket} (hq : q.arrivalTime ≤ p.arrivalTime)
      (h : (t.history.insert p.unwrappedSequenceNumber q)[seq]? = some v) :
      seq = p.unwrappedSequenceNumber ∧ v.arrivalTime ≤ p.arrivalTime ∨
        seq ≠ p.unwrappedSequenceNumber ∧ t.history[seq]? = some v := by
    rw [OrderedMap.get_insert] at h
    split at h
    · cases h
      exact .inl ⟨‹_›, hq⟩
    · exact .inr ⟨‹_›, h⟩
  unfold remember at h
  split at h
  · dsimp only at h
    split at h
    · -- The oldest entry has gone.
      cases horder : (t.historyOrder ++ [p.unwrappedSequenceNumber]).head? with
      | none =>
        rw [horder] at h
        exact hinsert le_rfl h
      | some oldest =>
        rw [horder, Option.elim_some, OrderedMap.get_erase] at h
        split at h
        · cases h
        · exact hinsert le_rfl h
    · exact hinsert le_rfl h
  · refine hinsert ?_ h
    dsimp only
    split
    · exact le_rfl
    · exact not_lt.mp ‹_›

/-- What a tracker of one SSRC has, if the packets `log` have arrived. -/
structure Tracks (ssrc : UInt32) (log : List RtpPacketReceived) (t : CongestionControlFeedbackTracker) :
    Prop where
  agrees : t.unwrapper.Agrees
  own : ∀ p ∈ t.packets, p.ssrc = ssrc
  arrived : ∀ p ∈ t.packets, ∃ q ∈ log, q.ssrc = ssrc ∧ q.sequenceNumber = wrap p.unwrappedSequenceNumber
  history : ∀ seq v, t.history[seq]? = some v → ∃ q ∈ log, q.ssrc = ssrc ∧ q.sequenceNumber = wrap seq
  ahead : ∀ last, t.lastSequenceNumberInFeedback = some last →
    ∀ p ∈ t.packets, last < p.unwrappedSequenceNumber
  notLater : ∀ seq v, t.history[seq]? = some v → (∃ p ∈ t.packets, p.unwrappedSequenceNumber = seq) →
    ∃ q ∈ t.packets, q.unwrappedSequenceNumber = seq ∧ v.arrivalTime ≤ q.arrivalTime

theorem tracks_start (log : List RtpPacketReceived) : Tracks ssrc log {} where
  agrees := SeqNumUnwrapper.agrees_start
  own := by simp
  arrived := by simp
  history seq v h := by simp at h
  ahead := by simp
  notLater seq v h := by simp at h

theorem Tracks.mono {log more : List RtpPacketReceived} (h : Tracks ssrc log t) (hsub : log ⊆ more) :
    Tracks ssrc more t where
  agrees := h.agrees
  own := h.own
  arrived p hp := by
    obtain ⟨q, hq, hown⟩ := h.arrived p hp
    exact ⟨q, hsub hq, hown⟩
  history seq v hv := by
    obtain ⟨q, hq, hown⟩ := h.history seq v hv
    exact ⟨q, hsub hq, hown⟩
  ahead := h.ahead
  notLater := h.notLater

/-- A packet of the SSRC arrives. -/
theorem Tracks.receivedPacket {log : List RtpPacketReceived} (h : Tracks ssrc log t) {p : RtpPacketReceived}
    (hssrc : p.ssrc = ssrc) (hlog : p ∈ log) : Tracks ssrc log (t.receivedPacket p) := by
  have hnumber : p.sequenceNumber = wrap (t.track p).unwrappedSequenceNumber :=
    (SeqNumUnwrapper.wrap_unwrap h.agrees p.sequenceNumber).symm
  have hpackets : (t.receivedPacket p).packets = t.packets ++ [t.track p] := rfl
  refine ⟨h.agrees.unwrap _, ?_, ?_, ?_, ?_, ?_⟩
  · rw [hpackets, List.forall_mem_append]
    exact ⟨h.own, by simpa [track] using hssrc⟩
  · rw [hpackets, List.forall_mem_append]
    exact ⟨h.arrived, by simpa using ⟨p, hlog, hssrc, hnumber⟩⟩
  · intro seq v hv
    obtain ⟨rfl, -⟩ | ⟨-, hv⟩ := get_remember hv
    · exact ⟨p, hlog, hssrc, hnumber⟩
    · exact h.history seq v hv
  · intro last hlast q hq
    obtain ⟨before, hbefore, rfl⟩ := Option.map_eq_some_iff.mp hlast
    have hq' : q ∈ t.packets ∨ q = t.track p := by simpa [hpackets] using hq
    obtain hq' | rfl := hq'
    · have hahead := h.ahead before hbefore q hq'
      split <;> omega
    · split <;> omega
  · intro seq v hv hfresh
    obtain ⟨rfl, hle⟩ | ⟨hne, hv⟩ := get_remember hv
    · exact ⟨t.track p, by simp [hpackets], rfl, hle⟩
    · obtain ⟨q, hq, hseq⟩ := hfresh
      have hq' : q ∈ t.packets ∨ q = t.track p := by simpa [hpackets] using hq
      obtain hq' | rfl := hq'
      · obtain ⟨r, hr, hbound⟩ := h.notLater seq v hv ⟨q, hq', hseq⟩
        exact ⟨r, by simp [hpackets, hr], hbound⟩
      · exact absurd hseq.symm hne

/-! ## A feedback -/

/-- The reports `infos` on a tracker: numbers that follow one another from `start` on. -/
structure Reported (ssrc : UInt32) (log : List RtpPacketReceived) (t : CongestionControlFeedbackTracker)
    (feedbackTime start : Int) (infos : List PacketInfo) : Prop where
  numbers : infos.map (·.sequenceNumber) = (List.range infos.length).map fun i : Nat => wrap (start + i)
  own : ∀ q ∈ infos, q.ssrc = ssrc
  complete : ∀ p ∈ t.packets, ∃ latest ∈ t.packets,
    latest.unwrappedSequenceNumber = p.unwrappedSequenceNumber ∧
    (∀ copy ∈ t.packets, copy.unwrappedSequenceNumber = p.unwrappedSequenceNumber →
      copy.arrivalTime ≤ latest.arrivalTime) ∧
    ∃ q ∈ infos, q.sequenceNumber = wrap p.unwrappedSequenceNumber ∧
      q.arrivalTimeOffset = .us (feedbackTime - latest.arrivalTime)
  sound : ∀ q ∈ infos, q.arrivalTimeOffset.isFinite = true →
    ∃ p ∈ log, p.ssrc = ssrc ∧ p.sequenceNumber = q.sequenceNumber

theorem reported_range {log : List RtpPacketReceived} (h : Tracks ssrc log t)
    (hmem : ∀ p, p ∈ packets ↔ p ∈ t.packets)
    (hrange : ∀ p ∈ t.packets, start ≤ p.unwrappedSequenceNumber ∧ p.unwrappedSequenceNumber < start + n) :
    Reported ssrc log t feedbackTime start
      ((List.range n).map fun i : Nat => t.infoOf feedbackTime ssrc packets (start + i)) where
  numbers := by simp [infoOf]
  own := by simp [infoOf]
  complete p hp := by
    have hknown : ∀ v, t.history[p.unwrappedSequenceNumber]? = some v → ∃ q ∈ packets,
        q.unwrappedSequenceNumber = p.unwrappedSequenceNumber ∧ v.arrivalTime ≤ q.arrivalTime := by
      intro v hv
      obtain ⟨q, hq, hbound⟩ := h.notLater _ v hv ⟨p, hp, rfl⟩
      exact ⟨q, (hmem q).mpr hq, hbound⟩
    obtain ⟨latest, hlatest, hsame, hall, hoffset⟩ :=
      marked_latest feedbackTime ⟨p, (hmem p).mpr hp, rfl⟩ hknown
    obtain ⟨hge, hlt⟩ := hrange p hp
    have hseq : start + ((p.unwrappedSequenceNumber - start).toNat : Int) = p.unwrappedSequenceNumber := by
      omega
    refine ⟨latest, (hmem latest).mp hlatest, hsame, fun copy hcopy => hall copy ((hmem copy).mpr hcopy),
      t.infoOf feedbackTime ssrc packets p.unwrappedSequenceNumber, ?_, rfl, hoffset⟩
    rw [List.mem_map]
    exact ⟨(p.unwrappedSequenceNumber - start).toNat, List.mem_range.mpr (by omega), by rw [hseq]⟩
  sound q hq hfinite := by
    obtain ⟨i, -, rfl⟩ := List.mem_map.mp hq
    obtain ⟨p, hp, hseq⟩ | ⟨v, hv⟩ := seen_of_marked hfinite
    · obtain ⟨r, hr, hown, hnumber⟩ := h.arrived p ((hmem p).mp hp)
      exact ⟨r, hr, hown, by rw [hnumber, hseq]; rfl⟩
    · exact h.history _ v hv

/-- A feedback begins behind the last one and ends with the greatest number that has arrived. -/
theorem addPacketsToFeedback_eq (s : PacketSort) {log : List RtpPacketReceived} (h : Tracks ssrc log t)
    (hsome : t.packets ≠ []) (feedbackTime : Int) : ∃ (start : Int) (infos : List PacketInfo), infos ≠ [] ∧
      t.addPacketsToFeedback s feedbackTime = some (infos,
        { t with lastSequenceNumberInFeedback := some (start + infos.length - 1), packets := [] }) ∧
      (∀ last, t.lastSequenceNumberInFeedback = some last → start = last + 1) ∧
      Reported ssrc log t feedbackTime start infos := by
  have hmem (p : TrackedPacket) : p ∈ s.sort t.packets ↔ p ∈ t.packets := s.mem_sort
  obtain ⟨first, rest, hsplit⟩ := s.sort_eq_cons hsome
  have hsorted := s.inOrder t.packets
  rw [hsplit] at hsorted
  obtain ⟨hback, hgreatest⟩ := hsorted.getLastD
  obtain ⟨last, hlast⟩ : ∃ last, t.lastSequenceNumberInFeedback.getD (first.unwrappedSequenceNumber - 1) = last :=
    ⟨_, rfl⟩
  obtain ⟨back, hbackSeq⟩ : ∃ back, (rest.getLastD first).unwrappedSequenceNumber = back := ⟨_, rfl⟩
  rw [hbackSeq] at hgreatest
  -- No packet is behind the last feedback.
  have hfrom : ∀ p ∈ first :: rest, last + 1 ≤ p.unwrappedSequenceNumber := by
    intro p hp
    cases hbefore : t.lastSequenceNumberInFeedback with
    | none =>
      have hle : first.unwrappedSequenceNumber ≤ p.unwrappedSequenceNumber := by
        obtain rfl | hp := List.mem_cons.mp hp
        · exact le_rfl
        · exact (List.pairwise_cons.mp hsorted).1 p hp
      rw [hbefore, Option.getD_none] at hlast
      omega
    | some before =>
      have hahead := h.ahead before hbefore p ((hmem p).mp (hsplit ▸ hp))
      rw [hbefore, Option.getD_some] at hlast
      omega
  have hcount : last + 1 ≤ back := hbackSeq ▸ hfrom _ hback
  have hreports : t.reports feedbackTime ssrc (back - last).toNat (last + 1) (first :: rest) =
      some ((List.range (back - last).toNat).map fun i : Nat =>
        t.infoOf feedbackTime ssrc (first :: rest) (last + 1 + i)) :=
    reports_eq hsorted hfrom fun _ => ⟨_, hback, by omega⟩
  have hown : first.ssrc = ssrc := h.own first ((hmem first).mp (by simp [hsplit]))
  have hrange : ∀ p ∈ t.packets, last + 1 ≤ p.unwrappedSequenceNumber ∧
      p.unwrappedSequenceNumber < last + 1 + (back - last).toNat := by
    intro p hp
    have hp' : p ∈ first :: rest := by
      rw [← hsplit]
      exact (hmem p).mpr hp
    have hle := hgreatest p hp'
    exact ⟨hfrom p hp', by omega⟩
  rw [hsplit] at hmem
  refine ⟨last + 1, _, ?_, ?_, fun before hbefore => ?_, reported_range h hmem hrange⟩
  · intro hnil
    have hlength := congrArg List.length hnil
    simp only [List.length_map, List.length_range, List.length_nil] at hlength
    omega
  · have hend : last + 1 + ((back - last).toNat : Int) - 1 = back := by omega
    rw [addPacketsToFeedback, hsplit]
    simp only [hlast, hbackSeq, hown, hreports, List.length_map, List.length_range, hend]
    rfl
  · rw [hbefore, Option.getD_some] at hlast
    rw [hlast]

end CongestionControlFeedbackTracker

end CrossTransfer.Minirtc
