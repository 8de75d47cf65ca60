import CrossTransfer.Library.CheckedList
import CrossTransfer.Minirtc.FeedbackTracker

/-! # The feedback that a receiver sends

`minirtc/src/qos/congestion_control_feedback_generator.{h,cc}` and `DataTransport::SendRtcp`: packets that
arrive are given to the tracker of their SSRC, and a feedback with the reports of all trackers is sent when
it is time for one. In every run what the other side reads as received has arrived, and what has arrived is
read as received from the next feedback, if its offset can be said there (`receiver_run`).

`compactNtp` is the clock of the timestamp, and `ticks` the product in `float` of the arrival time offset. The
sender of the reports is under `rtcpSsrc`. The rate for feedback and the overhead are what they are at first;
nothing in the transport changes them.
-/

namespace CrossTransfer.Minirtc

open CrossTransfer.Library
open CrossTransfer.Transfer

def kMinTimeBetweenFeedback : Int := 25000
def kMaxTimeToWaitForPacketWithMarker : Int := 25000
def kMaxTimeBetweenFeedback : Int := 250000

/-! ## The size of a feedback -/

def increaseSizePerSsrc (numberOfPackets : UInt16) : Nat :=
  kHeaderPerMediaSssrcLength + numberOfPackets.toNat * 2 + if numberOfPackets.toNat % 2 ≠ 0 then 2 else 0

/-- The loop of `BlockLength`, with the first and the last number of the SSRC so far. -/
def blockLengthFrom (ssrc : UInt32) (first last : UInt16) : List PacketInfo → Nat
  | [] => increaseSizePerSsrc (last - first + 1)
  | p :: packets =>
    if p.ssrc ≠ ssrc then
      increaseSizePerSsrc (last - first + 1) +
        blockLengthFrom p.ssrc p.sequenceNumber p.sequenceNumber packets
    else blockLengthFrom ssrc first p.sequenceNumber packets

/-- `BlockLength`. -/
def blockLength : List PacketInfo → Nat
  | [] => kSenderSsrcLength + kHeaderLength + kTimestampLength
  | p :: packets => kSenderSsrcLength + kHeaderLength + kTimestampLength +
      blockLengthFrom p.ssrc p.sequenceNumber p.sequenceNumber packets

/-! ## The generator -/

/-- Rates are in bits per second, sizes in bytes. -/
structure CongestionControlFeedbackGenerator where
  maxFeedbackRate : Int := 1000000
  packetOverhead : Int := 0
  sendRateDebt : Int := 0
  feedbackTrackers : OrderedMap UInt32 CongestionControlFeedbackTracker := ∅
  lastFeedbackSentTime : Int := 0
  firstArrivalTimeSinceFeedback : Option Int := none
  markerBitSeen : Bool := false
  nextPossibleFeedbackSendTime : Int := 0

namespace CongestionControlFeedbackGenerator

variable (g : CongestionControlFeedbackGenerator)

/-- `NextFeedbackTime`; `clock` is what is read from the clock if nothing has arrived. -/
def nextFeedbackTime (clock : Int) : Int :=
  match g.firstArrivalTimeSinceFeedback with
  | none => max (clock + kMinTimeBetweenFeedback) g.nextPossibleFeedbackSendTime
  | some first =>
    if !g.markerBitSeen then max g.nextPossibleFeedbackSendTime (first + kMaxTimeToWaitForPacketWithMarker)
    else g.nextPossibleFeedbackSendTime

/-- `CalculateNextPossibleSendTime`. -/
def calculateNextPossibleSendTime (feedbackSize now : Int) : CongestionControlFeedbackGenerator :=
  let debtPayed := ((now - g.lastFeedbackSentTime) * g.maxFeedbackRate + 4000000).tdiv 8000000
  let debt := (if g.sendRateDebt < debtPayed then 0 else g.sendRateDebt - debtPayed) +
    (feedbackSize + g.packetOverhead)
  let wait := if g.maxFeedbackRate = 0 then kMaxTimeBetweenFeedback
    else max kMinTimeBetweenFeedback
      (min ((debt * 8000000).tdiv g.maxFeedbackRate) kMaxTimeBetweenFeedback)
  { g with
    sendRateDebt := debt
    lastFeedbackSentTime := now
    nextPossibleFeedbackSendTime := now + wait }

variable (s : PacketSort) (compactNtp : Int → UInt32)

/-- What the trackers report, in the order of the SSRCs. -/
def collectInfos (now : Int) : Option (List PacketInfo) := do
  let added ← g.feedbackTrackers.toList.mapM fun e => e.2.addPacketsToFeedback s now
  return added.flatMap Prod.fst

/-- The trackers after a feedback. -/
def trackersAfter (now : Int) : OrderedMap UInt32 CongestionControlFeedbackTracker :=
  g.feedbackTrackers.map fun _ t => ((t.addPacketsToFeedback s now).map Prod.snd).getD t

/-- `SendFeedback`: the feedback for the callback. -/
def sendFeedback (now : Int) : Option (CongestionControlFeedback × CongestionControlFeedbackGenerator) := do
  let infos ← g.collectInfos s now
  let g := { g with
    feedbackTrackers := g.trackersAfter s now
    markerBitSeen := false
    firstArrivalTimeSinceFeedback := none }
  return ({ reportTimestampCompactNtp := compactNtp now, packets := infos },
    g.calculateNextPossibleSendTime (blockLength infos) now)

/-- The generator when it knows of a packet. -/
def arrived (p : RtpPacketReceived) : CongestionControlFeedbackGenerator :=
  { g with
    markerBitSeen := g.markerBitSeen || p.marker
    firstArrivalTimeSinceFeedback := some (g.firstArrivalTimeSinceFeedback.getD p.arrivalTime)
    feedbackTrackers := g.feedbackTrackers.insert p.ssrc
      ((g.feedbackTrackers[p.ssrc]?.getD {}).receivedPacket p) }

/-- `OnReceivedPacket`, with the time on the clock: the feedback that is sent, if one is. -/
def onReceivedPacket (p : RtpPacketReceived) (clock : Int) :
    Option (Option CongestionControlFeedback × CongestionControlFeedbackGenerator) :=
  let g := g.arrived p
  if g.nextFeedbackTime clock < p.arrivalTime then (g.sendFeedback s compactNtp clock).map (Prod.map some id)
  else some (none, g)

/-- `Process` at the time `now`, when the clock is at `clock`. -/
def process (now clock : Int) :
    Option (Option CongestionControlFeedback × CongestionControlFeedbackGenerator) :=
  if g.nextFeedbackTime clock ≤ now then (g.sendFeedback s compactNtp now).map (Prod.map some id)
  else some (none, g)

end CongestionControlFeedbackGenerator

/-- The timestamp of a clock that starts at the epoch of NTP, with 16 bits for the fraction of a second. -/
def compactNtpAt (us : Int) : UInt32 := .ofNat (us * 65536 / 1000000).toNat

def kRtcpBufferSize : Nat := 1200

/-- `SendRtcp` of one feedback, without encryption: the datagrams. -/
def sendRtcp (ticks : Int → Int) (rtcpSsrc : UInt32) (f : CongestionControlFeedback) :
    Option (List Bytes) := do
  let (_, o) ← { f with senderSsrc := rtcpSsrc }.create ticks [] kRtcpBufferSize
  return o.fragments

/-! ## One tracker -/

theorem wrap_succ (x : Int) : wrap (x + 1) = wrap x + 1 := by
  apply UInt16.toNat_inj.mp
  have hsucc := toNat_wrap (x + 1)
  have hx := toNat_wrap x
  rw [UInt16.toNat_add]
  change _ = ((wrap x).toNat + 1) % 65536
  omega

namespace CongestionControlFeedbackTracker

variable {t t' : CongestionControlFeedbackTracker} {ssrc : UInt32} {log : List RtpPacketReceived}
  {now start : Int} {infos : List PacketInfo}

theorem Reported.consecutive (h : Reported ssrc log t now start infos) : Consecutive infos := by
  rw [Consecutive, List.isChain_iff_getElem]
  intro i hi _
  have hnumber (j : Nat) (hj : j < infos.length) : infos[j].sequenceNumber = wrap (start + j) := by
    have hat := congrArg (·[j]?) h.numbers
    simpa [hj] using hat
  rw [hnumber i (by omega), hnumber (i + 1) hi, ← wrap_succ]
  congr 1
  omega

variable (ssrc now infos) in
/-- The offset that is reported of a number is that of the latest of its copies. -/
def ReportsLatest (kept : List TrackedPacket) (p : TrackedPacket) : Prop :=
  ∃ latest ∈ kept, latest.unwrappedSequenceNumber = p.unwrappedSequenceNumber ∧
    p.arrivalTime ≤ latest.arrivalTime ∧
    ∃ q ∈ infos, q.ssrc = ssrc ∧ q.sequenceNumber = wrap p.unwrappedSequenceNumber ∧
      q.arrivalTimeOffset = .us (now - latest.arrivalTime)

theorem ReportsLatest.mono {kept : List TrackedPacket} {p : TrackedPacket} {more : List PacketInfo}
    (h : ReportsLatest ssrc now infos kept p) (hsub : infos ⊆ more) : ReportsLatest ssrc now more kept p := by
  obtain ⟨latest, hlatest, hsame, hle, q, hq, hreport⟩ := h
  exact ⟨latest, hlatest, hsame, hle, q, hsub hq, hreport⟩

/-- A feedback at `now` takes the reports `infos` from a tracker. -/
structure Adds (ssrc : UInt32) (log : List RtpPacketReceived) (t : CongestionControlFeedbackTracker)
    (now : Int) (infos : List PacketInfo) (t' : CongestionControlFeedbackTracker) : Prop where
  own : ∀ q ∈ infos, q.ssrc = ssrc
  consecutive : Consecutive infos
  complete : ∀ p ∈ t.packets, ReportsLatest ssrc now infos t.packets p
  sound : ∀ q ∈ infos, q.arrivalTimeOffset.isFinite = true →
    ∃ p ∈ log, p.ssrc = ssrc ∧ p.sequenceNumber = q.sequenceNumber
  tracks : Tracks ssrc log t'
  emptied : t'.packets = []

theorem Tracks.adds (s : PacketSort) (h : Tracks ssrc log t) (now : Int) :
    ∃ infos t', t.addPacketsToFeedback s now = some (infos, t') ∧ Adds ssrc log t now infos t' := by
  by_cases hnil : t.packets = []
  · have hsort : s.sort t.packets = [] := by rw [hnil, s.sort_nil]
    refine ⟨[], t, by rw [addPacketsToFeedback, hsort], ?_⟩
    constructor <;> simp_all [Consecutive]
  · obtain ⟨start, infos, -, hadd, -, hreported⟩ := addPacketsToFeedback_eq s h hnil now
    refine ⟨infos, _, hadd, hreported.own, hreported.consecutive, ?_, hreported.sound, ?_, rfl⟩
    · intro p hp
      obtain ⟨latest, hlatest, hsame, hall, q, hq, hreport⟩ := hreported.complete p hp
      exact ⟨latest, hlatest, hsame, hall p hp rfl, q, hq, hreported.own q hq, hreport⟩
    · exact ⟨h.agrees, by simp, by simp, h.history, by simp, by simp⟩

end CongestionControlFeedbackTracker

/-! ## All trackers -/

namespace CongestionControlFeedbackGenerator

open CongestionControlFeedbackTracker

variable {g : CongestionControlFeedbackGenerator} {s : PacketSort} {log : List RtpPacketReceived} {now : Int}

variable (g log) in
/-- Each tracker has the packets of its SSRC. -/
def AllTrack : Prop := ∀ (ssrc : UInt32) (t : CongestionControlFeedbackTracker),
  g.feedbackTrackers[ssrc]? = some t → Tracks ssrc log t

/-- The reports of one SSRC after those of another. -/
theorem consecutive_append {front back : List PacketInfo} (hfront : Consecutive front)
    (hback : Consecutive back) (hapart : ∀ p ∈ front, ∀ q ∈ back, p.ssrc ≠ q.ssrc) :
    Consecutive (front ++ back) := by
  rw [Consecutive, List.isChain_append]
  refine ⟨hfront, hback, fun p hp q hq hsame => ?_⟩
  exact absurd hsame (hapart p (List.mem_of_getLast? hp) q (List.mem_of_head? hq))

/-- What a feedback reports on the trackers of a list. -/
structure Collects (s : PacketSort) (log : List RtpPacketReceived)
    (trackers : List (UInt32 × CongestionControlFeedbackTracker)) (now : Int) (infos : List PacketInfo) :
    Prop where
  consecutive : Consecutive infos
  ssrcs : ∀ q ∈ infos, ∃ e ∈ trackers, e.1 = q.ssrc
  complete : ∀ e ∈ trackers, ∀ p ∈ e.2.packets, ReportsLatest e.1 now infos e.2.packets p
  sound : ∀ q ∈ infos, q.arrivalTimeOffset.isFinite = true →
    ∃ p ∈ log, p.ssrc = q.ssrc ∧ p.sequenceNumber = q.sequenceNumber

theorem collects (s : PacketSort) {trackers : List (UInt32 × CongestionControlFeedbackTracker)}
    (hall : ∀ e ∈ trackers, Tracks e.1 log e.2) (hapart : trackers.Pairwise fun d e => d.1 ≠ e.1) (now : Int) :
    ∃ added, trackers.mapM (fun e => e.2.addPacketsToFeedback s now) = some added ∧
      Collects s log trackers now (added.flatMap Prod.fst) := by
  induction trackers with
  | nil => exact ⟨[], rfl, by constructor <;> simp [Consecutive]⟩
  | cons e trackers ih =>
    rw [List.forall_mem_cons] at hall
    rw [List.pairwise_cons] at hapart
    obtain ⟨infos, t', hadd, hinfos⟩ := hall.1.adds s now
    obtain ⟨added, hadded, hrest⟩ := ih hall.2 hapart.2
    refine ⟨(infos, t') :: added, by rw [List.mapM_cons, hadd, hadded]; rfl, ?_⟩
    rw [List.flatMap_cons]
    constructor
    · apply consecutive_append hinfos.consecutive hrest.consecutive
      intro p hp q hq hsame
      obtain ⟨d, hd, hssrc⟩ := hrest.ssrcs q hq
      exact hapart.1 d hd (by rw [hssrc, ← hsame, hinfos.own p hp])
    · intro q hq
      obtain hq | hq := List.mem_append.mp hq
      · exact ⟨e, by simp, (hinfos.own q hq).symm⟩
      · obtain ⟨d, hd, hssrc⟩ := hrest.ssrcs q hq
        exact ⟨d, by simp [hd], hssrc⟩
    · intro d hd p hp
      obtain rfl | hd := List.mem_cons.mp hd
      · exact (hinfos.complete p hp).mono (List.subset_append_left ..)
      · exact (hrest.complete d hd p hp).mono (List.subset_append_right ..)
    · intro q hq hfinite
      obtain hq | hq := List.mem_append.mp hq
      · obtain ⟨p, hp, hown, hnumber⟩ := hinfos.sound q hq hfinite
        exact ⟨p, hp, by rw [hown, hinfos.own q hq], hnumber⟩
      · exact hrest.sound q hq hfinite

/-- A feedback is sent whatever the trackers have, and leaves them without packets. -/
theorem sendFeedback_eq (s : PacketSort) (compactNtp : Int → UInt32) (h : AllTrack g log) (now : Int) :
    ∃ f g', g.sendFeedback s compactNtp now = some (f, g') ∧
      Collects s log g.feedbackTrackers.toList now f.packets ∧ AllTrack g' log ∧
      (∀ (ssrc : UInt32) (t : CongestionControlFeedbackTracker),
        g'.feedbackTrackers[ssrc]? = some t → t.packets = []) ∧
      g'.firstArrivalTimeSinceFeedback = none ∧
      now + kMinTimeBetweenFeedback ≤ g'.nextPossibleFeedbackSendTime ∧
      g'.nextPossibleFeedbackSendTime ≤ now + kMaxTimeBetweenFeedback := by
  have hall : ∀ e ∈ g.feedbackTrackers.toList, Tracks e.1 log e.2 := fun e he =>
    h e.1 e.2 (Std.ExtTreeMap.mem_toList_iff_getElem?_eq_some.mp he)
  have hapart : g.feedbackTrackers.toList.Pairwise fun d e => d.1 ≠ e.1 :=
    (Std.ExtTreeMap.distinct_keys_toList (t := g.feedbackTrackers)).imp fun hne heq => by simp [heq] at hne
  obtain ⟨added, hadded, hcollects⟩ := collects s hall hapart now
  -- What becomes of one tracker.
  have hafter : ∀ (ssrc : UInt32) (t' : CongestionControlFeedbackTracker),
      (g.trackersAfter s now)[ssrc]? = some t' → Tracks ssrc log t' ∧ t'.packets = [] := by
    intro ssrc t' ht'
    rw [trackersAfter, Std.ExtTreeMap.getElem?_map] at ht'
    obtain ⟨t, ht, rfl⟩ := Option.map_eq_some_iff.mp ht'
    obtain ⟨infos, t', hadd, hadds⟩ := (h ssrc t ht).adds s now
    rw [hadd]
    exact ⟨hadds.tracks, hadds.emptied⟩
  refine ⟨_, _, by rw [sendFeedback, collectInfos, hadded]; rfl, hcollects,
    fun ssrc t' ht' => (hafter ssrc t' ht').1, fun ssrc t' ht' => (hafter ssrc t' ht').2, rfl, ?_, ?_⟩
  · simp only [calculateNextPossibleSendTime, kMinTimeBetweenFeedback, kMaxTimeBetweenFeedback]
    split <;> omega
  · simp only [calculateNextPossibleSendTime, kMinTimeBetweenFeedback, kMaxTimeBetweenFeedback]
    split <;> omega

end CongestionControlFeedbackGenerator

/-! ## The receiving side in a run -/

/-- The generator, and for what is said about it the packets that have arrived, those that have arrived
    since the last feedback, and the feedbacks with the time at which they were sent. -/
structure Receiver where
  generator : CongestionControlFeedbackGenerator := {}
  arrived : List RtpPacketReceived := []
  unreported : List RtpPacketReceived := []
  sent : List (Int × CongestionControlFeedback) := []

/-- A packet, or a call of `Process`, with what the clock shows then. -/
inductive ReceiverEvent
  | packet (p : RtpPacketReceived) (clock : Int)
  | tick (now clock : Int)

namespace Receiver

/-- A packet is known before it is decided whether a feedback is sent. -/
def arrive (r : Receiver) (p : RtpPacketReceived) : Receiver :=
  { r with
    generator := r.generator.arrived p
    arrived := r.arrived ++ [p]
    unreported := r.unreported ++ [p] }

/-- The receiver after an event at a time, at which a feedback may have been sent. -/
def after (r : Receiver) (time : Int)
    (out : Option CongestionControlFeedback × CongestionControlFeedbackGenerator) : Receiver :=
  { r with
    generator := out.2
    unreported := if out.1.isSome then [] else r.unreported
    sent := r.sent ++ (out.1.map (time, ·)).toList }

variable (s : PacketSort) (compactNtp : Int → UInt32)

def step (r : Receiver) : ReceiverEvent → Option Receiver
  | .packet p clock => (r.generator.onReceivedPacket s compactNtp p clock).map ((r.arrive p).after clock)
  | .tick now clock => (r.generator.process s compactNtp now clock).map (r.after now)

def machine : Machine Receiver ReceiverEvent := ⟨{}, step s compactNtp⟩

/-- A report says that a packet was received. -/
def Acknowledges (f : CongestionControlFeedback) (p : RtpPacketReceived) : Prop :=
  ∃ q ∈ f.packets, q.ssrc = p.ssrc ∧ q.sequenceNumber = p.sequenceNumber ∧
    q.arrivalTimeOffset.isFinite = true

/-- A report on a packet has the offset of the latest of those that were heard with its number. -/
def ReportsHeard (heard : RtpPacketReceived → Prop) (e : Int × CongestionControlFeedback)
    (p : RtpPacketReceived) : Prop :=
  ∃ latest, heard latest ∧ latest.ssrc = p.ssrc ∧ latest.sequenceNumber = p.sequenceNumber ∧
    p.arrivalTime ≤ latest.arrivalTime ∧
    ∃ q ∈ e.2.packets, q.ssrc = p.ssrc ∧ q.sequenceNumber = p.sequenceNumber ∧
      q.arrivalTimeOffset = .us (e.1 - latest.arrivalTime)

/-- What the feedbacks say about the packets. -/
structure Honest (r : Receiver) : Prop where
  consecutive : ∀ e ∈ r.sent, Consecutive e.2.packets
  sound : ∀ e ∈ r.sent, ∀ q ∈ e.2.packets, q.arrivalTimeOffset.isFinite = true →
    ∃ p ∈ r.arrived, p.ssrc = q.ssrc ∧ p.sequenceNumber = q.sequenceNumber

/-- A tracker keeps a packet that is to be reported. -/
def KeptAs (ssrc : UInt32) (q : TrackedPacket) (p : RtpPacketReceived) : Prop :=
  p.ssrc = ssrc ∧ p.sequenceNumber = wrap q.unwrappedSequenceNumber ∧ p.arrivalTime = q.arrivalTime

/-- How the trackers stand: they keep what is to be reported, and nothing else. -/
structure Ready (r : Receiver) : Prop where
  track : r.generator.AllTrack r.arrived
  pending : ∀ p ∈ r.unreported, ∃ t : CongestionControlFeedbackTracker,
    r.generator.feedbackTrackers[p.ssrc]? = some t ∧ ∃ q ∈ t.packets, KeptAs p.ssrc q p
  kept : ∀ (ssrc : UInt32) (t : CongestionControlFeedbackTracker),
    r.generator.feedbackTrackers[ssrc]? = some t → ∀ q ∈ t.packets, ∃ p ∈ r.unreported, KeptAs ssrc q p

/-- How far apart the feedbacks are, and when the next one may be sent. -/
structure Spaced (r : Receiver) : Prop where
  apart : r.sent.IsChain fun d e => d.1 + kMinTimeBetweenFeedback ≤ e.1
  next : ∀ e, r.sent.getLast? = some e →
    e.1 + kMinTimeBetweenFeedback ≤ r.generator.nextPossibleFeedbackSendTime ∧
      r.generator.nextPossibleFeedbackSendTime ≤ e.1 + kMaxTimeBetweenFeedback
  start : r.sent = [] → r.generator.nextPossibleFeedbackSendTime = 0
  first : r.generator.firstArrivalTimeSinceFeedback = r.unreported.head?.map (·.arrivalTime)

open CongestionControlFeedbackTracker CongestionControlFeedbackGenerator

variable {s compactNtp} {r r' : Receiver} {p : RtpPacketReceived}

theorem ReportsHeard.mono {heard more : RtpPacketReceived → Prop} {e : Int × CongestionControlFeedback}
    (h : ReportsHeard heard e p) (hsub : ∀ q, heard q → more q) : ReportsHeard more e p := by
  obtain ⟨latest, hlatest, hreport⟩ := h
  exact ⟨latest, hsub latest hlatest, hreport⟩

theorem ReportsHeard.acknowledges {heard : RtpPacketReceived → Prop} {e : Int × CongestionControlFeedback}
    (h : ReportsHeard heard e p) : Acknowledges e.2 p := by
  obtain ⟨latest, -, -, -, -, q, hq, hssrc, hnumber, hoffset⟩ := h
  exact ⟨q, hq, hssrc, hnumber, by rw [hoffset]; rfl⟩

theorem ready_start : Ready {} where
  track ssrc t h := by simp at h
  pending := by simp
  kept ssrc t h := by simp at h

theorem honest_start : Honest {} where
  consecutive := by simp
  sound := by simp

theorem Ready.arrive (h : r.Ready) (p : RtpPacketReceived) : (r.arrive p).Ready := by
  have hbefore : Tracks p.ssrc (r.arrived ++ [p]) ((r.generator.feedbackTrackers[p.ssrc]?).getD {}) := by
    -- `operator[]` makes a tracker where there is none.
    cases ht : r.generator.feedbackTrackers[p.ssrc]? with
    | none => exact tracks_start _
    | some t => exact (h.track p.ssrc t ht).mono (List.subset_append_left ..)
  have hlast : KeptAs p.ssrc (((r.generator.feedbackTrackers[p.ssrc]?).getD {}).track p) p :=
    ⟨rfl, (SeqNumUnwrapper.wrap_unwrap hbefore.agrees p.sequenceNumber).symm, rfl⟩
  have htracker (ssrc : UInt32) : (r.arrive p).generator.feedbackTrackers[ssrc]? =
      if ssrc = p.ssrc then some (((r.generator.feedbackTrackers[p.ssrc]?).getD {}).receivedPacket p)
      else r.generator.feedbackTrackers[ssrc]? :=
    OrderedMap.get_insert ..
  constructor
  · intro ssrc t ht
    rw [htracker] at ht
    split at ht
    · cases ht
      rename_i hssrc
      rw [hssrc]
      exact hbefore.receivedPacket rfl (List.mem_append_right _ (List.mem_singleton_self p))
    · exact (h.track ssrc t ht).mono (List.subset_append_left ..)
  · intro q hq
    rw [htracker]
    obtain hq | hq := List.mem_append.mp hq
    · obtain ⟨t, ht, old, hold, hkept⟩ := h.pending q hq
      split
      · rename_i hssrc
        rw [← hssrc, ht]
        exact ⟨_, rfl, old, List.mem_append_left _ hold, hkept⟩
      · exact ⟨t, ht, old, hold, hkept⟩
    · obtain rfl := List.mem_singleton.mp hq
      rw [if_pos rfl]
      exact ⟨_, rfl, _, List.mem_append_right _ (List.mem_singleton_self _), hlast⟩
  · intro ssrc t ht q hq
    rw [htracker] at ht
    split at ht
    · cases ht
      rename_i hssrc
      rw [hssrc]
      obtain hq | hq := List.mem_append.mp hq
      · cases hold : r.generator.feedbackTrackers[p.ssrc]? with
        | none => simp [hold] at hq
        | some t =>
          rw [hold] at hq
          obtain ⟨old, hmem, hkept⟩ := h.kept p.ssrc t hold q hq
          exact ⟨old, List.mem_append_left _ hmem, hkept⟩
      · obtain rfl := List.mem_singleton.mp hq
        exact ⟨p, List.mem_append_right _ (List.mem_singleton_self p), hlast⟩
    · obtain ⟨old, hmem, hkept⟩ := h.kept ssrc t ht q hq
      exact ⟨old, List.mem_append_left _ hmem, hkept⟩

theorem Honest.arrive (h : r.Honest) (p : RtpPacketReceived) : (r.arrive p).Honest where
  consecutive := h.consecutive
  sound e he q hq hfinite := by
    obtain ⟨old, hold, hkey⟩ := h.sound e he q hq hfinite
    exact ⟨old, List.mem_append_left _ hold, hkey⟩

/-- A feedback reports all that has not been reported. -/
theorem Ready.report (hready : r.Ready) (hhonest : r.Honest) (s : PacketSort) (compactNtp : Int → UInt32)
    (now : Int) : ∃ f g', r.generator.sendFeedback s compactNtp now = some (f, g') ∧
      (r.after now (some f, g')).Ready ∧ (r.after now (some f, g')).Honest ∧
      (∀ p ∈ r.unreported, ReportsHeard (· ∈ r.unreported) (now, f) p) ∧
      g'.firstArrivalTimeSinceFeedback = none ∧
      now + kMinTimeBetweenFeedback ≤ g'.nextPossibleFeedbackSendTime ∧
      g'.nextPossibleFeedbackSendTime ≤ now + kMaxTimeBetweenFeedback := by
  obtain ⟨f, g', hsend, hcollects, htrack, hemptied, hfirst, hmin, hmax⟩ :=
    sendFeedback_eq s compactNtp hready.track now
  -- What waits is kept by a tracker, which reports it by its latest copy; and the copy waits too, since
  -- nothing else is kept.
  have hreports : ∀ p ∈ r.unreported, ReportsHeard (· ∈ r.unreported) (now, f) p := by
    intro p hp
    obtain ⟨t, ht, q, hq, -, hnumber, htime⟩ := hready.pending p hp
    obtain ⟨last, hlast, hsame, hle, info, hinfo, hssrc, hseq, hoffset⟩ := hcollects.complete (p.ssrc, t)
      (Std.ExtTreeMap.mem_toList_iff_getElem?_eq_some.mpr ht) q hq
    obtain ⟨latest, hlatest, hown, hlatestNumber, hlatestTime⟩ := hready.kept p.ssrc t ht last hlast
    refine ⟨latest, hlatest, hown, ?_, ?_, info, hinfo, hssrc, hseq.trans hnumber.symm, ?_⟩
    · rw [hlatestNumber, hsame, hnumber]
    · rw [htime, hlatestTime]
      exact hle
    · rw [hoffset, hlatestTime]
  have hsent : (r.after now (some f, g')).sent = r.sent ++ [(now, f)] := rfl
  refine ⟨f, g', hsend, ⟨htrack, fun p hp => by simp [after] at hp, fun ssrc t ht q hq => ?_⟩, ⟨?_, ?_⟩,
    hreports, hfirst, hmin, hmax⟩
  · simp [hemptied ssrc t ht] at hq
  · rw [hsent, List.forall_mem_append]
    exact ⟨hhonest.consecutive, by simpa using hcollects.consecutive⟩
  · rw [hsent, List.forall_mem_append]
    exact ⟨hhonest.sound, List.forall_mem_singleton.mpr hcollects.sound⟩

/-! ## Steps and runs -/

/-- The packets that wait for a feedback when an event is handled. -/
def heard (r : Receiver) : ReceiverEvent → List RtpPacketReceived
  | .packet p _ => r.unreported ++ [p]
  | .tick _ _ => r.unreported

/-- What becomes of the packets that wait: they go on waiting, or a feedback reports them all. -/
def Settles (heard : List RtpPacketReceived) (r r' : Receiver) : Prop :=
  (r'.sent = r.sent ∧ r'.unreported = heard) ∨
    ∃ e, r'.sent = r.sent ++ [e] ∧ r'.unreported = [] ∧ ∀ p ∈ heard, ReportsHeard (· ∈ heard) e p

/-- What an event does: nothing is sent, or a feedback at the time of the event. -/
theorem Ready.event (hready : r.Ready) (hhonest : r.Honest) (a : ReceiverEvent) :
    ∃ r', r.step s compactNtp a = some r' ∧ r'.Ready ∧ r'.Honest ∧ Settles (r.heard a) r r' := by
  cases a with
  | packet p clock =>
    obtain ⟨f, g', hsend, hready', hhonest', hreports, -⟩ :=
      (hready.arrive p).report (hhonest.arrive p) s compactNtp clock
    simp only [step, onReceivedPacket]
    split
    · change (r.generator.arrived p).sendFeedback s compactNtp clock = some (f, g') at hsend
      rw [hsend]
      exact ⟨_, rfl, hready', hhonest', .inr ⟨(clock, f), rfl, rfl, hreports⟩⟩
    · have hquiet : (r.arrive p).after clock (none, r.generator.arrived p) = r.arrive p := by
        simp [after, Receiver.arrive]
      exact ⟨_, congrArg some hquiet, hready.arrive p, hhonest.arrive p, .inl ⟨rfl, rfl⟩⟩
  | tick now clock =>
    obtain ⟨f, g', hsend, hready', hhonest', hreports, -⟩ := hready.report hhonest s compactNtp now
    -- `Process` sends only what is due by the clock that is passed to it.
    simp only [step, CongestionControlFeedbackGenerator.process]
    split
    · rw [hsend]
      exact ⟨_, rfl, hready', hhonest', .inr ⟨(now, f), rfl, rfl, hreports⟩⟩
    · have hquiet : r.after now (none, r.generator) = r := by simp [after]
      exact ⟨_, congrArg some hquiet, hready, hhonest, .inl ⟨rfl, rfl⟩⟩

theorem ready_run {as : List ReceiverEvent} (run : (machine s compactNtp).Run Machine.anyStep as r) :
    r.Ready ∧ r.Honest := by
  apply run.invariant (fun r => r.Ready ∧ r.Honest) ⟨ready_start, honest_start⟩
  intro r a r' h _ hstep
  obtain ⟨r'', hr'', hready, hhonest, -⟩ := h.1.event (s := s) h.2 a
  obtain rfl : r'' = r' := Option.some.inj (hr''.symm.trans hstep)
  exact ⟨hready, hhonest⟩

/-! ## The feedback that follows a packet -/

variable (s compactNtp) in
/-- In the run a packet has arrived when `i` feedbacks had been sent, so that the next one has the index `i`. -/
def HeardBefore (as : List ReceiverEvent) (i : Nat) (p : RtpPacketReceived) : Prop :=
  ∃ t clock t', (machine s compactNtp).Took as t (.packet p clock) t' ∧ t.sent.length = i

theorem HeardBefore.mono {as bs : List ReceiverEvent} {i : Nat} (h : HeardBefore s compactNtp as i p)
    (hbs : as <+: bs) : HeardBefore s compactNtp bs i p := by
  obtain ⟨t, clock, t', htook, hlength⟩ := h
  exact ⟨t, clock, t', htook.mono hbs, hlength⟩

variable (s compactNtp) in
/-- The packets that wait have arrived since the last feedback, and every other one is reported in the feedback
    that followed it. -/
structure Accounted (as : List ReceiverEvent) (r : Receiver) : Prop where
  waiting : ∀ p ∈ r.unreported, HeardBefore s compactNtp as r.sent.length p
  told : ∀ i p, HeardBefore s compactNtp as i p → (i = r.sent.length ∧ p ∈ r.unreported) ∨
    ∃ e, r.sent[i]? = some e ∧ ReportsHeard (HeardBefore s compactNtp as i) e p

theorem accounted_start : Accounted s compactNtp [] {} where
  waiting := by simp
  told i p h := by
    obtain ⟨t, clock, t', ⟨before, hpre, -⟩, -⟩ := h
    simp at hpre

theorem Accounted.step {as : List ReceiverEvent} {a : ReceiverEvent} (h : Accounted s compactNtp as r)
    (run : (machine s compactNtp).Run Machine.anyStep as r) (hstep : r.step s compactNtp a = some r')
    (hsettles : Settles (r.heard a) r r') : Accounted s compactNtp (as ++ [a]) r' := by
  have hpre : as <+: as ++ [a] := List.prefix_append ..
  have hheard : ∀ q ∈ r.heard a, HeardBefore s compactNtp (as ++ [a]) r.sent.length q := by
    cases a with
    | tick now clock => exact fun q hq => (h.waiting q hq).mono hpre
    | packet p clock =>
      rw [heard, List.forall_mem_append]
      exact ⟨fun q hq => (h.waiting q hq).mono hpre,
        List.forall_mem_singleton.mpr ⟨r, clock, r', run.took hstep, rfl⟩⟩
  -- A packet that waits now is reported by the feedback of this step, if there is one.
  have hwaits : ∀ q ∈ r.heard a, (r.sent.length = r'.sent.length ∧ q ∈ r'.unreported) ∨
      ∃ e, r'.sent[r.sent.length]? = some e ∧
        ReportsHeard (HeardBefore s compactNtp (as ++ [a]) r.sent.length) e q := by
    intro q hq
    obtain ⟨hsent, hunreported⟩ | ⟨e, hsent, -, hreports⟩ := hsettles
    · exact .inl ⟨by rw [hsent], hunreported ▸ hq⟩
    · exact .inr ⟨e, by simp [hsent], (hreports q hq).mono hheard⟩
  constructor
  · obtain ⟨hsent, hunreported⟩ | ⟨e, -, hunreported, -⟩ := hsettles
    · rw [hsent, hunreported]
      exact hheard
    · simp [hunreported]
  · intro i p hp
    obtain ⟨t, clock, t', htook, rfl⟩ := hp
    -- The packet came earlier, and waits still or is told already; or it came in this step.
    obtain htook | ⟨rfl, rfl, -⟩ := htook.snoc run hstep
    · obtain ⟨hlength, hmem⟩ | ⟨e, he, hreports⟩ := h.told _ p ⟨t, clock, t', htook, rfl⟩
      · rw [hlength]
        apply hwaits
        cases a with
        | packet q clock => exact List.mem_append_left _ hmem
        | tick now clock => exact hmem
      · have hkeeps : r'.sent[t.sent.length]? = some e := by
          obtain ⟨hsent, -⟩ | ⟨d, hsent, -⟩ := hsettles
          · rw [hsent, he]
          · rw [hsent, List.getElem?_append_left (List.getElem?_eq_some_iff.mp he).1, he]
        exact .inr ⟨e, hkeeps, hreports.mono fun q hq => hq.mono hpre⟩
    · exact hwaits p (List.mem_append_right _ (List.mem_singleton_self p))

theorem accounted_run {as : List ReceiverEvent} (run : (machine s compactNtp).Run Machine.anyStep as r) :
    Accounted s compactNtp as r := by
  refine run.history (Accounted s compactNtp) accounted_start ?_
  intro as r a r' hrun h _ hstep
  obtain ⟨hready, hhonest⟩ := ready_run hrun
  have hevent : ∃ r'', r.step s compactNtp a = some r'' ∧ r''.Ready ∧ r''.Honest ∧ Settles (r.heard a) r r'' :=
    hready.event hhonest a
  obtain ⟨r'', hr'', -, -, hsettles⟩ := hevent
  obtain rfl : r'' = r' := Option.some.inj (hr''.symm.trans hstep)
  exact h.step hrun hstep hsettles

/-! ## What the other side reads -/

/-- What the other side reads from the datagrams of a feedback. -/
def readBack (ticks : Int → Int) (rtcpSsrc : UInt32) (f : CongestionControlFeedback) :
    Option (List PacketInfo) := do
  let datagrams ← sendRtcp ticks rtcpSsrc f
  let parsed ← datagrams.mapM parseFragment
  if parsed.all Prod.fst then some (parsed.flatMap (·.2.packets)) else none

theorem readBack_eq (ticks : Int → Int) (rtcpSsrc : UInt32) {f : CongestionControlFeedback}
    (h : Consecutive f.packets) :
    readBack ticks rtcpSsrc f = some (f.packets.map fun q => (q.toReport ticks).toPacketInfo) := by
  obtain ⟨⟨ok, o⟩, hcreate, -, parts, hparts, hpackets⟩ := create_carries
    (f := { f with senderSsrc := rtcpSsrc }) ticks h (show 24 ≤ kRtcpBufferSize by decide)
  obtain ⟨parsed, hparsed, hreports⟩ := carries_parsed hparts
  have hread : parsed.flatMap ParsedFeedback.packets =
      f.packets.map fun q => (q.toReport ticks).toPacketInfo := by
    rw [flatMap_packets, hreports, ← hpackets, List.map_map]
    rfl
  simp only [readBack, sendRtcp, hcreate, Option.bind_eq_bind, Option.bind_some, Option.pure_def, hparsed]
  simp [List.flatMap_map, hread]

variable (s compactNtp) in
/-- The feedback says the truth: what is read as received has arrived, and of a packet that has arrived the
    feedback that followed says so, if the offset of its latest copy is from zero on and below 8190/1024 s. -/
structure Informs (ticks : Int → Int) (rtcpSsrc : UInt32) (as : List ReceiverEvent) (r : Receiver) : Prop where
  sound : ∀ e ∈ r.sent, ∃ infos, readBack ticks rtcpSsrc e.2 = some infos ∧
    ∀ info ∈ infos, info.arrivalTimeOffset.isFinite = true →
      ∃ p ∈ r.arrived, p.ssrc = info.ssrc ∧ p.sequenceNumber = info.sequenceNumber
  complete : ∀ i p e, HeardBefore s compactNtp as i p → r.sent[i]? = some e →
    ∃ latest, HeardBefore s compactNtp as i latest ∧ latest.ssrc = p.ssrc ∧
      latest.sequenceNumber = p.sequenceNumber ∧ p.arrivalTime ≤ latest.arrivalTime ∧
      ∃ infos, readBack ticks rtcpSsrc e.2 = some infos ∧
        ∃ info ∈ infos, info.ssrc = p.ssrc ∧ info.sequenceNumber = p.sequenceNumber ∧
          (info.arrivalTimeOffset.isFinite = true ↔
            0 ≤ e.1 - latest.arrivalTime ∧ (e.1 - latest.arrivalTime) * 1024 < 8190 * 1000000)

theorem Honest.informs {ticks : Int → Int} {as : List ReceiverEvent} (h : r.Honest)
    (haccounted : Accounted s compactNtp as r) (product : TickProduct ticks) (rtcpSsrc : UInt32) :
    Informs s compactNtp ticks rtcpSsrc as r where
  sound e he := by
    refine ⟨_, readBack_eq ticks rtcpSsrc (h.consecutive e he), fun info hinfo hfinite => ?_⟩
    -- What is read as received was written with an offset that is finite.
    obtain ⟨q, hq, rfl⟩ := List.mem_map.mp hinfo
    exact h.sound e he q hq (isFinite_of_toReport hfinite)
  complete i p e hp he := by
    obtain ⟨hlength, -⟩ | ⟨e', he', latest, hlatest, hssrc, hnumber, hle, q, hq, hown, hseq, hoffset⟩ :=
      haccounted.told i p hp
    · simp [hlength] at he
    · obtain rfl : e' = e := Option.some.inj (he'.symm.trans he)
      refine ⟨latest, hlatest, hssrc, hnumber, hle, _,
        readBack_eq ticks rtcpSsrc (h.consecutive e' (List.mem_of_getElem? he)), _,
        List.mem_map_of_mem hq, hown, hseq, ?_⟩
      rw [isFinite_toReport product, hoffset]
      exact decide_eq_true_iff

/-- Whatever arrives, and whatever the clock shows, no event is stuck, what is read as received has
    arrived, and what has arrived is read as received from the feedback that was sent next, unless its
    offset is too long for the thirteen bits or negative. -/
theorem receiver_run {ticks : Int → Int} (product : TickProduct ticks) (rtcpSsrc : UInt32)
    {as : List ReceiverEvent} (run : (machine s compactNtp).Run Machine.anyStep as r) :
    Informs s compactNtp ticks rtcpSsrc as r ∧ ∀ a, ∃ r', (machine s compactNtp).step r a = some r' := by
  obtain ⟨hready, hhonest⟩ := ready_run run
  refine ⟨hhonest.informs (accounted_run run) product rtcpSsrc, fun a => ?_⟩
  have hevent : ∃ r', r.step s compactNtp a = some r' ∧ r'.Ready ∧ r'.Honest ∧ Settles (r.heard a) r r' :=
    hready.event hhonest a
  obtain ⟨r', hstep, -⟩ := hevent
  exact ⟨r', hstep⟩

/-- A packet, one two numbers on, and one that is reported almost nine seconds after it has come. -/
theorem receiver_run_gap : ∃ r, (machine .insertion compactNtpAt).Run
    Machine.anyStep [.packet ⟨7, 65535, 0, .notEct, false⟩ 0, .packet ⟨7, 1, 1000, .notEct, false⟩ 1000,
      .tick 30000 30000, .packet ⟨7, 2, 100000, .ect1, false⟩ 100000, .tick 9000000 9000000] r ∧
    Informs .insertion compactNtpAt (fun us => us * 1024 / 1000000) 1
      [.packet ⟨7, 65535, 0, .notEct, false⟩ 0, .packet ⟨7, 1, 1000, .notEct, false⟩ 1000,
        .tick 30000 30000, .packet ⟨7, 2, 100000, .ect1, false⟩ 100000, .tick 9000000 9000000] r ∧
    r.sent.map Prod.fst = [30000, 9000000] := by
  obtain ⟨r, hr, htimes⟩ : ∃ r, (machine .insertion compactNtpAt).exec
      [.packet ⟨7, 65535, 0, .notEct, false⟩ 0, .packet ⟨7, 1, 1000, .notEct, false⟩ 1000,
        .tick 30000 30000, .packet ⟨7, 2, 100000, .ect1, false⟩ 100000, .tick 9000000 9000000] {} = some r ∧
      r.sent.map Prod.fst = [30000, 9000000] :=
    ⟨_, rfl, rfl⟩
  have run := Machine.run_of_exec hr
  exact ⟨r, run, (receiver_run tickProduct_exact 1 run).1, htimes⟩

/-! ## When a feedback is sent -/

/-- A packet is not handled before it has arrived. -/
def Timely (_ : Receiver) : ReceiverEvent → Prop
  | .packet p clock => p.arrivalTime ≤ clock
  | .tick _ _ => True

theorem nextPossible_le (g : CongestionControlFeedbackGenerator) (clock : Int) :
    g.nextPossibleFeedbackSendTime ≤ g.nextFeedbackTime clock := by
  unfold nextFeedbackTime
  split
  · exact le_max_right ..
  · split
    · exact le_max_left ..
    · exact le_rfl

/-- A feedback that is sent when it is possible. -/
theorem Spaced.report (h : r.Spaced) {now : Int} (hnow : r.generator.nextPossibleFeedbackSendTime ≤ now)
    {f : CongestionControlFeedback} {g' : CongestionControlFeedbackGenerator}
    (hfirst : g'.firstArrivalTimeSinceFeedback = none)
    (hmin : now + kMinTimeBetweenFeedback ≤ g'.nextPossibleFeedbackSendTime)
    (hmax : g'.nextPossibleFeedbackSendTime ≤ now + kMaxTimeBetweenFeedback) :
    (r.after now (some f, g')).Spaced := by
  have hsent : (r.after now (some f, g')).sent = r.sent ++ [(now, f)] := rfl
  refine ⟨?_, ?_, fun hnil => ?_, hfirst⟩
  · rw [hsent, List.isChain_append]
    refine ⟨h.apart, .singleton _, fun e he d hd => ?_⟩
    obtain rfl : (now, f) = d := by simpa using hd
    exact (h.next e he).1.trans hnow
  · intro e he
    rw [hsent, List.getLast?_concat, Option.some.injEq] at he
    rw [← he]
    exact ⟨hmin, hmax⟩
  · simp [hsent] at hnil

theorem spaced_start : Spaced {} where
  apart := .nil
  next e he := by cases he
  start _ := rfl
  first := rfl

theorem Spaced.arrive (h : r.Spaced) (p : RtpPacketReceived) : (r.arrive p).Spaced where
  apart := h.apart
  next := h.next
  start := h.start
  first := by
    change some (r.generator.firstArrivalTimeSinceFeedback.getD p.arrivalTime) =
      (r.unreported ++ [p]).head?.map (·.arrivalTime)
    rw [h.first]
    cases r.unreported <;> rfl

theorem Spaced.event (h : r.Spaced) (hready : r.Ready) (hhonest : r.Honest) {a : ReceiverEvent}
    (htimely : r.Timely a) (hstep : r.step s compactNtp a = some r') : r'.Spaced := by
  cases a with
  | packet p clock =>
    obtain ⟨f, g', hsend, -, -, -, hfirst, hmin, hmax⟩ :=
      (hready.arrive p).report (hhonest.arrive p) s compactNtp clock
    simp only [step, onReceivedPacket] at hstep
    split at hstep
    · rename_i hdue
      have hpossible := nextPossible_le (r.generator.arrived p) clock
      have htime : p.arrivalTime ≤ clock := htimely
      change (r.generator.arrived p).sendFeedback s compactNtp clock = some (f, g') at hsend
      rw [hsend] at hstep
      cases hstep
      exact (h.arrive p).report (hpossible.trans (hdue.le.trans htime)) hfirst hmin hmax
    · have hquiet : (r.arrive p).after clock (none, r.generator.arrived p) = r.arrive p := by
        simp [after, Receiver.arrive]
      obtain rfl : r.arrive p = r' := hquiet.symm.trans (Option.some.inj hstep)
      exact h.arrive p
  | tick now clock =>
    obtain ⟨f, g', hsend, -, -, -, hfirst, hmin, hmax⟩ := hready.report hhonest s compactNtp now
    simp only [step, CongestionControlFeedbackGenerator.process] at hstep
    split at hstep
    · rename_i hdue
      rw [hsend] at hstep
      cases hstep
      exact h.report ((nextPossible_le r.generator clock).trans hdue) hfirst hmin hmax
    · have hquiet : r.after now (none, r.generator) = r := by simp [after]
      obtain rfl : r = r' := hquiet.symm.trans (Option.some.inj hstep)
      exact h

/-- In a run two feedbacks are at least 25 ms apart, and a tick sends a feedback that acknowledges all that has
    not been reported once the first packet has waited for 25 ms and the last feedback is 250 ms ago. -/
theorem reporting_run {as : List ReceiverEvent} (run : (machine s compactNtp).Run Timely as r) :
    (r.sent.IsChain fun d e => d.1 + kMinTimeBetweenFeedback ≤ e.1) ∧
    ∀ (now clock : Int) (p : RtpPacketReceived), r.unreported.head? = some p →
      p.arrivalTime + kMaxTimeToWaitForPacketWithMarker ≤ now →
      (∀ e ∈ r.sent, e.1 + kMaxTimeBetweenFeedback ≤ now) → 0 ≤ now →
      ∃ r' f, (machine s compactNtp).step r (.tick now clock) = some r' ∧ r'.sent = r.sent ++ [(now, f)] ∧
        (∀ q ∈ r.unreported, Acknowledges f q) ∧ r'.unreported = [] := by
  have hany : (machine s compactNtp).Run Machine.anyStep as r := run.mono fun _ _ _ => trivial
  obtain ⟨hready, hhonest⟩ := ready_run hany
  have hspaced : r.Spaced := by
    refine run.history (fun _ r => r.Spaced) spaced_start ?_
    intro as r a r' hrun h htimely hstep
    obtain ⟨hready, hhonest⟩ := ready_run (hrun.mono fun _ _ _ => trivial)
    exact h.event hready hhonest htimely hstep
  refine ⟨hspaced.apart, fun now clock p hp hwait hlong hpos => ?_⟩
  obtain ⟨f, g', hsend, -, -, hreports, -⟩ := hready.report hhonest s compactNtp now
  have hfirst := hspaced.first
  rw [hp, Option.map_some] at hfirst
  -- The generator waits for the later of the two moments.
  have hpossible : r.generator.nextPossibleFeedbackSendTime ≤ now := by
    cases hlast : r.sent.getLast? with
    | none => exact (hspaced.start (List.getLast?_eq_none_iff.mp hlast)).trans_le hpos
    | some e => exact (hspaced.next e hlast).2.trans (hlong e (List.mem_of_getLast? hlast))
  have hdue : r.generator.nextFeedbackTime clock ≤ now := by
    unfold nextFeedbackTime
    rw [hfirst]
    dsimp only
    split
    · exact max_le hpossible hwait
    · exact hpossible
  refine ⟨r.after now (some f, g'), f, ?_, rfl, fun q hq => (hreports q hq).acknowledges, rfl⟩
  change (r.generator.process s compactNtp now clock).map (r.after now) = _
  rw [CongestionControlFeedbackGenerator.process, if_pos hdue, hsend]
  rfl

/-- Two packets that wait for a feedback. -/
theorem reporting_run_gap : ∃ r r' f, (machine .insertion compactNtpAt).Run
    Timely [.packet ⟨7, 65535, 0, .notEct, false⟩ 0, .packet ⟨7, 1, 1000, .notEct, false⟩ 1000] r ∧
    (machine .insertion compactNtpAt).step r (.tick 30000 30000) = some r' ∧
    r'.sent = [(30000, f)] ∧ Acknowledges f ⟨7, 65535, 0, .notEct, false⟩ ∧
    Acknowledges f ⟨7, 1, 1000, .notEct, false⟩ := by
  obtain ⟨r, hr, hwaiting, hsent⟩ : ∃ r, (machine .insertion compactNtpAt).exec
      [.packet ⟨7, 65535, 0, .notEct, false⟩ 0, .packet ⟨7, 1, 1000, .notEct, false⟩ 1000] {} = some r ∧
      r.unreported = [⟨7, 65535, 0, .notEct, false⟩, ⟨7, 1, 1000, .notEct, false⟩] ∧ r.sent = [] :=
    ⟨_, rfl, rfl, rfl⟩
  have run : (machine .insertion compactNtpAt).Run Timely _ r :=
    .of_exec (by simp [Timely]) hr
  obtain ⟨r', f, hstep, hlast, hacks, -⟩ := (reporting_run run).2 30000 30000 ⟨7, 65535, 0, .notEct, false⟩
    (by rw [hwaiting]; rfl) (by decide) (by simp [hsent]) (by decide)
  rw [hsent, List.nil_append] at hlast
  exact ⟨r, r', f, run, hstep, hlast, hacks _ (by simp [hwaiting]), hacks _ (by simp [hwaiting])⟩

end Receiver

end CrossTransfer.Minirtc
