import CrossTransfer.Minirtc.FeedbackGenerator
import CrossTransfer.Minirtc.FeedbackKeys

/-! # The feedback loop

Both ends of `minirtc/src/transport/data_transport.cpp` and what is between them. The sender registers its
packets, the receiver collects what arrives and writes feedback datagrams, and the sender reads them. Packets
and datagrams may be lost, doubled, late and out of order. What the sender takes for received has arrived
(`loop_run`), and a datagram that comes is enough for what it reports as received (`taken_run`).
-/

namespace CrossTransfer.Minirtc

open CrossTransfer.Library
open CrossTransfer.Transfer

structure FeedbackLoop where
  sender : FeedbackTransport := {}
  receiver : Receiver := {}

inductive LoopEvent
  | send (p : RegisteredPacket)
  | rollback (key : RtpKey)
  | receiver (a : ReceiverEvent)
  | datagram (buffer : Bytes) (receiveTime : Int)

namespace FeedbackLoop

variable (results : ResultSort)

/-- An empty feedback is passed over. -/
def handleFeedback (s : FeedbackTransport) (feedback : ParsedFeedback) (receiveTime : Int) :
    FeedbackTransport :=
  if feedback.reports = [] then s
  else
    s.call results (.handleRtcp ⟨feedback.senderSsrc, feedback.reportTimestampCompactNtp, feedback.packets⟩
      receiveTime)

/-- A round of `HandleRtcp` over the packets of a datagram, of which `next` is left. -/
def handleRtcpStep (receiveTime : Int) :
    Bytes × FeedbackTransport → Option ((Bytes × FeedbackTransport) ⊕ FeedbackTransport)
  | ([], s) => some (.inr s)
  | (next, s) => do
    let (ok, header) ← RtcpCommonHeader.parse {} next
    let block := kHeaderLength + header.payloadSize + header.paddingSize.toNat
    if ok = false ∨ block = 0 ∨ next.length < block then some (.inr s)
    else if header.packetType = kPacketType ∧ header.countOrFormat = kFeedbackMessageType then do
      let (ok, feedback) ← parseFeedback header next
      some (.inl (next.drop block, if ok then handleFeedback results s feedback receiveTime else s))
    else some (.inl (next.drop block, s))

/-- `HandleRtcp`; a packet is at least its header. -/
def handleRtcp (s : FeedbackTransport) (buffer : Bytes) (receiveTime : Int) : Option FeedbackTransport :=
  iterate (handleRtcpStep results receiveTime) (buffer.length + 1) (buffer, s)

variable (packets : PacketSort) (compactNtp : Int → UInt32)

def step (s : FeedbackLoop) : LoopEvent → Option FeedbackLoop
  | .send p => some { s with sender := s.sender.call results (.registerForFeedback p) }
  | .rollback key => some { s with sender := s.sender.call results (.rollbackFeedback key) }
  | .receiver a => (s.receiver.step packets compactNtp a).map fun r => { s with receiver := r }
  | .datagram buffer receiveTime =>
    (handleRtcp results s.sender buffer receiveTime).map fun sender => { s with sender }

def machine : Machine FeedbackLoop LoopEvent := ⟨{}, step results packets compactNtp⟩

/-- The pacer has a number of its own for every packet, and a datagram was sent before it comes. -/
def Carried (ticks : Int → Int) (rtcpSsrc : UInt32) (s : FeedbackLoop) : LoopEvent → Prop
  | .send p => s.sender.Numbered (.registerForFeedback p)
  | .datagram buffer _ => ∃ e ∈ s.receiver.sent, buffer ∈ (sendRtcp ticks rtcpSsrc e.2).getD []
  | _ => True

instance (ticks : Int → Int) (rtcpSsrc : UInt32) (s : FeedbackLoop) :
    (a : LoopEvent) → Decidable (Carried ticks rtcpSsrc s a)
  | .send p => inferInstanceAs (Decidable (s.sender.Numbered (.registerForFeedback p)))
  | .datagram buffer _ =>
    inferInstanceAs (Decidable (∃ e ∈ s.receiver.sent, buffer ∈ (sendRtcp ticks rtcpSsrc e.2).getD []))
  | .rollback _ | .receiver _ => .isTrue trivial

/-- A packet of the sender has arrived at the receiver. -/
def Arrived (s : FeedbackLoop) (p : RegisteredPacket) : Prop :=
  ∃ q ∈ s.receiver.arrived, q.ssrc = p.ssrc ∧ q.sequenceNumber = p.sequenceNumber

end FeedbackLoop

/-! ## Datagrams -/

variable {ticks : Int → Int} {results : ResultSort}

/-- What `HandleRtcp` makes of a datagram that is all one feedback. -/
theorem handleRtcp_carries {maxLength : Nat} {buffer : Bytes} {part : List PacketInfo}
    (h : Carries ticks maxLength buffer part) {feedback : ParsedFeedback}
    (hparsed : parseFragment buffer = some (true, feedback)) (s : FeedbackTransport) (receiveTime : Int) :
    FeedbackLoop.handleRtcp results s buffer receiveTime =
      some (FeedbackLoop.handleFeedback results s feedback receiveTime) := by
  obtain ⟨length, -, hlength⟩ := h.header
  have hwhole := h.whole
  obtain ⟨b, rest, rfl⟩ : ∃ b rest, buffer = b :: rest := by
    cases buffer with
    | nil => simp at hlength
    | cons b rest => exact ⟨b, rest, rfl⟩
  have hblock : kHeaderLength + ((b :: rest).length - 4) + 0 = (b :: rest).length := by
    rw [kHeaderLength]
    omega
  have hfeedback : parseFeedback ⟨kPacketType, kFeedbackMessageType, 0, (b :: rest).length - 4, kHeaderLength⟩
      (b :: rest) = some (true, feedback) := by
    simpa [parseFragment, hwhole] using hparsed
  have hstep : FeedbackLoop.handleRtcpStep results receiveTime (b :: rest, s) =
      some (.inl ([], FeedbackLoop.handleFeedback results s feedback receiveTime)) := by
    have hgo : ¬ (true = false ∨ (b :: rest).length = 0 ∨ (b :: rest).length < (b :: rest).length) := by simp
    simp only [FeedbackLoop.handleRtcpStep, hwhole, Option.bind_eq_bind, Option.bind_some, UInt8.toNat_zero,
      hblock, if_neg hgo, and_self, if_true, hfeedback, List.drop_length]
  rw [FeedbackLoop.handleRtcp, iterate_succ_continue hstep]
  exact iterate_succ_leave rfl

/-- A datagram is read, and says of no packet that it was received unless its feedback does. -/
theorem datagram_read (results : ResultSort) (rtcpSsrc : UInt32) {f : CongestionControlFeedback}
    (h : Consecutive f.packets) {buffer : Bytes} (hmem : buffer ∈ (sendRtcp ticks rtcpSsrc f).getD []) :
    ∃ parsed, parseFragment buffer = some (true, parsed) ∧
      (∀ s receiveTime, FeedbackLoop.handleRtcp results s buffer receiveTime =
        some (FeedbackLoop.handleFeedback results s parsed receiveTime)) ∧
      ∀ info ∈ parsed.packets, info.arrivalTimeOffset.isFinite = true → ∃ q ∈ f.packets,
        q.ssrc = info.ssrc ∧ q.sequenceNumber = info.sequenceNumber ∧ q.arrivalTimeOffset.isFinite = true := by
  obtain ⟨⟨ok, o⟩, hcreate, -, parts, hparts, hpackets⟩ := create_carries
    (f := { f with senderSsrc := rtcpSsrc }) ticks h (show 24 ≤ kRtcpBufferSize by decide)
  have hsend : sendRtcp ticks rtcpSsrc f = some o.fragments := by
    simp [sendRtcp, hcreate]
  rw [hsend, Option.getD_some] at hmem
  obtain ⟨part, hpart, hcarries⟩ := exists_carries hparts hmem
  obtain ⟨parsed, hparsed, hreports⟩ := hcarries.parsed
  refine ⟨parsed, hparsed, handleRtcp_carries hcarries hparsed, fun info hinfo hfinite => ?_⟩
  rw [ParsedFeedback.packets, hreports, List.map_map] at hinfo
  obtain ⟨q, hq, rfl⟩ := List.mem_map.mp hinfo
  have hin : q ∈ f.packets := by
    change f.packets = parts.flatten at hpackets
    rw [hpackets]
    exact List.mem_flatten_of_mem hpart hq
  exact ⟨q, hin, rfl, rfl, isFinite_of_toReport hfinite⟩

/-! ## Runs -/

namespace FeedbackLoop

variable {packets : PacketSort} {compactNtp : Int → UInt32} {rtcpSsrc : UInt32} {s : FeedbackLoop}

variable (s) in
/-- What the sender takes for received has arrived, as each end keeps its own books. -/
structure Sound : Prop where
  tracks : s.sender.Tracks
  leads : s.sender.Leads
  ready : s.receiver.Ready
  honest : s.receiver.Honest
  arrived : ∀ r ∈ s.sender.results, r.receiveTime.isSome → ∃ p ∈ s.sender.registered,
    r.sentPacket.sequenceNumber = p.transportSequenceNumber ∧ s.Arrived p

theorem sound_start : Sound {} where
  tracks := FeedbackTransport.tracks_start
  leads :=
    { byNumber := .nil
      keyed := by
        intro key n hkey
        cases hkey
      known := by
        intro key n hkey
        cases hkey }
  ready := Receiver.ready_start
  honest := Receiver.honest_start
  arrived := by simp

theorem Sound.send (h : s.Sound) {p : RegisteredPacket}
    (hnumbered : s.sender.Numbered (.registerForFeedback p)) :
    Sound { s with sender := s.sender.call results (.registerForFeedback p) } where
  tracks := h.tracks.register results hnumbered
  leads := h.leads.register results h.tracks hnumbered
  ready := h.ready
  honest := h.honest
  arrived r hr hreceived := by
    obtain ⟨q, hq, hright⟩ := h.arrived r hr hreceived
    exact ⟨q, List.mem_append_left _ hq, hright⟩

theorem Sound.rollback (h : s.Sound) (key : RtpKey) :
    Sound { s with sender := s.sender.call results (.rollbackFeedback key) } where
  tracks := h.tracks.rollback results key
  leads := h.leads.shrinks (s.sender.adapter.removePacket_shrinks key) s.sender.results
  ready := h.ready
  honest := h.honest
  arrived := h.arrived

theorem arrived_step {r r' : Receiver} {a : ReceiverEvent} (h : r.step packets compactNtp a = some r')
    {p : RtpPacketReceived} (hp : p ∈ r.arrived) : p ∈ r'.arrived := by
  cases a with
  | packet q clock =>
    obtain ⟨out, -, rfl⟩ := Option.map_eq_some_iff.mp h
    exact List.mem_append_left _ hp
  | tick now clock =>
    obtain ⟨out, -, rfl⟩ := Option.map_eq_some_iff.mp h
    exact hp

theorem Sound.receiver (h : s.Sound) (a : ReceiverEvent) :
    ∃ r, s.receiver.step packets compactNtp a = some r ∧ Sound { s with receiver := r } := by
  have hevent : ∃ r, s.receiver.step packets compactNtp a = some r ∧ r.Ready ∧ r.Honest ∧
      Receiver.Settles (s.receiver.heard a) s.receiver r :=
    h.ready.event h.honest a
  obtain ⟨r, hstep, hready, hhonest, -⟩ := hevent
  refine ⟨r, hstep, h.tracks, h.leads, hready, hhonest, fun result hresult hreceived => ?_⟩
  obtain ⟨p, hp, hnumber, q, hq, hkey⟩ := h.arrived result hresult hreceived
  exact ⟨p, hp, hnumber, q, arrived_step hstep hq, hkey⟩

/-- A feedback that says of no packet that it was received unless it has arrived. -/
theorem Sound.feedback (h : s.Sound) (feedback : CongestionControlFeedback) (receiveTime : Int)
    (hinfos : ∀ info ∈ feedback.packets, info.arrivalTimeOffset.isFinite = true →
      ∃ q ∈ s.receiver.arrived, q.ssrc = info.ssrc ∧ q.sequenceNumber = info.sequenceNumber) :
    Sound { s with sender := s.sender.call results (.handleRtcp feedback receiveTime) } := by
  have hnames :=
    TransportFeedbackAdapter.processCongestionControlFeedback_names h.leads.keyed results feedback receiveTime
  obtain ⟨_, hfinds, -⟩ :=
    TransportFeedbackAdapter.processCongestionControlFeedback_finds s.sender.adapter results feedback receiveTime
  refine ⟨h.tracks.handleRtcp results feedback receiveTime, h.leads.shrinks hfinds.shrinks _, h.ready, h.honest,
    ?_⟩
  intro r hr hreceived
  obtain hr | hr := List.mem_append.mp hr
  · exact h.arrived r hr hreceived
  · -- The key of the feedback leads to the entry of the packet that was registered with it.
    obtain ⟨info, hinfo, hfinite, e, he, hsame, hkey⟩ := hnames r hr hreceived
    obtain ⟨p, hp, hfor⟩ := h.tracks.known e he
    obtain ⟨q, hq, hssrc, hnumber⟩ := hinfos info hinfo hfinite
    have hkeys : (p.ssrc, p.sequenceNumber) = (info.ssrc, info.sequenceNumber) := hfor.key.symm.trans hkey
    rw [Prod.mk.injEq] at hkeys
    exact ⟨p, hp, hsame ▸ hfor.number, q, hq, hssrc.trans hkeys.1.symm, hnumber.trans hkeys.2.symm⟩

theorem Sound.datagram (h : s.Sound) {buffer : Bytes} {receiveTime : Int}
    (hcarried : s.Carried ticks rtcpSsrc (.datagram buffer receiveTime)) :
    ∃ sender, handleRtcp results s.sender buffer receiveTime = some sender ∧ Sound { s with sender } := by
  -- The feedback was honest when it was written, and nothing that has arrived is forgotten.
  obtain ⟨e, he, hbuffer⟩ := hcarried
  obtain ⟨parsed, -, hhandle, hread⟩ := datagram_read results rtcpSsrc (h.honest.consecutive e he) hbuffer
  refine ⟨_, hhandle s.sender receiveTime, ?_⟩
  unfold handleFeedback
  split
  · exact h
  · apply h.feedback
    intro info hinfo hfinite
    obtain ⟨q, hq, hssrc, hnumber, hreceived⟩ := hread info hinfo hfinite
    rw [← hssrc, ← hnumber]
    exact h.honest.sound e he q hq hreceived

theorem Sound.step (h : s.Sound) {a : LoopEvent} (hcarried : s.Carried ticks rtcpSsrc a) :
    ∃ s', s.step results packets compactNtp a = some s' ∧ s'.Sound := by
  cases a with
  | send p => exact ⟨_, rfl, h.send hcarried⟩
  | rollback key => exact ⟨_, rfl, h.rollback key⟩
  | receiver a =>
    have hreceiver : ∃ r, s.receiver.step packets compactNtp a = some r ∧ Sound { s with receiver := r } :=
      h.receiver a
    obtain ⟨r, hr, hsound⟩ := hreceiver
    exact ⟨{ s with receiver := r }, by rw [FeedbackLoop.step, hr, Option.map_some], hsound⟩
  | datagram buffer receiveTime =>
    obtain ⟨sender, hsender, hsound⟩ := h.datagram hcarried
    exact ⟨{ s with sender }, by rw [FeedbackLoop.step, hsender, Option.map_some], hsound⟩

theorem sound_run {as : List LoopEvent}
    (run : (machine results packets compactNtp).Run (Carried ticks rtcpSsrc) as s) : s.Sound := by
  refine run.invariant Sound sound_start ?_
  intro s a s' h hcarried hstep
  obtain ⟨s'', hs'', hsound⟩ := h.step hcarried
  obtain rfl := Option.some.inj (hs''.symm.trans hstep)
  exact hsound

/-- Whatever is lost, doubled, late or out of order on the way, nothing is stuck, the sender takes no packet for
    received twice, and a packet that it takes for received has arrived. -/
theorem loop_run {as : List LoopEvent}
    (run : (machine results packets compactNtp).Run (Carried ticks rtcpSsrc) as s) :
    s.sender.Acknowledges ∧
    (∀ r ∈ s.sender.results, r.receiveTime.isSome → ∃ p ∈ s.sender.registered,
      r.sentPacket.sequenceNumber = p.transportSequenceNumber ∧ s.Arrived p) ∧
    ∀ a, s.Carried ticks rtcpSsrc a → ∃ s', (machine results packets compactNtp).step s a = some s' := by
  have hsound := sound_run run
  refine ⟨hsound.tracks.acknowledges, hsound.arrived, fun a hcarried => ?_⟩
  obtain ⟨s', hs', -⟩ := hsound.step hcarried
  exact ⟨s', hs'⟩

/-- The first packet is lost, and the feedback about the second one comes twice. -/
theorem loop_run_lost : ∃ s, (machine .insertion .insertion compactNtpAt).Run
    (Carried (fun us => us * 1024 / 1000000) 1)
    [.send ⟨7, 40, 65535, 1000, 28, false, 10⟩, .send ⟨7, 41, 65536, 500, 28, false, 11⟩,
      .receiver (.packet ⟨7, 41, 20000, .notEct, false⟩ 20000), .receiver (.tick 50000 50000),
      .datagram [139, 205, 0, 5, 0, 0, 0, 1, 0, 0, 0, 7, 0, 41, 0, 1, 128, 30, 0, 0, 0, 0, 12, 204] 60000,
      .datagram [139, 205, 0, 5, 0, 0, 0, 1, 0, 0, 0, 7, 0, 41, 0, 1, 128, 30, 0, 0, 0, 0, 12, 204] 70000] s ∧
    s.sender.Acknowledges ∧ s.sender.adapter.history.map (·.number) = [65535] := by
  obtain ⟨s, hs, hleft⟩ : ∃ s, (machine .insertion .insertion compactNtpAt).exec
      [.send ⟨7, 40, 65535, 1000, 28, false, 10⟩, .send ⟨7, 41, 65536, 500, 28, false, 11⟩,
        .receiver (.packet ⟨7, 41, 20000, .notEct, false⟩ 20000), .receiver (.tick 50000 50000),
        .datagram [139, 205, 0, 5, 0, 0, 0, 1, 0, 0, 0, 7, 0, 41, 0, 1, 128, 30, 0, 0, 0, 0, 12, 204] 60000,
        .datagram [139, 205, 0, 5, 0, 0, 0, 1, 0, 0, 0, 7, 0, 41, 0, 1, 128, 30, 0, 0, 0, 0, 12, 204] 70000] {} =
          some s ∧ s.sender.adapter.history.map (·.number) = [65535] :=
    ⟨_, rfl, by decide⟩
  have sound (s : FeedbackLoop) (a : LoopEvent)
      (h : decide (s.Carried (fun us => us * 1024 / 1000000) 1 a) = true) :
      s.Carried (fun us => us * 1024 / 1000000) 1 a :=
    of_decide_eq_true h
  have run : (machine .insertion .insertion compactNtpAt).Run (Carried (fun us => us * 1024 / 1000000) 1) _ s :=
    Machine.Run.of_passes sound hs (by decide)
  exact ⟨s, run, (loop_run run).1, hleft⟩

/-- At any time, a datagram that reports a packet as received is enough for the sender to take it for received,
    as long as it holds the packet. -/
theorem taken_run {as : List LoopEvent}
    (run : (machine results packets compactNtp).Run (Carried ticks rtcpSsrc) as s)
    {buffer : Bytes} {receiveTime : Int} (hcarried : s.Carried ticks rtcpSsrc (.datagram buffer receiveTime))
    {parsed : ParsedFeedback} (hparsed : parseFragment buffer = some (true, parsed))
    {info : PacketInfo} (hinfo : info ∈ parsed.packets) (hfinite : info.arrivalTimeOffset.isFinite = true)
    {e : PacketFeedback} (hholds : s.sender.adapter.Holds e)
    (hkey : (info.ssrc, info.sequenceNumber) = e.rtpKey) :
    ∃ s', (machine results packets compactNtp).step s (.datagram buffer receiveTime) = some s' ∧
      ∃ r ∈ s'.sender.results, r.receiveTime.isSome ∧ r.sentPacket = e.sent := by
  have hsound := sound_run run
  obtain ⟨d, hd, hbuffer⟩ := hcarried
  obtain ⟨read, hread, hhandle, -⟩ := datagram_read results rtcpSsrc (hsound.honest.consecutive d hd) hbuffer
  obtain rfl : parsed = read := by simpa [hparsed] using hread
  refine ⟨{ s with sender := handleFeedback results s.sender parsed receiveTime }, ?_, ?_⟩
  · show (handleRtcp results s.sender buffer receiveTime).map _ = _
    rw [hhandle, Option.map_some]
  · have hsome : parsed.reports ≠ [] := by
      intro hnil
      simp [ParsedFeedback.packets, hnil] at hinfo
    obtain ⟨r, hr, hright⟩ := hholds.processCongestionControlFeedback hsound.leads.keyed hsound.leads.byNumber
      results ⟨parsed.senderSsrc, parsed.reportTimestampCompactNtp, parsed.packets⟩ receiveTime hinfo hfinite
      hkey
    refine ⟨r, ?_, hright⟩
    rw [handleFeedback, if_neg hsome]
    exact List.mem_append_right _ hr

/-- A packet that has arrived, and the datagram that says so. -/
theorem taken_run_arrived : ∃ s s', (machine .insertion .insertion compactNtpAt).Run
    (Carried (fun us => us * 1024 / 1000000) 1)
    [.send ⟨7, 41, 65535, 500, 28, false, 11⟩, .receiver (.packet ⟨7, 41, 20000, .notEct, false⟩ 20000),
      .receiver (.tick 50000 50000)] s ∧
    (machine .insertion .insertion compactNtpAt).step s
      (.datagram [139, 205, 0, 5, 0, 0, 0, 1, 0, 0, 0, 7, 0, 41, 0, 1, 128, 30, 0, 0, 0, 0, 12, 204] 60000) =
        some s' ∧
    ∃ r ∈ s'.sender.results, r.receiveTime.isSome ∧ r.sentPacket.sequenceNumber = 65535 := by
  obtain ⟨s, e, hs, hhistory, hleads, hsent, hkey, hnumber, hcame⟩ : ∃ s e,
      (machine .insertion .insertion compactNtpAt).exec
      [.send ⟨7, 41, 65535, 500, 28, false, 11⟩, .receiver (.packet ⟨7, 41, 20000, .notEct, false⟩ 20000),
        .receiver (.tick 50000 50000)] {} = some s ∧ s.sender.adapter.history = [e] ∧
      s.sender.adapter.rtpToTransportSequenceNumber e.rtpKey = some e.number ∧ e.sent.sendTime.isSome ∧
      (7, 41) = e.rtpKey ∧ e.number = 65535 ∧ decide (s.Carried (fun us => us * 1024 / 1000000) 1
        (.datagram [139, 205, 0, 5, 0, 0, 0, 1, 0, 0, 0, 7, 0, 41, 0, 1, 128, 30, 0, 0, 0, 0, 12, 204] 60000)) =
          true :=
    ⟨_, _, rfl, rfl, rfl, rfl, rfl, rfl, rfl⟩
  obtain ⟨parsed, hparsed, info, hinfo, hfinite, hinfokey⟩ : ∃ parsed, parseFragment
      [139, 205, 0, 5, 0, 0, 0, 1, 0, 0, 0, 7, 0, 41, 0, 1, 128, 30, 0, 0, 0, 0, 12, 204] = some (true, parsed) ∧
      ∃ info ∈ parsed.packets, info.arrivalTimeOffset.isFinite = true ∧
        (info.ssrc, info.sequenceNumber) = (7, 41) :=
    ⟨_, rfl, _, List.mem_cons_self, rfl, rfl⟩
  have sound (s : FeedbackLoop) (a : LoopEvent)
      (h : decide (s.Carried (fun us => us * 1024 / 1000000) 1 a) = true) :
      s.Carried (fun us => us * 1024 / 1000000) 1 a :=
    of_decide_eq_true h
  have run : (machine .insertion .insertion compactNtpAt).Run (Carried (fun us => us * 1024 / 1000000) 1) _ s :=
    Machine.Run.of_passes sound hs (by decide)
  obtain ⟨s', hstep, r, hr, hreceived, hsame⟩ :=
    taken_run run (sound s _ hcame) hparsed hinfo hfinite
      ⟨hhistory ▸ List.mem_singleton_self e, hleads, hsent⟩ (hinfokey.trans hkey)
  exact ⟨s, s', run, hstep, r, hr, hreceived, hsame ▸ hnumber⟩

end FeedbackLoop

end CrossTransfer.Minirtc
