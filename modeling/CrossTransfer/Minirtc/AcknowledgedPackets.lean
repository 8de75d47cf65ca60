import CrossTransfer.Minirtc.FeedbackAdapter

/-! # Acknowledged packets

`DataTransport` in `minirtc/src/transport/data_transport.cpp` registers every packet with its feedback adapter
right before it is sent, and takes it back when the datagram could not be sent. The adapter unwraps the 16 bits
of the number that the pacer gave the packet. What the peer says about a packet that is not known, or is
no longer known, is passed over (`acknowledged_run`).
-/

namespace CrossTransfer.Minirtc

open CrossTransfer.Library

/-- A packet with what `RegisterForFeedback` knows of it; SRTP adds `overheadBytes`. -/
structure RegisteredPacket where
  ssrc : UInt32
  sequenceNumber : UInt16
  transportSequenceNumber : Int
  size : Nat
  overheadBytes : Nat
  audio : Bool
  sendTimeMs : Int

namespace TransportFeedbackAdapter

variable (t : TransportFeedbackAdapter)

/-- `RegisterForFeedback`. -/
def registerForFeedback (p : RegisteredPacket) : TransportFeedbackAdapter :=
  let t := t.addPacket ⟨p.ssrc, p.sequenceNumber, some p.transportSequenceNumber, p.size, p.audio⟩
    p.overheadBytes (p.sendTimeMs * 1000)
  (t.processSentPacket ⟨p.transportSequenceNumber, p.sendTimeMs, true, true, p.size + p.overheadBytes⟩).2

end TransportFeedbackAdapter

/-- The adapter of a transport, the packets that were registered and what was reported about packets. -/
structure FeedbackTransport where
  adapter : TransportFeedbackAdapter := {}
  registered : List RegisteredPacket := []
  results : List PacketResult := []

inductive TransportCall
  | registerForFeedback (p : RegisteredPacket)
  | rollbackFeedback (key : RtpKey)
  | handleRtcp (feedback : CongestionControlFeedback) (receiveTime : Int)

namespace FeedbackTransport

variable (s : FeedbackTransport)

def call (sort : ResultSort) : TransportCall → FeedbackTransport
  | .registerForFeedback p =>
    { s with adapter := s.adapter.registerForFeedback p, registered := s.registered ++ [p] }
  | .rollbackFeedback key => { s with adapter := (s.adapter.removePacket key).2 }
  | .handleRtcp feedback receiveTime =>
    let (answer, adapter) := s.adapter.processCongestionControlFeedback sort feedback receiveTime
    { s with adapter, results := s.results ++ answer.elim [] (·.packetFeedbacks) }

/-- The calls come one at a time, under `feedback_mutex_`. -/
def machine (sort : ResultSort) : Machine FeedbackTransport TransportCall :=
  ⟨{}, fun s a => some (s.call sort a)⟩

/-- The pacer has a number of its own for every packet, and packets overtake less than half a turn. -/
def Numbered : TransportCall → Prop
  | .registerForFeedback p =>
    (∀ q ∈ s.registered, q.transportSequenceNumber ≠ p.transportSequenceNumber) ∧
      (s.registered = [] → 0 ≤ p.transportSequenceNumber ∧ p.transportSequenceNumber < 65536) ∧
      ∀ q ∈ s.registered.getLast?, |p.transportSequenceNumber - q.transportSequenceNumber| < 32768
  | _ => True

instance : (a : TransportCall) → Decidable (s.Numbered a)
  | .registerForFeedback _ => inferInstanceAs (Decidable (_ ∧ _ ∧ _))
  | .rollbackFeedback _ | .handleRtcp .. => .isTrue trivial

end FeedbackTransport

/-- What is reported as received, by its numbers. -/
def receivedNumbers (results : List PacketResult) : List Int :=
  (results.filter (·.receiveTime.isSome)).map (·.sentPacket.sequenceNumber)

/-- A packet is reported as received at most once, and what is reported about it is right. -/
structure FeedbackTransport.Acknowledges (s : FeedbackTransport) : Prop where
  once : (receivedNumbers s.results).Nodup
  registered : ∀ r ∈ s.results, ∃ p ∈ s.registered,
    r.sentPacket.sequenceNumber = p.transportSequenceNumber ∧ r.sentPacket.size = p.size + p.overheadBytes ∧
      r.sentPacket.audio = p.audio ∧ r.sentPacket.sendTime = some (p.sendTimeMs * 1000)

theorem SeqNumUnwrapper.unwrap_again (u : SeqNumUnwrapper) (value : UInt16) :
    (u.unwrap value).2.unwrap value = u.unwrap value := by
  have hsame : delta value value = 0 := by simp [delta, forwardDiff, aheadOrAt]
  simp [unwrap, hsame]

/-! ## The history -/

/-- An entry of the history for a packet. -/
structure PacketFeedback.For (e : PacketFeedback) (p : RegisteredPacket) : Prop where
  number : e.number = p.transportSequenceNumber
  key : e.rtpKey = (p.ssrc, p.sequenceNumber)
  size : e.sent.size = p.size + p.overheadBytes
  audio : e.sent.audio = p.audio
  time : ∀ time, e.sent.sendTime = some time → time = p.sendTimeMs * 1000

namespace TransportFeedbackAdapter

variable {t t' : TransportFeedbackAdapter} {e : PacketFeedback} {p : RegisteredPacket}
  {found : List PacketResult}

/-- Entries and keys may go, and none comes. -/
structure Shrinks (t t' : TransportFeedbackAdapter) : Prop where
  history : t'.history.Sublist t.history
  keys : ∀ key n, t'.rtpToTransportSequenceNumber key = some n → t.rtpToTransportSequenceNumber key = some n
  unwrapper : t'.seqNumUnwrapper = t.seqNumUnwrapper

theorem Shrinks.refl (t : TransportFeedbackAdapter) : Shrinks t t := ⟨.refl _, fun _ _ h => h, rfl⟩

theorem Shrinks.trans {t₁ t₂ t₃ : TransportFeedbackAdapter} (h : Shrinks t₁ t₂) (h' : Shrinks t₂ t₃) :
    Shrinks t₁ t₃ where
  history := h'.history.trans h.history
  keys key n hn := h.keys key n (h'.keys key n hn)
  unwrapper := h'.unwrapper.trans h.unwrapper

theorem of_update_none {keys : RtpKey → Option Int} {key gone : RtpKey} {n : Int}
    (h : Function.update keys gone none key = some n) : keys key = some n := by
  by_cases hkey : key = gone
  · simp [hkey] at h
  · rwa [Function.update_of_ne hkey] at h

theorem expire_frame (creationTime : Int) (history : List PacketFeedback) (t : TransportFeedbackAdapter) :
    (expire creationTime history t).history.Sublist history ∧
      (expire creationTime history t).seqNumUnwrapper = t.seqNumUnwrapper ∧
      ∀ key n, (expire creationTime history t).rtpToTransportSequenceNumber key = some n →
        t.rtpToTransportSequenceNumber key = some n := by
  induction history generalizing t with
  | nil => exact ⟨.slnil, rfl, fun _ _ h => h⟩
  | cons p rest ih =>
    rw [expire]
    split
    · obtain ⟨hsub, hunwrapper, hkeys⟩ := ih _
      exact ⟨hsub.cons _, hunwrapper, fun key n hn => of_update_none (hkeys key n hn)⟩
    · exact ⟨.refl _, rfl, fun _ _ h => h⟩

theorem removePacket_shrinks (t : TransportFeedbackAdapter) (key : RtpKey) :
    Shrinks t (t.removePacket key).2 := by
  unfold removePacket
  split
  · exact .refl t
  · exact ⟨List.filter_sublist, fun _ _ h => of_update_none h, rfl⟩

theorem acknowledge_shrinks (t : TransportFeedbackAdapter) (number : Int) :
    Shrinks t (t.acknowledge number) := by
  unfold acknowledge
  split <;> exact ⟨.refl _, fun _ _ h => h, rfl⟩

theorem retrieve_shrinks (t : TransportFeedbackAdapter) (number : Int) (received : Bool) :
    Shrinks t (t.retrieve number received).2 := by
  have hacknowledge := t.acknowledge_shrinks number
  unfold retrieve
  dsimp only
  split
  · exact hacknowledge
  · split
    · exact hacknowledge
    · split
      · exact hacknowledge.trans ⟨List.filter_sublist, fun _ _ h => of_update_none h, rfl⟩
      · exact hacknowledge

theorem retrievePacketFeedback_shrinks (t : TransportFeedbackAdapter) (key : RtpKey) (received : Bool) :
    Shrinks t (t.retrievePacketFeedback key received).2 := by
  unfold retrievePacketFeedback
  split
  · exact .refl t
  · exact t.retrieve_shrinks _ received

/-- What is written of an entry when its packet is sent. -/
structure Sends (known e : PacketFeedback) (time : Int) : Prop where
  number : e.number = known.number
  key : e.rtpKey = known.rtpKey
  size : e.sent.size = known.sent.size
  audio : e.sent.audio = known.sent.audio
  time : e.sent.sendTime = some time

theorem processSentPacket_frame (t : TransportFeedbackAdapter) (packet : SentPacketInfo)
    (hincluded : packet.includedInFeedback = true) :
    (t.processSentPacket packet).2.seqNumUnwrapper = (t.seqNumUnwrapper.unwrap (wrap packet.packetId)).2 ∧
      ∀ e ∈ (t.processSentPacket packet).2.history, e ∈ t.history ∨ ∃ known ∈ t.history,
        known.number = (t.seqNumUnwrapper.unwrap (wrap packet.packetId)).1 ∧
          Sends known e (packet.sendTimeMs * 1000) := by
  have hassign {known p : PacketFeedback} {number : Int} (hfind : t.find number = some known)
      (hp : Sends known p (packet.sendTimeMs * 1000)) (e : PacketFeedback)
      (he : e ∈ assignByNumber p t.history) : e ∈ t.history ∨ ∃ known ∈ t.history,
        known.number = number ∧ Sends known e (packet.sendTimeMs * 1000) := by
    obtain ⟨q, hq, rfl⟩ := List.mem_map.mp he
    split
    · exact .inr ⟨known, List.mem_of_find?_eq_some hfind, find_number hfind, hp⟩
    · exact .inl hq
  unfold processSentPacket
  rw [if_pos (.inl hincluded)]
  dsimp only
  split
  · exact ⟨rfl, fun e he => .inl he⟩
  · rename_i known hfind
    change t.find _ = some known at hfind
    split
    · exact ⟨rfl, hassign hfind ⟨rfl, rfl, rfl, rfl, rfl⟩⟩
    · exact ⟨rfl, hassign hfind ⟨rfl, rfl, rfl, rfl, rfl⟩⟩

/-- Registering a packet adds its entry, and leaves those of the others. -/
theorem registerForFeedback_frame (hnumber : (t.seqNumUnwrapper.unwrap (wrap p.transportSequenceNumber)).1 =
    p.transportSequenceNumber) (hnew : ∀ e ∈ t.history, e.number ≠ p.transportSequenceNumber) :
    (t.registerForFeedback p).seqNumUnwrapper =
        ⟨p.transportSequenceNumber, some (wrap p.transportSequenceNumber)⟩ ∧
      ∀ e ∈ (t.registerForFeedback p).history, e ∈ t.history ∨ e.For p := by
  obtain ⟨t₁, ht₁⟩ : ∃ t₁, t.addPacket
      ⟨p.ssrc, p.sequenceNumber, some p.transportSequenceNumber, p.size, p.audio⟩ p.overheadBytes
      (p.sendTimeMs * 1000) = t₁ := ⟨_, rfl⟩
  have hadded (e : PacketFeedback) (he : e ∈ t₁.history) : e ∈ t.history ∨ e.For p := by
    rw [← ht₁] at he
    obtain rfl | he := number_mem_emplace he
    · exact .inr ⟨hnumber, rfl, rfl, rfl, fun _ h => by cases h⟩
    · exact .inl ((expire_frame ..).1.subset he)
  have hunwrapper : t₁.seqNumUnwrapper = (t.seqNumUnwrapper.unwrap (wrap p.transportSequenceNumber)).2 := by
    rw [← ht₁]
    exact (expire_frame ..).2.1
  have hagain : t₁.seqNumUnwrapper.unwrap (wrap p.transportSequenceNumber) =
      t.seqNumUnwrapper.unwrap (wrap p.transportSequenceNumber) := by
    rw [hunwrapper, SeqNumUnwrapper.unwrap_again]
  -- The number is unwrapped once more when the packet is sent, with the same result.
  obtain ⟨hafter, hsends⟩ := processSentPacket_frame t₁
    ⟨p.transportSequenceNumber, p.sendTimeMs, true, true, p.size + p.overheadBytes⟩ rfl
  have hregister : t.registerForFeedback p = (t₁.processSentPacket
      ⟨p.transportSequenceNumber, p.sendTimeMs, true, true, p.size + p.overheadBytes⟩).2 := by
    rw [← ht₁]
    rfl
  rw [hregister]
  refine ⟨?_, fun e he => ?_⟩
  · rw [hafter, hagain]
    exact congrArg (SeqNumUnwrapper.mk · _) hnumber
  · obtain he | ⟨known, hknown, hsame, hsend⟩ := hsends e he
    · exact hadded e he
    · rw [hagain, hnumber] at hsame
      obtain hold | hfor := hadded known hknown
      · exact absurd hsame (hnew known hold)
      · refine .inr ⟨hsend.number.trans hfor.number, hsend.key.trans hfor.key,
          hsend.size.trans hfor.size, hsend.audio.trans hfor.audio, ?_⟩
        intro time htime
        exact Option.some.inj (htime.symm.trans hsend.time)

theorem acknowledge_history (t : TransportFeedbackAdapter) (number : Int) :
    (t.acknowledge number).history = t.history := by
  unfold acknowledge
  split <;> rfl

/-- A packet that was received is found once. -/
theorem retrievePacketFeedback_cases (t : TransportFeedbackAdapter) (key : RtpKey) (received : Bool) :
    (t.retrievePacketFeedback key received).1 = none ∧
        (t.retrievePacketFeedback key received).2.history = t.history ∨
      ∃ e ∈ t.history, (t.retrievePacketFeedback key received).1 = some e ∧ e.sent.sendTime.isSome ∧
        (t.retrievePacketFeedback key received).2.history =
          if received then t.eraseNumber e.number else t.history := by
  unfold retrievePacketFeedback
  split
  · exact .inl ⟨rfl, rfl⟩
  · rename_i number _
    have hhistory := t.acknowledge_history number
    unfold retrieve
    dsimp only
    split
    · exact .inl ⟨rfl, hhistory⟩
    · rename_i e hfind
      have hmem : e ∈ t.history := hhistory ▸ List.mem_of_find?_eq_some hfind
      split
      · exact .inl ⟨rfl, hhistory⟩
      · rename_i hsent
        have hsome : e.sent.sendTime.isSome := by simpa [Option.isSome_iff_ne_none] using hsent
        cases received with
        | false => exact .inr ⟨e, hmem, rfl, hsome, hhistory⟩
        | true =>
          refine .inr ⟨e, hmem, rfl, hsome, ?_⟩
          rw [if_pos rfl, find_number hfind]
          exact congrArg (List.filter _) hhistory

/-- What a feedback finds: entries of the history, and those that were received leave it. -/
structure Finds (t t' : TransportFeedbackAdapter) (found : List PacketResult) : Prop where
  shrinks : Shrinks t t'
  known : ∀ r ∈ found, ∃ e ∈ t.history, e.sent = r.sentPacket ∧ e.sent.sendTime.isSome
  once : (receivedNumbers found).Nodup
  gone : ∀ number ∈ receivedNumbers found, ∀ e ∈ t'.history, e.number ≠ number

theorem receivedNumbers_cons (r : PacketResult) (found : List PacketResult) :
    receivedNumbers (r :: found) =
      if r.receiveTime.isSome then r.sentPacket.sequenceNumber :: receivedNumbers found
      else receivedNumbers found := by
  unfold receivedNumbers
  by_cases hreceived : r.receiveTime.isSome
  · simp [hreceived]
  · simp [hreceived]

theorem isSome_receiveTime (offset : Int) (arrival : TimeDelta) :
    (receiveTime offset arrival).isSome = arrival.isFinite := by
  cases arrival <;> rfl

theorem results_finds (offset : Int) (infos : List PacketInfo) (t : TransportFeedbackAdapter) :
    Finds t (results offset infos t).2 (results offset infos t).1 := by
  induction infos generalizing t with
  | nil => exact ⟨.refl _, by simp [results], by simp [results, receivedNumbers],
      by simp [results, receivedNumbers]⟩
  | cons info infos ih =>
    have hcases := retrievePacketFeedback_cases t (info.ssrc, info.sequenceNumber)
      info.arrivalTimeOffset.isFinite
    have hfirst := retrievePacketFeedback_shrinks t (info.ssrc, info.sequenceNumber)
      info.arrivalTimeOffset.isFinite
    obtain ⟨t₁, ht₁⟩ : ∃ t₁, (t.retrievePacketFeedback (info.ssrc, info.sequenceNumber)
      info.arrivalTimeOffset.isFinite).2 = t₁ := ⟨_, rfl⟩
    have hrest := ih t₁
    rw [results]
    dsimp only
    rw [ht₁] at hfirst hcases ⊢
    have hshrinks := hfirst.trans hrest.shrinks
    obtain ⟨hnone, hhistory⟩ | ⟨e, he, hsome, hsent, hhistory⟩ := hcases
    · rw [hnone]
      exact ⟨hshrinks, hhistory ▸ hrest.known, hrest.once, hrest.gone⟩
    · rw [hsome]
      -- Whatever the rest of the feedback finds was left in the history by this packet.
      have hleft (number : Int) (hin : number ∈ receivedNumbers (results offset infos t₁).1) :
          ∃ q ∈ t₁.history, q.number = number := by
        obtain ⟨r, hr, rfl⟩ := List.mem_map.mp hin
        obtain ⟨q, hq, hsame, -⟩ := hrest.known r (List.mem_filter.mp hr).1
        exact ⟨q, hq, congrArg _ hsame⟩
      have herased (hreceived : info.arrivalTimeOffset.isFinite = true) (q : PacketFeedback)
          (hq : q ∈ t₁.history) : q.number ≠ e.number := by
        rw [hhistory, if_pos hreceived] at hq
        exact of_decide_eq_true (List.mem_filter.mp hq).2
      refine ⟨hshrinks, ?_, ?_, ?_⟩
      · intro r hr
        obtain rfl | hr := List.mem_cons.mp hr
        · exact ⟨e, he, rfl, hsent⟩
        · obtain ⟨q, hq, hq'⟩ := hrest.known r hr
          exact ⟨q, hfirst.history.subset hq, hq'⟩
      all_goals
        rw [Option.elim_some, receivedNumbers_cons, isSome_receiveTime]
        split
      · rename_i hreceived
        refine List.nodup_cons.mpr ⟨fun hin => ?_, hrest.once⟩
        obtain ⟨q, hq, hsame⟩ := hleft _ hin
        exact herased hreceived q hq hsame
      · exact hrest.once
      · rename_i hreceived
        rw [List.forall_mem_cons]
        exact ⟨fun q hq => herased hreceived q (hrest.shrinks.history.subset hq), hrest.gone⟩
      · exact hrest.gone

theorem Finds.number (h : Finds t t' found) {n : Int} (hn : n ∈ receivedNumbers found) :
    ∃ e ∈ t.history, e.number = n := by
  obtain ⟨r, hr, rfl⟩ := List.mem_map.mp hn
  obtain ⟨e, he, hsame, -⟩ := h.known r (List.mem_filter.mp hr).1
  exact ⟨e, he, congrArg _ hsame⟩

/-- The results of a feedback, which are sorted at the end. -/
theorem processCongestionControlFeedback_finds (t : TransportFeedbackAdapter) (sort : ResultSort)
    (feedback : CongestionControlFeedback) (receiveTime : Int) :
    ∃ found, Finds t (t.processCongestionControlFeedback sort feedback receiveTime).2 found ∧
      ((t.processCongestionControlFeedback sort feedback receiveTime).1.elim []
        (·.packetFeedbacks)).Perm found := by
  unfold processCongestionControlFeedback
  split
  · exact ⟨[], ⟨.refl _, by simp, by simp [receivedNumbers], by simp [receivedNumbers]⟩, .refl _⟩
  · have hfinds := results_finds (t.offsetAfter feedback.reportTimestampCompactNtp receiveTime)
      feedback.packets { t with
        currentOffset := some (t.offsetAfter feedback.reportTimestampCompactNtp receiveTime)
        lastFeedbackCompactNtpTime := some feedback.reportTimestampCompactNtp }
    -- The two times play no part in what is found.
    have hshrinks : Shrinks t _ := ⟨hfinds.shrinks.history, hfinds.shrinks.keys, hfinds.shrinks.unwrapper⟩
    dsimp only
    split
    · rename_i hnil
      refine ⟨_, ⟨hshrinks, hfinds.known, hfinds.once, hfinds.gone⟩, ?_⟩
      rw [hnil]
      exact .refl _
    · exact ⟨_, ⟨hshrinks, hfinds.known, hfinds.once, hfinds.gone⟩, sort.perm _⟩

end TransportFeedbackAdapter

namespace FeedbackTransport

variable {s : FeedbackTransport}

theorem receivedNumbers_append (results found : List PacketResult) :
    receivedNumbers (results ++ found) = receivedNumbers results ++ receivedNumbers found := by
  simp [receivedNumbers]

theorem receivedNumbers_perm {results found : List PacketResult} (h : results.Perm found) :
    (receivedNumbers results).Perm (receivedNumbers found) :=
  (h.filter _).map _

variable (s) in
/-- The history holds packets that were registered and not yet reported as received. -/
structure Tracks : Prop where
  unwrapper : s.adapter.seqNumUnwrapper = s.registered.getLast?.elim {} fun p =>
    ⟨p.transportSequenceNumber, some (wrap p.transportSequenceNumber)⟩
  known : ∀ e ∈ s.adapter.history, ∃ p ∈ s.registered, e.For p
  gone : ∀ n ∈ receivedNumbers s.results, ∀ e ∈ s.adapter.history, e.number ≠ n
  acknowledges : s.Acknowledges

theorem Acknowledges.number (h : s.Acknowledges) {n : Int} (hn : n ∈ receivedNumbers s.results) :
    ∃ p ∈ s.registered, p.transportSequenceNumber = n := by
  obtain ⟨r, hr, rfl⟩ := List.mem_map.mp hn
  obtain ⟨p, hp, hnumber, -⟩ := h.registered r (List.mem_filter.mp hr).1
  exact ⟨p, hp, hnumber.symm⟩

/-- The 16 bits of the number are enough. -/
theorem Tracks.unwrap (h : s.Tracks) {p : RegisteredPacket} (hnumbered : s.Numbered (.registerForFeedback p)) :
    (s.adapter.seqNumUnwrapper.unwrap (wrap p.transportSequenceNumber)).1 = p.transportSequenceNumber := by
  obtain ⟨-, hfirst, hnear⟩ := hnumbered
  rw [h.unwrapper]
  cases hlast : s.registered.getLast? with
  | none =>
    -- The first number is taken as it is.
    have hbounds := hfirst (List.getLast?_eq_none_iff.mp hlast)
    have hwrap := toNat_wrap p.transportSequenceNumber
    simp only [Option.elim_none, SeqNumUnwrapper.unwrap]
    omega
  | some q =>
    have hdelta := delta_of_near (wrap q.transportSequenceNumber) (wrap p.transportSequenceNumber)
      (toNat_wrap _) (toNat_wrap _) (hnear q hlast)
    simp only [Option.elim_some, SeqNumUnwrapper.unwrap, hdelta]
    omega

/-- No entry has the number yet. -/
theorem Tracks.fresh (h : s.Tracks) {p : RegisteredPacket} (hnumbered : s.Numbered (.registerForFeedback p))
    (e : PacketFeedback) (he : e ∈ s.adapter.history) : e.number ≠ p.transportSequenceNumber := by
  obtain ⟨q, hq, hfor⟩ := h.known e he
  rw [hfor.number]
  exact hnumbered.1 q hq

theorem Tracks.register (h : s.Tracks) (sort : ResultSort) {p : RegisteredPacket}
    (hnumbered : s.Numbered (.registerForFeedback p)) : (s.call sort (.registerForFeedback p)).Tracks := by
  obtain ⟨hunwrapper, hhistory⟩ :=
    TransportFeedbackAdapter.registerForFeedback_frame (h.unwrap hnumbered) (h.fresh hnumbered)
  refine ⟨?_, fun e he => ?_, fun n hn e he => ?_, ⟨h.acknowledges.once, fun r hr => ?_⟩⟩
  · rw [call, List.getLast?_append]
    exact hunwrapper
  · obtain hold | hfor := hhistory e he
    · obtain ⟨q, hq, hfor⟩ := h.known e hold
      exact ⟨q, List.mem_append_left _ hq, hfor⟩
    · exact ⟨p, List.mem_append_right _ (List.mem_singleton_self p), hfor⟩
  · obtain hold | hfor := hhistory e he
    · exact h.gone n hn e hold
    · obtain ⟨q, hq, rfl⟩ := h.acknowledges.number hn
      rw [hfor.number]
      exact (hnumbered.1 q hq).symm
  · obtain ⟨q, hq, hright⟩ := h.acknowledges.registered r hr
    exact ⟨q, List.mem_append_left _ hq, hright⟩

theorem Tracks.rollback (h : s.Tracks) (sort : ResultSort) (key : RtpKey) :
    (s.call sort (.rollbackFeedback key)).Tracks := by
  have hshrinks := s.adapter.removePacket_shrinks key
  exact ⟨hshrinks.unwrapper.trans h.unwrapper, fun e he => h.known e (hshrinks.history.subset he),
    fun n hn e he => h.gone n hn e (hshrinks.history.subset he), h.acknowledges.once,
    h.acknowledges.registered⟩

theorem Tracks.handleRtcp (h : s.Tracks) (sort : ResultSort) (feedback : CongestionControlFeedback)
    (receiveTime : Int) :
    (s.call sort (.handleRtcp feedback receiveTime)).Tracks := by
  obtain ⟨found, hfinds, hperm⟩ :=
    TransportFeedbackAdapter.processCongestionControlFeedback_finds s.adapter sort feedback receiveTime
  have hnumbers := receivedNumbers_perm hperm
  refine ⟨hfinds.shrinks.unwrapper.trans h.unwrapper,
    fun e he => h.known e (hfinds.shrinks.history.subset he), ?_, ?_, ?_⟩
  · intro n hn e he
    rw [call, receivedNumbers_append, List.mem_append] at hn
    obtain hn | hn := hn
    · exact h.gone n hn e (hfinds.shrinks.history.subset he)
    · exact hfinds.gone n (hnumbers.subset hn) e he
  · rw [call, receivedNumbers_append]
    refine h.acknowledges.once.append (hnumbers.nodup_iff.mpr hfinds.once) ?_
    -- What was received before is not in the history.
    intro n hbefore hnow
    obtain ⟨e, he, hsame⟩ := hfinds.number (hnumbers.subset hnow)
    exact h.gone n hbefore e he hsame
  · intro r hr
    obtain hr | hr := List.mem_append.mp hr
    · exact h.acknowledges.registered r hr
    · obtain ⟨e, he, hsame, hsent⟩ := hfinds.known r (hperm.subset hr)
      obtain ⟨p, hp, hfor⟩ := h.known e he
      obtain ⟨time, htime⟩ := Option.isSome_iff_exists.mp hsent
      rw [← hsame]
      exact ⟨p, hp, hfor.number, hfor.size, hfor.audio, by rw [htime, hfor.time time htime]⟩

theorem tracks_start : Tracks {} where
  unwrapper := rfl
  known := by simp
  gone := by simp [receivedNumbers]
  acknowledges := ⟨by simp [receivedNumbers], by simp⟩

/-- Whatever the peer sends as feedback, and whatever is sent and rolled back in between, a packet is reported
    as received at most once, and what is reported about a packet is what was registered. -/
theorem acknowledged_run {sort : ResultSort} {as : List TransportCall}
    (run : (machine sort).Run Numbered as s) : s.Acknowledges := by
  have htracks : s.Tracks := by
    refine run.invariant Tracks tracks_start ?_
    intro s a s' h hnumbered hstep
    obtain rfl := Option.some.inj hstep
    cases a with
    | registerForFeedback p => exact h.register sort hnumbered
    | rollbackFeedback key => exact h.rollback sort key
    | handleRtcp feedback receiveTime => exact h.handleRtcp sort feedback receiveTime
  exact htracks.acknowledges

/-- Two packets, over the end of the 16 bits, and a feedback that comes twice. -/
theorem acknowledged_run_twice : ∃ s, (machine .insertion).Run Numbered
    [.registerForFeedback ⟨7, 40, 65535, 1000, 28, false, 10⟩,
      .registerForFeedback ⟨7, 41, 65536, 500, 28, false, 11⟩,
      .handleRtcp ⟨1, 0, [⟨7, 40, .us 5000, .notEct⟩, ⟨7, 41, .minusInfinity, .notEct⟩]⟩ 60000,
      .handleRtcp ⟨1, 0, [⟨7, 40, .us 5000, .notEct⟩]⟩ 70000] s ∧ s.Acknowledges := by
  obtain ⟨s, hs⟩ : ∃ s, (machine .insertion).exec
      [.registerForFeedback ⟨7, 40, 65535, 1000, 28, false, 10⟩,
        .registerForFeedback ⟨7, 41, 65536, 500, 28, false, 11⟩,
        .handleRtcp ⟨1, 0, [⟨7, 40, .us 5000, .notEct⟩, ⟨7, 41, .minusInfinity, .notEct⟩]⟩ 60000,
        .handleRtcp ⟨1, 0, [⟨7, 40, .us 5000, .notEct⟩]⟩ 70000] {} = some s :=
    ⟨_, rfl⟩
  have sound (s : FeedbackTransport) (a : TransportCall) (h : decide (s.Numbered a) = true) : s.Numbered a :=
    of_decide_eq_true h
  have run : (machine .insertion).Run Numbered _ s := Machine.Run.of_passes sound hs (by decide)
  exact ⟨s, run, acknowledged_run run⟩

end FeedbackTransport

end CrossTransfer.Minirtc
