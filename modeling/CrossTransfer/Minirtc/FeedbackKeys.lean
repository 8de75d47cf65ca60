import CrossTransfer.Minirtc.AcknowledgedPackets

/-! # The packets that are held

A feedback names packets by SSRC and RTP number, and the adapter of
`minirtc/src/qos/transport_feedback_adapter.cc` goes from there to a transport number and to an entry of the
history. What a feedback finds is an entry that it names (`processCongestionControlFeedback_names`), and of the
packets that were sent it finds every one that it names as received
(`Holds.processCongestionControlFeedback`).
-/

namespace CrossTransfer.Minirtc

open CrossTransfer.Library

namespace TransportFeedbackAdapter

variable {t t' : TransportFeedbackAdapter} {e : PacketFeedback} {key : RtpKey}

variable (t) in
/-- A key leads to the entries with the key. -/
def Keyed : Prop :=
  ∀ key n, t.rtpToTransportSequenceNumber key = some n → ∀ e ∈ t.history, e.number = n → e.rtpKey = key

theorem Shrinks.keyed (hs : Shrinks t t') (h : t.Keyed) : t'.Keyed :=
  fun key n hn e he => h key n (hs.keys key n hn) e (hs.history.subset he)

/-- What is found for a key has the key. -/
theorem Keyed.retrieve (h : t.Keyed) {received : Bool}
    (hfound : (t.retrievePacketFeedback key received).1 = some e) :
    e ∈ t.history ∧ e.rtpKey = key := by
  unfold retrievePacketFeedback at hfound
  split at hfound
  · cases hfound
  · rename_i number hnumber
    have hhistory := t.acknowledge_history number
    unfold TransportFeedbackAdapter.retrieve at hfound
    dsimp only at hfound
    split at hfound
    · cases hfound
    · rename_i p hfind
      have hmem : p ∈ t.history := hhistory ▸ List.mem_of_find?_eq_some hfind
      have hkey := h key number hnumber p hmem (find_number hfind)
      split at hfound
      · cases hfound
      · split at hfound <;> exact Option.some.inj hfound ▸ ⟨hmem, hkey⟩

/-- What a feedback reports as received was named by it. -/
abbrev Names (t : TransportFeedbackAdapter) (infos : List PacketInfo) (r : PacketResult) : Prop :=
  ∃ info ∈ infos, info.arrivalTimeOffset.isFinite = true ∧
    ∃ e ∈ t.history, e.sent = r.sentPacket ∧ e.rtpKey = (info.ssrc, info.sequenceNumber)

theorem results_names (offset : Int) (infos : List PacketInfo) (t : TransportFeedbackAdapter) (h : t.Keyed) :
    ∀ r ∈ (results offset infos t).1, r.receiveTime.isSome → Names t infos r := by
  induction infos generalizing t with
  | nil => simp [results]
  | cons info infos ih =>
    have hshrinks := t.retrievePacketFeedback_shrinks (info.ssrc, info.sequenceNumber)
      info.arrivalTimeOffset.isFinite
    have hnames := ih _ (hshrinks.keyed h)
    intro r hr hreceived
    -- What the rest finds was in the history before the first packet, too.
    have hlater : r ∈ (results offset infos (t.retrievePacketFeedback (info.ssrc, info.sequenceNumber)
        info.arrivalTimeOffset.isFinite).2).1 → Names t (info :: infos) r := by
      intro hr
      obtain ⟨later, hlater, hfinite, e, he, hsame⟩ := hnames r hr hreceived
      exact ⟨later, List.mem_cons_of_mem _ hlater, hfinite, e, hshrinks.history.subset he, hsame⟩
    rw [results] at hr
    dsimp only at hr
    cases hfound : (t.retrievePacketFeedback (info.ssrc, info.sequenceNumber)
        info.arrivalTimeOffset.isFinite).1 with
    | none =>
      rw [hfound] at hr
      exact hlater hr
    | some e =>
      rw [hfound] at hr
      obtain rfl | hr := List.mem_cons.mp hr
      · obtain ⟨he, hkey⟩ := h.retrieve hfound
        exact ⟨info, List.mem_cons_self, isSome_receiveTime offset _ ▸ hreceived, e, he, rfl, hkey⟩
      · exact hlater hr

theorem processCongestionControlFeedback_names (h : t.Keyed) (sort : ResultSort)
    (feedback : CongestionControlFeedback) (receiveTime : Int) :
    ∀ r ∈ (t.processCongestionControlFeedback sort feedback receiveTime).1.elim [] (·.packetFeedbacks),
      r.receiveTime.isSome → Names t feedback.packets r := by
  unfold processCongestionControlFeedback
  split
  · simp
  · have hnames := results_names (t.offsetAfter feedback.reportTimestampCompactNtp receiveTime)
      feedback.packets { t with
        currentOffset := some (t.offsetAfter feedback.reportTimestampCompactNtp receiveTime)
        lastFeedbackCompactNtpTime := some feedback.reportTimestampCompactNtp } h
    dsimp only
    split
    · simp
    · intro r hr hreceived
      exact hnames r (sort.mem_sort.mp hr) hreceived

theorem of_update_getD {keys : RtpKey → Option Int} {new : RtpKey} {n m : Int}
    (h : Function.update keys new (some ((keys new).getD n)) key = some m) :
    keys key = some m ∨ key = new ∧ m = n := by
  by_cases hkey : key = new
  · subst hkey
    rw [Function.update_self, Option.some.injEq] at h
    cases hknown : keys key with
    | none =>
      rw [hknown, Option.getD_none] at h
      exact .inr ⟨rfl, h.symm⟩
    | some first =>
      rw [hknown, Option.getD_some] at h
      exact .inl (congrArg some h)
  · rw [Function.update_of_ne hkey] at h
    exact .inl h

/-- A packet comes with a number that no entry has and no key leads to. -/
theorem Keyed.emplace (h : t.Keyed) (p : PacketFeedback) (hnew : ∀ e ∈ t.history, e.number ≠ p.number)
    (hunused : ∀ key, t.rtpToTransportSequenceNumber key ≠ some p.number) :
    Keyed { t with
      rtpToTransportSequenceNumber := Function.update t.rtpToTransportSequenceNumber p.rtpKey
        (some ((t.rtpToTransportSequenceNumber p.rtpKey).getD p.number))
      history := emplaceByNumber p t.history } := by
  intro key n hn e he hsame
  obtain hold | ⟨rfl, rfl⟩ := of_update_getD hn
  -- The key keeps the number that it had, or it is the key of the new packet.
  · obtain rfl | he := number_mem_emplace he
    · exact absurd (hsame ▸ hold) (hunused key)
    · exact h key n hold e he hsame
  · obtain rfl | he := number_mem_emplace he
    · rfl
    · exact absurd hsame (hnew e he)

theorem Keyed.addPacket (h : t.Keyed) (packet : TrackedRtpPacket) {transportNumber number : Int}
    (htransport : packet.transportSequenceNumber = some transportNumber)
    (hnumber : (t.seqNumUnwrapper.unwrap (wrap transportNumber)).1 = number)
    (hnew : ∀ e ∈ t.history, e.number ≠ number)
    (hunused : ∀ key, t.rtpToTransportSequenceNumber key ≠ some number) (overheadBytes : Nat)
    (creationTime : Int) :
    (t.addPacket packet overheadBytes creationTime).Keyed ∧
      ∀ key n, (t.addPacket packet overheadBytes creationTime).rtpToTransportSequenceNumber key = some n →
        t.rtpToTransportSequenceNumber key = some n ∨ n = number := by
  unfold TransportFeedbackAdapter.addPacket
  rw [htransport]
  dsimp only
  rw [hnumber]
  obtain ⟨t₁, ht₁⟩ : ∃ t₁, expire creationTime t.history
    { t with seqNumUnwrapper := (t.seqNumUnwrapper.unwrap (wrap transportNumber)).2 } = t₁ := ⟨_, rfl⟩
  have hshrinks :
      Shrinks { t with seqNumUnwrapper := (t.seqNumUnwrapper.unwrap (wrap transportNumber)).2 } t₁ := by
    rw [← ht₁]
    obtain ⟨hsub, hunwrapper, hkeys⟩ := expire_frame creationTime t.history
      { t with seqNumUnwrapper := (t.seqNumUnwrapper.unwrap (wrap transportNumber)).2 }
    exact ⟨hsub, hkeys, hunwrapper⟩
  rw [ht₁]
  constructor
  · exact (hshrinks.keyed h).emplace _ (fun e he => hnew e (hshrinks.history.subset he))
      fun key hkey => hunused key (hshrinks.keys key _ hkey)
  · intro key n hn
    exact (of_update_getD hn).imp (hshrinks.keys key n) And.right

theorem processSentPacket_keys (t : TransportFeedbackAdapter) (packet : SentPacketInfo) :
    (t.processSentPacket packet).2.rtpToTransportSequenceNumber = t.rtpToTransportSequenceNumber := by
  unfold processSentPacket
  dsimp only
  split
  · split
    · rfl
    · split <;> rfl
  · split <;> rfl

theorem Keyed.processSentPacket (h : t.Keyed) {packet : SentPacketInfo}
    (hincluded : packet.includedInFeedback = true) : (t.processSentPacket packet).2.Keyed := by
  intro key n hn e he hsame
  rw [processSentPacket_keys] at hn
  obtain he | ⟨known, hknown, -, hsends⟩ := (processSentPacket_frame t packet hincluded).2 e he
  · exact h key n hn e he hsame
  · exact hsends.key.trans (h key n hn known hknown (hsends.number.symm.trans hsame))

theorem addPacket_byNumber (h : ByNumber t.history) (packet : TrackedRtpPacket) (overheadBytes : Nat)
    (creationTime : Int) : ByNumber (t.addPacket packet overheadBytes creationTime).history := by
  unfold TransportFeedbackAdapter.addPacket
  split
  · exact h
  · exact (h.sublist (expire_frame ..).1).emplace _

theorem processSentPacket_byNumber (h : ByNumber t.history) (packet : SentPacketInfo) :
    ByNumber (t.processSentPacket packet).2.history := by
  unfold TransportFeedbackAdapter.processSentPacket
  dsimp only
  split
  · split
    · exact h
    · split <;> exact h.assign _
  · split <;> exact h

end TransportFeedbackAdapter

namespace FeedbackTransport

variable {s : FeedbackTransport}

variable (s) in
/-- The keys lead to packets that were registered, and the history is in the order of the numbers. -/
structure Leads : Prop where
  byNumber : ByNumber s.adapter.history
  keyed : s.adapter.Keyed
  known : ∀ key n, s.adapter.rtpToTransportSequenceNumber key = some n →
    ∃ p ∈ s.registered, p.transportSequenceNumber = n

theorem Leads.register (h : s.Leads) (sort : ResultSort) (htracks : s.Tracks) {p : RegisteredPacket}
    (hnumbered : s.Numbered (.registerForFeedback p)) : (s.call sort (.registerForFeedback p)).Leads := by
  have hunwrap := htracks.unwrap hnumbered
  have hunused (key : RtpKey) :
      s.adapter.rtpToTransportSequenceNumber key ≠ some p.transportSequenceNumber := by
    intro hkey
    obtain ⟨q, hq, hsame⟩ := h.known key _ hkey
    exact hnumbered.1 q hq hsame
  obtain ⟨hkeyed, hknown⟩ := h.keyed.addPacket
    ⟨p.ssrc, p.sequenceNumber, some p.transportSequenceNumber, p.size, p.audio⟩ rfl hunwrap
    (htracks.fresh hnumbered) hunused p.overheadBytes (p.sendTimeMs * 1000)
  refine ⟨?_, hkeyed.processSentPacket rfl, fun key n hn => ?_⟩
  · exact TransportFeedbackAdapter.processSentPacket_byNumber
      (TransportFeedbackAdapter.addPacket_byNumber h.byNumber ..) _
  · have hn := (congrFun (TransportFeedbackAdapter.processSentPacket_keys ..) key).symm.trans hn
    obtain hold | rfl := hknown key n hn
    · obtain ⟨q, hq, hsame⟩ := h.known key n hold
      exact ⟨q, List.mem_append_left _ hq, hsame⟩
    · exact ⟨p, List.mem_append_right _ (List.mem_singleton_self p), rfl⟩

theorem Leads.shrinks (h : s.Leads) {adapter : TransportFeedbackAdapter}
    (hs : TransportFeedbackAdapter.Shrinks s.adapter adapter) (results : List PacketResult) :
    ({ s with adapter, results } : FeedbackTransport).Leads :=
  ⟨h.byNumber.sublist hs.history, hs.keyed h.keyed, fun key n hn => h.known key n (hs.keys key n hn)⟩

end FeedbackTransport

/-! ## What is taken for received -/

theorem ByNumber.find {history : List PacketFeedback} {e : PacketFeedback} (h : ByNumber history)
    (he : e ∈ history) : history.find? (·.number = e.number) = some e := by
  induction history with
  | nil => cases he
  | cons q rest ih =>
    obtain ⟨hq, hrest⟩ := List.pairwise_cons.mp h
    obtain rfl | he := List.mem_cons.mp he
    · exact List.find?_cons_of_pos (by simp)
    · have hlt : q.number < e.number := hq _ (List.mem_map_of_mem he)
      rw [List.find?_cons_of_neg (by simpa using hlt.ne)]
      exact ih hrest he

namespace TransportFeedbackAdapter

variable {t : TransportFeedbackAdapter} {e : PacketFeedback} {key : RtpKey} {received : Bool}

variable (t e) in
/-- The entry of a packet that was sent, to which its key leads. -/
structure Holds : Prop where
  mem : e ∈ t.history
  leads : t.rtpToTransportSequenceNumber e.rtpKey = some e.number
  sent : e.sent.sendTime.isSome

theorem Holds.retrieve (h : t.Holds e) (hnumbers : ByNumber t.history) (received : Bool) :
    (t.retrievePacketFeedback e.rtpKey received).1 = some e := by
  have hhistory := t.acknowledge_history e.number
  have hfind : (t.acknowledge e.number).find e.number = some e :=
    ByNumber.find (hhistory ▸ hnumbers) (hhistory ▸ h.mem)
  have hsent : e.sent.sendTime.isNone = false := by simpa using h.sent
  rw [retrievePacketFeedback, h.leads]
  dsimp only
  rw [TransportFeedbackAdapter.retrieve, hfind]
  dsimp only
  rw [hsent]
  cases received <;> rfl

/-- An entry stays as long as its packet is not reported as received. -/
theorem Holds.other (h : t.Holds e) (hkeyed : t.Keyed) (hother : ¬ (key = e.rtpKey ∧ received = true)) :
    (t.retrievePacketFeedback key received).2.Holds e := by
  have hacknowledged (number : Int) : (t.acknowledge number).Holds e := by
    unfold acknowledge
    split <;> exact ⟨h.mem, h.leads, h.sent⟩
  unfold retrievePacketFeedback
  split
  · exact h
  · rename_i number hnumber
    unfold TransportFeedbackAdapter.retrieve
    dsimp only
    split
    · exact hacknowledged number
    · rename_i p hfind
      have hp : p ∈ t.history := t.acknowledge_history number ▸ List.mem_of_find?_eq_some hfind
      have hkey : p.rtpKey = key := hkeyed key number hnumber p hp (find_number hfind)
      split
      · exact hacknowledged number
      · split
        · -- What goes is the entry of another key.
          rename_i hreceived
          have hne : e.rtpKey ≠ key := fun hsame => hother ⟨hsame.symm, hreceived⟩
          refine ⟨List.mem_filter.mpr ⟨(hacknowledged number).mem, ?_⟩, ?_, h.sent⟩
          · simpa using fun hsame => hne (hkeyed key number hnumber e h.mem hsame)
          · exact (Function.update_of_ne (hkey ▸ hne) ..).trans (hacknowledged number).leads
        · exact hacknowledged number

/-- A feedback takes every packet that is held and that it reports as received. -/
theorem Holds.results (offset : Int) {infos : List PacketInfo} (h : t.Holds e) (hkeyed : t.Keyed)
    (hnumbers : ByNumber t.history) {info : PacketInfo} (hinfo : info ∈ infos)
    (hfinite : info.arrivalTimeOffset.isFinite = true) (hkey : (info.ssrc, info.sequenceNumber) = e.rtpKey) :
    ∃ r ∈ (results offset infos t).1, r.receiveTime.isSome ∧ r.sentPacket = e.sent := by
  induction infos generalizing t with
  | nil => cases hinfo
  | cons first infos ih =>
    rw [TransportFeedbackAdapter.results]
    dsimp only
    by_cases hnow : (first.ssrc, first.sequenceNumber) = e.rtpKey ∧ first.arrivalTimeOffset.isFinite = true
    · rw [hnow.1, h.retrieve hnumbers]
      exact ⟨_, List.mem_cons_self, (isSome_receiveTime ..).trans hnow.2, rfl⟩
    · have hshrinks := t.retrievePacketFeedback_shrinks (first.ssrc, first.sequenceNumber)
        first.arrivalTimeOffset.isFinite
      have hlater : info ∈ infos := by
        obtain rfl | hlater := List.mem_cons.mp hinfo
        · exact absurd ⟨hkey, hfinite⟩ hnow
        · exact hlater
      obtain ⟨r, hr, hright⟩ := ih (h.other hkeyed hnow) (hshrinks.keyed hkeyed)
        (hnumbers.sublist hshrinks.history) hlater
      refine ⟨r, ?_, hright⟩
      cases (t.retrievePacketFeedback (first.ssrc, first.sequenceNumber)
        first.arrivalTimeOffset.isFinite).1 with
      | none => exact hr
      | some p => exact List.mem_cons_of_mem _ hr

theorem Holds.processCongestionControlFeedback (h : t.Holds e) (hkeyed : t.Keyed)
    (hnumbers : ByNumber t.history) (sort : ResultSort) (feedback : CongestionControlFeedback)
    (receiveTime : Int)
    {info : PacketInfo} (hinfo : info ∈ feedback.packets) (hfinite : info.arrivalTimeOffset.isFinite = true)
    (hkey : (info.ssrc, info.sequenceNumber) = e.rtpKey) :
    ∃ r ∈ (t.processCongestionControlFeedback sort feedback receiveTime).1.elim [] (·.packetFeedbacks),
      r.receiveTime.isSome ∧ r.sentPacket = e.sent := by
  have hholds : Holds { t with
      currentOffset := some (t.offsetAfter feedback.reportTimestampCompactNtp receiveTime)
      lastFeedbackCompactNtpTime := some feedback.reportTimestampCompactNtp } e := ⟨h.mem, h.leads, h.sent⟩
  obtain ⟨r, hr, hright⟩ := hholds.results (t.offsetAfter feedback.reportTimestampCompactNtp receiveTime)
    hkeyed hnumbers hinfo hfinite hkey
  unfold TransportFeedbackAdapter.processCongestionControlFeedback
  split
  · rename_i hnil
    rw [hnil] at hinfo
    cases hinfo
  · dsimp only
    split
    · rename_i hnil
      rw [hnil] at hr
      cases hr
    · exact ⟨r, sort.mem_sort.mpr hr, hright⟩

end TransportFeedbackAdapter

end CrossTransfer.Minirtc
