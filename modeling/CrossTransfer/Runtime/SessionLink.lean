import CrossTransfer.Library.Machine
import CrossTransfer.Transfer.CtrlCodec

/-! # The control channel of a session

`core/src/runtime/session_link.{h,cpp}`: `SendCtrl` queues the chunks of a message, and `Pump` gives
them to the transport for as long as it takes them. What the transport has accepted it delivers, in
order, to `OnCtrlChunk` of the peer.

`Pump` gives up when the transport has refused for 20 s, and clears the queue. A chunk does not say
which message it belongs to. So if the last chunk accepted was not the last one of its message, then
the peer joins what it has of that message with the next one (`not_handed_sublist`); otherwise the
messages that come out are among those that went in (`handed_sublist`).
-/

namespace CrossTransfer.Runtime

open CrossTransfer.Library
open CrossTransfer.Transfer

def kCtrlUnavailableRetryMs : Int := 50
def kCtrlUnavailableTimeoutMs : Int := 20000

/-- The sending half of `SessionLink`. The core attaches a link when it makes it, and only then. -/
structure SessionLink where
  attached : Bool := true
  ctrlQueue : List Bytes := []
  pumpScheduled : Bool := false
  ctrlUnavailableMs : Int := 0

namespace SessionLink

/-- `SendCtrl`. The callback for the give-up is not kept: what it sends is a step of its own. -/
def sendCtrl (link : SessionLink) (json : Bytes) : SessionLink :=
  { link with ctrlQueue := link.ctrlQueue ++ splitCtrlMessage json, pumpScheduled := true }

/-- The loop of `Pump`: the chunks that the transport accepts, and the link afterwards. `send n` is
    what the transport's `Send` returns when it is called for the `n`th time. -/
def pumpFrom (link : SessionLink) (send : Nat → Int) : List Bytes → List Bytes × SessionLink
  | [] => ([], { link with ctrlQueue := [] })
  | chunk :: queue =>
    if !link.attached then ([], { link with ctrlQueue := [] })
    else if send 0 = 0 then
      let (accepted, link) :=
        pumpFrom { link with ctrlUnavailableMs := 0 } (fun n => send (n + 1)) queue
      (chunk :: accepted, link)
    else if send 0 < 0 then
      let ms := link.ctrlUnavailableMs + kCtrlUnavailableRetryMs
      if kCtrlUnavailableTimeoutMs ≤ ms then
        ([], { link with ctrlQueue := [], ctrlUnavailableMs := 0 })
      else
        ([], { link with
          ctrlQueue := chunk :: queue, pumpScheduled := true, ctrlUnavailableMs := ms })
    else ([], { link with ctrlQueue := chunk :: queue, pumpScheduled := true })

/-- `Pump`, as the posted task runs it. -/
def pump (link : SessionLink) (send : Nat → Int) : List Bytes × SessionLink :=
  pumpFrom { link with pumpScheduled := false } send link.ctrlQueue

/-- `Detach`. -/
def detach (link : SessionLink) : SessionLink := { link with attached := false }

/-- The pump clears the queue of a link that is attached. -/
def givesUp (link : SessionLink) (send : Nat → Int) : Bool :=
  link.attached && !link.ctrlQueue.isEmpty && decide (send 0 < 0) &&
    decide (kCtrlUnavailableTimeoutMs ≤ link.ctrlUnavailableMs + kCtrlUnavailableRetryMs)

/-! ### What a pump does -/

theorem pumpFrom_attached (link : SessionLink) (send : Nat → Int) (queue : List Bytes) :
    (link.pumpFrom send queue).2.attached = link.attached := by
  induction queue generalizing link send with
  | nil => rfl
  | cons chunk queue ih =>
    simp only [pumpFrom]
    split
    · rfl
    · split
      · apply ih
      · split
        · split <;> rfl
        · rfl

theorem pumpFrom_detached {link : SessionLink} (h : link.attached = false) (send : Nat → Int)
    (queue : List Bytes) : (link.pumpFrom send queue).1 = [] := by
  cases queue with
  | nil => rfl
  | cons chunk queue => simp [pumpFrom, h]

/-- A pump that does not give up accepts the front of the queue and leaves the rest. It cannot give
    up any more when a chunk was accepted. -/
theorem pumpFrom_rest {link : SessionLink} (h : link.attached = true) {send : Nat → Int}
    {queue : List Bytes} (hkeep : queue ≠ [] → send 0 < 0 →
      link.ctrlUnavailableMs + kCtrlUnavailableRetryMs < kCtrlUnavailableTimeoutMs) :
    (link.pumpFrom send queue).1 ++ (link.pumpFrom send queue).2.ctrlQueue = queue := by
  induction queue generalizing link send with
  | nil => rfl
  | cons chunk queue ih =>
    obtain hnow | hrefused := eq_or_ne (send 0) 0
    · have hrest := @ih { link with ctrlUnavailableMs := 0 } h (fun n => send (n + 1))
        (fun _ _ => show (0 : Int) + 50 < 20000 by decide)
      simp only [pumpFrom, h, hnow] at hrest ⊢
      simp [hrest]
    · by_cases hdown : send 0 < 0
      · have hwait := hkeep (by simp) hdown
        simp [pumpFrom, h, hrefused, hdown, Int.not_le.mpr hwait]
      · simp [pumpFrom, h, hrefused, hdown]

theorem pump_attached (link : SessionLink) (send : Nat → Int) :
    (link.pump send).2.attached = link.attached := pumpFrom_attached ..

theorem pump_detached {link : SessionLink} (h : link.attached = false) (send : Nat → Int) :
    (link.pump send).1 = [] :=
  @pumpFrom_detached { link with pumpScheduled := false } h send link.ctrlQueue

theorem pump_rest {link : SessionLink} (h : link.attached = true) {send : Nat → Int}
    (hkeep : link.givesUp send = false) :
    (link.pump send).1 ++ (link.pump send).2.ctrlQueue = link.ctrlQueue := by
  apply @pumpFrom_rest { link with pumpScheduled := false } h
  intro hqueue hdown
  simpa [givesUp, h, hqueue, hdown] using hkeep

theorem pump_givesUp {link : SessionLink} {send : Nat → Int} (h : link.givesUp send = true) :
    link.attached = true ∧ (link.pump send).1 = [] ∧ (link.pump send).2.ctrlQueue = [] := by
  simp only [givesUp, Bool.and_eq_true, decide_eq_true_eq, Bool.not_eq_true'] at h
  obtain ⟨⟨⟨hattached, hqueue⟩, hdown⟩, hlate⟩ := h
  cases hchunks : link.ctrlQueue with
  | nil => simp [hchunks] at hqueue
  | cons chunk queue =>
    have hrefused : send 0 ≠ 0 := hdown.ne
    simp [pump, pumpFrom, hchunks, hattached, hrefused, hdown, hlate]

end SessionLink

/-! ## From one end to the other -/

/-- A link, the chunks under way and the peer; and what has passed at the three places. -/
structure Channel where
  link : SessionLink := {}
  wire : List Bytes := []
  reassembler : CtrlReassembler := {}
  passed : List Bytes := []
  accepted : List Bytes := []
  handed : List Bytes := []

inductive ChannelStep where
  | sendCtrl (json : Bytes)
  | pump (send : Nat → Int)
  | detach
  | deliver

namespace Channel

def step (s : Channel) : ChannelStep → Option Channel
  | .sendCtrl json =>
    some { s with link := s.link.sendCtrl json, passed := s.passed ++ [json] }
  | .pump send =>
    if s.link.pumpScheduled then
      let (accepted, link) := s.link.pump send
      some { s with
        link := link, wire := s.wire ++ accepted, accepted := s.accepted ++ accepted }
    else none
  | .detach => some { s with link := s.link.detach }
  | .deliver =>
    match s.wire with
    | [] => none
    | chunk :: wire =>
      let (reassembler, result) := s.reassembler.feed chunk
      some { s with
        wire := wire
        reassembler := reassembler
        handed := s.handed ++ result.toOption.join.toList }

/-- The last chunk that the transport accepted has more of its message to follow. -/
def midMessage (s : Channel) : Prop :=
  ∃ chunk, s.accepted.getLast? = some chunk ∧ chunk.head? = some 0

end Channel

def channel : Machine Channel ChannelStep where
  init := {}
  step := Channel.step

namespace Channel

/-- The messages are not too long by more than a chunk, and the pump does not give up within one. -/
def Whole (s : Channel) : ChannelStep → Prop
  | .sendCtrl json => json.length ≤ kMaxCtrlMessage + kCtrlChunk
  | .pump send => s.link.givesUp send → ¬ s.midMessage
  | .detach => True
  | .deliver => True

/-! ### What arrives -/

/-- Some of the messages passed, in order and none of them too long by more than a chunk, have
    the chunks that were accepted and, on a link that is attached, those in the queue. -/
def Framed (s : Channel) : Prop :=
  ∃ (kept : List Bytes) (rest : List Bytes), kept.Sublist s.passed ∧
    (∀ m ∈ kept, m.length ≤ kMaxCtrlMessage + kCtrlChunk) ∧
    s.accepted ++ rest = kept.flatMap splitCtrlMessage ∧
    (s.link.attached = true → rest = s.link.ctrlQueue)

/-- The peer has been fed what was accepted and is not under way. -/
def Fed (s : Channel) : Prop :=
  ∃ consumed, consumed ++ s.wire = s.accepted ∧
    CtrlReassembler.feedAll {} consumed = (s.reassembler, s.handed)

theorem flatMap_splitCtrlMessage (ms : List Bytes) :
    ms.flatMap splitCtrlMessage = (ms.flatMap (Framing.split kCtrlChunk)).map encodeChunk := by
  have hsplit : splitCtrlMessage = fun m => (Framing.split kCtrlChunk m).map encodeChunk :=
    funext splitCtrlMessage_eq
  rw [List.map_flatMap, hsplit]

/-- Where the last chunk accepted ends a message, the chunks accepted are those of whole ones. -/
theorem exists_of_not_midMessage {s : Channel} {kept rest : List (List UInt8)}
    (hchunks : s.accepted ++ rest = kept.flatMap splitCtrlMessage) (hend : ¬ s.midMessage) :
    ∃ kept', kept' <+: kept ∧ s.accepted = kept'.flatMap splitCtrlMessage := by
  rw [flatMap_splitCtrlMessage, List.append_eq_map_iff] at hchunks
  obtain ⟨ps, qs, hpieces, hps, -⟩ := hchunks
  have hlast : ∀ p, ps.getLast? = some p → p.final = true := by
    intro p hp
    by_contra hfinal
    apply hend
    refine ⟨encodeChunk p, ?_, ?_⟩
    · rw [← hps, List.getLast?_map, hp]
      rfl
    · simp [encodeChunk, hfinal]
  obtain ⟨kept', hpre, rfl⟩ := Framing.exists_of_final hpieces.symm hlast
  exact ⟨kept', hpre, by rw [← hps, flatMap_splitCtrlMessage]⟩

theorem framed_step {s s' : Channel} {a : ChannelStep} (h : s.Framed) (hwhole : s.Whole a)
    (hstep : s.step a = some s') : s'.Framed := by
  obtain ⟨kept, rest, hsub, hshort, hchunks, hrest⟩ := h
  cases a with
  | sendCtrl json =>
    obtain rfl := Option.some.inj hstep
    cases hattached : s.link.attached with
    | false =>
      refine ⟨kept, rest, hsub.trans (List.sublist_append_left ..), hshort, hchunks, ?_⟩
      simp [SessionLink.sendCtrl, hattached]
    | true =>
      refine ⟨kept ++ [json], rest ++ splitCtrlMessage json, hsub.append_right _, ?_, ?_, ?_⟩
      · rw [List.forall_mem_append, List.forall_mem_singleton]
        exact ⟨hshort, hwhole⟩
      · simp [← List.append_assoc, hchunks]
      · intro _
        simp [SessionLink.sendCtrl, hrest hattached]
  | pump send =>
    simp only [step, Option.ite_none_right_eq_some, Option.some.injEq] at hstep
    obtain ⟨-, rfl⟩ := hstep
    cases hgives : s.link.givesUp send with
    | true =>
      obtain ⟨hattached, hnone, hcleared⟩ := SessionLink.pump_givesUp hgives
      obtain ⟨kept', hpre, hends⟩ := exists_of_not_midMessage hchunks (hwhole hgives)
      refine ⟨kept', [], hpre.sublist.trans hsub, fun m hm => hshort m (hpre.subset hm), ?_, ?_⟩
      · simp [hnone, hends]
      · simp [hcleared]
    | false =>
      cases hattached : s.link.attached with
      | false =>
        refine ⟨kept, rest, hsub, hshort, ?_, ?_⟩
        · simp [SessionLink.pump_detached hattached, hchunks]
        · simp [SessionLink.pump_attached, hattached]
      | true =>
        refine ⟨kept, (s.link.pump send).2.ctrlQueue, hsub, hshort, ?_, fun _ => rfl⟩
        show s.accepted ++ (s.link.pump send).1 ++ (s.link.pump send).2.ctrlQueue = _
        rw [List.append_assoc, SessionLink.pump_rest hattached hgives, ← hrest hattached, hchunks]
  | detach =>
    obtain rfl := Option.some.inj hstep
    exact ⟨kept, rest, hsub, hshort, hchunks, by simp [SessionLink.detach]⟩
  | deliver =>
    cases hwire : s.wire with
    | nil => simp [step, hwire] at hstep
    | cons chunk wire =>
      simp only [step, hwire, Option.some.injEq] at hstep
      subst hstep
      exact ⟨kept, rest, hsub, hshort, hchunks, hrest⟩

theorem fed_step {s s' : Channel} {a : ChannelStep} (h : s.Fed) (hstep : s.step a = some s') :
    s'.Fed := by
  obtain ⟨consumed, hwire, hfed⟩ := h
  cases a with
  | sendCtrl json =>
    obtain rfl := Option.some.inj hstep
    exact ⟨consumed, hwire, hfed⟩
  | pump send =>
    simp only [step, Option.ite_none_right_eq_some, Option.some.injEq] at hstep
    obtain ⟨-, rfl⟩ := hstep
    exact ⟨consumed, by simp [← hwire], hfed⟩
  | detach =>
    obtain rfl := Option.some.inj hstep
    exact ⟨consumed, hwire, hfed⟩
  | deliver =>
    cases hchunk : s.wire with
    | nil => simp [step, hchunk] at hstep
    | cons chunk wire =>
      simp only [step, hchunk, Option.some.injEq] at hstep
      subst hstep
      refine ⟨consumed ++ [chunk], by simp [← hwire, hchunk], ?_⟩
      rw [CtrlReassembler.feedAll_snoc, hfed]

/-- What the peer hands on is among the messages whose chunks were accepted. -/
theorem handed_of_framed {s : Channel} (hframed : s.Framed) (hfed : s.Fed) :
    s.handed.Sublist s.passed := by
  obtain ⟨kept, rest, hsub, hshort, hchunks, -⟩ := hframed
  obtain ⟨consumed, hwire, hfed⟩ := hfed
  rw [← hwire, List.append_assoc, flatMap_splitCtrlMessage, List.append_eq_map_iff] at hchunks
  obtain ⟨ps, qs, hpieces, hps, -⟩ := hchunks
  have hhanded : s.handed = (Framing.receive kMaxCtrlMessage [] ps).2 := by
    rw [← hps, feedAll_map_encodeChunk] at hfed
    exact (congrArg Prod.snd hfed).symm
  have hfits : ∀ m ∈ kept, Framing.Fits kCtrlChunk kMaxCtrlMessage m := by
    intro m hm
    have hlength := hshort m hm
    simp only [Framing.Fits, kCtrlChunk, kMaxCtrlMessage] at hlength ⊢
    omega
  have hall : (Framing.receive kMaxCtrlMessage [] (ps ++ qs)).2 =
      kept.filter (·.length ≤ kMaxCtrlMessage) := by
    rw [← hpieces, Framing.receive_stream kCtrlChunk_pos hfits]
  have hbegin : s.handed <+: kept.filter (·.length ≤ kMaxCtrlMessage) := by
    rw [hhanded, ← hall]
    exact Framing.receive_mono [] (List.prefix_append ..)
  exact hbegin.sublist.trans (List.filter_sublist.trans hsub)

/-- In a run of whole messages every message that is handed on was passed, in this order. -/
theorem handed_sublist {as : List ChannelStep} {s : Channel} (run : channel.Run Whole as s) :
    s.handed.Sublist s.passed := by
  have hinv : s.Framed ∧ s.Fed := by
    apply run.invariant (fun s => s.Framed ∧ s.Fed)
    · exact ⟨⟨[], [], List.nil_sublist _, by simp, rfl, fun _ => rfl⟩, [], rfl, rfl⟩
    · intro s a s' ⟨hframed, hfed⟩ hwhole hstep
      exact ⟨framed_step hframed hwhole hstep, fed_step hfed hstep⟩
  exact handed_of_framed hinv.1 hinv.2

/-- Two short messages; the transport refuses once between their chunks. -/
theorem handed_sublist_two : ∃ s : Channel, s.handed = [[1], [2]] ∧
    channel.Run Whole [.sendCtrl [1], .sendCtrl [2], .pump fun n => n, .pump fun _ => 0,
      .deliver, .deliver] s ∧ s.handed.Sublist s.passed := by
  have hone : splitCtrlMessage [1] = [[1, 1]] := splitCtrlMessage_short (by decide)
  have htwo : splitCtrlMessage [2] = [[1, 2]] := splitCtrlMessage_short (by decide)
  have hexec : channel.exec [.sendCtrl [1], .sendCtrl [2], .pump fun n => n, .pump fun _ => 0,
      .deliver, .deliver] channel.init =
        some { passed := [[1], [2]], accepted := [[1, 1], [1, 2]], handed := [[1], [2]] } := by
    simp [Machine.exec, channel, step, SessionLink.sendCtrl, hone, htwo, SessionLink.pump,
      SessionLink.pumpFrom]
    decide
  have run : channel.Run Whole _ _ := Machine.Run.of_exec
    (by simp [Whole, SessionLink.givesUp, kMaxCtrlMessage, kCtrlChunk]) hexec
  exact ⟨_, rfl, run, handed_sublist run⟩

/-! ### A message that is cut off -/

/-- The first chunk of a message. -/
def front : Bytes := List.replicate kCtrlChunk 0

/-- The first of two chunks is accepted, and the other one has been refused `n` times. -/
def refused (n : Nat) : Channel where
  link := { ctrlQueue := [[1, 7]], pumpScheduled := true, ctrlUnavailableMs := 50 * n }
  wire := [0 :: front]
  passed := [front ++ [7]]
  accepted := [0 :: front]

theorem splitCtrlMessage_front : splitCtrlMessage (front ++ [7]) = [0 :: front, [1, 7]] := by
  have hlength : front.length = kCtrlChunk := List.length_replicate
  rw [splitCtrlMessage_eq, Framing.split_of_lt kCtrlChunk_pos (by simp [hlength]),
    Framing.split_of_le (by simp [hlength, kCtrlChunk])]
  simp [encodeChunk, ← hlength]

theorem exec_front :
    channel.exec [.sendCtrl (front ++ [7]), .pump fun n => if n = 0 then 0 else -1] {} =
      some (refused 1) := by
  simp [Machine.exec, channel, step, SessionLink.sendCtrl, splitCtrlMessage_front, SessionLink.pump,
    SessionLink.pumpFrom, refused, kCtrlUnavailableRetryMs, kCtrlUnavailableTimeoutMs]

theorem refused_step {n : Nat} (h : n + 1 < 400) :
    channel.step (refused n) (.pump fun _ => -1) = some (refused (n + 1)) := by
  have hwait : ¬ kCtrlUnavailableTimeoutMs ≤ 50 * (n : Int) + kCtrlUnavailableRetryMs := by
    simp only [kCtrlUnavailableTimeoutMs, kCtrlUnavailableRetryMs]
    omega
  simp [channel, step, refused, SessionLink.pump, SessionLink.pumpFrom, hwait]
  simp [kCtrlUnavailableRetryMs]
  omega

theorem refused_exec {n m : Nat} (h : n + m < 400) :
    channel.exec (List.replicate m (.pump fun _ => -1)) (refused n) = some (refused (n + m)) := by
  induction m generalizing n with
  | zero => rfl
  | succ m ih =>
    rw [List.replicate_succ, Machine.exec, refused_step (by omega), Option.bind_some, ih (by omega),
      Nat.add_right_comm, Nat.add_assoc]

/-- After the 400th refusal the rest of the message is gone, and the next one is sent. -/
theorem exec_next : channel.exec [.pump fun _ => -1, .sendCtrl [9], .pump fun _ => 0, .deliver,
      .deliver] (refused 399) =
    some { passed := [front ++ [7], [9]], accepted := [0 :: front, [1, 9]],
           handed := [front ++ [9]] } := by
  have hnine : splitCtrlMessage [9] = [[1, 9]] := splitCtrlMessage_short (by decide)
  have hlength : front.length = kCtrlChunk := List.length_replicate
  simp [Machine.exec, channel, step, SessionLink.sendCtrl, hnine, SessionLink.pump,
    SessionLink.pumpFrom, refused, kCtrlUnavailableRetryMs, kCtrlUnavailableTimeoutMs,
    CtrlReassembler.feed, hlength, kCtrlChunk, kMaxCtrlMessage, Except.toOption]

/-- The transport accepts one of two chunks and refuses for 20 s: the peer gets the beginning of
    this message and the whole next one as one message. -/
theorem not_handed_sublist : ¬ ∀ (as : List ChannelStep) (s : Channel),
    channel.Run Machine.anyStep as s → s.handed.Sublist s.passed := by
  intro h
  have hexec : channel.exec ([.sendCtrl (front ++ [7]), .pump fun n => if n = 0 then 0 else -1] ++
      (List.replicate 398 (.pump fun _ => -1) ++
        [.pump fun _ => -1, .sendCtrl [9], .pump fun _ => 0, .deliver, .deliver])) channel.init =
      some { passed := [front ++ [7], [9]], accepted := [0 :: front, [1, 9]],
             handed := [front ++ [9]] } := by
    have hstart : channel.exec _ channel.init = _ := exec_front
    rw [Machine.exec_append, hstart, Option.bind_some, Machine.exec_append,
      refused_exec (by decide), Option.bind_some]
    exact exec_next
  have hmem : front ++ [9] ∈ [front ++ [7], [9]] :=
    (h _ _ (Machine.run_of_exec hexec)).subset (List.mem_singleton_self _)
  have hlength : front.length = kCtrlChunk := List.length_replicate
  have hnine : front ++ [9] ≠ [9] := fun heq => by
    have hlong := congrArg List.length heq
    rw [List.length_append, hlength] at hlong
    exact absurd hlong (by decide)
  simp [hnine] at hmem

end Channel

end CrossTransfer.Runtime
