import CrossTransfer.Minirtc.PacketQueueInvariant

/-! # The operations of the queue of the pacer

A queue that holds the packets of a list (`Holds`) holds what is left of it after packets were popped
(`pop_eq`) or removed (`removePacketsForSsrc_eq`), and one more after a packet was pushed (`push_eq`).
-/

namespace CrossTransfer.Minirtc

open CrossTransfer.Library

namespace PrioritizedPacketQueue

variable {c : QueueConfiguration} {q q' : PrioritizedPacketQueue} {held gone : List QueuedPacket}
  {pending : List TimeNode} {p : QueuedPacket} {ssrc : UInt32} {level : PriorityLevel}

/-! ## Popping a packet -/

variable (c q held) in
/-- A queue that holds the packets of a list, in the order in which they were pushed. -/
structure Holds : Prop where
  accounts : q.Accounts held []
  places : q.Places c held
  registered : q.Registered
  top : q.TopFound

variable (c q q' held) in
/-- What is popped from a queue, and what is dropped then. -/
structure Pops (out : Popped) : Prop where
  holds : Holds c q' (held.diff (out.packet :: out.dropped))
  subset : out.packet :: out.dropped ⊆ held
  apart : (out.packet :: out.dropped).Nodup
  least : ∀ p ∈ held, c.prioLevel out.packet.packet ≤ c.prioLevel p.packet
  oldest : (held.filter (InQueue c out.packet.packet.ssrc (c.prioLevel out.packet.packet))).head? =
    some out.packet
  turn : (q.streamsByPrio (c.prioLevel out.packet.packet)).head? = some out.packet.packet.ssrc
  time : out.timeInSendQueue = q.timeInNonPausedState out.packet
  expired : ∀ p ∈ out.dropped, Expired c q.lastUpdateTime p
  kept : Kept q q'
  inOrder : ∀ level, (q'.streamsByPrio level).Sublist
    (if level = c.prioLevel out.packet.packet then
      (q.streamsByPrio level).tail ++ [out.packet.packet.ssrc] else q.streamsByPrio level)

theorem TopFound.least (h : q.TopFound) {top : PriorityLevel} (htop : q.topActivePrioLevel = some top)
    (hsome : q.streamsByPrio level ≠ []) : top ≤ level := by
  simp only [TopFound, htop] at h
  by_contra hlt
  exact hsome (h.2 level (not_le.mp hlt))

/-- The first packet of the next stream, and the stream goes to the end. -/
theorem leaves_pop (h : Holds c q held) {stream : StreamQueue} {ssrcs : List UInt32} {rest : List QueuedPacket}
    (hqueues : q.streamsByPrio level = ssrc :: ssrcs) (hstream : q.streams[ssrc]? = some stream)
    (hpackets : stream.packets level = p :: rest) {q₁ : PrioritizedPacketQueue}
    (hq₁ : { q.dequeueFront ssrc stream level [p] rest with
      streamsByPrio := Function.update (q.dequeueFront ssrc stream level [p] rest).streamsByPrio level
        (ssrcs ++ if rest.isEmpty then [] else [ssrc]) } = q₁) :
    Leaves c q q₁ held [p] [] ∧ q₁.Registered ∧ q₁.topActivePrioLevel = q.topActivePrioLevel ∧
      (∀ level', q₁.streamsByPrio level' = if level' = level then
        ssrcs ++ if rest.isEmpty then [] else [ssrc] else q.streamsByPrio level') := by
  obtain ⟨hleaves, hprio, htop⟩ := leaves_dequeueFront h.accounts h.places hstream
    (show stream.packets level = [p] ++ rest from hpackets)
  have hcounted := hleaves.accounts
  have hkept := hleaves.kept
  have hleaves' : Leaves c q q₁ held [p] [] := by
    rw [← hq₁]
    exact ⟨⟨hcounted.times, hcounted.apart, hcounted.fresh, hcounted.size, hcounted.perType,
      hcounted.payload, hcounted.time⟩, ⟨hleaves.places.queues, hleaves.places.keyframes⟩,
      ⟨hkept.1, hkept.2, hkept.3, hkept.4, hkept.5⟩, hleaves.subset, hleaves.apart,
      hleaves.streams⟩
  have hstreams (level' : PriorityLevel) : q₁.streamsByPrio level' = if level' = level then
      ssrcs ++ if rest.isEmpty then [] else [ssrc] else q.streamsByPrio level' := by
    rw [← hq₁, hprio]
    exact Function.update_apply ..
  have hnodup := h.accounts.nodup
  have hin : InQueue c ssrc level p = true := by
    have hmem : p ∈ q.packetsAt ssrc level := by simp [packetsAt, hstream, hpackets]
    rw [h.places.queues] at hmem
    exact (List.mem_filter.mp hmem).2
  simp only [InQueue, decide_eq_true_eq] at hin
  -- The packets differ in their nodes, so that only the first of the queue leaves.
  have hrest : q₁.packetsAt ssrc level = rest := by
    have hall : (p :: rest).Nodup := by
      have hqueue := h.places.queues ssrc level
      simp only [packetsAt, hstream, Option.elim_some, hpackets] at hqueue
      rw [hqueue]
      exact hnodup.filter _
    have hkeep : rest.filter (· ∉ [p]) = rest := by
      rw [List.filter_eq_self]
      intro p' hp'
      have hne : p' ≠ p := fun heq => (List.nodup_cons.mp hall).1 (heq ▸ hp')
      simpa using hne
    rw [hleaves'.packetsAt hnodup h.places]
    simp only [packetsAt, hstream, Option.elim_some, hpackets]
    rw [List.filter_cons_of_neg (by simp), hkeep]
  have hsame {ssrc' : UInt32} {level' : PriorityLevel} (hother : ssrc' ≠ ssrc ∨ level' ≠ level) :
      q₁.packetsAt ssrc' level' = q.packetsAt ssrc' level' := by
    apply hleaves'.packetsAt_of_apart hnodup h.places
    intro p' hp'
    obtain rfl := List.mem_singleton.mp hp'
    simp only [InQueue, decide_eq_false_iff_not]
    rintro ⟨hs, hl⟩
    obtain hother | hother := hother
    · exact hother (hs.symm.trans hin.1)
    · exact hother (hl.symm.trans hin.2)
  have hapart := h.registered.apart level
  rw [hqueues, List.nodup_cons] at hapart
  -- A stream that has packets left goes to the end of the turn, any other leaves the turn.
  refine ⟨hleaves', ⟨fun level' => ?_, fun level' ssrc' => ?_⟩, ?_, hstreams⟩
  · rw [hstreams]
    split
    · cases rest with
      | nil => simpa using hapart.2
      | cons _ _ =>
        rw [List.nodup_append]
        refine ⟨hapart.2, by simp, fun s hs s' hs' heq => ?_⟩
        obtain rfl : s' = ssrc := by simpa using hs'
        exact hapart.1 (heq ▸ hs)
    · exact h.registered.apart level'
  · rw [hstreams]
    split
    · rename_i hlevel
      subst hlevel
      by_cases hs : ssrc' = ssrc
      · subst hs
        rw [hrest]
        cases rest <;> simp [hapart.1]
      · rw [hsame (.inl hs), ← h.registered.mem_iff, hqueues]
        cases rest <;> simp [hs]
    · rename_i hlevel
      rw [hsame (.inr hlevel), h.registered.mem_iff]
  · rw [← hq₁]
    exact htop

/-- An empty queue has nothing to pop. -/
theorem pop_of_nil (h : Holds c q []) : q.pop c = some (q, none) := if_pos h.accounts.size

theorem pop_eq (h : Holds c q held) (hsome : held ≠ []) :
    ∃ q' out, q.pop c = some (q', some out) ∧ Pops c q q' held out := by
  have hsize : q.sizePackets ≠ 0 := by
    rw [h.accounts.size]
    simpa using hsome
  have htopFound := h.top
  obtain ⟨p₀, hp₀⟩ := List.exists_mem_of_ne_nil held hsome
  have hmem₀ := streamsByPrio_of_mem h.places h.registered hp₀
  cases htop : q.topActivePrioLevel with
  | none =>
    simp only [TopFound, htop] at htopFound
    rw [htopFound] at hmem₀
    cases hmem₀
  | some level =>
    simp only [TopFound, htop] at htopFound
    obtain ⟨ssrc, ssrcs, hqueues⟩ := List.exists_cons_of_ne_nil htopFound.1
    have hactive : q.packetsAt ssrc level ≠ [] := (h.registered.mem_iff level ssrc).mp (by simp [hqueues])
    obtain ⟨stream, hstream, hpacketsAt⟩ := exists_stream hactive
    obtain ⟨p, rest, hpackets⟩ := List.exists_cons_of_ne_nil (hpacketsAt ▸ hactive)
    obtain ⟨q₁, hq₁⟩ : ∃ q₁, { q.dequeueFront ssrc stream level [p] rest with
        streamsByPrio := Function.update (q.dequeueFront ssrc stream level [p] rest).streamsByPrio level
          (ssrcs ++ if rest.isEmpty then [] else [ssrc]) } = q₁ := ⟨_, rfl⟩
    obtain ⟨hleaves, hregistered, htop₁, hstreams⟩ := leaves_pop h hqueues hstream hpackets hq₁
    have hnodup := h.accounts.nodup
    have hqueue := h.places.queues ssrc level
    rw [hpacketsAt, hpackets] at hqueue
    have hp : p ∈ held ∧ InQueue c ssrc level p = true := List.mem_filter.mp (hqueue ▸ List.mem_cons_self ..)
    have hin := hp.2
    simp only [InQueue, decide_eq_true_eq] at hin
    have hprio := (leaves_dequeueFront h.accounts h.places hstream
      (show stream.packets level = [p] ++ rest from hpackets)).2.1
    -- The first priority may have lost its last packet.
    have hdrops : ∃ q' dropped, (if rest.isEmpty then q₁.maybeUpdateTopPrioLevel c else some (q₁, [])) =
        some (q', dropped) ∧ Drops c q₁ q' (held.diff [p]) dropped [] q₁.lastUpdateTime ∧ q'.TopFound := by
      cases rest with
      | nil =>
        apply maybeUpdateTopPrioLevel_eq hleaves.accounts hleaves.places hregistered
        intro top htop' level' hlt
        obtain rfl : level = top := Option.some.inj ((htop₁.trans htop).symm.trans htop')
        rw [hstreams, if_neg hlt.ne]
        exact htopFound.2 level' hlt
      | cons p' rest' =>
        refine ⟨q₁, [], rfl, .nil hleaves.accounts hleaves.places hregistered _, ?_⟩
        simp only [TopFound, htop₁.trans htop]
        refine ⟨by simp [hstreams], fun level' hlt => ?_⟩
        rw [hstreams, if_neg hlt.ne]
        exact htopFound.2 level' hlt
    obtain ⟨q', dropped, hdrop, hdrops, htop'⟩ := hdrops
    have hall := hleaves.trans hnodup hdrops.toLeaves
    refine ⟨q', ⟨p, q.timeInNonPausedState p, dropped⟩, ?_, ?_⟩
    · have hqueues₁ : (q.dequeueFront ssrc stream level [p] rest).streamsByPrio level = ssrc :: ssrcs := by
        rw [hprio, hqueues]
      simp only [pop, if_neg hsize, htop, hqueues, hstream, hpackets, List.head?_cons, List.tail_cons,
        Option.bind_eq_bind, Option.bind_some, hqueues₁, hq₁]
      cases hempty : rest.isEmpty with
      | true =>
        rw [hempty, if_pos rfl] at hdrop
        simp only [if_true, hdrop, Option.bind_some]
        rfl
      | false =>
        rw [hempty, if_neg Bool.false_ne_true, Option.some.injEq, Prod.mk.injEq] at hdrop
        rw [if_neg Bool.false_ne_true, ← hdrop.1, ← hdrop.2]
        rfl
    · have hlevel : c.prioLevel p.packet = level := hin.2
      have hssrc : p.packet.ssrc = ssrc := hin.1
      constructor
      · exact ⟨hall.accounts, hall.places, hdrops.registered, htop'⟩
      · exact hall.subset
      · exact hall.apart
      · intro p' hp'
        have hmem := streamsByPrio_of_mem h.places h.registered hp'
        exact hlevel.trans_le (h.top.least htop (List.ne_nil_of_mem hmem))
      · rw [hssrc, hlevel, ← hqueue]
        rfl
      · rw [hssrc, hlevel, hqueues]
        rfl
      · rfl
      · rw [← hleaves.kept.lastUpdateTime]
        exact hdrops.expired
      · exact hall.kept
      · intro level'
        have hsub := hdrops.inOrder level'
        rw [hstreams] at hsub
        rw [hlevel, hssrc]
        split at hsub
        · rename_i heq
          subst heq
          rw [if_pos rfl, hqueues, List.tail_cons]
          refine hsub.trans ?_
          cases rest <;> simp
        · rename_i hne
          rwa [if_neg hne]

/-! ## Pushing a packet -/

section Push

variable {queued : QueuedPacket} {enqueueTime : Int} {packet : RtpPacketToSend}

/-- A stream without packets may be there. -/
theorem withStream_eq (hplaces : q.Places c held) (enqueueTime : Int) (ssrc : UInt32) :
    ∃ streams, q.withStream enqueueTime ssrc = { q with streams := streams } ∧
      (∃ stream, streams[ssrc]? = some stream) ∧
      (∀ s level, ({ q with streams := streams } : PrioritizedPacketQueue).packetsAt s level =
        q.packetsAt s level) ∧ Places c { q with streams := streams } held := by
  cases hstream : q.streams[ssrc]? with
  | some stream => exact ⟨q.streams, by simp [withStream, hstream], ⟨stream, hstream⟩, fun _ _ => rfl, hplaces⟩
  | none =>
    have hget (s : UInt32) : (q.streams.insert ssrc { lastEnqueueTime := enqueueTime })[s]? =
        if s = ssrc then some { lastEnqueueTime := enqueueTime } else q.streams[s]? :=
      OrderedMap.get_insert ..
    have hsame (s : UInt32) (level : PriorityLevel) : ({ q with
        streams := q.streams.insert ssrc { lastEnqueueTime := enqueueTime } } :
          PrioritizedPacketQueue).packetsAt s level = q.packetsAt s level := by
      simp only [packetsAt, hget]
      split
      · rename_i hs
        rw [hs, hstream]
        rfl
      · rfl
    refine ⟨_, by simp [withStream, hstream], ⟨_, by rw [hget, if_pos rfl]⟩, hsame,
      ⟨fun s level => (hsame s level).trans (hplaces.queues s level), fun s t ht => ?_⟩⟩
    change (q.streams.insert ssrc _)[s]? = some t at ht
    rw [hget] at ht
    split at ht
    · rename_i hs
      cases ht
      -- No packet of the stream is held.
      symm
      rw [Int.natCast_eq_zero, List.countP_eq_zero]
      intro p hp hkey
      simp only [IsKeyframeOf, Bool.decide_and, Bool.decide_eq_true, Bool.and_eq_true,
        decide_eq_true_eq] at hkey
      have hqueue := hplaces.queues ssrc (c.prioLevel p.packet)
      simp only [packetsAt, hstream, Option.elim_none] at hqueue
      have hmem : p ∈ held.filter (InQueue c ssrc (c.prioLevel p.packet)) :=
        List.mem_filter.mpr ⟨hp, by simp [InQueue, hkey.1, hs]⟩
      rw [← hqueue] at hmem
      cases hmem
    · exact hplaces.keyframes s t ht

theorem Accounts.insertTime (h : q.Accounts held []) (time : Int) :
    (q.insertTime time).Accounts held [⟨q.nextAddress, time⟩] where
  times := by simp [PrioritizedPacketQueue.insertTime, h.times]
  apart := by
    rw [PrioritizedPacketQueue.insertTime, List.nodup_append]
    refine ⟨h.apart, by simp, fun node hmem node' hnode heq => ?_⟩
    obtain rfl := List.mem_singleton.mp hnode
    have hfresh := h.fresh node hmem
    rw [heq] at hfresh
    exact lt_irrefl _ hfresh
  fresh := by
    intro node hmem
    obtain hmem | hmem := List.mem_append.mp hmem
    · exact Nat.lt_succ_of_lt (h.fresh node hmem)
    · obtain rfl := List.mem_singleton.mp hmem
      exact Nat.lt_succ_self _
  size := h.size
  perType := h.perType
  payload := h.payload
  time := h.time

/-- Time in a queue goes on for all packets, or for none. -/
theorem Accounts.updateAverageQueueTime (h : q.Accounts held pending) (now : Int) :
    (q.updateAverageQueueTime now).Accounts held pending := by
  unfold PrioritizedPacketQueue.updateAverageQueueTime
  split
  · exact h
  · refine ⟨h.times, h.apart, h.fresh, h.size, h.perType, h.payload, ?_⟩
    have hsum (extra : Int) : (held.map fun p => q.timeInNonPausedState p + extra).sum =
        (held.map q.timeInNonPausedState).sum + extra * held.length := by
      rw [List.sum_map_add]
      simp [mul_comm]
    have htime := h.time
    have hsize := h.size
    cases q.paused with
    | true =>
      have hsame : (held.map fun p => now - p.enqueueTime - (q.pauseTimeSum + (now - q.lastUpdateTime))) =
          held.map q.timeInNonPausedState := by
        apply List.map_congr_left
        intro p _
        simp only [timeInNonPausedState]
        omega
      change q.queueTimeSum =
        (held.map fun p => now - p.enqueueTime - (q.pauseTimeSum + (now - q.lastUpdateTime))).sum
      rw [hsame, htime]
    | false =>
      have hmore : (held.map fun p => now - p.enqueueTime - q.pauseTimeSum) =
          held.map fun p => q.timeInNonPausedState p + (now - q.lastUpdateTime) := by
        apply List.map_congr_left
        intro p _
        simp only [timeInNonPausedState]
        omega
      change q.queueTimeSum + (now - q.lastUpdateTime) * q.sizePackets =
        (held.map fun p => now - p.enqueueTime - q.pauseTimeSum).sum
      rw [hmore, hsum, hsize, htime]

theorem updateAverageQueueTime_lastUpdateTime (q : PrioritizedPacketQueue) (now : Int) :
    (q.updateAverageQueueTime now).lastUpdateTime = now := by
  unfold updateAverageQueueTime
  split
  · rename_i h
    exact h.symm
  · rfl

/-- The time is all that changes. -/
theorem updateAverageQueueTime_frame (q : PrioritizedPacketQueue) (now : Int) :
    (q.updateAverageQueueTime now).streams = q.streams ∧
      (q.updateAverageQueueTime now).streamsByPrio = q.streamsByPrio ∧
      (q.updateAverageQueueTime now).topActivePrioLevel = q.topActivePrioLevel ∧
      (q.updateAverageQueueTime now).nextAddress = q.nextAddress := by
  unfold updateAverageQueueTime
  split <;> exact ⟨rfl, rfl, rfl, rfl⟩

/-- A packet that has not waited yet is counted. -/
theorem Accounts.enqueue (h : q.Accounts held [queued.enqueueTimeIterator])
    (hnow : q.timeInNonPausedState queued = 0) {stream : StreamQueue}
    (hstream : q.streams[queued.packet.ssrc]? = some stream) :
    ∃ q', q.enqueue c queued = some q' ∧ q'.Accounts (held ++ [queued]) [] := by
  refine ⟨_, by rw [PrioritizedPacketQueue.enqueue, hstream]; rfl, ?_⟩
  refine ⟨?_, h.apart, h.fresh, ?_, fun type => ?_, ?_, ?_⟩
  · simp [h.times]
  · simp [h.size]
  · have htype := h.perType type
    change Function.update q.sizePacketsPerMediaType queued.packet.packetType _ type = _
    by_cases hsame : queued.packet.packetType = type
    · simp [hsame, htype, List.countP_append]
    · simp [Function.update_of_ne (Ne.symm hsame), htype, List.countP_append, hsame]
  · simp [h.payload]
  · have htime := h.time
    change q.queueTimeSum = ((held ++ [queued]).map q.timeInNonPausedState).sum
    simp [htime, hnow]

variable (q) in
/-- The first priority that has packets, if a packet is about to come at one. -/
def TopBut (target : PriorityLevel) : Prop :=
  match q.topActivePrioLevel with
  | none => ∀ level ≠ target, q.streamsByPrio level = []
  | some top => (top ≠ target → q.streamsByPrio top ≠ []) ∧
    ∀ level < top, level ≠ target → q.streamsByPrio level = []

theorem TopFound.topBut (h : q.TopFound) {target : PriorityLevel} {now : Int}
    (hpurged : Purged c q q' held gone pending target now) : q'.TopBut target := by
  have htop := hpurged.top
  cases hfound : q.topActivePrioLevel with
  | none =>
    rw [hfound] at htop
    simp only [TopFound, hfound] at h
    simp only [TopBut, htop]
    intro level hne
    rw [hpurged.others level hne, h level]
  | some top =>
    rw [hfound] at htop
    simp only [TopFound, hfound] at h
    simp only [TopBut, htop]
    refine ⟨fun hne => ?_, fun level hlt hne => ?_⟩
    · rw [hpurged.others top hne]
      exact h.1
    · rw [hpurged.others level hne]
      exact h.2 level hlt

/-- The packet is the last one of its stream. -/
theorem Places.enqueue (h : q.Places c held) {stream : StreamQueue}
    (hstream : q.streams[queued.packet.ssrc]? = some stream)
    (hstreams : q'.streams =
      q.streams.insert queued.packet.ssrc (stream.enqueuePacket (c.prioLevel queued.packet) queued)) :
    q'.Places c (held ++ [queued]) := by
  have hget (s : UInt32) : q'.streams[s]? = if s = queued.packet.ssrc then
      some (stream.enqueuePacket (c.prioLevel queued.packet) queued) else q.streams[s]? := by
    rw [hstreams]
    exact OrderedMap.get_insert ..
  constructor
  · intro s level
    have hbefore := h.queues s level
    rw [List.filter_append, ← hbefore]
    by_cases hs : s = queued.packet.ssrc
    · simp only [packetsAt, hget, hs, if_true, hstream, Option.elim_some, StreamQueue.enqueuePacket]
      by_cases hlevel : level = c.prioLevel queued.packet
      · subst hlevel
        simp [InQueue]
      · simp [InQueue, Function.update_of_ne hlevel, Ne.symm hlevel]
    · simp [packetsAt, hget, hs, InQueue, Ne.symm hs]
  · intro s t ht
    rw [hget] at ht
    rw [List.countP_append]
    split at ht
    · rename_i hs
      cases ht
      have hbefore := h.keyframes _ stream hstream
      subst hs
      cases hkey : queued.packet.isKeyFrame <;>
        simp [StreamQueue.enqueuePacket, hbefore, IsKeyframeOf, hkey]
    · rename_i hs
      rw [h.keyframes s t ht]
      simp [IsKeyframeOf, Ne.symm hs]

/-- Where a packet goes that is pushed. -/
theorem enqueue_eq (haccounts : q.Accounts held [queued.enqueueTimeIterator]) (hplaces : q.Places c held)
    (hregistered : q.Registered) (htop : q.TopBut (c.prioLevel queued.packet)) {stream : StreamQueue}
    (hstream : q.streams[queued.packet.ssrc]? = some stream) (hnow : q.timeInNonPausedState queued = 0) :
    ∃ q', q.enqueue c queued = some q' ∧ Holds c q' (held ++ [queued]) ∧
      q'.lastUpdateTime = q.lastUpdateTime ∧ q'.nextAddress = q.nextAddress ∧
      ∀ level, q'.streamsByPrio level = q.streamsByPrio level ∨
        q'.streamsByPrio level = q.streamsByPrio level ++ [queued.packet.ssrc] := by
  obtain ⟨q', henqueue, hcounted⟩ := haccounts.enqueue (c := c) hnow hstream
  refine ⟨q', henqueue, ?_⟩
  rw [enqueue, hstream] at henqueue
  obtain ⟨target, htarget⟩ : ∃ level, c.prioLevel queued.packet = level := ⟨_, rfl⟩
  have hstreams : q'.streams = q.streams.insert queued.packet.ssrc
      (stream.enqueuePacket (c.prioLevel queued.packet) queued) := by
    obtain rfl := Option.some.inj henqueue
    rfl
  have hprio (level : PriorityLevel) : q'.streamsByPrio level =
      if level = target ∧ stream.hasPacketsAtPrio target = false then
        q.streamsByPrio level ++ [queued.packet.ssrc] else q.streamsByPrio level := by
    obtain rfl := Option.some.inj henqueue
    cases hhas : stream.hasPacketsAtPrio target <;> by_cases hlevel : level = target <;>
      simp [htarget, hhas, hlevel]
  have htop' : q'.topActivePrioLevel =
      if q.topActivePrioLevel.all (target < ·) then some target else q.topActivePrioLevel := by
    obtain rfl := Option.some.inj henqueue
    rw [← htarget]
  have hplaces' := hplaces.enqueue hstream hstreams
  -- The stream is in the turn of a priority while it has packets of it, so that it is not added twice.
  have hhas : stream.hasPacketsAtPrio target = true ↔ queued.packet.ssrc ∈ q.streamsByPrio target := by
    simp [hregistered.mem_iff, packetsAt, hstream, StreamQueue.hasPacketsAtPrio]
  have hmem : queued.packet.ssrc ∈ q'.streamsByPrio target := by
    rw [hprio]
    cases hnew : stream.hasPacketsAtPrio target with
    | true => simpa using hhas.mp hnew
    | false => simp
  have hregistered' : q'.Registered := by
    constructor
    · intro level
      rw [hprio]
      split
      · rename_i hnew
        rw [List.nodup_append]
        refine ⟨hregistered.apart level, by simp, fun s hs s' hs' heq => ?_⟩
        obtain rfl := List.mem_singleton.mp hs'
        rw [heq, hnew.1, ← hhas, hnew.2] at hs
        cases hs
      · exact hregistered.apart level
    · intro level s
      rw [hplaces'.queues, List.filter_append, ← hplaces.queues]
      by_cases hqueue : InQueue c s level queued = true
      · simp only [InQueue, decide_eq_true_eq] at hqueue
        obtain ⟨rfl, hlevel⟩ := hqueue
        obtain rfl := htarget.symm.trans hlevel
        simpa [InQueue, hlevel] using hmem
      · have hother : ([queued].filter (InQueue c s level)) = [] := by simp [hqueue]
        rw [hother, List.append_nil, ← hregistered.mem_iff, hprio]
        split
        · rename_i hnew
          have hs : s ≠ queued.packet.ssrc := by
            intro heq
            simp [InQueue, heq, htarget, hnew.1] at hqueue
          simp [hs]
        · rfl
  have hother (level : PriorityLevel) (hne : level ≠ target) :
      q'.streamsByPrio level = q.streamsByPrio level := by
    rw [hprio, if_neg fun h => hne h.1]
  refine ⟨⟨hcounted, hplaces', hregistered', ?_⟩, ?_, ?_, fun level => ?_⟩
  · rw [htarget] at htop
    cases hfound : q.topActivePrioLevel with
    | none =>
      simp only [TopBut, hfound] at htop
      simp only [hfound, Option.all_none, if_true] at htop'
      simp only [TopFound, htop']
      refine ⟨List.ne_nil_of_mem hmem, fun level hlt => ?_⟩
      rw [hother level hlt.ne, htop level hlt.ne]
    | some top =>
      simp only [TopBut, hfound] at htop
      simp only [hfound, Option.all_some, decide_eq_true_eq] at htop'
      -- The packet takes the top over, or leaves it where it is.
      by_cases hbefore : target < top
      · rw [if_pos hbefore] at htop'
        simp only [TopFound, htop']
        refine ⟨List.ne_nil_of_mem hmem, fun level hlt => ?_⟩
        rw [hother level hlt.ne, htop.2 level (hlt.trans hbefore) hlt.ne]
      · rw [if_neg hbefore] at htop'
        simp only [TopFound, htop']
        refine ⟨?_, fun level hlt => ?_⟩
        · by_cases heq : top = target
          · rw [heq]
            exact List.ne_nil_of_mem hmem
          · rw [hother top heq]
            exact htop.1 heq
        · have hne : level ≠ target := fun heq => hbefore (heq ▸ hlt)
          rw [hother level hne, htop.2 level hlt hne]
  · obtain rfl := Option.some.inj henqueue
    rfl
  · obtain rfl := Option.some.inj henqueue
    rfl
  · rw [hprio]
    split
    · exact .inr rfl
    · exact .inl rfl

/-- Only streams without packets are forgotten. -/
theorem Holds.cull (h : Holds c q held) (enqueueTime : Int) : Holds c (q.cull enqueueTime) held ∧
    (q.cull enqueueTime).lastUpdateTime = q.lastUpdateTime ∧
    (q.cull enqueueTime).nextAddress = q.nextAddress ∧ (q.cull enqueueTime).streamsByPrio = q.streamsByPrio := by
  unfold PrioritizedPacketQueue.cull
  split
  · refine ⟨?_, rfl, rfl, rfl⟩
    obtain ⟨culled, hculled⟩ : ∃ culled, { q with
      streams := q.streams.filter fun _ stream =>
        !(stream.isEmpty && decide (stream.lastEnqueueTime + kTimeout < enqueueTime))
      lastCullingTime := enqueueTime } = culled := ⟨_, rfl⟩
    have hget (s : UInt32) : culled.streams[s]? = (q.streams[s]?).filter fun stream =>
        !(stream.isEmpty && decide (stream.lastEnqueueTime + kTimeout < enqueueTime)) := by
      rw [← hculled]
      exact Std.ExtTreeMap.getElem?_filter'
    have hsame (s : UInt32) (level : PriorityLevel) : culled.packetsAt s level = q.packetsAt s level := by
      simp only [packetsAt, hget]
      cases hstream : q.streams[s]? with
      | none => rfl
      | some stream =>
        rw [Option.filter_some]
        split
        · rfl
        · rename_i hold
          have hempty : stream.isEmpty = true := by
            rw [Bool.not_eq_true', Bool.not_eq_false, Bool.and_eq_true] at hold
            exact hold.1
          have hnone := List.all_eq_true.mp hempty level (List.mem_finRange _)
          exact (List.isEmpty_iff.mp hnone).symm
    have hcounted := h.accounts
    rw [hculled]
    refine ⟨?_, ⟨fun s level => (hsame s level).trans (h.places.queues s level), fun s t ht => ?_⟩,
      ⟨fun level => ?_, fun level s => ?_⟩, ?_⟩
    · rw [← hculled]
      exact ⟨hcounted.times, hcounted.apart, hcounted.fresh, hcounted.size, hcounted.perType,
        hcounted.payload, hcounted.time⟩
    · rw [hget, Option.filter_eq_some_iff] at ht
      exact h.places.keyframes s t ht.1
    · rw [← hculled]
      exact h.registered.apart level
    · rw [hsame, ← h.registered.mem_iff, ← hculled]
    · rw [← hculled]
      exact h.top
  · exact ⟨h, rfl, rfl, rfl⟩

variable (c q q' held gone) in
/-- What a push does. -/
structure Pushes (enqueueTime : Int) (packet : RtpPacketToSend) (queued : QueuedPacket) : Prop where
  holds : Holds c q' (held.diff gone ++ [queued])
  subset : gone ⊆ held
  apart : gone.Nodup
  expired : ∀ p ∈ gone, Expired c enqueueTime p
  same : queued.packet = packet
  node : queued.enqueueTimeIterator = ⟨q.nextAddress, enqueueTime⟩
  nextAddress : q'.nextAddress = q.nextAddress + 1
  lastUpdateTime : q'.lastUpdateTime = enqueueTime
  inOrder : ∀ level, ∃ ssrcs, ssrcs.Sublist (q.streamsByPrio level) ∧
    (∀ p ∈ held.diff gone, c.prioLevel p.packet = level → p.packet.ssrc ∈ ssrcs) ∧
    (q'.streamsByPrio level = ssrcs ∨ q'.streamsByPrio level = ssrcs ++ [packet.ssrc])

theorem push_eq (h : Holds c q held) (enqueueTime : Int) (packet : RtpPacketToSend) :
    ∃ q' queued gone, q.push c enqueueTime packet = some (q', queued, gone) ∧
      Pushes c q q' held gone enqueueTime packet queued := by
  obtain ⟨streams, hwith, ⟨stream, hstream⟩, hsame, hplaces⟩ :=
    withStream_eq h.places enqueueTime packet.ssrc
  -- The steps of `Push`: the enqueue time, the purge of what is too old, the average of the queue time,
  -- the packet itself, and the streams that have been inactive. Each of them gets a name.
  obtain ⟨q₁, hq₁⟩ : ∃ q₁, ({ q with streams := streams } : PrioritizedPacketQueue).insertTime enqueueTime = q₁ :=
    ⟨_, rfl⟩
  have haccounts₁ : q₁.Accounts held [⟨q.nextAddress, enqueueTime⟩] := by
    rw [← hq₁]
    refine Accounts.insertTime (q := { q with streams := streams }) ?_ enqueueTime
    exact ⟨h.accounts.times, h.accounts.apart, h.accounts.fresh, h.accounts.size, h.accounts.perType,
      h.accounts.payload, h.accounts.time⟩
  have hplaces₁ : q₁.Places c held := by
    rw [← hq₁]
    exact ⟨hplaces.queues, hplaces.keyframes⟩
  have hregistered₁ : q₁.Registered := by
    rw [← hq₁]
    exact ⟨h.registered.apart, fun level s => (h.registered.mem_iff level s).trans (by rw [← hsame]; rfl)⟩
  have htop₁ : q₁.TopFound := by
    rw [← hq₁]
    exact h.top
  obtain ⟨q₂, gone, hpurge, hpurged⟩ :=
    purge_eq haccounts₁ hplaces₁ hregistered₁ (c.prioLevel packet) enqueueTime
  obtain ⟨hstreams₃, hprio₃, htop₃, hnext₃⟩ := updateAverageQueueTime_frame q₂ enqueueTime
  obtain ⟨q₃, hq₃⟩ : ∃ q₃, q₂.updateAverageQueueTime enqueueTime = q₃ := ⟨_, rfl⟩
  have hlast₃ := updateAverageQueueTime_lastUpdateTime q₂ enqueueTime
  rw [hq₃] at hstreams₃ hprio₃ htop₃ hnext₃ hlast₃
  -- The purge leaves every stream in the map, also one that it has emptied.
  have hpresent : packet.ssrc ∈ q₃.streams := by
    rw [hstreams₃]
    apply hpurged.streams
    rw [← hq₁]
    exact Std.ExtTreeMap.mem_iff_isSome_getElem?.mpr (Option.isSome_of_eq_some hstream)
  obtain ⟨stream₃, hstream₃⟩ := Option.isSome_iff_exists.mp (Std.ExtTreeMap.mem_iff_isSome_getElem?.mp hpresent)
  obtain ⟨queued, hqueued⟩ : ∃ queued : QueuedPacket,
      ⟨packet, enqueueTime - q₃.pauseTimeSum, ⟨q.nextAddress, enqueueTime⟩⟩ = queued := ⟨_, rfl⟩
  have haccounts₃ : q₃.Accounts (held.diff gone) [⟨q.nextAddress, enqueueTime⟩] := by
    rw [← hq₃]
    exact hpurged.accounts.updateAverageQueueTime enqueueTime
  have hsame₃ (s : UInt32) (level : PriorityLevel) : q₃.packetsAt s level = q₂.packetsAt s level := by
    simp only [packetsAt, hstreams₃]
  have hplaces₃ : q₃.Places c (held.diff gone) :=
    ⟨fun s level => (hsame₃ s level).trans (hpurged.places.queues s level),
      fun s t ht => hpurged.places.keyframes s t (hstreams₃ ▸ ht)⟩
  have hregistered₃ : q₃.Registered :=
    ⟨fun level => hprio₃ ▸ hpurged.registered.apart level, fun level s => by
      rw [hprio₃, hsame₃]
      exact hpurged.registered.mem_iff level s⟩
  have htopBut : q₃.TopBut (c.prioLevel packet) := by
    have hbefore := htop₁.topBut hpurged
    unfold TopBut at hbefore ⊢
    rwa [htop₃, hprio₃]
  -- A packet that has just come has not waited.
  have hnow : q₃.timeInNonPausedState queued = 0 := by
    rw [← hqueued, timeInNonPausedState, hlast₃]
    change enqueueTime - (enqueueTime - q₃.pauseTimeSum) - q₃.pauseTimeSum = 0
    omega
  obtain ⟨q₄, henqueue, hholds, hlast₄, hnext₄, hprio₄⟩ := enqueue_eq
    (show q₃.Accounts (held.diff gone) [queued.enqueueTimeIterator] by rwa [← hqueued]) hplaces₃ hregistered₃
    (by rwa [← hqueued]) (by rw [← hqueued]; exact hstream₃) hnow
  obtain ⟨hculled, hlast₅, hnext₅, hprio₅⟩ := hholds.cull enqueueTime
  refine ⟨q₄.cull enqueueTime, queued, gone, ?_, ?_⟩
  · simp only [push, hwith, hq₁, hpurge, Option.bind_eq_bind, Option.bind_some, hq₃, hqueued, henqueue]
    rfl
  · constructor
    · exact hculled
    · exact hpurged.subset
    · exact hpurged.apart
    · exact hpurged.expired
    · rw [← hqueued]
    · rw [← hqueued]
    · rw [hnext₅, hnext₄, hnext₃, hpurged.kept.nextAddress, ← hq₁]
      rfl
    · rw [hlast₅, hlast₄, hlast₃]
    · intro level
      refine ⟨q₂.streamsByPrio level, ?_, fun p hp hlevel => ?_, ?_⟩
      · have hsub := hpurged.inOrder level
        rw [← hq₁] at hsub
        exact hsub
      · rw [← hlevel]
        exact streamsByPrio_of_mem hpurged.places hpurged.registered hp
      · have hprio := hprio₄ level
        rw [hprio₃, ← hqueued] at hprio
        rwa [hprio₅]

end Push

/-! ## Removing the packets of a stream -/

/-- The stream leaves the queues of the priorities of which it had packets. -/
theorem removeLevels_eq {packetsByPrio : PriorityLevel → List QueuedPacket} {levels : List PriorityLevel}
    (haccounts : q.Accounts held pending) (hnodup : (levels.flatMap packetsByPrio).Nodup)
    (hsub : levels.flatMap packetsByPrio ⊆ held) (hlevels : levels.Nodup)
    (hprio : ∀ level, packetsByPrio level ≠ [] → level ∈ levels → ssrc ∈ q.streamsByPrio level)
    {q' : PrioritizedPacketQueue} (hq' : removeLevels ssrc packetsByPrio levels q = q') :
    q'.Accounts (held.diff (levels.flatMap packetsByPrio)) pending ∧ Kept q q' ∧ q'.streams = q.streams ∧
      q'.topActivePrioLevel = q.topActivePrioLevel ∧
      ∀ level, q'.streamsByPrio level = if level ∈ levels ∧ packetsByPrio level ≠ [] then
        (q.streamsByPrio level).filter (· ≠ ssrc) else q.streamsByPrio level := by
  induction levels generalizing q held with
  | nil =>
    obtain rfl : q = q' := hq'
    exact ⟨haccounts, Kept.rfl, rfl, rfl, fun _ => by simp⟩
  | cons level levels ih =>
    rw [List.flatMap_cons] at hnodup hsub
    rw [List.nodup_cons] at hlevels
    obtain ⟨hfirst, hrest, hapart⟩ := List.nodup_append.mp hnodup
    obtain ⟨hsubFirst, hsubRest⟩ := List.append_subset.mp hsub
    rw [removeLevels] at hq'
    by_cases hempty : packetsByPrio level = []
    · rw [if_pos (by simp [hempty])] at hq'
      obtain ⟨hcounted, hkept, hstreams, htop, hqueues⟩ := ih haccounts hrest hsubRest hlevels.2
        (fun other hsome hother => hprio other hsome (List.mem_cons_of_mem _ hother)) hq'
      refine ⟨by simpa [hempty] using hcounted, hkept, hstreams, htop, fun other => ?_⟩
      rw [hqueues]
      by_cases hother : other = level
      · simp [hother, hempty]
      · simp [hother]
    · rw [if_neg (by simp [hempty])] at hq'
      obtain ⟨hkept₁, hstreams₁, hprio₁, htop₁⟩ := foldl_dequeue (packetsByPrio level) q
      have hmem : ssrc ∈ q.streamsByPrio level := hprio level hempty (by simp)
      -- The only stream of a priority is the one that leaves.
      have hleft : (if (q.streamsByPrio level).length = 1 then (q.streamsByPrio level).tail
          else (q.streamsByPrio level).filter (· ≠ ssrc)) = (q.streamsByPrio level).filter (· ≠ ssrc) := by
        split
        · rename_i hone
          obtain ⟨s, hs⟩ := List.length_eq_one_iff.mp hone
          rw [hs] at hmem ⊢
          obtain rfl := List.mem_singleton.mp hmem
          simp
        · rfl
      simp only [hprio₁, hleft] at hq'
      have hcounted₁ := haccounts.dequeueAll hfirst hsubFirst
      have hleft₁ : levels.flatMap packetsByPrio ⊆ held.diff (packetsByPrio level) := by
        intro p hp
        exact haccounts.nodup.mem_sdiff_iff.mpr ⟨hsubRest hp, fun hgone => hapart p hgone p hp rfl⟩
      have hrestPrio : ∀ other, packetsByPrio other ≠ [] → other ∈ levels →
          ssrc ∈ Function.update q.streamsByPrio level ((q.streamsByPrio level).filter (· ≠ ssrc)) other := by
        intro other hsome hother
        have hne : other ≠ level := fun heq => hlevels.1 (heq ▸ hother)
        rw [Function.update_of_ne hne]
        exact hprio other hsome (List.mem_cons_of_mem _ hother)
      obtain ⟨hcounted, hkept, hstreams, htop, hqueues⟩ := ih
        (q := { (packetsByPrio level).foldl dequeuePacketInternal q with
          streamsByPrio := Function.update q.streamsByPrio level ((q.streamsByPrio level).filter (· ≠ ssrc)) })
        ⟨hcounted₁.times, hcounted₁.apart, hcounted₁.fresh, hcounted₁.size, hcounted₁.perType,
          hcounted₁.payload, hcounted₁.time⟩ hrest hleft₁ hlevels.2 hrestPrio hq'
      refine ⟨by rwa [List.flatMap_cons, List.diff_append],
        hkept₁.trans ⟨hkept.1, hkept.2, hkept.3, hkept.4, hkept.5⟩, hstreams.trans hstreams₁,
        htop.trans htop₁, fun other => ?_⟩
      rw [hqueues]
      by_cases hother : other = level
      · simp [hother, hempty, hlevels.1]
      · simp [hother]

variable (c q q' held gone ssrc) in
/-- What is removed with a stream, and what is dropped then. -/
structure Removes : Prop where
  holds : Holds c q' (held.diff gone)
  subset : gone ⊆ held
  apart : gone.Nodup
  all : ∀ p ∈ held, p.packet.ssrc = ssrc → p ∈ gone
  others : ∀ p ∈ gone, p.packet.ssrc = ssrc ∨ Expired c q.lastUpdateTime p
  kept : Kept q q'
  inOrder : ∀ level, (q'.streamsByPrio level).Sublist (q.streamsByPrio level)

theorem Drops.removes (h : Holds c q held) {q₁ : PrioritizedPacketQueue} {removed dropped : List QueuedPacket}
    (hleaves : Leaves c q q₁ held removed [])
    (hall : ∀ p, p ∈ removed ↔ p ∈ held ∧ p.packet.ssrc = ssrc)
    (hinOrder : ∀ level, (q₁.streamsByPrio level).Sublist (q.streamsByPrio level))
    (hdrops : Drops c q₁ q' (held.diff removed) dropped [] q₁.lastUpdateTime) (htop : q'.TopFound) :
    Removes c q q' held (removed ++ dropped) ssrc := by
  have hboth := hleaves.trans h.accounts.nodup hdrops.toLeaves
  refine ⟨⟨hboth.accounts, hboth.places, hdrops.registered, htop⟩, hboth.subset, hboth.apart,
    fun p hp hssrc => List.mem_append_left _ ((hall p).mpr ⟨hp, hssrc⟩), fun p hp => ?_, hboth.kept,
    fun level => (hdrops.inOrder level).trans (hinOrder level)⟩
  obtain hp | hp := List.mem_append.mp hp
  · exact .inl ((hall p).mp hp).2
  · rw [← hleaves.kept.lastUpdateTime]
    exact .inr (hdrops.expired p hp)

theorem removePacketsForSsrc_eq (h : Holds c q held) (ssrc : UInt32) :
    ∃ q' gone, q.removePacketsForSsrc c ssrc = some (q', gone) ∧ Removes c q q' held gone ssrc := by
  have hbelow : ∀ top, q.topActivePrioLevel = some top → ∀ level < top, q.streamsByPrio level = [] := by
    intro top htop
    have hfound := h.top
    simp only [TopFound, htop] at hfound
    exact hfound.2
  cases hstream : q.streams[ssrc]? with
  | none =>
    obtain ⟨q', dropped, hdrop, hdrops, htop⟩ :=
      maybeUpdateTopPrioLevel_eq h.accounts h.places h.registered hbelow
    refine ⟨q', dropped, by simp [removePacketsForSsrc, hstream, hdrop],
      Drops.removes h (.nil h.accounts h.places) (fun p => ?_) (fun _ => .refl _) hdrops htop⟩
    -- Nothing is held for a stream that is not there.
    refine ⟨fun hp => by simp at hp, fun hof => ?_⟩
    obtain ⟨hp, hssrc⟩ := hof
    have hqueue := h.places.queues ssrc (c.prioLevel p.packet)
    simp only [packetsAt, hstream, Option.elim_none] at hqueue
    rw [hqueue]
    exact List.mem_filter.mpr ⟨hp, by simp [InQueue, hssrc]⟩
  | some stream =>
    have hqueue (level : PriorityLevel) : stream.packets level = held.filter (InQueue c ssrc level) := by
      have hat := h.places.queues ssrc level
      simpa only [packetsAt, hstream, Option.elim_some] using hat
    have hmem (p : QueuedPacket) : p ∈ (List.finRange kNumPriorityLevels).flatMap stream.packets ↔
        p ∈ held ∧ p.packet.ssrc = ssrc := by
      simp only [List.mem_flatMap, List.mem_finRange, true_and, hqueue, List.mem_filter, InQueue,
        decide_eq_true_eq]
      constructor
      · intro hof
        obtain ⟨-, hp, hssrc, -⟩ := hof
        exact ⟨hp, hssrc⟩
      · intro hof
        exact ⟨_, hof.1, hof.2, rfl⟩
    have hnodup : ((List.finRange kNumPriorityLevels).flatMap stream.packets).Nodup := by
      rw [List.nodup_flatMap]
      refine ⟨fun level _ => hqueue level ▸ h.accounts.nodup.filter _, ?_⟩
      refine (List.nodup_finRange _).imp fun {level level'} hne => ?_
      intro p hp hp'
      rw [hqueue] at hp hp'
      have hin := (List.mem_filter.mp hp).2
      have hin' := (List.mem_filter.mp hp').2
      simp only [InQueue, decide_eq_true_eq] at hin hin'
      exact hne (hin.2.symm.trans hin'.2)
    have hsub : (List.finRange kNumPriorityLevels).flatMap stream.packets ⊆ held := fun p hp => ((hmem p).mp hp).1
    have hprio (level : PriorityLevel) : ssrc ∈ q.streamsByPrio level ↔ stream.packets level ≠ [] := by
      rw [h.registered.mem_iff, packetsAt, hstream]
      rfl
    obtain ⟨q₁, hq₁⟩ : ∃ q₁, removeLevels ssrc stream.packets (List.finRange kNumPriorityLevels)
        { q with streams := q.streams.insert ssrc stream.dequeueAll.2 } = q₁ := ⟨_, rfl⟩
    have haccounts : Accounts { q with streams := q.streams.insert ssrc stream.dequeueAll.2 } held [] :=
      ⟨h.accounts.times, h.accounts.apart, h.accounts.fresh, h.accounts.size, h.accounts.perType,
        h.accounts.payload, h.accounts.time⟩
    obtain ⟨hcounted, hkept, hstreams, htop₁, hqueues⟩ := removeLevels_eq haccounts hnodup hsub
      (List.nodup_finRange _) (fun level hsome _ => (hprio level).mpr hsome) hq₁
    have hplaces : q₁.Places c (held.diff ((List.finRange kNumPriorityLevels).flatMap stream.packets)) := by
      refine h.places.leave h.accounts.nodup hnodup hsub (fun p hp => ((hmem p).mp hp).2) hstream hstreams ?_ ?_
      · intro level
        symm
        rw [StreamQueue.dequeueAll, List.filter_eq_nil_iff]
        intro p hp
        simpa using ⟨level, hp⟩
      · rw [h.places.keyframes ssrc stream hstream, StreamQueue.dequeueAll]
        have hcount : held.countP (IsKeyframeOf ssrc) =
            ((List.finRange kNumPriorityLevels).flatMap stream.packets).countP (·.packet.isKeyFrame) := by
          have hperm : (held.filter (·.packet.ssrc = ssrc)).Perm
              ((List.finRange kNumPriorityLevels).flatMap stream.packets) := by
            apply (List.perm_ext_iff_of_nodup (h.accounts.nodup.filter _) hnodup).mpr
            intro p
            rw [hmem, List.mem_filter, decide_eq_true_eq]
          rw [← hperm.countP_eq, List.countP_filter]
          apply List.countP_congr
          intro p _
          simp [IsKeyframeOf, and_comm]
        rw [hcount]
        simp
    have hleaves : Leaves c q q₁ held ((List.finRange kNumPriorityLevels).flatMap stream.packets) [] := by
      refine ⟨hcounted, hplaces, ⟨hkept.1, hkept.2, hkept.3, hkept.4, hkept.5⟩, hsub, hnodup, fun s hs => ?_⟩
      rw [hstreams]
      exact Std.ExtTreeMap.mem_insert.mpr (.inr hs)
    have hfilter (level : PriorityLevel) :
        q₁.streamsByPrio level = (q.streamsByPrio level).filter (· ≠ ssrc) := by
      rw [hqueues]
      split
      · rfl
      · rename_i hnone
        symm
        rw [List.filter_eq_self]
        intro s hs
        rw [decide_eq_true_eq]
        intro heq
        exact hnone ⟨List.mem_finRange _, (hprio level).mp (heq ▸ hs)⟩
    have hregistered : q₁.Registered := by
      refine ⟨fun level => hfilter level ▸ (h.registered.apart level).filter _, fun level s => ?_⟩
      rw [hfilter, List.mem_filter, decide_eq_true_eq, h.registered.mem_iff]
      by_cases hs : s = ssrc
      · have hgone : q₁.packetsAt s level = [] := by
          simp [packetsAt, hstreams, hs, StreamQueue.dequeueAll]
        simp [hs, hs ▸ hgone]
      · have hsame : q₁.packetsAt s level = q.packetsAt s level := by
          simp [packetsAt, hstreams, hs]
        simp [hs, hsame]
    have hbelow₁ : ∀ top, q₁.topActivePrioLevel = some top → ∀ level < top, q₁.streamsByPrio level = [] := by
      intro top htop level hlt
      rw [hfilter, hbelow top (htop₁ ▸ htop) level hlt]
      rfl
    obtain ⟨q', dropped, hdrop, hdrops, htop⟩ :=
      maybeUpdateTopPrioLevel_eq hcounted hplaces hregistered hbelow₁
    refine ⟨q', (List.finRange kNumPriorityLevels).flatMap stream.packets ++ dropped, ?_,
      hdrops.removes h hleaves hmem (fun level => hfilter level ▸ List.filter_sublist) htop⟩
    simp only [removePacketsForSsrc, hstream, StreamQueue.dequeueAll] at hq₁ ⊢
    rw [hq₁, hdrop]
    rfl

end PrioritizedPacketQueue

end CrossTransfer.Minirtc
