import CrossTransfer.Minirtc.PacketQueue
import Mathlib.Data.List.Count
import Mathlib.Data.List.Perm.Subperm

/-! # What holds of the queue of the pacer

A queue is compared with one list of the packets that it holds, in the order in which they were pushed
(`Holds`): the counters are sums over it, and the queue of a stream at a priority is what the list has of
that stream and priority. Each operation takes packets out of the list (`Leaves`), or puts one at its end.
-/

namespace CrossTransfer.Minirtc

open CrossTransfer.Library

/-- What an entry is mapped to goes with it. -/
theorem map_erase_of_nodup {α β : Type*} [DecidableEq α] [DecidableEq β] {f : α → β} {l : List α} {a : α}
    (hnodup : (l.map f).Nodup) (ha : a ∈ l) : (l.erase a).map f = (l.map f).erase (f a) := by
  induction l with
  | nil => cases ha
  | cons b l ih =>
    rw [List.map_cons, List.nodup_cons] at hnodup
    by_cases hb : b = a
    · simp [hb]
    · have ha' : a ∈ l := by simpa [Ne.symm hb] using ha
      have hne : f b ≠ f a := fun h => hnodup.1 (h ▸ List.mem_map_of_mem ha')
      simp [hb, hne, ih hnodup.2 ha']

namespace PrioritizedPacketQueue

variable {c : QueueConfiguration} {q q' : PrioritizedPacketQueue} {held gone : List QueuedPacket}
  {pending : List TimeNode} {p : QueuedPacket} {ssrc : UInt32} {level : PriorityLevel} {now ttl : Int}

/-! ## The invariants -/

variable (q) in
/-- What is counted; `pending` are the nodes of packets that are still to come. -/
structure Accounts (held : List QueuedPacket) (pending : List TimeNode) : Prop where
  times : q.enqueueTimes = held.map (·.enqueueTimeIterator) ++ pending
  apart : q.enqueueTimes.Nodup
  fresh : ∀ node ∈ q.enqueueTimes, node.address < q.nextAddress
  size : q.sizePackets = held.length
  perType : ∀ type, q.sizePacketsPerMediaType type = held.countP (·.packet.packetType = type)
  payload : q.sizePayload = (held.map (·.packetSize)).sum
  time : q.queueTimeSum = (held.map q.timeInNonPausedState).sum

variable (c) in
/-- A packet is in the queue of a stream at a priority. -/
def InQueue (ssrc : UInt32) (level : PriorityLevel) (p : QueuedPacket) : Bool :=
  p.packet.ssrc = ssrc ∧ c.prioLevel p.packet = level

/-- A keyframe packet of a stream. -/
def IsKeyframeOf (ssrc : UInt32) (p : QueuedPacket) : Bool := p.packet.ssrc = ssrc ∧ p.packet.isKeyFrame

variable (c q) in
/-- Where the packets are. -/
structure Places (held : List QueuedPacket) : Prop where
  queues : ∀ ssrc level, q.packetsAt ssrc level = held.filter (InQueue c ssrc level)
  keyframes : ∀ (ssrc : UInt32) (stream : StreamQueue), q.streams[ssrc]? = some stream →
    stream.numKeyframePackets = held.countP (IsKeyframeOf ssrc)

variable (q) in
/-- The streams that have packets of a priority, each once. -/
structure Registered : Prop where
  apart : ∀ level, (q.streamsByPrio level).Nodup
  mem_iff : ∀ level ssrc, ssrc ∈ q.streamsByPrio level ↔ q.packetsAt ssrc level ≠ []

variable (q) in
/-- The first priority that has packets. -/
def TopFound : Prop :=
  match q.topActivePrioLevel with
  | none => ∀ level, q.streamsByPrio level = []
  | some top => q.streamsByPrio top ≠ [] ∧ ∀ level < top, q.streamsByPrio level = []

variable (q q') in
/-- What does not change when packets are taken out of the queue. -/
structure Kept : Prop where
  pauseTimeSum : q'.pauseTimeSum = q.pauseTimeSum
  lastUpdateTime : q'.lastUpdateTime = q.lastUpdateTime
  paused : q'.paused = q.paused
  lastCullingTime : q'.lastCullingTime = q.lastCullingTime
  nextAddress : q'.nextAddress = q.nextAddress

theorem Kept.rfl : Kept q q := ⟨.refl _, .refl _, .refl _, .refl _, .refl _⟩

theorem Kept.trans {q'' : PrioritizedPacketQueue} (h : Kept q q') (h' : Kept q' q'') : Kept q q'' where
  pauseTimeSum := h'.pauseTimeSum.trans h.pauseTimeSum
  lastUpdateTime := h'.lastUpdateTime.trans h.lastUpdateTime
  paused := h'.paused.trans h.paused
  lastCullingTime := h'.lastCullingTime.trans h.lastCullingTime
  nextAddress := h'.nextAddress.trans h.nextAddress

variable (c q q' held gone pending) in
/-- The packets `gone` are taken out of a queue that held `held`. -/
structure Leaves : Prop where
  accounts : q'.Accounts (held.diff gone) pending
  places : q'.Places c (held.diff gone)
  kept : Kept q q'
  subset : gone ⊆ held
  apart : gone.Nodup
  streams : ∀ s ∈ q.streams, s ∈ q'.streams

/-! ## Packets that leave -/

theorem Accounts.nodup (h : q.Accounts held pending) : held.Nodup := by
  have hapart := h.apart
  rw [h.times, List.nodup_append] at hapart
  exact hapart.1.of_map _

theorem Accounts.dequeue (h : q.Accounts held pending) (hp : p ∈ held) :
    (q.dequeuePacketInternal p).Accounts (held.erase p) pending := by
  have hperm := List.perm_cons_erase hp
  have hlength := hperm.length_eq
  have hpayload := (hperm.map fun p => p.packetSize).sum_eq
  have htime := (hperm.map q.timeInNonPausedState).sum_eq
  have hnodup := h.apart
  rw [h.times, List.nodup_append] at hnodup
  have hnode : p.enqueueTimeIterator ∈ held.map (·.enqueueTimeIterator) := List.mem_map_of_mem hp
  simp only [List.map_cons, List.sum_cons, List.length_cons] at hlength hpayload htime
  constructor
  · change q.enqueueTimes.erase p.enqueueTimeIterator = _
    rw [h.times, List.erase_append_left _ hnode, map_erase_of_nodup hnodup.1 hp]
  · exact h.apart.erase _
  · exact fun node hmem => h.fresh node (List.mem_of_mem_erase hmem)
  · have hsize := h.size
    change q.sizePackets - 1 = _
    omega
  · intro type
    have hcount := hperm.countP_eq fun p => decide (p.packet.packetType = type)
    have htype := h.perType type
    rw [List.countP_cons] at hcount
    change Function.update q.sizePacketsPerMediaType p.packet.packetType _ type = _
    by_cases hsame : p.packet.packetType = type
    · simp only [hsame, decide_true, if_true] at hcount
      simp only [hsame, Function.update_self]
      omega
    · simp only [hsame, decide_false, Bool.false_eq_true, if_false] at hcount
      rw [Function.update_of_ne (Ne.symm hsame)]
      omega
  · have hbefore := h.payload
    change q.sizePayload - p.packetSize = _
    omega
  · have hbefore := h.time
    change q.queueTimeSum - q.timeInNonPausedState p = (List.map q.timeInNonPausedState _).sum
    omega

theorem Accounts.dequeueAll (h : q.Accounts held pending) (hnodup : gone.Nodup) (hsub : gone ⊆ held) :
    (gone.foldl dequeuePacketInternal q).Accounts (held.diff gone) pending := by
  induction gone generalizing q held with
  | nil => exact h
  | cons p gone ih =>
    rw [List.nodup_cons] at hnodup
    rw [List.cons_subset] at hsub
    rw [List.foldl_cons, List.diff_cons]
    apply ih (h.dequeue hsub.1) hnodup.2
    intro p' hp'
    exact h.nodup.mem_erase_iff.mpr ⟨fun heq => hnodup.1 (heq ▸ hp'), hsub.2 hp'⟩

/-- What is not counted stays. -/
theorem foldl_dequeue (gone : List QueuedPacket) (q : PrioritizedPacketQueue) :
    Kept q (gone.foldl dequeuePacketInternal q) ∧
      (gone.foldl dequeuePacketInternal q).streams = q.streams ∧
      (gone.foldl dequeuePacketInternal q).streamsByPrio = q.streamsByPrio ∧
      (gone.foldl dequeuePacketInternal q).topActivePrioLevel = q.topActivePrioLevel := by
  induction gone generalizing q with
  | nil => exact ⟨Kept.rfl, rfl, rfl, rfl⟩
  | cons p gone ih =>
    obtain ⟨hkept, hstreams, hprio, htop⟩ := ih (q.dequeuePacketInternal p)
    exact ⟨⟨hkept.1, hkept.2, hkept.3, hkept.4, hkept.5⟩, hstreams, hprio, htop⟩

/-- A stream is exchanged for one without the packets `gone`. -/
theorem Places.leave (h : q.Places c held) (hnodup : held.Nodup) (hgone : gone.Nodup) (hsub : gone ⊆ held)
    (hown : ∀ p ∈ gone, p.packet.ssrc = ssrc) {stream stream' : StreamQueue}
    (hstream : q.streams[ssrc]? = some stream) (hstreams : q'.streams = q.streams.insert ssrc stream')
    (hpackets : ∀ level, stream'.packets level = (stream.packets level).filter (· ∉ gone))
    (hkeys : stream'.numKeyframePackets = stream.numKeyframePackets - gone.countP (·.packet.isKeyFrame)) :
    q'.Places c (held.diff gone) := by
  have hget (s : UInt32) : q'.streams[s]? = if s = ssrc then some stream' else q.streams[s]? := by
    rw [hstreams]
    exact OrderedMap.get_insert ..
  constructor
  · intro s level
    rw [hnodup.sdiff_eq_filter, List.filter_filter]
    by_cases hs : s = ssrc
    · have hbefore := h.queues s level
      simp only [packetsAt, hs, hstream, Option.elim_some] at hbefore
      simp only [packetsAt, hget, hs, if_true, Option.elim_some]
      rw [hpackets, hbefore, List.filter_filter]
      exact List.filter_congr fun p _ => Bool.and_comm ..
    · have hafter : q'.packetsAt s level = q.packetsAt s level := by simp only [packetsAt, hget, hs, if_false]
      rw [hafter, h.queues]
      -- None of them is in another stream.
      apply List.filter_congr
      intro p _
      by_cases hp : p ∈ gone
      · have hne : p.packet.ssrc ≠ s := fun heq => hs (heq.symm.trans (hown p hp))
        simp [InQueue, hne]
      · simp [hp]
  · intro s t ht
    rw [hget] at ht
    have hsubperm : gone.Subperm held := hgone.subperm hsub
    have hle := hsubperm.countP_le (IsKeyframeOf s)
    rw [List.countP_diff hsubperm]
    split at ht
    · rename_i hs
      cases ht
      have hbefore := h.keyframes ssrc stream hstream
      have hcount : gone.countP (IsKeyframeOf s) = gone.countP (·.packet.isKeyFrame) := by
        apply List.countP_congr
        intro p hp
        simp [IsKeyframeOf, hown p hp, hs]
      rw [hcount] at hle ⊢
      rw [hs] at hle ⊢
      omega
    · rename_i hs
      have hnone : gone.countP (IsKeyframeOf s) = 0 := by
        rw [List.countP_eq_zero]
        intro p hp
        have hne : p.packet.ssrc ≠ s := fun heq => hs (heq.symm.trans (hown p hp))
        simp [IsKeyframeOf, hne]
      rw [h.keyframes s t ht, hnone]
      simp

theorem Leaves.nil (haccounts : q.Accounts held pending) (hplaces : q.Places c held) :
    Leaves c q q held [] pending :=
  ⟨haccounts, hplaces, Kept.rfl, List.nil_subset _, List.nodup_nil, fun _ hs => hs⟩

theorem Leaves.trans {q'' : PrioritizedPacketQueue} {more : List QueuedPacket} (hnodup : held.Nodup)
    (h : Leaves c q q' held gone pending) (h' : Leaves c q' q'' (held.diff gone) more pending) :
    Leaves c q q'' held (gone ++ more) pending := by
  have hmore : ∀ p ∈ more, p ∈ held ∧ p ∉ gone := fun p hp => hnodup.mem_sdiff_iff.mp (h'.subset hp)
  refine ⟨?_, ?_, h.kept.trans h'.kept, ?_, ?_, fun s hs => h'.streams s (h.streams s hs)⟩
  · rw [List.diff_append]
    exact h'.accounts
  · rw [List.diff_append]
    exact h'.places
  · exact List.append_subset.mpr ⟨h.subset, fun p hp => (hmore p hp).1⟩
  · rw [List.nodup_append]
    exact ⟨h.apart, h'.apart, fun p hp p' hp' heq => (hmore p' hp').2 (heq ▸ hp)⟩

/-- The first packets of a stream are dequeued. -/
theorem leaves_dequeueFront (haccounts : q.Accounts held pending) (hplaces : q.Places c held)
    {stream : StreamQueue} (hstream : q.streams[ssrc]? = some stream) {front rest : List QueuedPacket}
    (hsplit : stream.packets level = front ++ rest) :
    Leaves c q (q.dequeueFront ssrc stream level front rest) held front pending ∧
      (q.dequeueFront ssrc stream level front rest).streamsByPrio = q.streamsByPrio ∧
      (q.dequeueFront ssrc stream level front rest).topActivePrioLevel = q.topActivePrioLevel := by
  have hqueue := hplaces.queues ssrc level
  simp only [packetsAt, hstream, Option.elim_some, hsplit] at hqueue
  have hmem : ∀ p ∈ front ++ rest, p ∈ held ∧ InQueue c ssrc level p := by
    intro p hp
    rw [hqueue] at hp
    exact List.mem_filter.mp hp
  have hnodup : (front ++ rest).Nodup := by
    rw [hqueue]
    exact haccounts.nodup.filter _
  have hfront : front ⊆ held := fun p hp => (hmem p (List.mem_append_left _ hp)).1
  obtain ⟨hkept, hstreams, hprio, htop⟩ := foldl_dequeue front
    { q with streams := q.streams.insert ssrc (stream.dequeuePackets level front rest) }
  have hcounted : (q.dequeueFront ssrc stream level front rest).Accounts (held.diff front) pending := by
    refine Accounts.dequeueAll ?_ (List.nodup_append.mp hnodup).1 hfront
    exact ⟨haccounts.times, haccounts.apart, haccounts.fresh, haccounts.size, haccounts.perType,
      haccounts.payload, haccounts.time⟩
  -- Of the queue that is shortened the front leaves; in the other queues of the stream there is nothing of
  -- it, since a packet has one priority.
  have hplaced : (q.dequeueFront ssrc stream level front rest).Places c (held.diff front) := by
    refine hplaces.leave haccounts.nodup (List.nodup_append.mp hnodup).1 hfront ?_ hstream hstreams ?_ rfl
    · intro p hp
      have hin := (hmem p (List.mem_append_left _ hp)).2
      simp only [InQueue, decide_eq_true_eq] at hin
      exact hin.1
    · intro level'
      by_cases hlevel : level' = level
      · subst hlevel
        have hapart := (List.nodup_append.mp hnodup).2.2
        have hnone : front.filter (· ∉ front) = [] := by simp
        have hrest : rest.filter (· ∉ front) = rest := by
          rw [List.filter_eq_self]
          intro p hp
          simp only [decide_eq_true_eq]
          exact fun hfront => hapart p hfront p hp rfl
        simp only [StreamQueue.dequeuePackets, Function.update_self, hsplit, List.filter_append, hnone, hrest,
          List.nil_append]
      · have hother : (stream.packets level').filter (· ∉ front) = stream.packets level' := by
          rw [List.filter_eq_self]
          intro p hp
          have hbefore := hplaces.queues ssrc level'
          simp only [packetsAt, hstream, Option.elim_some] at hbefore
          rw [hbefore] at hp
          have hin := (List.mem_filter.mp hp).2
          simp only [InQueue, decide_eq_true_eq] at hin ⊢
          intro hfront
          have hin' := (hmem p (List.mem_append_left _ hfront)).2
          simp only [InQueue, decide_eq_true_eq] at hin'
          exact hlevel (hin.2.symm.trans hin'.2)
        simp only [StreamQueue.dequeuePackets, Function.update_of_ne hlevel, hother]
  have hpresent : ∀ s ∈ q.streams, s ∈ (q.dequeueFront ssrc stream level front rest).streams := by
    intro s hs
    rw [dequeueFront, hstreams]
    exact Std.ExtTreeMap.mem_insert.mpr (.inr hs)
  exact ⟨⟨hcounted, hplaced, ⟨hkept.1, hkept.2, hkept.3, hkept.4, hkept.5⟩, hfront,
    (List.nodup_append.mp hnodup).1, hpresent⟩, hprio, htop⟩

/-- What is left of a queue of a stream. -/
theorem Leaves.packetsAt (hnodup : held.Nodup) (hplaces : q.Places c held)
    (h : Leaves c q q' held gone pending) (ssrc : UInt32) (level : PriorityLevel) :
    q'.packetsAt ssrc level = (q.packetsAt ssrc level).filter (· ∉ gone) := by
  rw [h.places.queues, hplaces.queues, hnodup.sdiff_eq_filter, List.filter_filter, List.filter_filter]
  exact List.filter_congr fun p _ => Bool.and_comm ..

/-- A queue that has none of the packets that leave. -/
theorem Leaves.packetsAt_of_apart (hnodup : held.Nodup) (hplaces : q.Places c held)
    (h : Leaves c q q' held gone pending) (hapart : ∀ p ∈ gone, InQueue c ssrc level p = false) :
    q'.packetsAt ssrc level = q.packetsAt ssrc level := by
  rw [h.packetsAt hnodup hplaces, List.filter_eq_self]
  intro p hp
  rw [hplaces.queues] at hp
  simp only [decide_eq_true_eq]
  intro hgone
  have hin := (List.mem_filter.mp hp).2
  rw [hapart p hgone] at hin
  cases hin

theorem exists_stream (h : q.packetsAt ssrc level ≠ []) :
    ∃ stream, q.streams[ssrc]? = some stream ∧ q.packetsAt ssrc level = stream.packets level := by
  cases hstream : q.streams[ssrc]? with
  | none => simp [PrioritizedPacketQueue.packetsAt, hstream] at h
  | some stream => exact ⟨stream, rfl, by simp [PrioritizedPacketQueue.packetsAt, hstream]⟩

/-! ## Packets that are too old -/

variable (c level now ttl) in
/-- A packet of the priority that has been in the queue for too long. -/
def TooOld (p : QueuedPacket) : Prop := c.prioLevel p.packet = level ∧ ttl < now - p.enqueueTime

variable (now ttl) in
/-- One stream is purged; it is still there. -/
theorem purgeStream_eq (haccounts : q.Accounts held pending) (hplaces : q.Places c held)
    (hsome : q.packetsAt ssrc level ≠ []) :
    ∃ q' old stream, q.purgeStream level now ttl ssrc = some (q', old) ∧ Leaves c q q' held old pending ∧
      q'.streamsByPrio = q.streamsByPrio ∧ q'.topActivePrioLevel = q.topActivePrioLevel ∧
      q'.streams[ssrc]? = some stream ∧
      ∀ p ∈ old, TooOld c level now ttl p ∧ p.packet.ssrc = ssrc := by
  obtain ⟨stream, hstream, hpackets⟩ := exists_stream hsome
  let tooOld (p : QueuedPacket) : Bool := decide (ttl < now - p.enqueueTime)
  have hsplit := (List.takeWhile_append_dropWhile (p := tooOld) (l := stream.packets level)).symm
  obtain ⟨hleaves, hprio, htop⟩ := leaves_dequeueFront haccounts hplaces hstream hsplit
  let stream' := stream.dequeuePackets level ((stream.packets level).takeWhile tooOld)
    ((stream.packets level).dropWhile tooOld)
  refine ⟨_, _, stream', by rw [purgeStream, hstream]; rfl, hleaves, hprio, htop, ?_, ?_⟩
  · obtain ⟨-, hstreams, -⟩ := foldl_dequeue ((stream.packets level).takeWhile tooOld)
      { q with streams := q.streams.insert ssrc stream' }
    rw [dequeueFront, hstreams]
    simp
  · intro p hp
    have hage : tooOld p = true := List.all_eq_true.mp List.all_takeWhile p hp
    have hmem : p ∈ q.packetsAt ssrc level := by
      rw [hpackets]
      exact (List.takeWhile_sublist _).subset hp
    rw [hplaces.queues] at hmem
    have hin := (List.mem_filter.mp hmem).2
    simp only [InQueue, decide_eq_true_eq] at hin
    exact ⟨⟨hin.2, of_decide_eq_true hage⟩, hin.1⟩

variable (now ttl) in
theorem purgeStreams_eq {ssrcs : List UInt32} (haccounts : q.Accounts held pending)
    (hplaces : q.Places c held) (hapart : ssrcs.Nodup) (hsome : ∀ ssrc ∈ ssrcs, q.packetsAt ssrc level ≠ []) :
    ∃ q' old, purgeStreams level now ttl ssrcs q =
        some (q', old, ssrcs.filter fun ssrc => !(q'.packetsAt ssrc level).isEmpty) ∧
      Leaves c q q' held old pending ∧ q'.streamsByPrio = q.streamsByPrio ∧
      q'.topActivePrioLevel = q.topActivePrioLevel ∧
      ∀ p ∈ old, TooOld c level now ttl p ∧ p.packet.ssrc ∈ ssrcs := by
  induction ssrcs generalizing q held with
  | nil => exact ⟨q, [], rfl, .nil haccounts hplaces, rfl, rfl, by simp⟩
  | cons ssrc ssrcs ih =>
    rw [List.nodup_cons] at hapart
    rw [List.forall_mem_cons] at hsome
    have hnodup := haccounts.nodup
    obtain ⟨q₁, old, stream, hpurge, hleaves, hprio, htop, hstream, hold⟩ :=
      purgeStream_eq now ttl haccounts hplaces hsome.1
    have hothers : ∀ s ∈ ssrcs, q₁.packetsAt s level ≠ [] := by
      intro s hs
      rw [hleaves.packetsAt_of_apart hnodup hplaces]
      · exact hsome.2 s hs
      · intro p hp
        have hne : ssrc ≠ s := fun heq => hapart.1 (heq ▸ hs)
        simp [InQueue, (hold p hp).2, hne]
    obtain ⟨q₂, more, hrest, hleaves', hprio', htop', hmore⟩ :=
      ih hleaves.accounts hleaves.places hapart.2 hothers
    -- The rest of the loop leaves the stream alone.
    have hsame : q₂.packetsAt ssrc level = stream.packets level := by
      rw [hleaves'.packetsAt_of_apart hleaves.accounts.nodup hleaves.places]
      · simp [PrioritizedPacketQueue.packetsAt, hstream]
      · intro p hp
        have hne : p.packet.ssrc ≠ ssrc := fun heq => hapart.1 (heq ▸ (hmore p hp).2)
        simp [InQueue, hne]
    refine ⟨q₂, old ++ more, ?_, hleaves.trans hnodup hleaves', hprio'.trans hprio, htop'.trans htop, ?_⟩
    · rw [List.filter_cons, hsame]
      simp [purgeStreams, hpurge, hstream, hrest, StreamQueue.hasPacketsAtPrio]
    · intro p hp
      obtain hp | hp := List.mem_append.mp hp
      · exact ⟨(hold p hp).1, by simp [(hold p hp).2]⟩
      · exact ⟨(hmore p hp).1, List.mem_cons_of_mem _ (hmore p hp).2⟩

variable (c now) in
/-- A packet that a purge drops. -/
def Expired (p : QueuedPacket) : Prop :=
  ∃ ttl, c.timeToLivePerPrio (c.prioLevel p.packet) = .us ttl ∧ ttl < now - p.enqueueTime

variable (c q q' held gone pending now) in
/-- The packets `gone` were too old; the streams that still have packets are in their order. -/
structure Drops : Prop extends Leaves c q q' held gone pending where
  registered : q'.Registered
  inOrder : ∀ level, (q'.streamsByPrio level).Sublist (q.streamsByPrio level)
  expired : ∀ p ∈ gone, Expired c now p

theorem Drops.nil (haccounts : q.Accounts held pending) (hplaces : q.Places c held)
    (hregistered : q.Registered) (now : Int) : Drops c q q held [] pending now :=
  ⟨.nil haccounts hplaces, hregistered, fun _ => .refl _, by simp⟩

theorem Drops.trans {q'' : PrioritizedPacketQueue} {more : List QueuedPacket} (hnodup : held.Nodup)
    (h : Drops c q q' held gone pending now) (h' : Drops c q' q'' (held.diff gone) more pending now) :
    Drops c q q'' held (gone ++ more) pending now where
  toLeaves := h.toLeaves.trans hnodup h'.toLeaves
  registered := h'.registered
  inOrder level := (h'.inOrder level).trans (h.inOrder level)
  expired := List.forall_mem_append.mpr ⟨h.expired, h'.expired⟩

/-- The first priority is not counted. -/
theorem Drops.withTop (h : Drops c q q' held gone pending now) (top : Option PriorityLevel) :
    Drops c q { q' with topActivePrioLevel := top } held gone pending now where
  accounts := ⟨h.accounts.times, h.accounts.apart, h.accounts.fresh, h.accounts.size, h.accounts.perType,
    h.accounts.payload, h.accounts.time⟩
  places := ⟨h.places.queues, h.places.keyframes⟩
  kept := ⟨h.kept.1, h.kept.2, h.kept.3, h.kept.4, h.kept.5⟩
  subset := h.subset
  apart := h.apart
  streams := h.streams
  registered := ⟨h.registered.apart, h.registered.mem_iff⟩
  inOrder := h.inOrder
  expired := h.expired

variable (c q q' held gone pending level now) in
/-- What a purge of a priority does. -/
structure Purged : Prop extends Drops c q q' held gone pending now where
  others : ∀ level' ≠ level, q'.streamsByPrio level' = q.streamsByPrio level'
  top : q'.topActivePrioLevel = q.topActivePrioLevel

theorem purge_eq (haccounts : q.Accounts held pending) (hplaces : q.Places c held)
    (hregistered : q.Registered) (level : PriorityLevel) (now : Int) :
    ∃ q' old, q.purgeOldPacketsAtPriorityLevel c level now = some (q', old) ∧
      Purged c q q' held old pending level now := by
  have hforever (hnone : q.purgeOldPacketsAtPriorityLevel c level now = some (q, [])) :
      ∃ q' old, q.purgeOldPacketsAtPriorityLevel c level now = some (q', old) ∧
        Purged c q q' held old pending level now :=
    ⟨q, [], hnone, .nil haccounts hplaces hregistered now, fun _ _ => rfl, rfl⟩
  cases httl : c.timeToLivePerPrio level with
  | minusInfinity => exact hforever (by simp [purgeOldPacketsAtPriorityLevel, httl])
  | plusInfinity => exact hforever (by simp [purgeOldPacketsAtPriorityLevel, httl])
  | us ttl =>
    obtain ⟨q₁, old, hpurge, hleaves, hprio, htop, hold⟩ := purgeStreams_eq now ttl
      haccounts hplaces (hregistered.apart level) fun ssrc => (hregistered.mem_iff level ssrc).mp
    let kept := (q.streamsByPrio level).filter fun ssrc => !(q₁.packetsAt ssrc level).isEmpty
    have hkept (level' : PriorityLevel) : Function.update q₁.streamsByPrio level kept level' =
        if level' = level then kept else q.streamsByPrio level' := by
      rw [Function.update_apply, hprio]
    refine ⟨{ q₁ with streamsByPrio := Function.update q₁.streamsByPrio level kept }, old, ?_,
      ⟨⟨?_, ⟨hleaves.places.queues, hleaves.places.keyframes⟩, ?_, hleaves.subset, hleaves.apart,
        hleaves.streams⟩, ?_, ?_, ?_⟩, ?_, htop⟩
    · simp only [purgeOldPacketsAtPriorityLevel, httl, hpurge]
      rfl
    · have hcounted := hleaves.accounts
      exact ⟨hcounted.times, hcounted.apart, hcounted.fresh, hcounted.size, hcounted.perType,
        hcounted.payload, hcounted.time⟩
    · exact ⟨hleaves.kept.1, hleaves.kept.2, hleaves.kept.3, hleaves.kept.4, hleaves.kept.5⟩
    · constructor
      · intro level'
        change (Function.update q₁.streamsByPrio level kept level').Nodup
        rw [hkept]
        split
        · exact (hregistered.apart level).filter _
        · exact hregistered.apart level'
      · intro level' ssrc
        change ssrc ∈ Function.update q₁.streamsByPrio level kept level' ↔ q₁.packetsAt ssrc level' ≠ []
        have hpackets := hleaves.packetsAt haccounts.nodup hplaces ssrc level'
        rw [hkept]
        split
        · rename_i hlevel
          subst hlevel
          simp only [kept, List.mem_filter, hregistered.mem_iff, Bool.not_eq_true', List.isEmpty_eq_false_iff]
          -- A queue that has packets now has had some before.
          refine ⟨fun h => h.2, fun hsome => ⟨fun hnil => hsome ?_, hsome⟩⟩
          rw [hpackets, hnil]
          rfl
        · rename_i hlevel
          rw [hregistered.mem_iff, hleaves.packetsAt_of_apart haccounts.nodup hplaces]
          intro p hp
          simp [InQueue, (hold p hp).1.1, Ne.symm hlevel]
    · intro level'
      change (Function.update q₁.streamsByPrio level kept level').Sublist _
      rw [hkept]
      split
      · rename_i hlevel
        subst hlevel
        exact List.filter_sublist
      · exact .refl _
    · intro p hp
      obtain ⟨hlevel, hage⟩ := (hold p hp).1
      exact ⟨ttl, by rw [hlevel, httl], hage⟩
    · intro level' hne
      change Function.update q₁.streamsByPrio level kept level' = _
      rw [hkept, if_neg hne]

/-! ## The first priority that has packets -/

theorem streamsByPrio_of_nil (hplaces : q.Places c []) (hregistered : q.Registered) (level : PriorityLevel) :
    q.streamsByPrio level = [] := by
  rw [List.eq_nil_iff_forall_not_mem]
  intro ssrc hmem
  rw [hregistered.mem_iff, hplaces.queues] at hmem
  exact hmem rfl

theorem streamsByPrio_of_mem (hplaces : q.Places c held) (hregistered : q.Registered) (hp : p ∈ held) :
    p.packet.ssrc ∈ q.streamsByPrio (c.prioLevel p.packet) := by
  rw [hregistered.mem_iff, hplaces.queues]
  exact List.ne_nil_of_mem (List.mem_filter.mpr ⟨hp, by simp [InQueue]⟩)

/-- The loop stops at the first priority that has packets after its purge. -/
theorem findTopPrioLevel_eq {levels : List PriorityLevel} (haccounts : q.Accounts held pending)
    (hplaces : q.Places c held) (hregistered : q.Registered) (hsorted : levels.Pairwise (· < ·)) :
    ∃ q' old, findTopPrioLevel c levels q = some (q', old) ∧
      Drops c q q' held old pending q.lastUpdateTime ∧
      (∀ level ∉ levels, q'.streamsByPrio level = q.streamsByPrio level) ∧
      ((∀ level ∈ levels, q'.streamsByPrio level = []) ∨
        ∃ top, q'.topActivePrioLevel = some top ∧ q'.streamsByPrio top ≠ [] ∧
          ∀ level ∈ levels, level < top → q'.streamsByPrio level = []) := by
  induction levels generalizing q held with
  | nil => exact ⟨q, [], rfl, .nil haccounts hplaces hregistered _, fun _ _ => rfl, .inl (by simp)⟩
  | cons level levels ih =>
    rw [List.pairwise_cons] at hsorted
    obtain ⟨q₁, old, hpurge, hpurged⟩ := purge_eq haccounts hplaces hregistered level q.lastUpdateTime
    by_cases hnil : q₁.streamsByPrio level = []
    · obtain ⟨q₂, more, hrest, hdrops, hothers, htop⟩ :=
        ih hpurged.accounts hpurged.places hpurged.registered hsorted.2
      have hlevel : q₂.streamsByPrio level = [] :=
        (hothers level fun hmem => lt_irrefl _ (hsorted.1 level hmem)).trans hnil
      rw [hpurged.kept.lastUpdateTime] at hdrops
      refine ⟨q₂, old ++ more, by simp [findTopPrioLevel, hpurge, hnil, hrest],
        hpurged.toDrops.trans haccounts.nodup hdrops, fun other hother => ?_, ?_⟩
      · rw [List.mem_cons, not_or] at hother
        rw [hothers other hother.2, hpurged.others other hother.1]
      · obtain hnone | ⟨top, htop, hsome, hfirst⟩ := htop
        · exact .inl (List.forall_mem_cons.mpr ⟨hlevel, hnone⟩)
        · exact .inr ⟨top, htop, hsome, List.forall_mem_cons.mpr ⟨fun _ => hlevel, hfirst⟩⟩
    · refine ⟨{ q₁ with topActivePrioLevel := some level }, old, by simp [findTopPrioLevel, hpurge, hnil], ?_,
        fun other hother => ?_, .inr ⟨level, rfl, hnil, ?_⟩⟩
      · exact hpurged.toDrops.withTop (some level)
      · exact hpurged.others other fun heq => hother (by simp [heq])
      · intro other hother hlt
        obtain rfl | hother := List.mem_cons.mp hother
        · exact absurd hlt (lt_irrefl _)
        · exact absurd hlt (hsorted.1 other hother).asymm

/-- No priority before the first one has packets. -/
theorem maybeUpdateTopPrioLevel_eq (haccounts : q.Accounts held []) (hplaces : q.Places c held)
    (hregistered : q.Registered)
    (hbelow : ∀ top, q.topActivePrioLevel = some top → ∀ level < top, q.streamsByPrio level = []) :
    ∃ q' old, q.maybeUpdateTopPrioLevel c = some (q', old) ∧ Drops c q q' held old [] q.lastUpdateTime ∧
      q'.TopFound := by
  by_cases hactive : q.topActivePrioLevel.any (fun level => !(q.streamsByPrio level).isEmpty) = true
  · refine ⟨q, [], if_pos hactive, .nil haccounts hplaces hregistered _, ?_⟩
    cases htop : q.topActivePrioLevel with
    | none => simp [htop] at hactive
    | some top =>
      simp only [TopFound, htop]
      exact ⟨by simpa [htop] using hactive, hbelow top htop⟩
  · obtain ⟨q₁, old, hfind, hdrops, -, htop⟩ :=
      findTopPrioLevel_eq haccounts hplaces hregistered (List.pairwise_lt_finRange kNumPriorityLevels)
    have hsize := hdrops.accounts.size
    rw [maybeUpdateTopPrioLevel, if_neg hactive, hfind]
    by_cases hnone : q₁.sizePackets = 0
    · refine ⟨{ q₁ with topActivePrioLevel := none }, old, by simp [hnone], ?_, ?_⟩
      · exact hdrops.withTop none
      · have hnil : held.diff old = [] := List.length_eq_zero_iff.mp (by omega)
        have hplaces' := hdrops.places
        rw [hnil] at hplaces'
        exact fun level => streamsByPrio_of_nil hplaces' hdrops.registered level
    · refine ⟨q₁, old, by simp [hnone], hdrops, ?_⟩
      obtain ⟨p, hp⟩ := List.exists_mem_of_ne_nil (held.diff old)
        fun hnil => hnone (by simp [hsize, hnil])
      have hmem := streamsByPrio_of_mem hdrops.places hdrops.registered hp
      obtain hempty | ⟨top, htop, hsome, hfirst⟩ := htop
      · rw [hempty _ (List.mem_finRange _)] at hmem
        cases hmem
      · simp only [TopFound, htop]
        exact ⟨hsome, fun level => hfirst level (List.mem_finRange _)⟩

end PrioritizedPacketQueue

end CrossTransfer.Minirtc
