import CrossTransfer.Minirtc.PacketQueueSteps

/-! # Runs of the queue of the pacer

Whatever is pushed, popped, removed and paused, and at whatever times, no operation reads what is not there,
and what the queue says about itself is true (`queued_run`). Packets of a stream and a priority are popped
in the order in which they were pushed (`popped_run`), and a packet waits for no packet of a lower priority,
and of its own priority only for one of each stream in front of its own (`turn_run`).
-/

namespace CrossTransfer.Minirtc

open CrossTransfer.Library

/-- A queue, and for what is said about it the packets that were pushed, those that are held, those that
    were popped and those that were dropped or removed. -/
structure Pacing where
  queue : PrioritizedPacketQueue
  pushed : List QueuedPacket := []
  held : List QueuedPacket := []
  popped : List QueuedPacket := []
  dropped : List QueuedPacket := []

inductive QueueEvent
  | push (enqueueTime : Int) (packet : RtpPacketToSend)
  | pop
  | removePacketsForSsrc (ssrc : UInt32)
  | setPauseState (paused : Bool) (now : Int)
  | updateAverageQueueTime (now : Int)

namespace Pacing

variable (c : QueueConfiguration)

def step (r : Pacing) : QueueEvent → Option Pacing
  | .push enqueueTime packet => do
    let (queue, queued, gone) ← r.queue.push c enqueueTime packet
    return { r with
      queue
      pushed := r.pushed ++ [queued]
      held := r.held.diff gone ++ [queued]
      dropped := r.dropped ++ gone }
  | .pop => do
    match ← r.queue.pop c with
    | (queue, none) => return { r with queue }
    | (queue, some out) => return { r with
        queue
        held := r.held.diff (out.packet :: out.dropped)
        popped := r.popped ++ [out.packet]
        dropped := r.dropped ++ out.dropped }
  | .removePacketsForSsrc ssrc => do
    let (queue, gone) ← r.queue.removePacketsForSsrc c ssrc
    return { r with queue, held := r.held.diff gone, dropped := r.dropped ++ gone }
  | .setPauseState paused now => some { r with queue := r.queue.setPauseState paused now }
  | .updateAverageQueueTime now => some { r with queue := r.queue.updateAverageQueueTime now }

def machine (creationTime : Int) : Machine Pacing QueueEvent :=
  ⟨{ queue := .create creationTime }, step c⟩

open PrioritizedPacketQueue

variable {c} {r r' : Pacing} {p : QueuedPacket}

/-! ## What an event does -/

variable (c r r') in
/-- The packets `new`, `out` and `gone` are pushed, popped and dropped. -/
structure Moves (new out gone : List QueuedPacket) : Prop where
  holds : Holds c r'.queue r'.held
  pushed : r'.pushed = r.pushed ++ new
  popped : r'.popped = r.popped ++ out
  dropped : r'.dropped = r.dropped ++ gone
  held : r'.held = r.held.diff (out ++ gone) ++ new
  subset : out ++ gone ⊆ r.held
  apart : (out ++ gone).Nodup
  fresh : ∀ p ∈ new, r.queue.nextAddress ≤ p.enqueueTimeIterator.address
  nextAddress : r.queue.nextAddress ≤ r'.queue.nextAddress

variable (c r r') in
/-- The streams in front of the stream of a packet that stays. -/
def InTurn (out : List QueuedPacket) : Prop := ∀ p ∈ r.held, p ∈ r'.held →
  (r.held.filter (InQueue c p.packet.ssrc (c.prioLevel p.packet))).head? = some p →
  (∀ p' ∈ out, c.prioLevel p'.packet ≤ c.prioLevel p.packet) ∧
  (r'.queue.streamsByPrio (c.prioLevel p.packet)).idxOf p.packet.ssrc +
      out.countP (c.prioLevel ·.packet = c.prioLevel p.packet) ≤
    (r.queue.streamsByPrio (c.prioLevel p.packet)).idxOf p.packet.ssrc

end Pacing

theorem idxOf_le_of_sublist {α : Type*} [DecidableEq α] {l l' : List α} {a : α} (h : l.Sublist l')
    (hnodup : l'.Nodup) (ha : a ∈ l) : l.idxOf a ≤ l'.idxOf a := by
  induction h with
  | slnil => exact le_rfl
  | @cons l l' b h ih =>
    rw [List.nodup_cons] at hnodup
    have hne : b ≠ a := fun heq => hnodup.1 (heq ▸ h.subset ha)
    rw [List.idxOf_cons_ne _ hne]
    exact (ih hnodup.2 ha).trans (Nat.le_succ _)
  | @cons_cons l l' b h ih =>
    rw [List.nodup_cons] at hnodup
    by_cases hb : b = a
    · simp [hb]
    · have ha' : a ∈ l := by simpa [Ne.symm hb] using ha
      rw [List.idxOf_cons_ne _ hb, List.idxOf_cons_ne _ hb]
      exact Nat.succ_le_succ (ih hnodup.2 ha')

namespace Pacing

open PrioritizedPacketQueue QueueConfiguration

variable {c : QueueConfiguration} {r r' : Pacing} {p : QueuedPacket}

/-- Streams that stay keep their order. -/
theorem inTurn_of_sublist (hholds : Holds c r.queue r.held) (hholds' : Holds c r'.queue r'.held)
    (hsub : ∀ level, (r'.queue.streamsByPrio level).Sublist (r.queue.streamsByPrio level)) :
    InTurn c r r' [] := by
  intro p _ hp' _
  refine ⟨by simp, ?_⟩
  exact idxOf_le_of_sublist (hsub _) (hholds.registered.apart _)
    (streamsByPrio_of_mem hholds'.places hholds'.registered hp')

theorem inTurn_push {new : QueuedPacket} {gone : List QueuedPacket} {enqueueTime : Int}
    {packet : RtpPacketToSend} (hholds : Holds c r.queue r.held)
    (h : Pushes c r.queue r'.queue r.held gone enqueueTime packet new)
    (hheld : r'.held = r.held.diff gone ++ [new]) : InTurn c r r' [] := by
  intro p hp hp' _
  refine ⟨by simp, ?_⟩
  obtain ⟨ssrcs, hsub, hstay, hstreams⟩ := h.inOrder (c.prioLevel p.packet)
  have hnew : p ≠ new := by
    rintro rfl
    have hfresh := hholds.accounts.fresh p.enqueueTimeIterator
      (by simpa [hholds.accounts.times] using ⟨p, hp, rfl⟩)
    rw [h.node] at hfresh
    exact lt_irrefl _ hfresh
  have hmem : p.packet.ssrc ∈ ssrcs := by
    apply hstay p _ rfl
    rw [hheld] at hp'
    simpa [hnew] using hp'
  have hle := idxOf_le_of_sublist hsub (hholds.registered.apart _) hmem
  obtain hstreams | hstreams := hstreams
  · rw [hstreams]
    exact hle
  · rw [hstreams, List.idxOf_append_of_mem hmem]
    exact hle

theorem inTurn_pop {out : Popped} (hholds : Holds c r.queue r.held) (h : Pops c r.queue r'.queue r.held out)
    (hheld : r'.held = r.held.diff (out.packet :: out.dropped)) : InTurn c r r' [out.packet] := by
  intro p hp hp' hfirst
  have hstays := hp'
  rw [hheld, hholds.accounts.nodup.mem_sdiff_iff, List.mem_cons, not_or] at hstays
  refine ⟨by simpa using h.least p hp, ?_⟩
  have hmem := streamsByPrio_of_mem h.holds.places h.holds.registered (hheld ▸ hp')
  have hsub := h.inOrder (c.prioLevel p.packet)
  by_cases hlevel : c.prioLevel p.packet = c.prioLevel out.packet.packet
  · -- The stream in front goes to the end.
    have hturn := h.turn
    have holdest := h.oldest
    rw [← hlevel] at hturn holdest
    have hne : out.packet.packet.ssrc ≠ p.packet.ssrc := by
      intro heq
      rw [heq, hfirst] at holdest
      exact hstays.2.1 (Option.some.inj holdest)
    obtain ⟨ssrcs, hstreams⟩ : ∃ ssrcs, r.queue.streamsByPrio (c.prioLevel p.packet) =
        out.packet.packet.ssrc :: ssrcs := by
      cases hq : r.queue.streamsByPrio (c.prioLevel p.packet) with
      | nil => simp [hq] at hturn
      | cons ssrc ssrcs => exact ⟨ssrcs, by simpa [hq] using hturn⟩
    rw [if_pos hlevel, hstreams, List.tail_cons] at hsub
    have hnodup := hholds.registered.apart (c.prioLevel p.packet)
    rw [hstreams] at hnodup
    have hnodup' : (ssrcs ++ [out.packet.packet.ssrc]).Nodup :=
      (List.perm_append_singleton _ _).nodup_iff.mpr hnodup
    have hle := idxOf_le_of_sublist hsub hnodup' hmem
    have hin : p.packet.ssrc ∈ ssrcs := by
      have hin := hsub.subset hmem
      simpa [Ne.symm hne] using hin
    rw [List.idxOf_append_of_mem hin] at hle
    rw [hstreams, List.idxOf_cons_ne _ hne]
    simpa [hlevel] using hle
  · rw [if_neg hlevel] at hsub
    have hle := idxOf_le_of_sublist hsub (hholds.registered.apart _) hmem
    simpa [Ne.symm hlevel] using hle

variable (c r) in
/-- Nothing is popped, or the oldest packet of some stream and priority. -/
def Oldest (out : List QueuedPacket) : Prop := out = [] ∨ ∃ p, out = [p] ∧
  (r.held.filter (InQueue c p.packet.ssrc (c.prioLevel p.packet))).head? = some p

theorem holds_update (h : Holds c r.queue r.held) (now : Int) :
    Holds c (r.queue.updateAverageQueueTime now) r.held := by
  obtain ⟨hstreams, hprio, htop, -⟩ := updateAverageQueueTime_frame r.queue now
  have hsame (s : UInt32) (level : PriorityLevel) :
      (r.queue.updateAverageQueueTime now).packetsAt s level = r.queue.packetsAt s level := by
    simp only [packetsAt, hstreams]
  refine ⟨h.accounts.updateAverageQueueTime now,
    ⟨fun s level => (hsame s level).trans (h.places.queues s level), fun s t ht => ?_⟩,
    ⟨fun level => hprio ▸ h.registered.apart level, fun level s => ?_⟩, ?_⟩
  · exact h.places.keyframes s t (hstreams ▸ ht)
  · rw [hprio, hsame]
    exact h.registered.mem_iff level s
  · have hfound := h.top
    unfold TopFound at hfound ⊢
    rwa [htop, hprio]

/-- Every event can happen. -/
theorem event_eq (h : Holds c r.queue r.held) (a : QueueEvent) :
    ∃ r' new out gone, r.step c a = some r' ∧ Moves c r r' new out gone ∧ Oldest c r out ∧ InTurn c r r' out := by
  have hquiet {queue : PrioritizedPacketQueue} (hholds : Holds c queue r.held)
      (hnext : queue.nextAddress = r.queue.nextAddress)
      (hprio : queue.streamsByPrio = r.queue.streamsByPrio) :
      Moves c r { r with queue } [] [] [] ∧ Oldest c r [] ∧ InTurn c r { r with queue } [] := by
    refine ⟨⟨hholds, by simp, by simp, by simp, by simp, by simp, by simp, by simp, hnext.ge⟩, .inl rfl,
      inTurn_of_sublist h hholds fun level => ?_⟩
    simp [hprio]
  cases a with
  | push enqueueTime packet =>
    obtain ⟨queue, queued, gone, hpush, hpushes⟩ := push_eq h enqueueTime packet
    refine ⟨_, [queued], [], gone, by rw [step, hpush]; rfl, ?_, .inl rfl, inTurn_push h hpushes rfl⟩
    refine ⟨hpushes.holds, rfl, by simp, rfl, rfl, hpushes.subset, hpushes.apart, ?_, ?_⟩
    · simp [hpushes.node]
    · simp [hpushes.nextAddress]
  | pop =>
    by_cases hnil : r.held = []
    · have hpop := pop_of_nil (hnil ▸ h)
      obtain ⟨hmoves, holdest, hturn⟩ := hquiet h rfl rfl
      exact ⟨_, [], [], [], by rw [step, hpop]; rfl, hmoves, holdest, hturn⟩
    · obtain ⟨queue, out, hpop, hpops⟩ := pop_eq h hnil
      refine ⟨_, [], [out.packet], out.dropped, by rw [step, hpop]; rfl, ?_, .inr ⟨_, rfl, hpops.oldest⟩,
        inTurn_pop h hpops rfl⟩
      exact ⟨hpops.holds, by simp, rfl, rfl, by simp, hpops.subset, hpops.apart, by simp,
        hpops.kept.nextAddress.ge⟩
  | removePacketsForSsrc ssrc =>
    obtain ⟨queue, gone, hremove, hremoves⟩ := removePacketsForSsrc_eq h ssrc
    refine ⟨_, [], [], gone, by rw [step, hremove]; rfl, ?_, .inl rfl,
      inTurn_of_sublist h hremoves.holds hremoves.inOrder⟩
    exact ⟨hremoves.holds, by simp, by simp, rfl, by simp, hremoves.subset, hremoves.apart, by simp,
      hremoves.kept.nextAddress.ge⟩
  | setPauseState paused now =>
    have hholds := holds_update h now
    obtain ⟨-, hprio, -, hnext⟩ := updateAverageQueueTime_frame r.queue now
    have hpaused : Holds c (r.queue.setPauseState paused now) r.held :=
      ⟨⟨hholds.accounts.times, hholds.accounts.apart, hholds.accounts.fresh, hholds.accounts.size,
        hholds.accounts.perType, hholds.accounts.payload, hholds.accounts.time⟩,
        ⟨hholds.places.queues, hholds.places.keyframes⟩,
        ⟨hholds.registered.apart, hholds.registered.mem_iff⟩, hholds.top⟩
    obtain ⟨hmoves, holdest, hturn⟩ := hquiet hpaused hnext hprio
    exact ⟨_, [], [], [], rfl, hmoves, holdest, hturn⟩
  | updateAverageQueueTime now =>
    obtain ⟨-, hprio, -, hnext⟩ := updateAverageQueueTime_frame r.queue now
    obtain ⟨hmoves, holdest, hturn⟩ := hquiet (holds_update h now) hnext hprio
    exact ⟨_, [], [], [], rfl, hmoves, holdest, hturn⟩

theorem event_of_step (h : Holds c r.queue r.held) {a : QueueEvent} (hstep : r.step c a = some r') :
    ∃ new out gone, Moves c r r' new out gone ∧ Oldest c r out ∧ InTurn c r r' out := by
  obtain ⟨r'', new, out, gone, hr'', hevent⟩ := event_eq h a
  obtain rfl : r'' = r' := Option.some.inj (hr''.symm.trans hstep)
  exact ⟨new, out, gone, hevent⟩

/-! ## Whole runs -/

variable {creationTime : Int} {as : List QueueEvent}

theorem holds_create : Holds c (.create creationTime) [] where
  accounts := ⟨rfl, List.nodup_nil, by simp [create], rfl, fun _ => rfl, rfl, rfl⟩
  places := ⟨fun ssrc level => by simp [packetsAt, create], fun ssrc stream h => by simp [create] at h⟩
  registered := ⟨fun level => List.nodup_nil, fun level ssrc => by simp [packetsAt, create]⟩
  top := fun _ => rfl

theorem holds_run (run : (machine c creationTime).Run Machine.anyStep as r) : Holds c r.queue r.held := by
  refine run.invariant (fun r => Holds c r.queue r.held) holds_create ?_
  intro r a r' h _ hstep
  obtain ⟨new, out, gone, hmoves, -⟩ := event_of_step h hstep
  exact hmoves.holds

/-- Every packet that was pushed is in one place. -/
theorem accounted_run (run : (machine c creationTime).Run Machine.anyStep as r) :
    (r.popped ++ r.dropped ++ r.held).Perm r.pushed := by
  refine run.history (fun _ r => (r.popped ++ r.dropped ++ r.held).Perm r.pushed) (by simp [machine]) ?_
  intro as r a r' hrun h _ hstep
  have hholds := holds_run (hrun.mono fun _ _ _ => trivial)
  obtain ⟨new, out, gone, hmoves, -⟩ := event_of_step hholds hstep
  have hsplit : r.held.Perm (out ++ gone ++ r.held.diff (out ++ gone)) :=
    (List.subperm_append_diff_self_of_count_le fun p _ =>
      (hmoves.apart.subperm hmoves.subset).count_le p).symm
  rw [hmoves.popped, hmoves.dropped, hmoves.held, hmoves.pushed]
  rw [List.perm_iff_count] at h hsplit ⊢
  intro p
  have hbefore := h p
  have hheld := hsplit p
  simp only [List.count_append] at hbefore hheld ⊢
  omega

/-- What the queue says about itself. -/
structure Truthful (c : QueueConfiguration) (r : Pacing) : Prop where
  size : r.queue.sizePackets = r.held.length
  perType : ∀ type, r.queue.sizePacketsPerMediaType type = r.held.countP (·.packet.packetType = type)
  payload : r.queue.sizePayload = (r.held.map fun p => (p.packet.payloadSize + p.packet.paddingSize : Int)).sum
  average : r.queue.averageQueueTime = if r.held = [] then 0 else
    ((r.held.map r.queue.timeInNonPausedState).sum).tdiv r.held.length
  oldest : r.queue.oldestEnqueueTime = r.held.head?.map (·.enqueueTimeIterator.time)
  keyframes : ∀ ssrc, r.queue.hasKeyframePackets ssrc = true ↔
    ∃ p ∈ r.held, p.packet.ssrc = ssrc ∧ p.packet.isKeyFrame = true

theorem truthful (h : Holds c r.queue r.held) : Truthful c r where
  size := h.accounts.size
  perType := h.accounts.perType
  payload := h.accounts.payload
  average := by
    rw [averageQueueTime, h.accounts.size, h.accounts.time]
    simp
  oldest := by
    rw [oldestEnqueueTime, h.accounts.times, List.append_nil, List.head?_map, Option.map_map]
    rfl
  keyframes ssrc := by
    cases hstream : r.queue.streams[ssrc]? with
    | none =>
      simp only [hasKeyframePackets, hstream, Option.any_none, Bool.false_eq_true, false_iff]
      rintro ⟨p, hp, hssrc, -⟩
      have hmem := streamsByPrio_of_mem h.places h.registered hp
      rw [h.registered.mem_iff, hssrc, packetsAt, hstream] at hmem
      exact hmem rfl
    | some stream =>
      have hcount := h.places.keyframes ssrc stream hstream
      simp only [hasKeyframePackets, hstream, Option.any_some, hcount, Int.natCast_pos, List.countP_pos_iff,
        IsKeyframeOf, decide_eq_true_eq]

/-- In every run every operation has a result, each packet that was pushed is held, or was popped, dropped or
    removed, once, the queue of a stream and a priority has those of its packets that are held, in the order in
    which they were pushed, and the counters, the average time in the queue, the oldest time and the keyframes
    are those of the packets that are held. -/
theorem queued_run (run : (machine c creationTime).Run Machine.anyStep as r) :
    (∀ a, ∃ r', r.step c a = some r') ∧ (r.popped ++ r.dropped ++ r.held).Perm r.pushed ∧
      r.held.Sublist r.pushed ∧
      (∀ ssrc level, r.queue.packetsAt ssrc level = r.held.filter (InQueue c ssrc level)) ∧ Truthful c r := by
  have hholds := holds_run run
  refine ⟨fun a => ?_, accounted_run run, ?_, hholds.places.queues, truthful hholds⟩
  · obtain ⟨r', -, -, -, hstep, -⟩ := event_eq hholds a
    exact ⟨r', hstep⟩
  · refine run.history (fun _ r => r.held.Sublist r.pushed) (by simp [machine]) ?_
    intro as r a r' hrun h _ hstep
    obtain ⟨new, out, gone, hmoves, -⟩ := event_of_step (holds_run (hrun.mono fun _ _ _ => trivial)) hstep
    rw [hmoves.held, hmoves.pushed]
    exact ((List.diff_sublist ..).trans h).append_right new

/-- An audio packet that overtakes two of a video. -/
theorem queued_run_audio : ∃ r, (machine {} 0).Run Machine.anyStep
    [.push 0 ⟨1, 10, .video, none, true, 1000, 0⟩, .push 10 ⟨1, 11, .video, none, false, 500, 0⟩,
      .push 20 ⟨3, 7, .audio, none, false, 100, 0⟩, .pop] r ∧
    (r.popped ++ r.dropped ++ r.held).Perm r.pushed ∧ Truthful {} r := by
  obtain ⟨r, hr⟩ : ∃ r, (machine {} 0).exec
      [.push 0 ⟨1, 10, .video, none, true, 1000, 0⟩, .push 10 ⟨1, 11, .video, none, false, 500, 0⟩,
        .push 20 ⟨3, 7, .audio, none, false, 100, 0⟩, .pop] (machine {} 0).init = some r :=
    ⟨_, rfl⟩
  have run := Machine.run_of_exec hr
  obtain ⟨-, haccounted, -, -, htruthful⟩ := queued_run run
  exact ⟨r, run, haccounted, htruthful⟩

theorem filter_diff {f : QueuedPacket → Bool} {l gone : List QueuedPacket} (hnodup : l.Nodup) :
    (l.diff gone).filter f = (l.filter f).filter (· ∉ gone) := by
  rw [hnodup.sdiff_eq_filter, List.filter_filter, List.filter_filter]
  exact List.filter_congr fun p _ => Bool.and_comm ..

/-- Packets of a stream and a priority are popped in the order in which they were pushed, and before those
    that are still held. -/
theorem popped_run (run : (machine c creationTime).Run Machine.anyStep as r) (ssrc : UInt32)
    (level : PriorityLevel) : ((r.popped ++ r.held).filter (InQueue c ssrc level)).Sublist
      (r.pushed.filter (InQueue c ssrc level)) := by
  refine run.history (fun _ r => ((r.popped ++ r.held).filter (InQueue c ssrc level)).Sublist
    (r.pushed.filter (InQueue c ssrc level))) (by simp [machine]) ?_
  intro as r a r' hrun h _ hstep
  have hholds := holds_run (hrun.mono fun _ _ _ => trivial)
  have hnodup := hholds.accounts.nodup
  obtain ⟨new, out, gone, hmoves, holdest, -⟩ := event_of_step hholds hstep
  -- What is popped was in front, and the others stay in their order.
  have hfront : ((out ++ r.held.diff (out ++ gone)).filter (InQueue c ssrc level)).Sublist
      (r.held.filter (InQueue c ssrc level)) := by
    rw [List.filter_append, filter_diff hnodup]
    obtain rfl | ⟨p, rfl, hp⟩ := holdest
    · simp only [List.filter_nil, List.nil_append]
      exact List.filter_sublist
    · by_cases hin : InQueue c ssrc level p = true
      · have hqueue := hin
        simp only [InQueue, decide_eq_true_eq] at hqueue
        rw [hqueue.1, hqueue.2] at hp
        obtain ⟨rest, hrest⟩ : ∃ rest, r.held.filter (InQueue c ssrc level) = p :: rest := by
          cases hfilter : r.held.filter (InQueue c ssrc level) with
          | nil => simp [hfilter] at hp
          | cons p' rest => exact ⟨rest, by simpa [hfilter] using hp⟩
        rw [hrest, List.filter_cons_of_pos hin, List.filter_nil, List.filter_cons_of_neg (by simp),
          List.singleton_append]
        exact List.filter_sublist.cons_cons p
      · rw [List.filter_cons_of_neg hin, List.filter_nil, List.nil_append]
        exact List.filter_sublist
  rw [hmoves.popped, hmoves.held, hmoves.pushed, List.append_assoc, ← List.append_assoc out,
    ← List.append_assoc r.popped, List.filter_append, List.filter_append r.pushed,
    List.filter_append]
  rw [List.filter_append] at h
  exact (((List.Sublist.refl _).append hfront).trans h).append_right _

/-- The packets of one stream, of which one was popped. -/
theorem popped_run_video : ∃ r, (machine {} 0).Run Machine.anyStep
    [.push 0 ⟨1, 10, .video, none, true, 1000, 0⟩, .push 10 ⟨1, 11, .video, none, false, 500, 0⟩, .pop] r ∧
    ((r.popped ++ r.held).filter (InQueue {} 1 3)).Sublist (r.pushed.filter (InQueue {} 1 3)) := by
  obtain ⟨r, hr⟩ : ∃ r, (machine {} 0).exec
      [.push 0 ⟨1, 10, .video, none, true, 1000, 0⟩, .push 10 ⟨1, 11, .video, none, false, 500, 0⟩, .pop]
      (machine {} 0).init = some r :=
    ⟨_, rfl⟩
  have run := Machine.run_of_exec hr
  exact ⟨r, run, popped_run run 1 3⟩

/-! ## How long a packet waits -/

/-- What is held later was held before, or is new. -/
theorem held_of_exec (hholds : Holds c r.queue r.held) (h : (machine c creationTime).exec as r = some r')
    (hp : p ∈ r'.held) (hold : p.enqueueTimeIterator.address < r.queue.nextAddress) : p ∈ r.held := by
  induction as generalizing r with
  | nil =>
    obtain rfl : r = r' := Option.some.inj h
    exact hp
  | cons a as ih =>
    simp only [Machine.exec, Option.bind_eq_some_iff] at h
    obtain ⟨mid, hstep, hrest⟩ := h
    obtain ⟨new, out, gone, hmoves, -⟩ := event_of_step hholds hstep
    have hmid := ih hmoves.holds hrest (hold.trans_le hmoves.nextAddress)
    rw [hmoves.held] at hmid
    obtain hmid | hmid := List.mem_append.mp hmid
    · exact (List.diff_sublist ..).subset hmid
    · exact absurd (hmoves.fresh p hmid) (not_le.mpr hold)

theorem turn_exec (hholds : Holds c r.queue r.held) (h : (machine c creationTime).exec as r = some r')
    (hp : p ∈ r.held) (hp' : p ∈ r'.held)
    (hfirst : (r.held.filter (InQueue c p.packet.ssrc (c.prioLevel p.packet))).head? = some p) :
    ∃ out, r'.popped = r.popped ++ out ∧ (∀ p' ∈ out, c.prioLevel p'.packet ≤ c.prioLevel p.packet) ∧
      out.countP (c.prioLevel ·.packet = c.prioLevel p.packet) ≤
        (r.queue.streamsByPrio (c.prioLevel p.packet)).idxOf p.packet.ssrc := by
  induction as generalizing r with
  | nil =>
    obtain rfl : r = r' := Option.some.inj h
    exact ⟨[], by simp, by simp, by simp⟩
  | cons a as ih =>
    simp only [Machine.exec, Option.bind_eq_some_iff] at h
    obtain ⟨mid, hstep, hrest⟩ := h
    obtain ⟨new, out, gone, hmoves, -, hturn⟩ := event_of_step hholds hstep
    have hold : p.enqueueTimeIterator.address < r.queue.nextAddress := by
      apply hholds.accounts.fresh
      rw [hholds.accounts.times, List.append_nil]
      exact List.mem_map_of_mem hp
    have hmid := held_of_exec hmoves.holds hrest hp' (hold.trans_le hmoves.nextAddress)
    obtain ⟨hless, hcount⟩ := hturn p hp hmid hfirst
    -- It is still the first one of its stream.
    have hfirst' : (mid.held.filter (InQueue c p.packet.ssrc (c.prioLevel p.packet))).head? = some p := by
      have hstays := hmid
      rw [hmoves.held] at hstays ⊢
      have hnew : p ∉ new := fun hmem => absurd (hmoves.fresh p hmem) (not_le.mpr hold)
      have hleft : p ∉ out ++ gone := by
        have hdiff : p ∈ r.held.diff (out ++ gone) := by simpa [hnew] using hstays
        exact (hholds.accounts.nodup.mem_sdiff_iff.mp hdiff).2
      rw [List.filter_append, filter_diff hholds.accounts.nodup]
      cases hfilter : r.held.filter (InQueue c p.packet.ssrc (c.prioLevel p.packet)) with
      | nil => simp [hfilter] at hfirst
      | cons p' rest =>
        obtain rfl : p' = p := by simpa [hfilter] using hfirst
        rw [List.filter_cons_of_pos (by simpa using hleft)]
        rfl
    obtain ⟨more, hmore, hlevels, hwait⟩ := ih hmoves.holds hrest hmid hfirst'
    refine ⟨out ++ more, by rw [hmore, hmoves.popped, List.append_assoc],
      List.forall_mem_append.mpr ⟨hless, hlevels⟩, ?_⟩
    rw [List.countP_append]
    omega

/-- As long as the first packet of a stream and priority waits, no packet of a lower priority is popped, and
    of its own priority at most one for each stream that is in front of its own. -/
theorem turn_run (run : (machine c creationTime).Run Machine.anyStep as r) {bs : List QueueEvent}
    (h : (machine c creationTime).exec bs r = some r') (hp : p ∈ r.held) (hp' : p ∈ r'.held)
    (hfirst : (r.held.filter (InQueue c p.packet.ssrc (c.prioLevel p.packet))).head? = some p) :
    ∃ out, r'.popped = r.popped ++ out ∧ (∀ p' ∈ out, c.prioLevel p'.packet ≤ c.prioLevel p.packet) ∧
      out.countP (c.prioLevel ·.packet = c.prioLevel p.packet) ≤
        (r.queue.streamsByPrio (c.prioLevel p.packet)).idxOf p.packet.ssrc :=
  turn_exec (holds_run run) h hp hp' hfirst

/-- A stream that waits for one other. -/
theorem turn_run_second : ∃ r r', (machine {} 0).Run Machine.anyStep
    [.push 0 ⟨1, 10, .video, none, false, 1000, 0⟩, .push 0 ⟨1, 11, .video, none, false, 1000, 0⟩,
      .push 0 ⟨2, 5, .video, none, false, 1000, 0⟩] r ∧
    (machine {} 0).exec [.pop] r = some r' ∧
    ∃ out, r'.popped = r.popped ++ out ∧ out.countP (prioLevel {} ·.packet = 3) ≤ 1 := by
  obtain ⟨r, r', hr, hr', hheld, hheld', hstreams⟩ : ∃ r r', (machine {} 0).exec
      [.push 0 ⟨1, 10, .video, none, false, 1000, 0⟩, .push 0 ⟨1, 11, .video, none, false, 1000, 0⟩,
        .push 0 ⟨2, 5, .video, none, false, 1000, 0⟩] (machine {} 0).init = some r ∧
      (machine {} 0).exec [.pop] r = some r' ∧
      r.held = [⟨⟨1, 10, .video, none, false, 1000, 0⟩, 0, ⟨0, 0⟩⟩,
        ⟨⟨1, 11, .video, none, false, 1000, 0⟩, 0, ⟨1, 0⟩⟩,
        ⟨⟨2, 5, .video, none, false, 1000, 0⟩, 0, ⟨2, 0⟩⟩] ∧
      r'.held = [⟨⟨1, 11, .video, none, false, 1000, 0⟩, 0, ⟨1, 0⟩⟩,
        ⟨⟨2, 5, .video, none, false, 1000, 0⟩, 0, ⟨2, 0⟩⟩] ∧ r.queue.streamsByPrio 3 = [1, 2] :=
    ⟨_, _, rfl, rfl, rfl, rfl, rfl⟩
  have run := Machine.run_of_exec hr
  obtain ⟨out, hout, -, hcount⟩ := turn_run (p := ⟨⟨2, 5, .video, none, false, 1000, 0⟩, 0, ⟨2, 0⟩⟩) run hr'
    (by simp [hheld]) (by simp [hheld']) (by rw [hheld]; rfl)
  have hlevel : prioLevel {} ⟨2, 5, .video, none, false, 1000, 0⟩ = 3 := rfl
  rw [hlevel, hstreams] at hcount
  exact ⟨r, r', run, hr', out, hout, hcount⟩

end Pacing

end CrossTransfer.Minirtc
