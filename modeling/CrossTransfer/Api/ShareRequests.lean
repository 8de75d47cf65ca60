import CrossTransfer.Api.SessionEffects

/-! # Shares that wait for their server id

`ShareCreate` queues a share; `PumpShareCreates` sends one `create_share` at a time and only
remembers that one is in flight, not for which share. `CreatesWait` is what the queue and the flag
are for: a share in state `creating` is in the queue or its request is the one in flight.

Two things break it. The loss of the signaling connection clears the flag and leaves the share
behind, and a reply goes to the first share in `creating`, which need not be the one it answers.
-/

namespace CrossTransfer.Api

open CrossTransfer.Library
open CrossTransfer.Transfer

namespace Core

/-- The share of the newest `create_share` request; only that one can be in flight. -/
def createOwner (c : Core) : Option Bytes := c.createRequests.getLast?

/-- Every share that is being created is queued, or its request is in flight. -/
def CreatesWait (c : Core) : Prop :=
  ∀ (id : Bytes) (s : Share), c.shares[id]? = some s → s.state = .creating →
    id ∈ c.shareCreateQueue ∨ c.shareCreateInflight = true ∧ c.createOwner = some id

structure Awaiting (c : Core) : Prop where
  waits : c.CreatesWait
  unnamed : ∀ (id : Bytes) (s : Share), c.shares[id]? = some s → s.state = .creating →
    s.shareId = []

variable {io : CoreIo} {c c' : Core}

theorem Awaiting.of_quiet (h : Awaiting c) (quiet : SharesQuiet c c') : Awaiting c' where
  waits id s' hs' hcreating' := by
    obtain ⟨s, hs, -, hcreating⟩ := quiet.shares id s' hs'
    unfold createOwner
    rw [quiet.queue, quiet.inflight, quiet.requests]
    exact h.waits id s hs (hcreating hcreating')
  unnamed id s' hs' hcreating' := by
    obtain ⟨s, hs, hid, hcreating⟩ := quiet.shares id s' hs'
    rw [hid]
    exact h.unnamed id s hs (hcreating hcreating')

/-- A share that stops being created. -/
theorem Awaiting.settle (h : Awaiting c) {id : Bytes} {f : Share → Share}
    (hf : ∀ s, (f s).state ≠ .creating) : Awaiting { c with shares := c.shares.modify id f } where
  waits id' s hs hcreating := by
    simp only [OrderedMap.get_modify] at hs
    split at hs
    · obtain ⟨s, -, rfl⟩ := Option.map_eq_some_iff.mp hs
      exact absurd hcreating (hf s)
    · exact h.waits id' s hs hcreating
  unnamed id' s hs hcreating := by
    simp only [OrderedMap.get_modify] at hs
    split at hs
    · obtain ⟨s, -, rfl⟩ := Option.map_eq_some_iff.mp hs
      exact absurd hcreating (hf s)
    · exact h.unnamed id' s hs hcreating

/-! ## Sending -/

/-- The shares that are being created are in the list `queue` and have no server id. -/
def CreatesIn (c : Core) (queue : List Bytes) : Prop :=
  ∀ (id : Bytes) (s : Share), c.shares[id]? = some s → s.state = .creating →
    id ∈ queue ∧ s.shareId = []

theorem CreatesIn.tail {id : Bytes} {rest : List Bytes} (h : CreatesIn c (id :: rest))
    (hid : ∀ s, c.shares[id]? = some s → s.state ≠ .creating) : CreatesIn c rest := by
  intro id' s hs hcreating
  obtain ⟨hmem, hunnamed⟩ := h id' s hs hcreating
  obtain rfl | hmem := List.mem_cons.mp hmem
  · exact absurd hcreating (hid s hs)
  · exact ⟨hmem, hunnamed⟩

theorem awaiting_pumpShareQueue (queue : List Bytes) (c : Core) (h : CreatesIn c queue) :
    Awaiting (pumpShareQueue io queue c) := by
  induction queue generalizing c with
  | nil =>
    exact ⟨fun id s hs hcreating => absurd (h id s hs hcreating).1 (by simp),
      fun id s hs hcreating => (h id s hs hcreating).2⟩
  | cons id rest ih =>
    simp only [pumpShareQueue]
    split
    · rename_i hnone
      exact ih c (h.tail fun s hs => by rw [hnone] at hs; cases hs)
    · rename_i s hs
      split
      · rename_i hstate
        exact ih c (h.tail fun s' hs' => by rw [hs] at hs'; cases hs'; exact hstate)
      · split
        · -- The request is sent: this share is in flight, the others stay queued.
          refine ⟨fun id' s' hs' hcreating => ?_, fun id' s' hs' hcreating => ?_⟩
          · obtain ⟨hmem, -⟩ := h id' s' hs' hcreating
            obtain rfl | hmem := List.mem_cons.mp hmem
            · exact .inr ⟨rfl, by simp [createOwner, createRequests, call, PeerCall.creates]⟩
            · exact .inl hmem
          · exact (h id' s' hs' hcreating).2
        · apply ih
          intro id' s' hs' hcreating
          simp only [setShare, OrderedMap.get_insert] at hs'
          split at hs'
          · cases hs'
            cases hcreating
          · rename_i hne
            obtain ⟨hmem, hunnamed⟩ := h id' s' hs' hcreating
            exact ⟨(List.mem_cons.mp hmem).resolve_left hne, hunnamed⟩

theorem Awaiting.pump (h : Awaiting c) : Awaiting (c.pumpShareCreates io) := by
  unfold pumpShareCreates
  split
  · exact h
  · rename_i hidle
    simp only [Bool.or_eq_true, not_or, Bool.not_eq_true] at hidle
    refine awaiting_pumpShareQueue _ c fun id s hs hcreating => ⟨?_, h.unnamed id s hs hcreating⟩
    obtain hmem | ⟨hinflight, -⟩ := h.waits id s hs hcreating
    · exact hmem
    · rw [hidle.1] at hinflight
      cases hinflight

theorem Awaiting.shareCreate (h : Awaiting c) (id : Bytes) (mode : ShareMode) (ttlSec : Int)
    (built : Except Bytes (Manifest × Nat)) : Awaiting (c.shareCreate io id mode ttlSec built) := by
  -- A share that fails at once replaces whatever had its id.
  have hfailed : ∀ s : Share, s.state = .failed → Awaiting (c.setShare id s) := by
    intro s hs
    refine ⟨fun id' s' hs' hcreating => ?_, fun id' s' hs' hcreating => ?_⟩
    all_goals
      simp only [setShare, OrderedMap.get_insert] at hs'
      split at hs'
      · cases hs'
        rw [hs] at hcreating
        cases hcreating
    · exact h.waits id' s' hs' hcreating
    · exact h.unnamed id' s' hs' hcreating
  unfold Core.shareCreate
  simp only
  split
  · exact hfailed _ rfl
  · split
    · exact hfailed _ rfl
    · rename_i m fileCount _ c' hpeer
      have quiet := (quiet_ensurePeer io hpeer).shareSide
      apply Awaiting.pump
      refine ⟨fun id' s' hs' hcreating => ?_, fun id' s' hs' hcreating => ?_⟩
      all_goals
        obtain ⟨s, hs, hid, hstate⟩ := quiet.shares id' s' hs'
        simp only [setShare, OrderedMap.get_insert] at hs
        split at hs
      · rename_i heq
        exact .inl (List.mem_append.mpr (.inr (by simpa using heq)))
      · obtain hmem | hflight := h.waits id' s hs (hstate hcreating)
        · refine .inl (List.mem_append.mpr (.inl ?_))
          rw [quiet.queue]
          exact hmem
        · refine .inr ⟨quiet.inflight.trans hflight.1, ?_⟩
          exact (congrArg List.getLast? quiet.requests).trans hflight.2
      · cases hs
        exact hid
      · exact hid.trans (h.unnamed id' s hs (hstate hcreating))

/-! ## Replies and the loss of the connection -/

/-- The share is still being created and its request is in flight. -/
def CreateInFlight (c : Core) (id : Bytes) : Prop :=
  c.shareCreateInflight = true ∧ c.createOwner = some id ∧
    ∃ s, c.shares[id]? = some s ∧ s.state = .creating

/-- The connection is not lost while the request of a share in `creating` is in flight, and a
    reply to such a request finds its share before the others in `creating`. -/
def createsAnswered (c : Core) (a : CoreIo × Event) : Prop :=
  match a.2 with
  | .signal connected => connected = false → c.signalConnected = true → ∀ id, ¬ c.CreateInFlight id
  | .share (.created ..) | .share (.failed _) =>
    ∀ id, c.CreateInFlight id → OrderedMap.firstKey c.shares awaitsId = some id
  | _ => True

/-- With no share in flight the flag can be cleared. -/
theorem Awaiting.clear (h : Awaiting c) (none : ∀ id, ¬ c.CreateInFlight id) :
    Awaiting { c with shareCreateInflight := false } where
  waits id s hs hcreating := by
    obtain hmem | ⟨hinflight, howner⟩ := h.waits id s hs hcreating
    · exact .inl hmem
    · exact absurd ⟨hinflight, howner, s, hs, hcreating⟩ (none id)
  unnamed := h.unnamed

/-- A reply clears the flag and settles the share that it answers. -/
theorem Awaiting.answer (h : Awaiting c) {id : Bytes} (f : Share → Share)
    (hf : ∀ s, (f s).state ≠ .creating) (owner : ∀ id', c.CreateInFlight id' → id' = id) :
    Awaiting { c with shareCreateInflight := false, shares := c.shares.modify id f } := by
  have hsettled : Awaiting { c with shares := c.shares.modify id f } := h.settle hf
  refine hsettled.clear fun id' hflight => ?_
  obtain ⟨hinflight, howner, s, hs, hcreating⟩ := hflight
  simp only [OrderedMap.get_modify] at hs
  split at hs
  · obtain ⟨s, -, rfl⟩ := Option.map_eq_some_iff.mp hs
    exact hf s hcreating
  · rename_i hne
    exact hne (owner id' ⟨hinflight, howner, s, hs, hcreating⟩)

theorem Awaiting.reply (h : Awaiting c) {ev : ShareEvent} (hok : createsAnswered c (io, .share ev))
    (hreply : Event.onShareRequests (.share ev) = true) : Awaiting (c.onShareEvent io ev) := by
  have flight : ∀ id, c.CreateInFlight id → OrderedMap.firstKey c.shares awaitsId = some id := by
    cases ev with
    | created => exact hok
    | failed => exact hok
    | claimed => cases hreply
    | closed => cases hreply
  cases ev with
  | claimed => cases hreply
  | closed => cases hreply
  | created shareId code expiresAt =>
    simp only [onShareEvent]
    split
    · rename_i hnone
      refine (h.clear fun id hflight => ?_).of_quiet (quiet_call _ rfl rfl).shareSide
      rw [flight id hflight] at hnone
      cases hnone
    · rename_i id hfirst
      refine (h.answer (readyShare · shareId code expiresAt) (fun s => ?_) fun id' hflight => ?_).pump
      · simp [readyShare]
      · exact Option.some.inj ((flight id' hflight).symm.trans hfirst)
  | failed detail =>
    simp only [onShareEvent]
    split
    · rename_i hnone
      refine (h.clear fun id hflight => ?_).pump
      rw [flight id hflight] at hnone
      cases hnone
    · rename_i id hfirst
      refine (h.answer (failedShare · detail) (fun s => ?_) fun id' hflight => ?_).pump
      · simp [failedShare]
      · exact Option.some.inj ((flight id' hflight).symm.trans hfirst)

theorem Awaiting.signal (h : Awaiting c) {connected : Bool}
    (hok : createsAnswered c (io, .signal connected)) : Awaiting (c.onSignal io connected) := by
  have hset : Awaiting { c with signalConnected := connected } :=
    h.of_quiet (quiet_sessions c ..).shareSide
  unfold onSignal
  simp only
  split
  · exact hset.pump.of_quiet (sharesQuiet_pumpClaims io _)
  · split
    · rename_i hlost
      simp only [Bool.and_eq_true, Bool.not_eq_true'] at hlost
      have hclear := hset.clear fun id hflight => hok hlost.1 hlost.2 id hflight
      have hcleared : Awaiting { { c with signalConnected := connected } with
          shareCreateInflight := false, claimInflight := false } :=
        hclear.of_quiet (sharesQuiet_claims _ ..)
      refine hcleared.of_quiet ?_
      · exact ((quiet_foldl _ (fun c id => quiet_loseShare io c id) _ _).trans
          (quiet_foldl _ (fun c id => quiet_loseReceive io c id) _ _)).shareSide
    · exact hset

/-! ## Runs -/

theorem awaiting_init (stored : List Receive) (peer : Bool) :
    Awaiting (machine stored peer).init :=
  ⟨fun id s hs => by simp [machine, load] at hs, fun id s hs => by simp [machine, load] at hs⟩

theorem Awaiting.step (h : Awaiting c) {e : Event} (hok : createsAnswered c (io, e)) :
    Awaiting (c.handle io e) := by
  cases hreq : e.onShareRequests with
  | false => exact h.of_quiet (sharesQuiet_handle io c e hreq)
  | true =>
    cases e with
    | shareCreate id mode ttlSec built => exact h.shareCreate id mode ttlSec built
    | signal connected => exact h.signal hok
    | share ev => exact h.reply hok hreq
    | _ => cases hreq

theorem createsWait_run {stored : List Receive} {peer : Bool} {as : List (CoreIo × Event)}
    (run : (machine stored peer).Run createsAnswered as c) : c.CreatesWait := by
  have awaiting : Awaiting c := by
    refine run.invariant Awaiting (awaiting_init stored peer) fun c a c' h hok hstep => ?_
    obtain rfl := Option.some.inj hstep
    exact h.step hok
  exact awaiting.waits

/-- `ShareCreate` of one file of one byte. -/
def createOneFile (id : Bytes) : CoreIo × Event :=
  (.steady, .shareCreate id .once 600 (.ok (⟨[⟨ascii "a", 1⟩], [], [⟨ascii "a", false⟩], 1⟩, 1)))

/-- The share is created, then the connection comes up and the request is sent. -/
def sentShareRun : List (CoreIo × Event) := [createOneFile (ascii "sh_1"), (.steady, .signal true)]

/-- The connection is lost before the reply. -/
def droppedShareRun : List (CoreIo × Event) := sentShareRun ++ [(.steady, .signal false)]

theorem exec_sentShareRun :
    ((machine [] true).exec sentShareRun (machine [] true).init).map (fun c =>
      (c.shareCreateQueue, (c.shares[ascii "sh_1"]?).map (·.state))) =
    some ([], some .creating) := by
  decide +kernel

theorem createsWait_sentShare :
    ∃ c, (machine [] true).Run createsAnswered sentShareRun c ∧ c.shareCreateInflight = true ∧
      c.createOwner = some (ascii "sh_1") := by
  obtain ⟨c, hexec, hc⟩ := Option.map_eq_some_iff.mp exec_sentShareRun
  simp only [Prod.mk.injEq, Option.map_eq_some_iff] at hc
  obtain ⟨hqueue, s, hs, hcreating⟩ := hc
  have run : (machine [] true).Run createsAnswered sentShareRun c := by
    refine Machine.Run.extend .init (fun a ha t => ?_) hexec
    simp only [createOneFile, List.mem_cons, List.not_mem_nil, or_false] at ha
    obtain rfl | rfl := ha
    · trivial
    · exact fun hlost => by cases hlost
  obtain hmem | hflight := createsWait_run run _ s hs hcreating
  · rw [hqueue] at hmem
    cases hmem
  · exact ⟨c, run, hflight⟩

theorem exec_droppedShareRun :
    ((machine [] true).exec droppedShareRun (machine [] true).init).map (fun c =>
      (c.shareCreateQueue, c.shareCreateInflight, (c.shares[ascii "sh_1"]?).map (·.state))) =
    some ([], false, some .creating) := by
  decide +kernel

theorem createsWait_droppedShare :
    ∃ c, (machine [] true).Run Machine.anyStep droppedShareRun c ∧ ¬ c.CreatesWait := by
  obtain ⟨c, hexec, hc⟩ := Option.map_eq_some_iff.mp exec_droppedShareRun
  simp only [Prod.mk.injEq, Option.map_eq_some_iff] at hc
  obtain ⟨hqueue, hinflight, s, hs, hcreating⟩ := hc
  refine ⟨c, Machine.run_of_exec hexec, fun waits => ?_⟩
  obtain hmem | ⟨hflight, -⟩ := waits _ s hs hcreating
  · rw [hqueue] at hmem
    cases hmem
  · rw [hinflight] at hflight
    cases hflight

end Core

end CrossTransfer.Api
