import CrossTransfer.Api.SessionSteps

/-! # Transfers by their transfer id

The user interface names a transfer by its transfer id; `transfer_ids_` leads from there to the
session. A receive keeps its transfer id when it is resumed, so an old session that lingers and
the new one that runs share the key: dropping the old one erases it. `Addressed` is the invariant
of the two maps, and `addressingSafe` rules out the steps that take the key of a running session.
-/

namespace CrossTransfer.Api

open CrossTransfer.Library
open CrossTransfer.Transfer
open CrossTransfer.Share (TransferState)

namespace Core

structure Addressed (c : Core) : Prop where
  found : ∀ (sid : Bytes) (t : Running), c.transfers[sid]? = some t → t.closing = false →
    c.transferIds[t.session.transferId]? = some sid
  settled : ∀ (sid : Bytes) (t : Running), c.transfers[sid]? = some t →
    t.closing = t.session.state.terminal

/-- Running transfers are found by their id, and what the user asks for reaches them. -/
structure Addressable (c : Core) : Prop where
  found : ∀ (sid : Bytes) (t : Running), c.transfers[sid]? = some t → t.closing = false →
    c.transferIds[t.session.transferId]? = some sid
  pause : ∀ (sid : Bytes) (t : Running), c.transfers[sid]? = some t → t.closing = false →
    ∀ paused, c.transferPause t.session.transferId paused = c.pauseSession sid paused
  cancel : ∀ (sid : Bytes) (t : Running), c.transfers[sid]? = some t → t.closing = false →
    ∀ io, c.transferCancel io t.session.transferId = c.cancelSession io sid (ascii "user")
  /-- After `TransferCancel` no session with that transfer id runs. -/
  cancelled : ∀ (io : CoreIo) (id sid : Bytes) (t : Running),
    (c.transferCancel io id).transfers[sid]? = some t → t.closing = false →
    t.session.transferId ≠ id

variable {io : CoreIo} {c c' : Core}

/-! ## Methods of a session -/

theorem addressed_stateChanged {sid : Bytes} {t : Running} {v : SessionView}
    (changed : StateChanged c sid t v c') (hid : v.transferId = t.session.transferId)
    (h : Addressed c) : Addressed c' := by
  have hclosing : t.closing = false := (h.settled sid t changed.entry).trans changed.running
  refine ⟨fun sid' t' ht' hrunning => ?_, fun sid' t' ht' => ?_⟩
  · rw [changed.transfers] at ht'
    rw [changed.transferIds]
    split at ht'
    · rename_i heq
      obtain rfl := Option.some.inj ht'
      show c.transferIds[v.transferId]? = some sid'
      rw [hid, heq]
      exact h.found sid t changed.entry hclosing
    · exact h.found sid' t' ht' hrunning
  · rw [changed.transfers] at ht'
    split at ht'
    · obtain rfl := Option.some.inj ht'
      simp [hclosing]
    · exact h.settled sid' t' ht'

theorem addressed_of_same (same : SameTransfers c c') (h : Addressed c) : Addressed c' := by
  constructor
  · intro sid t ht
    rw [same.transfers] at ht
    rw [same.transferIds]
    exact h.found sid t ht
  · intro sid t ht
    rw [same.transfers] at ht
    exact h.settled sid t ht

theorem addressed_rule : SessionRule fun c c' => Addressed c → Addressed c' where
  trans hab hbc := fun ha => hbc (hab ha)
  same := addressed_of_same
  view := by
    intro c sid t v entry same h
    refine ⟨fun sid' t' ht' hrunning => ?_, fun sid' t' ht' => ?_⟩
    · simp only [OrderedMap.get_insert] at ht'
      split at ht'
      · rename_i heq
        obtain rfl := Option.some.inj ht'
        show c.transferIds[v.transferId]? = some sid'
        rw [same.transferId, heq]
        exact h.found sid t entry hrunning
      · exact h.found sid' t' ht' hrunning
    · simp only [OrderedMap.get_insert] at ht'
      split at ht'
      · obtain rfl := Option.some.inj ht'
        show t.closing = v.state.terminal
        rw [same.state]
        exact h.settled sid t entry
      · exact h.settled sid' t' ht'
  change := fun _ changed => addressed_stateChanged changed rfl

/-- The keys of both maps stay, and so do the transfer ids of the sessions. -/
structure SameKeys (c c' : Core) : Prop where
  transferIds : c'.transferIds = c.transferIds
  sessions : ∀ sid : Bytes, (c'.transfers[sid]?).map (·.session.transferId) =
    (c.transfers[sid]?).map (·.session.transferId)

theorem sameKeys_rule : SessionRule SameKeys where
  trans hab hbc :=
    ⟨hbc.transferIds.trans hab.transferIds, fun sid => (hbc.sessions sid).trans (hab.sessions sid)⟩
  same same := ⟨same.transferIds, fun sid => by rw [same.transfers]⟩
  view := by
    intro c sid t v entry same
    refine ⟨rfl, fun sid' => ?_⟩
    simp only [OrderedMap.get_insert]
    split
    · rename_i heq
      rw [heq, entry]
      simp [same.transferId]
    · rfl
  change := by
    intro c sid t state error c' _ changed
    refine ⟨changed.transferIds, fun sid' => ?_⟩
    rw [changed.transfers]
    split
    · rename_i heq
      rw [heq, changed.entry]
      rfl
    · rfl

/-! ## Shares -/

theorem addressed_setShare {id : Bytes} {s : Share} (h : Addressed c) :
    Addressed (c.setShare id s) :=
  ⟨h.found, h.settled⟩

theorem addressed_pumpShareQueue (queue : List Bytes) (c : Core) (h : Addressed c) :
    Addressed (pumpShareQueue io queue c) := by
  induction queue generalizing c with
  | nil => exact ⟨h.found, h.settled⟩
  | cons id rest ih =>
    simp only [pumpShareQueue]
    split
    · exact ih c h
    · split
      · exact ih c h
      · split
        · exact ⟨h.found, h.settled⟩
        · exact ih _ (addressed_setShare h)

theorem addressed_pumpShareCreates (h : Addressed c) : Addressed (c.pumpShareCreates io) := by
  unfold pumpShareCreates
  split
  · exact h
  · exact addressed_pumpShareQueue _ c h

theorem addressed_shareCreate (h : Addressed c) (id : Bytes) (mode : ShareMode) (ttlSec : Int)
    (built : Except Bytes (Manifest × Nat)) :
    Addressed (c.shareCreate io id mode ttlSec built) := by
  unfold shareCreate
  simp only
  split
  · exact addressed_setShare h
  · split
    · exact addressed_setShare h
    · rename_i c' hpeer
      apply addressed_pumpShareCreates
      apply addressed_of_same (sameTransfers_other c' ..)
      exact addressed_of_same (sameTransfers_ensurePeer io hpeer) (addressed_setShare h)

theorem addressed_closeShareInternal (h : Addressed c) (id reason : Bytes) (state : ShareState) :
    Addressed (c.closeShareInternal io id state reason) := by
  unfold closeShareInternal
  split
  · exact h
  · rename_i s _
    simp only
    split
    · exact h
    · set told := if !s.shareId.isEmpty && c.peer && c.signalConnected then
        c.call (.closeShare s.shareId) else c
      have htold : Addressed told := by
        simp only [told]
        split
        · exact ⟨h.found, h.settled⟩
        · exact h
      have hcancel := addressed_rule.foldl (fun c sid => c.cancelSession io sid reason)
        (fun c sid => addressed_rule.cancelSession c sid reason) s.sessions.keys told htold
      exact ⟨hcancel.found, hcancel.settled⟩

theorem addressed_shareClose (h : Addressed c) (id : Bytes) : Addressed (c.shareClose io id) := by
  unfold shareClose
  split
  · exact addressed_closeShareInternal h ..
  · split
    · exact h
    · exact addressed_closeShareInternal h ..

theorem addressed_onShareEvent (h : Addressed c) (ev : ShareEvent) :
    Addressed (c.onShareEvent io ev) := by
  cases ev with
  | created =>
    simp only [onShareEvent]
    split
    · exact ⟨h.found, h.settled⟩
    · exact addressed_pumpShareCreates ⟨h.found, h.settled⟩
  | failed =>
    simp only [onShareEvent]
    split
    · exact addressed_pumpShareCreates ⟨h.found, h.settled⟩
    · exact addressed_pumpShareCreates ⟨h.found, h.settled⟩
  | claimed =>
    simp only [onShareEvent]
    split
    · exact h
    · exact ⟨h.found, h.settled⟩
  | closed =>
    simp only [onShareEvent]
    split
    · exact h
    · split
      · exact h
      · split
        · exact h
        · split
          · exact addressed_closeShareInternal h ..
          · exact addressed_setShare h

theorem addressed_foldl {α : Type*} (f : Core → α → Core)
    (hf : ∀ c a, Addressed c → Addressed (f c a)) (as : List α) (h : Addressed c) :
    Addressed (as.foldl f c) :=
  addressed_rule.foldl f hf as c h

theorem addressed_onSignal (h : Addressed c) (connected : Bool) :
    Addressed (c.onSignal io connected) := by
  have hset : Addressed { c with signalConnected := connected } := ⟨h.found, h.settled⟩
  unfold onSignal
  simp only
  split
  · exact addressed_of_same (sameTransfers_pumpClaims io _) (addressed_pumpShareCreates hset)
  · split
    · apply addressed_foldl
      · exact fun c id => addressed_of_same (sameTransfers_loseReceive io c id)
      · apply addressed_foldl
        · intro c id h
          unfold loseShare
          split
          · exact h
          · split
            · exact addressed_closeShareInternal h ..
            · exact h
        · exact ⟨h.found, h.settled⟩
    · exact hset

theorem addressed_recreatePeer : Addressed (c.recreatePeer io) := by
  unfold recreatePeer
  simp only
  have hempty : ∀ c : Core, Addressed { c with transfers := ∅, transferIds := ∅ } :=
    fun c => ⟨fun sid t ht => by simp at ht, fun sid t ht => by simp at ht⟩
  have hclosed := addressed_foldl
    (fun c id => c.closeShareInternal io id .closed (ascii "reconfigured"))
    (fun c id h => addressed_closeShareInternal h id _ .closed)
    (c.transfers.keys.foldl (fun c sid => c.endSession io sid (ascii "reconfigured")) c).shares.keys
    (hempty (c.transfers.keys.foldl (fun c sid => c.endSession io sid (ascii "reconfigured")) c))
  split
  · rename_i hpeer
    exact addressed_of_same (sameTransfers_ensurePeer io hpeer) ⟨hclosed.found, hclosed.settled⟩
  · exact ⟨hclosed.found, hclosed.settled⟩

/-! ## Sessions -/

/-- No running session other than `sid` has the transfer id. -/
def NoOther (c : Core) (sid transferId : Bytes) : Prop :=
  ∀ (sid' : Bytes) (t' : Running), c.transfers[sid']? = some t' → sid' ≠ sid →
    t'.closing = false → t'.session.transferId ≠ transferId

theorem addressed_dropTransfer (h : Addressed c) {sid : Bytes}
    (other : ∀ t, c.transfers[sid]? = some t → c.NoOther sid t.session.transferId) :
    Addressed (c.dropTransfer sid) := by
  unfold dropTransfer
  split
  · exact h
  · rename_i t entry
    refine ⟨fun sid' t' ht' hrunning => ?_, fun sid' t' ht' => ?_⟩
    · simp only [OrderedMap.get_erase] at ht' ⊢
      split at ht'
      · cases ht'
      · rename_i hne
        rw [if_neg (other t entry sid' t' ht' hne hrunning)]
        exact h.found sid' t' ht' hrunning
    · simp only [OrderedMap.get_erase] at ht'
      split at ht'
      · cases ht'
      · exact h.settled sid' t' ht'

theorem addressed_makeSession (h : Addressed c) {sid : Bytes} {v : SessionView}
    (other : c.NoOther sid v.transferId) (hstate : v.state.terminal = false)
    (shareLocalId receiveId : Bytes) :
    Addressed (c.makeSession sid v shareLocalId receiveId) := by
  refine ⟨fun sid' t' ht' hrunning => ?_, fun sid' t' ht' => ?_⟩
  · simp only [makeSession, OrderedMap.get_insert] at ht' ⊢
    split at ht'
    · rename_i heq
      obtain rfl := Option.some.inj ht'
      simp [heq]
    · rename_i hne
      rw [if_neg (other sid' t' ht' hne hrunning)]
      exact h.found sid' t' ht' hrunning
  · simp only [makeSession, OrderedMap.get_insert] at ht'
    split at ht'
    · obtain rfl := Option.some.inj ht'
      exact hstate.symm
    · exact h.settled sid' t' ht'

/-- The transfer id a new session gets. -/
def newTransferId (io : CoreIo) (c : Core) (info : SessionInfo) : Option Bytes :=
  if info.isSender then some io.newId
  else
    (((c.findReceiveBySession info.sessionId).or c.lastClaiming).bind fun id => c.receives[id]?).map
      (·.transferId)

theorem addressed_senderConnecting (h : Addressed c) {sid : Bytes}
    (other : c.NoOther sid io.newId) : Addressed (c.senderConnecting io sid) := by
  unfold senderConnecting
  split
  · exact ⟨h.found, h.settled⟩
  · split
    · exact h
    · apply addressed_makeSession
      · exact addressed_setShare h
      · exact other
      · rfl

theorem addressed_receiverConnecting (h : Addressed c) {info : SessionInfo}
    (other : ∀ id r, (c.findReceiveBySession info.sessionId).or c.lastClaiming = some id →
      c.receives[id]? = some r → c.NoOther info.sessionId r.transferId) :
    Addressed (c.receiverConnecting io info) := by
  unfold receiverConnecting
  simp only
  split
  · exact ⟨h.found, h.settled⟩
  · rename_i id hid
    split
    · exact h
    · rename_i r hr
      apply addressed_of_same (sameTransfers_saveReceives io _)
      apply addressed_makeSession
      · exact addressed_of_same (sameTransfers_other c ..) h
      · exact other id r hid hr
      · rfl

theorem dropTransfer_receives (c : Core) (sid : Bytes) :
    (c.dropTransfer sid).receives = c.receives := by
  unfold dropTransfer
  split <;> rfl

/-- Dropping a session starts none. -/
theorem NoOther.dropTransfer {sid id : Bytes} (h : c.NoOther sid id) :
    (c.dropTransfer sid).NoOther sid id := by
  unfold Core.dropTransfer
  split
  · exact h
  · intro sid' t' ht' hne
    simp only [OrderedMap.get_erase, if_neg hne] at ht'
    exact h sid' t' ht' hne

theorem addressed_connecting (h : Addressed c) {info : SessionInfo}
    (other : ∀ id, newTransferId io c info = some id → c.NoOther info.sessionId id) :
    Addressed (if info.isSender then c.senderConnecting io info.sessionId
      else c.receiverConnecting io info) := by
  split
  · rename_i hsender
    apply addressed_senderConnecting h
    apply other
    simp [newTransferId, hsender]
  · rename_i hreceiver
    apply addressed_receiverConnecting h
    intro id r hid hr
    apply other
    simp [newTransferId, hreceiver, hid, hr]

/-- A drop leaves the key of every running session alone, and a new session takes none. -/
def addressingSafe (c : Core) (a : CoreIo × Event) : Prop :=
  match a.2 with
  | .session info =>
    (∀ t, c.transfers[info.sessionId]? = some t → t.closing = true → info.status ≠ .connected →
      c.NoOther info.sessionId t.session.transferId) ∧
    (info.status = .connecting → c.Idle info.sessionId →
      ∀ id, newTransferId a.1 c info = some id → c.NoOther info.sessionId id)
  | .linger k pending => ∀ sid t, c.lingers[k]? = some (sid, t.session.owner) →
      c.transfers[sid]? = some t → (pending && c.signalConnected) = false →
      c.NoOther sid t.session.transferId
  | _ => True

theorem addressed_onSession (h : Addressed c) {info : SessionInfo}
    (hok : addressingSafe c (io, .session info)) : Addressed (c.onSession io info) := by
  obtain ⟨hdrop, hnew⟩ := hok
  unfold onSession
  cases hstatus : info.status with
  | connecting =>
    simp only
    split
    · rename_i entry
      exact addressed_connecting h (hnew hstatus fun t ht => by rw [entry] at ht; cases ht)
    · rename_i t entry
      split
      · rename_i hclosing
        have hidle : c.Idle info.sessionId := by
          intro t' ht'
          obtain rfl := Option.some.inj (entry.symm.trans ht')
          exact hclosing
        apply addressed_connecting
        · apply addressed_dropTransfer h
          intro t' ht'
          exact hdrop t' ht' (hidle t' ht') (by rw [hstatus]; exact SessionStatus.noConfusion)
        · -- The receives, hence the new id, do not depend on the drop.
          intro id hid
          apply NoOther.dropTransfer
          apply hnew hstatus hidle id
          simpa [newTransferId, findReceiveBySession, lastClaiming, dropTransfer_receives] using hid
      · exact h
  | connected =>
    simp only
    split
    · exact h
    · have hready : Addressed (c.sessionReady io info.sessionId) :=
        addressed_rule.sessionReady c info.sessionId h
      split
      · exact hready
      · exact ⟨hready.found, hready.settled⟩
  | _ =>
    simp only
    split
    · exact h
    · rename_i t entry
      split
      · rename_i hclosing
        apply addressed_dropTransfer h
        intro t' ht'
        obtain rfl := Option.some.inj (entry.symm.trans ht')
        exact hdrop t entry hclosing (by rw [hstatus]; exact SessionStatus.noConfusion)
      · rename_i hrunning
        -- The session that ends was running, so its key is its own.
        have hended : Addressed (c.endSession io info.sessionId info.reason) :=
          addressed_rule.endSession c info.sessionId info.reason h
        apply addressed_dropTransfer hended
        intro t' ht' sid' t'' ht'' hne hrunning'' hid
        have hkeys : SameKeys c (c.endSession io info.sessionId info.reason) :=
          sameKeys_rule.endSession c info.sessionId info.reason
        have hsame : t'.session.transferId = t.session.transferId := by
          simpa [ht', entry] using hkeys.sessions info.sessionId
        have hfound := hended.found sid' t'' ht'' hrunning''
        rw [hid, hsame, hkeys.transferIds, h.found _ t entry (by simpa using hrunning)] at hfound
        exact hne (Option.some.inj hfound).symm

theorem addressed_lingerDone (h : Addressed c) {sid : Bytes} {owner : Nat} {pending : Bool}
    (other : ∀ t, c.transfers[sid]? = some t → t.session.owner = owner →
      (pending && c.signalConnected) = false → c.NoOther sid t.session.transferId) :
    Addressed (c.lingerDone sid owner pending) := by
  unfold lingerDone
  split
  · exact h
  · rename_i t entry
    split
    · exact h
    · rename_i howner
      rw [not_not] at howner
      split
      · exact ⟨h.found, h.settled⟩
      · rename_i hpending
        have hother := other t entry howner (by simpa using hpending)
        set left := if c.peer then c.call (.leave sid) else c
        have hleft : SameTransfers c left := by
          simp only [left]
          split
          · exact sameTransfers_other c ..
          · exact .refl c
        apply addressed_dropTransfer (addressed_of_same hleft h)
        intro t' ht' sid' t'' ht''
        rw [hleft.transfers] at ht' ht''
        obtain rfl := Option.some.inj (entry.symm.trans ht')
        exact hother sid' t'' ht''

/-! ## Runs -/

theorem addressed_handle (h : Addressed c) {e : Event} (hok : addressingSafe c (io, e)) :
    Addressed (c.handle io e) := by
  cases e with
  | shareCreate id mode ttlSec built => exact addressed_shareCreate h id mode ttlSec built
  | shareClose id => exact addressed_shareClose h id
  | receiveStart id code dir => exact addressed_of_same (sameTransfers_receiveStart io c ..) h
  | receiveResume id => exact addressed_of_same (sameTransfers_receiveResume io c id) h
  | transferPause id paused => exact addressed_rule.transferPause c id paused h
  | transferCancel id => exact addressed_rule.transferCancel io c id h
  | signal connected => exact addressed_onSignal h connected
  | share ev => exact addressed_onShareEvent h ev
  | claimResult res sessionId token message =>
    exact addressed_of_same (sameTransfers_onClaimResult io c ..) h
  | session info => exact addressed_onSession h hok
  | sessionState sid state error =>
    obtain ⟨heq, -⟩ | ⟨t, changed⟩ := setSessionState_cases io c sid state error
    · show Addressed (c.setSessionState io sid state error)
      rw [heq]
      exact h
    · exact addressed_stateChanged changed rfl h
  | persist transferId record => exact addressed_of_same (sameTransfers_onPersist io c _ record) h
  | linger k pending =>
    simp only [handle]
    split
    · exact h
    · rename_i sid owner hlinger
      apply addressed_lingerDone
      · exact addressed_of_same (sameTransfers_other c ..) h
      · intro t ht howner hpending
        subst howner
        exact hok sid t hlinger ht hpending
  | reconfigure => exact addressed_recreatePeer

theorem Addressed.pause (h : Addressed c) {sid : Bytes} {t : Running}
    (entry : c.transfers[sid]? = some t) (hrunning : t.closing = false) (paused : Bool) :
    c.transferPause t.session.transferId paused = c.pauseSession sid paused := by
  unfold transferPause
  rw [h.found sid t entry hrunning]

theorem Addressed.cancel (h : Addressed c) {sid : Bytes} {t : Running}
    (entry : c.transfers[sid]? = some t) (hrunning : t.closing = false) (io : CoreIo) :
    c.transferCancel io t.session.transferId = c.cancelSession io sid (ascii "user") := by
  unfold transferCancel
  rw [h.found sid t entry hrunning]

/-- `TransferCancel` ends the session with the transfer id; without an entry in `transfer_ids_`
    there is none. -/
theorem Addressed.cancelled (h : Addressed c) {id sid : Bytes} {t : Running}
    (ht : (c.transferCancel io id).transfers[sid]? = some t) (hrunning : t.closing = false) :
    t.session.transferId ≠ id := by
  intro hid
  have h' := addressed_rule.transferCancel io c id h
  have hfound := h'.found sid t ht hrunning
  rw [(sameKeys_rule.transferCancel io c id).transferIds, hid] at hfound
  unfold transferCancel at ht h'
  simp only [hfound] at ht h'
  have hterminal := terminal_cancelSession io c sid _ ht
  rw [← h'.settled sid t ht, hrunning] at hterminal
  cases hterminal

theorem addressable_run {stored : List Receive} {peer : Bool} {as : List (CoreIo × Event)}
    (run : (machine stored peer).Run addressingSafe as c) : Addressable c := by
  have h : Addressed c := by
    refine run.invariant Addressed ?_ fun c a c' h hok hstep => ?_
    · constructor
      all_goals
        intro sid t
        simp [machine, load]
    · obtain rfl := Option.some.inj hstep
      exact addressed_handle h hok
  exact ⟨h.found, fun sid t ht hrunning => h.pause ht hrunning,
    fun sid t ht hrunning => h.cancel ht hrunning, fun io id sid t => h.cancelled⟩

/-- A receive is claimed and its session gets the id `x1`. -/
def claimedReceiveRun : List (CoreIo × Event) :=
  [(.steady, .receiveStart (ascii "rx_1") (ascii "ABCD") (ascii "dir")), (.steady, .signal true),
    (.steady, .claimResult .ok (ascii "x1") (ascii "token") [])]

def receiverStarts (sid : Bytes) : CoreIo × Event :=
  (.steady, .session { status := .connecting, sessionId := sid, isSender := false })

theorem exec_claimedReceiveRun :
    ((machine [] true).exec claimedReceiveRun (machine [] true).init).map (fun c =>
      (c.transfers.isEmpty, ((c.handle .steady (receiverStarts (ascii "x1")).2).transfers[ascii "x1"]?).map
        fun t => (t.closing, t.session.transferId))) =
    some (true, some (false, ascii "rx_1")) := by
  decide +kernel

theorem addressable_startedReceive :
    ∃ c t, (machine [] true).Run addressingSafe (claimedReceiveRun ++ [receiverStarts (ascii "x1")]) c ∧
      c.transfers[ascii "x1"]? = some t ∧ t.closing = false ∧
      c.transferIds[ascii "rx_1"]? = some (ascii "x1") := by
  obtain ⟨c, hexec, hc⟩ := Option.map_eq_some_iff.mp exec_claimedReceiveRun
  simp only [Prod.mk.injEq, Option.map_eq_some_iff] at hc
  obtain ⟨hempty, t, ht, hrunning, hid⟩ := hc
  have hnone : ∀ sid : Bytes, c.transfers[sid]? = none := by
    intro sid
    rw [Std.ExtTreeMap.isEmpty_iff.mp hempty]
    simp
  have claimed : (machine [] true).Run addressingSafe claimedReceiveRun c := by
    refine Machine.Run.extend .init (fun a ha t => ?_) hexec
    simp only [List.mem_cons, List.not_mem_nil, or_false] at ha
    obtain rfl | rfl | rfl := ha <;> trivial
  have run := claimed.step (a := receiverStarts (ascii "x1")) ⟨fun t ht => by simp [hnone] at ht,
    fun _ _ id _ sid' t' ht' => by simp [hnone] at ht'⟩ rfl
  refine ⟨_, t, run, ht, hrunning, ?_⟩
  rw [← hid]
  exact (addressable_run run).found _ t ht hrunning

/-- The session fails and lingers; the receive is resumed, its token is rejected, and the code
    gives it the session `x2`. Then the timer of `x1` fires. -/
def resumedReceiveRun : List (CoreIo × Event) :=
  claimedReceiveRun ++ [receiverStarts (ascii "x1"),
    (.steady, .sessionState (ascii "x1") .failed (some (ascii "io", []))),
    (.steady, .receiveResume (ascii "rx_1")),
    (.steady, .claimResult .codeNotFound [] [] []),
    (.steady, .claimResult .ok (ascii "x2") (ascii "token2") []),
    receiverStarts (ascii "x2"),
    (.steady, .linger 0 false)]

theorem exec_resumedReceiveRun :
    ((machine [] true).exec resumedReceiveRun (machine [] true).init).map (fun c =>
      ((c.transfers[ascii "x2"]?).map (fun t => (t.closing, t.session.transferId)),
        c.transferIds[ascii "rx_1"]?,
        ((c.transferCancel .steady (ascii "rx_1")).receives[ascii "rx_1"]?).map (·.state),
        ((c.transferCancel .steady (ascii "rx_1")).transfers[ascii "x2"]?).map (·.closing))) =
    some (some (false, ascii "rx_1"), none, some (.transfer .cancelled), some false) := by
  decide +kernel

/-- The running session `x2` has lost its key, and `TransferCancel` reports the receive cancelled
    while it goes on. -/
theorem addressable_resumedReceive :
    ∃ c, (machine [] true).Run Machine.anyStep resumedReceiveRun c ∧ ¬ Addressable c ∧
      (∃ t, c.transfers[ascii "x2"]? = some t ∧ t.closing = false ∧
        t.session.transferId = ascii "rx_1" ∧ c.transferIds[ascii "rx_1"]? = none) ∧
      ((c.transferCancel .steady (ascii "rx_1")).receives[ascii "rx_1"]?).map (·.state) =
        some (.transfer .cancelled) ∧
      ((c.transferCancel .steady (ascii "rx_1")).transfers[ascii "x2"]?).map (·.closing) =
        some false := by
  obtain ⟨c, hexec, hc⟩ := Option.map_eq_some_iff.mp exec_resumedReceiveRun
  simp only [Prod.mk.injEq] at hc
  obtain ⟨hentry, hids, hreceive, hsession⟩ := hc
  simp only [Option.map_eq_some_iff, Prod.mk.injEq] at hentry
  obtain ⟨t, ht, hrunning, hid⟩ := hentry
  refine ⟨c, Machine.run_of_exec hexec, fun h => ?_, ⟨t, ht, hrunning, hid, hids⟩, hreceive,
    hsession⟩
  have hfound := h.found _ t ht hrunning
  rw [hid, hids] at hfound
  cases hfound

end Core

end CrossTransfer.Api
