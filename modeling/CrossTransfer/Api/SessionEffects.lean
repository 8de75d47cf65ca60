import CrossTransfer.Api.Core

/-! # What the sessions leave alone

State changes of transfer sessions reach shares and receives through `OnTransferState`. None of
them touches what waits for a reply of the server: the queues, the flags of requests in flight,
the requests already made, and the shares and receives that wait. `SharesQuiet` and `ClaimsQuiet`
say so for the two kinds of requests, `Quiet` for both. All three are reflexive and transitive,
and every method that only works on sessions is quiet.
-/

namespace CrossTransfer.Api

open CrossTransfer.Library
open CrossTransfer.Transfer
open CrossTransfer.Share (TransferState ResumeRecord)

/-- The share a `create_share` request is for. -/
def PeerCall.creates : PeerCall → Option Bytes
  | .createShare id .. => some id
  | _ => none

/-- What a claim request carries. -/
inductive ClaimKey where
  | token
  | code
deriving DecidableEq, Repr

/-- The receive a claim request is for, and what it carries. -/
def PeerCall.claims : PeerCall → Option (Bytes × ClaimKey)
  | .claim id _ resumeToken => some (id, if resumeToken.isEmpty then .code else .token)
  | _ => none

namespace Core

/-- The shares `create_share` was sent for, oldest first. -/
def createRequests (c : Core) : List Bytes := c.calls.filterMap PeerCall.creates

/-- The receives a claim was sent for, oldest first. -/
def claimRequests (c : Core) : List (Bytes × ClaimKey) := c.calls.filterMap PeerCall.claims

structure SharesQuiet (c c' : Core) : Prop where
  queue : c'.shareCreateQueue = c.shareCreateQueue
  inflight : c'.shareCreateInflight = c.shareCreateInflight
  requests : c'.createRequests = c.createRequests
  /-- No share starts to wait for its server id. -/
  shares : ∀ (id : Bytes) (s' : Share), c'.shares[id]? = some s' →
    ∃ s, c.shares[id]? = some s ∧ s'.shareId = s.shareId ∧
      (s'.state = .creating → s.state = .creating)

structure ClaimsQuiet (c c' : Core) : Prop where
  queue : c'.claimQueue = c.claimQueue
  inflight : c'.claimInflight = c.claimInflight
  requests : c'.claimRequests = c.claimRequests
  /-- A receive that claims is the same as before, up to its record. -/
  receives : ∀ (id : Bytes) (r' : Receive), c'.receives[id]? = some r' →
    ∃ r, c.receives[id]? = some r ∧ (r'.state = .claiming → r' = { r with record := r'.record })

structure Quiet (c c' : Core) : Prop where
  shareSide : SharesQuiet c c'
  claimSide : ClaimsQuiet c c'

theorem SharesQuiet.refl (c : Core) : SharesQuiet c c where
  queue := rfl
  inflight := rfl
  requests := rfl
  shares _ s' h := ⟨s', h, rfl, id⟩

theorem SharesQuiet.trans {a b c : Core} (h : SharesQuiet a b) (h' : SharesQuiet b c) :
    SharesQuiet a c where
  queue := h'.queue.trans h.queue
  inflight := h'.inflight.trans h.inflight
  requests := h'.requests.trans h.requests
  shares id s'' hs'' := by
    obtain ⟨s', hs', hid', hstate'⟩ := h'.shares id s'' hs''
    obtain ⟨s, hs, hid, hstate⟩ := h.shares id s' hs'
    exact ⟨s, hs, hid'.trans hid, fun hcreating => hstate (hstate' hcreating)⟩

theorem ClaimsQuiet.refl (c : Core) : ClaimsQuiet c c where
  queue := rfl
  inflight := rfl
  requests := rfl
  receives _ r' h := ⟨r', h, fun _ => rfl⟩

theorem ClaimsQuiet.trans {a b c : Core} (h : ClaimsQuiet a b) (h' : ClaimsQuiet b c) :
    ClaimsQuiet a c where
  queue := h'.queue.trans h.queue
  inflight := h'.inflight.trans h.inflight
  requests := h'.requests.trans h.requests
  receives id r'' hr'' := by
    obtain ⟨r', hr', hsame'⟩ := h'.receives id r'' hr''
    obtain ⟨r, hr, hsame⟩ := h.receives id r' hr'
    refine ⟨r, hr, fun hclaiming => ?_⟩
    have hstep' := hsame' hclaiming
    have hstep := hsame (by rw [hstep'] at hclaiming; exact hclaiming)
    rw [hstep', hstep]

theorem Quiet.refl (c : Core) : Quiet c c := ⟨.refl c, .refl c⟩

theorem Quiet.trans {a b c : Core} (h : Quiet a b) (h' : Quiet b c) : Quiet a c :=
  ⟨h.shareSide.trans h'.shareSide, h.claimSide.trans h'.claimSide⟩

theorem quiet_foldl {α : Type*} (f : Core → α → Core) (hf : ∀ c a, Quiet c (f c a)) (as : List α)
    (c : Core) : Quiet c (as.foldl f c) := by
  induction as generalizing c with
  | nil => exact .refl c
  | cons a as ih => exact (hf c a).trans (ih (f c a))

variable (io : CoreIo) (c : Core)

/-! ## Updates -/

/-- The fields that no request depends on. -/
theorem quiet_sessions (peer signalConnected : Bool) (transfers : OrderedMap Bytes Running)
    (transferIds : OrderedMap Bytes Bytes) (lastPersistMs : Int) (stored : List Receive)
    (lingers : List (Bytes × Nat)) (nextOwner : Nat) :
    Quiet c { c with
      peer := peer
      signalConnected := signalConnected
      transfers := transfers
      transferIds := transferIds
      lastPersistMs := lastPersistMs
      stored := stored
      lingers := lingers
      nextOwner := nextOwner } :=
  ⟨{ SharesQuiet.refl c with }, { ClaimsQuiet.refl c with }⟩

/-- A call that is no request. -/
theorem quiet_call {k : PeerCall} (hcreates : k.creates = none) (hclaims : k.claims = none) :
    Quiet c (c.call k) where
  shareSide := { SharesQuiet.refl c with
    requests := by simp [createRequests, call, hcreates] }
  claimSide := { ClaimsQuiet.refl c with
    requests := by simp [claimRequests, call, hclaims] }

theorem quiet_setShare {id : Bytes} {s s' : Share} (hs : c.shares[id]? = some s)
    (hid : s'.shareId = s.shareId) (hstate : s'.state = .creating → s.state = .creating) :
    Quiet c (c.setShare id s') where
  claimSide := { ClaimsQuiet.refl c with }
  shareSide := { SharesQuiet.refl c with
    shares := by
      intro id' t ht
      simp only [setShare, OrderedMap.get_insert] at ht
      split at ht
      · rename_i heq
        cases ht
        exact ⟨s, heq ▸ hs, hid, hstate⟩
      · exact ⟨t, ht, rfl, fun h => h⟩ }

theorem quiet_modifyShare (id : Bytes) (f : Share → Share)
    (hf : ∀ s, (f s).shareId = s.shareId ∧ ((f s).state = .creating → s.state = .creating)) :
    Quiet c { c with shares := c.shares.modify id f } where
  claimSide := { ClaimsQuiet.refl c with }
  shareSide := { SharesQuiet.refl c with
    shares := by
      intro id' t ht
      simp only [OrderedMap.get_modify] at ht
      split at ht
      · obtain ⟨s, hs, rfl⟩ := Option.map_eq_some_iff.mp ht
        exact ⟨s, hs, hf s⟩
      · exact ⟨t, ht, rfl, fun h => h⟩ }

theorem quiet_setReceive {id : Bytes} {r r' : Receive} (hr : c.receives[id]? = some r)
    (hsame : r'.state = .claiming → r' = { r with record := r'.record }) :
    Quiet c (c.setReceive id r') where
  shareSide := { SharesQuiet.refl c with }
  claimSide := { ClaimsQuiet.refl c with
    receives := by
      intro id' q hq
      simp only [setReceive, OrderedMap.get_insert] at hq
      split at hq
      · rename_i heq
        cases hq
        exact ⟨r, heq ▸ hr, hsame⟩
      · exact ⟨q, hq, fun _ => rfl⟩ }

theorem quiet_modifyReceive (id : Bytes) (f : Receive → Receive)
    (hf : ∀ r, (f r).state = .claiming → f r = { r with record := (f r).record }) :
    Quiet c { c with receives := c.receives.modify id f } where
  shareSide := { SharesQuiet.refl c with }
  claimSide := { ClaimsQuiet.refl c with
    receives := by
      intro id' q hq
      simp only [OrderedMap.get_modify] at hq
      split at hq
      · obtain ⟨r, hr, rfl⟩ := Option.map_eq_some_iff.mp hq
        exact ⟨r, hr, hf r⟩
      · exact ⟨q, hq, fun _ => rfl⟩ }

theorem quiet_saveReceives : Quiet c (c.saveReceives io) := by
  unfold saveReceives
  split
  · exact quiet_sessions ..
  · exact .refl c

theorem quiet_finishReceive (id : Bytes) (state : TransferState) (code message : Bytes) :
    Quiet c (c.finishReceive io id state code message) :=
  (quiet_modifyReceive c id _ (fun _ h => by cases h)).trans (quiet_saveReceives io _)

/-! ## Methods of the sessions -/

theorem shareAfterTransfer_shareId (s : Share) (sessionId : Bytes) (v : SessionView) :
    (shareAfterTransfer s sessionId v).shareId = s.shareId := by
  unfold shareAfterTransfer
  cases s.mode with
  | once =>
    simp only
    split
    · rfl
    · split <;> rfl
  | «open» => simp only; split <;> rfl

theorem shareAfterTransfer_creating (s : Share) (sessionId : Bytes) (v : SessionView)
    (h : (shareAfterTransfer s sessionId v).state = .creating) : s.state = .creating := by
  unfold shareAfterTransfer at h
  cases hmode : s.mode with
  | once =>
    simp only [hmode] at h
    split at h
    · cases h
    · split at h
      · cases h
      · exact h
  | «open» =>
    simp only [hmode] at h
    split at h
    · cases h
    · exact h

theorem quiet_senderState (sessionId : Bytes) (v : SessionView) :
    Quiet c (c.senderState sessionId v) := by
  unfold senderState
  split
  · exact .refl c
  · split
    · exact .refl c
    · rename_i s hs
      split
      · exact .refl c
      · have hset := quiet_setShare c hs (shareAfterTransfer_shareId s sessionId v)
          (shareAfterTransfer_creating s sessionId v)
        simp only
        split
        · exact hset.trans (quiet_call _ rfl rfl)
        · exact hset

theorem receiveAfterTransfer_state (r : Receive) (v : SessionView) :
    (receiveAfterTransfer r v).state = .transfer v.state := by
  unfold receiveAfterTransfer
  simp only
  split
  · rfl
  · split <;> rfl

theorem quiet_receiverState (sessionId : Bytes) (v : SessionView) :
    Quiet c (c.receiverState io sessionId v) := by
  unfold receiverState
  split
  · exact .refl c
  · rename_i id _
    have hset := quiet_modifyReceive c id (receiveAfterTransfer · v) (fun r h => by
      rw [receiveAfterTransfer_state] at h
      cases h)
    simp only
    split
    · exact hset.trans (quiet_saveReceives io _)
    · exact hset

theorem quiet_onTransferState (sessionId : Bytes) (v : SessionView) :
    Quiet c (c.onTransferState io sessionId v) := by
  have hside : Quiet c
      (if v.isSender then c.senderState sessionId v else c.receiverState io sessionId v) := by
    split
    · exact quiet_senderState ..
    · exact quiet_receiverState ..
  unfold onTransferState
  simp only
  split
  · exact hside
  · split
    · exact hside.trans (quiet_sessions ..)
    · exact hside

theorem quiet_setSessionState (sessionId : Bytes) (state : TransferState)
    (error : Option (Bytes × Bytes)) : Quiet c (c.setSessionState io sessionId state error) := by
  unfold setSessionState
  split
  · exact .refl c
  · split
    · exact .refl c
    · exact (quiet_sessions ..).trans (quiet_onTransferState io _ sessionId _)

theorem quiet_onPersist (transferId : Bytes) (record : Option ResumeRecord) :
    Quiet c (c.onPersist io transferId record) := by
  unfold onPersist
  split
  · exact .refl c
  · rename_i r hr
    have hset : Quiet c (c.setReceive transferId { r with record := record }) :=
      quiet_setReceive c hr (fun _ => rfl)
    simp only
    split
    · exact hset.trans ((quiet_sessions ..).trans (quiet_saveReceives io _))
    · exact hset

theorem quiet_cancelSession (sessionId reason : Bytes) :
    Quiet c (c.cancelSession io sessionId reason) := by
  unfold cancelSession
  split
  · exact .refl c
  · split
    · exact .refl c
    · have hset := quiet_setSessionState io c sessionId
      simp only
      split
      · exact hset ..
      · exact (hset ..).trans (quiet_onPersist io _ _ _)

theorem quiet_pauseSession (sessionId : Bytes) (paused : Bool) :
    Quiet c (c.pauseSession sessionId paused) := by
  unfold pauseSession
  split
  · exact .refl c
  · split
    · exact .refl c
    · exact quiet_sessions ..

theorem quiet_endSession (sessionId reason : Bytes) :
    Quiet c (c.endSession io sessionId reason) := by
  unfold endSession
  split
  · exact .refl c
  · split
    · exact .refl c
    · split
      · exact (quiet_setSessionState ..).trans (quiet_onPersist ..)
      · exact quiet_setSessionState ..

theorem quiet_sessionReady (sessionId : Bytes) : Quiet c (c.sessionReady io sessionId) := by
  unfold sessionReady
  split
  · exact .refl c
  · split
    · exact .refl c
    · simp only
      split
      · exact (quiet_sessions ..).trans (quiet_setSessionState ..)
      · split
        · exact (quiet_sessions ..).trans (quiet_setSessionState ..)
        · exact (quiet_sessions ..).trans (quiet_setSessionState ..)

theorem quiet_dropTransfer (sessionId : Bytes) : Quiet c (c.dropTransfer sessionId) := by
  unfold dropTransfer
  split
  · exact .refl c
  · exact quiet_sessions ..

theorem quiet_lingerDone (sessionId : Bytes) (owner : Nat) (pending : Bool) :
    Quiet c (c.lingerDone sessionId owner pending) := by
  unfold lingerDone
  split
  · exact .refl c
  · split
    · exact .refl c
    · split
      · exact quiet_sessions ..
      · simp only
        split
        · exact (quiet_call c rfl rfl).trans (quiet_dropTransfer ..)
        · exact quiet_dropTransfer ..

/-! ## Methods of shares and new sessions -/

theorem quiet_closeShareInternal {state : ShareState} (hstate : state ≠ .creating) (id reason : Bytes) :
    Quiet c (c.closeShareInternal io id state reason) := by
  unfold closeShareInternal
  split
  · exact .refl c
  · split
    · exact .refl c
    · simp only
      refine Quiet.trans (b := List.foldl _ _ _) ?_
        (quiet_modifyShare _ id _ fun s => ⟨rfl, fun h => absurd h hstate⟩)
      refine Quiet.trans ?_ (quiet_foldl _ (fun c sid => quiet_cancelSession io c sid reason) _ _)
      split
      · exact quiet_call c rfl rfl
      · exact .refl c

theorem quiet_shareClose (id : Bytes) : Quiet c (c.shareClose io id) := by
  unfold shareClose
  split
  · exact quiet_closeShareInternal io c (by decide) ..
  · split
    · exact .refl c
    · exact quiet_closeShareInternal io c (by decide) ..

theorem quiet_senderConnecting (sid : Bytes) : Quiet c (c.senderConnecting io sid) := by
  unfold senderConnecting
  split
  · exact quiet_call c rfl rfl
  · split
    · exact .refl c
    · rename_i s hs
      refine Quiet.trans ?_ (quiet_sessions (c.setShare _ _) ..)
      exact quiet_setShare c hs rfl (fun h => by cases h)

theorem quiet_receiverConnecting (info : SessionInfo) :
    Quiet c (c.receiverConnecting io info) := by
  unfold receiverConnecting
  simp only
  split
  · exact quiet_call c rfl rfl
  · split
    · exact .refl c
    · rename_i r hr
      refine Quiet.trans ?_ (quiet_saveReceives io _)
      exact (quiet_setReceive c hr (fun h => by cases h)).trans (quiet_sessions ..)

theorem quiet_onSession (info : SessionInfo) : Quiet c (c.onSession io info) := by
  have start : ∀ c : Core, Quiet c (if info.isSender then c.senderConnecting io info.sessionId
      else c.receiverConnecting io info) := by
    intro c
    split
    · exact quiet_senderConnecting ..
    · exact quiet_receiverConnecting ..
  unfold onSession
  simp only
  split
  · split
    · exact start c
    · split
      · exact (quiet_dropTransfer ..).trans (start _)
      · exact .refl c
  · split
    · exact .refl c
    · split
      · exact quiet_sessionReady ..
      · refine (quiet_sessionReady ..).trans (quiet_modifyReceive _ _ _ fun r h => ?_)
        split at h
        · cases h
        · rename_i hstate
          rw [if_neg hstate]
  · split
    · exact .refl c
    · split
      · exact quiet_dropTransfer ..
      · exact (quiet_endSession ..).trans (quiet_dropTransfer ..)

theorem quiet_loseShare (id : Bytes) : Quiet c (c.loseShare io id) := by
  unfold loseShare
  split
  · exact .refl c
  · split
    · exact quiet_closeShareInternal io c (by decide) ..
    · exact .refl c

theorem quiet_loseReceive (id : Bytes) : Quiet c (c.loseReceive io id) := by
  unfold loseReceive
  split
  · exact .refl c
  · split
    · exact quiet_finishReceive ..
    · exact .refl c

/-- The two share events that answer no request. -/
theorem quiet_shareClaimed (shareId sessionId : Bytes) :
    Quiet c (c.onShareEvent io (.claimed shareId sessionId)) := by
  simp only [onShareEvent]
  split
  · exact .refl c
  · refine quiet_modifyShare c _ _ fun s => ⟨rfl, fun h => ?_⟩
    simp only at h
    split at h
    · cases h
    · exact h

theorem quiet_shareClosed (shareId reason : Bytes) :
    Quiet c (c.onShareEvent io (.closed shareId reason)) := by
  simp only [onShareEvent]
  split
  · exact .refl c
  · split
    · exact .refl c
    · rename_i s hs
      split
      · exact .refl c
      · split
        · exact quiet_closeShareInternal io c (by decide) ..
        · exact quiet_setShare c hs rfl fun h => h

theorem quiet_recreatePeer : Quiet c (c.recreatePeer io) := by
  unfold recreatePeer
  simp only
  set ended := c.transfers.keys.foldl (fun c sid => c.endSession io sid (ascii "reconfigured")) c
  have hended : Quiet c ended := quiet_foldl _ (fun c sid => quiet_endSession io c sid _) _ _
  have hclosed : ShareState.closed ≠ .creating := by decide
  have hreset : Quiet c _ := (hended.trans (quiet_sessions ended ended.peer ended.signalConnected
    ∅ ∅ ended.lastPersistMs ended.stored ended.lingers ended.nextOwner)).trans
    (quiet_foldl _ (fun c id => quiet_closeShareInternal io c hclosed id
      (ascii "reconfigured")) ended.shares.keys _)
  refine hreset.trans ?_
  unfold ensurePeer
  split
  · rename_i heq
    split at heq
    · cases heq
      exact quiet_sessions ..
    · split at heq
      · cases heq
        exact quiet_sessions ..
      · cases heq
  · exact quiet_sessions ..

/-! ## The requests of the other kind -/

/-- The fields that only receives use. -/
theorem sharesQuiet_claims (receives : OrderedMap Bytes Receive) (claimQueue : List Bytes)
    (claimInflight : Bool) :
    SharesQuiet c { c with
      receives := receives
      claimQueue := claimQueue
      claimInflight := claimInflight } :=
  { SharesQuiet.refl c with }

theorem sharesQuiet_call {k : PeerCall} (hk : k.creates = none) : SharesQuiet c (c.call k) :=
  { SharesQuiet.refl c with requests := by simp [createRequests, call, hk] }

theorem sharesQuiet_pumpClaimQueue (queue : List Bytes) (c : Core) :
    SharesQuiet c (pumpClaimQueue io queue c) := by
  induction queue generalizing c with
  | nil => exact sharesQuiet_claims ..
  | cons id rest ih =>
    simp only [pumpClaimQueue]
    split
    · exact ih c
    · split
      · exact ih c
      · split
        · refine SharesQuiet.trans ?_ (sharesQuiet_call _ ?_)
          · exact sharesQuiet_claims c ..
          · split <;> rfl
        · refine SharesQuiet.trans ?_ ((quiet_finishReceive io _ ..).shareSide.trans (ih _))
          exact sharesQuiet_claims c ..

theorem sharesQuiet_pumpClaims : SharesQuiet c (c.pumpClaims io) := by
  unfold pumpClaims
  split
  · exact .refl c
  · exact sharesQuiet_pumpClaimQueue io _ c

theorem quiet_ensurePeer {c c' : Core} (h : c.ensurePeer io = .ok c') : Quiet c c' := by
  unfold ensurePeer at h
  split at h
  · cases h
    exact .refl c
  · split at h
    · cases h
      exact quiet_sessions ..
    · cases h

theorem sharesQuiet_startClaim (id : Bytes) : SharesQuiet c (c.startClaim io id) := by
  unfold startClaim
  simp only
  set started := { c with receives := c.receives.modify id fun r =>
    { r with active := true, triedToken := false } } with hstarted
  have hquiet : SharesQuiet c started := sharesQuiet_claims c ..
  split
  · exact hquiet.trans (quiet_finishReceive io _ ..).shareSide
  · rename_i c' hpeer
    refine hquiet.trans ((quiet_ensurePeer io hpeer).shareSide.trans ?_)
    exact (sharesQuiet_claims c' ..).trans (sharesQuiet_pumpClaims io _)

theorem sharesQuiet_receiveStart (id code dir : Bytes) :
    SharesQuiet c (c.receiveStart io id code dir) := by
  unfold receiveStart
  simp only
  split
  · exact SharesQuiet.trans (sharesQuiet_claims c ..) (sharesQuiet_startClaim io _ id)
  · exact SharesQuiet.trans (sharesQuiet_claims c ..) (sharesQuiet_startClaim io _ id)

theorem sharesQuiet_receiveResume (id : Bytes) : SharesQuiet c (c.receiveResume io id) := by
  unfold receiveResume
  split
  · exact .refl c
  · split
    · exact .refl c
    · exact SharesQuiet.trans (sharesQuiet_claims c ..) (sharesQuiet_startClaim io _ id)

theorem sharesQuiet_transferCancel (id : Bytes) : SharesQuiet c (c.transferCancel io id) := by
  unfold transferCancel
  split
  · exact (quiet_cancelSession ..).shareSide
  · split
    · exact .refl c
    · exact SharesQuiet.trans (sharesQuiet_claims c ..) (quiet_finishReceive ..).shareSide

theorem sharesQuiet_onClaimResult (res : ClaimResult) (sessionId token message : Bytes) :
    SharesQuiet c (c.onClaimResult io res sessionId token message) := by
  have hclaimed : ∀ (c : Core) (id : Bytes),
      SharesQuiet c (c.claimed io id res sessionId token message) := by
    intro c id
    unfold claimed
    split
    · exact .refl c
    · split
      · exact SharesQuiet.trans (sharesQuiet_claims c ..) (quiet_saveReceives ..).shareSide
      · split
        · exact sharesQuiet_claims c ..
        · exact (quiet_finishReceive ..).shareSide
  unfold onClaimResult
  simp only
  split
  · exact SharesQuiet.trans (sharesQuiet_claims c ..) (sharesQuiet_pumpClaims io _)
  · exact SharesQuiet.trans (sharesQuiet_claims c ..)
      ((hclaimed _ _).trans (sharesQuiet_pumpClaims io _))

/-- The fields that only shares use. -/
theorem claimsQuiet_shares (shares : OrderedMap Bytes Share) (shareCreateQueue : List Bytes)
    (shareCreateInflight : Bool) :
    ClaimsQuiet c { c with
      shares := shares
      shareCreateQueue := shareCreateQueue
      shareCreateInflight := shareCreateInflight } :=
  { ClaimsQuiet.refl c with }

theorem claimsQuiet_call {k : PeerCall} (hk : k.claims = none) : ClaimsQuiet c (c.call k) :=
  { ClaimsQuiet.refl c with requests := by simp [claimRequests, call, hk] }

theorem claimsQuiet_pumpShareQueue (queue : List Bytes) (c : Core) :
    ClaimsQuiet c (pumpShareQueue io queue c) := by
  induction queue generalizing c with
  | nil => exact claimsQuiet_shares ..
  | cons id rest ih =>
    simp only [pumpShareQueue]
    split
    · exact ih c
    · split
      · exact ih c
      · split
        · refine ClaimsQuiet.trans ?_ (claimsQuiet_call _ rfl)
          exact claimsQuiet_shares c ..
        · refine ClaimsQuiet.trans ?_ (ih _)
          exact claimsQuiet_shares c ..

theorem claimsQuiet_pumpShareCreates : ClaimsQuiet c (c.pumpShareCreates io) := by
  unfold pumpShareCreates
  split
  · exact .refl c
  · exact claimsQuiet_pumpShareQueue io _ c

theorem claimsQuiet_shareCreate (id : Bytes) (mode : ShareMode) (ttlSec : Int)
    (built : Except Bytes (Manifest × Nat)) :
    ClaimsQuiet c (c.shareCreate io id mode ttlSec built) := by
  unfold shareCreate
  simp only
  split
  · exact claimsQuiet_shares c ..
  · split
    · exact claimsQuiet_shares c ..
    · rename_i c' hpeer
      refine ClaimsQuiet.trans (claimsQuiet_shares c ..)
        ((quiet_ensurePeer io hpeer).claimSide.trans ?_)
      exact ClaimsQuiet.trans (claimsQuiet_shares c' ..) (claimsQuiet_pumpShareCreates io _)

theorem claimsQuiet_onShareEvent (ev : ShareEvent) : ClaimsQuiet c (c.onShareEvent io ev) := by
  cases ev with
  | created shareId code expiresAt =>
    simp only [onShareEvent]
    split
    · exact ClaimsQuiet.trans (claimsQuiet_shares c ..) (claimsQuiet_call _ rfl)
    · exact ClaimsQuiet.trans (claimsQuiet_shares c ..) (claimsQuiet_pumpShareCreates io _)
  | failed detail =>
    simp only [onShareEvent]
    split
    · exact ClaimsQuiet.trans (claimsQuiet_shares c ..) (claimsQuiet_pumpShareCreates io _)
    · exact ClaimsQuiet.trans (claimsQuiet_shares c ..) (claimsQuiet_pumpShareCreates io _)
  | claimed shareId sessionId => exact (quiet_shareClaimed ..).claimSide
  | closed shareId reason => exact (quiet_shareClosed ..).claimSide

/-! ## Events -/

theorem quiet_linger (k : Nat) (pending : Bool) : Quiet c (c.handle io (.linger k pending)) := by
  simp only [handle]
  split
  · exact .refl c
  · exact Quiet.trans (quiet_sessions c ..) (quiet_lingerDone ..)

theorem quiet_transferPause (id : Bytes) (paused : Bool) : Quiet c (c.transferPause id paused) := by
  unfold transferPause
  split
  · exact .refl c
  · exact quiet_pauseSession ..

/-- The events that change which shares wait for a reply. -/
def Event.onShareRequests : Event → Bool
  | .shareCreate .. | .signal _ | .share (.created ..) | .share (.failed _) => true
  | _ => false

/-- The events that change which receives wait for a reply. -/
def Event.onClaims : Event → Bool
  | .receiveStart .. | .receiveResume _ | .transferCancel _ | .signal _ | .claimResult .. => true
  | _ => false

theorem sharesQuiet_handle (e : Event) (h : e.onShareRequests = false) :
    SharesQuiet c (c.handle io e) := by
  cases e with
  | shareCreate => cases h
  | signal => cases h
  | share ev =>
    cases ev with
    | created => cases h
    | failed => cases h
    | claimed => exact (quiet_shareClaimed io ..).shareSide
    | closed => exact (quiet_shareClosed ..).shareSide
  | shareClose => exact (quiet_shareClose ..).shareSide
  | receiveStart => exact sharesQuiet_receiveStart ..
  | receiveResume => exact sharesQuiet_receiveResume ..
  | transferPause => exact (quiet_transferPause ..).shareSide
  | transferCancel => exact sharesQuiet_transferCancel ..
  | claimResult => exact sharesQuiet_onClaimResult ..
  | session => exact (quiet_onSession ..).shareSide
  | sessionState => exact (quiet_setSessionState ..).shareSide
  | persist => exact (quiet_onPersist ..).shareSide
  | linger => exact (quiet_linger ..).shareSide
  | reconfigure => exact (quiet_recreatePeer ..).shareSide

theorem claimsQuiet_handle (e : Event) (h : e.onClaims = false) :
    ClaimsQuiet c (c.handle io e) := by
  cases e with
  | receiveStart => cases h
  | receiveResume => cases h
  | transferCancel => cases h
  | signal => cases h
  | claimResult => cases h
  | shareCreate => exact claimsQuiet_shareCreate ..
  | shareClose => exact (quiet_shareClose ..).claimSide
  | share => exact claimsQuiet_onShareEvent ..
  | transferPause => exact (quiet_transferPause ..).claimSide
  | session => exact (quiet_onSession ..).claimSide
  | sessionState => exact (quiet_setSessionState ..).claimSide
  | persist => exact (quiet_onPersist ..).claimSide
  | linger => exact (quiet_linger ..).claimSide
  | reconfigure => exact (quiet_recreatePeer ..).claimSide

end Core

end CrossTransfer.Api
