import CrossTransfer.Api.SessionEffects

/-! # What a session can do to transfers and shares

`StateChanged` is the effect of one `SetState` on `transfers_` and `shares_`: the entry of the
session and, when a sending session ends, the share it belongs to. The methods the core calls on
a session are such steps or change nothing that matters here (`SameTransfers`): a relation that
satisfies `SessionRule` holds along each of them.
-/

namespace CrossTransfer.Api

open CrossTransfer.Library
open CrossTransfer.Transfer
open CrossTransfer.Share (TransferState ResumeRecord)

namespace Core

/-- The view of a session after `SetState`. -/
def stateView (v : SessionView) (state : TransferState) (error : Option (Bytes × Bytes)) :
    SessionView :=
  { v with
    state := state
    errorCode := error.elim v.errorCode Prod.fst
    errorMessage := error.elim v.errorMessage Prod.snd }

/-- The entry `t` of a running session gets the view `v`. -/
structure StateChanged (c : Core) (sid : Bytes) (t : Running) (v : SessionView) (c' : Core) :
    Prop where
  entry : c.transfers[sid]? = some t
  running : t.session.state.terminal = false
  transfers : ∀ sid', c'.transfers[sid']? =
    if sid' = sid then some { t with session := v, closing := t.closing || v.state.terminal }
    else c.transfers[sid']?
  shares : ∀ id, c'.shares[id]? =
    if v.isSender = true ∧ v.state.terminal = true ∧ id = t.shareLocalId then
      (c.shares[id]?).map (shareAfterTransfer · sid v)
    else c.shares[id]?
  transferIds : c'.transferIds = c.transferIds
  nextOwner : c'.nextOwner = c.nextOwner

structure SameTransfers (c c' : Core) : Prop where
  transfers : c'.transfers = c.transfers
  shares : c'.shares = c.shares
  transferIds : c'.transferIds = c.transferIds
  nextOwner : c'.nextOwner = c.nextOwner

theorem SameTransfers.refl (c : Core) : SameTransfers c c := ⟨rfl, rfl, rfl, rfl⟩

theorem SameTransfers.trans {a b c : Core} (h : SameTransfers a b) (h' : SameTransfers b c) :
    SameTransfers a c :=
  ⟨h'.transfers.trans h.transfers, h'.shares.trans h.shares, h'.transferIds.trans h.transferIds,
    h'.nextOwner.trans h.nextOwner⟩

variable (io : CoreIo) (c : Core)

/-- The fields that no transfer depends on. -/
theorem sameTransfers_other (peer signalConnected shareCreateInflight claimInflight : Bool)
    (shareCreateQueue claimQueue : List Bytes) (receives : OrderedMap Bytes Receive)
    (lastPersistMs : Int) (stored : List Receive) (lingers : List (Bytes × Nat))
    (calls : List PeerCall) :
    SameTransfers c { c with
      peer := peer
      signalConnected := signalConnected
      shareCreateQueue := shareCreateQueue
      shareCreateInflight := shareCreateInflight
      receives := receives
      claimQueue := claimQueue
      claimInflight := claimInflight
      lastPersistMs := lastPersistMs
      stored := stored
      lingers := lingers
      calls := calls } :=
  ⟨rfl, rfl, rfl, rfl⟩

theorem sameTransfers_saveReceives : SameTransfers c (c.saveReceives io) := by
  unfold saveReceives
  split
  · exact sameTransfers_other c ..
  · exact .refl c

theorem sameTransfers_onPersist (transferId : Bytes) (record : Option ResumeRecord) :
    SameTransfers c (c.onPersist io transferId record) := by
  unfold onPersist
  split
  · exact .refl c
  · simp only
    split
    · exact SameTransfers.trans (sameTransfers_other c ..) (sameTransfers_saveReceives io _)
    · exact sameTransfers_other c ..

theorem sameTransfers_receiverState (sid : Bytes) (v : SessionView) :
    SameTransfers c (c.receiverState io sid v) := by
  unfold receiverState
  split
  · exact .refl c
  · simp only
    split
    · exact SameTransfers.trans (sameTransfers_other c ..) (sameTransfers_saveReceives io _)
    · exact sameTransfers_other c ..

theorem sameTransfers_finishReceive (id : Bytes) (state : TransferState) (code message : Bytes) :
    SameTransfers c (c.finishReceive io id state code message) :=
  SameTransfers.trans (sameTransfers_other c ..) (sameTransfers_saveReceives io _)

/-! ## One state change -/

/-- The sender branch of `OnTransferState` changes the share of the entry when the session ends. -/
theorem senderState_spec {sid : Bytes} {t : Running} (entry : c.transfers[sid]? = some t)
    (v : SessionView) :
    (c.senderState sid v).transfers = c.transfers ∧
    (c.senderState sid v).transferIds = c.transferIds ∧
    (c.senderState sid v).nextOwner = c.nextOwner ∧
    ∀ id, (c.senderState sid v).shares[id]? =
      if v.state.terminal = true ∧ id = t.shareLocalId then
        (c.shares[id]?).map (shareAfterTransfer · sid v)
      else c.shares[id]? := by
  unfold senderState
  simp only [entry]
  cases hs : c.shares[t.shareLocalId]? with
  | none =>
    refine ⟨rfl, rfl, rfl, fun id => ?_⟩
    by_cases h : v.state.terminal = true ∧ id = t.shareLocalId
    · rw [if_pos h, h.2, hs]
      rfl
    · rw [if_neg h]
  | some s =>
    cases hterminal : v.state.terminal with
    | false => simp
    | true =>
      have hset : ∀ id, (c.setShare t.shareLocalId (shareAfterTransfer s sid v)).shares[id]? =
          if id = t.shareLocalId then (c.shares[id]?).map (shareAfterTransfer · sid v)
          else c.shares[id]? := by
        intro id
        simp only [setShare, OrderedMap.get_insert]
        split
        · rename_i heq
          rw [heq, hs]
          rfl
        · rfl
      simp only [Bool.not_true, Bool.false_eq_true, ↓reduceIte, true_and]
      split
      · exact ⟨rfl, rfl, rfl, hset⟩
      · exact ⟨rfl, rfl, rfl, hset⟩

/-- No session with this id runs. -/
def Idle (c : Core) (sid : Bytes) : Prop := ∀ t, c.transfers[sid]? = some t → t.closing = true

/-- Without effect: there is no such session, or it is in that state or has ended. -/
def NoChange (c : Core) (sid : Bytes) (state : TransferState) : Prop :=
  ∀ t, c.transfers[sid]? = some t → t.session.state = state ∨ t.session.state.terminal = true

theorem setSessionState_cases (sid : Bytes) (state : TransferState)
    (error : Option (Bytes × Bytes)) :
    (c.setSessionState io sid state error = c ∧ c.NoChange sid state) ∨
    ∃ t, StateChanged c sid t (stateView t.session state error)
      (c.setSessionState io sid state error) := by
  unfold setSessionState
  cases entry : c.transfers[sid]? with
  | none => exact .inl ⟨rfl, fun t h => by rw [entry] at h; cases h⟩
  | some t =>
    simp only
    split
    · rename_i hidle
      refine .inl ⟨rfl, fun t' h => ?_⟩
      obtain rfl := Option.some.inj (entry.symm.trans h)
      simpa using hidle
    · rename_i hrunning
      refine .inr ⟨t, ?_⟩
      simp only [Bool.or_eq_true, decide_eq_true_eq, not_or, Bool.not_eq_true] at hrunning
      set v := stateView t.session state error with hv
      -- The entry with the new view, before `OnTransferState` runs.
      set viewed : Core :=
        { c with transfers := c.transfers.insert sid { t with session := v } } with hviewed
      have hentry : viewed.transfers[sid]? = some { t with session := v } := by simp [viewed]
      change StateChanged c sid t v (viewed.onTransferState io sid v)
      unfold onTransferState
      simp only
      set mid := if v.isSender then viewed.senderState sid v else viewed.receiverState io sid v
        with hmid
      have hmidShares : mid.transfers = viewed.transfers ∧ mid.transferIds = viewed.transferIds ∧
          mid.nextOwner = viewed.nextOwner ∧ ∀ id, mid.shares[id]? =
            if v.isSender = true ∧ v.state.terminal = true ∧ id = t.shareLocalId then
              (c.shares[id]?).map (shareAfterTransfer · sid v)
            else c.shares[id]? := by
        rw [hmid]
        cases hsender : v.isSender with
        | true =>
          obtain ⟨htransfers, hids, howner, hshares⟩ := senderState_spec viewed hentry v
          refine ⟨htransfers, hids, howner, fun id => ?_⟩
          simp only [↓reduceIte, true_and]
          exact hshares id
        | false =>
          have same := sameTransfers_receiverState io viewed sid v
          refine ⟨same.transfers, same.transferIds, same.nextOwner, fun id => ?_⟩
          simp only [Bool.false_eq_true, ↓reduceIte, false_and]
          rw [same.shares]
      obtain ⟨htransfers, hids, howner, hshares⟩ := hmidShares
      rw [htransfers, hentry]
      simp only
      cases hterminal : v.state.terminal && !t.closing with
      | true =>
        simp only [Bool.and_eq_true, Bool.not_eq_true'] at hterminal
        refine ⟨entry, hrunning.2, fun sid' => ?_, hshares, hids, howner⟩
        simp only [↓reduceIte, OrderedMap.get_insert, hviewed, hterminal.1, Bool.or_true]
        split <;> rfl
      | false =>
        have hclosing : (t.closing || v.state.terminal) = t.closing := by
          cases hc : t.closing with
          | true => rfl
          | false => simpa [hc] using hterminal
        refine ⟨entry, hrunning.2, fun sid' => ?_, hshares, hids, howner⟩
        simp only [Bool.false_eq_true, ↓reduceIte, htransfers, hviewed, OrderedMap.get_insert,
          hclosing]

/-! ## The methods -/

/-- The entry with another view of the same session, in the same state. -/
structure SameSession (v v' : SessionView) : Prop where
  transferId : v'.transferId = v.transferId
  isSender : v'.isSender = v.isSender
  owner : v'.owner = v.owner
  state : v'.state = v.state

/-- A relation that holds along every method of a session. A sending session completes in no
    method that the core calls, so `change` need not cover that. -/
structure SessionRule (R : Core → Core → Prop) : Prop where
  trans : ∀ {a b c}, R a b → R b c → R a c
  same : ∀ {c c'}, SameTransfers c c' → R c c'
  view : ∀ {c sid t v}, c.transfers[sid]? = some t → SameSession t.session v →
    R c { c with transfers := c.transfers.insert sid { t with session := v } }
  change : ∀ {c sid t state error c'}, (state = .completed → t.session.isSender = false) →
    StateChanged c sid t (stateView t.session state error) c' → R c c'

namespace SessionRule

variable {R : Core → Core → Prop} (rule : SessionRule R) {io : CoreIo} (c : Core)

include rule

theorem refl : R c c := rule.same (.refl c)

theorem foldl {α : Type*} (f : Core → α → Core) (hf : ∀ c a, R c (f c a)) (as : List α) (c : Core) :
    R c (as.foldl f c) := by
  induction as generalizing c with
  | nil => exact rule.refl c
  | cons a as ih => exact rule.trans (hf c a) (ih (f c a))

theorem setSessionState (sid : Bytes) {state : TransferState} (error : Option (Bytes × Bytes))
    (sender : state = .completed → ∀ t, c.transfers[sid]? = some t → t.session.isSender = false) :
    R c (c.setSessionState io sid state error) := by
  obtain ⟨heq, -⟩ | ⟨t, changed⟩ := setSessionState_cases io c sid state error
  · rw [heq]
    exact rule.refl c
  · exact rule.change (fun h => sender h t changed.entry) changed

theorem cancelSession (sid reason : Bytes) : R c (c.cancelSession io sid reason) := by
  unfold Core.cancelSession
  split
  · exact rule.refl c
  · split
    · exact rule.refl c
    · have hset : ∀ error, R c (c.setSessionState io sid .cancelled error) :=
        fun error => rule.setSessionState c sid error fun h => by cases h
      simp only
      split
      · exact hset _
      · exact rule.trans (hset _) (rule.same (sameTransfers_onPersist io _ _ _))

theorem pauseSession (sid : Bytes) (paused : Bool) : R c (c.pauseSession sid paused) := by
  unfold Core.pauseSession
  split
  · exact rule.refl c
  · rename_i t entry
    split
    · exact rule.refl c
    · exact rule.view entry ⟨rfl, rfl, rfl, rfl⟩

theorem endSession (sid reason : Bytes) : R c (c.endSession io sid reason) := by
  unfold Core.endSession
  split
  · exact rule.refl c
  · rename_i t entry
    split
    · exact rule.refl c
    · split
      · rename_i hfinished
        simp only [Bool.and_eq_true, Bool.not_eq_true'] at hfinished
        refine rule.trans (rule.setSessionState c sid _ fun _ t' entry' => ?_)
          (rule.same (sameTransfers_onPersist io _ _ _))
        obtain rfl := Option.some.inj (entry.symm.trans entry')
        exact hfinished.1.1
      · exact rule.setSessionState c sid _ fun h => by cases h

theorem sessionReady (sid : Bytes) : R c (c.sessionReady io sid) := by
  unfold Core.sessionReady
  split
  · exact rule.refl c
  · rename_i t entry
    split
    · exact rule.refl c
    · have hview := rule.view (v := { t.session with transportReady := true }) entry
        ⟨rfl, rfl, rfl, rfl⟩
      simp only
      split
      · exact rule.trans hview (rule.setSessionState _ sid _ fun h => by cases h)
      · split
        · exact rule.trans hview (rule.setSessionState _ sid _ fun h => by cases h)
        · exact rule.trans hview (rule.setSessionState _ sid _ fun h => by cases h)

end SessionRule

/-- After `Cancel` a session has ended. -/
theorem terminal_cancelSession (sid reason : Bytes) {t : Running}
    (ht : (c.cancelSession io sid reason).transfers[sid]? = some t) :
    t.session.state.terminal = true := by
  unfold cancelSession at ht
  cases entry : c.transfers[sid]? with
  | none =>
    simp only [entry] at ht
    cases ht
  | some t₀ =>
    simp only [entry] at ht
    split at ht
    · rename_i hterminal
      obtain rfl := Option.some.inj (entry.symm.trans ht)
      exact hterminal
    · rename_i hrunning
      have hset : ∀ error t, (c.setSessionState io sid .cancelled error).transfers[sid]? = some t →
          t.session.state.terminal = true := by
        intro error t ht
        obtain ⟨-, idle⟩ | ⟨t₁, changed⟩ := setSessionState_cases io c sid .cancelled error
        · obtain hstate | hstate := idle t₀ entry
          · rw [hstate] at hrunning
            exact absurd rfl hrunning
          · exact absurd hstate hrunning
        · rw [changed.transfers, if_pos rfl] at ht
          obtain rfl := Option.some.inj ht
          rfl
      split at ht
      · exact hset _ t ht
      · rw [(sameTransfers_onPersist io _ _ _).transfers] at ht
        exact hset _ t ht

/-! ## Methods that leave transfers and shares alone -/

theorem sameTransfers_pumpClaimQueue (queue : List Bytes) (c : Core) :
    SameTransfers c (pumpClaimQueue io queue c) := by
  induction queue generalizing c with
  | nil => exact sameTransfers_other c ..
  | cons id rest ih =>
    simp only [pumpClaimQueue]
    split
    · exact ih c
    · split
      · exact ih c
      · split
        · exact sameTransfers_other c ..
        · refine SameTransfers.trans ?_ ((sameTransfers_finishReceive io _ ..).trans (ih _))
          exact sameTransfers_other c ..

theorem sameTransfers_pumpClaims : SameTransfers c (c.pumpClaims io) := by
  unfold pumpClaims
  split
  · exact .refl c
  · exact sameTransfers_pumpClaimQueue io _ c

theorem sameTransfers_ensurePeer {c c' : Core} (h : c.ensurePeer io = .ok c') :
    SameTransfers c c' := by
  unfold ensurePeer at h
  split at h
  · cases h
    exact .refl c
  · split at h
    · cases h
      exact sameTransfers_other c ..
    · cases h

theorem sameTransfers_startClaim (id : Bytes) : SameTransfers c (c.startClaim io id) := by
  unfold startClaim
  simp only
  set started := { c with receives := c.receives.modify id fun r =>
    { r with active := true, triedToken := false } }
  have hstarted : SameTransfers c started := sameTransfers_other c ..
  split
  · exact hstarted.trans (sameTransfers_finishReceive io _ ..)
  · rename_i c' hpeer
    refine hstarted.trans ((sameTransfers_ensurePeer io hpeer).trans ?_)
    exact (sameTransfers_other c' ..).trans (sameTransfers_pumpClaims io _)

theorem sameTransfers_receiveStart (id code dir : Bytes) :
    SameTransfers c (c.receiveStart io id code dir) := by
  unfold receiveStart
  simp only
  split
  · exact SameTransfers.trans (sameTransfers_other c ..) (sameTransfers_startClaim io _ id)
  · exact SameTransfers.trans (sameTransfers_other c ..) (sameTransfers_startClaim io _ id)

theorem sameTransfers_receiveResume (id : Bytes) : SameTransfers c (c.receiveResume io id) := by
  unfold receiveResume
  split
  · exact .refl c
  · split
    · exact .refl c
    · exact SameTransfers.trans (sameTransfers_other c ..) (sameTransfers_startClaim io _ id)

theorem sameTransfers_onClaimResult (res : ClaimResult) (sessionId token message : Bytes) :
    SameTransfers c (c.onClaimResult io res sessionId token message) := by
  have hclaimed : ∀ (c : Core) (id : Bytes),
      SameTransfers c (c.claimed io id res sessionId token message) := by
    intro c id
    unfold claimed
    split
    · exact .refl c
    · split
      · exact SameTransfers.trans (sameTransfers_other c ..) (sameTransfers_saveReceives io _)
      · split
        · exact sameTransfers_other c ..
        · exact sameTransfers_finishReceive io c ..
  unfold onClaimResult
  simp only
  split
  · exact SameTransfers.trans (sameTransfers_other c ..) (sameTransfers_pumpClaims io _)
  · exact SameTransfers.trans (sameTransfers_other c ..)
      ((hclaimed _ _).trans (sameTransfers_pumpClaims io _))

theorem sameTransfers_loseReceive (id : Bytes) : SameTransfers c (c.loseReceive io id) := by
  unfold loseReceive
  split
  · exact .refl c
  · split
    · exact sameTransfers_finishReceive io c ..
    · exact .refl c

/-- A cancelled transfer is running, or only its receive is touched. -/
theorem SessionRule.transferCancel {R : Core → Core → Prop} (rule : SessionRule R) (id : Bytes) :
    R c (c.transferCancel io id) := by
  unfold Core.transferCancel
  split
  · exact rule.cancelSession c ..
  · split
    · exact rule.refl c
    · exact rule.same (SameTransfers.trans (sameTransfers_other c ..)
        (sameTransfers_finishReceive io _ ..))

theorem SessionRule.transferPause {R : Core → Core → Prop} (rule : SessionRule R) (id : Bytes)
    (paused : Bool) : R c (c.transferPause id paused) := by
  unfold Core.transferPause
  split
  · exact rule.refl c
  · exact rule.pauseSession c ..

end Core

end CrossTransfer.Api
