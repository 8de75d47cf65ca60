import CrossTransfer.Library.Machine
import CrossTransfer.Library.OrderedMap
import CrossTransfer.Share.TakeCode
import CrossTransfer.Share.TransferSession

/-! # The core object

Shares, receives and running transfers as `core.cpp` keeps them. Everything here runs on the
event loop, so a handler is a function from `Core` to `Core`. What a handler asks of the
signaling peer is appended to `calls`; what it learns from the outside (clock, results of peer
calls, random ids) comes in a `CoreIo`.

A `TransferSession` appears by what the core sees of it (`SessionView`): its role, its state and
its error. The core calls `Cancel`, `Pause`, `Resume`, `OnSessionEnd` and `OnTransportReady` on it;
every other state change of a session reaches the core as a call of `onTransferState` and is an
event of its own. Events to the user interface are left out.
-/

namespace CrossTransfer.Api

open CrossTransfer.Library
open CrossTransfer.Transfer
open CrossTransfer.Share (TransferState ResumeRecord normalize)

/-! ## Data -/

inductive ShareState where
  | creating
  | ready
  | claimed
  | transferring
  | completed
  | closed
  | failed
deriving DecidableEq, Repr

def ShareState.terminal (s : ShareState) : Bool := s == .completed || s == .closed || s == .failed

inductive ShareMode where
  | once
  | «open»
deriving DecidableEq, Repr

structure Share where
  /-- Local id, as returned by `ShareCreate`. -/
  id : Bytes
  /-- Server id, after `share_created`. -/
  shareId : Bytes := []
  code : Bytes := []
  expiresAt : Int := 0
  mode : ShareMode
  ttlSec : Int
  state : ShareState := .creating
  error : Bytes := []
  manifest : Manifest := ⟨[], [], [], 0⟩
  /-- Number of entries of `files`. -/
  fileCount : Nat := 0
  /-- Session id to transfer id. -/
  sessions : OrderedMap Bytes Bytes := ∅
  receivers : Nat := 0
  completed : Nat := 0

/-- `claiming`, `interrupted`, or the name of a transfer state. -/
inductive ReceiveState where
  | claiming
  | interrupted
  | transfer (s : TransferState)
deriving DecidableEq, Repr

structure Receive where
  transferId : Bytes
  code : Bytes
  saveDir : Bytes
  resumeToken : Bytes := []
  sessionId : Bytes := []
  state : ReceiveState := .claiming
  errorCode : Bytes := []
  errorMessage : Bytes := []
  metaJson : Bytes := []
  record : Option ResumeRecord := none
  createdAt : Int := 0
  triedToken : Bool := false
  active : Bool := false
deriving DecidableEq, Repr

/-- Finished for good: neither saved nor resumed. -/
def Receive.keysOf (r : Receive) : Bool :=
  r.state == .transfer .completed || r.state == .transfer .cancelled

/-- What the core sees of a `TransferSession`. -/
structure SessionView where
  transferId : Bytes
  isSender : Bool
  /-- Tells one session object from another. -/
  owner : Nat
  fileCount : Nat := 0
  state : TransferState := .connecting
  transportReady : Bool := false
  paused : Bool := false
  errorCode : Bytes := []
  errorMessage : Bytes := []

/-- An entry of `transfers_`. -/
structure Running where
  session : SessionView
  shareLocalId : Bytes := []
  receiveId : Bytes := []
  /-- Terminal, and lingering so that control messages can be flushed. -/
  closing : Bool := false

/-- The metadata of a `create_share` request. -/
structure ShareMeta where
  files : Nat
  bytes : UInt64
  name : Bytes
  roots : Nat
deriving DecidableEq, Repr

/-- A call of the signaling peer. `local` ids are not part of the message. -/
inductive PeerCall where
  | createShare (local_ : Bytes) (mode : ShareMode) (ttlSec : Int) (info : ShareMeta)
  | closeShare (shareId : Bytes)
  | claim (local_ : Bytes) (code resumeToken : Bytes)
  | leave (sessionId : Bytes)
deriving DecidableEq, Repr

structure Core where
  /-- A peer exists. -/
  peer : Bool := false
  signalConnected : Bool := false
  shares : OrderedMap Bytes Share := ∅
  shareCreateQueue : List Bytes := []
  shareCreateInflight : Bool := false
  receives : OrderedMap Bytes Receive := ∅
  claimQueue : List Bytes := []
  claimInflight : Bool := false
  /-- By session id. -/
  transfers : OrderedMap Bytes Running := ∅
  /-- Transfer id to session id. -/
  transferIds : OrderedMap Bytes Bytes := ∅
  lastPersistMs : Int := 0
  /-- The receives in `transfers.json`. -/
  stored : List Receive := []
  /-- Posted linger timers: session id and owner. -/
  lingers : List (Bytes × Nat) := []
  nextOwner : Nat := 0
  /-- Requests that were handed to the peer. -/
  calls : List PeerCall := []

/-- What a handler reads from its surroundings. -/
structure CoreIo where
  now : Int
  /-- Whether a peer can be started, and the error if not. -/
  peerOk : Bool
  peerError : Bytes
  /-- Whether `CreateShare` and `Claim` return 0 for a local id. -/
  createOk : Bytes → Bool
  claimOk : Bytes → Bool
  /-- Whether `transfers.json` can be written. -/
  saveOk : Bool
  /-- Whether the receiver engine of a session has verified every file. -/
  finished : Bytes → Bool
  /-- The id `NewId` draws. -/
  newId : Bytes

/-- Surroundings in which every call succeeds. -/
def CoreIo.steady : CoreIo where
  now := 0
  peerOk := true
  peerError := []
  createOk _ := true
  claimOk _ := true
  saveOk := true
  finished _ := false
  newId := ascii "tx_1"

namespace Core

variable (io : CoreIo) (c : Core)

def call (r : PeerCall) : Core := { c with calls := c.calls ++ [r] }

def setShare (id : Bytes) (s : Share) : Core := { c with shares := c.shares.insert id s }

def setReceive (id : Bytes) (r : Receive) : Core := { c with receives := c.receives.insert id r }

/-- `EnsurePeer`: the core with a peer, or the error. -/
def ensurePeer : Except Bytes Core :=
  if c.peer then .ok c
  else if io.peerOk then .ok { c with peer := true }
  else .error io.peerError

/-- `SaveReceives`. -/
def saveReceives : Core :=
  if io.saveOk then { c with stored := (c.receives.toList.map Prod.snd).filter fun r => !r.keysOf }
  else c

/-- What `LoadReceives` makes of a saved receive. -/
def loadReceive (r : Receive) : Receive :=
  { transferId := r.transferId
    code := r.code
    saveDir := r.saveDir
    resumeToken := r.resumeToken
    state := .interrupted
    errorCode := r.errorCode
    createdAt := r.createdAt
    metaJson := r.metaJson
    record := r.record }

/-- A new core, after `LoadReceives`. -/
def load (stored : List Receive) : Core :=
  { receives := (stored.filter fun r => !(r.transferId.isEmpty || r.code.isEmpty)).foldl
      (fun m r => m.insert r.transferId (loadReceive r)) ∅
    stored := stored }

/-! ## Transfers -/

def findReceiveBySession (sessionId : Bytes) : Option Bytes :=
  OrderedMap.firstKey c.receives fun r => r.sessionId == sessionId && r.active

/-- The share of a sending session that has ended. -/
def shareAfterTransfer (s : Share) (sessionId : Bytes) (v : SessionView) : Share :=
  let s : Share := { s with
    sessions := s.sessions.erase sessionId
    completed := if v.state = .completed then s.completed + 1 else s.completed }
  match s.mode with
  | .once =>
    if v.state = .completed then { s with state := .completed }
    -- Receiver may come back with its resume token; keep the share.
    else if s.state ≠ .closed then { s with state := .claimed, error := v.errorCode }
    else s
  | .open => if s.sessions.isEmpty then { s with state := .ready } else s

/-- The sender branch of `OnTransferState`. -/
def senderState (sessionId : Bytes) (v : SessionView) : Core :=
  match c.transfers[sessionId]? with
  | none => c
  | some t =>
    match c.shares[t.shareLocalId]? with
    | none => c
    | some s =>
      if !v.state.terminal then c
      else
        let close := decide (s.mode = .once) && decide (v.state = .completed) && c.peer &&
          c.signalConnected && !s.shareId.isEmpty
        let c := c.setShare t.shareLocalId (shareAfterTransfer s sessionId v)
        if close then c.call (.closeShare s.shareId) else c

/-- A receive after its session has reported a state. -/
def receiveAfterTransfer (r : Receive) (v : SessionView) : Receive :=
  let r := { r with state := .transfer v.state }
  if !v.state.terminal then r
  else
    let r := { r with errorCode := v.errorCode, errorMessage := v.errorMessage, active := false }
    if v.state = .completed ∨ v.state = .cancelled then { r with record := none, resumeToken := [] }
    else r

/-- The receiver branch of `OnTransferState`. -/
def receiverState (sessionId : Bytes) (v : SessionView) : Core :=
  match c.findReceiveBySession sessionId with
  | none => c
  | some id =>
    let c := { c with receives := c.receives.modify id (receiveAfterTransfer · v) }
    if v.state.terminal then c.saveReceives io else c

def onTransferState (sessionId : Bytes) (v : SessionView) : Core :=
  let c := if v.isSender then c.senderState sessionId v else c.receiverState io sessionId v
  match c.transfers[sessionId]? with
  | none => c
  | some t =>
    if v.state.terminal && !t.closing then
      { c with
        transfers := c.transfers.insert sessionId { t with closing := true }
        lingers := c.lingers ++ [(sessionId, t.session.owner)] }
    else c

/-- `SetState` of a session, with its error set before. -/
def setSessionState (sessionId : Bytes) (state : TransferState) (error : Option (Bytes × Bytes)) :
    Core :=
  match c.transfers[sessionId]? with
  | none => c
  | some t =>
    if t.session.state = state || t.session.state.terminal then c
    else
      let v := { t.session with
        state := state
        errorCode := error.elim t.session.errorCode Prod.fst
        errorMessage := error.elim t.session.errorMessage Prod.snd }
      { c with transfers := c.transfers.insert sessionId { t with session := v }
      }.onTransferState io sessionId v

/-- `on_persist` of a receiving session. -/
def onPersist (transferId : Bytes) (record : Option ResumeRecord) : Core :=
  match c.receives[transferId]? with
  | none => c
  | some r =>
    let c := c.setReceive transferId { r with record := record }
    if record.isNone || decide (1000 < io.now - c.lastPersistMs) then
      { c with lastPersistMs := io.now }.saveReceives io
    else c

/-- A session's `Cancel`, with the `Stop` of its engine. -/
def cancelSession (sessionId reason : Bytes) : Core :=
  match c.transfers[sessionId]? with
  | none => c
  | some t =>
    if t.session.state.terminal then c
    else
      let c := c.setSessionState io sessionId .cancelled (some (reason, t.session.errorMessage))
      if t.session.isSender then c else c.onPersist io t.session.transferId none

/-- A session's `Pause` (`paused` set) or `Resume`. -/
def pauseSession (sessionId : Bytes) (paused : Bool) : Core :=
  match c.transfers[sessionId]? with
  | none => c
  | some t =>
    if t.session.paused = paused || t.session.state.terminal then c
    else
      let v := { t.session with paused := paused }
      { c with transfers := c.transfers.insert sessionId { t with session := v } }

/-- A session's `OnSessionEnd`. -/
def endSession (sessionId reason : Bytes) : Core :=
  match c.transfers[sessionId]? with
  | none => c
  | some t =>
    if t.session.state.terminal then c
    else if !t.session.isSender && io.finished sessionId &&
        (reason == ascii "share_closed" || reason == ascii "peer_left") then
      (c.setSessionState io sessionId .completed none).onPersist io t.session.transferId none
    else c.setSessionState io sessionId .failed (some (ascii "session_end", reason))

/-- A session's `OnTransportReady`. -/
def sessionReady (sessionId : Bytes) : Core :=
  match c.transfers[sessionId]? with
  | none => c
  | some t =>
    if t.session.transportReady then c
    else
      let v := { t.session with transportReady := true }
      let c := { c with transfers := c.transfers.insert sessionId { t with session := v } }
      if !v.isSender then c.setSessionState io sessionId .waitingOffer none
      else if v.fileCount = 0 then
        c.setSessionState io sessionId .failed (some (ascii "no_files", ascii "nothing to send"))
      else c.setSessionState io sessionId .offering none

def makeSession (sessionId : Bytes) (v : SessionView) (shareLocalId receiveId : Bytes) : Core :=
  { c with
    transfers := c.transfers.insert sessionId
      { session := { v with owner := c.nextOwner }
        shareLocalId := shareLocalId
        receiveId := receiveId }
    transferIds := c.transferIds.insert v.transferId sessionId
    nextOwner := c.nextOwner + 1 }

def dropTransfer (sessionId : Bytes) : Core :=
  match c.transfers[sessionId]? with
  | none => c
  | some t =>
    { c with
      transferIds := c.transferIds.erase t.session.transferId
      transfers := c.transfers.erase sessionId }

/-- The task of `LingerThenDrop`; `pending` says whether control messages are unsent. -/
def lingerDone (sessionId : Bytes) (owner : Nat) (pending : Bool) : Core :=
  match c.transfers[sessionId]? with
  | none => c
  | some t =>
    -- A resumed session reuses the id.
    if t.session.owner ≠ owner then c
    else if pending && c.signalConnected then
      { c with lingers := c.lingers ++ [(sessionId, owner)] }
    else
      let c := if c.peer then c.call (.leave sessionId) else c
      c.dropTransfer sessionId

/-! ## Shares -/

def shareMeta (m : Manifest) : ShareMeta :=
  ⟨m.files.length, m.totalBytes, m.roots.head?.elim [] (·.name), m.roots.length⟩

/-- `PumpShareCreates` once it may send, with `DoShareCreate`. -/
def pumpShareQueue : List Bytes → Core → Core
  | [], c => { c with shareCreateQueue := [] }
  | id :: rest, c =>
    match c.shares[id]? with
    | none => pumpShareQueue rest c
    | some s =>
      if s.state ≠ .creating then pumpShareQueue rest c
      else if io.createOk id then
        { c with shareCreateQueue := rest, shareCreateInflight := true }.call
          (.createShare id s.mode s.ttlSec (shareMeta s.manifest))
      else
        pumpShareQueue rest
          (c.setShare id { s with state := .failed, error := ascii "create_share send failed" })

def pumpShareCreates : Core :=
  if c.shareCreateInflight || !c.signalConnected then c
  else pumpShareQueue io c.shareCreateQueue c

/-- The task of `ShareCreate`; `built` is the result of `BuildManifest`. -/
def shareCreate (id : Bytes) (mode : ShareMode) (ttlSec : Int)
    (built : Except Bytes (Manifest × Nat)) : Core :=
  let s : Share := { id := id, mode := mode, ttlSec := ttlSec }
  match built with
  | .error err => c.setShare id { s with state := .failed, error := err }
  | .ok (m, fileCount) =>
    let s := { s with manifest := m, fileCount := fileCount }
    match (c.setShare id s).ensurePeer io with
    | .error err => c.setShare id { s with state := .failed, error := err }
    | .ok c => { c with shareCreateQueue := c.shareCreateQueue ++ [id] }.pumpShareCreates io

def findShareByServerId (shareId : Bytes) : Option Bytes :=
  OrderedMap.firstKey c.shares fun s => s.shareId == shareId

def findShareBySession (sessionId : Bytes) : Option Bytes :=
  OrderedMap.firstKey c.shares fun s => s.sessions.contains sessionId

def closeShareInternal (id : Bytes) (state : ShareState) (reason : Bytes) : Core :=
  match c.shares[id]? with
  | none => c
  | some s =>
    if s.state.terminal then c
    else
      let c := if !s.shareId.isEmpty && c.peer && c.signalConnected then
          c.call (.closeShare s.shareId)
        else c
      let c := s.sessions.keys.foldl (fun c sid => c.cancelSession io sid reason) c
      { c with shares := c.shares.modify id fun s => { s with state := state, error := reason } }

def shareClose (id : Bytes) : Core :=
  match c.shares[id]? with
  | some _ => c.closeShareInternal io id .closed (ascii "user")
  | none =>
    match c.findShareByServerId id with
    | none => c
    | some id => c.closeShareInternal io id .closed (ascii "user")

/-- A share that waits for its server id. -/
def awaitsId (s : Share) : Bool := s.state == .creating && s.shareId.isEmpty

def readyShare (s : Share) (shareId code : Bytes) (expiresAt : Int) : Share :=
  { s with shareId := shareId, code := normalize code, expiresAt := expiresAt, state := .ready }

def failedShare (s : Share) (detail : Bytes) : Share := { s with state := .failed, error := detail }

inductive ShareEvent where
  | created (shareId code : Bytes) (expiresAt : Int)
  | failed (detail : Bytes)
  | claimed (shareId sessionId : Bytes)
  | closed (shareId reason : Bytes)
deriving DecidableEq, Repr

def onShareEvent (ev : ShareEvent) : Core :=
  match ev with
  | .created shareId code expiresAt =>
    let c := { c with shareCreateInflight := false }
    match OrderedMap.firstKey c.shares awaitsId with
    | none => c.call (.closeShare shareId)
    | some id =>
      { c with shares := c.shares.modify id (readyShare · shareId code expiresAt)
      }.pumpShareCreates io
  | .failed detail =>
    let c := { c with shareCreateInflight := false }
    match OrderedMap.firstKey c.shares awaitsId with
    | none => c.pumpShareCreates io
    | some id => { c with shares := c.shares.modify id (failedShare · detail) }.pumpShareCreates io
  | .claimed shareId sessionId =>
    match c.findShareByServerId shareId with
    | none => c
    | some id =>
      { c with shares := c.shares.modify id fun s => { s with
          receivers := s.receivers + 1
          sessions := if sessionId.isEmpty then s.sessions else s.sessions.insert sessionId []
          state := if s.state = .ready then .claimed else s.state } }
  | .closed shareId reason =>
    match c.findShareByServerId shareId with
    | none => c
    | some id =>
      match c.shares[id]? with
      | none => c
      | some s =>
        if s.state.terminal then c
        else if s.sessions.isEmpty then c.closeShareInternal io id .closed reason
        -- Transfers in flight keep going; the code is no longer claimable.
        else c.setShare id { s with error := reason }

/-! ## Receives -/

def finishReceive (id : Bytes) (state : TransferState) (code message : Bytes) : Core :=
  { c with receives := c.receives.modify id fun r => { r with
      state := .transfer state
      errorCode := code
      errorMessage := message
      active := false } }.saveReceives io

/-- `PumpClaims` once it may send. -/
def pumpClaimQueue : List Bytes → Core → Core
  | [], c => { c with claimQueue := [] }
  | id :: rest, c =>
    match c.receives[id]? with
    | none => pumpClaimQueue rest c
    | some r =>
      if r.state ≠ .claiming then pumpClaimQueue rest c
      else
        let byToken := !r.resumeToken.isEmpty && !r.triedToken
        let r := if byToken then { r with triedToken := true } else r
        let c := c.setReceive id r
        if io.claimOk id then
          { c with claimQueue := rest, claimInflight := true }.call
            (if byToken then .claim id [] r.resumeToken else .claim id r.code [])
        else
          pumpClaimQueue rest
            (c.finishReceive io id .failed (ascii "claim") (ascii "claim send failed"))

def pumpClaims : Core :=
  if c.claimInflight || !c.signalConnected then c else pumpClaimQueue io c.claimQueue c

def startClaim (id : Bytes) : Core :=
  let c := { c with receives := c.receives.modify id fun r =>
    { r with active := true, triedToken := false } }
  match c.ensurePeer io with
  | .error err => c.finishReceive io id .failed (ascii "peer") err
  | .ok c => { c with claimQueue := c.claimQueue ++ [id] }.pumpClaims io

/-- A record `ReceiveStart` takes over. -/
def reusable (code : Bytes) (r : Receive) : Bool := r.code == code && !r.active && !r.keysOf

/-- The task of `ReceiveStart`. -/
def receiveStart (id code dir : Bytes) : Core :=
  let reused := OrderedMap.firstKey c.receives (reusable code)
  match reused.bind fun tid => (c.receives[tid]?).map (tid, ·) with
  | some (tid, r) =>
    let moved := { r with
      transferId := id
      saveDir := dir
      state := .claiming
      errorCode := []
      errorMessage := [] }
    { c with receives := (c.receives.erase tid).insert id moved }.startClaim io id
  | none =>
    let r : Receive := { transferId := id, code := code, saveDir := dir, createdAt := io.now }
    (c.setReceive id r).startClaim io id

def receiveResume (id : Bytes) : Core :=
  match c.receives[id]? with
  | none => c
  | some r =>
    if r.active || r.keysOf then c
    else
      (c.setReceive id { r with state := .claiming, errorCode := [], errorMessage := []
        }).startClaim io id

inductive ClaimResult where
  | ok
  | codeNotFound
  | codeExpired
  | shareBusy
  | rateLimited
  | error
deriving DecidableEq, Repr

/-- `ClaimResultName`. -/
def ClaimResult.name : ClaimResult → Bytes
  | .ok => ascii "ok"
  | .codeNotFound => ascii "code_not_found"
  | .codeExpired => ascii "code_expired"
  | .shareBusy => ascii "share_busy"
  | .rateLimited => ascii "rate_limited"
  | .error => ascii "error"

/-- The receives `OnClaimResult` considers. -/
def claims (r : Receive) : Bool := r.state == .claiming && r.active

/-- A claim result, for the receive `id`. -/
def claimed (id : Bytes) (res : ClaimResult) (sessionId token message : Bytes) : Core :=
  match c.receives[id]? with
  | none => c
  | some r =>
    if res = .ok then
      (c.setReceive id { r with
        sessionId := sessionId
        resumeToken := if token.isEmpty then r.resumeToken else token
        state := .transfer .connecting }).saveReceives io
    else if r.triedToken && (res == .codeNotFound || res == .shareBusy) then
      -- Resume token rejected; fall back to the code once.
      { c.setReceive id { r with resumeToken := [] } with claimQueue := id :: c.claimQueue }
    else c.finishReceive io id .failed res.name message

def onClaimResult (res : ClaimResult) (sessionId token message : Bytes) : Core :=
  let c := { c with claimInflight := false }
  -- "The oldest receive in claiming state owns this result."
  match OrderedMap.leastKey c.receives claims (·.createdAt) with
  | none => c.pumpClaims io
  | some id => (c.claimed io id res sessionId token message).pumpClaims io

/-- `TransferPause` (`paused` set) and `TransferResume`. -/
def transferPause (id : Bytes) (paused : Bool) : Core :=
  match c.transferIds[id]? with
  | none => c
  | some sid => c.pauseSession sid paused

def transferCancel (id : Bytes) : Core :=
  match c.transferIds[id]? with
  | some sid => c.cancelSession io sid (ascii "user")
  | none =>
    -- Not running: a pending or interrupted receive.
    match c.receives[id]? with
    | none => c
    | some r =>
      { c.setReceive id { r with record := none } with
        claimQueue := c.claimQueue.filter (· ≠ id)
      }.finishReceive io id .cancelled (ascii "user") []

/-! ## Sessions and the signaling connection -/

inductive SessionStatus where
  | connecting
  | connected
  | disconnected
  | failed
  | closed
deriving DecidableEq, Repr

structure SessionInfo where
  status : SessionStatus
  sessionId : Bytes
  isSender : Bool
  resumeToken : Bytes := []
  metaJson : Bytes := []
  reason : Bytes := []
deriving DecidableEq, Repr

/-- The share a sending session without a known share is given to: the one that expires last. -/
def fallbackShare : Option Bytes :=
  OrderedMap.leastKey c.shares
    (fun s => s.state == .claimed || s.state == .transferring || s.state == .ready)
    fun s => -s.expiresAt

/-- A new session in the sender role. -/
def senderConnecting (sid : Bytes) : Core :=
  match (c.findShareBySession sid).or c.fallbackShare with
  | none => c.call (.leave sid)
  | some id =>
    match c.shares[id]? with
    | none => c
    | some s =>
      (c.setShare id { s with
        sessions := s.sessions.insert sid io.newId
        state := .transferring }).makeSession sid
        { transferId := io.newId, isSender := true, owner := 0, fileCount := s.fileCount } id []

/-- The last claiming receive, for a session whose claim result has not been seen. -/
def lastClaiming : Option Bytes :=
  ((c.receives.toList.filter fun e => claims e.2).getLast?).map Prod.fst

/-- A new session in the receiver role. -/
def receiverConnecting (info : SessionInfo) : Core :=
  let sid := info.sessionId
  match (c.findReceiveBySession sid).or c.lastClaiming with
  | none => c.call (.leave sid)
  | some id =>
    match c.receives[id]? with
    | none => c
    | some r =>
      ((c.setReceive id { r with
        sessionId := sid
        resumeToken := if info.resumeToken.isEmpty then r.resumeToken else info.resumeToken
        metaJson := if info.metaJson.isEmpty then r.metaJson else info.metaJson
        state := .transfer .connecting }).makeSession sid
        { transferId := r.transferId, isSender := false, owner := 0 } [] r.transferId).saveReceives io

def onSession (info : SessionInfo) : Core :=
  let sid := info.sessionId
  match info.status with
  | .connecting =>
    let start (c : Core) :=
      if info.isSender then c.senderConnecting io sid else c.receiverConnecting io info
    match c.transfers[sid]? with
    | none => start c
    -- Resumed: replace the finished one.
    | some t => if t.closing then start (c.dropTransfer sid) else c
  | .connected =>
    match c.transfers[sid]? with
    | none => c
    | some _ =>
      let c := c.sessionReady io sid
      match c.findReceiveBySession sid with
      | none => c
      | some id =>
        { c with receives := c.receives.modify id fun r =>
            if r.state = .transfer .connecting then { r with state := .transfer .waitingOffer }
            else r }
  | _ =>
    match c.transfers[sid]? with
    | none => c
    | some t =>
      -- Already finished on our side.
      if t.closing then c.dropTransfer sid
      else (c.endSession io sid info.reason).dropTransfer sid

/-- The shares that fail when the signaling connection is lost. -/
def loseShare (id : Bytes) : Core :=
  match c.shares[id]? with
  | none => c
  | some s =>
    if s.state = .ready ∨ s.state = .claimed ∨ s.state = .transferring then
      c.closeShareInternal io id .failed (ascii "signal_lost")
    else c

/-- The receives that fail when the signaling connection is lost. -/
def loseReceive (id : Bytes) : Core :=
  match c.receives[id]? with
  | none => c
  | some r =>
    if r.state = .claiming ∨ r.state = .transfer .connecting ∨ r.state = .transfer .waitingOffer then
      c.finishReceive io id .failed (ascii "signal_lost") (ascii "signaling connection lost")
    else c

/-- `OnSignal`; `connected` is whether the new status is `CONNECTED`. -/
def onSignal (connected : Bool) : Core :=
  let was := c.signalConnected
  let c := { c with signalConnected := connected }
  if connected && !was then (c.pumpShareCreates io).pumpClaims io
  else if !connected && was then
    let c := { c with shareCreateInflight := false, claimInflight := false }
    let c := c.shares.keys.foldl (fun c id => c.loseShare io id) c
    c.receives.keys.foldl (fun c id => c.loseReceive io id) c
  else c

/-- `RecreatePeer`. The flags of requests in flight stay as they are. -/
def recreatePeer : Core :=
  let c := c.transfers.keys.foldl (fun c sid => c.endSession io sid (ascii "reconfigured")) c
  let c := { c with transfers := ∅, transferIds := ∅ }
  let c := c.shares.keys.foldl
    (fun c id => c.closeShareInternal io id .closed (ascii "reconfigured")) c
  let c := { c with peer := false, signalConnected := false }
  match c.ensurePeer io with
  | .ok c => c
  | .error _ => c

/-! ## Events -/

/-- A task of the event loop. -/
inductive Event where
  | shareCreate (id : Bytes) (mode : ShareMode) (ttlSec : Int) (built : Except Bytes (Manifest × Nat))
  | shareClose (id : Bytes)
  | receiveStart (id code dir : Bytes)
  | receiveResume (id : Bytes)
  | transferPause (id : Bytes) (paused : Bool)
  | transferCancel (id : Bytes)
  | signal (connected : Bool)
  | share (ev : ShareEvent)
  | claimResult (res : ClaimResult) (sessionId token message : Bytes)
  | session (info : SessionInfo)
  /-- A running session changes its state. -/
  | sessionState (sessionId : Bytes) (state : TransferState) (error : Option (Bytes × Bytes))
  /-- The engine of a running session saves its progress. -/
  | persist (transferId : Bytes) (record : Option ResumeRecord)
  /-- A linger timer fires; `pending` says whether control messages are unsent. -/
  | linger (k : Nat) (pending : Bool)
  | reconfigure

def handle (e : Event) : Core :=
  match e with
  | .shareCreate id mode ttlSec built => c.shareCreate io id mode ttlSec built
  | .shareClose id => c.shareClose io id
  | .receiveStart id code dir => c.receiveStart io id code dir
  | .receiveResume id => c.receiveResume io id
  | .transferPause id paused => c.transferPause id paused
  | .transferCancel id => c.transferCancel io id
  | .signal connected => c.onSignal io connected
  | .share ev => c.onShareEvent io ev
  | .claimResult res sessionId token message => c.onClaimResult io res sessionId token message
  | .session info => c.onSession io info
  | .sessionState sessionId state error => c.setSessionState io sessionId state error
  | .persist transferId record => c.onPersist io transferId record
  | .linger k pending =>
    match c.lingers[k]? with
    | none => c
    | some (sid, owner) => { c with lingers := c.lingers.eraseIdx k }.lingerDone sid owner pending
  | .reconfigure => c.recreatePeer io

/-- The core as a machine: an action is a task of the event loop with what it reads. The core
    starts from the saved receives; `peer` says whether a signaling peer could be started. -/
def machine (stored : List Receive) (peer : Bool) : Machine Core (CoreIo × Event) where
  init := { load stored with peer := peer }
  step c a := some (c.handle a.1 a.2)

end Core

end CrossTransfer.Api
