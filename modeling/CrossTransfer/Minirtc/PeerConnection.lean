import CrossTransfer.Library.Machine
import CrossTransfer.Minirtc.DtlsTransport

/-! # The session of a peer connection

The session of `minirtc/src/pc/peer_connection.cpp`, with SRTP: without it there is no DTLS transport.
Its worker takes the posted tasks in order; ICE and the WebSocket feed the DTLS transport from threads
of their own. Every statement that another thread can observe is a step: `Start` is at least two, and
`Restart` five.
-/

namespace CrossTransfer.Minirtc

open CrossTransfer.Library
open CrossTransfer.Transfer

def kDtlsTimeoutMs : Int := 10000

structure Params where
  enableWsRelay : Bool := true
  forceWsRelay : Bool := false
  iceTimeoutMs : Int

inductive IceState where
  | new
  | gathering
  | connecting
  | connected
  | completed
  | failed
deriving DecidableEq, Repr

inductive SessionStatus where
  | connecting
  | connected
  | disconnected
  | failed
  | closed
deriving DecidableEq, Repr

/-! ## Tasks and statements -/

inductive Task where
  | iceState (st : IceState)
  /-- The peer's description, with its fingerprint; `applies` says whether the rest of it is
      accepted. -/
  | description (fingerprint : Bytes) (applies : Bool)
  /-- The peer asks for the relay. -/
  | relaySignal
  /-- The peer sent a frame through the relay. -/
  | relayFrame
  /-- `session_end`, or another end from outside. -/
  | sessionEnd (status : SessionStatus)
  | housekeeping
  /-- The callback of the DTLS transport. -/
  | dtlsDone (h : Handshake) (verified : Bool)
  /-- `EndSessionAsync`, after `Start` has failed. -/
  | dtlsFailed (h : Handshake)
deriving DecidableEq, Repr

/-- A statement that a thread is about to execute. -/
inductive Op where
  /-- `Restart`, up to the end of `Cleanup`. -/
  | restart
  | clearStarted
  | clearHandshakeDone
  | clearVerified
  | clearFailed
  | onPathReady
  /-- The DTLS part of `Housekeeping`, with what it has read before. -/
  | checkDtls (now dtlsStartedMs : Int)
  | maybeStartDtls
  | start
  | startLocked
  | handleIncoming
  | publish (h : Handshake) (d : Done)
  | endSessionAsync (h : Handshake)
deriving DecidableEq, Repr

/-- What a statement reads from its surroundings. -/
structure Io where
  now : Int := 0
  setup : SslSetup := .ready
  ssl : SslResult := .wantMore
  /-- Whether OpenSSL derives the keys, and the data transport takes them. -/
  keys : Bool := true

/-! ## The session -/

inductive Cause where
  /-- A handshake that is done, that did not start or that takes too long. -/
  | handshake (h : Handshake)
  /-- No path through ICE. -/
  | ice
  | outside
deriving DecidableEq, Repr

/-- A change of the status. -/
structure Change where
  status : SessionStatus
  cause : Cause
  /-- Which handshake was the current one. -/
  current : Handshake
  /-- Whether the session had fallen back. -/
  relay : Bool
deriving DecidableEq, Repr

/-- The threads that receive datagrams. -/
inductive Receiving where
  | ice
  | webSocket
deriving DecidableEq, Repr

structure Session where
  dtls : DtlsTransport := {}
  createdMs : Int := 0
  relay : Bool := false
  pathReady : Bool := false
  transportReady : Bool := false
  ended : Bool := false
  dtlsStartedMs : Int := 0
  status : SessionStatus := .connecting
  /-- What the worker has yet to execute of its task. -/
  worker : List Op := []
  /-- What the receiving threads have yet to execute. -/
  network : Receiving → List Op := fun _ => []
  queue : List Task := []
  /-- Oldest first. -/
  changes : List Change := []

namespace Session

variable (s : Session)

def setStatus (status : SessionStatus) (cause : Cause) : Session :=
  { s with
    status := status
    changes := s.changes ++ [⟨status, cause, s.dtls.restarts, s.relay⟩] }

/-- `EndSession`. -/
def endSession (status : SessionStatus) (cause : Cause) : Session :=
  if s.ended then s else { s with ended := true }.setStatus status cause

@[simp] theorem dtls_endSession (status : SessionStatus) (cause : Cause) :
    (s.endSession status cause).dtls = s.dtls := by
  unfold endSession
  split <;> rfl

@[simp] theorem relay_endSession (status : SessionStatus) (cause : Cause) :
    (s.endSession status cause).relay = s.relay := by
  unfold endSession
  split <;> rfl

def connect (cause : Cause) : Session :=
  { s with transportReady := true }.setStatus .connected cause

/-- `SwitchToRelay`. -/
def switchToRelay : Session :=
  if s.relay || s.ended then s
  else
    { s with
      relay := true
      pathReady := true
      transportReady := false
      worker := [.restart, .onPathReady] }

/-- `OnIceState`. -/
def onIceState (params : Params) : IceState → Session
  | .connected | .completed =>
    if s.relay then s
    else { s with pathReady := true, worker := if s.pathReady then [] else [.onPathReady] }
  | .failed =>
    if s.relay then s
    else if params.enableWsRelay then s.switchToRelay
    else s.endSession .failed .ice
  | _ => s

/-- `OnDtlsDone`. -/
def onDtlsDone (io : Io) (h : Handshake) (verified : Bool) : Session :=
  if !verified then s.endSession .failed (.handshake h)
  else if !s.dtls.exportSrtpKeys io.keys then s.endSession .failed (.handshake h)
  else s.connect (.handshake h)

/-- `ApplyRemoteDescription`. -/
def applyRemoteDescription (fingerprint : Bytes) (applies : Bool) : Session :=
  if fingerprint.isEmpty then s.endSession .failed .outside
  else
    let s := { s with dtls := { s.dtls with remoteFingerprint := fingerprint } }
    if applies then s else s.endSession .failed .outside

/-- `Housekeeping`, up to the DTLS part. -/
def housekeeping (params : Params) (io : Io) : Session :=
  if !s.pathReady && !s.relay && params.iceTimeoutMs < io.now - s.createdMs then
    if params.enableWsRelay then s.switchToRelay else s.endSession .failed .ice
  else if s.pathReady && !s.transportReady then
    { s with worker := [.checkDtls io.now s.dtlsStartedMs] }
  else s

/-- The worker runs a task; its callbacks look for the session first. -/
def perform (params : Params) (io : Io) : Task → Session
  | .iceState st => if s.ended then s else s.onIceState params st
  | .description fingerprint applies =>
    if s.ended then s else s.applyRemoteDescription fingerprint applies
  | .relaySignal => if s.ended || !params.enableWsRelay then s else s.switchToRelay
  | .relayFrame => s.switchToRelay
  | .sessionEnd status => s.endSession status .outside
  | .housekeeping => if s.ended then s else s.housekeeping params io
  | .dtlsDone h verified => if s.ended then s else s.onDtlsDone io h verified
  | .dtlsFailed h => s.endSession .failed (.handshake h)

/-- A thread executes a statement: the session afterwards, and what the thread executes next. -/
def execute (io : Io) : Op → Session × List Op
  | .restart =>
    ({ s with dtls := s.dtls.cleanup },
      [.clearStarted, .clearHandshakeDone, .clearVerified, .clearFailed])
  | .clearStarted => ({ s with dtls := { s.dtls with started := false } }, [])
  | .clearHandshakeDone => ({ s with dtls := { s.dtls with handshakeDone := false } }, [])
  | .clearVerified => ({ s with dtls := { s.dtls with verified := false } }, [])
  | .clearFailed => ({ s with dtls := { s.dtls with failed := false } }, [])
  | .onPathReady => (s, [.maybeStartDtls])
  | .checkDtls now dtlsStartedMs =>
    if !s.dtls.started then (s, [.maybeStartDtls])
    else if !s.dtls.verified && dtlsStartedMs ≠ 0 && kDtlsTimeoutMs < now - dtlsStartedMs then
      (s.endSession .failed (.handshake s.dtls.startedFor), [])
    else (s, [])
  | .maybeStartDtls =>
    if s.dtls.started || s.dtls.remoteFingerprint.isEmpty then (s, [])
    else ({ s with dtlsStartedMs := io.now }, [.start])
  | .start =>
    if s.dtls.started then (s, [])
    else
      let t := { s.dtls with started := true, startedFor := s.dtls.restarts }
      if t.hasCertificate then ({ s with dtls := t }, [.startLocked])
      else ({ s with dtls := { t with failed := true } }, [.endSessionAsync t.restarts])
  | .startLocked =>
    let (done, fails, t) := s.dtls.startLocked io.setup io.ssl
    ({ s with dtls := t },
      (if done = .none then [] else [.publish t.restarts done]) ++
        if fails then [.endSessionAsync t.restarts] else [])
  | .handleIncoming =>
    let (done, t) := s.dtls.handleIncoming io.ssl
    ({ s with dtls := t }, (done.map fun d => .publish d.1 d.2).toList)
  | .publish h d => ({ s with queue := s.queue ++ [.dtlsDone h (d == .verified)] }, [])
  | .endSessionAsync h => ({ s with queue := s.queue ++ [.dtlsFailed h] }, [])

/-- `OnPathDatagram`, of a DTLS record. -/
def onPathDatagram : List Op :=
  if !s.dtls.started && s.pathReady then [.maybeStartDtls, .handleIncoming] else [.handleIncoming]

end Session

/-! ## Runs -/

inductive Act where
  /-- Somebody posts a task, not the DTLS transport. -/
  | post (task : Task)
  /-- The worker takes the next statement or task. -/
  | work (io : Io)
  /-- A DTLS record arrives. -/
  | datagram (i : Receiving)
  | run (i : Receiving) (io : Io)

/-- Tasks that only a handshake posts. -/
def Task.isCompletion : Task → Bool
  | .dtlsDone _ _ | .dtlsFailed _ => true
  | _ => false

namespace Session

/-- `SwitchToRelay` is only posted if the relay may be used. -/
def step (params : Params) (s : Session) : Act → Option Session
  | .post task =>
    if task.isCompletion || (task == .relayFrame && !params.enableWsRelay) then none
    else some { s with queue := s.queue ++ [task] }
  | .work io =>
    match s.worker with
    | op :: rest =>
      let (s, next) := s.execute io op
      some { s with worker := next ++ rest }
    | [] =>
      match s.queue with
      | [] => none
      | task :: queue => some ({ s with queue := queue }.perform params io task)
  | .datagram i =>
    if s.ended || !(s.network i).isEmpty then none
    else some { s with network := Function.update s.network i s.onPathDatagram }
  | .run i io =>
    match s.network i with
    | [] => none
    | op :: rest =>
      let (s, next) := s.execute io op
      some { s with network := Function.update s.network i (next ++ rest) }

end Session

/-- A session that `StartSession` has set up. -/
def session (params : Params) (hasCertificate : Bool) (createdMs : Int) : Machine Session Act where
  init :=
    let s : Session := { dtls := { hasCertificate := hasCertificate }, createdMs := createdMs }
    if params.forceWsRelay then s.switchToRelay else s
  step := Session.step params

end CrossTransfer.Minirtc
