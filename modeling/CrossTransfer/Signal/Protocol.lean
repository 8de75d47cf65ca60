import CrossTransfer.Transfer.PathSanitize

/-! # Signaling messages

The messages of `protocol.go`, decoded, and the header of a relay frame. A request is what
`json.Unmarshal` makes of a text message: the envelope, and the fields of its type or the error
that the second decoding reports.
-/

namespace CrossTransfer.Signal

open CrossTransfer.Transfer

inductive Mode where
  | once
  | «open»
deriving DecidableEq, Repr

inductive ErrorCode where
  | badRequest
  | notHello
  | unsupported
  | codeNotFound
  | codeExpired
  | shareBusy
  | rateLimited
  | shareNotFound
  | sessionInvalid
  | peerOffline
  | internal
  | tooManyShares
  | serverBusy
deriving DecidableEq, Repr

def ErrorCode.text : ErrorCode → Bytes
  | .badRequest => ascii "bad_request"
  | .notHello => ascii "hello_required"
  | .unsupported => ascii "unsupported_proto"
  | .codeNotFound => ascii "code_not_found"
  | .codeExpired => ascii "code_expired"
  | .shareBusy => ascii "share_busy"
  | .rateLimited => ascii "rate_limited"
  | .shareNotFound => ascii "share_not_found"
  | .sessionInvalid => ascii "session_invalid"
  | .peerOffline => ascii "peer_offline"
  | .internal => ascii "internal"
  | .tooManyShares => ascii "too_many_shares"
  | .serverBusy => ascii "server_busy"

/-- Session end and share close reasons. -/
inductive Reason where
  | peerLeft
  | peerOffline
  | shareClosed
  | shareExpired
  | serverClose
deriving DecidableEq, Repr

def Reason.text : Reason → Bytes
  | .peerLeft => ascii "peer_left"
  | .peerOffline => ascii "peer_offline"
  | .shareClosed => ascii "share_closed"
  | .shareExpired => ascii "share_expired"
  | .serverClose => ascii "server_shutdown"

structure IceServer where
  urls : List Bytes
  username : Bytes := []
  credential : Bytes := []
  expiresAt : Int := 0
deriving DecidableEq, Repr

/-! ## From the client -/

structure HelloMsg where
  notifications : Bool := false
  app : Bytes := []
  version : Bytes := []
  platform : Bytes := []
  proto : Int
deriving DecidableEq, Repr

structure CreateShareMsg where
  mode : Bytes := []
  ttlSec : Int := 0
  /-- `meta`, as raw JSON. -/
  info : Bytes := []
deriving DecidableEq, Repr

structure ClaimMsg where
  code : Bytes := []
  resumeToken : Bytes := []
deriving DecidableEq, Repr

structure SignalMsg where
  sessionId : Bytes
  to_ : Bytes := []
  payload : Bytes
deriving DecidableEq, Repr

inductive Body where
  | hello (m : Except Bytes HelloMsg)
  | createShare (m : Except Bytes CreateShareMsg)
  /-- `close_share`, with the share id. -/
  | closeShare (m : Except Bytes Bytes)
  | claim (m : Except Bytes ClaimMsg)
  | signal (m : Except Bytes SignalMsg)
  /-- `leave`, with the session id. -/
  | leave (m : Except Bytes Bytes)
  | ping
  | pong
  | unknown (type : Bytes)
deriving DecidableEq, Repr

def Body.isHello : Body → Bool
  | .hello _ => true
  | _ => false

structure Request where
  id : Int
  body : Body
deriving DecidableEq, Repr

/-! ## To the client -/

structure SessionStart where
  id : Int
  sessionId : Bytes
  shareId : Bytes
  isSender : Bool
  remotePeerId : Bytes
  iceServers : List IceServer := []
  resumeToken : Bytes
  resumed : Bool
  info : Bytes := []
deriving DecidableEq, Repr

inductive Message where
  | welcome (id : Int) (peerId : Bytes) (iceServers : List IceServer) (heartbeatSec serverTime : Int)
  | notifications (snapshot : Bytes)
  | shareCreated (id : Int) (shareId code codeText : Bytes) (expiresAt : Int) (mode : Mode)
  | shareClosed (shareId : Bytes) (reason : Reason)
  | sessionStart (m : SessionStart)
  | sessionEnd (sessionId : Bytes) (reason : Reason)
  | signal (sessionId sender to_ payload : Bytes)
  | ok (id : Int)
  | error (id : Int) (code : ErrorCode) (text : Bytes)
  | pong (id : Int) (serverTime : Int)
deriving DecidableEq, Repr

/-! ## Relay frames -/

/-- `ParseHeader`: the session id of a relay frame. -/
def parseHeader (frame : Bytes) : Except Bytes Bytes :=
  if frame.length < 20 then .error (ascii "relay: frame too short")
  else if frame.take 2 ≠ ascii "CR" then .error (ascii "relay: bad magic")
  else if frame[2]? ≠ some 1 then .error (ascii "relay: unsupported version")
  else .ok ((frame.drop 4).take 16)

end CrossTransfer.Signal
