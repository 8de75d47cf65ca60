import CrossTransfer.Library.Machine
import CrossTransfer.Library.OrderedSet
import CrossTransfer.Signal.Codes
import CrossTransfer.Signal.Protocol

/-! # The hub

Peers, shares and sessions as `hub.go` keeps them. The objects stay for good (`peers`, `shares`,
`sessions`): a handler may hold a pointer to one that the hub has removed. What the hub's maps
hold are the keys in `livePeers`, `liveShares` and `liveSessions`.

A handler is a first critical section and what its goroutine does after it: `threads` are the
steps that each peer's goroutine still has to take, and a peer's next message is handled when none
is left. Between two steps any other peer may go on. `log` is everything handed to the sinks, in
order, together with the claims that succeeded (`joined`).

The statistics and the log lines are left out, and so are the limiters' own states: what they
answer comes with the random ids, the clock and the iteration order in a `HubIo`.
-/

namespace CrossTransfer.Signal

open CrossTransfer.Library
open CrossTransfer.Transfer

/-! ## Data -/

structure Peer where
  ip : Bytes
  hello : Bool := false
  app : Bytes := []
  platform : Bytes := []
  notifications : Bool := false
  shares : OrderedSet Bytes := ∅
  sessions : OrderedSet Bytes := ∅

structure Share where
  code : Bytes
  mode : Mode
  owner : Bytes
  /-- `Meta`. -/
  info : Bytes
  expiresAt : Int
  /-- once: code consumed. -/
  claimed : Bool := false
  sessions : OrderedSet Bytes := ∅

structure Session where
  share : Bytes
  sender : Bytes
  /-- `none` while the receiver is offline (resumable). -/
  receiver : Option Bytes
  resumeToken : Bytes
  createdAt : Int
deriving DecidableEq, Repr

def Peer.addShare (p : Peer) (id : Bytes) : Peer := { p with shares := p.shares.insert id }

def Peer.dropShare (p : Peer) (id : Bytes) : Peer := { p with shares := p.shares.erase id }

def Peer.dropSession (p : Peer) (id : Bytes) : Peer := { p with sessions := p.sessions.erase id }

def Peer.addSession (p : Peer) (id : Bytes) : Peer := { p with sessions := p.sessions.insert id }

def Share.dropSession (s : Share) (id : Bytes) : Share := { s with sessions := s.sessions.erase id }

@[simp] theorem Peer.mem_addShare (p : Peer) (id a : Bytes) :
    a ∈ (p.addShare id).shares ↔ a = id ∨ a ∈ p.shares :=
  OrderedSet.mem_insert_iff ..

@[simp] theorem Peer.mem_dropShare (p : Peer) (id a : Bytes) :
    a ∈ (p.dropShare id).shares ↔ a ∈ p.shares ∧ a ≠ id := by
  rw [Peer.dropShare, OrderedSet.mem_erase_iff, and_comm]

@[simp] theorem Peer.mem_dropSession (p : Peer) (id a : Bytes) :
    a ∈ (p.dropSession id).sessions ↔ a ∈ p.sessions ∧ a ≠ id := by
  rw [Peer.dropSession, OrderedSet.mem_erase_iff, and_comm]

@[simp] theorem Peer.mem_addSession (p : Peer) (id a : Bytes) :
    a ∈ (p.addSession id).sessions ↔ a = id ∨ a ∈ p.sessions :=
  OrderedSet.mem_insert_iff ..

@[simp] theorem Share.mem_dropSession (s : Share) (id a : Bytes) :
    a ∈ (s.dropSession id).sessions ↔ a ∈ s.sessions ∧ a ≠ id := by
  rw [Share.dropSession, OrderedSet.mem_erase_iff, and_comm]

structure Tables where
  peers : OrderedMap Bytes Peer := ∅
  shares : OrderedMap Bytes Share := ∅
  sessions : OrderedMap Bytes Session := ∅
  livePeers : OrderedSet Bytes := ∅
  liveShares : OrderedSet Bytes := ∅
  liveSessions : OrderedSet Bytes := ∅
  /-- Resume token to session. -/
  tokens : OrderedMap Bytes Bytes := ∅
  codes : Registry := {}

namespace Tables

variable (t : Tables)

/-- `h.shares[id]`. -/
def share? (id : Bytes) : Option Share := if id ∈ t.liveShares then t.shares[id]? else none

/-- `h.sessions[id]`. -/
def session? (id : Bytes) : Option Session := if id ∈ t.liveSessions then t.sessions[id]? else none

def peerShares (p : Bytes) : OrderedSet Bytes := (t.peers[p]?).elim ∅ (·.shares)

def peerSessions (p : Bytes) : OrderedSet Bytes := (t.peers[p]?).elim ∅ (·.sessions)

end Tables

/-- A step of a handler after its first critical section. -/
inductive Task where
  /-- `Sleep` of the failure delay. -/
  | sleep
  | send (to_ : Bytes) (m : Message)
  | binary (to_ : Bytes) (frame : Bytes)
  | kick (reason : Bytes)
  /-- `announceSession`, up to its sends. -/
  | announce (session : Bytes) (reqId : Int) (resumed : Bool)
  /-- A `session_start` of `announceSession`; the ICE servers are filled in when it is sent. -/
  | start (to_ : Bytes) (m : SessionStart)
deriving DecidableEq, Repr

inductive Output where
  | text (to_ : Bytes) (m : Message)
  | binary (to_ : Bytes) (frame : Bytes)
  | kick (to_ : Bytes) (reason : Bytes)
  | slept (peer : Bytes)
  /-- A claim has made the peer the receiver of the session. -/
  | joined (session peer : Bytes) (reqId : Int) (resumed : Bool)
deriving DecidableEq, Repr

structure Hub extends Tables where
  /-- `lastSeen` of the limiters by address. -/
  perIp : OrderedMap Bytes Int := ∅
  closed : Bool := false
  notifications : Bytes := ascii "\x7b\"type\":\"notifications\",\"items\":[]\x7d"
  threads : Bytes → List Task := fun _ => []
  log : List Output := []
  /-- A nil pointer was dereferenced. -/
  crashed : Bool := false

structure Options where
  stunUris : List Bytes := []
  turnUri : Bytes := []
  turnSecret : Bytes := []
  turnCredTtl : Int := 0
  /-- The MAC that `IssueCredentials` puts in the password, of the secret and the user name. -/
  sign : Bytes → Bytes → Bytes := fun _ _ => []
  heartbeatSec : Int := 0
  defaultShareTtl : Int := 0
  maxOnceTtl : Int := 0
  maxOpenTtl : Int := 0
  maxSharesPerPeer : Int := 0
  maxSessions : Int := 0
  maxSessionsPerPeer : Int := 0
  /-- `ClaimRateGlobal > 0`. -/
  limitsGlobal : Bool := false
  /-- `ClaimRatePerIP > 0`. -/
  limitsPerIp : Bool := false

/-- Nanoseconds in a second and in a minute. -/
def second : Int := 1000000000

def minute : Int := 60 * second

/-- The defaults of `NewHub`. -/
def Options.withDefaults (o : Options) : Options :=
  let orElse (value other : Int) : Int := if value ≤ 0 then other else value
  { o with
    heartbeatSec := orElse o.heartbeatSec 30
    defaultShareTtl := orElse o.defaultShareTtl (10 * minute)
    maxOnceTtl := orElse o.maxOnceTtl (24 * 60 * minute)
    maxOpenTtl := orElse o.maxOpenTtl (24 * 60 * minute)
    maxSharesPerPeer := orElse o.maxSharesPerPeer 16
    maxSessions := orElse o.maxSessions 4096
    maxSessionsPerPeer := orElse o.maxSessionsPerPeer 64
    turnCredTtl := orElse o.turnCredTtl (10 * minute) }

/-- What a step reads from its surroundings. -/
structure HubIo where
  /-- Nanoseconds. -/
  now : Int
  /-- The ids `randomID` draws. -/
  peerId : Bytes
  shareId : Bytes
  sessionId : Bytes
  token : Bytes
  /-- The random bytes of each attempt of `codes.Add`. -/
  codeBytes : Nat → Option (Fin Codes.length → UInt8)
  /-- What the limiters answer. -/
  globalAllows : Bool
  ipAllows : Bool
  relayAllows : Bool
  /-- The order in which loops over maps run. -/
  order : MapOrder Bytes

namespace Hub

variable (opt : Options) (io : HubIo) (h : Hub)

def send (to_ : Bytes) (m : Message) : Hub := { h with log := h.log ++ [.text to_ m] }

/-- The rest of a handler, after its critical section. -/
def next (p : Bytes) (tasks : List Task) : Hub :=
  { h with threads := Function.update h.threads p tasks }

/-- `sendError`, as a step of its own. -/
def errorTask (p : Bytes) (id : Int) (code : ErrorCode) (text : Bytes) : Task :=
  .send p (.error id code text)

/-! ## Teardown -/

/-- One party of a session that ends. -/
def endFor (sid : Bytes) (reason : Reason) (initiator : Option Bytes) (p : Bytes) : Hub :=
  let h : Hub := { h with peers := h.peers.modify p (·.dropSession sid) }
  if some p = initiator then h else h.send p (.sessionEnd sid reason)

/-- `endSessionLocked`. -/
def endSessionLocked (sid : Bytes) (reason : Reason) (initiator : Option Bytes) : Hub :=
  match h.session? sid with
  | none => h
  | some sess =>
    let h : Hub := { h with
      liveSessions := h.liveSessions.erase sid
      tokens := h.tokens.erase sess.resumeToken
      shares := h.shares.modify sess.share (·.dropSession sid) }
    (sess.sender :: sess.receiver.toList).foldl (fun h p => h.endFor sid reason initiator p) h

/-- `closeShareLocked`. -/
def closeShareLocked (id : Bytes) (reason : Reason) (initiator : Option Bytes) : Hub :=
  match h.share? id with
  | none => h
  | some s =>
    let h : Hub := { h with
      liveShares := h.liveShares.erase id
      codes := h.codes.remove id
      peers := h.peers.modify s.owner (·.dropShare id) }
    let h := (io.order.keysOf s.sessions).foldl
      (fun h sid => h.endSessionLocked sid reason initiator) h
    if some s.owner ≠ initiator ∧ reason ≠ .peerOffline then h.send s.owner (.shareClosed id reason)
    else h

/-- A session of a peer that disconnects; if the peer receives, the session stays resumable. -/
def detachReceiver (p sid : Bytes) : Hub :=
  match h.sessions[sid]? with
  | none => h
  | some sess =>
    if sess.receiver = some p then
      let h : Hub := { h with
        sessions := h.sessions.insert sid { sess with receiver := none }
        peers := h.peers.modify p (·.dropSession sid) }
      h.send sess.sender (.sessionEnd sid .peerOffline)
    else h

/-- `Disconnect`. -/
def disconnect (p : Bytes) : Hub :=
  if p ∉ h.livePeers then h
  else
    let h : Hub := { h with livePeers := h.livePeers.erase p }
    let h := (io.order.keysOf (h.peerShares p)).foldl
      (fun h id => h.closeShareLocked io id .peerOffline (some p)) h
    (io.order.keysOf (h.peerSessions p)).foldl (fun h sid => h.detachReceiver p sid) h

/-- `Shutdown`. -/
def shutdown : Hub :=
  let h : Hub := { h with closed := true }
  let h := (io.order.keysOf h.liveShares).foldl
    (fun h id => h.closeShareLocked io id .serverClose none) h
  { h with log := h.log ++ (io.order.keysOf h.livePeers).map (.kick · Reason.serverClose.text) }

/-- A share that `Sweep` meets. -/
def expireShare (id : Bytes) : Hub :=
  match h.share? id with
  | none => h
  | some s => if io.now < s.expiresAt then h else h.closeShareLocked io id .shareExpired none

/-- `Sweep`. -/
def sweep : Hub :=
  let h := (io.order.keysOf h.liveShares).foldl (fun h id => h.expireShare io id) h
  { h with perIp := h.perIp.filter fun _ lastSeen => io.now - lastSeen ≤ 10 * minute }

/-! ## Requests -/

/-- `Connect`. -/
def connect (ip : Bytes) : Hub :=
  { h with
    peers := h.peers.insert io.peerId { ip := ip }
    livePeers := h.livePeers.insert io.peerId }

/-- `iceServers`, with `IssueCredentials`. -/
def iceServers (peerId : Bytes) : List IceServer :=
  let stun := if opt.stunUris.isEmpty then [] else [{ urls := opt.stunUris }]
  if opt.turnUri.isEmpty || opt.turnSecret.isEmpty then stun
  else
    let expiresAt := (io.now + opt.turnCredTtl) / second
    let username := ascii (toString expiresAt) ++ ascii ":" ++ peerId
    stun ++ [{
      urls := [opt.turnUri]
      username := username
      credential := opt.sign opt.turnSecret username
      expiresAt := expiresAt }]

def protoVersion : Int := 1

/-- `onHello`. -/
def onHello (p : Bytes) (id : Int) (m : Except Bytes HelloMsg) : Hub :=
  match m with
  | .error err => h.next p [errorTask p id .badRequest err]
  | .ok m =>
    if m.proto ≠ protoVersion then
      h.next p [errorTask p id .unsupported (ascii "proto " ++ ascii (toString m.proto) ++
        ascii " unsupported, want " ++ ascii (toString protoVersion)),
        .kick (ascii "unsupported proto")]
    else
      match h.peers[p]? with
      | none => h
      | some peer =>
        if peer.hello then h.next p [errorTask p id .badRequest (ascii "hello already sent")]
        else
          let h : Hub := { h with peers := h.peers.insert p { peer with
            hello := true
            app := m.app
            platform := m.platform
            notifications := m.notifications } }
          let h := h.send p
            (.welcome id p (iceServers opt io p) opt.heartbeatSec (io.now / second))
          if m.notifications then h.send p (.notifications h.notifications) else h

/-- `strings.ToLower`, as far as the names of the modes go. -/
def lower (s : Bytes) : Bytes := s.map fun c => if 65 ≤ c ∧ c ≤ 90 then c + 32 else c

def parseMode (s : Bytes) : Option Mode :=
  if lower s = [] ∨ lower s = ascii "once" then some .once
  else if lower s = ascii "open" then some .open
  else none

/-- A product of two durations, in 64 bits. -/
def wrap64 (x : Int) : Int := x.bmod (2 ^ 64)

/-- The lifetime of a share. -/
def shareTtl (mode : Mode) (ttlSec : Int) : Int :=
  let ttl := if 0 < ttlSec then wrap64 (ttlSec * second) else opt.defaultShareTtl
  let maxTtl := match mode with
    | .once => opt.maxOnceTtl
    | .open => opt.maxOpenTtl
  if maxTtl < ttl then maxTtl else ttl

/-- `onCreateShare`. -/
def onCreateShare (p : Bytes) (id : Int) (m : Except Bytes CreateShareMsg) : Hub :=
  match m with
  | .error err => h.next p [errorTask p id .badRequest err]
  | .ok m =>
    match parseMode m.mode with
    | none => h.next p [errorTask p id .badRequest (ascii "mode must be once or open")]
    | some mode =>
      if 16 * 1024 < m.info.length then
        h.next p [errorTask p id .badRequest (ascii "meta too large")]
      else if h.closed then h
      else if opt.maxSharesPerPeer ≤ (h.peerShares p).size then
        h.next p [errorTask p id .tooManyShares (ascii "too many shares on this connection")]
      else
        let expiresAt := io.now + shareTtl opt mode m.ttlSec
        match h.codes.add io.codeBytes io.shareId expiresAt with
        | none => h.next p [errorTask p id .internal (ascii "code allocation failed")]
        | some (codes, entry) =>
          let s : Share := {
            code := entry.code
            mode := mode
            owner := p
            info := m.info
            expiresAt := expiresAt }
          let h : Hub := { h with
            codes := codes
            shares := h.shares.insert io.shareId s
            liveShares := h.liveShares.insert io.shareId
            peers := h.peers.modify p (·.addShare io.shareId) }
          h.next p [.send p (.shareCreated id io.shareId s.code (Codes.format s.code)
            (expiresAt / second) mode)]

/-- `onCloseShare`. -/
def onCloseShare (p : Bytes) (id : Int) (m : Except Bytes Bytes) : Hub :=
  match m with
  | .error err => h.next p [errorTask p id .badRequest err]
  | .ok shareId =>
    match h.share? shareId with
    | none => h.next p [errorTask p id .shareNotFound (ascii "share not found")]
    | some s =>
      if s.owner ≠ p then h.next p [errorTask p id .shareNotFound (ascii "share not found")]
      else (h.closeShareLocked io shareId .shareClosed (some p)).next p [.send p (.ok id)]

/-- `claimAllowed`, for the address of a peer. -/
def claimAllowed (ip : Bytes) : Bool × Hub :=
  if opt.limitsGlobal && !io.globalAllows then (false, h)
  else if !opt.limitsPerIp then (true, h)
  else (io.ipAllows, { h with perIp := h.perIp.insert ip io.now })

/-- The peer becomes the receiver of a session, which is then announced. -/
def join (p sid : Bytes) (id : Int) (resumed : Bool) : Hub :=
  let h : Hub := { h with log := h.log ++ [.joined sid p id resumed] }
  h.next p [.announce sid id resumed]

/-- The peer takes over a session that has no receiver. -/
def resumeSession (p sid : Bytes) (id : Int) (sess : Session) : Hub :=
  let h : Hub := { h with
    sessions := h.sessions.insert sid { sess with receiver := some p }
    peers := h.peers.modify p (·.addSession sid) }
  h.join p sid id true

/-- The resume path of `onClaim`. -/
def claimToken (p : Bytes) (id : Int) (token : Bytes) : Hub :=
  match (h.tokens[token]?).bind fun sid => (h.sessions[sid]?).map (sid, ·) with
  | none => h.next p [.sleep, errorTask p id .codeNotFound (ascii "resume token unknown")]
  | some (sid, sess) =>
    if sess.receiver.isSome then
      h.next p [.sleep, errorTask p id .shareBusy (ascii "session already has a receiver")]
    else if opt.maxSessionsPerPeer ≤ (h.peerSessions p).size then
      h.next p [errorTask p id .serverBusy (ascii "session capacity reached")]
    else h.resumeSession p sid id sess

/-- Whether a new session for `p` and `owner` would exceed a limit. -/
def sessionsFull (p owner : Bytes) : Bool :=
  opt.maxSessions ≤ h.liveSessions.size || opt.maxSessionsPerPeer ≤ (h.peerSessions p).size ||
    opt.maxSessionsPerPeer ≤ (h.peerSessions owner).size

/-- A new session of a share. -/
def startSession (p : Bytes) (id : Int) (shareId : Bytes) (s : Share) : Hub :=
  let sess : Session := {
    share := shareId
    sender := s.owner
    receiver := some p
    resumeToken := io.token
    createdAt := io.now }
  let h : Hub := { h with
    sessions := h.sessions.insert io.sessionId sess
    liveSessions := h.liveSessions.insert io.sessionId
    tokens := h.tokens.insert io.token io.sessionId
    shares := h.shares.insert shareId { s with
      sessions := s.sessions.insert io.sessionId
      claimed := if s.mode = .once then true else s.claimed }
    peers := (h.peers.modify s.owner (·.addSession io.sessionId)).modify p
      (·.addSession io.sessionId)
    -- Code is consumed; the share (and its session) live on for resume.
    codes := if s.mode = .once then h.codes.remove shareId else h.codes }
  h.join p io.sessionId id false

/-- The code path of `onClaim`. A share always has an owner. -/
def claimCode (p : Bytes) (id : Int) (code : Bytes) : Hub :=
  match h.codes.lookup code io.now with
  | .error .notFound => h.next p [.sleep, errorTask p id .codeNotFound (ascii "take-code rejected")]
  | .error .expired => h.next p [.sleep, errorTask p id .codeExpired (ascii "take-code rejected")]
  | .ok entry =>
    match h.share? entry.id with
    | none => h.next p [.sleep, errorTask p id .codeNotFound (ascii "take-code rejected")]
    | some s =>
      if s.owner = p then h.next p [errorTask p id .badRequest (ascii "cannot claim own share")]
      else if h.sessionsFull opt p s.owner then
        h.next p [errorTask p id .serverBusy (ascii "session capacity reached")]
      else h.startSession io p id entry.id s

def peerIp (p : Bytes) : Bytes := (h.peers[p]?).elim [] (·.ip)

/-- `onClaim`. -/
def onClaim (p : Bytes) (id : Int) (m : Except Bytes ClaimMsg) : Hub :=
  match m with
  | .error err => h.next p [errorTask p id .badRequest err]
  | .ok m =>
    if h.closed then h
    else
      let (allowed, h) := h.claimAllowed opt io (h.peerIp p)
      if !allowed then h.next p [.sleep, errorTask p id .rateLimited (ascii "too many claims")]
      else if m.resumeToken ≠ [] then h.claimToken opt p id m.resumeToken
      else h.claimCode opt io p id m.code

/-- The other party of a session; `none` if it is offline. -/
def otherParty (sess : Session) (p : Bytes) : Option Bytes :=
  if p = sess.sender then sess.receiver else some sess.sender

def isMember (sess : Session) (p : Bytes) : Bool := sess.sender = p || sess.receiver = some p

/-- `onSignal`. -/
def onSignal (p : Bytes) (id : Int) (m : Except Bytes SignalMsg) : Hub :=
  match m with
  | .error err => h.next p [errorTask p id .badRequest err]
  | .ok m =>
    if m.payload.isEmpty then h.next p [errorTask p id .badRequest (ascii "payload required")]
    else
      match (h.session? m.sessionId).filter (isMember · p) with
      | none => h.next p [errorTask p id .sessionInvalid (ascii "not a member of session")]
      | some sess =>
        match otherParty sess p with
        | none => h.next p [errorTask p id .peerOffline (ascii "peer offline")]
        | some dst =>
          if m.to_ ≠ [] ∧ m.to_ ≠ dst then
            h.next p [errorTask p id .badRequest (ascii "to does not match session peer")]
          else
            h.next p (.send dst (.signal m.sessionId p dst m.payload) ::
              if id ≠ 0 then [.send p (.ok id)] else [])

/-- `onLeave`. -/
def onLeave (p : Bytes) (id : Int) (m : Except Bytes Bytes) : Hub :=
  match m with
  | .error err => h.next p [errorTask p id .badRequest err]
  | .ok sid =>
    match (h.session? sid).filter (isMember · p) with
    | none => h.next p [errorTask p id .sessionInvalid (ascii "not a member of session")]
    | some _ => (h.endSessionLocked sid .peerLeft (some p)).next p [.send p (.ok id)]

/-- The dispatch of `HandleText`. -/
def dispatch (p : Bytes) (id : Int) : Body → Hub
  | .hello m => h.onHello opt io p id m
  | .createShare m => h.onCreateShare opt io p id m
  | .closeShare m => h.onCloseShare io p id m
  | .claim m => h.onClaim opt io p id m
  | .signal m => h.onSignal p id m
  | .leave m => h.onLeave p id m
  | .ping => h.next p [.send p (.pong id (io.now / second))]
  | .pong => h
  | .unknown type => h.next p [errorTask p id .badRequest (ascii "unknown type " ++ type)]

def greeted (p : Bytes) : Bool := (h.peers[p]?).elim false (·.hello)

/-- `HandleText`; `none` is a message that cannot be decoded or has no type. -/
def handleText (p : Bytes) : Option Request → Hub
  | none => h.next p [errorTask p 0 .badRequest (ascii "malformed message")]
  | some req =>
    if !h.greeted p && !req.body.isHello then
      h.next p [errorTask p req.id .notHello (ascii "hello required")]
    else h.dispatch opt io p req.id req.body

/-- `HandleBinary`. -/
def handleBinary (p : Bytes) (frame : Bytes) : Hub :=
  if !h.greeted p then h
  else
    match parseHeader frame with
    | .error err => h.next p [errorTask p 0 .badRequest err]
    | .ok sid =>
      match h.session? sid with
      | none => h
      | some sess =>
        if !isMember sess p then
          h.next p [errorTask p 0 .sessionInvalid (ascii "not a member of session")]
        else
          match otherParty sess p with
          | none => h
          | some dst => if io.relayAllows then h.next p [.binary dst frame] else h

/-- `SetNotifications`. -/
def setNotifications (snapshot : Bytes) : Hub :=
  let h : Hub := { h with notifications := snapshot }
  (io.order.keysOf h.livePeers).foldl (fun h p =>
    if (h.peers[p]?).elim false fun peer => peer.hello && peer.notifications then
      h.send p (.notifications h.notifications)
    else h) h

/-! ## Steps after the critical section -/

/-- `announceSession`: the parties are read in a critical section of its own. -/
def announceSession (p sid : Bytes) (reqId : Int) (resumed : Bool) : Hub :=
  match h.sessions[sid]? with
  | none => h
  | some sess =>
    match h.shares[sess.share]? with
    | none => h
    | some s =>
      match sess.receiver with
      -- The sender's message reads the receiver's id.
      | none => { h with crashed := true }
      | some receiver =>
        h.next p
          [.start receiver {
            id := reqId
            sessionId := sid
            shareId := sess.share
            isSender := false
            remotePeerId := sess.sender
            resumeToken := sess.resumeToken
            resumed := resumed
            info := s.info },
          .start sess.sender {
            id := 0
            sessionId := sid
            shareId := sess.share
            isSender := true
            remotePeerId := receiver
            resumeToken := sess.resumeToken
            resumed := resumed }]

/-- The next step of the goroutine of `p`. -/
def runTask (p : Bytes) : Task → Hub
  | .sleep => { h with log := h.log ++ [.slept p] }
  | .send to_ m => h.send to_ m
  | .binary to_ frame => { h with log := h.log ++ [.binary to_ frame] }
  | .kick reason => { h with log := h.log ++ [.kick p reason] }
  | .announce sid reqId resumed => h.announceSession p sid reqId resumed
  | .start to_ m => h.send to_ (.sessionStart { m with iceServers := iceServers opt io to_ })

/-! ## The machine -/

inductive Action where
  | connect (ip : Bytes)
  | text (p : Bytes) (req : Option Request)
  | binary (p : Bytes) (frame : Bytes)
  | task (p : Bytes)
  | disconnect (p : Bytes)
  | sweep
  | shutdown
  | setNotifications (snapshot : Bytes)

/-- The random ids have not been drawn before. -/
def fresh : Bool :=
  io.peerId ∉ h.peers && io.shareId ∉ h.shares && io.sessionId ∉ h.sessions &&
    h.sessions.toList.all fun e => e.2.resumeToken != io.token

/-- A connected peer whose last handler has returned. -/
def idle (p : Bytes) : Bool := p ∈ h.livePeers && (h.threads p).isEmpty

/-- One critical section or one send. A peer's handlers run one after another, and its
    `Disconnect` after the last one. -/
def step (opt : Options) (h : Hub) (a : HubIo × Action) : Option Hub :=
  if h.crashed || !h.fresh a.1 then none
  else
    match a.2 with
    | .connect ip => some (h.connect a.1 ip)
    | .text p req => if h.idle p then some (h.handleText opt a.1 p req) else none
    | .binary p frame => if h.idle p then some (h.handleBinary a.1 p frame) else none
    | .task p =>
      match h.threads p with
      | [] => none
      | t :: rest => some ((h.next p rest).runTask opt a.1 p t)
    | .disconnect p =>
      if p ∈ h.peers ∧ h.threads p = [] then some (h.disconnect a.1 p) else none
    | .sweep => some (h.sweep a.1)
    | .shutdown => some (h.shutdown a.1)
    | .setNotifications snapshot => some (h.setNotifications a.1 snapshot)

/-- The hub of `NewHub`. -/
def machine (opt : Options) : Machine Hub (HubIo × Action) where
  init := {}
  step := step opt.withDefaults

end Hub

end CrossTransfer.Signal
