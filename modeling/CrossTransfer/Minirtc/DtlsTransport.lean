import CrossTransfer.Transfer.BlockCodec

/-! # The DTLS transport

`minirtc/src/ice/dtls_transport.{h,cpp}`: the handshake that protects the path to the peer. Its calls
come from several threads: the object that OpenSSL keeps is used under a mutex, the flags are
atomics, and the outcome of a handshake is handed out after the mutex is released.

What OpenSSL does is an input here; `Handshake` says which handshake it did it in.
-/

namespace CrossTransfer.Minirtc

open CrossTransfer.Transfer

/-- A handshake, by the number of times that `Restart` has dropped the one before. -/
abbrev Handshake := Nat

inductive Done where
  | none
  | verified
  | failed
deriving DecidableEq, Repr

/-- How `SSL_do_handshake` ends; at the end of a handshake with the fingerprint of the peer's
    certificate, if there is one. -/
inductive SslResult where
  | wantMore
  | error
  | finished (peer : Option Bytes)
deriving DecidableEq, Repr

/-- What becomes of the context and the object of a new handshake. -/
inductive SslSetup where
  | contextFails
  | objectFails
  | ready
deriving DecidableEq, Repr

structure DtlsTransport where
  /-- Whether `GenerateCertificate` succeeded. -/
  hasCertificate : Bool := true
  /-- Empty if the peer's description has not arrived. -/
  remoteFingerprint : Bytes := []
  /-- The handshake of the object `ssl_`. -/
  ssl : Option Handshake := none
  started : Bool := false
  handshakeDone : Bool := false
  verified : Bool := false
  failed : Bool := false
  /-- How often `Restart` has dropped a handshake; nobody reads it. -/
  restarts : Handshake := 0
  /-- The handshake that `started` was set for last; nobody reads it. -/
  startedFor : Handshake := 0
deriving Repr

namespace DtlsTransport

variable (t : DtlsTransport)

/-- `CompleteHandshake`. -/
def completeHandshake (peer : Option Bytes) : Done × DtlsTransport :=
  if t.handshakeDone then (.none, t)
  else
    let t := { t with handshakeDone := true }
    match peer with
    | none => (.failed, { t with failed := true })
    | some fp =>
      if t.remoteFingerprint = [] ∨ fp ≠ t.remoteFingerprint then
        (.failed, { t with failed := true })
      else (.verified, { t with verified := true })

/-- `SSL_do_handshake`, of a handshake that is not done. -/
def doHandshake : SslResult → Done × DtlsTransport
  | .wantMore => (.none, t)
  | .error => (.failed, { t with failed := true })
  | .finished peer => t.completeHandshake peer

/-- What `Start` does under the mutex: the outcome, and whether it will return -1. -/
def startLocked : SslSetup → SslResult → Done × Bool × DtlsTransport
  | .contextFails, _ => (.none, true, { t with failed := true })
  | .objectFails, _ => (.none, true, { t with ssl := none, failed := true })
  | .ready, r =>
    let (done, t) := { t with ssl := some t.restarts }.doHandshake r
    (done, done == .failed, t)

/-- What `HandleIncoming` does under the mutex: the outcome, and the handshake it is of. -/
def handleIncoming (r : SslResult) : Option (Handshake × Done) × DtlsTransport :=
  match t.ssl with
  | none => (none, t)
  | some h =>
    if t.handshakeDone then (none, t)
    else
      let (done, t) := t.doHandshake r
      (if done = .none then none else some (h, done), t)

/-- What `Restart` does under the mutex; it then clears the flags one by one. -/
def cleanup : DtlsTransport := { t with ssl := none, restarts := t.restarts + 1 }

/-- `ExportSrtpKeys`; `derives` says whether OpenSSL gives out the keys. -/
def exportSrtpKeys (derives : Bool) : Bool := t.verified && t.ssl.isSome && derives

/-! ## What the calls keep -/

variable {t}

/-- What a call under the mutex leaves as it is: whose handshake it is, and who started it. -/
structure SameHandshake (t t' : DtlsTransport) : Prop where
  restarts : t'.restarts = t.restarts
  startedFor : t'.startedFor = t.startedFor
  started : t'.started = t.started

theorem sameHandshake_completeHandshake (peer : Option Bytes) :
    t.SameHandshake (t.completeHandshake peer).2 ∧ (t.completeHandshake peer).2.ssl = t.ssl := by
  unfold completeHandshake
  split
  · exact ⟨⟨rfl, rfl, rfl⟩, rfl⟩
  · cases peer with
    | none => exact ⟨⟨rfl, rfl, rfl⟩, rfl⟩
    | some fp =>
      dsimp only
      split <;> exact ⟨⟨rfl, rfl, rfl⟩, rfl⟩

theorem sameHandshake_doHandshake (r : SslResult) :
    t.SameHandshake (t.doHandshake r).2 ∧ (t.doHandshake r).2.ssl = t.ssl := by
  cases r with
  | wantMore => exact ⟨⟨rfl, rfl, rfl⟩, rfl⟩
  | error => exact ⟨⟨rfl, rfl, rfl⟩, rfl⟩
  | finished peer => exact sameHandshake_completeHandshake peer

/-- A handshake that `Start` begins is the current one. -/
theorem sameHandshake_startLocked (setup : SslSetup) (r : SslResult) :
    t.SameHandshake (t.startLocked setup r).2.2 ∧
      ((t.startLocked setup r).2.2.ssl = t.ssl ∨ (t.startLocked setup r).2.2.ssl = none ∨
        (t.startLocked setup r).2.2.ssl = some t.restarts) := by
  cases setup with
  | contextFails => exact ⟨⟨rfl, rfl, rfl⟩, .inl rfl⟩
  | objectFails => exact ⟨⟨rfl, rfl, rfl⟩, .inr (.inl rfl)⟩
  | ready =>
    obtain ⟨same, hssl⟩ := sameHandshake_doHandshake (t := { t with ssl := some t.restarts }) r
    exact ⟨⟨same.restarts, same.startedFor, same.started⟩, .inr (.inr hssl)⟩

theorem sameHandshake_handleIncoming (r : SslResult) :
    t.SameHandshake (t.handleIncoming r).2 ∧ (t.handleIncoming r).2.ssl = t.ssl ∧
      ∀ h done, (t.handleIncoming r).1 = some (h, done) → t.ssl = some h := by
  unfold handleIncoming
  split
  · exact ⟨⟨rfl, rfl, rfl⟩, rfl, by simp⟩
  · rename_i h hssl
    split
    · exact ⟨⟨rfl, rfl, rfl⟩, rfl, by simp⟩
    · obtain ⟨same, heq⟩ := sameHandshake_doHandshake (t := t) r
      refine ⟨same, heq, fun h' done hsome => ?_⟩
      dsimp only at hsome
      split at hsome
      · cases hsome
      · cases hsome
        exact hssl

end DtlsTransport

end CrossTransfer.Minirtc
