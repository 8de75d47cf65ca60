import CrossTransfer.Share.ChooseNames
import CrossTransfer.Transfer.Receiver
import CrossTransfer.Transfer.Sender

/-! # The transfer session

`core/src/share/transfer_session.{h,cpp}`: the control protocol of one paired session, in both
roles. The methods run on the event loop; what they hand out (control messages, state changes,
resume records) is a `SessionEvent`.

`Stop` of an engine joins its thread, so a method that calls it blocks the loop. Such a
method is cut in two: it requests the stop and records in `stopping` how it goes on, and
`finishStop` is the rest, which needs the thread to have exited.

Control messages are the documents the two roles write; progress reports, which change no
decision, are left out.
-/

namespace CrossTransfer.Share

open CrossTransfer.Library
open CrossTransfer.Transfer
open CrossTransfer.Transfer.Paths

inductive TransferState where
  | connecting
  | offering
  | waitingOffer
  | transferring
  | verifying
  | completed
  | failed
  | cancelled
deriving DecidableEq, Repr

def TransferState.terminal (s : TransferState) : Bool :=
  s == .completed || s == .failed || s == .cancelled

/-- An entry of `files` in `accept`. -/
inductive AcceptFile where
  | verified (index : UInt16)
  | runs (index : UInt16) (runs : List SackRun)
deriving DecidableEq, Repr

/-- What an `accept` says of the files: the verified ones, and the runs of others. -/
abbrev Accepted := List UInt16 × List (UInt16 × List SackRun)

inductive CtrlMsg where
  | offer (manifest : Json)
  | accept (files : List AcceptFile)
  | fileDone (index : UInt16) (sha256 : Bytes)
  | fileOk (index : UInt16)
  | fileBad (index : UInt16) (reason : Bytes)
  | transferDone
  | pause
  | resume
  | cancel (reason : Bytes)
  | error (code message : Bytes)

/-- The resume record: what `PersistReceiver` stores under the transfer id. -/
structure ResumeRecord where
  manifestSig : Bytes
  names : Names
  files : List ReceiverFileState
deriving DecidableEq, Repr

inductive SessionEvent where
  | ctrl (msg : CtrlMsg)
  | state (s : TransferState)
  /-- `none` clears the record. -/
  | persist (record : Option ResumeRecord)

/-- How the method that waits for the engine's thread goes on. -/
inductive AfterStop where
  | fail (code message : Bytes)
  | cancel
  | peerCancel
deriving DecidableEq, Repr

structure TransferSession where
  isSender : Bool
  state : TransferState := .connecting
  errorCode : Bytes := []
  errorMessage : Bytes := []
  transportReady : Bool := false
  offerSent : Bool := false
  acceptReceived : Bool := false
  paused : Bool := false
  doneSent : Bool := false
  senderConfirmed : Bool := false
  /-- The sender's input, or the manifest of the accepted offer. -/
  manifest : Manifest
  /-- Number of entries of `files_`. -/
  fileCount : Nat := 0
  sender : Option Sender := none
  senderFileOk : List Bool := []
  /-- `none` is an empty path. -/
  saveDir : Option Path := none
  record : Option ResumeRecord := none
  names : Names := []
  receiver : Option Receiver := none
  stopping : Option AfterStop := none

/-- What `HandleOffer` reads from its surroundings. -/
structure OfferIo where
  start : Receiver.StartIo
  rd : Name → Nat

namespace TransferSession

def emptyManifest : Manifest := ⟨[], [], [], 0⟩

/-- A sending session after `SetSenderInput`. -/
def newSender (m : Manifest) (fileCount : Nat) : TransferSession where
  isSender := true
  manifest := m
  fileCount := fileCount
  senderFileOk := List.replicate m.files.length false

/-- A receiving session after `SetReceiverInput`. -/
def newReceiver (saveDir : Option Path) (record : Option ResumeRecord) : TransferSession where
  isSender := false
  manifest := emptyManifest
  saveDir := saveDir
  record := record

variable (s : TransferSession)

/-! ## State changes and failure -/

def setState (state : TransferState) : TransferSession × List SessionEvent :=
  if s.state = state || s.state.terminal then (s, [])
  else ({ s with state := state }, [.state state])

/-- Request the stop of the engines; `k` says how the caller goes on. -/
def stopEngines (k : AfterStop) : TransferSession :=
  { s with
    sender := s.sender.map Sender.requestStop
    receiver := s.receiver.map Receiver.requestStop
    stopping := some k }

/-- `Fail`, up to the end of the `Stop` calls. -/
def fail (code message : Bytes) : TransferSession :=
  if s.state.terminal then s
  else { s with errorCode := code, errorMessage := message }.stopEngines (.fail code message)

/-- The engines' threads have exited, so a `Stop` returns. -/
def stopped : Bool :=
  (s.sender.all fun t => t.pc == .exited) && s.receiver.all fun t => t.pc == .exited

/-- The rest of a method that called `Stop`. The notice has a text if its message is UTF-8; `print`
    is the method when it has none. -/
def finishStop (fs : Fs) : Option (TransferSession × Fs × List SessionEvent) :=
  match s.stopping with
  | none => none
  | some k =>
    if !s.stopped then none
    else
      let s := { s with
        stopping := none
        receiver := s.receiver.map Receiver.closeWriters }
      match k with
      | .fail code message =>
        let (s, out) := s.setState .failed
        -- Pointless when the session itself is gone.
        let notify := code ≠ ascii "session_end" && code ≠ ascii "peer_error"
        some (s, fs, (if notify then [.ctrl (.error code message)] else []) ++ out)
      | .peerCancel =>
        let (s, out) := s.setState .cancelled
        some (s, fs, out)
      | .cancel =>
        let fs := s.receiver.elim fs (·.cleanup fs)
        let (s, out) := s.setState .cancelled
        some (s, fs, out ++ if s.isSender then [] else [.persist none])

/-! ## Sender -/

def startOffer : TransferSession × List SessionEvent :=
  if s.fileCount = 0 then (s.fail (ascii "no_files") (ascii "nothing to send"), [])
  else if s.offerSent then (s, [])
  else
    let (s, out) := { s with offerSent := true }.setState .offering
    (s, out ++ [.ctrl (.offer s.manifest.toJson)])

/-- The verified files and the have-runs of an `accept`, indices outside the manifest left
    out. -/
def readAccept (fileCount : Nat) (files : List AcceptFile) : Accepted :=
  files.foldl (fun (verified, runs) f =>
    match f with
    | .verified index =>
      if fileCount ≤ index.toNat then (verified, runs) else (verified ++ [index], runs)
    | .runs index rs =>
      if fileCount ≤ index.toNat || rs.isEmpty then (verified, runs)
      else (verified, (index, rs) :: runs)) ([], [])

/-- `HandleAccept`, after the loop over the entries. -/
def startAccepted (accepted : Accepted) : TransferSession × List SessionEvent :=
  let s := { s with acceptReceived := true }
  let (verified, runs) := accepted
  if s.fileCount ≠ s.manifest.files.length then
    -- The engine exists but its thread was not started.
    ({ s with sender := some { tx := [], pc := .exited } }.fail (ascii "start")
      (ascii "manifest / file list mismatch"), [])
  else
    { s with
      sender := some (Sender.start s.manifest runs verified)
      senderFileOk := verified.foldl (fun (ok : List Bool) (v : UInt16) => ok.set v.toNat true) s.senderFileOk
    }.setState .transferring

def handleAccept (files : List AcceptFile) : TransferSession × List SessionEvent :=
  if !s.isSender || s.acceptReceived then (s, [])
  else s.startAccepted (readAccept s.manifest.files.length files)

def handleFileAck (index : UInt16) (ok : Bool) : TransferSession :=
  if !s.isSender then s
  else
    match s.sender with
    | none => s
    | some t =>
      match s.senderFileOk[index.toNat]? with
      | none => s
      | some known =>
        if ok then
          if known then s
          else { s with
            senderFileOk := s.senderFileOk.set index.toNat true
            sender := some (t.onFileOk index) }
        else { s with sender := some (t.onFileBad index) }

def onSenderAllDone : TransferSession × List SessionEvent :=
  if s.doneSent then (s, [])
  else
    let (s, out) := { s with doneSent := true }.setState .completed
    (s, .ctrl .transferDone :: out)

/-! ## Receiver -/

/-- The bytes `ManifestSignature` hashes. -/
def signatureBlob (m : Manifest) : Bytes :=
  m.files.flatMap fun f => f.path ++ ascii ":" ++ ascii (toString f.size.toNat) ++ ascii "\n"

def manifestSignature (sha : Bytes → Bytes) (m : Manifest) : Bytes := sha (signatureBlob m)

/-- The `files` of an `accept`: the verified files, then the have-runs. -/
def acceptFiles (verified : List UInt16) (runs : List (UInt16 × List SackRun)) : List AcceptFile :=
  verified.map .verified ++ runs.map fun (index, rs) => .runs index rs

/-- The names a record offers for reuse. -/
def reusedNames (record : Option ResumeRecord) : Names := record.elim [] (·.names)

/-- The record, if it belongs to this manifest. -/
def matchingRecord (sha : Bytes → Bytes) (m : Manifest) : Option ResumeRecord :=
  s.record.filter fun r => r.manifestSig == manifestSignature sha m

/-- `HandleOffer`, from the accepted manifest on. -/
def acceptOffer (sha : Bytes → Bytes) (io : OfferIo) (m : Manifest) (saveDir : Path) (fs : Fs) :
    Option (TransferSession × Fs × List SessionEvent) :=
  let record := s.matchingRecord sha m
  let exist := fun n => fs.pathExists (saveDir ++ [n])
  let names := chooseNames (reusedNames record) exist io.rd m.roots
  let s := { s with manifest := m, record := record, names := names }
  match Receiver.start io.start m saveDir names (record.elim [] (·.files)) fs with
  | (fs, t, some msg) => some ({ s with receiver := some t }.fail (ascii "start") msg, fs, [])
  | (fs, t, none) =>
    match t.haveRuns with
    | none => none
    | some runs =>
      let (s, out) := { s with receiver := some t }.setState .transferring
      some (s, fs, .ctrl (.accept (acceptFiles t.verifiedFiles runs)) :: out)

/-- `HandleOffer`; `none` if an exception escapes or a scan of a bitmap does not return. -/
def handleOffer (sha : Bytes → Bytes) (io : OfferIo) (j : Json) (fs : Fs) :
    Option (TransferSession × Fs × List SessionEvent) :=
  if s.isSender || s.receiver.isSome then some (s, fs, [])
  else
    match Manifest.fromJson j with
    | .error .thrown => none
    | .error (.rejected msg) => some (s.fail (ascii "bad_offer") (ascii msg), fs, [])
    | .ok m =>
      match s.saveDir with
      | none =>
        some ({ s with manifest := m }.fail (ascii "no_save_dir")
          (ascii "save directory not set"), fs, [])
      | some saveDir => s.acceptOffer sha io m saveDir fs

def onReceiverAllDone : TransferSession × List SessionEvent :=
  if s.state.terminal then (s, [])
  -- The connection and the record stay until the sender confirms.
  else if !s.senderConfirmed then s.setState .verifying
  else
    let (s, out) := s.setState .completed
    (s, out ++ [.persist none])

def persistReceiver (sha : Bytes → Bytes) (files : List ReceiverFileState) : List SessionEvent :=
  if s.state.terminal then []
  else [.persist (some ⟨manifestSignature sha s.manifest, s.names, files⟩)]

/-! ## Transport, session end, local control -/

def onTransportReady : TransferSession × List SessionEvent :=
  let first := !s.transportReady
  let s := { s with transportReady := true }
  if !first then (s, [])
  else if s.isSender then s.startOffer
  else s.setState .waitingOffer

def onTransportDown : TransferSession := { s with transportReady := false }

/-- The receiver engine has verified every file. -/
def receiverFinished : Bool := s.receiver.any (·.finished)

def onSessionEnd (reason : Bytes) : TransferSession × List SessionEvent :=
  if s.state.terminal then (s, [])
  -- A normal close is sufficient only when every local file was verified.
  else if !s.isSender && s.receiverFinished &&
      (reason == ascii "share_closed" || reason == ascii "peer_left") then
    { s with senderConfirmed := true }.onReceiverAllDone
  else (s.fail (ascii "session_end") reason, [])

def pause : TransferSession × List SessionEvent :=
  if s.paused || s.state.terminal then (s, [])
  else
    ({ s with paused := true, sender := s.sender.map (·.setPaused true) },
      if s.isSender then [] else [.ctrl .pause])

def resume : TransferSession × List SessionEvent :=
  if !s.paused || s.state.terminal then (s, [])
  else
    ({ s with paused := false, sender := s.sender.map (·.setPaused false) },
      if s.isSender then [] else [.ctrl .resume])

/-- `Cancel`, up to the end of the `Stop` calls. -/
def cancel (reason : Bytes) : TransferSession × List SessionEvent :=
  if s.state.terminal then (s, [])
  else ({ s with errorCode := reason }.stopEngines .cancel, [.ctrl (.cancel reason)])

/-! ## Dispatch -/

def onCtrlMessage (sha : Bytes → Bytes) (io : OfferIo) (msg : CtrlMsg) (fs : Fs) :
    Option (TransferSession × Fs × List SessionEvent) :=
  match msg with
  | .offer j => s.handleOffer sha io j fs
  | .accept files => let (s, out) := s.handleAccept files; some (s, fs, out)
  | .fileDone index hash =>
    if s.isSender then some (s, fs, [])
    else some ({ s with receiver := s.receiver.map (·.onFileDone index hash) }, fs, [])
  | .fileOk index => some (s.handleFileAck index true, fs, [])
  | .fileBad index _ => some (s.handleFileAck index false, fs, [])
  | .transferDone =>
    if s.isSender then some (s, fs, [])
    else
      let s := { s with senderConfirmed := true }
      -- A peer message must never bypass the local verification.
      if s.receiverFinished then let (s, out) := s.onReceiverAllDone; some (s, fs, out)
      else some (s, fs, [])
  | .pause => some ({ s with sender := s.sender.map (·.setPaused true) }, fs, [])
  | .resume =>
    if s.paused then some (s, fs, [])
    else some ({ s with sender := s.sender.map (·.setPaused false) }, fs, [])
  | .cancel _ =>
    if s.state.terminal then some (s, fs, [])
    else some ({ s with errorCode := ascii "peer_cancelled" }.stopEngines .peerCancel, fs, [])
  | .error code _ => some (s.fail (ascii "peer_error") code, fs, [])

/-- A callback of the sender engine, run on the loop. -/
def onTxEvent (e : TxEvent) : TransferSession × List SessionEvent :=
  match e with
  | .data _ => (s, [])
  | .fileDone index hash => (s, [.ctrl (.fileDone index hash)])
  | .allDone => s.onSenderAllDone
  | .error code message => (s.fail code message, [])

/-- A callback of the receiver engine, run on the loop. -/
def onRxEvent (sha : Bytes → Bytes) (e : RxEvent) : TransferSession × List SessionEvent :=
  match e with
  | .sack _ => (s, [])
  | .fileOk index => (s, [.ctrl (.fileOk index)])
  | .fileBad index reason => (s, [.ctrl (.fileBad index reason)])
  | .allDone => s.onReceiverAllDone
  | .error code message => (s.fail code message, [])
  | .persist files => (s, s.persistReceiver sha files)

end TransferSession

end CrossTransfer.Share
