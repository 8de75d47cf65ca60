import CrossTransfer.Share.CtrlText
import CrossTransfer.Share.SenderParty

/-! # Control messages as they arrive

`OnCtrlMessage` of `core/src/share/transfer_session.cpp`: a text is parsed, and every field of it is
read with one of the accessors of `nlohmann::json`, which skip, convert or throw. What the method
answers is printed with `dump()`, which throws on text that is not UTF-8. Nothing between here and
`EventLoop::Run` catches an exception.
-/

namespace CrossTransfer.Share

open CrossTransfer.Transfer
open CrossTransfer.Transfer.Paths

/-! ## Accessors -/

/-- A type error of the library. -/
inductive JsonError where
  | typeError
deriving DecidableEq, Repr

/-- What a cast makes of a number with a fraction that the integer type cannot hold. -/
structure Casts where
  to16 : Int → UInt16
  to32 : Int → UInt32

/-- `get<uint16_t>()`. -/
def getUInt16 (casts : Casts) : Json → Except JsonError UInt16
  | .bool b => .ok (if b then 1 else 0)
  | .unsigned n => .ok n.toUInt16
  | .integer n => .ok (UInt16.ofInt n)
  | .float whole =>
    .ok (if 0 ≤ whole ∧ whole < 2 ^ 16 then UInt16.ofInt whole else casts.to16 whole)
  | _ => .error .typeError

/-- `get<uint32_t>()`. -/
def getUInt32 (casts : Casts) : Json → Except JsonError UInt32
  | .bool b => .ok (if b then 1 else 0)
  | .unsigned n => .ok n.toUInt32
  | .integer n => .ok (UInt32.ofInt n)
  | .float whole =>
    .ok (if 0 ≤ whole ∧ whole < 2 ^ 32 then UInt32.ofInt whole else casts.to32 whole)
  | _ => .error .typeError

/-- `get<std::string>()`. -/
def getString : Json → Except JsonError Bytes
  | .str s => .ok s
  | _ => .error .typeError

/-- `f.value("verified", false)`, of an object. -/
def valueVerified (f : Json) : Except JsonError Bool :=
  match f.find "verified" with
  | none => .ok false
  | some (.bool b) => .ok b
  | some _ => .error .typeError

/-- `j.value("code", std::string("error"))`, of an object. -/
def valueCode (j : Json) : Except JsonError Bytes :=
  match j.find "code" with
  | none => .ok (ascii "error")
  | some code => getString code

/-! ## Parsing -/

inductive CtrlType where
  | offer
  | accept
  | fileDone
  | fileOk
  | fileBad
  | transferDone
  | pause
  | resume
  | cancel
  | error
deriving DecidableEq, Repr

namespace CtrlType

def name : CtrlType → Bytes
  | .offer => ascii "offer"
  | .accept => ascii "accept"
  | .fileDone => ascii "file_done"
  | .fileOk => ascii "file_ok"
  | .fileBad => ascii "file_bad"
  | .transferDone => ascii "transfer_done"
  | .pause => ascii "pause"
  | .resume => ascii "resume"
  | .cancel => ascii "cancel"
  | .error => ascii "error"

/-- In the order of the comparisons. -/
def all : List CtrlType :=
  [.offer, .accept, .fileDone, .fileOk, .fileBad, .transferDone, .pause, .resume, .cancel, .error]

def ofName (type : Bytes) : Option CtrlType := all.find? fun t => t.name == type

theorem ofName_name (t : CtrlType) : ofName t.name = some t := by cases t <;> rfl

theorem name_of_ofName {type : Bytes} {t : CtrlType} (h : ofName type = some t) : type = t.name := by
  have hname := List.find?_some h
  exact (beq_iff_eq.mp hname).symm

end CtrlType

/-- `ParseCtrlMessage`; `parse` is `json::parse` without exceptions, and `none` a document it
    discards. -/
def parseCtrlMessage (parse : Bytes → Option Json) (message : Bytes) : Option (Bytes × Json) :=
  match parse message with
  | none => none
  | some j =>
    if !j.isObject then none
    else
      match j.find "type" with
      | some (.str type) => some (type, j)
      | _ => none

/-! ## The fields of each message -/

/-- The runs in a `have`; what is no pair is left out. -/
def readHave (casts : Casts) : List Json → Except JsonError (List SackRun)
  | [] => .ok []
  | .arr [start, length] :: rest =>
    match getUInt32 casts start, getUInt32 casts length, readHave casts rest with
    | .ok start, .ok length, .ok runs => .ok (⟨start, length⟩ :: runs)
    | _, _, _ => .error .typeError
  | _ :: rest => readHave casts rest

/-- One entry of `files` in `accept`. -/
def acceptStep (casts : Casts) (fileCount : Nat) (acc : Accepted) (f : Json) :
    Except JsonError Accepted :=
  match f.find "index" with
  | some (.unsigned n) =>
    let index := n.toUInt16
    if fileCount ≤ index.toNat then .ok acc
    else
      match valueVerified f with
      | .error e => .error e
      | .ok true => .ok (acc.1 ++ [index], acc.2)
      | .ok false =>
        match f.find "have" with
        | some (.arr rs) =>
          match readHave casts rs with
          | .error e => .error e
          | .ok runs => .ok (if runs.isEmpty then acc else (acc.1, (index, runs) :: acc.2))
        | _ => .ok acc
  | _ => .ok acc

namespace TransferSession

variable (s : TransferSession)

/-- `HandleAccept` of a document. -/
def handleAcceptDoc (casts : Casts) (j : Json) :
    Except JsonError (TransferSession × List SessionEvent) :=
  if !s.isSender || s.acceptReceived then .ok (s, [])
  else
    match j.find "files" with
    | some (.arr files) =>
      (files.foldlM (acceptStep casts s.manifest.files.length) ([], [])).map s.startAccepted
    | _ => .ok (s.startAccepted ([], []))

/-- `HandleFileAck` of a document. -/
def handleFileAckDoc (j : Json) (ok : Bool) : TransferSession :=
  if !s.isSender || s.sender.isNone then s
  else
    match j.find "index" with
    | some (.unsigned n) => s.handleFileAck n.toUInt16 ok
    | _ => s

/-- `file_done` in `OnCtrlMessage`. -/
def handleFileDoneDoc (casts : Casts) (j : Json) : Except JsonError TransferSession :=
  if s.isSender || s.receiver.isNone then .ok s
  else
    match j.find "index", j.find "sha256" with
    | some index, some sha256 =>
      match getUInt16 casts index, getString sha256 with
      | .ok index, .ok hash => .ok { s with receiver := s.receiver.map (·.onFileDone index hash) }
      | _, _ => .error .typeError
    | _, _ => .ok s

/-- `HandleOffer` of a document; `ok none` if a scan of a bitmap does not return. -/
def handleOfferDoc (sha : Bytes → Bytes) (io : OfferIo) (j : Json) (fs : Fs) :
    Except JsonError (Option (TransferSession × Fs × List SessionEvent)) :=
  if s.isSender || s.receiver.isSome then .ok (some (s, fs, []))
  else
    match j.find "manifest" with
    | none => .ok (some (s.fail (ascii "bad_offer") (ascii "missing manifest"), fs, []))
    | some manifest =>
      match Manifest.fromJson manifest with
      | .error .thrown => .error .typeError
      | _ => .ok (s.handleOffer sha io manifest fs)

/-- The dispatch in `OnCtrlMessage`. -/
def onCtrlDoc (sha : Bytes → Bytes) (casts : Casts) (io : OfferIo) (type : CtrlType) (j : Json)
    (fs : Fs) : Except JsonError (Option (TransferSession × Fs × List SessionEvent)) :=
  match type with
  | .offer => s.handleOfferDoc sha io j fs
  | .accept => (s.handleAcceptDoc casts j).map fun (s, out) => some (s, fs, out)
  | .fileDone => (s.handleFileDoneDoc casts j).map fun s => some (s, fs, [])
  | .fileOk => .ok (some (s.handleFileAckDoc j true, fs, []))
  | .fileBad => .ok (some (s.handleFileAckDoc j false, fs, []))
  | .transferDone => .ok (s.onCtrlMessage sha io .transferDone fs)
  | .pause => .ok (s.onCtrlMessage sha io .pause fs)
  | .resume => .ok (s.onCtrlMessage sha io .resume fs)
  | .cancel => .ok (s.onCtrlMessage sha io (.cancel []) fs)
  | .error =>
    match valueCode j with
    | .error e => .error e
    | .ok code => .ok (s.onCtrlMessage sha io (.error code []) fs)

end TransferSession

/-! ## Printing -/

/-- The notice to the peer with which `Fail` goes on when the engines have stopped. -/
def AfterStop.notice : AfterStop → Option CtrlMsg
  | .fail code message =>
    if code ≠ ascii "session_end" && code ≠ ascii "peer_error" then some (.error code message)
    else none
  | .cancel => none
  | .peerCancel => none

namespace TransferSession

variable (s : TransferSession)

/-- What a call prints that leaves the session as `s'`: what it sends, and the notice of its failure.
    No call begins while another one waits for the engines. -/
def prints (s' : TransferSession) (out : List SessionEvent) : List CtrlMsg :=
  Party.ctrlOf out ++ (if s.stopping.isNone then s'.stopping.bind AfterStop.notice else none).toList

/-- The call, once its messages are printed. -/
def print (dump : Json → Option Bytes) : Option (TransferSession × Fs × List SessionEvent) →
    Except JsonError (Option (TransferSession × Fs × List SessionEvent))
  | none => .ok none
  | some (s', fs', out) =>
    if (s.prints s' out).all fun msg => (dump msg.toJson).isSome then .ok (some (s', fs', out))
    else .error .typeError

/-- `OnCtrlMessage`. A `Fail` in it prints its notice when the engines have stopped, before the
    method returns. -/
def onCtrlText (parse : Bytes → Option Json) (dump : Json → Option Bytes) (sha : Bytes → Bytes)
    (casts : Casts) (io : OfferIo) (message : Bytes) (fs : Fs) :
    Except JsonError (Option (TransferSession × Fs × List SessionEvent)) :=
  match parseCtrlMessage parse message with
  | none => .ok (some (s, fs, []))
  | some (type, j) =>
    match CtrlType.ofName type with
    | none => .ok (some (s, fs, []))
    | some type =>
      match s.onCtrlDoc sha casts io type j fs with
      | .error e => .error e
      | .ok r => s.print dump r

/-- What is printed of a pending failure is what `finishStop` sends. -/
theorem finishStop_notice {s s' : TransferSession} {fs fs' : Fs} {out : List SessionEvent}
    {k : AfterStop} (hk : s.stopping = some k) (h : s.finishStop fs = some (s', fs', out)) :
    Party.ctrlOf out = k.notice.toList := by
  have silent : ∀ (t : TransferSession) (state : TransferState),
      Party.ctrlOf (t.setState state).2 = [] := by
    intro t state
    unfold setState
    split <;> rfl
  rw [finishStop, hk] at h
  dsimp only at h
  split at h
  · cases h
  · cases k with
    | fail code message =>
      cases h
      rw [Party.ctrlOf, List.filterMap_append]
      change _ ++ Party.ctrlOf _ = _
      rw [silent, List.append_nil, AfterStop.notice]
      split <;> rfl
    | cancel =>
      cases h
      rw [Party.ctrlOf, List.filterMap_append]
      change Party.ctrlOf _ ++ _ = _
      rw [silent]
      split <;> rfl
    | peerCancel =>
      cases h
      exact silent _ _

end TransferSession

end CrossTransfer.Share
