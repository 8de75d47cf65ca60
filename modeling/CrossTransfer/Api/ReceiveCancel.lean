import CrossTransfer.Api.Core
import CrossTransfer.Share.FinalRecord

/-! # Cancelling a receive

One receive of the core with the sessions that are made for it, one after another, and the disk
they write to. A receive is cancelled by `Cancel` of its session, by a `cancel` of the sender, or
by `TransferCancel` when it has no session. Only the first removes part files, those of the engine
that is running then (`not_cancelCleans`).

A cancelled receive leaves nothing behind if on the first way all its part files are that
engine's, and if on the other ways there are none (`cancelCleans_run`).
-/

namespace CrossTransfer.Api

open CrossTransfer.Library
open CrossTransfer.Transfer
open CrossTransfer.Share

/-! ## The state -/

/-- An entry of `transfers_`: a session and the transfer id it was made for. -/
structure Linked where
  transferId : Bytes
  party : Party

structure Receiving where
  receive : Receive
  /-- The sessions made for the receive, by session id. -/
  sessions : OrderedMap Bytes Linked := ∅
  /-- The entry of the receive in `transfer_ids_`. -/
  current : Option Bytes := none
  disk : Fs
  /-- The entry of the receive in `transfers.json`. -/
  stored : Option Receive := none
  /-- The final paths of the files that an engine was started for. -/
  files : List Path := []
  /-- The final paths of the files that an engine has verified. -/
  verified : List Path := []

/-- A session that is over, and whose thread has ended. -/
structure Over (p : Party) : Prop where
  terminal : p.session.state.terminal = true
  free : p.session.stopping = none
  exited : ∀ t, p.session.receiver = some t → t.pc = .exited

/-- The final paths of the files of the offer that was accepted. -/
def filesOf (p : Party) : List Path :=
  if p.session.receiver.isSome then
    p.session.saveDir.elim [] fun dir =>
      p.session.manifest.files.map fun f => finalPath dir p.session.names f.path
  else []

def verifiedOf (p : Party) : List Path :=
  p.session.receiver.elim [] fun t => (t.rx.filter (·.verified)).map (·.finalPath)

/-- `paths::FromUtf8` of a save directory; `none` is the empty path. -/
def saveDirOf (dir : Bytes) : Option Path := if dir.isEmpty then none else some (Paths.joinSafe [] dir)

/-- The event of a session, as the core hears it. -/
def hear (sid : Bytes) (e : Linked) (r : Receive) : SessionEvent → Receive
  | .ctrl _ => r
  | .state s =>
    if r.active && r.sessionId == sid then
      Core.receiveAfterTransfer r
        { transferId := e.transferId
          isSender := false
          owner := 0
          state := s
          errorCode := e.party.session.errorCode
          errorMessage := e.party.session.errorMessage }
    else r
  | .persist record => if r.transferId = e.transferId then { r with record := record } else r

/-! ## Steps -/

inductive ReceiveAct where
  /-- `ReceiveResume`. -/
  | resume
  /-- `ReceiveStart` with the code of the receive, which goes on under a new id. -/
  | restart (id dir : Bytes)
  /-- The claim has succeeded. -/
  | claimed (sid token : Bytes)
  /-- The resume token was refused; the code is tried next. -/
  | tokenRefused
  /-- The claim has failed, or the signaling connection was lost. -/
  | failed (code message : Bytes)
  /-- MiniRTC announces a session. -/
  | connecting (sid token metaJson : Bytes)
  /-- The end of `OnSession`, when the session is connected. -/
  | connected (sid : Bytes)
  /-- Something happens to a session. -/
  | session (sid : Bytes) (a : PartyAct)
  | drop (sid : Bytes)
  /-- `TransferCancel`. -/
  | cancel
  /-- `SaveReceives`, for this receive or for another one. -/
  | save
  /-- The process ends, and `LoadReceives` of the next one. -/
  | reload

/-- Steps of threads other than the loop, and the end of a wait of the loop. -/
def offLoop : PartyAct → Bool
  | .here .stopped | .here (.senderThread _) | .here (.writerThread _) | .sack _ | .block _ => true
  | .here .ready | .here .down | .here .pause | .here .resume | .here (.cancel _)
  | .here (.sessionEnd _) | .here .task | .ctrl _ _ => false

namespace Receiving

variable (sha : Bytes → Bytes) (s : Receiving)

/-- A method of a session waits for an engine, and the loop with it. -/
def blocked : Bool := s.sessions.toList.any fun e => e.2.party.session.stopping.isSome

/-- The session as it stands: the disk is shared. -/
def onDisk (e : Linked) : Party := { e.party with fs := s.disk }

/-- A step of a session, and what the core hears of it. -/
def advance (sid : Bytes) (a : PartyAct) : Option Receiving :=
  (s.sessions[sid]?).bind fun e =>
    ((s.onDisk e).step sha a).map fun p =>
      { s with
        receive := ((s.onDisk e).events sha a).foldl (hear sid { e with party := p }) s.receive
        sessions := s.sessions.insert sid { e with party := p }
        disk := p.fs
        files := s.files ∪ filesOf p
        verified := s.verified ∪ verifiedOf p }

/-- The engine's thread has exited, or there is none. -/
def idle (p : Party) : Bool := p.session.receiver.all fun t => t.pc == .exited

/-- The destructor of a session stops its engine. -/
def stopRequested (p : Party) : Party :=
  { p with session := { p.session with receiver := p.session.receiver.map Receiver.requestStop } }

/-- `DropTransfer`; the thread of the engine has to end before. -/
def dropTransfer (sid : Bytes) (e : Linked) : Receiving :=
  if idle e.party then
    { s with
      sessions := s.sessions.erase sid
      current := if e.transferId = s.receive.transferId then none else s.current }
  else { s with sessions := s.sessions.insert sid { e with party := stopRequested e.party } }

/-- The receiver branch of `OnSession`, for a session that has just been announced. -/
def connect (sid token metaJson : Bytes) : Receiving :=
  let r := { s.receive with
    sessionId := sid
    resumeToken := if token.isEmpty then s.receive.resumeToken else token
    metaJson := if metaJson.isEmpty then s.receive.metaJson else metaJson
    state := .transfer .connecting }
  { s with
    receive := r
    sessions := s.sessions.insert sid
      ⟨r.transferId, { session := .newReceiver (saveDirOf r.saveDir) r.record, fs := s.disk }⟩
    current := some sid }

/-- `TransferCancel` when the receive has no session. -/
def cancelPending : Receiving :=
  { s with receive := { s.receive with
      record := none
      state := .transfer .cancelled
      errorCode := ascii "user"
      errorMessage := []
      active := false } }

def claiming : Bool := s.receive.state == .claiming && s.receive.active

/-- `StartClaim`, up to the request. -/
def startClaim (r : Receive) : Receiving :=
  { s with receive := { r with
      state := .claiming
      errorCode := []
      errorMessage := []
      active := true
      triedToken := false } }

def act : ReceiveAct → Option Receiving
  | .resume => some (if s.receive.active || s.receive.keysOf then s else s.startClaim s.receive)
  | .restart id dir =>
    if Core.reusable s.receive.code s.receive then
      some { s.startClaim { s.receive with transferId := id, saveDir := dir } with current := none }
    else none
  | .claimed sid token =>
    if s.claiming then
      some { s with receive := { s.receive with
        sessionId := sid
        resumeToken := if token.isEmpty then s.receive.resumeToken else token
        state := .transfer .connecting } }
    else none
  | .tokenRefused =>
    if s.claiming then some { s with receive := { s.receive with resumeToken := [] } } else none
  | .failed code message =>
    if s.receive.state = .claiming ∨ s.receive.state = .transfer .connecting ∨
        s.receive.state = .transfer .waitingOffer then
      some { s with receive := { s.receive with
        state := .transfer .failed, errorCode := code, errorMessage := message, active := false } }
    else none
  | .connecting sid token metaJson =>
    if (s.receive.active && s.receive.sessionId == sid) || s.claiming then
      match s.sessions[sid]? with
      | none => some (s.connect sid token metaJson)
      | some e =>
        if !e.party.session.state.terminal then some s  -- duplicate notification
        else if idle e.party then some ((s.dropTransfer sid e).connect sid token metaJson)
        else some (s.dropTransfer sid e)
    else none
  | .connected sid =>
    some (if s.receive.active && s.receive.sessionId == sid &&
        s.receive.state == .transfer .connecting then
      { s with receive := { s.receive with state := .transfer .waitingOffer } }
    else s)
  | .session sid a => s.advance sha sid a
  | .drop sid =>
    (s.sessions[sid]?).bind fun e =>
      if e.party.session.state.terminal then some (s.dropTransfer sid e) else none
  | .cancel =>
    match s.current with
    | some sid => if s.sessions.contains sid then s.advance sha sid (.here (.cancel (ascii "user"))) else some s
    | none => some s.cancelPending
  | .save => some { s with stored := if s.receive.keysOf then none else some s.receive }
  | .reload => s.stored.map fun r =>
      { receive := Core.loadReceive r
        disk := s.disk
        stored := s.stored
        files := s.files
        verified := s.verified }

/-- Whether an action is a task of the event loop. -/
def onLoop : ReceiveAct → Bool
  | .session _ a => !offLoop a
  | .reload => false
  | _ => true

def step (a : ReceiveAct) : Option Receiving := if onLoop a && s.blocked then none else s.act sha a

/-! ## What cancelling promises -/

def Cancelled (s : Receiving) : Prop := s.receive.state = .transfer .cancelled

/-- The part file of an unverified file is on disk. -/
def Left (s : Receiving) (final : Path) : Prop :=
  final ∈ s.files ∧ final ∉ s.verified ∧ s.disk.isRegular (partPath final) = true

/-- No session but `sid` is running. -/
def OthersOver (s : Receiving) (sid : Bytes) : Prop :=
  ∀ (sid' : Bytes) (e : Linked), sid' ≠ sid → s.sessions[sid']? = some e → Over e.party

/-- The step of `sid` that ends its `Cancel` removes every part file that is left, and no verified
    file. -/
structure Removes (s : Receiving) (p : Party) : Prop where
  all : ∀ final, s.Left final → ∃ t f, p.session.receiver = some t ∧ f ∈ t.rx ∧
    f.verified = false ∧ f.partPath = partPath final
  only : ∀ t f, p.session.receiver = some t → f ∈ t.rx → f.verified = false →
    f.partPath ∉ s.verified

/-- What a step needs for the promise: `Cancel` of the session removes all that is left, the other
    ways find nothing left, and no offer starts an engine afterwards. -/
def CleansUp (s : Receiving) : ReceiveAct → Prop
  | .session sid a => ∀ e, s.sessions[sid]? = some e →
      (a = .here .stopped → s.receive.active = true → s.receive.sessionId = sid →
        (e.party.session.stopping = some .cancel → s.OthersOver sid ∧ s.Removes e.party) ∧
        (e.party.session.stopping = some .peerCancel → s.OthersOver sid ∧ ∀ final, ¬ s.Left final)) ∧
      (s.Cancelled → ∀ io j, a = .ctrl io (.offer j) → e.party.session.receiver ≠ none)
  | .cancel => s.current = none → ¬ s.Cancelled →
      (∀ (sid : Bytes) (e : Linked), s.sessions[sid]? = some e → Over e.party) ∧ ∀ final, ¬ s.Left final
  | _ => True

end Receiving

/-- A receive that has just been started. -/
def receiving (sha : Bytes → Bytes) (id code dir : Bytes) (now : Int) (disk : Fs) :
    Machine Receiving ReceiveAct where
  init :=
    { receive :=
        { transferId := id, code := code, saveDir := dir, createdAt := now, active := true }
      disk := disk }
  step := Receiving.step sha

/-- A receive that has been cancelled. -/
structure Cleaned (M : Machine Receiving ReceiveAct) (as : List ReceiveAct) (s : Receiving) :
    Prop where
  record : s.receive.record = none
  noParts : ∀ final, ¬ s.Left final
  /-- The verified files are what they were before the step that cancelled it. -/
  untouched : ∃ t a t', M.Took as t a t' ∧ ¬ t.Cancelled ∧ t'.Cancelled ∧
    ∀ final ∈ s.verified, s.disk.read final = t.disk.read final

/-! ## Part files -/

section

variable {sha : Bytes → Bytes} {p p' : Party} {a : PartyAct} {t t' : Receiver} {fs fs' : Fs}
  {s s' : Receiving}

/-- `Cleanup` removes the part files of the unverified files, and nothing else. -/
theorem link_cleanup (t : Receiver) (fs : Fs) (q : Path) : (t.cleanup fs).link q =
    if ∃ f ∈ t.rx, f.verified = false ∧ f.partPath = q then none else fs.link q := by
  have hparts := FileSystem.foldl_unlink (fun f : FileRx => f.partPath)
    (t.rx.filter (!·.verified)) fs q
  have hdirs := FileSystem.sameFiles_removeEmptyDirs t.createdDirs.reverse
    ((t.rx.filter (!·.verified)).foldl (fun fs f => fs.unlink f.partPath) fs)
  rw [Receiver.cleanup, hdirs.link, hparts.1]
  simp [and_assoc]

theorem data_cleanup (t : Receiver) (fs : Fs) : (t.cleanup fs).data = fs.data := by
  have hparts := FileSystem.foldl_unlink (fun f : FileRx => f.partPath)
    (t.rx.filter (!·.verified)) fs []
  have hdirs := FileSystem.sameFiles_removeEmptyDirs t.createdDirs.reverse
    ((t.rx.filter (!·.verified)).foldl (fun fs f => fs.unlink f.partPath) fs)
  rw [Receiver.cleanup, hdirs.data, hparts.2]

/-- An engine that was called works on the same files. -/
theorem verifiedOf_called (h : Option.Rel Receiver.Called p.session.receiver p'.session.receiver) :
    verifiedOf p' = verifiedOf p := by
  unfold verifiedOf
  generalize p.session.receiver = r, p'.session.receiver = r' at h
  cases h with
  | none => rfl
  | some h =>
    simp only [Option.elim_some]
    obtain hrx | hrx := h.rx
    · rw [hrx]
    · rw [hrx]
      simp [List.filter_map, Function.comp_def]

theorem filesOf_called (h : Option.Rel Receiver.Called p.session.receiver p'.session.receiver)
    (same : p.session.receiver.isSome = true → RecvSame p p')
    (saveDir : p'.session.saveDir = p.session.saveDir) : filesOf p' = filesOf p := by
  have hsome : p'.session.receiver.isSome = p.session.receiver.isSome := by
    generalize p.session.receiver = r, p'.session.receiver = r' at h
    cases h <;> rfl
  unfold filesOf
  rw [saveDir, hsome]
  split
  · rename_i hengine
    rw [(same hengine).manifest, (same hengine).names]
  · rfl

/-! ## Steps of a session -/

/-- What a receiving session is at all times. -/
structure Receives (p : Party) : Prop where
  role : p.session.isSender = false
  sender : p.session.sender = none
  waits : p.Waits

theorem Receives.step (recv : Receives p) (h : p.step sha a = some p') : Receives p' := by
  have frame := (receiverMove recv.role recv.sender h).frame
  exact ⟨frame.role, frame.sender, (Party.step_turned recv.waits h).waits⟩

/-- A step that leaves an engine as it is but for calls. -/
structure Calls (p p' : Party) : Prop where
  engine : Option.Rel Receiver.Called p.session.receiver p'.session.receiver
  files : filesOf p' = filesOf p
  verified : verifiedOf p' = verifiedOf p

/-- A session that is over does nothing more, unless an offer starts its engine. -/
theorem Over.step (ended : Over p) (recv : Receives p) (h : p.step sha a = some p')
    (noOffer : ∀ io j, a = .ctrl io (.offer j) → p.session.receiver ≠ none) :
    Over p' ∧ p'.fs = p.fs ∧ Calls p p' ∧ statesOf (p.events sha a) = [] ∧
      recordsOf (p.events sha a) = [] := by
  have turned := Party.step_turned recv.waits h
  have move := receiverMove recv.role recv.sender h
  have hsame : p'.session.state = p.session.state ∧ statesOf (p.events sha a) = [] ∧
      recordsOf (p.events sha a) = [] := by
    have turn := turned.turn
    -- A state that is terminal does not change, and nothing is stored in it.
    have hopen : p.session.state.terminal ≠ false := by simp [ended.terminal]
    generalize p'.session.state = state, statesOf (p.events sha a) = said,
      recordsOf (p.events sha a) = saved at turn
    cases turn with
    | still => exact ⟨rfl, rfl, rfl⟩
    | moved running => exact absurd running hopen
    | cleared running => exact absurd running hopen
    | saved running => exact absurd running hopen
  have hterminal : p'.session.state.terminal = true := hsame.1 ▸ ended.terminal
  have hfree : p'.session.stopping = none := by
    by_contra hsome
    rw [turned.waits (Option.isSome_iff_ne_none.mpr hsome)] at hterminal
    cases hterminal
  have engine : Option.Rel Receiver.Called p.session.receiver p'.session.receiver ∧
      (p.session.receiver.isSome = true → RecvSame p p') ∧ p'.fs = p.fs := by
    have unchanged : p'.session.receiver = p.session.receiver →
        Option.Rel Receiver.Called p.session.receiver p'.session.receiver := by
      intro heq
      rw [heq]
      exact called_of_stopped (TransferSession.rel_stopped_refl _)
    cases move with
    | other frame same engine fs => exact ⟨called_of_stopped engine, fun _ => same, fs⟩
    | task frame same event engine fs => exact ⟨called_of_stopped engine, fun _ => same, fs⟩
    | offer frame idle => exact absurd idle (noOffer _ _ rfl)
    | noStart frame idle => exact absurd idle (noOffer _ _ rfl)
    | noSaveDir frame idle => exact absurd idle (noOffer _ _ rfl)
    | fileDone frame same engine fs =>
      refine ⟨?_, fun _ => same, fs⟩
      rw [engine]
      exact called_of_map (fun t => Receiver.called_onFileDone t _ _) _
    | block frame same engine fs =>
      refine ⟨?_, fun _ => same, fs⟩
      rw [engine]
      exact called_of_map (fun t => (Receiver.called_onBlock t _).1) _
    | thread frame same engine step =>
      simp [Receiver.writerStep, ended.exited _ engine] at step
    | confirmed frame same engine fs => exact ⟨unchanged engine, fun _ => same, fs⟩
    | ended frame same why finished engine fs => exact ⟨unchanged engine, fun _ => same, fs⟩
    | stopped =>
      simp [Party.step, Party.stoppedStep, TransferSession.finishStop, ended.free] at h
  obtain ⟨engine, same, hfs⟩ := engine
  exact ⟨⟨hterminal, hfree, exited_called engine ended.exited⟩, hfs,
    ⟨engine, filesOf_called engine same move.frame.saveDir, verifiedOf_called engine⟩, hsame.2⟩

/-- The step that ends a wait for `Cancel` or for the peer's. -/
theorem stopped_cancelled {k : AfterStop} (recv : Receives p) (hk : p.session.stopping = some k)
    (hcancel : k = .cancel ∨ k = .peerCancel) (h : p.step sha (.here .stopped) = some p') :
    Over p' ∧ Calls p p' ∧ p'.session.state = .cancelled ∧
      (k = .cancel → p'.fs = (p.session.receiver.map Receiver.closeWriters).elim p.fs (·.cleanup p.fs)) ∧
      (k = .peerCancel → p'.fs = p.fs) ∧
      statesOf (p.events sha (.here .stopped)) = [.cancelled] := by
  have running : p.session.state.terminal = false := recv.waits (by simp [hk])
  have hne : p.session.state ≠ .cancelled := by
    intro heq
    rw [heq] at running
    cases running
  obtain ⟨hfree, exited⟩ := step_stopped recv.waits h
  have hmove := receiverMove recv.role recv.sender h
  have hrole := recv.role
  obtain ⟨⟨s, fs, out⟩, hstop, rfl⟩ := Option.map_eq_some_iff.mp h
  have spec := TransferSession.finishStop_spec hstop
  have engine : Option.Rel Receiver.Called p.session.receiver s.receiver := by
    rw [spec.receiver]
    exact called_of_map Receiver.called_closeWriters _
  have hfs : s.state = .cancelled ∧
      (k = .cancel → fs = (p.session.receiver.map Receiver.closeWriters).elim p.fs (·.cleanup p.fs)) ∧
      (k = .peerCancel → fs = p.fs) ∧ statesOf out = [.cancelled] := by
    have hstopped : p.session.stopped = true := by
      by_contra hno
      simp [TransferSession.finishStop, hk, hno] at hstop
    simp only [TransferSession.finishStop, hk, hstopped, Bool.not_true, Bool.false_eq_true, if_false,
      TransferSession.setState, hne, running, decide_false, Bool.or_false, hrole] at hstop
    obtain rfl | rfl := hcancel
    · simp only [Option.some.injEq, Prod.mk.injEq] at hstop
      obtain ⟨rfl, rfl, rfl⟩ := hstop
      exact ⟨rfl, fun _ => rfl, by simp, rfl⟩
    · simp only [Option.some.injEq, Prod.mk.injEq] at hstop
      obtain ⟨rfl, rfl, rfl⟩ := hstop
      exact ⟨rfl, by simp, fun _ => rfl, rfl⟩
  obtain ⟨hstate, hlocal, hpeer, hout⟩ := hfs
  refine ⟨⟨?_, hfree, exited_called engine exited⟩, ⟨engine, ?_, verifiedOf_called engine⟩, hstate,
    hlocal, hpeer, by simpa [Party.events, hstop] using hout⟩
  · show s.state.terminal = true
    rw [hstate]
    rfl
  · exact filesOf_called engine (fun _ => ⟨spec.calm.manifest, spec.calm.names, spec.calm.record⟩)
      hmove.frame.saveDir

/-! ## What the core hears -/

/-- A receive that was cancelled: no record, and no session is listened to. -/
structure Closed (r : Receive) : Prop where
  state : r.state = .transfer .cancelled
  record : r.record = none
  inactive : r.active = false

theorem hear_closed {sid : Bytes} {e : Linked} {r : Receive} {event : SessionEvent} (closed : Closed r)
    (unsaved : ∀ record, event ≠ .persist (some record)) : Closed (hear sid e r event) := by
  obtain ⟨hstate, hrecord, hinactive⟩ := closed
  cases event with
  | ctrl msg => exact ⟨hstate, hrecord, hinactive⟩
  | state st => simpa [hear, hinactive] using Closed.mk hstate hrecord hinactive
  | persist record =>
    cases record with
    | some record => exact absurd rfl (unsaved record)
    | none =>
      simp only [hear]
      split
      · exact ⟨hstate, rfl, hinactive⟩
      · exact ⟨hstate, hrecord, hinactive⟩

theorem foldl_hear_closed {sid : Bytes} {e : Linked} {r : Receive} {out : List SessionEvent}
    (closed : Closed r) (unsaved : ∀ record, some record ∉ recordsOf out) :
    Closed (out.foldl (hear sid e) r) := by
  induction out generalizing r with
  | nil => exact closed
  | cons event out ih =>
    have hsplit : recordsOf (event :: out) = recordsOf [event] ++ recordsOf out :=
      recordsOf_append [event] out
    simp only [hsplit, List.mem_append, not_or] at unsaved
    apply ih (hear_closed closed fun record heq => ?_) fun record => (unsaved record).2
    subst heq
    exact (unsaved record).1 (by simp [recordsOf])

/-- One event of a session that cancels the receive. -/
theorem hear_cancelled {sid : Bytes} {e : Linked} {r : Receive} {event : SessionEvent}
    (hr : r.state ≠ .transfer .cancelled)
    (h : (hear sid e r event).state = .transfer .cancelled) :
    event = .state .cancelled ∧ r.active = true ∧ r.sessionId = sid ∧ Closed (hear sid e r event) := by
  cases event with
  | ctrl msg => exact absurd h hr
  | persist record =>
    simp only [hear] at h
    split at h <;> exact absurd h hr
  | state st =>
    cases hlistens : r.active && r.sessionId == sid with
    | false => exact absurd (by simpa [hear, hlistens] using h) hr
    | true =>
      obtain rfl : st = .cancelled := by
        cases st <;> simp [hear, hlistens, Core.receiveAfterTransfer, TransferState.terminal] at h ⊢
      have hparts : r.active = true ∧ r.sessionId = sid := by simpa using hlistens
      refine ⟨rfl, hparts.1, hparts.2, ?_⟩
      constructor <;> simp [hear, hlistens, Core.receiveAfterTransfer, TransferState.terminal]

theorem hear_kept {sid : Bytes} {e : Linked} {r : Receive} {event : SessionEvent} :
    ((hear sid e r event).active = true → r.active = true) ∧
      (hear sid e r event).sessionId = r.sessionId := by
  cases event with
  | ctrl msg => exact ⟨id, rfl⟩
  | persist record =>
    simp only [hear]
    split <;> exact ⟨id, rfl⟩
  | state st =>
    simp only [hear]
    split
    · rename_i hlistens
      have hparts : r.active = true ∧ r.sessionId = sid := by simpa using hlistens
      refine ⟨fun _ => hparts.1, ?_⟩
      cases st <;> simp [Core.receiveAfterTransfer, TransferState.terminal]
    · exact ⟨id, rfl⟩

/-- A session cancels the receive only by its state. -/
theorem foldl_hear_cancelled {sid : Bytes} {e : Linked} {r : Receive} {out : List SessionEvent}
    (hr : r.state ≠ .transfer .cancelled)
    (h : (out.foldl (hear sid e) r).state = .transfer .cancelled) :
    .cancelled ∈ statesOf out ∧ r.active = true ∧ r.sessionId = sid ∧
      ((∀ record, some record ∉ recordsOf out) → Closed (out.foldl (hear sid e) r)) := by
  induction out generalizing r with
  | nil => exact absurd h hr
  | cons event out ih =>
    have hrecords : recordsOf (event :: out) = recordsOf [event] ++ recordsOf out :=
      recordsOf_append [event] out
    have hstates : statesOf (event :: out) = statesOf [event] ++ statesOf out :=
      statesOf_append [event] out
    have hrest (unsaved : ∀ record, some record ∉ recordsOf (event :: out)) :
        ∀ record, some record ∉ recordsOf out := by
      simp only [hrecords, List.mem_append, not_or] at unsaved
      exact fun record => (unsaved record).2
    by_cases hfirst : (hear sid e r event).state = .transfer .cancelled
    · obtain ⟨rfl, hactive, hsid, closed⟩ := hear_cancelled hr hfirst
      refine ⟨by simp [statesOf], hactive, hsid, fun unsaved => ?_⟩
      rw [List.foldl_cons]
      exact foldl_hear_closed closed (hrest unsaved)
    · obtain ⟨hmem, hactive, hsid, closed⟩ := ih hfirst h
      refine ⟨?_, hear_kept.1 hactive, hear_kept.2 ▸ hsid, fun unsaved => closed (hrest unsaved)⟩
      rw [hstates]
      exact List.mem_append_right _ hmem

/-! ## Steps of the receive -/

namespace Receiving

theorem advance_some {sid : Bytes} {a : PartyAct} (h : s.advance sha sid a = some s') :
    ∃ (e : Linked) (p : Party), s.sessions[sid]? = some e ∧ (s.onDisk e).step sha a = some p ∧
      s' = { s with
        receive := ((s.onDisk e).events sha a).foldl (hear sid { e with party := p }) s.receive
        sessions := s.sessions.insert sid { e with party := p }
        disk := p.fs
        files := s.files ∪ filesOf p
        verified := s.verified ∪ verifiedOf p } := by
  obtain ⟨e, he, h⟩ := Option.bind_eq_some_iff.mp h
  obtain ⟨p, hp, rfl⟩ := Option.map_eq_some_iff.mp h
  exact ⟨e, p, he, hp, rfl⟩

/-- What holds of the sessions at all times; the lists of files know those of every session. -/
structure Sound (s : Receiving) (e : Linked) : Prop where
  receives : Receives e.party
  files : ∀ final ∈ filesOf e.party, final ∈ s.files
  verified : ∀ final ∈ verifiedOf e.party, final ∈ s.verified

def AllSound (s : Receiving) : Prop :=
  ∀ (sid : Bytes) (e : Linked), s.sessions[sid]? = some e → s.Sound e

theorem Sound.mono {e : Linked} (sound : s.Sound e) (files : ∀ final ∈ s.files, final ∈ s'.files)
    (verified : ∀ final ∈ s.verified, final ∈ s'.verified) : s'.Sound e :=
  ⟨sound.receives, fun final h => files final (sound.files final h),
    fun final h => verified final (sound.verified final h)⟩

theorem Sound.onDisk {e : Linked} (sound : s.Sound e) : Receives (s.onDisk e) :=
  ⟨sound.receives.role, sound.receives.sender, sound.receives.waits⟩

theorem sound_advance {sid : Bytes} {a : PartyAct} (sound : s.AllSound)
    (h : s.advance sha sid a = some s') : s'.AllSound := by
  obtain ⟨e, p, he, hp, rfl⟩ := advance_some h
  intro sid' e' he'
  rw [OrderedMap.get_insert] at he'
  split at he'
  · cases he'
    exact ⟨(sound sid e he).onDisk.step hp, fun _ h => List.mem_union_iff.mpr (.inr h),
      fun _ h => List.mem_union_iff.mpr (.inr h)⟩
  · exact (sound sid' e' he').mono (fun _ h => List.mem_union_iff.mpr (.inl h))
      fun _ h => List.mem_union_iff.mpr (.inl h)

/-- Changes of the receive alone. -/
theorem sound_receive (sound : s.AllSound) (r : Receive) (current : Option Bytes) :
    AllSound { s with receive := r, current := current } :=
  fun sid e he => (sound sid e he).mono (fun _ h => h) fun _ h => h

theorem calls_stopRequested (p : Party) : Calls p (stopRequested p) := by
  have engine : Option.Rel Receiver.Called p.session.receiver (stopRequested p).session.receiver :=
    called_of_map Receiver.called_requestStop _
  exact ⟨engine, filesOf_called engine (fun _ => ⟨rfl, rfl, rfl⟩) rfl, verifiedOf_called engine⟩

theorem sound_dropTransfer {sid : Bytes} {e : Linked} (sound : s.AllSound)
    (he : s.sessions[sid]? = some e) : (s.dropTransfer sid e).AllSound := by
  unfold dropTransfer
  split
  · intro sid' e' he'
    rw [OrderedMap.get_erase] at he'
    split at he'
    · cases he'
    · exact (sound sid' e' he').mono (fun _ h => h) fun _ h => h
  · intro sid' e' he'
    rw [OrderedMap.get_insert] at he'
    split at he'
    · cases he'
      obtain ⟨hreceives, hfiles, hverified⟩ := sound sid e he
      have calls := calls_stopRequested e.party
      exact ⟨⟨hreceives.role, hreceives.sender, hreceives.waits⟩,
        fun final h => hfiles final (calls.files ▸ h),
        fun final h => hverified final (calls.verified ▸ h)⟩
    · exact (sound sid' e' he').mono (fun _ h => h) fun _ h => h

theorem sound_connect {sid token metaJson : Bytes} (sound : s.AllSound) :
    (s.connect sid token metaJson).AllSound := by
  intro sid' e he
  simp only [connect, OrderedMap.get_insert] at he
  split at he
  · cases he
    refine ⟨⟨rfl, rfl, fun h => ?_⟩, by simp [filesOf, TransferSession.newReceiver],
      by simp [verifiedOf, TransferSession.newReceiver]⟩
    cases h
  · exact (sound sid' e he).mono (fun _ h => h) fun _ h => h

/-- What a step does to a receive. -/
inductive Move (sha : Bytes → Bytes) (s : Receiving) : ReceiveAct → Receiving → Prop where
  | session {sid : Bytes} {a : PartyAct} {s' : Receiving} (moved : s.advance sha sid a = some s') :
      Move sha s (.session sid a) s'
  | cancel {sid : Bytes} {s' : Receiving}
      (moved : s.advance sha sid (.here (.cancel (ascii "user"))) = some s') : Move sha s .cancel s'
  | cancelPending (pending : s.current = none) : Move sha s .cancel s.cancelPending
  | still {a : ReceiveAct} : Move sha s a s
  /-- Only the receive changes, and it is cancelled neither before nor after. -/
  | receive {a : ReceiveAct} {r : Receive} {current : Option Bytes} (before : ¬ s.Cancelled)
      (after : r.state ≠ .transfer .cancelled) :
      Move sha s a { s with receive := r, current := current }
  | connect {a : ReceiveAct} {s₁ : Receiving} {sid token metaJson : Bytes}
      (listening : s.receive.active = true ∨ s.claiming = true)
      (base : s₁ = s ∨ ∃ e, s.sessions[sid]? = some e ∧ s₁ = s.dropTransfer sid e) :
      Move sha s a (s₁.connect sid token metaJson)
  | drop {a : ReceiveAct} {sid : Bytes} {e : Linked} (entry : s.sessions[sid]? = some e) :
      Move sha s a (s.dropTransfer sid e)
  | save {stored : Option Receive} : Move sha s .save { s with stored := stored }
  | reload {r : Receive} : Move sha s .reload
      { receive := Core.loadReceive r
        disk := s.disk
        stored := s.stored
        files := s.files
        verified := s.verified }

theorem not_cancelled_of_keysOf {s : Receiving} (h : s.receive.keysOf = false) : ¬ s.Cancelled := by
  intro hs
  simp [Receive.keysOf, show s.receive.state = .transfer .cancelled from hs] at h

theorem not_cancelled_of_claiming {s : Receiving} (h : s.claiming = true) : ¬ s.Cancelled := by
  intro hs
  simp [claiming, show s.receive.state = .transfer .cancelled from hs] at h

theorem step_move {a : ReceiveAct} (h : s.step sha a = some s') : Move sha s a s' := by
  unfold step at h
  split at h
  · cases h
  · cases a with
    | resume =>
      cases h
      split
      · exact .still
      · rename_i hopen
        simp only [Bool.or_eq_true, not_or, Bool.not_eq_true] at hopen
        exact .receive (not_cancelled_of_keysOf hopen.2) (by simp)
    | restart id dir =>
      simp only [act] at h
      split at h
      · rename_i hreusable
        cases h
        simp only [Core.reusable, Bool.and_eq_true, Bool.not_eq_true'] at hreusable
        exact .receive (not_cancelled_of_keysOf hreusable.2) (by simp [startClaim])
      · cases h
    | claimed sid token =>
      simp only [act] at h
      split at h
      · rename_i hclaiming
        cases h
        exact .receive (not_cancelled_of_claiming hclaiming) (by simp)
      · cases h
    | tokenRefused =>
      simp only [act] at h
      split at h
      · rename_i hclaiming
        cases h
        exact .receive (not_cancelled_of_claiming hclaiming) (not_cancelled_of_claiming hclaiming)
      · cases h
    | failed code message =>
      simp only [act] at h
      split at h
      · rename_i hstate
        cases h
        refine .receive (fun hs => ?_) (by simp)
        simp [show s.receive.state = .transfer .cancelled from hs] at hstate
      · cases h
    | connecting sid token metaJson =>
      simp only [act] at h
      split at h
      · rename_i hlistens
        have listening : s.receive.active = true ∨ s.claiming = true := by
          simp only [Bool.or_eq_true, Bool.and_eq_true] at hlistens
          exact hlistens.imp And.left id
        split at h
        · cases h
          exact .connect listening (.inl rfl)
        · rename_i e he
          split at h
          · cases h
            exact .still
          · split at h
            · cases h
              exact .connect listening (.inr ⟨e, he, rfl⟩)
            · cases h
              exact .drop he
      · cases h
    | connected sid =>
      cases h
      split
      · rename_i hwaits
        simp only [Bool.and_eq_true, beq_iff_eq] at hwaits
        refine .receive (fun hs => ?_) (by simp)
        simp [show s.receive.state = .transfer .cancelled from hs] at hwaits
      · exact .still
    | session sid a => exact .session h
    | drop sid =>
      obtain ⟨e, he, h⟩ := Option.bind_eq_some_iff.mp h
      split at h
      · cases h
        exact .drop he
      · cases h
    | cancel =>
      simp only [act] at h
      split at h
      · split at h
        · exact .cancel h
        · cases h
          exact .still
      · rename_i hnone
        cases h
        exact .cancelPending hnone
    | save =>
      cases h
      exact .save
    | reload =>
      obtain ⟨r, -, rfl⟩ := Option.map_eq_some_iff.mp h
      exact .reload

theorem sound_step {a : ReceiveAct} (sound : s.AllSound) (h : s.step sha a = some s') :
    s'.AllSound := by
  cases step_move h with
  | session moved => exact sound_advance sound moved
  | cancel moved => exact sound_advance sound moved
  | cancelPending => exact sound_receive sound _ _
  | still => exact sound
  | receive => exact sound_receive sound _ _
  | connect listening base =>
    obtain rfl | ⟨e, he, rfl⟩ := base
    · exact sound_connect sound
    · exact sound_connect (sound_dropTransfer sound he)
  | drop entry => exact sound_dropTransfer sound entry
  | save => exact fun sid e he => (sound sid e he).mono (fun _ h => h) fun _ h => h
  | reload =>
    intro sid e he
    simp at he

/-! ## Cancelling -/

/-- A cancelled receive, with nothing of it running or left. -/
structure Settled (s : Receiving) : Prop where
  closed : Closed s.receive
  ended : ∀ (sid : Bytes) (e : Linked), s.sessions[sid]? = some e → Over e.party
  clean : ∀ final, ¬ s.Left final

/-- A step after which the disk is as before, and no more files are verified. -/
structure Same (s s' : Receiving) : Prop where
  disk : s'.disk = s.disk
  verified : ∀ final ∈ s'.verified, final ∈ s.verified

theorem settled_advance {sid : Bytes} {a : PartyAct} (settled : s.Settled) (sound : s.AllSound)
    (h : s.advance sha sid a = some s')
    (noOffer : ∀ e, s.sessions[sid]? = some e → ∀ io j, a = .ctrl io (.offer j) →
      e.party.session.receiver ≠ none) : s'.Settled ∧ Same s s' := by
  obtain ⟨e, p, he, hp, rfl⟩ := advance_some h
  obtain ⟨hreceives, hfiles, hverified⟩ := sound sid e he
  have hover : Over (s.onDisk e) :=
    ⟨(settled.ended sid e he).terminal, (settled.ended sid e he).free, (settled.ended sid e he).exited⟩
  obtain ⟨hover', hfs, calls, -, hrecords⟩ :=
    hover.step (sound sid e he).onDisk hp fun io j => noOffer e he io j
  have hdisk : p.fs = s.disk := hfs
  have hfilesOf : filesOf p = filesOf e.party := calls.files
  have hverifiedOf : verifiedOf p = verifiedOf e.party := calls.verified
  refine ⟨⟨?_, fun sid' e' he' => ?_, fun final hleft => ?_⟩, hdisk, fun final hfinal => ?_⟩
  · exact foldl_hear_closed settled.closed (by simp [hrecords])
  · rw [OrderedMap.get_insert] at he'
    split at he'
    · cases he'
      exact hover'
    · exact settled.ended sid' e' he'
  · obtain ⟨hmem, hnot, hregular⟩ := hleft
    simp only [List.mem_union_iff, hfilesOf, hverifiedOf, not_or, hdisk] at hmem hnot hregular
    refine settled.clean final ⟨?_, hnot.1, hregular⟩
    exact hmem.elim id (hfiles final)
  · simp only [List.mem_union_iff, hverifiedOf] at hfinal
    exact hfinal.elim id (hverified final)

theorem settled_dropTransfer {sid : Bytes} {e : Linked} (settled : s.Settled)
    (he : s.sessions[sid]? = some e) : (s.dropTransfer sid e).Settled ∧ Same s (s.dropTransfer sid e) := by
  have hidle : idle e.party = true := by
    have hexited := (settled.ended sid e he).exited
    cases hr : e.party.session.receiver with
    | none => simp [idle, hr]
    | some t => simpa [idle, hr] using hexited t hr
  simp only [dropTransfer, hidle, if_true]
  refine ⟨⟨settled.closed, fun sid' e' he' => ?_, settled.clean⟩, rfl, fun _ h => h⟩
  rw [OrderedMap.get_erase] at he'
  split at he'
  · cases he'
  · exact settled.ended sid' e' he'

/-- A cancelled receive stays as it is. -/
theorem settled_step {a : ReceiveAct} (settled : s.Settled) (sound : s.AllSound)
    (cleans : s.CleansUp a) (h : s.step sha a = some s') (hs' : s'.Cancelled) :
    s'.Settled ∧ Same s s' := by
  have hs : s.Cancelled := settled.closed.state
  cases step_move h with
  | session moved =>
    exact settled_advance settled sound moved fun e he io j hj => (cleans e he).2 hs io j hj
  | cancel moved => exact settled_advance settled sound moved (by simp)
  | cancelPending =>
    exact ⟨⟨⟨rfl, rfl, rfl⟩, settled.ended, settled.clean⟩, rfl, fun _ h => h⟩
  | still => exact ⟨settled, rfl, fun _ h => h⟩
  | receive before => exact absurd hs before
  | connect listening =>
    obtain hactive | hclaiming := listening
    · rw [settled.closed.inactive] at hactive
      cases hactive
    · exact absurd hs (not_cancelled_of_claiming hclaiming)
  | drop entry => exact settled_dropTransfer settled entry
  | save => exact ⟨⟨settled.closed, settled.ended, settled.clean⟩, rfl, fun _ h => h⟩
  | reload => cases hs'

theorem files_cleanup {final : Path} (h : (t.cleanup fs).isRegular final = true) :
    fs.isRegular final = true ∧ ∀ f ∈ t.rx, f.verified = false → f.partPath ≠ final := by
  simp only [FileSystem.isRegular, link_cleanup] at h ⊢
  split at h
  · cases h
  · rename_i hnone
    exact ⟨h, fun f hf hunverified heq => hnone ⟨f, hf, hunverified, heq⟩⟩

theorem read_cleanup {final : Path} (h : ∀ f ∈ t.rx, f.verified = false → f.partPath ≠ final) :
    (t.cleanup fs).read final = fs.read final := by
  have hnone : ¬ ∃ f ∈ t.rx, f.verified = false ∧ f.partPath = final :=
    fun ⟨f, hf, hunverified, heq⟩ => h f hf hunverified heq
  simp [FileSystem.read, link_cleanup, data_cleanup, hnone]

/-- Closing the writers leaves the paths of the files. -/
theorem rx_closeWriters {t : Receiver} {f : FileRx} (hf : f ∈ t.closeWriters.rx) :
    ∃ f₀ ∈ t.rx, f₀.verified = f.verified ∧ f₀.partPath = f.partPath := by
  obtain ⟨f₀, hf₀, rfl⟩ := List.mem_map.mp hf
  exact ⟨f₀, hf₀, rfl, rfl⟩

/-- The session that cancels the receive. -/
theorem cancelled_advance {sid : Bytes} {a : PartyAct} (sound : s.AllSound)
    (h : s.advance sha sid a = some s') (hs : ¬ s.Cancelled) (hs' : s'.Cancelled) :
    a = .here .stopped ∧ s.receive.active = true ∧ s.receive.sessionId = sid ∧ Closed s'.receive ∧
      ∃ (e : Linked) (p : Party) (k : AfterStop), s.sessions[sid]? = some e ∧
        (s.onDisk e).step sha a = some p ∧ e.party.session.stopping = some k ∧
        (k = .cancel ∨ k = .peerCancel) ∧ s'.sessions = s.sessions.insert sid { e with party := p } ∧
        s'.disk = p.fs ∧ s'.files = s.files ∪ filesOf p ∧ s'.verified = s.verified ∪ verifiedOf p := by
  obtain ⟨e, p, he, hp, rfl⟩ := advance_some h
  have recv := (sound sid e he).onDisk
  have turned := Party.step_turned recv.waits hp
  obtain ⟨hmem, hactive, hsid, hclosed⟩ := foldl_hear_cancelled hs hs'
  have hturn : p.session.state = .cancelled ∧ (s.onDisk e).session.state ≠ .cancelled ∧
      ∀ record, some record ∉ recordsOf ((s.onDisk e).events sha a) := by
    have turn := turned.turn
    generalize hstate : (s.onDisk e).session.state = state, p.session.state = state',
      statesOf ((s.onDisk e).events sha a) = said, recordsOf ((s.onDisk e).events sha a) = saved
      at turn hmem ⊢
    have hne (running : state.terminal = false) : state ≠ .cancelled := by
      rintro rfl
      cases running
    cases turn with
    | still => cases hmem
    | moved running =>
      obtain rfl := List.mem_singleton.mp hmem
      exact ⟨rfl, hne running, by simp⟩
    | cleared running =>
      obtain rfl := List.mem_singleton.mp hmem
      exact ⟨rfl, hne running, by simp⟩
    | saved running => cases hmem
  obtain hbefore | ⟨rfl, hk⟩ := turned.cancelled hturn.1
  · exact absurd hbefore hturn.2.1
  · have hk : ∃ k, e.party.session.stopping = some k ∧ (k = .cancel ∨ k = .peerCancel) := by
      obtain hk | hk := hk
      · exact ⟨_, hk, .inl rfl⟩
      · exact ⟨_, hk, .inr rfl⟩
    obtain ⟨k, hk, hcancel⟩ := hk
    exact ⟨rfl, hactive, hsid, hclosed hturn.2.2, e, p, k, he, hp, hk, hcancel, rfl, rfl, rfl, rfl⟩

/-- The step that cancels a receive leaves nothing behind. -/
theorem cancelled_session {sid : Bytes} {a : PartyAct} (sound : s.AllSound)
    (cleans : s.CleansUp (.session sid a)) (h : s.advance sha sid a = some s') (hs : ¬ s.Cancelled)
    (hs' : s'.Cancelled) :
    s'.Settled ∧ ∀ final ∈ s'.verified, s'.disk.read final = s.disk.read final := by
  obtain ⟨rfl, hactive, hsid, hclosed, e, p, k, he, hp, hk, hcancel, hsessions, hdisk, hfiles,
    hverified⟩ := cancelled_advance sound h hs hs'
  obtain ⟨hlocal, hpeer⟩ := (cleans e he).1 rfl hactive hsid
  obtain ⟨hover, calls, -, hcleanup, hkept, -⟩ :=
    stopped_cancelled (sound sid e he).onDisk hk hcancel hp
  have hfiles' (final : Path) (h : final ∈ s'.files) : final ∈ s.files := by
    rw [hfiles, List.mem_union_iff, calls.files] at h
    exact h.elim id ((sound sid e he).files final)
  have hverified' (final : Path) : final ∈ s'.verified ↔ final ∈ s.verified := by
    rw [hverified, List.mem_union_iff, calls.verified]
    exact ⟨fun h => h.elim id ((sound sid e he).verified final), .inl⟩
  have hended (others : s.OthersOver sid) (sid' : Bytes) (e' : Linked)
      (he' : s'.sessions[sid']? = some e') : Over e'.party := by
    rw [hsessions, OrderedMap.get_insert] at he'
    split at he'
    · cases he'
      exact hover
    · rename_i hne
      exact others sid' e' hne he'
  -- Cancelled here, the files are removed; cancelled by the peer, there has to be none.
  obtain rfl | rfl := hcancel
  · obtain ⟨others, removes⟩ := hlocal hk
    have hdisk' := hdisk.trans (hcleanup rfl)
    cases hr : e.party.session.receiver with
    | none =>
      have hsame : s'.disk = s.disk := by
        rw [hdisk', show (s.onDisk e).session.receiver = none from hr]
        rfl
      refine ⟨⟨hclosed, hended others, fun final hleft => ?_⟩, fun final _ => by rw [hsame]⟩
      obtain ⟨t, f, ht, -⟩ := removes.all final ⟨hfiles' final hleft.1,
        fun h => hleft.2.1 ((hverified' final).mpr h), hsame ▸ hleft.2.2⟩
      rw [hr] at ht
      cases ht
    | some t =>
      have hclean : s'.disk = t.closeWriters.cleanup s.disk := by
        rw [hdisk', show (s.onDisk e).session.receiver = some t from hr]
        rfl
      refine ⟨⟨hclosed, hended others, fun final hleft => ?_⟩, fun final hfinal => ?_⟩
      · obtain ⟨hmem, hnot, hregular⟩ := hleft
        rw [hclean] at hregular
        obtain ⟨hbefore, hne⟩ := files_cleanup hregular
        obtain ⟨t', f, ht', hf, hunverified, hpath⟩ := removes.all final ⟨hfiles' final hmem,
          fun h => hnot ((hverified' final).mpr h), hbefore⟩
        obtain rfl := Option.some.inj (hr.symm.trans ht')
        exact hne { f with writer := none } (List.mem_map.mpr ⟨f, hf, rfl⟩) hunverified hpath
      · rw [hclean]
        apply read_cleanup
        intro f hf hunverified hpath
        obtain ⟨f₀, hf₀, hsame, hpath₀⟩ := rx_closeWriters hf
        apply removes.only t f₀ hr hf₀ (hsame.trans hunverified)
        rw [hpath₀, hpath]
        exact (hverified' final).mp hfinal
  · obtain ⟨others, hnone⟩ := hpeer hk
    have hsame : s'.disk = s.disk := hdisk.trans (hkept rfl)
    refine ⟨⟨hclosed, hended others, fun final hleft => hnone final ?_⟩, fun final _ => by rw [hsame]⟩
    exact ⟨hfiles' final hleft.1, fun h => hleft.2.1 ((hverified' final).mpr h), hsame ▸ hleft.2.2⟩

theorem dropTransfer_receive (s : Receiving) (sid : Bytes) (e : Linked) :
    (s.dropTransfer sid e).receive = s.receive := by
  unfold dropTransfer
  split <;> rfl

theorem cancelled_step {a : ReceiveAct} (sound : s.AllSound) (cleans : s.CleansUp a)
    (h : s.step sha a = some s') (hs : ¬ s.Cancelled) (hs' : s'.Cancelled) :
    s'.Settled ∧ ∀ final ∈ s'.verified, s'.disk.read final = s.disk.read final := by
  cases step_move h with
  | session moved => exact cancelled_session sound cleans moved hs hs'
  | cancel moved =>
    -- `Cancel` only starts to wait
    obtain ⟨hstopped, -⟩ := cancelled_advance sound moved hs hs'
    cases hstopped
  | cancelPending pending =>
    obtain ⟨ended, clean⟩ := cleans pending hs
    exact ⟨⟨⟨rfl, rfl, rfl⟩, ended, clean⟩, fun _ _ => rfl⟩
  | still => exact absurd hs' hs
  | receive _ after => exact absurd hs' after
  | connect => cases hs'
  | drop =>
    rw [Cancelled, dropTransfer_receive] at hs'
    exact absurd hs' hs
  | save => exact absurd hs' hs
  | reload => cases hs'

end Receiving

/-! ## Runs -/

open Receiving in
/-- If every step that cancels the receive cleans up, a receive that ends cancelled has left no part
    file and no record, and its verified files are untouched. -/
theorem cancelCleans_run {id code dir : Bytes} {now : Int} {disk : Fs} {as : List ReceiveAct}
    (run : (receiving sha id code dir now disk).Run CleansUp as s) (hs : s.Cancelled) :
    Cleaned (receiving sha id code dir now disk) as s := by
  have all : s.AllSound ∧ (s.Cancelled → s.Settled ∧
      ∃ t a t', (receiving sha id code dir now disk).Took as t a t' ∧ ¬ t.Cancelled ∧
        t'.Cancelled ∧ ∀ final ∈ s.verified, s.disk.read final = t.disk.read final) := by
    refine run.history (fun as s => s.AllSound ∧ (s.Cancelled → s.Settled ∧
      ∃ t a t', (receiving sha id code dir now disk).Took as t a t' ∧ ¬ t.Cancelled ∧
        t'.Cancelled ∧ ∀ final ∈ s.verified, s.disk.read final = t.disk.read final)) ?_ ?_
    · refine ⟨fun sid e he => ?_, fun h => ?_⟩
      · simp [receiving] at he
      · cases h
    · intro as s a s' hrun ⟨sound, hcancelled⟩ cleans hstep
      refine ⟨sound_step sound hstep, fun hs' => ?_⟩
      by_cases hs : s.Cancelled
      · obtain ⟨settled, t, b, t', htook, ht, ht', hread⟩ := hcancelled hs
        obtain ⟨settled', same⟩ := settled_step settled sound cleans hstep hs'
        refine ⟨settled', t, b, t', htook.mono (List.prefix_append ..), ht, ht', ?_⟩
        intro final hfinal
        rw [same.disk]
        exact hread final (same.verified final hfinal)
      · obtain ⟨settled', hread⟩ := cancelled_step sound cleans hstep hs hs'
        exact ⟨settled', s, a, s', (hrun.mono fun _ _ _ => trivial).took hstep, hs, hs', hread⟩
  obtain ⟨settled, huntouched⟩ := all.2 hs
  exact ⟨settled.closed.record, settled.clean, huntouched⟩

end

/-! ## A file of one byte -/

/-- A sufficient test for `CleansUp`: only the `Cancel` of a single session, before a file is
    verified. -/
def Receiving.tidy (s : Receiving) : ReceiveAct → Bool
  | .session sid a => (s.sessions[sid]?).all fun e =>
      decide (s.receive.state ≠ .transfer .cancelled) &&
        match a with
        | .here .stopped => e.party.session.stopping == some .cancel &&
            s.sessions.toList.all (fun x => x.1 == sid) && s.verified.isEmpty &&
            s.files.all fun final => e.party.session.receiver.any fun t =>
              t.rx.any fun f => !f.verified && f.partPath == partPath final
        | _ => true
  | .cancel => s.current.isSome
  | _ => true

theorem Receiving.cleansUp_of_tidy {s : Receiving} {a : ReceiveAct} (h : s.tidy a = true) :
    s.CleansUp a := by
  cases a with
  | session sid a =>
    intro e he
    simp only [tidy, he, Option.all_some, Bool.and_eq_true, decide_eq_true_eq] at h
    obtain ⟨hrunning, h⟩ := h
    refine ⟨fun ha _ _ => ?_, fun hcancelled => absurd hcancelled hrunning⟩
    subst ha
    simp only [Bool.and_eq_true, beq_iff_eq, List.all_eq_true, List.isEmpty_iff] at h
    obtain ⟨⟨⟨hcancel, honly⟩, hverified⟩, hfiles⟩ := h
    refine ⟨fun _ => ⟨fun sid' e' hne he' => ?_, ?_, ?_⟩, by simp [hcancel]⟩
    · exact absurd (honly _ (Std.ExtTreeMap.mem_toList_iff_getElem?_eq_some.mpr he')) hne
    · intro final hleft
      have hpart := hfiles final hleft.1
      cases hr : e.party.session.receiver with
      | none => simp [hr] at hpart
      | some t =>
        simp only [hr, Option.any_some, List.any_eq_true, Bool.and_eq_true, Bool.not_eq_true',
          beq_iff_eq] at hpart
        obtain ⟨f, hf, hpart⟩ := hpart
        exact ⟨t, f, rfl, hf, hpart.1, hpart.2⟩
    · simp [hverified]
  | cancel =>
    intro hnone
    simp [tidy, hnone] at h
  | resume | restart | claimed | tokenRefused | failed | connecting | connected | drop | save
  | reload => trivial

/-- A receive of a one-byte file, up to the offer. -/
def oneByteOffered : List ReceiveAct :=
  [.claimed (ascii "x1") [], .connecting (ascii "x1") [] [], .session (ascii "x1") (.here .ready),
    .session (ascii "x1") (.ctrl calmOfferIo (.offer oneByteManifest.toJson))]

/-- The engine's thread ends, and the method that waited for it goes on. -/
def threadEnds : List ReceiveAct :=
  [.session (ascii "x1") (.here (.writerThread calmIo)), .session (ascii "x1") (.here .stopped)]

def oneByteReceive : Machine Receiving ReceiveAct :=
  receiving (fun _ => []) (ascii "rx") (ascii "code") (ascii "save") 0 .empty

/-- The part file of the receive. -/
def oneBytePart : Path := partPath [ascii "save", ascii "a"]

/-- `TransferCancel` while the transfer is running. -/
theorem cancelCleans_oneByte : ∃ s, s.Cancelled ∧ s.files = [[ascii "save", ascii "a"]] ∧
    Cleaned oneByteReceive (oneByteOffered ++ .cancel :: threadEnds) s := by
  have hfacts : ((oneByteReceive.exec (oneByteOffered ++ .cancel :: threadEnds) oneByteReceive.init).map
        fun s => (s.receive.state, s.files)) =
        some (.transfer .cancelled, [[ascii "save", ascii "a"]]) ∧
      oneByteReceive.passes Receiving.tidy (oneByteOffered ++ .cancel :: threadEnds)
        oneByteReceive.init = true := by
    decide +kernel
  obtain ⟨s, hexec, hs⟩ := Option.map_eq_some_iff.mp hfacts.1
  rw [Prod.mk.injEq] at hs
  have run := Machine.Run.of_passes (fun _ _ => Receiving.cleansUp_of_tidy) hexec hfacts.2
  exact ⟨s, hs.1, hs.2, cancelCleans_run run hs.1⟩

/-- The sender cancels: the part file stays. -/
theorem not_cancelCleans : ¬ ∀ (sha : Bytes → Bytes) (id code dir : Bytes) (now : Int) (disk : Fs)
    (as : List ReceiveAct) (s : Receiving),
    (receiving sha id code dir now disk).Run Machine.anyStep as s → s.Cancelled →
      Cleaned (receiving sha id code dir now disk) as s := by
  intro h
  have hfacts : ((oneByteReceive.exec
      (oneByteOffered ++ .session (ascii "x1") (.ctrl calmOfferIo (.cancel [])) :: threadEnds)
      oneByteReceive.init).map fun s =>
        (s.receive.state, s.files, s.verified.isEmpty, s.disk.isRegular oneBytePart)) =
      some (.transfer .cancelled, [[ascii "save", ascii "a"]], true, true) := by
    decide +kernel
  obtain ⟨s, hexec, hs⟩ := Option.map_eq_some_iff.mp hfacts
  simp only [Prod.mk.injEq] at hs
  obtain ⟨hstate, hfiles, hverified, hpart⟩ := hs
  have cleaned := h _ _ _ _ _ _ _ s (Machine.run_of_exec hexec) hstate
  apply cleaned.noParts [ascii "save", ascii "a"]
  refine ⟨by simp [hfiles], ?_, hpart⟩
  rw [List.isEmpty_iff.mp hverified]
  exact List.not_mem_nil

end CrossTransfer.Api
