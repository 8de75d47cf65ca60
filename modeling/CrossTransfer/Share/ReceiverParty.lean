import CrossTransfer.Share.SenderParty
import CrossTransfer.Transfer.ReceiverRun

/-! # The receiving party

`ReceiverMove` lists what an action can do to a receiving party; `receiverMove` says that the
list is complete.
-/

namespace CrossTransfer.Share

open CrossTransfer.Library
open CrossTransfer.Transfer

/-- The control messages a callback of the engine sends. -/
def rxTells : RxEvent → List CtrlMsg
  | .fileOk index => [.fileOk index]
  | .fileBad index reason => [.fileBad index reason]
  | _ => []

/-- Control messages that say nothing about a file. -/
def CtrlMsg.aside : CtrlMsg → Bool
  | .pause | .resume | .cancel _ | .error _ _ => true
  | _ => false

/-- The engine, possibly told to stop. -/
def Stopped (t t' : Receiver) : Prop := t' = t ∨ t' = t.requestStop

/-- What every action on a receiving party keeps. -/
structure RecvFrame (p : Party) (a : PartyAct) (p' : Party) : Prop where
  role : p'.session.isSender = false
  sender : p'.session.sender = none
  saveDir : p'.session.saveDir = p.session.saveDir
  received : p'.received = p.received ++ a.delivered
  txLog : p'.txLog = p.txLog

/-- What an action that starts no engine keeps. -/
structure RecvSame (p p' : Party) : Prop where
  manifest : p'.session.manifest = p.session.manifest
  names : p'.session.names = p.session.names
  record : p'.session.record = p.session.record

/-- The session does not complete by this action. -/
def Party.NotYet (p p' : Party) : Prop :=
  p'.session.senderConfirmed = p.session.senderConfirmed ∧
    (p'.session.state = .completed → p.session.state = .completed)

/-- The effects of an action on a receiving party. -/
inductive ReceiverMove (sha : Bytes → Bytes) (p : Party) : PartyAct → Party → Prop where
  /-- The engine is left alone or told to stop. -/
  | other {a : PartyAct} {p' : Party} {msgs : List CtrlMsg} (frame : RecvFrame p a p')
      (same : RecvSame p p') (engine : Option.Rel Stopped p.session.receiver p'.session.receiver)
      (fs : p'.fs = p.fs) (sent : p'.sent = p.sent ++ msgs) (aside : ∀ msg ∈ msgs, msg.aside = true)
      (rxLog : p'.rxLog = p.rxLog) (ran : p'.ran = p.ran) (state : p.NotYet p') :
      ReceiverMove sha p a p'
  /-- A callback of the engine runs. -/
  | task {p' : Party} {e : RxEvent} (frame : RecvFrame p (.here .task) p') (same : RecvSame p p')
      (event : p.rxTasks[p.ran]? = some e)
      (engine : Option.Rel Stopped p.session.receiver p'.session.receiver)
      (fs : p'.fs = p.fs) (sent : p'.sent = p.sent ++ rxTells e) (rxLog : p'.rxLog = p.rxLog)
      (ran : p'.ran = p.ran + 1)
      (confirmed : p'.session.senderConfirmed = p.session.senderConfirmed)
      (completed : p'.session.state = .completed → p.session.state = .completed ∨
        e = .allDone ∧ p.session.senderConfirmed = true) :
      ReceiverMove sha p (.here .task) p'
  /-- An offer is accepted and the engine started. -/
  | offer {io : OfferIo} {j : Json} {p' : Party} {m : Manifest} {dir : Path} {t : Receiver}
      {runs : List (UInt16 × List SackRun)}
      (frame : RecvFrame p (.ctrl io (.offer j)) p') (idle : p.session.receiver = none)
      (parsed : Manifest.fromJson j = .ok m) (saveDir : p.session.saveDir = some dir)
      (manifest : p'.session.manifest = m)
      (record : p'.session.record = p.session.matchingRecord sha m)
      (names : p'.session.names = chooseNames
        (TransferSession.reusedNames (p.session.matchingRecord sha m))
        (fun n => p.fs.pathExists (dir ++ [n])) io.rd m.roots)
      (start : Receiver.start io.start m dir p'.session.names
        ((p.session.matchingRecord sha m).elim [] (·.files)) p.fs = (p'.fs, t, none))
      (haveRuns : t.haveRuns = some runs) (engine : p'.session.receiver = some t)
      (sent : p'.sent = p.sent ++ [.accept (TransferSession.acceptFiles t.verifiedFiles runs)])
      (rxLog : p'.rxLog = p.rxLog) (ran : p'.ran = p.ran) (state : p.NotYet p') :
      ReceiverMove sha p (.ctrl io (.offer j)) p'
  /-- An offer is accepted and the engine fails to start. -/
  | noStart {io : OfferIo} {j : Json} {p' : Party} {m : Manifest} {dir : Path} {t t' : Receiver}
      {msg : Bytes} (frame : RecvFrame p (.ctrl io (.offer j)) p')
      (idle : p.session.receiver = none) (parsed : Manifest.fromJson j = .ok m)
      (saveDir : p.session.saveDir = some dir) (manifest : p'.session.manifest = m)
      (record : p'.session.record = p.session.matchingRecord sha m)
      (names : p'.session.names = chooseNames
        (TransferSession.reusedNames (p.session.matchingRecord sha m))
        (fun n => p.fs.pathExists (dir ++ [n])) io.rd m.roots)
      (start : Receiver.start io.start m dir p'.session.names
        ((p.session.matchingRecord sha m).elim [] (·.files)) p.fs = (p'.fs, t, some msg))
      (engine : p'.session.receiver = some t') (stopped : Stopped t t')
      (sent : p'.sent = p.sent) (rxLog : p'.rxLog = p.rxLog) (ran : p'.ran = p.ran)
      (state : p.NotYet p') : ReceiverMove sha p (.ctrl io (.offer j)) p'
  /-- An offer is parsed and there is nowhere to save it. -/
  | noSaveDir {io : OfferIo} {j : Json} {p' : Party} (frame : RecvFrame p (.ctrl io (.offer j)) p')
      (idle : p.session.receiver = none) (idle' : p'.session.receiver = none)
      (fs : p'.fs = p.fs) (sent : p'.sent = p.sent) (rxLog : p'.rxLog = p.rxLog)
      (ran : p'.ran = p.ran) (state : p.NotYet p') : ReceiverMove sha p (.ctrl io (.offer j)) p'
  | fileDone {io : OfferIo} {index : UInt16} {hash : Bytes} {p' : Party}
      (frame : RecvFrame p (.ctrl io (.fileDone index hash)) p') (same : RecvSame p p')
      (engine : p'.session.receiver = p.session.receiver.map (·.onFileDone index hash))
      (fs : p'.fs = p.fs) (sent : p'.sent = p.sent) (rxLog : p'.rxLog = p.rxLog)
      (ran : p'.ran = p.ran) (state : p.NotYet p') :
      ReceiverMove sha p (.ctrl io (.fileDone index hash)) p'
  | block {wire : Bytes} {p' : Party} (frame : RecvFrame p (.block wire) p') (same : RecvSame p p')
      (engine : p'.session.receiver = p.session.receiver.map (·.onBlock wire))
      (fs : p'.fs = p.fs) (sent : p'.sent = p.sent) (rxLog : p'.rxLog = p.rxLog)
      (ran : p'.ran = p.ran) (state : p.NotYet p') : ReceiverMove sha p (.block wire) p'
  | thread {io : Io} {p' : Party} {t t' : Receiver} {out : List RxEvent}
      (frame : RecvFrame p (.here (.writerThread io)) p') (same : RecvSame p p')
      (engine : p.session.receiver = some t)
      (step : t.writerStep sha io p.fs = some (t', p'.fs, out))
      (engine' : p'.session.receiver = some t') (sent : p'.sent = p.sent)
      (rxLog : p'.rxLog = p.rxLog ++ out) (ran : p'.ran = p.ran) (state : p.NotYet p') :
      ReceiverMove sha p (.here (.writerThread io)) p'
  /-- `transfer_done` arrives. -/
  | confirmed {io : OfferIo} {p' : Party} (frame : RecvFrame p (.ctrl io .transferDone) p')
      (same : RecvSame p p') (engine : p'.session.receiver = p.session.receiver)
      (fs : p'.fs = p.fs) (sent : p'.sent = p.sent) (rxLog : p'.rxLog = p.rxLog)
      (ran : p'.ran = p.ran) (settled : p'.session.senderConfirmed = true)
      (completed : p'.session.state = .completed → p.session.state = .completed ∨
        p.session.receiverFinished = true) :
      ReceiverMove sha p (.ctrl io .transferDone) p'
  /-- The sender left after the engine finished. -/
  | ended {reason : Bytes} {p' : Party} (frame : RecvFrame p (.here (.sessionEnd reason)) p')
      (same : RecvSame p p') (why : reason = ascii "share_closed" ∨ reason = ascii "peer_left")
      (finished : p.session.receiverFinished = true)
      (engine : p'.session.receiver = p.session.receiver) (fs : p'.fs = p.fs)
      (sent : p'.sent = p.sent) (rxLog : p'.rxLog = p.rxLog) (ran : p'.ran = p.ran)
      (settled : p'.session.senderConfirmed = true) :
      ReceiverMove sha p (.here (.sessionEnd reason)) p'
  /-- The method that stopped the engine goes on. -/
  | stopped {p' : Party} {msgs : List CtrlMsg} (frame : RecvFrame p (.here .stopped) p')
      (same : RecvSame p p') (exited : ∀ t, p.session.receiver = some t → t.pc = .exited)
      (engine : p'.session.receiver = p.session.receiver.map Receiver.closeWriters)
      (fs : p'.fs = p.fs ∨ ∃ t, p'.session.receiver = some t ∧ p'.fs = t.cleanup p.fs)
      (sent : p'.sent = p.sent ++ msgs) (aside : ∀ msg ∈ msgs, msg.aside = true)
      (rxLog : p'.rxLog = p.rxLog) (ran : p'.ran = p.ran) (state : p.NotYet p') :
      ReceiverMove sha p (.here .stopped) p'

/-! ## The methods of the session -/

namespace TransferSession

/-- A method of a receiving session that starts no engine and completes nothing. -/
structure RecvCalm (s s' : TransferSession) (out : List SessionEvent) : Prop where
  role : s'.isSender = s.isSender
  sender : s.sender = none → s'.sender = none
  saveDir : s'.saveDir = s.saveDir
  manifest : s'.manifest = s.manifest
  names : s'.names = s.names
  record : s'.record = s.record
  engine : Option.Rel Stopped s.receiver s'.receiver
  confirmed : s'.senderConfirmed = s.senderConfirmed
  completed : s'.state = .completed → s.state = .completed
  aside : ∀ msg, .ctrl msg ∈ out → msg.aside = true

variable {s s' : TransferSession} {out : List SessionEvent}

theorem rel_stopped_refl (t : Option Receiver) : Option.Rel Stopped t t := by
  cases t with
  | none => exact .none
  | some t => exact .some (.inl rfl)

theorem rel_stopped_map (t : Option Receiver) : Option.Rel Stopped t (t.map Receiver.requestStop) := by
  cases t with
  | none => exact .none
  | some t => exact .some (.inr rfl)

theorem rel_stopped_none {r : Option Receiver} (h : Option.Rel Stopped none r) : r = none := by
  cases h
  rfl

theorem rel_stopped_some {t : Receiver} {r : Option Receiver} (h : Option.Rel Stopped (some t) r) :
    ∃ t', r = some t' ∧ Stopped t t' := by
  cases h with
  | some hn => exact ⟨_, rfl, hn⟩

theorem RecvCalm.trans {s'' : TransferSession} {out' : List SessionEvent} (h : RecvCalm s s' out)
    (h' : RecvCalm s' s'' out') : RecvCalm s s'' (out ++ out') where
  role := h'.role.trans h.role
  sender := fun hs => h'.sender (h.sender hs)
  saveDir := h'.saveDir.trans h.saveDir
  manifest := h'.manifest.trans h.manifest
  names := h'.names.trans h.names
  record := h'.record.trans h.record
  engine := by
    have first := h.engine
    have second := h'.engine
    revert first second
    generalize s.receiver = t, s'.receiver = t', s''.receiver = t''
    intro first second
    cases first with
    | none => exact second
    | some hn =>
      cases second with
      | some hn' =>
        obtain rfl | rfl := hn
        · exact .some hn'
        · obtain rfl | rfl := hn'
          · exact .some (.inr rfl)
          · exact .some (.inr rfl)
  confirmed := h'.confirmed.trans h.confirmed
  completed := fun hc => h.completed (h'.completed hc)
  aside := fun msg hmsg => by
    obtain hmsg | hmsg := List.mem_append.mp hmsg
    · exact h.aside msg hmsg
    · exact h'.aside msg hmsg

/-- Fields that `RecvCalm` does not mention. -/
theorem recvCalm_of_eq (role : s'.isSender = s.isSender) (sender : s'.sender = s.sender)
    (saveDir : s'.saveDir = s.saveDir) (manifest : s'.manifest = s.manifest)
    (names : s'.names = s.names) (record : s'.record = s.record)
    (receiver : s'.receiver = s.receiver) (confirmed : s'.senderConfirmed = s.senderConfirmed)
    (state : s'.state = s.state) : RecvCalm s s' [] :=
  ⟨role, sender.trans, saveDir, manifest, names, record, receiver ▸ rel_stopped_refl _, confirmed,
    state ▸ id, by simp⟩

theorem recvCalm_refl (s : TransferSession) : RecvCalm s s [] :=
  recvCalm_of_eq rfl rfl rfl rfl rfl rfl rfl rfl rfl

theorem recvCalm_setState (state : TransferState) (h : state ≠ .completed) :
    RecvCalm s (s.setState state).1 (s.setState state).2 := by
  unfold setState
  split
  · exact recvCalm_refl s
  · exact ⟨rfl, id, rfl, rfl, rfl, rfl, rel_stopped_refl _, rfl, fun h' => absurd h' h, by simp⟩

theorem recvCalm_stopEngines (k : AfterStop) : RecvCalm s (s.stopEngines k) [] :=
  ⟨rfl, fun h => by simp [stopEngines, h], rfl, rfl, rfl, rfl, rel_stopped_map _, rfl, id, by simp⟩

theorem recvCalm_fail (code message : Bytes) : RecvCalm s (s.fail code message) [] := by
  unfold fail
  split
  · exact recvCalm_refl s
  · have marked : RecvCalm s { s with errorCode := code, errorMessage := message } [] :=
      recvCalm_of_eq rfl rfl rfl rfl rfl rfl rfl rfl rfl
    exact marked.trans (recvCalm_stopEngines _)

theorem recvCalm_onTransportReady (role : s.isSender = false) :
    RecvCalm s s.onTransportReady.1 s.onTransportReady.2 := by
  have ready : RecvCalm s { s with transportReady := true } [] :=
    recvCalm_of_eq rfl rfl rfl rfl rfl rfl rfl rfl rfl
  unfold onTransportReady
  dsimp only
  split
  · exact ready
  · rw [if_neg (by simp [role])]
    exact ready.trans (recvCalm_setState .waitingOffer (by simp))

theorem recvCalm_pause (sender : s.sender = none) : RecvCalm s s.pause.1 s.pause.2 := by
  unfold pause
  split
  · exact recvCalm_refl s
  · refine ⟨rfl, fun _ => by simp [sender], rfl, rfl, rfl, rfl, rel_stopped_refl _, rfl, id,
      fun msg hmsg => ?_⟩
    dsimp only at hmsg
    split at hmsg
    · cases hmsg
    · cases List.mem_singleton.mp hmsg
      rfl

theorem recvCalm_resume (sender : s.sender = none) : RecvCalm s s.resume.1 s.resume.2 := by
  unfold resume
  split
  · exact recvCalm_refl s
  · refine ⟨rfl, fun _ => by simp [sender], rfl, rfl, rfl, rfl, rel_stopped_refl _, rfl, id,
      fun msg hmsg => ?_⟩
    dsimp only at hmsg
    split at hmsg
    · cases hmsg
    · cases List.mem_singleton.mp hmsg
      rfl

theorem recvCalm_cancel (reason : Bytes) : RecvCalm s (s.cancel reason).1 (s.cancel reason).2 := by
  unfold cancel
  split
  · exact recvCalm_refl s
  · have marked : RecvCalm s { s with errorCode := reason } [] :=
      recvCalm_of_eq rfl rfl rfl rfl rfl rfl rfl rfl rfl
    have h := marked.trans (recvCalm_stopEngines .cancel)
    refine ⟨h.role, h.sender, h.saveDir, h.manifest, h.names, h.record, h.engine, h.confirmed,
      h.completed, fun msg hmsg => ?_⟩
    cases List.mem_singleton.mp hmsg
    rfl

/-- `OnReceiverAllDone` completes the session only if the sender has confirmed. -/
structure AllDone (s s' : TransferSession) (out : List SessionEvent) : Prop where
  role : s'.isSender = s.isSender
  sender : s'.sender = s.sender
  saveDir : s'.saveDir = s.saveDir
  manifest : s'.manifest = s.manifest
  names : s'.names = s.names
  record : s'.record = s.record
  receiver : s'.receiver = s.receiver
  confirmed : s'.senderConfirmed = s.senderConfirmed
  completed : s'.state = .completed → s.state = .completed ∨ s.senderConfirmed = true
  silent : Party.ctrlOf out = []

theorem onReceiverAllDone_spec (s : TransferSession) :
    AllDone s s.onReceiverAllDone.1 s.onReceiverAllDone.2 := by
  unfold onReceiverAllDone
  split
  · exact ⟨rfl, rfl, rfl, rfl, rfl, rfl, rfl, rfl, .inl, rfl⟩
  · split
    · unfold setState
      split
      · exact ⟨rfl, rfl, rfl, rfl, rfl, rfl, rfl, rfl, .inl, rfl⟩
      · exact ⟨rfl, rfl, rfl, rfl, rfl, rfl, rfl, rfl, fun h => (nomatch h), rfl⟩
    · rename_i hconfirmed
      have confirmed : s.senderConfirmed = true := by simpa using hconfirmed
      unfold setState
      dsimp only
      split
      · exact ⟨rfl, rfl, rfl, rfl, rfl, rfl, rfl, rfl, .inl, rfl⟩
      · exact ⟨rfl, rfl, rfl, rfl, rfl, rfl, rfl, rfl, fun _ => .inr confirmed, rfl⟩

/-- The rest of a method that stopped the engine. -/
structure AfterStopped (s : TransferSession) (fs : Fs) (s' : TransferSession) (fs' : Fs)
    (out : List SessionEvent) : Prop where
  exited : ∀ t, s.receiver = some t → t.pc = .exited
  calm : RecvCalm { s with receiver := s.receiver.map Receiver.closeWriters } s' out
  receiver : s'.receiver = s.receiver.map Receiver.closeWriters
  fs : fs' = fs ∨ ∃ t, s'.receiver = some t ∧ fs' = t.cleanup fs

theorem receiver_setState (s : TransferSession) (state : TransferState) :
    (s.setState state).1.receiver = s.receiver := by
  unfold setState
  split <;> rfl

theorem finishStop_spec {fs fs' : Fs} (h : s.finishStop fs = some (s', fs', out)) :
    AfterStopped s fs s' fs' out := by
  unfold finishStop at h
  split at h
  · cases h
  · rename_i k hk
    split at h
    · cases h
    · rename_i hstopped
      have exited : ∀ t, s.receiver = some t → t.pc = .exited := by
        intro t ht
        simp only [stopped, ht, Option.all_some, Bool.not_eq_true', Bool.not_eq_false,
          Bool.and_eq_true, beq_iff_eq] at hstopped
        exact hstopped.2
      let closed : TransferSession := { s with receiver := s.receiver.map Receiver.closeWriters }
      have idle : RecvCalm closed { closed with stopping := none } [] :=
        recvCalm_of_eq rfl rfl rfl rfl rfl rfl rfl rfl rfl
      have failed := idle.trans (recvCalm_setState .failed (by simp))
      have cancelled := idle.trans (recvCalm_setState .cancelled (by simp))
      have engine := receiver_setState { closed with stopping := none }
      dsimp only at h
      split at h
      · cases h
        refine ⟨exited, ⟨failed.role, failed.sender, failed.saveDir, failed.manifest,
          failed.names, failed.record, failed.engine, failed.confirmed, failed.completed,
          fun msg hmsg => ?_⟩, engine .failed, .inl rfl⟩
        obtain hmsg | hmsg := List.mem_append.mp hmsg
        · split at hmsg
          · cases List.mem_singleton.mp hmsg
            rfl
          · cases hmsg
        · exact failed.aside msg hmsg
      · cases h
        exact ⟨exited, cancelled, engine .cancelled, .inl rfl⟩
      · cases h
        refine ⟨exited, ⟨cancelled.role, cancelled.sender, cancelled.saveDir, cancelled.manifest,
          cancelled.names, cancelled.record, cancelled.engine, cancelled.confirmed,
          cancelled.completed, fun msg hmsg => ?_⟩, engine .cancelled, ?_⟩
        · obtain hmsg | hmsg := List.mem_append.mp hmsg
          · exact cancelled.aside msg hmsg
          · split at hmsg
            · cases hmsg
            · cases List.mem_singleton.mp hmsg
        · cases hr : s.receiver with
          | none => exact .inl (by simp)
          | some t =>
            have closedEngine : closed.receiver = some t.closeWriters := by simp [closed, hr]
            have := (engine .cancelled).trans closedEngine
            simp only [closed, hr] at this
            exact .inr ⟨t.closeWriters, this, rfl⟩

end TransferSession

/-! ## The list is complete -/

section

variable {sha : Bytes → Bytes} {p p' : Party} {a : PartyAct}

open TransferSession

theorem mem_ctrlOf {out : List SessionEvent} {msg : CtrlMsg} (h : msg ∈ Party.ctrlOf out) :
    .ctrl msg ∈ out := by
  obtain ⟨e, he, hmsg⟩ := List.mem_filterMap.mp h
  cases e with
  | ctrl msg =>
    cases hmsg
    exact he
  | state => cases hmsg
  | persist => cases hmsg

theorem ReceiverMove.of_calm {s' : TransferSession} {out : List SessionEvent}
    (role : p.session.isSender = false) (sender : p.session.sender = none)
    (calm : RecvCalm p.session s' out) (session : p'.session = s') (fs : p'.fs = p.fs)
    (sent : p'.sent = p.sent ++ Party.ctrlOf out) (received : p'.received = p.received ++ a.delivered)
    (rxLog : p'.rxLog = p.rxLog) (txLog : p'.txLog = p.txLog) (ran : p'.ran = p.ran) :
    ReceiverMove sha p a p' := by
  subst session
  exact .other ⟨calm.role.trans role, calm.sender sender, calm.saveDir, received, txLog⟩
    ⟨calm.manifest, calm.names, calm.record⟩ calm.engine fs sent
    (fun msg hmsg => calm.aside msg (mem_ctrlOf hmsg)) rxLog ran ⟨calm.confirmed, calm.completed⟩

/-- A control message that leaves the session calm. -/
theorem ReceiverMove.of_calm_ctrl {io : OfferIo} {msg : CtrlMsg} {s' : TransferSession}
    {out : List SessionEvent} (role : p.session.isSender = false)
    (sender : p.session.sender = none) (calm : RecvCalm p.session s' out)
    (h : { p.returned s' out with fs := p.fs, received := p.received ++ [msg] } = p') :
    ReceiverMove sha p (.ctrl io msg) p' := by
  subst h
  exact .of_calm role sender calm rfl rfl rfl rfl rfl rfl rfl

theorem receiverMove_acceptOffer {io : OfferIo} {j : Json} {m : Manifest} {dir : Path}
    {s' : TransferSession} {fs' : Fs} {out : List SessionEvent}
    (role : p.session.isSender = false) (sender : p.session.sender = none)
    (idle : p.session.receiver = none) (parsed : Manifest.fromJson j = .ok m)
    (saveDir : p.session.saveDir = some dir)
    (h : p.session.acceptOffer sha io m dir p.fs = some (s', fs', out)) :
    ReceiverMove sha p (.ctrl io (.offer j))
      { p.returned s' out with fs := fs', received := p.received ++ [.offer j] } := by
  unfold acceptOffer at h
  dsimp only at h
  split at h
  · rename_i fs1 t msg hstart
    cases h
    let s : TransferSession := { p.session with
      manifest := m
      record := p.session.matchingRecord sha m
      names := chooseNames (reusedNames (p.session.matchingRecord sha m))
        (fun n => p.fs.pathExists (dir ++ [n])) io.rd m.roots
      receiver := some t }
    have failed := recvCalm_fail (s := s) (ascii "start") msg
    obtain ⟨t', ht', stopped⟩ := rel_stopped_some failed.engine
    have started := (congrArg (fun names => Receiver.start io.start m dir names
      ((p.session.matchingRecord sha m).elim [] (·.files)) p.fs) failed.names).trans hstart
    exact .noStart ⟨failed.role.trans role, failed.sender sender, failed.saveDir, rfl, rfl⟩ idle
      parsed saveDir failed.manifest failed.record failed.names started ht' stopped
      (List.append_nil _) rfl rfl ⟨failed.confirmed, failed.completed⟩
  · rename_i fs1 t hstart
    split at h
    · cases h
    · rename_i runs hruns
      cases h
      let s : TransferSession := { p.session with
        manifest := m
        record := p.session.matchingRecord sha m
        names := chooseNames (reusedNames (p.session.matchingRecord sha m))
          (fun n => p.fs.pathExists (dir ++ [n])) io.rd m.roots
        receiver := some t }
      have calm := recvCalm_setState (s := s) .transferring (by simp)
      have silent : Party.ctrlOf (s.setState .transferring).2 = [] := by
        unfold setState
        split <;> rfl
      refine .offer ⟨calm.role.trans role, calm.sender sender, calm.saveDir, rfl, rfl⟩ idle
        parsed saveDir calm.manifest calm.record calm.names ?_ hruns
        (receiver_setState s .transferring) ?_ rfl rfl ⟨calm.confirmed, calm.completed⟩
      · exact (congrArg (fun names => Receiver.start io.start m dir names
          ((p.session.matchingRecord sha m).elim [] (·.files)) p.fs) calm.names).trans hstart
      · exact congrArg (fun msgs => p.sent ++
          .accept (acceptFiles t.verifiedFiles runs) :: msgs) silent

theorem receiverMove_offer {io : OfferIo} {j : Json} (role : p.session.isSender = false)
    (sender : p.session.sender = none) (h : p.ctrlStep sha io (.offer j) = some p') :
    ReceiverMove sha p (.ctrl io (.offer j)) p' := by
  obtain ⟨⟨s', fs', out⟩, hmsg, rfl⟩ := Option.map_eq_some_iff.mp h
  simp only [onCtrlMessage, handleOffer] at hmsg
  split at hmsg
  · cases hmsg
    exact .of_calm_ctrl role sender (recvCalm_refl _) rfl
  · rename_i hidle
    have idle : p.session.receiver = none := by
      simpa [role] using hidle
    split at hmsg
    · cases hmsg
    · cases hmsg
      exact .of_calm_ctrl role sender (recvCalm_fail _ _) rfl
    · rename_i m hparsed
      split at hmsg
      · cases hmsg
        have failed := recvCalm_fail (s := { p.session with manifest := m })
          (ascii "no_save_dir") (ascii "save directory not set")
        refine .noSaveDir ⟨failed.role.trans role, failed.sender sender, failed.saveDir, rfl, rfl⟩
          idle ?_ rfl (List.append_nil _) rfl rfl ⟨failed.confirmed, failed.completed⟩
        have engine := failed.engine
        rw [show ({ p.session with manifest := m } : TransferSession).receiver = none from idle]
          at engine
        exact rel_stopped_none engine
      · rename_i dir hdir
        exact receiverMove_acceptOffer role sender idle hparsed hdir hmsg

theorem receiverMove_transferDone {io : OfferIo} (role : p.session.isSender = false)
    (sender : p.session.sender = none) (h : p.ctrlStep sha io .transferDone = some p') :
    ReceiverMove sha p (.ctrl io .transferDone) p' := by
  obtain ⟨⟨s', fs', out⟩, hmsg, rfl⟩ := Option.map_eq_some_iff.mp h
  unfold onCtrlMessage at hmsg
  dsimp only at hmsg
  rw [if_neg (by simp [role])] at hmsg
  split at hmsg
  · rename_i hfinished
    cases hmsg
    have spec := onReceiverAllDone_spec { p.session with senderConfirmed := true }
    exact .confirmed ⟨spec.role.trans role, spec.sender.trans sender, spec.saveDir, rfl, rfl⟩
      ⟨spec.manifest, spec.names, spec.record⟩ spec.receiver rfl
      (by simp [Party.returned, spec.silent]) rfl rfl spec.confirmed (fun _ => .inr hfinished)
  · cases hmsg
    exact .confirmed ⟨role, sender, rfl, rfl, rfl⟩ ⟨rfl, rfl, rfl⟩ rfl rfl (List.append_nil _) rfl
      rfl rfl .inl

theorem receiverMove_ctrl {io : OfferIo} {msg : CtrlMsg} (role : p.session.isSender = false)
    (sender : p.session.sender = none) (h : p.ctrlStep sha io msg = some p') :
    ReceiverMove sha p (.ctrl io msg) p' := by
  have step := h
  obtain ⟨⟨s', fs', out⟩, hmsg, hp⟩ := Option.map_eq_some_iff.mp h
  have calm : fs' = p.fs → RecvCalm p.session s' out → ReceiverMove sha p (.ctrl io msg) p' :=
    fun hfs calm => .of_calm_ctrl role sender calm (hfs ▸ hp)
  have paused : ∀ paused : Bool, RecvCalm p.session
      { p.session with sender := p.session.sender.map (·.setPaused paused) } [] := by
    intro paused
    exact recvCalm_of_eq rfl (by simp [sender]) rfl rfl rfl rfl rfl rfl rfl
  cases msg with
  | offer j => exact receiverMove_offer role sender step
  | accept files =>
    simp only [onCtrlMessage, handleAccept, role, Bool.not_false, Bool.true_or, if_true] at hmsg
    cases hmsg
    exact calm rfl (recvCalm_refl _)
  | fileDone index hash =>
    unfold onCtrlMessage at hmsg
    dsimp only at hmsg
    rw [if_neg (by simp [role])] at hmsg
    cases hmsg
    subst hp
    exact .fileDone ⟨role, sender, rfl, rfl, rfl⟩ ⟨rfl, rfl, rfl⟩ rfl rfl (List.append_nil _) rfl
      rfl ⟨rfl, id⟩
  | fileOk index =>
    simp only [onCtrlMessage, handleFileAck, role, Bool.not_false, if_true] at hmsg
    cases hmsg
    exact calm rfl (recvCalm_refl _)
  | fileBad index reason =>
    simp only [onCtrlMessage, handleFileAck, role, Bool.not_false, if_true] at hmsg
    cases hmsg
    exact calm rfl (recvCalm_refl _)
  | transferDone => exact receiverMove_transferDone role sender step
  | pause =>
    cases hmsg
    exact calm rfl (paused true)
  | resume =>
    simp only [onCtrlMessage] at hmsg
    split at hmsg
    · cases hmsg
      exact calm rfl (recvCalm_refl _)
    · cases hmsg
      exact calm rfl (paused false)
  | cancel reason =>
    simp only [onCtrlMessage] at hmsg
    split at hmsg
    · cases hmsg
      exact calm rfl (recvCalm_refl _)
    · cases hmsg
      have marked : RecvCalm p.session
          { p.session with errorCode := ascii "peer_cancelled" } [] :=
        recvCalm_of_eq rfl rfl rfl rfl rfl rfl rfl rfl rfl
      exact calm rfl (marked.trans (recvCalm_stopEngines .peerCancel))
  | error code message =>
    cases hmsg
    exact calm rfl (recvCalm_fail _ _)

theorem receiverMove_task (role : p.session.isSender = false) (sender : p.session.sender = none)
    (h : p.taskStep sha = some p') : ReceiverMove sha p (.here .task) p' := by
  simp only [Party.taskStep, role, Bool.false_eq_true, if_false] at h
  obtain ⟨e, he, rfl⟩ := Option.map_eq_some_iff.mp h
  -- Every callback but the last one leaves the session calm.
  have calm : RecvCalm p.session (p.session.onRxEvent sha e).1 [] →
      Party.ctrlOf (p.session.onRxEvent sha e).2 = rxTells e → ReceiverMove sha p (.here .task)
        { p.returned (p.session.onRxEvent sha e).1 (p.session.onRxEvent sha e).2 with
          ran := p.ran + 1 } := by
    intro calm tells
    exact .task ⟨calm.role.trans role, calm.sender sender, calm.saveDir, (List.append_nil _).symm, rfl⟩
      ⟨calm.manifest, calm.names, calm.record⟩ he calm.engine rfl
      (congrArg (p.sent ++ ·) tells) rfl rfl calm.confirmed (fun h => .inl (calm.completed h))
  cases e with
  | sack wire => exact calm (recvCalm_refl _) rfl
  | fileOk index => exact calm (recvCalm_refl _) rfl
  | fileBad index reason => exact calm (recvCalm_refl _) rfl
  | error code message => exact calm (recvCalm_fail _ _) rfl
  | persist files =>
    refine calm (recvCalm_refl _) ?_
    simp only [onRxEvent, persistReceiver]
    split <;> rfl
  | allDone =>
    have spec := onReceiverAllDone_spec p.session
    refine .task ⟨spec.role.trans role, spec.sender.trans sender, spec.saveDir,
      (List.append_nil _).symm, rfl⟩ ⟨spec.manifest, spec.names, spec.record⟩ he
      ?_ rfl (congrArg (p.sent ++ ·) spec.silent) rfl rfl
      spec.confirmed (fun h => (spec.completed h).imp_right fun hc => ⟨rfl, hc⟩)
    change Option.Rel Stopped p.session.receiver p.session.onReceiverAllDone.1.receiver
    rw [spec.receiver]
    exact rel_stopped_refl _

theorem receiverMove_sessionEnd {reason : Bytes} (role : p.session.isSender = false)
    (sender : p.session.sender = none)
    (h : p.onLoop (some (p.returned (p.session.onSessionEnd reason).1
      (p.session.onSessionEnd reason).2)) = some p') :
    ReceiverMove sha p (.here (.sessionEnd reason)) p' := by
  cases onLoop_some h
  unfold onSessionEnd
  split
  · exact .of_calm role sender (recvCalm_refl _) rfl rfl rfl (List.append_nil _).symm rfl rfl rfl
  · split
    · rename_i hend
      simp only [role, Bool.not_false, Bool.true_and, Bool.and_eq_true, Bool.or_eq_true,
        beq_iff_eq] at hend
      have spec := onReceiverAllDone_spec { p.session with senderConfirmed := true }
      exact .ended ⟨spec.role.trans role, spec.sender.trans sender, spec.saveDir,
        (List.append_nil _).symm, rfl⟩ ⟨spec.manifest, spec.names, spec.record⟩ hend.2 hend.1
        spec.receiver rfl (by simp [Party.returned, spec.silent]) rfl rfl spec.confirmed
    · exact .of_calm role sender (recvCalm_fail _ _) rfl rfl rfl (List.append_nil _).symm rfl rfl
        rfl

/-- Every action on a receiving party has one of the listed effects. -/
theorem receiverMove (role : p.session.isSender = false) (sender : p.session.sender = none)
    (h : p.step sha a = some p') : ReceiverMove sha p a p' := by
  have call : ∀ {r : TransferSession × List SessionEvent}, a.delivered = [] →
      RecvCalm p.session r.1 r.2 → p.onLoop (some (p.returned r.1 r.2)) = some p' →
      ReceiverMove sha p a p' := by
    intro r hnone calm h
    cases onLoop_some h
    exact .of_calm role sender calm rfl rfl rfl (by rw [hnone]; exact (List.append_nil _).symm)
      rfl rfl rfl
  cases a with
  | ctrl io msg => exact receiverMove_ctrl role sender (onLoop_some h)
  | sack wire =>
    cases h
    have calm : RecvCalm p.session
        { p.session with sender := p.session.sender.map (·.onSack wire) } [] :=
      recvCalm_of_eq rfl (by simp [sender]) rfl rfl rfl rfl rfl rfl rfl
    exact .of_calm role sender calm rfl rfl (List.append_nil _).symm (List.append_nil _).symm rfl rfl
      rfl
  | block wire =>
    cases h
    exact .block ⟨role, sender, rfl, (List.append_nil _).symm, rfl⟩ ⟨rfl, rfl, rfl⟩ rfl rfl rfl rfl
      rfl ⟨rfl, id⟩
  | here act =>
    cases act with
    | ready => exact call rfl (recvCalm_onTransportReady role) h
    | down =>
      exact call (r := (p.session.onTransportDown, [])) rfl
        (recvCalm_of_eq rfl rfl rfl rfl rfl rfl rfl rfl rfl) h
    | pause => exact call rfl (recvCalm_pause sender) h
    | resume => exact call rfl (recvCalm_resume sender) h
    | cancel reason => exact call rfl (recvCalm_cancel reason) h
    | sessionEnd reason => exact receiverMove_sessionEnd role sender h
    | task => exact receiverMove_task role sender (onLoop_some h)
    | stopped =>
      obtain ⟨⟨s', fs', out⟩, hstop, rfl⟩ := Option.map_eq_some_iff.mp h
      have spec := finishStop_spec hstop
      exact .stopped ⟨spec.calm.role.trans role, spec.calm.sender sender, spec.calm.saveDir,
        (List.append_nil _).symm, rfl⟩ ⟨spec.calm.manifest, spec.calm.names, spec.calm.record⟩
        spec.exited spec.receiver spec.fs rfl (fun msg hmsg => spec.calm.aside msg (mem_ctrlOf hmsg))
        rfl rfl ⟨spec.calm.confirmed, spec.calm.completed⟩
    | senderThread io =>
      obtain ⟨t, ht, -⟩ := Option.bind_eq_some_iff.mp h
      rw [sender] at ht
      cases ht
    | writerThread io =>
      obtain ⟨t, ht, h⟩ := Option.bind_eq_some_iff.mp h
      obtain ⟨⟨t', fs', out⟩, hstep, rfl⟩ := Option.map_eq_some_iff.mp h
      exact .thread ⟨role, sender, rfl, (List.append_nil _).symm, rfl⟩ ⟨rfl, rfl, rfl⟩ ht hstep rfl
        rfl rfl rfl ⟨rfl, id⟩

end

end CrossTransfer.Share
