import CrossTransfer.Share.Duplex
import CrossTransfer.Transfer.SenderRun

/-! # The sending party

`SenderMove` lists what an action can do to a sending party; `senderMove` says that the list is
complete. `Sending` is the invariant of a sending party: a file counts as acknowledged only if
the receiver said so, and the session completes only once every file is.
-/

namespace CrossTransfer.Share

open CrossTransfer.Transfer

/-- The control message an action delivers. -/
def PartyAct.delivered : PartyAct → List CtrlMsg
  | .ctrl _ msg => [msg]
  | _ => []

/-- What every action on a sending party keeps. -/
structure SendFrame (p : Party) (a : PartyAct) (p' : Party) : Prop where
  role : p'.session.isSender = true
  receiver : p'.session.receiver = none
  manifest : p'.session.manifest = p.session.manifest
  acks : p'.session.senderFileOk.length = p.session.senderFileOk.length
  received : p'.received = p.received ++ a.delivered
  rxLog : p'.rxLog = p.rxLog
  offers : ∀ j, .offer j ∈ p'.sent → .offer j ∈ p.sent ∨ j = p.session.manifest.toJson

/-- A `file_bad` that the action delivers concerns no file of the engine. -/
def PartyAct.ignoredBy (s : TransferSession) : PartyAct → Prop
  | .ctrl _ (.fileBad index _) => s.sender = none ∨ s.senderFileOk[index.toNat]? = none
  | _ => True

/-- A call that only stops or pauses the engine. -/
def Nudged (t t' : Sender) : Prop :=
  ∃ stop paused, t' = { t with stop := stop, paused := paused } ∧ (t.stop = true → stop = true)

theorem Nudged.refl (t : Sender) : Nudged t t := ⟨t.stop, t.paused, rfl, id⟩

theorem Nudged.called {t t' : Sender} (h : Nudged t t') : t.Called [] t' := by
  obtain ⟨stop, paused, rfl, hstop⟩ := h
  exact ⟨rfl, rfl, rfl, rfl, rfl, hstop, fun _ => id, fun _ => .inl⟩

/-- The effects of an action on a sending party. -/
inductive SenderMove (sha : Bytes → Bytes) (p : Party) : PartyAct → Party → Prop where
  /-- The engine is left alone, stopped or paused. -/
  | other {a : PartyAct} {p' : Party} (frame : SendFrame p a p')
      (engine : Option.Rel Nudged p.session.sender p'.session.sender)
      (ignored : a.ignoredBy p.session) (txLog : p'.txLog = p.txLog)
      (completed : p'.session.state = .completed → p.session.state = .completed) :
      SenderMove sha p a p'
  /-- An `accept` starts the engine. -/
  | start {io : OfferIo} {files : List AcceptFile} {p' : Party}
      (frame : SendFrame p (.ctrl io (.accept files)) p')
      (engine : p'.session.sender = some (Sender.start p.session.manifest
        (TransferSession.readAccept p.session.manifest.files.length files).2
        (TransferSession.readAccept p.session.manifest.files.length files).1))
      (txLog : p'.txLog = p.txLog)
      (completed : p'.session.state = .completed → p.session.state = .completed)
      (first : p.session.acceptReceived = false) :
      SenderMove sha p (.ctrl io (.accept files)) p'
  /-- An `accept` arrives and the engine cannot be started. -/
  | noStart {a : PartyAct} {p' : Party} {t : Sender} (frame : SendFrame p a p')
      (engine : p'.session.sender = some t) (empty : t.tx = []) (exited : t.pc = .exited)
      (finished : t.finished = false) (txLog : p'.txLog = p.txLog)
      (completed : p'.session.state = .completed → p.session.state = .completed)
      (fresh : t.filesDone = 0 ∧ t.bytesAcked = 0) :
      SenderMove sha p a p'
  | fileOk {io : OfferIo} {index : UInt16} {p' : Party} {t : Sender}
      (frame : SendFrame p (.ctrl io (.fileOk index)) p') (engine : p.session.sender = some t)
      (engine' : p'.session.sender = some (t.onFileOk index)) (txLog : p'.txLog = p.txLog)
      (completed : p'.session.state = .completed → p.session.state = .completed) :
      SenderMove sha p (.ctrl io (.fileOk index)) p'
  | fileBad {io : OfferIo} {index : UInt16} {reason : Bytes} {p' : Party} {t : Sender}
      (frame : SendFrame p (.ctrl io (.fileBad index reason)) p')
      (engine : p.session.sender = some t)
      (engine' : p'.session.sender = some (t.onFileBad index)) (txLog : p'.txLog = p.txLog)
      (completed : p'.session.state = .completed → p.session.state = .completed) :
      SenderMove sha p (.ctrl io (.fileBad index reason)) p'
  | sack {wire : Bytes} {p' : Party} (frame : SendFrame p (.sack wire) p')
      (engine : p'.session.sender = p.session.sender.map (·.onSack wire))
      (txLog : p'.txLog = p.txLog)
      (completed : p'.session.state = .completed → p.session.state = .completed) :
      SenderMove sha p (.sack wire) p'
  | thread {io : TxIo} {p' : Party} {t t' : Sender} {out : List TxEvent}
      (frame : SendFrame p (.here (.senderThread io)) p') (engine : p.session.sender = some t)
      (step : t.senderStep sha io = some (t', out)) (engine' : p'.session.sender = some t')
      (txLog : p'.txLog = p.txLog ++ out)
      (completed : p'.session.state = .completed → p.session.state = .completed) :
      SenderMove sha p (.here (.senderThread io)) p'
  /-- The engine's report that it is done. -/
  | done {p' : Party} (frame : SendFrame p (.here .task) p') (report : .allDone ∈ p.txLog)
      (engine : p'.session.sender = p.session.sender) (txLog : p'.txLog = p.txLog) :
      SenderMove sha p (.here .task) p'

theorem SenderMove.frame {sha : Bytes → Bytes} {p p' : Party} {a : PartyAct}
    (h : SenderMove sha p a p') : SendFrame p a p' := by
  cases h <;> assumption

/-! ## The methods of the session -/

namespace TransferSession

/-- A method of a sending session that starts no engine and completes nothing. -/
structure SendCalm (s s' : TransferSession) (out : List SessionEvent) : Prop where
  role : s'.isSender = s.isSender
  receiver : s.receiver = none → s'.receiver = none
  manifest : s'.manifest = s.manifest
  acks : s'.senderFileOk = s.senderFileOk
  engine : Option.Rel Nudged s.sender s'.sender
  completed : s'.state = .completed → s.state = .completed
  offers : ∀ j, .ctrl (.offer j) ∈ out → j = s.manifest.toJson

variable {s s' : TransferSession} {out : List SessionEvent}

theorem rel_nudged_refl (t : Option Sender) : Option.Rel Nudged t t := by
  cases t with
  | none => exact .none
  | some t => exact .some (.refl t)

theorem rel_nudged_map (t : Option Sender) {f : Sender → Sender} (h : ∀ t, Nudged t (f t)) :
    Option.Rel Nudged t (t.map f) := by
  cases t with
  | none => exact .none
  | some t => exact .some (h t)

theorem nudged_setPaused (paused : Bool) (t : Sender) : Nudged t (t.setPaused paused) :=
  ⟨t.stop, paused, rfl, id⟩

theorem nudged_requestStop (t : Sender) : Nudged t t.requestStop :=
  ⟨true, t.paused, rfl, fun _ => rfl⟩

theorem sendCalm_refl (s : TransferSession) : SendCalm s s [] :=
  ⟨rfl, id, rfl, rfl, rel_nudged_refl _, id, by simp⟩

theorem state_setState {state : TransferState} (h : state ≠ .completed) :
    (s.setState state).1.state = .completed → s.state = .completed := by
  unfold setState
  split
  · exact id
  · exact fun h' => absurd h' h

theorem sendCalm_setState (state : TransferState) (h : state ≠ .completed) :
    SendCalm s (s.setState state).1 (s.setState state).2 := by
  have hcompleted := state_setState (s := s) h
  unfold setState at hcompleted ⊢
  split
  · exact sendCalm_refl s
  · exact ⟨rfl, id, rfl, rfl, rel_nudged_refl _, fun h' => absurd h' h, by simp⟩

theorem sendCalm_stopEngines (k : AfterStop) : SendCalm s (s.stopEngines k) [] :=
  ⟨rfl, fun h => by simp [stopEngines, h], rfl, rfl, rel_nudged_map _ nudged_requestStop, id,
    by simp⟩

theorem sendCalm_fail (code message : Bytes) : SendCalm s (s.fail code message) [] := by
  unfold fail
  split
  · exact sendCalm_refl s
  · have h := sendCalm_stopEngines (s := s) (.fail code message)
    exact ⟨h.role, h.receiver, h.manifest, h.acks, h.engine, h.completed, h.offers⟩

theorem SendCalm.trans {s'' : TransferSession} {out' : List SessionEvent} (h : SendCalm s s' out)
    (h' : SendCalm s' s'' out') : SendCalm s s'' (out ++ out') where
  role := h'.role.trans h.role
  receiver := fun hr => h'.receiver (h.receiver hr)
  manifest := h'.manifest.trans h.manifest
  acks := h'.acks.trans h.acks
  engine := by
    have first := h.engine
    have second := h'.engine
    revert first second
    generalize s.sender = t, s'.sender = t', s''.sender = t''
    intro first second
    cases first with
    | none => exact second
    | some hn =>
      cases second with
      | some hn' =>
        obtain ⟨stop, paused, rfl, hstop⟩ := hn
        obtain ⟨stop', paused', rfl, hstop'⟩ := hn'
        exact .some ⟨stop', paused', rfl, fun ht => hstop' (hstop ht)⟩
  completed := fun hc => h.completed (h'.completed hc)
  offers := fun j hj => by
    obtain hj | hj := List.mem_append.mp hj
    · exact h.offers j hj
    · exact h.manifest ▸ h'.offers j hj

/-- Fields that `SendCalm` does not mention. -/
theorem sendCalm_of_eq (role : s'.isSender = s.isSender) (receiver : s'.receiver = s.receiver)
    (manifest : s'.manifest = s.manifest) (acks : s'.senderFileOk = s.senderFileOk)
    (sender : s'.sender = s.sender) (state : s'.state = s.state) : SendCalm s s' [] :=
  ⟨role, receiver.trans, manifest, acks, sender ▸ rel_nudged_refl _, state ▸ id, by simp⟩

theorem sendCalm_startOffer : SendCalm s s.startOffer.1 s.startOffer.2 := by
  unfold startOffer
  split
  · exact sendCalm_fail _ _
  · split
    · exact sendCalm_refl s
    · have marked : SendCalm s { s with offerSent := true } [] :=
        sendCalm_of_eq rfl rfl rfl rfl rfl rfl
      have h := marked.trans (sendCalm_setState .offering (by simp))
      refine ⟨h.role, h.receiver, h.manifest, h.acks, h.engine, h.completed, fun j hj => ?_⟩
      obtain hj | hj := List.mem_append.mp hj
      · exact h.offers j hj
      · cases List.mem_singleton.mp hj
        exact congrArg Manifest.toJson h.manifest

theorem sendCalm_onTransportReady (role : s.isSender = true) :
    SendCalm s s.onTransportReady.1 s.onTransportReady.2 := by
  have ready : SendCalm s { s with transportReady := true } [] :=
    sendCalm_of_eq rfl rfl rfl rfl rfl rfl
  unfold onTransportReady
  dsimp only
  split
  · exact ready
  · exact ready.trans sendCalm_startOffer

theorem sendCalm_pause (role : s.isSender = true) : SendCalm s s.pause.1 s.pause.2 := by
  unfold pause
  split
  · exact sendCalm_refl s
  · exact ⟨rfl, id, rfl, rfl, rel_nudged_map _ (nudged_setPaused true), id, by simp⟩

theorem sendCalm_resume (role : s.isSender = true) : SendCalm s s.resume.1 s.resume.2 := by
  unfold resume
  split
  · exact sendCalm_refl s
  · exact ⟨rfl, id, rfl, rfl, rel_nudged_map _ (nudged_setPaused false), id, by simp⟩

theorem sendCalm_cancel (reason : Bytes) : SendCalm s (s.cancel reason).1 (s.cancel reason).2 := by
  unfold cancel
  split
  · exact sendCalm_refl s
  · have marked : SendCalm s { s with errorCode := reason } [] :=
      sendCalm_of_eq rfl rfl rfl rfl rfl rfl
    have h := marked.trans (sendCalm_stopEngines .cancel)
    exact ⟨h.role, h.receiver, h.manifest, h.acks, h.engine, h.completed, by simp⟩

theorem sendCalm_onSessionEnd (role : s.isSender = true) (reason : Bytes) :
    SendCalm s (s.onSessionEnd reason).1 (s.onSessionEnd reason).2 := by
  unfold onSessionEnd
  split
  · exact sendCalm_refl s
  · rw [if_neg (by simp [role])]
    exact sendCalm_fail _ _

theorem sendCalm_finishStop {fs fs' : Fs} (receiver : s.receiver = none)
    (h : s.finishStop fs = some (s', fs', out)) : SendCalm s s' out := by
  unfold finishStop at h
  split at h
  · cases h
  · rename_i k hk
    have idle : SendCalm s { s with
        stopping := none, receiver := s.receiver.map Receiver.closeWriters } [] :=
      sendCalm_of_eq rfl (by simp [receiver]) rfl rfl rfl rfl
    have failed := idle.trans (sendCalm_setState .failed (by simp))
    have cancelled := idle.trans (sendCalm_setState .cancelled (by simp))
    split at h
    · cases h
    · dsimp only at h
      split at h
      · cases h
        refine ⟨failed.role, failed.receiver, failed.manifest, failed.acks, failed.engine,
          failed.completed, fun j hj => ?_⟩
        obtain hj | hj := List.mem_append.mp hj
        · split at hj
          · cases List.mem_singleton.mp hj
          · cases hj
        · exact failed.offers j hj
      · cases h
        exact cancelled
      · cases h
        refine ⟨cancelled.role, cancelled.receiver, cancelled.manifest, cancelled.acks,
          cancelled.engine, cancelled.completed, fun j hj => ?_⟩
        obtain hj | hj := List.mem_append.mp hj
        · exact cancelled.offers j hj
        · split at hj
          · cases hj
          · cases List.mem_singleton.mp hj

end TransferSession

/-! ## The list is complete -/

section

variable {sha : Bytes → Bytes} {p p' : Party} {a : PartyAct}

open TransferSession

theorem SendFrame.of_calm {s' : TransferSession} {out : List SessionEvent}
    (role : p.session.isSender = true) (receiver : p.session.receiver = none)
    (calm : SendCalm p.session s' out) (session : p'.session = s')
    (sent : p'.sent = p.sent ++ Party.ctrlOf out) (received : p'.received = p.received ++ a.delivered)
    (rxLog : p'.rxLog = p.rxLog) : SendFrame p a p' where
  role := session ▸ calm.role.trans role
  receiver := session ▸ calm.receiver receiver
  manifest := session ▸ calm.manifest
  acks := congrArg List.length (session ▸ calm.acks)
  received := received
  rxLog := rxLog
  offers := by
    intro j hj
    rw [sent] at hj
    obtain hj | hj := List.mem_append.mp hj
    · exact .inl hj
    · obtain ⟨e, he, hmsg⟩ := List.mem_filterMap.mp hj
      right
      cases e with
      | ctrl msg =>
        cases hmsg
        exact calm.offers j he
      | state => cases hmsg
      | persist => cases hmsg

theorem SenderMove.of_calm {s' : TransferSession} {out : List SessionEvent}
    (role : p.session.isSender = true) (receiver : p.session.receiver = none)
    (calm : SendCalm p.session s' out) (session : p'.session = s')
    (sent : p'.sent = p.sent ++ Party.ctrlOf out) (received : p'.received = p.received ++ a.delivered)
    (rxLog : p'.rxLog = p.rxLog) (txLog : p'.txLog = p.txLog) (ignored : a.ignoredBy p.session) :
    SenderMove sha p a p' :=
  .other (.of_calm role receiver calm session sent received rxLog) (session ▸ calm.engine) ignored
    txLog (session ▸ calm.completed)

theorem onLoop_some {step : Option Party} (h : p.onLoop step = some p') : step = some p' := by
  unfold Party.onLoop at h
  split at h
  · cases h
  · exact h

/-- A control message that leaves the session calm. -/
theorem SenderMove.of_calm_ctrl {io : OfferIo} {msg : CtrlMsg} {s' : TransferSession}
    {out : List SessionEvent} (fs : Fs) (role : p.session.isSender = true)
    (receiver : p.session.receiver = none) (calm : SendCalm p.session s' out)
    (ignored : (PartyAct.ctrl io msg).ignoredBy p.session)
    (h : { p.returned s' out with fs := fs, received := p.received ++ [msg] } = p') :
    SenderMove sha p (.ctrl io msg) p' := by
  subst h
  exact .of_calm role receiver calm rfl rfl rfl rfl rfl ignored

theorem length_foldl_set (verified : List UInt16) (ok : List Bool) :
    (verified.foldl (fun (ok : List Bool) (v : UInt16) => ok.set v.toNat true) ok).length =
      ok.length := by
  induction verified generalizing ok with
  | nil => rfl
  | cons v rest ih => rw [List.foldl_cons, ih, List.length_set]

theorem senderMove_accept {io : OfferIo} {files : List AcceptFile}
    (role : p.session.isSender = true) (receiver : p.session.receiver = none)
    (h : p.ctrlStep sha io (.accept files) = some p') :
    SenderMove sha p (.ctrl io (.accept files)) p' := by
  simp only [Party.ctrlStep, onCtrlMessage, Option.map_some, Option.some.injEq] at h
  unfold handleAccept startAccepted at h
  split at h
  · exact .of_calm_ctrl _ role receiver (sendCalm_refl _) trivial h
  · rename_i hfirst
    have first : p.session.acceptReceived = false := by
      simpa [role] using hfirst
    dsimp only at h
    split at h
    · subst h
      -- The manifest and the file list differ in length.
      let s : TransferSession := { p.session with
        acceptReceived := true, sender := some { tx := [], pc := .exited } }
      have failed := sendCalm_fail (s := s) (ascii "start") (ascii "manifest / file list mismatch")
      obtain ⟨t, ht, nudged⟩ : ∃ t, (s.fail (ascii "start")
          (ascii "manifest / file list mismatch")).sender = some t ∧
          Nudged { tx := [], pc := .exited } t := by
        have engine := failed.engine
        revert engine
        generalize (s.fail (ascii "start") (ascii "manifest / file list mismatch")).sender = t'
        intro engine
        cases engine with
        | some hn => exact ⟨_, rfl, hn⟩
      obtain ⟨stop, paused, rfl, -⟩ := nudged
      refine .noStart ?_ ht rfl rfl rfl rfl failed.completed ⟨rfl, rfl⟩
      exact ⟨failed.role.trans role, failed.receiver receiver, failed.manifest,
        congrArg List.length failed.acks, rfl, rfl,
        fun j hj => .inl (by simpa [Party.returned, Party.ctrlOf] using hj)⟩
    · subst h
      let read := readAccept p.session.manifest.files.length files
      let s : TransferSession := { p.session with
        acceptReceived := true
        sender := some (Sender.start p.session.manifest read.2 read.1)
        senderFileOk := read.1.foldl (fun (ok : List Bool) (v : UInt16) => ok.set v.toNat true)
          p.session.senderFileOk }
      have calm := sendCalm_setState (s := s) .transferring (by simp)
      have engine : (s.setState .transferring).1.sender = s.sender := by
        unfold setState
        split <;> rfl
      refine .start ?_ engine rfl calm.completed first
      refine ⟨calm.role.trans role, calm.receiver receiver, calm.manifest, ?_, rfl, rfl,
        fun j hj => ?_⟩
      · exact (congrArg List.length calm.acks).trans (length_foldl_set read.1 _)
      obtain hj | hj := List.mem_append.mp hj
      · exact .inl hj
      · unfold setState at hj
        split at hj <;> simp [Party.ctrlOf] at hj

theorem handleFileAck_cases (s : TransferSession) (index : UInt16) (ok : Bool) :
    (s.handleFileAck index ok = s ∧
      (s.isSender = true → ok = false → s.sender = none ∨ s.senderFileOk[index.toNat]? = none)) ∨
    ∃ t, s.sender = some t ∧
      (ok = true ∧ s.handleFileAck index ok = { s with
          senderFileOk := s.senderFileOk.set index.toNat true
          sender := some (t.onFileOk index) } ∨
        ok = false ∧ s.handleFileAck index ok = { s with sender := some (t.onFileBad index) }) := by
  unfold handleFileAck
  split
  · rename_i hrole
    exact .inl ⟨rfl, fun h => absurd h (by simpa using hrole)⟩
  · split
    · rename_i hnone
      exact .inl ⟨rfl, fun _ _ => .inl hnone⟩
    · rename_i t ht
      split
      · rename_i hnone
        exact .inl ⟨rfl, fun _ _ => .inr hnone⟩
      · cases ok with
        | false => exact .inr ⟨t, ht, .inr ⟨rfl, rfl⟩⟩
        | true =>
          split
          · split
            · exact .inl ⟨rfl, fun _ h => (nomatch h)⟩
            · exact .inr ⟨t, ht, .inl ⟨rfl, rfl⟩⟩
          · rename_i hok
            exact absurd rfl hok

theorem senderMove_fileAck {io : OfferIo} {msg : CtrlMsg} {index : UInt16} (ok : Bool)
    (role : p.session.isSender = true) (receiver : p.session.receiver = none)
    (hmsg : if ok then msg = .fileOk index else ∃ reason, msg = .fileBad index reason)
    (h : { p.returned (p.session.handleFileAck index ok) [] with
      received := p.received ++ [msg] } = p') : SenderMove sha p (.ctrl io msg) p' := by
  have frame : ∀ s' : TransferSession, s'.isSender = p.session.isSender →
      s'.receiver = p.session.receiver → s'.manifest = p.session.manifest →
      s'.senderFileOk.length = p.session.senderFileOk.length →
      SendFrame p (.ctrl io msg) { p.returned s' [] with received := p.received ++ [msg] } := by
    intro s' hrole hreceiver hmanifest hacks
    exact ⟨hrole.trans role, hreceiver.trans receiver, hmanifest, hacks, rfl, rfl,
      fun j hj => .inl (by simpa [Party.returned, Party.ctrlOf] using hj)⟩
  obtain ⟨heq, hignored⟩ | ⟨t, ht, ⟨rfl, heq⟩ | ⟨rfl, heq⟩⟩ :=
    handleFileAck_cases p.session index ok
  · rw [heq] at h
    refine .of_calm_ctrl p.fs role receiver (sendCalm_refl _) ?_ h
    cases ok with
    | true =>
      cases hmsg
      trivial
    | false =>
      obtain ⟨reason, rfl⟩ := hmsg
      exact hignored role rfl
  · rw [heq] at h
    cases hmsg
    subst h
    exact .fileOk (frame _ rfl rfl rfl List.length_set) ht rfl rfl id
  · rw [heq] at h
    obtain ⟨reason, rfl⟩ := hmsg
    subst h
    exact .fileBad (frame _ rfl rfl rfl rfl) ht rfl rfl id

theorem senderMove_ctrl {io : OfferIo} {msg : CtrlMsg} (role : p.session.isSender = true)
    (receiver : p.session.receiver = none) (h : p.ctrlStep sha io msg = some p') :
    SenderMove sha p (.ctrl io msg) p' := by
  have step := h
  unfold Party.ctrlStep at h
  obtain ⟨⟨s', fs', out⟩, hmsg, hp⟩ := Option.map_eq_some_iff.mp h
  have calm : SendCalm p.session s' out → (PartyAct.ctrl io msg).ignoredBy p.session →
      SenderMove sha p (.ctrl io msg) p' :=
    fun calm ignored => .of_calm_ctrl _ role receiver calm ignored hp
  cases msg with
  | offer j =>
    simp only [onCtrlMessage, handleOffer, role, Bool.true_or, if_true] at hmsg
    cases hmsg
    exact calm (sendCalm_refl _) trivial
  | accept files => exact senderMove_accept role receiver step
  | fileDone index hash =>
    simp only [onCtrlMessage, role, if_true] at hmsg
    cases hmsg
    exact calm (sendCalm_refl _) trivial
  | fileOk index =>
    cases hmsg
    exact senderMove_fileAck true role receiver rfl hp
  | fileBad index reason =>
    cases hmsg
    exact senderMove_fileAck false role receiver ⟨reason, rfl⟩ hp
  | transferDone =>
    simp only [onCtrlMessage, role, if_true] at hmsg
    cases hmsg
    exact calm (sendCalm_refl _) trivial
  | pause =>
    cases hmsg
    exact calm ⟨rfl, id, rfl, rfl, rel_nudged_map _ (nudged_setPaused true), id, by simp⟩ trivial
  | resume =>
    simp only [onCtrlMessage] at hmsg
    split at hmsg
    · cases hmsg
      exact calm (sendCalm_refl _) trivial
    · cases hmsg
      exact calm ⟨rfl, id, rfl, rfl, rel_nudged_map _ (nudged_setPaused false), id, by simp⟩ trivial
  | cancel reason =>
    simp only [onCtrlMessage] at hmsg
    split at hmsg
    · cases hmsg
      exact calm (sendCalm_refl _) trivial
    · cases hmsg
      have marked : SendCalm p.session
          { p.session with errorCode := ascii "peer_cancelled" } [] :=
        sendCalm_of_eq rfl rfl rfl rfl rfl rfl
      exact calm (marked.trans (sendCalm_stopEngines .peerCancel)) trivial
  | error code message =>
    cases hmsg
    exact calm (sendCalm_fail _ _) trivial

theorem senderMove_task (role : p.session.isSender = true) (receiver : p.session.receiver = none)
    (h : p.taskStep sha = some p') : SenderMove sha p (.here .task) p' := by
  simp only [Party.taskStep, role, if_true] at h
  obtain ⟨e, he, rfl⟩ := Option.map_eq_some_iff.mp h
  have calm : SendCalm p.session (p.session.onTxEvent e).1 (p.session.onTxEvent e).2 →
      SenderMove sha p (.here .task)
        { p.returned (p.session.onTxEvent e).1 (p.session.onTxEvent e).2 with ran := p.ran + 1 } :=
    fun calm => .of_calm role receiver calm rfl rfl (List.append_nil _).symm rfl rfl trivial
  cases e with
  | data wire => exact calm (sendCalm_refl _)
  | fileDone index hash =>
    have same := sendCalm_refl p.session
    exact calm ⟨same.role, same.receiver, same.manifest, same.acks, same.engine, same.completed,
      by simp [onTxEvent]⟩
  | error code message => exact calm (sendCalm_fail _ _)
  | allDone =>
    have report : .allDone ∈ p.txLog := (List.mem_filter.mp (List.mem_of_getElem? he)).1
    have fields : ∀ r, r = p.session.onSenderAllDone → r.1.isSender = true ∧
        r.1.receiver = none ∧ r.1.manifest = p.session.manifest ∧
        r.1.senderFileOk = p.session.senderFileOk ∧ r.1.sender = p.session.sender ∧ ∀ j, .ctrl (.offer j) ∉ r.2 := by
      intro r hr
      subst hr
      unfold onSenderAllDone setState
      split
      · exact ⟨role, receiver, rfl, rfl, rfl, by simp⟩
      · dsimp only
        split
        · exact ⟨role, receiver, rfl, rfl, rfl, by simp⟩
        · exact ⟨role, receiver, rfl, rfl, rfl, by simp⟩
    obtain ⟨hrole, hreceiver, hmanifest, hacks, hsender, hoffers⟩ := fields _ rfl
    refine .done ⟨hrole, hreceiver, hmanifest, congrArg List.length hacks, (List.append_nil _).symm, rfl, fun j hj => .inl ?_⟩
      report hsender rfl
    obtain hj | hj := List.mem_append.mp hj
    · exact hj
    · obtain ⟨e, he, hmsg⟩ := List.mem_filterMap.mp hj
      cases e with
      | ctrl msg =>
        cases hmsg
        exact absurd he (hoffers j)
      | state => cases hmsg
      | persist => cases hmsg

/-- Every action on a sending party has one of the listed effects. -/
theorem senderMove (role : p.session.isSender = true) (receiver : p.session.receiver = none)
    (h : p.step sha a = some p') : SenderMove sha p a p' := by
  have call : ∀ {r : TransferSession × List SessionEvent} {act : LocalAct}, a = .here act →
      SendCalm p.session r.1 r.2 → p.onLoop (some (p.returned r.1 r.2)) = some p' →
      SenderMove sha p a p' := by
    rintro r act rfl calm h
    cases onLoop_some h
    exact .of_calm role receiver calm rfl rfl (List.append_nil _).symm rfl rfl trivial
  cases a with
  | ctrl io msg => exact senderMove_ctrl role receiver (onLoop_some h)
  | sack wire =>
    cases h
    exact .sack ⟨role, receiver, rfl, rfl, (List.append_nil _).symm, rfl, fun _ => .inl⟩ rfl rfl id
  | block wire =>
    cases h
    exact .other ⟨role, by simp [receiver], rfl, rfl, (List.append_nil _).symm, rfl, fun _ => .inl⟩
      (rel_nudged_refl _) trivial rfl id
  | here act =>
    cases act with
    | ready => exact call rfl (sendCalm_onTransportReady role) h
    | down =>
      exact call (r := (p.session.onTransportDown, [])) rfl
        (sendCalm_of_eq rfl rfl rfl rfl rfl rfl) h
    | pause => exact call rfl (sendCalm_pause role) h
    | resume => exact call rfl (sendCalm_resume role) h
    | cancel reason => exact call rfl (sendCalm_cancel reason) h
    | sessionEnd reason => exact call rfl (sendCalm_onSessionEnd role reason) h
    | task => exact senderMove_task role receiver (onLoop_some h)
    | stopped =>
      obtain ⟨⟨s', fs', out⟩, hstop, rfl⟩ := Option.map_eq_some_iff.mp h
      exact .of_calm role receiver (sendCalm_finishStop receiver hstop) rfl rfl
        (List.append_nil _).symm rfl rfl trivial
    | senderThread io =>
      obtain ⟨t, ht, h⟩ := Option.bind_eq_some_iff.mp h
      obtain ⟨⟨t', out⟩, hstep, rfl⟩ := Option.map_eq_some_iff.mp h
      exact .thread ⟨role, receiver, rfl, rfl, (List.append_nil _).symm, rfl, fun _ => .inl⟩ ht hstep
        rfl rfl id
    | writerThread io =>
      obtain ⟨t, ht, -⟩ := Option.bind_eq_some_iff.mp h
      rw [receiver] at ht
      cases ht

end

/-! ## The invariant -/

/-- The receiver has acknowledged file `i`, by a `file_ok` or in its `accept`. -/
def Acked (received : List CtrlMsg) (i : Nat) : Prop :=
  ∃ index : UInt16, index.toNat = i ∧
    (.fileOk index ∈ received ∨ ∃ files, .accept files ∈ received ∧ .verified index ∈ files)

theorem Acked.mono {received received' : List CtrlMsg} {i : Nat} (h : Acked received i)
    (grows : ∀ msg ∈ received, msg ∈ received') : Acked received' i := by
  obtain ⟨index, hi, hok | ⟨files, haccept, hlisted⟩⟩ := h
  · exact ⟨index, hi, .inl (grows _ hok)⟩
  · exact ⟨index, hi, .inr ⟨files, grows _ haccept, hlisted⟩⟩

/-- The invariant of the engine of a sending party. -/
structure SendingEngine (m : Manifest) (received : List CtrlMsg) (t : Sender) : Prop where
  covered : t.Covered
  size : t.tx.length = m.files.length ∨ t.tx.length = 0 ∧ t.pc = .exited
  acked : ∀ j, t.okAt j → Acked received j

structure Sending (m : Manifest) (p : Party) : Prop where
  role : p.session.isSender = true
  receiver : p.session.receiver = none
  manifest : p.session.manifest = m
  acks : p.session.senderFileOk.length = m.files.length
  rxLog : p.rxLog = []
  engine : ∀ t, p.session.sender = some t → SendingEngine m p.received t
  offers : ∀ j, .offer j ∈ p.sent → j = m.toJson
  done : .allDone ∈ p.txLog → ∀ j, j < m.files.length → Acked p.received j
  completed : p.session.state = .completed → .allDone ∈ p.txLog

section

variable {sha : Bytes → Bytes} {m : Manifest} {p p' : Party} {a : PartyAct}

theorem SendingEngine.mono {received received' : List CtrlMsg} {t : Sender}
    (h : SendingEngine m received t) (grows : ∀ msg ∈ received, msg ∈ received') :
    SendingEngine m received' t :=
  ⟨h.covered, h.size, fun j hj => (h.acked j hj).mono grows⟩

/-- Calls of other threads keep the invariant if what they acknowledge was received. -/
theorem SendingEngine.called {received : List CtrlMsg} {t t' : Sender} {acked : List UInt16}
    (h : SendingEngine m received t) (call : t.Called acked t')
    (told : ∀ v ∈ acked, .fileOk v ∈ received) : SendingEngine m received t' where
  covered := call.covered h.covered
  size := by
    rw [call.length, call.pc]
    exact h.size
  acked := by
    intro j hj
    obtain hj | ⟨v, hv, hvj⟩ := call.acked j hj
    · exact h.acked j hj
    · exact ⟨v, hvj, .inl (told v hv)⟩

/-- What a loop collects comes from what it meets. -/
theorem mem_of_foldl {α β : Type*} {f : List β × α → AcceptFile → List β × α} {v : β}
    {P : AcceptFile → Prop} (hf : ∀ acc file, v ∈ (f acc file).1 → v ∈ acc.1 ∨ P file)
    (files : List AcceptFile) (acc : List β × α) (hv : v ∈ (files.foldl f acc).1) :
    v ∈ acc.1 ∨ ∃ file ∈ files, P file := by
  induction files generalizing acc with
  | nil => exact .inl hv
  | cons file rest ih =>
    rw [List.foldl_cons] at hv
    obtain hv | ⟨later, hmem, hp⟩ := ih _ hv
    · obtain hv | hp := hf acc file hv
      · exact .inl hv
      · exact .inr ⟨file, List.mem_cons_self, hp⟩
    · exact .inr ⟨later, List.mem_cons_of_mem _ hmem, hp⟩

theorem mem_readAccept {n : Nat} {files : List AcceptFile} {v : UInt16}
    (h : v ∈ (TransferSession.readAccept n files).1) : .verified v ∈ files := by
  unfold TransferSession.readAccept at h
  have hfound := mem_of_foldl (P := fun file => file = .verified v) ?_ files ([], []) h
  · obtain hv | ⟨file, hmem, rfl⟩ := hfound
    · cases hv
    · exact hmem
  · intro acc file hv
    cases file with
    | verified index =>
      dsimp only at hv
      split at hv
      · exact .inl hv
      · obtain hv | hv := List.mem_append.mp hv
        · exact .inl hv
        · rw [List.mem_singleton.mp hv]
          exact .inr rfl
    | runs index rs =>
      dsimp only at hv
      split at hv
      · exact .inl hv
      · exact .inl hv

theorem Sending.of_frame (inv : Sending m p) (frame : SendFrame p a p')
    (engine : ∀ t, p'.session.sender = some t → SendingEngine m p'.received t)
    (done : .allDone ∈ p'.txLog → .allDone ∈ p.txLog ∨
      ∀ j, j < m.files.length → Acked p'.received j)
    (completed : p'.session.state = .completed → .allDone ∈ p'.txLog) : Sending m p' where
  role := frame.role
  receiver := frame.receiver
  manifest := frame.manifest.trans inv.manifest
  acks := frame.acks.trans inv.acks
  rxLog := frame.rxLog.trans inv.rxLog
  engine := engine
  offers := by
    intro j hj
    obtain hj | hj := frame.offers j hj
    · exact inv.offers j hj
    · rw [hj, inv.manifest]
  done := by
    intro hdone j hj
    obtain hdone | hall := done hdone
    · refine (inv.done hdone j hj).mono fun msg hmsg => ?_
      rw [frame.received]
      exact List.mem_append_left _ hmsg
    · exact hall j hj
  completed := completed

theorem sending_step (inv : Sending m p) (h : p.step sha a = some p') : Sending m p' := by
  -- What has been received is never taken back, so that acknowledgements stay.
  have grows : ∀ {a}, SendFrame p a p' → ∀ msg ∈ p.received, msg ∈ p'.received := by
    intro a frame msg hmsg
    rw [frame.received]
    exact List.mem_append_left _ hmsg
  cases senderMove inv.role inv.receiver h with
  | other frame engine ignored txLog completed =>
    refine inv.of_frame frame (fun t' ht' => ?_) (fun h => .inl (txLog ▸ h))
      (fun h => txLog ▸ inv.completed (completed h))
    cases hs : p.session.sender with
    | none =>
      rw [hs, ht'] at engine
      cases engine
    | some t =>
      rw [hs, ht'] at engine
      cases engine with
      | some nudged =>
        exact ((inv.engine t hs).mono (grows frame)).called nudged.called (by simp)
  | @start io files _ frame engine txLog completed =>
    refine inv.of_frame frame (fun t' ht' => ?_) (fun h => .inl (txLog ▸ h))
      (fun h => txLog ▸ inv.completed (completed h))
    rw [engine] at ht'
    cases ht'
    obtain ⟨covered, length, acked⟩ := Sender.start_covered p.session.manifest
      (TransferSession.readAccept p.session.manifest.files.length files).2
      (TransferSession.readAccept p.session.manifest.files.length files).1
    refine ⟨covered, .inl (length.trans (by rw [inv.manifest])), fun j hj => ?_⟩
    obtain ⟨v, hv, hvj⟩ := acked j hj
    refine ⟨v, hvj, .inr ⟨files, ?_, mem_readAccept hv⟩⟩
    rw [frame.received]
    exact List.mem_append_right _ (List.mem_singleton_self _)
  | noStart frame engine empty exited finished txLog completed =>
    refine inv.of_frame frame (fun t' ht' => ?_) (fun h => .inl (txLog ▸ h))
      (fun h => txLog ▸ inv.completed (completed h))
    rw [engine] at ht'
    cases ht'
    refine ⟨⟨.inr (.inr fun j hj => ?_), fun h => ?_, fun h => ?_⟩,
      .inr ⟨by rw [empty]; rfl, exited⟩, fun j hj => ?_⟩
    · simp [empty] at hj
    · rw [exited] at h
      cases h
    · rw [finished] at h
      cases h
    · obtain ⟨f, hf, -⟩ := hj
      simp [empty] at hf
  | fileOk frame engine engine' txLog completed =>
    refine inv.of_frame frame (fun t' ht' => ?_) (fun h => .inl (txLog ▸ h))
      (fun h => txLog ▸ inv.completed (completed h))
    rw [engine'] at ht'
    cases ht'
    refine ((inv.engine _ engine).mono (grows frame)).called (Sender.called_onFileOk _ _) ?_
    intro v hv
    rw [frame.received, List.mem_singleton.mp hv]
    exact List.mem_append_right _ (List.mem_singleton_self _)
  | fileBad frame engine engine' txLog completed =>
    refine inv.of_frame frame (fun t' ht' => ?_) (fun h => .inl (txLog ▸ h))
      (fun h => txLog ▸ inv.completed (completed h))
    rw [engine'] at ht'
    cases ht'
    exact ((inv.engine _ engine).mono (grows frame)).called (Sender.called_onFileBad _ _) (by simp)
  | sack frame engine txLog completed =>
    refine inv.of_frame frame (fun t' ht' => ?_) (fun h => .inl (txLog ▸ h))
      (fun h => txLog ▸ inv.completed (completed h))
    rw [engine] at ht'
    obtain ⟨t, ht, rfl⟩ := Option.map_eq_some_iff.mp ht'
    exact ((inv.engine t ht).mono (grows frame)).called (Sender.called_onSack _ _) (by simp)
  | @thread io _ t t' out frame engine step engine' txLog completed =>
    have old := inv.engine t engine
    obtain ⟨covered, done⟩ := Sender.senderStep_covered old.covered step
    -- An engine without files is one that `Start` has refused, and it has exited.
    have length : t.tx.length = m.files.length := by
      obtain h | ⟨-, h⟩ := old.size
      · exact h
      · rw [Sender.senderStep, h] at step
        cases step
    have shared := Sender.shared_of_senderStep step
    have length' : t'.tx.length = m.files.length := by
      rw [← length]
      simpa using congrArg List.length shared
    have acked : ∀ j, t'.okAt j → Acked p'.received j := fun j hj =>
      (old.acked j ((Sender.okAt_of_shared shared).mp hj)).mono (grows frame)
    refine inv.of_frame frame (fun t'' ht'' => ?_) (fun h => ?_) (fun h => ?_)
    · rw [engine'] at ht''
      cases ht''
      exact ⟨covered, .inl length', acked⟩
    · rw [txLog] at h
      obtain h | h := List.mem_append.mp h
      · exact .inl h
      · exact .inr fun j hj => acked j (done h j (length' ▸ hj))
    · rw [txLog]
      exact List.mem_append_left _ (inv.completed (completed h))
  | done frame report engine txLog =>
    refine inv.of_frame frame (fun t' ht' => ?_) (fun h => .inl (txLog ▸ h)) (fun _ => txLog ▸ report)
    exact (inv.engine t' (engine ▸ ht')).mono (grows frame)

theorem sending_init (m : Manifest) (fileCount : Nat) (fs : Fs) :
    Sending m { session := .newSender m fileCount, fs := fs } :=
  ⟨rfl, rfl, rfl, List.length_replicate, rfl, fun _ h => (nomatch h), by simp, by simp, fun h => (nomatch h)⟩

end

end CrossTransfer.Share
