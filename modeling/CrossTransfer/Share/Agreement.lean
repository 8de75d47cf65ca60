import CrossTransfer.Share.ReceiverParty

/-! # End-to-end agreement

`Receiving` is the invariant of a receiving party: a file counts as verified only if it was
listed in the `accept` or its part file, whose hash was the announced one, took its final name;
the session completes only once every file is verified and the sender has confirmed or left.
Together with `Sending` it gives `duplex_agreement`, for every interleaving of the two parties.
-/

namespace CrossTransfer.Share

open CrossTransfer.Library
open CrossTransfer.Transfer
open TransferSession (rel_stopped_refl)

/-- The action from `p` to `p'` gives file `i` its final name: its part file holds `bytes`, whose
    hash is the one the sender announced, and afterwards the final path holds them. -/
structure Accepts (sha : Bytes → Bytes) (i : Nat) (mf : ManifestFile) (dir : Path)
    (hash bytes : Bytes) (p p' : Party) : Prop where
  saveDir : p.session.saveDir = some dir
  announced : .fileDone (UInt16.ofNat i) hash ∈ p.received
  read : p.fs.read (partPath (finalPath dir p.session.names mf.path)) = some bytes
  hash : sha bytes = hash
  renamed : ∃ ok, p.fs.rename (partPath (finalPath dir p.session.names mf.path))
    (finalPath dir p.session.names mf.path) ok = some p'.fs
  held : p'.fs.read (finalPath dir p.session.names mf.path) = some bytes

/-- File `i` was listed as verified in an `accept`. -/
def Listed (sent : List CtrlMsg) (i : Nat) : Prop :=
  ∃ files, .accept files ∈ sent ∧ .verified (UInt16.ofNat i) ∈ files

theorem Listed.mono {sent sent' : List CtrlMsg} {i : Nat} (h : Listed sent i)
    (grows : ∀ msg ∈ sent, msg ∈ sent') : Listed sent' i := by
  obtain ⟨files, haccept, hlisted⟩ := h
  exact ⟨files, grows _ haccept, hlisted⟩

/-- The invariant of a started engine. -/
structure ReceivingEngine (sha : Bytes → Bytes) (m : Manifest) (held : Nat → Prop) (p : Party)
    (t : Receiver) : Prop where
  hashing : Receiver.Hashing sha (fun i h => .fileDone i h ∈ p.received) p.fs t
  placed : ∃ dir, p.session.saveDir = some dir ∧ t.rx.map FileRx.fixed =
    (m.files.mapIdx (Receiver.freshFile dir p.session.names)).map FileRx.fixed
  verified : ∀ i f, t.rx[i]? = some f → f.verified = true → Listed p.sent i ∨ held i

/-- `held i` stands for "file `i` has been given its final name", `ended` for "the session ended
    after the engine had finished". -/
structure Receiving (sha : Bytes → Bytes) (m : Manifest) (held : Nat → Prop) (ended : Prop)
    (p : Party) : Prop where
  role : p.session.isSender = false
  sender : p.session.sender = none
  idle : p.session.receiver = none → p.rxLog = []
  engine : ∀ t, p.session.receiver = some t →
    ReceivingEngine sha m held p t ∨ t.pc = .exited ∧ t.finished = false ∧ p.rxLog = []
  reported : ∀ index, .fileOk index ∈ p.rxLog → held index.toNat
  told : ∀ index, .fileOk index ∈ p.sent → held index.toNat
  done : .allDone ∈ p.rxLog → p.session.receiverFinished = true
  confirmed : p.session.senderConfirmed = true → .transferDone ∈ p.received ∨ ended
  completed : p.session.state = .completed →
    p.session.receiverFinished = true ∧ p.session.senderConfirmed = true

section

variable {sha : Bytes → Bytes} {m : Manifest} {held held' : Nat → Prop} {ended ended' : Prop}
  {p p' : Party} {a : PartyAct}

theorem fixed_getElem? {dir : Path} {names : Names} {rx : List FileRx}
    (h : rx.map FileRx.fixed = (m.files.mapIdx (Receiver.freshFile dir names)).map FileRx.fixed)
    {i : Nat} {f : FileRx} (hf : rx[i]? = some f) :
    ∃ mf, m.files[i]? = some mf ∧ f.index = UInt16.ofNat i ∧
      f.finalPath = finalPath dir names mf.path ∧
      f.partPath = partPath (finalPath dir names mf.path) := by
  have hi := congrArg (·[i]?) h
  simp only [List.getElem?_map, hf, Option.map_some, List.getElem?_mapIdx] at hi
  cases hmf : m.files[i]? with
  | none => simp [hmf] at hi
  | some mf =>
    simp only [hmf, Option.map_some, Option.some.injEq, FileRx.fixed, Receiver.freshFile,
      Prod.mk.injEq] at hi
    exact ⟨mf, rfl, hi.1, hi.2.2.2.2, hi.2.2.2.1⟩

/-- What an action contributes to `held` and `ended`. -/
structure Contributes (sha : Bytes → Bytes) (m : Manifest) (held held' : Nat → Prop)
    (ended ended' : Prop) (p : Party) (a : PartyAct) (p' : Party) : Prop where
  held : ∀ i, held i → held' i
  ended : ended → ended'
  accepts : ∀ i mf dir hash bytes, m.files[i]? = some mf →
    Accepts sha i mf dir hash bytes p p' → held' i
  ends : ∀ reason, a = .here (.sessionEnd reason) →
    reason = ascii "share_closed" ∨ reason = ascii "peer_left" →
    p.session.receiverFinished = true → ended'
  offers : ∀ io j, a = .ctrl io (.offer j) → j = m.toJson

theorem Receiving.mono (inv : Receiving sha m held ended p) (more : ∀ i, held i → held' i)
    (moreEnded : ended → ended') : Receiving sha m held' ended' p where
  role := inv.role
  sender := inv.sender
  idle := inv.idle
  engine := fun t ht => (inv.engine t ht).imp_left fun old =>
    ⟨old.hashing, old.placed, fun i f hf hv => (old.verified i f hf hv).imp_right (more i)⟩
  reported := fun index h => more _ (inv.reported index h)
  told := fun index h => more _ (inv.told index h)
  done := inv.done
  confirmed := fun h => (inv.confirmed h).imp_right moreEnded
  completed := inv.completed

/-- The engine after a call; a hash it learns was announced. -/
def CalledWith (received : List CtrlMsg) (t t' : Receiver) : Prop :=
  t.Called t' ∧ ∀ e ∈ t'.hashes, e ∈ t.hashes ∨ .fileDone e.1 e.2 ∈ received

theorem Stopped.calledWith {t t' : Receiver} (h : Stopped t t') (received : List CtrlMsg) :
    CalledWith received t t' := by
  obtain rfl | rfl := h
  · exact ⟨Receiver.called_refl _, fun e he => .inl he⟩
  · exact ⟨Receiver.called_requestStop _, fun e he => .inl he⟩

theorem rel_calledWith {received : List CtrlMsg} {r r' : Option Receiver}
    (h : Option.Rel Stopped r r') : Option.Rel (CalledWith received) r r' := by
  cases h with
  | none => exact .none
  | some h => exact .some (h.calledWith received)

theorem rel_calledWith_map {received : List CtrlMsg} (r : Option Receiver)
    {g : Receiver → Receiver} (h : ∀ t, CalledWith received t (g t)) :
    Option.Rel (CalledWith received) r (r.map g) := by
  cases r with
  | none => exact .none
  | some t => exact .some (h t)

theorem receiverFinished_of_rel {received : List CtrlMsg}
    (h : Option.Rel (CalledWith received) p.session.receiver p'.session.receiver) :
    p'.session.receiverFinished = p.session.receiverFinished := by
  unfold TransferSession.receiverFinished
  revert h
  generalize p.session.receiver = r, p'.session.receiver = r'
  intro h
  cases h with
  | none => rfl
  | some h => exact h.1.finished

/-- An action that runs neither the engine's thread nor `Start`. -/
theorem Receiving.of_call (inv : Receiving sha m held ended p)
    (more : Contributes sha m held held' ended ended' p a p') (frame : RecvFrame p a p')
    (same : RecvSame p p')
    (engine : Option.Rel (CalledWith p'.received) p.session.receiver p'.session.receiver)
    (fs : p'.fs = p.fs ∨ ∀ t, p.session.receiver = some t → t.pc = .exited)
    (rxLog : p'.rxLog = p.rxLog) (sent : ∀ msg ∈ p.sent, msg ∈ p'.sent)
    (told : ∀ index, .fileOk index ∈ p'.sent → .fileOk index ∈ p.sent ∨ .fileOk index ∈ p.rxLog)
    (confirmed : p'.session.senderConfirmed = true →
      p.session.senderConfirmed = true ∨ .transferDone ∈ p'.received ∨ ended')
    (kept : p.session.senderConfirmed = true → p'.session.senderConfirmed = true)
    (completed : p'.session.state = .completed → p.session.state = .completed ∨
      p.session.receiverFinished = true ∧ p'.session.senderConfirmed = true) :
    Receiving sha m held' ended' p' where
  role := frame.role
  sender := frame.sender
  idle := by
    intro hnone
    rw [rxLog]
    refine inv.idle ?_
    rw [hnone] at engine
    generalize p.session.receiver = r at engine
    cases engine
    rfl
  engine := by
    intro t' ht'
    rw [ht'] at engine
    cases hr : p.session.receiver with
    | none =>
      rw [hr] at engine
      cases engine
    | some t =>
      rw [hr] at engine
      obtain ⟨call, hashes⟩ : CalledWith p'.received t t' := by
        cases engine with
        | some h => exact h
      have grows : ∀ msg ∈ p.received, msg ∈ p'.received := by
        intro msg hmsg
        rw [frame.received]
        exact List.mem_append_left _ hmsg
      obtain old | ⟨hpc, hfin, hlog⟩ := inv.engine t hr
      · left
        -- The file system only changes here if the engine has exited.
        have hashing : Receiver.Hashing sha (fun i h => .fileDone i h ∈ p'.received) p'.fs t := by
          have wider : Receiver.Hashing sha (fun i h => .fileDone i h ∈ p'.received) p.fs t :=
            old.hashing.mono fun i h => grows _
          obtain hfs | exited := fs
          · rw [hfs]
            exact wider
          · exact wider.elsewhere (by simp [exited t hr])
        refine ⟨hashing.called call fun e he => ?_, ?_, ?_⟩
        · obtain he | he := hashes e he
          · exact grows _ (old.hashing.hashes e he)
          · exact he
        · obtain ⟨dir, hdir, hplaced⟩ := old.placed
          refine ⟨dir, frame.saveDir.trans hdir, ?_⟩
          rw [call.fixed, hplaced, same.names]
        · intro i f' hf' hv
          obtain ⟨f, writer, hf, rfl⟩ := call.file hf'
          obtain hlisted | hheld := old.verified i f hf hv
          · exact .inl (hlisted.mono sent)
          · exact .inr (more.held i hheld)
      · exact .inr ⟨call.pc.trans hpc, call.finished.trans hfin, rxLog.trans hlog⟩
  reported := fun index h => more.held _ (inv.reported index (rxLog ▸ h))
  told := by
    intro index h
    obtain h | h := told index h
    · exact more.held _ (inv.told index h)
    · exact more.held _ (inv.reported index h)
  done := by
    intro h
    rw [receiverFinished_of_rel engine]
    exact inv.done (rxLog ▸ h)
  confirmed := by
    intro h
    obtain h | h := confirmed h
    · obtain h | h := inv.confirmed h
      · left
        rw [frame.received]
        exact List.mem_append_left _ h
      · exact .inr (more.ended h)
    · exact h
  completed := by
    intro h
    rw [receiverFinished_of_rel engine]
    obtain h | h := completed h
    · obtain ⟨hfin, hconf⟩ := inv.completed h
      exact ⟨hfin, kept hconf⟩
    · exact h

/-- `Start` succeeds. -/
theorem Receiving.of_start (inv : Receiving sha m held ended p)
    (more : Contributes sha m held held' ended ended' p a p') (frame : RecvFrame p a p')
    (idle : p.session.receiver = none) {m' : Manifest} {dir : Path} {io : Receiver.StartIo}
    {resume : List ReceiverFileState} {t : Receiver} {runs : List (UInt16 × List SackRun)}
    (wellFormed : m'.WellFormed) (files : m'.files = m.files)
    (saveDir : p.session.saveDir = some dir)
    (start : Receiver.start io m' dir p'.session.names resume p.fs = (p'.fs, t, none))
    (engine : p'.session.receiver = some t)
    (sent : p'.sent = p.sent ++ [.accept (TransferSession.acceptFiles t.verifiedFiles runs)])
    (rxLog : p'.rxLog = p.rxLog) (state : p.NotYet p') : Receiving sha m held' ended' p' := by
  have log : p'.rxLog = [] := rxLog.trans (inv.idle idle)
  obtain ⟨mid, rx, created, bytes, done, -, all, rfl⟩ := Receiver.start_ok start
  have placed := all.fixed
  rw [files] at placed
  -- No hash has been announced yet.
  have fresh : ∀ f ∈ rx, f.expectedSha256 = [] := by
    refine all.forall (fun started h => started.expected.trans h) fun f hf => ?_
    obtain ⟨i, mf, -, rfl⟩ := List.mem_mapIdx.mp hf
    rfl
  have index : ∀ (i : Nat) (f : FileRx), rx[i]? = some f → f.index.toNat = i := by
    intro i f hf
    obtain ⟨mf, hmf, hindex, -⟩ := fixed_getElem? placed hf
    have hi : i < m'.files.length := by
      rw [files]
      exact (List.getElem?_eq_some_iff.mp hmf).1
    have := wellFormed.count
    rw [hindex, UInt16.toNat_ofNat_of_lt']
    exact lt_of_lt_of_le hi (this.trans (by decide))
  refine ⟨frame.role, frame.sender, fun h => ?_, fun t' ht' => ?_, fun index h => ?_,
    fun index h => ?_, fun h => ?_, fun h => ?_, fun h => ?_⟩
  · rw [engine] at h
    cases h
  · rw [engine] at ht'
    cases ht'
    left
    refine ⟨⟨index, by simp [Receiver.hashes, WriterPc.hashes], fun f hf h => ?_, by simp, by simp⟩,
      ⟨dir, frame.saveDir.trans saveDir, placed⟩, fun i f hf hv => .inl ?_⟩
    · exact absurd (fresh f hf) h
    · obtain ⟨mf, hmf, hindex, -⟩ := fixed_getElem? placed hf
      refine ⟨_, sent ▸ List.mem_append_right _ (List.mem_singleton_self _), ?_⟩
      refine List.mem_append_left _ (List.mem_map.mpr ⟨f.index, ?_, by rw [hindex]⟩)
      exact List.mem_map.mpr ⟨f, List.mem_filter.mpr ⟨List.mem_of_getElem? hf, hv⟩, rfl⟩
  · simp [log] at h
  · rw [sent] at h
    obtain h | h := List.mem_append.mp h
    · exact more.held _ (inv.told index h)
    · cases List.mem_singleton.mp h
  · simp [log] at h
  · obtain h | h := inv.confirmed (state.1 ▸ h)
    · left
      rw [frame.received]
      exact List.mem_append_left _ h
    · exact .inr (more.ended h)
  · obtain ⟨hfin, -⟩ := inv.completed (state.2 h)
    simp [TransferSession.receiverFinished, idle] at hfin

/-- An offer after which no engine runs. -/
theorem Receiving.of_noStart (inv : Receiving sha m held ended p)
    (more : Contributes sha m held held' ended ended' p a p') (frame : RecvFrame p a p')
    (idle : p.session.receiver = none)
    (engine : ∀ t, p'.session.receiver = some t → t.pc = .exited ∧ t.finished = false)
    (sent : p'.sent = p.sent) (rxLog : p'.rxLog = p.rxLog) (state : p.NotYet p') :
    Receiving sha m held' ended' p' := by
  have log : p'.rxLog = [] := rxLog.trans (inv.idle idle)
  refine ⟨frame.role, frame.sender, fun _ => log, fun t' ht' => ?_, fun index h => ?_,
    fun index h => more.held _ (inv.told index (sent ▸ h)), fun h => ?_, fun h => ?_, fun h => ?_⟩
  · obtain ⟨hpc, hfin⟩ := engine t' ht'
    exact .inr ⟨hpc, hfin, log⟩
  · simp [log] at h
  · simp [log] at h
  · obtain h | h := inv.confirmed (state.1 ▸ h)
    · left
      rw [frame.received]
      exact List.mem_append_left _ h
    · exact .inr (more.ended h)
  · obtain ⟨hfin, -⟩ := inv.completed (state.2 h)
    simp [TransferSession.receiverFinished, idle] at hfin

/-- The writer thread takes a step. -/
theorem Receiving.of_thread (inv : Receiving sha m held ended p)
    (more : Contributes sha m held held' ended ended' p a p') (frame : RecvFrame p a p')
    (same : RecvSame p p') {io : Io} {t t' : Receiver} {out : List RxEvent}
    (engine : p.session.receiver = some t)
    (step : t.writerStep sha io p.fs = some (t', p'.fs, out))
    (engine' : p'.session.receiver = some t') (sent : p'.sent = p.sent)
    (received : p'.received = p.received) (rxLog : p'.rxLog = p.rxLog ++ out)
    (state : p.NotYet p') : Receiving sha m held' ended' p' := by
  have effect := Receiver.writerStep_effect step
  obtain old | ⟨hpc, -, -⟩ := inv.engine t engine
  case inr =>
    rw [Receiver.writerStep, hpc] at step
    cases step
  obtain ⟨dir, hdir, hplaced⟩ := old.placed
  -- A file that is renamed in this step becomes held.
  have accepted : ∀ {j f}, Receiver.Accepted io t p.fs p'.fs out j f → held' j := by
    intro j f acc
    obtain ⟨mf, hmf, hindex, hfinal, hpart⟩ := fixed_getElem? hplaced acc.file
    obtain ⟨bytes, hread, hann, hheld⟩ := old.hashing.accepted acc
    have renamed := acc.renamed
    rw [hfinal] at hheld
    rw [hpart] at hread
    rw [hfinal, hpart] at renamed
    rw [hindex] at hann
    exact more.accepts j mf dir _ bytes hmf ⟨hdir, hann, hread, rfl, ⟨_, renamed⟩, hheld⟩
  have told : ∀ index, .fileOk index ∈ out → held' index.toNat := by
    intro index h
    obtain ⟨j, f, rfl, acc, -⟩ := effect.of_fileOk h
    rw [old.hashing.index j f acc.file]
    exact accepted acc
  have finished : ∀ {q : Party} {u}, q.session.receiver = some u →
      q.session.receiverFinished = u.finished := by
    intro q u hu
    rw [TransferSession.receiverFinished, hu]
    rfl
  refine ⟨frame.role, frame.sender, fun h => ?_, fun u hu => ?_, fun index h => ?_,
    fun index h => more.held _ (inv.told index (sent ▸ h)), fun h => ?_, fun h => ?_, fun h => ?_⟩
  · rw [engine'] at h
    cases h
  · rw [engine'] at hu
    cases hu
    refine .inl ⟨?_, ⟨dir, frame.saveDir.trans hdir, ?_⟩, fun i f' hf' hv => ?_⟩
    · rw [received]
      exact old.hashing.step effect
    · rw [effect.fixed, hplaced, same.names]
    · obtain ⟨f, hf, moved⟩ := effect.file hf'
      obtain hv | acc := moved.verified hv
      · obtain h | h := old.verified i f hf hv
        · exact .inl (sent ▸ h)
        · exact .inr (more.held i h)
      · exact .inr (accepted acc)
  · rw [rxLog] at h
    obtain h | h := List.mem_append.mp h
    · exact more.held _ (inv.reported index h)
    · exact told index h
  · rw [finished engine']
    rw [rxLog] at h
    obtain h | h := List.mem_append.mp h
    · exact effect.keeps_finished (finished engine ▸ inv.done h)
    · exact effect.of_allDone h
  · rw [received]
    exact (inv.confirmed (state.1 ▸ h)).imp_right more.ended
  · obtain ⟨hfin, hconf⟩ := inv.completed (state.2 h)
    rw [finished engine', state.1]
    exact ⟨effect.keeps_finished (finished engine ▸ hfin), hconf⟩

theorem aside_not_fileOk {msgs : List CtrlMsg} (aside : ∀ msg ∈ msgs, msg.aside = true)
    (index : UInt16) : .fileOk index ∉ msgs := by
  intro h
  cases aside _ h

theorem receiving_step (inv : Receiving sha m held ended p) (h : p.step sha a = some p')
    (more : Contributes sha m held held' ended ended' p a p') : Receiving sha m held' ended' p' := by
  -- What is sent is the same up to messages that are not `file_ok`.
  have sentMore : ∀ {msgs}, p'.sent = p.sent ++ msgs → ∀ msg ∈ p.sent, msg ∈ p'.sent := by
    intro msgs heq msg hmsg
    rw [heq]
    exact List.mem_append_left _ hmsg
  have toldNone : ∀ {msgs}, p'.sent = p.sent ++ msgs → (∀ index, .fileOk index ∉ msgs) →
      ∀ index, .fileOk index ∈ p'.sent → .fileOk index ∈ p.sent ∨ .fileOk index ∈ p.rxLog := by
    intro msgs heq hnone index hindex
    rw [heq] at hindex
    exact .inl ((List.mem_append.mp hindex).resolve_right (hnone index))
  have nothing : ∀ {q q' : Party}, q'.sent = q.sent → q'.sent = q.sent ++ [] := by
    intro q q' heq
    rw [heq, List.append_nil]
  cases receiverMove inv.role inv.sender h with
  | other frame same engine fs sent aside rxLog ran state =>
    exact inv.of_call more frame same (rel_calledWith engine) (.inl fs) rxLog (sentMore sent)
      (toldNone sent (aside_not_fileOk aside)) (fun h => .inl (state.1 ▸ h)) (fun h => state.1 ▸ h)
      (fun h => .inl (state.2 h))
  | @task _ e frame same event engine fs sent rxLog ran confirmed completed =>
    have log : e ∈ p.rxLog := (List.mem_filter.mp (List.mem_of_getElem? event)).1
    refine inv.of_call more frame same (rel_calledWith engine) (.inl fs) rxLog (sentMore sent)
      (fun index h => ?_) (fun h => .inl (confirmed ▸ h)) (fun h => confirmed ▸ h) (fun h => ?_)
    · rw [sent] at h
      refine (List.mem_append.mp h).imp_right fun h => ?_
      cases e with
      | fileOk i =>
        cases List.mem_singleton.mp h
        exact log
      | fileBad => cases List.mem_singleton.mp h
      | _ => cases h
    · obtain h | ⟨rfl, hconf⟩ := completed h
      · exact .inl h
      · exact .inr ⟨inv.done log, confirmed.trans hconf⟩
  | offer frame idle parsed saveDir manifest record names start haveRuns engine sent rxLog ran state =>
    have hj := more.offers _ _ rfl
    subst hj
    exact inv.of_start more frame idle (Manifest.wellFormed_of_fromJson parsed)
      (Manifest.files_of_fromJson_toJson parsed) saveDir start engine sent rxLog state
  | noStart frame idle parsed saveDir manifest record names start engine stopped sent rxLog ran state =>
    refine inv.of_noStart more frame idle (fun u hu => ?_) sent rxLog state
    rw [engine] at hu
    cases hu
    obtain ⟨⟨hpc, hfin⟩, -⟩ := Receiver.start_error start
    obtain rfl | rfl := stopped
    · exact ⟨hpc, hfin⟩
    · exact ⟨hpc, hfin⟩
  | noSaveDir frame idle idle' fs sent rxLog ran state =>
    refine inv.of_noStart more frame idle (fun u hu => ?_) sent rxLog state
    rw [idle'] at hu
    cases hu
  | @fileDone io index hash _ frame same engine fs sent rxLog ran state =>
    refine inv.of_call more frame same ?_ (.inl fs) rxLog (sentMore (nothing sent))
      (toldNone (nothing sent) (by simp)) (fun h => .inl (state.1 ▸ h)) (fun h => state.1 ▸ h)
      (fun h => .inl (state.2 h))
    rw [engine]
    refine rel_calledWith_map _ fun t => ⟨Receiver.called_onFileDone t index hash, fun e he => ?_⟩
    obtain rfl | he := Receiver.hashes_onFileDone he
    · right
      rw [frame.received]
      exact List.mem_append_right _ (List.mem_singleton_self _)
    · exact .inl he
  | @block wire _ frame same engine fs sent rxLog ran state =>
    refine inv.of_call more frame same ?_ (.inl fs) rxLog (sentMore (nothing sent))
      (toldNone (nothing sent) (by simp)) (fun h => .inl (state.1 ▸ h)) (fun h => state.1 ▸ h)
      (fun h => .inl (state.2 h))
    rw [engine]
    refine rel_calledWith_map _ fun t => ⟨(Receiver.called_onBlock t wire).1, fun e he => .inl ?_⟩
    exact (Receiver.called_onBlock t wire).2 ▸ he
  | thread frame same engine step engine' sent rxLog ran state =>
    exact inv.of_thread more frame same engine step engine' sent
      (frame.received.trans (List.append_nil _)) rxLog state
  | confirmed frame same engine fs sent rxLog ran settled completed =>
    refine inv.of_call more frame same (engine ▸ rel_calledWith (rel_stopped_refl _)) (.inl fs)
      rxLog (sentMore (nothing sent)) (toldNone (nothing sent) (by simp))
      (fun _ => .inr (.inl ?_)) (fun _ => settled) (fun h => (completed h).imp_right (⟨·, settled⟩))
    rw [frame.received]
    exact List.mem_append_right _ (List.mem_singleton_self _)
  | ended frame same why finished engine fs sent rxLog ran settled =>
    exact inv.of_call more frame same (engine ▸ rel_calledWith (rel_stopped_refl _)) (.inl fs)
      rxLog (sentMore (nothing sent)) (toldNone (nothing sent) (by simp))
      (fun _ => .inr (.inr (more.ends _ rfl why finished))) (fun _ => settled)
      (fun _ => .inr ⟨finished, settled⟩)
  | stopped frame same exited engine fs sent aside rxLog ran state =>
    refine inv.of_call more frame same ?_ (.inr exited) rxLog (sentMore sent)
      (toldNone sent (aside_not_fileOk aside)) (fun h => .inl (state.1 ▸ h)) (fun h => state.1 ▸ h)
      (fun h => .inl (state.2 h))
    rw [engine]
    exact rel_calledWith_map _ fun t => ⟨Receiver.called_closeWriters t, fun e he => .inl he⟩

theorem receiving_init (sha : Bytes → Bytes) (m : Manifest) (saveDir : Option Path)
    (record : Option ResumeRecord) (fs : Fs) :
    Receiving sha m (fun _ => False) False
      { session := .newReceiver saveDir record, fs := fs } :=
  ⟨rfl, rfl, fun _ => rfl, fun _ h => (nomatch h), by simp, by simp, by simp, fun h => (nomatch h),
    fun h => (nomatch h)⟩

end

/-! ## The network -/

section

variable {sha : Bytes → Bytes} {setup : DuplexSetup} {s s' : DuplexState} {as : List DuplexAct}

/-- An action only adds to what a party has sent, and it delivers what it says. -/
theorem Party.step_logs {p p' : Party} {a : PartyAct} (h : p.step sha a = some p') :
    p.sent <+: p'.sent ∧ p'.received = p.received ++ a.delivered := by
  have returned : ∀ s out, p.sent <+: (p.returned s out).sent := fun s out => List.prefix_append ..
  have call : ∀ {r : TransferSession × List SessionEvent},
      p.onLoop (some (p.returned r.1 r.2)) = some p' → a.delivered = [] →
      p.sent <+: p'.sent ∧ p'.received = p.received ++ a.delivered := by
    intro r h hnone
    cases onLoop_some h
    exact ⟨returned _ _, by rw [hnone]; exact (List.append_nil _).symm⟩
  cases a with
  | ctrl io msg =>
    obtain ⟨⟨s, fs, out⟩, -, rfl⟩ := Option.map_eq_some_iff.mp (onLoop_some h)
    exact ⟨returned s out, rfl⟩
  | sack wire =>
    cases h
    exact ⟨List.prefix_rfl, (List.append_nil _).symm⟩
  | block wire =>
    cases h
    exact ⟨List.prefix_rfl, (List.append_nil _).symm⟩
  | here act =>
    cases act with
    | ready => exact call h rfl
    | down => exact call (r := (p.session.onTransportDown, [])) h rfl
    | pause => exact call h rfl
    | resume => exact call h rfl
    | cancel reason => exact call h rfl
    | sessionEnd reason => exact call h rfl
    | task =>
      have h := onLoop_some h
      unfold Party.taskStep at h
      simp only at h
      split at h
      · obtain ⟨e, -, rfl⟩ := Option.map_eq_some_iff.mp h
        exact ⟨returned (p.session.onTxEvent e).1 _, (List.append_nil _).symm⟩
      · obtain ⟨e, -, rfl⟩ := Option.map_eq_some_iff.mp h
        exact ⟨returned (p.session.onRxEvent sha e).1 _, (List.append_nil _).symm⟩
    | stopped =>
      obtain ⟨⟨s, fs, out⟩, -, rfl⟩ := Option.map_eq_some_iff.mp h
      exact ⟨returned s out, (List.append_nil _).symm⟩
    | senderThread io =>
      obtain ⟨t, -, h⟩ := Option.bind_eq_some_iff.mp h
      obtain ⟨⟨t', out⟩, -, rfl⟩ := Option.map_eq_some_iff.mp h
      exact ⟨List.prefix_rfl, (List.append_nil _).symm⟩
    | writerThread io =>
      obtain ⟨t, -, h⟩ := Option.bind_eq_some_iff.mp h
      obtain ⟨⟨t', fs, out⟩, -, rfl⟩ := Option.map_eq_some_iff.mp h
      exact ⟨List.prefix_rfl, (List.append_nil _).symm⟩

theorem deliver_cases {p peer : Party} {net : NetAct} {a : PartyAct}
    (h : deliver p peer net = some a) :
    (∃ act, net = .here act ∧ a = .here act) ∨
    (∃ io msg, net = .ctrl io ∧ a = .ctrl io msg ∧ peer.sent[p.received.length]? = some msg) ∨
    (∃ k wire, net = .sack k ∧ a = .sack wire ∧ peer.rxLog[k]? = some (.sack wire)) ∨
    ∃ k wire, net = .block k ∧ a = .block wire ∧ peer.txLog[k]? = some (.data wire) := by
  cases net with
  | here act =>
    cases h
    exact .inl ⟨act, rfl, rfl⟩
  | ctrl io =>
    obtain ⟨msg, hmsg, rfl⟩ := Option.map_eq_some_iff.mp h
    exact .inr (.inl ⟨io, msg, rfl, rfl, hmsg⟩)
  | sack k =>
    simp only [deliver] at h
    split at h
    · rename_i wire hk
      cases h
      exact .inr (.inr (.inl ⟨k, wire, rfl, rfl, hk⟩))
    · cases h
  | block k =>
    simp only [deliver] at h
    split at h
    · rename_i wire hk
      cases h
      exact .inr (.inr (.inr ⟨k, wire, rfl, rfl, hk⟩))
    · cases h

/-- What is delivered next is the peer's next message. -/
theorem deliver_ctrl {p peer : Party} {net : NetAct} {a : PartyAct}
    (h : deliver p peer net = some a) (upto : p.received <+: peer.sent) :
    p.received ++ a.delivered <+: peer.sent := by
  have none : a.delivered = [] → p.received ++ a.delivered <+: peer.sent := by
    intro hnone
    rw [hnone, List.append_nil]
    exact upto
  obtain ⟨act, -, rfl⟩ | ⟨io, msg, -, rfl, hmsg⟩ | ⟨k, wire, -, rfl, -⟩ | ⟨k, wire, -, rfl, -⟩ :=
    deliver_cases h
  · exact none rfl
  · obtain ⟨rest, hrest⟩ := upto
    rw [← hrest, List.getElem?_append_right le_rfl, Nat.sub_self] at hmsg
    cases rest with
    | nil => cases hmsg
    | cons next rest =>
      cases hmsg
      exact ⟨rest, by rw [List.append_assoc]; exact hrest⟩
  · exact none rfl
  · exact none rfl

/-- Control messages arrive in order and intact. -/
structure Ordered (s : DuplexState) : Prop where
  toSender : s.sender.received <+: s.receiver.sent
  toReceiver : s.receiver.received <+: s.sender.sent

theorem ordered_step {act : DuplexAct} (inv : Ordered s) (h : duplexStep sha s act = some s') :
    Ordered s' := by
  cases act with
  | sender net =>
    obtain ⟨a, hdeliver, h⟩ := Option.bind_eq_some_iff.mp h
    obtain ⟨p, hstep, rfl⟩ := Option.map_eq_some_iff.mp h
    obtain ⟨hsent, hreceived⟩ := Party.step_logs hstep
    exact ⟨hreceived ▸ deliver_ctrl hdeliver inv.toSender, inv.toReceiver.trans hsent⟩
  | receiver net =>
    obtain ⟨a, hdeliver, h⟩ := Option.bind_eq_some_iff.mp h
    obtain ⟨p, hstep, rfl⟩ := Option.map_eq_some_iff.mp h
    obtain ⟨hsent, hreceived⟩ := Party.step_logs hstep
    exact ⟨inv.toSender.trans hsent, hreceived ▸ deliver_ctrl hdeliver inv.toReceiver⟩

/-- In the run `as` the part file of file `i`, whose hash was announced, took its final name. -/
def Held (sha : Bytes → Bytes) (setup : DuplexSetup) (as : List DuplexAct) (i : Nat) : Prop :=
  ∃ s a s' mf dir hash bytes, (duplex sha setup).Took as s a s' ∧
    setup.manifest.files[i]? = some mf ∧ Accepts sha i mf dir hash bytes s.receiver s'.receiver

/-- In the run `as` the session ended normally after the receiver engine had finished. -/
def EndedAfterFinish (sha : Bytes → Bytes) (setup : DuplexSetup) (as : List DuplexAct) : Prop :=
  ∃ s reason s', (duplex sha setup).Took as s (.receiver (.here (.sessionEnd reason))) s' ∧
    (reason = ascii "share_closed" ∨ reason = ascii "peer_left") ∧
    s.receiver.session.receiverFinished = true

/-- File `i` was reported as verified in the `accept`, or hashed and renamed. -/
def VerifiedByReceiver (sha : Bytes → Bytes) (setup : DuplexSetup) (as : List DuplexAct)
    (s : DuplexState) (i : Nat) : Prop :=
  Listed s.receiver.sent i ∨ Held sha setup as i

structure Agreeing (sha : Bytes → Bytes) (setup : DuplexSetup) (as : List DuplexAct)
    (s : DuplexState) : Prop where
  ordered : Ordered s
  sending : Sending setup.manifest s.sender
  receiving : Receiving sha setup.manifest (Held sha setup as) (EndedAfterFinish sha setup as)
    s.receiver

theorem Held.mono {bs : List DuplexAct} {i : Nat} (h : Held sha setup as i) (hbs : as <+: bs) :
    Held sha setup bs i := by
  obtain ⟨s, a, s', mf, dir, hash, bytes, took, rest⟩ := h
  exact ⟨s, a, s', mf, dir, hash, bytes, took.mono hbs, rest⟩

theorem EndedAfterFinish.mono {bs : List DuplexAct} (h : EndedAfterFinish sha setup as)
    (hbs : as <+: bs) : EndedAfterFinish sha setup bs := by
  obtain ⟨s, reason, s', took, rest⟩ := h
  exact ⟨s, reason, s', took.mono hbs, rest⟩

/-- The offer the receiver gets is the sender's. -/
theorem offer_of_deliver {net : NetAct} {io : OfferIo} {j : Json} (ordered : Ordered s)
    (sending : Sending setup.manifest s.sender)
    (h : deliver s.receiver s.sender net = some (.ctrl io (.offer j))) :
    j = setup.manifest.toJson := by
  obtain ⟨rest, hrest⟩ := deliver_ctrl h ordered.toReceiver
  refine sending.offers j ?_
  rw [← hrest]
  simp [PartyAct.delivered]

theorem agreeing_step {act : DuplexAct} (run : (duplex sha setup).Run Machine.anyStep as s)
    (inv : Agreeing sha setup as s) (h : (duplex sha setup).step s act = some s') :
    Agreeing sha setup (as ++ [act]) s' := by
  have ordered := ordered_step inv.ordered h
  have took := run.took h
  have grows : as <+: as ++ [act] := List.prefix_append ..
  cases act with
  | sender net =>
    obtain ⟨a, hdeliver, h⟩ := Option.bind_eq_some_iff.mp h
    obtain ⟨p, hstep, rfl⟩ := Option.map_eq_some_iff.mp h
    refine ⟨ordered, sending_step inv.sending hstep, inv.receiving.mono ?_ ?_⟩
    · exact fun i hi => hi.mono grows
    · exact fun he => he.mono grows
  | receiver net =>
    obtain ⟨a, hdeliver, h⟩ := Option.bind_eq_some_iff.mp h
    obtain ⟨p, hstep, rfl⟩ := Option.map_eq_some_iff.mp h
    refine ⟨ordered, inv.sending, receiving_step inv.receiving hstep ?_⟩
    refine ⟨fun i hi => hi.mono grows, fun he => he.mono grows, ?_, ?_, ?_⟩
    · intro i mf dir hash bytes hmf accepts
      exact ⟨s, _, _, mf, dir, hash, bytes, took, hmf, accepts⟩
    · rintro reason rfl why finished
      obtain ⟨act, rfl, heq⟩ | ⟨_, _, _, heq, _⟩ | ⟨_, _, _, heq, _⟩ | ⟨_, _, _, heq, _⟩ :=
        deliver_cases hdeliver
      all_goals cases heq
      exact ⟨s, reason, _, took, why, finished⟩
    · rintro io j rfl
      exact offer_of_deliver inv.ordered inv.sending hdeliver

theorem agreeing_run (run : (duplex sha setup).Run Machine.anyStep as s) :
    Agreeing sha setup as s := by
  refine run.history (Agreeing sha setup) ?_ fun as s a s' hrun inv _ hstep =>
    agreeing_step hrun inv hstep
  refine ⟨⟨List.nil_prefix, List.nil_prefix⟩, sending_init _ _ _, ?_⟩
  exact (receiving_init sha setup.manifest setup.saveDir setup.record setup.receiverFs).mono
    (fun _ => False.elim) False.elim

/-- Both parties agree on what a finished transfer has achieved, in every interleaving of the
    sender thread, the writer thread, the two event loops and the network. -/
theorem duplex_agreement (run : (duplex sha setup).Run Machine.anyStep as s) :
    (s.sender.session.state = .completed →
      ∀ i, i < setup.manifest.files.length → VerifiedByReceiver sha setup as s i) ∧
    (s.receiver.session.state = .completed →
      (∃ t, s.receiver.session.receiver = some t ∧ t.rx.length = setup.manifest.files.length ∧
        ∀ f ∈ t.rx, f.verified = true) ∧
      (∀ i, i < setup.manifest.files.length → VerifiedByReceiver sha setup as s i) ∧
      (.transferDone ∈ s.receiver.received ∨ EndedAfterFinish sha setup as)) ∧
    ∀ index, .fileOk index ∈ s.receiver.sent → Held sha setup as index.toNat := by
  have inv := agreeing_run run
  refine ⟨fun hstate i hi => ?_, fun hstate => ?_, inv.receiving.told⟩
  · obtain ⟨index, rfl, hok | ⟨files, haccept, hlisted⟩⟩ :=
      inv.sending.done (inv.sending.completed hstate) i hi
    · exact .inr (inv.receiving.told index (inv.ordered.toSender.subset hok))
    · refine .inl ⟨files, inv.ordered.toSender.subset haccept, ?_⟩
      rwa [UInt16.ofNat_toNat]
  · obtain ⟨hfinished, hconfirmed⟩ := inv.receiving.completed hstate
    obtain ⟨t, ht, hfin⟩ := (Option.any_eq_true _ _).mp hfinished
    obtain engine | ⟨-, hnot, -⟩ := inv.receiving.engine t ht
    · obtain ⟨dir, -, hplaced⟩ := engine.placed
      have length : t.rx.length = setup.manifest.files.length := by
        simpa using congrArg List.length hplaced
      have all := engine.hashing.finished hfin
      refine ⟨⟨t, ht, length, all⟩, fun i hi => ?_, inv.receiving.confirmed hconfirmed⟩
      have hf := List.getElem?_eq_getElem (length ▸ hi : i < t.rx.length)
      exact engine.verified i _ hf (all _ (List.mem_of_getElem? hf))
    · rw [hnot] at hfin
      cases hfin

end

/-! ## A transfer that completes -/

/-- An offer of one file of two blocks. -/
def twoBlocksSetup : DuplexSetup where
  manifest := ⟨[⟨ascii "a", 1101⟩], [], [⟨ascii "a", false⟩], 1101⟩
  fileCount := 1
  saveDir := some [ascii "save"]
  record := none
  senderFs := .empty
  receiverFs := .empty

/-- What stands for the hash. -/
def shaText (_ : Bytes) : Bytes :=
  ascii "e3b0c44298fc1c149afbf4c8996fb92427ae41e4649b934ca495991b7852b855"

/-- Every file operation succeeds, and the clock stands still. -/
def calmIo : Io := ⟨true, true, 0, [], 0⟩

def calmTxIo : TxIo := ⟨0, some 0, some [], 0, 0, [], []⟩

def calmOfferIo : OfferIo := ⟨⟨fun _ => true, fun _ => true, fun _ => true, []⟩, fun _ => 0⟩

/-- Offer, `accept`, both blocks, of which the first one is lost, and `file_done`; a SACK names the
    hole, the block is sent again, the last SACK is lost; verification, `file_ok`,
    `transfer_done`. -/
def lostBlockRun : List DuplexAct :=
  let send (now : UInt32) (bytes : Bytes) := DuplexAct.sender
    (.here (.senderThread { calmTxIo with now := now, opened := some 1101, bytes := some bytes }))
  let write := DuplexAct.receiver (.here (.writerThread { calmIo with now := 1500 }))
  let toSender := DuplexAct.sender (.ctrl calmOfferIo)
  let toReceiver := DuplexAct.receiver (.ctrl calmOfferIo)
  [.sender (.here .ready), .receiver (.here .ready), toReceiver, toSender] ++
  List.replicate 13 (send 1000 (List.replicate 1101 7)) ++
  [.receiver (.block 1), .sender (.here .task), toReceiver] ++ List.replicate 10 write ++
  [.sender (.sack 0)] ++ List.replicate 7 (send 2000 (List.replicate 1100 7)) ++
  [.receiver (.block 3)] ++ List.replicate 9 write ++
  [.receiver (.here .task), .receiver (.here .task), .receiver (.here .task), toSender] ++
  List.replicate 2 (send 2100 []) ++ [.sender (.here .task), toReceiver]

theorem exec_lostBlockRun :
    ((duplex shaText twoBlocksSetup).exec lostBlockRun (duplex shaText twoBlocksSetup).init).map
      (fun s => (s.sender.session.state, s.receiver.session.state)) = some (.completed, .completed) := by
  decide +kernel

theorem duplex_agreement_lostBlock :
    ∃ s, (duplex shaText twoBlocksSetup).Run Machine.anyStep lostBlockRun s ∧
      s.sender.session.state = .completed ∧ s.receiver.session.state = .completed ∧
      VerifiedByReceiver shaText twoBlocksSetup lostBlockRun s 0 ∧
      (.transferDone ∈ s.receiver.received ∨ EndedAfterFinish shaText twoBlocksSetup lostBlockRun) := by
  obtain ⟨s, hexec, hstates⟩ := Option.map_eq_some_iff.mp exec_lostBlockRun
  have run := Machine.run_of_exec hexec
  simp only [Prod.mk.injEq] at hstates
  obtain ⟨hsender, hreceiver⟩ := hstates
  obtain ⟨sender, receiver, -⟩ := duplex_agreement run
  exact ⟨s, run, hsender, hreceiver, sender hsender 0 (by decide), (receiver hreceiver).2.2⟩

end CrossTransfer.Share
