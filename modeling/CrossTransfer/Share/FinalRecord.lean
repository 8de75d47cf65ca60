import CrossTransfer.Share.Agreement
import CrossTransfer.Share.Lifecycle

/-! # The last resume record of a failed receive

When a session fails it stops the engine, whose thread takes a last snapshot and posts it. `Fail`
runs on the loop and ends in a terminal state, so the posted snapshot comes too late and is dropped
(`not_failureKeeps`): the record that stays is the last one stored before `Fail`.

So the record is up to date if `Fail` comes when everything written has been stored and the thread
writes nothing more (`failureKeeps_run`).
-/

namespace CrossTransfer.Share

open CrossTransfer.Library
open CrossTransfer.Transfer

/-- The snapshots among the callbacks of the engine. -/
def persisted (log : List RxEvent) : List (List ReceiverFileState) :=
  log.filterMap fun e => match e with
    | .persist files => some files
    | _ => none

/-- The record of a snapshot. -/
def recordOf (sha : Bytes → Bytes) (s : TransferSession) (files : List ReceiverFileState) :
    ResumeRecord := ⟨TransferSession.manifestSignature sha s.manifest, s.names, files⟩

namespace Party

variable (sha : Bytes → Bytes) (p : Party)

/-- What the engine would put into a record now. -/
def progress : Option (List ReceiverFileState) := p.session.receiver.bind Receiver.snapshot

/-- The last snapshot that the loop has stored is what there is to save. -/
def Saved : Prop :=
  p.progress.isSome = true ∧ (persisted (p.rxTasks.take p.ran)).getLast? = p.progress

/-- The last of these records describes the engine. -/
def Described (records : List (Option ResumeRecord)) : Prop :=
  ∃ files, p.progress = some files ∧ records.getLast? = some (some (recordOf sha p.session files))

/-- `Fail` comes when there is an engine and all its progress is saved, and the thread makes none
    while `Fail` waits for it. -/
def InTime (a : PartyAct) : Prop :=
  ∀ p', p.step sha a = some p' →
    (∀ code message, p.session.stopping = none →
      p'.session.stopping = some (.fail code message) → p.Saved) ∧
    (∀ code message, p.session.stopping = some (.fail code message) → p'.progress = p.progress)

end Party

/-- A block was written in this run. -/
def WroteBlock (sha : Bytes → Bytes) (p₀ : Party) (as : List PartyAct) : Prop :=
  ∃ (p : Party) (io : Io) (p' : Party) (t t' : Receiver) (i : Nat) (f f' : FileRx),
    (party sha p₀).Took as p (.here (.writerThread io)) p' ∧ p.session.receiver = some t ∧
    p'.session.receiver = some t' ∧ t.rx[i]? = some f ∧ t'.rx[i]? = some f' ∧ f.bitmap.count < f'.bitmap.count

/-- A receive that fails after a block was written keeps a record of all that was written. -/
def FailureKeeps (sha : Bytes → Bytes) (p₀ : Party) (as : List PartyAct) (p : Party) : Prop :=
  p.session.state = .failed → WroteBlock sha p₀ as →
    p.Described sha (recordsOf (told sha p₀ as))

/-! ## What a step does to the engine -/

section

variable {sha : Bytes → Bytes} {p p' p₀ : Party} {a : PartyAct} {as : List PartyAct}
  {records : List (Option ResumeRecord)}

theorem snapshot_called {t t' : Receiver} (h : Receiver.Called t t') : t'.snapshot = t.snapshot := by
  unfold Receiver.snapshot
  obtain hrx | hrx := h.rx
  · rw [hrx]
  · rw [hrx, List.mapM_map]
    rfl

theorem progress_called
    (h : Option.Rel Receiver.Called p.session.receiver p'.session.receiver) :
    p'.progress = p.progress := by
  unfold Party.progress
  generalize p.session.receiver = r, p'.session.receiver = r' at h
  cases h with
  | none => rfl
  | some h => exact snapshot_called h

theorem exited_called {r r' : Option Receiver} (h : Option.Rel Receiver.Called r r')
    (exited : ∀ t, r = some t → t.pc = .exited) : ∀ t, r' = some t → t.pc = .exited := by
  rintro t' rfl
  cases h with
  | some h => exact h.pc.trans (exited _ rfl)

theorem called_of_stopped {r r' : Option Receiver} (h : Option.Rel Stopped r r') :
    Option.Rel Receiver.Called r r' := by
  cases h with
  | none => exact .none
  | some h =>
    obtain rfl | rfl := h
    · exact .some (Receiver.called_refl _)
    · exact .some (Receiver.called_requestStop _)

theorem called_of_map {f : Receiver → Receiver} (h : ∀ t, Receiver.Called t (f t))
    (r : Option Receiver) : Option.Rel Receiver.Called r (r.map f) := by
  cases r with
  | none => exact .none
  | some t => exact .some (h t)

/-- A step calls the engine, starts it, or is a step of its thread. -/
inductive EngineStep (sha : Bytes → Bytes) (p : Party) (a : PartyAct) (p' : Party) : Prop where
  | called (engine : Option.Rel Receiver.Called p.session.receiver p'.session.receiver)
      (same : p.session.receiver.isSome = true → RecvSame p p') (rxLog : p'.rxLog = p.rxLog)
  | started {t : Receiver} (idle : p.session.receiver = none) (engine : p'.session.receiver = some t)
      (rxLog : p'.rxLog = p.rxLog)
  | thread {io : Io} {t t' : Receiver} {out : List RxEvent} (act : a = .here (.writerThread io))
      (engine : p.session.receiver = some t) (engine' : p'.session.receiver = some t')
      (step : t.writerStep sha io p.fs = some (t', p'.fs, out)) (same : RecvSame p p')
      (rxLog : p'.rxLog = p.rxLog ++ out)

theorem ReceiverMove.engine (h : ReceiverMove sha p a p') : EngineStep sha p a p' := by
  have unchanged : p'.session.receiver = p.session.receiver →
      Option.Rel Receiver.Called p.session.receiver p'.session.receiver := by
    intro heq
    rw [heq]
    cases p.session.receiver with
    | none => exact .none
    | some t => exact .some (Receiver.called_refl t)
  cases h with
  | other frame same engine fs sent aside rxLog ran state =>
    exact .called (called_of_stopped engine) (fun _ => same) rxLog
  | task frame same event engine fs sent rxLog ran confirmed completed =>
    exact .called (called_of_stopped engine) (fun _ => same) rxLog
  | offer frame idle parsed saveDir manifest record names start haveRuns engine sent rxLog ran state =>
    exact .started idle engine rxLog
  | noStart frame idle parsed saveDir manifest record names start engine stopped sent rxLog ran
      state =>
    exact .started idle engine rxLog
  | noSaveDir frame idle idle' fs sent rxLog ran state =>
    refine .called (unchanged (idle'.trans idle.symm)) (fun hsome => ?_) rxLog
    rw [idle] at hsome
    cases hsome
  | fileDone frame same engine fs sent rxLog ran state =>
    refine .called ?_ (fun _ => same) rxLog
    rw [engine]
    exact called_of_map (fun t => Receiver.called_onFileDone t _ _) _
  | block frame same engine fs sent rxLog ran state =>
    refine .called ?_ (fun _ => same) rxLog
    rw [engine]
    exact called_of_map (fun t => (Receiver.called_onBlock t _).1) _
  | thread frame same engine step engine' sent rxLog ran state =>
    exact .thread rfl engine engine' step same rxLog
  | confirmed frame same engine fs sent rxLog ran settled completed =>
    exact .called (unchanged engine) (fun _ => same) rxLog
  | ended frame same why finished engine fs sent rxLog ran settled =>
    exact .called (unchanged engine) (fun _ => same) rxLog
  | stopped frame same exited engine fs sent aside rxLog ran state =>
    refine .called ?_ (fun _ => same) rxLog
    rw [engine]
    exact called_of_map Receiver.called_closeWriters _

/-- Only a callback counts as one. -/
theorem step_callback (role : p.session.isSender = false) (h : p.step sha a = some p') :
    a ≠ .here .task ∧ p'.ran = p.ran ∨
      a = .here .task ∧ p'.ran = p.ran + 1 ∧ ∃ e, p.rxTasks[p.ran]? = some e ∧
        p.session.stopping = none ∧ p'.session = (p.session.onRxEvent sha e).1 ∧
        p.events sha a = (p.session.onRxEvent sha e).2 := by
  have call : ∀ {r : TransferSession × List SessionEvent},
      p.onLoop (some (p.returned r.1 r.2)) = some p' → p'.ran = p.ran := by
    intro r h
    cases onLoop_some h
    rfl
  cases a with
  | ctrl io msg =>
    obtain ⟨⟨s, fs, out⟩, -, rfl⟩ := Option.map_eq_some_iff.mp (onLoop_some h)
    exact .inl ⟨by simp, rfl⟩
  | sack wire =>
    cases h
    exact .inl ⟨by simp, rfl⟩
  | block wire =>
    cases h
    exact .inl ⟨by simp, rfl⟩
  | here act =>
    cases act with
    | ready => exact .inl ⟨by simp, call h⟩
    | down => exact .inl ⟨by simp, call (r := (p.session.onTransportDown, [])) h⟩
    | pause => exact .inl ⟨by simp, call h⟩
    | resume => exact .inl ⟨by simp, call h⟩
    | cancel reason => exact .inl ⟨by simp, call h⟩
    | sessionEnd reason => exact .inl ⟨by simp, call h⟩
    | task =>
      have free := free_of_onLoop h
      have h := onLoop_some h
      simp only [Party.taskStep, role, Bool.false_eq_true, if_false] at h
      obtain ⟨e, he, rfl⟩ := Option.map_eq_some_iff.mp h
      exact .inr ⟨rfl, rfl, e, he, free, rfl, by simp [Party.events, role, he]⟩
    | stopped =>
      obtain ⟨⟨s, fs, out⟩, -, rfl⟩ := Option.map_eq_some_iff.mp h
      exact .inl ⟨by simp, rfl⟩
    | senderThread io =>
      obtain ⟨t, -, h⟩ := Option.bind_eq_some_iff.mp h
      obtain ⟨⟨t', out⟩, -, rfl⟩ := Option.map_eq_some_iff.mp h
      exact .inl ⟨by simp, rfl⟩
    | writerThread io =>
      obtain ⟨t, -, h⟩ := Option.bind_eq_some_iff.mp h
      obtain ⟨⟨t', fs, out⟩, -, rfl⟩ := Option.map_eq_some_iff.mp h
      exact .inl ⟨by simp, rfl⟩

/-! ## What has been stored -/

theorem persisted_append (log log' : List RxEvent) :
    persisted (log ++ log') = persisted log ++ persisted log' := List.filterMap_append

/-- A session that is not over has stored every snapshot that came to the loop. -/
structure Filed (sha : Bytes → Bytes) (p : Party) (records : List (Option ResumeRecord)) : Prop where
  role : p.session.isSender = false
  sender : p.session.sender = none
  idle : p.session.receiver = none → p.rxLog = []
  ran : p.ran ≤ p.rxTasks.length
  stored : p.session.state.terminal = false →
    records = (persisted (p.rxTasks.take p.ran)).map fun files => some (recordOf sha p.session files)

/-- The engine of a session goes on with what it was started for. -/
theorem EngineStep.recordOf (h : EngineStep sha p a p') (engine : p.session.receiver ≠ none) :
    Share.recordOf sha p'.session = Share.recordOf sha p.session := by
  have same : RecvSame p p' := by
    cases h with
    | called engine' same rxLog => exact same (Option.isSome_iff_ne_none.mpr engine)
    | started idle engine' rxLog => exact absurd idle engine
    | thread act engine engine' step same rxLog => exact same
  funext files
  rw [Share.recordOf, Share.recordOf, same.manifest, same.names]

/-- The callbacks of an engine are only added to. -/
theorem EngineStep.rxTasks (h : EngineStep sha p a p') : p.rxTasks <+: p'.rxTasks := by
  unfold Party.rxTasks
  cases h with
  | called engine same rxLog => rw [rxLog]
  | started idle engine rxLog => rw [rxLog]
  | thread act engine engine' step same rxLog =>
    rw [rxLog, List.filter_append]
    exact List.prefix_append ..

/-- Without an engine nothing has been stored. -/
theorem Filed.rxTasks (filed : Filed sha p records) (idle : p.session.receiver = none) :
    p.rxTasks = [] := by
  rw [Party.rxTasks, filed.idle idle]
  rfl

theorem records_eq_nil {s s' : TransferState} {said : List TransferState}
    {saved : List (Option ResumeRecord)} (turn : Turn s s' said saved)
    (unsaved : ∀ record, some record ∉ saved) (running : s'.terminal = false) : saved = [] := by
  cases turn with
  | still => rfl
  | moved => rfl
  | cleared _ ended =>
    rw [ended] at running
    cases running
  | saved _ record => exact absurd (List.mem_singleton_self _) (unsaved record)

theorem records_of_terminal {s s' : TransferState} {said : List TransferState}
    {saved : List (Option ResumeRecord)} (turn : Turn s s' said saved) (ended : s.terminal = true) :
    saved = [] := by
  have isOver : s.terminal ≠ false := by simp [ended]
  cases turn with
  | still => rfl
  | moved => rfl
  | cleared running => exact absurd running isOver
  | saved running => exact absurd running isOver

theorem records_of_failed {s : TransferState} {said : List TransferState}
    {saved : List (Option ResumeRecord)} (turn : Turn s .failed said saved)
    (unsaved : ∀ record, some record ∉ saved) : saved = [] := by
  cases turn with
  | still => rfl
  | moved => rfl
  | cleared _ _ kept => exact absurd rfl kept
  | saved _ record => exact absurd (List.mem_singleton_self _) (unsaved record)

theorem turn_running {s s' : TransferState} {said : List TransferState}
    {saved : List (Option ResumeRecord)} (turn : Turn s s' said saved)
    (running : s'.terminal = false) : s.terminal = false := by
  cases turn with
  | still => exact running
  | moved open' => exact open'
  | cleared open' => exact open'
  | saved open' => exact open'

/-- A callback that leaves the session going stores what it brings. -/
theorem recordsOf_onRxEvent (s : TransferSession) (e : RxEvent)
    (running : (s.onRxEvent sha e).1.state.terminal = false) :
    recordsOf (s.onRxEvent sha e).2 = (persisted [e]).map fun files => some (recordOf sha s files) := by
  have silent : (∀ files, e ≠ .persist files) → recordsOf (s.onRxEvent sha e).2 = [] := by
    intro hne
    have turned := TransferSession.turned_onRxEvent s sha hne
    exact records_eq_nil turned.turn turned.unsaved running
  cases e with
  | sack wire => rfl
  | fileOk index => rfl
  | fileBad index reason => rfl
  | allDone => exact silent (by simp)
  | error code message => exact silent (by simp)
  | persist files =>
    have hopen : s.state.terminal = false := running
    simp [TransferSession.onRxEvent, TransferSession.persistReceiver, hopen, recordsOf, persisted,
      recordOf]

theorem ReceiverMove.frame (h : ReceiverMove sha p a p') : RecvFrame p a p' := by
  cases h <;> assumption

/-- The snapshots that have come to the loop, one step on. -/
theorem take_rxTasks (filed : Filed sha p records) (engine : EngineStep sha p a p')
    (ran : p'.ran = p.ran) : p'.rxTasks.take p'.ran = p.rxTasks.take p.ran := by
  obtain ⟨rest, hrest⟩ := engine.rxTasks
  rw [ran, ← hrest, List.take_append_of_le_length filed.ran]

theorem Filed.step (filed : Filed sha p records) (waits : p.Waits) (h : p.step sha a = some p') :
    Filed sha p' (records ++ recordsOf (p.events sha a)) := by
  have move := receiverMove filed.role filed.sender h
  have frame := move.frame
  have engine := move.engine
  have turned := Party.step_turned waits h
  have callback := step_callback filed.role h
  have hidle : p'.session.receiver = none → p.session.receiver = none ∧ p'.rxLog = p.rxLog := by
    intro hnone
    cases engine with
    | called engine same rxLog =>
      rw [hnone] at engine
      generalize p.session.receiver = r at engine
      cases engine
      exact ⟨rfl, rxLog⟩
    | started idle engine rxLog =>
      rw [engine] at hnone
      cases hnone
    | thread act engine engine' step same rxLog =>
      rw [engine'] at hnone
      cases hnone
  refine ⟨frame.role, frame.sender, fun hnone => ?_, ?_, fun running => ?_⟩
  · obtain ⟨hbefore, hlog⟩ := hidle hnone
    rw [hlog]
    exact filed.idle hbefore
  · have hlength := engine.rxTasks.length_le
    obtain ⟨-, hran⟩ | ⟨-, hran, e, he, -⟩ := callback
    · rw [hran]
      exact filed.ran.trans hlength
    · rw [hran]
      have hlt := (List.getElem?_eq_some_iff.mp he).1
      omega
  · have hstored := filed.stored (turn_running turned.turn running)
    -- Either no callback runs, and nothing is stored, or the next one does, and stores the record.
    obtain ⟨hne, hran⟩ | ⟨rfl, hran, e, he, free, hsession, hevents⟩ := callback
    · rw [records_eq_nil turned.turn (turned.unsaved hne) running, List.append_nil,
        take_rxTasks filed engine hran, hstored]
      by_cases hnone : p.session.receiver = none
      · simp [filed.rxTasks hnone, persisted]
      · rw [engine.recordOf hnone]
    · have hengine : p.session.receiver ≠ none := by
        intro hnone
        rw [filed.rxTasks hnone] at he
        cases he
      have hsame : p'.session.state.terminal = false := running
      rw [hsession] at hsame
      have htake : p'.rxTasks.take p'.ran = p.rxTasks.take p.ran ++ [e] := by
        obtain ⟨rest, hrest⟩ := engine.rxTasks
        have hlt := (List.getElem?_eq_some_iff.mp he).1
        rw [hran, ← hrest, List.take_append_of_le_length hlt, List.take_add_one, he]
        rfl
      rw [hevents, recordsOf_onRxEvent p.session e hsame, htake, persisted_append, List.map_append,
        hstored, engine.recordOf hengine]

/-! ## While `Fail` waits, and after it -/

/-- A waiting method blocks the loop. -/
theorem step_waiting (h : p.step sha a = some p') (waiting : p.session.stopping ≠ none) :
    a = .here .stopped ∨ p'.session.stopping = p.session.stopping ∧ a ≠ .here .task := by
  have blocked : ∀ {r : Option Party}, p.onLoop r ≠ some p' := by
    intro r h
    exact waiting (free_of_onLoop h)
  cases a with
  | ctrl io msg => exact absurd h blocked
  | sack wire =>
    cases h
    exact .inr ⟨rfl, by simp⟩
  | block wire =>
    cases h
    exact .inr ⟨rfl, by simp⟩
  | here act =>
    cases act with
    | stopped => exact .inl rfl
    | senderThread io =>
      obtain ⟨t, -, h⟩ := Option.bind_eq_some_iff.mp h
      obtain ⟨⟨t', out⟩, -, rfl⟩ := Option.map_eq_some_iff.mp h
      exact .inr ⟨rfl, by simp⟩
    | writerThread io =>
      obtain ⟨t, -, h⟩ := Option.bind_eq_some_iff.mp h
      obtain ⟨⟨t', fs, out⟩, -, rfl⟩ := Option.map_eq_some_iff.mp h
      exact .inr ⟨rfl, by simp⟩
    | _ => exact absurd h blocked

/-- A method that waited no longer does. -/
theorem step_stopped (waits : p.Waits) (h : p.step sha (.here .stopped) = some p') :
    p'.session.stopping = none ∧ ∀ t, p.session.receiver = some t → t.pc = .exited := by
  obtain ⟨⟨s, fs, out⟩, hstop, rfl⟩ := Option.map_eq_some_iff.mp h
  have spec := TransferSession.finishStop_spec hstop
  have waiting : p.session.stopping.isSome = true := by
    rw [Option.isSome_iff_ne_none]
    intro hnone
    simp [TransferSession.finishStop, hnone] at hstop
  exact ⟨(TransferSession.turn_finishStop hstop (waits waiting)).2.1, spec.exited⟩

/-- The record on file when `Fail` starts to wait, or has failed, is up to date. -/
structure Kept (sha : Bytes → Bytes) (p : Party) (records : List (Option ResumeRecord)) : Prop where
  waiting : ∀ code message, p.session.stopping = some (.fail code message) → p.Described sha records
  failed : p.session.state = .failed →
    p.Described sha records ∧ ∀ t, p.session.receiver = some t → t.pc = .exited

theorem Party.Described.engine (h : p.Described sha records) : p.session.receiver ≠ none := by
  obtain ⟨files, hfiles, -⟩ := h
  intro hnone
  simp [Party.progress, hnone] at hfiles

theorem Party.Described.step (h : p.Described sha records) (engine : EngineStep sha p a p')
    (progress : p'.progress = p.progress) (events : recordsOf (p.events sha a) = []) :
    p'.Described sha (records ++ recordsOf (p.events sha a)) := by
  obtain ⟨files, hfiles, hlast⟩ := h
  refine ⟨files, progress.trans hfiles, ?_⟩
  rw [events, List.append_nil, hlast, engine.recordOf (Party.Described.engine ⟨files, hfiles, hlast⟩)]

/-- `Fail` starts to wait: what is on file is what it finds. -/
theorem described_fail (filed : Filed sha p records) (waits : p.Waits) (saved : p.Saved)
    (h : p.step sha a = some p') (free : p.session.stopping = none)
    (waiting : p'.session.stopping ≠ none) :
    p'.Described sha (records ++ recordsOf (p.events sha a)) := by
  have engine := (receiverMove filed.role filed.sender h).engine
  have turned := Party.step_turned waits h
  have running : p'.session.state.terminal = false :=
    turned.waits (Option.isSome_iff_ne_none.mpr waiting)
  obtain ⟨hsome, hlast⟩ := saved
  obtain ⟨files, hfiles⟩ := Option.isSome_iff_exists.mp hsome
  have described : p.Described sha records := by
    refine ⟨files, hfiles, ?_⟩
    rw [filed.stored (turn_running turned.turn running), List.getLast?_map, hlast, hfiles]
    rfl
  have progress : p'.progress = p.progress := by
    cases engine with
    | called engine same rxLog => exact progress_called engine
    | started idle engine rxLog => exact absurd idle described.engine
    | thread act engine engine' step same rxLog =>
      subst act
      obtain ⟨t, -, h⟩ := Option.bind_eq_some_iff.mp h
      obtain ⟨⟨t', fs, out⟩, -, rfl⟩ := Option.map_eq_some_iff.mp h
      exact absurd free waiting
  apply described.step engine progress
  obtain ⟨hne, -⟩ | ⟨-, -, e, -, -, hsession, hevents⟩ := step_callback filed.role h
  · exact records_eq_nil turned.turn (turned.unsaved hne) running
  · rw [hsession] at running
    rw [hevents, recordsOf_onRxEvent p.session e running]
    cases e with
    | persist files =>
      -- Storing a snapshot is not a way to fail.
      rw [hsession] at waiting
      exact absurd free waiting
    | _ => rfl

theorem Kept.step (kept : Kept sha p records) (filed : Filed sha p records) (waits : p.Waits)
    (inTime : p.InTime sha a) (h : p.step sha a = some p') :
    Kept sha p' (records ++ recordsOf (p.events sha a)) := by
  have engine := (receiverMove filed.role filed.sender h).engine
  have turned := Party.step_turned waits h
  obtain ⟨saved, still⟩ := inTime p' h
  constructor
  · intro code message hstop
    have waiting : p'.session.stopping ≠ none := by simp [hstop]
    by_cases free : p.session.stopping = none
    · exact described_fail filed waits (saved code message free hstop) h free waiting
    · obtain rfl | ⟨hsame, hne⟩ := step_waiting h free
      · exact absurd (step_stopped waits h).1 waiting
      · rw [hsame] at hstop
        apply (kept.waiting code message hstop).step engine (still code message hstop)
        exact records_eq_nil turned.turn (turned.unsaved hne)
          (turned.waits (Option.isSome_iff_ne_none.mpr waiting))
  · intro hfailed
    obtain hover | ⟨rfl, code, message, hstop⟩ := turned.failed hfailed
    · obtain ⟨described, exited⟩ := kept.failed hover
      have silent : recordsOf (p.events sha a) = [] :=
        records_of_terminal turned.turn (by rw [hover]; rfl)
      cases engine with
      | called called same rxLog =>
        exact ⟨described.step (.called called same rxLog) (progress_called called) silent,
          exited_called called exited⟩
      | started idle engine rxLog => exact absurd idle described.engine
      | thread act engine engine' step same rxLog =>
        simp [Receiver.writerStep, exited _ engine] at step
    · have described := kept.waiting code message hstop
      have exited := (step_stopped waits h).2
      have silent : recordsOf (p.events sha (.here .stopped)) = [] :=
        records_of_failed (hfailed ▸ turned.turn) (turned.unsaved (by simp))
      cases engine with
      | called called same rxLog =>
        exact ⟨described.step (.called called same rxLog) (progress_called called) silent,
          exited_called called exited⟩
      | started idle engine rxLog => exact absurd idle described.engine
      | thread act => cases act

/-! ## Runs -/

theorem filed_run {saveDir : Option Path} {record : Option ResumeRecord} {fs : Fs}
    (run : (party sha { session := .newReceiver saveDir record, fs := fs }).Run Machine.anyStep as p) :
    p.Waits ∧
      Filed sha p (recordsOf (told sha { session := .newReceiver saveDir record, fs := fs } as)) := by
  induction run with
  | init =>
    refine ⟨?_, rfl, rfl, fun _ => rfl, Nat.zero_le _, fun _ => rfl⟩
    intro h
    cases h
  | step run _ hstep ih =>
    obtain ⟨waits, filed⟩ := ih
    rw [told_snoc run, recordsOf_append]
    exact ⟨(Party.step_turned waits hstep).waits, filed.step waits hstep⟩

theorem kept_run {saveDir : Option Path} {record : Option ResumeRecord} {fs : Fs}
    (run : (party sha { session := .newReceiver saveDir record, fs := fs }).Run (Party.InTime sha) as p) :
    Kept sha p (recordsOf (told sha { session := .newReceiver saveDir record, fs := fs } as)) := by
  induction run with
  | init =>
    constructor
    · intro code message h
      cases h
    · intro h
      cases h
  | step run inTime hstep ih =>
    have anyRun := run.mono fun _ _ _ => trivial
    obtain ⟨waits, filed⟩ := filed_run anyRun
    rw [told_snoc anyRun, recordsOf_append]
    exact ih.step filed waits inTime hstep

/-- If `Fail` comes in time whenever a block was written, then a failed receive keeps the record of
    all that was written. -/
theorem failureKeeps_run {saveDir : Option Path} {record : Option ResumeRecord} {fs : Fs}
    (run : (party sha { session := .newReceiver saveDir record, fs := fs }).Run Machine.anyStep as p)
    (inTime : WroteBlock sha { session := .newReceiver saveDir record, fs := fs } as →
      ∀ q b q', (party sha { session := .newReceiver saveDir record, fs := fs }).Took as q b q' →
        q.InTime sha b) :
    FailureKeeps sha { session := .newReceiver saveDir record, fs := fs } as p := by
  intro hfailed wrote
  have steps := Machine.Run.forall_took_iff (Q := fun q b _ => q.InTime sha b)
    (fun _ _ _ _ _ _ => Iff.rfl) run
  exact ((kept_run (steps.mp (inTime wrote))).failed hfailed).1

end

/-! ## A file of one byte -/

/-- Whether `Fail` comes in time, of a single step. -/
def Party.inTimeCheck (sha : Bytes → Bytes) (p : Party) (a : PartyAct) : Bool :=
  (p.step sha a).all fun p' =>
    match p.session.stopping, p'.session.stopping with
    | none, some (.fail _ _) => p.progress.isSome &&
        decide ((persisted (p.rxTasks.take p.ran)).getLast? = p.progress)
    | some (.fail _ _), _ => decide (p'.progress = p.progress)
    | _, _ => true

theorem Party.inTime_of_check {sha : Bytes → Bytes} {p : Party} {a : PartyAct}
    (h : p.inTimeCheck sha a = true) : p.InTime sha a := by
  intro p' hstep
  simp only [inTimeCheck, hstep, Option.all_some] at h
  constructor
  · intro code message hfree hwaits
    simpa [Saved, hfree, hwaits] using h
  · intro code message hwaits
    simpa [hwaits] using h

def oneByteManifest : Manifest := ⟨[⟨ascii "a", 1⟩], [], [⟨ascii "a", false⟩], 1⟩

/-- The block of the file. -/
def oneByteBlock : Bytes :=
  put16 kBlockMagic ++ [kProtoVersion, kBlockFlagLast] ++ put16 0 ++ put32 0 ++ put16 1 ++ [7]

def oneByteParty : Party := { session := .newReceiver (some [ascii "save"]) none, fs := .empty }

/-- The offer, the block and a round of the writer thread, at a time in milliseconds. -/
def oneByteRound (now : UInt32) : List PartyAct :=
  [.here .ready, .ctrl calmOfferIo (.offer oneByteManifest.toJson), .block oneByteBlock] ++
    List.replicate 9 (.here (.writerThread { calmIo with now := now }))

/-- The peer reports an error: `Fail` stops the thread, and its last snapshot comes to the loop. -/
def peerError (now : UInt32) : List PartyAct :=
  [.ctrl calmOfferIo (.error [] []), .here (.writerThread { calmIo with now := now }),
    .here .stopped, .here .task]

/-- After 3 s a snapshot has been stored, and the error comes in time. -/
theorem failureKeeps_oneByte : ∃ p, p.session.state = .failed ∧
    (recordsOf (told (fun _ => []) oneByteParty
      (oneByteRound 3000 ++ .here .task :: peerError 3000))).length = 1 ∧
    FailureKeeps (fun _ => []) oneByteParty (oneByteRound 3000 ++ .here .task :: peerError 3000) p := by
  have hfacts : (((party (fun _ => []) oneByteParty).exec
      (oneByteRound 3000 ++ .here .task :: peerError 3000) oneByteParty).map
        fun p => p.session.state) = some .failed ∧
      (recordsOf (told (fun _ => []) oneByteParty
        (oneByteRound 3000 ++ .here .task :: peerError 3000))).length = 1 ∧
      (party (fun _ => []) oneByteParty).passes (Party.inTimeCheck fun _ => [])
        (oneByteRound 3000 ++ .here .task :: peerError 3000) oneByteParty = true := by
    decide +kernel
  obtain ⟨hstate, hrecords, hpasses⟩ := hfacts
  obtain ⟨p, hexec, hfailed⟩ := Option.map_eq_some_iff.mp hstate
  have run : (party (fun _ => []) oneByteParty).Run (Party.InTime fun _ => []) _ p :=
    Machine.Run.of_passes (fun _ _ => Party.inTime_of_check) hexec hpasses
  have anyRun := run.mono fun _ _ _ => trivial
  refine ⟨p, hfailed, hrecords, failureKeeps_run anyRun fun _ => ?_⟩
  exact (Machine.Run.forall_took_iff (Q := fun q b _ => q.InTime (fun _ => []) b)
    (fun _ _ _ _ _ _ => Iff.rfl) anyRun).mpr run

/-- An error in the first two seconds: the byte was written, and nothing is on record. -/
theorem not_failureKeeps : ¬ ∀ (sha : Bytes → Bytes) (saveDir : Option Path)
    (record : Option ResumeRecord) (fs : Fs) (as : List PartyAct) (p : Party),
    (party sha { session := .newReceiver saveDir record, fs := fs }).Run Machine.anyStep as p →
      FailureKeeps sha { session := .newReceiver saveDir record, fs := fs } as p := by
  intro h
  have hfacts : (((party (fun _ => []) oneByteParty).exec (oneByteRound 0 ++ peerError 0)
        oneByteParty).map fun p => p.session.state) = some .failed ∧
      recordsOf (told (fun _ => []) oneByteParty (oneByteRound 0 ++ peerError 0)) = [] := by
    decide +kernel
  have hwrites : (((party (fun _ => []) oneByteParty).exec ((oneByteRound 0).take 6)
      oneByteParty).bind fun p => (p.step (fun _ => []) (.here (.writerThread calmIo))).bind fun p' =>
        p.session.receiver.bind fun t => p'.session.receiver.bind fun t' =>
          (t.rx[0]?).bind fun f => (t'.rx[0]?).map fun f' => (f.bitmap.count, f'.bitmap.count)) =
      some (0, 1) := by
    decide +kernel
  obtain ⟨hstate, hrecords⟩ := hfacts
  obtain ⟨p, hexec, hfailed⟩ := Option.map_eq_some_iff.mp hstate
  obtain ⟨q, hq, hwrites⟩ := Option.bind_eq_some_iff.mp hwrites
  obtain ⟨q', hstep, hwrites⟩ := Option.bind_eq_some_iff.mp hwrites
  obtain ⟨t, ht, hwrites⟩ := Option.bind_eq_some_iff.mp hwrites
  obtain ⟨t', ht', hwrites⟩ := Option.bind_eq_some_iff.mp hwrites
  obtain ⟨f, hf, hwrites⟩ := Option.bind_eq_some_iff.mp hwrites
  obtain ⟨f', hf', hcounts⟩ := Option.map_eq_some_iff.mp hwrites
  rw [Prod.mk.injEq] at hcounts
  have wrote : WroteBlock (fun _ => []) oneByteParty (oneByteRound 0 ++ peerError 0) := by
    refine ⟨q, calmIo, q', t, t', 0, f, f', ?_, ht, ht', hf, hf', by omega⟩
    exact ⟨(oneByteRound 0).take 6, ⟨_, rfl⟩, Machine.run_of_exec hq, hstep⟩
  obtain ⟨files, -, hlast⟩ := h _ _ _ _ _ p (Machine.run_of_exec hexec) hfailed wrote
  have hnone : (recordsOf (told (fun _ => []) oneByteParty
      (oneByteRound 0 ++ peerError 0))).getLast? = some (some (recordOf _ p.session files)) := hlast
  rw [hrecords] at hnone
  cases hnone

end CrossTransfer.Share
