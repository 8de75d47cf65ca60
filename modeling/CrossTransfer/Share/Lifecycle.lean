import CrossTransfer.Share.ReceiverParty

/-! # The lifecycle of a session

What a session tells its owner: `on_state` and `on_persist`, in the order of the calls. Whatever
happens to the session and in whichever order, it moves until it is in a terminal state and then no
more, and the resume record it cleared stays cleared (`lifecycle_run`).

Every method either changes nothing, or was called in a state that is not terminal and then makes
one of three moves (`Turn`).
-/

namespace CrossTransfer.Share

open CrossTransfer.Library
open CrossTransfer.Transfer

/-! ## What the owner is told -/

/-- The calls of `on_state`. -/
def statesOf (out : List SessionEvent) : List TransferState := out.filterMap fun e => match e with
  | .state s => some s
  | _ => none

/-- The calls of `on_persist`; `none` clears the record. -/
def recordsOf (out : List SessionEvent) : List (Option ResumeRecord) :=
  out.filterMap fun e => match e with
  | .persist record => some record
  | _ => none

@[simp] theorem statesOf_append (out out' : List SessionEvent) :
    statesOf (out ++ out') = statesOf out ++ statesOf out' := List.filterMap_append

@[simp] theorem recordsOf_append (out out' : List SessionEvent) :
    recordsOf (out ++ out') = recordsOf out ++ recordsOf out' := List.filterMap_append

namespace Party

variable (sha : Bytes → Bytes) (p : Party)

/-- What the session hands out in a step. -/
def events : PartyAct → List SessionEvent
  | .here .ready => p.session.onTransportReady.2
  | .here .down => []
  | .here .pause => p.session.pause.2
  | .here .resume => p.session.resume.2
  | .here (.cancel reason) => (p.session.cancel reason).2
  | .here (.sessionEnd reason) => (p.session.onSessionEnd reason).2
  | .here .task =>
    if p.session.isSender then (p.txTasks[p.ran]?).elim [] fun e => (p.session.onTxEvent e).2
    else (p.rxTasks[p.ran]?).elim [] fun e => (p.session.onRxEvent sha e).2
  | .here .stopped => (p.session.finishStop p.fs).elim [] fun r => r.2.2
  | .here (.senderThread _) => []
  | .here (.writerThread _) => []
  | .ctrl io msg => (p.session.onCtrlMessage sha io msg p.fs).elim [] fun r => r.2.2
  | .sack _ => []
  | .block _ => []

end Party

/-- A session on its own: the peer may send anything at any time. -/
def party (sha : Bytes → Bytes) (p : Party) : Machine Party PartyAct where
  init := p
  step := fun p a => p.step sha a

/-- What the session has handed out on a run. -/
def told (sha : Bytes → Bytes) (p : Party) (as : List PartyAct) : List SessionEvent :=
  (party sha p).collect (fun p a => p.events sha a) as p

/-- A session that has just been made. -/
inductive Party.Opened : Party → Prop where
  | sender (m : Manifest) (fileCount : Nat) (fs : Fs) :
      Opened { session := .newSender m fileCount, fs := fs }
  | receiver (saveDir : Option Path) (record : Option ResumeRecord) (fs : Fs) :
      Opened { session := .newReceiver saveDir record, fs := fs }

/-! ## What a method does -/

/-- The moves of a session, with what it says about its state and its record. -/
inductive Turn : TransferState → TransferState → List TransferState →
    List (Option ResumeRecord) → Prop where
  | still {s : TransferState} : Turn s s [] []
  | moved {s s' : TransferState} (running : s.terminal = false) : Turn s s' [s'] []
  /-- The transfer is over, and not because it failed. -/
  | cleared {s s' : TransferState} (running : s.terminal = false) (ended : s'.terminal = true)
      (kept : s' ≠ .failed) : Turn s s' [s'] [none]
  | saved {s : TransferState} (running : s.terminal = false) (record : ResumeRecord) :
      Turn s s [] [some record]

namespace TransferSession

/-- A method makes a move, but it saves no record and ends neither in failure nor cancelled; if it
    waits for the engines, then the session is not over. -/
structure Turned (s s' : TransferSession) (out : List SessionEvent) : Prop where
  turn : Turn s.state s'.state (statesOf out) (recordsOf out)
  stopping : s'.stopping = s.stopping ∨ s'.state.terminal = false
  unsaved : ∀ record, some record ∉ recordsOf out
  unfailed : s'.state = .failed → s.state = .failed
  uncancelled : s'.state = .cancelled → s.state = .cancelled

variable {s s' : TransferSession} {out : List SessionEvent}

theorem turned_of_eq (state : s'.state = s.state) (stopping : s'.stopping = s.stopping)
    (states : statesOf out = []) (records : recordsOf out = []) : Turned s s' out where
  turn := by
    rw [state, states, records]
    exact .still
  stopping := .inl stopping
  unsaved := by simp [records]
  unfailed := state ▸ id
  uncancelled := state ▸ id

/-- A method that first changes fields of no interest here. -/
theorem Turned.after {t : TransferSession} (h : Turned t s' out) (state : t.state = s.state)
    (stopping : t.stopping = s.stopping) : Turned s s' out :=
  ⟨state ▸ h.turn, stopping ▸ h.stopping, h.unsaved, state ▸ h.unfailed, state ▸ h.uncancelled⟩

/-- A method that also sends a message. -/
theorem Turned.ctrl (h : Turned s s' out) (msg : CtrlMsg) : Turned s s' (.ctrl msg :: out) :=
  ⟨h.turn, h.stopping, h.unsaved, h.unfailed, h.uncancelled⟩

theorem Turned.ctrl_last (h : Turned s s' out) (msg : CtrlMsg) : Turned s s' (out ++ [.ctrl msg]) where
  turn := by
    have turn := h.turn
    rwa [statesOf_append, recordsOf_append, show statesOf [.ctrl msg] = [] from rfl,
      show recordsOf [.ctrl msg] = [] from rfl, List.append_nil, List.append_nil]
  stopping := h.stopping
  unsaved := by simpa [recordsOf] using h.unsaved
  unfailed := h.unfailed
  uncancelled := h.uncancelled

theorem turned_setState (s : TransferSession) {state : TransferState}
    (hstate : state ≠ .failed ∧ state ≠ .cancelled) :
    Turned s (s.setState state).1 (s.setState state).2 := by
  unfold setState
  split
  · exact turned_of_eq rfl rfl rfl rfl
  · rename_i h
    rw [Bool.or_eq_true, not_or, Bool.not_eq_true s.state.terminal] at h
    exact ⟨.moved h.2, .inl rfl, by simp [recordsOf], fun hfailed => absurd hfailed hstate.1,
      fun hcancelled => absurd hcancelled hstate.2⟩

theorem turned_fail (s : TransferSession) (code message : Bytes) :
    Turned s (s.fail code message) [] := by
  unfold fail
  split
  · exact turned_of_eq rfl rfl rfl rfl
  · rename_i h
    exact ⟨.still, .inr (Bool.not_eq_true _ ▸ h), by simp [recordsOf], id, id⟩

theorem turned_startOffer (s : TransferSession) : Turned s s.startOffer.1 s.startOffer.2 := by
  unfold startOffer
  split
  · exact turned_fail ..
  · split
    · exact turned_of_eq rfl rfl rfl rfl
    · dsimp only
      apply Turned.ctrl_last
      exact (turned_setState _ (by simp)).after rfl rfl

theorem turned_onTransportReady (s : TransferSession) :
    Turned s s.onTransportReady.1 s.onTransportReady.2 := by
  unfold onTransportReady
  dsimp only
  split
  · exact turned_of_eq rfl rfl rfl rfl
  · split
    · exact (turned_startOffer _).after rfl rfl
    · exact (turned_setState _ (by simp)).after rfl rfl

theorem turned_handleAccept (s : TransferSession) (files : List AcceptFile) :
    Turned s (s.handleAccept files).1 (s.handleAccept files).2 := by
  unfold handleAccept startAccepted
  split
  · exact turned_of_eq rfl rfl rfl rfl
  · dsimp only
    split
    · exact (turned_fail _ _ _).after rfl rfl
    · exact (turned_setState _ (by simp)).after rfl rfl

theorem turned_handleFileAck (s : TransferSession) (index : UInt16) (ok : Bool) :
    Turned s (s.handleFileAck index ok) [] := by
  have h : (s.handleFileAck index ok).state = s.state ∧
      (s.handleFileAck index ok).stopping = s.stopping := by
    unfold handleFileAck
    split
    · exact ⟨rfl, rfl⟩
    · split
      · exact ⟨rfl, rfl⟩
      · split
        · exact ⟨rfl, rfl⟩
        · split
          · split <;> exact ⟨rfl, rfl⟩
          · exact ⟨rfl, rfl⟩
  exact turned_of_eq h.1 h.2 rfl rfl

theorem turned_onSenderAllDone (s : TransferSession) :
    Turned s s.onSenderAllDone.1 s.onSenderAllDone.2 := by
  unfold onSenderAllDone
  split
  · exact turned_of_eq rfl rfl rfl rfl
  · dsimp only
    apply Turned.ctrl
    exact (turned_setState _ (by simp)).after rfl rfl

theorem turned_acceptOffer {sha : Bytes → Bytes} {io : OfferIo} {m : Manifest} {dir : Path}
    {fs fs' : Fs} (h : s.acceptOffer sha io m dir fs = some (s', fs', out)) : Turned s s' out := by
  unfold acceptOffer at h
  dsimp only at h
  split at h
  · cases h
    exact (turned_fail _ _ _).after rfl rfl
  · split at h
    · cases h
    · cases h
      apply Turned.ctrl
      exact (turned_setState _ (by simp)).after rfl rfl

theorem turned_handleOffer {sha : Bytes → Bytes} {io : OfferIo} {j : Json} {fs fs' : Fs}
    (h : s.handleOffer sha io j fs = some (s', fs', out)) : Turned s s' out := by
  unfold handleOffer at h
  split at h
  · cases h
    exact turned_of_eq rfl rfl rfl rfl
  · split at h
    · cases h
    · cases h
      exact turned_fail ..
    · split at h
      · cases h
        exact (turned_fail _ _ _).after rfl rfl
      · exact turned_acceptOffer h

theorem turned_onReceiverAllDone (s : TransferSession) :
    Turned s s.onReceiverAllDone.1 s.onReceiverAllDone.2 := by
  unfold onReceiverAllDone
  split
  · exact turned_of_eq rfl rfl rfl rfl
  · rename_i running
    rw [Bool.not_eq_true] at running
    split
    · exact turned_setState s (by simp)
    · have hstate : s.state ≠ .completed := by
        intro h
        simp [h, TransferState.terminal] at running
      simp only [setState, hstate, running, decide_false, Bool.or_false, Bool.false_eq_true, if_false]
      exact ⟨.cleared running rfl (by simp), .inl rfl, by simp [recordsOf], by simp, by simp⟩

theorem turn_persistReceiver (s : TransferSession) (sha : Bytes → Bytes)
    (files : List ReceiverFileState) :
    Turn s.state s.state (statesOf (s.persistReceiver sha files))
      (recordsOf (s.persistReceiver sha files)) := by
  unfold persistReceiver
  split
  · exact .still
  · rename_i running
    exact .saved (Bool.not_eq_true _ ▸ running) _

theorem turned_onSessionEnd (s : TransferSession) (reason : Bytes) :
    Turned s (s.onSessionEnd reason).1 (s.onSessionEnd reason).2 := by
  unfold onSessionEnd
  split
  · exact turned_of_eq rfl rfl rfl rfl
  · split
    · exact (turned_onReceiverAllDone _).after rfl rfl
    · exact turned_fail ..

theorem turned_pause (s : TransferSession) : Turned s s.pause.1 s.pause.2 := by
  unfold pause
  split
  · exact turned_of_eq rfl rfl rfl rfl
  · cases s.isSender with
    | true => exact turned_of_eq rfl rfl rfl rfl
    | false => exact turned_of_eq rfl rfl rfl rfl

theorem turned_resume (s : TransferSession) : Turned s s.resume.1 s.resume.2 := by
  unfold resume
  split
  · exact turned_of_eq rfl rfl rfl rfl
  · cases s.isSender with
    | true => exact turned_of_eq rfl rfl rfl rfl
    | false => exact turned_of_eq rfl rfl rfl rfl

theorem turned_cancel (s : TransferSession) (reason : Bytes) :
    Turned s (s.cancel reason).1 (s.cancel reason).2 := by
  unfold cancel
  split
  · exact turned_of_eq rfl rfl rfl rfl
  · rename_i running
    exact ⟨.still, .inr (Bool.not_eq_true _ ▸ running), by simp [recordsOf], id, id⟩

theorem turned_onCtrlMessage {sha : Bytes → Bytes} {io : OfferIo} {msg : CtrlMsg} {fs fs' : Fs}
    (h : s.onCtrlMessage sha io msg fs = some (s', fs', out)) : Turned s s' out := by
  cases msg with
  | offer j => exact turned_handleOffer h
  | accept files =>
    cases h
    exact turned_handleAccept ..
  | fileDone index hash =>
    simp only [onCtrlMessage] at h
    split at h
    · cases h
      exact turned_of_eq rfl rfl rfl rfl
    · cases h
      exact turned_of_eq rfl rfl rfl rfl
  | fileOk index =>
    cases h
    exact turned_handleFileAck ..
  | fileBad index reason =>
    cases h
    exact turned_handleFileAck ..
  | transferDone =>
    simp only [onCtrlMessage] at h
    split at h
    · cases h
      exact turned_of_eq rfl rfl rfl rfl
    · split at h
      · cases h
        exact (turned_onReceiverAllDone _).after rfl rfl
      · cases h
        exact turned_of_eq rfl rfl rfl rfl
  | pause =>
    cases h
    exact turned_of_eq rfl rfl rfl rfl
  | resume =>
    simp only [onCtrlMessage] at h
    split at h
    · cases h
      exact turned_of_eq rfl rfl rfl rfl
    · cases h
      exact turned_of_eq rfl rfl rfl rfl
  | cancel reason =>
    simp only [onCtrlMessage] at h
    split at h
    · cases h
      exact turned_of_eq rfl rfl rfl rfl
    · rename_i running
      cases h
      exact ⟨.still, .inr (Bool.not_eq_true _ ▸ running), by simp [recordsOf], id, id⟩
  | error code message =>
    cases h
    exact turned_fail ..

theorem turned_onTxEvent (s : TransferSession) (e : TxEvent) :
    Turned s (s.onTxEvent e).1 (s.onTxEvent e).2 := by
  cases e with
  | data wire => exact turned_of_eq rfl rfl rfl rfl
  | fileDone index hash => exact turned_of_eq rfl rfl rfl rfl
  | allDone => exact turned_onSenderAllDone s
  | error code message => exact turned_fail ..

theorem turned_onRxEvent (s : TransferSession) (sha : Bytes → Bytes) {e : RxEvent}
    (h : ∀ files, e ≠ .persist files) : Turned s (s.onRxEvent sha e).1 (s.onRxEvent sha e).2 := by
  cases e with
  | sack wire => exact turned_of_eq rfl rfl rfl rfl
  | fileOk index => exact turned_of_eq rfl rfl rfl rfl
  | fileBad index reason => exact turned_of_eq rfl rfl rfl rfl
  | allDone => exact turned_onReceiverAllDone s
  | error code message => exact turned_fail ..
  | persist files => exact absurd rfl (h files)

/-- The rest of a method that waited: the session was not over, and now it is. -/
theorem turn_finishStop {fs fs' : Fs} (h : s.finishStop fs = some (s', fs', out))
    (running : s.state.terminal = false) :
    Turn s.state s'.state (statesOf out) (recordsOf out) ∧ s'.stopping = none ∧
      (∀ record, some record ∉ recordsOf out) ∧
      (s'.state = .failed → ∃ code message, s.stopping = some (.fail code message)) ∧
      (s'.state = .cancelled → s.stopping = some .cancel ∨ s.stopping = some .peerCancel) := by
  have hstate : ∀ state : TransferState, state.terminal = true → s.state ≠ state := by
    intro state hstate heq
    simp [heq, hstate] at running
  have hfailed := hstate .failed rfl
  have hcancelled := hstate .cancelled rfl
  unfold finishStop at h
  split at h
  · cases h
  · split at h
    · cases h
    · rename_i k hk hstopped
      cases k with
      | fail code message =>
        simp only [setState, hfailed, running, decide_false, Bool.or_false, Bool.false_eq_true,
          if_false, Option.some.injEq, Prod.mk.injEq] at h
        obtain ⟨rfl, -, rfl⟩ := h
        split
        · exact ⟨.moved running, rfl, by simp [recordsOf], fun _ => ⟨code, message, hk⟩, by simp⟩
        · exact ⟨.moved running, rfl, by simp [recordsOf], fun _ => ⟨code, message, hk⟩, by simp⟩
      | peerCancel =>
        simp only [setState, hcancelled, running, decide_false, Bool.or_false, Bool.false_eq_true,
          if_false, Option.some.injEq, Prod.mk.injEq] at h
        obtain ⟨rfl, -, rfl⟩ := h
        exact ⟨.moved running, rfl, by simp [recordsOf], by simp, fun _ => .inr hk⟩
      | cancel =>
        simp only [setState, hcancelled, running, decide_false, Bool.or_false, Bool.false_eq_true,
          if_false, Option.some.injEq, Prod.mk.injEq] at h
        obtain ⟨rfl, -, rfl⟩ := h
        cases s.isSender with
        | true => exact ⟨.moved running, rfl, by simp [recordsOf], by simp, fun _ => .inl hk⟩
        | false => exact ⟨.cleared running rfl (by simp), rfl, by simp [recordsOf], by simp, fun _ => .inl hk⟩

end TransferSession

/-! ## Steps and runs -/

section

variable {sha : Bytes → Bytes} {p p' p₀ : Party} {a : PartyAct} {as : List PartyAct}

open TransferSession

/-- While a method waits for the engines, the session is not over. -/
def Party.Waits (p : Party) : Prop :=
  p.session.stopping.isSome = true → p.session.state.terminal = false

/-- What a step of a party does. -/
structure Party.Turned (sha : Bytes → Bytes) (p : Party) (a : PartyAct) (p' : Party) : Prop where
  turn : Turn p.session.state p'.session.state (statesOf (p.events sha a))
    (recordsOf (p.events sha a))
  waits : p'.Waits
  /-- Only a callback of the engine saves a record. -/
  unsaved : a ≠ .here .task → ∀ record, some record ∉ recordsOf (p.events sha a)
  /-- Only the rest of `Fail` ends in failure. -/
  failed : p'.session.state = .failed → p.session.state = .failed ∨
    a = .here .stopped ∧ ∃ code message, p.session.stopping = some (.fail code message)
  /-- Only the rest of `Cancel`, or of the peer's, ends cancelled. -/
  cancelled : p'.session.state = .cancelled → p.session.state = .cancelled ∨
    a = .here .stopped ∧ (p.session.stopping = some .cancel ∨ p.session.stopping = some .peerCancel)

theorem free_of_onLoop {r : Option Party} (h : p.onLoop r = some p') : p.session.stopping = none := by
  unfold Party.onLoop at h
  split at h
  · cases h
  · rename_i hnone
    simpa using hnone

theorem Party.Turned.of_method {s : TransferSession} {out : List SessionEvent}
    (h : p.session.Turned s out) (free : p.session.stopping = none) (session : p'.session = s)
    (events : p.events sha a = out) : p.Turned sha a p' := by
  subst session events
  refine ⟨h.turn, fun hsome => ?_, fun _ => h.unsaved, fun hfailed => .inl (h.unfailed hfailed),
    fun hcancelled => .inl (h.uncancelled hcancelled)⟩
  obtain hsame | hopen := h.stopping
  · rw [hsame, free] at hsome
    cases hsome
  · exact hopen

/-- A step that leaves the session's state alone and says nothing. -/
theorem Party.Turned.of_aside (waits : p.Waits) (state : p'.session.state = p.session.state)
    (stopping : p'.session.stopping = p.session.stopping) (events : p.events sha a = []) :
    p.Turned sha a p' := by
  refine ⟨?_, fun hsome => ?_, by simp [events, recordsOf], fun hfailed => .inl (state ▸ hfailed),
    fun hcancelled => .inl (state ▸ hcancelled)⟩
  · rw [events, state]
    exact .still
  · rw [state]
    exact waits (stopping ▸ hsome)

theorem turned_task (h : p.onLoop (p.taskStep sha) = some p') : p.Turned sha (.here .task) p' := by
  have free := free_of_onLoop h
  have h := onLoop_some h
  simp only [Party.taskStep] at h
  split at h
  · rename_i role
    obtain ⟨e, he, rfl⟩ := Option.map_eq_some_iff.mp h
    exact .of_method (turned_onTxEvent _ e) free rfl (by simp [Party.events, role, he])
  · rename_i role
    obtain ⟨e, he, rfl⟩ := Option.map_eq_some_iff.mp h
    have hevents : p.events sha (.here .task) = (p.session.onRxEvent sha e).2 := by
      simp [Party.events, role, he]
    by_cases hpersist : ∃ files, e = .persist files
    · obtain ⟨files, rfl⟩ := hpersist
      refine ⟨?_, fun hsome => ?_, fun hne => absurd rfl hne, .inl, .inl⟩
      · rw [hevents]
        exact turn_persistReceiver p.session sha files
      · change p.session.stopping.isSome = true at hsome
        rw [free] at hsome
        cases hsome
    · exact .of_method (turned_onRxEvent _ sha (not_exists.mp hpersist)) free rfl hevents

theorem turned_stopped (waits : p.Waits) (h : p.stoppedStep = some p') :
    p.Turned sha (.here .stopped) p' := by
  obtain ⟨⟨s, fs, out⟩, hstop, rfl⟩ := Option.map_eq_some_iff.mp h
  have hwait : p.session.stopping.isSome = true := by
    unfold finishStop at hstop
    split at hstop
    · cases hstop
    · rename_i hk
      rw [hk]
      rfl
  obtain ⟨turn, hnone, unsaved, failing, cancelling⟩ := turn_finishStop hstop (waits hwait)
  have hevents : p.events sha (.here .stopped) = out := by simp [Party.events, hstop]
  refine ⟨hevents ▸ turn, fun hsome => ?_, fun _ => hevents ▸ unsaved,
    fun hfailed => .inr ⟨rfl, failing hfailed⟩,
    fun hcancelled => .inr ⟨rfl, cancelling hcancelled⟩⟩
  have hnone' : (p.returned s out).session.stopping = none := hnone
  rw [hnone'] at hsome
  cases hsome

/-- Every step is a move. -/
theorem Party.step_turned (waits : p.Waits) (h : p.step sha a = some p') : p.Turned sha a p' := by
  have call : ∀ {r : TransferSession × List SessionEvent}, p.session.Turned r.1 r.2 →
      p.onLoop (some (p.returned r.1 r.2)) = some p' → p.events sha a = r.2 → p.Turned sha a p' := by
    intro r hturned h hevents
    refine .of_method hturned (free_of_onLoop h) ?_ hevents
    cases onLoop_some h
    rfl
  cases a with
  | ctrl io msg =>
    obtain ⟨⟨s, fs, out⟩, hmsg, rfl⟩ := Option.map_eq_some_iff.mp (onLoop_some h)
    exact .of_method (turned_onCtrlMessage hmsg) (free_of_onLoop h) rfl
      (by simp [Party.events, hmsg])
  | sack wire =>
    cases h
    exact .of_aside waits rfl rfl rfl
  | block wire =>
    cases h
    exact .of_aside waits rfl rfl rfl
  | here act =>
    cases act with
    | ready => exact call (turned_onTransportReady _) h rfl
    | down => exact call (r := (p.session.onTransportDown, [])) (turned_of_eq rfl rfl rfl rfl) h rfl
    | pause => exact call (turned_pause _) h rfl
    | resume => exact call (turned_resume _) h rfl
    | cancel reason => exact call (turned_cancel _ _) h rfl
    | sessionEnd reason => exact call (turned_onSessionEnd _ _) h rfl
    | task => exact turned_task h
    | stopped => exact turned_stopped waits h
    | senderThread io =>
      obtain ⟨t, -, h⟩ := Option.bind_eq_some_iff.mp h
      obtain ⟨⟨t', out⟩, -, rfl⟩ := Option.map_eq_some_iff.mp h
      exact .of_aside waits rfl rfl rfl
    | writerThread io =>
      obtain ⟨t, -, h⟩ := Option.bind_eq_some_iff.mp h
      obtain ⟨⟨t', fs, out⟩, -, rfl⟩ := Option.map_eq_some_iff.mp h
      exact .of_aside waits rfl rfl rfl

/-- What has been told agrees with the state that the session is in. -/
structure Diary (state : TransferState) (states : List TransferState)
    (records : List (Option ResumeRecord)) : Prop where
  /-- A terminal state that was announced is the one the session is in. -/
  ended : ∀ s ∈ states, s.terminal = true → s = state
  /-- No state was announced after it. -/
  silent : ∀ before s rest, states = before ++ s :: rest → s.terminal = true → rest = []
  once : states.count .completed ≤ 1
  cleared : none ∈ records → state.terminal = true ∧ state ≠ .failed
  last : ∀ before rest, records = before ++ none :: rest → rest = []

theorem rest_eq_nil {α : Type} {xs before rest : List α} {x y : α}
    (h : xs ++ [y] = before ++ x :: rest) (hx : x ∉ xs) : rest = [] := by
  obtain rfl | ⟨rest, r, rfl⟩ := List.eq_nil_or_concat' rest
  · rfl
  · rw [← List.cons_append, ← List.append_assoc] at h
    obtain ⟨rfl, -⟩ := List.append_inj' h rfl
    exact absurd (by simp) hx

/-- A session that is not over has announced no end, and has not cleared the record. -/
theorem Diary.running {s : TransferState} {states : List TransferState}
    {records : List (Option ResumeRecord)} (diary : Diary s states records)
    (running : s.terminal = false) : (∀ x ∈ states, x.terminal = false) ∧ none ∉ records := by
  constructor
  · intro x hx
    by_contra hended
    rw [Bool.not_eq_false] at hended
    rw [diary.ended x hx hended, running] at hended
    cases hended
  · intro hnone
    rw [(diary.cleared hnone).1] at running
    cases running

/-- What the next state adds to those announced. -/
theorem Diary.announce {s : TransferState} {states : List TransferState}
    {records : List (Option ResumeRecord)} (diary : Diary s states records)
    (running : s.terminal = false) (s' : TransferState) :
    (∀ x ∈ states ++ [s'], x.terminal = true → x = s') ∧
      (∀ before x rest, states ++ [s'] = before ++ x :: rest → x.terminal = true → rest = []) ∧
      (states ++ [s']).count .completed ≤ 1 := by
  have never : ∀ x, x.terminal = true → x ∉ states := by
    intro x hended hx
    rw [(diary.running running).1 x hx] at hended
    cases hended
  refine ⟨?_, ?_, ?_⟩
  · intro x hx hended
    obtain hx | hx := List.mem_append.mp hx
    · exact absurd hx (never x hended)
    · exact List.mem_singleton.mp hx
  · intro before x rest heq hended
    exact rest_eq_nil heq (never x hended)
  · rw [List.count_append, List.count_eq_zero.mpr (never .completed rfl), Nat.zero_add]
    exact List.count_le_length

theorem Diary.turn {s s' : TransferState} {states said : List TransferState}
    {records saved : List (Option ResumeRecord)} (diary : Diary s states records)
    (turn : Turn s s' said saved) : Diary s' (states ++ said) (records ++ saved) := by
  cases turn with
  | still => simpa using diary
  | moved running =>
    obtain ⟨ended, silent, once⟩ := diary.announce running s'
    have hnone := (diary.running running).2
    rw [List.append_nil]
    refine ⟨ended, silent, once, fun h => absurd h hnone, fun before rest heq => ?_⟩
    exact absurd (by simp [heq]) hnone
  | cleared running closed kept =>
    obtain ⟨ended, silent, once⟩ := diary.announce running s'
    exact ⟨ended, silent, once, fun _ => ⟨closed, kept⟩,
      fun before rest heq => rest_eq_nil heq (diary.running running).2⟩
  | saved running record =>
    have hnone : none ∉ records ++ [some record] := by
      simpa using (diary.running running).2
    rw [List.append_nil]
    refine ⟨diary.ended, diary.silent, diary.once, fun h => absurd h hnone,
      fun before rest heq => ?_⟩
    exact absurd (by simp [heq]) hnone

theorem told_snoc {as : List PartyAct} (run : (party sha p₀).Run Machine.anyStep as p)
    (a : PartyAct) : told sha p₀ (as ++ [a]) = told sha p₀ as ++ p.events sha a :=
  Machine.collect_snoc run.exec_eq a

theorem diary_run (opened : p₀.Opened) (run : (party sha p₀).Run Machine.anyStep as p) :
    p.Waits ∧ Diary p.session.state (statesOf (told sha p₀ as)) (recordsOf (told sha p₀ as)) := by
  induction run with
  | init =>
    have hstart : p₀.session.state = .connecting ∧ p₀.session.stopping = none := by
      cases opened <;> exact ⟨rfl, rfl⟩
    constructor
    · intro h
      rw [show (party sha p₀).init.session.stopping = none from hstart.2] at h
      cases h
    · have htold : told sha p₀ [] = [] := rfl
      rw [htold]
      exact ⟨by simp [statesOf], by simp [statesOf], by simp [statesOf], by simp [recordsOf],
        by simp [recordsOf]⟩
  | step run _ hstep ih =>
    have turned := Party.step_turned ih.1 hstep
    rw [told_snoc run, statesOf_append, recordsOf_append]
    exact ⟨turned.waits, ih.2.turn turned.turn⟩

/-- A session that is over stays as it is, and says nothing about it. -/
theorem ended_run {bs : List PartyAct} (run : (party sha p₀).Run Machine.anyStep as p)
    (waits : p.Waits) (ended : p.session.state.terminal = true)
    (hexec : (party sha p₀).exec bs p = some p') :
    p'.session.state = p.session.state ∧
      statesOf (told sha p₀ (as ++ bs)) = statesOf (told sha p₀ as) := by
  induction bs generalizing as p with
  | nil =>
    obtain rfl := Option.some.inj hexec
    exact ⟨rfl, by rw [List.append_nil]⟩
  | cons b bs ih =>
    simp only [Machine.exec, Option.bind_eq_some_iff] at hexec
    obtain ⟨mid, hstep, hrest⟩ := hexec
    obtain ⟨turn, waits', -, -, -⟩ := Party.step_turned waits hstep
    have hmid : mid.session.state = p.session.state ∧ statesOf (p.events sha b) = [] := by
      generalize mid.session.state = s', statesOf (p.events sha b) = said,
        recordsOf (p.events sha b) = saved at turn
      have hopen : p.session.state.terminal ≠ false := by simp [ended]
      cases turn with
      | still => exact ⟨rfl, rfl⟩
      | moved running => exact absurd running hopen
      | cleared running => exact absurd running hopen
      | saved running => exact absurd running hopen
    have hended : mid.session.state.terminal = true := hmid.1 ▸ ended
    obtain ⟨hstate, hsaid⟩ := ih (run.step trivial hstep) waits' hended hrest
    have hstart : statesOf (told sha p₀ (as ++ [b])) = statesOf (told sha p₀ as) := by
      rw [told_snoc run, statesOf_append, hmid.2, List.append_nil]
    rw [List.append_assoc, List.singleton_append] at hsaid
    exact ⟨hstate.trans hmid.1, hsaid.trans hstart⟩

/-- The life of a session up to here. -/
structure Lifecycle (sha : Bytes → Bytes) (p₀ : Party) (as : List PartyAct) (p : Party) : Prop where
  /-- From a terminal state on, the state stays and `on_state` is not called. -/
  final : ∀ before rest q, as = before ++ rest → (party sha p₀).exec before p₀ = some q →
    q.session.state.terminal = true → p.session.state = q.session.state ∧
      statesOf (told sha p₀ as) = statesOf (told sha p₀ before)
  /-- Also within a step, nothing is announced after a terminal state. -/
  silent : ∀ before s rest, statesOf (told sha p₀ as) = before ++ s :: rest → s.terminal = true →
    rest = []
  completedOnce : (statesOf (told sha p₀ as)).count .completed ≤ 1
  /-- A record that was cleared is not written again. -/
  cleared : ∀ before rest, recordsOf (told sha p₀ as) = before ++ none :: rest →
    ∀ record, some record ∉ rest
  failedKeeps : p.session.state = .failed → none ∉ recordsOf (told sha p₀ as)

/-- Every order of messages, callbacks, transport events, session ends and local calls is such a
    life. -/
theorem lifecycle_run (opened : p₀.Opened) (run : (party sha p₀).Run Machine.anyStep as p) :
    Lifecycle sha p₀ as p where
  final before rest q has hexec ended := by
    subst has
    have hbefore : (party sha p₀).Run Machine.anyStep before q := Machine.run_of_exec hexec
    obtain ⟨mid, hmid, hrest⟩ := Machine.exec_append_some run.exec_eq
    obtain rfl : q = mid := Option.some.inj (hexec.symm.trans hmid)
    exact ended_run hbefore (diary_run opened hbefore).1 ended hrest
  silent := (diary_run opened run).2.silent
  completedOnce := (diary_run opened run).2.once
  cleared before rest hrecords record hmem := by
    rw [(diary_run opened run).2.last before rest hrecords] at hmem
    cases hmem
  failedKeeps hfailed hnone := ((diary_run opened run).2.cleared hnone).2 hfailed

end

/-- A file of one byte is received and verified, and the user cancels before the callbacks of the engine run:
    `on_file_ok`, `on_persist` and `on_all_done` come when the session is over. -/
def lateCallbacks : List PartyAct :=
  let write := PartyAct.here (.writerThread ⟨true, true, 0, [], 0⟩)
  let io : OfferIo := ⟨⟨fun _ => true, fun _ => true, fun _ => true, []⟩, fun _ => 0⟩
  let manifest : Manifest := ⟨[⟨ascii "a", 1⟩], [], [⟨ascii "a", false⟩], 1⟩
  [.here .ready, .ctrl io (.offer manifest.toJson), .ctrl io (.fileDone 0 [7]),
    .block ((encodeBlock ⟨0, 0, 0, 1⟩ [7]).getD [])] ++ List.replicate 12 write ++
  [.here (.cancel (ascii "user")), .here .stopped, .here .task, .here .task, .here .task]

theorem lifecycle_cancelled : ∃ p : Party, p.session.state = .cancelled ∧
    p.rxTasks = [.fileOk 0, .persist [⟨0, [], true⟩], .allDone] ∧ p.ran = 3 ∧
    Lifecycle id { session := .newReceiver (some [ascii "save"]) none, fs := .empty } lateCallbacks p := by
  have hfacts : ((party id { session := .newReceiver (some [ascii "save"]) none, fs := .empty }).exec lateCallbacks
      { session := .newReceiver (some [ascii "save"]) none, fs := .empty }).map
        (fun p => (p.session.state, p.rxTasks, p.ran)) =
      some (.cancelled, [.fileOk 0, .persist [⟨0, [], true⟩], .allDone], 3) := by
    decide +kernel
  obtain ⟨p, hexec, hfacts⟩ := Option.map_eq_some_iff.mp hfacts
  simp only [Prod.mk.injEq] at hfacts
  exact ⟨p, hfacts.1, hfacts.2.1, hfacts.2.2,
    lifecycle_run (.receiver (some [ascii "save"]) none .empty) (Machine.run_of_exec hexec)⟩

end CrossTransfer.Share
