import CrossTransfer.Share.FinalRecord

/-! # Who has paused a transfer

A sending session is to be paused while its own user or the receiver has paused it.  The session
folds both into the one flag of its engine.  `pausedByBoth_run_iff`: the flag is right in every state
of a run exactly when no pause was in effect when the engine was started, and the user never resumed
while the receiver's last word was `pause`.
-/

namespace CrossTransfer.Share

open CrossTransfer.Library
open CrossTransfer.Transfer

/-! ## The sender thread -/

section Thread

variable {t t' : Sender} {sha : Bytes → Bytes} {io : TxIo} {out : List TxEvent}

theorem paused_senderStep (h : t.senderStep sha io = some (t', out)) : t'.paused = t.paused :=
  congrArg Prod.fst (Sender.outer_senderStep h)

theorem paused_onSack (t : Sender) (wire : Bytes) : (t.onSack wire).paused = t.paused := by
  unfold Sender.onSack
  split
  · rfl
  · split
    · rfl
    · dsimp only
      split <;> rfl

theorem paused_onFileOk (t : Sender) (index : UInt16) : (t.onFileOk index).paused = t.paused := by
  unfold Sender.onFileOk
  split
  · rfl
  · split <;> rfl

theorem paused_onFileBad (t : Sender) (index : UInt16) : (t.onFileBad index).paused = t.paused := by
  unfold Sender.onFileBad
  split
  · rfl
  · split <;> rfl

theorem paused_start (m : Manifest) (runs : List (UInt16 × List SackRun)) (verified : List UInt16) :
    (Sender.start m runs verified).paused = false := by
  have hfold : ∀ (vs : List UInt16) (t : Sender), (vs.foldl Sender.startVerified t).paused = t.paused := by
    intro vs
    induction vs with
    | nil => exact fun _ => rfl
    | cons v vs ih =>
      intro t
      rw [List.foldl_cons, ih]
      unfold Sender.startVerified
      split <;> rfl
  rw [Sender.start, hfold]

theorem start_pc (m : Manifest) (runs : List (UInt16 × List SackRun)) (verified : List UInt16) :
    (Sender.start m runs verified).pc = .file 0 :=
  (Sender.called_startVerified verified
    { tx := m.files.mapIdx (Sender.startFile runs), pc := .file 0 }).pc

end Thread

/-! ## Pauses in effect -/

/-- The engine of a session that is neither over nor about to be, while its thread runs. -/
def runningEngine (s : TransferSession) : Option Sender :=
  if s.state.terminal || s.stopping.isSome then none
  else s.sender.filter fun t => t.pc != .exited

/-- Whether the receiver pauses the transfer, after one more message. -/
def pauseAfter (paused : Bool) : CtrlMsg → Bool
  | .pause => true
  | .resume => false
  | _ => paused

/-- Whether the last `pause` or `resume` of the receiver was a `pause`. -/
def receiverPaused (received : List CtrlMsg) : Bool := received.foldl pauseAfter false

/-- The engine is paused if the user has paused it or the receiver has, and only then. -/
def PausedByBoth (p : Party) : Prop :=
  ∀ t, runningEngine p.session = some t →
    t.paused = (p.session.paused || receiverPaused p.received)

/-- The session starts its engine on this message. -/
def starts (s : TransferSession) : PartyAct → Bool
  | .ctrl _ (.accept _) =>
    !s.acceptReceived && s.fileCount == s.manifest.files.length && !s.state.terminal
  | _ => false

/-- The user resumes a running engine. -/
def resumes (s : TransferSession) : PartyAct → Bool
  | .here .resume => s.paused && (runningEngine s).isSome
  | _ => false

/-- No pause is in effect when the engine is started, and none of the receiver's when the user
    resumes. -/
def Undisturbed (p : Party) (a : PartyAct) : Prop :=
  (starts p.session a = true → p.session.paused = false ∧ receiverPaused p.received = false) ∧
  (resumes p.session a = true → receiverPaused p.received = false)

theorem receiverPaused_snoc (received : List CtrlMsg) (msg : CtrlMsg) :
    receiverPaused (received ++ [msg]) = pauseAfter (receiverPaused received) msg := by
  rw [receiverPaused, List.foldl_append]
  rfl

/-- A method that pauses and resumes nothing: a running engine was running, with its flag. -/
structure Still (s s' : TransferSession) : Prop where
  paused : s'.paused = s.paused
  engine : ∀ t', runningEngine s' = some t' → ∃ t, runningEngine s = some t ∧ t'.paused = t.paused

namespace Still

variable {s s' s'' : TransferSession}

theorem refl (s : TransferSession) : Still s s := ⟨rfl, fun t' ht' => ⟨t', ht', rfl⟩⟩

theorem trans (h : Still s s') (h' : Still s' s'') : Still s s'' := by
  refine ⟨h'.paused.trans h.paused, fun t'' ht'' => ?_⟩
  obtain ⟨t', ht', heq'⟩ := h'.engine t'' ht''
  obtain ⟨t, ht, heq⟩ := h.engine t' ht'
  exact ⟨t, ht, heq'.trans heq⟩

/-- The engine is called, and the session goes on or ends. -/
theorem of_map (paused : s'.paused = s.paused)
    (ended : s.state.terminal = true ∨ s.stopping.isSome = true →
      s'.state.terminal = true ∨ s'.stopping.isSome = true)
    (engine : ∀ t', s'.sender = some t' → t'.pc ≠ .exited →
      ∃ t, s.sender = some t ∧ t.pc ≠ .exited ∧ t'.paused = t.paused) : Still s s' := by
  refine ⟨paused, fun t' ht' => ?_⟩
  rw [runningEngine] at ht'
  split at ht'
  · cases ht'
  · rename_i hgoes
    obtain ⟨hsender, hpc⟩ := Option.filter_eq_some_iff.mp ht'
    obtain ⟨t, ht, hrunning, heq⟩ := engine t' hsender (by simpa using hpc)
    refine ⟨t, ?_, heq⟩
    rw [runningEngine, if_neg, Option.filter_eq_some_iff]
    · exact ⟨ht, by simpa using hrunning⟩
    · intro hover
      exact hgoes (by simpa using ended (by simpa using hover))

/-- Fields that a pause does not depend on. -/
theorem of_eq (paused : s'.paused = s.paused) (state : s'.state = s.state)
    (stopping : s'.stopping = s.stopping) (sender : s'.sender = s.sender) : Still s s' :=
  of_map paused (by rw [state, stopping]; exact id) (by
    rw [sender]
    exact fun t ht hpc => ⟨t, ht, hpc, rfl⟩)

theorem setState (state : TransferState) : Still s (s.setState state).1 := by
  unfold TransferSession.setState
  split
  · exact refl s
  · rename_i hmoves
    simp only [Bool.or_eq_true, not_or, Bool.not_eq_true] at hmoves
    refine of_map rfl ?_ fun t ht hpc => ⟨t, ht, hpc, rfl⟩
    rintro (hover | hstopping)
    · rw [hmoves.2] at hover
      cases hover
    · exact .inr hstopping

/-- While the engines are being stopped none of them counts as running. -/
theorem of_stopping (paused : s'.paused = s.paused) (stopping : s'.stopping.isSome = true) :
    Still s s' := by
  refine ⟨paused, fun t' ht' => ?_⟩
  rw [runningEngine, stopping, Bool.or_true, if_pos rfl] at ht'
  cases ht'

theorem fail (code message : Bytes) : Still s (s.fail code message) := by
  unfold TransferSession.fail
  split
  · exact refl s
  · exact of_stopping rfl rfl

end Still

/-! ## The methods of a sending session -/

section Methods

variable {s s' : TransferSession} {sha : Bytes → Bytes}

open TransferSession

theorem still_startOffer : Still s s.startOffer.1 := by
  unfold startOffer
  split
  · exact .fail _ _
  · split
    · exact .refl s
    · have marked : Still s { s with offerSent := true } := .of_eq rfl rfl rfl rfl
      exact marked.trans (.setState .offering)

theorem still_onTransportReady : Still s s.onTransportReady.1 := by
  have ready : Still s { s with transportReady := true } := .of_eq rfl rfl rfl rfl
  unfold onTransportReady
  dsimp only
  split
  · exact ready
  · split
    · exact ready.trans still_startOffer
    · exact ready.trans (.setState .waitingOffer)

theorem still_cancel (reason : Bytes) : Still s (s.cancel reason).1 := by
  unfold cancel
  split
  · exact .refl s
  · exact .of_stopping rfl rfl

theorem still_onSessionEnd (role : s.isSender = true) (reason : Bytes) :
    Still s (s.onSessionEnd reason).1 := by
  unfold onSessionEnd
  split
  · exact .refl s
  · rw [role, if_neg (by simp)]
    exact .fail _ _

theorem still_onTxEvent (e : TxEvent) : Still s (s.onTxEvent e).1 := by
  cases e with
  | data wire => exact .refl s
  | fileDone index hash => exact .refl s
  | error code message => exact .fail _ _
  | allDone =>
    unfold onTxEvent onSenderAllDone
    dsimp only
    split
    · exact .refl s
    · have marked : Still s { s with doneSent := true } := .of_eq rfl rfl rfl rfl
      exact marked.trans (.setState .completed)

theorem still_finishStop {fs fs' : Fs} {out : List SessionEvent}
    (h : s.finishStop fs = some (s', fs', out)) : Still s s' := by
  have ended : ∀ t : TransferSession, t.paused = s.paused → t.state.terminal = true → Still s t := by
    intro t paused hover
    refine ⟨paused, fun t' ht' => ?_⟩
    rw [runningEngine, hover, Bool.true_or, if_pos rfl] at ht'
    cases ht'
  have moved : ∀ (t : TransferSession) (state : TransferState), t.paused = s.paused →
      state.terminal = true → Still s (t.setState state).1 := by
    intro t state paused hterminal
    unfold setState
    split
    · rename_i hsame
      refine ended t paused ?_
      obtain heq | hover := Bool.or_eq_true_iff.mp hsame
      · rw [decide_eq_true_eq.mp heq, hterminal]
      · exact hover
    · exact ended _ paused hterminal
  unfold finishStop at h
  split at h
  · cases h
  · split at h
    · cases h
    · dsimp only at h
      split at h
      all_goals
        cases h
        exact moved _ _ rfl rfl

theorem still_handleFileAck (index : UInt16) (ok : Bool) : Still s (s.handleFileAck index ok) := by
  obtain ⟨heq, -⟩ | ⟨t, ht, ⟨-, heq⟩ | ⟨-, heq⟩⟩ := handleFileAck_cases s index ok
  · rw [heq]
    exact .refl s
  · rw [heq]
    refine .of_map rfl id fun t' ht' hpc => ⟨t, ht, ?_, ?_⟩
    · cases ht'
      rwa [(Sender.called_onFileOk t index).pc] at hpc
    · cases ht'
      exact paused_onFileOk t index
  · rw [heq]
    refine .of_map rfl id fun t' ht' hpc => ⟨t, ht, ?_, ?_⟩
    · cases ht'
      rwa [(Sender.called_onFileBad t index).pc] at hpc
    · cases ht'
      exact paused_onFileBad t index

theorem paused_setState (state : TransferState) : (s.setState state).1.paused = s.paused := by
  unfold setState
  split <;> rfl

theorem runningEngine_setState {state : TransferState} (h : state.terminal = false) :
    runningEngine (s.setState state).1 = runningEngine s := by
  unfold setState
  split
  · rfl
  · rename_i hmoves
    simp only [Bool.or_eq_true, not_or, Bool.not_eq_true] at hmoves
    rw [runningEngine, runningEngine, h, hmoves.2]

/-- The flag of the engine is set. -/
theorem runningEngine_setPaused {paused : Bool} (state : s'.state = s.state)
    (stopping : s'.stopping = s.stopping) (sender : s'.sender = s.sender.map (·.setPaused paused)) :
    runningEngine s' = (runningEngine s).map (·.setPaused paused) := by
  rw [runningEngine, runningEngine, state, stopping, sender]
  split
  · rfl
  · cases s.sender with
    | none => rfl
    | some t =>
      rw [Option.map_some, Option.filter_some, Option.filter_some]
      change (if (t.pc != .exited) = true then _ else _) = _
      split <;> rfl

end Methods

/-! ## Each action -/

section Step

variable {sha : Bytes → Bytes} {p p' : Party} {a : PartyAct}

open TransferSession

/-- An action that pauses and resumes nothing. -/
theorem pausedByBoth_still (h : PausedByBoth p) (still : Still p.session p'.session)
    (received : receiverPaused p'.received = receiverPaused p.received)
    (hstart : starts p.session a = false) (hresume : resumes p.session a = false) :
    PausedByBoth p' ↔ Undisturbed p a := by
  constructor
  · intro _
    refine ⟨fun hs => ?_, fun hr => ?_⟩
    · rw [hstart] at hs
      cases hs
    · rw [hresume] at hr
      cases hr
  · intro _ t' ht'
    obtain ⟨t, ht, heq⟩ := still.engine t' ht'
    rw [heq, still.paused, received]
    exact h t ht

/-- An action that sets the flag to what it has to be. -/
theorem pausedByBoth_set {paused : Bool}
    (engine : runningEngine p'.session = (runningEngine p.session).map (·.setPaused paused))
    (right : paused = (p'.session.paused || receiverPaused p'.received))
    (hstart : starts p.session a = false) (hresume : resumes p.session a = false) :
    PausedByBoth p' ↔ Undisturbed p a := by
  constructor
  · intro _
    refine ⟨fun hs => ?_, fun hr => ?_⟩
    · rw [hstart] at hs
      cases hs
    · rw [hresume] at hr
      cases hr
  · intro _ t' ht'
    rw [engine, Option.map_eq_some_iff] at ht'
    obtain ⟨t, -, rfl⟩ := ht'
    exact right

theorem pausedByBoth_resume (h : PausedByBoth p)
    (hstep : p.onLoop (some (p.returned p.session.resume.1 p.session.resume.2)) = some p') :
    PausedByBoth p' ↔ Undisturbed p (.here .resume) := by
  have hp' := onLoop_some hstep
  rw [Option.some.injEq] at hp'
  unfold TransferSession.resume at hp'
  split at hp'
  · rename_i hnothing
    subst hp'
    refine pausedByBoth_still h (.refl _) rfl rfl ?_
    obtain hunpaused | hterminal := Bool.or_eq_true_iff.mp hnothing
    · have hflag : p.session.paused = false := by simpa using hunpaused
      rw [resumes, hflag, Bool.false_and]
    · rw [resumes, runningEngine, hterminal, Bool.true_or, if_pos rfl, Option.isSome_none,
        Bool.and_false]
  · rename_i hgoes
    simp only [Bool.or_eq_true, Bool.not_eq_true', not_or, Bool.not_eq_false, Bool.not_eq_true] at hgoes
    have hengine : runningEngine p'.session = (runningEngine p.session).map (·.setPaused false) := by
      rw [← hp']
      exact runningEngine_setPaused rfl rfl rfl
    have hpaused : p'.session.paused = false := by rw [← hp']; rfl
    have hreceived : p'.received = p.received := by rw [← hp']; rfl
    constructor
    · intro hright
      refine ⟨fun hs => absurd hs (by simp [starts]), fun hr => ?_⟩
      rw [resumes, Bool.and_eq_true, Option.isSome_iff_exists] at hr
      obtain ⟨-, t, ht⟩ := hr
      have heq := hright _ (by rw [hengine, ht]; rfl)
      rw [hpaused, hreceived, Bool.false_or] at heq
      exact heq.symm
    · rintro ⟨-, hquiet⟩ t' ht'
      rw [hengine, Option.map_eq_some_iff] at ht'
      obtain ⟨t, ht, rfl⟩ := ht'
      have hr : resumes p.session (.here .resume) = true := by
        rw [resumes, hgoes.1, ht]
        rfl
      rw [hpaused, hreceived, hquiet hr]
      rfl

/-- A new engine runs, which is right exactly if nobody has paused. -/
theorem pausedByBoth_started {io : OfferIo} {files : List AcceptFile} {engine : Sender}
    (hengine : runningEngine p'.session = some engine) (hflag : engine.paused = false)
    (hpaused : p'.session.paused = p.session.paused)
    (hreceived : receiverPaused p'.received = receiverPaused p.received)
    (hs : starts p.session (.ctrl io (.accept files)) = true) :
    PausedByBoth p' ↔ Undisturbed p (.ctrl io (.accept files)) := by
  rw [PausedByBoth, hengine, hpaused, hreceived]
  constructor
  · intro hright
    have heq := hright engine rfl
    rw [hflag, eq_comm, Bool.or_eq_false_iff] at heq
    exact ⟨fun _ => heq, fun hr => absurd hr (by simp [resumes])⟩
  · rintro ⟨hquiet, -⟩ t' ht'
    obtain ⟨huser, hreceiver⟩ := hquiet hs
    obtain rfl := Option.some.inj ht'
    rw [hflag, huser, hreceiver]
    rfl

theorem pausedByBoth_accept {io : OfferIo} {files : List AcceptFile} (h : PausedByBoth p)
    (role : p.session.isSender = true) (hstopping : p.session.stopping = none)
    (hstep : p.ctrlStep sha io (.accept files) = some p') :
    PausedByBoth p' ↔ Undisturbed p (.ctrl io (.accept files)) := by
  simp only [Party.ctrlStep, onCtrlMessage, Option.map_some, Option.some.injEq] at hstep
  have hreceived : receiverPaused p'.received = receiverPaused p.received := by
    rw [← hstep]
    exact receiverPaused_snoc _ _
  unfold handleAccept startAccepted at hstep
  split at hstep
  · rename_i hknown
    rw [role, Bool.not_true, Bool.false_or] at hknown
    refine pausedByBoth_still h ?_ hreceived ?_ rfl
    · rw [← hstep]
      exact .refl _
    · rw [starts, hknown]
      rfl
  · rename_i hfirst
    rw [role, Bool.not_true, Bool.false_or, Bool.not_eq_true] at hfirst
    dsimp only at hstep
    split at hstep
    · -- The engine is not started.
      rename_i hcount
      refine pausedByBoth_still h ?_ hreceived ?_ rfl
      · rw [← hstep]
        have marked : Still p.session { p.session with
            acceptReceived := true, sender := some { tx := [], pc := .exited } } := by
          refine .of_map rfl id fun t' ht' hpc => ?_
          cases ht'
          exact absurd rfl hpc
        exact marked.trans (.fail _ _)
      · rw [starts, beq_false_of_ne hcount, Bool.and_false, Bool.false_and]
    · rename_i hcount
      rw [ne_eq, not_not] at hcount
      generalize hstarted : Sender.start p.session.manifest
        (readAccept p.session.manifest.files.length files).2
        (readAccept p.session.manifest.files.length files).1 = engine at hstep
      have hflag : engine.paused = false := hstarted ▸ paused_start ..
      have hpc : engine.pc ≠ .exited := by
        rw [← hstarted, start_pc]
        simp
      cases hterminal : p.session.state.terminal with
      | true =>
        refine pausedByBoth_still h ?_ hreceived ?_ rfl
        · rw [← hstep]
          refine ⟨paused_setState _, fun t' ht' => ?_⟩
          rw [Party.returned, runningEngine_setState rfl, runningEngine, hterminal, Bool.true_or,
            if_pos rfl] at ht'
          cases ht'
        · rw [starts, hterminal, Bool.not_true, Bool.and_false]
      | false =>
        have hengine : runningEngine p'.session = some engine := by
          rw [← hstep, Party.returned, runningEngine_setState rfl, runningEngine, hterminal, hstopping]
          simpa using hpc
        have hpaused : p'.session.paused = p.session.paused := by
          rw [← hstep]
          exact paused_setState _
        have hs : starts p.session (.ctrl io (.accept files)) = true := by
          rw [starts, hfirst, hcount, hterminal]
          simp
        exact pausedByBoth_started hengine hflag hpaused hreceived hs

/-- A `pause` or `resume` of the receiver. -/
theorem pausedByBoth_ctrl {io : OfferIo} {msg : CtrlMsg} (h : PausedByBoth p)
    (pauses : msg = .pause ∨ msg = .resume) (hstep : p.ctrlStep sha io msg = some p') :
    PausedByBoth p' ↔ Undisturbed p (.ctrl io msg) := by
  obtain ⟨⟨s', fs', out⟩, hmsg, rfl⟩ := Option.map_eq_some_iff.mp hstep
  have hreceived := receiverPaused_snoc p.received msg
  obtain rfl | rfl := pauses
  · cases hmsg
    refine pausedByBoth_set (runningEngine_setPaused rfl rfl rfl) ?_ rfl rfl
    rw [hreceived]
    exact (Bool.or_true _).symm
  · simp only [onCtrlMessage] at hmsg
    split at hmsg
    · -- The user's pause stays in effect.
      rename_i hpaused
      cases hmsg
      constructor
      · intro _
        exact ⟨fun hs => absurd hs (by simp [starts]), fun hr => absurd hr (by simp [resumes])⟩
      · intro _ t ht
        have hflag := h t ht
        rw [hpaused, Bool.true_or] at hflag
        rw [hflag]
        change true = (p.session.paused || _)
        rw [hpaused, Bool.true_or]
    · rename_i hpaused
      cases hmsg
      refine pausedByBoth_set (runningEngine_setPaused rfl rfl rfl) ?_ rfl rfl
      rw [hreceived]
      change false = (p.session.paused || false)
      rw [(Bool.not_eq_true _).mp hpaused, Bool.or_false]

theorem pausedByBoth_pause (h : PausedByBoth p)
    (hstep : p.onLoop (some (p.returned p.session.pause.1 p.session.pause.2)) = some p') :
    PausedByBoth p' ↔ Undisturbed p (.here .pause) := by
  have hp' := onLoop_some hstep
  rw [Option.some.injEq] at hp'
  unfold TransferSession.pause at hp'
  split at hp'
  · subst hp'
    exact pausedByBoth_still h (.refl _) rfl rfl rfl
  · subst hp'
    exact pausedByBoth_set (runningEngine_setPaused rfl rfl rfl) rfl rfl rfl

/-- A step of the sender thread, which has not returned. -/
theorem still_senderThread {s : TransferSession} {t t' : Sender} {io : TxIo} {out : List TxEvent}
    (ht : s.sender = some t) (hstep : t.senderStep sha io = some (t', out)) :
    Still s { s with sender := some t' } := by
  refine .of_map rfl id fun t'' ht'' _ => ⟨t, ht, ?_, ?_⟩
  · rintro hexited
    rw [Sender.senderStep, hexited] at hstep
    cases hstep
  · cases ht''
    exact paused_senderStep hstep

theorem still_onSack (s : TransferSession) (wire : Bytes) :
    Still s { s with sender := s.sender.map (·.onSack wire) } := by
  refine .of_map rfl id fun t' ht' hpc => ?_
  obtain ⟨t, ht, rfl⟩ := Option.map_eq_some_iff.mp ht'
  refine ⟨t, ht, ?_, paused_onSack t wire⟩
  rwa [(Sender.called_onSack t wire).pc] at hpc

/-- An action that is no pause, no resume and no start of the engine. -/
def quiet : PartyAct → Bool
  | .here .pause => false
  | .here .resume => false
  | .ctrl _ .pause => false
  | .ctrl _ .resume => false
  | .ctrl _ (.accept _) => false
  | _ => true

theorem still_onCtrlMessage {s s' : TransferSession} {io : OfferIo} {msg : CtrlMsg} {fs fs' : Fs}
    {out : List SessionEvent} (role : s.isSender = true) (hquiet : quiet (.ctrl io msg) = true)
    (h : s.onCtrlMessage sha io msg fs = some (s', fs', out)) : Still s s' := by
  cases msg with
  | accept files => cases hquiet
  | pause => cases hquiet
  | resume => cases hquiet
  | offer j =>
    simp only [onCtrlMessage, handleOffer, role, Bool.true_or, if_pos] at h
    cases h
    exact .refl s
  | fileDone index hash =>
    simp only [onCtrlMessage, role, if_pos] at h
    cases h
    exact .refl s
  | fileOk index =>
    cases h
    exact still_handleFileAck index true
  | fileBad index reason =>
    cases h
    exact still_handleFileAck index false
  | transferDone =>
    simp only [onCtrlMessage, role, if_pos] at h
    cases h
    exact .refl s
  | cancel reason =>
    simp only [onCtrlMessage] at h
    split at h
    all_goals cases h
    · exact .refl s
    · exact .of_stopping rfl rfl
  | error code message =>
    cases h
    exact .fail _ _

theorem still_step (role : p.session.isSender = true) (receiver : p.session.receiver = none)
    (hquiet : quiet a = true) (hstep : p.step sha a = some p') : Still p.session p'.session := by
  have call : ∀ {r : TransferSession × List SessionEvent}, Still p.session r.1 →
      p.onLoop (some (p.returned r.1 r.2)) = some p' → Still p.session p'.session := by
    intro r still hr
    cases onLoop_some hr
    exact still
  cases a with
  | ctrl io msg =>
    obtain ⟨⟨s', fs', out⟩, hmsg, rfl⟩ := Option.map_eq_some_iff.mp (onLoop_some hstep)
    exact still_onCtrlMessage role hquiet hmsg
  | sack wire =>
    cases hstep
    exact still_onSack _ _
  | block wire =>
    cases hstep
    exact .of_eq rfl rfl rfl rfl
  | here b =>
    cases b with
    | pause => cases hquiet
    | resume => cases hquiet
    | ready => exact call still_onTransportReady hstep
    | down => exact call (r := (p.session.onTransportDown, [])) (.of_eq rfl rfl rfl rfl) hstep
    | cancel reason => exact call (still_cancel reason) hstep
    | sessionEnd reason => exact call (still_onSessionEnd role reason) hstep
    | task =>
      have htask := onLoop_some hstep
      simp only [Party.taskStep, role, if_pos] at htask
      obtain ⟨e, -, rfl⟩ := Option.map_eq_some_iff.mp htask
      exact still_onTxEvent e
    | stopped =>
      obtain ⟨⟨s', fs', out⟩, hstop, rfl⟩ := Option.map_eq_some_iff.mp hstep
      exact still_finishStop hstop
    | senderThread io =>
      obtain ⟨t, ht, hthread⟩ := Option.bind_eq_some_iff.mp hstep
      obtain ⟨⟨t', out⟩, hsender, rfl⟩ := Option.map_eq_some_iff.mp hthread
      exact still_senderThread ht hsender
    | writerThread io => simp [Party.step, Party.writerThreadStep, receiver] at hstep

/-- An action keeps the flag right exactly if it is undisturbed. -/
theorem pausedByBoth_step_iff {m : Manifest} (h : PausedByBoth p) (inv : Sending m p)
    (hstep : p.step sha a = some p') : PausedByBoth p' ↔ Undisturbed p a := by
  by_cases hquiet : quiet a = true
  · have hreceived : receiverPaused p'.received = receiverPaused p.received := by
      rw [(senderMove inv.role inv.receiver hstep).frame.received, receiverPaused, List.foldl_append]
      cases a with
      | ctrl io msg => cases msg <;> first | rfl | cases hquiet
      | _ => rfl
    refine pausedByBoth_still h (still_step inv.role inv.receiver hquiet hstep) hreceived ?_ ?_
    · cases a with
      | ctrl io msg => cases msg <;> first | rfl | cases hquiet
      | _ => rfl
    · cases a with
      | here b => cases b <;> first | rfl | cases hquiet
      | _ => rfl
  · cases a with
    | sack wire => exact absurd rfl hquiet
    | block wire => exact absurd rfl hquiet
    | here b =>
      cases b with
      | pause => exact pausedByBoth_pause h hstep
      | resume => exact pausedByBoth_resume h hstep
      | _ => exact absurd rfl hquiet
    | ctrl io msg =>
      have hmsg := onLoop_some hstep
      cases msg with
      | accept files => exact pausedByBoth_accept h inv.role (free_of_onLoop hstep) hmsg
      | pause => exact pausedByBoth_ctrl h (.inl rfl) hmsg
      | resume => exact pausedByBoth_ctrl h (.inr rfl) hmsg
      | _ => exact absurd rfl hquiet

end Step

/-! ## Runs -/

/-- Whether the user pauses the transfer, after one more action. -/
def userPauseAfter (paused : Bool) : PartyAct → Bool
  | .here .pause => true
  | .here .resume => false
  | _ => paused

/-- Whether the last `Pause` or `Resume` of the user was a `Pause`. -/
def userPaused (as : List PartyAct) : Bool := as.foldl userPauseAfter false

/-- After the actions `as`, the engine is paused exactly if the user or the receiver pauses it. -/
def PauseIsUnion (as : List PartyAct) (p : Party) : Prop :=
  ∀ t, runningEngine p.session = some t → t.paused = (userPaused as || receiverPaused p.received)

section Runs

variable {sha : Bytes → Bytes} {m : Manifest} {fileCount : Nat} {fs : Fs} {as : List PartyAct}
  {p p' : Party} {a : PartyAct}

open TransferSession

theorem paused_handleAccept (s : TransferSession) (files : List AcceptFile) :
    (s.handleAccept files).1.paused = s.paused := by
  unfold handleAccept startAccepted
  split
  · rfl
  · dsimp only
    split
    · unfold fail
      split <;> rfl
    · exact paused_setState _

/-- In a session that is not over, the flag follows the user. -/
theorem paused_step (inv : Sending m p) (running : p.session.state.terminal = false)
    (hstep : p.step sha a = some p') : p'.session.paused = userPauseAfter p.session.paused a := by
  by_cases hquiet : quiet a = true
  · rw [(still_step inv.role inv.receiver hquiet hstep).paused]
    cases a with
    | here b => cases b <;> first | rfl | cases hquiet
    | _ => rfl
  · cases a with
    | sack wire => exact absurd rfl hquiet
    | block wire => exact absurd rfl hquiet
    | here b =>
      cases b with
      | pause =>
        cases onLoop_some hstep
        change p.session.pause.1.paused = true
        cases hflag : p.session.paused <;> simp [pause, hflag, running]
      | resume =>
        cases onLoop_some hstep
        change p.session.resume.1.paused = false
        cases hflag : p.session.paused <;> simp [resume, hflag, running]
      | _ => exact absurd rfl hquiet
    | ctrl io msg =>
      obtain ⟨⟨s', fs', out⟩, hmsg, rfl⟩ := Option.map_eq_some_iff.mp (onLoop_some hstep)
      change s'.paused = p.session.paused
      cases msg with
      | accept files =>
        cases hmsg
        exact paused_handleAccept _ _
      | pause =>
        cases hmsg
        rfl
      | resume =>
        simp only [onCtrlMessage] at hmsg
        split at hmsg
        all_goals
          cases hmsg
          rfl
      | _ => exact absurd rfl hquiet

theorem running_of_step (turned : p.Turned sha a p') (running : p'.session.state.terminal = false) :
    p.session.state.terminal = false := by
  have turn := turned.turn
  generalize statesOf (p.events sha a) = states, recordsOf (p.events sha a) = records,
    p.session.state = state, p'.session.state = state' at turn running
  cases turn with
  | still => exact running
  | moved before => exact before
  | cleared before => exact before
  | saved before => exact before

theorem userPaused_run
    (run : (party sha { session := .newSender m fileCount, fs := fs }).Run Machine.anyStep as p) :
    Sending m p ∧ p.Waits ∧
      (p.session.state.terminal = false → p.session.paused = userPaused as) := by
  induction run with
  | init => exact ⟨sending_init m fileCount fs, fun _ => rfl, fun _ => rfl⟩
  | step _ _ hstep ih =>
    obtain ⟨inv, waits, hflag⟩ := ih
    have turned := Party.step_turned waits hstep
    refine ⟨sending_step inv hstep, turned.waits, fun running => ?_⟩
    have before := running_of_step turned running
    rw [paused_step inv before hstep, hflag before, userPaused, userPaused, List.foldl_append]
    rfl

theorem pauseIsUnion_iff
    (run : (party sha { session := .newSender m fileCount, fs := fs }).Run Machine.anyStep as p) :
    PauseIsUnion as p ↔ PausedByBoth p := by
  refine forall₂_congr fun t ht => ?_
  have running : p.session.state.terminal = false := by
    rw [← Bool.not_eq_true]
    intro hterminal
    rw [runningEngine, hterminal, Bool.true_or, if_pos rfl] at ht
    cases ht
  rw [(userPaused_run run).2.2 running]

/-- In a run of a sending session the engine's flag is right after every step exactly if all steps
    are undisturbed. -/
theorem pauseIsUnion_run_iff
    (run : (party sha { session := .newSender m fileCount, fs := fs }).Run Machine.anyStep as p) :
    (∀ before q, before <+: as →
      (party sha { session := .newSender m fileCount, fs := fs }).Run Machine.anyStep before q →
        PauseIsUnion before q) ↔
      (party sha { session := .newSender m fileCount, fs := fs }).Run Undisturbed as p := by
  rw [← Machine.Run.forall_visited_iff (P := PausedByBoth) (fun t ht => by cases ht)
    (fun _ _ _ _ hrun h hstep => pausedByBoth_step_iff h (userPaused_run hrun).1 hstep) run]
  constructor
  · rintro h q ⟨before, hpre, hrun⟩
    exact (pauseIsUnion_iff hrun).mp (h before q hpre hrun)
  · intro h before q hpre hrun
    exact (pauseIsUnion_iff hrun).mpr (h q ⟨before, hpre, hrun⟩)

end Runs

/-! ## A file of one byte -/

def oneBytePauser : Party := { session := .newSender oneByteManifest 1, fs := .empty }

/-- Both sides pause the running engine, and both resume it. -/
def pauseAfterAccept : List PartyAct :=
  [.here .ready, .ctrl calmOfferIo (.accept []), .here .pause, .ctrl calmOfferIo .pause,
    .ctrl calmOfferIo .resume, .here .resume]

theorem pauseIsUnion_pauseAfterAccept : ∃ p,
    (runningEngine p.session).map (·.paused) = some false ∧
    ((∀ before q, before <+: pauseAfterAccept →
      (party (fun _ => []) oneBytePauser).Run Machine.anyStep before q → PauseIsUnion before q) ↔
      (party (fun _ => []) oneBytePauser).Run Undisturbed pauseAfterAccept p) := by
  have hfacts : ((party (fun _ => []) oneBytePauser).exec pauseAfterAccept oneBytePauser).map
      (fun p => (runningEngine p.session).map (·.paused)) = some (some false) := by
    decide +kernel
  obtain ⟨p, hexec, hpaused⟩ := Option.map_eq_some_iff.mp hfacts
  exact ⟨p, hpaused, pauseIsUnion_run_iff (Machine.run_of_exec hexec)⟩

/-- The user pauses the offered transfer, then the receiver accepts it. -/
def pauseBeforeAccept : List PartyAct :=
  [.here .ready, .here .pause, .ctrl calmOfferIo (.accept [])]

/-- The engine starts, and sends although the user has paused the transfer. -/
theorem not_pauseIsUnion : ¬ ∀ (sha : Bytes → Bytes) (m : Manifest) (fileCount : Nat) (fs : Fs)
    (as : List PartyAct) (p : Party),
    (party sha { session := .newSender m fileCount, fs := fs }).Run Machine.anyStep as p →
      PauseIsUnion as p := by
  intro h
  have hfacts : ((party (fun _ => []) oneBytePauser).exec pauseBeforeAccept oneBytePauser).map
      (fun p => (runningEngine p.session).map (·.paused)) = some (some false) := by
    decide +kernel
  obtain ⟨p, hexec, hpaused⟩ := Option.map_eq_some_iff.mp hfacts
  obtain ⟨t, ht, hflag⟩ := Option.map_eq_some_iff.mp hpaused
  have hunion := h _ _ _ _ _ p (Machine.run_of_exec hexec) t ht
  rw [hflag, show userPaused pauseBeforeAccept = true from rfl, Bool.true_or] at hunion
  cases hunion

end CrossTransfer.Share
