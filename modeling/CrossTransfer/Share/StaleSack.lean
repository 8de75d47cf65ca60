import CrossTransfer.Share.Agreement

/-! # SACKs and resets

A file whose hash is wrong starts over: the receiver empties its bitmap and sends `file_bad`, and
the sender forgets the SACK it had stored. SACKs travel on another stream than `file_bad` and
carry no generation number, so a SACK from before the reset can arrive after it.

* `noStaleSack_run` — as long as that does not happen, the SACK the sender stores reports only
  blocks the receiver has.
* `noStaleSack_lateSack` — a run in which it does happen.
-/

namespace CrossTransfer.Share

open CrossTransfer.Library
open CrossTransfer.Transfer

/-- A `file_bad` for file `i`. -/
def CtrlMsg.isBad (i : UInt16) : CtrlMsg → Bool
  | .fileBad j _ => j == i
  | _ => false

/-- The engine's report that file `i` has been reset. -/
def rxBad (i : UInt16) : RxEvent → Bool
  | .fileBad j _ => j == i
  | _ => false

/-- How often file `i` has been reset according to a log of the engine. -/
def resets (i : UInt16) (log : List RxEvent) : Nat := log.countP (rxBad i)

/-- How many `file_bad` for file `i` a party has processed. -/
def processedBads (i : UInt16) (p : Party) : Nat := p.received.countP (·.isBad i)

/-- The message settles file `i` for good. -/
def CtrlMsg.Acks (i : UInt16) : CtrlMsg → Prop
  | .fileOk j => j = i
  | .accept files => .verified i ∈ files
  | _ => False

/-! ## No `file_bad` after the file was settled -/

/-- What the receiver has sent and what is still on its event loop. -/
def pipeline (p : Party) : List CtrlMsg := p.sent ++ (p.rxTasks.drop p.ran).flatMap rxTells

/-- `x` may be sent after `y`. -/
def Follows (y x : CtrlMsg) : Prop := ∀ i, y.Acks i → x.isBad i = false

structure Told (p : Party) : Prop where
  ran : p.ran ≤ p.rxTasks.length
  order : (pipeline p).Pairwise Follows
  verified : ∀ y ∈ pipeline p, ∀ i, y.Acks i → ∃ t f, p.session.receiver = some t ∧
    t.rx[i.toNat]? = some f ∧ f.verified = true

section

variable {sha : Bytes → Bytes} {m : Manifest} {held held' : Nat → Prop} {ended ended' : Prop}
  {p p' : Party} {a : PartyAct}

/-- Verified files stay verified. -/
def KeepsVerified (p p' : Party) : Prop :=
  ∀ (t : Receiver) (j : Nat) (f : FileRx), p.session.receiver = some t → t.rx[j]? = some f →
    f.verified = true → ∃ t' f', p'.session.receiver = some t' ∧ t'.rx[j]? = some f' ∧
      f'.verified = true

theorem keepsVerified_of_rel (h : Option.Rel Stopped p.session.receiver p'.session.receiver) :
    KeepsVerified p p' := by
  intro t j f ht hf hv
  rw [ht] at h
  obtain ⟨t', ht', rfl | rfl⟩ := TransferSession.rel_stopped_some h
  · exact ⟨t', f, ht', hf, hv⟩
  · exact ⟨_, f, ht', hf, hv⟩

theorem aside_neutral {msg : CtrlMsg} (h : msg.aside = true) (y : CtrlMsg) :
    Follows y msg ∧ Follows msg y := by
  cases msg with
  | pause => exact ⟨fun _ _ => rfl, fun _ h => h.elim⟩
  | resume => exact ⟨fun _ _ => rfl, fun _ h => h.elim⟩
  | cancel => exact ⟨fun _ _ => rfl, fun _ h => h.elim⟩
  | error => exact ⟨fun _ _ => rfl, fun _ h => h.elim⟩
  | _ => cases h

theorem aside_not_acks {msg : CtrlMsg} (h : msg.aside = true) (i : UInt16) : ¬ msg.Acks i := by
  cases msg with
  | pause => exact id
  | resume => exact id
  | cancel => exact id
  | error => exact id
  | _ => cases h

/-- Messages that say nothing about a file do not disturb the order. -/
theorem Told.of_aside (inv : Told p) {msgs : List CtrlMsg} (sent : p'.sent = p.sent ++ msgs)
    (aside : ∀ msg ∈ msgs, msg.aside = true) (rxLog : p'.rxLog = p.rxLog) (ran : p'.ran = p.ran)
    (keep : KeepsVerified p p') : Told p' := by
  have tasks : p'.rxTasks = p.rxTasks := by rw [Party.rxTasks, Party.rxTasks, rxLog]
  have line : pipeline p' = p.sent ++ (msgs ++ (p.rxTasks.drop p.ran).flatMap rxTells) := by
    rw [pipeline, sent, tasks, ran, List.append_assoc]
  refine ⟨by rw [tasks, ran]; exact inv.ran, ?_, fun y hy i hacks => ?_⟩
  · have old := List.pairwise_append.mp inv.order
    rw [line, List.pairwise_append, List.pairwise_append]
    refine ⟨old.1, ⟨?_, old.2.1, fun y hy x _ => (aside_neutral (aside y hy) x).2⟩,
      fun y hy x hx => ?_⟩
    · exact List.pairwise_of_forall_mem_list fun y _ x hx => (aside_neutral (aside x hx) y).1
    · obtain hx | hx := List.mem_append.mp hx
      · exact (aside_neutral (aside x hx) y).1
      · exact old.2.2 y hy x hx
  · have hy' : y ∈ pipeline p := by
      rw [line] at hy
      obtain hy | hy := List.mem_append.mp hy
      · exact List.mem_append_left _ hy
      · obtain hy | hy := List.mem_append.mp hy
        · exact absurd hacks (aside_not_acks (aside y hy) i)
        · exact List.mem_append_right _ hy
    obtain ⟨t, f, ht, hf, hv⟩ := inv.verified y hy' i hacks
    exact keep t _ f ht hf hv

/-- A callback moves its message from the loop to the wire. -/
theorem Told.of_task (inv : Told p) {e : RxEvent} (event : p.rxTasks[p.ran]? = some e)
    (sent : p'.sent = p.sent ++ rxTells e) (rxLog : p'.rxLog = p.rxLog) (ran : p'.ran = p.ran + 1)
    (keep : KeepsVerified p p') : Told p' := by
  have tasks : p'.rxTasks = p.rxTasks := by rw [Party.rxTasks, Party.rxTasks, rxLog]
  obtain ⟨hlt, he⟩ := List.getElem?_eq_some_iff.mp event
  have line : pipeline p' = pipeline p := by
    rw [pipeline, pipeline, sent, tasks, ran, List.drop_eq_getElem_cons hlt, he, List.flatMap_cons,
      List.append_assoc]
  refine ⟨by rw [tasks, ran]; exact hlt, line ▸ inv.order, fun y hy i hacks => ?_⟩
  obtain ⟨t, f, ht, hf, hv⟩ := inv.verified y (line ▸ hy) i hacks
  exact keep t _ f ht hf hv

/-- Before an engine runs, nothing is settled and nothing is on the loop. -/
theorem Told.of_idle (inv : Told p) (idle : p.session.receiver = none) (rxLog : p.rxLog = [])
    {msgs : List CtrlMsg} (sent : p'.sent = p.sent ++ msgs) (rxLog' : p'.rxLog = [])
    (ran : p'.ran = p.ran) (order : msgs.Pairwise Follows)
    (verified : ∀ y ∈ msgs, ∀ i, y.Acks i → ∃ t f, p'.session.receiver = some t ∧
      t.rx[i.toNat]? = some f ∧ f.verified = true) : Told p' := by
  have line : pipeline p = p.sent := by simp [pipeline, Party.rxTasks, rxLog]
  have line' : pipeline p' = p.sent ++ msgs := by
    rw [← sent]
    simp [pipeline, Party.rxTasks, rxLog']
  have none : ∀ y ∈ p.sent, ∀ i, ¬ y.Acks i := by
    intro y hy i hacks
    obtain ⟨t, f, ht, -⟩ := inv.verified y (line ▸ hy) i hacks
    rw [idle] at ht
    cases ht
  have zero : p.ran = 0 := by simpa [Party.rxTasks, rxLog] using inv.ran
  refine ⟨by rw [ran, zero]; exact Nat.zero_le _, ?_, fun y hy i hacks => ?_⟩
  · rw [line', List.pairwise_append]
    exact ⟨line ▸ inv.order, order, fun y hy x _ i hacks => absurd hacks (none y hy i)⟩
  · rw [line'] at hy
    obtain hy | hy := List.mem_append.mp hy
    · exact absurd hacks (none y hy i)
    · exact verified y hy i hacks

/-- What a step of the writer thread adds to the loop. -/
theorem Told.of_thread (inv : Told p) {io : Io} {t t' : Receiver} {out : List RxEvent}
    (engine : p.session.receiver = some t) (engine' : p'.session.receiver = some t')
    (index : ∀ (i : Nat) (f : FileRx), t.rx[i]? = some f → f.index.toNat = i)
    (effect : Receiver.WriterEffect sha io t p.fs t' p'.fs out) (sent : p'.sent = p.sent)
    (rxLog : p'.rxLog = p.rxLog ++ out) (ran : p'.ran = p.ran) : Told p' := by
  have tasks : ∃ more, p'.rxTasks = p.rxTasks ++ more ∧ ∀ e ∈ more, e ∈ out := by
    refine ⟨_, by rw [Party.rxTasks, rxLog, List.filter_append]; rfl, fun e he => ?_⟩
    exact (List.mem_filter.mp he).1
  obtain ⟨more, tasks, hmore⟩ := tasks
  -- What the engine reports goes to the end of the line that the loop works off.
  have line : pipeline p' = pipeline p ++ more.flatMap rxTells := by
    rw [pipeline, pipeline, sent, tasks, ran, List.drop_append_of_le_length inv.ran,
      List.flatMap_append, List.append_assoc]
  have told : ∀ x ∈ more.flatMap rxTells, (∃ i, x = .fileOk i ∧ .fileOk i ∈ out) ∨
      ∃ i reason, x = .fileBad i reason ∧ .fileBad i reason ∈ out := by
    intro x hx
    obtain ⟨e, he, hx⟩ := List.mem_flatMap.mp hx
    cases e with
    | fileOk i => exact .inl ⟨i, List.mem_singleton.mp hx, hmore _ he⟩
    | fileBad i reason => exact .inr ⟨i, reason, List.mem_singleton.mp hx, hmore _ he⟩
    | _ => cases hx
  refine ⟨?_, ?_, fun y hy i hacks => ?_⟩
  · rw [tasks, ran, List.length_append]
    exact Nat.le_add_right_of_le inv.ran
  · rw [line, List.pairwise_append]
    refine ⟨inv.order, ?_, fun y hy x hx i hacks => ?_⟩
    · refine List.pairwise_of_forall_mem_list fun y hy x hx i hacks => ?_
      obtain ⟨j, rfl, -⟩ | ⟨j, reason, rfl, hbad⟩ := told x hx
      · rfl
      · -- A step that finds a file bad reports nothing else.
        obtain ⟨honly, -⟩ := effect.of_fileBad hbad
        obtain ⟨k, rfl, hok⟩ | ⟨k, reason', rfl, -⟩ := told y hy
        · rw [honly] at hok
          cases List.mem_singleton.mp hok
        · exact hacks.elim
    · obtain ⟨j, rfl, -⟩ | ⟨j, reason, rfl, hbad⟩ := told x hx
      · rfl
      · -- A file that is found bad was not verified, so that no earlier message acknowledges it.
        obtain ⟨-, k, f, hf, hindex, hv⟩ := effect.of_fileBad hbad
        simp only [CtrlMsg.isBad, beq_eq_false_iff_ne, ne_eq]
        rintro rfl
        obtain ⟨u, g, hu, hg, hv'⟩ := inv.verified y hy j hacks
        rw [engine] at hu
        cases hu
        rw [← hindex, index k f hf, hf] at hg
        cases hg
        rw [hv] at hv'
        cases hv'
  · rw [line] at hy
    obtain hy | hy := List.mem_append.mp hy
    · obtain ⟨u, f, hu, hf, hv⟩ := inv.verified y hy i hacks
      rw [engine] at hu
      cases hu
      have hi := (List.getElem?_eq_some_iff.mp hf).1
      have hf' := List.getElem?_eq_getElem (effect.length ▸ hi)
      obtain ⟨g, hg, moved⟩ := effect.file hf'
      rw [hf] at hg
      cases hg
      exact ⟨t', _, engine', hf', moved.kept hv⟩
    · obtain ⟨j, rfl, hok⟩ | ⟨j, reason, rfl, -⟩ := told y hy
      · cases hacks
        obtain ⟨k, f, hindex, acc, f', hf', hv⟩ := effect.of_fileOk hok
        refine ⟨t', f', engine', ?_, hv⟩
        rw [← hindex, index k f acc.file]
        exact hf'
      · exact hacks.elim

theorem verifiedFiles_acks {t : Receiver} {runs : List (UInt16 × List SackRun)} {i : UInt16}
    (index : ∀ (i : Nat) (f : FileRx), t.rx[i]? = some f → f.index.toNat = i)
    (h : .verified i ∈ TransferSession.acceptFiles t.verifiedFiles runs) :
    ∃ f, t.rx[i.toNat]? = some f ∧ f.verified = true := by
  obtain h | h := List.mem_append.mp h
  · obtain ⟨j, hj, heq⟩ := List.mem_map.mp h
    cases heq
    obtain ⟨f, hf, rfl⟩ := List.mem_map.mp hj
    obtain ⟨hmem, hv⟩ := List.mem_filter.mp hf
    obtain ⟨k, hk⟩ := List.mem_iff_getElem?.mp hmem
    exact ⟨f, by rw [index k f hk]; exact hk, hv⟩
  · obtain ⟨e, -, heq⟩ := List.mem_map.mp h
    cases heq

theorem told_step (inv : Told p) (old : Receiving sha m held ended p)
    (new : Receiving sha m held' ended' p') (h : p.step sha a = some p') : Told p' := by
  have nothing : p'.sent = p.sent → p'.sent = p.sent ++ [] := fun h => by rw [h, List.append_nil]
  cases receiverMove old.role old.sender h with
  | other frame same engine fs sent aside rxLog ran =>
    exact inv.of_aside sent aside rxLog ran (keepsVerified_of_rel engine)
  | task frame same event engine fs sent rxLog ran =>
    exact inv.of_task event sent rxLog ran (keepsVerified_of_rel engine)
  | @offer _ _ _ _ _ t runs frame idle parsed saveDir manifest record names start haveRuns engine sent
      rxLog ran =>
    have log := old.idle idle
    refine inv.of_idle idle log sent (rxLog.trans log) ran (List.pairwise_singleton _ _) ?_
    intro y hy i hacks
    cases List.mem_singleton.mp hy
    obtain started | ⟨hpc, -⟩ := new.engine t engine
    · obtain ⟨f, hf, hv⟩ := verifiedFiles_acks started.hashing.index hacks
      exact ⟨t, f, engine, hf, hv⟩
    · obtain ⟨_, _, _, _, _, -, -, rfl⟩ := Receiver.start_ok start
      cases hpc
  | noStart frame idle parsed saveDir manifest record names start engine stopped sent rxLog ran =>
    have log := old.idle idle
    exact inv.of_idle idle log (nothing sent) (rxLog.trans log) ran .nil (by simp)
  | noSaveDir frame idle idle' fs sent rxLog ran =>
    have log := old.idle idle
    exact inv.of_idle idle log (nothing sent) (rxLog.trans log) ran .nil (by simp)
  | @fileDone _ index hash _ frame same engine fs sent rxLog ran =>
    refine inv.of_aside (nothing sent) (by simp) rxLog ran fun t j f ht hf hv => ?_
    exact ⟨t.onFileDone index hash, f, by rw [engine, ht]; rfl, hf, hv⟩
  | @block wire _ frame same engine fs sent rxLog ran =>
    refine inv.of_aside (nothing sent) (by simp) rxLog ran fun t j f ht hf hv => ?_
    obtain ⟨f', hf', hv'⟩ := (Receiver.called_onBlock t wire).1.forward hf
    exact ⟨_, f', by rw [engine, ht]; rfl, hf', hv'.trans hv⟩
  | @thread _ _ t t' out frame same engine step engine' sent rxLog ran =>
    obtain started | ⟨hpc, -⟩ := old.engine t engine
    · exact inv.of_thread engine engine' started.hashing.index (Receiver.writerStep_effect step) sent
        rxLog ran
    · rw [Receiver.writerStep, hpc] at step
      cases step
  | confirmed frame same engine fs sent rxLog ran =>
    exact inv.of_aside (nothing sent) (by simp) rxLog ran fun t j f ht hf hv =>
      ⟨t, f, engine.trans ht, hf, hv⟩
  | ended frame same why finished engine fs sent rxLog ran =>
    exact inv.of_aside (nothing sent) (by simp) rxLog ran fun t j f ht hf hv =>
      ⟨t, f, engine.trans ht, hf, hv⟩
  | stopped frame same exited engine fs sent aside rxLog ran =>
    refine inv.of_aside sent aside rxLog ran fun t j f ht hf hv => ?_
    obtain ⟨f', hf', hv'⟩ := (Receiver.called_closeWriters t).forward hf
    exact ⟨_, f', by rw [engine, ht]; rfl, hf', hv'.trans hv⟩

/-! ## The SACKs in the log -/

theorem resets_take_le (i : UInt16) (k : Nat) (log : List RxEvent) :
    resets i (log.take k) ≤ resets i log :=
  (List.take_sublist k log).countP_le

/-- A SACK after which its file was not reset reports only blocks that the file still has. -/
structure SackLog (t : Receiver) (log : List RxEvent) : Prop where
  sized : ∀ f ∈ t.rx, f.bitmap.size = f.blocks.toNat
  current : ∀ (k : Nat) (wire : Bytes) (s : Sack) (j : Nat) (f : FileRx),
    log[k]? = some (.sack wire) → decodeSack wire = some s → t.rx[j]? = some f →
    f.index = s.fileIndex → resets s.fileIndex (log.take k) = resets s.fileIndex log →
    ∀ b, b < f.blocks.toNat → s.Reports b → f.bitmap.test b = true

theorem SackLog.called {t t' : Receiver} {log : List RxEvent} (inv : SackLog t log)
    (call : t.Called t') : SackLog t' log where
  sized := by
    intro f' hmem
    obtain ⟨j, hf'⟩ := List.mem_iff_getElem?.mp hmem
    obtain ⟨f, writer, hf, rfl⟩ := call.file hf'
    exact inv.sized f (List.mem_of_getElem? hf)
  current := by
    intro k wire s j f' hk hs hf'
    obtain ⟨f, writer, hf, rfl⟩ := call.file hf'
    exact inv.current k wire s j f hk hs hf

/-- A SACK describes the file it was built from. -/
theorem blocks_of_report {t : Receiver} {wire : Bytes} {s : Sack}
    (report : Receiver.Report t (.sack wire)) (hs : decodeSack wire = some s) :
    ∃ (j : Nat) (f : FileRx), t.rx[j]? = some f ∧ f.index = s.fileIndex ∧
      ∀ b, b < f.bitmap.size → s.Reports b → f.bitmap.test b = true := by
  generalize he : RxEvent.sack wire = e at report
  cases report with
  | @sack j f g rate loss s' hf same built =>
    cases he
    rw [decodeSack_of_builds built] at hs
    cases hs
    have hindex := congrArg FileRx.index same
    have hsize := congrArg (fun x : FileRx => x.bitmap.size) same
    have htest := fun b => congrArg (fun x : FileRx => x.bitmap.test b) same
    refine ⟨j, f, hf, (Eq.symm hindex).trans (fileIndex_of_builds built).symm, fun b hb hr => ?_⟩
    exact (Eq.symm (htest b)).trans (test_of_reports built (lt_of_lt_of_eq hb (Eq.symm hsize)) hr)
  | persist => cases he
  | error => cases he

theorem SackLog.step {t t' : Receiver} {fs fs' : Fs} {io : Io} {out log : List RxEvent}
    (inv : SackLog t log)
    (index : ∀ (i : Nat) (f : FileRx), t.rx[i]? = some f → f.index.toNat = i)
    (effect : Receiver.WriterEffect sha io t fs t' fs' out) : SackLog t' (log ++ out) where
  sized := by
    intro f' hmem
    obtain ⟨j, hf'⟩ := List.mem_iff_getElem?.mp hmem
    obtain ⟨f, hf, grown⟩ := effect.bitmap hf'
    exact grown.sized (inv.sized f (List.mem_of_getElem? hf))
  current := by
    intro k wire s j f' hk hs hf' hindex hsame b hb hreports
    obtain ⟨f, hf, grown⟩ := effect.bitmap hf'
    obtain ⟨g, hg, moved⟩ := effect.file hf'
    rw [hf] at hg
    cases hg
    have hfixed := moved.fixed
    simp only [FileRx.fixed, Prod.mk.injEq] at hfixed
    obtain ⟨hfIndex, -, hfBlocks, -⟩ := hfixed
    rw [hfBlocks] at hb
    rw [hfIndex] at hindex
    by_cases hlt : k < log.length
    · -- An old SACK: the file was not reset in this step either.
      rw [List.getElem?_append_left hlt] at hk
      rw [List.take_append_of_le_length (Nat.le_of_lt hlt), resets, resets, List.countP_append]
        at hsame
      have hle := resets_take_le s.fileIndex k log
      unfold resets at hle
      have htest := inv.current k wire s j f hk hs hf hindex (by unfold resets; omega) b hb hreports
      obtain keeps | ⟨reason, hout, -⟩ := grown.kept
      · exact keeps b htest
      · rw [hout, List.countP_singleton, hindex] at hsame
        simp [rxBad] at hsame
        omega
    · -- A SACK of this step.
      rw [List.getElem?_append_right (Nat.not_lt.mp hlt)] at hk
      have hmem := List.mem_of_getElem? hk
      obtain ⟨j', g, hg, hgIndex, hblocks⟩ := blocks_of_report (effect.of_sack hmem) hs
      have hj : j' = j := by
        rw [← index j' g hg, ← index j f hf, hgIndex, hindex]
      subst hj
      rw [hf] at hg
      cases hg
      have htest := hblocks b (by rw [inv.sized f (List.mem_of_getElem? hf)]; exact hb) hreports
      obtain keeps | ⟨reason, hout, -⟩ := grown.kept
      · exact keeps b htest
      · rw [hout] at hmem
        cases List.mem_singleton.mp hmem

theorem sackLog_start {io : Receiver.StartIo} {m : Manifest} {dir : Path} {names : Names}
    {resume : List ReceiverFileState} {fs fs' : Fs} {t : Receiver}
    (h : Receiver.start io m dir names resume fs = (fs', t, none)) : SackLog t [] := by
  obtain ⟨mid, rx, created, bytes, done, -, all, rfl⟩ := Receiver.start_ok h
  refine ⟨all.forall (fun started hf => ?_) fun f hf => ?_, by simp⟩
  · have hfixed := started.fixed
    simp only [FileRx.fixed, Prod.mk.injEq] at hfixed
    rw [hfixed.2.2.1, ← hf]
    exact started.bitmapSize
  · obtain ⟨i, mf, -, rfl⟩ := List.mem_mapIdx.mp hf
    exact BlockBitmap.reset_size _

/-! ## The stored SACK -/

/-- A stored SACK was sent after the last reset the sender knows of. -/
def Stored (s : DuplexState) : Prop :=
  ∀ (t : Sender) (i : UInt16) (f : FileTx), s.sender.session.sender = some t →
    t.tx[i.toNat]? = some f → 0 < f.sackSeq → f.sack.fileIndex = i ∧
      ∃ k wire, s.receiver.rxLog[k]? = some (.sack wire) ∧ decodeSack wire = some f.sack ∧
        processedBads i s.sender ≤ resets i (s.receiver.rxLog.take k)

/-- The SACK that is delivered was sent after the last reset the sender knows of. -/
def OnTime (s : DuplexState) (k : Nat) : Prop :=
  ∀ wire sack, s.receiver.rxLog[k]? = some (.sack wire) → decodeSack wire = some sack →
    processedBads sack.fileIndex s.sender ≤ resets sack.fileIndex (s.receiver.rxLog.take k)

/-- A step that delivers no SACK from before a reset after the `file_bad` of that reset. -/
def sacksOnTime (s : DuplexState) : DuplexAct → Prop
  | .sender (.sack k) => OnTime s k
  | _ => True

theorem processedBads_append {i : UInt16} {q q' : Party} {msgs : List CtrlMsg}
    (h : q'.received = q.received ++ msgs) :
    processedBads i q' = processedBads i q + msgs.countP (·.isBad i) := by
  rw [processedBads, processedBads, h, List.countP_append]

/-- A `file_bad` arrives only for files that are not acknowledged. -/
theorem not_acked_of_deliver {s : DuplexState} {index : UInt16} {reason : Bytes}
    (told : Told s.receiver)
    (h : s.sender.received ++ [.fileBad index reason] <+: s.receiver.sent) :
    ¬ Acked s.sender.received index.toNat := by
  rintro ⟨i, hi, hacked⟩
  obtain rfl : i = index := UInt16.toNat_inj.mp hi
  obtain ⟨rest, hrest⟩ := h
  have order := (List.pairwise_append.mp told.order).1
  rw [← hrest, List.append_assoc] at order
  have follows := (List.pairwise_append.mp order).2.2
  have hbad : (CtrlMsg.fileBad i reason).isBad i = true := by simp [CtrlMsg.isBad]
  obtain hok | ⟨files, haccept, hlisted⟩ := hacked
  · have := follows _ hok (.fileBad i reason) (by simp) i rfl
    rw [hbad] at this
    cases this
  · have := follows _ haccept (.fileBad i reason) (by simp) i hlisted
    rw [hbad] at this
    cases this

theorem countP_isBad_of_ignored {t : Sender} {i : UInt16} {f : FileTx} (sending : Sending m p)
    (engine : p.session.sender = some t) (hf : t.tx[i.toNat]? = some f)
    (ignored : a.ignoredBy p.session) : a.delivered.countP (·.isBad i) = 0 := by
  cases a with
  | ctrl io msg =>
    cases msg with
    | fileBad index reason =>
      obtain hnone | hnone := ignored
      · rw [engine] at hnone
        cases hnone
      · -- The file would have to be one of the engine's.
        have hlt := (List.getElem?_eq_some_iff.mp hf).1
        have hge := List.getElem?_eq_none_iff.mp hnone
        rw [sending.acks] at hge
        have hsize := (sending.engine t engine).size
        have hne : index ≠ i := by
          rintro rfl
          omega
        simp [PartyAct.delivered, CtrlMsg.isBad, hne]
    | _ => rfl
  | _ => rfl

/-- The sender moves. -/
theorem stored_sender {s : DuplexState} {net : NetAct} (inv : Stored s)
    (sending : Sending m s.sender) (told : Told s.receiver) (ordered : Ordered s)
    (hdeliver : deliver s.sender s.receiver net = some a) (hstep : s.sender.step sha a = some p)
    (onTime : sacksOnTime s (.sender net)) : Stored { s with sender := p } := by
  intro t' i f' ht' hf' hseq
  -- A SACK that was stored before, and no `file_bad` for its file in this step.
  have kept : ∀ {t : Sender} {f : FileTx}, s.sender.session.sender = some t →
      t.tx[i.toNat]? = some f → f'.sack = f.sack → f'.sackSeq = f.sackSeq →
      p.received = s.sender.received ++ a.delivered → a.delivered.countP (·.isBad i) = 0 →
      f'.sack.fileIndex = i ∧ ∃ k wire, s.receiver.rxLog[k]? = some (.sack wire) ∧
        decodeSack wire = some f'.sack ∧ processedBads i p ≤ resets i (s.receiver.rxLog.take k) := by
    intro t f ht hf hsack hsackSeq hreceived hnone
    rw [hsackSeq] at hseq
    rw [hsack, processedBads_append hreceived, hnone]
    exact inv t i f ht hf hseq
  cases senderMove sending.role sending.receiver hstep with
  | other frame engine ignored txLog completed =>
    cases hs : s.sender.session.sender with
    | none =>
      rw [hs, ht'] at engine
      cases engine
    | some t =>
      rw [hs, ht'] at engine
      cases engine with
      | some nudged =>
        obtain ⟨stop, paused, rfl, -⟩ := nudged
        exact kept hs hf' rfl rfl frame.received (countP_isBad_of_ignored sending hs hf' ignored)
  | start frame engine txLog completed =>
    rw [engine] at ht'
    cases ht'
    rw [Sender.sackSeq_start _ _ _ f' (List.mem_of_getElem? hf')] at hseq
    cases hseq
  | noStart frame engine empty exited finished txLog completed =>
    rw [engine] at ht'
    cases ht'
    simp [empty] at hf'
  | fileOk frame engine engine' txLog completed =>
    rw [engine'] at ht'
    cases ht'
    obtain ⟨f, hf, hsack, hsackSeq⟩ := Sender.keepsSacks_onFileOk _ _ _ _ hf'
    exact kept engine hf hsack hsackSeq frame.received rfl
  | @fileBad io index reason _ t frame engine engine' txLog completed =>
    rw [engine'] at ht'
    cases ht'
    obtain hzero | ⟨hf, hok⟩ := Sender.onFileBad_file hf'
    · rw [hzero] at hseq
      cases hseq
    · have hne : index ≠ i := by
        rintro rfl
        have acked := (sending.engine t engine).acked _ ⟨f', hf, hok rfl⟩
        exact not_acked_of_deliver told (deliver_ctrl hdeliver ordered.toSender) acked
      exact kept engine hf rfl rfl frame.received (by simp [PartyAct.delivered, CtrlMsg.isBad, hne])
  | @sack wire _ frame engine txLog completed =>
    rw [engine] at ht'
    obtain ⟨t, ht, rfl⟩ := Option.map_eq_some_iff.mp ht'
    obtain hf | ⟨sack, hsack, hj, hstored⟩ := Sender.onSack_file hf'
    · exact kept ht hf rfl rfl frame.received rfl
    · obtain ⟨_, _, heq⟩ | ⟨_, _, _, heq, _⟩ | ⟨k, wire', rfl, heq, hk⟩ | ⟨_, _, _, heq, _⟩ :=
        deliver_cases hdeliver
      all_goals cases heq
      have hindex : sack.fileIndex = i := UInt16.toNat_inj.mp hj
      have hbound := onTime wire sack hk hsack
      rw [hindex] at hbound
      rw [hstored, processedBads_append frame.received]
      exact ⟨hindex, k, wire, hk, hsack, hbound⟩
  | thread frame engine step engine' txLog completed =>
    rw [engine'] at ht'
    cases ht'
    obtain ⟨f, hf, hsack, hsackSeq⟩ :=
      Sender.keepsSacks_of_shared (Sender.shared_of_senderStep step) _ _ hf'
    exact kept engine hf hsack hsackSeq frame.received rfl
  | done frame report engine txLog => exact kept (engine ▸ ht') hf' rfl rfl frame.received rfl

/-- The receiver's log only grows. -/
theorem stored_receiver {s : DuplexState} {out : List RxEvent} (inv : Stored s)
    (rxLog : p.rxLog = s.receiver.rxLog ++ out) : Stored { s with receiver := p } := by
  intro t i f ht hf hseq
  obtain ⟨hindex, k, wire, hk, hsack, hbound⟩ := inv t i f ht hf hseq
  have hlt := (List.getElem?_eq_some_iff.mp hk).1
  refine ⟨hindex, k, wire, ?_, hsack, ?_⟩
  · change p.rxLog[k]? = _
    rw [rxLog, List.getElem?_append_left hlt]
    exact hk
  · change _ ≤ resets i (p.rxLog.take k)
    rw [rxLog, List.take_append_of_le_length (Nat.le_of_lt hlt)]
    exact hbound

/-- The receiver has block `b` of file `i`. -/
def HasBlock (p : Party) (i : UInt16) (b : Nat) : Prop :=
  ∃ t f, p.session.receiver = some t ∧ t.rx[i.toNat]? = some f ∧ f.bitmap.test b = true

instance (p : Party) (i : UInt16) (b : Nat) : Decidable (HasBlock p i b) :=
  decidable_of_iff
    ((p.session.receiver.bind fun t => t.rx[i.toNat]?).any (·.bitmap.test b) = true) (by
      simp only [Option.any_eq_true, Option.bind_eq_some_iff, HasBlock]
      exact ⟨fun ⟨f, ⟨t, ht, hf⟩, hb⟩ => ⟨t, f, ht, hf, hb⟩,
        fun ⟨t, f, ht, hf, hb⟩ => ⟨f, ⟨t, ht, hf⟩, hb⟩⟩)

/-- The SACKs that `p` issues with `out` report only blocks that it has. -/
def Issues (m : Manifest) (p : Party) (out : List RxEvent) : Prop :=
  ∀ wire sack mf, .sack wire ∈ out → decodeSack wire = some sack →
    m.files[sack.fileIndex.toNat]? = some mf → resets sack.fileIndex out = 0 ∧
      ∀ b, b < (blockCountFor mf.size).toNat → sack.Reports b → HasBlock p sack.fileIndex b

theorem ReceivingEngine.blocks {t : Receiver} {i : Nat} {f : FileRx} {mf : ManifestFile}
    (engine : ReceivingEngine sha m held p t) (hf : t.rx[i]? = some f)
    (hmf : m.files[i]? = some mf) : f.blocks = blockCountFor mf.size := by
  obtain ⟨dir, -, placed⟩ := engine.placed
  have hi := congrArg (·[i]?) placed
  simp only [List.getElem?_map, hf, Option.map_some, List.getElem?_mapIdx, hmf, Option.some.injEq,
    FileRx.fixed, Receiver.freshFile, Prod.mk.injEq] at hi
  exact hi.2.2.1

theorem issues_thread {io : Io} {t t' : Receiver} {fs fs' : Fs} {out log : List RxEvent}
    (engine : p.session.receiver = some t) (started : ReceivingEngine sha m held p t)
    (inv : SackLog t log) (effect : Receiver.WriterEffect sha io t fs t' fs' out) :
    Issues m p out := by
  intro wire sack mf hmem hs hmf
  constructor
  · -- A step that resets a file reports nothing else.
    refine List.countP_eq_zero.mpr fun e he hbad => ?_
    cases e with
    | fileBad j reason =>
      rw [(effect.of_fileBad he).1] at hmem
      cases List.mem_singleton.mp hmem
    | _ => cases hbad
  · intro b hb hreports
    obtain ⟨j, f, hf, hindex, hblocks⟩ := blocks_of_report (effect.of_sack hmem) hs
    have hj := started.hashing.index j f hf
    rw [hindex] at hj
    rw [hj] at hmf
    refine ⟨t, f, engine, hj ▸ hf, hblocks b ?_ hreports⟩
    rw [inv.sized f (List.mem_of_getElem? hf), started.blocks hf hmf]
    exact hb

/-- The log of a receiving party after an action. -/
theorem sackLog_step (old : Receiving sha m held ended p)
    (inv : ∀ t, p.session.receiver = some t → t.pc = .exited ∧ p.rxLog = [] ∨ SackLog t p.rxLog)
    (h : p.step sha a = some p') : (∃ out, p'.rxLog = p.rxLog ++ out ∧ Issues m p out) ∧
      ∀ t, p'.session.receiver = some t → t.pc = .exited ∧ p'.rxLog = [] ∨ SackLog t p'.rxLog := by
  have silent : p'.rxLog = p.rxLog → ∃ out, p'.rxLog = p.rxLog ++ out ∧ Issues m p out :=
    fun rxLog => ⟨[], by rw [rxLog, List.append_nil], by simp [Issues]⟩
  -- A call of another thread writes nothing into the log.
  have called : p'.rxLog = p.rxLog →
      (∀ t', p'.session.receiver = some t' → ∃ t, p.session.receiver = some t ∧ t.Called t') →
      (∃ out, p'.rxLog = p.rxLog ++ out ∧ Issues m p out) ∧ ∀ t, p'.session.receiver = some t →
        t.pc = .exited ∧ p'.rxLog = [] ∨ SackLog t p'.rxLog := by
    intro rxLog engine
    refine ⟨silent rxLog, fun t' ht' => ?_⟩
    obtain ⟨t, ht, call⟩ := engine t' ht'
    rw [rxLog]
    obtain ⟨hpc, hlog⟩ | hlog := inv t ht
    · exact .inl ⟨call.pc.trans hpc, hlog⟩
    · exact .inr (hlog.called call)
  have ofRel : Option.Rel Stopped p.session.receiver p'.session.receiver →
      ∀ t', p'.session.receiver = some t' → ∃ t, p.session.receiver = some t ∧ t.Called t' := by
    intro rel t' ht'
    cases hr : p.session.receiver with
    | none =>
      rw [hr] at rel
      rw [TransferSession.rel_stopped_none rel] at ht'
      cases ht'
    | some t =>
      rw [hr] at rel
      obtain ⟨u, hu, stopped⟩ := TransferSession.rel_stopped_some rel
      rw [hu] at ht'
      cases ht'
      exact ⟨t, rfl, (stopped.calledWith []).1⟩
  have ofMap : ∀ {g : Receiver → Receiver}, p'.session.receiver = p.session.receiver.map g →
      (∀ t : Receiver, t.Called (g t)) → ∀ t', p'.session.receiver = some t' →
      ∃ t, p.session.receiver = some t ∧ t.Called t' := by
    intro g heq hg t' ht'
    rw [heq] at ht'
    obtain ⟨t, ht, rfl⟩ := Option.map_eq_some_iff.mp ht'
    exact ⟨t, ht, hg t⟩
  have ofEq : p'.session.receiver = p.session.receiver → ∀ t', p'.session.receiver = some t' →
      ∃ t, p.session.receiver = some t ∧ t.Called t' :=
    fun heq t' ht' => ⟨t', heq ▸ ht', Receiver.called_refl _⟩
  cases receiverMove old.role old.sender h with
  | other frame same engine fs sent aside rxLog => exact called rxLog (ofRel engine)
  | task frame same event engine fs sent rxLog => exact called rxLog (ofRel engine)
  | offer frame idle parsed saveDir manifest record names start haveRuns engine sent rxLog =>
    have log := rxLog.trans (old.idle idle)
    refine ⟨silent rxLog, fun t' ht' => .inr ?_⟩
    rw [engine] at ht'
    cases ht'
    rw [log]
    exact sackLog_start start
  | noStart frame idle parsed saveDir manifest record names start engine stopped sent rxLog =>
    have log := rxLog.trans (old.idle idle)
    refine ⟨silent rxLog, fun t' ht' => .inl ⟨?_, log⟩⟩
    rw [engine] at ht'
    cases ht'
    obtain ⟨⟨hpc, -⟩, -⟩ := Receiver.start_error start
    exact (stopped.calledWith []).1.pc.trans hpc
  | noSaveDir frame idle idle' fs sent rxLog =>
    refine ⟨silent rxLog, fun t' ht' => ?_⟩
    rw [idle'] at ht'
    cases ht'
  | @fileDone _ index hash _ frame same engine fs sent rxLog =>
    exact called rxLog (ofMap engine fun t => Receiver.called_onFileDone t index hash)
  | @block wire _ frame same engine fs sent rxLog =>
    exact called rxLog (ofMap engine fun t => (Receiver.called_onBlock t wire).1)
  | @thread _ _ t t' out frame same engine step engine' sent rxLog =>
    obtain started | ⟨hpc, -⟩ := old.engine t engine
    · obtain ⟨hpc, -⟩ | hlog := inv t engine
      · rw [Receiver.writerStep, hpc] at step
        cases step
      · have effect := Receiver.writerStep_effect step
        refine ⟨⟨out, rxLog, issues_thread engine started hlog effect⟩, fun u hu => .inr ?_⟩
        rw [engine'] at hu
        cases hu
        rw [rxLog]
        exact hlog.step started.hashing.index effect
    · rw [Receiver.writerStep, hpc] at step
      cases step
  | confirmed frame same engine fs sent rxLog => exact called rxLog (ofEq engine)
  | ended frame same why finished engine fs sent rxLog => exact called rxLog (ofEq engine)
  | stopped frame same exited engine fs sent aside rxLog =>
    exact called rxLog (ofMap engine Receiver.called_closeWriters)

/-! ## Whole runs -/

variable {setup : DuplexSetup} {as : List DuplexAct} {s s' : DuplexState}

/-- When the SACK at place `k` of the log was built, the receiver had the blocks it reports. -/
def Issued (sha : Bytes → Bytes) (setup : DuplexSetup) (as : List DuplexAct) (s : DuplexState) :
    Prop :=
  ∀ k wire sack mf, s.receiver.rxLog[k]? = some (.sack wire) → decodeSack wire = some sack →
    setup.manifest.files[sack.fileIndex.toNat]? = some mf →
    ∃ past, (duplex sha setup).Visited as past ∧
      resets sack.fileIndex (s.receiver.rxLog.take k) ≤ resets sack.fileIndex past.receiver.rxLog ∧
      ∀ b, b < (blockCountFor mf.size).toNat → sack.Reports b →
        HasBlock past.receiver sack.fileIndex b

theorem issued_receiver {act : DuplexAct} {out : List RxEvent} (inv : Issued sha setup as s)
    (run : (duplex sha setup).Run Machine.anyStep as s)
    (rxLog : p.rxLog = s.receiver.rxLog ++ out) (issues : Issues setup.manifest s.receiver out) :
    Issued sha setup (as ++ [act]) { s with receiver := p } := by
  intro k wire sack mf hk hs hmf
  change p.rxLog[k]? = _ at hk
  change ∃ past, _ ∧ resets _ (p.rxLog.take k) ≤ _ ∧ _
  rw [rxLog] at hk ⊢
  by_cases hlt : k < s.receiver.rxLog.length
  · rw [List.getElem?_append_left hlt] at hk
    rw [List.take_append_of_le_length (Nat.le_of_lt hlt)]
    obtain ⟨past, visited, rest⟩ := inv k wire sack mf hk hs hmf
    exact ⟨past, visited.mono (List.prefix_append ..), rest⟩
  · -- The SACK of this step was built from the state before it.
    rw [List.getElem?_append_right (Nat.not_lt.mp hlt)] at hk
    obtain ⟨hnone, hblocks⟩ := issues wire sack mf (List.mem_of_getElem? hk) hs hmf
    refine ⟨s, run.visited.mono (List.prefix_append ..), ?_, hblocks⟩
    have hle := resets_take_le sack.fileIndex k (s.receiver.rxLog ++ out)
    unfold resets at hle hnone ⊢
    rw [List.countP_append] at hle
    omega

structure Sacking (sha : Bytes → Bytes) (setup : DuplexSetup) (as : List DuplexAct)
    (s : DuplexState) : Prop where
  told : Told s.receiver
  log : ∀ t, s.receiver.session.receiver = some t →
    t.pc = .exited ∧ s.receiver.rxLog = [] ∨ SackLog t s.receiver.rxLog
  issued : Issued sha setup as s
  stored : Stored s

theorem sacking_step {act : DuplexAct} (run : (duplex sha setup).Run sacksOnTime as s)
    (inv : Sacking sha setup as s) (onTime : sacksOnTime s act)
    (h : (duplex sha setup).step s act = some s') : Sacking sha setup (as ++ [act]) s' := by
  have anyRun := run.mono fun _ _ _ => trivial
  have agreeing := agreeing_run anyRun
  have agreeing' := agreeing_step anyRun agreeing h
  cases act with
  | sender net =>
    obtain ⟨a, hdeliver, h⟩ := Option.bind_eq_some_iff.mp h
    obtain ⟨p, hstep, rfl⟩ := Option.map_eq_some_iff.mp h
    refine ⟨inv.told, inv.log, fun k wire sack mf hk hs hmf => ?_, ?_⟩
    · obtain ⟨past, visited, rest⟩ := inv.issued k wire sack mf hk hs hmf
      exact ⟨past, visited.mono (List.prefix_append ..), rest⟩
    · exact stored_sender inv.stored agreeing.sending inv.told agreeing.ordered hdeliver hstep onTime
  | receiver net =>
    obtain ⟨a, hdeliver, h⟩ := Option.bind_eq_some_iff.mp h
    obtain ⟨p, hstep, rfl⟩ := Option.map_eq_some_iff.mp h
    obtain ⟨⟨out, rxLog, issues⟩, log⟩ := sackLog_step agreeing.receiving inv.log hstep
    exact ⟨told_step inv.told agreeing.receiving agreeing'.receiving hstep, log,
      issued_receiver inv.issued anyRun rxLog issues, stored_receiver inv.stored rxLog⟩

theorem sacking_run (run : (duplex sha setup).Run sacksOnTime as s) : Sacking sha setup as s := by
  refine run.history (Sacking sha setup) ⟨?_, ?_, ?_, ?_⟩ fun as s a s' hrun inv hok hstep =>
    sacking_step hrun inv hok hstep
  · exact ⟨Nat.le_refl _, .nil, fun y hy => absurd hy List.not_mem_nil⟩
  · exact fun t ht => nomatch ht
  · exact fun k wire sack mf hk => nomatch hk
  · exact fun t i f ht => nomatch ht

/-- How many `file_bad` for file `i` a party has sent. -/
def sentBads (i : UInt16) (p : Party) : Nat := p.sent.countP (·.isBad i)

/-- Once the sender has processed every `file_bad` that was sent for file `i`, each block that its
    stored SACK reports was in the receiver's bitmap at a moment after the last of these resets.
    It still is, unless the file has been reset again and that `file_bad` waits on the loop. -/
def NoStaleSack (sha : Bytes → Bytes) (setup : DuplexSetup) (as : List DuplexAct)
    (s : DuplexState) (i : UInt16) : Prop :=
  processedBads i s.sender = sentBads i s.receiver →
    ∀ t f mf b, s.sender.session.sender = some t → t.tx[i.toNat]? = some f → 0 < f.sackSeq →
      setup.manifest.files[i.toNat]? = some mf → b < (blockCountFor mf.size).toNat →
      f.sack.Reports b →
      (∃ past, (duplex sha setup).Visited as past ∧
        sentBads i s.receiver ≤ resets i past.receiver.rxLog ∧ HasBlock past.receiver i b) ∧
      (resets i s.receiver.rxLog = sentBads i s.receiver → HasBlock s.receiver i b)

theorem noStaleSack_run (run : (duplex sha setup).Run sacksOnTime as s) (i : UInt16) :
    NoStaleSack sha setup as s i := by
  intro processed t f mf b ht hf hseq hmf hb hreports
  have inv := sacking_run run
  obtain ⟨rfl, k, wire, hk, hs, hbound⟩ := inv.stored t i f ht hf hseq
  rw [processed] at hbound
  constructor
  · obtain ⟨past, visited, since, hblocks⟩ := inv.issued k wire f.sack mf hk hs hmf
    exact ⟨past, visited, hbound.trans since, hblocks b hb hreports⟩
  · intro hcurrent
    have receiving := (agreeing_run (run.mono fun _ _ _ => trivial)).receiving
    have some : s.receiver.rxLog ≠ [] := fun hnil => by simp [hnil] at hk
    cases hu : s.receiver.session.receiver with
    | none => exact absurd (receiving.idle hu) some
    | some u =>
      obtain engine | ⟨-, -, hnil⟩ := receiving.engine u hu
      · obtain ⟨-, hnil⟩ | log := inv.log u hu
        · exact absurd hnil some
        · obtain ⟨dir, -, placed⟩ := engine.placed
          have length : u.rx.length = setup.manifest.files.length := by
            simpa using congrArg List.length placed
          have hlt := (List.getElem?_eq_some_iff.mp hmf).1
          have hg := List.getElem?_eq_getElem (length ▸ hlt : f.sack.fileIndex.toNat < u.rx.length)
          have hindex := UInt16.toNat_inj.mp (engine.hashing.index _ _ hg)
          have hsame := le_antisymm (resets_take_le _ k _) (hcurrent.trans_le hbound)
          refine ⟨u, _, hu, hg, log.current k wire f.sack _ _ hk hs hg hindex hsame b ?_ hreports⟩
          rw [engine.blocks hg hmf]
          exact hb
      · exact absurd hnil some

end

/-! ## A resumed file whose part file has gone bad -/

/-- SHA-256 where the runs below use it: the signature of the offer, the byte 7 of the part file
    and the byte 5 of the sender's file. -/
def oneByteSha256 (bytes : Bytes) : Bytes :=
  if bytes = ascii "a:1\n" then
    ascii "cc00afe311e4319f99a6b216147456aca9f42caae5a43251bf364b11dfe6b3b9"
  else if bytes = [7] then
    ascii "ca358758f6d27e6cf45272937977a748fd88391db679ceda7dc7bf1f005ee879"
  else ascii "e77b9a9ae9e30b0dbdb6f510a264ef9de781501d7b6b92ae89eb059c5ab743db"

/-- The receiver resumes a file of one byte that is complete according to the record. -/
def stalePartSetup : DuplexSetup where
  manifest := ⟨[⟨ascii "a", 1⟩], [], [⟨ascii "a", false⟩], 1⟩
  fileCount := 1
  saveDir := some [ascii "save"]
  record := some
    ⟨oneByteSha256 (ascii "a:1\n"), [(ascii "a", ascii "a")], [⟨0, [⟨0, 1⟩], false⟩]⟩
  senderFs := .empty
  receiverFs := ((FileSystem.empty.makeDirs [ascii "save"]).create
    [ascii "save", ascii "a.ctpart"]).writeAt 0 0 [7]

/-- Offer, `accept`, and the SACK that says the file is complete. -/
def resumedRun : List DuplexAct :=
  let write := DuplexAct.receiver (.here (.writerThread { calmIo with now := 1000 }))
  [.sender (.here .ready), .receiver (.here .ready), .receiver (.ctrl calmOfferIo),
    .sender (.ctrl calmOfferIo), write, write, write, write, write]

/-- `file_done` with another hash, then `file_bad`. -/
def resetRun : List DuplexAct :=
  let send := DuplexAct.sender
    (.here (.senderThread { calmTxIo with opened := some 1, bytes := some [5] }))
  let write := DuplexAct.receiver (.here (.writerThread { calmIo with now := 1000 }))
  List.replicate 8 send ++ [.sender (.here .task), .receiver (.ctrl calmOfferIo)] ++
    List.replicate 5 write ++ [.receiver (.here .task), .sender (.ctrl calmOfferIo)]

/-- The SACK arrives when it is sent. -/
def promptSackRun : List DuplexAct := resumedRun ++ [.sender (.sack 0)]

/-- The SACK arrives after the `file_bad`. -/
def lateSackRun : List DuplexAct := resumedRun ++ resetRun ++ [.sender (.sack 0)]

/-- The number of SACKs stored for file 0, and whether the stored one says it is complete. -/
def storedSack (p : Party) : Option (UInt32 × Bool) :=
  (p.session.sender.bind (·.tx[0]?)).map fun f => (f.sackSeq, f.sack.isComplete)

theorem storedSack_eq {p : Party} {seq : UInt32} (h : storedSack p = some (seq, true)) :
    ∃ t f, p.session.sender = some t ∧ t.tx[0]? = some f ∧ f.sackSeq = seq ∧
      ∀ b, f.sack.Reports b := by
  obtain ⟨f, hf, heq⟩ := Option.map_eq_some_iff.mp h
  obtain ⟨t, ht, hf⟩ := Option.bind_eq_some_iff.mp hf
  simp only [Prod.mk.injEq] at heq
  exact ⟨t, f, ht, hf, heq.1, fun b => .inl heq.2⟩

theorem exec_resumedRun :
    ((duplex oneByteSha256 stalePartSetup).exec resumedRun
      (duplex oneByteSha256 stalePartSetup).init).map (fun s => s.sender.received.all
        fun msg => !(msg matches .fileBad ..)) = some true := by
  decide

theorem exec_promptSackRun :
    ((duplex oneByteSha256 stalePartSetup).exec promptSackRun
      (duplex oneByteSha256 stalePartSetup).init).map (fun s =>
        (processedBads 0 s.sender, sentBads 0 s.receiver, resets 0 s.receiver.rxLog,
          storedSack s.sender)) = some (0, 0, 0, some (1, true)) := by
  decide

theorem noStaleSack_promptSack :
    ∃ s, (duplex oneByteSha256 stalePartSetup).Run sacksOnTime promptSackRun s ∧
      storedSack s.sender = some (1, true) ∧ HasBlock s.receiver 0 0 := by
  obtain ⟨mid, hmid, hbads⟩ := Option.map_eq_some_iff.mp exec_resumedRun
  obtain ⟨s, hexec, hs⟩ := Option.map_eq_some_iff.mp exec_promptSackRun
  simp only [Prod.mk.injEq] at hs
  obtain ⟨hprocessed, hsent, hresets, hstored⟩ := hs
  have before : (duplex oneByteSha256 stalePartSetup).Run sacksOnTime resumedRun mid :=
    Machine.Run.extend .init (by simp [sacksOnTime]) hmid
  have onTime : sacksOnTime mid (.sender (.sack 0)) := by
    intro wire sack _ _
    have none : processedBads sack.fileIndex mid.sender = 0 := by
      refine List.countP_eq_zero.mpr fun msg hmsg hbad => ?_
      have := List.all_eq_true.mp hbads msg hmsg
      cases msg with
      | fileBad => cases this
      | _ => cases hbad
    rw [none]
    exact Nat.zero_le _
  have hstep : (duplex oneByteSha256 stalePartSetup).step mid (.sender (.sack 0)) = some s := by
    simpa [promptSackRun, Machine.exec_append, hmid, Machine.exec] using hexec
  have run := before.step onTime hstep
  obtain ⟨t, f, ht, hf, hseq, hreports⟩ := storedSack_eq hstored
  refine ⟨s, run, hstored, ?_⟩
  have fresh := noStaleSack_run run 0 (hprocessed.trans hsent.symm) t f ⟨ascii "a", 1⟩ 0 ht hf
    (by rw [hseq]; decide) rfl (by decide) (hreports 0)
  exact fresh.2 (hresets.trans hsent.symm)

theorem exec_lateSackRun :
    ((duplex oneByteSha256 stalePartSetup).exec lateSackRun
      (duplex oneByteSha256 stalePartSetup).init).map (fun s =>
        (processedBads 0 s.sender, sentBads 0 s.receiver, storedSack s.sender)) =
    some (1, 1, some (1, true)) := by
  decide

/-- Once the file has been reset, its block is never there again. -/
theorem past_lateSackRun : ∀ n < lateSackRun.length + 1,
    ((duplex oneByteSha256 stalePartSetup).exec (lateSackRun.take n)
      (duplex oneByteSha256 stalePartSetup).init).all (fun s =>
        decide (resets 0 s.receiver.rxLog = 0 ∨ ¬ HasBlock s.receiver 0 0)) = true := by
  decide

theorem noStaleSack_lateSack :
    ∃ s, (duplex oneByteSha256 stalePartSetup).Run Machine.anyStep lateSackRun s ∧
      ¬ NoStaleSack oneByteSha256 stalePartSetup lateSackRun s 0 := by
  obtain ⟨s, hexec, hs⟩ := Option.map_eq_some_iff.mp exec_lateSackRun
  simp only [Prod.mk.injEq] at hs
  obtain ⟨hprocessed, hsent, hstored⟩ := hs
  obtain ⟨t, f, ht, hf, hseq, hreports⟩ := storedSack_eq hstored
  refine ⟨s, Machine.run_of_exec hexec, fun fresh => ?_⟩
  obtain ⟨⟨past, ⟨before, hpre, hrun⟩, hresets, hblock⟩, -⟩ :=
    fresh (hprocessed.trans hsent.symm) t f ⟨ascii "a", 1⟩ 0 ht hf (by rw [hseq]; decide) rfl
      (by decide) (hreports 0)
  have hall := past_lateSackRun before.length (Nat.lt_succ_of_le hpre.length_le)
  rw [← List.prefix_iff_eq_take.mp hpre, hrun.exec_eq] at hall
  rw [hsent] at hresets
  obtain hzero | hnone := of_decide_eq_true hall
  · omega
  · exact hnone hblock

end CrossTransfer.Share
