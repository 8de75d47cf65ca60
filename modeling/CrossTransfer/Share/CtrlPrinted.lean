import CrossTransfer.Share.CtrlReadable
import CrossTransfer.Share.CtrlText
import CrossTransfer.Transfer.Utf8

/-! # Printing a control message

What a call of `OnCtrlMessage` sends has to have a text, and `dump()` throws on a string that is not
UTF-8. What the core sends is UTF-8, but for one thing: if the engine of an offer does not start, `Fail`
hands on the error text of the system. `printedDoc_iff` says that this is all.
-/

namespace CrossTransfer.Share

open CrossTransfer.Transfer
open CrossTransfer.Transfer.Paths
open TransferSession

/-- The engine does not start on this manifest: an operation of the file system fails, with an error
    text of the system. -/
def StartFails (sha : Bytes → Bytes) (io : OfferIo) (s : TransferSession) (m : Manifest)
    (saveDir : Path) (fs : Fs) : Prop :=
  let record := s.matchingRecord sha m
  let names := chooseNames (reusedNames record) (fun n => fs.pathExists (saveDir ++ [n])) io.rd m.roots
  ∃ msg, (Receiver.start io.start m saveDir names (record.elim [] (·.files)) fs).2.2 = some msg ∧
    msg ≠ ascii "allocate part file"

/-- The condition on the error text of the system, for an offer on which the engine is started. -/
def Printable (sha : Bytes → Bytes) (io : OfferIo) (s : TransferSession) (fs : Fs) :
    CtrlType → Json → Prop
  | .offer, j => s.isSender = false → s.receiver = none → s.stopping = none →
    s.state.terminal = false → ∀ manifest m saveDir, j.find "manifest" = some manifest →
    Manifest.fromJson manifest = .ok m → s.saveDir = some saveDir →
    StartFails sha io s m saveDir fs → IsUtf8 io.start.err
  | _, _ => True

section Printed

variable {dump : Json → Option Bytes} {sha : Bytes → Bytes} {casts : Casts} {io : OfferIo}
  {s s' : TransferSession} {j : Json} {fs fs' : Fs} {out : List SessionEvent}
  {r r' : Option (TransferSession × Fs × List SessionEvent)}

theorem print_eq_ok (h : s.print dump r = .ok r') : r' = r := by
  cases r with
  | none =>
    cases h
    rfl
  | some result =>
    obtain ⟨s', fs', out⟩ := result
    rw [print] at h
    split at h
    · exact (Except.ok.inj h).symm
    · cases h

theorem print_some (strict : StrictDump dump) :
    s.print dump (some (s', fs', out)) = .ok (some (s', fs', out)) ↔
      ∀ msg ∈ s.prints s' out, msg.toJson.utf8 = true := by
  have hdump : ∀ msg : CtrlMsg, (dump msg.toJson).isSome = msg.toJson.utf8 := by
    intro msg
    rw [Bool.eq_iff_iff, Option.isSome_iff_ne_none, ne_eq, strict, Bool.not_eq_false]
  simp only [print, hdump]
  rw [← List.all_eq_true]
  split
  · rename_i hall
    exact iff_of_true rfl hall
  · rename_i hnot
    exact iff_of_false (by simp) hnot

theorem print_of_silent (h : s.prints s' out = []) :
    s.print dump (some (s', fs', out)) = .ok (some (s', fs', out)) := by
  simp [print, h]

/-- A message that names a code and a text. -/
theorem utf8_error {code message : Bytes} (hcode : validUtf8 code = true) :
    (CtrlMsg.error code message).toJson.utf8 = validUtf8 message := by
  have htype : validUtf8 (ascii "type") = true := rfl
  have herror : validUtf8 (ascii "error") = true := rfl
  have hkey : validUtf8 (ascii "code") = true := rfl
  have hmsg : validUtf8 (ascii "msg") = true := rfl
  simp [CtrlMsg.toJson, typed, Json.utf8, utf8Entries, htype, herror, hkey, hmsg, hcode]

theorem utf8_acceptFile (f : AcceptFile) : f.toJson.utf8 = true := by
  have hindex : validUtf8 (ascii "index") = true := rfl
  have hverified : validUtf8 (ascii "verified") = true := rfl
  have hhave : validUtf8 (ascii "have") = true := rfl
  cases f with
  | verified index => simp [AcceptFile.toJson, Json.utf8, utf8Entries, hindex, hverified]
  | runs index rs =>
    have hruns : utf8Items (rs.map runJson) = true := utf8Items_map fun _ _ => rfl
    simp [AcceptFile.toJson, Json.utf8, utf8Entries, hindex, hhave, hruns]

theorem utf8_accept (files : List AcceptFile) : (CtrlMsg.accept files).toJson.utf8 = true := by
  have htype : validUtf8 (ascii "type") = true := rfl
  have haccept : validUtf8 (ascii "accept") = true := rfl
  have hkey : validUtf8 (ascii "files") = true := rfl
  have hfiles : utf8Items (files.map AcceptFile.toJson) = true :=
    utf8Items_map fun f _ => utf8_acceptFile f
  simp [CtrlMsg.toJson, typed, Json.utf8, utf8Entries, htype, haccept, hkey, hfiles]

/-! ### Failures -/

/-- What is printed of a failure that is told to the peer. -/
theorem print_fail (strict : StrictDump dump) {t : TransferSession} (state : t.state = s.state)
    (stopping : t.stopping = s.stopping) (code message : Bytes) (hcode : validUtf8 code = true)
    (told : (AfterStop.fail code message).notice = some (.error code message)) :
    s.print dump (some (t.fail code message, fs', [])) = .ok (some (t.fail code message, fs', [])) ↔
      (s.stopping = none → s.state.terminal = false → validUtf8 message = true) := by
  rw [print_some strict, prints]
  -- `Fail` tells the peer only if it is the first failure of a session that has not ended.
  cases hs : s.stopping with
  | some k => simp [Party.ctrlOf]
  | none =>
    cases hterminal : s.state.terminal with
    | true =>
      have hsame : t.fail code message = t := by rw [fail, state, hterminal, if_pos rfl]
      simp [hsame, stopping, hs, Party.ctrlOf]
    | false =>
      have hfail : (t.fail code message).stopping = some (.fail code message) := by
        rw [fail, state, hterminal]
        rfl
      simp [hfail, told, utf8_error hcode, Party.ctrlOf]

theorem print_fail_ascii (strict : StrictDump dump) {t : TransferSession} (state : t.state = s.state)
    (stopping : t.stopping = s.stopping) (code message : Bytes) (hcode : validUtf8 code = true)
    (told : (AfterStop.fail code message).notice = some (.error code message))
    (hmessage : validUtf8 message = true) :
    s.print dump (some (t.fail code message, fs', [])) = .ok (some (t.fail code message, fs', [])) :=
  (print_fail strict state stopping code message hcode told).mpr fun _ _ => hmessage

theorem prints_setState {t : TransferSession} (stopping : t.stopping = s.stopping)
    (state : TransferState) : s.prints (t.setState state).1 (t.setState state).2 = [] := by
  have hstopping : (t.setState state).1.stopping = s.stopping := by
    rw [← stopping, setState]
    split <;> rfl
  have hout : Party.ctrlOf (t.setState state).2 = [] := by
    rw [setState]
    split <;> rfl
  rw [prints, hstopping, hout]
  cases s.stopping <;> rfl

/-- Nothing is sent, and no failure begins. -/
theorem prints_same (stopping : s'.stopping = s.stopping) : s.prints s' [] = [] := by
  rw [prints, stopping]
  cases s.stopping <;> rfl

theorem prints_ctrl (msg : CtrlMsg) : s.prints s' (.ctrl msg :: out) = msg :: s.prints s' out := rfl

/-! ### Texts of the core -/

theorem readRoot_rejected {acc : List ManifestRoot} {d : Json} {msg : String}
    (h : Manifest.readRoot acc d = .error (.rejected msg)) : validUtf8 (ascii msg) = true := by
  have hdir : Manifest.valueDir d ≠ .error (.rejected msg) := by
    unfold Manifest.valueDir
    split <;> simp
  unfold Manifest.readRoot at h
  split at h
  · split at h
    · rename_i e he
      cases h
      exact absurd he hdir
    · repeat' split at h
      all_goals cases h
      all_goals rfl
  · cases h
    rfl

theorem readRoots_rejected {items : List Json} {acc : List ManifestRoot} {msg : String}
    (h : Manifest.readRoots items acc = .error (.rejected msg)) : validUtf8 (ascii msg) = true := by
  induction items generalizing acc with
  | nil => cases h
  | cons d rest ih =>
    rw [Manifest.readRoots] at h
    split at h
    · rename_i e he
      cases h
      exact readRoot_rejected he
    · exact ih h

theorem readDirs_rejected {roots : List ManifestRoot} {items : List Json} {acc : List Bytes}
    {msg : String} (h : Manifest.readDirs roots items acc = .error (.rejected msg)) :
    validUtf8 (ascii msg) = true := by
  induction items generalizing acc with
  | nil => cases h
  | cons d rest ih =>
    rw [Manifest.readDirs] at h
    split at h
    · rename_i e he
      unfold Manifest.readDir at he
      cases h
      repeat' split at he
      all_goals cases he
      all_goals rfl
    · exact ih h

theorem readFiles_rejected {roots : List ManifestRoot} {dirs : List Bytes} {items : List Json}
    {acc : List ManifestFile} {total : UInt64} {msg : String}
    (h : Manifest.readFiles roots dirs items acc total = .error (.rejected msg)) :
    validUtf8 (ascii msg) = true := by
  induction items generalizing acc total with
  | nil => cases h
  | cons f rest ih =>
    rw [Manifest.readFiles] at h
    split at h
    · rename_i e he
      unfold Manifest.readFile at he
      cases h
      repeat' split at he
      all_goals cases he
      all_goals rfl
    · exact ih h

theorem body_rejected {files dirs roots : List Json} {msg : String}
    (h : Manifest.fromJson.body files dirs roots = .error (.rejected msg)) :
    validUtf8 (ascii msg) = true := by
  unfold Manifest.fromJson.body at h
  split at h
  · cases h
    rfl
  · split at h
    · rename_i e he
      cases h
      exact readRoots_rejected he
    · split at h
      · rename_i e he
        cases h
        exact readDirs_rejected he
      · split at h
        · rename_i e he
          cases h
          exact readFiles_rejected he
        · split at h
          · rename_i conflict hconflict
            cases h
            obtain ⟨f, -, hf⟩ := List.exists_of_findSome?_eq_some hconflict
            unfold Manifest.fileConflict at hf
            repeat' split at hf
            all_goals cases hf
            all_goals rfl
          · cases h

/-- The reason for which an offer is refused is a text of the core. -/
theorem fromJson_rejected {m : Json} {msg : String}
    (h : Manifest.fromJson m = .error (.rejected msg)) : validUtf8 (ascii msg) = true := by
  unfold Manifest.fromJson at h
  split at h
  · cases h
    rfl
  · split at h
    · split at h
      · exact body_rejected h
      · exact body_rejected h
      all_goals cases h
      all_goals rfl
    · cases h
      rfl

/-! ### Texts of the system -/

theorem startDirs_text {io : Receiver.StartIo} {saveDir : Path} {names : Names} {dirs : List Bytes}
    {created created' : List Path} {msg : Bytes}
    (h : Receiver.startDirs io saveDir names dirs fs created = (fs', created', some msg)) :
    msg = ascii "mkdir: " ++ io.err := by
  induction dirs generalizing fs created with
  | nil => cases h
  | cons d rest ih =>
    rw [Receiver.startDirs] at h
    split at h
    · cases h
      rfl
    · exact ih h

theorem startFile_text {io : Receiver.StartIo} {resume : List ReceiverFileState} {f : FileRx}
    {msg : Bytes} (h : Receiver.startFile io resume fs f = (fs', .error msg)) :
    msg = ascii "mkdir: " ++ io.err ∨ msg = ascii "open part: " ++ io.err ∨
      msg = ascii "allocate part file" := by
  unfold Receiver.startFile at h
  dsimp only at h
  split at h
  · cases h
  · split at h
    · cases h
      exact .inl rfl
    · split at h
      · cases h
      · split at h
        · cases h
          exact .inr (.inl rfl)
        · split at h
          · cases h
            exact .inr (.inr rfl)
          · split at h
            · split at h <;> cases h
            · cases h

theorem startFiles_text {io : Receiver.StartIo} {resume : List ReceiverFileState}
    {files : List FileRx} {t t' : Receiver} {msg : Bytes}
    (h : Receiver.startFiles io resume files fs t = (fs', t', some msg)) :
    msg = ascii "mkdir: " ++ io.err ∨ msg = ascii "open part: " ++ io.err ∨
      msg = ascii "allocate part file" := by
  induction files generalizing fs t with
  | nil => cases h
  | cons f rest ih =>
    rw [Receiver.startFiles] at h
    split at h
    · rename_i hfile
      cases h
      exact startFile_text hfile
    · exact ih h

/-- `Start` names the operation that failed, and hands on the text of the system. -/
theorem start_text {io : Receiver.StartIo} {m : Manifest} {saveDir : Path} {names : Names}
    {resume : List ReceiverFileState} {t : Receiver} {msg : Bytes}
    (h : Receiver.start io m saveDir names resume fs = (fs', t, some msg)) :
    msg = ascii "allocate part file" ∨ (validUtf8 msg = true ↔ IsUtf8 io.err) := by
  -- What the core puts before the text is ASCII, which does not change whether the whole is UTF-8.
  have handed : ∀ {lead : Bytes}, lead.all (fun u => decide (u < 0x80)) = true →
      msg = lead ++ io.err → (validUtf8 msg = true ↔ IsUtf8 io.err) := by
    rintro lead hlead rfl
    rw [validUtf8_iff, isUtf8_append (by simpa using hlead)]
  rw [Receiver.start] at h
  dsimp only at h
  split at h
  · cases h
    exact .inr (handed (by decide) rfl)
  · split at h
    · rename_i hdirs
      cases h
      exact .inr (handed (by decide) (startDirs_text hdirs))
    · split at h
      · rename_i hfiles
        cases h
        obtain hmkdir | hopen | hsize := startFiles_text hfiles
        · exact .inr (handed (by decide) hmkdir)
        · exact .inr (handed (by decide) hopen)
        · exact .inl hsize
      · cases h

/-! ### Each type of message -/

theorem print_startAccepted (strict : StrictDump dump) (accepted : Accepted) :
    s.print dump (some ((s.startAccepted accepted).1, fs, (s.startAccepted accepted).2)) =
      .ok (some ((s.startAccepted accepted).1, fs, (s.startAccepted accepted).2)) := by
  unfold startAccepted
  dsimp only
  split
  · apply print_fail_ascii strict <;> rfl
  · exact print_of_silent (prints_setState rfl _)

theorem print_acceptOffer (strict : StrictDump dump) (m : Manifest) (saveDir : Path) :
    s.print dump (s.acceptOffer sha io m saveDir fs) = .ok (s.acceptOffer sha io m saveDir fs) ↔
      (s.stopping = none → s.state.terminal = false →
        StartFails sha io s m saveDir fs → IsUtf8 io.start.err) := by
  unfold acceptOffer
  dsimp only
  split
  · rename_i fs' t msg hstart
    have hfails : StartFails sha io s m saveDir fs ↔ msg ≠ ascii "allocate part file" := by
      simp [StartFails, hstart]
    refine Iff.trans (print_fail strict (by rfl) (by rfl) (ascii "start") msg rfl rfl) ?_
    refine imp_congr_right fun _ => imp_congr_right fun _ => ?_
    -- The one failure of `Start` that does not hand on a text of the system.
    by_cases hmsg : msg = ascii "allocate part file"
    · subst hmsg
      exact iff_of_true rfl fun h => absurd rfl (hfails.mp h)
    · have htext := (start_text hstart).resolve_left hmsg
      exact ⟨fun h _ => htext.mp h, fun h => htext.mpr (h (hfails.mpr hmsg))⟩
  · rename_i fs' t hstart
    have hstarts : ¬StartFails sha io s m saveDir fs := by simp [StartFails, hstart]
    refine iff_of_true ?_ fun _ _ h => absurd h hstarts
    cases t.haveRuns with
    | none => rfl
    | some runs =>
      rw [print_some strict, prints_ctrl, prints_setState (by rfl), List.forall_mem_singleton]
      exact utf8_accept _

/-- What an offer makes the receiver print. -/
theorem print_handleOffer (strict : StrictDump dump) {manifest : Json}
    (typed : Manifest.fromJson manifest ≠ .error .thrown) (hrole : s.isSender = false)
    (hidle : s.receiver = none) :
    s.print dump (s.handleOffer sha io manifest fs) = .ok (s.handleOffer sha io manifest fs) ↔
      (s.stopping = none → s.state.terminal = false → ∀ m saveDir, Manifest.fromJson manifest = .ok m →
        s.saveDir = some saveDir → StartFails sha io s m saveDir fs → IsUtf8 io.start.err) := by
  rw [handleOffer, if_neg (by simp [hrole, hidle])]
  split
  · rename_i hthrown
    exact absurd hthrown typed
  · rename_i msg hrejected
    refine iff_of_true ?_ fun _ _ m _ hm => by simp [hrejected] at hm
    exact print_fail_ascii strict rfl rfl _ _ rfl rfl (fromJson_rejected hrejected)
  · rename_i m hm
    split
    · rename_i hnone
      refine iff_of_true ?_ fun _ _ _ _ _ hsome => by simp [hnone] at hsome
      apply print_fail_ascii strict <;> rfl
    · rename_i saveDir hsome
      rw [print_acceptOffer strict]
      refine imp_congr_right fun _ => imp_congr_right fun _ => ?_
      constructor
      · intro h m' saveDir' hm' hsome'
        rw [hm] at hm'
        rw [hsome] at hsome'
        cases hm'
        cases hsome'
        exact h
      · intro h
        exact h m saveDir hm hsome

/-- Whatever the call prints has a text. -/
def PrintedDoc (dump : Json → Option Bytes) (sha : Bytes → Bytes) (casts : Casts) (io : OfferIo)
    (s : TransferSession) (t : CtrlType) (j : Json) (fs : Fs) : Prop :=
  ∀ r, s.onCtrlDoc sha casts io t j fs = .ok r → s.print dump r = .ok r

/-- An offer that is looked at. -/
theorem handleOfferDoc_of_read {manifest : Json} (hrole : s.isSender = false) (hidle : s.receiver = none)
    (hmanifest : j.find "manifest" = some manifest)
    (typed : Manifest.fromJson manifest ≠ .error .thrown) :
    s.handleOfferDoc sha io j fs = .ok (s.handleOffer sha io manifest fs) := by
  rw [handleOfferDoc, if_neg (by simp [hrole, hidle]), hmanifest]
  dsimp only
  split
  · rename_i hthrown
    exact absurd hthrown typed
  · rfl

theorem printed_offer (strict : StrictDump dump) :
    PrintedDoc dump sha casts io s .offer j fs ↔ Printable sha io s fs .offer j := by
  rw [PrintedDoc, onCtrlDoc]
  by_cases hbusy : (s.isSender || s.receiver.isSome) = true
  · rw [handleOfferDoc, if_pos hbusy]
    refine iff_of_true (fun r hr => ?_) fun hrole hidle => by simp [hrole, hidle] at hbusy
    cases hr
    exact print_of_silent (prints_same rfl)
  have hrole : s.isSender = false ∧ s.receiver = none := by simpa using hbusy
  cases hmanifest : j.find "manifest" with
  | none =>
    refine iff_of_true (fun r hr => ?_) fun _ _ _ _ m _ _ hm => by simp [hmanifest] at hm
    rw [handleOfferDoc, if_neg hbusy, hmanifest] at hr
    cases hr
    apply print_fail_ascii strict <;> rfl
  | some manifest =>
    -- Where the accessors throw, nothing is printed.
    by_cases hthrown : Manifest.fromJson manifest = .error .thrown
    · refine iff_of_true (fun r hr => ?_) fun _ _ _ _ manifest' m _ hm hok => ?_
      · rw [handleOfferDoc, if_neg hbusy, hmanifest] at hr
        dsimp only at hr
        rw [hthrown] at hr
        cases hr
      · rw [hmanifest] at hm
        cases hm
        rw [hthrown] at hok
        cases hok
    · rw [handleOfferDoc_of_read hrole.1 hrole.2 hmanifest hthrown]
      have hoffer : s.print dump (s.handleOffer sha io manifest fs) =
          .ok (s.handleOffer sha io manifest fs) ↔ _ :=
        print_handleOffer strict hthrown hrole.1 hrole.2
      constructor
      · intro h _ _ hstopping hterminal manifest' m saveDir hm
        rw [hmanifest] at hm
        cases hm
        exact hoffer.mp (h _ rfl) hstopping hterminal m saveDir
      · intro h r hr
        cases hr
        exact hoffer.mpr fun hstopping hterminal m saveDir =>
          h hrole.1 hrole.2 hstopping hterminal manifest m saveDir hmanifest

/-- No failure begins that is told to the peer. -/
theorem prints_quiet {k : AfterStop} (stopping : s'.stopping = some k) (quiet : k.notice = none) :
    s.prints s' [] = [] := by
  rw [prints, stopping, Option.bind_some, quiet]
  split <;> rfl

theorem prints_fail_quiet {code message : Bytes}
    (quiet : (AfterStop.fail code message).notice = none) :
    s.prints (s.fail code message) [] = [] := by
  cases hterminal : s.state.terminal with
  | true => exact prints_same (by rw [fail, if_pos hterminal])
  | false => exact prints_quiet (by rw [fail, hterminal]; rfl) quiet

theorem stopping_handleFileAckDoc (ok : Bool) : (s.handleFileAckDoc j ok).stopping = s.stopping := by
  unfold handleFileAckDoc handleFileAck
  repeat' split
  all_goals rfl

theorem stopping_handleFileDoneDoc (h : s.handleFileDoneDoc casts j = .ok s') :
    s'.stopping = s.stopping := by
  unfold handleFileDoneDoc at h
  repeat' split at h
  all_goals cases h
  all_goals rfl

theorem handleAcceptDoc_cases {result : TransferSession × List SessionEvent}
    (h : s.handleAcceptDoc casts j = .ok result) :
    result = (s, []) ∨ ∃ accepted, result = s.startAccepted accepted := by
  rw [handleAcceptDoc] at h
  split at h
  · cases h
    exact .inl rfl
  · split at h
    · rename_i files _
      cases hfold : files.foldlM (acceptStep casts s.manifest.files.length) ([], []) with
      | error e =>
        rw [hfold] at h
        cases h
      | ok accepted =>
        rw [hfold] at h
        cases h
        exact .inr ⟨accepted, rfl⟩
    · cases h
      exact .inr ⟨_, rfl⟩

theorem prints_receiverAllDone {t : TransferSession} (stopping : t.stopping = s.stopping) :
    s.prints t.onReceiverAllDone.1 t.onReceiverAllDone.2 = [] := by
  unfold onReceiverAllDone
  split
  · exact prints_same stopping
  · split
    · exact prints_setState stopping _
    · have hcompleted := prints_setState stopping .completed
      rw [prints] at hcompleted ⊢
      simpa [Party.ctrlOf] using hcompleted

theorem print_transferDone :
    s.print dump (s.onCtrlMessage sha io .transferDone fs) =
      .ok (s.onCtrlMessage sha io .transferDone fs) := by
  rw [onCtrlMessage]
  split
  · exact print_of_silent (prints_same rfl)
  · dsimp only
    split
    · exact print_of_silent (prints_receiverAllDone rfl)
    · exact print_of_silent (prints_same rfl)

theorem printed_other (strict : StrictDump dump) {t : CtrlType} (ht : t ≠ .offer) :
    PrintedDoc dump sha casts io s t j fs := by
  intro r hr
  cases t with
  | offer => exact absurd rfl ht
  | accept =>
    rw [onCtrlDoc] at hr
    cases hdoc : s.handleAcceptDoc casts j with
    | error e =>
      rw [hdoc] at hr
      cases hr
    | ok result =>
      rw [hdoc] at hr
      cases hr
      obtain rfl | ⟨accepted, rfl⟩ := handleAcceptDoc_cases hdoc
      · exact print_of_silent (prints_same rfl)
      · exact print_startAccepted strict accepted
  | fileDone =>
    rw [onCtrlDoc] at hr
    cases hdoc : s.handleFileDoneDoc casts j with
    | error e =>
      rw [hdoc] at hr
      cases hr
    | ok s' =>
      rw [hdoc] at hr
      cases hr
      exact print_of_silent (prints_same (stopping_handleFileDoneDoc hdoc))
  | fileOk =>
    cases hr
    exact print_of_silent (prints_same (stopping_handleFileAckDoc _))
  | fileBad =>
    cases hr
    exact print_of_silent (prints_same (stopping_handleFileAckDoc _))
  | transferDone =>
    cases hr
    exact print_transferDone
  | pause =>
    cases hr
    exact print_of_silent (prints_same rfl)
  | resume =>
    cases hr
    rw [onCtrlMessage]
    split <;> exact print_of_silent (prints_same rfl)
  | cancel =>
    cases hr
    rw [onCtrlMessage]
    split
    · exact print_of_silent (prints_same rfl)
    · exact print_of_silent (prints_quiet rfl rfl)
  | error =>
    rw [onCtrlDoc] at hr
    cases hcode : valueCode j with
    | error e =>
      rw [hcode] at hr
      cases hr
    | ok code =>
      rw [hcode] at hr
      cases hr
      exact print_of_silent (prints_fail_quiet rfl)

theorem printedDoc_iff (strict : StrictDump dump) :
    PrintedDoc dump sha casts io s t j fs ↔ Printable sha io s fs t j := by
  by_cases ht : t = .offer
  · subst ht
    exact printed_offer strict
  · refine iff_of_true (printed_other strict ht) ?_
    cases t with
    | offer => exact absurd rfl ht
    | _ => exact trivial

end Printed

end CrossTransfer.Share
