import CrossTransfer.Library.SeparatedPath
import CrossTransfer.Share.FinalRecord
import CrossTransfer.Transfer.JsonText

/-! # The manifest signature

A resume record belongs to the manifest whose signature it holds. The signature hashes the lines
`path:size` of the files; the path check lets neither a colon nor a line break through, so that the
lines can be read back (`files_of_signatureBlob`).

Blocks that a record lists are therefore applied to files with the path and the size they were
received for, unless two file lists have one hash (`signature_identifies`).
-/

namespace CrossTransfer.Share

open CrossTransfer.Library
open CrossTransfer.Library.SeparatedPath (append_sep_inj)
open CrossTransfer.Transfer
open CrossTransfer.Transfer.Paths

/-! ## Numbers and paths in a line -/

/-- The number that decimal digits write. -/
def decimalValue (text : Bytes) : Nat := text.foldl (fun n u => 10 * n + (u.toNat - 0x30)) 0

theorem ascii_toString (n : Nat) :
    ascii (toString n) = (Nat.toDigits 10 n).map fun c => UInt8.ofNat c.toNat := by
  have hdigits : (toString n).toList = Nat.toDigits 10 n := Nat.toList_repr
  rw [ascii, hdigits]

theorem digit_toNat {c : Char} (h : c.isDigit = true) : 0x30 ≤ c.toNat ∧ c.toNat ≤ 0x39 := by
  rw [Char.isDigit, Bool.and_eq_true, decide_eq_true_eq, decide_eq_true_eq] at h
  exact h

theorem digit_byte {c : Char} (h : c.isDigit = true) : (UInt8.ofNat c.toNat).toNat = c.toNat := by
  have hdigit := digit_toNat h
  rw [UInt8.toNat_ofNat', Nat.mod_eq_of_lt (by omega)]

theorem decimalValue_toString (n : Nat) : decimalValue (ascii (toString n)) = n := by
  have hfold : ∀ (cs : List Char) (m : Nat), (∀ c ∈ cs, c.isDigit = true) →
      (cs.map fun c => UInt8.ofNat c.toNat).foldl (fun n u => 10 * n + (u.toNat - 0x30)) m =
        Nat.ofDigitChars 10 cs m := by
    intro cs
    induction cs with
    | nil => simp
    | cons c cs ih =>
      intro m hcs
      rw [List.forall_mem_cons] at hcs
      rw [List.map_cons, List.foldl_cons, ih _ hcs.2, Nat.ofDigitChars_cons, digit_byte hcs.1]
      rfl
  rw [ascii_toString, decimalValue, hfold _ _ fun c hc => Nat.isDigit_of_mem_toDigits
    (by decide) (by decide) hc, Nat.ofDigitChars_ten_toDigits]

theorem digit_of_mem_toString {n : Nat} {u : UInt8} (h : u ∈ ascii (toString n)) :
    0x30 ≤ u.toNat ∧ u.toNat ≤ 0x39 := by
  rw [ascii_toString, List.mem_map] at h
  obtain ⟨c, hc, rfl⟩ := h
  have hdigit := Nat.isDigit_of_mem_toDigits (by decide) (by decide) hc
  rw [digit_byte hdigit]
  exact digit_toNat hdigit

theorem newline_not_mem_toString (n : Nat) : (0x0A : UInt8) ∉ ascii (toString n) := by
  intro h
  exact absurd (digit_of_mem_toString h).1 (by decide)

/-! ## The lines -/

namespace TransferSession

/-- The line of a file, without its line break. -/
theorem signatureBlob_cons (f : ManifestFile) (fs ds rs total) :
    signatureBlob ⟨f :: fs, ds, rs, total⟩ =
      f.path ++ 0x3A :: (ascii (toString f.size.toNat) ++ 0x0A :: signatureBlob ⟨fs, ds, rs, total⟩) := by
  have hcolon : ascii ":" = [0x3A] := rfl
  have hbreak : ascii "\n" = [0x0A] := rfl
  simp [signatureBlob, hcolon, hbreak]

theorem files_of_lines {fs fs' : List ManifestFile}
    (hsafe : ∀ f ∈ fs, isSafeRelativePath f.path = true)
    (hsafe' : ∀ f ∈ fs', isSafeRelativePath f.path = true)
    (h : signatureBlob ⟨fs, [], [], 0⟩ = signatureBlob ⟨fs', [], [], 0⟩) : fs = fs' := by
  have hcolon : ∀ {path}, isSafeRelativePath path = true → (0x3A : UInt8) ∉ path := by
    intro path hpath hmem
    have hallowed := not_forbidden_of_isSafeRelativePath hpath hmem (by decide)
    contradiction
  induction fs generalizing fs' with
  | nil =>
    cases fs' with
    | nil => rfl
    | cons f' fs' =>
      rw [signatureBlob_cons] at h
      exact absurd (congrArg List.length h) (by simp [signatureBlob])
  | cons f fs ih =>
    cases fs' with
    | nil =>
      rw [signatureBlob_cons] at h
      exact absurd (congrArg List.length h) (by simp [signatureBlob])
    | cons f' fs' =>
      rw [List.forall_mem_cons] at hsafe hsafe'
      rw [signatureBlob_cons, signatureBlob_cons] at h
      obtain ⟨hpath, hline⟩ := append_sep_inj (hcolon hsafe.1) (hcolon hsafe'.1) h
      obtain ⟨hsize, hrest⟩ := append_sep_inj (newline_not_mem_toString _)
        (newline_not_mem_toString _) hline
      have hvalue := congrArg decimalValue hsize
      rw [decimalValue_toString, decimalValue_toString, UInt64.toNat_inj] at hvalue
      have hfirst : f = f' := by
        cases f
        cases f'
        rw [ManifestFile.mk.injEq]
        exact ⟨hpath, hvalue⟩
      rw [hfirst, ih hsafe.2 hsafe'.2 hrest]

theorem files_of_signatureBlob {j j' : Json} {m m' : Manifest} (h : Manifest.fromJson j = .ok m)
    (h' : Manifest.fromJson j' = .ok m') (hblob : signatureBlob m = signatureBlob m') :
    m.files = m'.files :=
  files_of_lines (Manifest.wellFormed_of_fromJson h).files.safe
    (Manifest.wellFormed_of_fromJson h').files.safe hblob

/-! ## Records -/

/-- The record was stored by a receiving session while it had this manifest. -/
def Recorded (sha : Bytes → Bytes) (m : Manifest) (r : ResumeRecord) : Prop :=
  ∃ (saveDir : Option Path) (record : Option ResumeRecord) (fs : Fs) (as : List PartyAct)
    (p p' : Party) (a : PartyAct),
    (party sha { session := .newReceiver saveDir record, fs := fs }).Run Machine.anyStep as p ∧
      p.step sha a = some p' ∧ some r ∈ recordsOf (p.events sha a) ∧ p.session.manifest = m

/-- Blocks of the file count as received. -/
def Resumed (f : FileRx) : Prop := f.verified = true ∨ ∃ b, f.bitmap.test b = true

/-- The two signatures do not collide. -/
def NoCollision (sha : Bytes → Bytes) (m m' : Manifest) : Prop :=
  manifestSignature sha m = manifestSignature sha m' → signatureBlob m = signatureBlob m'

end TransferSession

/-! ## What a stored record holds -/

section

variable {sha : Bytes → Bytes} {p p' : Party} {a : PartyAct}

/-- The manifest of an engine came with an offer that was accepted. -/
def Party.Offered (p : Party) : Prop :=
  p.session.receiver ≠ none → ∃ j, Manifest.fromJson j = .ok p.session.manifest

theorem Party.Offered.step (h : p.Offered) (move : ReceiverMove sha p a p') : p'.Offered := by
  have kept : RecvSame p p' → (p.session.receiver = none → p'.session.receiver = none) →
      p'.Offered := by
    intro same hnone hsome
    rw [same.manifest]
    exact h (mt hnone hsome)
  cases move with
  | other frame same engine =>
    refine kept same fun hnone => ?_
    rw [hnone] at engine
    exact TransferSession.rel_stopped_none engine
  | task frame same event engine =>
    refine kept same fun hnone => ?_
    rw [hnone] at engine
    exact TransferSession.rel_stopped_none engine
  | offer frame idle parsed saveDir manifest =>
    intro hsome
    exact ⟨_, manifest ▸ parsed⟩
  | noStart frame idle parsed saveDir manifest =>
    intro hsome
    exact ⟨_, manifest ▸ parsed⟩
  | noSaveDir frame idle idle' => exact fun hsome => absurd idle' hsome
  | fileDone frame same engine => exact kept same fun hnone => by rw [engine, hnone]; rfl
  | block frame same engine => exact kept same fun hnone => by rw [engine, hnone]; rfl
  | thread frame same engine => exact kept same fun hnone => by rw [engine] at hnone; cases hnone
  | confirmed frame same engine => exact kept same fun hnone => by rw [engine, hnone]
  | ended frame same why finished engine => exact kept same fun hnone => by rw [engine, hnone]
  | stopped frame same exited engine => exact kept same fun hnone => by rw [engine, hnone]; rfl

theorem offered_run {saveDir : Option Path} {record : Option ResumeRecord} {fs : Fs}
    {as : List PartyAct}
    (run : (party sha { session := .newReceiver saveDir record, fs := fs }).Run Machine.anyStep as p) :
    p.Offered := by
  induction run with
  | init =>
    intro h
    exact absurd rfl h
  | step run _ hstep ih =>
    have filed := (filed_run run).2
    exact ih.step (receiverMove filed.role filed.sender hstep)

/-- A callback stores its own snapshot, under the session's manifest. -/
theorem record_of_onRxEvent {s : TransferSession} {e : RxEvent} {r : ResumeRecord}
    (h : some r ∈ recordsOf (s.onRxEvent sha e).2) :
    ∃ files, e = .persist files ∧ r = recordOf sha s files := by
  by_cases hne : ∀ files, e ≠ .persist files
  · exact absurd h ((TransferSession.turned_onRxEvent s sha hne).unsaved r)
  · obtain ⟨files, rfl⟩ : ∃ files, e = .persist files := by simpa using hne
    refine ⟨files, rfl, ?_⟩
    simp only [TransferSession.onRxEvent, TransferSession.persistReceiver] at h
    split at h
    · cases h
    · simpa [recordsOf, recordOf] using h

/-- What is stored under an accepted manifest carries its signature. -/
theorem TransferSession.Recorded.signature {m : Manifest} {r : ResumeRecord}
    (h : Recorded sha m r) :
    r.manifestSig = manifestSignature sha m ∧ ∃ j, Manifest.fromJson j = .ok m := by
  obtain ⟨saveDir, record, fs, as, p, p', a, run, hstep, hr, rfl⟩ := h
  obtain ⟨waits, filed⟩ := filed_run run
  obtain ⟨hne, -⟩ | ⟨rfl, -, e, he, -, -, hevents⟩ := step_callback filed.role hstep
  · exact absurd hr ((Party.step_turned waits hstep).unsaved hne r)
  · rw [hevents] at hr
    obtain ⟨files, -, rfl⟩ := record_of_onRxEvent hr
    refine ⟨rfl, offered_run run fun hnone => ?_⟩
    rw [filed.rxTasks hnone] at he
    cases he

end

/-! ## What an offer applies -/

section

variable {sha : Bytes → Bytes} {s s' : TransferSession} {m m' : Manifest} {fs fs' : Fs}
  {out : List SessionEvent} {t : Receiver}

/-- The engine of an accepted offer has the files that `Start` left, also after a `Start` that
    failed. -/
theorem TransferSession.started_of_acceptOffer {io : OfferIo} {dir : Path}
    (h : s.acceptOffer sha io m dir fs = some (s', fs', out)) (ht : s'.receiver = some t) :
    ∃ names t₀ err, Receiver.start io.start m dir names
      ((s.matchingRecord sha m).elim [] (·.files)) fs = (fs', t₀, err) ∧ t.rx = t₀.rx := by
  unfold acceptOffer at h
  dsimp only at h
  split at h
  · rename_i t₀ msg hstart
    cases h
    refine ⟨_, t₀, _, hstart, ?_⟩
    unfold fail at ht
    split at ht
    · cases ht
      rfl
    · cases ht
      rfl
  · rename_i t₀ hstart
    split at h
    · cases h
    · cases h
      refine ⟨_, t₀, _, hstart, ?_⟩
      unfold setState at ht
      split at ht
      · cases ht
        rfl
      · cases ht
        rfl

/-- Without a record no file starts with a block. -/
theorem not_resumed_of_startFile {io : Receiver.StartIo} {f f' : FileRx} {bytes : UInt64}
    (h : Receiver.startFile io [] fs f = (fs', .ok (f', bytes))) (hverified : f.verified = false)
    (hbitmap : ∀ b, f.bitmap.test b = false) : ¬TransferSession.Resumed f' := by
  have hentry : Receiver.resumeEntry [] f.index = none := rfl
  rintro (hverified' | ⟨b, hb⟩)
  · obtain hf | adopted := Receiver.adopted_of_startFile h hverified'
    · rw [hverified] at hf
      cases hf
    · rw [Receiver.Adopted, hentry] at adopted
      cases adopted.1
  · obtain hf | adopted | ⟨entry, -, -⟩ := Receiver.restored_of_startFile h hb
    · rw [hbitmap] at hf
      cases hf
    · rw [Receiver.Adopted, hentry] at adopted
      cases adopted.1
    · rw [hentry] at entry
      cases entry

/-- A block counts as received only under the manifest of the record. -/
theorem TransferSession.Recorded.applied {r : ResumeRecord} {io : OfferIo} {dir : Path} {j : Json}
    (recorded : Recorded sha m r) (hrecord : s.record = some r)
    (accepted : Manifest.fromJson j = .ok m') (distinct : NoCollision sha m m')
    (h : s.acceptOffer sha io m' dir fs = some (s', fs', out)) (ht : s'.receiver = some t)
    {i : Nat} {f : FileRx} (hf : t.rx[i]? = some f) (resumed : Resumed f) :
    m.files = m'.files ∧
      ∃ mf, m'.files[i]? = some mf ∧ f.size = mf.size ∧ f.blocks = blockCountFor mf.size := by
  obtain ⟨signature, j₀, accepted₀⟩ := recorded.signature
  obtain ⟨names, t₀, err, hstart, hrx⟩ := started_of_acceptOffer h ht
  obtain ⟨mf, mid, bytes, hmf, hfile⟩ := Receiver.files_of_start hstart (hrx ▸ hf)
  constructor
  · by_cases heq : manifestSignature sha m = manifestSignature sha m'
    · exact files_of_signatureBlob accepted₀ accepted (distinct heq)
    · -- The record is of no use for this manifest.
      have hnone : s.matchingRecord sha m' = none := by
        rw [matchingRecord, hrecord, Option.filter_some, signature, if_neg (by simpa using heq)]
      rw [hnone] at hfile
      refine absurd resumed (not_resumed_of_startFile hfile rfl fun b => ?_)
      exact BlockBitmap.reset_test ..
  · obtain ⟨g, _, hr, started⟩ | ⟨_, hr, -⟩ := Receiver.startFile_cases hfile
    · cases hr
      have fixed := started.fixed
      simp only [FileRx.fixed, Receiver.freshFile, Prod.mk.injEq] at fixed
      exact ⟨mf, hmf, fixed.2.1, fixed.2.2.1⟩
    · cases hr

end

/-- The signature identifies the file list, and a have-run that an accepted offer applies is applied
    to a file of the same path, size and block count. -/
theorem signature_identifies (sha : Bytes → Bytes) :
    (∀ (j j' : Json) (m m' : Manifest), Manifest.fromJson j = .ok m → Manifest.fromJson j' = .ok m' →
      TransferSession.signatureBlob m = TransferSession.signatureBlob m' → m.files = m'.files) ∧
    ∀ (m m' : Manifest) (r : ResumeRecord) (s s' : TransferSession) (io : OfferIo) (j : Json)
      (fs fs' : Fs) (out : List SessionEvent) (t : Receiver) (i : Nat) (f : FileRx),
      TransferSession.Recorded sha m r → s.record = some r →
      s.isSender = false → s.receiver = none →
      Manifest.fromJson j = .ok m' → TransferSession.NoCollision sha m m' →
      s.handleOffer sha io j fs = some (s', fs', out) → s'.receiver = some t →
      t.rx[i]? = some f → TransferSession.Resumed f →
      ∃ mf, m.files[i]? = some mf ∧ m'.files[i]? = some mf ∧
        f.size = mf.size ∧ f.blocks = blockCountFor mf.size := by
  constructor
  · intro j j' m m' h h' hblob
    exact TransferSession.files_of_signatureBlob h h' hblob
  · intro m m' r s s' io j fs fs' out t i f recorded hrecord role idle accepted distinct h ht hf
      resumed
    rw [TransferSession.handleOffer, role, idle, Bool.false_or, Option.isSome_none,
      if_neg Bool.false_ne_true, accepted] at h
    dsimp only at h
    split at h
    · cases h
      unfold TransferSession.fail at ht
      split at ht
      · cases ht
      · cases ht
    · obtain ⟨hfiles, mf, hmf, same⟩ := recorded.applied hrecord accepted distinct h ht hf resumed
      exact ⟨mf, hfiles ▸ hmf, hmf, same⟩

/-- The record of the file of one byte, with an injective hash. -/
def oneByteRecord : ResumeRecord :=
  ⟨ascii "a:1\n", [(ascii "a", ascii "a")], [⟨0, [⟨0, 1⟩], false⟩]⟩

/-- The block of the first session counts as received in the second. -/
theorem signature_identifies_oneByte : ∃ (fs fs' : Fs) (s' : TransferSession)
    (out : List SessionEvent) (t : Receiver) (f : FileRx),
    (TransferSession.newReceiver (some [ascii "save"]) (some oneByteRecord)).handleOffer id
      calmOfferIo oneByteManifest.toJson fs = some (s', fs', out) ∧
    s'.receiver = some t ∧ t.rx[0]? = some f ∧ f.bitmap.test 0 = true ∧
    ∃ mf, oneByteManifest.files[0]? = some mf ∧ oneByteManifest.files[0]? = some mf ∧
      f.size = mf.size ∧ f.blocks = blockCountFor mf.size := by
  have hfacts : (((party id oneByteParty).exec (oneByteRound 3000) oneByteParty).bind fun p =>
      (p.step id (.here .task)).bind fun _ =>
        ((TransferSession.newReceiver (some [ascii "save"]) (some oneByteRecord)).handleOffer id
          calmOfferIo oneByteManifest.toJson p.fs).bind fun r => r.1.receiver.bind fun t =>
            (t.rx[0]?).map fun f =>
              (recordsOf (p.events id (.here .task)), p.session.manifest, f.bitmap.test 0)) =
      some ([some oneByteRecord], oneByteManifest, true) := by
    decide +kernel
  have accepted : Manifest.fromJson oneByteManifest.toJson = .ok oneByteManifest := by decide +kernel
  obtain ⟨p, hexec, hfacts⟩ := Option.bind_eq_some_iff.mp hfacts
  obtain ⟨p', hstep, hfacts⟩ := Option.bind_eq_some_iff.mp hfacts
  obtain ⟨⟨s', fs', out⟩, hoffer, hfacts⟩ := Option.bind_eq_some_iff.mp hfacts
  obtain ⟨t, ht, hfacts⟩ := Option.bind_eq_some_iff.mp hfacts
  obtain ⟨f, hf, hfacts⟩ := Option.map_eq_some_iff.mp hfacts
  rw [Prod.mk.injEq, Prod.mk.injEq] at hfacts
  obtain ⟨hrecords, hmanifest, hbit⟩ := hfacts
  have recorded : TransferSession.Recorded id oneByteManifest oneByteRecord :=
    ⟨some [ascii "save"], none, .empty, oneByteRound 3000, p, p', .here .task,
      Machine.run_of_exec hexec, hstep, by rw [hrecords]; exact List.mem_singleton_self _, hmanifest⟩
  exact ⟨p.fs, fs', s', out, t, f, hoffer, ht, hf, hbit,
    (signature_identifies id).2 _ _ _ _ _ _ _ _ _ _ _ _ _ recorded rfl rfl rfl accepted id hoffer
      ht hf (.inr ⟨0, hbit⟩)⟩

end CrossTransfer.Share
