import CrossTransfer.Transfer.BatchRun

/-! # The flags of a file

`complete`, `verified` and `verifying` against the bitmap of a file and the place of the writer thread
(`Flags`). A file whose hash is due is the one the thread is busy with; between rounds there is none.

`MaybeVerify` breaks this in one case. A file without blocks whose hash is wrong starts over as one
that is not complete, although no block of it is missing; no block will come that could complete it.
-/

namespace CrossTransfer.Transfer

open CrossTransfer.Library

variable {f g : FileRx} {i j : Nat} {pc pc' : WriterPc}

/-! ## Where the writer thread is -/

namespace WriterPc

/-- The file whose last block, or whose hash, the thread has just got. -/
def busy : WriterPc → Option Nat
  | .sack i _ _ => some i
  | .verify i _ => some i
  | .rename i _ => some i
  | _ => none

/-- The file whose hash is right and that has not got its final name. -/
def matched : WriterPc → Option Nat
  | .rename i _ => some i
  | _ => none

theorem matched_of_busy (h : pc.busy = none) : pc.matched = none := by
  cases pc <;> first | rfl | cases h

end WriterPc

@[simp] theorem WriterCont.toPc_busy (k : WriterCont) : k.toPc.busy = none := by
  cases k <;> rfl

/-! ## The invariant -/

/-- The flags of file `i` while the writer thread is at `pc`. -/
structure Flags (pc : WriterPc) (i : Nat) (f : FileRx) : Prop where
  size : f.bitmap.size = f.blocks.toNat
  complete : f.complete = f.bitmap.complete
  verified : f.verified = true → f.complete = true
  verifying : f.verifying = true → pc.matched = some i
  matched : pc.matched = some i → f.complete = true
  announced : f.complete = true → f.expectedSha256 ≠ [] → f.verified = true ∨ pc.busy = some i

/-- Bookkeeping does not touch the flags. -/
theorem Flags.of_core (h : Flags pc i f) (hcore : g.core = f.core) : Flags pc i g := by
  have hsize := congrArg (fun x : FileRx => x.bitmap.size) hcore
  have hblocks := congrArg (fun x : FileRx => x.blocks.toNat) hcore
  have hbits := congrArg (fun x : FileRx => x.bitmap.complete) hcore
  have hcomplete : g.complete = f.complete := by
    have := congrArg FileRx.complete hcore
    exact this
  have hverified : g.verified = f.verified := by
    have := congrArg FileRx.verified hcore
    exact this
  have hverifying : g.verifying = f.verifying := by
    have := congrArg FileRx.verifying hcore
    exact this
  have hexpected : g.expectedSha256 = f.expectedSha256 := by
    have := congrArg FileRx.expectedSha256 hcore
    exact this
  refine ⟨Eq.trans hsize (h.size.trans hblocks.symm), ?_, ?_, ?_, ?_, ?_⟩
  · exact hcomplete.trans (h.complete.trans hbits.symm)
  · rw [hverified, hcomplete]
    exact h.verified
  · rw [hverifying]
    exact h.verifying
  · rw [hcomplete]
    exact h.matched
  · rw [hcomplete, hexpected, hverified]
    exact h.announced

/-- The thread goes on, and is still busy with the file if it was. -/
theorem Flags.of_pc (h : Flags pc i f) (matched : pc'.matched = some i ↔ pc.matched = some i)
    (busy : pc.busy = some i → pc'.busy = some i) : Flags pc' i f where
  size := h.size
  complete := h.complete
  verified := h.verified
  verifying hv := matched.mpr (h.verifying hv)
  matched hr := h.matched (matched.mp hr)
  announced hc hn := (h.announced hc hn).imp_right busy

/-- A file that no step is busy with. -/
theorem Flags.of_idle (h : Flags pc i f) (old : pc.busy ≠ some i) (new : pc'.busy ≠ some i) :
    Flags pc' i f := by
  have idle : ∀ {q : WriterPc}, q.busy ≠ some i → q.matched ≠ some i := by
    intro q hq
    cases q <;> first | exact hq | exact nofun
  exact h.of_pc ⟨fun hr => absurd hr (idle new), fun hr => absurd hr (idle old)⟩
    fun hb => absurd hb old

namespace Receiver

/-- The flags of all files. -/
def Flagged (t : Receiver) : Prop := ∀ (i : Nat) (f : FileRx), t.rx[i]? = some f → Flags t.pc i f

/-- The part file of an empty file is created, and a part file takes its final name. A write that fails
    is not excluded: it ends the thread in the middle of a round. -/
structure FilesWork (t : Receiver) (io : Io) (fs : Fs) : Prop where
  created : ∀ i k f, t.pc = .verify i k → t.rx[i]? = some f → Due f → f.blocks = 0 →
    (hashFile io fs f).isSome = true
  renamed : ∀ i k f, t.pc = .rename i k → t.rx[i]? = some f →
    (fs.rename f.partPath f.finalPath io.ok).isSome = true

/-- A part file that is hashed can be read, and an empty file is not compared with a wrong hash. -/
structure HashesRight (sha : Bytes → Bytes) (t : Receiver) (io : Io) (fs : Fs) : Prop where
  read : ∀ i k f, t.pc = .verify i k → t.rx[i]? = some f → Due f → f.blocks ≠ 0 →
    (hashFile io fs f).isSome = true
  empty : ∀ i k f, t.pc = .verify i k → t.rx[i]? = some f → Due f → f.blocks = 0 →
    sha [] = f.expectedSha256

variable {t t' u : Receiver} {fs fs' : Fs} {sha : Bytes → Bytes} {io : Io} {out : List RxEvent}
  {k : WriterCont}

/-! ## Steps that leave the files alone -/

theorem Flagged.same (h : Flagged t) (rx : t'.cores = t.cores) (idle : t.pc.busy = none)
    (idle' : t'.pc.busy = none) : Flagged t' := by
  intro i g hg
  obtain ⟨f, hf, hcore⟩ := file_of_cores rx hg
  exact ((h i f hf).of_core hcore).of_idle (by simp [idle]) (by simp [idle'])

/-- One file changes. -/
theorem Flagged.set (h : Flagged t) (hf : t.rx[i]? = some f) (rx : t'.cores = t.cores.set i g.core)
    (file : Flags t'.pc i g) (old : ∀ j, t.pc.busy = some j → j = i)
    (new : ∀ j, t'.pc.busy = some j → j = i) : Flagged t' := by
  intro j f' hf'
  obtain ⟨rfl, hcore⟩ | ⟨hne, f'', hf'', hcore⟩ := file_of_cores_set hf rx hf'
  · exact file.of_core hcore
  · exact ((h j f'' hf'').of_core hcore).of_idle (fun hj => hne (old j hj)) fun hj => hne (new j hj)

/-! ## Blocks -/

/-- Marking blocks completes a file exactly when it completes the bitmap. -/
theorem complete_markRun (hcomplete : f.complete = f.bitmap.complete) (run : BlockRun) :
    (markRun f run).complete = (markRun f run).bitmap.complete := by
  obtain ⟨hsize, hgrows⟩ := setBlocks_grows run.blocks f.bitmap
  have hkept : f.bitmap.complete = true → (setBlocks f.bitmap run.blocks).complete = true := by
    intro hall
    rw [BlockBitmap.complete_iff] at hall ⊢
    exact fun b hb => hgrows b (hall b (hsize ▸ hb))
  show (f.complete || (setBlocks f.bitmap run.blocks).complete) = (setBlocks f.bitmap run.blocks).complete
  rw [hcomplete]
  cases hold : f.bitmap.complete with
  | false => rfl
  | true => rw [hkept hold, Bool.true_or]

theorem flags_flushRun (h : Flagged u) (idle : u.pc.busy = none) {run : BlockRun} {now : UInt32}
    (hflush : u.flushRun io run now k fs = (t', fs', out)) : Flagged t' := by
  unfold flushRun at hflush
  split at hflush
  · cases hflush
    exact h.same rfl idle k.toPc_busy
  · rename_i f hf
    obtain ⟨book, -⟩ := book_fail u (ascii "io") (ascii "write failed: " ++ f.finalPath.getLast?.getD [])
    simp only at hflush
    split at hflush
    · split at hflush
      · cases hflush
        have flags := h _ f hf
        refine h.set (g := markRun f run) hf (cores_set _) ⟨?_, complete_markRun flags.complete run, ?_, ?_,
          ?_, ?_⟩ (by simp [idle]) ?_
        · exact (setBlocks_grows run.blocks f.bitmap).1.trans flags.size
        · intro hv
          show (f.complete || _) = true
          rw [flags.verified hv, Bool.true_or]
        · intro hv
          have hmatched := flags.verifying hv
          rw [WriterPc.matched_of_busy idle] at hmatched
          cases hmatched
        · -- The thread goes on to the SACK or back to the batch.
          dsimp only
          split
          · exact nofun
          · rw [WriterPc.matched_of_busy k.toPc_busy]
            exact nofun
        · intro hc _
          right
          dsimp only
          rw [if_pos hc]
          rfl
        · dsimp only
          split
          · exact fun j hj => (Option.some.inj hj).symm
          · simp
      · cases hflush
        exact h.same book.cores idle rfl
    · cases hflush
      exact h.same book.cores idle rfl

theorem flags_batchStep (h : Flagged t) {rest : List Pending} {run : Option BlockRun}
    {dones : List (UInt16 × Bytes)} {now : UInt32} (hpc : t.pc = .batch rest run dones now)
    (hstep : t.batchStep io rest run dones now fs = (t', fs', out)) : Flagged t' := by
  have idle : t.pc.busy = none := by rw [hpc]; rfl
  unfold batchStep at hstep
  split at hstep
  · exact flags_flushRun h idle hstep
  · cases hstep
    refine h.same rfl idle ?_
    dsimp only
    split <;> rfl
  · rename_i p rest
    split at hstep
    · exact flags_flushRun h idle hstep
    · obtain ⟨book, hsame⟩ := book_acceptBlock t p
      have idle' : (t.acceptBlock p).1.pc.busy = none := by rw [hsame, idle]
      have accepted := h.same book.cores idle idle'
      simp only at hstep
      split at hstep
      · cases hstep
        exact h.same book.cores idle rfl
      · split at hstep
        · exact flags_flushRun accepted idle' hstep
        · cases hstep
          exact h.same book.cores idle rfl

/-! ## Verification -/

theorem incomplete_reset {blocks : UInt32} (h : blocks ≠ 0) : (BlockBitmap.reset blocks).complete = false := by
  have hpos : blocks.toNat ≠ 0 := fun hzero => h (UInt32.toNat_inj.mp hzero)
  rw [Bool.eq_false_iff, ne_eq, BlockBitmap.complete_iff]
  intro hall
  have hfirst := hall 0 (Nat.pos_of_ne_zero hpos)
  rw [BlockBitmap.reset_test] at hfirst
  cases hfirst

/-- The hash of a file that has blocks may be wrong. -/
theorem flags_resetFile (hblocks : f.blocks ≠ 0) (writer : Option (Option Nat)) (idle : pc.busy = none)
    (hverified : f.verified = false) : Flags pc i (resetFile f writer) := by
  refine ⟨rfl, (incomplete_reset hblocks).symm, ?_, nofun, ?_, nofun⟩
  · intro hv
    rw [show f.verified = true from hv] at hverified
    cases hverified
  · rw [WriterPc.matched_of_busy idle]
    exact nofun

theorem flags_verify (h : Flagged t) (hpc : t.pc = .verify i k) (hstop : t.stop = false)
    (work : t.FilesWork io fs) (right : t.HashesRight sha io fs)
    (hstep : t.verify sha io i k fs = (t', fs', out)) : Flagged t' := by
  have hbusy : ∀ j, t.pc.busy = some j → j = i := by
    rw [hpc]
    exact fun j hj => (Option.some.inj hj).symm
  by_cases due : ∃ f, t.rx[i]? = some f ∧ Due f
  swap
  · rw [verify_idle fun f hf hdue => due ⟨f, hf, hdue⟩] at hstep
    cases hstep
    intro j f hf
    have flags := h j f hf
    have hmatched : t.pc.matched = none := by rw [hpc]; rfl
    have hverifying : f.verifying = false := by
      rw [Bool.eq_false_iff]
      intro hv
      rw [flags.verifying hv] at hmatched
      cases hmatched
    refine ⟨flags.size, flags.complete, flags.verified, ?_, ?_, fun hc hn => .inl ?_⟩
    · rw [hverifying]
      exact nofun
    · dsimp only
      rw [WriterPc.matched_of_busy k.toPc_busy]
      exact nofun
    · -- A file that is complete and has a hash is due unless it is verified.
      obtain hv | hj := flags.announced hc hn
      · exact hv
      · obtain rfl := hbusy j hj
        by_contra hv
        exact due ⟨f, hf, by simpa using hv, hverifying, hc, hn⟩
  obtain ⟨f, hf, due⟩ := due
  have flags := h i f hf
  have hhashed : (hashFile io fs f).isSome = true := by
    by_cases hblocks : f.blocks = 0
    · exact work.created i k f hpc hf due hblocks
    · exact right.read i k f hpc hf due hblocks
  obtain ⟨⟨mid, bytes⟩, hashed⟩ := Option.isSome_iff_exists.mp hhashed
  by_cases hmatch : sha bytes = f.expectedSha256
  · rw [verify_matched hf due hstop hashed hmatch] at hstep
    cases hstep
    refine h.set (g := { f with verifying := true, writer := none }) hf (cores_set _)
      ⟨flags.size, flags.complete, flags.verified, fun _ => rfl, fun _ => due.complete, fun _ _ => .inr rfl⟩
      hbusy fun j hj => (Option.some.inj hj).symm
  · have hblocks : f.blocks ≠ 0 := by
      intro hzero
      have hempty : bytes = [] := by
        unfold hashFile at hashed
        rw [if_pos hzero] at hashed
        obtain ⟨disk, -, heq⟩ := Option.map_eq_some_iff.mp hashed
        exact (Prod.mk.inj heq).2.symm
      exact hmatch (hempty ▸ right.empty i k f hpc hf due hzero)
    rw [verify_mismatch hf due hstop hashed hmatch] at hstep
    cases hstep
    exact h.set (g := resetFile f (reopen io mid f).2) hf (cores_set _)
      (flags_resetFile hblocks _ k.toPc_busy due.verified) hbusy (by simp)

theorem flags_renameFile (h : Flagged t) (hpc : t.pc = .rename i k) (work : t.FilesWork io fs)
    (hstep : t.renameFile io i k fs = (t', fs', out)) : Flagged t' := by
  have hbusy : ∀ j, t.pc.busy = some j → j = i := by
    rw [hpc]
    exact fun j hj => (Option.some.inj hj).symm
  have hmatched : t.pc.matched = some i := by rw [hpc]; rfl
  unfold renameFile at hstep
  split at hstep
  · rename_i hnone
    cases hstep
    intro j f hf
    refine (h j f hf).of_idle (fun hj => ?_) (by simp)
    rw [hbusy j hj, hnone] at hf
    cases hf
  · rename_i f hf
    obtain ⟨mid, hrename⟩ := Option.isSome_iff_exists.mp (work.renamed i k f hpc hf)
    rw [hrename] at hstep
    cases hstep
    have flags := h i f hf
    have hcomplete := flags.matched hmatched
    refine h.set (g := { f with verified := true, verifying := false }) hf (cores_set _)
      ⟨flags.size, flags.complete, fun _ => hcomplete, nofun, fun _ => hcomplete, fun _ _ => .inl rfl⟩ hbusy
      (by simp)

/-! ## Start -/

theorem complete_adopted (blocks : UInt32) :
    ((BlockBitmap.reset blocks).setRuns [⟨0, blocks⟩]).complete = true := by
  rw [BlockBitmap.complete_iff]
  intro b hb
  rw [BlockBitmap.setRuns_size, BlockBitmap.reset_size] at hb
  rw [BlockBitmap.setRuns_test]
  exact .inr ⟨hb, by simpa [RunPacking.Covered, SackRun.span] using hb⟩

theorem flags_of_startFile {sio : StartIo} {saveDir : Path} {names : Names} {mf : ManifestFile}
    {resume : List ReceiverFileState} {bytes : UInt64} (idle : pc.busy = none)
    (h : startFile sio resume fs (freshFile saveDir names i mf) = (fs', .ok (g, bytes))) :
    Flags pc j g := by
  have hmatched : pc.matched = some j → g.complete = true := by
    rw [WriterPc.matched_of_busy idle]
    exact nofun
  unfold startFile at h
  simp only at h
  split at h
  · cases h
    exact ⟨BlockBitmap.setRuns_size .., (complete_adopted _).symm, fun _ => rfl, nofun, hmatched,
      fun _ _ => .inl rfl⟩
  · split at h
    · cases h
    · split at h
      · rename_i hzero
        cases h
        refine ⟨rfl, ?_, fun _ => rfl, nofun, hmatched, fun _ hn => absurd rfl hn⟩
        have hblocks : blockCountFor mf.size = 0 := hzero
        show true = (BlockBitmap.reset (blockCountFor mf.size)).complete
        rw [hblocks]
        rfl
      · rename_i hblocks
        split at h
        · cases h
        · split at h
          · cases h
          · have hnone := incomplete_reset hblocks
            split at h
            · split at h
              · cases h
                exact ⟨BlockBitmap.setRuns_size .., rfl, nofun, nofun, hmatched, fun _ hn => absurd rfl hn⟩
              · cases h
                exact ⟨rfl, hnone.symm, nofun, nofun, hmatched, nofun⟩
            · cases h
              exact ⟨rfl, hnone.symm, nofun, nofun, hmatched, nofun⟩

/-! ## Every step -/

theorem flags_step (h : Flagged t) (hstop : t.stop = false) (work : t.FilesWork io fs)
    (right : t.HashesRight sha io fs) (hstep : t.writerStep sha io fs = some (t', fs', out)) : Flagged t' := by
  unfold writerStep at hstep
  split at hstep
  -- The loop condition; a stopped thread persists and leaves.
  case h_1 hpc =>
    have idle : t.pc.busy = none := by rw [hpc]; rfl
    split at hstep
    · obtain ⟨⟨u, saved⟩, hsaved, heq⟩ := Option.map_eq_some_iff.mp hstep
      cases heq
      exact h.same (book_persist hsaved).1.cores idle rfl
    · cases hstep
      exact h.same rfl idle rfl
  -- The queue and the announced hashes are taken over.
  case h_2 hpc =>
    cases hstep
    exact h.same rfl (by rw [hpc]; rfl) rfl
  case h_3 rest run dones now hpc => exact flags_batchStep h hpc (Option.some.inj hstep)
  -- The SACK that follows a flushed run.
  case h_4 i now k hpc =>
    obtain ⟨⟨u, sent⟩, hsent, heq⟩ := Option.map_eq_some_iff.mp hstep
    cases heq
    intro j g hg
    obtain ⟨f, hf, hcore⟩ := file_of_cores (book_sendSack hsent).1.cores hg
    refine ((h j f hf).of_core hcore).of_pc ?_ ?_
    · rw [hpc]
      exact Iff.rfl
    · rw [hpc]
      exact id
  case h_5 i k hpc => exact flags_verify h hpc hstop work right (Option.some.inj hstep)
  case h_6 i k hpc => exact flags_renameFile h hpc work (Option.some.inj hstep)
  -- No announced hash is left.
  case h_7 now hpc =>
    cases hstep
    exact h.same rfl (by rw [hpc]; rfl) rfl
  -- An announced hash, for a file that may not exist.
  case h_8 index hash rest now hpc =>
    have idle : t.pc.busy = none := by rw [hpc]; rfl
    split at hstep
    · cases hstep
      exact h.same rfl idle rfl
    · rename_i f hf
      cases hstep
      have flags := h _ f hf
      refine h.set (g := { f with expectedSha256 := hash }) hf (cores_set _)
        ⟨flags.size, flags.complete, flags.verified, fun hv => ?_, nofun, fun _ _ => .inr rfl⟩ (by simp [idle])
        fun j hj => (Option.some.inj hj).symm
      have hmatched := flags.verifying hv
      rw [WriterPc.matched_of_busy idle] at hmatched
      cases hmatched
  -- The rest of the round.
  case h_9 now hpc =>
    obtain ⟨⟨u, sent⟩, htail, heq⟩ := Option.map_eq_some_iff.mp hstep
    cases heq
    obtain ⟨v, finished, pc, book, rfl, hnext⟩ := book_tailStep htail
    refine h.same book.cores (by rw [hpc]; rfl) ?_
    obtain rfl | rfl := hnext <;> rfl
  case h_10 => cases hstep

end Receiver

end CrossTransfer.Transfer
