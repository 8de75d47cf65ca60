import CrossTransfer.Transfer.HaveRuns
import CrossTransfer.Transfer.Receiver

/-! # What starting the receiver does

`Started` lists what `Start` can do with one file of the manifest, `StartedAll` chains it over a
list of files; `start_ok` and `start_error` say what a whole `Start` has done, when it succeeds
and when it gives up in the middle. `Restored` lists the reasons for which a block counts as
received before anything has arrived.
-/

namespace CrossTransfer.Transfer

open CrossTransfer.Library
open RunPacking (Covered)

/-- What is fixed of a file once it is known where it goes. -/
def FileRx.fixed (f : FileRx) : UInt16 × UInt64 × UInt32 × Path × Path :=
  (f.index, f.size, f.blocks, f.partPath, f.finalPath)

namespace Receiver

/-- What `Start` does with one file. -/
inductive Started (io : StartIo) (resume : List ReceiverFileState) (fs : Fs) (f : FileRx) :
    Fs → FileRx → Prop where
  /-- Its record says that it was verified, and a regular file is in its place. -/
  | adopted (entry : (resumeEntry resume f.index).any (·.verified) = true)
      (regular : fs.isRegular f.finalPath = true) :
      Started io resume fs f fs { f with
        verified := true
        complete := true
        bitmap := f.bitmap.setRuns [⟨0, f.blocks⟩] }
  | empty {fs' : Fs} (blocks : f.blocks = 0)
      (dir : fs.ensureDir f.finalPath.dropLast (io.dirOk f.finalPath.dropLast) = some fs') :
      Started io resume fs f fs' { f with complete := true }
  /-- Its part file is opened; blocks that its record lists count as received. -/
  | opened {fs' fs'' : Fs} {inode : Nat} {bitmap : BlockBitmap} {frontier : UInt32}
      {complete : Bool}
      (dir : fs.ensureDir f.finalPath.dropLast (io.dirOk f.finalPath.dropLast) = some fs')
      (file : fs'.openWrite f.partPath (io.openOk f.partPath) = some (fs'', inode))
      (size : bitmap.size = f.bitmap.size) :
      Started io resume fs f (fs''.ensureSize inode f.size.toNat) { f with
        writer := some (some inode)
        bitmap := bitmap
        frontier := frontier
        complete := complete }

/-- A file `Start` gave up on. -/
inductive StartFailed (io : StartIo) (fs : Fs) (f : FileRx) : Fs → Prop where
  | dir : StartFailed io fs f fs
  | part {fs' : Fs}
      (dir : fs.ensureDir f.finalPath.dropLast (io.dirOk f.finalPath.dropLast) = some fs') :
      StartFailed io fs f fs'
  | size {fs' fs'' : Fs} {inode : Nat}
      (dir : fs.ensureDir f.finalPath.dropLast (io.dirOk f.finalPath.dropLast) = some fs')
      (file : fs'.openWrite f.partPath (io.openOk f.partPath) = some (fs'', inode)) :
      StartFailed io fs f fs''

/-- `Started` for one file after the other. -/
inductive StartedAll (io : StartIo) (resume : List ReceiverFileState) :
    Fs → List FileRx → Fs → List FileRx → Prop where
  | nil {fs : Fs} : StartedAll io resume fs [] fs []
  | cons {fs fs' fs'' : Fs} {f f' : FileRx} {rest rest' : List FileRx}
      (first : Started io resume fs f fs' f') (more : StartedAll io resume fs' rest fs'' rest') :
      StartedAll io resume fs (f :: rest) fs'' (f' :: rest')

variable {io : StartIo} {resume : List ReceiverFileState} {fs fs' : Fs} {f f' : FileRx}
  {t t' : Receiver}

theorem startFile_cases {r : Except Bytes (FileRx × UInt64)}
    (h : startFile io resume fs f = (fs', r)) :
    (∃ f' bytes, r = .ok (f', bytes) ∧ Started io resume fs f fs' f') ∨
      ∃ msg, r = .error msg ∧ StartFailed io fs f fs' := by
  unfold startFile at h
  simp only at h
  split at h
  · rename_i hadopt
    simp only [Bool.and_eq_true] at hadopt
    cases h
    exact .inl ⟨_, _, rfl, .adopted hadopt.1 hadopt.2⟩
  · split at h
    · cases h
      exact .inr ⟨_, rfl, .dir⟩
    · rename_i fs1 hdir
      split at h
      · rename_i hzero
        cases h
        exact .inl ⟨_, _, rfl, .empty hzero hdir⟩
      · split at h
        · cases h
          exact .inr ⟨_, rfl, .part hdir⟩
        · rename_i fs2 inode hopen
          split at h
          · cases h
            exact .inr ⟨_, rfl, .size hdir hopen⟩
          · split at h
            · rename_i state hstate
              split at h
              · cases h
                exact .inl ⟨_, _, rfl, .opened hdir hopen (BlockBitmap.setRuns_size ..)⟩
              · cases h
                exact .inl ⟨_, _, rfl, .opened hdir hopen rfl⟩
            · cases h
              exact .inl ⟨_, _, rfl, .opened hdir hopen rfl⟩

theorem startFiles_ok {files : List FileRx} (h : startFiles io resume files fs t = (fs', t', none)) :
    ∃ rx bytes done, StartedAll io resume fs files fs' rx ∧
      t' = { t with rx := t.rx ++ rx, bytesReceived := bytes, filesDone := done } := by
  induction files generalizing fs t with
  | nil =>
    cases h
    exact ⟨[], _, _, .nil, by rw [List.append_nil]⟩
  | cons f rest ih =>
    rw [startFiles] at h
    split at h
    · cases h
    · rename_i fs1 g added hstart
      obtain ⟨f', bytes, hr, started⟩ | ⟨msg, hr, -⟩ := startFile_cases hstart
      · cases hr
        obtain ⟨rx, bytes, done, all, rfl⟩ := ih h
        exact ⟨g :: rx, bytes, done, .cons started all, by simp⟩
      · cases hr

theorem startFiles_error {files : List FileRx} {msg : Bytes}
    (h : startFiles io resume files fs t = (fs', t', some msg)) :
    ∃ done f rest mid rx bytes count, files = done ++ f :: rest ∧
      StartedAll io resume fs done mid rx ∧ StartFailed io mid f fs' ∧
      t' = { t with rx := t.rx ++ rx, bytesReceived := bytes, filesDone := count } := by
  induction files generalizing fs t with
  | nil => cases h
  | cons f rest ih =>
    rw [startFiles] at h
    split at h
    · rename_i fs1 text hstart
      cases h
      obtain ⟨f', bytes, hr, -⟩ | ⟨msg, hr, failed⟩ := startFile_cases hstart
      · cases hr
      · exact ⟨[], f, rest, fs, [], _, _, rfl, .nil, failed, by rw [List.append_nil]⟩
    · rename_i fs1 g added hstart
      obtain ⟨f', bytes, hr, started⟩ | ⟨msg, hr, -⟩ := startFile_cases hstart
      · cases hr
        obtain ⟨done, f1, more, mid, rx, bytes, count, rfl, all, failed, rfl⟩ := ih h
        exact ⟨f :: done, f1, more, mid, g :: rx, bytes, count, rfl, .cons started all, failed,
          by simp⟩
      · cases hr

theorem startDirs_sameFiles {saveDir : Path} {names : Names} {dirs : List Bytes}
    {created created' : List Path} {err : Option Bytes}
    (h : startDirs io saveDir names dirs fs created = (fs', created', err)) :
    fs.SameFiles fs' := by
  induction dirs generalizing fs created with
  | nil =>
    cases h
    exact .refl _
  | cons d rest ih =>
    rw [startDirs] at h
    split at h
    · cases h
      exact .refl _
    · rename_i mid hdir
      exact (FileSystem.sameFiles_ensureDir hdir).trans (ih h)

/-- A `Start` that succeeds has started every file, in order. -/
theorem start_ok {m : Manifest} {saveDir : Path} {names : Names}
    (h : start io m saveDir names resume fs = (fs', t, none)) :
    ∃ mid rx created bytes done, fs.SameFiles mid ∧
      StartedAll io resume mid (m.files.mapIdx (freshFile saveDir names)) fs' rx ∧
      t = { rx := rx, createdDirs := created, pc := .top, bytesReceived := bytes,
            filesDone := done } := by
  unfold start at h
  simp only at h
  split at h
  · cases h
  · rename_i fs1 hsave
    split at h
    · cases h
    · rename_i mid created hdirs
      split at h
      · cases h
      · rename_i fs2 u hfiles
        cases h
        obtain ⟨rx, bytes, done, all, rfl⟩ := startFiles_ok hfiles
        exact ⟨mid, rx, created, bytes, done,
          (FileSystem.sameFiles_ensureDir hsave).trans (startDirs_sameFiles hdirs), all, rfl⟩

/-- A `Start` that fails has started the files before the one it failed on; the writer thread
    does not run. -/
theorem start_error {m : Manifest} {saveDir : Path} {names : Names} {msg : Bytes}
    (h : start io m saveDir names resume fs = (fs', t, some msg)) :
    (t.pc = .exited ∧ t.finished = false) ∧
    ((fs.SameFiles fs' ∧ t.rx = []) ∨
      ∃ mid done f rest mid' rx, fs.SameFiles mid ∧
        m.files.mapIdx (freshFile saveDir names) = done ++ f :: rest ∧
        StartedAll io resume mid done mid' rx ∧ StartFailed io mid' f fs' ∧ t.rx = rx) := by
  unfold start at h
  simp only at h
  split at h
  · cases h
    exact ⟨⟨rfl, rfl⟩, .inl ⟨.refl _, rfl⟩⟩
  · rename_i fs1 hsave
    have saved := FileSystem.sameFiles_ensureDir hsave
    split at h
    · rename_i mid created text hdirs
      cases h
      exact ⟨⟨rfl, rfl⟩, .inl ⟨saved.trans (startDirs_sameFiles hdirs), rfl⟩⟩
    · rename_i mid created hdirs
      split at h
      · rename_i fs2 u text hfiles
        cases h
        obtain ⟨done, f, rest, mid', rx, bytes, count, heq, all, failed, rfl⟩ :=
          startFiles_error hfiles
        exact ⟨⟨rfl, rfl⟩, .inr ⟨mid, done, f, rest, mid', rx,
          saved.trans (startDirs_sameFiles hdirs), heq, all, failed, rfl⟩⟩
      · cases h

/-! ## What is true of every started file -/

theorem Started.fixed (h : Started io resume fs f fs' f') : f'.fixed = f.fixed := by
  cases h <;> rfl

theorem Started.expected (h : Started io resume fs f fs' f') :
    f'.expectedSha256 = f.expectedSha256 := by
  cases h <;> rfl

theorem Started.bitmapSize (h : Started io resume fs f fs' f') :
    f'.bitmap.size = f.bitmap.size := by
  cases h with
  | adopted => exact BlockBitmap.setRuns_size ..
  | empty => rfl
  | opened _ _ size => exact size

theorem StartedAll.fixed {files rx : List FileRx} (h : StartedAll io resume fs files fs' rx) :
    rx.map FileRx.fixed = files.map FileRx.fixed := by
  induction h with
  | nil => rfl
  | cons first _ ih => rw [List.map_cons, List.map_cons, first.fixed, ih]

/-- What `Start` leaves alone in every file. -/
theorem StartedAll.forall {files rx : List FileRx} {P : FileRx → Prop}
    (h : StartedAll io resume fs files fs' rx)
    (each : ∀ {fs fs' f f'}, Started io resume fs f fs' f' → P f → P f')
    (all : ∀ f ∈ files, P f) : ∀ f ∈ rx, P f := by
  induction h with
  | nil => simp
  | cons first _ ih =>
    rw [List.forall_mem_cons] at all ⊢
    exact ⟨each first all.1, ih all.2⟩

/-! ## Blocks that count as received -/

/-- The record says that the file was verified, and a regular file is in its place. -/
def Adopted (resume : List ReceiverFileState) (fs : Fs) (f : FileRx) : Prop :=
  (resumeEntry resume f.index).any (·.verified) = true ∧ fs.isRegular f.finalPath = true

/-- Why block `b` counts as received when `Start` is done with its file. -/
inductive Restored (resume : List ReceiverFileState) (fs : Fs) (f : FileRx) (b : Nat) : Prop where
  | adopted (file : Adopted resume fs f)
  /-- The record of the file lists it, and there was a part file. -/
  | listed {state : ReceiverFileState} (entry : resumeEntry resume f.index = some state)
      (run : Covered (state.runs.map SackRun.span) b) (part : fs.isRegular f.partPath = true)

variable {bytes : UInt64} {b : Nat}

theorem restored_of_startFile (h : startFile io resume fs f = (fs', .ok (f', bytes)))
    (hb : f'.bitmap.test b = true) : f.bitmap.test b = true ∨ Restored resume fs f b := by
  unfold startFile at h
  simp only at h
  split at h
  · rename_i hadopt
    rw [Bool.and_eq_true] at hadopt
    exact .inr (.adopted hadopt)
  · split at h
    · cases h
    · rename_i mid hdir
      split at h
      · cases h
        exact .inl hb
      · split at h
        · cases h
        · split at h
          · cases h
          · split at h
            · rename_i state hstate
              split at h
              · rename_i hpart
                cases h
                rw [BlockBitmap.afterAckBase_test, BlockBitmap.setRuns_test] at hb
                -- The directory of the part file may be new; no file in it is.
                have part : fs.isRegular f.partPath = true := by
                  rw [FileSystem.isRegular, (FileSystem.sameFiles_ensureDir hdir).link] at hpart
                  exact hpart
                exact hb.imp_right fun ⟨_, run⟩ => .listed hstate run part
              · cases h
                exact .inl hb
            · cases h
              exact .inl hb

theorem adopted_of_startFile (h : startFile io resume fs f = (fs', .ok (f', bytes)))
    (hverified : f'.verified = true) : f.verified = true ∨ Adopted resume fs f := by
  obtain ⟨g, _, hr, started⟩ | ⟨_, hr, -⟩ := startFile_cases h
  · cases hr
    cases started with
    | adopted entry regular => exact .inr ⟨entry, regular⟩
    | empty => exact .inl hverified
    | opened => exact .inl hverified
  · cases hr

/-- An adopted file is verified. -/
theorem verified_of_adopted (h : startFile io resume fs f = (fs', .ok (f', bytes)))
    (adopted : Adopted resume fs f) : f'.verified = true := by
  have hadopt : ((resumeEntry resume f.index).any (·.verified) && fs.isRegular f.finalPath) = true := by
    rw [adopted.1, adopted.2]
    rfl
  unfold startFile at h
  simp only at h
  rw [if_pos hadopt] at h
  cases h
  rfl

/-- Nothing waits after `Start`. -/
theorem idle_of_start {m : Manifest} {saveDir : Path} {names : Names} {err : Option Bytes}
    (h : start io m saveDir names resume fs = (fs', t, err)) :
    t.queue = [] ∧ t.pendingDone = [] ∧ (t.pc = .exited ∨ t.pc = .top) := by
  unfold start at h
  simp only at h
  split at h
  · cases h
    exact ⟨rfl, rfl, .inl rfl⟩
  · split at h
    · cases h
      exact ⟨rfl, rfl, .inl rfl⟩
    · split at h
      · rename_i hfiles
        cases h
        obtain ⟨done, f, rest, mid, rx, bytes, count, -, -, -, rfl⟩ := startFiles_error hfiles
        exact ⟨rfl, rfl, .inl rfl⟩
      · rename_i hfiles
        cases h
        obtain ⟨rx, bytes, done, -, rfl⟩ := startFiles_ok hfiles
        exact ⟨rfl, rfl, .inr rfl⟩

/-- The disk when `Start` comes to file `i`. -/
def startedDisk (io : StartIo) (m : Manifest) (saveDir : Path) (names : Names)
    (resume : List ReceiverFileState) (fs : Fs) (i : Nat) : Fs :=
  (start io { m with files := m.files.take i } saveDir names resume fs).1

/-- Whether or not `Start` gets to the end, each of its files went through `startFile`. -/
theorem files_of_startFiles {files : List FileRx} {err : Option Bytes}
    (h : startFiles io resume files fs t = (fs', t', err)) :
    ∃ rx, t'.rx = t.rx ++ rx ∧ ∀ (i : Nat) (f' : FileRx), rx[i]? = some f' → ∃ f mid bytes,
      files[i]? = some f ∧
        startFile io resume (startFiles io resume (files.take i) fs t).1 f = (mid, .ok (f', bytes)) := by
  induction files generalizing fs t with
  | nil =>
    cases h
    exact ⟨[], by simp, by simp⟩
  | cons f rest ih =>
    rw [startFiles] at h
    split at h
    · cases h
      exact ⟨[], by simp, by simp⟩
    · rename_i mid g added hstart
      obtain ⟨rx, hrx, each⟩ := ih h
      refine ⟨g :: rx, by simp [hrx], ?_⟩
      rintro (_ | i) f' hf'
      · cases hf'
        exact ⟨f, mid, added, rfl, hstart⟩
      · obtain ⟨f1, mid', bytes, hfile, hstarted⟩ := each i f' hf'
        refine ⟨f1, mid', bytes, hfile, ?_⟩
        rw [List.take_succ_cons, startFiles, hstart]
        exact hstarted

theorem files_of_start {m : Manifest} {saveDir : Path} {names : Names} {err : Option Bytes}
    (h : start io m saveDir names resume fs = (fs', t, err)) {i : Nat} (hf : t.rx[i]? = some f') :
    ∃ mf mid bytes, m.files[i]? = some mf ∧
      startFile io resume (startedDisk io m saveDir names resume fs i)
        (freshFile saveDir names i mf) = (mid, .ok (f', bytes)) := by
  unfold startedDisk
  unfold start at h ⊢
  simp only at h ⊢
  cases hsave : fs.ensureDir saveDir (io.dirOk saveDir) with
  | none =>
    rw [hsave] at h
    cases h
    cases hf
  | some mid =>
    rw [hsave] at h
    dsimp only at h ⊢
    rcases hdirs : startDirs io saveDir names m.dirs mid [] with ⟨disk, created, _ | msg⟩
    swap
    · rw [hdirs] at h
      cases h
      cases hf
    rw [hdirs] at h
    dsimp only at h ⊢
    have htake : (m.files.take i).mapIdx (freshFile saveDir names) =
        (m.files.mapIdx (freshFile saveDir names)).take i := by
      apply List.ext_getElem?
      intro j
      simp only [List.getElem?_mapIdx, List.getElem?_take]
      split <;> rfl
    rw [htake]
    have hrx : ∃ u err, startFiles io resume (m.files.mapIdx (freshFile saveDir names)) disk
        { rx := [], createdDirs := created, pc := .exited } = (fs', u, err) ∧ u.rx[i]? = some f' := by
      split at h
      · rename_i hfiles
        cases h
        exact ⟨_, _, hfiles, hf⟩
      · rename_i hfiles
        cases h
        exact ⟨_, _, hfiles, hf⟩
    obtain ⟨u, err, hfiles, hu⟩ := hrx
    obtain ⟨rx, hrx, each⟩ := files_of_startFiles hfiles
    rw [hrx, List.nil_append] at hu
    obtain ⟨f, mid', bytes, hfile, hstart⟩ := each i f' hu
    rw [List.getElem?_mapIdx, Option.map_eq_some_iff] at hfile
    obtain ⟨mf, hmf, rfl⟩ := hfile
    refine ⟨mf, mid', bytes, hmf, ?_⟩
    rw [← hstart]
    congr 1
    rcases startFiles io resume ((m.files.mapIdx (freshFile saveDir names)).take i) disk
      { rx := [], createdDirs := created, pc := .exited } with ⟨fs2, u, _ | msg⟩ <;> rfl

end Receiver

end CrossTransfer.Transfer
