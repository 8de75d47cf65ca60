import CrossTransfer.Library.ListSums
import CrossTransfer.Transfer.ReceiverStart
import CrossTransfer.Transfer.Repair

/-! # What the writer thread can do

`WriterEffect` lists the effects a step of the writer thread can have on the files of the
transfer, the file system and the owner; `writerStep_effect` says that the list is complete.
Bookkeeping of SACKs and rates is abstracted away by comparing files through `FileRx.core`.
-/

namespace CrossTransfer.Transfer

open CrossTransfer.Library

/-- The bitmap with its cached bound forgotten. -/
def BlockBitmap.uncached (b : BlockBitmap) : BlockBitmap :=
  { b with
    ackBaseCache := 0
    bit_below := fun _ h => absurd h (Nat.not_lt_zero _) }

/-- A file without the bookkeeping of SACKs. -/
def FileRx.core (f : FileRx) : FileRx :=
  { f with
    bitmap := f.bitmap.uncached
    dirty := false
    lastSackMs := 0
    receivedSinceSack := 0
    expectedSinceSack := 0
    frontier := 0
    completeSacksSent := 0 }

def WriterCont.hashes : WriterCont → List (UInt16 × Bytes)
  | .batch _ hashes _ => hashes
  | .dones rest _ => rest

/-- The announced hashes the writer thread has taken from the queue and not yet used. -/
def WriterPc.hashes : WriterPc → List (UInt16 × Bytes)
  | .batch _ _ hashes _ => hashes
  | .sack _ _ k => k.hashes
  | .verify _ k => k.hashes
  | .rename _ k => k.hashes
  | .dones rest _ => rest
  | _ => []

@[simp] theorem WriterCont.toPc_hashes (k : WriterCont) : k.toPc.hashes = k.hashes := by
  cases k <;> rfl

theorem WriterCont.toPc_ne_rename (k : WriterCont) (i : Nat) (k' : WriterCont) :
    k.toPc ≠ .rename i k' := by
  cases k <;> simp [WriterCont.toPc]

namespace Receiver

variable {t t' : Receiver} {fs fs' : Fs} {sha : Bytes → Bytes} {io : Io} {out : List RxEvent}

/-- All announced hashes that are still to be used. -/
def hashes (t : Receiver) : List (UInt16 × Bytes) := t.pendingDone ++ t.pc.hashes

/-- The files up to bookkeeping. -/
def cores (t : Receiver) : List FileRx := t.rx.map FileRx.core

/-- What every step of the writer thread keeps. -/
structure Frame (t t' : Receiver) : Prop where
  stop : t'.stop = t.stop
  createdDirs : t'.createdDirs = t.createdDirs
  failed : t.failed = true → t'.failed = true
  hashes : ∀ e ∈ t'.hashes, e ∈ t.hashes

theorem Frame.refl (t : Receiver) : Frame t t := ⟨rfl, rfl, id, fun _ h => h⟩

theorem Frame.trans {t'' : Receiver} (h : Frame t t') (h' : Frame t' t'') : Frame t t'' :=
  ⟨h'.stop.trans h.stop, h'.createdDirs.trans h.createdDirs, fun hf => h'.failed (h.failed hf),
    fun e he => h.hashes e (h'.hashes e he)⟩

/-- Reports that say nothing about the acceptance of a file: a SACK of one of the files, the
    persistent state, a failure. -/
inductive Report (t : Receiver) : RxEvent → Prop where
  | sack {i : Nat} {f g : FileRx} {rate : Int64} {loss : UInt16} {s : Sack}
      (hf : t.rx[i]? = some f) (same : g.core = f.core) (built : BuildsSack g rate loss s) :
      Report t (.sack (encodeSack s))
  | persist {u : Receiver} {state : List ReceiverFileState} (same : u.cores = t.cores)
      (snapshot : u.snapshot = some state) : Report t (.persist state)
  | error (code message : Bytes) : Report t (.error code message)

/-- The file system once a file has been hashed: an empty file is created for it. -/
def Hashed (io : Io) (fs : Fs) (f : FileRx) (fs' : Fs) : Prop :=
  fs' = fs ∨ f.blocks = 0 ∧ fs.createEmpty f.partPath io.ok = some fs'

/-- A file whose hash is due. -/
structure Due (f : FileRx) : Prop where
  verified : f.verified = false
  verifying : f.verifying = false
  complete : f.complete = true
  expected : f.expectedSha256 ≠ []

/-- The effects of a step of the writer thread. -/
inductive WriterEffect (sha : Bytes → Bytes) (io : Io) (t : Receiver) (fs : Fs) :
    Receiver → Fs → List RxEvent → Prop where
  /-- Only bookkeeping. -/
  | quiet {t' : Receiver} {out : List RxEvent} (frame : Frame t t') (rx : t'.cores = t.cores)
      (finished : t'.finished = t.finished) (pc : ∀ i k, t'.pc ≠ .rename i k)
      (reports : ∀ e ∈ out, Report t e) : WriterEffect sha io t fs t' fs out
  /-- A run of blocks is written to an open part file. -/
  | write {t' : Receiver} {i inode offset : Nat} {f : FileRx} {bytes : Bytes} {bitmap : BlockBitmap}
      (frame : Frame t t') (hf : t.rx[i]? = some f) (writer : f.writer = some (some inode))
      (size : bitmap.size = f.bitmap.size)
      (grows : ∀ b, f.bitmap.test b = true → bitmap.test b = true)
      (rx : t'.cores = t.cores.set i
        { f with bitmap := bitmap, complete := f.complete || bitmap.complete }.core)
      (finished : t'.finished = t.finished) (pc : ∀ i k, t'.pc ≠ .rename i k) :
      WriterEffect sha io t fs t' (fs.writeAt inode offset bytes) []
  /-- A write fails, maybe after some bytes. -/
  | writeFail {t' : Receiver} {i inode offset : Nat} {f : FileRx} {bytes : Bytes}
      {out : List RxEvent} (frame : Frame t t') (hf : t.rx[i]? = some f)
      (writer : f.writer = some (some inode)) (rx : t'.cores = t.cores)
      (finished : t'.finished = t.finished) (pc : t'.pc = .exited)
      (reports : ∀ e ∈ out, Report t e) :
      WriterEffect sha io t fs t' (fs.writeAt inode offset bytes) out
  /-- An announced hash is stored with its file. -/
  | expect {t' : Receiver} {index : UInt16} {hash : Bytes} {f : FileRx} (frame : Frame t t')
      (announced : (index, hash) ∈ t.hashes) (hf : t.rx[index.toNat]? = some f)
      (rx : t'.cores = t.cores.set index.toNat { f with expectedSha256 := hash }.core)
      (finished : t'.finished = t.finished) (pc : ∀ i k, t'.pc ≠ .rename i k) :
      WriterEffect sha io t fs t' fs []
  /-- Hashing is given up, because of a stop or an error. -/
  | hashLeft {t' : Receiver} {fs' : Fs} {i : Nat} {f : FileRx} {verifying : Bool}
      {out : List RxEvent} (frame : Frame t t') (hf : t.rx[i]? = some f) (due : Due f)
      (hashed : Hashed io fs f fs')
      (rx : t'.cores = t.cores.set i { f with writer := none, verifying := verifying }.core)
      (finished : t'.finished = t.finished) (pc : ∀ i k, t'.pc ≠ .rename i k)
      (reports : ∀ e ∈ out, Report t e) : WriterEffect sha io t fs t' fs' out
  /-- The hash is wrong: the file starts over and the owner is told. -/
  | reject {t' : Receiver} {fs' fs'' : Fs} {i : Nat} {f : FileRx} {writer : Option (Option Nat)}
      (frame : Frame t t') (hf : t.rx[i]? = some f) (due : Due f) (hashed : Hashed io fs f fs')
      (reopened : fs'' = fs' ∧ (writer = none ∨ writer = some none) ∨
        ∃ inode, fs'.openWrite f.partPath io.reopenOk = some (fs'', inode) ∧
          writer = some (some inode))
      (rx : t'.cores = t.cores.set i (resetFile f writer).core)
      (finished : t'.finished = t.finished) (pc : ∀ i k, t'.pc ≠ .rename i k) :
      WriterEffect sha io t fs t' fs'' [.fileBad f.index (ascii "sha256_mismatch")]
  /-- The hash is right; the rename comes next. -/
  | matched {t' : Receiver} {fs' : Fs} {i : Nat} {f : FileRx} {k : WriterCont} {bytes : Bytes}
      (frame : Frame t t') (hf : t.rx[i]? = some f) (due : Due f) (hashed : Hashed io fs f fs')
      (read : fs'.read f.partPath = some bytes) (hash : sha bytes = f.expectedSha256)
      (rx : t'.cores = t.cores.set i { f with writer := none, verifying := true }.core)
      (finished : t'.finished = t.finished) (pc : t'.pc = .rename i k) :
      WriterEffect sha io t fs t' fs' []
  /-- The part file takes its final name. -/
  | accept {t' : Receiver} {fs' : Fs} {i : Nat} {f : FileRx} {k : WriterCont} (frame : Frame t t')
      (hf : t.rx[i]? = some f) (atRename : t.pc = .rename i k)
      (renamed : fs.rename f.partPath f.finalPath io.ok = some fs')
      (rx : t'.cores = t.cores.set i { f with verified := true, verifying := false }.core)
      (finished : t'.finished = t.finished) (pc : ∀ i k, t'.pc ≠ .rename i k) :
      WriterEffect sha io t fs t' fs' [.fileOk f.index]
  /-- Every file is verified. -/
  | finish {t' : Receiver} {out : List RxEvent} (frame : Frame t t') (rx : t'.cores = t.cores)
      (all : ∀ f ∈ t.rx, f.verified = true) (finished : t'.finished = true)
      (pc : t'.pc = .exited) (reports : ∀ e ∈ out, Report t e) :
      WriterEffect sha io t fs t' fs (out ++ [.allDone])

/-! ## Bookkeeping -/

theorem cores_getElem? (t : Receiver) (i : Nat) : t.cores[i]? = (t.rx[i]?).map FileRx.core :=
  List.getElem?_map ..

theorem cores_set {i : Nat} (f : FileRx) :
    ({ t with rx := t.rx.set i f } : Receiver).cores = t.cores.set i f.core :=
  List.map_set ..

theorem cores_set_same {i : Nat} {f f' : FileRx} (hf : t.rx[i]? = some f) (h : f'.core = f.core) :
    (t.rx.set i f').map FileRx.core = t.cores :=
  map_set_of_eq hf h

/-- Bookkeeping: the files are the same up to `core`, what waits and what has been received stays,
    and no flag but `failed` changes. -/
structure Book (t t' : Receiver) : Prop where
  cores : t'.cores = t.cores
  stop : t'.stop = t.stop
  createdDirs : t'.createdDirs = t.createdDirs
  failed : t.failed = true → t'.failed = true
  pendingDone : t'.pendingDone = t.pendingDone
  finished : t'.finished = t.finished
  queue : t'.queue = t.queue
  bytes : t'.bytesReceived = t.bytesReceived

theorem Book.refl (t : Receiver) : Book t t := ⟨rfl, rfl, rfl, id, rfl, rfl, rfl, rfl⟩

theorem Book.trans {t'' : Receiver} (h : Book t t') (h' : Book t' t'') : Book t t'' :=
  ⟨h'.cores.trans h.cores, h'.stop.trans h.stop, h'.createdDirs.trans h.createdDirs,
    fun hf => h'.failed (h.failed hf), h'.pendingDone.trans h.pendingDone,
    h'.finished.trans h.finished, h'.queue.trans h.queue, h'.bytes.trans h.bytes⟩

theorem Book.pc (h : Book t t') (pc : WriterPc) : Book t { t' with pc := pc } :=
  ⟨h.cores, h.stop, h.createdDirs, h.failed, h.pendingDone, h.finished, h.queue, h.bytes⟩

theorem Book.frame (h : Book t t') (hpc : ∀ e ∈ t'.pc.hashes, e ∈ t.pc.hashes) : Frame t t' := by
  refine ⟨h.stop, h.createdDirs, h.failed, fun e he => ?_⟩
  rw [hashes, h.pendingDone] at he
  obtain he | he := List.mem_append.mp he
  · exact List.mem_append_left _ he
  · exact List.mem_append_right _ (hpc e he)

/-- A file after bookkeeping is the file before, up to `core`. -/
theorem Book.file (h : Book t t') {i : Nat} {f : FileRx} (hf : t'.rx[i]? = some f) :
    ∃ g, t.rx[i]? = some g ∧ f.core = g.core := by
  have hi : (t'.rx[i]?).map FileRx.core = (t.rx[i]?).map FileRx.core := by
    rw [← cores_getElem?, ← cores_getElem?, h.cores]
  rw [hf] at hi
  cases hg : t.rx[i]? with
  | none => simp [hg] at hi
  | some g =>
    rw [hg, Option.map_some, Option.map_some] at hi
    exact ⟨g, rfl, Option.some.inj hi⟩

theorem Book.report (h : Book t t') {e : RxEvent} (report : Report t' e) : Report t e := by
  cases report with
  | sack hf same built =>
    obtain ⟨g, hg, hcore⟩ := h.file hf
    exact .sack hg (same.trans hcore) built
  | persist same snapshot => exact .persist (same.trans h.cores) snapshot
  | error code message => exact .error code message

theorem Book.quiet (h : Book t t') (hpc : ∀ e ∈ t'.pc.hashes, e ∈ t.pc.hashes)
    (notRename : ∀ i k, t'.pc ≠ .rename i k) (reports : ∀ e ∈ out, Report t e) :
    WriterEffect sha io t fs t' fs out :=
  .quiet (h.frame hpc) h.cores h.finished notRename reports

theorem mem_fail {code message : Bytes} {e : RxEvent} (he : e ∈ (t.fail code message).2) :
    e = .error code message := by
  unfold fail at he
  split at he
  · cases he
  · exact List.mem_singleton.mp he

theorem book_fail (t : Receiver) (code message : Bytes) :
    Book t (t.fail code message).1 ∧ ∀ e ∈ (t.fail code message).2, Report t e := by
  refine ⟨?_, fun e he => mem_fail he ▸ .error code message⟩
  unfold fail
  split
  · exact .refl t
  · exact ⟨rfl, rfl, rfl, fun _ => rfl, rfl, rfl, rfl, rfl⟩

theorem acceptFile_core {f f' : FileRx} {p : Pending} {fresh : Bool}
    (h : acceptFile f p = some (f', fresh)) : f'.core = f.core := by
  unfold acceptFile at h
  split at h
  · cases h
  · split at h
    · cases h
    · cases h
      dsimp only
      split <;> rfl

theorem book_acceptBlock (t : Receiver) (p : Pending) :
    Book t (t.acceptBlock p).1 ∧ (t.acceptBlock p).1.pc = t.pc := by
  unfold acceptBlock
  split
  · exact ⟨.refl t, rfl⟩
  · rename_i f hf
    split
    · exact ⟨.refl t, rfl⟩
    · rename_i f' fresh hacc
      exact ⟨⟨cores_set_same hf (acceptFile_core hacc), rfl, rfl, id, rfl, rfl, rfl, rfl⟩, rfl⟩

theorem book_sendSack {i : Nat} {now : UInt32} (h : t.sendSack i now = some (t', out)) :
    Book t t' ∧ t'.pc = t.pc ∧ ∀ e ∈ out, Report t e := by
  unfold sendSack at h
  split at h
  · cases h
    exact ⟨.refl t, rfl, by simp⟩
  · rename_i f hf
    obtain ⟨s, hs, h⟩ := Option.map_eq_some_iff.mp h
    cases h
    refine ⟨⟨cores_set_same hf rfl, rfl, rfl, id, rfl, rfl, rfl, rfl⟩, rfl, fun e he => ?_⟩
    rw [List.mem_singleton.mp he]
    exact .sack hf rfl ⟨_, hs⟩

theorem book_sendSacks {now : UInt32} {force : Bool} {n i : Nat}
    (h : sendSacks now force n i t = some (t', out)) :
    Book t t' ∧ ∀ e ∈ out, Report t e := by
  induction n generalizing t i out with
  | zero =>
    cases h
    exact ⟨.refl _, by simp⟩
  | succ n ih =>
    rw [sendSacks] at h
    split at h
    · cases h
      exact ⟨.refl _, by simp⟩
    · split at h
      · split at h
        · cases h
        · rename_i mid sent hsend
          obtain ⟨⟨u, more⟩, hrest, h⟩ := Option.map_eq_some_iff.mp h
          cases h
          obtain ⟨book, -, reports⟩ := book_sendSack hsend
          obtain ⟨book', reports'⟩ := ih hrest
          refine ⟨book.trans book', fun e he => ?_⟩
          obtain he | he := List.mem_append.mp he
          · exact reports e he
          · exact book.report (reports' e he)
      · exact ih h

theorem book_persist {force : Bool} {now : UInt32} (h : t.persist force now = some (t', out)) :
    Book t t' ∧ t'.rx = t.rx ∧ ∀ e ∈ out, Report t e := by
  unfold persist at h
  split at h
  · cases h
    exact ⟨.refl t, rfl, by simp⟩
  · obtain ⟨state, hstate, h⟩ := Option.map_eq_some_iff.mp h
    cases h
    refine ⟨⟨rfl, rfl, rfl, id, rfl, rfl, rfl, rfl⟩, rfl, fun e he => ?_⟩
    rw [List.mem_singleton.mp he]
    exact .persist rfl hstate

theorem book_updateRates (t : Receiver) (now : UInt32) : Book t (t.updateRates now) := by
  unfold updateRates
  split
  · exact .refl t
  · exact ⟨rfl, rfl, rfl, id, rfl, rfl, rfl, rfl⟩

theorem book_initiallyChecked (t : Receiver) : Book t t.initiallyChecked := by
  unfold initiallyChecked
  split
  · refine ⟨?_, rfl, rfl, id, rfl, rfl, rfl, rfl⟩
    rw [cores, cores, List.map_map]
    congr 1
    funext f
    simp only [Function.comp]
    split <;> rfl
  · exact .refl t

theorem verified_of_cores (h : t'.cores = t.cores) (all : ∀ f ∈ t'.rx, f.verified = true) :
    ∀ f ∈ t.rx, f.verified = true := by
  intro f hf
  have : f.core ∈ t'.cores := h ▸ List.mem_map_of_mem hf
  obtain ⟨g, hg, hcore⟩ := List.mem_map.mp this
  have := congrArg FileRx.verified hcore
  exact this.symm.trans (all g hg)

/-! ## The steps -/

theorem setBlocks_grows (blocks : List UInt32) (b : BlockBitmap) :
    (setBlocks b blocks).size = b.size ∧
      ∀ k, b.test k = true → (setBlocks b blocks).test k = true := by
  induction blocks generalizing b with
  | nil => exact ⟨rfl, fun _ h => h⟩
  | cons i rest ih =>
    obtain ⟨hsize, hgrows⟩ := ih (b.set i.toNat).1
    refine ⟨hsize.trans (b.set_size _), fun k hk => hgrows k ?_⟩
    rw [BlockBitmap.set_test, hk]
    rfl

theorem core_bitmap_complete (f : FileRx) (bitmap : BlockBitmap) (complete : Bool) :
    { f with bitmap := bitmap, complete := complete }.core =
      { f.core with bitmap := bitmap.uncached, complete := complete } := rfl

theorem core_marked {f g : FileRx} (h : f.core = g.core) {bitmap : BlockBitmap} :
    { f with bitmap := bitmap, complete := f.complete || bitmap.complete }.core =
      { g with bitmap := bitmap, complete := g.complete || bitmap.complete }.core := by
  have hcomplete := congrArg FileRx.complete h
  rw [core_bitmap_complete f, core_bitmap_complete g, h]
  exact congrArg (fun c => { g.core with
    bitmap := bitmap.uncached, complete := c || bitmap.complete }) hcomplete

/-- `FlushRun` after the bookkeeping `book`. -/
theorem flushRun_effect {u : Receiver} (book : Book t u) {run : BlockRun} {now : UInt32}
    {k : WriterCont} (hk : ∀ e ∈ k.hashes, e ∈ t.pc.hashes)
    (h : u.flushRun io run now k fs = (t', fs', out)) : WriterEffect sha io t fs t' fs' out := by
  unfold flushRun at h
  split at h
  · cases h
    exact (book.pc _).quiet (by simpa using hk) k.toPc_ne_rename (by simp)
  · rename_i f hf
    obtain ⟨g, hg, hcore⟩ := book.file hf
    obtain ⟨bookFail, reports⟩ := book_fail u (ascii "io")
      (ascii "write failed: " ++ f.finalPath.getLast?.getD [])
    simp only at h
    split at h
    · rename_i inode hwriter
      have hwriter' : g.writer = some (some inode) := by
        have := congrArg FileRx.writer hcore
        exact this.symm.trans hwriter
      split at h
      · cases h
        obtain ⟨hsize, hgrows⟩ := setBlocks_grows run.blocks f.bitmap
        have hbits := fun b => congrArg (fun x : FileRx => x.bitmap.test b) hcore
        have hbound := congrArg (fun x : FileRx => x.bitmap.size) hcore
        have grows : ∀ b, g.bitmap.test b = true → (setBlocks f.bitmap run.blocks).test b = true :=
          fun b hb => hgrows b ((hbits b).trans hb)
        refine .write ?_ hg hwriter' (hsize.trans hbound) grows ?_ book.finished ?_
        · refine ⟨book.stop, book.createdDirs, book.failed, fun e he => ?_⟩
          obtain he | he := List.mem_append.mp he
          · exact List.mem_append_left _ (book.pendingDone ▸ he)
          · refine List.mem_append_right _ (hk e ?_)
            dsimp only at he
            split at he
            · exact he
            · simpa using he
        · rw [← core_marked hcore, ← book.cores]
          exact List.map_set ..
        · intro i k'
          dsimp only
          split
          · simp
          · exact k.toPc_ne_rename i k'
      · cases h
        exact .writeFail ((book.trans bookFail).pc _ |>.frame (by simp [WriterPc.hashes])) hg
          hwriter' ((book.trans bookFail).cores) ((book.trans bookFail).finished) rfl
          (fun e he => book.report (reports e he))
    · cases h
      exact ((book.trans bookFail).pc _).quiet (by simp [WriterPc.hashes]) (by simp)
        (fun e he => book.report (reports e he))

theorem batchStep_effect {rest : List Pending} {run : Option BlockRun}
    {dones : List (UInt16 × Bytes)} {now : UInt32} (hpc : t.pc = .batch rest run dones now)
    (h : t.batchStep io rest run dones now fs = (t', fs', out)) :
    WriterEffect sha io t fs t' fs' out := by
  have same : ∀ e ∈ dones, e ∈ t.pc.hashes := by
    rw [hpc]
    exact fun e he => he
  unfold batchStep at h
  split at h
  · exact flushRun_effect (.refl t) (by exact same) h
  · cases h
    refine ((Book.refl t).pc _).quiet (fun e he => same e ?_) ?_ (by simp)
    · dsimp only at he
      split at he
      · cases he
      · exact he
    · intro i k
      dsimp only
      split <;> simp
  · rename_i p rest
    split at h
    · exact flushRun_effect (.refl t) (by exact same) h
    · obtain ⟨book, -⟩ := book_acceptBlock t p
      simp only at h
      split at h
      · cases h
        exact (book.pc _).quiet same (by simp) (by simp)
      · split at h
        · exact flushRun_effect book (by exact same) h
        · cases h
          exact (book.pc _).quiet same (by simp) (by simp)

theorem tailStep_effect {now : UInt32}
    (h : t.tailStep io now = some (t', out)) : WriterEffect sha io t fs t' fs out := by
  have first := book_initiallyChecked t
  unfold tailStep at h
  simp only at h
  split at h
  · cases h
  · rename_i u sacks hsacks
    obtain ⟨book, reports⟩ := book_sendSacks hsacks
    have book := first.trans book
    split at h
    · cases h
    · rename_i v saved hsaved
      obtain ⟨bookSaved, -, reportsSaved⟩ := book_persist hsaved
      have upto := book.trans (book_updateRates u now)
      have bookV := upto.trans bookSaved
      have early : ∀ e ∈ sacks ++ saved, Report t e := by
        intro e he
        obtain he | he := List.mem_append.mp he
        · exact first.report (reports e he)
        · exact upto.report (reportsSaved e he)
      split at h
      · rename_i hall
        obtain ⟨⟨w, final⟩, hfinal, h⟩ := Option.map_eq_some_iff.mp h
        cases h
        obtain ⟨bookFinal, -, reportsFinal⟩ := book_persist hfinal
        have bookW := bookV.trans bookFinal
        refine .finish ⟨bookW.stop, bookW.createdDirs, bookW.failed, fun e he => ?_⟩ bookW.cores
          ?_ rfl rfl ?_
        · obtain he | he := List.mem_append.mp he
          · exact List.mem_append_left _ (bookW.pendingDone ▸ he)
          · cases he
        · exact verified_of_cores bookV.cores (by simpa [allVerified] using hall)
        · intro e he
          obtain he | he := List.mem_append.mp he
          · exact early e he
          · exact bookV.report (reportsFinal e he)
      · cases h
        exact (bookV.pc _).quiet (by simp [WriterPc.hashes]) (by simp) early

theorem verify_effect {i : Nat} {k : WriterCont} (hpc : t.pc = .verify i k)
    (h : t.verify sha io i k fs = (t', fs', out)) : WriterEffect sha io t fs t' fs' out := by
  have same : ∀ e ∈ k.hashes, e ∈ t.pc.hashes := by
    rw [hpc]
    exact fun e he => he
  have back : WriterEffect sha io t fs { t with pc := k.toPc } fs [] :=
    ((Book.refl t).pc _).quiet (by simpa using same) k.toPc_ne_rename (by simp)
  have frame : ∀ rx bytesReceived, Frame t { t with
      rx := rx, bytesReceived := bytesReceived, pc := k.toPc } := by
    intro rx bytes
    refine ⟨rfl, rfl, id, fun e he => ?_⟩
    obtain he | he := List.mem_append.mp he
    · exact List.mem_append_left _ he
    · exact List.mem_append_right _ (same e (by simpa using he))
  unfold verify at h
  split at h
  · cases h
    exact back
  · rename_i f hf
    split at h
    · cases h
      exact back
    · rename_i hdue
      have due : Due f := by
        simp only [Bool.or_eq_true, not_or, Bool.not_eq_true, Bool.not_eq_true', Bool.not_eq_false,
          List.isEmpty_eq_false_iff] at hdue
        exact ⟨hdue.1.1.1, hdue.1.1.2, hdue.1.2, hdue.2⟩
      dsimp only at h
      -- What hashing gives, for an empty file and for any other.
      generalize hres : (if f.blocks = 0 then (fs.createEmpty f.partPath io.ok).map fun x => (x, [])
        else if io.ok then (fs.read f.partPath).map fun x => (fs, x) else none) = hashed at h
      have hashedFs : Hashed io fs f ((hashed.map (·.1)).getD fs) := by
        subst hres
        split
        · rename_i hzero
          cases hc : fs.createEmpty f.partPath io.ok with
          | none => exact .inl rfl
          | some fs1 => exact .inr ⟨hzero, hc⟩
        · split
          · cases fs.read f.partPath <;> exact .inl rfl
          · exact .inl rfl
      have hashedRead : ∀ fs1 bytes, hashed = some (fs1, bytes) →
          fs1.read f.partPath = some bytes := by
        intro fs1 bytes heq
        subst hres
        split at heq
        · obtain ⟨x, hx, heq⟩ := Option.map_eq_some_iff.mp heq
          cases heq
          exact FileSystem.read_createEmpty hx
        · split at heq
          · obtain ⟨x, hx, heq⟩ := Option.map_eq_some_iff.mp heq
            cases heq
            exact hx
          · cases heq
      split at h
      · cases h
        exact .hashLeft (frame _ _) hf due hashedFs (cores_set _) rfl k.toPc_ne_rename (by simp)
      · split at h
        · cases h
          obtain ⟨book, reports⟩ := book_fail (t.setFile i { f with verifying := true, writer := none })
            (ascii "io") (ascii "verify read failed")
          refine .hashLeft ?_ hf due hashedFs (book.cores.trans (cores_set _))
            book.finished k.toPc_ne_rename ?_
          · refine ⟨book.stop, book.createdDirs, book.failed, fun e he => ?_⟩
            obtain he | he := List.mem_append.mp he
            · exact List.mem_append_left _ (book.pendingDone ▸ he)
            · exact List.mem_append_right _ (same e (by simpa using he))
          · intro e he
            rw [mem_fail he]
            exact .error _ _
        · rename_i fs1 bytes
          split at h
          · cases h
            refine .reject (frame _ _) hf due hashedFs ?_ (cores_set _) rfl k.toPc_ne_rename
            split
            · exact .inl ⟨rfl, .inl rfl⟩
            · split
              · rename_i fs2 inode hopen
                exact .inr ⟨inode, hopen, rfl⟩
              · exact .inl ⟨rfl, .inr rfl⟩
          · rename_i hsha
            cases h
            have hash : sha bytes = f.expectedSha256 := by simpa using hsha
            refine .matched ?_ hf due hashedFs (hashedRead _ bytes rfl) hash
              (cores_set _) rfl rfl
            refine ⟨rfl, rfl, id, fun e he => ?_⟩
            obtain he | he := List.mem_append.mp he
            · exact List.mem_append_left _ he
            · exact List.mem_append_right _ (same e he)

theorem renameFile_effect {i : Nat} {k : WriterCont} (hpc : t.pc = .rename i k)
    (h : t.renameFile io i k fs = (t', fs', out)) : WriterEffect sha io t fs t' fs' out := by
  have same : ∀ e ∈ k.hashes, e ∈ t.pc.hashes := by
    rw [hpc]
    exact fun e he => he
  unfold renameFile at h
  split at h
  · cases h
    exact ((Book.refl t).pc _).quiet (by simpa using same) k.toPc_ne_rename (by simp)
  · rename_i f hf
    split at h
    · cases h
      obtain ⟨book, reports⟩ := book_fail t (ascii "io") (ascii "rename failed: " ++ io.err)
      exact (book.pc _).quiet (by simpa using same) k.toPc_ne_rename reports
    · rename_i fs1 hrename
      cases h
      refine .accept ?_ hf hpc hrename (cores_set _) rfl k.toPc_ne_rename
      refine ⟨rfl, rfl, id, fun e he => ?_⟩
      obtain he | he := List.mem_append.mp he
      · exact List.mem_append_left _ he
      · exact List.mem_append_right _ (same e (by simpa using he))

/-- Every step of the writer thread has one of the listed effects. -/
theorem writerStep_effect (h : t.writerStep sha io fs = some (t', fs', out)) :
    WriterEffect sha io t fs t' fs' out := by
  unfold writerStep at h
  split at h
  -- The loop condition; a stopped thread persists and leaves.
  case h_1 hpc =>
    split at h
    · obtain ⟨⟨u, saved⟩, hsaved, h⟩ := Option.map_eq_some_iff.mp h
      cases h
      obtain ⟨book, -, reports⟩ := book_persist hsaved
      exact (book.pc _).quiet (by simp [WriterPc.hashes]) (by simp) reports
    · cases h
      exact ((Book.refl t).pc _).quiet (by simp [WriterPc.hashes]) (by simp) (by simp)
  -- The queue and the announced hashes are taken over.
  case h_2 hpc =>
    cases h
    refine .quiet ⟨rfl, rfl, id, fun e he => ?_⟩ rfl rfl (by simp) (by simp)
    exact List.mem_append_left _ (by simpa [hashes, WriterPc.hashes] using he)
  case h_3 rest run dones now hpc => exact batchStep_effect hpc (Option.some.inj h)
  -- The SACK that follows a flushed run.
  case h_4 i now k hpc =>
    obtain ⟨⟨u, sent⟩, hsent, h⟩ := Option.map_eq_some_iff.mp h
    cases h
    obtain ⟨book, -, reports⟩ := book_sendSack hsent
    refine (book.pc _).quiet ?_ (by simp) reports
    rw [hpc]
    exact fun e he => he
  case h_5 i k hpc => exact verify_effect hpc (Option.some.inj h)
  case h_6 i k hpc => exact renameFile_effect hpc (Option.some.inj h)
  -- No announced hash is left.
  case h_7 now hpc =>
    cases h
    exact ((Book.refl t).pc _).quiet (by simp [WriterPc.hashes]) (by simp) (by simp)
  -- An announced hash, for a file that may not exist.
  case h_8 index hash rest now hpc =>
    have hashes : t.pc.hashes = (index, hash) :: rest := by
      rw [hpc]
      rfl
    split at h
    · cases h
      refine ((Book.refl t).pc _).quiet (fun e he => ?_) (by simp) (by simp)
      rw [hashes]
      exact List.mem_cons_of_mem _ he
    · rename_i f hf
      cases h
      refine .expect ?_ ?_ hf (cores_set { f with expectedSha256 := hash }) rfl (by simp)
      · refine ⟨rfl, rfl, id, fun e he => ?_⟩
        obtain he | he := List.mem_append.mp he
        · exact List.mem_append_left _ he
        · refine List.mem_append_right _ ?_
          rw [hashes]
          exact List.mem_cons_of_mem _ he
      · refine List.mem_append_right _ ?_
        rw [hashes]
        exact List.mem_cons_self
  -- The rest of the round.
  case h_9 now hpc =>
    obtain ⟨⟨u, sent⟩, htail, h⟩ := Option.map_eq_some_iff.mp h
    cases h
    exact tailStep_effect htail
  case h_10 => cases h

/-! ## What a step does to a file -/

/-- The part file of file `j` takes its final name in this step. -/
structure Accepted (io : Io) (t : Receiver) (fs : Fs) (fs' : Fs) (out : List RxEvent) (j : Nat)
    (f : FileRx) : Prop where
  file : t.rx[j]? = some f
  atRename : ∃ k, t.pc = .rename j k
  renamed : fs.rename f.partPath f.finalPath io.ok = some fs'
  told : out = [.fileOk f.index]

/-- A file before and after a step. -/
structure Moved (io : Io) (t : Receiver) (fs : Fs) (fs' : Fs) (out : List RxEvent) (j : Nat)
    (f f' : FileRx) : Prop where
  fixed : f'.fixed = f.fixed
  kept : f.verified = true → f'.verified = true
  verified : f'.verified = true → f.verified = true ∨ Accepted io t fs fs' out j f
  expected : f'.expectedSha256 = f.expectedSha256 ∨
    ∃ index : UInt16, index.toNat = j ∧ (index, f'.expectedSha256) ∈ t.hashes

/-- The files that a step does not name are the same up to bookkeeping. -/
theorem file_of_cores (h : t'.cores = t.cores) {j : Nat} {f' : FileRx}
    (hf' : t'.rx[j]? = some f') : ∃ f, t.rx[j]? = some f ∧ f'.core = f.core := by
  have hj : (t'.rx[j]?).map FileRx.core = (t.rx[j]?).map FileRx.core := by
    rw [← cores_getElem?, ← cores_getElem?, h]
  rw [hf'] at hj
  cases hf : t.rx[j]? with
  | none => simp [hf] at hj
  | some f =>
    rw [hf, Option.map_some, Option.map_some] at hj
    exact ⟨f, rfl, Option.some.inj hj⟩

theorem file_of_cores_set {i j : Nat} {f g f' : FileRx} (hf : t.rx[i]? = some f)
    (h : t'.cores = t.cores.set i g.core) (hf' : t'.rx[j]? = some f') :
    (j = i ∧ f'.core = g.core) ∨ j ≠ i ∧ ∃ f, t.rx[j]? = some f ∧ f'.core = f.core := by
  by_cases hij : j = i
  · subst hij
    refine .inl ⟨rfl, ?_⟩
    have hj : j < t.rx.length := (List.getElem?_eq_some_iff.mp hf).1
    have := cores_getElem? t' j
    rw [h, hf', List.getElem?_set_self (by simpa [cores] using hj)] at this
    exact (Option.some.inj this).symm
  · refine .inr ⟨hij, ?_⟩
    have : t'.cores[j]? = t.cores[j]? := by
      rw [h, List.getElem?_set_ne (fun h => hij h.symm)]
    rw [cores_getElem?, cores_getElem?, hf'] at this
    cases hf : t.rx[j]? with
    | none => simp [hf] at this
    | some f =>
      rw [hf, Option.map_some, Option.map_some] at this
      exact ⟨f, rfl, Option.some.inj this⟩

theorem moved_of_core {j : Nat} {f f' : FileRx} (h : f'.core = f.core) :
    Moved io t fs fs' out j f f' := by
  have hfixed := congrArg FileRx.fixed h
  have hverified := congrArg FileRx.verified h
  have hexpected := congrArg FileRx.expectedSha256 h
  exact ⟨hfixed, hverified.trans, fun hv => .inl (hverified.symm.trans hv), .inl hexpected⟩

/-- What a step does to each file. -/
theorem WriterEffect.file (h : WriterEffect sha io t fs t' fs' out) {j : Nat} {f' : FileRx}
    (hf' : t'.rx[j]? = some f') : ∃ f, t.rx[j]? = some f ∧ Moved io t fs fs' out j f f' := by
  have same : t'.cores = t.cores → ∃ f, t.rx[j]? = some f ∧ Moved io t fs fs' out j f f' := by
    intro hcores
    obtain ⟨f, hf, hcore⟩ := file_of_cores hcores hf'
    exact ⟨f, hf, moved_of_core hcore⟩
  -- The file the step names has become `g`.
  have one : ∀ {i : Nat} {f g : FileRx}, t.rx[i]? = some f → t'.cores = t.cores.set i g.core →
      Moved io t fs fs' out i f g → ∃ f, t.rx[j]? = some f ∧ Moved io t fs fs' out j f f' := by
    intro i f g hf hcores moved
    obtain ⟨rfl, hcore⟩ | ⟨-, f, hf, hcore⟩ := file_of_cores_set hf hcores hf'
    · have hfixed := congrArg FileRx.fixed hcore
      have hverified := congrArg FileRx.verified hcore
      have hexpected := congrArg FileRx.expectedSha256 hcore
      refine ⟨f, hf, hfixed.trans moved.fixed, fun hv => hverified.trans (moved.kept hv),
        fun hv => moved.verified (hverified.symm.trans hv), ?_⟩
      rw [show f'.expectedSha256 = g.expectedSha256 from hexpected]
      exact moved.expected
    · exact ⟨f, hf, moved_of_core hcore⟩
  cases h with
  | quiet frame rx => exact same rx
  | write frame hf writer size grows rx => exact one hf rx ⟨rfl, id, .inl, .inl rfl⟩
  | writeFail frame hf writer rx => exact same rx
  | expect frame announced hf rx =>
    exact one hf rx ⟨rfl, id, .inl, .inr ⟨_, rfl, announced⟩⟩
  | hashLeft frame hf due hashed rx => exact one hf rx ⟨rfl, id, .inl, .inl rfl⟩
  | reject frame hf due hashed reopened rx => exact one hf rx ⟨rfl, id, .inl, .inl rfl⟩
  | matched frame hf due hashed read hash rx => exact one hf rx ⟨rfl, id, .inl, .inl rfl⟩
  | accept frame hf atRename renamed rx =>
    exact one hf rx ⟨rfl, fun _ => rfl, fun _ => .inr ⟨hf, ⟨_, atRename⟩, renamed, rfl⟩, .inl rfl⟩
  | finish frame rx => exact same rx

theorem WriterEffect.length (h : WriterEffect sha io t fs t' fs' out) :
    t'.rx.length = t.rx.length := by
  have cores_length : ∀ t : Receiver, t.cores.length = t.rx.length := fun t => List.length_map ..
  rw [← cores_length, ← cores_length]
  cases h with
  | quiet frame rx => rw [rx]
  | write frame hf writer size grows rx => rw [rx, List.length_set]
  | writeFail frame hf writer rx => rw [rx]
  | expect frame announced hf rx => rw [rx, List.length_set]
  | hashLeft frame hf due hashed rx => rw [rx, List.length_set]
  | reject frame hf due hashed reopened rx => rw [rx, List.length_set]
  | matched frame hf due hashed read hash rx => rw [rx, List.length_set]
  | accept frame hf atRename renamed rx => rw [rx, List.length_set]
  | finish frame rx => rw [rx]

theorem WriterEffect.fixed (h : WriterEffect sha io t fs t' fs' out) :
    t'.rx.map FileRx.fixed = t.rx.map FileRx.fixed := by
  apply List.ext_getElem?
  intro j
  rw [List.getElem?_map, List.getElem?_map]
  cases hf' : t'.rx[j]? with
  | none =>
    rw [List.getElem?_eq_none_iff, h.length, ← List.getElem?_eq_none_iff] at hf'
    rw [hf']
  | some f' =>
    obtain ⟨f, hf, moved⟩ := h.file hf'
    rw [hf, Option.map_some, Option.map_some, moved.fixed]

theorem Report.not_fileOk {e : RxEvent} (h : Report t e) (index : UInt16) : e ≠ .fileOk index := by
  cases h <;> simp

theorem Report.not_allDone {e : RxEvent} (h : Report t e) : e ≠ .allDone := by
  cases h <;> simp

/-- A file is reported as good only in the step that renames it, and then it is verified. -/
theorem WriterEffect.of_fileOk (h : WriterEffect sha io t fs t' fs' out) {index : UInt16}
    (told : .fileOk index ∈ out) : ∃ j f, f.index = index ∧ Accepted io t fs fs' out j f ∧
      ∃ f', t'.rx[j]? = some f' ∧ f'.verified = true := by
  have length := h.length
  cases h with
  | quiet _ _ _ _ reports => exact absurd rfl ((reports _ told).not_fileOk index)
  | write => cases told
  | writeFail _ _ _ _ _ _ reports => exact absurd rfl ((reports _ told).not_fileOk index)
  | expect => cases told
  | hashLeft _ _ _ _ _ _ _ reports => exact absurd rfl ((reports _ told).not_fileOk index)
  | reject => cases List.mem_singleton.mp told
  | matched => cases told
  | accept frame hf atRename renamed rx =>
    cases List.mem_singleton.mp told
    have hi := (List.getElem?_eq_some_iff.mp hf).1
    have hf' := List.getElem?_eq_getElem (length ▸ hi)
    refine ⟨_, _, rfl, ⟨hf, ⟨_, atRename⟩, renamed, rfl⟩, _, hf', ?_⟩
    obtain ⟨-, hcore⟩ | ⟨hne, -⟩ := file_of_cores_set hf rx hf'
    · exact congrArg FileRx.verified hcore
    · exact absurd rfl hne
  | finish _ _ _ _ _ reports =>
    obtain told | told := List.mem_append.mp told
    · exact absurd rfl ((reports _ told).not_fileOk index)
    · cases List.mem_singleton.mp told

theorem WriterEffect.of_allDone (h : WriterEffect sha io t fs t' fs' out)
    (told : .allDone ∈ out) : t'.finished = true := by
  cases h with
  | quiet _ _ _ _ reports => exact absurd rfl (reports _ told).not_allDone
  | write => cases told
  | writeFail _ _ _ _ _ _ reports => exact absurd rfl (reports _ told).not_allDone
  | expect => cases told
  | hashLeft _ _ _ _ _ _ _ reports => exact absurd rfl (reports _ told).not_allDone
  | reject => cases List.mem_singleton.mp told
  | matched => cases told
  | accept => cases List.mem_singleton.mp told
  | finish _ _ _ finished => exact finished

theorem WriterEffect.frame (h : WriterEffect sha io t fs t' fs' out) : Frame t t' := by
  cases h <;> assumption

theorem WriterEffect.of_finished (h : WriterEffect sha io t fs t' fs' out)
    (finished : t'.finished = true) : t.finished = true ∨ ∀ f ∈ t.rx, f.verified = true := by
  cases h with
  | quiet _ _ same => exact .inl (same.symm.trans finished)
  | write _ _ _ _ _ _ same => exact .inl (same.symm.trans finished)
  | writeFail _ _ _ _ same => exact .inl (same.symm.trans finished)
  | expect _ _ _ _ same => exact .inl (same.symm.trans finished)
  | hashLeft _ _ _ _ _ same => exact .inl (same.symm.trans finished)
  | reject _ _ _ _ _ _ same => exact .inl (same.symm.trans finished)
  | matched _ _ _ _ _ _ _ same => exact .inl (same.symm.trans finished)
  | accept _ _ _ _ _ same => exact .inl (same.symm.trans finished)
  | finish _ _ all => exact .inr all

theorem WriterEffect.keeps_finished (h : WriterEffect sha io t fs t' fs' out)
    (finished : t.finished = true) : t'.finished = true := by
  cases h with
  | quiet _ _ same => exact same.trans finished
  | write _ _ _ _ _ _ same => exact same.trans finished
  | writeFail _ _ _ _ same => exact same.trans finished
  | expect _ _ _ _ same => exact same.trans finished
  | hashLeft _ _ _ _ _ same => exact same.trans finished
  | reject _ _ _ _ _ _ same => exact same.trans finished
  | matched _ _ _ _ _ _ _ same => exact same.trans finished
  | accept _ _ _ _ _ same => exact same.trans finished
  | finish _ _ _ finished => exact finished

/-! ## What a step does to the bitmaps -/

/-- A bitmap between two steps: it loses blocks only in a step that reports the file as bad. -/
structure Grown (out : List RxEvent) (f f' : FileRx) : Prop where
  sized : f.bitmap.size = f.blocks.toNat → f'.bitmap.size = f'.blocks.toNat
  kept : (∀ b, f.bitmap.test b = true → f'.bitmap.test b = true) ∨
    ∃ reason, out = [.fileBad f.index reason] ∧ f.verified = false

theorem grown_of_core {f f' : FileRx} (h : f'.core = f.core) : Grown out f f' := by
  have hsize := congrArg (fun x : FileRx => x.bitmap.size) h
  have hblocks := congrArg (fun x : FileRx => x.blocks.toNat) h
  have htest := fun b => congrArg (fun x : FileRx => x.bitmap.test b) h
  exact ⟨fun hf => (Eq.trans hsize hf).trans (Eq.symm hblocks),
    .inl fun b hb => Eq.trans (htest b) hb⟩

theorem Grown.of_core {f g f' : FileRx} (h : Grown out f g) (hcore : f'.core = g.core) :
    Grown out f f' := by
  obtain ⟨sized, kept⟩ : Grown out g f' := grown_of_core hcore
  refine ⟨fun hf => sized (h.sized hf), h.kept.imp_left fun hold => ?_⟩
  have htest := fun b => congrArg (fun x : FileRx => x.bitmap.test b) hcore
  exact fun b hb => Eq.trans (htest b) (hold b hb)

theorem WriterEffect.bitmap (h : WriterEffect sha io t fs t' fs' out) {j : Nat} {f' : FileRx}
    (hf' : t'.rx[j]? = some f') : ∃ f, t.rx[j]? = some f ∧ Grown out f f' := by
  have same : t'.cores = t.cores → ∃ f, t.rx[j]? = some f ∧ Grown out f f' := by
    intro hcores
    obtain ⟨f, hf, hcore⟩ := file_of_cores hcores hf'
    exact ⟨f, hf, grown_of_core hcore⟩
  have one : ∀ {i : Nat} {f g : FileRx}, t.rx[i]? = some f → t'.cores = t.cores.set i g.core →
      Grown out f g → ∃ f, t.rx[j]? = some f ∧ Grown out f f' := by
    intro i f g hf hcores grown
    obtain ⟨rfl, hcore⟩ | ⟨-, f, hf, hcore⟩ := file_of_cores_set hf hcores hf'
    · exact ⟨f, hf, grown.of_core hcore⟩
    · exact ⟨f, hf, grown_of_core hcore⟩
  cases h with
  | quiet frame rx => exact same rx
  | write frame hf writer size grows rx => exact one hf rx ⟨fun hf => size.trans hf, .inl grows⟩
  | writeFail frame hf writer rx => exact same rx
  | expect frame announced hf rx => exact one hf rx ⟨id, .inl fun _ => id⟩
  | hashLeft frame hf due hashed rx => exact one hf rx ⟨id, .inl fun _ => id⟩
  | reject frame hf due hashed reopened rx =>
    exact one hf rx ⟨fun _ => BlockBitmap.reset_size _, .inr ⟨_, rfl, due.verified⟩⟩
  | matched frame hf due hashed read hash rx => exact one hf rx ⟨id, .inl fun _ => id⟩
  | accept frame hf atRename renamed rx => exact one hf rx ⟨id, .inl fun _ => id⟩
  | finish frame rx => exact same rx

/-- Whatever says nothing about the acceptance of a file describes the files as they are. -/
theorem WriterEffect.report (h : WriterEffect sha io t fs t' fs' out) {e : RxEvent} (told : e ∈ out)
    (notBad : ∀ index reason, e ≠ .fileBad index reason) (notOk : ∀ index, e ≠ .fileOk index)
    (notDone : e ≠ .allDone) : Report t e := by
  cases h with
  | quiet _ _ _ _ reports => exact reports _ told
  | write => cases told
  | writeFail _ _ _ _ _ _ reports => exact reports _ told
  | expect => cases told
  | hashLeft _ _ _ _ _ _ _ reports => exact reports _ told
  | reject => exact absurd (List.mem_singleton.mp told) (notBad _ _)
  | matched => cases told
  | accept => exact absurd (List.mem_singleton.mp told) (notOk _)
  | finish _ _ _ _ _ reports =>
    obtain told | told := List.mem_append.mp told
    · exact reports _ told
    · exact absurd (List.mem_singleton.mp told) notDone

/-- The SACKs a step sends describe files as they are. -/
theorem WriterEffect.of_sack (h : WriterEffect sha io t fs t' fs' out) {wire : Bytes}
    (told : .sack wire ∈ out) : Report t (.sack wire) :=
  h.report told (by simp) (by simp) (by simp)

theorem Report.not_fileBad {e : RxEvent} (h : Report t e) (index : UInt16) (reason : Bytes) :
    e ≠ .fileBad index reason := by
  cases h <;> simp

/-- A file is reported as bad in a step of its own, and it was not verified. -/
theorem WriterEffect.of_fileBad (h : WriterEffect sha io t fs t' fs' out) {index : UInt16}
    {reason : Bytes} (told : .fileBad index reason ∈ out) :
    out = [.fileBad index reason] ∧
      ∃ (j : Nat) (f : FileRx), t.rx[j]? = some f ∧ f.index = index ∧ f.verified = false := by
  cases h with
  | quiet _ _ _ _ reports => exact absurd rfl ((reports _ told).not_fileBad index reason)
  | write => cases told
  | writeFail _ _ _ _ _ _ reports => exact absurd rfl ((reports _ told).not_fileBad index reason)
  | expect => cases told
  | hashLeft _ _ _ _ _ _ _ reports => exact absurd rfl ((reports _ told).not_fileBad index reason)
  | reject frame hf due =>
    cases List.mem_singleton.mp told
    exact ⟨rfl, _, _, hf, rfl, due.verified⟩
  | matched => cases told
  | accept => cases List.mem_singleton.mp told
  | finish _ _ _ _ _ reports =>
    obtain told | told := List.mem_append.mp told
    · exact absurd rfl ((reports _ told).not_fileBad index reason)
    · cases List.mem_singleton.mp told

/-! ## Only files with the announced hash are renamed -/

/-- `announced i h` says that the sender has announced hash `h` for file `i`. -/
structure Hashing (sha : Bytes → Bytes) (announced : UInt16 → Bytes → Prop) (fs : Fs)
    (t : Receiver) : Prop where
  index : ∀ (i : Nat) (f : FileRx), t.rx[i]? = some f → f.index.toNat = i
  hashes : ∀ e ∈ t.hashes, announced e.1 e.2
  expected : ∀ f ∈ t.rx, f.expectedSha256 ≠ [] → announced f.index f.expectedSha256
  /-- What is about to be renamed has been hashed. -/
  atRename : ∀ (i : Nat) k (f : FileRx), t.pc = .rename i k → t.rx[i]? = some f → f.expectedSha256 ≠ [] ∧
    ∃ bytes, fs.read f.partPath = some bytes ∧ sha bytes = f.expectedSha256
  finished : t.finished = true → ∀ f ∈ t.rx, f.verified = true

variable {announced announced' : UInt16 → Bytes → Prop}

theorem Hashing.mono (inv : Hashing sha announced fs t)
    (more : ∀ i h, announced i h → announced' i h) : Hashing sha announced' fs t :=
  ⟨inv.index, fun e he => more _ _ (inv.hashes e he),
    fun f hf hne => more _ _ (inv.expected f hf hne), inv.atRename, inv.finished⟩

/-- Away from a rename, the file system does not matter. -/
theorem Hashing.elsewhere (inv : Hashing sha announced fs t) (hpc : ∀ i k, t.pc ≠ .rename i k) :
    Hashing sha announced fs' t :=
  ⟨inv.index, inv.hashes, inv.expected, fun i k _ h => absurd h (hpc i k), inv.finished⟩

theorem Hashing.step (inv : Hashing sha announced fs t)
    (h : WriterEffect sha io t fs t' fs' out) : Hashing sha announced fs' t' where
  index := by
    intro i f' hf'
    obtain ⟨f, hf, moved⟩ := h.file hf'
    rw [show f'.index = f.index from congrArg Prod.fst moved.fixed]
    exact inv.index i f hf
  hashes := fun e he => inv.hashes e (h.frame.hashes e he)
  expected := by
    intro f' hmem hne
    obtain ⟨j, hf'⟩ := List.mem_iff_getElem?.mp hmem
    obtain ⟨f, hf, moved⟩ := h.file hf'
    have hindex : f'.index = f.index := congrArg Prod.fst moved.fixed
    obtain heq | ⟨index, hj, hmem⟩ := moved.expected
    · rw [heq] at hne ⊢
      rw [hindex]
      exact inv.expected f (List.mem_of_getElem? hf) hne
    · have : f'.index = index := by
        rw [hindex]
        exact UInt16.toNat_inj.mp ((inv.index j f hf).trans hj.symm)
      rw [this]
      exact inv.hashes _ hmem
  atRename := by
    intro i k f' hpc hf'
    -- Only a hash that has matched leads to the rename.
    have left : (∀ i k, t'.pc ≠ .rename i k) → f'.expectedSha256 ≠ [] ∧
        ∃ bytes, fs'.read f'.partPath = some bytes ∧ sha bytes = f'.expectedSha256 :=
      fun hne => absurd hpc (hne i k)
    cases h with
    | quiet _ _ _ pc => exact left pc
    | write _ _ _ _ _ _ _ pc => exact left pc
    | writeFail _ _ _ _ _ pc => exact left (by simp [pc])
    | expect _ _ _ _ _ pc => exact left pc
    | hashLeft _ _ _ _ _ _ pc => exact left pc
    | reject _ _ _ _ _ _ _ pc => exact left pc
    | @matched _ i' f k' bytes frame hf due hashed read hash rx _ pc =>
      rw [pc] at hpc
      cases hpc
      obtain ⟨-, hcore⟩ | ⟨hne, -⟩ := file_of_cores_set hf rx hf'
      · have hpart := congrArg FileRx.partPath hcore
        have hexpected := congrArg FileRx.expectedSha256 hcore
        rw [show f'.expectedSha256 = f.expectedSha256 from hexpected,
          show f'.partPath = f.partPath from hpart]
        exact ⟨due.expected, bytes, read, hash⟩
      · exact absurd rfl hne
    | accept _ _ _ _ _ _ pc => exact left pc
    | finish _ _ _ _ pc => exact left (by simp [pc])
  finished := by
    intro hfin f' hmem
    obtain ⟨j, hf'⟩ := List.mem_iff_getElem?.mp hmem
    obtain ⟨f, hf, moved⟩ := h.file hf'
    refine moved.kept ?_
    obtain hfin | hall := h.of_finished hfin
    · exact inv.finished hfin f (List.mem_of_getElem? hf)
    · exact hall f (List.mem_of_getElem? hf)

/-- The file that is renamed in a step has the announced hash, before and after. -/
theorem Hashing.accepted (inv : Hashing sha announced fs t) {j : Nat} {f : FileRx}
    (h : Accepted io t fs fs' out j f) : ∃ bytes, fs.read f.partPath = some bytes ∧
      announced f.index (sha bytes) ∧ fs'.read f.finalPath = some bytes := by
  obtain ⟨k, hpc⟩ := h.atRename
  obtain ⟨hne, bytes, hread, hsha⟩ := inv.atRename j k f hpc h.file
  refine ⟨bytes, hread, ?_, ?_⟩
  · rw [hsha]
    exact inv.expected f (List.mem_of_getElem? h.file) hne
  · rw [FileSystem.read_rename h.renamed, hread]

/-- A call of another thread: it adds announced hashes, closes files, fills the queue. -/
structure Called (t t' : Receiver) : Prop where
  rx : t'.rx = t.rx ∨ t'.rx = t.rx.map fun f => { f with writer := none }
  pc : t'.pc = t.pc
  finished : t'.finished = t.finished

theorem Called.file (h : Called t t') {j : Nat} {f' : FileRx} (hf' : t'.rx[j]? = some f') :
    ∃ f writer, t.rx[j]? = some f ∧ f' = { f with writer := writer } := by
  obtain heq | heq := h.rx
  · exact ⟨f', f'.writer, heq ▸ hf', rfl⟩
  · rw [heq, List.getElem?_map] at hf'
    obtain ⟨f, hf, rfl⟩ := Option.map_eq_some_iff.mp hf'
    exact ⟨f, none, hf, rfl⟩

theorem Called.forward (h : Called t t') {j : Nat} {f : FileRx} (hf : t.rx[j]? = some f) :
    ∃ f', t'.rx[j]? = some f' ∧ f'.verified = f.verified := by
  obtain heq | heq := h.rx
  · exact ⟨f, heq ▸ hf, rfl⟩
  · exact ⟨{ f with writer := none }, by rw [heq, List.getElem?_map, hf]; rfl, rfl⟩

theorem Called.fixed (h : Called t t') : t'.rx.map FileRx.fixed = t.rx.map FileRx.fixed := by
  obtain heq | heq := h.rx
  · rw [heq]
  · rw [heq, List.map_map]
    rfl

theorem Hashing.called (inv : Hashing sha announced fs t) (h : Called t t')
    (hashes : ∀ e ∈ t'.hashes, announced e.1 e.2) : Hashing sha announced fs t' where
  index := by
    intro i f' hf'
    obtain ⟨f, writer, hf, rfl⟩ := h.file hf'
    exact inv.index i f hf
  hashes := hashes
  expected := by
    intro f' hmem
    obtain ⟨j, hf'⟩ := List.mem_iff_getElem?.mp hmem
    obtain ⟨f, writer, hf, rfl⟩ := h.file hf'
    exact inv.expected f (List.mem_of_getElem? hf)
  atRename := by
    intro i k f' hpc hf'
    rw [h.pc] at hpc
    obtain ⟨f, writer, hf, rfl⟩ := h.file hf'
    exact inv.atRename i k f hpc hf
  finished := by
    intro hfin f' hmem
    obtain ⟨j, hf'⟩ := List.mem_iff_getElem?.mp hmem
    have all := inv.finished (h.finished ▸ hfin)
    obtain ⟨f, writer, hf, rfl⟩ := h.file hf'
    exact all f (List.mem_of_getElem? hf)

theorem called_refl (t : Receiver) : Called t t := ⟨.inl rfl, rfl, rfl⟩

theorem called_requestStop (t : Receiver) : Called t t.requestStop := ⟨.inl rfl, rfl, rfl⟩

theorem called_closeWriters (t : Receiver) : Called t t.closeWriters := ⟨.inr rfl, rfl, rfl⟩

theorem called_onFileDone (t : Receiver) (index : UInt16) (hash : Bytes) :
    Called t (t.onFileDone index hash) := ⟨.inl rfl, rfl, rfl⟩

theorem called_onBlock (t : Receiver) (data : Bytes) :
    Called t (t.onBlock data) ∧ (t.onBlock data).hashes = t.hashes := by
  unfold onBlock
  split
  · exact ⟨called_refl t, rfl⟩
  · split
    · exact ⟨called_refl t, rfl⟩
    · split
      · exact ⟨called_refl t, rfl⟩
      · exact ⟨⟨.inl rfl, rfl, rfl⟩, rfl⟩

theorem mem_insertDone {index : UInt16} {hash : Bytes} {e : UInt16 × Bytes} :
    ∀ {l : List (UInt16 × Bytes)}, e ∈ insertDone index hash l → e = (index, hash) ∨ e ∈ l
  | [], h => .inl (List.mem_singleton.mp h)
  | (k, v) :: rest, h => by
    unfold insertDone at h
    split at h
    · exact (List.mem_cons.mp h)
    · split at h
      · exact (List.mem_cons.mp h).imp_right (List.mem_cons_of_mem _)
      · obtain h | h := List.mem_cons.mp h
        · exact .inr (h ▸ List.mem_cons_self)
        · exact (mem_insertDone h).imp_right (List.mem_cons_of_mem _)

theorem hashes_onFileDone {index : UInt16} {hash : Bytes} {e : UInt16 × Bytes}
    (h : e ∈ (t.onFileDone index hash).hashes) : e = (index, hash) ∨ e ∈ t.hashes := by
  obtain h | h := List.mem_append.mp h
  · exact (mem_insertDone h).imp_right (List.mem_append_left _)
  · exact .inr (List.mem_append_right _ h)

end Receiver

end CrossTransfer.Transfer
