import CrossTransfer.Library.Machine
import CrossTransfer.Transfer.ReceiverRun

/-! # The receiver engine as a machine

A run begins with a `Start` on some disk (`Launch`); from then on the steps of the writer thread and
the calls of the other threads come in any order (`machine`). `diskLog` is what a run does to part
files: opening them, writing to them, starting over. `BlockEffect` lists what one step does to
blocks; it looks closer at `HandleBatch` than `WriterEffect` and leaves out what it says of hashes
and of the owner.
-/

namespace CrossTransfer.Transfer

open CrossTransfer.Library
open Paths

/-! ## The machine -/

/-- The arguments of `Start`, the disk it finds and the outcomes of its file operations. -/
structure Launch where
  io : Receiver.StartIo
  manifest : Manifest
  saveDir : Path
  names : Names
  resume : List ReceiverFileState
  fs : Fs

/-- The engine and the disk. -/
structure RxState where
  engine : Receiver
  fs : Fs

/-- A step of the writer thread, or a call of another thread. -/
inductive ReceiverAct where
  | writer (io : Io)
  | block (wire : Bytes)
  | fileDone (index : UInt16) (sha : Bytes)
  | stop
  /-- `Stop`, after the join. -/
  | close
deriving DecidableEq, Repr

def Launch.start (l : Launch) : Fs × Receiver × Option Bytes :=
  Receiver.start l.io l.manifest l.saveDir l.names l.resume l.fs

/-- The engine after `Start`; its writer thread runs only if `Start` has succeeded. -/
def Launch.state (l : Launch) : RxState := ⟨l.start.2.1, l.start.1⟩

namespace RxState

def step (sha : Bytes → Bytes) (s : RxState) : ReceiverAct → Option (RxState × List RxEvent)
  | .writer io =>
    (s.engine.writerStep sha io s.fs).map fun r => (⟨r.1, r.2.1⟩, r.2.2)
  | .block wire => some ({ s with engine := s.engine.onBlock wire }, [])
  | .fileDone index hash => some ({ s with engine := s.engine.onFileDone index hash }, [])
  | .stop => some ({ s with engine := s.engine.requestStop }, [])
  | .close =>
    if s.engine.stop && s.engine.pc == .exited then
      some ({ s with engine := s.engine.closeWriters }, [])
    else none

/-- The runs from the state `s` on. -/
def machine (sha : Bytes → Bytes) (s : RxState) : Machine RxState ReceiverAct where
  init := s
  step s a := (s.step sha a).map (·.1)

end RxState

/-! ## What happens to the part files -/

inductive DiskEvent where
  /-- The file `inode` is open as the part file of `file`. -/
  | opened (file inode : Nat)
  /-- `file` starts over. -/
  | reset (file : Nat)
  | wrote (file inode offset : Nat) (data : Bytes)
deriving DecidableEq, Repr

/-- The rest of the batch. -/
def WriterCont.pending : WriterCont → List Pending
  | .batch rest _ _ => rest
  | .dones _ _ => []

/-- The blocks of the batch that have not been looked at. -/
def WriterPc.pending : WriterPc → List Pending
  | .batch rest _ _ _ => rest
  | .sack _ _ k => k.pending
  | .verify _ k => k.pending
  | .rename _ k => k.pending
  | _ => []

/-- The run that is being collected. -/
def WriterPc.run : WriterPc → Option BlockRun
  | .batch _ run _ _ => run
  | _ => none

@[simp] theorem WriterCont.toPc_pending (k : WriterCont) : k.toPc.pending = k.pending := by
  cases k <;> rfl

@[simp] theorem WriterCont.toPc_run (k : WriterCont) : k.toPc.run = none := by
  cases k <;> rfl

namespace Receiver

variable (t : Receiver)

/-- The blocks that have arrived and have not been looked at. -/
def arrived : List Pending := t.queue ++ t.pc.pending

/-- The run that a step inside `HandleBatch` flushes. -/
def flushedRun (rest : List Pending) (run : Option BlockRun) : Option BlockRun :=
  match rest with
  | [] => run
  | p :: _ =>
    match run.filter (!contiguous · p) with
    | some run => some run
    | none =>
      if (t.acceptBlock p).2 && decide (2 ^ 20 ≤ (extendRun run p).data.length) then
        some (extendRun run p)
      else none

/-- What flushing a run writes. -/
def written (io : Io) (run : BlockRun) : List DiskEvent :=
  match (t.rx[run.file.toNat]?).bind (·.writer) with
  | some (some inode) =>
    [.wrote run.file.toNat inode (run.first.toNat * kBlockPayloadSize)
      (if io.ok then run.data else run.data.take io.written)]
  | _ => []

/-- The part file of file `i`, if it is open. -/
def opened (i : Nat) : List DiskEvent :=
  match (t.rx[i]?).bind (·.writer) with
  | some (some inode) => [.opened i inode]
  | _ => []

/-- The events of a step that verifies file `i`, by what it tells the owner. -/
def startedOver (i : Nat) : List RxEvent → List DiskEvent
  | [.fileBad _ _] => .reset i :: t.opened i
  | _ => []

/-- What a step of the writer thread to the state `t'` does to the part files. -/
def diskEvents (io : Io) (t' : Receiver) (out : List RxEvent) : List DiskEvent :=
  match t.pc with
  | .batch rest run _ _ => ((t.flushedRun rest run).map (t.written io)).getD []
  | .verify i _ => t'.startedOver i out
  | _ => []

end Receiver

namespace RxState

def diskEvents (sha : Bytes → Bytes) (s : RxState) : ReceiverAct → List DiskEvent
  | .writer io =>
    ((s.engine.writerStep sha io s.fs).map fun r => s.engine.diskEvents io r.1 r.2.2).getD []
  | _ => []

end RxState

/-- What a run has done to the part files, and `Start` before it. -/
def Launch.diskLog (l : Launch) (sha : Bytes → Bytes) (as : List ReceiverAct) : List DiskEvent :=
  (List.range l.state.engine.rx.length).flatMap l.state.engine.opened ++
    (l.state.machine sha).collect (RxState.diskEvents sha) as l.state

/-! ## What a step does to blocks -/

/-- `AcceptBlock` takes the block, and it is new. -/
structure Fresh (f : FileRx) (p : Pending) : Prop where
  verified : f.verified = false
  inside : p.block < f.blocks
  len : p.len = blockLenFor f.size p.block
  missing : f.bitmap.test p.block.toNat = false

namespace Receiver

variable {t t' u : Receiver} {fs fs' : Fs} {sha : Bytes → Bytes} {io : Io} {out : List RxEvent}

/-- The next block of the batch joins the run that is being collected. -/
structure Joins (t : Receiver) (f : FileRx) (p : Pending) : Prop where
  pending : p ∈ t.pc.pending
  file : t.rx[p.file.toNat]? = some f
  fresh : Fresh f p
  contiguous : ∀ run, t.pc.run = some run → contiguous run p = true

/-- The runs that a step may flush. -/
inductive Flushes (t : Receiver) : BlockRun → Prop where
  | collected {run : BlockRun} (collected : t.pc.run = some run) : Flushes t run
  /-- The run has become as long as runs get. -/
  | long {f : FileRx} {p : Pending} (joins : Joins t f p) : Flushes t (extendRun t.pc.run p)

/-- The part file has been opened again after a hash mismatch, or not. -/
inductive Reopens (io : Io) (fs : Fs) (f : FileRx) : Fs → Option (Option Nat) → Prop where
  | empty (blocks : f.blocks = 0) : Reopens io fs f fs none
  | refused (blocks : f.blocks ≠ 0) (refused : fs.openWrite f.partPath io.reopenOk = none) :
      Reopens io fs f fs (some none)
  | done {fs' : Fs} {inode : Nat} (blocks : f.blocks ≠ 0)
      (file : fs.openWrite f.partPath io.reopenOk = some (fs', inode)) :
      Reopens io fs f fs' (some (some inode))

/-- The effects of a step of the writer thread on blocks and part files. -/
inductive BlockEffect (io : Io) (t : Receiver) (fs : Fs) :
    Receiver → Fs → List DiskEvent → Prop where
  | quiet {t' : Receiver} (rx : t'.cores = t.cores) (run : t'.pc.run = none ∨ t'.pc.run = t.pc.run)
      (bytes : t'.bytesReceived = t.bytesReceived) :
      BlockEffect io t fs t' fs []
  /-- A block joins the run. -/
  | take {t' : Receiver} {f : FileRx} {p : Pending} (joins : Joins t f p) (rx : t'.cores = t.cores)
      (run : t'.pc.run = some (extendRun t.pc.run p)) (bytes : t'.bytesReceived = t.bytesReceived) :
      BlockEffect io t fs t' fs []
  /-- A run is written and its blocks are marked. -/
  | write {t' : Receiver} {run : BlockRun} {f : FileRx} {inode : Nat} (flushes : Flushes t run)
      (hf : t.rx[run.file.toNat]? = some f) (writer : f.writer = some (some inode))
      (rx : t'.cores = t.cores.set run.file.toNat (markRun f run).core) (none : t'.pc.run = none)
      (bytes : t'.bytesReceived = t.bytesReceived + UInt64.ofNat run.data.length) :
      BlockEffect io t fs t' (fs.writeAt inode (run.first.toNat * kBlockPayloadSize) run.data)
        [.wrote run.file.toNat inode (run.first.toNat * kBlockPayloadSize) run.data]
  /-- A write fails after some bytes. -/
  | writeFail {t' : Receiver} {run : BlockRun} {f : FileRx} {inode : Nat} (flushes : Flushes t run)
      (hf : t.rx[run.file.toNat]? = some f) (writer : f.writer = some (some inode))
      (ok : io.ok = false) (rx : t'.cores = t.cores) (pc : t'.pc = .exited)
      (bytes : t'.bytesReceived = t.bytesReceived) :
      BlockEffect io t fs t'
        (fs.writeAt inode (run.first.toNat * kBlockPayloadSize) (run.data.take io.written))
        [.wrote run.file.toNat inode (run.first.toNat * kBlockPayloadSize)
          (run.data.take io.written)]
  /-- There is no open part file to write to. -/
  | closed {t' : Receiver} {run : BlockRun} {f : FileRx} (flushes : Flushes t run)
      (hf : t.rx[run.file.toNat]? = some f) (writer : ∀ inode, f.writer ≠ some (some inode))
      (rx : t'.cores = t.cores) (pc : t'.pc = .exited) (bytes : t'.bytesReceived = t.bytesReceived) :
      BlockEffect io t fs t' fs []
  /-- An announced hash is stored with its file. -/
  | expect {t' : Receiver} {i : Nat} {f : FileRx} {hash : Bytes} (hf : t.rx[i]? = some f)
      (rx : t'.cores = t.cores.set i { f with expectedSha256 := hash }.core)
      (none : t'.pc.run = none) (bytes : t'.bytesReceived = t.bytesReceived) :
      BlockEffect io t fs t' fs []
  /-- A file is closed and hashed, and its hash is not wrong. -/
  | hash {t' : Receiver} {fs' : Fs} {i : Nat} {f : FileRx} {verifying : Bool} (hf : t.rx[i]? = some f)
      (due : Due f) (hashed : Hashed io fs f fs')
      (rx : t'.cores = t.cores.set i { f with writer := none, verifying := verifying }.core)
      (none : t'.pc.run = none) (bytes : t'.bytesReceived = t.bytesReceived) :
      BlockEffect io t fs t' fs' []
  /-- The hash is wrong: the file starts over. -/
  | reset {t' : Receiver} {fs' fs'' : Fs} {i : Nat} {f : FileRx} {writer : Option (Option Nat)}
      (hf : t.rx[i]? = some f) (due : Due f) (hashed : Hashed io fs f fs')
      (reopens : Reopens io fs' f fs'' writer) (rx : t'.cores = t.cores.set i (resetFile f writer).core)
      (none : t'.pc.run = none)
      (bytes : t'.bytesReceived = t.bytesReceived - min t.bytesReceived (bitmapBytes f)) :
      BlockEffect io t fs t' fs'' (.reset i :: t'.opened i)
  /-- The part file takes its final name. -/
  | accept {t' : Receiver} {fs' : Fs} {i : Nat} {f : FileRx} {k : WriterCont} (hf : t.rx[i]? = some f)
      (atRename : t.pc = .rename i k) (renamed : fs.rename f.partPath f.finalPath io.ok = some fs')
      (rx : t'.cores = t.cores.set i { f with verified := true, verifying := false }.core)
      (none : t'.pc.run = none) (bytes : t'.bytesReceived = t.bytesReceived) :
      BlockEffect io t fs t' fs' []

/-! ## The step of the batch -/

theorem acceptFile_fresh {f f' : FileRx} {p : Pending} (h : acceptFile f p = some (f', true)) :
    Fresh f p := by
  unfold acceptFile at h
  split at h
  · cases h
  · rename_i haccepts
    split at h
    · cases h
    · rename_i hlen
      obtain ⟨-, hmissing⟩ := Prod.mk.inj (Option.some.inj h)
      simp only [Bool.or_eq_true, decide_eq_true_eq, not_or, Bool.not_eq_true,
        UInt32.not_le] at haccepts
      refine ⟨haccepts.1.1, haccepts.2, not_not.mp hlen, ?_⟩
      split at hmissing <;> simpa using hmissing

theorem acceptBlock_fresh {p : Pending} (h : (t.acceptBlock p).2 = true) :
    ∃ f, t.rx[p.file.toNat]? = some f ∧ Fresh f p := by
  unfold acceptBlock at h
  split at h
  · cases h
  · rename_i f hf
    split at h
    · cases h
    · rename_i f' fresh hacc
      obtain rfl : fresh = true := h
      exact ⟨f, hf, acceptFile_fresh hacc⟩

/-- Bookkeeping does not change which part files are open. -/
theorem Book.written (h : Book t u) (io : Io) (run : BlockRun) : u.written io run = t.written io run := by
  have hwriter : ∀ i : Nat, (u.rx[i]?).bind (·.writer) = (t.rx[i]?).bind (·.writer) := by
    intro i
    have hcore : ∀ x : Option FileRx, x.bind (·.writer) = (x.map FileRx.core).bind (·.writer) := by
      intro x
      cases x <;> rfl
    rw [hcore, hcore (t.rx[i]?), ← cores_getElem?, ← cores_getElem?, h.cores]
  rw [Receiver.written, Receiver.written, hwriter]

theorem uncached_set (b : BlockBitmap) (i : Nat) :
    (b.set i).1.uncached = (b.uncached.set i).1.uncached := by
  unfold BlockBitmap.set
  by_cases hi : i < b.size
  · by_cases hfresh : wordBit b.words i = false
    · simp [BlockBitmap.uncached, hi, hfresh]
    · simp [BlockBitmap.uncached, hi, hfresh]
  · simp [BlockBitmap.uncached, hi]

theorem uncached_setBlocks (blocks : List UInt32) {b c : BlockBitmap} (h : b.uncached = c.uncached) :
    (setBlocks b blocks).uncached = (setBlocks c blocks).uncached := by
  induction blocks generalizing b c with
  | nil => exact h
  | cons i rest ih =>
    refine ih ?_
    rw [uncached_set, uncached_set c, h]

theorem core_markRun {f g : FileRx} (h : f.core = g.core) (run : BlockRun) :
    (markRun f run).core = (markRun g run).core := by
  have hbitmap : f.bitmap.uncached = g.bitmap.uncached := congrArg FileRx.bitmap h
  have hmarked := uncached_setBlocks run.blocks hbitmap
  have hcomplete : (setBlocks f.bitmap run.blocks).complete = (setBlocks g.bitmap run.blocks).complete := by
    have := congrArg BlockBitmap.complete hmarked
    exact this
  have hflag : f.complete = g.complete := by
    have := congrArg FileRx.complete h
    exact this
  have hmark : ∀ f : FileRx, (markRun f run).core = { f.core with
      bitmap := (setBlocks f.bitmap run.blocks).uncached
      complete := f.complete || (setBlocks f.bitmap run.blocks).complete } := fun _ => rfl
  rw [hmark, hmark g, h, hmarked, hcomplete, hflag]

theorem flushRun_blocks (book : Book t u) {run : BlockRun} {now : UInt32} {k : WriterCont}
    (flushes : Flushes t run) (h : u.flushRun io run now k fs = (t', fs', out)) :
    BlockEffect io t fs t' fs' (t.written io run) := by
  unfold flushRun at h
  split at h
  · rename_i hnone
    cases h
    have hwritten : t.written io run = [] := by rw [← book.written, written, hnone, Option.bind_none]
    rw [hwritten]
    exact .quiet book.cores (.inl k.toPc_run) book.bytes
  · rename_i f hf
    obtain ⟨g, hg, hcore⟩ := book.file hf
    obtain ⟨bookFail, -⟩ := book_fail u (ascii "io")
      (ascii "write failed: " ++ f.finalPath.getLast?.getD [])
    have hwriter := congrArg FileRx.writer hcore
    have events : ∀ inode, f.writer = some (some inode) → t.written io run =
        [.wrote run.file.toNat inode (run.first.toNat * kBlockPayloadSize)
          (if io.ok then run.data else run.data.take io.written)] := by
      intro inode hinode
      rw [← book.written, written, hf, Option.bind_some, hinode]
    simp only at h
    split at h
    · rename_i inode hinode
      rw [events inode hinode]
      split at h
      · rename_i hok
        cases h
        rw [if_pos hok]
        refine .write flushes hg (hwriter.symm.trans hinode) ?_ ?_ (book.bytes ▸ rfl)
        · rw [← core_markRun hcore, ← book.cores]
          exact List.map_set ..
        · dsimp only
          split
          · rfl
          · exact k.toPc_run
      · rename_i hok
        cases h
        rw [if_neg hok]
        exact .writeFail flushes hg (hwriter.symm.trans hinode) (by simpa using hok)
          (book.trans bookFail).cores rfl (book.trans bookFail).bytes
    · rename_i hclosed
      cases h
      have hwritten : t.written io run = [] := by
        rw [← book.written, written, hf, Option.bind_some]
        split
        · rename_i inode hinode
          exact absurd hinode (hclosed inode)
        · rfl
      rw [hwritten]
      exact .closed flushes hg (fun inode hinode => hclosed inode (hwriter.trans hinode))
        (book.trans bookFail).cores rfl (book.trans bookFail).bytes

/-- The next block does not continue the run. -/
theorem flushedRun_cut {p : Pending} {rest : List Pending} {run : Option BlockRun} {r : BlockRun}
    (hr : run.filter (!contiguous · p) = some r) : t.flushedRun (p :: rest) run = some r := by
  rw [flushedRun, hr]

/-- The next block is looked at. -/
theorem flushedRun_goes {p : Pending} {rest : List Pending} {run : Option BlockRun}
    (hr : run.filter (!contiguous · p) = none) : t.flushedRun (p :: rest) run =
      if (t.acceptBlock p).2 && decide (2 ^ 20 ≤ (extendRun run p).data.length) then
        some (extendRun run p)
      else none := by
  rw [flushedRun, hr]

theorem batchStep_blocks {rest : List Pending} {run : Option BlockRun}
    {dones : List (UInt16 × Bytes)} {now : UInt32} (hpc : t.pc = .batch rest run dones now)
    (h : t.batchStep io rest run dones now fs = (t', fs', out)) :
    BlockEffect io t fs t' fs' (t.diskEvents io t' out) := by
  have hrun : t.pc.run = run := by rw [hpc]; rfl
  have hevents : t.diskEvents io t' out = ((t.flushedRun rest run).map (t.written io)).getD [] := by
    rw [diskEvents, hpc]
  rw [hevents]
  unfold batchStep at h
  split at h
  · exact flushRun_blocks (.refl t) (.collected hrun) h
  · cases h
    refine .quiet rfl (.inl ?_) rfl
    dsimp only
    split <;> rfl
  · rename_i p rest
    split at h
    · rename_i r hr
      rw [flushedRun_cut hr]
      refine flushRun_blocks (.refl t) (.collected ?_) h
      rw [hrun, (Option.filter_eq_some_iff.mp hr).1]
    · rename_i hr
      rw [flushedRun_goes hr]
      -- What does not continue the run has been cut off before.
      have contiguous : ∀ r, t.pc.run = some r → Receiver.contiguous r p = true := by
        intro r heq
        rw [hrun] at heq
        simpa [heq] using hr
      obtain ⟨book, -⟩ := book_acceptBlock t p
      simp only at h
      split at h
      · rename_i hfresh
        cases h
        have hstale : (t.acceptBlock p).2 = false := by simpa using hfresh
        rw [hstale]
        exact .quiet book.cores (.inr hrun.symm) book.bytes
      · rename_i hfresh
        have hnew : (t.acceptBlock p).2 = true := by simpa using hfresh
        obtain ⟨f, hf, fresh⟩ := acceptBlock_fresh hnew
        have joins : Joins t f p := ⟨by rw [hpc]; exact List.mem_cons_self, hf, fresh, contiguous⟩
        split at h
        · rename_i hlong
          have hdue : ((t.acceptBlock p).2 && decide (2 ^ 20 ≤ (extendRun run p).data.length)) = true := by
            rw [hnew, decide_eq_true hlong]
            rfl
          rw [if_pos hdue]
          exact flushRun_blocks book (hrun ▸ .long joins) h
        · rename_i hshort
          cases h
          have hdue : ¬((t.acceptBlock p).2 && decide (2 ^ 20 ≤ (extendRun run p).data.length)) = true := by
            rw [decide_eq_false hshort, Bool.and_false]
            exact Bool.false_ne_true
          rw [if_neg hdue]
          exact .take joins book.cores (by rw [hrun]; rfl) book.bytes

/-! ## Verification -/

/-- The disk after a part file has been hashed, and the bytes that were hashed. -/
def hashFile (io : Io) (fs : Fs) (f : FileRx) : Option (Fs × Bytes) :=
  if f.blocks = 0 then (fs.createEmpty f.partPath io.ok).map (·, [])
  else if io.ok then (fs.read f.partPath).map (fs, ·) else none

/-- The part file once it has been opened again, and the new writer. -/
def reopen (io : Io) (fs : Fs) (f : FileRx) : Fs × Option (Option Nat) :=
  if f.blocks = 0 then (fs, none)
  else
    match fs.openWrite f.partPath io.reopenOk with
    | some (fs, inode) => (fs, some (some inode))
    | none => (fs, some none)

theorem due_iff {f : FileRx} :
    Due f ↔ (f.verified || f.verifying || !f.complete || f.expectedSha256.isEmpty) = false := by
  simp only [Bool.or_eq_false_iff, Bool.not_eq_false', List.isEmpty_eq_false_iff]
  exact ⟨fun due => ⟨⟨⟨due.verified, due.verifying⟩, due.complete⟩, due.expected⟩,
    fun h => ⟨h.1.1.1, h.1.1.2, h.1.2, h.2⟩⟩

section Verify

variable {i : Nat} {k : WriterCont} {f : FileRx} {bytes : Bytes}

theorem verify_idle (idle : ∀ f, t.rx[i]? = some f → ¬Due f) :
    t.verify sha io i k fs = ({ t with pc := k.toPc }, fs, []) := by
  unfold verify
  split
  · rfl
  · rename_i f hf
    exact if_pos (Bool.eq_true_of_not_eq_false (mt due_iff.mpr (idle f hf)))

theorem verify_stopped (hf : t.rx[i]? = some f) (due : Due f) (stop : t.stop = true) :
    t.verify sha io i k fs =
      ({ t.setFile i { f with verifying := false, writer := none } with pc := k.toPc },
        ((hashFile io fs f).map (·.1)).getD fs, []) := by
  simp only [verify, hf, due_iff.mp due, stop]
  rfl

theorem verify_unread (hf : t.rx[i]? = some f) (due : Due f) (stop : t.stop = false)
    (hashed : hashFile io fs f = none) :
    t.verify sha io i k fs =
      ({ ((t.setFile i { f with verifying := true, writer := none }).fail (ascii "io")
            (ascii "verify read failed")).1 with pc := k.toPc }, fs,
        ((t.setFile i { f with verifying := true, writer := none }).fail (ascii "io")
          (ascii "verify read failed")).2) := by
  unfold hashFile at hashed
  simp only [verify, hf, due_iff.mp due, stop, hashed]
  rfl

theorem verify_mismatch (hf : t.rx[i]? = some f) (due : Due f) (stop : t.stop = false)
    (hashed : hashFile io fs f = some (fs', bytes)) (wrong : sha bytes ≠ f.expectedSha256) :
    t.verify sha io i k fs =
      ({ t with
          rx := t.rx.set i (resetFile f (reopen io fs' f).2)
          bytesReceived := t.bytesReceived - min t.bytesReceived (bitmapBytes f)
          pc := k.toPc },
        (reopen io fs' f).1, [.fileBad f.index (ascii "sha256_mismatch")]) := by
  unfold hashFile at hashed
  simp only [verify, hf, due_iff.mp due, stop, hashed]
  simp only [Option.map_some, Option.getD_some, ne_eq, wrong, not_false_eq_true, if_true]
  rfl

theorem verify_matched (hf : t.rx[i]? = some f) (due : Due f) (stop : t.stop = false)
    (hashed : hashFile io fs f = some (fs', bytes)) (right : sha bytes = f.expectedSha256) :
    t.verify sha io i k fs =
      ({ t.setFile i { f with verifying := true, writer := none } with pc := .rename i k }, fs',
        []) := by
  unfold hashFile at hashed
  simp only [verify, hf, due_iff.mp due, stop, hashed]
  simp [right]

theorem hashed_of_hashFile (io : Io) (fs : Fs) (f : FileRx) :
    Hashed io fs f (((hashFile io fs f).map (·.1)).getD fs) := by
  unfold hashFile
  split
  · rename_i hzero
    cases hc : fs.createEmpty f.partPath io.ok with
    | none => exact .inl rfl
    | some fs' => exact .inr ⟨hzero, hc⟩
  · split
    · cases fs.read f.partPath <;> exact .inl rfl
    · exact .inl rfl

theorem hashed_of_some (h : hashFile io fs f = some (fs', bytes)) : Hashed io fs f fs' := by
  have hashed := hashed_of_hashFile io fs f
  rw [h] at hashed
  exact hashed

theorem reopens_reopen (io : Io) (fs : Fs) (f : FileRx) :
    Reopens io fs f (reopen io fs f).1 (reopen io fs f).2 := by
  unfold reopen
  split
  · rename_i hzero
    exact .empty hzero
  · rename_i hblocks
    split
    · rename_i fs' inode hopen
      exact .done hblocks hopen
    · rename_i hrefused
      exact .refused hblocks hrefused

theorem startedOver_of_errors (h : ∀ e ∈ out, ∃ code message, e = .error code message) :
    t.startedOver i out = [] := by
  unfold startedOver
  split
  · obtain ⟨code, message, heq⟩ := h _ (List.mem_singleton_self _)
    cases heq
  · rfl

theorem verify_blocks (hpc : t.pc = .verify i k)
    (h : t.verify sha io i k fs = (t', fs', out)) :
    BlockEffect io t fs t' fs' (t.diskEvents io t' out) := by
  have events : t.diskEvents io t' out = t'.startedOver i out := by rw [diskEvents, hpc]
  rw [events]
  by_cases due : ∃ f, t.rx[i]? = some f ∧ Due f
  swap
  · rw [verify_idle fun f hf hdue => due ⟨f, hf, hdue⟩] at h
    cases h
    exact .quiet rfl (.inl k.toPc_run) rfl
  obtain ⟨f, hf, due⟩ := due
  cases hstop : t.stop with
  | true =>
    rw [verify_stopped hf due hstop] at h
    cases h
    exact .hash hf due (hashed_of_hashFile io fs f) (cores_set _) k.toPc_run rfl
  | false =>
    cases hashed : hashFile io fs f with
    | none =>
      rw [verify_unread hf due hstop hashed] at h
      cases h
      obtain ⟨book, -⟩ := book_fail (t.setFile i { f with verifying := true, writer := none })
        (ascii "io") (ascii "verify read failed")
      have cores := book.cores.trans (cores_set _)
      rw [startedOver_of_errors fun e he => ⟨_, _, mem_fail he⟩]
      exact .hash hf due (.inl rfl) cores k.toPc_run book.bytes
    | some hashing =>
      obtain ⟨mid, bytes⟩ := hashing
      by_cases right : sha bytes = f.expectedSha256
      · rw [verify_matched hf due hstop hashed right] at h
        cases h
        exact .hash hf due (hashed_of_some hashed) (cores_set _) rfl rfl
      · rw [verify_mismatch hf due hstop hashed right] at h
        cases h
        exact .reset hf due (hashed_of_some hashed) (reopens_reopen io mid f) (cores_set _)
          k.toPc_run rfl

theorem renameFile_blocks (hpc : t.pc = .rename i k)
    (h : t.renameFile io i k fs = (t', fs', out)) :
    BlockEffect io t fs t' fs' (t.diskEvents io t' out) := by
  have events : t.diskEvents io t' out = [] := by rw [diskEvents, hpc]
  rw [events]
  unfold renameFile at h
  split at h
  · cases h
    exact .quiet rfl (.inl k.toPc_run) rfl
  · rename_i f hf
    split at h
    · cases h
      obtain ⟨book, -⟩ := book_fail t (ascii "io") (ascii "rename failed: " ++ io.err)
      exact .quiet book.cores (.inl k.toPc_run) book.bytes
    · rename_i mid hrename
      cases h
      exact .accept hf hpc hrename (cores_set _) k.toPc_run rfl

end Verify

/-! ## Every step -/

/-- The end of a round is bookkeeping, after which the thread goes on or is done. -/
theorem book_tailStep {now : UInt32} (h : t.tailStep io now = some (t', out)) :
    ∃ u finished pc, Book t u ∧ t' = { u with finished := finished, pc := pc } ∧
      (pc = .top ∨ pc = .exited) := by
  have first := book_initiallyChecked t
  unfold tailStep at h
  simp only at h
  split at h
  · cases h
  · rename_i u sacks hsacks
    have book := first.trans (book_sendSacks hsacks).1
    split at h
    · cases h
    · rename_i v saved hsaved
      have book := (book.trans (book_updateRates u now)).trans (book_persist hsaved).1
      split at h
      · obtain ⟨⟨w, final⟩, hfinal, h⟩ := Option.map_eq_some_iff.mp h
        cases h
        exact ⟨w, true, .exited, book.trans (book_persist hfinal).1, rfl, .inr rfl⟩
      · cases h
        exact ⟨v, v.finished, .top, book, rfl, .inl rfl⟩

/-- Every step of the writer thread has one of the listed effects. -/
theorem writerStep_blocks (h : t.writerStep sha io fs = some (t', fs', out)) :
    BlockEffect io t fs t' fs' (t.diskEvents io t' out) := by
  have silent : (∀ rest run dones now, t.pc ≠ .batch rest run dones now) →
      (∀ i k, t.pc ≠ .verify i k) → t.diskEvents io t' out = [] := by
    intro hbatch hverify
    unfold diskEvents
    split
    · rename_i hpc
      exact absurd hpc (hbatch _ _ _ _)
    · rename_i hpc
      exact absurd hpc (hverify _ _)
    · rfl
  unfold writerStep at h
  split at h
  -- The loop condition; a stopped thread persists and leaves.
  case h_1 hpc =>
    rw [silent (by simp [hpc]) (by simp [hpc])]
    split at h
    · obtain ⟨⟨u, saved⟩, hsaved, h⟩ := Option.map_eq_some_iff.mp h
      cases h
      exact .quiet (book_persist hsaved).1.cores (.inl rfl) (book_persist hsaved).1.bytes
    · cases h
      exact .quiet rfl (.inl rfl) rfl
  -- The queue and the announced hashes are taken over.
  case h_2 hpc =>
    rw [silent (by simp [hpc]) (by simp [hpc])]
    cases h
    exact .quiet rfl (.inl rfl) rfl
  case h_3 rest run dones now hpc => exact batchStep_blocks hpc (Option.some.inj h)
  -- The SACK that follows a flushed run.
  case h_4 i now k hpc =>
    rw [silent (by simp [hpc]) (by simp [hpc])]
    obtain ⟨⟨u, sent⟩, hsent, h⟩ := Option.map_eq_some_iff.mp h
    cases h
    exact .quiet (book_sendSack hsent).1.cores (.inl rfl) (book_sendSack hsent).1.bytes
  case h_5 i k hpc => exact verify_blocks hpc (Option.some.inj h)
  case h_6 i k hpc => exact renameFile_blocks hpc (Option.some.inj h)
  -- No announced hash is left.
  case h_7 now hpc =>
    rw [silent (by simp [hpc]) (by simp [hpc])]
    cases h
    exact .quiet rfl (.inl rfl) rfl
  -- An announced hash, for a file that may not exist.
  case h_8 index hash rest now hpc =>
    rw [silent (by simp [hpc]) (by simp [hpc])]
    split at h
    · cases h
      exact .quiet rfl (.inl rfl) rfl
    · rename_i f hf
      cases h
      exact .expect hf (cores_set { f with expectedSha256 := hash }) rfl rfl
  -- The rest of the round.
  case h_9 now hpc =>
    rw [silent (by simp [hpc]) (by simp [hpc])]
    obtain ⟨⟨u, sent⟩, htail, h⟩ := Option.map_eq_some_iff.mp h
    cases h
    obtain ⟨v, finished, pc, book, rfl, hpc⟩ := book_tailStep htail
    refine .quiet book.cores (.inl ?_) book.bytes
    obtain rfl | rfl := hpc <;> rfl
  case h_10 => cases h

/-! ## Blocks that wait -/

theorem pending_flushRun {run : BlockRun} {now : UInt32} {k : WriterCont}
    (h : t.flushRun io run now k fs = (t', fs', out)) :
    t'.queue = t.queue ∧ ∀ p ∈ t'.pc.pending, p ∈ k.pending := by
  unfold flushRun at h
  split at h
  · cases h
    exact ⟨rfl, by simp⟩
  · simp only at h
    split at h
    · split at h
      · cases h
        refine ⟨rfl, fun p hp => ?_⟩
        dsimp only at hp
        split at hp
        · exact hp
        · simpa using hp
      · cases h
        exact ⟨(book_fail ..).1.queue, by simp [WriterPc.pending]⟩
    · cases h
      exact ⟨(book_fail ..).1.queue, by simp [WriterPc.pending]⟩

theorem pending_batchStep {rest : List Pending} {run : Option BlockRun}
    {dones : List (UInt16 × Bytes)} {now : UInt32}
    (h : t.batchStep io rest run dones now fs = (t', fs', out)) :
    t'.queue = t.queue ∧ ∀ p ∈ t'.pc.pending, p ∈ rest := by
  unfold batchStep at h
  split at h
  · exact pending_flushRun h
  · cases h
    refine ⟨rfl, fun p hp => ?_⟩
    dsimp only at hp
    split at hp <;> cases hp
  · split at h
    · exact pending_flushRun h
    · simp only at h
      split at h
      · cases h
        exact ⟨(book_acceptBlock ..).1.queue, fun p hp => List.mem_cons_of_mem _ hp⟩
      · split at h
        · obtain ⟨hqueue, hpending⟩ := pending_flushRun h
          exact ⟨hqueue.trans (book_acceptBlock ..).1.queue, fun p hp => List.mem_cons_of_mem _ (hpending p hp)⟩
        · cases h
          exact ⟨(book_acceptBlock ..).1.queue, fun p hp => List.mem_cons_of_mem _ hp⟩

theorem pending_verify {i : Nat} {k : WriterCont} (h : t.verify sha io i k fs = (t', fs', out)) :
    t'.queue = t.queue ∧ t'.pc.pending = k.pending := by
  by_cases due : ∃ f, t.rx[i]? = some f ∧ Due f
  swap
  · rw [verify_idle fun f hf hdue => due ⟨f, hf, hdue⟩] at h
    cases h
    exact ⟨rfl, k.toPc_pending⟩
  obtain ⟨f, hf, due⟩ := due
  cases hstop : t.stop with
  | true =>
    rw [verify_stopped hf due hstop] at h
    cases h
    exact ⟨rfl, k.toPc_pending⟩
  | false =>
    cases hashed : hashFile io fs f with
    | none =>
      rw [verify_unread hf due hstop hashed] at h
      cases h
      exact ⟨(book_fail ..).1.queue, k.toPc_pending⟩
    | some hashing =>
      by_cases right : sha hashing.2 = f.expectedSha256
      · rw [verify_matched hf due hstop hashed right] at h
        cases h
        exact ⟨rfl, rfl⟩
      · rw [verify_mismatch hf due hstop hashed right] at h
        cases h
        exact ⟨rfl, k.toPc_pending⟩

theorem pending_renameFile {i : Nat} {k : WriterCont}
    (h : t.renameFile io i k fs = (t', fs', out)) :
    t'.queue = t.queue ∧ t'.pc.pending = k.pending := by
  unfold renameFile at h
  split at h
  · cases h
    exact ⟨rfl, k.toPc_pending⟩
  · split at h
    · cases h
      exact ⟨(book_fail ..).1.queue, k.toPc_pending⟩
    · cases h
      exact ⟨rfl, k.toPc_pending⟩

/-- A step of the writer thread adds no block. -/
theorem writerStep_arrived (h : t.writerStep sha io fs = some (t', fs', out)) :
    ∀ p ∈ t'.arrived, p ∈ t.arrived := by
  have within : t'.queue = t.queue → (∀ p ∈ t'.pc.pending, p ∈ t.pc.pending) →
      ∀ p ∈ t'.arrived, p ∈ t.arrived := by
    intro hqueue hpending p hp
    rw [arrived, hqueue] at hp
    exact List.mem_append.mpr ((List.mem_append.mp hp).imp_right (hpending p))
  unfold writerStep at h
  split at h
  -- The loop condition; a stopped thread persists and leaves.
  case h_1 hpc =>
    split at h
    · obtain ⟨⟨u, saved⟩, hsaved, h⟩ := Option.map_eq_some_iff.mp h
      cases h
      have hqueue := (book_persist hsaved).1.queue
      exact within hqueue (by simp [WriterPc.pending])
    · cases h
      exact within rfl (by simp [WriterPc.pending])
  -- The queue and the announced hashes are taken over.
  case h_2 hpc =>
    -- The queue becomes the batch.
    cases h
    exact fun p hp => List.mem_append_left _ (by simpa [arrived, WriterPc.pending] using hp)
  case h_3 rest run dones now hpc =>
    obtain ⟨hqueue, hpending⟩ := pending_batchStep (Option.some.inj h)
    exact within hqueue (by rw [hpc]; exact hpending)
  -- The SACK that follows a flushed run.
  case h_4 i now k hpc =>
    obtain ⟨⟨u, sent⟩, hsent, h⟩ := Option.map_eq_some_iff.mp h
    cases h
    have hqueue := (book_sendSack hsent).1.queue
    exact within hqueue (by rw [hpc]; exact fun p hp => hp)
  case h_5 i k hpc =>
    obtain ⟨hqueue, hpending⟩ := pending_verify (Option.some.inj h)
    exact within hqueue (by rw [hpending, hpc]; exact fun p hp => hp)
  case h_6 i k hpc =>
    obtain ⟨hqueue, hpending⟩ := pending_renameFile (Option.some.inj h)
    exact within hqueue (by rw [hpending, hpc]; exact fun p hp => hp)
  -- No announced hash is left.
  case h_7 now hpc =>
    cases h
    exact within rfl (by simp [WriterPc.pending])
  -- An announced hash, for a file that may not exist.
  case h_8 index hash rest now hpc =>
    split at h
    · cases h
      exact within rfl (by simp [WriterPc.pending])
    · cases h
      exact within rfl (by simp [WriterPc.pending, WriterCont.pending])
  -- The rest of the round.
  case h_9 now hpc =>
    obtain ⟨⟨u, sent⟩, htail, h⟩ := Option.map_eq_some_iff.mp h
    cases h
    obtain ⟨v, finished, pc, book, rfl, hpc⟩ := book_tailStep htail
    refine within book.queue ?_
    obtain rfl | rfl := hpc <;> simp [WriterPc.pending]
  case h_10 => cases h

end Receiver

/-! ## Calls of other threads -/

/-- A call of another thread leaves the disk alone; only `OnFileDone` announces a hash. -/
theorem called_of_step {sha : Bytes → Bytes} {s s' : RxState} {a : ReceiverAct} {out : List RxEvent}
    (h : s.step sha a = some (s', out)) (other : ∀ io, a ≠ .writer io) :
    Receiver.Called s.engine s'.engine ∧ s'.fs = s.fs ∧ s.diskEvents sha a = [] ∧
      ∀ e ∈ s'.engine.hashes, e ∈ s.engine.hashes ∨ a = .fileDone e.1 e.2 := by
  cases a with
  | writer io => exact absurd rfl (other io)
  | block wire =>
    cases h
    obtain ⟨called, hhashes⟩ := Receiver.called_onBlock s.engine wire
    exact ⟨called, rfl, rfl, fun e he => .inl (hhashes ▸ he)⟩
  | fileDone index hash =>
    cases h
    refine ⟨Receiver.called_onFileDone _ index hash, rfl, rfl, fun e he => ?_⟩
    obtain rfl | he := Receiver.hashes_onFileDone he
    · exact .inr rfl
    · exact .inl he
  | stop =>
    cases h
    exact ⟨Receiver.called_requestStop _, rfl, rfl, fun e he => .inl he⟩
  | close =>
    rw [RxState.step] at h
    split at h
    · cases h
      exact ⟨Receiver.called_closeWriters _, rfl, rfl, fun e he => .inl he⟩
    · cases h

end CrossTransfer.Transfer
