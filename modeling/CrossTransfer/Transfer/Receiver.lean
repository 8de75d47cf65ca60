import Mathlib.Data.List.DropRight
import CrossTransfer.Library.FileSystem
import CrossTransfer.Transfer.BitmapRuns
import CrossTransfer.Transfer.ReceivePaths

/-! # The block protocol receiver

`core/src/transfer/receiver.{h,cpp}`. `Receiver` is a `ReceiverTransfer` together with the
program counter of its writer thread; `writerStep` is one step of that thread. A step does at
most one file operation, and the steps of the other threads (`onBlock`, `onFileDone`, `Stop`)
can come between any two of them. What a step hands to its owner, a SACK datagram or a
callback, is an `RxEvent`.

The outcome of file operations and the clock are inputs of a step (`Io`). A step that does
not return, because a scan of the bitmap does not, is `none`.
-/

namespace CrossTransfer.Transfer

open CrossTransfer.Library
open Paths
open BlockBitmap (scanFuel)

abbrev Fs := FileSystem Name

def kPersistIntervalMs : UInt32 := 2000
def kRateWindowMs : UInt32 := 500
def kCompleteSackRepeats : UInt32 := 5
def kMaxQueueBytes : Nat := 64 * 1024 * 1024

/-! ## Data -/

/-- Per-file persistent state. -/
structure ReceiverFileState where
  index : UInt16
  /-- The received runs. -/
  runs : List SackRun
  verified : Bool
deriving DecidableEq, Repr

structure FileRx where
  index : UInt16
  size : UInt64
  blocks : UInt32
  partPath : Path
  finalPath : Path
  bitmap : BlockBitmap
  /-- `none` is a null pointer, `some none` a `FileWriter` whose `Open` failed. -/
  writer : Option (Option Nat) := none
  /-- From `file_done`. -/
  expectedSha256 : Bytes := []
  complete : Bool := false
  verified : Bool := false
  verifying : Bool := false
  dirty : Bool := false
  lastSackMs : UInt32 := 0
  receivedSinceSack : UInt32 := 0
  expectedSinceSack : UInt32 := 0
  frontier : UInt32 := 0
  completeSacksSent : UInt32 := 0

/-- A block on its way from the transport thread to the writer thread. -/
structure Pending where
  file : UInt16
  block : UInt32
  len : UInt16
  payload : Bytes
deriving DecidableEq, Repr

/-- The run of contiguous fresh blocks `HandleBatch` is collecting. -/
structure BlockRun where
  file : UInt16
  first : UInt32
  data : Bytes
  blocks : List UInt32
deriving DecidableEq, Repr

/-- Where the writer thread goes on after a call: in the batch, whose run has been flushed, or
    in the list of announced hashes. -/
inductive WriterCont where
  | batch (rest : List Pending) (dones : List (UInt16 × Bytes)) (now : UInt32)
  | dones (rest : List (UInt16 × Bytes)) (now : UInt32)
deriving DecidableEq, Repr

/-- Where the writer thread is. -/
inductive WriterPc where
  /-- The loop condition. -/
  | top
  /-- Waiting for the queue. -/
  | waiting
  | batch (rest : List Pending) (run : Option BlockRun) (dones : List (UInt16 × Bytes))
      (now : UInt32)
  /-- `SendSack` at the end of `FlushRun`. -/
  | sack (file : Nat) (now : UInt32) (k : WriterCont)
  /-- `MaybeVerify`, up to the comparison of the hashes. -/
  | verify (file : Nat) (k : WriterCont)
  /-- `MaybeVerify`, from `RenameReplace` on. -/
  | rename (file : Nat) (k : WriterCont)
  | dones (rest : List (UInt16 × Bytes)) (now : UInt32)
  /-- The rest of the round: SACKs, rates, persistence. -/
  | tail (now : UInt32)
  | exited
deriving DecidableEq, Repr

def WriterCont.toPc : WriterCont → WriterPc
  | .batch rest hashes now => .batch rest none hashes now
  | .dones rest now => .dones rest now

structure Receiver where
  rx : List FileRx
  createdDirs : List Path
  pc : WriterPc
  stop : Bool := false
  finished : Bool := false
  failed : Bool := false
  initialCheck : Bool := true
  queue : List Pending := []
  queueBytes : Nat := 0
  /-- Ordered by index. -/
  pendingDone : List (UInt16 × Bytes) := []
  lastPersistMs : UInt32 := 0
  lastRateMs : UInt32 := 0
  rateBytes : UInt64 := 0
  rateExpected : UInt32 := 0
  rateReceived : UInt32 := 0
  bytesReceived : UInt64 := 0
  filesDone : UInt32 := 0
  currentFile : Option UInt16 := none
  recvRateBps : Int64 := 0
  lossPermille : UInt16 := 0
  duplicates : UInt32 := 0

/-- What the engine hands out: datagrams to the link, callbacks to the session. -/
inductive RxEvent where
  | sack (wire : Bytes)
  | fileOk (index : UInt16)
  | fileBad (index : UInt16) (reason : Bytes)
  | allDone
  | error (code message : Bytes)
  | persist (state : List ReceiverFileState)
deriving DecidableEq, Repr

/-- Outcome of the file operation of one step, and the clock. -/
structure Io where
  ok : Bool
  /-- Outcome of opening the part file again after a hash mismatch. -/
  reopenOk : Bool
  /-- Bytes a failed write got to the disk. -/
  written : Nat
  /-- The system's error text. -/
  err : Bytes
  now : UInt32
deriving DecidableEq, Repr

namespace Receiver

variable (t : Receiver)

def setFile (i : Nat) (f : FileRx) : Receiver := { t with rx := t.rx.set i f }

/-- `Fail`: only the first failure is reported. -/
def fail (code message : Bytes) : Receiver × List RxEvent :=
  if t.failed then (t, []) else ({ t with failed := true }, [.error code message])

/-! ## Start -/

/-- Outcomes of the file operations of `Start`, by path. -/
structure StartIo where
  dirOk : Path → Bool
  openOk : Path → Bool
  sizeOk : Path → Bool
  err : Bytes

/-- The directory loop of `Start`: the directories it created, and the error that ended it. -/
def startDirs (io : StartIo) (saveDir : Path) (names : Names) :
    List Bytes → Fs → List Path → Fs × List Path × Option Bytes
  | [], fs, created => (fs, created, none)
  | d :: rest, fs, created =>
    let p := joinSafe saveDir (mapped names d)
    match fs.ensureDir p (io.dirOk p) with
    | none => (fs, created, some (ascii "mkdir: " ++ io.err))
    | some fs' =>
      startDirs io saveDir names rest fs' (if fs.pathExists p then created else created ++ [p])

/-- The state of file `i` before anything is known of it. -/
def freshFile (saveDir : Path) (names : Names) (i : Nat) (mf : ManifestFile) : FileRx where
  index := UInt16.ofNat i
  size := mf.size
  blocks := blockCountFor mf.size
  finalPath := finalPath saveDir names mf.path
  partPath := partPath (finalPath saveDir names mf.path)
  bitmap := BlockBitmap.reset (blockCountFor mf.size)

/-- The entry of a file in `resume_by_index`. -/
def resumeEntry (resume : List ReceiverFileState) (index : UInt16) : Option ReceiverFileState :=
  resume.reverse.find? (·.index == index)

/-- Bytes of the blocks of a bitmap as `bytes_received_` counts them. -/
def bitmapBytes (f : FileRx) : UInt64 :=
  min (UInt64.ofNat f.bitmap.count * UInt64.ofNat kBlockPayloadSize) f.size

/-- One round of the file loop of `Start`, with the bytes it adds to `bytes_received_`. -/
def startFile (io : StartIo) (resume : List ReceiverFileState) (fs : Fs) (f : FileRx) :
    Fs × Except Bytes (FileRx × UInt64) :=
  let entry := resumeEntry resume f.index
  if entry.any (·.verified) && fs.isRegular f.finalPath then
    (fs, .ok ({ f with
      verified := true
      complete := true
      bitmap := f.bitmap.setRuns [⟨0, f.blocks⟩] }, f.size))
  else
    match fs.ensureDir f.finalPath.dropLast (io.dirOk f.finalPath.dropLast) with
    | none => (fs, .error (ascii "mkdir: " ++ io.err))
    | some fs =>
      if f.blocks = 0 then
        -- Empty file: nothing to receive; created on verification.
        (fs, .ok ({ f with complete := true }, 0))
      else
        let partExists := fs.isRegular f.partPath
        match fs.openWrite f.partPath (io.openOk f.partPath) with
        | none => (fs, .error (ascii "open part: " ++ io.err))
        | some (fs, inode) =>
          if !io.sizeOk f.partPath then (fs, .error (ascii "allocate part file"))
          else
            let fs := fs.ensureSize inode f.size.toNat
            let f := { f with writer := some (some inode) }
            match entry with
            | some state =>
              if partExists then
                let bitmap := f.bitmap.setRuns state.runs
                let f := { f with bitmap := bitmap }
                (fs, .ok ({ f with
                  bitmap := bitmap.afterAckBase
                  frontier := UInt32.ofNat bitmap.ackBase
                  complete := bitmap.complete }, bitmapBytes f))
              else (fs, .ok (f, 0))
            | none => (fs, .ok (f, 0))

/-- The file loop of `Start`. -/
def startFiles (io : StartIo) (resume : List ReceiverFileState) :
    List FileRx → Fs → Receiver → Fs × Receiver × Option Bytes
  | [], fs, t => (fs, t, none)
  | f :: rest, fs, t =>
    match startFile io resume fs f with
    | (fs, .error msg) => (fs, t, some msg)
    | (fs, .ok (f, bytes)) =>
      startFiles io resume rest fs
        { t with
          rx := t.rx ++ [f]
          bytesReceived := t.bytesReceived + bytes
          filesDone := if f.verified then t.filesDone + 1 else t.filesDone }

/-- `Start` of a new engine: prepares directories, part files and bitmaps. The error text is
    `none` if the writer thread was started. -/
def start (io : StartIo) (m : Manifest) (saveDir : Path) (names : Names)
    (resume : List ReceiverFileState) (fs : Fs) : Fs × Receiver × Option Bytes :=
  let idle : Receiver := { rx := [], createdDirs := [], pc := .exited }
  match fs.ensureDir saveDir (io.dirOk saveDir) with
  | none => (fs, idle, some (ascii "save dir: " ++ io.err))
  | some fs =>
    match startDirs io saveDir names m.dirs fs [] with
    | (fs, created, some msg) => (fs, { idle with createdDirs := created }, some msg)
    | (fs, created, none) =>
      let files := m.files.mapIdx (freshFile saveDir names)
      match startFiles io resume files fs { idle with createdDirs := created } with
      | (fs, t, some msg) => (fs, t, some msg)
      | (fs, t, none) => (fs, { t with pc := .top }, none)

/-! ## Queries of the owner -/

/-- `HaveRuns`, for `accept`. -/
def haveRuns : Option (List (UInt16 × List SackRun)) :=
  (t.rx.filter fun f => !f.verified && f.bitmap.count != 0).mapM fun f =>
    (f.bitmap.haveRunsFuel scanFuel (2 ^ 20)).map (f.index, ·)

def verifiedFiles : List UInt16 := (t.rx.filter (·.verified)).map (·.index)

def fileState (f : FileRx) : Option ReceiverFileState :=
  if f.verified then some ⟨f.index, [], true⟩
  else (f.bitmap.haveRunsFuel scanFuel (2 ^ 20)).map (⟨f.index, ·, false⟩)

def snapshot : Option (List ReceiverFileState) := t.rx.mapM fileState

/-! ## Transport and owner threads -/

def onBlock (data : Bytes) : Receiver :=
  match decodeBlock data with
  | none => t
  | some (h, payload) =>
    if t.rx.length ≤ h.fileIndex.toNat then t
    else if kMaxQueueBytes < t.queueBytes + h.len.toNat then t  -- disk cannot keep up
    else { t with
      queueBytes := t.queueBytes + h.len.toNat
      queue := t.queue ++ [⟨h.fileIndex, h.blockIndex, h.len, payload⟩] }

/-- `pending_done_[index] = sha256`. -/
def insertDone (index : UInt16) (sha : Bytes) : List (UInt16 × Bytes) → List (UInt16 × Bytes)
  | [] => [(index, sha)]
  | (k, v) :: rest =>
    if index < k then (index, sha) :: (k, v) :: rest
    else if index = k then (index, sha) :: rest
    else (k, v) :: insertDone index sha rest

def onFileDone (index : UInt16) (sha : Bytes) : Receiver :=
  { t with pendingDone := insertDone index sha t.pendingDone }

/-- `Stop`, up to the join. -/
def requestStop : Receiver := { t with stop := true }

/-- `Stop`, after the join: the writers are closed. -/
def closeWriters : Receiver := { t with rx := t.rx.map fun f => { f with writer := none } }

/-- `Cleanup`, after its `Stop`. -/
def cleanup (fs : Fs) : Fs :=
  let fs := (t.rx.filter (!·.verified)).foldl (fun fs f => fs.unlink f.partPath) fs
  t.createdDirs.reverse.foldl FileSystem.removeEmptyDir fs

/-! ## Writer thread -/

/-- The part of `AcceptBlock` that concerns the file: `none` if the block is refused, else
    the new state and whether the block is fresh. -/
def acceptFile (f : FileRx) (p : Pending) : Option (FileRx × Bool) :=
  if f.verified || f.blocks = 0 || f.blocks ≤ p.block then none
  else if p.len ≠ blockLenFor f.size p.block then none
  else
    let f := { f with dirty := true }
    -- Blocks skipped beyond the frontier count as expected for this window.
    let f := if f.frontier ≤ p.block then
        { f with
          expectedSinceSack := f.expectedSinceSack + (p.block - f.frontier + 1)
          frontier := p.block + 1 }
      else f
    some (f, !f.bitmap.test p.block.toNat)

def acceptBlock (p : Pending) : Receiver × Bool :=
  match t.rx[p.file.toNat]? with
  | none => (t, false)
  | some f =>
    match acceptFile f p with
    | none => (t, false)
    | some (f, fresh) =>
      ({ t with
        rx := t.rx.set p.file.toNat f
        currentFile := some f.index
        duplicates := if fresh then t.duplicates else t.duplicates + 1 }, fresh)

/-- The bitmap with some blocks set. -/
def setBlocks (b : BlockBitmap) (blocks : List UInt32) : BlockBitmap :=
  blocks.foldl (fun b i => (b.set i.toNat).1) b

/-- The file after a run of blocks has been written to it. -/
def markRun (f : FileRx) (run : BlockRun) : FileRx :=
  let bitmap := setBlocks f.bitmap run.blocks
  { f with
    bitmap := bitmap
    complete := f.complete || bitmap.complete
    receivedSinceSack := f.receivedSinceSack + UInt32.ofNat run.blocks.length }

/-- `FlushRun`, up to its `SendSack`. -/
def flushRun (io : Io) (run : BlockRun) (now : UInt32) (k : WriterCont) (fs : Fs) :
    Receiver × Fs × List RxEvent :=
  match t.rx[run.file.toNat]? with
  | none => ({ t with pc := k.toPc }, fs, [])
  | some f =>
    let offset := run.first.toNat * kBlockPayloadSize
    let failed := t.fail (ascii "io") (ascii "write failed: " ++ f.finalPath.getLast?.getD [])
    match f.writer with
    | some (some inode) =>
      if io.ok then
        let f := markRun f run
        ({ t with
          rx := t.rx.set run.file.toNat f
          rateReceived := t.rateReceived + UInt32.ofNat run.blocks.length
          rateBytes := t.rateBytes + UInt64.ofNat run.data.length
          bytesReceived := t.bytesReceived + UInt64.ofNat run.data.length
          pc := if f.complete then .sack run.file.toNat now k else k.toPc },
          fs.writeAt inode offset run.data, [])
      else
        ({ failed.1 with pc := .exited }, fs.writeAt inode offset (run.data.take io.written),
          failed.2)
    | _ => ({ failed.1 with pc := .exited }, fs, failed.2)

/-- The SACK `SendSack` builds; `none` if `Holes` does not return within `fuel` rounds. -/
def buildSack (fuel : Nat) (f : FileRx) (recvRateBps : Int64) (lossPermille : UInt16) :
    Option Sack :=
  let ackBase := f.bitmap.ackBase
  let frontier := max f.frontier (UInt32.ofNat ackBase)
  let holes := if f.bitmap.complete then some []
    else f.bitmap.holesFuel fuel ackBase kSackMaxRuns
  holes.map fun holes =>
    { fileIndex := f.index
      flags := if f.bitmap.complete then kSackFlagComplete else 0
      ackBase := UInt32.ofNat ackBase
      frontier := frontier
      receivedCount := UInt32.ofNat f.bitmap.count
      recvRateBps := (min recvRateBps 0xFFFFFFFF).toUInt64.toUInt32
      lossPermille := lossPermille
      holes := clipLast frontier (holes.rdropWhile fun r => frontier ≤ r.start) }
where
  /-- Cut the last hole at the frontier. -/
  clipLast (frontier : UInt32) (holes : List SackRun) : List SackRun :=
    match holes.getLast? with
    | none => []
    | some last =>
      if frontier < last.start + last.length then
        holes.dropLast ++ [⟨last.start, frontier - last.start⟩]
      else holes

/-- `SendSack` for file `i`. -/
def sendSack (i : Nat) (now : UInt32) : Option (Receiver × List RxEvent) :=
  match t.rx[i]? with
  | none => some (t, [])
  | some f =>
    (buildSack scanFuel f t.recvRateBps t.lossPermille).map fun s =>
      ({ t with
        rx := t.rx.set i { f with
          bitmap := f.bitmap.afterAckBase
          lastSackMs := now
          dirty := false
          completeSacksSent := if s.isComplete then f.completeSacksSent + 1
            else f.completeSacksSent
          expectedSinceSack := 0
          receivedSinceSack := 0 }
        rateExpected := t.rateExpected + f.expectedSinceSack }, [.sack (encodeSack s)])

/-- Whether `SendSacks` sends a SACK for a file. -/
def sackDue (f : FileRx) (now : UInt32) (force : Bool) : Bool :=
  if f.verified then false
  else if f.complete then
    -- Keep telling the sender until file_ok flows back through ctrl.
    decide (f.completeSacksSent < kCompleteSackRepeats) &&
      decide (UInt32.ofNat kSackCompleteRepeatMs ≤ now - f.lastSackMs)
  else if !f.dirty && !force then false
  else force || decide (UInt32.ofNat kSackIntervalMs ≤ now - f.lastSackMs)

/-- `SendSacks` from file `i` on. -/
def sendSacks (now : UInt32) (force : Bool) : Nat → Nat → Receiver → Option (Receiver × List RxEvent)
  | 0, _, t => some (t, [])
  | n + 1, i, t =>
    match t.rx[i]? with
    | none => some (t, [])
    | some f =>
      if sackDue f now force then
        match t.sendSack i now with
        | none => none
        | some (t, out) => (sendSacks now force n (i + 1) t).map fun (t, more) => (t, out ++ more)
      else sendSacks now force n (i + 1) t

def updateRates (now : UInt32) : Receiver :=
  if now - t.lastRateMs < kRateWindowMs then t
  else
    let elapsed := now - t.lastRateMs
    let lost := if t.rateReceived < t.rateExpected then t.rateExpected - t.rateReceived else 0
    { t with
      lastRateMs := now
      recvRateBps := (t.rateBytes * 8000 / elapsed.toUInt64).toInt64
      rateBytes := 0
      lossPermille := if 0 < t.rateExpected then
          (min 1000 (lost * 1000 / t.rateExpected)).toUInt16
        else 0
      rateExpected := 0
      rateReceived := 0 }

def persist (force : Bool) (now : UInt32) : Option (Receiver × List RxEvent) :=
  if !force && decide (now - t.lastPersistMs < kPersistIntervalMs) then some (t, [])
  else t.snapshot.map fun state => ({ t with lastPersistMs := now }, [.persist state])

def allVerified : Bool := t.rx.all (·.verified)

/-- A file that starts over after a hash mismatch; the part file stays. -/
def resetFile (f : FileRx) (writer : Option (Option Nat)) : FileRx :=
  { f with
    bitmap := BlockBitmap.reset f.blocks
    complete := false
    verifying := false
    frontier := 0
    completeSacksSent := 0
    writer := writer }

/-- `MaybeVerify` of file `i` up to the comparison of the hashes. -/
def verify (sha : Bytes → Bytes) (io : Io) (i : Nat) (k : WriterCont) (fs : Fs) :
    Receiver × Fs × List RxEvent :=
  match t.rx[i]? with
  | none => ({ t with pc := k.toPc }, fs, [])
  | some f =>
    if f.verified || f.verifying || !f.complete || f.expectedSha256.isEmpty then
      ({ t with pc := k.toPc }, fs, [])
    else
      let f := { f with verifying := true, writer := none }
      -- The bytes that are hashed, and the file system afterwards.
      let hashed : Option (Fs × Bytes) :=
        if f.blocks = 0 then (fs.createEmpty f.partPath io.ok).map (·, [])
        else if io.ok then (fs.read f.partPath).map (fs, ·) else none
      let fs' := (hashed.map (·.1)).getD fs
      if t.stop then
        ({ t.setFile i { f with verifying := false } with pc := k.toPc }, fs', [])
      else
        match hashed with
        | none =>
          let failed := (t.setFile i f).fail (ascii "io") (ascii "verify read failed")
          ({ failed.1 with pc := k.toPc }, fs', failed.2)
        | some (_, bytes) =>
          if sha bytes ≠ f.expectedSha256 then
            let reopened : Fs × Option (Option Nat) :=
              if f.blocks = 0 then (fs', none)
              else
                match fs'.openWrite f.partPath io.reopenOk with
                | some (fs', inode) => (fs', some (some inode))
                | none => (fs', some none)
            ({ t with
              rx := t.rx.set i (resetFile f reopened.2)
              bytesReceived := t.bytesReceived - min t.bytesReceived (bitmapBytes f)
              pc := k.toPc }, reopened.1, [.fileBad f.index (ascii "sha256_mismatch")])
          else ({ t.setFile i f with pc := .rename i k }, fs', [])

/-- `MaybeVerify` of file `i` from `RenameReplace` on. -/
def renameFile (io : Io) (i : Nat) (k : WriterCont) (fs : Fs) : Receiver × Fs × List RxEvent :=
  match t.rx[i]? with
  | none => ({ t with pc := k.toPc }, fs, [])
  | some f =>
    match fs.rename f.partPath f.finalPath io.ok with
    | none =>
      let failed := t.fail (ascii "io") (ascii "rename failed: " ++ io.err)
      ({ failed.1 with pc := k.toPc }, fs, failed.2)
    | some fs =>
      ({ t with
        rx := t.rx.set i { f with verified := true, verifying := false }
        filesDone := t.filesDone + 1
        pc := k.toPc }, fs, [.fileOk f.index])

/-- Whether a pending block continues the run. -/
def contiguous (run : BlockRun) (p : Pending) : Bool :=
  run.file == p.file && (run.blocks.getLast?.any fun b => p.block == b + 1) &&
    run.data.length == run.blocks.length * kBlockPayloadSize

def extendRun (run : Option BlockRun) (p : Pending) : BlockRun :=
  match run with
  | none => ⟨p.file, p.block, p.payload, [p.block]⟩
  | some run => { run with data := run.data ++ p.payload, blocks := run.blocks ++ [p.block] }

/-- One step inside `HandleBatch`: flush the run, or take the next block. -/
def batchStep (io : Io) (rest : List Pending) (run : Option BlockRun)
    (dones : List (UInt16 × Bytes)) (now : UInt32) (fs : Fs) : Receiver × Fs × List RxEvent :=
  match rest, run with
  | [], some run => t.flushRun io run now (.batch [] dones now) fs
  | [], none => ({ t with pc := if t.failed then .exited else .dones dones now }, fs, [])
  | p :: rest, run =>
    match run.filter (!contiguous · p) with
    | some run => t.flushRun io run now (.batch (p :: rest) dones now) fs
    | none =>
      -- The run has been flushed or goes on; freshness is decided only now.
      let (t, fresh) := t.acceptBlock p
      if !fresh then ({ t with pc := .batch rest run dones now }, fs, [])
      else
        let run := extendRun run p
        if 2 ^ 20 ≤ run.data.length then t.flushRun io run now (.batch rest dones now) fs
        else ({ t with pc := .batch rest (some run) dones now }, fs, [])

/-- The initial check: a SACK is due for every file that was complete from the start. -/
def initiallyChecked : Receiver :=
  if t.initialCheck then
    { t with
      initialCheck := false
      rx := t.rx.map fun f => if f.complete && !f.verified then { f with dirty := true } else f }
  else t

/-- The end of a round: the initial check, SACKs, rates, persistence, completion. -/
def tailStep (io : Io) (now : UInt32) : Option (Receiver × List RxEvent) :=
  let t := t.initiallyChecked
  match sendSacks now false t.rx.length 0 t with
  | none => none
  | some (t, sacks) =>
    match (t.updateRates now).persist false io.now with
    | none => none
    | some (t, saved) =>
      if t.allVerified then
        (t.persist true io.now).map fun (t, final) =>
          ({ t with finished := true, pc := .exited }, sacks ++ saved ++ final ++ [.allDone])
      else some ({ t with pc := .top }, sacks ++ saved)

/-- One step of the writer thread. -/
def writerStep (sha : Bytes → Bytes) (io : Io) (fs : Fs) :
    Option (Receiver × Fs × List RxEvent) :=
  match t.pc with
  | .top =>
    if t.stop || t.failed then
      (t.persist true io.now).map fun (t, out) => ({ t with pc := .exited }, fs, out)
    else some ({ t with pc := .waiting }, fs, [])
  | .waiting =>
    some ({ t with
      pc := .batch t.queue none t.pendingDone io.now
      queue := []
      queueBytes := 0
      pendingDone := [] }, fs, [])
  | .batch rest run dones now => some (t.batchStep io rest run dones now fs)
  | .sack i now k =>
    (t.sendSack i now).map fun (t, out) => ({ t with pc := .verify i k }, fs, out)
  | .verify i k => some (t.verify sha io i k fs)
  | .rename i k => some (t.renameFile io i k fs)
  | .dones [] now => some ({ t with pc := .tail now }, fs, [])
  | .dones ((index, hash) :: rest) now =>
    match t.rx[index.toNat]? with
    | none => some ({ t with pc := .dones rest now }, fs, [])
    | some f =>
      some ({ t.setFile index.toNat { f with expectedSha256 := hash } with
        pc := .verify index.toNat (.dones rest now) }, fs, [])
  | .tail now => (t.tailStep io now).map fun (t, out) => (t, fs, out)
  | .exited => none

end Receiver

end CrossTransfer.Transfer
