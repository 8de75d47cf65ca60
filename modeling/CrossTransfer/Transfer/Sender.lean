import CrossTransfer.Transfer.Bitmap
import CrossTransfer.Transfer.Manifest

/-! # The block protocol sender

`core/src/transfer/sender.{h,cpp}`. `Sender` is a `SenderTransfer` together with the program
counter of its thread; `senderStep` is one step of that thread (`Run`, `SweepFile`,
`RepairPass`, `RepairFile`, `SendBlock`), and `onSack`, `onFileOk`, `onFileBad`, `setPaused` and
`requestStop` are the calls of the other threads, which can come between any two steps.

What the thread reads from the file and from the link is an input of a step (`TxIo`). The
token bucket of `WaitTokens` decides when a step happens, not what it does, and is left out,
and so are the rates it computes; the round-trip time that `RepairPass` derives its hold time
from is an input.
-/

namespace CrossTransfer.Transfer

open Paths

def kMaxInflightFiles : Nat := 8
def kBucketBlocks : UInt32 := 256
def kMaxRepairsPerPass : UInt32 := 4096
def kLinkDownTimeoutMs : UInt32 := 20000
def kReadChunkBlocks : UInt32 := 256

/-! ## Data -/

structure FileTx where
  index : UInt16
  size : UInt64
  blocks : UInt32
  /-- Blocks the receiver already has. -/
  skip : BlockBitmap
  /-- Send time per bucket of blocks. -/
  sweepMs : List UInt32
  /-- Send time of repaired blocks. -/
  repairMs : List (UInt32 × UInt32) := []
  sweepDone : Bool := false
  sha256 : Bytes := []
  readerOpen : Bool := false
  ok : Bool := false
  announced : Bool := false
  /-- The latest SACK, and how many have been stored since the last reset. -/
  sack : Sack := {}
  sackSeq : UInt32 := 0
  ackedBytes : UInt64 := 0

/-- The locals of `SweepFile`: the next block, the chunk it is in, what has been hashed. -/
structure Sweep where
  block : UInt32
  chunkFirst : UInt32
  chunkEnd : UInt32
  chunk : Bytes
  hashed : Bytes
  sinceRepair : UInt32
deriving DecidableEq, Repr

/-- Where a repair pass returns to. -/
inductive RepairCaller where
  | sweep (file : Nat) (s : Sweep)
  | inner (file : Nat)
  | drain
deriving DecidableEq, Repr

/-- The locals of `RepairPass`: the files still to visit, the budget, the clock. -/
structure RepairLocals where
  files : List Nat
  now : UInt32
  hold : UInt32
  budget : UInt32
  caller : RepairCaller
deriving DecidableEq, Repr

inductive SenderPc where
  /-- The head of the file loop. -/
  | file (i : Nat)
  /-- `SweepFile`, reading the next chunk. -/
  | sweepRead (i : Nat) (s : Sweep)
  | sweepBlock (i : Nat) (s : Sweep)
  | sweepSend (i : Nat) (s : Sweep)
  /-- After block `s.block` was sent or skipped. -/
  | sweepMark (i : Nat) (s : Sweep)
  | announce (i : Nat)
  /-- The loop that waits for room in `inflight_`. -/
  | inner (i : Nat)
  /-- The loop that waits for the last files. -/
  | drain
  | repairPass (r : RepairLocals)
  /-- `RepairFile` of the head of `r.files`, at block `block` of the first of `holes`. -/
  | repairRun (holes : List SackRun) (block : UInt32) (r : RepairLocals)
  | repairSend (holes : List SackRun) (block : UInt32) (payload : Bytes) (r : RepairLocals)
  | finish
  | exited
deriving DecidableEq, Repr

structure Sender where
  tx : List FileTx
  /-- Indices of swept files without `file_ok`. -/
  inflight : List Nat := []
  pc : SenderPc
  stop : Bool := false
  paused : Bool := false
  finished : Bool := false
  failed : Bool := false
  linkDownSinceMs : UInt32 := 0
  bytesSent : UInt64 := 0
  bytesAcked : UInt64 := 0
  filesDone : UInt32 := 0
  currentFile : Option UInt16 := none
  repairs : UInt32 := 0
  maxLossPermille : UInt16 := 0

/-- Datagrams to the link, callbacks to the session. -/
inductive TxEvent where
  | data (wire : Bytes)
  | fileDone (index : UInt16) (sha256 : Bytes)
  | allDone
  | error (code message : Bytes)
deriving DecidableEq, Repr

/-- What one step reads from its surroundings. -/
structure TxIo where
  now : UInt32
  /-- The size found when the file is opened; `none` if it cannot be opened. -/
  opened : Option UInt64
  /-- The bytes at the offset that is read; `none` on a read error. -/
  bytes : Option Bytes
  /-- `SendDatagram`: 0 sent, 1 backpressure, else not ready. -/
  sendResult : Int
  rttMs : UInt32
  err : Bytes
  fileName : Bytes
deriving DecidableEq, Repr

namespace Sender

variable (t : Sender)

def setFile (i : Nat) (f : FileTx) : Sender := { t with tx := t.tx.set i f }

def fail (code message : Bytes) : Sender × List TxEvent :=
  if t.failed then (t, []) else ({ t with failed := true }, [.error code message])

/-! ## Start -/

/-- The state of file `i`; `have` lists the runs the receiver reported. -/
def startFile (runs : List (UInt16 × List SackRun)) (i : Nat) (mf : ManifestFile) : FileTx :=
  let blocks := blockCountFor mf.size
  let skip := BlockBitmap.reset blocks
  { index := UInt16.ofNat i
    size := mf.size
    blocks := blocks
    skip := (runs.lookup (UInt16.ofNat i)).elim skip skip.setRuns
    sweepMs := List.replicate ((blocks + kBucketBlocks - 1) / kBucketBlocks).toNat 0 }

/-- Mark one file the receiver has verified before. -/
def startVerified (t : Sender) (v : UInt16) : Sender :=
  match t.tx[v.toNat]? with
  | none => t
  | some f =>
    { t with
      tx := t.tx.set v.toNat { f with ok := true, announced := true }
      filesDone := t.filesDone + 1
      bytesAcked := t.bytesAcked + f.size }

/-- `Start` of a new engine whose file list has the length of the manifest's. -/
def start (m : Manifest) (runs : List (UInt16 × List SackRun)) (verified : List UInt16) : Sender :=
  verified.foldl startVerified { tx := m.files.mapIdx (startFile runs), pc := .file 0 }

/-! ## Transport and owner threads -/

def onSack (data : Bytes) : Sender :=
  match decodeSack data with
  | none => t
  | some s =>
    match t.tx[s.fileIndex.toNat]? with
    | none => t
    | some f =>
      let acked := if s.isComplete then f.size
        else min (s.receivedCount.toUInt64 * UInt64.ofNat kBlockPayloadSize) f.size
      -- received_count only grows at the receiver; ignore reordered older SACKs.
      if 0 < f.sackSeq && s.receivedCount < f.sack.receivedCount then t
      else
        { t with
          tx := t.tx.set s.fileIndex.toNat { f with
            sack := s
            sackSeq := f.sackSeq + 1
            ackedBytes := if f.ackedBytes < acked then acked else f.ackedBytes }
          bytesAcked := if f.ackedBytes < acked then t.bytesAcked + (acked - f.ackedBytes)
            else t.bytesAcked
          maxLossPermille := max t.maxLossPermille s.lossPermille }

def onFileBad (index : UInt16) : Sender :=
  match t.tx[index.toNat]? with
  | none => t
  | some f =>
    if f.ok then t
    else
      { t with
        tx := t.tx.set index.toNat { f with
          skip := BlockBitmap.reset f.blocks
          ackedBytes := 0
          sack := {}
          sackSeq := 0 }
        bytesAcked := t.bytesAcked - min t.bytesAcked f.ackedBytes }

def onFileOk (index : UInt16) : Sender :=
  match t.tx[index.toNat]? with
  | none => t
  | some f =>
    if f.ok then t
    else
      { t with
        tx := t.tx.set index.toNat { f with
          ok := true
          ackedBytes := max f.ackedBytes f.size }
        bytesAcked := if f.ackedBytes < f.size then t.bytesAcked + (f.size - f.ackedBytes)
          else t.bytesAcked
        filesDone := t.filesDone + 1 }

def setPaused (paused : Bool) : Sender := { t with paused := paused }

/-- `Stop`, up to the join. -/
def requestStop : Sender := { t with stop := true }

/-! ## Sender thread -/

/-- `ReapInflight`: forget the files that have been acknowledged. -/
def reapInflight : Sender :=
  let done := t.inflight.filter fun i => (t.tx[i]?).any (·.ok)
  { t with
    inflight := t.inflight.filter fun i => !(t.tx[i]?).any (·.ok)
    tx := t.tx.mapIdx fun i f =>
      if done.contains i then { f with readerOpen := false, repairMs := [] } else f }

/-- `ReadBlocks` of `count` blocks from `first` on. -/
def readBlocks (io : TxIo) (i : Nat) (f : FileTx) (first count : UInt32) :
    Sender × List TxEvent × Option Bytes :=
  let failed (code message : Bytes) : Sender × List TxEvent × Option Bytes :=
    let r := (t.setFile i { f with readerOpen := true }).fail code message
    (r.1, r.2, none)
  if !f.readerOpen && io.opened.isNone then failed (ascii "io") (ascii "open failed: " ++ io.err)
  else if !f.readerOpen && io.opened != some f.size then
    failed (ascii "file_changed") (ascii "file size changed: " ++ io.fileName)
  else
    let offset := first.toUInt64 * UInt64.ofNat kBlockPayloadSize
    let want := min (count.toUInt64 * UInt64.ofNat kBlockPayloadSize) (f.size - min f.size offset)
    match io.bytes with
    | none => failed (ascii "io") (ascii "read failed: " ++ io.fileName)
    | some bytes =>
      if bytes.length = want.toNat then (t.setFile i { f with readerOpen := true }, [], some bytes)
      else failed (ascii "io") (ascii "read failed: " ++ io.fileName)

/-- Since when the link has been down. -/
def downSince (io : TxIo) : UInt32 :=
  if t.linkDownSinceMs = 0 then (if io.now = 0 then 1 else io.now) else t.linkDownSinceMs

/-- One attempt of the loop of `SendBlock`: `none` is "try again". -/
def trySend (io : TxIo) (f : FileTx) (block : UInt32) (payload : Bytes) (repair : Bool) :
    Sender × List TxEvent × Option Bool :=
  if t.stop then (t, [], some false)
  else
    let len := blockLenFor f.size block
    let flags := if block + 1 = f.blocks then kBlockFlagLast else 0
    let wire := (encodeBlock ⟨flags, f.index, block, len⟩ payload).getD []
    if io.sendResult = 0 then
      ({ t with
        linkDownSinceMs := 0
        bytesSent := t.bytesSent + len.toUInt64
        repairs := if repair then t.repairs + 1 else t.repairs }, [.data wire], some true)
    else if io.sendResult = 1 then (t, [], none)
    else
      let since := t.downSince io
      let t := { t with linkDownSinceMs := since }
      if kLinkDownTimeoutMs < io.now - since then
        let r := t.fail (ascii "link_down") (ascii "transport unavailable")
        (r.1, r.2, some false)
      else (t, [], none)

/-- The holes `RepairFile` goes through: those of the stored SACK and, once the file has been
    swept, the tail beyond the frontier. -/
def repairHoles (f : FileTx) : List SackRun :=
  if 0 < f.sackSeq && f.sack.isComplete then []
  else
    let listed := if 0 < f.sackSeq then f.sack.holes else []
    let frontier := if 0 < f.sackSeq then max f.sack.frontier f.sack.ackBase else 0
    if f.sweepDone && frontier < f.blocks then listed ++ [⟨frontier, f.blocks - frontier⟩]
    else listed

/-- The end of a run, clipped to the block count. -/
def runEnd (f : FileTx) (run : SackRun) : UInt32 :=
  (min (run.start.toUInt64 + run.length.toUInt64) f.blocks.toUInt64).toUInt32

/-- A block the block loop of `RepairFile` reaches and does not skip. -/
def Considers (f : FileTx) (b : Nat) : Prop :=
  ∃ run ∈ repairHoles f, run.start.toNat ≤ b ∧ b < (runEnd f run).toNat ∧ f.skip.test b = false

def lastSent (f : FileTx) (block : UInt32) : UInt32 :=
  let swept := f.sweepMs.getD (block / kBucketBlocks).toNat 0
  match f.repairMs.lookup block with
  | some repaired => if swept < repaired then repaired else swept
  | none => swept

/-- The file that is being repaired, with the timestamps below `ack_base` dropped. -/
def dropOldRepairs (f : FileTx) : FileTx :=
  if 0 < f.sackSeq then
    { f with repairMs := f.repairMs.filter fun e => f.sack.ackBase ≤ e.1 }
  else f

/-- Start `RepairPass`. -/
def enterRepair (io : TxIo) (caller : RepairCaller) : Sender :=
  let r : RepairLocals :=
    { files := t.inflight
      now := io.now
      hold := max (UInt32.ofNat kRepairMinHoldMs)
        (io.rttMs * 3 / 2 + UInt32.ofNat kSackIntervalMs)
      budget := kMaxRepairsPerPass
      caller := caller }
  { t with pc := .repairPass r }

/-- After a repair pass that was not interrupted. -/
def repairDone (caller : RepairCaller) : SenderPc :=
  match caller with
  | .sweep i s => .sweepBlock i s
  | .inner i => .inner i
  | .drain => .drain

/-- Leave the file loop. -/
def leaveFiles : Sender := { t with pc := .drain, currentFile := none }

/-- After a repair pass that was stopped or failed. -/
def repairBroken (caller : RepairCaller) : Sender :=
  match caller with
  | .sweep _ _ => t.leaveFiles
  | .inner i => { t with pc := .file (i + 1) }
  | .drain => { t with pc := .finish }

def nextFile (r : RepairLocals) : RepairLocals := { r with files := r.files.tail }

/-- One step of `RepairPass` between two files. -/
def repairPassStep (r : RepairLocals) : Sender :=
  match r.files with
  | [] => { t with pc := repairDone r.caller }
  | i :: _ =>
    match t.tx[i]? with
    | none => { t with pc := .repairPass (nextFile r) }
    | some f =>
      if f.ok then { t with pc := .repairPass (nextFile r) }
      else
        match repairHoles f with
        | [] => { t with pc := .repairPass (nextFile r) }
        | run :: rest =>
          { t.setFile i (dropOldRepairs f) with pc := .repairRun (run :: rest) run.start r }

/-- One step of `RepairFile`: the next block of the first hole, up to its `SendBlock`. -/
def repairRunStep (io : TxIo) (holes : List SackRun) (block : UInt32) (r : RepairLocals) :
    Option (Sender × List TxEvent) :=
  match r.files with
  | [] => none
  | i :: _ =>
    match t.tx[i]?, holes with
    | none, _ => none
    | some _, [] =>
      some ({ t with pc := if r.budget = 0 then repairDone r.caller
        else .repairPass (nextFile r) }, [])
    | some f, run :: rest =>
      if r.budget = 0 then some ({ t with pc := repairDone r.caller }, [])
      else if runEnd f run ≤ block then
        some ({ t with pc := .repairRun rest (rest.head?.elim 0 (·.start)) r }, [])
      else if f.skip.test block.toNat then
        some ({ t with pc := .repairRun (run :: rest) (block + 1) r }, [])
      else if lastSent f block ≠ 0 && r.now - lastSent f block < r.hold then
        some ({ t with pc := .repairRun (run :: rest) (block + 1) r }, [])
      else if t.stop then some (t.repairBroken r.caller, [])
      else if t.paused then none
      else
        match t.readBlocks io i f block 1 with
        | (t, out, none) => some (t.repairBroken r.caller, out)
        | (t, out, some payload) =>
          some ({ t with pc := .repairSend (run :: rest) block payload r }, out)

def repairSendStep (io : TxIo) (holes : List SackRun) (block : UInt32) (payload : Bytes)
    (r : RepairLocals) : Option (Sender × List TxEvent) :=
  match r.files with
  | [] => none
  | i :: _ =>
    match t.tx[i]? with
    | none => none
    | some f =>
      match t.trySend io f block payload true with
      | (t, out, none) => some (t, out)
      | (t, out, some false) => some (t.repairBroken r.caller, out)
      | (t, out, some true) =>
        some ({ t.setFile i { f with repairMs := (block, io.now) :: f.repairMs } with
          pc := .repairRun holes (block + 1) { r with budget := r.budget - 1 } }, out)

/-- One step of `SweepFile`. -/
def sweepStep (sha : Bytes → Bytes) (io : TxIo) (i : Nat) (s : Sweep) (f : FileTx) :
    Option (Sender × List TxEvent) :=
  if f.blocks ≤ s.block then
    some ({ t.setFile i { f with sha256 := sha s.hashed, sweepDone := true } with
      pc := .announce i }, [])
  else if t.stop then some (t.leaveFiles, [])
  else if t.paused then none
  else
    let n := min kReadChunkBlocks (f.blocks - s.block)
    match t.readBlocks io i f s.block n with
    | (t, out, none) => some (t.leaveFiles, out)
    | (t, out, some bytes) =>
      some ({ t with pc := .sweepBlock i { s with
        chunkFirst := s.block
        chunkEnd := s.block + n
        chunk := bytes
        hashed := s.hashed ++ bytes } }, out)

/-- The payload of the block the sweep is at. -/
def sweepPayload (s : Sweep) (f : FileTx) : Bytes :=
  (s.chunk.drop ((s.block - s.chunkFirst).toNat * kBlockPayloadSize)).take
    (blockLenFor f.size s.block).toNat

/-- After block `s.block` of the sweep: its bucket's time, then maybe a repair pass. -/
def sweepMarkStep (io : TxIo) (i : Nat) (s : Sweep) (f : FileTx) : Sender :=
  let t := t.setFile i { f with sweepMs := f.sweepMs.set (s.block / kBucketBlocks).toNat io.now }
  let s := { s with block := s.block + 1, sinceRepair := s.sinceRepair + 1 }
  if 64 ≤ s.sinceRepair then t.reapInflight.enterRepair io (.sweep i { s with sinceRepair := 0 })
  else { t with pc := .sweepBlock i s }

/-- One step of the sender thread. -/
def senderStep (sha : Bytes → Bytes) (io : TxIo) : Option (Sender × List TxEvent) :=
  match t.pc with
  | .file i =>
    match t.tx[i]? with
    | none => some (t.leaveFiles, [])
    | some f =>
      if t.stop || t.failed then some (t.leaveFiles, [])
      else if f.ok then some ({ t with pc := .file (i + 1) }, [])  -- verified in a previous run
      else if f.blocks = 0 then
        some ({ t.setFile i { f with sha256 := sha [], sweepDone := true } with
          currentFile := some f.index, pc := .announce i }, [])
      else
        some ({ t with
          currentFile := some f.index
          pc := .sweepRead i ⟨0, 0, 0, [], [], 0⟩ }, [])
  | .sweepRead i s => (t.tx[i]?).bind (t.sweepStep sha io i s)
  | .sweepBlock i s =>
    (t.tx[i]?).map fun f =>
      if s.chunkEnd ≤ s.block then ({ t with pc := .sweepRead i s }, [])
      else if f.skip.test s.block.toNat then ({ t with pc := .sweepMark i s }, [])
      else if t.stop then (t.leaveFiles, [])
      else ({ t with pc := .sweepSend i s }, [])
  | .sweepSend i s =>
    (t.tx[i]?).map fun f =>
      match t.trySend io f s.block (sweepPayload s f) false with
      | (t, out, none) => (t, out)
      | (t, out, some false) => (t.leaveFiles, out)
      | (t, out, some true) => ({ t with pc := .sweepMark i s }, out)
  | .sweepMark i s => (t.tx[i]?).map fun f => (t.sweepMarkStep io i s f, [])
  | .announce i =>
    (t.tx[i]?).map fun f =>
      ({ t.setFile i { f with announced := true } with
        inflight := t.inflight ++ [i]
        pc := .inner i }, if f.announced then [] else [.fileDone f.index f.sha256])
  | .inner i =>
    if t.stop || t.failed then some ({ t with pc := .file (i + 1) }, [])
    else
      let t := t.reapInflight
      if t.inflight.length < kMaxInflightFiles then some ({ t with pc := .file (i + 1) }, [])
      else some (t.enterRepair io (.inner i), [])
  | .drain =>
    if t.stop || t.failed then some ({ t with pc := .finish }, [])
    else
      let t := t.reapInflight
      if t.inflight.isEmpty then some ({ t with pc := .finish }, [])
      else some (t.enterRepair io .drain, [])
  | .repairPass r => some (t.repairPassStep r, [])
  | .repairRun holes block r => t.repairRunStep io holes block r
  | .repairSend holes block payload r => t.repairSendStep io holes block payload r
  | .finish =>
    let t := { t with tx := t.tx.map fun f => { f with readerOpen := false }, pc := .exited }
    if t.stop || t.failed then some (t, [])
    else some ({ t with finished := true }, [.allDone])
  | .exited => none

end Sender

end CrossTransfer.Transfer
