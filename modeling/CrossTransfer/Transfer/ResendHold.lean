import CrossTransfer.Library.FixedWidth
import CrossTransfer.Transfer.SenderMachine

/-! # The time between two sends of a block

`RepairFile` sends a block again only if `LastSent` says that this is long enough ago. `LastSent` is
put together from the time of the block's sweep bucket and from `repair_ms`; the pass compares it
with a clock it has read once, at its beginning, and takes 0 for "never".

The engine runs with a clock (`Timed`), and the datagrams that leave are logged with the time at
which they leave. A block is spaced out (`Spaced`) in every run in which, whenever a repair comes to a
block that has just been sent, that send is on record (`OnRecord`).
-/

namespace CrossTransfer.Transfer

open CrossTransfer.Library
open Paths

/-! ## The engine with a clock -/

/-- A datagram that has left: the block, whether it was a repair, when it left and what the clock
    showed when its time was recorded. -/
structure Sent where
  file : Nat
  block : UInt32
  repair : Bool
  time : Nat
  clock : Nat
deriving DecidableEq, Repr

/-- The engine, the milliseconds since its start, the clock of the repair pass it is in, and what it
    has sent. -/
structure Timed where
  engine : Sender
  clock : Nat := 0
  /-- Outside of a repair pass the same as `clock`. -/
  passStart : Nat := 0
  sent : List Sent := []

/-- A step of the engine during which a datagram may leave and after which the clock is read. -/
structure Tick where
  leaves : Nat
  clock : Nat
  act : SenderAct
deriving DecidableEq, Repr

/-- The repair pass the thread is in. -/
def inRepair (pc : SenderPc) : Bool := (Sender.repairOf pc).isSome

/-- The block whose datagram a step sends. -/
def sending : SenderPc → Option (Nat × UInt32 × Bool)
  | .sweepSend i s => some (i, s.block, false)
  | .repairSend _ block _ r => r.files.head?.map fun i => (i, block, true)
  | _ => none

def TxEvent.isData : TxEvent → Bool
  | .data _ => true
  | _ => false

/-- What a step with the output `out` has sent. -/
def sentBy (pc : SenderPc) (a : Tick) (out : List TxEvent) : List Sent :=
  if out.any TxEvent.isData then
    (sending pc).toList.map fun (file, block, repair) => ⟨file, block, repair, a.leaves, a.clock⟩
  else []

/-- The clock does not go back, and the thread reads it as 32 bits. -/
def Tick.fits (s : Timed) (a : Tick) : Bool :=
  decide (s.clock ≤ a.leaves) && decide (a.leaves ≤ a.clock) &&
    match a.act with
    | .thread io => io.now == UInt32.ofNat a.clock
    | _ => true

namespace Timed

/-- After a step that has left the engine in the state `t`. -/
def after (s : Timed) (a : Tick) (t : Sender) (out : List TxEvent) : Timed where
  engine := t
  clock := a.clock
  passStart := if inRepair s.engine.pc then s.passStart else a.clock
  sent := s.sent ++ sentBy s.engine.pc a out

def step (sha : Bytes → Bytes) (s : Timed) (a : Tick) : Option Timed :=
  if a.fits s then (s.engine.step sha a.act).map fun (t, out) => s.after a t out else none

def machine (sha : Bytes → Bytes) (t : Sender) : Machine Timed Tick where
  init := { engine := t }
  step := step sha

/-- Two sends of one block of one file are `kRepairMinHoldMs` apart. -/
def Spaced (sent : List Sent) : Prop :=
  sent.Pairwise fun e e' =>
    e.file = e'.file → e.block = e'.block → e.time + kRepairMinHoldMs ≤ e'.time

/-- The time of the bucket of a block. -/
def swept (f : FileTx) (block : UInt32) : UInt32 :=
  f.sweepMs.getD (block / kBucketBlocks).toNat 0

/-- The sends of block `b` of file `i`. -/
def Of (i : Nat) (b : UInt32) (e : Sent) : Prop := e.file = i ∧ e.block = b

/-- Block `b` of file `i` has been sent less than `kRepairMinHoldMs` ago. -/
def Recent (s : Timed) (i : Nat) (b : UInt32) : Prop :=
  ∃ e ∈ s.sent, Of i b e ∧ s.clock < e.time + kRepairMinHoldMs

/-- What is on record of the sends of a block is good for the pass that looks it up. -/
structure OnRecord (s : Timed) (i : Nat) (f : FileTx) (b : UInt32) : Prop where
  /-- The block has a time, which is not the 0 of a block that was never sent. -/
  dated : swept f b ≠ 0 ∨ ∃ time, f.repairMs.lookup b = some time ∧ time ≠ 0
  /-- A repair has not been dropped again. -/
  kept : (∃ e ∈ s.sent, Of i b e ∧ e.repair = true ∧ s.clock < e.time + kRepairMinHoldMs) →
    f.repairMs.lookup b ≠ none
  /-- No repair was recorded after the pass had read its clock. -/
  before : ∀ e ∈ s.sent, Of i b e → e.repair = true → e.clock ≤ s.passStart
  /-- The clock has not wrapped between the sweep and the repair. -/
  ordered : ∀ time, f.repairMs.lookup b = some time → swept f b ≤ time

/-- Whenever a repair comes to a block that has just been sent, that send is on record. -/
def Minds (s : Timed) (a : Tick) : Prop :=
  ∀ io run rest b r i files f, a.act = .thread io →
    s.engine.pc = .repairRun (run :: rest) b r → r.files = i :: files →
    s.engine.tx[i]? = some f → b < Sender.runEnd f run → f.skip.test b.toNat = false →
    Recent s i b → OnRecord s i f b

end Timed

namespace Sender

variable {t t' t'' : Sender} {sha : Bytes → Bytes} {io : TxIo} {out : List TxEvent}

/-! ## Recorded times -/

/-- The times of a file are as before, except that times of repairs may have been dropped. -/
structure SameTimes (f f' : FileTx) : Prop where
  swept : f'.sweepMs = f.sweepMs
  repaired : ∀ b, f'.repairMs.lookup b = f.repairMs.lookup b ∨ f'.repairMs.lookup b = none

theorem SameTimes.refl (f : FileTx) : SameTimes f f := ⟨rfl, fun _ => .inl rfl⟩

theorem SameTimes.of_eq {f f' : FileTx} (hswept : f'.sweepMs = f.sweepMs)
    (hrepaired : f'.repairMs = f.repairMs) : SameTimes f f' :=
  ⟨hswept, fun _ => .inl (by rw [hrepaired])⟩

theorem SameTimes.trans {f f' f'' : FileTx} (h : SameTimes f f') (h' : SameTimes f' f'') :
    SameTimes f f'' := by
  refine ⟨h'.swept.trans h.swept, fun b => ?_⟩
  obtain heq | hnone := h'.repaired b
  · rw [heq]
    exact h.repaired b
  · exact .inr hnone

/-- The times of all files are as before. -/
def KeepsTimes (t t' : Sender) : Prop :=
  ∀ (j : Nat) (f' : FileTx), t'.tx[j]? = some f' → ∃ f, t.tx[j]? = some f ∧ SameTimes f f'

theorem keepsTimes_of_eq (h : t'.tx = t.tx) : KeepsTimes t t' := by
  intro j f' hf'
  exact ⟨f', h ▸ hf', .refl f'⟩

theorem KeepsTimes.refl (t : Sender) : KeepsTimes t t := keepsTimes_of_eq rfl

theorem KeepsTimes.trans (h : KeepsTimes t t') (h' : KeepsTimes t' t'') : KeepsTimes t t'' := by
  intro j f'' hf''
  obtain ⟨f', hf', hsame'⟩ := h' j f'' hf''
  obtain ⟨f, hf, hsame⟩ := h j f' hf'
  exact ⟨f, hf, hsame.trans hsame'⟩

theorem keepsTimes_setFile {i : Nat} {f f' : FileTx} (hf : t.tx[i]? = some f)
    (h : SameTimes f f') : KeepsTimes t (t.setFile i f') := by
  intro j g hg
  by_cases hij : i = j
  · subst hij
    rw [setFile, List.getElem?_set_self (List.getElem?_eq_some_iff.mp hf).1] at hg
    cases hg
    exact ⟨f, hf, h⟩
  · rw [setFile, List.getElem?_set_ne hij] at hg
    exact ⟨g, hg, .refl g⟩

theorem tx_fail (t : Sender) (code message : Bytes) : (t.fail code message).1.tx = t.tx := by
  unfold fail
  split <;> rfl

theorem noData_fail (t : Sender) (code message : Bytes) :
    (t.fail code message).2.any TxEvent.isData = false := by
  unfold fail
  split <;> rfl

theorem keepsTimes_readBlocks {i : Nat} {f : FileTx} {first count : UInt32} {data : Option Bytes}
    (hf : t.tx[i]? = some f) (h : t.readBlocks io i f first count = (t', out, data)) :
    KeepsTimes t t' ∧ out.any TxEvent.isData = false := by
  have hopened : KeepsTimes t (t.setFile i { f with readerOpen := true }) :=
    keepsTimes_setFile hf (.of_eq rfl rfl)
  have hfailing : ∀ code message,
      KeepsTimes t ((t.setFile i { f with readerOpen := true }).fail code message).1 ∧
        ((t.setFile i { f with readerOpen := true }).fail code message).2.any TxEvent.isData =
          false :=
    fun code message => ⟨hopened.trans (keepsTimes_of_eq (tx_fail _ _ _)), noData_fail _ _ _⟩
  unfold readBlocks at h
  simp only at h
  split at h
  · cases h
    exact hfailing _ _
  · split at h
    · cases h
      exact hfailing _ _
    · split at h
      · cases h
        exact hfailing _ _
      · split at h
        · cases h
          exact ⟨hopened, rfl⟩
        · cases h
          exact hfailing _ _

/-- An attempt to send: the datagram has left exactly when it succeeded. -/
theorem trySend_data {f : FileTx} {block : UInt32} {payload : Bytes} {repair : Bool}
    {sent : Option Bool} (h : t.trySend io f block payload repair = (t', out, sent)) :
    out.any TxEvent.isData = (sent == some true) := by
  unfold trySend at h
  split at h
  · cases h
    rfl
  · simp only at h
    split at h
    · cases h
      rfl
    · split at h
      · cases h
        rfl
      · split at h
        · cases h
          exact noData_fail _ _ _
        · cases h
          rfl

theorem lookup_filter_key (keep : UInt32 → Bool) (l : List (UInt32 × UInt32)) (b : UInt32) :
    (l.filter fun e => keep e.1).lookup b = if keep b then l.lookup b else none := by
  induction l with
  | nil => simp
  | cons e l ih =>
    obtain ⟨k, v⟩ := e
    by_cases hkey : b = k
    · subst hkey
      by_cases hkeep : keep b = true
      · simp [List.filter_cons_of_pos, hkeep]
      · simp [hkeep, ih]
    · have hne : (b == k) = false := by simpa using hkey
      by_cases hkeep : keep k = true
      · simp [hkeep, List.lookup_cons, hne, ih]
      · simp [hkeep, List.lookup_cons, hne, ih]

theorem sameTimes_dropOldRepairs (f : FileTx) : SameTimes f (dropOldRepairs f) := by
  unfold dropOldRepairs
  split
  · refine ⟨rfl, fun b => ?_⟩
    have hlookup := lookup_filter_key (fun k => decide (f.sack.ackBase ≤ k)) f.repairMs b
    simp only at hlookup ⊢
    rw [hlookup]
    split
    · exact .inl rfl
    · exact .inr rfl
  · exact .refl f

theorem keepsTimes_reapInflight (t : Sender) : KeepsTimes t t.reapInflight := by
  intro j f' hf'
  simp only [reapInflight, List.getElem?_mapIdx, Option.map_eq_some_iff] at hf'
  obtain ⟨f, hf, rfl⟩ := hf'
  refine ⟨f, hf, ?_⟩
  split
  · exact ⟨rfl, fun _ => .inr rfl⟩
  · exact .refl f

theorem keepsTimes_call {a : SenderAct} (h : t.step sha a = some (t', out))
    (hcall : ∀ io, a ≠ .thread io) : KeepsTimes t t' ∧ out = [] := by
  cases a with
  | thread io => exact absurd rfl (hcall io)
  | sack wire =>
    cases h
    refine ⟨?_, rfl⟩
    unfold onSack
    split
    · exact .refl t
    · split
      · exact .refl t
      · rename_i f hf
        dsimp only
        split
        · exact .refl t
        · exact keepsTimes_setFile hf (.of_eq rfl rfl)
  | fileOk index =>
    cases h
    refine ⟨?_, rfl⟩
    unfold onFileOk
    split
    · exact .refl t
    · rename_i f hf
      split
      · exact .refl t
      · exact keepsTimes_setFile hf (.of_eq rfl rfl)
  | fileBad index =>
    cases h
    refine ⟨?_, rfl⟩
    unfold onFileBad
    split
    · exact .refl t
    · rename_i f hf
      split
      · exact .refl t
      · exact keepsTimes_setFile hf (.of_eq rfl rfl)
  | pause paused =>
    cases h
    exact ⟨keepsTimes_of_eq rfl, rfl⟩
  | stop =>
    cases h
    exact ⟨keepsTimes_of_eq rfl, rfl⟩

/-! ## Places -/

/-- The file that is being swept and how many of its blocks may have been sent. -/
def reached : SenderPc → Option (Nat × Nat)
  | .sweepRead i s => some (i, s.block.toNat)
  | .sweepBlock i s => some (i, s.block.toNat)
  | .sweepSend i s => some (i, s.block.toNat)
  | .sweepMark i s => some (i, s.block.toNat + 1)
  | .announce i => some (i, 2 ^ 32)
  | .repairPass r => byCaller r.caller
  | .repairRun _ _ r => byCaller r.caller
  | .repairSend _ _ _ r => byCaller r.caller
  | _ => none
where
  byCaller : RepairCaller → Option (Nat × Nat)
    | .sweep i s => some (i, s.block.toNat)
    | .inner _ => none
    | .drain => none

/-- The block that is sent or marked lies in the chunk that has been read. -/
def InChunk : SenderPc → Prop
  | .sweepSend _ s => s.block < s.chunkEnd
  | .sweepMark _ s => s.block < s.chunkEnd
  | _ => True

/-- The sweep does not go back. -/
def PlaceMoves (n : Nat) (pc pc' : SenderPc) : Prop :=
  ∀ i k, i < n → reached pc = some (i, k) →
    i < passed n pc' ∨ ∃ k', reached pc' = some (i, k') ∧ k ≤ k'

theorem place_keep {n : Nat} {pc pc' : SenderPc} (h : reached pc' = reached pc) :
    PlaceMoves n pc pc' :=
  fun _ k _ hk => .inr ⟨k, h.trans hk, le_rfl⟩

theorem place_left {n : Nat} {pc pc' : SenderPc} (h : passed n pc' = n) : PlaceMoves n pc pc' :=
  fun _ _ hi _ => .inl (by rwa [h])

theorem place_none {n : Nat} {pc pc' : SenderPc} (h : reached pc = none) : PlaceMoves n pc pc' := by
  intro i k _ hk
  rw [h] at hk
  cases hk

theorem reached_of_repair {pc : SenderPc} {r : RepairLocals} (h : repairOf pc = some r) :
    reached pc = reached.byCaller r.caller := by
  cases pc with
  | repairPass => cases h; rfl
  | repairRun => cases h; rfl
  | repairSend => cases h; rfl
  | _ => cases h

theorem place_repairDone {n : Nat} {pc : SenderPc} {r : RepairLocals} (h : repairOf pc = some r) :
    PlaceMoves n pc (repairDone r.caller) := by
  have hpc := reached_of_repair h
  cases hcaller : r.caller with
  | sweep i s => exact place_keep (by rw [hpc, hcaller]; rfl)
  | inner i => exact place_none (by rw [hpc, hcaller]; rfl)
  | drain => exact place_none (by rw [hpc, hcaller]; rfl)

theorem place_repairBroken {n : Nat} {pc : SenderPc} {r : RepairLocals} (h : repairOf pc = some r) :
    PlaceMoves n pc (t.repairBroken r.caller).pc := by
  have hpc := reached_of_repair h
  cases hcaller : r.caller with
  | sweep i s => exact place_left rfl
  | inner i => exact place_none (by rw [hpc, hcaller]; rfl)
  | drain => exact place_none (by rw [hpc, hcaller]; rfl)

/-! ## What a step does -/

/-- The repair pass of `pc'` is that of `pc`, or one that has begun when the clock showed `now`. -/
def PassFrom (now : UInt32) (pc pc' : SenderPc) : Prop :=
  ∀ r', repairOf pc' = some r' →
    (repairOf pc = none ∧ r'.now = now ∧ UInt32.ofNat kRepairMinHoldMs ≤ r'.hold) ∨
    ∃ r, repairOf pc = some r ∧ r'.now = r.now ∧ r'.hold = r.hold

theorem passFrom_enterRepair {pc : SenderPc} {caller : RepairCaller} (h : repairOf pc = none) :
    PassFrom io.now pc (t.enterRepair io caller).pc := by
  intro r' hr'
  cases hr'
  refine .inl ⟨h, rfl, ?_⟩
  rw [UInt32.le_iff_toNat_le, toNat_max32]
  exact le_max_left _ _

/-- A step that sends nothing, records no time and does not decide to send. -/
structure Calm (now : UInt32) (t t' : Sender) (out : List TxEvent) : Prop where
  times : KeepsTimes t t'
  silent : out.any TxEvent.isData = false
  place : PlaceMoves t.tx.length t.pc t'.pc
  chunk : InChunk t.pc → InChunk t'.pc
  marking : ∀ i s, t.pc = .sweepMark i s → t'.pc = .sweepMark i s
  pass : PassFrom now t.pc t'.pc
  sending : ∀ holes b payload r, t'.pc = .repairSend holes b payload r → t.pc = t'.pc

/-- What a step does about times and sends. -/
inductive Turn (now : UInt32) (t t' : Sender) (out : List TxEvent) : Prop
  | calm (h : Calm now t t' out)
  | swept {i s} (pc : t.pc = .sweepSend i s) (pc' : t'.pc = .sweepMark i s) (tx : t'.tx = t.tx)
      (file : i < t.tx.length) (sent : out.any TxEvent.isData = true)
  | marked {i s f} (pc : t.pc = .sweepMark i s) (file : t.tx[i]? = some f) (silent : out = [])
      (times : KeepsTimes
        (t.setFile i { f with sweepMs := f.sweepMs.set (s.block / kBucketBlocks).toNat now }) t')
      (place : ∃ s', reached t'.pc = some (i, s') ∧ s' = (s.block + 1).toNat)
      (notMarking : ∀ i s, t'.pc ≠ .sweepMark i s) (chunk : InChunk t'.pc)
      (pass : PassFrom now t.pc t'.pc)
      (notSending : ∀ holes b payload r, t'.pc ≠ .repairSend holes b payload r)
  | decided {run rest b payload r i files f} (pc : t.pc = .repairRun (run :: rest) b r)
      (files : r.files = i :: files) (file : t.tx[i]? = some f) (inRun : b < runEnd f run)
      (wanted : f.skip.test b.toNat = false)
      (due : ¬(lastSent f b ≠ 0 ∧ r.now - lastSent f b < r.hold))
      (pc' : t'.pc = .repairSend (run :: rest) b payload r) (times : KeepsTimes t t')
      (silent : out.any TxEvent.isData = false)
  | repaired {holes b payload r i files f} (pc : t.pc = .repairSend holes b payload r)
      (files : r.files = i :: files) (file : t.tx[i]? = some f)
      (pc' : t'.pc = .repairRun holes (b + 1) { r with budget := r.budget - 1 })
      (tx : t'.tx = t.tx.set i { f with repairMs := (b, now) :: f.repairMs })
      (sent : out.any TxEvent.isData = true)

/-! ## Each step of the thread -/

/-- A step to a place outside a repair pass. -/
theorem calm_outside {now : UInt32} (times : KeepsTimes t t') (silent : out.any TxEvent.isData = false)
    (place : PlaceMoves t.tx.length t.pc t'.pc) (chunk : InChunk t'.pc)
    (marking : ∀ i s, t.pc ≠ .sweepMark i s) (outside : repairOf t'.pc = none) :
    Calm now t t' out where
  times := times
  silent := silent
  place := place
  chunk := fun _ => chunk
  marking := fun i s h => absurd h (marking i s)
  pass := by
    intro r' hr'
    rw [outside] at hr'
    cases hr'
  sending := by
    intro holes b payload r hpc
    rw [hpc] at outside
    cases outside

/-- A step inside a repair pass that does not come to a send. -/
theorem calm_inside {now : UInt32} {r r' : RepairLocals} (times : KeepsTimes t t')
    (silent : out.any TxEvent.isData = false) (hr : repairOf t.pc = some r)
    (hr' : repairOf t'.pc = some r') (caller : r'.caller = r.caller) (same : r'.now = r.now)
    (hold : r'.hold = r.hold) (sending : ∀ holes b payload r, t'.pc ≠ .repairSend holes b payload r) :
    Calm now t t' out where
  times := times
  silent := silent
  place := place_keep (by rw [reached_of_repair hr, reached_of_repair hr', caller])
  chunk := by
    intro _
    cases hpc : t'.pc with
    | sweepSend => rw [hpc] at hr'; cases hr'
    | sweepMark => rw [hpc] at hr'; cases hr'
    | _ => trivial
  marking := by
    intro i s hpc
    rw [hpc] at hr
    cases hr
  pass := by
    intro r'' hr''
    rw [hr', Option.some.injEq] at hr''
    subst hr''
    exact .inr ⟨r, hr, same, hold⟩
  sending := fun holes b payload r hpc => absurd hpc (sending holes b payload r)

theorem calm_retry {now : UInt32} (times : KeepsTimes t t') (silent : out.any TxEvent.isData = false)
    (hpc : t'.pc = t.pc) : Calm now t t' out where
  times := times
  silent := silent
  place := place_keep (by rw [hpc])
  chunk := fun h => by rwa [hpc]
  marking := fun i s h => by rw [hpc, h]
  pass := fun r' hr' => .inr ⟨r', hpc ▸ hr', rfl, rfl⟩
  sending := fun _ _ _ _ _ => hpc.symm

theorem calm_repairDone {now : UInt32} {r : RepairLocals} (hr : repairOf t.pc = some r) :
    Calm now t { t with pc := repairDone r.caller } [] := by
  have times : KeepsTimes t { t with pc := repairDone r.caller } := keepsTimes_of_eq rfl
  apply calm_outside times rfl (place_repairDone hr)
  · cases r.caller <;> trivial
  · intro i s hpc
    rw [hpc] at hr
    cases hr
  · cases r.caller <;> rfl

theorem calm_repairBroken {now : UInt32} {r : RepairLocals} (hr : repairOf t.pc = some r)
    (times : KeepsTimes t t') (silent : out.any TxEvent.isData = false) :
    Calm now t (t'.repairBroken r.caller) out := by
  have htx : (t'.repairBroken r.caller).tx = t'.tx := by cases r.caller <;> rfl
  apply calm_outside (times.trans (keepsTimes_of_eq htx)) silent (place_repairBroken hr)
  · cases r.caller <;> trivial
  · intro i s hpc
    rw [hpc] at hr
    cases hr
  · cases r.caller <;> rfl

/-- Entering a repair pass. -/
theorem calm_enterRepair {caller : RepairCaller} (times : KeepsTimes t t')
    (place : PlaceMoves t.tx.length t.pc (t'.enterRepair io caller).pc)
    (marking : ∀ i s, t.pc ≠ .sweepMark i s) (outside : repairOf t.pc = none) :
    Calm io.now t (t'.enterRepair io caller) [] where
  times := times.trans (keepsTimes_of_eq rfl)
  silent := rfl
  place := place
  chunk := fun _ => trivial
  marking := fun i s h => absurd h (marking i s)
  pass := passFrom_enterRepair outside
  sending := by
    intro holes b payload r hpc
    cases hpc

theorem calm_leaveFiles {now : UInt32} (times : KeepsTimes t t')
    (silent : out.any TxEvent.isData = false) (marking : ∀ i s, t.pc ≠ .sweepMark i s) :
    Calm now t t'.leaveFiles out :=
  calm_outside (times.trans (keepsTimes_of_eq rfl)) silent (place_left rfl) trivial marking rfl

theorem turn_repairPassStep {now : UInt32} {r : RepairLocals} (hpc : t.pc = .repairPass r) :
    Calm now t (t.repairPassStep r) [] := by
  have hrepair : repairOf t.pc = some r := hpc ▸ rfl
  have next : Calm now t { t with pc := .repairPass (nextFile r) } [] :=
    calm_inside (keepsTimes_of_eq rfl) rfl hrepair rfl rfl rfl rfl
      fun _ _ _ _ => SenderPc.noConfusion
  unfold repairPassStep
  split
  · exact calm_repairDone hrepair
  · rename_i i rest hfiles
    split
    · exact next
    · rename_i f hf
      split
      · exact next
      · split
        · exact next
        · have dropped := keepsTimes_setFile hf (sameTimes_dropOldRepairs f)
          exact calm_inside (dropped.trans (keepsTimes_of_eq rfl)) rfl hrepair rfl rfl rfl rfl
            fun _ _ _ _ => SenderPc.noConfusion

theorem turn_repairRunStep {now : UInt32} {holes : List SackRun} {block : UInt32} {r : RepairLocals}
    (hpc : t.pc = .repairRun holes block r)
    (h : t.repairRunStep io holes block r = some (t', out)) : Turn now t t' out := by
  have hrepair : repairOf t.pc = some r := hpc ▸ rfl
  have same : ∀ holes' block', Calm now t { t with pc := .repairRun holes' block' r } [] :=
    fun _ _ => calm_inside (keepsTimes_of_eq rfl) rfl hrepair rfl rfl rfl rfl
      fun _ _ _ _ => SenderPc.noConfusion
  unfold repairRunStep at h
  split at h
  · cases h
  · rename_i i files hfiles
    split at h
    · cases h
    · cases h
      split
      · exact .calm (calm_repairDone hrepair)
      · exact .calm (calm_inside (keepsTimes_of_eq rfl) rfl hrepair rfl rfl rfl rfl
          fun _ _ _ _ => SenderPc.noConfusion)
    · rename_i f run rest hf
      split at h
      · cases h
        exact .calm (calm_repairDone hrepair)
      · split at h
        · cases h
          exact .calm (same _ _)
        · rename_i hrun
          split at h
          · cases h
            exact .calm (same _ _)
          · rename_i hwanted
            split at h
            · cases h
              exact .calm (same _ _)
            · rename_i hdue
              split at h
              · cases h
                exact .calm (calm_repairBroken hrepair (.refl t) rfl)
              · split at h
                · cases h
                · split at h
                  · rename_i mid out' hread
                    cases h
                    obtain ⟨times, silent⟩ := keepsTimes_readBlocks hf hread
                    exact .calm (calm_repairBroken hrepair times silent)
                  · rename_i mid out' payload hread
                    cases h
                    obtain ⟨times, silent⟩ := keepsTimes_readBlocks hf hread
                    exact .decided hpc hfiles hf (UInt32.not_le.mp hrun) (by simpa using hwanted)
                      (by simpa using hdue) rfl (times.trans (keepsTimes_of_eq rfl)) silent

theorem turn_repairSendStep {holes : List SackRun} {block : UInt32} {payload : Bytes}
    {r : RepairLocals} (hpc : t.pc = .repairSend holes block payload r)
    (h : t.repairSendStep io holes block payload r = some (t', out)) : Turn io.now t t' out := by
  have hrepair : repairOf t.pc = some r := hpc ▸ rfl
  unfold repairSendStep at h
  split at h
  · cases h
  · rename_i i files hfiles
    split at h
    · cases h
    · rename_i f hf
      split at h
      all_goals
        rename_i mid out' hsend
        have hdata := trySend_data hsend
        obtain ⟨-, htx, hmid, -⟩ := trySend_spec hsend
        cases h
      · exact .calm (calm_retry (keepsTimes_of_eq htx) hdata hmid)
      · exact .calm (calm_repairBroken hrepair (keepsTimes_of_eq htx) hdata)
      · refine .repaired hpc hfiles hf rfl ?_ hdata
        rw [setFile, htx]

theorem turn_sweepStep {now : UInt32} {i : Nat} {s : Sweep} {f : FileTx}
    (hpc : t.pc = .sweepRead i s) (hf : t.tx[i]? = some f)
    (h : t.sweepStep sha io i s f = some (t', out)) : Turn now t t' out := by
  have marking : ∀ i s, t.pc ≠ .sweepMark i s := by
    rw [hpc]
    exact fun _ _ => SenderPc.noConfusion
  unfold sweepStep at h
  split at h
  · cases h
    have hashed : KeepsTimes t (t.setFile i { f with sha256 := sha s.hashed, sweepDone := true }) :=
      keepsTimes_setFile hf (.of_eq rfl rfl)
    refine .calm (calm_outside (hashed.trans (keepsTimes_of_eq rfl)) rfl ?_ trivial marking rfl)
    intro j k _ hk
    rw [hpc] at hk
    cases hk
    exact .inr ⟨2 ^ 32, rfl, s.block.toNat_lt.le⟩
  · split at h
    · cases h
      exact .calm (calm_leaveFiles (.refl t) rfl marking)
    · split at h
      · cases h
      · simp only at h
        split at h
        · rename_i mid out' hread
          cases h
          obtain ⟨times, silent⟩ := keepsTimes_readBlocks hf hread
          exact .calm (calm_leaveFiles times silent marking)
        · rename_i mid out' bytes hread
          cases h
          obtain ⟨times, silent⟩ := keepsTimes_readBlocks hf hread
          refine .calm (calm_outside (times.trans (keepsTimes_of_eq rfl)) silent ?_ trivial marking
            rfl)
          exact place_keep (by rw [hpc]; rfl)

theorem turn_sweepMarkStep {i : Nat} {s : Sweep} {f : FileTx} (hpc : t.pc = .sweepMark i s)
    (hf : t.tx[i]? = some f) : Turn io.now t (t.sweepMarkStep io i s f) [] := by
  unfold sweepMarkStep
  dsimp only
  split
  · refine .marked hpc hf rfl ?_ ⟨_, rfl, rfl⟩ (fun _ _ => SenderPc.noConfusion) trivial ?_
      fun _ _ _ _ => SenderPc.noConfusion
    · exact (keepsTimes_reapInflight _).trans (keepsTimes_of_eq rfl)
    · exact passFrom_enterRepair (by rw [hpc]; rfl)
  · refine .marked hpc hf rfl (keepsTimes_of_eq rfl) ⟨_, rfl, rfl⟩ (fun _ _ => SenderPc.noConfusion)
      trivial ?_ fun _ _ _ _ => SenderPc.noConfusion
    intro r' hr'
    cases hr'

theorem turn_of_senderStep (h : t.senderStep sha io = some (t', out)) : Turn io.now t t' out := by
  unfold senderStep at h
  split at h
  -- The head of the file loop.
  case h_1 i hpc =>
    have marking : ∀ i s, t.pc ≠ .sweepMark i s := by
      rw [hpc]
      exact fun _ _ => SenderPc.noConfusion
    have nowhere : ∀ pc, PlaceMoves t.tx.length t.pc pc := fun _ => place_none (by rw [hpc]; rfl)
    split at h
    · cases h
      exact .calm (calm_leaveFiles (.refl t) rfl marking)
    · rename_i f hf
      split at h
      · cases h
        exact .calm (calm_leaveFiles (.refl t) rfl marking)
      · split at h
        · cases h
          exact .calm (calm_outside (keepsTimes_of_eq rfl) rfl (nowhere _) trivial marking rfl)
        · split at h
          · cases h
            have hashed : KeepsTimes t (t.setFile i { f with sha256 := sha [], sweepDone := true }) :=
              keepsTimes_setFile hf (.of_eq rfl rfl)
            exact .calm (calm_outside (hashed.trans (keepsTimes_of_eq rfl)) rfl (nowhere _) trivial
              marking rfl)
          · cases h
            exact .calm (calm_outside (keepsTimes_of_eq rfl) rfl (nowhere _) trivial marking rfl)
  -- The sweep reads a chunk.
  case h_2 i s hpc =>
    obtain ⟨f, hf, h⟩ := Option.bind_eq_some_iff.mp h
    exact turn_sweepStep hpc hf h
  -- A block of the chunk, which is skipped or sent.
  case h_3 i s hpc =>
    obtain ⟨f, hf, h⟩ := Option.map_eq_some_iff.mp h
    have marking : ∀ i s, t.pc ≠ .sweepMark i s := by
      rw [hpc]
      exact fun _ _ => SenderPc.noConfusion
    split at h
    · cases h
      exact .calm (calm_outside (keepsTimes_of_eq rfl) rfl (place_keep (by rw [hpc]; rfl)) trivial
        marking rfl)
    · rename_i hchunk
      split at h
      · cases h
        refine .calm (calm_outside (keepsTimes_of_eq rfl) rfl ?_ (UInt32.not_le.mp hchunk) marking
          rfl)
        intro j k _ hk
        rw [hpc] at hk
        cases hk
        exact .inr ⟨_, rfl, Nat.le_succ _⟩
      · split at h
        · cases h
          exact .calm (calm_leaveFiles (.refl t) rfl marking)
        · cases h
          exact .calm (calm_outside (keepsTimes_of_eq rfl) rfl (place_keep (by rw [hpc]; rfl))
            (UInt32.not_le.mp hchunk) marking rfl)
  -- `TrySend` of that block: it waits, the link is closed, or the block is sent.
  case h_4 i s hpc =>
    obtain ⟨f, hf, h⟩ := Option.map_eq_some_iff.mp h
    have marking : ∀ i s, t.pc ≠ .sweepMark i s := by
      rw [hpc]
      exact fun _ _ => SenderPc.noConfusion
    split at h
    all_goals
      rename_i mid out' hsend
      have hdata := trySend_data hsend
      obtain ⟨-, htx, hmid, -⟩ := trySend_spec hsend
      cases h
    · exact .calm (calm_retry (keepsTimes_of_eq htx) hdata hmid)
    · exact .calm (calm_leaveFiles (keepsTimes_of_eq htx) hdata marking)
    · exact .swept hpc rfl htx (List.getElem?_eq_some_iff.mp hf).1 hdata
  -- After the block, where a repair may be due.
  case h_5 i s hpc =>
    obtain ⟨f, hf, h⟩ := Option.map_eq_some_iff.mp h
    cases h
    exact turn_sweepMarkStep hpc hf
  -- `file_done` goes out, and the file is in flight.
  case h_6 i hpc =>
    obtain ⟨f, hf, h⟩ := Option.map_eq_some_iff.mp h
    cases h
    have marked : KeepsTimes t (t.setFile i { f with announced := true }) :=
      keepsTimes_setFile hf (.of_eq rfl rfl)
    refine .calm (calm_outside (marked.trans (keepsTimes_of_eq rfl)) ?_ ?_ trivial ?_ rfl)
    · split <;> rfl
    · intro j k _ hk
      rw [hpc] at hk
      cases hk
      exact .inl (Nat.lt_succ_self i)
    · rw [hpc]
      exact fun _ _ => SenderPc.noConfusion
  -- The wait for room in `inflight_`.
  case h_7 i hpc =>
    have marking : ∀ i s, t.pc ≠ .sweepMark i s := by
      rw [hpc]
      exact fun _ _ => SenderPc.noConfusion
    have nowhere : ∀ pc, PlaceMoves t.tx.length t.pc pc := fun _ => place_none (by rw [hpc]; rfl)
    split at h
    · cases h
      exact .calm (calm_outside (keepsTimes_of_eq rfl) rfl (nowhere _) trivial marking rfl)
    · simp only at h
      have reaped := keepsTimes_reapInflight t
      split at h
      · cases h
        exact .calm (calm_outside (reaped.trans (keepsTimes_of_eq rfl)) rfl (nowhere _) trivial
          marking rfl)
      · cases h
        exact .calm (calm_enterRepair reaped (nowhere _) marking (by rw [hpc]; rfl))
  -- The wait for the last files.
  case h_8 hpc =>
    have marking : ∀ i s, t.pc ≠ .sweepMark i s := by
      rw [hpc]
      exact fun _ _ => SenderPc.noConfusion
    have nowhere : ∀ pc, PlaceMoves t.tx.length t.pc pc := fun _ => place_none (by rw [hpc]; rfl)
    split at h
    · cases h
      exact .calm (calm_outside (keepsTimes_of_eq rfl) rfl (nowhere _) trivial marking rfl)
    · simp only at h
      have reaped := keepsTimes_reapInflight t
      split at h
      · cases h
        exact .calm (calm_outside (reaped.trans (keepsTimes_of_eq rfl)) rfl (nowhere _) trivial
          marking rfl)
      · cases h
        exact .calm (calm_enterRepair reaped (nowhere _) marking (by rw [hpc]; rfl))
  -- A repair pass.
  case h_9 r hpc =>
    cases h
    exact .calm (turn_repairPassStep hpc)
  case h_10 holes block r hpc => exact turn_repairRunStep hpc h
  case h_11 holes block payload r hpc => exact turn_repairSendStep hpc h
  -- The readers are closed, and the end is reported unless the thread was stopped.
  case h_12 hpc =>
    have closed : ∀ t' : Sender, t'.tx = t.tx.map (fun f => { f with readerOpen := false }) →
        KeepsTimes t t' := by
      intro t' htx j f' hf'
      rw [htx, List.getElem?_map, Option.map_eq_some_iff] at hf'
      obtain ⟨f, hf, rfl⟩ := hf'
      exact ⟨f, hf, .of_eq rfl rfl⟩
    have marking : ∀ i s, t.pc ≠ .sweepMark i s := by
      rw [hpc]
      exact fun _ _ => SenderPc.noConfusion
    have nowhere : ∀ pc, PlaceMoves t.tx.length t.pc pc := fun _ => place_none (by rw [hpc]; rfl)
    simp only at h
    split at h
    · cases h
      exact .calm (calm_outside (closed _ rfl) rfl (nowhere _) trivial marking rfl)
    · cases h
      exact .calm (calm_outside (closed _ rfl) rfl (nowhere _) trivial marking rfl)
  case h_13 => cases h

/-- What a step of the engine does about times and sends. -/
theorem turn_of_step {a : SenderAct} {now : UInt32} (h : t.step sha a = some (t', out))
    (hnow : ∀ io, a = .thread io → io.now = now) : Turn now t t' out := by
  obtain ⟨io, rfl, hthread⟩ | ⟨called, -, hcall⟩ := step_cases h
  · rw [← hnow io rfl]
    exact turn_of_senderStep hthread
  · obtain ⟨times, rfl⟩ := keepsTimes_call h hcall
    exact .calm (calm_retry times rfl called.pc)

end Sender

namespace Timed

open Sender

/-! ## What is known of the sends so far -/

section

variable {m : Manifest} {sha : Bytes → Bytes} {s : Timed} {a : Tick} {t : Sender}
  {out : List TxEvent}

/-- The log, the recorded times and the place of the thread fit together. -/
structure Tracked (m : Manifest) (s : Timed) : Prop where
  prepared : Prepared m s.engine
  spaced : Spaced s.sent
  known : ∀ e ∈ s.sent, e.file < s.engine.tx.length
  past : ∀ e ∈ s.sent, e.time ≤ e.clock ∧ e.clock ≤ s.clock
  start : s.passStart ≤ s.clock
  chunk : InChunk s.engine.pc
  /-- A block that has been sent lies behind the sweep. -/
  behind : ∀ e ∈ s.sent, e.file < passed s.engine.tx.length s.engine.pc ∨
    e.repair = false ∧ ∃ k, reached s.engine.pc = some (e.file, k) ∧ e.block.toNat < k
  pass : ∀ r, repairOf s.engine.pc = some r →
    r.now = UInt32.ofNat s.passStart ∧ UInt32.ofNat kRepairMinHoldMs ≤ r.hold
  /-- What `repair_ms` says of a block is when it was last sent. -/
  repaired : ∀ i f b time, s.engine.tx[i]? = some f → f.repairMs.lookup b = some time →
    ∃ e ∈ s.sent, Of i b e ∧ e.repair = true ∧ time = UInt32.ofNat e.clock ∧
      ∀ e' ∈ s.sent, Of i b e' → e'.time ≤ e.clock
  /-- What `sweep_ms` says of a block is not before its sweep, once this has been recorded. -/
  swept : ∀ e ∈ s.sent, e.repair = false →
    (∀ s', s.engine.pc = .sweepMark e.file s' → e.block ≠ s'.block) →
    ∀ f, s.engine.tx[e.file]? = some f → Timed.swept f e.block = 0 ∨
      ∃ time, Timed.swept f e.block = UInt32.ofNat time ∧ e.time ≤ time ∧ time ≤ s.passStart
  /-- A block that is about to be repaired has not just been sent. -/
  due : ∀ holes b payload r i files, s.engine.pc = .repairSend holes b payload r →
    r.files = i :: files → ∀ e ∈ s.sent, Of i b e → e.time + kRepairMinHoldMs ≤ s.clock

theorem sentBy_silent {pc : SenderPc} (h : out.any TxEvent.isData = false) : sentBy pc a out = [] := by
  rw [sentBy, h, if_neg Bool.false_ne_true]

theorem sentBy_sent {pc : SenderPc} {i : Nat} {b : UInt32} {repair : Bool}
    (h : out.any TxEvent.isData = true) (hpc : sending pc = some (i, b, repair)) :
    sentBy pc a out = [⟨i, b, repair, a.leaves, a.clock⟩] := by
  rw [sentBy, h, if_pos rfl, hpc]
  rfl

theorem after_sent (h : out.any TxEvent.isData = false) : (s.after a t out).sent = s.sent := by
  rw [after, sentBy_silent h, List.append_nil]

theorem passStart_le (h : s.passStart ≤ s.clock) (ha : s.clock ≤ a.clock) :
    s.passStart ≤ (s.after a t out).passStart ∧ (s.after a t out).passStart ≤ a.clock := by
  rw [after]
  split
  · exact ⟨le_rfl, h.trans ha⟩
  · exact ⟨h.trans ha, le_rfl⟩

theorem swept_of_sameTimes {f f' : FileTx} (h : SameTimes f f') (b : UInt32) :
    Timed.swept f' b = Timed.swept f b := by
  rw [Timed.swept, Timed.swept, h.swept]

/-- The pass after a step has the clock of its beginning. -/
theorem Tracked.pass_after (h : Tracked m s)
    (pass : PassFrom (UInt32.ofNat a.clock) s.engine.pc t.pc) (r : RepairLocals)
    (hr : repairOf t.pc = some r) : r.now = UInt32.ofNat (s.after a t out).passStart ∧
      UInt32.ofNat kRepairMinHoldMs ≤ r.hold := by
  obtain ⟨hnone, hnow, hhold⟩ | ⟨r₀, hr₀, hnow, hhold⟩ := pass r hr
  · have hout : inRepair s.engine.pc = false := by rw [inRepair, hnone]; rfl
    rw [after, hout, if_neg Bool.false_ne_true]
    exact ⟨hnow, hhold⟩
  · have hin : inRepair s.engine.pc = true := by rw [inRepair, hr₀]; rfl
    rw [after, hin, if_pos rfl, hnow, hhold]
    exact h.pass r₀ hr₀

theorem Tracked.behind_after (h : Tracked m s) (advances : Advances s.engine t)
    (place : PlaceMoves s.engine.tx.length s.engine.pc t.pc) {e : Sent} (he : e ∈ s.sent) :
    e.file < passed s.engine.tx.length t.pc ∨
      e.repair = false ∧ ∃ k, reached t.pc = some (e.file, k) ∧ e.block.toNat < k := by
  obtain hpassed | ⟨hsweep, k, hk, hlt⟩ := h.behind e he
  · exact .inl (advances.passed _ (h.known e he) hpassed)
  · obtain hpassed | ⟨k', hk', hle⟩ := place _ _ (h.known e he) hk
    · exact .inl hpassed
    · exact .inr ⟨hsweep, k', hk', by omega⟩

/-- Times that are only dropped are still those of the log. -/
theorem Tracked.repaired_after (h : Tracked m s) (times : KeepsTimes s.engine t) {i : Nat}
    {f : FileTx} {b time : UInt32} (hf : t.tx[i]? = some f) (hb : f.repairMs.lookup b = some time) :
    ∃ e ∈ s.sent, Of i b e ∧ e.repair = true ∧ time = UInt32.ofNat e.clock ∧
      ∀ e' ∈ s.sent, Of i b e' → e'.time ≤ e.clock := by
  obtain ⟨f₀, hf₀, same⟩ := times i f hf
  obtain heq | hnone := same.repaired b
  · exact h.repaired i f₀ b time hf₀ (heq ▸ hb)
  · rw [hnone] at hb
    cases hb

theorem Tracked.swept_after (h : Tracked m s) (ha : s.clock ≤ a.clock)
    (times : KeepsTimes s.engine t) {e : Sent} (he : e ∈ s.sent) (hsweep : e.repair = false)
    (hmark : ∀ s', s.engine.pc = .sweepMark e.file s' → e.block ≠ s'.block) {f : FileTx}
    (hf : t.tx[e.file]? = some f) : Timed.swept f e.block = 0 ∨
      ∃ time, Timed.swept f e.block = UInt32.ofNat time ∧ e.time ≤ time ∧
        time ≤ (s.after a t out).passStart := by
  obtain ⟨f₀, hf₀, same⟩ := times _ f hf
  rw [swept_of_sameTimes same]
  obtain hzero | ⟨time, htime, hle, hstart⟩ := h.swept e he hsweep hmark f₀ hf₀
  · exact .inl hzero
  · exact .inr ⟨time, htime, hle, hstart.trans (passStart_le h.start ha).1⟩

theorem length_of_advances {t t' : Sender} (h : Advances t t') : t'.tx.length = t.tx.length := by
  simpa using congrArg List.length h.plan

theorem Tracked.calm (h : Tracked m s) (ha : s.clock ≤ a.clock) (prepared : Prepared m t)
    (advances : Advances s.engine t) (calm : Calm (UInt32.ofNat a.clock) s.engine t out) :
    Tracked m (s.after a t out) where
  prepared := prepared
  spaced := by
    rw [after_sent calm.silent]
    exact h.spaced
  known := by
    rw [after_sent calm.silent]
    intro e he
    exact lt_of_lt_of_eq (h.known e he) (length_of_advances advances).symm
  past := by
    rw [after_sent calm.silent]
    intro e he
    exact ⟨(h.past e he).1, (h.past e he).2.trans ha⟩
  start := (passStart_le h.start ha).2
  chunk := calm.chunk h.chunk
  behind := by
    rw [after_sent calm.silent]
    intro e he
    have hbehind := h.behind_after advances calm.place he
    rwa [← length_of_advances advances] at hbehind
  pass := h.pass_after calm.pass
  repaired := by
    rw [after_sent calm.silent]
    exact fun i f b time => h.repaired_after calm.times
  swept := by
    rw [after_sent calm.silent]
    intro e he hsweep hmark f hf
    apply h.swept_after ha calm.times he hsweep _ hf
    exact fun s' hs' => hmark s' (calm.marking _ _ hs')
  due := by
    rw [after_sent calm.silent]
    intro holes b payload r i files hpc hfiles e he hof
    have hpc₀ := (calm.sending _ _ _ _ hpc).trans hpc
    exact (h.due holes b payload r i files hpc₀ hfiles e he hof).trans ha

theorem Tracked.sweepSent (h : Tracked m s) (ha : s.clock ≤ a.leaves) (hread : a.leaves ≤ a.clock)
    (prepared : Prepared m t) {i : Nat} {w : Sweep}
    (hpc : s.engine.pc = .sweepSend i w) (hpc' : t.pc = .sweepMark i w) (htx : t.tx = s.engine.tx)
    (hi : i < s.engine.tx.length) (sent : out.any TxEvent.isData = true) :
    Tracked m (s.after a t out) := by
  have hsent : (s.after a t out).sent = s.sent ++ [⟨i, w.block, false, a.leaves, a.clock⟩] := by
    rw [after, sentBy_sent sent (by rw [hpc]; rfl)]
  have hpassed : passed s.engine.tx.length s.engine.pc = i := by
    rw [hpc]
    rfl
  -- The sweep comes to the block for the first time, and no repair has come to the file.
  have hfirst : ∀ e ∈ s.sent, e.file = i → e.repair = false ∧ e.block.toNat < w.block.toNat := by
    intro e he hfile
    obtain hlt | ⟨hsweep, k, hk, hlt⟩ := h.behind e he
    · omega
    · rw [hpc] at hk
      cases hk
      exact ⟨hsweep, hlt⟩
  exact
    { prepared := prepared
      spaced := by
        rw [hsent, Spaced, List.pairwise_append]
        refine ⟨h.spaced, List.pairwise_singleton _ _, ?_⟩
        intro e he e' he' hfile hblock
        obtain rfl := List.mem_singleton.mp he'
        have hlt := (hfirst e he hfile).2
        rw [hblock] at hlt
        exact absurd hlt (lt_irrefl _)
      known := by
        rw [hsent]
        intro e he
        change e.file < t.tx.length
        rw [htx]
        obtain he | he := List.mem_append.mp he
        · exact h.known e he
        · rw [List.mem_singleton.mp he]
          exact hi
      past := by
        rw [hsent]
        intro e he
        obtain he | he := List.mem_append.mp he
        · exact ⟨(h.past e he).1, (h.past e he).2.trans (ha.trans hread)⟩
        · rw [List.mem_singleton.mp he]
          exact ⟨hread, le_rfl⟩
      start := (passStart_le h.start (ha.trans hread)).2
      chunk := by
        have hchunk := h.chunk
        rw [hpc] at hchunk
        change InChunk t.pc
        rw [hpc']
        exact hchunk
      behind := by
        rw [hsent]
        intro e he
        change e.file < passed t.tx.length t.pc ∨ _ ∧ ∃ k, reached t.pc = _ ∧ _
        rw [hpc', htx]
        obtain he | he := List.mem_append.mp he
        · obtain hlt | ⟨hsweep, k, hk, hlt⟩ := h.behind e he
          · exact .inl (hpassed ▸ hlt)
          · rw [hpc] at hk
            cases hk
            exact .inr ⟨hsweep, _, rfl, Nat.lt_succ_of_lt hlt⟩
        · rw [List.mem_singleton.mp he]
          exact .inr ⟨rfl, _, rfl, Nat.lt_succ_self _⟩
      pass := by
        intro r hr
        change repairOf t.pc = some r at hr
        rw [hpc'] at hr
        cases hr
      repaired := by
        rw [hsent]
        intro j f b time hf hb
        change t.tx[j]? = some f at hf
        rw [htx] at hf
        obtain ⟨e, he, hof, hrepair, htime, hlast⟩ := h.repaired j f b time hf hb
        refine ⟨e, List.mem_append_left _ he, hof, hrepair, htime, ?_⟩
        intro e' he' hof'
        obtain he' | he' := List.mem_append.mp he'
        · exact hlast e' he' hof'
        · rw [List.mem_singleton.mp he'] at hof'
          have hsweep := (hfirst e he (hof.1.trans hof'.1.symm)).1
          rw [hrepair] at hsweep
          cases hsweep
      swept := by
        rw [hsent]
        intro e he hsweep hmark f hf
        obtain he | he := List.mem_append.mp he
        · apply h.swept_after (ha.trans hread) (keepsTimes_of_eq htx) he hsweep _ hf
          rw [hpc]
          exact fun _ => SenderPc.noConfusion
        · rw [List.mem_singleton.mp he] at hmark
          exact absurd rfl (hmark w hpc')
      due := by
        intro holes b payload r j files hpc₀
        change t.pc = _ at hpc₀
        rw [hpc'] at hpc₀
        cases hpc₀ }

/-- The time a mark leaves for a block: the mark itself for the blocks of its bucket. -/
theorem swept_marked (f : FileTx) (b block now : UInt32) :
    Timed.swept { f with sweepMs := f.sweepMs.set (block / kBucketBlocks).toNat now } b = now ∨
      Timed.swept { f with sweepMs := f.sweepMs.set (block / kBucketBlocks).toNat now } b = 0 ∨
      b ≠ block ∧
        Timed.swept { f with sweepMs := f.sweepMs.set (block / kBucketBlocks).toNat now } b =
          Timed.swept f b := by
  simp only [Timed.swept, List.getD_eq_getElem?_getD, List.getElem?_set]
  by_cases hbucket : (block / kBucketBlocks).toNat = (b / kBucketBlocks).toNat
  · rw [if_pos hbucket]
    split
    · exact .inl rfl
    · exact .inr (.inl rfl)
  · rw [if_neg hbucket]
    refine .inr (.inr ⟨?_, rfl⟩)
    rintro rfl
    exact hbucket rfl

theorem Tracked.sweepMark (h : Tracked m s) (ha : s.clock ≤ a.clock) (prepared : Prepared m t)
    (advances : Advances s.engine t) {i : Nat} {w : Sweep} {f : FileTx}
    (hpc : s.engine.pc = .sweepMark i w) (hf : s.engine.tx[i]? = some f)
    (times : KeepsTimes (s.engine.setFile i { f with
      sweepMs := f.sweepMs.set (w.block / kBucketBlocks).toNat (UInt32.ofNat a.clock) }) t)
    (hreached : reached t.pc = some (i, (w.block + 1).toNat)) (hchunk : InChunk t.pc)
    (hpass : PassFrom (UInt32.ofNat a.clock) s.engine.pc t.pc)
    (notSending : ∀ holes b payload r, t.pc ≠ .repairSend holes b payload r) :
    Tracked m (s.after a t []) := by
  have hsent : (s.after a t []).sent = s.sent := after_sent rfl
  have hi := (List.getElem?_eq_some_iff.mp hf).1
  have hsucc : (w.block + 1).toNat = w.block.toNat + 1 := by
    have hlt := h.chunk
    rw [hpc] at hlt
    have hlt : w.block.toNat < w.chunkEnd.toNat := UInt32.lt_iff_toNat_lt.mp hlt
    have := w.chunkEnd.toNat_lt
    rw [UInt32.toNat_add]
    exact Nat.mod_eq_of_lt (by rw [UInt32.toNat_one]; omega)
  have hplace : PlaceMoves s.engine.tx.length s.engine.pc t.pc := by
    rw [hpc]
    intro j k _ hk
    cases hk
    exact .inr ⟨_, hreached, hsucc.ge⟩
  -- The mark is the time of this step, and does not touch what is known of the repairs.
  have hstart : (s.after a t []).passStart = a.clock := by
    rw [after, hpc]
    rfl
  have hfile : ∀ (j : Nat) (f' : FileTx), t.tx[j]? = some f' → ∃ f₀, s.engine.tx[j]? = some f₀ ∧
      (∀ b, f'.repairMs.lookup b = f₀.repairMs.lookup b ∨ f'.repairMs.lookup b = none) ∧
      ∀ b, Timed.swept f' b = Timed.swept f₀ b ∧ (j = i → b ≠ w.block) ∨
        Timed.swept f' b = UInt32.ofNat a.clock ∨ Timed.swept f' b = 0 := by
    intro j f' hf'
    obtain ⟨f₁, hf₁, same⟩ := times j f' hf'
    by_cases hji : i = j
    · subst hji
      rw [setFile, List.getElem?_set_self hi, Option.some.injEq] at hf₁
      subst hf₁
      refine ⟨f, hf, same.repaired, fun b => ?_⟩
      rw [swept_of_sameTimes same]
      obtain hmark | hzero | ⟨hne, heq⟩ := swept_marked f b w.block (UInt32.ofNat a.clock)
      · exact .inr (.inl hmark)
      · exact .inr (.inr hzero)
      · exact .inl ⟨heq, fun _ => hne⟩
    · rw [setFile, List.getElem?_set_ne hji] at hf₁
      refine ⟨f₁, hf₁, same.repaired, fun b => .inl ⟨swept_of_sameTimes same b, ?_⟩⟩
      exact fun h => absurd h.symm hji
  exact
    { prepared := prepared
      spaced := hsent ▸ h.spaced
      known := by
        rw [hsent]
        intro e he
        exact lt_of_lt_of_eq (h.known e he) (length_of_advances advances).symm
      past := by
        rw [hsent]
        intro e he
        exact ⟨(h.past e he).1, (h.past e he).2.trans ha⟩
      start := (passStart_le h.start ha).2
      chunk := hchunk
      behind := by
        rw [hsent]
        intro e he
        have hbehind := h.behind_after advances hplace he
        rwa [← length_of_advances advances] at hbehind
      pass := h.pass_after hpass
      repaired := by
        rw [hsent]
        intro j f' b time hf' hb
        obtain ⟨f₀, hf₀, hrepairs, -⟩ := hfile j f' hf'
        obtain heq | hnone := hrepairs b
        · exact h.repaired j f₀ b time hf₀ (heq ▸ hb)
        · rw [hnone] at hb
          cases hb
      swept := by
        rw [hsent]
        intro e he hsweep _ f' hf'
        obtain ⟨f₀, hf₀, -, hsweeps⟩ := hfile e.file f' hf'
        obtain ⟨heq, hother⟩ | hnow | hzero := hsweeps e.block
        · have hold := h.swept e he hsweep (by
            intro s' hs'
            rw [hpc] at hs'
            cases hs'
            exact hother rfl) f₀ hf₀
          rw [heq]
          obtain hzero | ⟨time, htime, hle, hbefore⟩ := hold
          · exact .inl hzero
          · exact .inr ⟨time, htime, hle, hbefore.trans (passStart_le h.start ha).1⟩
        · obtain ⟨hle, hclock⟩ := h.past e he
          exact .inr ⟨a.clock, hnow, by omega, hstart.ge⟩
        · exact .inl hzero
      due := by
        intro holes b payload r j files hpc'
        exact absurd hpc' (notSending holes b payload r) }

/-- A wait that 32-bit clocks see is a wait. -/
theorem wait_of_sub {start time : Nat} {hold : UInt32} (hle : time ≤ start)
    (hhold : UInt32.ofNat kRepairMinHoldMs ≤ hold)
    (h : ¬UInt32.ofNat start - UInt32.ofNat time < hold) : time + kRepairMinHoldMs ≤ start := by
  have hwait := UInt32.le_iff_toNat_le.mp (UInt32.le_trans hhold (UInt32.not_lt.mp h))
  have hsub : UInt32.ofNat start - UInt32.ofNat time = UInt32.ofNat (start - time) :=
    (UInt32.ofNat_sub hle).symm
  have hmin : (UInt32.ofNat kRepairMinHoldMs).toNat = kRepairMinHoldMs := rfl
  rw [hsub, hmin, UInt32.toNat_ofNat'] at hwait
  have hmod := Nat.mod_le (start - time) (2 ^ 32)
  omega

/-- What `LastSent` gives for a block on record. -/
theorem lastSent_eq {f : FileTx} {b : UInt32} :
    (f.repairMs.lookup b = none → lastSent f b = Timed.swept f b) ∧
    ∀ time, f.repairMs.lookup b = some time → Timed.swept f b ≤ time → lastSent f b = time := by
  constructor
  · intro hnone
    rw [lastSent, hnone]
    rfl
  · intro time htime hle
    rw [lastSent, htime]
    change (if Timed.swept f b < time then time else Timed.swept f b) = time
    split
    · rfl
    · rename_i hnot
      exact UInt32.le_antisymm hle (UInt32.not_lt.mp hnot)

/-- A repair that goes ahead comes at least `kRepairMinHoldMs` after every send of the block. -/
theorem Tracked.due_of_lastSent (h : Tracked m s) (minds : Minds s a) {io : TxIo}
    (hact : a.act = .thread io) {run : SackRun} {rest : List SackRun} {b : UInt32}
    {r : RepairLocals} {i : Nat} {files : List Nat} {f : FileTx}
    (hpc : s.engine.pc = .repairRun (run :: rest) b r) (hfiles : r.files = i :: files)
    (hf : s.engine.tx[i]? = some f) (hrun : b < runEnd f run) (hwanted : f.skip.test b.toNat = false)
    (hdue : ¬(lastSent f b ≠ 0 ∧ r.now - lastSent f b < r.hold)) {e : Sent} (he : e ∈ s.sent)
    (hof : Of i b e) : e.time + kRepairMinHoldMs ≤ s.clock := by
  by_contra hrecent
  have hrecord := minds io run rest b r i files f hact hpc hfiles hf hrun hwanted
    ⟨e, he, hof, Nat.not_le.mp hrecent⟩
  obtain ⟨hnow, hhold⟩ := h.pass r (by rw [hpc]; rfl)
  apply hrecent
  refine le_trans ?_ h.start
  cases hlookup : f.repairMs.lookup b with
  | some time =>
    -- The last send was a repair, and `repair_ms` has its time.
    have hlast := lastSent_eq.2 time hlookup (hrecord.ordered time hlookup)
    have hdated : time ≠ 0 := by
      rintro rfl
      obtain hswept | ⟨time', htime', hne⟩ := hrecord.dated
      · have hle := UInt32.le_iff_toNat_le.mp (hrecord.ordered 0 hlookup)
        exact hswept (UInt32.toNat_inj.mp (by rw [UInt32.toNat_zero] at hle ⊢; omega))
      · rw [hlookup, Option.some.injEq] at htime'
        exact hne htime'.symm
    obtain ⟨e₀, he₀, hof₀, hrepair, htime, hlatest⟩ := h.repaired i f b time hf hlookup
    have hbefore := hrecord.before e₀ he₀ hof₀ hrepair
    rw [hlast, hnow, htime] at hdue
    have hwait := wait_of_sub hbefore hhold fun hlt => hdue ⟨htime ▸ hdated, hlt⟩
    have hle := hlatest e he hof
    omega
  | none =>
    -- No repair is on record, so the send was the sweep.
    have hsweep : e.repair = false := by
      by_contra hrepair
      exact hrecord.kept ⟨e, he, hof, by simpa using hrepair, Nat.not_le.mp hrecent⟩ hlookup
    have hlast := lastSent_eq.1 hlookup
    have hdated : Timed.swept f b ≠ 0 := by
      obtain hswept | ⟨time, htime, -⟩ := hrecord.dated
      · exact hswept
      · rw [hlookup] at htime
        cases htime
    obtain ⟨rfl, rfl⟩ := hof
    obtain hzero | ⟨time, htime, hle, hstart⟩ := h.swept e he hsweep (by
      rw [hpc]
      exact fun _ => SenderPc.noConfusion) f hf
    · exact absurd hzero hdated
    · rw [hlast, hnow, htime] at hdue
      have hwait := wait_of_sub hstart hhold fun hlt => hdue ⟨htime ▸ hdated, hlt⟩
      omega

theorem Tracked.decided (h : Tracked m s) (ha : s.clock ≤ a.clock) (prepared : Prepared m t)
    (advances : Advances s.engine t) {run : SackRun} {rest : List SackRun} {b : UInt32}
    {payload : Bytes} {r : RepairLocals} (hpc : s.engine.pc = .repairRun (run :: rest) b r)
    (hpc' : t.pc = .repairSend (run :: rest) b payload r) (times : KeepsTimes s.engine t)
    (silent : out.any TxEvent.isData = false)
    (due : ∀ i files, r.files = i :: files → ∀ e ∈ s.sent, Of i b e →
      e.time + kRepairMinHoldMs ≤ s.clock) : Tracked m (s.after a t out) where
  prepared := prepared
  spaced := by
    rw [after_sent silent]
    exact h.spaced
  known := by
    rw [after_sent silent]
    intro e he
    exact lt_of_lt_of_eq (h.known e he) (length_of_advances advances).symm
  past := by
    rw [after_sent silent]
    intro e he
    exact ⟨(h.past e he).1, (h.past e he).2.trans ha⟩
  start := (passStart_le h.start ha).2
  chunk := by
    change InChunk t.pc
    rw [hpc']
    trivial
  behind := by
    rw [after_sent silent]
    intro e he
    have hplace : PlaceMoves s.engine.tx.length s.engine.pc t.pc :=
      place_keep (by rw [hpc, hpc']; rfl)
    have hbehind := h.behind_after advances hplace he
    rwa [← length_of_advances advances] at hbehind
  pass := by
    apply h.pass_after
    intro r' hr'
    change repairOf t.pc = _ at hr'
    rw [hpc'] at hr'
    cases hr'
    exact .inr ⟨r, by rw [hpc]; rfl, rfl, rfl⟩
  repaired := by
    rw [after_sent silent]
    exact fun i f b time => h.repaired_after times
  swept := by
    rw [after_sent silent]
    intro e he hsweep _ f hf
    apply h.swept_after ha times he hsweep _ hf
    rw [hpc]
    exact fun _ => SenderPc.noConfusion
  -- The block is sent next, and nothing has been sent in this step.
  due := by
    rw [after_sent silent]
    intro holes b' payload' r' i files hsend hfiles e he hof
    change t.pc = _ at hsend
    rw [hpc'] at hsend
    cases hsend
    exact (due i files hfiles e he hof).trans ha

theorem Tracked.repairSent (h : Tracked m s) (ha : s.clock ≤ a.leaves) (hread : a.leaves ≤ a.clock)
    (prepared : Prepared m t) (advances : Advances s.engine t) {holes : List SackRun} {b : UInt32}
    {payload : Bytes} {r : RepairLocals} {i : Nat} {files : List Nat} {f : FileTx}
    (hpc : s.engine.pc = .repairSend holes b payload r) (hfiles : r.files = i :: files)
    (hf : s.engine.tx[i]? = some f)
    (hpc' : t.pc = .repairRun holes (b + 1) { r with budget := r.budget - 1 })
    (htx : t.tx = s.engine.tx.set i { f with repairMs := (b, UInt32.ofNat a.clock) :: f.repairMs })
    (sent : out.any TxEvent.isData = true) : Tracked m (s.after a t out) := by
  have hsent : (s.after a t out).sent = s.sent ++ [⟨i, b, true, a.leaves, a.clock⟩] := by
    rw [after, sentBy_sent sent (by rw [hpc, sending, hfiles]; rfl)]
  have hi := (List.getElem?_eq_some_iff.mp hf).1
  have hmem : i ∈ r.files := hfiles ▸ List.mem_cons_self
  have hpassed := (h.prepared.repairs r (by rw [hpc]; rfl) i hmem).2
  have hplace : PlaceMoves s.engine.tx.length s.engine.pc t.pc :=
    place_keep (by rw [hpc, hpc']; rfl)
  exact
    { prepared := prepared
      spaced := by
        rw [hsent, Spaced, List.pairwise_append]
        refine ⟨h.spaced, List.pairwise_singleton _ _, ?_⟩
        intro e he e' he' hfile hblock
        rw [List.mem_singleton.mp he'] at hfile hblock ⊢
        exact (h.due holes b payload r i files hpc hfiles e he ⟨hfile, hblock⟩).trans ha
      known := by
        rw [hsent]
        intro e he
        change e.file < t.tx.length
        rw [length_of_advances advances]
        obtain he | he := List.mem_append.mp he
        · exact h.known e he
        · rw [List.mem_singleton.mp he]
          exact hi
      past := by
        rw [hsent]
        intro e he
        obtain he | he := List.mem_append.mp he
        · exact ⟨(h.past e he).1, (h.past e he).2.trans (ha.trans hread)⟩
        · rw [List.mem_singleton.mp he]
          exact ⟨hread, le_rfl⟩
      start := (passStart_le h.start (ha.trans hread)).2
      chunk := by
        change InChunk t.pc
        rw [hpc']
        trivial
      behind := by
        rw [hsent]
        intro e he
        change e.file < passed t.tx.length t.pc ∨ _
        rw [length_of_advances advances]
        obtain he | he := List.mem_append.mp he
        · exact h.behind_after advances hplace he
        · rw [List.mem_singleton.mp he]
          exact .inl (advances.passed i hi hpassed)
      pass := by
        apply h.pass_after
        intro r' hr'
        change repairOf t.pc = _ at hr'
        rw [hpc'] at hr'
        cases hr'
        exact .inr ⟨r, by rw [hpc]; rfl, rfl, rfl⟩
      repaired := by
        rw [hsent]
        intro j f' b' time hf' hb
        change t.tx[j]? = some f' at hf'
        by_cases hnew : Of j b' ⟨i, b, true, a.leaves, a.clock⟩
        · -- The block that has just been sent.
          obtain ⟨rfl, rfl⟩ : i = j ∧ b = b' := hnew
          rw [htx, List.getElem?_set_self hi, Option.some.injEq] at hf'
          subst hf'
          rw [List.lookup_cons, beq_self_eq_true, Option.some.injEq] at hb
          refine ⟨_, List.mem_append_right _ (List.mem_singleton_self _), ⟨rfl, rfl⟩, rfl, hb.symm, ?_⟩
          intro e he _
          obtain he | he := List.mem_append.mp he
          · obtain ⟨hle, hclock⟩ := h.past e he
            change e.time ≤ a.clock
            omega
          · rw [List.mem_singleton.mp he]
            exact hread
        · -- Any other block keeps the time it had.
          have hold : ∃ f₀, s.engine.tx[j]? = some f₀ ∧ f₀.repairMs.lookup b' = some time := by
            by_cases hij : i = j
            · subst hij
              rw [htx, List.getElem?_set_self hi, Option.some.injEq] at hf'
              subst hf'
              have hne : (b' == b) = false := by
                simpa using fun heq : b' = b => hnew ⟨rfl, heq.symm⟩
              rw [List.lookup_cons, hne] at hb
              exact ⟨f, hf, hb⟩
            · rw [htx, List.getElem?_set_ne hij] at hf'
              exact ⟨f', hf', hb⟩
          obtain ⟨f₀, hf₀, hb₀⟩ := hold
          obtain ⟨e, he, hof, hrepair, htime, hlast⟩ := h.repaired j f₀ b' time hf₀ hb₀
          refine ⟨e, List.mem_append_left _ he, hof, hrepair, htime, ?_⟩
          intro e' he' hof'
          obtain he' | he' := List.mem_append.mp he'
          · exact hlast e' he' hof'
          · rw [List.mem_singleton.mp he'] at hof'
            exact absurd hof' hnew
      swept := by
        rw [hsent]
        intro e he hsweep _ f' hf'
        change t.tx[e.file]? = some f' at hf'
        obtain he | he := List.mem_append.mp he
        swap
        · rw [List.mem_singleton.mp he] at hsweep
          cases hsweep
        have hold : ∃ f₀, s.engine.tx[e.file]? = some f₀ ∧ f'.sweepMs = f₀.sweepMs := by
          by_cases hij : i = e.file
          · rw [htx, ← hij, List.getElem?_set_self hi, Option.some.injEq] at hf'
            subst hf'
            exact ⟨f, hij ▸ hf, rfl⟩
          · rw [htx, List.getElem?_set_ne hij] at hf'
            exact ⟨f', hf', rfl⟩
        obtain ⟨f₀, hf₀, hsweeps⟩ := hold
        have hkeep : Timed.swept f' e.block = Timed.swept f₀ e.block := by
          rw [Timed.swept, Timed.swept, hsweeps]
        obtain hzero | ⟨time, htime, hle, hstart⟩ := h.swept e he hsweep (by
          rw [hpc]
          exact fun _ => SenderPc.noConfusion) f₀ hf₀
        · exact .inl (hkeep.trans hzero)
        · exact .inr ⟨time, hkeep.trans htime, hle,
            hstart.trans (passStart_le h.start (ha.trans hread)).1⟩
      due := by
        intro holes' b' payload' r' j files' hsend
        change t.pc = _ at hsend
        rw [hpc'] at hsend
        cases hsend }

/-! ## Runs -/

theorem fits_spec (h : a.fits s = true) : s.clock ≤ a.leaves ∧ a.leaves ≤ a.clock ∧
    ∀ io, a.act = .thread io → io.now = UInt32.ofNat a.clock := by
  simp only [Tick.fits, Bool.and_eq_true, decide_eq_true_eq] at h
  refine ⟨h.1.1, h.1.2, fun io hact => ?_⟩
  have hread := h.2
  rw [hact] at hread
  simpa using hread

theorem Tracked.step {s' : Timed} (h : Tracked m s) (minds : Minds s a)
    (hstep : s.step sha a = some s') : Tracked m s' := by
  unfold Timed.step at hstep
  split at hstep
  swap
  · cases hstep
  rename_i hfits
  obtain ⟨ha, hread, hnow⟩ := fits_spec hfits
  obtain ⟨⟨t, out⟩, hengine, rfl⟩ := Option.map_eq_some_iff.mp hstep
  have prepared := h.prepared.step hengine
  have advances : Advances s.engine t := by
    obtain ⟨io, -, hthread⟩ | ⟨called, -, -⟩ := step_cases hengine
    · exact advances_senderStep hthread
    · exact called.advances
  cases turn_of_step hengine hnow with
  | calm calm => exact h.calm (ha.trans hread) prepared advances calm
  | swept pc pc' tx file sent => exact h.sweepSent ha hread prepared pc pc' tx file sent
  | marked pc file silent times place notMarking chunk pass notSending =>
    obtain ⟨k, hreached, rfl⟩ := place
    subst silent
    exact h.sweepMark (ha.trans hread) prepared advances pc file times hreached chunk pass notSending
  | decided pc files file inRun wanted due pc' times silent =>
    apply h.decided (ha.trans hread) prepared advances pc pc' times silent
    intro i files' hfiles e he hof
    rw [files, List.cons.injEq] at hfiles
    obtain ⟨rfl, rfl⟩ := hfiles
    obtain ⟨io, hact, -⟩ | ⟨called, -, -⟩ := step_cases hengine
    · exact h.due_of_lastSent minds hact pc files file inRun wanted due he hof
    · have hsame := called.pc
      rw [pc, pc'] at hsame
      cases hsame
  | repaired pc files file pc' tx sent =>
    exact h.repairSent ha hread prepared advances pc files file pc' tx sent

theorem tracked_start (m : Manifest) (runs : List (UInt16 × List SackRun)) (verified : List UInt16) :
    Tracked m { engine := start m runs verified } := by
  have called := called_startVerified verified
    { tx := m.files.mapIdx (startFile runs), pc := .file 0 }
  have hpc : (start m runs verified).pc = .file 0 := called.pc
  have hnone : ∀ (i : Nat) (f : FileTx) (b : UInt32), (start m runs verified).tx[i]? = some f →
      f.repairMs.lookup b = none := by
    intro i f b hf
    have hnil := forall_start (P := fun f => f.repairMs = []) m runs verified (fun _ _ => rfl)
      (fun _ h => h) f (List.mem_of_getElem? hf)
    rw [hnil]
    rfl
  exact
    { prepared := prepared_start m runs verified
      spaced := List.Pairwise.nil
      known := fun e he => absurd he List.not_mem_nil
      past := fun e he => absurd he List.not_mem_nil
      start := le_rfl
      chunk := by
        change InChunk (Sender.start m runs verified).pc
        rw [hpc]
        trivial
      behind := fun e he => absurd he List.not_mem_nil
      pass := by
        intro r hr
        change repairOf (Sender.start m runs verified).pc = some r at hr
        rw [hpc] at hr
        cases hr
      repaired := by
        intro i f b time hf hb
        rw [hnone i f b hf] at hb
        cases hb
      swept := fun e he => absurd he List.not_mem_nil
      due := by
        intro holes b payload r i files hsend
        change (Sender.start m runs verified).pc = _ at hsend
        rw [hpc] at hsend
        cases hsend }

/-- In every run of an engine in which each repair of a block that has just been sent finds that
    send on record, two sends of one block are at least `kRepairMinHoldMs` apart. -/
theorem spaced_run (sha : Bytes → Bytes) (m : Manifest) (runs : List (UInt16 × List SackRun))
    (verified : List UInt16) {ticks : List Tick} {s : Timed}
    (run : (machine sha (start m runs verified)).Run Minds ticks s) : Spaced s.sent :=
  (run.invariant (Tracked m) (tracked_start m runs verified)
    fun _ _ _ h minds hstep => h.step minds hstep).spaced

end

/-! ## A file of one byte -/

def oneByteManifest : Manifest := ⟨[⟨ascii "a", 1⟩], [], [⟨ascii "a", false⟩], 1⟩

/-- A step of the thread that takes no time and finds the file and the link as they should be. -/
def calmTick (clock : Nat) : Tick :=
  ⟨clock, clock, .thread ⟨UInt32.ofNat clock, some 1, some [0x41], 0, 0, [], []⟩⟩

/-- Ten steps to the end of the sweep and into the loop that waits for the receiver. -/
def oneByteSwept (clock : Nat) : List Tick := List.replicate 10 (calmTick clock)

instance (i : Nat) (b : UInt32) (e : Sent) : Decidable (Of i b e) :=
  inferInstanceAs (Decidable (e.file = i ∧ e.block = b))

theorem onRecord_iff {s : Timed} {i : Nat} {f : FileTx} {b : UInt32} : OnRecord s i f b ↔
    (swept f b ≠ 0 ∨ (f.repairMs.lookup b).any (fun time => time != 0) = true) ∧
    ((∃ e ∈ s.sent, Of i b e ∧ e.repair = true ∧ s.clock < e.time + kRepairMinHoldMs) →
      f.repairMs.lookup b ≠ none) ∧
    (∀ e ∈ s.sent, Of i b e → e.repair = true → e.clock ≤ s.passStart) ∧
    (f.repairMs.lookup b).all (fun time => decide (swept f b ≤ time)) = true := by
  have hdated : (f.repairMs.lookup b).any (fun time => time != 0) = true ↔
      ∃ time, f.repairMs.lookup b = some time ∧ time ≠ 0 := by
    simp [Option.any_eq_true]
  have hordered : (f.repairMs.lookup b).all (fun time => decide (swept f b ≤ time)) = true ↔
      ∀ time, f.repairMs.lookup b = some time → swept f b ≤ time := by
    cases f.repairMs.lookup b <;> simp
  rw [hdated, hordered]
  constructor
  · intro h
    exact ⟨h.dated, h.kept, h.before, h.ordered⟩
  · rintro ⟨dated, kept, before, ordered⟩
    exact ⟨dated, kept, before, ordered⟩

instance (s : Timed) (i : Nat) (f : FileTx) (b : UInt32) : Decidable (OnRecord s i f b) :=
  decidable_of_iff _ onRecord_iff.symm

/-- Whether the block that a repair comes to is on record. -/
def recordedBefore (s : Timed) (_ : Tick) : Bool :=
  match s.engine.pc with
  | .repairRun _ b r =>
    r.files.head?.all fun i => (s.engine.tx[i]?).all fun f => decide (OnRecord s i f b)
  | _ => true

theorem minds_of_recordedBefore (s : Timed) (a : Tick) (h : recordedBefore s a = true) :
    Minds s a := by
  intro io run rest b r i files f _ hpc hfiles hf _ _ _
  simp only [recordedBefore, hpc, hfiles, List.head?_cons, Option.all_some, hf] at h
  exact of_decide_eq_true h

/-- Swept at 1 ms, held back at 50 ms, repaired at 200 ms and held back at 250 ms. -/
theorem spaced_run_held : ∃ s,
    (machine (fun _ => []) (start oneByteManifest [] [])).Run Minds
      (oneByteSwept 1 ++ List.replicate 6 (calmTick 50) ++ List.replicate 7 (calmTick 200) ++
        List.replicate 6 (calmTick 250)) s ∧
      s.sent.map (·.time) = [1, 200] ∧ Spaced s.sent := by
  have hsome : ((machine (fun _ => []) (start oneByteManifest [] [])).exec
      (oneByteSwept 1 ++ List.replicate 6 (calmTick 50) ++ List.replicate 7 (calmTick 200) ++
        List.replicate 6 (calmTick 250)) { engine := start oneByteManifest [] [] }).map
          (·.sent.map (·.time)) = some [1, 200] := by
    decide +kernel
  obtain ⟨s, hs, htimes⟩ := Option.map_eq_some_iff.mp hsome
  have hrun := Machine.Run.of_passes minds_of_recordedBefore hs (by decide +kernel)
  exact ⟨s, hrun, htimes, spaced_run (fun _ => []) oneByteManifest [] [] hrun⟩

/-- Swept at 0 ms, which counts as never, and repaired at 1 ms. -/
theorem not_spaced_oneByte :
    ¬ ∀ (sha : Bytes → Bytes) (m : Manifest) (runs : List (UInt16 × List SackRun))
      (verified : List UInt16) (ticks : List Tick) (s : Timed),
      (machine sha (start m runs verified)).Run Machine.anyStep ticks s → Spaced s.sent := by
  intro hspaced
  have hsome : (((machine (fun _ => []) (start oneByteManifest [] [])).exec
      (oneByteSwept 0 ++ List.replicate 4 (calmTick 1))
      { engine := start oneByteManifest [] [] }).map (·.sent)) =
        some [⟨0, 0, false, 0, 0⟩, ⟨0, 0, true, 1, 1⟩] := by
    decide +kernel
  obtain ⟨s, hs, hsent⟩ := Option.map_eq_some_iff.mp hsome
  have hpair := hspaced _ _ _ _ _ s (Machine.run_of_exec hs)
  rw [hsent, Spaced, List.pairwise_pair] at hpair
  exact absurd (hpair rfl rfl) (by decide)

end Timed

end CrossTransfer.Transfer
