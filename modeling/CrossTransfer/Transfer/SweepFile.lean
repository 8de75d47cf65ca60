import CrossTransfer.Library.FixedWidth
import CrossTransfer.Library.Schedule
import CrossTransfer.Transfer.BlockLayout
import CrossTransfer.Transfer.SenderMachine
import Mathlib.Data.Prod.Lex

/-! # What a sweep sends and hashes

`SweepFile` of one file, while the other threads call into the engine and repair passes of earlier
files come in between. `SweepMove` says what a step of the thread can do in the sweep, `sweepRank`
falls with each of them, and `Sweeping` is the invariant.

The vector of the bucket times is sized by `(blocks + 255) / 256` in 32 bits. For the last 255 block
counts below `2 ^ 32` this wraps, and there is no bucket at all (`sweepFile_iff`).
-/

namespace CrossTransfer.Transfer

open CrossTransfer.Library
open Paths

/-- The locals with which `SweepFile` starts. -/
def Sweep.begin : Sweep := ⟨0, 0, 0, [], [], 0⟩

def TxEvent.wire? : TxEvent → Option Bytes
  | .data wire => some wire
  | _ => none

def RepairCaller.sweep? : RepairCaller → Option (Nat × Sweep)
  | .sweep i s => some (i, s)
  | .inner _ => none
  | .drain => none

namespace Sender

/-- The sweep the thread is in, also while it is in a repair pass that the sweep has called. -/
def sweepOf : SenderPc → Option (Nat × Sweep)
  | .sweepRead i s => some (i, s)
  | .sweepBlock i s => some (i, s)
  | .sweepSend i s => some (i, s)
  | .sweepMark i s => some (i, s)
  | .repairPass r => r.caller.sweep?
  | .repairRun _ _ r => r.caller.sweep?
  | .repairSend _ _ _ r => r.caller.sweep?
  | _ => none

/-- The block of a repair is not the last 32-bit number. -/
def NoWrap : SenderPc → Prop
  | .repairSend _ block _ _ => block.toNat + 1 < 2 ^ 32
  | _ => True

/-! ## The rank -/

/-- The work left in the run of holes of a repair. -/
def holeWork (holes : List SackRun) (block : UInt32) : Nat :=
  holes.length * 2 ^ 34 + 2 * (2 ^ 32 - block.toNat)

/-- What is left of a sweep of `blocks` blocks: in the sweep, in its repair pass, in the repair of
    one file. -/
def sweepRank (blocks : Nat) : SenderPc → ℕ ×ₗ ℕ ×ₗ ℕ
  | .sweepRead _ s => toLex (6 * (blocks - s.block.toNat) + 3, toLex (0, 0))
  | .sweepBlock _ s =>
    toLex (6 * (blocks - s.block.toNat) + if s.chunkEnd ≤ s.block then 4 else 2, toLex (0, 0))
  | .sweepSend _ s => toLex (6 * (blocks - s.block.toNat) + 1, toLex (0, 0))
  | .sweepMark _ s => toLex (6 * (blocks - s.block.toNat), toLex (0, 0))
  | .repairPass r => toLex (ofCaller r.caller, toLex (2 * r.files.length + 1, 0))
  | .repairRun holes block r =>
    toLex (ofCaller r.caller, toLex (2 * r.files.length, holeWork holes block + 1))
  | .repairSend holes block _ r =>
    toLex (ofCaller r.caller, toLex (2 * r.files.length, holeWork holes block))
  | _ => toLex (0, toLex (0, 0))
where
  ofCaller : RepairCaller → Nat
    | .sweep _ s => 6 * (blocks - s.block.toNat) + 5
    | .inner _ => 0
    | .drain => 0

variable {blocks : Nat} {pc pc' : SenderPc} {r r' : RepairLocals}

theorem rank_lt_of_first {a a' : Nat} {b b' : ℕ ×ₗ ℕ} (h : a < a') :
    toLex (a, b) < toLex (a', b') :=
  Prod.Lex.toLex_lt_toLex.mpr (.inl h)

theorem rank_lt_of_second {a b b' c c' : Nat} (h : b < b') :
    toLex (a, toLex (b, c)) < toLex (a, toLex (b', c')) :=
  Prod.Lex.toLex_lt_toLex.mpr (.inr ⟨rfl, Prod.Lex.toLex_lt_toLex.mpr (.inl h)⟩)

theorem rank_lt_of_third {a b c c' : Nat} (h : c < c') :
    toLex (a, toLex (b, c)) < toLex (a, toLex (b, c')) :=
  Prod.Lex.toLex_lt_toLex.mpr (.inr ⟨rfl, Prod.Lex.toLex_lt_toLex.mpr (.inr ⟨rfl, h⟩)⟩)

/-! ## One step of the thread -/

variable {sha : Bytes → Bytes} {io : TxIo} {i : Nat} {s : Sweep} {f : FileTx} {t t' : Sender}
  {out : List TxEvent}

/-- What a step in a repair pass does: it stays in the pass, or goes back to the sweep, and there is
    less to do; only a block that the link does not take is tried again. -/
structure RepairMove (io : TxIo) (blocks : Nat) (i : Nat) (s : Sweep) (t t' : Sender) : Prop where
  quiet : Quiet t t'
  sweep : sweepOf t'.pc = some (i, s)
  place : t'.pc = .sweepBlock i s ∨ ∃ r, repairOf t'.pc = some r
  noWrap : NoWrap t'.pc
  rank : sweepRank blocks t'.pc < sweepRank blocks t.pc ∨
    io.sendResult ≠ 0 ∧ t'.pc = t.pc

theorem repairDone_move {r : RepairLocals} (quiet : Quiet t t') (hr : repairOf t.pc = some r)
    (hcaller : r.caller.sweep? = some (i, s)) (hpc : t'.pc = repairDone r.caller) :
    RepairMove io blocks i s t t' := by
  have hdone : repairDone r.caller = .sweepBlock i s := by
    cases hc : r.caller with
    | sweep j s' =>
      rw [hc] at hcaller
      cases hcaller
      rfl
    | inner => rw [hc] at hcaller; cases hcaller
    | drain => rw [hc] at hcaller; cases hcaller
  have hof : sweepRank.ofCaller blocks r.caller = 6 * (blocks - s.block.toNat) + 5 := by
    cases hc : r.caller with
    | sweep j s' =>
      rw [hc] at hcaller
      cases hcaller
      rfl
    | inner => rw [hc] at hcaller; cases hcaller
    | drain => rw [hc] at hcaller; cases hcaller
  have hlt : ∀ b : ℕ ×ₗ ℕ, sweepRank blocks (.sweepBlock i s) <
      toLex (sweepRank.ofCaller blocks r.caller, b) := by
    intro b
    refine rank_lt_of_first ?_
    rw [hof]
    split <;> omega
  refine ⟨quiet, by rw [hpc, hdone]; rfl, .inl (hpc.trans hdone), by rw [hpc, hdone]; trivial, .inl ?_⟩
  rw [hpc, hdone]
  cases hpc' : t.pc with
  | repairPass r₀ =>
    rw [hpc'] at hr
    cases hr
    exact hlt _
  | repairRun holes block r₀ =>
    rw [hpc'] at hr
    cases hr
    exact hlt _
  | repairSend holes block payload r₀ =>
    rw [hpc'] at hr
    cases hr
    exact hlt _
  | _ => rw [hpc'] at hr; cases hr

theorem length_nextFile {j : Nat} {rest : List Nat} (h : r.files = j :: rest) :
    (nextFile r).files.length = rest.length := by
  rw [nextFile, h]
  rfl

theorem repairMove_passStep (hpc : t.pc = .repairPass r)
    (hcaller : r.caller.sweep? = some (i, s)) :
    RepairMove io blocks i s t (t.repairPassStep r) := by
  have hrepair : repairOf t.pc = some r := hpc ▸ rfl
  unfold repairPassStep
  split
  · exact repairDone_move ⟨rfl, fun _ => id⟩ hrepair hcaller rfl
  · rename_i j rest hfiles
    have next : RepairMove io blocks i s t { t with pc := .repairPass (nextFile r) } := by
      refine ⟨⟨rfl, fun _ => id⟩, hcaller, .inr ⟨_, rfl⟩, trivial, .inl ?_⟩
      rw [hpc]
      refine rank_lt_of_second ?_
      rw [length_nextFile hfiles, hfiles, List.length_cons]
      omega
    split
    · exact next
    · rename_i f hf
      split
      · exact next
      · split
        · exact next
        · have dropped := (Quiet.refl t).file hf _ (dropOldRepairs_own f)
          refine ⟨⟨dropped.own, dropped.inflight⟩, hcaller, .inr ⟨_, rfl⟩, trivial, .inl ?_⟩
          rw [hpc]
          exact rank_lt_of_second (Nat.lt_succ_self _)

theorem holeWork_next {run : SackRun} {rest : List SackRun} {block block' : UInt32} :
    holeWork rest block' + 1 < holeWork (run :: rest) block + 1 := by
  have := block.toNat_lt
  have := block'.toNat_lt
  rw [holeWork, holeWork, List.length_cons]
  omega

theorem holeWork_succ {holes : List SackRun} {block : UInt32} (h : block.toNat + 1 < 2 ^ 32) :
    holeWork holes (block + 1) + 1 < holeWork holes block := by
  have hsucc : (block + 1).toNat = block.toNat + 1 := by
    rw [UInt32.toNat_add]
    exact Nat.mod_eq_of_lt h
  rw [holeWork, holeWork, hsucc]
  omega

/-- A repair pass that breaks off in an engine that goes on was not ended by a failure. -/
theorem not_failed_of_broken {caller : RepairCaller}
    (h : (t.repairBroken caller).failed = false ∨ (t.repairBroken caller).pc = .announce i) :
    ¬t.failed = true := by
  cases caller <;> simpa [Sender.repairBroken, Sender.leaveFiles] using h

theorem repairMove_runStep {holes : List SackRun} {block : UInt32}
    (hpc : t.pc = .repairRun holes block r) (hcaller : r.caller.sweep? = some (i, s))
    (hstop : t.stop = false) (hgoes : t'.failed = false ∨ t'.pc = .announce i)
    (h : t.repairRunStep io holes block r = some (t', out)) : RepairMove io blocks i s t t' := by
  have hrepair : repairOf t.pc = some r := hpc ▸ rfl
  unfold repairRunStep at h
  split at h
  · cases h
  · rename_i j rest hfiles
    split at h
    · cases h
    · cases h
      split
      · exact repairDone_move ⟨rfl, fun _ => id⟩ hrepair hcaller rfl
      · refine ⟨⟨rfl, fun _ => id⟩, hcaller, .inr ⟨_, rfl⟩, trivial, .inl ?_⟩
        rw [hpc]
        refine rank_lt_of_second ?_
        rw [length_nextFile hfiles, hfiles, List.length_cons]
        omega
    · rename_i f run rest' hf
      split at h
      · cases h
        exact repairDone_move ⟨rfl, fun _ => id⟩ hrepair hcaller rfl
      · split at h
        · cases h
          refine ⟨⟨rfl, fun _ => id⟩, hcaller, .inr ⟨_, rfl⟩, trivial, .inl ?_⟩
          rw [hpc]
          exact rank_lt_of_third holeWork_next
        · rename_i hbelow
          -- Below the end of a run the block can be counted up.
          have hsmall : block.toNat + 1 < 2 ^ 32 := by
            have hlt := UInt32.lt_iff_toNat_lt.mp (UInt32.not_le.mp hbelow)
            have := (runEnd f run).toNat_lt
            omega
          -- A block is left out because it was resumed or because it is held.
          have skipped : RepairMove io blocks i s t
              { t with pc := .repairRun (run :: rest') (block + 1) r } := by
            refine ⟨⟨rfl, fun _ => id⟩, hcaller, .inr ⟨_, rfl⟩, trivial, .inl ?_⟩
            rw [hpc]
            exact rank_lt_of_third ((holeWork_succ hsmall).trans (Nat.lt_succ_self _))
          split at h
          · cases h
            exact skipped
          · split at h
            · cases h
              exact skipped
            · split at h
              · rename_i hstopped
                rw [hstop] at hstopped
                cases hstopped
              · split at h
                · cases h
                · split at h
                  · rename_i mid out' hread
                    cases h
                    exact absurd ((readBlocks_spec hf hread).2.1 rfl) (not_failed_of_broken hgoes)
                  · rename_i mid out' payload hread
                    cases h
                    obtain ⟨quiet, -⟩ := quiet_readBlocks hf hread
                    refine ⟨⟨quiet.own, quiet.inflight⟩, hcaller, .inr ⟨_, rfl⟩, hsmall, .inl ?_⟩
                    rw [hpc]
                    exact rank_lt_of_third (Nat.lt_succ_self _)

theorem repairMove_sendStep {holes : List SackRun} {block : UInt32} {payload : Bytes}
    (hpc : t.pc = .repairSend holes block payload r) (hcaller : r.caller.sweep? = some (i, s))
    (hsmall : block.toNat + 1 < 2 ^ 32) (hstop : t.stop = false)
    (hgoes : t'.failed = false ∨ t'.pc = .announce i) (h : t.repairSendStep io holes block payload r = some (t', out)) :
    RepairMove io blocks i s t t' := by
  unfold repairSendStep at h
  split at h
  · cases h
  · split at h
    · cases h
    · rename_i j rest hfiles f hf
      split at h
      all_goals
        rename_i mid out' hsend
        obtain ⟨quiet, htx⟩ := quiet_trySend hsend
        obtain ⟨keeps, -, hmid, halted, -⟩ := trySend_spec hsend
        cases h
      · refine ⟨quiet, ?_, ?_, ?_, .inr ⟨?_, hmid⟩⟩
        · rw [hmid, hpc]
          exact hcaller
        · rw [hmid, hpc]
          exact .inr ⟨_, rfl⟩
        · rw [hmid, hpc]
          exact hsmall
        · intro hzero
          simp [trySend, hstop, hzero] at hsend
      · obtain hs | hf := halted rfl
        · rw [keeps.stop, hstop] at hs
          cases hs
        · exact absurd hf (not_failed_of_broken hgoes)
      · have hmidFile := htx ▸ hf
        have sent := quiet.file hmidFile { f with repairMs := (block, io.now) :: f.repairMs } rfl
        refine ⟨⟨sent.own, sent.inflight⟩, hcaller, .inr ⟨_, rfl⟩, trivial, .inl ?_⟩
        rw [hpc]
        exact rank_lt_of_third (holeWork_succ hsmall)

/-- The header of the block the sweep is at. -/
def sweepHeader (s : Sweep) (f : FileTx) : BlockHeader :=
  ⟨if s.block + 1 = f.blocks then kBlockFlagLast else 0, f.index, s.block, blockLenFor f.size s.block⟩

/-- The bytes of the next chunk, if `ReadBlocks` gets them. -/
def sweepWant (s : Sweep) (f : FileTx) : UInt64 :=
  min ((min kReadChunkBlocks (f.blocks - s.block)).toUInt64 * UInt64.ofNat kBlockPayloadSize)
    (f.size - min f.size (s.block.toUInt64 * UInt64.ofNat kBlockPayloadSize))

/-- What a step of the thread does in the sweep of file `i`, unless the engine stops or fails. -/
inductive SweepMove (sha : Bytes → Bytes) (io : TxIo) (i : Nat) (s : Sweep) (f : FileTx)
    (t t' : Sender) (out : List TxEvent) : Prop where
  | finished (pc : t.pc = .sweepRead i s) (done : f.blocks ≤ s.block) (pc' : t'.pc = .announce i)
      (file : t'.tx[i]? = some { f with sha256 := sha s.hashed, sweepDone := true }) (silent : out = [])
  | read {bytes : Bytes} (pc : t.pc = .sweepRead i s) (more : s.block < f.blocks)
      (read : io.bytes = some bytes) (quiet : Quiet t t')
      (pc' : t'.pc = .sweepBlock i { s with
        chunkFirst := s.block
        chunkEnd := s.block + min kReadChunkBlocks (f.blocks - s.block)
        chunk := bytes
        hashed := s.hashed ++ bytes })
  | chunkDone (pc : t.pc = .sweepBlock i s) (done : s.chunkEnd ≤ s.block) (quiet : Quiet t t')
      (pc' : t'.pc = .sweepRead i s)
  | tested (pc : t.pc = .sweepBlock i s) (more : s.block < s.chunkEnd) (quiet : Quiet t t')
      (pc' : t'.pc = if f.skip.test s.block.toNat then .sweepMark i s else .sweepSend i s)
  | waits (pc : t.pc = .sweepSend i s) (held : io.sendResult ≠ 0) (quiet : Quiet t t')
      (pc' : t'.pc = t.pc) (silent : out = [])
  | sent (pc : t.pc = .sweepSend i s) (quiet : Quiet t t') (pc' : t'.pc = .sweepMark i s)
      (wire : out = [.data ((encodeBlock (sweepHeader s f) (sweepPayload s f)).getD [])])
  | marked {s' : Sweep} (pc : t.pc = .sweepMark i s) (sweep : sweepOf t'.pc = some (i, s'))
      (next : ∃ n, s' = { s with block := s.block + 1, sinceRepair := n })
      (pc' : t'.pc = .sweepBlock i s' ∨ ∃ r, t'.pc = .repairPass r)
      (file : ∃ f', t'.tx[i]? = some f' ∧
        f'.own = { f with sweepMs := f.sweepMs.set (s.block / kBucketBlocks).toNat io.now }.own)
  | repairs {r : RepairLocals} (repair : repairOf t.pc = some r)
      (move : RepairMove io f.blocks.toNat i s t t')

theorem sweepMove_read (hpc : t.pc = .sweepRead i s) (hf : t.tx[i]? = some f)
    (hstop : t.stop = false) (hgoes : t'.failed = false ∨ t'.pc = .announce i)
    (h : t.sweepStep sha io i s f = some (t', out)) : SweepMove sha io i s f t t' out := by
  unfold sweepStep at h
  split at h
  · rename_i hdone
    cases h
    exact .finished hpc hdone rfl (List.getElem?_set_self (List.getElem?_eq_some_iff.mp hf).1) rfl
  · rename_i hmore
    rw [hstop, if_neg Bool.false_ne_true] at h
    split at h
    · cases h
    · simp only at h
      split at h
      · rename_i mid out' hread
        cases h
        have hfailed := (readBlocks_spec hf hread).2.1 rfl
        obtain hgoes | hgoes := hgoes
        · rw [leaveFiles, hfailed] at hgoes
          cases hgoes
        · cases hgoes
      · rename_i mid out' bytes hread
        cases h
        obtain ⟨quiet, -⟩ := quiet_readBlocks hf hread
        refine .read hpc (UInt32.not_le.mp hmore) ?_ ⟨quiet.own, quiet.inflight⟩ rfl
        unfold readBlocks at hread
        simp only at hread
        split at hread
        · cases hread
        · split at hread
          · cases hread
          · split at hread
            · cases hread
            · rename_i bytes' hbytes
              split at hread
              · cases hread
                exact hbytes
              · cases hread

/-- An attempt to send of an engine that is not stopped. -/
theorem trySend_cases {block : UInt32} {payload : Bytes} {repair : Bool} {sent : Option Bool}
    (hstop : t.stop = false) (h : t.trySend io f block payload repair = (t', out, sent)) :
    (sent = some true ∧ out = [.data ((encodeBlock
        ⟨if block + 1 = f.blocks then kBlockFlagLast else 0, f.index, block, blockLenFor f.size block⟩
        payload).getD [])]) ∨
      (sent = none ∧ io.sendResult ≠ 0 ∧ out = []) ∨ sent = some false ∧ t'.failed = true := by
  unfold trySend at h
  rw [hstop, if_neg Bool.false_ne_true] at h
  simp only at h
  split at h
  · cases h
    exact .inl ⟨rfl, rfl⟩
  · rename_i hresult
    split at h
    · cases h
      exact .inr (.inl ⟨rfl, hresult, rfl⟩)
    · split at h
      · cases h
        exact .inr (.inr ⟨rfl, failed_fail _ _ _⟩)
      · cases h
        exact .inr (.inl ⟨rfl, hresult, rfl⟩)

theorem sweepMove_mark (hpc : t.pc = .sweepMark i s) (hf : t.tx[i]? = some f) :
    SweepMove sha io i s f t (t.sweepMarkStep io i s f) out := by
  have hi := (List.getElem?_eq_some_iff.mp hf).1
  have marked : (t.setFile i
      { f with sweepMs := f.sweepMs.set (s.block / kBucketBlocks).toNat io.now }).tx[i]? =
        some { f with sweepMs := f.sweepMs.set (s.block / kBucketBlocks).toNat io.now } :=
    List.getElem?_set_self hi
  unfold sweepMarkStep
  dsimp only
  split
  · exact .marked hpc rfl ⟨0, rfl⟩ (.inr ⟨_, rfl⟩) ((quiet_reapInflight _).getElem? marked)
  · exact .marked hpc rfl ⟨_, rfl⟩ (.inl rfl) ⟨_, marked, rfl⟩

theorem sweepMove_of_senderStep (hsweep : sweepOf t.pc = some (i, s)) (hf : t.tx[i]? = some f)
    (hwrap : NoWrap t.pc) (hstop : t.stop = false)
    (hgoes : t'.failed = false ∨ t'.pc = .announce i)
    (h : t.senderStep sha io = some (t', out)) : SweepMove sha io i s f t t' out := by
  have running : t'.pc ≠ .announce i → t'.failed = false := hgoes.resolve_right
  unfold senderStep at h
  split at h
  case h_1 j hpc => rw [hpc] at hsweep; cases hsweep
  case h_2 j s' hpc =>
    rw [hpc] at hsweep
    cases hsweep
    rw [hf, Option.bind_some] at h
    exact sweepMove_read hpc hf hstop hgoes h
  case h_3 j s' hpc =>
    rw [hpc] at hsweep
    cases hsweep
    rw [hf, Option.map_some, Option.some.injEq] at h
    split at h
    · rename_i hdone
      cases h
      exact .chunkDone hpc hdone ⟨rfl, fun _ => id⟩ rfl
    · rename_i hmore
      split at h
      · rename_i hskip
        cases h
        exact .tested hpc (UInt32.not_le.mp hmore) ⟨rfl, fun _ => id⟩ (by rw [if_pos hskip])
      · rename_i hskip
        rw [hstop, if_neg Bool.false_ne_true] at h
        cases h
        exact .tested hpc (UInt32.not_le.mp hmore) ⟨rfl, fun _ => id⟩ (by rw [if_neg hskip])
  case h_4 j s' hpc =>
    rw [hpc] at hsweep
    cases hsweep
    rw [hf, Option.map_some, Option.some.injEq] at h
    cases hsend : t.trySend io f s.block (sweepPayload s f) false with
    | mk mid rest =>
      obtain ⟨out', sent⟩ := rest
      obtain ⟨quiet, -⟩ := quiet_trySend hsend
      obtain ⟨-, -, hmid, -⟩ := trySend_spec hsend
      rw [hsend] at h
      -- The last case is a link that has been closed for too long, after which the thread has failed.
      obtain ⟨rfl, rfl⟩ | ⟨rfl, hheld, rfl⟩ | ⟨rfl, hfailed⟩ := trySend_cases hstop hsend
      · cases h
        exact .sent hpc ⟨quiet.own, quiet.inflight⟩ rfl rfl
      · cases h
        exact .waits hpc hheld quiet hmid rfl
      · cases h
        have hrunning := running (by rw [leaveFiles]; exact SenderPc.noConfusion)
        rw [leaveFiles, hfailed] at hrunning
        cases hrunning
  case h_5 j s' hpc =>
    rw [hpc] at hsweep
    cases hsweep
    rw [hf, Option.map_some] at h
    cases h
    exact sweepMove_mark hpc hf
  case h_6 j hpc => rw [hpc] at hsweep; cases hsweep
  case h_7 j hpc => rw [hpc] at hsweep; cases hsweep
  case h_8 hpc => rw [hpc] at hsweep; cases hsweep
  case h_9 r hpc =>
    rw [hpc] at hsweep
    cases h
    exact .repairs (r := r) (by rw [hpc]; rfl) (repairMove_passStep hpc hsweep)
  case h_10 holes block r hpc =>
    rw [hpc] at hsweep
    exact .repairs (r := r) (by rw [hpc]; rfl) (repairMove_runStep hpc hsweep hstop hgoes h)
  case h_11 holes block payload r hpc =>
    rw [hpc] at hsweep hwrap
    exact .repairs (r := r) (by rw [hpc]; rfl) (repairMove_sendStep hpc hsweep hwrap hstop hgoes h)
  case h_12 hpc => rw [hpc] at hsweep; cases hsweep
  case h_13 hpc => cases h

/-! ## What the sweep has done so far -/

/-- Whether the block the sweep is at has been looked up in the skip set. -/
def tested : SenderPc → Nat
  | .sweepSend _ _ => 1
  | .sweepMark _ _ => 1
  | _ => 0

/-- Whether the block the sweep is at has been sent or skipped. -/
def handled : SenderPc → Nat
  | .sweepMark _ _ => 1
  | _ => 0

/-- The datagram of a block, as it should be. -/
def blockWire (mf : ManifestFile) (content : Bytes) (i b : Nat) : Option Bytes :=
  encodeBlock
    ⟨if b + 1 = (blockCountFor mf.size).toNat then kBlockFlagLast else 0, UInt16.ofNat i,
      UInt32.ofNat b, UInt16.ofNat (blockOf content b).length⟩
    (blockOf content b)

/-- How far the sweep has come. `visited` are the blocks it has come to, with what the skip set said
    of them, `sent` the datagrams of the file, `marked` the times it has recorded. -/
structure Progress (mf : ManifestFile) (content : Bytes) (i : Nat) (visited : List (Nat × Bool))
    (sent : List Bytes) (marked : List (Nat × UInt32)) (pc : SenderPc) (s : Sweep)
    (sweepMs : List UInt32) : Prop where
  sweep : sweepOf pc = some (i, s)
  noWrap : NoWrap pc
  low : s.chunkFirst ≤ s.block
  high : s.block ≤ s.chunkEnd
  last : s.chunkEnd ≤ blockCountFor mf.size
  read : pc = .sweepRead i s → s.block = s.chunkEnd
  inside : tested pc = 1 → s.block < s.chunkEnd
  chunk : s.chunk = (content.drop (s.chunkFirst.toNat * kBlockPayloadSize)).take
    ((s.chunkEnd.toNat - s.chunkFirst.toNat) * kBlockPayloadSize)
  hashed : s.hashed = content.take (s.chunkEnd.toNat * kBlockPayloadSize)
  order : visited.map Prod.fst = List.range (s.block.toNat + tested pc)
  due : pc = .sweepSend i s → visited[s.block.toNat]? = some (s.block.toNat, false)
  wires : sent.map some = ((visited.take (s.block.toNat + handled pc)).filter (!·.2)).map
    fun v => blockWire mf content i v.1
  times : ∀ b, b < s.block.toNat → b / 256 < sweepMs.length →
    ∃ mark ∈ marked, mark.1 / 256 = b / 256 ∧ sweepMs[b / 256]? = some mark.2

section

variable {mf : ManifestFile} {content : Bytes} {visited : List (Nat × Bool)} {sent : List Bytes}
  {marked : List (Nat × UInt32)} {ms : List UInt32} {s' : Sweep}

theorem Progress.length (h : Progress mf content i visited sent marked pc s ms) :
    visited.length = s.block.toNat + tested pc := by
  simpa using congrArg List.length h.order

/-- Before a block is looked up all that was looked up has been handled. -/
theorem Progress.wires_all (h : Progress mf content i visited sent marked pc s ms)
    (hpc : tested pc = handled pc) : sent.map some = (visited.filter (!·.2)).map
      fun v => blockWire mf content i v.1 := by
  rw [h.wires, List.take_of_length_le]
  rw [h.length, hpc]

/-- The sweep goes to another place, with nothing done. -/
theorem Progress.goto (h : Progress mf content i visited sent marked pc s ms)
    (hsweep : sweepOf pc' = some (i, s)) (hwrap : NoWrap pc')
    (hread : pc' = .sweepRead i s → s.block = s.chunkEnd) (htested : tested pc' = tested pc)
    (hhandled : handled pc' = handled pc) (hdue : pc' = .sweepSend i s → pc = .sweepSend i s) :
    Progress mf content i visited sent marked pc' s ms :=
  { h with
    sweep := hsweep
    noWrap := hwrap
    read := hread
    inside := fun ht => h.inside (htested ▸ ht)
    order := htested ▸ h.order
    due := fun hpc => h.due (hdue hpc)
    wires := hhandled ▸ h.wires }

/-- The look-up of a block. -/
theorem Progress.look (h : Progress mf content i visited sent marked (.sweepBlock i s) s ms)
    (hmore : s.block < s.chunkEnd) (skip : Bool) :
    Progress mf content i (visited ++ [(s.block.toNat, skip)]) sent marked
      (if skip then .sweepMark i s else .sweepSend i s) s ms := by
  have hlen : visited.length = s.block.toNat := h.length
  have horder : (visited ++ [(s.block.toNat, skip)]).map Prod.fst =
      List.range (s.block.toNat + 1) := by
    rw [List.map_append, h.order, List.range_succ]
    rfl
  have hwires := h.wires_all rfl
  cases skip with
  | true =>
    refine { h with
      sweep := rfl
      noWrap := trivial
      read := fun hpc => by cases hpc
      inside := fun _ => hmore
      order := horder
      due := fun hpc => by cases hpc
      wires := ?_ }
    rw [List.take_of_length_le (by simp [hlen, handled]), List.filter_append, hwires]
    simp
  | false =>
    refine { h with
      sweep := rfl
      noWrap := trivial
      read := fun hpc => by cases hpc
      inside := fun _ => hmore
      order := horder
      due := fun _ => ?_
      wires := ?_ }
    · rw [List.getElem?_append_right (by rw [hlen]), hlen, Nat.sub_self]
      rfl
    · have htake : (visited ++ [(s.block.toNat, false)]).take (s.block.toNat + 0) = visited := by
        rw [Nat.add_zero, ← hlen, List.take_left]
      change sent.map some = (((visited ++ [(s.block.toNat, false)]).take
        (s.block.toNat + 0)).filter (!·.2)).map _
      rw [htake, hwires]

/-- A datagram for the block. -/
theorem Progress.send {wire : Bytes}
    (h : Progress mf content i visited sent marked (.sweepSend i s) s ms)
    (hwire : some wire = blockWire mf content i s.block.toNat) :
    Progress mf content i visited (sent ++ [wire]) marked (.sweepMark i s) s ms := by
  have hlen : visited.length = s.block.toNat + 1 := h.length
  refine { h with
    sweep := rfl
    noWrap := trivial
    read := fun hpc => by cases hpc
    inside := fun _ => h.inside rfl
    due := fun hpc => by cases hpc
    order := h.order
    wires := ?_ }
  have hwires := h.wires
  have hlast : visited.take (s.block.toNat + 1) =
      visited.take (s.block.toNat + 0) ++ [(s.block.toNat, false)] := by
    rw [List.take_add_one, h.due rfl]
    rfl
  rw [List.map_append, hwires]
  simp only [handled]
  rw [hlast, List.filter_append, List.map_append]
  simp [hwire]

theorem toNat_kReadChunkBlocks : kReadChunkBlocks.toNat = 256 := rfl

theorem toNat_chunk {block blocks : UInt32} (h : block ≤ blocks) :
    (min kReadChunkBlocks (blocks - block)).toNat = min 256 (blocks.toNat - block.toNat) := by
  rw [toNat_min32, toNat_kReadChunkBlocks, UInt32.toNat_sub_of_le _ _ h]

theorem toNat_chunkEnd {block blocks : UInt32} (h : block ≤ blocks) :
    (block + min kReadChunkBlocks (blocks - block)).toNat =
      block.toNat + min 256 (blocks.toNat - block.toNat) := by
  have := blocks.toNat_lt
  have hle := UInt32.le_iff_toNat_le.mp h
  rw [UInt32.toNat_add, toNat_chunk h, Nat.mod_eq_of_lt (by omega)]

/-- The bytes `ReadBlocks` asks for are the blocks of the chunk, as far as the file goes. -/
theorem take_sweepWant (hsize : content.length = f.size.toNat) (h : s.block ≤ f.blocks) :
    (content.drop (s.block.toUInt64 * UInt64.ofNat kBlockPayloadSize).toNat).take
        (sweepWant s f).toNat =
      (content.drop (s.block.toNat * kBlockPayloadSize)).take
        (min 256 (f.blocks.toNat - s.block.toNat) * kBlockPayloadSize) := by
  have hwant : (sweepWant s f).toNat =
      min (min 256 (f.blocks.toNat - s.block.toNat) * kBlockPayloadSize)
        (content.length - s.block.toNat * kBlockPayloadSize) := by
    have hsub : min f.size (s.block.toUInt64 * UInt64.ofNat kBlockPayloadSize) ≤ f.size := by
      rw [UInt64.le_iff_toNat_le, toNat_min64]
      exact Nat.min_le_left _ _
    rw [sweepWant, toNat_min64, toNat_blockOffset, toNat_chunk h, UInt64.toNat_sub_of_le _ _ hsub,
      toNat_min64, toNat_blockOffset, ← hsize]
    omega
  -- Beyond the end of the file there is nothing to read.
  rw [toNat_blockOffset, hwant, ← List.length_drop, ← List.take_eq_take_min]

theorem Progress.chunkRead {bytes : Bytes}
    (h : Progress mf content i visited sent marked (.sweepRead i s) s ms)
    (hblocks : f.blocks = blockCountFor mf.size) (hmore : s.block < f.blocks)
    (hbytes : bytes = (content.drop (s.block.toNat * kBlockPayloadSize)).take
      (min 256 (f.blocks.toNat - s.block.toNat) * kBlockPayloadSize))
    (hsweep : s' = { s with
      chunkFirst := s.block
      chunkEnd := s.block + min kReadChunkBlocks (f.blocks - s.block)
      chunk := bytes
      hashed := s.hashed ++ bytes }) :
    Progress mf content i visited sent marked (.sweepBlock i s') s' ms := by
  have hle : s.block ≤ f.blocks := UInt32.le_of_lt hmore
  have hend := toNat_chunkEnd hle
  subst hsweep
  refine {
    sweep := rfl
    noWrap := trivial
    low := UInt32.le_refl _
    high := ?_
    last := ?_
    read := fun hpc => by cases hpc
    inside := fun ht => by cases ht
    chunk := ?_
    hashed := ?_
    order := h.order
    due := fun hpc => by cases hpc
    wires := h.wires
    times := h.times }
  · dsimp only
    rw [UInt32.le_iff_toNat_le, hend]
    omega
  · rw [← hblocks, UInt32.le_iff_toNat_le, hend]
    have := UInt32.le_iff_toNat_le.mp hle
    omega
  · rw [hend, hbytes, Nat.add_sub_cancel_left]
  · rw [hend, hbytes, h.hashed, ← h.read rfl, Nat.add_mul, List.take_add]

theorem toNat_bucket (block : UInt32) : (block / kBucketBlocks).toNat = block.toNat / 256 :=
  UInt32.toNat_div block kBucketBlocks

theorem toNat_block_succ {block stop : UInt32} (h : block < stop) :
    (block + 1).toNat = block.toNat + 1 := by
  have := UInt32.lt_iff_toNat_lt.mp h
  have := stop.toNat_lt
  rw [UInt32.toNat_add]
  exact Nat.mod_eq_of_lt (by change block.toNat + 1 < 2 ^ 32; omega)

/-- The time of a block. -/
theorem Progress.mark {n : UInt32} {now : UInt32}
    (h : Progress mf content i visited sent marked (.sweepMark i s) s ms)
    (hs' : s' = { s with block := s.block + 1, sinceRepair := n })
    (hsweep : sweepOf pc' = some (i, s'))
    (hpc : pc' = .sweepBlock i s' ∨ ∃ r, pc' = .repairPass r) :
    Progress mf content i visited sent (marked ++ [(s.block.toNat, now)]) pc' s'
      (ms.set (s.block / kBucketBlocks).toNat now) := by
  have hinside := h.inside rfl
  have hsucc := toNat_block_succ hinside
  have hplace : tested pc' = 0 ∧ handled pc' = 0 ∧ NoWrap pc' ∧ pc' ≠ .sweepRead i s' ∧
      pc' ≠ .sweepSend i s' := by
    obtain rfl | ⟨r, rfl⟩ := hpc
    · exact ⟨rfl, rfl, trivial, by simp, by simp⟩
    · exact ⟨rfl, rfl, trivial, by simp, by simp⟩
  obtain ⟨htested, hhandled, hwrap, hread, hsend⟩ := hplace
  subst hs'
  refine {
    sweep := hsweep
    noWrap := hwrap
    low := ?_
    high := ?_
    last := h.last
    read := fun hpc => absurd hpc hread
    inside := fun ht => by rw [htested] at ht; cases ht
    chunk := h.chunk
    hashed := h.hashed
    order := ?_
    due := fun hpc => absurd hpc hsend
    wires := ?_
    times := ?_ }
  · have := UInt32.le_iff_toNat_le.mp h.low
    rw [UInt32.le_iff_toNat_le, hsucc]
    change s.chunkFirst.toNat ≤ s.block.toNat + 1
    omega
  · have := UInt32.lt_iff_toNat_lt.mp hinside
    rw [UInt32.le_iff_toNat_le, hsucc]
    exact this
  · rw [htested, hsucc]
    exact h.order
  · rw [hhandled, hsucc]
    exact h.wires
  · intro b hb hroom
    rw [hsucc] at hb
    rw [List.length_set] at hroom
    -- A bucket has the time of the last block of it.
    by_cases hbucket : b / 256 = s.block.toNat / 256
    · refine ⟨(s.block.toNat, now), by simp, hbucket.symm, ?_⟩
      rw [toNat_bucket, ← hbucket]
      exact List.getElem?_set_self hroom
    · have hne : b ≠ s.block.toNat := fun heq => hbucket (by rw [heq])
      obtain ⟨mark, hmark, hsame, htime⟩ := h.times b (by omega) hroom
      refine ⟨mark, List.mem_append_left _ hmark, hsame, ?_⟩
      rw [toNat_bucket, List.getElem?_set_ne (Ne.symm hbucket)]
      exact htime

/-- The bytes that are sent are the bytes of the block. -/
theorem Progress.payload (h : Progress mf content i visited sent marked (.sweepSend i s) s ms)
    (hsize : content.length = f.size.toNat) : sweepPayload s f = blockOf content s.block.toNat := by
  have hpayload : kBlockPayloadSize = 1100 := rfl
  have hlow := UInt32.le_iff_toNat_le.mp h.low
  have hinside := UInt32.lt_iff_toNat_lt.mp (h.inside rfl)
  have hoffset : s.chunkFirst.toNat * kBlockPayloadSize +
      (s.block - s.chunkFirst).toNat * kBlockPayloadSize = s.block.toNat * kBlockPayloadSize := by
    rw [UInt32.toNat_sub_of_le _ _ h.low, ← Nat.add_mul, Nat.add_sub_cancel' hlow]
  have hlen : (blockLenFor f.size s.block).toNat =
      min kBlockPayloadSize (content.drop (s.block.toNat * kBlockPayloadSize)).length := by
    rw [toNat_blockLenFor, List.length_drop, hsize]
  rw [sweepPayload, h.chunk, List.drop_take, List.drop_drop, hoffset, List.take_take, hlen, blockOf]
  -- The chunk goes on for at least this block.
  have hroom : kBlockPayloadSize ≤ (s.chunkEnd.toNat - s.chunkFirst.toNat) * kBlockPayloadSize -
      (s.block - s.chunkFirst).toNat * kBlockPayloadSize := by
    rw [UInt32.toNat_sub_of_le _ _ h.low, ← Nat.sub_mul, hpayload]
    omega
  rw [Nat.min_eq_left (le_trans (Nat.min_le_left _ _) hroom), ← List.take_eq_take_min]

theorem Progress.wire (h : Progress mf content i visited sent marked (.sweepSend i s) s ms)
    (hplan : f.plan = (startFile [] i mf).plan) (hsize : content.length = mf.size.toNat) :
    some ((encodeBlock (sweepHeader s f) (sweepPayload s f)).getD []) =
      blockWire mf content i s.block.toNat := by
  simp only [FileTx.plan, startFile, Prod.mk.injEq] at hplan
  obtain ⟨hindex, hfsize, hblocks, -⟩ := hplan
  have hsucc := toNat_block_succ (h.inside rfl)
  have hpayload := h.payload (f := f) (by rw [hsize, hfsize])
  have hlen := length_blockOf_eq hsize s.block
  have hheader : sweepHeader s f =
      ⟨if s.block.toNat + 1 = (blockCountFor mf.size).toNat then kBlockFlagLast else 0,
        UInt16.ofNat i, UInt32.ofNat s.block.toNat,
        UInt16.ofNat (blockOf content s.block.toNat).length⟩ := by
    rw [sweepHeader, hindex, hfsize, hblocks, hlen, UInt16.ofNat_toNat, UInt32.ofNat_toNat, ← hsucc]
    simp only [UInt32.toNat_inj]
  have hfits : ¬kBlockPayloadSize < (blockLenFor mf.size s.block).toNat := by
    rw [toNat_blockLenFor]
    omega
  rw [blockWire, hpayload, ← hheader, encodeBlock, if_neg (by rw [sweepHeader, hfsize]; exact hfits)]
  rfl

end

/-! ## What a step adds -/

/-- The block of file `i` that the sweep comes to, and whether it is in the skip set. -/
def visitedOf (i : Nat) (t : Sender) : SenderAct → List (Nat × Bool)
  | .thread _ =>
    match t.pc with
    | .sweepBlock j s =>
      if j = i ∧ s.block < s.chunkEnd then
        [(s.block.toNat, (t.tx[i]?).any fun f => f.skip.test s.block.toNat)]
      else []
    | _ => []
  | _ => []

/-- The time that the sweep of file `i` records, with its block. -/
def markedOf (i : Nat) (t : Sender) : SenderAct → List (Nat × UInt32)
  | .thread io =>
    match t.pc with
    | .sweepMark j s => if j = i then [(s.block.toNat, io.now)] else []
    | _ => []
  | _ => []

/-- The file a block of which the thread is sending. -/
def fileOf : SenderPc → Option Nat
  | .sweepSend i _ => some i
  | .repairSend _ _ _ r => r.files.head?
  | _ => none

/-- The datagrams of file `i`. -/
def sentOf (sha : Bytes → Bytes) (i : Nat) (t : Sender) (a : SenderAct) : List Bytes :=
  if fileOf t.pc = some i then (t.step sha a).elim [] fun r => r.2.filterMap TxEvent.wire? else []

theorem sentOf_eq_nil {a : SenderAct} (h : fileOf t.pc ≠ some i) : sentOf sha i t a = [] :=
  if_neg h

section

variable {mf : ManifestFile} {content : Bytes} {visited : List (Nat × Bool)} {sent : List Bytes}
  {marked : List (Nat × UInt32)} {m : Manifest} {a : SenderAct}

/-- The thread is in the sweep of file `i`. -/
def Sweeping (mf : ManifestFile) (content : Bytes) (i : Nat) (visited : List (Nat × Bool))
    (sent : List Bytes) (marked : List (Nat × UInt32)) (t : Sender) : Prop :=
  ∃ s f, t.tx[i]? = some f ∧ f.plan = (startFile [] i mf).plan ∧
    Progress mf content i visited sent marked t.pc s f.sweepMs

/-- The sweep is over. -/
def Finished (sha : Bytes → Bytes) (mf : ManifestFile) (content : Bytes) (i : Nat)
    (visited : List (Nat × Bool)) (sent : List Bytes) (marked : List (Nat × UInt32)) (t : Sender) :
    Prop :=
  t.pc = .announce i ∧ ∃ s f, t.tx[i]? = some f ∧ f.plan = (startFile [] i mf).plan ∧
    f.sha256 = sha s.hashed ∧ blockCountFor mf.size ≤ s.block ∧
    Progress mf content i visited sent marked (.sweepRead i s) s f.sweepMs

/-- When the sweep reads the file it gets what is in it. -/
def ReadsFile (content : Bytes) (i : Nat) (t : Sender) (io : TxIo) : Prop :=
  ∀ s f, t.pc = .sweepRead i s → t.tx[i]? = some f → s.block < f.blocks →
    io.opened = some (UInt64.ofNat content.length) ∧
      io.bytes = some ((content.drop
        (s.block.toUInt64 * UInt64.ofNat kBlockPayloadSize).toNat).take (sweepWant s f).toNat)

theorem sweepMs_of_own {f f' : FileTx} (h : f'.own = f.own) :
    f'.plan = f.plan ∧ f'.sweepMs = f.sweepMs := by
  simp only [FileTx.own, Prod.mk.injEq] at h
  obtain ⟨hindex, hsize, hblocks, hms⟩ := h
  exact ⟨by rw [FileTx.plan, FileTx.plan, hindex, hsize, hblocks, hms], hms⟩

/-- A quiet step to a place where as much has been done. -/
theorem Sweeping.quiet (quiet : Quiet t t') (hf : t.tx[i]? = some f)
    (hplan : f.plan = (startFile [] i mf).plan)
    (h : Progress mf content i visited sent marked t'.pc s f.sweepMs) :
    Sweeping mf content i visited sent marked t' := by
  obtain ⟨f', hf', hown⟩ := quiet.getElem? hf
  obtain ⟨hplan', hms⟩ := sweepMs_of_own hown
  exact ⟨s, f', hf', hplan'.trans hplan, hms ▸ h⟩

/-- A call of another thread. -/
theorem Sweeping.called (h : Sweeping mf content i visited sent marked t)
    (called : CallKeeps t a t') : Sweeping mf content i visited sent marked t' := by
  obtain ⟨s, f, hf, hplan, progress⟩ := h
  exact .quiet called.toQuiet hf hplan (called.pc ▸ progress)

theorem ofCaller_eq {caller : RepairCaller} (h : caller.sweep? = some (i, s)) :
    sweepRank.ofCaller blocks caller = 6 * (blocks - s.block.toNat) + 5 := by
  cases caller with
  | sweep j s' =>
    cases h
    rfl
  | inner => cases h
  | drain => cases h

/-- Each step of the thread leaves less of the sweep to do, or the link did not take a block. -/
theorem sweepRank_step (h : Progress mf content i visited sent marked t.pc s f.sweepMs)
    (hblocks : f.blocks = blockCountFor mf.size) (move : SweepMove sha io i s f t t' out)
    (hgoes : t'.pc ≠ .announce i) :
    sweepRank f.blocks.toNat t'.pc < sweepRank f.blocks.toNat t.pc ∨
      io.sendResult ≠ 0 ∧ t'.pc = t.pc := by
  cases move with
  | finished pc done pc' => exact absurd pc' hgoes
  | read pc more read quiet pc' =>
    left
    rw [pc, pc']
    have hlt := UInt32.lt_iff_toNat_lt.mp more
    -- A chunk that has been read is not empty.
    have hend : ¬s.block + min kReadChunkBlocks (f.blocks - s.block) ≤ s.block := by
      rw [UInt32.le_iff_toNat_le, toNat_chunkEnd (UInt32.le_of_lt more)]
      omega
    refine rank_lt_of_first ?_
    rw [if_neg hend]
    dsimp only
    omega
  | chunkDone pc done quiet pc' =>
    left
    rw [pc, pc']
    refine rank_lt_of_first ?_
    rw [if_pos done]
    omega
  | tested pc more quiet pc' =>
    left
    rw [pc, pc']
    have hmore : ¬s.chunkEnd ≤ s.block := UInt32.not_le.mpr more
    split
    all_goals
      refine rank_lt_of_first ?_
      rw [if_neg hmore]
      omega
  | waits pc held quiet pc' => exact .inr ⟨held, pc'⟩
  | sent pc quiet pc' wire =>
    left
    rw [pc, pc']
    exact rank_lt_of_first (Nat.lt_succ_self _)
  | marked pc sweep next pc' file =>
    left
    obtain ⟨n, rfl⟩ := next
    rw [pc] at h ⊢
    have hinside := h.inside rfl
    have hlast := UInt32.le_iff_toNat_le.mp h.last
    have hlt := UInt32.lt_iff_toNat_lt.mp hinside
    have hsucc := toNat_block_succ hinside
    rw [← hblocks] at hlast
    obtain pc' | ⟨r, pc'⟩ := pc'
    · rw [pc']
      refine rank_lt_of_first ?_
      dsimp only
      rw [hsucc]
      split <;> omega
    · rw [pc'] at sweep ⊢
      refine rank_lt_of_first ?_
      -- A repair begins, and the rank counts the place to which it returns.
      rw [ofCaller_eq sweep]
      dsimp only
      rw [hsucc]
      omega
  | repairs repair move => exact move.rank

/-- A step that neither looks a block up nor sends nor records adds nothing. -/
theorem adds_nothing (hlook : ∀ j s, t.pc = .sweepBlock j s → s.chunkEnd ≤ s.block)
    (hsend : fileOf t.pc ≠ some i) (hmark : ∀ j s, t.pc ≠ .sweepMark j s) :
    visitedOf i t (.thread io) = [] ∧ sentOf sha i t (.thread io) = [] ∧
      markedOf i t (.thread io) = [] := by
  refine ⟨?_, sentOf_eq_nil hsend, ?_⟩
  · simp only [visitedOf]
    split
    · rename_i j s hpc
      rw [if_neg fun hmore => absurd (hlook j s hpc) (UInt32.not_le.mpr hmore.2)]
    · rfl
  · simp only [markedOf]

theorem place_of_repair {r : RepairLocals} (h : repairOf pc = some r) :
    tested pc = 0 ∧ handled pc = 0 ∧ (∀ j s, pc ≠ .sweepRead j s) ∧ ∀ j s, pc ≠ .sweepSend j s := by
  cases pc with
  | repairPass => exact ⟨rfl, rfl, by simp, by simp⟩
  | repairRun => exact ⟨rfl, rfl, by simp, by simp⟩
  | repairSend => exact ⟨rfl, rfl, by simp, by simp⟩
  | _ => cases h

/-- A repair pass of the sweep sends no block of its file. -/
theorem Prepared.fileOf_repair (prepared : Prepared m t) {r : RepairLocals}
    (hrepair : repairOf t.pc = some r) (hsweep : sweepOf t.pc = some (i, s)) :
    fileOf t.pc ≠ some i := by
  intro hfile
  cases hpc : t.pc with
  | repairSend holes block payload r' =>
    rw [hpc] at hfile hsweep
    have hmem : i ∈ r'.files := List.mem_of_head? hfile
    have hbehind := (prepared.repairs r' (by rw [hpc]; rfl) i hmem).2
    rw [hpc, passed] at hbehind
    cases hcaller : r'.caller with
    | sweep j s' =>
      rw [sweepOf, hcaller] at hsweep
      cases hsweep
      rw [hcaller] at hbehind
      exact absurd hbehind (lt_irrefl _)
    | inner => rw [sweepOf, hcaller] at hsweep; cases hsweep
    | drain => rw [sweepOf, hcaller] at hsweep; cases hsweep
  | sweepSend => rw [hpc] at hrepair; cases hrepair
  | _ => rw [hpc] at hfile; cases hfile

/-- One step of the thread in the sweep: it adds to what the sweep has done, or ends it. -/
theorem Sweeping.thread (prepared : Prepared m t) (hsize : content.length = mf.size.toNat)
    (h : Sweeping mf content i visited sent marked t) (hstop : t.stop = false)
    (hgoes : t'.failed = false ∨ t'.pc = .announce i) (reads : ReadsFile content i t io)
    (hstep : t.senderStep sha io = some (t', out)) :
    Finished sha mf content i (visited ++ visitedOf i t (.thread io))
        (sent ++ sentOf sha i t (.thread io)) (marked ++ markedOf i t (.thread io)) t' ∨
      Sweeping mf content i (visited ++ visitedOf i t (.thread io))
        (sent ++ sentOf sha i t (.thread io)) (marked ++ markedOf i t (.thread io)) t' := by
  obtain ⟨s, f, hf, hplan, progress⟩ := h
  have hfacts := hplan
  simp only [FileTx.plan, startFile, Prod.mk.injEq] at hfacts
  obtain ⟨-, hfsize, hblocks, -⟩ := hfacts
  -- Each move adds what it does to one of the three lists, and nothing to the other two.
  have move := sweepMove_of_senderStep progress.sweep hf progress.noWrap hstop hgoes hstep
  have hstep' : t.step sha (.thread io) = some (t', out) := hstep
  cases move with
  | finished pc done pc' file silent =>
    obtain ⟨hv, hs, hm⟩ : visitedOf i t (.thread io) = [] ∧ sentOf sha i t (.thread io) = [] ∧
        markedOf i t (.thread io) = [] := adds_nothing
      (fun j s' hpc => by rw [pc] at hpc; cases hpc) (by rw [pc]; exact Option.some_ne_none i |>.symm)
      (fun j s' hpc => by rw [pc] at hpc; cases hpc)
    rw [hv, hs, hm, List.append_nil, List.append_nil, List.append_nil]
    exact .inl ⟨pc', s, _, file, hplan, rfl, hblocks ▸ done, pc ▸ progress⟩
  | read pc more read quiet pc' =>
    obtain ⟨hv, hs, hm⟩ : visitedOf i t (.thread io) = [] ∧ sentOf sha i t (.thread io) = [] ∧
        markedOf i t (.thread io) = [] := adds_nothing
      (fun j s' hpc => by rw [pc] at hpc; cases hpc) (by rw [pc]; exact Option.some_ne_none i |>.symm)
      (fun j s' hpc => by rw [pc] at hpc; cases hpc)
    rw [hv, hs, hm, List.append_nil, List.append_nil, List.append_nil]
    rw [pc] at progress
    obtain ⟨-, hbytes⟩ := reads s f pc hf more
    rw [read, Option.some.injEq, take_sweepWant (hsize.trans (hfsize ▸ rfl)) (UInt32.le_of_lt more)]
      at hbytes
    exact .inr (.quiet quiet hf hplan (pc'.symm ▸ progress.chunkRead hblocks more hbytes rfl))
  | chunkDone pc done quiet pc' =>
    obtain ⟨hv, hs, hm⟩ : visitedOf i t (.thread io) = [] ∧ sentOf sha i t (.thread io) = [] ∧
        markedOf i t (.thread io) = [] := adds_nothing
      (fun j s' hpc => by rw [pc] at hpc; cases hpc; exact done)
      (by rw [pc]; exact Option.some_ne_none i |>.symm) (fun j s' hpc => by rw [pc] at hpc; cases hpc)
    rw [hv, hs, hm, List.append_nil, List.append_nil, List.append_nil]
    rw [pc] at progress
    refine .inr (.quiet (s := s) quiet hf hplan ?_)
    rw [pc']
    exact progress.goto rfl trivial (fun _ => UInt32.le_antisymm progress.high done) rfl rfl
      fun hpc => by cases hpc
  | tested pc more quiet pc' =>
    have hv : visitedOf i t (.thread io) = [(s.block.toNat, f.skip.test s.block.toNat)] := by
      simp [visitedOf, pc, more, hf]
    have hs : sentOf sha i t (.thread io) = [] := sentOf_eq_nil (by simp [pc, fileOf])
    have hm : markedOf i t (.thread io) = [] := by simp [markedOf, pc]
    rw [hv, hs, hm, List.append_nil, List.append_nil]
    rw [pc] at progress
    exact .inr (.quiet quiet hf hplan (pc'.symm ▸ progress.look more _))
  | waits pc held quiet pc' silent =>
    have hv : visitedOf i t (.thread io) = [] := by simp [visitedOf, pc]
    have hs : sentOf sha i t (.thread io) = [] := by simp [sentOf, hstep', silent]
    have hm : markedOf i t (.thread io) = [] := by simp [markedOf, pc]
    rw [hv, hs, hm, List.append_nil, List.append_nil, List.append_nil]
    exact .inr (.quiet (s := s) quiet hf hplan (pc'.symm ▸ progress))
  | sent pc quiet pc' wire =>
    have hv : visitedOf i t (.thread io) = [] := by simp [visitedOf, pc]
    have hs : sentOf sha i t (.thread io) =
        [(encodeBlock (sweepHeader s f) (sweepPayload s f)).getD []] := by
      simp [sentOf, hstep', pc, fileOf, wire, TxEvent.wire?]
    have hm : markedOf i t (.thread io) = [] := by simp [markedOf, pc]
    rw [hv, hs, hm, List.append_nil, List.append_nil]
    rw [pc] at progress
    exact .inr (.quiet quiet hf hplan (pc'.symm ▸ progress.send (progress.wire hplan hsize)))
  | @marked s' pc sweep next pc' file =>
    obtain ⟨n, hs'⟩ := next
    obtain ⟨f', hf', hown⟩ := file
    have hv : visitedOf i t (.thread io) = [] := by simp [visitedOf, pc]
    have hs : sentOf sha i t (.thread io) = [] := sentOf_eq_nil (by simp [pc, fileOf])
    have hm : markedOf i t (.thread io) = [(s.block.toNat, io.now)] := by simp [markedOf, pc]
    rw [hv, hs, hm, List.append_nil, List.append_nil]
    rw [pc] at progress
    obtain ⟨hplan', hms⟩ := sweepMs_of_own hown
    refine .inr ⟨s', f', hf', ?_, ?_⟩
    · rw [hplan', ← hplan]
      simp only [FileTx.plan, List.length_set]
    · rw [hms]
      exact progress.mark hs' sweep pc'
  | repairs repair move =>
    obtain ⟨hv, hs, hm⟩ : visitedOf i t (.thread io) = [] ∧ sentOf sha i t (.thread io) = [] ∧
        markedOf i t (.thread io) = [] := adds_nothing
      (fun j s' hpc => by rw [hpc] at repair; cases repair)
      (prepared.fileOf_repair repair progress.sweep)
      (fun j s' hpc => by rw [hpc] at repair; cases repair)
    rw [hv, hs, hm, List.append_nil, List.append_nil, List.append_nil]
    -- In a repair the sweep stands still, whether the repair goes on or ends.
    have hhere := place_of_repair repair
    have hthere : tested t'.pc = 0 ∧ handled t'.pc = 0 ∧ (∀ j s, t'.pc ≠ .sweepRead j s) ∧
        ∀ j s, t'.pc ≠ .sweepSend j s := by
      obtain hback | ⟨r', hr'⟩ := move.place
      · rw [hback]
        exact ⟨rfl, rfl, by simp, by simp⟩
      · exact place_of_repair hr'
    exact .inr (.quiet move.quiet hf hplan (progress.goto move.sweep move.noWrap
      (fun hpc => absurd hpc (hthere.2.2.1 _ _)) (hthere.1.trans hhere.1.symm)
      (hthere.2.1.trans hhere.2.1.symm) fun hpc => absurd hpc (hthere.2.2.2 _ _)))

end

/-! ## Whole sweeps -/

section

variable {m : Manifest} {runs : List (UInt16 × List SackRun)} {verified : List UInt16}
  {mf : ManifestFile} {content : Bytes} {k n : Nat}
  {σ : (machine sha (start m runs verified)).Schedule}

/-- From time `k` to time `n` the sweep of file `i` has not returned. -/
def SweepOn {t : Sender} (σ : (machine sha t).Schedule) (i k n : Nat) : Prop :=
  ∀ j, k ≤ j → j ≤ n → (σ.state j).pc ≠ .announce i

/-- `SweepFile` is called at time `k`. Until it returns the engine is neither stopped nor does it
    fail, the file reads as `content`, and again and again the thread runs while the link takes
    datagrams. -/
structure SweepGoes {t : Sender} (σ : (machine sha t).Schedule) (content : Bytes) (i k : Nat) :
    Prop where
  called : (σ.state k).pc = .sweepRead i .begin
  running : ∀ n, k ≤ n → SweepOn σ i k n → (σ.state n).stop = false ∧ (σ.state n).failed = false
  reads : ∀ n io, k ≤ n → SweepOn σ i k n → σ.act n = .thread io →
    ReadsFile content i (σ.state n) io
  fair : ∀ n, k ≤ n → SweepOn σ i k n →
    ∃ l io, n ≤ l ∧ σ.act l = .thread io ∧ io.sendResult = 0

/-- The sweep that was called at time `k` returns at time `n`. -/
structure SweepReturns {t : Sender} (σ : (machine sha t).Schedule) (i k n : Nat) : Prop where
  after : k ≤ n
  returned : (σ.state n).pc = .announce i
  first : ∀ j, k ≤ j → j < n → (σ.state j).pc ≠ .announce i

theorem step_of_schedule {t : Sender} (σ : (machine sha t).Schedule) (n : Nat) :
    ∃ out, (σ.state n).step sha (σ.act n) = some (σ.state (n + 1), out) := by
  obtain ⟨⟨t', out⟩, hstep, ht'⟩ := Option.map_eq_some_iff.mp (σ.step n)
  exact ⟨out, ht' ▸ hstep⟩

theorem prepared_schedule (σ : (machine sha (start m runs verified)).Schedule) (n : Nat) :
    Prepared m (σ.state n) := by
  induction n with
  | zero => exact σ.init ▸ prepared_start m runs verified
  | succ n ih =>
    obtain ⟨out, hstep⟩ := step_of_schedule σ n
    exact ih.step hstep

theorem Prepared.file (prepared : Prepared m t) (hmf : m.files[i]? = some mf) :
    ∃ f, t.tx[i]? = some f ∧ f.plan = (startFile [] i mf).plan := by
  have hplan := congrArg (·[i]?) prepared.plan
  simp only [List.getElem?_map, List.getElem?_mapIdx, hmf, Option.map_some] at hplan
  exact Option.map_eq_some_iff.mp hplan

theorem sweeping_begin (hmf : m.files[i]? = some mf) (prepared : Prepared m t)
    (hpc : t.pc = .sweepRead i .begin) : Sweeping mf content i [] [] [] t := by
  obtain ⟨f, hf, hplan⟩ := prepared.file hmf
  refine ⟨.begin, f, hf, hplan, ?_⟩
  rw [hpc]
  refine {
    sweep := rfl
    noWrap := trivial
    low := UInt32.le_refl _
    high := UInt32.le_refl _
    last := UInt32.le_iff_toNat_le.mpr (Nat.zero_le _)
    read := fun _ => rfl
    inside := fun ht => by cases ht
    chunk := by simp [Sweep.begin]
    hashed := by simp [Sweep.begin]
    order := rfl
    due := fun hdue => by cases hdue
    wires := rfl
    times := fun b hb _ => absurd hb (Nat.not_lt_zero b) }

/-- Until the sweep returns its logs say what it has done. -/
theorem sweeping_schedule (hmf : m.files[i]? = some mf) (hsize : content.length = mf.size.toNat)
    (goes : SweepGoes σ content i k) (hkn : k ≤ n) (hon : SweepOn σ i k n) :
    Sweeping mf content i (σ.log (visitedOf i) k n) (σ.log (sentOf sha i) k n)
      (σ.log (markedOf i) k n) (σ.state n) := by
  induction n, hkn using Nat.le_induction with
  | base =>
    rw [σ.log_self, σ.log_self, σ.log_self]
    exact sweeping_begin hmf (prepared_schedule σ k) goes.called
  | succ n hkn ih =>
    have hbefore : SweepOn σ i k n := fun j hkj hjn => hon j hkj (by omega)
    have sweeping := ih hbefore
    obtain ⟨out, hstep⟩ := step_of_schedule σ n
    rw [σ.log_succ _ hkn, σ.log_succ _ hkn, σ.log_succ _ hkn]
    obtain ⟨io, hact, hthread⟩ | ⟨called, rfl, hcall⟩ := step_cases hstep
    · rw [hact]
      obtain finished | sweeping := sweeping.thread (prepared_schedule σ n) hsize
        (goes.running n hkn hbefore).1 (.inl (goes.running (n + 1) (by omega) hon).2)
        (goes.reads n io hkn hbefore hact) hthread
      · exact absurd finished.1 (hon (n + 1) (by omega) le_rfl)
      · exact sweeping
    · have hv : visitedOf i (σ.state n) (σ.act n) = [] := by
        unfold visitedOf
        split
        · rename_i io hact
          exact absurd hact (hcall io)
        · rfl
      have hm : markedOf i (σ.state n) (σ.act n) = [] := by
        unfold markedOf
        split
        · rename_i io hact
          exact absurd hact (hcall io)
        · rfl
      have hs : sentOf sha i (σ.state n) (σ.act n) = [] := by
        simp [sentOf, hstep]
      rw [hv, hs, hm, List.append_nil, List.append_nil, List.append_nil]
      exact sweeping.called called

/-- A step of the thread leaves less to do; a call of another thread leaves it where it is. -/
theorem rank_schedule (hmf : m.files[i]? = some mf) (hsize : content.length = mf.size.toNat)
    (goes : SweepGoes σ content i k) (hkn : k ≤ n) (hon : SweepOn σ i k (n + 1)) :
    sweepRank (blockCountFor mf.size).toNat (σ.state (n + 1)).pc <
        sweepRank (blockCountFor mf.size).toNat (σ.state n).pc ∨
      (σ.state (n + 1)).pc = (σ.state n).pc ∧ ∀ io, σ.act n = .thread io → io.sendResult ≠ 0 := by
  have hbefore : SweepOn σ i k n := fun j hkj hjn => hon j hkj (by omega)
  obtain ⟨s, f, hf, hplan, progress⟩ := sweeping_schedule hmf hsize goes hkn hbefore
  have hblocks : f.blocks = blockCountFor mf.size := by
    simp only [FileTx.plan, startFile, Prod.mk.injEq] at hplan
    exact hplan.2.2.1
  obtain ⟨out, hstep⟩ := step_of_schedule σ n
  obtain ⟨io, hact, hthread⟩ | ⟨called, -, hcall⟩ := step_cases hstep
  · have move := sweepMove_of_senderStep progress.sweep hf progress.noWrap
      (goes.running n hkn hbefore).1 (.inl (goes.running (n + 1) (by omega) hon).2) hthread
    rw [← hblocks]
    refine (sweepRank_step progress hblocks move (hon (n + 1) (by omega) le_rfl)).imp_right ?_
    rintro ⟨hheld, hpc⟩
    refine ⟨hpc, fun io' hact' => ?_⟩
    rw [hact, SenderAct.thread.injEq] at hact'
    exact hact' ▸ hheld
  · exact .inr ⟨called.pc, fun io hact => absurd hact (hcall io)⟩

/-- The sweep returns. -/
theorem sweep_returns (hmf : m.files[i]? = some mf) (hsize : content.length = mf.size.toNat)
    (goes : SweepGoes σ content i k) : ∃ n, SweepReturns σ i k n := by
  have hend : ∃ n, k ≤ n ∧ ¬SweepOn σ i k n := by
    refine σ.eventually (fun t => sweepRank (blockCountFor mf.size).toNat t.pc)
      (fun n => ¬SweepOn σ i k n) (fun n => ∃ io, σ.act n = .thread io ∧ io.sendResult = 0)
      ?_ ?_ ?_
    · intro n hkn _ hon
      obtain hlt | ⟨hpc, -⟩ := rank_schedule hmf hsize goes hkn (not_not.mp hon)
      · exact hlt.le
      · exact le_of_eq (by rw [hpc])
    · rintro n hkn - hon ⟨io, hact, hsent⟩
      obtain hlt | ⟨-, hheld⟩ := rank_schedule hmf hsize goes hkn (not_not.mp hon)
      · exact hlt
      · exact absurd hsent (hheld io hact)
    · intro n hkn hon
      obtain ⟨l, io, hnl, hact, hsent⟩ := goes.fair n hkn (not_not.mp (hon n hkn le_rfl))
      exact ⟨l, hnl, io, hact, hsent⟩
  obtain ⟨n, hkn, hover⟩ := hend
  have hexists : ∃ j, k ≤ j ∧ (σ.state j).pc = .announce i := by
    simp only [SweepOn, not_forall, not_not] at hover
    obtain ⟨j, hkj, -, hpc⟩ := hover
    exact ⟨j, hkj, hpc⟩
  classical
  obtain ⟨hk, hpc⟩ := Nat.find_spec hexists
  exact ⟨Nat.find hexists, hk, hpc, fun j hkj hj hpc => Nat.find_min hexists hj ⟨hkj, hpc⟩⟩

/-- What the logs say when the sweep returns. -/
theorem SweepReturns.finished (hmf : m.files[i]? = some mf) (hsize : content.length = mf.size.toNat)
    (goes : SweepGoes σ content i k) (h : SweepReturns σ i k n) :
    Finished sha mf content i (σ.log (visitedOf i) k n) (σ.log (sentOf sha i) k n)
      (σ.log (markedOf i) k n) (σ.state n) := by
  have hlt : k < n := by
    obtain hlt | heq := Nat.lt_or_eq_of_le h.after
    · exact hlt
    · have hpc := h.returned
      rw [← heq, goes.called] at hpc
      cases hpc
  obtain ⟨n, rfl⟩ : ∃ l, n = l + 1 := ⟨n - 1, by omega⟩
  have hkn : k ≤ n := by omega
  have hbefore : SweepOn σ i k n := fun j hkj hjn => h.first j hkj (by omega)
  have sweeping := sweeping_schedule hmf hsize goes hkn hbefore
  obtain ⟨out, hstep⟩ := step_of_schedule σ n
  rw [σ.log_succ _ hkn, σ.log_succ _ hkn, σ.log_succ _ hkn]
  obtain ⟨io, hact, hthread⟩ | ⟨called, -, -⟩ := step_cases hstep
  · rw [hact]
    obtain finished | ⟨s, f, -, -, progress⟩ := sweeping.thread (prepared_schedule σ n) hsize
      (goes.running n hkn hbefore).1 (.inr h.returned) (goes.reads n io hkn hbefore hact) hthread
    · exact finished
    · have hsweep := progress.sweep
      rw [h.returned] at hsweep
      cases hsweep
  · exact absurd (called.pc.symm.trans h.returned) (hbefore n hkn le_rfl)

/-- A skip set changes only when the receiver reports that file bad. -/
theorem skip_schedule {t : Sender} {σ : (machine sha t).Schedule} {f : FileTx} (hkn : k ≤ n)
    (hf : (σ.state k).tx[i]? = some f)
    (hbad : ∀ j v, k ≤ j → j < n → σ.act j = .fileBad v → v.toNat ≠ i) :
    ∃ f', (σ.state n).tx[i]? = some f' ∧ f'.skip = f.skip := by
  induction n, hkn using Nat.le_induction with
  | base => exact ⟨f, hf, rfl⟩
  | succ n hkn ih =>
    obtain ⟨g, hg, hskip⟩ := ih fun j v hkj hjn => hbad j v hkj (by omega)
    obtain ⟨out, hstep⟩ := step_of_schedule σ n
    obtain ⟨io, hact, hthread⟩ | ⟨called, -, -⟩ := step_cases hstep
    · have hshared := shared_getElem? (shared_of_senderStep hthread) i
      rw [hg, Option.map_some] at hshared
      obtain ⟨g', hg', heq⟩ := Option.map_eq_some_iff.mp hshared
      exact ⟨g', hg', (congrArg FileTx.skip heq).trans hskip⟩
    · obtain ⟨g', hg', -⟩ := called.toQuiet.getElem? hg
      exact ⟨g', hg', (called.skip i g g' hg hg' fun v hv => hbad n v hkn (by omega) hv).trans hskip⟩

/-- The sweep of file `i`, called at time `k` and over at time `n`, was exact. -/
structure SweptExactly {t : Sender} (σ : (machine sha t).Schedule) (mf : ManifestFile)
    (content : Bytes) (i k n : Nat) : Prop where
  /-- The hash is that of the file. -/
  hashed : ∃ f, (σ.state n).tx[i]? = some f ∧ f.sha256 = sha content
  /-- The sweep came to each block once, in ascending order. -/
  order : (σ.log (visitedOf i) k n).map Prod.fst = List.range (blockCountFor mf.size).toNat
  /-- What was sent of the file are the datagrams of the blocks that were not in the skip set. -/
  wires : (σ.log (sentOf sha i) k n).map some =
    ((σ.log (visitedOf i) k n).filter (!·.2)).map fun v => blockWire mf content i v.1
  /-- The skip set is the one at the call, if the receiver does not report the file bad meanwhile. -/
  skips : ∀ f, (σ.state k).tx[i]? = some f →
    (∀ j v, k ≤ j → j < n → σ.act j = .fileBad v → v.toNat ≠ i) →
    ∀ v ∈ σ.log (visitedOf i) k n, v.2 = f.skip.test v.1
  /-- The bucket of each block holds the time of a block of the bucket. -/
  times : ∃ f, (σ.state n).tx[i]? = some f ∧ ∀ b, b < (blockCountFor mf.size).toNat →
    ∃ mark ∈ σ.log (markedOf i) k n, mark.1 / 256 = b / 256 ∧ f.sweepMs[b / 256]? = some mark.2

/-- The number of buckets, with the addition in 32 bits. -/
theorem length_sweepMs (blocks : UInt32) :
    ((blocks + kBucketBlocks - 1) / kBucketBlocks).toNat = (blocks.toNat + 255) % 2 ^ 32 / 256 := by
  have hbucket : kBucketBlocks = 256 := rfl
  have hone : blocks + kBucketBlocks - 1 = blocks + 255 := by
    rw [hbucket, UInt32.sub_eq_add_neg, UInt32.add_assoc]
    rfl
  rw [hone, toNat_bucket, UInt32.toNat_add]
  rfl

theorem skips_of_log {f : FileTx} {t : Sender} {σ : (machine sha t).Schedule}
    (hf : (σ.state k).tx[i]? = some f)
    (hbad : ∀ j v, k ≤ j → j < n → σ.act j = .fileBad v → v.toNat ≠ i) (v : Nat × Bool)
    (hv : v ∈ σ.log (visitedOf i) k n) : v.2 = f.skip.test v.1 := by
  obtain ⟨j, hkj, hjn, hv⟩ := σ.mem_log.mp hv
  obtain ⟨f', hf', hskip⟩ := skip_schedule hkj hf fun l w hkl hlj => hbad l w hkl (by omega)
  unfold visitedOf at hv
  split at hv
  · split at hv
    · split at hv
      · obtain rfl := List.mem_singleton.mp hv
        rw [hf', Option.any_some, hskip]
      · cases hv
    · cases hv
  · cases hv

/-- A sweep that has returned was exact but for the times; these are in place where there is a
    bucket. -/
theorem SweepReturns.exact (hmf : m.files[i]? = some mf) (hmax : mf.size.toNat ≤ kMaxFileSize)
    (hsize : content.length = mf.size.toNat) (goes : SweepGoes σ content i k)
    (h : SweepReturns σ i k n)
    (hroom : (blockCountFor mf.size).toNat + 255 < 2 ^ 32) : SweptExactly σ mf content i k n := by
  obtain ⟨-, s, f, hf, hplan, hsha, hdone, progress⟩ := h.finished hmf hsize goes
  have hpayload : kBlockPayloadSize = 1100 := rfl
  have hcount := toNat_blockCountFor hmax
  have hend : s.chunkEnd.toNat = (blockCountFor mf.size).toNat ∧
      s.block.toNat = (blockCountFor mf.size).toNat := by
    have hread := progress.read rfl
    have hlast := UInt32.le_iff_toNat_le.mp progress.last
    have hdone := UInt32.le_iff_toNat_le.mp hdone
    rw [hread] at hdone ⊢
    omega
  have hhashed : s.hashed = content := by
    rw [progress.hashed, hend.1, List.take_of_length_le]
    rw [hsize, hcount, hpayload]
    omega
  have horder := progress.order
  rw [hend.2] at horder
  refine ⟨⟨f, hf, hsha.trans (congrArg sha hhashed)⟩, horder, progress.wires_all rfl,
    fun f hf hbad => skips_of_log hf hbad, f, hf, fun b hb => ?_⟩
  have hlength : f.sweepMs.length = ((blockCountFor mf.size).toNat + 255) / 256 := by
    simp only [FileTx.plan, startFile, Prod.mk.injEq, List.length_replicate] at hplan
    rw [hplan.2.2.2, length_sweepMs, Nat.mod_eq_of_lt hroom]
  exact progress.times b (by rw [hend.2]; exact hb) (by rw [hlength]; omega)

/-- With no bucket the times are lost. -/
theorem SweptExactly.room (hmf : m.files[i]? = some mf) (h : SweptExactly σ mf content i k n) :
    (blockCountFor mf.size).toNat + 255 < 2 ^ 32 := by
  by_contra hwrap
  obtain ⟨f, hf, htimes⟩ := h.times
  obtain ⟨f', hf', hplan⟩ := (prepared_schedule σ n).file hmf
  rw [hf, Option.some.injEq] at hf'
  subst hf'
  have hlt := (blockCountFor mf.size).toNat_lt
  have hlength : f.sweepMs.length = 0 := by
    simp only [FileTx.plan, startFile, Prod.mk.injEq, List.length_replicate] at hplan
    rw [hplan.2.2.2, length_sweepMs]
    omega
  obtain ⟨mark, -, -, htime⟩ := htimes 0 (by omega)
  rw [List.getElem?_eq_none (by omega)] at htime
  cases htime

end

/-! ## A transfer of one file -/

/-- The link takes each datagram, and the file reads as `content`. -/
def calmIo (content : Bytes) (t : Sender) : TxIo where
  now := 1
  opened := some (UInt64.ofNat content.length)
  bytes :=
    match t.pc with
    | .sweepRead i s => (t.tx[i]?).map fun f =>
      (content.drop (s.block.toUInt64 * UInt64.ofNat kBlockPayloadSize).toNat).take
        (sweepWant s f).toNat
    | _ => none
  sendResult := 0
  rttMs := 0
  err := []
  fileName := []

/-- The thread runs whenever it can. -/
def calmAct (sha : Bytes → Bytes) (content : Bytes) (t : Sender) : SenderAct :=
  if (t.senderStep sha (calmIo content t)).isSome then .thread (calmIo content t) else .pause false

def calmSchedule (sha : Bytes → Bytes) (content : Bytes) (t : Sender) : (machine sha t).Schedule :=
  .follow _ (calmAct sha content)
    (fun t => ((t.step sha (calmAct sha content t)).map (·.1)).getD t) fun t => by
      have hsome : ∃ r, t.step sha (calmAct sha content t) = some r := by
        unfold calmAct
        split
        · rename_i h
          exact Option.isSome_iff_exists.mp h
        · exact ⟨_, rfl⟩
      obtain ⟨r, hr⟩ := hsome
      change (t.step sha (calmAct sha content t)).map (·.1) = _
      rw [hr]
      rfl

/-- The thread sweeps file 0, and no file is in flight. -/
structure Lone (content : Bytes) (t : Sender) (s : Sweep) (f : FileTx) : Prop where
  stop : t.stop = false
  failed : t.failed = false
  paused : t.paused = false
  inflight : t.inflight = []
  sweep : sweepOf t.pc = some (0, s)
  pass : ∀ r, repairOf t.pc = some r → t.pc = .repairPass r ∧ r.files = []
  file : t.tx[0]? = some f
  size : content.length = f.size.toNat

section

variable {content : Bytes}

theorem no_pass (h : repairOf t.pc = none) (r : RepairLocals) (hr : repairOf t.pc = some r) :
    t.pc = .repairPass r ∧ r.files = [] := by
  rw [h] at hr
  cases hr

/-- The step of the thread. -/
def Goes (sha : Bytes → Bytes) (content : Bytes) (t : Sender) : Prop :=
  ∃ t' out, t.senderStep sha (calmIo content t) = some (t', out) ∧
    (t'.pc = .announce 0 ∨ ∃ s f, Lone content t' s f)

theorem readBlocks_ok {first count : UInt32} {bytes : Bytes} (hopened : io.opened = some f.size)
    (hbytes : io.bytes = some bytes)
    (hlength : bytes.length = (min (count.toUInt64 * UInt64.ofNat kBlockPayloadSize)
      (f.size - min f.size (first.toUInt64 * UInt64.ofNat kBlockPayloadSize))).toNat) :
    t.readBlocks io i f first count =
      (t.setFile i { f with readerOpen := true }, [], some bytes) := by
  simp only [readBlocks, hopened, hbytes]
  rw [if_neg (by simp), if_neg (by simp), if_pos hlength]

theorem Lone.read (h : Lone content t s f) (hpc : t.pc = .sweepRead 0 s) : Goes sha content t := by
  have hbytes : (calmIo content t).bytes =
      some ((content.drop (s.block.toUInt64 * UInt64.ofNat kBlockPayloadSize).toNat).take
        (sweepWant s f).toNat) := by
    simp only [calmIo, hpc, h.file, Option.map_some]
  have hopened : (calmIo content t).opened = some f.size := by
    change some (UInt64.ofNat content.length) = some f.size
    rw [h.size, UInt64.ofNat_toNat]
  have hstep : t.senderStep sha (calmIo content t) = t.sweepStep sha (calmIo content t) 0 s f := by
    simp only [senderStep, hpc, h.file, Option.bind_some]
  unfold Goes
  rw [hstep, sweepStep]
  by_cases hdone : f.blocks ≤ s.block
  · rw [if_pos hdone]
    exact ⟨_, _, rfl, .inl rfl⟩
  · have hle : s.block ≤ f.blocks := UInt32.le_of_lt (UInt32.not_le.mp hdone)
    have hlength : ((content.drop
        (s.block.toUInt64 * UInt64.ofNat kBlockPayloadSize).toNat).take
          (sweepWant s f).toNat).length = (sweepWant s f).toNat := by
      have hsub : min f.size (s.block.toUInt64 * UInt64.ofNat kBlockPayloadSize) ≤ f.size := by
        rw [UInt64.le_iff_toNat_le, toNat_min64]
        exact Nat.min_le_left _ _
      rw [List.length_take, List.length_drop, h.size, sweepWant, toNat_min64,
        UInt64.toNat_sub_of_le _ _ hsub, toNat_min64]
      omega
    have hstop : ¬t.stop = true := by rw [h.stop]; exact Bool.false_ne_true
    have hpaused : ¬t.paused = true := by rw [h.paused]; exact Bool.false_ne_true
    rw [if_neg hdone, if_neg hstop, if_neg hpaused]
    dsimp only
    rw [readBlocks_ok hopened hbytes hlength]
    have hfile : (t.setFile 0 { f with readerOpen := true }).tx[0]? =
        some { f with readerOpen := true } :=
      List.getElem?_set_self (List.getElem?_eq_some_iff.mp h.file).1
    exact ⟨_, _, rfl, .inr ⟨_, _, h.stop, h.failed, h.paused, h.inflight, rfl, no_pass rfl, hfile,
      h.size⟩⟩

theorem Lone.block (h : Lone content t s f) (hpc : t.pc = .sweepBlock 0 s) :
    Goes sha content t := by
  have next : ∀ pc, sweepOf pc = some (0, s) → repairOf pc = none →
      ∃ s f, Lone content { t with pc := pc } s f := fun pc hsweep hrepair =>
    ⟨s, f, h.stop, h.failed, h.paused, h.inflight, hsweep, no_pass hrepair, h.file, h.size⟩
  have hstop : ¬t.stop = true := by rw [h.stop]; exact Bool.false_ne_true
  unfold Goes
  simp only [senderStep, hpc, h.file, Option.map_some, Option.some.injEq]
  split
  · exact ⟨_, _, rfl, .inr (next _ rfl rfl)⟩
  · split
    · exact ⟨_, _, rfl, .inr (next _ rfl rfl)⟩
    · exact ⟨_, _, rfl, .inr (next _ rfl rfl)⟩

theorem Lone.send (h : Lone content t s f) (hpc : t.pc = .sweepSend 0 s) : Goes sha content t := by
  have hstop : ¬t.stop = true := by rw [h.stop]; exact Bool.false_ne_true
  have hresult : (calmIo content t).sendResult = 0 := rfl
  unfold Goes
  simp only [senderStep, hpc, h.file, Option.map_some, Option.some.injEq, trySend, if_neg hstop,
    if_pos hresult]
  exact ⟨_, _, rfl, .inr ⟨s, f, h.stop, h.failed, h.paused, h.inflight, rfl, no_pass rfl, h.file,
    h.size⟩⟩

theorem reapInflight_idle (h : t.inflight = []) : t.reapInflight = t := by
  have htx : t.tx.mapIdx (fun _ f => f) = t.tx := by
    apply List.ext_getElem?
    intro j
    simp
  cases t
  cases h
  simpa [reapInflight] using htx

theorem Lone.mark (h : Lone content t s f) (hpc : t.pc = .sweepMark 0 s) : Goes sha content t := by
  have hi := (List.getElem?_eq_some_iff.mp h.file).1
  refine ⟨t.sweepMarkStep (calmIo content t) 0 s f, [], ?_, .inr ?_⟩
  · simp only [senderStep, hpc, h.file, Option.map_some]
  · unfold sweepMarkStep
    dsimp only
    split
    · have hidle : ∀ g, (t.setFile 0 g).reapInflight = t.setFile 0 g := fun g =>
        reapInflight_idle h.inflight
      rw [hidle]
      refine ⟨_, _, h.stop, h.failed, h.paused, h.inflight, rfl, fun r hr => ?_,
        List.getElem?_set_self hi, h.size⟩
      cases hr
      exact ⟨rfl, h.inflight⟩
    · exact ⟨_, _, h.stop, h.failed, h.paused, h.inflight, rfl, no_pass rfl,
        List.getElem?_set_self hi, h.size⟩

theorem Lone.goes (h : Lone content t s f) : Goes sha content t := by
  have hsweep := h.sweep
  cases hpc : t.pc with
  | sweepRead j s' =>
    rw [hpc] at hsweep
    cases hsweep
    exact h.read hpc
  | sweepBlock j s' =>
    rw [hpc] at hsweep
    cases hsweep
    exact h.block hpc
  | sweepSend j s' =>
    rw [hpc] at hsweep
    cases hsweep
    exact h.send hpc
  | sweepMark j s' =>
    rw [hpc] at hsweep
    cases hsweep
    exact h.mark hpc
  | repairPass r =>
    rw [hpc] at hsweep
    obtain ⟨-, hfiles⟩ := h.pass r (by rw [hpc]; rfl)
    -- There is no file to repair, and the sweep goes on.
    have hdone : repairDone r.caller = .sweepBlock 0 s := by
      cases hcaller : r.caller with
      | sweep j s' =>
        rw [sweepOf, hcaller] at hsweep
        cases hsweep
        rfl
      | inner => rw [sweepOf, hcaller] at hsweep; cases hsweep
      | drain => rw [sweepOf, hcaller] at hsweep; cases hsweep
    refine ⟨_, _, by simp only [senderStep, hpc]; rfl, .inr ⟨s, f, ?_⟩⟩
    simp only [repairPassStep, hfiles, hdone]
    exact ⟨h.stop, h.failed, h.paused, h.inflight, rfl, no_pass rfl, h.file, h.size⟩
  | repairRun holes block r =>
    have hpass := (h.pass r (by rw [hpc]; rfl)).1
    rw [hpc] at hpass
    cases hpass
  | repairSend holes block payload r =>
    have hpass := (h.pass r (by rw [hpc]; rfl)).1
    rw [hpc] at hpass
    cases hpass
  | _ => rw [hpc] at hsweep; cases hsweep

theorem calm_step {σ : (machine sha t).Schedule} (hσ : σ = calmSchedule sha content t) {n : Nat}
    (goes : Goes sha content (σ.state n)) :
    σ.act n = .thread (calmIo content (σ.state n)) ∧
      (σ.state (n + 1)).pc = .announce 0 ∨
    σ.act n = .thread (calmIo content (σ.state n)) ∧
      ∃ s f, Lone content (σ.state (n + 1)) s f := by
  obtain ⟨t', out, hstep, hgoes⟩ := goes
  have hact : σ.act n = calmAct sha content (σ.state n) := by
    rw [hσ]
    rfl
  rw [calmAct, hstep, Option.isSome_some, if_pos rfl] at hact
  obtain ⟨out', hstep'⟩ := step_of_schedule σ n
  rw [hact] at hstep'
  have heq := hstep.symm.trans hstep'
  rw [Option.some.injEq, Prod.mk.injEq] at heq
  rw [← heq.1]
  exact hgoes.imp (fun h => ⟨hact, h⟩) fun h => ⟨hact, h⟩

/-- The transfer of a single file, undisturbed. -/
theorem calm_goes (mf : ManifestFile) (hblocks : blockCountFor mf.size ≠ 0)
    (hsize : content.length = mf.size.toNat) :
    SweepGoes (calmSchedule sha content (start ⟨[mf], [], [], 0⟩ [] [])) content 0 1 := by
  obtain ⟨σ, hσ⟩ : ∃ σ, σ = calmSchedule sha content (start ⟨[mf], [], [], 0⟩ [] []) := ⟨_, rfl⟩
  rw [← hσ]
  have hinit : σ.state 0 = start ⟨[mf], [], [], 0⟩ [] [] := σ.init
  have hfirst : (σ.state 0).senderStep sha (calmIo content (σ.state 0)) =
      some ({ σ.state 0 with
        currentFile := some 0
        pc := .sweepRead 0 .begin }, []) := by
    rw [hinit]
    simp [senderStep, start, startFile, hblocks, Sweep.begin]
  have hone : (σ.state 1).pc = .sweepRead 0 .begin ∧ ∃ s f, Lone content (σ.state 1) s f := by
    have hact : σ.act 0 = calmAct sha content (σ.state 0) := by
      rw [hσ]
      rfl
    rw [calmAct, hfirst, Option.isSome_some, if_pos rfl] at hact
    obtain ⟨out, hstep⟩ := step_of_schedule σ 0
    rw [hact] at hstep
    have heq := hfirst.symm.trans hstep
    rw [Option.some.injEq, Prod.mk.injEq] at heq
    rw [← heq.1, hinit]
    exact ⟨rfl, .begin, startFile [] 0 mf, rfl, rfl, rfl, rfl, rfl, no_pass rfl, rfl, hsize⟩
  have lone : ∀ n, 1 ≤ n → SweepOn σ 0 1 n → ∃ s f, Lone content (σ.state n) s f := by
    intro n hn
    induction n, hn using Nat.le_induction with
    | base => exact fun _ => hone.2
    | succ n hn ih =>
      intro hon
      obtain ⟨s, f, h⟩ := ih fun j hkj hjn => hon j hkj (by omega)
      obtain ⟨-, hpc⟩ | ⟨-, hnext⟩ := calm_step hσ h.goes
      · exact absurd hpc (hon (n + 1) (by omega) le_rfl)
      · exact hnext
  have thread : ∀ n, 1 ≤ n → SweepOn σ 0 1 n → σ.act n = .thread (calmIo content (σ.state n)) := by
    intro n hn hon
    obtain ⟨s, f, h⟩ := lone n hn hon
    obtain ⟨hact, -⟩ | ⟨hact, -⟩ := calm_step hσ h.goes
    · exact hact
    · exact hact
  refine ⟨hone.1, fun n hn hon => ?_, fun n io hn hon hact => ?_, fun n hn hon => ?_⟩
  · obtain ⟨s, f, h⟩ := lone n hn hon
    exact ⟨h.stop, h.failed⟩
  · rw [thread n hn hon, SenderAct.thread.injEq] at hact
    subst hact
    intro s f hpc hf _
    refine ⟨rfl, ?_⟩
    simp only [calmIo, hpc, hf, Option.map_some]
  · exact ⟨n, _, le_rfl, thread n hn hon, rfl⟩

end

/-- `SweepFile` sends and hashes the file exactly, and records the time of each bucket, if and only if
    the file has at most `2 ^ 32 - 256` blocks. -/
theorem sweepFile_iff (sha : Bytes → Bytes) (m : Manifest) (runs : List (UInt16 × List SackRun))
    (verified : List UInt16) (σ : (machine sha (start m runs verified)).Schedule) (i k : Nat)
    (mf : ManifestFile) (content : Bytes) (hmf : m.files[i]? = some mf)
    (hmax : mf.size.toNat ≤ kMaxFileSize) (hsize : content.length = mf.size.toNat)
    (goes : SweepGoes σ content i k) :
    (∃ n, SweepReturns σ i k n ∧ SweptExactly σ mf content i k n) ↔
      mf.size.toNat ≤ kBlockPayloadSize * (2 ^ 32 - 256) := by
  have hpayload : kBlockPayloadSize = 1100 := rfl
  have hcount := toNat_blockCountFor hmax
  have hcondition : (blockCountFor mf.size).toNat + 255 < 2 ^ 32 ↔
      mf.size.toNat ≤ kBlockPayloadSize * (2 ^ 32 - 256) := by
    rw [hcount, hpayload]
    omega
  rw [← hcondition]
  constructor
  · rintro ⟨n, -, exact⟩
    exact exact.room hmf
  · intro hroom
    obtain ⟨n, returns⟩ := sweep_returns hmf hsize goes
    exact ⟨n, returns, returns.exact hmf hmax hsize goes hroom⟩

/-- A file of one byte is swept exactly. -/
theorem sweepFile_oneByte : ∃ n,
    SweepReturns (calmSchedule id [7] (start ⟨[⟨ascii "a", 1⟩], [], [], 0⟩ [] [])) 0 1 n ∧
      SweptExactly (calmSchedule id [7] (start ⟨[⟨ascii "a", 1⟩], [], [], 0⟩ [] []))
        ⟨ascii "a", 1⟩ [7] 0 1 n :=
  (sweepFile_iff id _ _ _ _ _ _ _ _ rfl (by decide) rfl (calm_goes _ (by decide) rfl)).mpr
    (by decide)

/-- A file of `2 ^ 32 - 255` blocks, which the manifest check lets through: there is no bucket. -/
theorem sweepFile_tooManyBlocks : ¬ ∀ (sha : Bytes → Bytes) (m : Manifest)
    (runs : List (UInt16 × List SackRun)) (verified : List UInt16)
    (σ : (machine sha (start m runs verified)).Schedule) (i k : Nat) (mf : ManifestFile)
    (content : Bytes), m.files[i]? = some mf → mf.size.toNat ≤ kMaxFileSize →
      content.length = mf.size.toNat → SweepGoes σ content i k →
        ∃ n, SweepReturns σ i k n ∧ SweptExactly σ mf content i k n := by
  intro h
  have hbytes : (4724463745100 : UInt64).toNat = 4724463745100 := rfl
  have hmax : (4724463745100 : UInt64).toNat ≤ kMaxFileSize := by decide
  have hcount : (blockCountFor 4724463745100).toNat = 4294967041 := by
    rw [toNat_blockCountFor hmax, hbytes]
  have hblocks : blockCountFor 4724463745100 ≠ 0 := by
    intro hzero
    rw [hzero] at hcount
    cases hcount
  obtain ⟨content, hsize⟩ : ∃ content : Bytes, content.length = (4724463745100 : UInt64).toNat :=
    ⟨List.replicate _ 0, List.length_replicate⟩
  obtain ⟨n, -, exact⟩ := h id ⟨[⟨ascii "a", 4724463745100⟩], [], [], 0⟩ [] [] _ 0 1 _ content rfl
    hmax hsize (calm_goes _ hblocks hsize)
  have hroom : (blockCountFor 4724463745100).toNat + 255 < 2 ^ 32 := exact.room rfl
  rw [hcount] at hroom
  exact absurd hroom (by decide)

end Sender

end CrossTransfer.Transfer
