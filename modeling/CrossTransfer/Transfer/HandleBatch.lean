import CrossTransfer.Transfer.OneByOne

/-! # Batches of blocks

`HandleBatch` is simulated by the processing of its blocks one by one. What the engine has collected
and not yet written, and a verification that is under way, is work to be settled (`settled`); a step
inside the batch leaves what it will be settled to alone, or takes a block, which is then processed
after the rest (`settled_step`).
-/

namespace CrossTransfer.Transfer

open CrossTransfer.Library

/-! ## Inside HandleBatch -/

def WriterCont.inBatch : WriterCont → Bool
  | .batch _ _ _ => true
  | .dones _ _ => false

/-- The writer thread is in `HandleBatch`. -/
def WriterPc.inBatch : WriterPc → Bool
  | .batch _ _ _ _ => true
  | .sack _ _ k => k.inBatch
  | .verify _ k => k.inBatch
  | .rename _ k => k.inBatch
  | _ => false

/-- `HandleBatch` has something left to do. -/
def WriterPc.handling : WriterPc → Bool
  | .batch [] none _ _ => false
  | pc => pc.inBatch

def WriterPc.isBatch : WriterPc → Bool
  | .batch _ _ _ _ => true
  | _ => false

/-- The file that the owner is told to be good. -/
def RxEvent.good : RxEvent → Option UInt16
  | .fileOk index => some index
  | _ => none

/-- A hash was wrong. -/
def RxEvent.isBad : RxEvent → Bool
  | .fileBad _ _ => true
  | _ => false

namespace Receiver

variable (sha : Bytes → Bytes) (t : Receiver)

def parts (fs : Fs) (ahead : List (Bool × Io)) (told : List UInt16) : Parts :=
  ⟨t.cores, fs, ahead, told⟩

/-- The files and the disk once the run that is being collected has been written, and the verification
    that is under way is over. -/
def settled (fs : Fs) (ahead : List (Bool × Io)) (told : List UInt16) : Option Parts :=
  match t.pc with
  | .batch _ (some run) _ _ => (t.parts fs ahead told).write sha run
  | .sack i _ _ => (t.parts fs ahead told).verify sha i
  | .verify i _ => (t.parts fs ahead told).verify sha i
  | .rename i _ => (t.parts fs ahead told).rename i
  | _ => some (t.parts fs ahead told)

/-- What a step of the writer thread finds out about a verification. -/
def seen (io : Io) : List (Bool × Io) :=
  match t.pc with
  | .verify i _ => if (t.rx[i]?).any fun f => decide (Due f) then [(t.stop, io)] else []
  | .rename i _ => if (t.rx[i]?).isSome then [(t.stop, io)] else []
  | _ => []

end Receiver

namespace RxState

def seen (s : RxState) : ReceiverAct → List (Bool × Io)
  | .writer io => s.engine.seen io
  | _ => []

/-- What a step tells the owner. -/
def events (sha : Bytes → Bytes) (s : RxState) (a : ReceiverAct) : List RxEvent :=
  ((s.step sha a).map (·.2)).getD []

end RxState

namespace Receiver

variable {t t' : Receiver} {fs fs' : Fs} {sha : Bytes → Bytes} {io : Io} {out : List RxEvent}
  {ahead : List (Bool × Io)} {told : List UInt16} {run : BlockRun} {i : Nat} {k : WriterCont} {f : FileRx}

theorem settled_toPc (hpc : t.pc = k.toPc) :
    t.settled sha fs ahead told = some (t.parts fs ahead told) := by
  rw [settled, hpc]
  cases k <;> rfl

theorem due_core {f : FileRx} : Due f.core ↔ Due f :=
  ⟨fun due => ⟨due.verified, due.verifying, due.complete, due.expected⟩,
    fun due => ⟨due.verified, due.verifying, due.complete, due.expected⟩⟩

theorem parts_getElem? : (t.parts fs ahead told).files[i]? = (t.rx[i]?).map FileRx.core :=
  cores_getElem? t i

theorem parts_of_cores (h : t'.cores = t.cores) : t'.parts fs ahead told = t.parts fs ahead told := by
  rw [parts, h, parts]

theorem settled_of_cores (h : t'.cores = t.cores) (hpc : t'.pc = t.pc) :
    t'.settled sha fs ahead told = t.settled sha fs ahead told := by
  rw [settled, settled, hpc, parts_of_cores h]

/-- A flush settles what it writes. -/
theorem settled_flushRun {now : UInt32} (hok : io.ok = true)
    (h : t.flushRun io run now k fs = (t', fs', out)) (on : t'.pc ≠ .exited) :
    out = [] ∧ t'.pc.pending = k.pending ∧ ∀ ahead told,
      t'.settled sha fs' ahead told = (t.parts fs ahead told).write sha run := by
  unfold flushRun at h
  split at h
  · rename_i hnone
    cases h
    refine ⟨rfl, k.toPc_pending, fun ahead told => (settled_toPc rfl).trans ?_⟩
    have hfiles : (t.parts fs ahead told).files[run.file.toNat]? = none := by
      rw [parts_getElem?, hnone, Option.map_none]
    rw [Parts.write, hfiles]
    rfl
  · rename_i f hf
    dsimp only at h
    split at h
    · rename_i inode hwriter
      rw [if_pos hok] at h
      cases h
      have hopen : f.core.writer = some (some inode) := hwriter
      have hsame : f.core.core = f.core := rfl
      have hmark : (markRun f.core run).core = (markRun f run).core := core_markRun hsame run
      have hcomplete : (markRun f.core run).complete = (markRun f run).complete :=
        (congrArg FileRx.complete hmark :)
      refine ⟨rfl, ?_, fun ahead told => ?_⟩
      · dsimp only
        split
        · rfl
        · exact k.toPc_pending
      have hcore : (t.parts fs ahead told).files[run.file.toNat]? = some f.core := by
        rw [parts_getElem?, hf, Option.map_some]
      rw [Parts.write_open hcore hopen, hcomplete]
      have hwritten : (t.parts fs ahead told).written f.core inode run =
          ({ t with rx := t.rx.set run.file.toNat (markRun f run) } : Receiver).parts
            (fs.writeAt inode (run.first.toNat * kBlockPayloadSize) run.data) ahead told := by
        rw [Parts.written, hmark, parts, parts, cores_set]
      rw [hwritten]
      by_cases hdone : (markRun f run).complete = true
      · rw [if_pos hdone, if_pos hdone]
        rfl
      · rw [if_neg hdone, if_neg hdone]
        exact settled_toPc rfl
    · cases h
      exact absurd rfl on

/-- A verification ends as it is going to. -/
theorem settled_verify (hpc : t.pc = .verify i k) (h : t.verify sha io i k fs = (t', fs', out))
    (good : ∀ e ∈ out, e.isBad = false) : out.filterMap RxEvent.good = [] ∧ ∀ ahead told,
      t'.settled sha fs' ahead told = (t.parts fs (t.seen io ++ ahead) told).verify sha i := by
  by_cases due : ∃ f, t.rx[i]? = some f ∧ Due f
  swap
  · rw [verify_idle fun f hf hdue => due ⟨f, hf, hdue⟩] at h
    cases h
    have hseen : t.seen io = [] := by
      rw [seen, hpc]
      dsimp only
      cases hf : t.rx[i]? with
      | none => rfl
      | some f =>
        rw [Option.any_some, if_neg]
        simpa using fun hdue => due ⟨f, hf, hdue⟩
    refine ⟨rfl, fun ahead told => (settled_toPc rfl).trans ?_⟩
    rw [hseen, List.nil_append, Parts.verify_idle]
    · rfl
    · intro g hg hdue
      rw [parts_getElem?] at hg
      obtain ⟨f, hf, rfl⟩ := Option.map_eq_some_iff.mp hg
      exact due ⟨f, hf, due_core.mp hdue⟩
  obtain ⟨f, hf, due⟩ := due
  have hseen : t.seen io = [(t.stop, io)] := by
    rw [seen, hpc]
    dsimp only
    rw [hf, Option.any_some, if_pos (decide_eq_true due)]
  have hfile : ∀ ahead told, (t.parts fs ahead told).files[i]? = some f.core := by
    intro ahead told
    rw [parts_getElem?, hf, Option.map_some]
  -- A thread that is stopped verifies nothing, and neither does the settled run.
  cases hstop : t.stop with
  | true =>
    rw [verify_stopped hf due hstop] at h
    cases h
    refine ⟨rfl, fun ahead told => (settled_toPc rfl).trans ?_⟩
    rw [Parts.verify_stopped (hfile _ _) (due_core.mpr due) (by rw [parts, hseen, hstop]; rfl)]
    refine congrArg some ?_
    exact congrArg (Parts.mk · _ _ _) (cores_set _)
  | false =>
    have hcores := cores_set (t := t) (i := i) { f with verifying := true, writer := none }
    cases hashed : hashFile io fs f with
    | none =>
      rw [verify_unread hf due hstop hashed] at h
      cases h
      obtain ⟨book, -⟩ := book_fail (t.setFile i { f with verifying := true, writer := none })
        (ascii "io") (ascii "verify read failed")
      refine ⟨?_, fun ahead told => (settled_toPc rfl).trans ?_⟩
      · refine List.filterMap_eq_nil_iff.mpr fun e he => ?_
        obtain rfl := mem_fail he
        rfl
      · have hhash : hashFile io (t.parts fs (t.seen io ++ ahead) told).fs f.core = none := hashed
        rw [Parts.verify_due (hfile _ _) (due_core.mpr due) (by rw [parts, hseen, hstop]; rfl), hhash]
        exact congrArg some (congrArg (Parts.mk · _ _ _) (book.cores.trans hcores))
    | some hashing =>
      obtain ⟨mid, bytes⟩ := hashing
      by_cases right : sha bytes = f.expectedSha256
      · rw [verify_matched hf due hstop hashed right] at h
        cases h
        refine ⟨rfl, fun ahead told => ?_⟩
        have hhash : hashFile io (t.parts fs (t.seen io ++ ahead) told).fs f.core = some (fs', bytes) :=
          hashed
        have hright : sha bytes = f.core.expectedSha256 := right
        rw [Parts.verify_due (hfile _ _) (due_core.mpr due) (by rw [parts, hseen, hstop]; rfl), hhash]
        dsimp only
        rw [if_pos hright, settled]
        dsimp only
        exact congrArg (Parts.rename · i) (congrArg (Parts.mk · _ _ _) hcores)
      · -- A mismatch reports a bad file, which is excluded here.
        rw [verify_mismatch hf due hstop hashed right] at h
        cases h
        simp [RxEvent.isBad] at good

/-- A rename ends as it is going to. -/
theorem settled_renameFile (hpc : t.pc = .rename i k) (h : t.renameFile io i k fs = (t', fs', out)) :
    t'.settled sha fs' ahead (told ++ out.filterMap RxEvent.good) =
      (t.parts fs (t.seen io ++ ahead) told).rename i := by
  unfold renameFile at h
  split at h
  · rename_i hnone
    cases h
    have hseen : t.seen io = [] := by
      rw [seen, hpc]
      dsimp only
      rw [hnone]
      rfl
    have hfile : (t.parts fs (t.seen io ++ ahead) told).files[i]? = none := by
      rw [parts_getElem?, hnone, Option.map_none]
    rw [Parts.rename, hfile, hseen]
    refine (settled_toPc rfl).trans ?_
    rw [List.filterMap_nil, List.append_nil]
    rfl
  · rename_i f hf
    have hseen : t.seen io = [(t.stop, io)] := by
      rw [seen, hpc]
      dsimp only
      rw [hf]
      rfl
    have hfile : (t.parts fs (t.seen io ++ ahead) told).files[i]? = some f.core := by
      rw [parts_getElem?, hf, Option.map_some]
    have hahead : (t.parts fs (t.seen io ++ ahead) told).ahead = (t.stop, io) :: ahead := by
      rw [parts, hseen]
      rfl
    rw [Parts.rename, hfile, hahead]
    dsimp only
    cases hrename : fs.rename f.partPath f.finalPath io.ok with
    | none =>
      rw [hrename] at h
      cases h
      have hrefused : FileSystem.rename (t.parts fs (t.seen io ++ ahead) told).fs f.core.partPath
          f.core.finalPath io.ok = none := hrename
      obtain ⟨book, -⟩ := book_fail t (ascii "io") (ascii "rename failed: " ++ io.err)
      have hout : (t.fail (ascii "io") (ascii "rename failed: " ++ io.err)).2.filterMap RxEvent.good = [] := by
        refine List.filterMap_eq_nil_iff.mpr fun e he => ?_
        obtain rfl := mem_fail he
        rfl
      rw [hrefused, hout, List.append_nil]
      exact (settled_toPc rfl).trans (congrArg some (congrArg (Parts.mk · _ _ _) book.cores))
    | some renamed =>
      rw [hrename] at h
      cases h
      have hdone : FileSystem.rename (t.parts fs (t.seen io ++ ahead) told).fs f.core.partPath
          f.core.finalPath io.ok = some fs' := hrename
      rw [hdone]
      refine (settled_toPc rfl).trans (congrArg some ?_)
      exact congrArg (Parts.mk · _ _ _) (cores_set { f with verified := true, verifying := false })

/-! ## Taking a block -/

theorem acceptFile_of_fresh {p : Pending} (fresh : Fresh f p) : (acceptFile f p).map (·.2) = some true := by
  have hblocks : ¬f.blocks = 0 := by
    intro hzero
    have hinside := fresh.inside
    rw [hzero] at hinside
    exact UInt32.not_lt_zero hinside
  have haccepts : ¬(f.verified || decide (f.blocks = 0) || decide (f.blocks ≤ p.block)) = true := by
    simp [fresh.verified, hblocks, fresh.inside]
  rw [acceptFile, if_neg haccepts, if_neg (not_not.mpr fresh.len)]
  dsimp only
  split <;> simp [fresh.missing]

/-- A block that is refused or has been there is not new. -/
theorem stale_of_acceptBlock {p : Pending} (h : (t.acceptBlock p).2 = false)
    (hf : t.rx[p.file.toNat]? = some f) : ¬Fresh f p := by
  intro fresh
  obtain ⟨⟨f', flag⟩, hacc, hflag⟩ := Option.map_eq_some_iff.mp (acceptFile_of_fresh fresh)
  obtain rfl : flag = true := hflag
  rw [acceptBlock, hf] at h
  dsimp only at h
  rw [hacc] at h
  cases h

variable {l : Launch} {as : List ReceiverAct} {log : List DiskEvent}

/-- The work that a batch has collected, by the run. -/
theorem settled_batch {rest : List Pending} {run : Option BlockRun} {dones : List (UInt16 × Bytes)}
    {now : UInt32} (hcores : t'.cores = t.cores) (hpc : t'.pc = .batch rest run dones now) :
    t'.settled sha fs ahead told =
      run.elim (some (t.parts fs ahead told)) fun run => (t.parts fs ahead told).write sha run := by
  rw [settled, hpc, parts_of_cores hcores]
  cases run <;> rfl

/-- A new block that joins the run is processed after the blocks of the run. -/
theorem write_extendRun {p : Pending} {g : Parts} (marks : Marks l as log t)
    (sized : ∀ f ∈ t.rx, Sized f) (joins : Joins t f p)
    (h : (t.parts fs ahead told).write sha (extendRun t.pc.run p) = some g) :
    ∃ g₀, t.pc.run.elim (some (t.parts fs ahead told))
        (fun run => (t.parts fs ahead told).write sha run) = some g₀ ∧ g₀.block sha p = some g := by
  have received := marks.arrived p (List.mem_append_right _ joins.pending)
  have hcore : (t.parts fs ahead told).files[p.file.toNat]? = some f.core := by
    rw [parts_getElem?, joins.file, Option.map_some]
  have fresh : Fresh f.core p := joins.fresh.of_core rfl
  cases hrun : t.pc.run with
  | none =>
    rw [hrun] at h
    refine ⟨_, rfl, ?_⟩
    rw [Parts.block, hcore]
    dsimp only
    rw [if_pos fresh]
    exact h
  | some run =>
    rw [hrun] at h
    obtain ⟨f', ps, hf', collected, -⟩ := marks.run run hrun
    have contiguous := joins.contiguous run hrun
    have hfile : run.file = p.file := by
      simp only [Receiver.contiguous, Bool.and_eq_true, beq_iff_eq] at contiguous
      exact contiguous.1.1
    obtain rfl : f' = f := Option.some.inj (hf'.symm.trans (hfile ▸ joins.file))
    have extended := collected.extend joins.fresh received.length contiguous
    have same : f'.core.core = f'.core := rfl
    rw [Parts.write_extend (hfile ▸ hcore) ((sized f' (List.mem_of_getElem? hf')).of_core same)
      (collected.of_core same) fresh (extended.of_core same)] at h
    exact Option.bind_eq_some_iff.mp h

/-- A step of the batch leaves what it will be settled to alone, or takes the next block. -/
theorem settled_batchStep {rest : List Pending} {run : Option BlockRun} {dones : List (UInt16 × Bytes)}
    {now : UInt32} (hpc : t.pc = .batch rest run dones now) (handling : t.pc.handling = true)
    (hok : io.ok = true) (marks : Marks l as log t) (sized : ∀ f ∈ t.rx, Sized f)
    (h : t.batchStep io rest run dones now fs = (t', fs', out)) (on : t'.pc ≠ .exited) :
    out = [] ∧ ∃ taken, rest = taken ++ t'.pc.pending ∧ ∀ ahead told g,
      t'.settled sha fs' ahead told = some g →
        ∃ g₀, t.settled sha fs ahead told = some g₀ ∧ g₀.blocks sha taken = some g := by
  have hrun : t.pc.run = run := by rw [hpc]; rfl
  have work : ∀ ahead told, t.settled sha fs ahead told = run.elim (some (t.parts fs ahead told))
      (fun run => (t.parts fs ahead told).write sha run) := fun _ _ => settled_batch rfl hpc
  simp only [work]
  unfold batchStep at h
  split at h
  · -- The batch is over; its last run is flushed.
    obtain ⟨hout, hpending, hsettled⟩ := settled_flushRun hok h on
    exact ⟨hout, [], hpending.symm, fun _ _ g hg => ⟨g, (hsettled _ _).symm.trans hg, rfl⟩⟩
  · rw [hpc] at handling
    cases handling
  · rename_i p rest
    split at h
    · -- The next block does not continue the run.
      rename_i r hr
      rw [(Option.filter_eq_some_iff.mp hr).1]
      obtain ⟨hout, hpending, hsettled⟩ := settled_flushRun hok h on
      exact ⟨hout, [], hpending.symm, fun _ _ g hg => ⟨g, (hsettled _ _).symm.trans hg, rfl⟩⟩
    · rename_i hr
      obtain ⟨book, -⟩ := book_acceptBlock t p
      have contiguous : ∀ r, t.pc.run = some r → Receiver.contiguous r p = true := by
        intro r heq
        rw [hrun] at heq
        simpa [heq] using hr
      dsimp only at h
      split at h
      · -- It is not new, and it will not be when the run has been written.
        rename_i hfresh
        cases h
        have hstale : (t.acceptBlock p).2 = false := by simpa using hfresh
        refine ⟨rfl, [p], rfl, fun ahead told g hg => ?_⟩
        have hg := (settled_batch (book.pc (.batch rest run dones now)).cores rfl).symm.trans hg
        refine ⟨g, hg, ?_⟩
        have grows : Parts.Grows (t.parts fs ahead told) g := by
          cases run with
          | none =>
            cases hg
            exact .refl _
          | some run => exact Parts.grows_write hg
        rw [Parts.blocks_single]
        refine Parts.block_stale grows fun g hg fresh => ?_
        rw [parts_getElem?] at hg
        obtain ⟨f, hf, rfl⟩ := Option.map_eq_some_iff.mp hg
        exact stale_of_acceptBlock hstale hf (fresh.of_core rfl)
      · rename_i hfresh
        have hnew : (t.acceptBlock p).2 = true := by simpa using hfresh
        obtain ⟨f, hf, fresh⟩ := acceptBlock_fresh hnew
        have joins : Joins t f p := ⟨by rw [hpc]; exact List.mem_cons_self, hf, fresh, contiguous⟩
        have taken : ∀ ahead told g, (t.parts fs ahead told).write sha (extendRun run p) = some g → ∃ g₀,
            run.elim (some (t.parts fs ahead told)) (fun run => (t.parts fs ahead told).write sha run) =
              some g₀ ∧ g₀.blocks sha [p] = some g := by
          intro ahead told g hg
          rw [← hrun] at hg ⊢
          obtain ⟨g₀, hg₀, hblock⟩ := write_extendRun marks sized joins hg
          exact ⟨g₀, hg₀, (Parts.blocks_single ..).trans hblock⟩
        split at h
        · obtain ⟨hout, hpending, hsettled⟩ := settled_flushRun hok h on
          refine ⟨hout, [p], by rw [hpending]; rfl, fun ahead told g hg => taken ahead told g ?_⟩
          rw [← parts_of_cores book.cores]
          exact (hsettled _ _).symm.trans hg
        · cases h
          have cores := (book.pc (.batch rest (some (extendRun run p)) dones now)).cores
          exact ⟨rfl, [p], rfl, fun ahead told g hg =>
            taken ahead told g ((settled_batch cores rfl).symm.trans hg)⟩

theorem rx_onBlock (t : Receiver) (wire : Bytes) : (t.onBlock wire).rx = t.rx := by
  unfold onBlock
  split
  · rfl
  · split
    · rfl
    · split <;> rfl

theorem good_sendSack {now : UInt32} (h : t.sendSack i now = some (t', out)) :
    out.filterMap RxEvent.good = [] := by
  unfold sendSack at h
  split at h
  · cases h
    rfl
  · obtain ⟨s, -, h⟩ := Option.map_eq_some_iff.mp h
    cases h
    rfl

end Receiver

/-! ## A step inside the batch -/

variable {sha : Bytes → Bytes} {l : Launch} {as : List ReceiverAct} {log : List DiskEvent}
  {s s' : RxState} {a : ReceiverAct} {told : List UInt16}

/-- Writes succeed, and the batch is not over before the step. -/
structure Handling (s : RxState) (a : ReceiverAct) : Prop where
  handling : s.engine.pc.handling = true
  writes : ∀ io, a = .writer io → s.engine.pc.isBatch = true → io.ok = true

theorem inBatch_of_handling {pc : WriterPc} (h : pc.handling = true) : pc.inBatch = true := by
  unfold WriterPc.handling at h
  split at h
  · cases h
  · exact h

/-- The steps that only settle what is under way. -/
theorem settled_same {engine : Receiver} {fs : Fs} {out : List RxEvent} {seen : List (Bool × Io)}
    (hpending : s.engine.pc.pending = engine.pc.pending)
    (hsettled : ∀ ahead, engine.settled sha fs ahead (told ++ out.filterMap RxEvent.good) =
      s.engine.settled sha s.fs (seen ++ ahead) told) :
    ∃ taken, s.engine.pc.pending = taken ++ engine.pc.pending ∧ ∀ ahead g,
      engine.settled sha fs ahead (told ++ out.filterMap RxEvent.good) = some g →
        ∃ g₀, s.engine.settled sha s.fs (seen ++ ahead) told = some g₀ ∧ g₀.blocks sha taken = some g :=
  ⟨[], hpending, fun ahead g hg => ⟨g, (hsettled ahead).symm.trans hg, rfl⟩⟩

theorem settled_writerStep {io : Io} {t' : Receiver} {fs' : Fs} {out : List RxEvent}
    (marks : Marks l as log s.engine) (sized : ∀ f ∈ s.engine.rx, Sized f)
    (handling : Handling s (.writer io)) (good : ∀ e ∈ out, e.isBad = false)
    (h : s.engine.writerStep sha io s.fs = some (t', fs', out)) (inside : t'.pc.inBatch = true) :
    ∃ taken, s.engine.pc.pending = taken ++ t'.pc.pending ∧ ∀ ahead g,
      t'.settled sha fs' ahead (told ++ out.filterMap RxEvent.good) = some g →
        ∃ g₀, s.engine.settled sha s.fs (s.engine.seen io ++ ahead) told = some g₀ ∧
          g₀.blocks sha taken = some g := by
  have on : t'.pc ≠ .exited := by
    intro hpc
    rw [hpc] at inside
    cases inside
  have hbatch := inBatch_of_handling handling.handling
  unfold Receiver.writerStep at h
  split at h
  case h_3 rest run dones now hpc =>
    have hseen : s.engine.seen io = [] := by rw [Receiver.seen, hpc]
    have hok := handling.writes io rfl (by rw [hpc]; rfl)
    have hpending : s.engine.pc.pending = rest := by rw [hpc]; rfl
    rw [hseen, hpending]
    obtain ⟨rfl, taken, htaken, settles⟩ := Receiver.settled_batchStep hpc handling.handling hok marks sized
      (Option.some.inj h) on
    rw [List.filterMap_nil, List.append_nil]
    exact ⟨taken, htaken, fun ahead => settles ahead told⟩
  case h_4 i now k hpc =>
    obtain ⟨⟨u, sent⟩, hsent, h⟩ := Option.map_eq_some_iff.mp h
    cases h
    have hseen : s.engine.seen io = [] := by rw [Receiver.seen, hpc]
    refine settled_same (by rw [hpc]; rfl) fun ahead => ?_
    have hcores : u.cores = s.engine.cores := (Receiver.book_sendSack hsent).1.cores
    rw [Receiver.good_sendSack hsent, hseen, List.append_nil, List.nil_append, Receiver.settled,
      Receiver.settled, hpc, ← Receiver.parts_of_cores hcores]
    rfl
  case h_5 i k hpc =>
    have hverify := Option.some.inj h
    have hpending := (Receiver.pending_verify hverify).2
    refine settled_same (by rw [hpending, hpc]; rfl) fun ahead => ?_
    obtain ⟨hout, hsettled⟩ := Receiver.settled_verify hpc hverify good
    rw [hout, List.append_nil, hsettled, Receiver.settled, hpc]
  case h_6 i k hpc =>
    have hrename := Option.some.inj h
    have hpending := (Receiver.pending_renameFile hrename).2
    refine settled_same (by rw [hpending, hpc]; rfl) fun ahead => ?_
    rw [Receiver.settled_renameFile hpc hrename, Receiver.settled, hpc]
  all_goals
    rename_i hpc
    rw [hpc] at hbatch
    cases hbatch

theorem settled_step (marks : Marks l as log s.engine) (sized : ∀ f ∈ s.engine.rx, Sized f)
    (handling : Handling s a) (good : ∀ e ∈ s.events sha a, e.isBad = false)
    (hstep : (s.step sha a).map (·.1) = some s') (inside : s'.engine.pc.inBatch = true) :
    ∃ taken, s.engine.pc.pending = taken ++ s'.engine.pc.pending ∧ ∀ ahead g,
      s'.engine.settled sha s'.fs ahead (told ++ (s.events sha a).filterMap RxEvent.good) = some g →
        ∃ g₀, s.engine.settled sha s.fs (s.seen a ++ ahead) told = some g₀ ∧
          g₀.blocks sha taken = some g := by
  obtain ⟨⟨u, out⟩, hact, rfl⟩ := Option.map_eq_some_iff.mp hstep
  have hevents : s.events sha a = out := by
    rw [RxState.events, hact]
    rfl
  rw [hevents] at good ⊢
  cases a with
  | writer io =>
    obtain ⟨⟨t', fs', told⟩, hwriter, heq⟩ := Option.map_eq_some_iff.mp hact
    cases heq
    exact settled_writerStep marks sized handling good hwriter inside
  | close =>
    -- `Stop` waits for the writer thread.
    rw [RxState.step] at hact
    split at hact
    · rename_i hexited
      rw [Bool.and_eq_true, beq_iff_eq] at hexited
      have hbatch := inBatch_of_handling handling.handling
      rw [hexited.2] at hbatch
      cases hbatch
    · cases hact
  | block wire =>
    cases hact
    have hcores : (s.engine.onBlock wire).cores = s.engine.cores :=
      congrArg (List.map FileRx.core) (Receiver.rx_onBlock s.engine wire)
    have hpc := (Receiver.called_onBlock s.engine wire).1.pc
    refine settled_same (congrArg WriterPc.pending hpc.symm) fun ahead => ?_
    rw [List.filterMap_nil, List.append_nil]
    exact Receiver.settled_of_cores hcores hpc
  | fileDone index hash =>
    cases hact
    exact settled_same rfl fun ahead => by rw [List.filterMap_nil, List.append_nil]; rfl
  | stop =>
    cases hact
    exact settled_same rfl fun ahead => by rw [List.filterMap_nil, List.append_nil]; rfl

end CrossTransfer.Transfer
