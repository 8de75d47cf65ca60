import CrossTransfer.Library.CheckedList
import CrossTransfer.Transfer.CollectedRun

/-! # Nothing is marked before it is written

A block is marked in the bitmap of a file for one of three reasons (`Marks`): a datagram with it came
in and its payload has been written to its place in the part file since that was opened; the resume
record lists it and there was a part file when `Start` came to the file; or `Start` has adopted the
whole file. An adopted file is verified, so what `HaveRuns` and `Snapshot` list is marked for one of
the first two reasons.
-/

namespace CrossTransfer.Transfer

open CrossTransfer.Library
open RunPacking (Covered)
open CheckedList (mem_of_mapM)
open BlockBitmap (scanFuel)

/-! ## Why a block is marked -/

def DiskEvent.startsOver (i : Nat) : DiskEvent → Prop
  | .opened j _ => j = i
  | .reset j => j = i
  | .wrote _ _ _ _ => False

/-- `inode` is the part file of file `i`, and `since` is what has happened after it was opened. -/
def OpenSince (log : List DiskEvent) (i inode : Nat) (since : List DiskEvent) : Prop :=
  ∃ before, log = before ++ .opened i inode :: since ∧ ∀ e ∈ since, ¬e.startsOver i

/-- A datagram with block `b` came in, and its payload has been written to the part file of file `i`
    where the block belongs. -/
inductive BlockWritten (as : List ReceiverAct) (log : List DiskEvent) (i : Nat) (f : FileRx) (b : Nat) :
    Prop where
  | intro {p : Pending} {inode offset : Nat} {data : Bytes} {since : List DiskEvent}
      (received : Received as p) (file : p.file.toNat = i) (block : p.block.toNat = b)
      (length : p.payload.length = (blockLenFor f.size p.block).toNat)
      (part : OpenSince log i inode since) (wrote : DiskEvent.wrote i inode offset data ∈ since)
      (inside : offset ≤ b * kBlockPayloadSize)
      (bytes : (data.drop (b * kBlockPayloadSize - offset)).take p.payload.length = p.payload)

namespace Launch

variable (l : Launch)

/-- The disk when `Start` comes to file `i`. -/
def diskAt (i : Nat) : Fs :=
  Receiver.startedDisk l.io l.manifest l.saveDir l.names l.resume l.fs i

/-- File `i` before anything is known of it. -/
def freshFile (i : Nat) (mf : ManifestFile) : FileRx := Receiver.freshFile l.saveDir l.names i mf

/-- The record of file `i` lists the block, and there was a part file. -/
def Listed (i b : Nat) : Prop :=
  ∃ mf state, l.manifest.files[i]? = some mf ∧
    Receiver.resumeEntry l.resume (l.freshFile i mf).index = some state ∧
    Covered (state.runs.map SackRun.span) b ∧ (l.diskAt i).isRegular (l.freshFile i mf).partPath = true

/-- The record of file `i` says that it was verified, and a regular file was in its place. -/
def Adopted (i : Nat) : Prop :=
  ∃ mf, l.manifest.files[i]? = some mf ∧ Receiver.Adopted l.resume (l.diskAt i) (l.freshFile i mf)

/-- The block has been written, or it is left from a transfer before. -/
def Marked (as : List ReceiverAct) (log : List DiskEvent) (i : Nat) (f : FileRx) (b : Nat) : Prop :=
  BlockWritten as log i f b ∨ (DiskEvent.reset i ∉ log ∧ l.Listed i b)

end Launch

variable {l : Launch} {as bs : List ReceiverAct} {log events since : List DiskEvent} {i inode b : Nat}
  {f g : FileRx}

theorem OpenSince.append (h : OpenSince log i inode since) (quiet : ∀ e ∈ events, ¬e.startsOver i) :
    OpenSince (log ++ events) i inode (since ++ events) := by
  obtain ⟨before, rfl, hsince⟩ := h
  refine ⟨before, by simp, fun e he => ?_⟩
  obtain he | he := List.mem_append.mp he
  · exact hsince e he
  · exact quiet e he

theorem BlockWritten.append (h : BlockWritten as log i f b) (more : ∀ a ∈ as, a ∈ bs)
    (quiet : ∀ e ∈ events, ¬e.startsOver i) : BlockWritten bs (log ++ events) i f b := by
  obtain ⟨received, file, block, length, part, wrote, inside, bytes⟩ := h
  exact ⟨received.mono more, file, block, length, part.append quiet, List.mem_append_left _ wrote,
    inside, bytes⟩

theorem Launch.Marked.append (h : l.Marked as log i f b) (more : ∀ a ∈ as, a ∈ bs)
    (quiet : ∀ e ∈ events, ¬e.startsOver i) : l.Marked bs (log ++ events) i f b := by
  refine h.imp (·.append more quiet) fun ⟨hreset, listed⟩ => ⟨fun hmem => ?_, listed⟩
  obtain hmem | hmem := List.mem_append.mp hmem
  · exact hreset hmem
  · exact quiet _ hmem rfl

theorem Launch.Marked.of_size (h : l.Marked as log i f b) (hsize : g.size = f.size) :
    l.Marked as log i g b :=
  h.imp_left fun ⟨received, file, block, length, part, wrote, inside, bytes⟩ =>
    ⟨received, file, block, hsize ▸ length, part, wrote, inside, bytes⟩

/-! ## The invariant -/

/-- What is known of a file and its marks. -/
structure FileMarks (l : Launch) (as : List ReceiverAct) (log : List DiskEvent) (i : Nat)
    (f : FileRx) : Prop where
  part : ∀ inode, f.writer = some (some inode) → ∃ since, OpenSince log i inode since
  bits : ∀ b, f.bitmap.test b = true → l.Marked as log i f b ∨ f.verified = true ∧ l.Adopted i

/-- The marks of a receiver, the blocks that wait and the run that is being collected. -/
structure Marks (l : Launch) (as : List ReceiverAct) (log : List DiskEvent) (t : Receiver) : Prop where
  arrived : ∀ p ∈ t.arrived, Received as p
  run : ∀ run, t.pc.run = some run → ∃ f ps, t.rx[run.file.toNat]? = some f ∧ Collected f run ps ∧
    ∀ p ∈ ps, Received as p
  file : ∀ (i : Nat) (f : FileRx), t.rx[i]? = some f → FileMarks l as log i f

theorem FileMarks.append (h : FileMarks l as log i f) (more : ∀ a ∈ as, a ∈ bs)
    (quiet : ∀ e ∈ events, ¬e.startsOver i) : FileMarks l bs (log ++ events) i f := by
  refine ⟨fun inode hwriter => ?_, fun b hb => (h.bits b hb).imp_left (·.append more quiet)⟩
  obtain ⟨since, hopen⟩ := h.part inode hwriter
  exact ⟨_, hopen.append quiet⟩

theorem FileMarks.of_core (h : FileMarks l as log i f) (hcore : g.core = f.core) :
    FileMarks l as log i g := by
  have hwriter := congrArg FileRx.writer hcore
  have hverified := congrArg FileRx.verified hcore
  have hsize := congrArg FileRx.size hcore
  have htest := fun b => congrArg (fun x : FileRx => x.bitmap.test b) hcore
  refine ⟨fun inode hg => h.part inode (Eq.trans hwriter.symm hg), fun b hb => ?_⟩
  exact (h.bits b (Eq.trans (htest b).symm hb)).imp (·.of_size hsize)
    fun ⟨hv, adopted⟩ => ⟨Eq.trans hverified hv, adopted⟩

namespace Receiver

variable {t t' : Receiver} {fs fs' : Fs} {sha : Bytes → Bytes} {io : Io} {out : List RxEvent}

theorem setBlocks_test (blocks : List UInt32) (bitmap : BlockBitmap) {k : Nat}
    (h : (setBlocks bitmap blocks).test k = true) :
    bitmap.test k = true ∨ ∃ i ∈ blocks, i.toNat = k := by
  induction blocks generalizing bitmap with
  | nil => exact .inl h
  | cons i rest ih =>
    obtain hk | ⟨j, hj, hjk⟩ := ih _ h
    · rw [BlockBitmap.set_test, Bool.or_eq_true, decide_eq_true_eq] at hk
      exact hk.imp_right fun hik => ⟨i, List.mem_cons_self, hik.1⟩
    · exact .inr ⟨j, List.mem_cons_of_mem _ hj, hjk⟩

/-- The blocks of a run that is flushed. -/
theorem flushed_of_marks (h : Marks l as log t) {run : BlockRun} (flushes : Flushes t run) :
    ∃ f ps, t.rx[run.file.toNat]? = some f ∧ Collected f run ps ∧ ∀ p ∈ ps, Received as p := by
  cases flushes with
  | collected hrun => exact h.run run hrun
  | @long f p joins =>
    have received := h.arrived p (List.mem_append_right _ joins.pending)
    cases hrun : t.pc.run with
    | none =>
      exact ⟨f, [p], joins.file, collected_single joins.fresh received.length, by simpa using received⟩
    | some r =>
      obtain ⟨g, ps, hg, collected, hreceived⟩ := h.run r hrun
      have contiguous := joins.contiguous r hrun
      have hfile : r.file = p.file := by
        simp only [Receiver.contiguous, Bool.and_eq_true, beq_iff_eq] at contiguous
        exact contiguous.1.1
      obtain rfl : g = f := Option.some.inj (hg.symm.trans (hfile ▸ joins.file))
      refine ⟨g, ps ++ [p], hg, collected.extend joins.fresh received.length contiguous, fun q hq => ?_⟩
      obtain hq | hq := List.mem_append.mp hq
      · exact hreceived q hq
      · exact List.mem_singleton.mp hq ▸ received

/-- A file that a step leaves alone, up to bookkeeping. -/
theorem fileMarks_same (h : Marks l as log t) (quiet : ∀ e ∈ events, ¬e.startsOver i)
    (hg : ∃ f, t.rx[i]? = some f ∧ g.core = f.core) : FileMarks l as (log ++ events) i g := by
  obtain ⟨f, hf, hcore⟩ := hg
  exact ((h.file i f hf).append (fun _ => id) quiet).of_core hcore

/-- A file whose blocks and part file a step leaves alone. -/
theorem fileMarks_kept (h : FileMarks l as log i f) {writer : Option (Option Nat)} {verifying verified : Bool}
    {hash : Bytes} (hwriter : writer = f.writer ∨ writer = none)
    (hverified : f.verified = true → verified = true) :
    FileMarks l as log i { f with
      writer := writer, verifying := verifying, verified := verified, expectedSha256 := hash } := by
  refine ⟨fun inode hinode => ?_, fun b hb => (h.bits b hb).imp (·.of_size rfl) ?_⟩
  · obtain rfl | rfl := hwriter
    · exact h.part inode hinode
    · cases hinode
  · exact fun ⟨hv, adopted⟩ => ⟨hverified hv, adopted⟩

/-- The marks after a run has been written. -/
theorem fileMarks_write (h : Marks l as log t) {run : BlockRun} (flushes : Flushes t run)
    (hf : t.rx[run.file.toNat]? = some f) (writer : f.writer = some (some inode)) :
    FileMarks l as (log ++ [.wrote run.file.toNat inode (run.first.toNat * kBlockPayloadSize) run.data])
      run.file.toNat (markRun f run) := by
  obtain ⟨g, ps, hg, collected, received⟩ := flushed_of_marks h flushes
  obtain rfl : g = f := Option.some.inj (hg.symm.trans hf)
  have before := h.file _ g hf
  have quiet : ∀ e ∈ [DiskEvent.wrote run.file.toNat inode (run.first.toNat * kBlockPayloadSize) run.data],
      ¬e.startsOver run.file.toNat := by simp [DiskEvent.startsOver]
  have after := before.append (fun _ => id) quiet
  refine ⟨after.part, fun b hb => ?_⟩
  obtain hold | ⟨block, hblock, rfl⟩ := setBlocks_test run.blocks g.bitmap hb
  · exact (after.bits b hold).imp_left (·.of_size rfl)
  · -- The block is one of the run: its payload lies in what has been written.
    obtain ⟨p, hp, rfl⟩ := collected.mem_blocks hblock
    obtain ⟨since, hopen⟩ := before.part inode writer
    obtain ⟨inside, bytes⟩ := collected.slice hp
    refine .inl (.inl ⟨received p hp, congrArg UInt16.toNat (collected.file p hp), rfl, ?_,
      hopen.append quiet, List.mem_append_right _ (List.mem_singleton_self _), inside, bytes⟩)
    rw [(collected.length p hp).1, (collected.fresh p hp).len]
    rfl

/-- The marks after a file has started over. -/
theorem fileMarks_reset (hf : t'.rx[i]? = some g) (hcore : g.core = (resetFile f writer).core) :
    FileMarks l as (log ++ .reset i :: t'.opened i) i g := by
  have htest := fun b => congrArg (fun x : FileRx => x.bitmap.test b) hcore
  refine ⟨fun inode hinode => ⟨[], ?_⟩, fun b hb => ?_⟩
  · have hopened : t'.opened i = [.opened i inode] := by
      rw [opened, hf, Option.bind_some, hinode]
    rw [hopened]
    exact ⟨log ++ [.reset i], by simp, by simp⟩
  · have hnone : (BlockBitmap.reset f.blocks).test b = true := Eq.trans (htest b).symm hb
    rw [BlockBitmap.reset_test] at hnone
    cases hnone

theorem startsOver_opened {j : Nat} {e : DiskEvent} (he : e ∈ t.opened i) : e.startsOver j → i = j := by
  unfold opened at he
  split at he
  · rw [List.mem_singleton.mp he]
    exact id
  · cases he

/-- A run that is being collected goes on to stand for its blocks. -/
theorem marks_run (h : Marks l as log t) (effect : BlockEffect io t fs t' fs' events) :
    ∀ run, t'.pc.run = some run → ∃ f ps, t'.rx[run.file.toNat]? = some f ∧ Collected f run ps ∧
      ∀ p ∈ ps, Received as p := by
  have none : t'.pc.run = none → ∀ run, t'.pc.run = some run → ∃ f ps,
      t'.rx[run.file.toNat]? = some f ∧ Collected f run ps ∧ ∀ p ∈ ps, Received as p := by
    intro hnone run hrun
    rw [hnone] at hrun
    cases hrun
  -- The file is the same up to bookkeeping.
  have same : t'.cores = t.cores → ∀ {run f ps}, t.rx[run.file.toNat]? = some f → Collected f run ps →
      (∀ p ∈ ps, Received as p) → ∃ f ps, t'.rx[run.file.toNat]? = some f ∧ Collected f run ps ∧
        ∀ p ∈ ps, Received as p := by
    intro hcores run f ps hf collected received
    obtain ⟨g, hg, hcore⟩ := file_of_cores hcores.symm hf
    exact ⟨g, ps, hg, collected.of_core hcore.symm, received⟩
  cases effect with
  | quiet rx run =>
    obtain hnone | hsame := run
    · exact none hnone
    · intro run hrun
      rw [hsame] at hrun
      obtain ⟨f, ps, hf, collected, received⟩ := h.run run hrun
      exact same rx hf collected received
  | take joins rx run =>
    intro r hr
    obtain rfl := Option.some.inj (run.symm.trans hr)
    obtain ⟨f, ps, hf, collected, received⟩ := flushed_of_marks h (.long joins)
    exact same rx hf collected received
  | write _ _ _ _ hnone => exact none hnone
  | writeFail _ _ _ _ _ pc => exact none (by rw [pc]; rfl)
  | closed _ _ _ _ pc => exact none (by rw [pc]; rfl)
  | expect _ _ hnone => exact none hnone
  | hash _ _ _ _ hnone => exact none hnone
  | reset _ _ _ _ _ hnone => exact none hnone
  | accept _ _ _ _ hnone => exact none hnone

/-- Every step keeps the marks. -/
theorem marks_step (h : Marks l as log t) (effect : BlockEffect io t fs t' fs' events)
    (arrived : ∀ p ∈ t'.arrived, p ∈ t.arrived) : Marks l as (log ++ events) t' := by
  refine ⟨fun p hp => h.arrived p (arrived p hp), marks_run h effect, fun j g hg => ?_⟩
  cases effect with
  | quiet rx _ => exact fileMarks_same h (by simp) (file_of_cores rx hg)
  | take _ rx _ => exact fileMarks_same h (by simp) (file_of_cores rx hg)
  | @write run f inode flushes hf writer rx _ =>
    obtain ⟨rfl, hcore⟩ | ⟨-, same⟩ := file_of_cores_set hf rx hg
    · exact (fileMarks_write h flushes hf writer).of_core hcore
    · exact fileMarks_same h (by simp [DiskEvent.startsOver]) same
  | writeFail _ _ _ _ rx _ =>
    exact fileMarks_same h (by simp [DiskEvent.startsOver]) (file_of_cores rx hg)
  | closed _ _ _ rx _ => exact fileMarks_same h (by simp) (file_of_cores rx hg)
  | expect hf rx _ =>
    rw [List.append_nil]
    obtain ⟨rfl, hcore⟩ | ⟨-, f, hf', hcore⟩ := file_of_cores_set hf rx hg
    · exact (fileMarks_kept (h.file _ _ hf) (.inl rfl) id).of_core hcore
    · exact (h.file _ _ hf').of_core hcore
  | hash hf due hashed rx _ =>
    rw [List.append_nil]
    obtain ⟨rfl, hcore⟩ | ⟨-, f, hf', hcore⟩ := file_of_cores_set hf rx hg
    · exact (fileMarks_kept (h.file _ _ hf) (.inr rfl) id).of_core hcore
    · exact (h.file _ _ hf').of_core hcore
  | reset hf due hashed reopens rx _ =>
    obtain ⟨rfl, hcore⟩ | ⟨hne, same⟩ := file_of_cores_set hf rx hg
    · exact fileMarks_reset hg hcore
    · refine fileMarks_same h (fun e he hover => ?_) same
      obtain rfl | he := List.mem_cons.mp he
      · exact hne hover.symm
      · exact hne (startsOver_opened he hover).symm
  | accept hf atRename renamed rx _ =>
    rw [List.append_nil]
    obtain ⟨rfl, hcore⟩ | ⟨-, f, hf', hcore⟩ := file_of_cores_set hf rx hg
    · exact (fileMarks_kept (h.file _ _ hf) (.inl rfl) fun _ => rfl).of_core hcore
    · exact (h.file _ _ hf').of_core hcore

/-- A call of another thread keeps the marks. -/
theorem marks_called (h : Marks l as log t) (called : Called t t') (more : ∀ a ∈ as, a ∈ bs)
    (arrived : ∀ p ∈ t'.arrived, Received bs p) : Marks l bs log t' := by
  refine ⟨arrived, fun run hrun => ?_, fun i g hg => ?_⟩
  · rw [called.pc] at hrun
    obtain ⟨f, ps, hf, collected, received⟩ := h.run run hrun
    have received := fun p hp => (received p hp).mono more
    obtain heq | heq := called.rx
    · exact ⟨f, ps, heq ▸ hf, collected, received⟩
    · refine ⟨{ f with writer := none }, ps, by rw [heq, List.getElem?_map, hf]; rfl,
        { collected with fresh := fun p hp => ?_ }, received⟩
      have fresh := collected.fresh p hp
      exact ⟨fresh.verified, fresh.inside, fresh.len, fresh.missing⟩
  · have quiet : ∀ e ∈ ([] : List DiskEvent), ¬e.startsOver i := by simp
    obtain heq | heq := called.rx
    · rw [heq] at hg
      simpa using (h.file i g hg).append more quiet
    · rw [heq, List.getElem?_map] at hg
      obtain ⟨f, hf, rfl⟩ := Option.map_eq_some_iff.mp hg
      simpa using fileMarks_kept ((h.file i f hf).append more quiet) (.inr rfl) id

theorem arrived_onBlock {wire : Bytes} (h : ∀ p ∈ t.arrived, Received as p) :
    ∀ p ∈ (t.onBlock wire).arrived, Received (as ++ [.block wire]) p := by
  have old : ∀ p ∈ t.arrived, Received (as ++ [.block wire]) p :=
    fun p hp => (h p hp).mono fun a ha => List.mem_append_left _ ha
  unfold onBlock
  split
  · exact old
  · rename_i header payload hdecode
    split
    · exact old
    · split
      · exact old
      · intro p hp
        obtain hp | hp := List.mem_append.mp hp
        · obtain hp | hp := List.mem_append.mp hp
          · exact old p (List.mem_append_left _ hp)
          · rw [List.mem_singleton.mp hp]
            exact ⟨wire, header, payload, List.mem_append_right _ (List.mem_singleton_self _),
              hdecode, rfl⟩
        · exact old p (List.mem_append_right _ hp)

end Receiver

/-! ## Runs -/

section Runs

variable {sha : Bytes → Bytes} {s s' : RxState} {a : ReceiverAct} {ok : RxState → ReceiverAct → Prop}

theorem diskLog_snoc (run : (l.state.machine sha).Run ok as s) (a : ReceiverAct) :
    l.diskLog sha (as ++ [a]) = l.diskLog sha as ++ s.diskEvents sha a := by
  have hexec : (l.state.machine sha).exec as l.state = some s := run.exec_eq
  rw [Launch.diskLog, Launch.diskLog, Machine.collect_snoc hexec, List.append_assoc]

/-- A step of the writer thread, or a call that adds to the queue at most. -/
theorem marks_act (h : Marks l as log s.engine) {out : List RxEvent}
    (hstep : s.step sha a = some (s', out)) :
    Marks l (as ++ [a]) (log ++ s.diskEvents sha a) s'.engine := by
  have more : ∀ b ∈ as, b ∈ as ++ [a] := fun b hb => List.mem_append_left _ hb
  have grown : ∀ p ∈ s.engine.arrived, Received (as ++ [a]) p := fun p hp => (h.arrived p hp).mono more
  cases a with
  | writer io =>
    obtain ⟨⟨t', fs', told⟩, hwriter, heq⟩ := Option.map_eq_some_iff.mp hstep
    cases heq
    have effect := Receiver.writerStep_blocks hwriter
    have marks := Receiver.marks_step h effect (Receiver.writerStep_arrived hwriter)
    have hevents : s.diskEvents sha (.writer io) = s.engine.diskEvents io t' told := by
      rw [RxState.diskEvents, hwriter]
      rfl
    rw [hevents]
    simpa using Receiver.marks_called marks (Receiver.called_refl t')
      more fun p hp => (marks.arrived p hp).mono more
  | block wire =>
    cases hstep
    rw [show s.diskEvents sha (.block wire) = [] from rfl, List.append_nil]
    exact Receiver.marks_called h (Receiver.called_onBlock _ wire).1 more
      (Receiver.arrived_onBlock h.arrived)
  | fileDone index hash =>
    cases hstep
    rw [show s.diskEvents sha (.fileDone index hash) = [] from rfl, List.append_nil]
    exact Receiver.marks_called h (Receiver.called_onFileDone _ index hash) more grown
  | stop =>
    cases hstep
    rw [show s.diskEvents sha .stop = [] from rfl, List.append_nil]
    exact Receiver.marks_called h (Receiver.called_requestStop _) more grown
  | close =>
    rw [RxState.step] at hstep
    split at hstep
    · cases hstep
      rw [show s.diskEvents sha .close = [] from rfl, List.append_nil]
      exact Receiver.marks_called h (Receiver.called_closeWriters _) more grown
    · cases hstep

/-- What `Start` opens, file by file. -/
theorem openSince_start (t : Receiver) (hf : t.rx[i]? = some f) (writer : f.writer = some (some inode)) :
    ∃ since, OpenSince ((List.range t.rx.length).flatMap t.opened) i inode since := by
  have hlt := (List.getElem?_eq_some_iff.mp hf).1
  obtain ⟨n, hn⟩ : ∃ n, t.rx.length = i + (1 + n) := ⟨t.rx.length - i - 1, by omega⟩
  have hopened : t.opened i = [.opened i inode] := by
    rw [Receiver.opened, hf, Option.bind_some, writer]
  refine ⟨((List.range n).map (i + 1 + ·)).flatMap t.opened, (List.range i).flatMap t.opened, ?_, ?_⟩
  · rw [hn, ← Nat.add_assoc, List.range_add, List.range_succ, List.flatMap_append, List.flatMap_append,
      List.flatMap_singleton, hopened, List.append_assoc]
    rfl
  · intro e he hover
    obtain ⟨j, hj, he⟩ := List.mem_flatMap.mp he
    obtain ⟨k, -, rfl⟩ := List.mem_map.mp hj
    have := Receiver.startsOver_opened he hover
    omega

/-- What `Start` marks. -/
theorem marks_start (l : Launch) (sha : Bytes → Bytes) : Marks l [] (l.diskLog sha []) l.state.engine := by
  have hstart : Receiver.start l.io l.manifest l.saveDir l.names l.resume l.fs =
    (l.state.fs, l.state.engine, l.start.2.2) := rfl
  obtain ⟨hqueue, -, hpc⟩ := Receiver.idle_of_start hstart
  have hpending : l.state.engine.pc.pending = [] ∧ l.state.engine.pc.run = none := by
    obtain hpc | hpc := hpc
    · rw [hpc]
      exact ⟨rfl, rfl⟩
    · rw [hpc]
      exact ⟨rfl, rfl⟩
  have hlog : l.diskLog sha [] = (List.range l.state.engine.rx.length).flatMap l.state.engine.opened :=
    List.append_nil _
  rw [hlog]
  refine ⟨fun p hp => ?_, fun run hrun => ?_, fun i f hf => ⟨fun inode => openSince_start _ hf, fun b hb => ?_⟩⟩
  · rw [Receiver.arrived, hqueue, hpending.1] at hp
    cases hp
  · rw [hpending.2] at hrun
    cases hrun
  · obtain ⟨mf, mid, bytes, hmf, hfile⟩ := Receiver.files_of_start hstart hf
    have hnever : DiskEvent.reset i ∉ (List.range l.state.engine.rx.length).flatMap l.state.engine.opened := by
      intro hmem
      obtain ⟨j, -, hmem⟩ := List.mem_flatMap.mp hmem
      unfold Receiver.opened at hmem
      split at hmem
      · cases List.mem_singleton.mp hmem
      · cases hmem
    obtain hfresh | adopted | ⟨entry, covered, part⟩ := Receiver.restored_of_startFile hfile hb
    · have hnone : (BlockBitmap.reset (blockCountFor mf.size)).test b = true := hfresh
      rw [BlockBitmap.reset_test] at hnone
      cases hnone
    · exact .inr ⟨Receiver.verified_of_adopted hfile adopted, mf, hmf, adopted⟩
    · exact .inl (.inr ⟨hnever, mf, _, hmf, entry, covered, part⟩)

/-- Every run keeps the marks. -/
theorem marks_of_run (run : (l.state.machine sha).Run ok as s) :
    Marks l as (l.diskLog sha as) s.engine := by
  induction run with
  | init => exact marks_start l sha
  | step hrun _ hstep ih =>
    rw [diskLog_snoc hrun]
    obtain ⟨⟨s', out⟩, hact, rfl⟩ := Option.map_eq_some_iff.mp hstep
    exact marks_act ih hact

end Runs

/-! ## What the engine says of its marks -/

section Lists

variable {t u : Receiver}

theorem size_lt_scanFuel (bitmap : BlockBitmap) : bitmap.size < scanFuel := by
  have := bitmap.size_lt
  norm_num [scanFuel]
  omega

/-- The blocks that the persistent state of a file lists are marked, and the file is not verified. -/
theorem test_of_fileState {state : ReceiverFileState} (h : Receiver.fileState f = some state)
    (hb : Covered (state.runs.map SackRun.span) b) :
    state.index = f.index ∧ f.verified = false ∧ f.bitmap.test b = true := by
  unfold Receiver.fileState at h
  split at h
  · cases h
    simp at hb
  · rename_i hverified
    obtain ⟨runs, hruns, rfl⟩ := Option.map_eq_some_iff.mp h
    exact ⟨rfl, by simpa using hverified, BlockBitmap.haveRuns_sound (size_lt_scanFuel _) hruns hb⟩

theorem test_of_snapshot {states : List ReceiverFileState} {state : ReceiverFileState}
    (h : t.snapshot = some states) (hstate : state ∈ states)
    (hb : Covered (state.runs.map SackRun.span) b) : ∃ (i : Nat) (f : FileRx), t.rx[i]? = some f ∧
      f.index = state.index ∧ f.verified = false ∧ f.bitmap.test b = true := by
  obtain ⟨f, hf, hfile⟩ := mem_of_mapM h hstate
  obtain ⟨i, hi⟩ := List.mem_iff_getElem?.mp hf
  obtain ⟨hindex, rest⟩ := test_of_fileState hfile hb
  exact ⟨i, f, hi, hindex.symm, rest⟩

theorem test_of_haveRuns {listed : List (UInt16 × List SackRun)} {e : UInt16 × List SackRun}
    (h : t.haveRuns = some listed) (he : e ∈ listed) (hb : Covered (e.2.map SackRun.span) b) :
    ∃ (i : Nat) (f : FileRx), t.rx[i]? = some f ∧ f.index = e.1 ∧ f.verified = false ∧
      f.bitmap.test b = true := by
  obtain ⟨f, hf, hfile⟩ := mem_of_mapM h he
  obtain ⟨hmem, hlisted⟩ := List.mem_filter.mp hf
  obtain ⟨i, hi⟩ := List.mem_iff_getElem?.mp hmem
  obtain ⟨runs, hruns, rfl⟩ := Option.map_eq_some_iff.mp hfile
  rw [Bool.and_eq_true, Bool.not_eq_true'] at hlisted
  exact ⟨i, f, hi, rfl, hlisted.1, BlockBitmap.haveRuns_sound (size_lt_scanFuel _) hruns hb⟩

end Lists

/-- Nothing is marked before it is written: not in the bitmaps, not in what `HaveRuns` gives for an
    accept, not in the snapshots for the owner. -/
theorem marked_written (l : Launch) (sha : Bytes → Bytes) (as : List ReceiverAct) (s : RxState)
    (run : (l.state.machine sha).Run Machine.anyStep as s) :
    (∀ (i : Nat) (f : FileRx) (b : Nat), s.engine.rx[i]? = some f → f.bitmap.test b = true →
      l.Marked as (l.diskLog sha as) i f b ∨ f.verified = true ∧ l.Adopted i) ∧
    (∀ listed, s.engine.haveRuns = some listed → ∀ e ∈ listed, ∀ b,
      Covered (e.2.map SackRun.span) b → ∃ (i : Nat) (f : FileRx), s.engine.rx[i]? = some f ∧
        f.index = e.1 ∧ l.Marked as (l.diskLog sha as) i f b) ∧
    ∀ a s' out states, s.step sha a = some (s', out) → RxEvent.persist states ∈ out →
      ∀ state ∈ states, ∀ b, Covered (state.runs.map SackRun.span) b →
        ∃ (i : Nat) (f : FileRx), s.engine.rx[i]? = some f ∧ f.index = state.index ∧
          l.Marked as (l.diskLog sha as) i f b := by
  have marks := marks_of_run run
  -- A file that is not verified has not been adopted.
  have unverified : ∀ {i : Nat} {f : FileRx} {b : Nat}, s.engine.rx[i]? = some f →
      f.verified = false → f.bitmap.test b = true → l.Marked as (l.diskLog sha as) i f b := by
    intro i f b hf hverified hb
    refine ((marks.file i f hf).bits b hb).resolve_right fun ⟨hv, _⟩ => ?_
    rw [hverified] at hv
    cases hv
  refine ⟨fun i f b hf hb => (marks.file i f hf).bits b hb, fun listed hlisted e he b hb => ?_,
    fun a s' out states hstep htold state hstate b hb => ?_⟩
  · obtain ⟨i, f, hf, hindex, hverified, htest⟩ := test_of_haveRuns hlisted he hb
    exact ⟨i, f, hf, hindex, unverified hf hverified htest⟩
  · cases a with
    | writer io =>
      obtain ⟨⟨t', fs', told⟩, hwriter, heq⟩ := Option.map_eq_some_iff.mp hstep
      cases heq
      have effect := Receiver.writerStep_effect hwriter
      obtain ⟨⟩ | @⟨u, _, same, snapshot⟩ := effect.report htold (by simp) (by simp) (by simp)
      obtain ⟨i, g, hg, hindex, hverified, htest⟩ := test_of_snapshot snapshot hstate hb
      obtain ⟨f, hf, hcore⟩ := Receiver.file_of_cores same hg
      have hfIndex := congrArg FileRx.index hcore
      have hfVerified := congrArg FileRx.verified hcore
      have hfTest := congrArg (fun x : FileRx => x.bitmap.test b) hcore
      exact ⟨i, f, hf, Eq.trans hfIndex.symm hindex,
        unverified hf (Eq.trans hfVerified.symm hverified) (Eq.trans hfTest.symm htest)⟩
    | close =>
      rw [RxState.step] at hstep
      split at hstep
      · cases hstep
        cases htold
      · cases hstep
    | _ =>
      cases hstep
      cases htold

/-- A file of one byte comes to an empty folder. -/
def oneByteLaunch : Launch where
  io := ⟨fun _ => true, fun _ => true, fun _ => true, []⟩
  manifest := ⟨[⟨ascii "a", 1⟩], [], [⟨ascii "a", false⟩], 1⟩
  saveDir := [ascii "save"]
  names := []
  resume := []
  fs := .empty

/-- Every file operation succeeds. -/
def plainIo : Io := ⟨true, true, 0, [], 0⟩

/-- The only block of the file. -/
def oneByteWire : Bytes := (encodeBlock ⟨0, 0, 0, 1⟩ [7]).getD []

/-- The block comes in, is collected and flushed. -/
def oneByteActs : List ReceiverAct :=
  .block oneByteWire :: List.replicate 4 (.writer plainIo)

theorem marked_written_oneByte : ∃ s f, (oneByteLaunch.state.machine id).exec oneByteActs
      oneByteLaunch.state = some s ∧ s.engine.rx[0]? = some f ∧ f.bitmap.test 0 = true ∧
    (oneByteLaunch.Marked oneByteActs (oneByteLaunch.diskLog id oneByteActs) 0 f 0 ∨
      f.verified = true ∧ oneByteLaunch.Adopted 0) := by
  have hfacts : (((oneByteLaunch.state.machine id).exec oneByteActs oneByteLaunch.state).bind
      fun s => (s.engine.rx[0]?).map fun f => f.bitmap.test 0) = some true := by
    decide +kernel
  obtain ⟨s, hexec, hfacts⟩ := Option.bind_eq_some_iff.mp hfacts
  obtain ⟨f, hf, hb⟩ := Option.map_eq_some_iff.mp hfacts
  exact ⟨s, f, hexec, hf, hb,
    (marked_written oneByteLaunch id oneByteActs s (Machine.run_of_exec hexec)).1 0 f 0 hf hb⟩

/-- The record says that the file was verified, and the file is there. -/
def adoptedLaunch : Launch :=
  { oneByteLaunch with
    resume := [⟨0, [], true⟩]
    fs := (FileSystem.empty.makeDirs [ascii "save"]).create [ascii "save", ascii "a"] }

/-- The blocks of an adopted file are marked, and no part file has ever been there. -/
theorem not_marked_written_adopted : ¬ ∀ (l : Launch) (sha : Bytes → Bytes) (as : List ReceiverAct)
    (s : RxState), (l.state.machine sha).Run Machine.anyStep as s → ∀ (i : Nat) (f : FileRx) (b : Nat),
      s.engine.rx[i]? = some f → f.bitmap.test b = true → l.Marked as (l.diskLog sha as) i f b := by
  intro h
  have hfacts : (adoptedLaunch.state.engine.rx[0]?).map (fun f => f.bitmap.test 0) = some true := by
    decide +kernel
  obtain ⟨f, hf, hb⟩ := Option.map_eq_some_iff.mp hfacts
  obtain written | ⟨_, mf, state, _, hentry, hcovered, _⟩ :=
    h adoptedLaunch id [] _ .init 0 f 0 hf hb
  · -- No datagram has come in.
    obtain ⟨received, -, -, -, -, -, -, -⟩ := written
    obtain ⟨wire, header, payload, hmem, -⟩ := received
    cases hmem
  · -- The record lists no run.
    have hstate := List.mem_of_find?_eq_some hentry
    obtain rfl : state = ⟨0, [], true⟩ := by simpa [adoptedLaunch] using hstate
    exact RunPacking.not_covered_nil hcovered

end CrossTransfer.Transfer
