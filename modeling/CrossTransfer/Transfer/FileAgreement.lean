import CrossTransfer.Transfer.AnnouncedHash
import CrossTransfer.Transfer.BlockFrontier
import CrossTransfer.Transfer.FileFlags

/-! # Files agree with their bitmaps

After a round of the writer thread the flags of every file agree with its bitmap, its frontier is past
every block that is new in this engine, and a complete file whose hash has been taken is verified
(`files_agree`), provided that part files can be read and no empty file is compared with a wrong hash.
-/

namespace CrossTransfer.Transfer

open CrossTransfer.Library

namespace RxState

/-- No stop, and the file operations of a verification succeed. -/
def Works (s : RxState) : ReceiverAct → Prop
  | .writer io => s.engine.FilesWork io s.fs
  | .stop => False
  | _ => True

/-- Part files can be read, and the hashes of empty files are right. -/
def RightHashes (sha : Bytes → Bytes) (s : RxState) : ReceiverAct → Prop
  | .writer io => s.engine.HashesRight sha io s.fs
  | _ => True

end RxState

namespace Launch

variable (l : Launch) (sha : Bytes → Bytes) (as : List ReceiverAct)

/-- Block `b` of file `i` has been marked since `Start`, or since the file started over: it is marked in
    `f`, and there was a time when it was not. -/
def NewBlock (i : Nat) (f : FileRx) (b : Nat) : Prop :=
  f.bitmap.test b = true ∧ ∃ u, (l.state.machine sha).Visited as u ∧
    ∃ g, u.engine.rx[i]? = some g ∧ g.bitmap.test b = false

/-- File `i` after a round that ends in `s`. -/
structure FileAgrees (s : RxState) (i : Nat) (f : FileRx) : Prop where
  complete : f.complete = f.bitmap.complete
  verifying : f.verifying = false
  verified : f.verified = true → f.complete = true
  frontier : ∀ b, l.NewBlock sha as i f b → b + 1 ≤ f.frontier.toNat
  /-- A hash that was announced and has been taken has been compared. -/
  announced : f.complete = true → (∀ e ∈ s.engine.pendingDone, e.1.toNat ≠ i) → lastHash as i ≠ [] →
    f.verified = true

end Launch

section Runs

variable {sha : Bytes → Bytes} {l : Launch} {as : List ReceiverAct} {s s' : RxState} {a : ReceiverAct}
  {out : List RxEvent} {ok : RxState → ReceiverAct → Prop}

/-! ## Flags -/

theorem stop_of_start {sio : Receiver.StartIo} {m : Manifest} {saveDir : Path} {names : Names}
    {resume : List ReceiverFileState} {fs fs' : Fs} {t : Receiver} {err : Option Bytes}
    (h : Receiver.start sio m saveDir names resume fs = (fs', t, err)) : t.stop = false := by
  unfold Receiver.start at h
  simp only at h
  split at h
  · cases h
    rfl
  · split at h
    · cases h
      rfl
    · split at h
      · rename_i hfiles
        cases h
        obtain ⟨done, f, rest, mid, rx, bytes, count, -, -, -, rfl⟩ := Receiver.startFiles_error hfiles
        rfl
      · rename_i hfiles
        cases h
        obtain ⟨rx, bytes, done, -, rfl⟩ := Receiver.startFiles_ok hfiles
        rfl

theorem flagged_start (l : Launch) : l.state.engine.stop = false ∧ l.state.engine.Flagged := by
  have hstart : Receiver.start l.io l.manifest l.saveDir l.names l.resume l.fs =
    (l.state.fs, l.state.engine, l.start.2.2) := rfl
  obtain ⟨-, -, hpc⟩ := Receiver.idle_of_start hstart
  have idle : l.state.engine.pc.busy = none := by
    obtain hpc | hpc := hpc <;> rw [hpc] <;> rfl
  refine ⟨stop_of_start hstart, fun i f hf => ?_⟩
  obtain ⟨mf, mid, bytes, -, hfile⟩ := Receiver.files_of_start hstart hf
  exact Receiver.flags_of_startFile idle hfile

/-- Other threads, if they do not stop the engine. -/
theorem stop_of_call (hact : s.step sha a = some (s', out)) (other : ∀ io, a ≠ .writer io) (hno : a ≠ .stop) :
    s'.engine.stop = s.engine.stop := by
  cases a with
  | writer io => exact absurd rfl (other io)
  | block wire =>
    cases hact
    show (s.engine.onBlock wire).stop = s.engine.stop
    unfold Receiver.onBlock
    split
    · rfl
    · split
      · rfl
      · split <;> rfl
  | fileDone index hash =>
    cases hact
    rfl
  | stop => exact absurd rfl hno
  | close =>
    rw [RxState.step] at hact
    split at hact
    · cases hact
      rfl
    · cases hact

theorem flagged_of_run
    (run : (l.state.machine sha).Run (fun s a => s.Works a ∧ s.RightHashes sha a) as s) :
    s.engine.stop = false ∧ s.engine.Flagged := by
  refine run.invariant (fun s => s.engine.stop = false ∧ s.engine.Flagged) (flagged_start l)
    fun s a s' h hok hstep => ?_
  obtain ⟨hstop, flagged⟩ := h
  obtain ⟨⟨s', out⟩, hact, rfl⟩ := Option.map_eq_some_iff.mp hstep
  by_cases writer : ∃ io, a = .writer io
  · obtain ⟨io, rfl⟩ := writer
    obtain ⟨⟨t', fs', told⟩, hwriter, heq⟩ := Option.map_eq_some_iff.mp hact
    cases heq
    exact ⟨(Receiver.writerStep_effect hwriter).frame.stop.trans hstop,
      Receiver.flags_step flagged hstop hok.1 hok.2 hwriter⟩
  · have other : ∀ io, a ≠ .writer io := fun io heq => writer ⟨io, heq⟩
    obtain ⟨called, -⟩ := called_of_step hact other
    have hno : a ≠ .stop := by
      rintro rfl
      exact hok.1
    refine ⟨(stop_of_call hact other hno).trans hstop, fun i g hg => ?_⟩
    obtain ⟨f, writer, hf, rfl⟩ := called.file hg
    have flags := flagged i f hf
    rw [called.pc]
    exact ⟨flags.size, flags.complete, flags.verified, flags.verifying, flags.matched, flags.announced⟩

/-! ## Frontiers -/

/-- Every mark is below the frontier, or as old as the engine. -/
structure Fronted (l : Launch) (sha : Bytes → Bytes) (as : List ReceiverAct) (t : Receiver) : Prop where
  run : ∀ r, t.pc.run = some r → t.Behind r
  marks : ∀ (i : Nat) (f : FileRx) (b : Nat), t.rx[i]? = some f → f.bitmap.test b = true →
    b < f.frontier.toNat ∨ ∀ u, (l.state.machine sha).Visited as u →
      ∃ g, u.engine.rx[i]? = some g ∧ g.bitmap.test b = true

theorem fronted_step (run : (l.state.machine sha).Run Machine.anyStep as s)
    (h : Fronted l sha as s.engine) (hstep : (l.state.machine sha).step s a = some s')
    (ahead : Receiver.AllAhead s.engine s'.engine)
    (behind : ∀ r, s'.engine.pc.run = some r → s'.engine.Behind r) : Fronted l sha (as ++ [a]) s'.engine := by
  refine ⟨behind, fun i g b hg hb => ?_⟩
  obtain ⟨f, hf, hfile⟩ := ahead i g hg
  obtain hnew | ⟨hold, hle⟩ := hfile b hb
  · exact .inl hnew
  · obtain hlt | hall := h.marks i f b hf hold
    · exact .inl (hlt.trans_le (UInt32.le_iff_toNat_le.mp hle))
    · refine .inr fun u hu => ?_
      obtain hu | rfl := hu.snoc run hstep
      · exact hall u hu
      · exact ⟨g, hg, hb⟩

theorem fronted_start (l : Launch) (sha : Bytes → Bytes) : Fronted l sha [] l.state.engine := by
  have hstart : Receiver.start l.io l.manifest l.saveDir l.names l.resume l.fs =
    (l.state.fs, l.state.engine, l.start.2.2) := rfl
  obtain ⟨-, -, hpc⟩ := Receiver.idle_of_start hstart
  refine ⟨Receiver.behind_of_none ?_, fun i f b hf hb => .inr fun u hu => ?_⟩
  · obtain hpc | hpc := hpc <;> rw [hpc] <;> rfl
  · rw [hu.nil]
    exact ⟨f, hf, hb⟩

theorem fronted_of_run (run : (l.state.machine sha).Run Machine.anyStep as s) : Fronted l sha as s.engine := by
  refine run.history (fun as s => Fronted l sha as s.engine) (fronted_start l sha)
    fun as s a s' run h _ hstep => ?_
  obtain ⟨⟨s', out⟩, hact, rfl⟩ := Option.map_eq_some_iff.mp hstep
  by_cases writer : ∃ io, a = .writer io
  · obtain ⟨io, rfl⟩ := writer
    obtain ⟨⟨t', fs', told⟩, hwriter, heq⟩ := Option.map_eq_some_iff.mp hact
    cases heq
    obtain ⟨ahead, behind⟩ := Receiver.writerStep_ahead h.run hwriter
    exact fronted_step run h hstep ahead behind
  · obtain ⟨called, -⟩ := called_of_step hact fun io heq => writer ⟨io, heq⟩
    refine fronted_step run h hstep (fun i g hg => ?_) fun r hr f hf b hb => ?_
    · obtain ⟨f, writer, hf, rfl⟩ := called.file hg
      exact ⟨f, hf, ahead_of_marks rfl⟩
    · obtain ⟨f₀, writer, hf₀, rfl⟩ := called.file hf
      exact h.run r (called.pc ▸ hr) f₀ hf₀ b hb

/-! ## The end of a round -/

/-- Where no empty file is compared with a wrong hash and part files can be read, every file agrees with
    its bitmap at the end of every round. -/
theorem files_agree (l : Launch) (sha : Bytes → Bytes) (as : List ReceiverAct) (s s' : RxState) (io : Io)
    (now : UInt32) (out : List RxEvent)
    (run : (l.state.machine sha).Run (fun s a => s.Works a ∧ s.RightHashes sha a) as s)
    (hpc : s.engine.pc = .tail now) (hstep : s.step sha (.writer io) = some (s', out)) :
    ∀ (i : Nat) (f : FileRx), s'.engine.rx[i]? = some f →
      l.FileAgrees sha (as ++ [.writer io]) s' i f := by
  intro i f hf
  have any : (l.state.machine sha).Run Machine.anyStep as s := run.mono fun _ _ _ => trivial
  obtain ⟨⟨t', fs', told⟩, hwriter, heq⟩ := Option.map_eq_some_iff.mp hstep
  have hnext : (l.state.machine sha).Run Machine.anyStep (as ++ [.writer io]) s' := by
    refine any.step trivial ?_
    show (s.step sha (.writer io)).map (·.1) = some s'
    rw [hstep]
    rfl
  have fronted := fronted_of_run hnext
  cases heq
  -- The last step is bookkeeping.
  have htail : s.engine.tailStep io now = some (t', told) := by
    rw [Receiver.writerStep, hpc] at hwriter
    obtain ⟨⟨u, sent⟩, htail, heq⟩ := Option.map_eq_some_iff.mp hwriter
    cases heq
    exact htail
  have idle : s.engine.pc.busy = none := by rw [hpc]; rfl
  have same := Receiver.tailStep_hashes hpc htail
  have announced := ((announced_of_run any (by simp [hpc])).same same).snoc (a := .writer io) (by simp)
  obtain ⟨v, finished, pc, book, rfl, hend⟩ := Receiver.book_tailStep htail
  obtain ⟨g, hg, hcore⟩ := Receiver.file_of_cores (t := s.engine) book.cores hf
  have flags := ((flagged_of_run run).2 i g hg).of_core hcore
  have hverifying : f.verifying = false := by
    rw [Bool.eq_false_iff]
    intro hv
    have hmatched := flags.verifying hv
    rw [WriterPc.matched_of_busy idle] at hmatched
    cases hmatched
  refine ⟨flags.complete, hverifying, flags.verified, ?_, fun hc hwaiting hlast => ?_⟩
  · rintro b ⟨hb, u, hvisited, g, hg, hmissing⟩
    obtain hlt | hall := fronted.marks i f b hf hb
    · exact hlt
    · obtain ⟨g', hg', hmarked⟩ := hall u hvisited
      rw [Option.some.inj (hg.symm.trans hg'), hmarked] at hmissing
      cases hmissing
  · have hstored := announced.file i f hf
    rw [hashFor_absent hwaiting] at hstored
    have htaken : pc.hashes = [] := by
      obtain rfl | rfl := hend <;> rfl
    rw [htaken, hashFor_nil] at hstored
    obtain hv | hbusy := flags.announced hc (hstored ▸ hlast)
    · exact hv
    · rw [idle] at hbusy
      cases hbusy

end Runs

/-! ## Two runs -/

/-- A file that is hashed can be hashed and is one of those `right` is true of, and a part file takes its
    final name. -/
def RxState.goesWell (right : FileRx → Bool) (s : RxState) : ReceiverAct → Bool
  | .writer io =>
    match s.engine.pc with
    | .verify i _ => (s.engine.rx[i]?).all fun f => (Receiver.hashFile io s.fs f).isSome && right f
    | .rename i _ => (s.engine.rx[i]?).all fun f => (s.fs.rename f.partPath f.finalPath io.ok).isSome
    | _ => true
  | .stop => false
  | _ => true

theorem RxState.works_of_goesWell {right : FileRx → Bool} {s : RxState} {a : ReceiverAct}
    (h : s.goesWell right a = true) : s.Works a := by
  cases a with
  | writer io =>
    refine ⟨fun i k f hpc hf _ _ => ?_, fun i k f hpc hf => ?_⟩
    · simp only [goesWell, hpc, hf, Option.all_some, Bool.and_eq_true] at h
      exact h.1
    · simpa only [goesWell, hpc, hf, Option.all_some] using h
  | stop => cases h
  | _ => trivial

theorem RxState.rightHashes_of_goesWell {sha : Bytes → Bytes} {s : RxState} {a : ReceiverAct}
    (h : s.goesWell (·.blocks != 0) a = true) : s.RightHashes sha a := by
  cases a with
  | writer io =>
    refine ⟨fun i k f hpc hf _ _ => ?_, fun i k f hpc hf _ hzero => ?_⟩
    · simp only [goesWell, hpc, hf, Option.all_some, Bool.and_eq_true] at h
      exact h.1
    · simp only [goesWell, hpc, hf, Option.all_some, Bool.and_eq_true, hzero] at h
      cases h.2
  | _ => trivial

/-- The only block of a file and its hash come in; everything is written, compared and renamed. -/
def oneByteRound : List ReceiverAct :=
  .block oneByteWire :: .fileDone 0 [7] :: List.replicate 11 (.writer plainIo)

theorem files_agree_oneByte : ∃ s s' out f, (oneByteLaunch.state.machine id).exec oneByteRound
      oneByteLaunch.state = some s ∧ s.step id (.writer plainIo) = some (s', out) ∧
    s'.engine.rx[0]? = some f ∧ f.complete = true ∧ f.verified = true ∧ f.frontier = 1 ∧
    oneByteLaunch.FileAgrees id (oneByteRound ++ [.writer plainIo]) s' 0 f := by
  have hfacts : (((oneByteLaunch.state.machine id).exec oneByteRound oneByteLaunch.state).bind fun s =>
      (s.step id (.writer plainIo)).bind fun r => (r.1.engine.rx[0]?).map fun f =>
        (s.engine.pc, f.complete, f.verified, f.frontier)) = some (.tail 0, true, true, 1) := by
    decide +kernel
  have hpasses : (oneByteLaunch.state.machine id).passes (RxState.goesWell (·.blocks != 0)) oneByteRound
      oneByteLaunch.state = true := by
    decide +kernel
  obtain ⟨s, hexec, hfacts⟩ := Option.bind_eq_some_iff.mp hfacts
  obtain ⟨⟨s', out⟩, hstep, hfacts⟩ := Option.bind_eq_some_iff.mp hfacts
  obtain ⟨f, hf, hflags⟩ := Option.map_eq_some_iff.mp hfacts
  obtain ⟨hpc, hcomplete, hverified, hfrontier⟩ := by simpa only [Prod.mk.injEq] using hflags
  have run : (oneByteLaunch.state.machine id).Run (fun s a => s.Works a ∧ s.RightHashes id a) oneByteRound s :=
    .of_passes (fun _ _ h => ⟨RxState.works_of_goesWell h, RxState.rightHashes_of_goesWell h⟩) hexec hpasses
  exact ⟨s, s', out, f, hexec, hstep, hf, hcomplete, hverified, hfrontier,
    files_agree oneByteLaunch id oneByteRound s s' plainIo 0 out run hpc hstep 0 f hf⟩

/-- An empty file comes to an empty folder. -/
def emptyLaunch : Launch :=
  { oneByteLaunch with manifest := ⟨[⟨ascii "a", 0⟩], [], [⟨ascii "a", false⟩], 0⟩ }

/-- A wrong hash is announced for it, and compared. -/
def wrongHashRound : List ReceiverAct := .fileDone 0 [1] :: List.replicate 6 (.writer plainIo)

/-- The empty file is no longer complete, and no block of it is missing. -/
theorem not_files_agree : ¬ ∀ (l : Launch) (sha : Bytes → Bytes) (as : List ReceiverAct) (s s' : RxState)
    (io : Io) (now : UInt32) (out : List RxEvent), (l.state.machine sha).Run RxState.Works as s →
      s.engine.pc = .tail now → s.step sha (.writer io) = some (s', out) →
      ∀ (i : Nat) (f : FileRx), s'.engine.rx[i]? = some f →
        l.FileAgrees sha (as ++ [.writer io]) s' i f := by
  intro h
  have hfacts : (((emptyLaunch.state.machine id).exec wrongHashRound emptyLaunch.state).bind fun s =>
      (s.step id (.writer plainIo)).bind fun r => (r.1.engine.rx[0]?).map fun f =>
        (s.engine.pc, f.complete, f.bitmap.complete)) = some (.tail 0, false, true) := by
    decide +kernel
  have hpasses : (emptyLaunch.state.machine id).passes (RxState.goesWell fun _ => true) wrongHashRound
      emptyLaunch.state = true := by
    decide +kernel
  obtain ⟨s, hexec, hfacts⟩ := Option.bind_eq_some_iff.mp hfacts
  obtain ⟨⟨s', out⟩, hstep, hfacts⟩ := Option.bind_eq_some_iff.mp hfacts
  obtain ⟨f, hf, hflags⟩ := Option.map_eq_some_iff.mp hfacts
  obtain ⟨hpc, hcomplete, hbits⟩ := by simpa only [Prod.mk.injEq] using hflags
  have run : (emptyLaunch.state.machine id).Run RxState.Works wrongHashRound s :=
    .of_passes (fun _ _ => RxState.works_of_goesWell) hexec hpasses
  have agrees := (h emptyLaunch id wrongHashRound s s' plainIo 0 out run hpc hstep 0 f hf).complete
  rw [hcomplete, hbits] at agrees
  cases agrees

end CrossTransfer.Transfer
