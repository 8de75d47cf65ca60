import CrossTransfer.Transfer.HandleBatch

/-! # Batches in a run

From the start to the end of a `HandleBatch` in which every write succeeds and no hash is wrong, the
files and the disk become what they become when the blocks of the batch are processed one by one, and
the owner is told of the same files in the same order. A flush finds its file open as long as a part
file can be opened again whenever a hash was wrong (`handleBatch_blocks`). `MaybeVerify` does not look
whether it could (`not_handleBatch_blocks`).
-/

namespace CrossTransfer.Transfer

open CrossTransfer.Library

namespace Receiver

variable {t t' : Receiver} {fs fs' : Fs} {sha : Bytes → Bytes} {io : Io} {out : List RxEvent}
  {events : List DiskEvent} {f g : FileRx} {i b : Nat}

/-! ## A wrong hash -/

/-- The step that verifies file `i` finds a wrong hash; `mid` is the disk after the hashing. -/
structure WrongHash (sha : Bytes → Bytes) (io : Io) (t : Receiver) (fs : Fs) (i : Nat) (f : FileRx)
    (mid : Fs) : Prop where
  pc : ∃ k, t.pc = .verify i k
  file : t.rx[i]? = some f
  due : Due f
  stop : t.stop = false
  wrong : ∃ bytes, hashFile io fs f = some (mid, bytes) ∧ sha bytes ≠ f.expectedSha256

/-- The step in which a file starts over. -/
theorem wrongHash_of_reset (h : t.writerStep sha io fs = some (t', fs', out))
    (hreset : DiskEvent.reset i ∈ t.diskEvents io t' out) :
    ∃ f mid, WrongHash sha io t fs i f mid ∧ t'.rx = t.rx.set i (resetFile f (reopen io mid f).2) := by
  unfold diskEvents at hreset
  split at hreset
  · -- A flush writes at most.
    rename_i rest run _ _ hpc
    cases hflushed : t.flushedRun rest run with
    | none =>
      rw [hflushed] at hreset
      cases hreset
    | some r =>
      rw [hflushed, Option.map_some, Option.getD_some] at hreset
      unfold written at hreset
      split at hreset
      · cases List.mem_singleton.mp hreset
      · cases hreset
  · rename_i j k hpc
    have hverify : t.verify sha io j k fs = (t', fs', out) := by
      rw [writerStep, hpc] at h
      exact Option.some.inj h
    have told : ∃ index reason, out = [.fileBad index reason] ∧ i = j := by
      unfold startedOver at hreset
      split at hreset
      · rename_i index reason
        obtain heq | hmem := List.mem_cons.mp hreset
        · exact ⟨index, reason, rfl, by cases heq; rfl⟩
        · unfold opened at hmem
          split at hmem
          · cases List.mem_singleton.mp hmem
          · cases hmem
      · cases hreset
    obtain ⟨index, reason, rfl, rfl⟩ := told
    by_cases due : ∃ f, t.rx[i]? = some f ∧ Due f
    swap
    · rw [verify_idle fun f hf hdue => due ⟨f, hf, hdue⟩] at hverify
      cases hverify
    obtain ⟨f, hf, due⟩ := due
    cases hstop : t.stop with
    | true =>
      rw [verify_stopped hf due hstop] at hverify
      cases hverify
    | false =>
      cases hashed : hashFile io fs f with
      | none =>
        rw [verify_unread hf due hstop hashed] at hverify
        have hout := congrArg (fun r : Receiver × Fs × List RxEvent => r.2.2) hverify
        have hmem : RxEvent.fileBad index reason ∈ ((t.setFile i { f with
            verifying := true, writer := none }).fail (ascii "io") (ascii "verify read failed")).2 := by
          rw [hout]
          exact List.mem_singleton_self _
        cases mem_fail hmem
      | some hashing =>
        obtain ⟨mid, bytes⟩ := hashing
        by_cases right : sha bytes = f.expectedSha256
        · rw [verify_matched hf due hstop hashed right] at hverify
          cases hverify
        · rw [verify_mismatch hf due hstop hashed right] at hverify
          cases hverify
          exact ⟨f, mid, ⟨⟨k, hpc⟩, hf, due, hstop, bytes, hashed, right⟩, rfl⟩
  · cases hreset

/-! ## Files of a run -/

/-- A file that takes blocks is open. -/
def Writable (f : FileRx) : Prop :=
  f.verified = false → f.blocks ≠ 0 → f.complete = false → ∃ inode, f.writer = some (some inode)

theorem Writable.of_core (h : Writable f) (hcore : g.core = f.core) : Writable g := by
  have hverified := congrArg FileRx.verified hcore
  have hblocks := congrArg FileRx.blocks hcore
  have hcomplete := congrArg FileRx.complete hcore
  have hwriter := congrArg FileRx.writer hcore
  intro hv hb hc
  obtain ⟨inode, hopen⟩ := h (Eq.trans hverified.symm hv) (fun hz => hb (Eq.trans hblocks hz))
    (Eq.trans hcomplete.symm hc)
  exact ⟨inode, Eq.trans hwriter hopen⟩

/-- What a batch relies on of a file. -/
structure Ready (f : FileRx) : Prop where
  sized : Sized f
  writable : Writable f

theorem Ready.of_core (h : Ready f) (hcore : g.core = f.core) : Ready g :=
  ⟨h.sized.of_core hcore, h.writable.of_core hcore⟩

theorem ready_of_startFile {sio : StartIo} {resume : List ReceiverFileState} {bytes : UInt64}
    (hsize : f.bitmap.size = f.blocks.toNat) (hcomplete : f.complete = false)
    (h : startFile sio resume fs f = (fs', .ok (g, bytes))) : Ready g := by
  unfold startFile at h
  dsimp only at h
  split at h
  · cases h
    exact ⟨⟨(BlockBitmap.setRuns_size ..).trans hsize, fun _ => .inl rfl⟩, fun hv => by cases hv⟩
  · split at h
    · cases h
    · split at h
      · rename_i hzero
        cases h
        refine ⟨⟨hsize, fun _ => .inr ((BlockBitmap.complete_iff _).mpr fun i hi => ?_)⟩,
          fun _ hb => absurd hzero hb⟩
        rw [hsize, hzero] at hi
        exact absurd hi (Nat.not_lt_zero i)
      · split at h
        · cases h
        · rename_i disk inode _
          split at h
          · cases h
          · have opened : Ready { f with writer := some (some inode) } :=
              ⟨⟨hsize, fun hc => by rw [show f.complete = true from hc] at hcomplete; cases hcomplete⟩,
                fun _ _ _ => ⟨inode, rfl⟩⟩
            split at h
            · split at h
              · cases h
                exact ⟨⟨(BlockBitmap.setRuns_size ..).trans hsize, fun hc => .inr hc⟩,
                  fun _ _ _ => ⟨inode, rfl⟩⟩
              · cases h
                exact opened
            · cases h
              exact opened

theorem ready_of_start (l : Launch) (hf : l.state.engine.rx[i]? = some f) : Ready f := by
  have hstart : Receiver.start l.io l.manifest l.saveDir l.names l.resume l.fs =
    (l.state.fs, l.state.engine, l.start.2.2) := rfl
  obtain ⟨mf, mid, bytes, -, hfile⟩ := files_of_start hstart hf
  exact ready_of_startFile rfl rfl hfile

theorem sized_step (effect : BlockEffect io t fs t' fs' events)
    (sized : ∀ (i : Nat) (f : FileRx), t.rx[i]? = some f → Sized f) :
    ∀ (i : Nat) (g : FileRx), t'.rx[i]? = some g → Sized g := by
  intro i g hg
  have same : t'.cores = t.cores → Sized g := by
    intro hcores
    obtain ⟨f, hf, hcore⟩ := file_of_cores hcores hg
    exact (sized i f hf).of_core hcore
  -- The file that the step names has become `h`.
  have one : ∀ {j : Nat} {f h : FileRx}, t.rx[j]? = some f → t'.cores = t.cores.set j h.core →
      (Sized f → Sized h) → Sized g := by
    intro j f h hf hcores keep
    obtain ⟨rfl, hcore⟩ | ⟨-, f', hf', hcore⟩ := file_of_cores_set hf hcores hg
    · exact (keep (sized i f hf)).of_core hcore
    · exact (sized i f' hf').of_core hcore
  cases effect with
  | quiet rx _ => exact same rx
  | take _ rx _ => exact same rx
  | write flushes hf _ rx _ => exact one hf rx fun h => h.markRun _
  | writeFail _ _ _ _ rx _ => exact same rx
  | closed _ _ _ rx _ => exact same rx
  | expect hf rx _ => exact one hf rx fun h => ⟨h.size, h.complete⟩
  | hash hf _ _ rx _ => exact one hf rx fun h => ⟨h.size, h.complete⟩
  | reset hf _ _ _ rx _ => exact one hf rx fun _ => ⟨rfl, fun hc => by cases hc⟩
  | accept hf _ _ rx _ => exact one hf rx fun h => ⟨h.size, fun _ => .inl rfl⟩

/-- A file that takes blocks stays open, if it could be opened again when its hash was wrong. -/
theorem writable_step (h : t.writerStep sha io fs = some (t', fs', out))
    (reopens : ∀ i f mid, WrongHash sha io t fs i f mid → f.blocks ≠ 0 →
      (mid.openWrite f.partPath io.reopenOk).isSome = true)
    (writable : ∀ (i : Nat) (f : FileRx), t.rx[i]? = some f → Writable f) :
    ∀ (i : Nat) (g : FileRx), t'.rx[i]? = some g → Writable g := by
  intro i g hg
  have same : t'.cores = t.cores → Writable g := by
    intro hcores
    obtain ⟨f, hf, hcore⟩ := file_of_cores hcores hg
    exact (writable i f hf).of_core hcore
  have one : ∀ {j : Nat} {f h : FileRx}, t.rx[j]? = some f → t'.cores = t.cores.set j h.core →
      (Writable f → Writable h) → Writable g := by
    intro j f h hf hcores keep
    obtain ⟨rfl, hcore⟩ | ⟨-, f', hf', hcore⟩ := file_of_cores_set hf hcores hg
    · exact (keep (writable i f hf)).of_core hcore
    · exact (writable i f' hf').of_core hcore
  have effect := writerStep_blocks h
  generalize hevents : t.diskEvents io t' out = events at effect
  cases effect with
  | quiet rx _ => exact same rx
  | take _ rx _ => exact same rx
  | write _ hf _ rx _ =>
    exact one hf rx fun h hv hb hc => h hv hb (Bool.or_eq_false_iff.mp hc).1
  | writeFail _ _ _ _ rx _ => exact same rx
  | closed _ _ _ rx _ => exact same rx
  | expect hf rx _ => exact one hf rx fun h => h
  | hash hf due _ rx _ =>
    refine one hf rx fun _ _ _ hc => ?_
    rw [show _ = true from due.complete] at hc
    cases hc
  | @reset _ _ j f _ hf _ _ _ rx _ =>
    obtain ⟨f', mid, wrong, hrx⟩ := wrongHash_of_reset h (i := j) (by rw [hevents]; simp)
    have hcores : t'.cores = t.cores.set j (resetFile f' (reopen io mid f').2).core := by
      rw [cores, hrx]
      exact List.map_set ..
    refine one wrong.file hcores fun _ _ hb _ => ?_
    have hopens := reopens j f' mid wrong hb
    obtain ⟨⟨fs₂, inode⟩, hopen⟩ := Option.isSome_iff_exists.mp hopens
    refine ⟨inode, ?_⟩
    have hblocks : ¬f'.blocks = 0 := hb
    rw [show (resetFile f' (reopen io mid f').2).writer = (reopen io mid f').2 from rfl, reopen,
      if_neg hblocks, hopen]
  | accept hf _ _ rx _ => exact one hf rx fun _ hv => by cases hv

/-- The run that a step of the batch flushes. -/
theorem flushes_of_flushedRun {rest : List Pending} {run : Option BlockRun}
    {dones : List (UInt16 × Bytes)} {now : UInt32} {r : BlockRun}
    (hpc : t.pc = .batch rest run dones now) (h : t.flushedRun rest run = some r) : Flushes t r := by
  have hrun : t.pc.run = run := by rw [hpc]; rfl
  unfold flushedRun at h
  split at h
  · exact .collected (hrun.trans h)
  · rename_i p rest
    split at h
    · rename_i r' hr
      obtain rfl := Option.some.inj h
      exact .collected (hrun.trans (Option.filter_eq_some_iff.mp hr).1)
    · rename_i hr
      split at h
      · rename_i hlong
        obtain rfl := Option.some.inj h
        obtain ⟨f, hf, fresh⟩ := acceptBlock_fresh (Bool.and_eq_true_iff.mp hlong).1
        have contiguous : ∀ r, t.pc.run = some r → Receiver.contiguous r p = true := by
          intro r heq
          rw [hrun] at heq
          simpa [heq] using hr
        rw [← hrun]
        exact .long ⟨by rw [hpc]; exact List.mem_cons_self, hf, fresh, contiguous⟩
      · cases h

end Receiver

/-! ## Runs -/

section Runs

open Receiver (WrongHash Writable)

variable {sha : Bytes → Bytes} {l : Launch} {as : List ReceiverAct} {s s' : RxState} {a : ReceiverAct}
  {out : List RxEvent} {ok : RxState → ReceiverAct → Prop}

/-- If the step finds a wrong hash, the part file can be opened again. -/
def ReopensParts (sha : Bytes → Bytes) (s : RxState) : ReceiverAct → Prop
  | .writer io => ∀ i f mid, WrongHash sha io s.engine s.fs i f mid → f.blocks ≠ 0 →
      (mid.openWrite f.partPath io.reopenOk).isSome = true
  | _ => True

theorem sized_of_run (run : (l.state.machine sha).Run ok as s) :
    ∀ (i : Nat) (f : FileRx), s.engine.rx[i]? = some f → Sized f := by
  refine run.invariant (fun s => ∀ (i : Nat) (f : FileRx), s.engine.rx[i]? = some f → Sized f)
    (fun i f hf => (Receiver.ready_of_start l hf).sized) fun s a s' sized _ hstep => ?_
  obtain ⟨⟨s', out⟩, hact, rfl⟩ := Option.map_eq_some_iff.mp hstep
  by_cases writer : ∃ io, a = .writer io
  · obtain ⟨io, rfl⟩ := writer
    obtain ⟨⟨t', fs', told⟩, hwriter, heq⟩ := Option.map_eq_some_iff.mp hact
    cases heq
    exact Receiver.sized_step (Receiver.writerStep_blocks hwriter) sized
  · obtain ⟨called, -⟩ := called_of_step hact fun io heq => writer ⟨io, heq⟩
    intro i g hg
    obtain ⟨f, _, hf, rfl⟩ := called.file hg
    exact ⟨(sized i f hf).size, (sized i f hf).complete⟩

/-- Another thread leaves the files alone while the writer thread runs. -/
theorem files_of_call (hact : s.step sha a = some (s', out)) (other : ∀ io, a ≠ .writer io)
    (on : s.engine.pc ≠ .exited) : s'.engine.rx = s.engine.rx := by
  cases a with
  | writer io => exact absurd rfl (other io)
  | block wire =>
    cases hact
    exact Receiver.rx_onBlock s.engine wire
  | fileDone index hash =>
    cases hact
    rfl
  | stop =>
    cases hact
    rfl
  | close =>
    rw [RxState.step] at hact
    split at hact
    · rename_i hexited
      rw [Bool.and_eq_true, beq_iff_eq] at hexited
      exact absurd hexited.2 on
    · cases hact

theorem writable_of_run (run : (l.state.machine sha).Run (ReopensParts sha) as s) :
    s.engine.pc ≠ .exited → ∀ (i : Nat) (f : FileRx), s.engine.rx[i]? = some f → Writable f := by
  refine run.invariant (fun s => s.engine.pc ≠ .exited →
      ∀ (i : Nat) (f : FileRx), s.engine.rx[i]? = some f → Writable f)
    (fun _ i f hf => (Receiver.ready_of_start l hf).writable) fun s a s' writable hok hstep => ?_
  obtain ⟨⟨s', out⟩, hact, rfl⟩ := Option.map_eq_some_iff.mp hstep
  by_cases writer : ∃ io, a = .writer io
  · obtain ⟨io, rfl⟩ := writer
    obtain ⟨⟨t', fs', told⟩, hwriter, heq⟩ := Option.map_eq_some_iff.mp hact
    cases heq
    have on : s.engine.pc ≠ .exited := by
      intro hpc
      rw [Receiver.writerStep, hpc] at hwriter
      cases hwriter
    exact fun _ => Receiver.writable_step hwriter hok (writable on)
  · intro on i g hg
    -- The writers are closed only when the writer thread has exited.
    obtain ⟨called, -⟩ := called_of_step hact fun io heq => writer ⟨io, heq⟩
    rw [called.pc] at on
    rw [files_of_call hact (fun io heq => writer ⟨io, heq⟩) on] at hg
    exact writable on i g hg

/-- A flush finds the file of its run open. -/
theorem open_of_flushes {t : Receiver} {log : List DiskEvent} {run : BlockRun} (marks : Marks l as log t)
    (sized : ∀ (i : Nat) (f : FileRx), t.rx[i]? = some f → Sized f)
    (writable : ∀ (i : Nat) (f : FileRx), t.rx[i]? = some f → Writable f)
    (flushes : Receiver.Flushes t run) :
    ∃ f inode, t.rx[run.file.toNat]? = some f ∧ f.writer = some (some inode) := by
  obtain ⟨f, ps, hf, collected, -⟩ := Receiver.flushed_of_marks marks flushes
  obtain ⟨p, hp⟩ := List.exists_mem_of_ne_nil ps collected.nonempty
  have fresh := collected.fresh p hp
  have hblocks : f.blocks ≠ 0 := by
    intro hzero
    have inside := fresh.inside
    rw [hzero] at inside
    exact UInt32.not_lt_zero inside
  obtain ⟨inode, hopen⟩ := writable _ f hf fresh.verified hblocks ((sized _ f hf).missing fresh)
  exact ⟨f, inode, hf, hopen⟩

/-! ## A whole batch -/

/-- The steps of a batch so far: a part of it has been processed, one block after the other, once what
    is under way is settled. -/
theorem settled_of_run {before : List ReceiverAct} (run : (l.state.machine sha).Run ok before s)
    {ps : List Pending} {dones : List (UInt16 × Bytes)} {now : UInt32}
    (hpc : s.engine.pc = .batch ps none dones now) (batch : (s.machine sha).Run Handling as s')
    (good : ∀ e ∈ (s.machine sha).collect (RxState.events sha) as s, e.isBad = false)
    (inside : s'.engine.pc.inBatch = true) :
    ∃ done, ps = done ++ s'.engine.pc.pending ∧ ∀ ahead g, s'.engine.settled sha s'.fs ahead
        (((s.machine sha).collect (RxState.events sha) as s).filterMap RxEvent.good) = some g →
      (s.engine.parts s.fs ((s.machine sha).collect RxState.seen as s ++ ahead) []).blocks sha done =
        some g := by
  have reach : ∀ {as : List ReceiverAct} {s' : RxState}, (s.machine sha).Run Handling as s' →
      (l.state.machine sha).Run Machine.anyStep (before ++ as) s' := by
    intro as s' batch
    induction batch with
    | init =>
      rw [List.append_nil]
      exact run.mono fun _ _ _ => trivial
    | step _ _ hstep ih =>
      rw [← List.append_assoc]
      exact .step ih trivial hstep
  induction batch with
  | init =>
    have hpending : s.engine.pc.pending = ps := by rw [hpc]; rfl
    refine ⟨[], hpending.symm, fun ahead g hg => ?_⟩
    rw [show (s.machine sha).init.engine = s.engine from rfl, Receiver.settled_batch rfl hpc] at hg
    exact hg
  | @step as s' a s'' hrun handling hstep ih =>
    have hexec : (s.machine sha).exec as s = some s' := hrun.exec_eq
    rw [Machine.collect_snoc hexec] at good ⊢
    rw [Machine.collect_snoc hexec, List.filterMap_append]
    rw [List.forall_mem_append] at good
    obtain ⟨done, hdone, settles⟩ := ih good.1 (inBatch_of_handling handling.handling)
    have reached := reach hrun
    obtain ⟨taken, htaken, takes⟩ := settled_step (marks_of_run reached)
      (fun f hf => let ⟨i, hi⟩ := List.mem_iff_getElem?.mp hf; sized_of_run reached i f hi)
      handling good.2 hstep inside
    refine ⟨done ++ taken, by rw [hdone, htaken, List.append_assoc], fun ahead g hg => ?_⟩
    obtain ⟨g₀, hg₀, hblocks⟩ := takes ahead g hg
    rw [Parts.blocks_append, List.append_assoc, settles _ g₀ hg₀, Option.bind_some]
    exact hblocks

end Runs

/-- The payload of block `b` of file `i` came in a datagram, and is written to its place. -/
inductive WrittenNow (as : List ReceiverAct) (events : List DiskEvent) (i b : Nat) : Prop where
  | intro {p : Pending} {inode offset : Nat} {data : Bytes} (received : Received as p)
      (file : p.file.toNat = i) (block : p.block.toNat = b)
      (wrote : DiskEvent.wrote i inode offset data ∈ events) (inside : offset ≤ b * kBlockPayloadSize)
      (bytes : (data.drop (b * kBlockPayloadSize - offset)).take p.payload.length = p.payload)

/-- A block is marked in the step that writes its payload. -/
theorem writtenNow_of_effect {l : Launch} {as : List ReceiverAct} {log events : List DiskEvent} {io : Io}
    {t t' : Receiver} {fs fs' : Fs} {i b : Nat} {f g : FileRx}
    (effect : Receiver.BlockEffect io t fs t' fs' events) (marks : Marks l as log t)
    (hf : t.rx[i]? = some f) (hg : t'.rx[i]? = some g) (before : f.bitmap.test b = false)
    (after : g.bitmap.test b = true) : WrittenNow as events i b := by
  -- Otherwise the bits of the file are those of `h`.
  have absurd' : ∀ {h : FileRx}, (∀ b, h.bitmap.test b = true → f.bitmap.test b = true) →
      g.core = h.core → WrittenNow as events i b := by
    intro h hbits hcore
    have htest := congrArg (fun x : FileRx => x.bitmap.test b) hcore
    have hold := hbits b (Eq.trans htest.symm after)
    rw [before] at hold
    cases hold
  have same : t'.cores = t.cores → WrittenNow as events i b := by
    intro hcores
    obtain ⟨f', hf', hcore⟩ := Receiver.file_of_cores hcores hg
    obtain rfl := Option.some.inj (hf'.symm.trans hf)
    exact absurd' (fun _ => id) hcore
  have one : ∀ {j : Nat} {f' h : FileRx}, t.rx[j]? = some f' → t'.cores = t.cores.set j h.core →
      (∀ b, h.bitmap.test b = true → f'.bitmap.test b = true) → WrittenNow as events i b := by
    intro j f' h hf' hcores hbits
    obtain ⟨rfl, hcore⟩ | ⟨-, f'', hf'', hcore⟩ := Receiver.file_of_cores_set hf' hcores hg
    · obtain rfl := Option.some.inj (hf'.symm.trans hf)
      exact absurd' hbits hcore
    · obtain rfl := Option.some.inj (hf''.symm.trans hf)
      exact absurd' (fun _ => id) hcore
  cases effect with
  | quiet rx _ => exact same rx
  | take _ rx _ => exact same rx
  | @write run f' inode flushes hf' writer rx _ =>
    obtain ⟨rfl, hcore⟩ | ⟨-, f'', hf'', hcore⟩ := Receiver.file_of_cores_set hf' rx hg
    · obtain rfl := Option.some.inj (hf'.symm.trans hf)
      have hmarked : (Receiver.markRun f' run).bitmap.test b = true :=
        Eq.trans (congrArg (fun x : FileRx => x.bitmap.test b) hcore).symm after
      obtain hold | ⟨block, hblock, rfl⟩ := Receiver.setBlocks_test run.blocks f'.bitmap hmarked
      · rw [before] at hold
        cases hold
      · -- The block is one of the run.
        obtain ⟨h, ps, hh, collected, received⟩ := Receiver.flushed_of_marks marks flushes
        obtain ⟨p, hp, rfl⟩ := collected.mem_blocks hblock
        obtain ⟨inside, bytes⟩ := collected.slice hp
        exact ⟨received p hp, congrArg UInt16.toNat (collected.file p hp), rfl,
          List.mem_singleton_self _, inside, bytes⟩
    · obtain rfl := Option.some.inj (hf''.symm.trans hf)
      exact absurd' (fun _ => id) hcore
  | writeFail _ _ _ _ rx _ => exact same rx
  | closed _ _ _ rx _ => exact same rx
  | expect hf' rx _ => exact one hf' rx fun _ => id
  | hash hf' _ _ rx _ => exact one hf' rx fun _ => id
  | reset hf' _ _ _ rx _ =>
    refine one hf' rx fun b hb => ?_
    have hnone : (BlockBitmap.reset _).test b = true := hb
    rw [BlockBitmap.reset_test] at hnone
    cases hnone
  | accept hf' _ _ rx _ => exact one hf' rx fun _ => id

/-- Runs in which a part file could be opened again whenever its hash was wrong: a batch without a
    wrong hash is the processing of its blocks one by one, every flush finds its file open, and a block
    is marked in the step that writes it. -/
theorem handleBatch_blocks (l : Launch) (sha : Bytes → Bytes) (before : List ReceiverAct) (s : RxState)
    (run : (l.state.machine sha).Run (ReopensParts sha) before s) :
    (∀ ps dones now as s' dones' now', s.engine.pc = .batch ps none dones now →
      (s.machine sha).Run Handling as s' →
      (∀ e ∈ (s.machine sha).collect (RxState.events sha) as s, e.isBad = false) →
      s'.engine.pc = .batch [] none dones' now' →
      (s.engine.parts s.fs ((s.machine sha).collect RxState.seen as s) []).blocks sha ps =
        some (s'.engine.parts s'.fs []
          (((s.machine sha).collect (RxState.events sha) as s).filterMap RxEvent.good))) ∧
    (∀ rest run dones now r, s.engine.pc = .batch rest run dones now →
      s.engine.flushedRun rest run = some r →
        ∃ f inode, s.engine.rx[r.file.toNat]? = some f ∧ f.writer = some (some inode)) ∧
    ∀ a s' out (i : Nat) (f g : FileRx) (b : Nat), s.step sha a = some (s', out) →
      s.engine.rx[i]? = some f → s'.engine.rx[i]? = some g → f.bitmap.test b = false →
      g.bitmap.test b = true → WrittenNow before (s.diskEvents sha a) i b := by
  have marks := marks_of_run run
  refine ⟨fun ps dones now as s' dones' now' hpc batch good hend => ?_,
    fun rest run' dones now r hpc hflushed => ?_, fun a s' out i f g b hact hf hg hb hb' => ?_⟩
  · obtain ⟨done, hdone, settles⟩ := settled_of_run run hpc batch good (by rw [hend]; rfl)
    have hall : ps = done := by
      rw [hdone, hend]
      exact List.append_nil _
    have hsettled := settles [] _ (Receiver.settled_batch rfl hend)
    rw [List.append_nil] at hsettled
    rw [hall]
    exact hsettled
  · have on : s.engine.pc ≠ .exited := by
      rw [hpc]
      exact WriterPc.noConfusion
    exact open_of_flushes marks (sized_of_run run) (writable_of_run run on)
      (Receiver.flushes_of_flushedRun hpc hflushed)
  · by_cases writer : ∃ io, a = .writer io
    · obtain ⟨io, rfl⟩ := writer
      obtain ⟨⟨t', fs', told⟩, hwriter, heq⟩ := Option.map_eq_some_iff.mp hact
      cases heq
      have hevents : s.diskEvents sha (.writer io) = s.engine.diskEvents io t' told := by
        rw [RxState.diskEvents, hwriter]
        rfl
      rw [hevents]
      exact writtenNow_of_effect (Receiver.writerStep_blocks hwriter) marks hf hg hb hb'
    · obtain ⟨called, -⟩ := called_of_step hact fun io heq => writer ⟨io, heq⟩
      obtain ⟨f', _, hf', rfl⟩ := called.file hg
      obtain rfl := Option.some.inj (hf'.symm.trans hf)
      rw [show f'.bitmap.test b = true from hb'] at hb
      cases hb

/-- Two files of one byte each come to an empty folder. -/
def twoFilesLaunch : Launch :=
  { oneByteLaunch with
    manifest := ⟨[⟨ascii "a", 1⟩, ⟨ascii "b", 1⟩], [], [⟨ascii "a", false⟩, ⟨ascii "b", false⟩], 2⟩ }

/-- The only block of the second file. -/
def secondWire : Bytes := (encodeBlock ⟨0, 1, 0, 1⟩ [9]).getD []

/-- The block of the file with another payload than was announced. -/
def wrongWire : Bytes := (encodeBlock ⟨0, 0, 0, 1⟩ [8]).getD []

/-- The hashes of the files are announced and stored, a wrong block of the first file comes in and the file is
    opened again, then the blocks of both files come in, the first one twice: a batch of three blocks. -/
def announcedBatch : List ReceiverAct :=
  .fileDone 0 [7] :: .fileDone 1 [9] :: (List.replicate 9 (.writer plainIo) ++
    .block wrongWire :: (List.replicate 6 (.writer plainIo) ++
      .block oneByteWire :: .block secondWire :: .block oneByteWire :: List.replicate 5 (.writer plainIo)))

/-- Of each file write the run, mark it, send a SACK, hash and rename; then skip the block that is known. -/
def batchActs : List ReceiverAct := List.replicate 11 (.writer plainIo)

/-- `Handling`, as a test. -/
def handles (s : RxState) : ReceiverAct → Bool
  | .writer io => s.engine.pc.handling && io.ok
  | _ => s.engine.pc.handling

theorem handling_of_handles {s : RxState} {a : ReceiverAct} (h : handles s a = true) : Handling s a := by
  unfold handles at h
  split at h
  · rw [Bool.and_eq_true] at h
    exact ⟨h.1, fun io heq _ => by cases heq; exact h.2⟩
  · rename_i other
    exact ⟨h, fun io heq => absurd heq (other io)⟩

/-- Whether the part file can be opened again after it was hashed, if it is. -/
def reopens (s : RxState) : ReceiverAct → Bool
  | .writer io =>
    match s.engine.pc with
    | .verify i _ => (s.engine.rx[i]?).all fun f =>
        (Receiver.hashFile io s.fs f).all fun r => (r.1.openWrite f.partPath io.reopenOk).isSome
    | _ => true
  | _ => true

theorem reopensParts_of_reopens {sha : Bytes → Bytes} {s : RxState} {a : ReceiverAct}
    (h : reopens s a = true) : ReopensParts sha s a := by
  cases a with
  | writer io =>
    intro i f mid wrong _
    obtain ⟨k, hpc⟩ := wrong.pc
    obtain ⟨bytes, hhash, -⟩ := wrong.wrong
    rw [reopens, hpc] at h
    simpa [wrong.file, hhash] using h
  | _ => trivial

theorem handleBatch_blocks_oneByte : ∃ s s',
    (twoFilesLaunch.state.machine id).exec announcedBatch twoFilesLaunch.state = some s ∧
    (s.machine id).exec batchActs s = some s' ∧
    (s.engine.parts s.fs (List.replicate 4 (false, plainIo)) []).blocks id
      [⟨0, 0, 1, [7]⟩, ⟨1, 0, 1, [9]⟩, ⟨0, 0, 1, [7]⟩] = some (s'.engine.parts s'.fs [] [0, 1]) := by
  have hfacts : (((twoFilesLaunch.state.machine id).exec announcedBatch twoFilesLaunch.state).bind
      fun s => ((s.machine id).exec batchActs s).map fun s' =>
        (s.engine.pc, s'.engine.pc, (s.machine id).passes handles batchActs s,
          (s.machine id).collect RxState.seen batchActs s,
          ((s.machine id).collect (RxState.events id) batchActs s).filterMap RxEvent.good,
          ((s.machine id).collect (RxState.events id) batchActs s).map RxEvent.isBad)) =
      some (.batch [⟨0, 0, 1, [7]⟩, ⟨1, 0, 1, [9]⟩, ⟨0, 0, 1, [7]⟩] none [] 0, .batch [] none [] 0, true,
        List.replicate 4 (false, plainIo), [0, 1], List.replicate 4 false) := by
    rfl
  obtain ⟨s, hexec, hfacts⟩ := Option.bind_eq_some_iff.mp hfacts
  obtain ⟨s', hbatch, hfacts⟩ := Option.map_eq_some_iff.mp hfacts
  simp only [Prod.mk.injEq] at hfacts
  obtain ⟨hpc, hend, hpasses, hseen, hgood, hbad⟩ := hfacts
  have reopened : (twoFilesLaunch.state.machine id).passes reopens announcedBatch
      twoFilesLaunch.state = true := by
    decide +kernel
  have run : (twoFilesLaunch.state.machine id).Run (ReopensParts id) announcedBatch s :=
    Machine.Run.of_passes (fun _ _ => reopensParts_of_reopens) hexec reopened
  have batch : (s.machine id).Run Handling batchActs s' :=
    Machine.Run.of_passes (fun _ _ => handling_of_handles) hbatch hpasses
  have good : ∀ e ∈ (s.machine id).collect (RxState.events id) batchActs s, e.isBad = false := by
    intro e he
    have hmem := List.mem_map_of_mem (f := RxEvent.isBad) he
    rw [hbad] at hmem
    exact List.eq_of_mem_replicate hmem
  have hblocks := (handleBatch_blocks twoFilesLaunch id announcedBatch s run).1 _ _ _ batchActs s' _ _ hpc
    batch good hend
  rw [hseen, hgood] at hblocks
  exact ⟨s, s', hexec, hbatch, hblocks⟩

/-- The part file cannot be opened again. -/
def refusingIo : Io := { plainIo with reopenOk := false }

/-- A batch with the wrong block twice, up to the flush of the second. -/
def refusedBatch : List ReceiverAct :=
  .fileDone 0 [7] :: (List.replicate 7 (.writer plainIo) ++
    .block wrongWire :: .block wrongWire :: List.replicate 7 (.writer refusingIo))

/-- The hash of the first block is wrong, the part file cannot be opened again, and the second block
    is accepted and flushed through the closed writer. -/
theorem not_handleBatch_blocks : ¬ ∀ (l : Launch) (sha : Bytes → Bytes) (as : List ReceiverAct)
    (s : RxState), (l.state.machine sha).Run Machine.anyStep as s →
    ∀ rest run dones now r, s.engine.pc = .batch rest run dones now →
      s.engine.flushedRun rest run = some r →
        ∃ f inode, s.engine.rx[r.file.toNat]? = some f ∧ f.writer = some (some inode) := by
  intro h
  have hfacts : ((oneByteLaunch.state.machine id).exec refusedBatch oneByteLaunch.state).map (fun s =>
      (s.engine.pc, (s.engine.rx[0]?).map (·.writer))) =
      some (.batch [] (some ⟨0, 0, [8], [0]⟩) [] 0, some (some none)) := by
    rfl
  obtain ⟨s, hexec, hfacts⟩ := Option.map_eq_some_iff.mp hfacts
  obtain ⟨hpc, hwriter⟩ := Prod.mk.inj hfacts
  obtain ⟨f, inode, hf, hopen⟩ := h oneByteLaunch id refusedBatch s (Machine.run_of_exec hexec) _ _ _ _
    ⟨0, 0, [8], [0]⟩ hpc rfl
  have hfile : s.engine.rx[0]? = some f := hf
  rw [hfile, Option.map_some, hopen] at hwriter
  cases hwriter

end CrossTransfer.Transfer
