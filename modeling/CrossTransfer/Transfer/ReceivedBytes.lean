import CrossTransfer.Library.ListSums
import CrossTransfer.Transfer.StoredBytes

/-! # The count of received bytes

`bytes_received_` is what `Start` finds, plus the payload of every run that is written, less a file
that starts over. Writing adds what the run adds to its file, and a file that starts over was
complete, so each step keeps the difference between the count and the files (`Tally`). The difference
is what `Start` counts too much for part files that have their last block early: in every state of a
run the count is right exactly if no such file was found (`tallied_iff`).
-/

namespace CrossTransfer.Transfer

open CrossTransfer.Library
open RunPacking (Covered)
open Paths

namespace Receiver

variable {t t' : Receiver} {fs fs' : Fs} {sha : Bytes → Bytes} {io : Io} {out : List RxEvent}
  {events : List DiskEvent} {l : Launch} {as : List ReceiverAct} {log : List DiskEvent}
  {excess : Nat}

/-- The count is the total length of the received blocks, with verified files as a whole. -/
def Tallied (t : Receiver) : Prop :=
  t.bytesReceived.toNat = (t.rx.map FileRx.storedBytes).sum

/-- The count is too high by `excess`. -/
structure Tally (excess : Nat) (t : Receiver) : Prop where
  planned : ∀ f ∈ t.rx, Planned f
  sized : ∀ (i : Nat) (f : FileRx), t.rx[i]? = some f → Sized f
  atRename : ∀ i k f, t.pc = .rename i k → t.rx[i]? = some f → f.complete = true
  room : (t.rx.map (·.size.toNat)).sum + excess < 2 ^ 64
  bytes : t.bytesReceived.toNat = (t.rx.map FileRx.storedBytes).sum + excess

/-! ## The files -/

theorem size_of_fixed (fixed : t'.rx.map FileRx.fixed = t.rx.map FileRx.fixed) :
    t'.rx.map (·.size) = t.rx.map (·.size) := by
  have hmap := congrArg (List.map fun k : UInt16 × UInt64 × UInt32 × Path × Path => k.2.1) fixed
  rwa [List.map_map, List.map_map] at hmap

theorem planned_of_fixed (fixed : t'.rx.map FileRx.fixed = t.rx.map FileRx.fixed)
    (planned : ∀ f ∈ t.rx, Planned f) : ∀ f ∈ t'.rx, Planned f := by
  intro g hg
  have hmem : g.fixed ∈ t.rx.map FileRx.fixed := fixed ▸ List.mem_map_of_mem hg
  obtain ⟨f, hf, heq⟩ := List.mem_map.mp hmem
  simp only [FileRx.fixed, Prod.mk.injEq] at heq
  have hplan := planned f hf
  exact ⟨heq.2.1 ▸ hplan.size, heq.2.1 ▸ heq.2.2.1 ▸ hplan.blocks⟩

theorem stored_le (planned : ∀ f ∈ t.rx, Planned f) :
    (t.rx.map FileRx.storedBytes).sum ≤ (t.rx.map (·.size.toNat)).sum :=
  List.sum_le_sum fun f hf => storedBytes_le (planned f hf)

theorem stored_cores (t : Receiver) :
    (t.rx.map FileRx.storedBytes).sum = (t.cores.map FileRx.storedBytes).sum := by
  rw [cores, List.map_map]
  rfl

theorem stored_of_cores (rx : t'.cores = t.cores) :
    (t'.rx.map FileRx.storedBytes).sum = (t.rx.map FileRx.storedBytes).sum := by
  rw [stored_cores, stored_cores t, rx]

/-- One file has become `g`. -/
theorem stored_set {i : Nat} {f g : FileRx} (hf : t.rx[i]? = some f)
    (rx : t'.cores = t.cores.set i g.core) :
    (t'.rx.map FileRx.storedBytes).sum + f.storedBytes =
      (t.rx.map FileRx.storedBytes).sum + g.storedBytes := by
  have hcore : t.cores[i]? = some f.core := by
    rw [cores_getElem?, hf]
    rfl
  rw [stored_cores, stored_cores t, rx]
  have hset := sum_map_set FileRx.storedBytes t.cores g.core hcore
  exact hset

/-! ## Steps -/

/-- A file about to be renamed is complete. -/
theorem complete_at_rename (effect : WriterEffect sha io t fs t' fs' out) :
    ∀ i k f, t'.pc = .rename i k → t'.rx[i]? = some f → f.complete = true := by
  intro i k g hpc hg
  cases effect with
  | quiet _ _ _ pc => exact absurd hpc (pc i k)
  | write _ _ _ _ _ _ _ pc => exact absurd hpc (pc i k)
  | writeFail _ _ _ _ _ pc =>
    rw [pc] at hpc
    cases hpc
  | expect _ _ _ _ _ pc => exact absurd hpc (pc i k)
  | hashLeft _ _ _ _ _ _ pc => exact absurd hpc (pc i k)
  | reject _ _ _ _ _ _ _ pc => exact absurd hpc (pc i k)
  | matched _ hf due _ _ _ rx _ pc =>
    rw [pc] at hpc
    cases hpc
    obtain ⟨-, hcore⟩ | ⟨hne, -⟩ := file_of_cores_set hf rx hg
    · have hcomplete := congrArg FileRx.complete hcore
      exact Eq.trans hcomplete due.complete
    · exact absurd rfl hne
  | accept _ _ _ _ _ _ pc => exact absurd hpc (pc i k)
  | finish _ _ _ _ pc =>
    rw [pc] at hpc
    cases hpc

/-- Every step changes the count as it changes the files. -/
theorem Tally.bytes_step (h : Tally excess t) (marks : Marks l as log t)
    (effect : BlockEffect io t fs t' fs' events)
    (fixed : t'.rx.map FileRx.fixed = t.rx.map FileRx.fixed) :
    t'.bytesReceived.toNat = (t'.rx.map FileRx.storedBytes).sum + excess := by
  have same : t'.cores = t.cores → t'.bytesReceived = t.bytesReceived →
      t'.bytesReceived.toNat = (t'.rx.map FileRx.storedBytes).sum + excess := by
    intro rx bytes
    rw [bytes, stored_of_cores rx]
    exact h.bytes
  -- The step names a file and does not change what is there of it.
  have kept : ∀ {i : Nat} {f g : FileRx}, t.rx[i]? = some f → t'.cores = t.cores.set i g.core →
      g.storedBytes = f.storedBytes → t'.bytesReceived = t.bytesReceived →
      t'.bytesReceived.toNat = (t'.rx.map FileRx.storedBytes).sum + excess := by
    intro i f g hf rx hstored bytes
    have hset := stored_set hf rx
    have hbytes := h.bytes
    rw [bytes]
    omega
  have hroom : (t'.rx.map FileRx.storedBytes).sum + excess < 2 ^ 64 := by
    have hsizes := congrArg (fun sizes => (sizes.map UInt64.toNat).sum) (size_of_fixed fixed)
    simp only [List.map_map, Function.comp_def] at hsizes
    have hle := stored_le (planned_of_fixed fixed h.planned)
    have hroom := h.room
    omega
  cases effect with
  | quiet rx _ bytes => exact same rx bytes
  | take _ rx _ bytes => exact same rx bytes
  | writeFail _ _ _ _ rx _ bytes => exact same rx bytes
  | closed _ _ _ rx _ bytes => exact same rx bytes
  | expect hf rx _ bytes => exact kept hf rx rfl bytes
  | hash hf _ _ rx _ bytes => exact kept hf rx rfl bytes
  | @write run f inode flushes hf writer rx _ bytes =>
    obtain ⟨f', ps, hf', collected, -⟩ := flushed_of_marks marks flushes
    obtain rfl : f' = f := Option.some.inj (hf'.symm.trans hf)
    have hset := stored_set hf rx
    have hbytes := h.bytes
    rw [storedBytes_markRun (h.sized _ _ hf) collected] at hset
    rw [bytes, UInt64.toNat_add, UInt64.toNat_ofNat', Nat.mod_eq_of_lt (a := run.data.length) (by omega),
      Nat.mod_eq_of_lt (by omega)]
    omega
  | @reset mid _ i f writer hf due _ _ rx _ bytes =>
    have hcomplete := (h.sized _ _ hf).complete due.complete
    have hplanned := h.planned f (List.mem_of_getElem? hf)
    have hsize := storedBytes_of_complete hplanned (h.sized _ _ hf).size hcomplete
    have hset := stored_set hf rx
    rw [storedBytes_resetFile due.verified] at hset
    have hbitmap := toNat_bitmapBytes hplanned (h.sized _ _ hf).size due.verified
    have hexact : f.overcount = 0 := by
      rw [FileRx.overcount, if_neg]
      rintro ⟨-, hmissing, -⟩
      obtain hv | hall := hcomplete
      · rw [due.verified] at hv
        cases hv
      · rw [hall] at hmissing
        cases hmissing
    have hbytes := h.bytes
    have hmin : (min t.bytesReceived (bitmapBytes f)).toNat = f.storedBytes := by
      rw [toNat_min64]
      omega
    rw [bytes, UInt64.toNat_sub_of_le, hmin]
    · omega
    · rw [UInt64.le_iff_toNat_le, hmin]
      omega
  | @accept mid i f k hf atRename _ rx _ bytes =>
    refine kept hf rx ?_ bytes
    have hcomplete := (h.sized _ _ hf).complete (h.atRename _ _ _ atRename hf)
    rw [storedBytes_of_complete (h.planned f (List.mem_of_getElem? hf)) (h.sized _ _ hf).size hcomplete]
    rfl

theorem Tally.step (h : Tally excess t) (marks : Marks l as log t)
    (hstep : t.writerStep sha io fs = some (t', fs', out)) : Tally excess t' := by
  have effect := writerStep_blocks hstep
  have fixed := (writerStep_effect hstep).fixed
  refine ⟨planned_of_fixed fixed h.planned, sized_step effect h.sized,
    complete_at_rename (writerStep_effect hstep), ?_, h.bytes_step marks effect fixed⟩
  have hsizes := congrArg (fun sizes => (sizes.map UInt64.toNat).sum) (size_of_fixed fixed)
  simp only [List.map_map, Function.comp_def] at hsizes
  rw [hsizes]
  exact h.room

/-- Calls of other threads change neither side. -/
theorem Tally.called (h : Tally excess t) (called : Called t t')
    (bytes : t'.bytesReceived = t.bytesReceived) : Tally excess t' := by
  have hsame : ∀ {β : Type} (g : FileRx → β), (∀ f, g { f with writer := none } = g f) →
      t'.rx.map g = t.rx.map g := by
    intro β g hg
    obtain heq | heq := called.rx
    · rw [heq]
    · rw [heq, List.map_map]
      exact List.map_congr_left fun f _ => hg f
  refine ⟨planned_of_fixed called.fixed h.planned, fun i g hg => ?_, fun i k g hpc hg => ?_, ?_, ?_⟩
  · obtain ⟨f, writer, hf, rfl⟩ := called.file hg
    have sized := h.sized i f hf
    exact ⟨sized.size, sized.complete⟩
  · obtain ⟨f, writer, hf, rfl⟩ := called.file hg
    have hcomplete := h.atRename i k f (called.pc ▸ hpc) hf
    exact hcomplete
  · rw [hsame (·.size.toNat) fun _ => rfl]
    exact h.room
  · rw [bytes, hsame FileRx.storedBytes fun _ => rfl]
    exact h.bytes

/-! ## Start -/

/-- A file of a new engine, before anything is known of it. -/
structure New (f : FileRx) : Prop extends Planned f where
  verified : f.verified = false
  complete : f.complete = false
  bitmap : f.bitmap = BlockBitmap.reset f.blocks

theorem overcount_le (f : FileRx) : f.overcount ≤ kBlockPayloadSize := by
  unfold FileRx.overcount
  split
  · exact Nat.sub_le _ _
  · exact Nat.zero_le _

variable {io : StartIo} {resume : List ReceiverFileState} {f f' : FileRx} {bytes : UInt64}

/-- Nothing has been received of a file. -/
theorem counts_none (hv : f.verified = false) (hbitmap : f.bitmap = BlockBitmap.reset f.blocks) :
    f.storedBytes = 0 ∧ f.overcount = 0 := by
  have hempty : f.present = ∅ := by
    rw [FileRx.present, Finset.filter_eq_empty_iff]
    intro b _
    simp [hbitmap]
  constructor
  · rw [FileRx.storedBytes, hv, if_neg Bool.false_ne_true, hempty, Finset.sum_empty]
  · rw [FileRx.overcount, if_neg]
    rintro ⟨-, -, hlast⟩
    simp [hbitmap] at hlast

/-- What `Start` adds for a file. -/
theorem bytes_of_startFile (new : New f) (h : startFile io resume fs f = (fs', .ok (f', bytes))) :
    bytes.toNat = f'.storedBytes + f'.overcount := by
  unfold startFile at h
  simp only at h
  split at h
  · cases h
    simp [FileRx.storedBytes, FileRx.overcount, FileRx.LastEarly]
  · split at h
    · cases h
    · split at h
      · cases h
        obtain ⟨hstored, hover⟩ := counts_none (f := { f with complete := true }) new.verified new.bitmap
        rw [hstored, hover]
        rfl
      · split at h
        · cases h
        · rename_i disk inode _
          split at h
          · cases h
          · have fresh := counts_none (f := { f with writer := some (some inode) }) new.verified new.bitmap
            split at h
            · rename_i state _
              split at h
              · cases h
                -- The file that is counted is the started one, up to the cache of its bitmap.
                have hcount := toNat_bitmapBytes (f := { f with
                    writer := some (some inode), bitmap := f.bitmap.setRuns state.runs })
                  ⟨new.size, new.blocks⟩ ((BlockBitmap.setRuns_size ..).trans (new.bitmap ▸ rfl))
                  new.verified
                exact hcount
              · cases h
                rw [fresh.1, fresh.2]
                rfl
            · cases h
              rw [fresh.1, fresh.2]
              rfl

/-- The record of a file lists the block, and there is a part file. -/
def Lists (resume : List ReceiverFileState) (fs : Fs) (f : FileRx) (b : Nat) : Prop :=
  ∃ state, resumeEntry resume f.index = some state ∧ Covered (state.runs.map SackRun.span) b ∧
    fs.isRegular f.partPath = true

/-- The bitmap of a file that is not adopted is what its record lists. -/
theorem test_of_startFile (new : New f) (hnot : ¬Adopted resume fs f)
    (h : startFile io resume fs f = (fs', .ok (f', bytes))) :
    f'.verified = false ∧ f'.blocks = f.blocks ∧ f'.bitmap.size = f.blocks.toNat ∧
      ∀ b, f'.bitmap.test b = true ↔ b < f.blocks.toNat ∧ Lists resume fs f b := by
  have hnone : ∀ b, f.bitmap.test b = false := by
    rw [new.bitmap]
    exact BlockBitmap.reset_test _
  have hsize : f.bitmap.size = f.blocks.toNat := by
    rw [new.bitmap]
    rfl
  unfold startFile at h
  simp only at h
  split at h
  · rename_i hadopt
    rw [Bool.and_eq_true] at hadopt
    exact absurd hadopt hnot
  · split at h
    · cases h
    · rename_i mid hdir
      -- Making the directory of the part file leaves the files alone.
      have hpart : mid.isRegular f.partPath = fs.isRegular f.partPath := by
        rw [FileSystem.isRegular, FileSystem.isRegular, (FileSystem.sameFiles_ensureDir hdir).link]
      split at h
      · rename_i hzero
        cases h
        refine ⟨new.verified, rfl, hsize, fun b => ?_⟩
        simp [hnone, hzero]
      · split at h
        · cases h
        · split at h
          · cases h
          · split at h
            · rename_i state hstate
              split at h
              · rename_i hregular
                cases h
                refine ⟨new.verified, rfl, (BlockBitmap.setRuns_size ..).trans hsize, fun b => ?_⟩
                rw [BlockBitmap.afterAckBase_test, BlockBitmap.setRuns_test, hnone, hsize]
                constructor
                · rintro (hold | ⟨hlt, covered⟩)
                  · cases hold
                  · exact ⟨hlt, state, hstate, covered, hpart ▸ hregular⟩
                · rintro ⟨hlt, state', hstate', covered, -⟩
                  obtain rfl := Option.some.inj (hstate.symm.trans hstate')
                  exact .inr ⟨hlt, covered⟩
              · rename_i hregular
                cases h
                refine ⟨new.verified, rfl, hsize, fun b => ?_⟩
                rw [hnone]
                refine ⟨fun hfalse => absurd hfalse Bool.false_ne_true, ?_⟩
                rintro ⟨-, -, -, -, hpresent⟩
                exact absurd (hpart.trans hpresent) hregular
            · rename_i hstate
              cases h
              refine ⟨new.verified, rfl, hsize, fun b => ?_⟩
              rw [hnone]
              refine ⟨fun hfalse => absurd hfalse Bool.false_ne_true, ?_⟩
              rintro ⟨-, state, hsome, -, -⟩
              rw [hstate] at hsome
              cases hsome

/-- When a resumed file has its last block and lacks another one. -/
theorem lastEarly_of_startFile (new : New f) (h : startFile io resume fs f = (fs', .ok (f', bytes))) :
    f'.LastEarly ↔ ¬Adopted resume fs f ∧ Lists resume fs f (f.blocks.toNat - 1) ∧
      ∃ b < f.blocks.toNat, ¬Lists resume fs f b := by
  by_cases hadopted : Adopted resume fs f
  · have hverified := verified_of_adopted h hadopted
    refine ⟨fun hlast => ?_, fun hnot => absurd hadopted hnot.1⟩
    have hfalse := hlast.1
    rw [hverified] at hfalse
    cases hfalse
  · obtain ⟨hv, hblocks, hsize, htest⟩ := test_of_startFile new hadopted h
    have hcomplete : f'.bitmap.complete = false ↔ ∃ b < f.blocks.toNat, ¬Lists resume fs f b := by
      rw [← Bool.not_eq_true, BlockBitmap.complete_iff, hsize]
      push Not
      refine exists_congr fun b => and_congr_right fun hb => ?_
      rw [Ne, htest, and_iff_right hb]
    rw [FileRx.LastEarly, hcomplete, hblocks, htest]
    constructor
    · rintro ⟨-, hmissing, -, hlast⟩
      exact ⟨hadopted, hlast, hmissing⟩
    · rintro ⟨-, hlast, b, hb, hmissing⟩
      exact ⟨hv, ⟨b, hb, hmissing⟩, by omega, hlast⟩

theorem overcount_eq_zero_iff (h : Planned f) (hsize : f.bitmap.size = f.blocks.toNat) :
    f.overcount = 0 ↔ (f.LastEarly → f.size.toNat % kBlockPayloadSize = 0) := by
  unfold FileRx.overcount
  split
  · rename_i hearly
    have hlt := BlockBitmap.lt_size_of_test hearly.2.2
    rw [hsize] at hlt
    have hcount := h.count
    rw [toNat_blockLenFor, toNat_ofNat_block hlt, payloadSize_eq]
    refine ⟨fun hzero _ => by omega, fun hmod => ?_⟩
    have hmod := hmod hearly
    omega
  · rename_i hearly
    exact ⟨fun _ h => absurd h hearly, fun _ => rfl⟩

theorem planned_of_started (new : New f) (h : startFile io resume fs f = (fs', .ok (f', bytes))) :
    Planned f' ∧ f'.size = f.size := by
  obtain ⟨g, added, hr, started⟩ | ⟨_, hr, -⟩ := startFile_cases h
  · cases hr
    have hfixed := started.fixed
    simp only [FileRx.fixed, Prod.mk.injEq] at hfixed
    exact ⟨⟨hfixed.2.1 ▸ new.size, hfixed.2.1 ▸ hfixed.2.2.1 ▸ new.blocks⟩, hfixed.2.1⟩
  · cases hr

/-- The count after the file loop of `Start`, whether or not it gets to the end. -/
theorem bytes_of_startFiles {files : List FileRx} {err : Option Bytes} (new : ∀ f ∈ files, New f)
    (h : startFiles io resume files fs t = (fs', t', err))
    (room : t.bytesReceived.toNat +
      (files.map fun f => f.size.toNat + kBlockPayloadSize).sum < 2 ^ 64) :
    ∃ rx, t'.rx = t.rx ++ rx ∧
      t'.bytesReceived.toNat =
        t.bytesReceived.toNat + (rx.map fun f => f.storedBytes + f.overcount).sum ∧
      (rx.map fun f => f.size.toNat + kBlockPayloadSize).sum ≤
        (files.map fun f => f.size.toNat + kBlockPayloadSize).sum := by
  induction files generalizing fs t with
  | nil =>
    cases h
    exact ⟨[], by simp, rfl, le_rfl⟩
  | cons f rest ih =>
    rw [List.forall_mem_cons] at new
    rw [List.map_cons, List.sum_cons] at room ⊢
    rw [startFiles] at h
    split at h
    · cases h
      exact ⟨[], by simp, rfl, by simp⟩
    · rename_i mid g added hstart
      have hadded := bytes_of_startFile new.1 hstart
      obtain ⟨planned, hsize⟩ := planned_of_started new.1 hstart
      have hstored := storedBytes_le planned
      have hover := overcount_le g
      rw [hsize] at hstored
      have hsum : (t.bytesReceived + added).toNat = t.bytesReceived.toNat + added.toNat := by
        rw [UInt64.toNat_add, Nat.mod_eq_of_lt (by omega)]
      obtain ⟨rx, hrx, hbytes, hsizes⟩ := ih new.2 h (by dsimp only; omega)
      refine ⟨g :: rx, by simp [hrx], ?_, ?_⟩
      · dsimp only at hbytes
        rw [hbytes, List.map_cons, List.sum_cons]
        omega
      · rw [List.map_cons, List.sum_cons, hsize]
        omega

end Receiver

/-! ## Runs -/

section Runs

variable {l : Launch} {sha : Bytes → Bytes} {as : List ReceiverAct} {s : RxState} {j : Json}
  {ok : RxState → ReceiverAct → Prop}

/-- The part file of file `i` is resumed with its last block, which is shorter than the others, and
    without another one. -/
def Launch.Overcounts (l : Launch) (i : Nat) : Prop :=
  ∃ mf, l.manifest.files[i]? = some mf ∧ ¬l.Adopted i ∧
    l.Listed i ((blockCountFor mf.size).toNat - 1) ∧
    (∃ b < (blockCountFor mf.size).toNat, ¬l.Listed i b) ∧
    mf.size.toNat % kBlockPayloadSize ≠ 0

theorem new_freshFile (accepted : Manifest.fromJson j = .ok l.manifest) {i : Nat} {mf : ManifestFile}
    (hmf : l.manifest.files[i]? = some mf) : Receiver.New (l.freshFile i mf) := by
  have formed := Manifest.wellFormed_of_fromJson accepted
  exact ⟨⟨formed.files.size mf (List.mem_of_getElem? hmf), rfl⟩, rfl, rfl, rfl⟩

/-- The count when `Start` returns. -/
theorem bytes_of_start (accepted : Manifest.fromJson j = .ok l.manifest) :
    l.state.engine.bytesReceived.toNat =
        (l.state.engine.rx.map fun f => f.storedBytes + f.overcount).sum ∧
      (l.state.engine.rx.map fun f => f.size.toNat + kBlockPayloadSize).sum < 2 ^ 64 := by
  have new : ∀ f ∈ l.manifest.files.mapIdx (Receiver.freshFile l.saveDir l.names), Receiver.New f := by
    intro f hf
    obtain ⟨i, hi⟩ := List.mem_iff_getElem?.mp hf
    rw [List.getElem?_mapIdx, Option.map_eq_some_iff] at hi
    obtain ⟨mf, hmf, rfl⟩ := hi
    exact new_freshFile accepted hmf
  have hlimit : ((l.manifest.files.mapIdx (Receiver.freshFile l.saveDir l.names)).map fun f =>
      f.size.toNat + kBlockPayloadSize).sum < 2 ^ 64 := by
    have hcount := (Manifest.wellFormed_of_fromJson accepted).count
    have hle : ∀ n ∈ (l.manifest.files.mapIdx (Receiver.freshFile l.saveDir l.names)).map fun f =>
        f.size.toNat + kBlockPayloadSize, n ≤ kMaxFileSize + kBlockPayloadSize := by
      refine List.forall_mem_map.mpr fun f hf => ?_
      have hsize := (new f hf).size
      omega
    have hsum := List.sum_le_card_nsmul _ _ hle
    rw [List.length_map, List.length_mapIdx, smul_eq_mul] at hsum
    have hroom : kMaxFilesPerTransfer * (kMaxFileSize + kBlockPayloadSize) < 2 ^ 64 := by decide
    exact hsum.trans_lt ((Nat.mul_le_mul_right _ hcount).trans_lt hroom)
  have hidle : ∀ idle : Receiver, idle.rx = [] → idle.bytesReceived = 0 →
      idle.bytesReceived.toNat = (idle.rx.map fun f => f.storedBytes + f.overcount).sum ∧
        (idle.rx.map fun f => f.size.toNat + kBlockPayloadSize).sum < 2 ^ 64 := by
    intro idle hrx hbytes
    rw [hrx, hbytes]
    exact ⟨rfl, by decide⟩
  have hfiles : ∀ {fs fs' : Fs} {created : List Path} {t : Receiver} {err : Option Bytes},
      Receiver.startFiles l.io l.resume (l.manifest.files.mapIdx (Receiver.freshFile l.saveDir l.names))
        fs { rx := [], createdDirs := created, pc := .exited } = (fs', t, err) →
      t.bytesReceived.toNat = (t.rx.map fun f => f.storedBytes + f.overcount).sum ∧
        (t.rx.map fun f => f.size.toNat + kBlockPayloadSize).sum < 2 ^ 64 := by
    intro fs fs' created t err h
    obtain ⟨rx, hrx, hbytes, hsizes⟩ := Receiver.bytes_of_startFiles new h (by simpa using hlimit)
    rw [List.nil_append] at hrx
    rw [hrx]
    exact ⟨by simpa using hbytes, hsizes.trans_lt hlimit⟩
  rw [Launch.state, Launch.start, Receiver.start]
  dsimp only
  split
  · exact hidle _ rfl rfl
  · split
    · exact hidle _ rfl rfl
    · split
      · rename_i h
        exact hfiles h
      · rename_i h
        have hcounted := hfiles h
        exact hcounted

/-- How much `Start` counts too much. -/
def Launch.overcount (l : Launch) : Nat := (l.state.engine.rx.map FileRx.overcount).sum

theorem planned_of_start (accepted : Manifest.fromJson j = .ok l.manifest) {i : Nat} {f : FileRx}
    (hf : l.state.engine.rx[i]? = some f) : Planned f := by
  have hstart : Receiver.start l.io l.manifest l.saveDir l.names l.resume l.fs =
    (l.state.fs, l.state.engine, l.start.2.2) := rfl
  obtain ⟨mf, mid, bytes, hmf, hfile⟩ := Receiver.files_of_start hstart hf
  exact (Receiver.planned_of_started (new_freshFile accepted hmf) hfile).1

theorem tally_start (accepted : Manifest.fromJson j = .ok l.manifest) :
    Receiver.Tally l.overcount l.state.engine := by
  have hstart : Receiver.start l.io l.manifest l.saveDir l.names l.resume l.fs =
    (l.state.fs, l.state.engine, l.start.2.2) := rfl
  obtain ⟨hbytes, hroom⟩ := bytes_of_start accepted
  refine ⟨fun f hf => ?_, fun i f hf => (Receiver.ready_of_start l hf).sized, fun i k f hpc => ?_, ?_, ?_⟩
  · obtain ⟨i, hi⟩ := List.mem_iff_getElem?.mp hf
    exact planned_of_start accepted hi
  · obtain ⟨-, -, hexited | htop⟩ := Receiver.idle_of_start hstart
    · rw [hexited] at hpc
      cases hpc
    · rw [htop] at hpc
      cases hpc
  · have hover : l.overcount ≤ (l.state.engine.rx.map fun _ => kBlockPayloadSize).sum :=
      List.sum_le_sum fun f _ => Receiver.overcount_le f
    rw [List.sum_map_add] at hroom
    omega
  · rw [hbytes, List.sum_map_add]
    rfl

/-- The difference between the count and the files stays what it was. -/
theorem tally_run (accepted : Manifest.fromJson j = .ok l.manifest)
    (run : (l.state.machine sha).Run ok as s) : Receiver.Tally l.overcount s.engine := by
  induction run with
  | init => exact tally_start accepted
  | @step as s a s' hrun _ hstep ih =>
    obtain ⟨⟨s', out⟩, hact, rfl⟩ := Option.map_eq_some_iff.mp hstep
    cases a with
    | writer io =>
      obtain ⟨⟨t', fs', told⟩, hwriter, heq⟩ := Option.map_eq_some_iff.mp hact
      cases heq
      exact ih.step (marks_of_run hrun) hwriter
    | block wire =>
      have called := (called_of_step hact (by simp)).1
      cases hact
      refine ih.called called ?_
      unfold Receiver.onBlock
      split
      · rfl
      · split
        · rfl
        · split <;> rfl
    | fileDone index hash =>
      have called := (called_of_step hact (by simp)).1
      cases hact
      exact ih.called called rfl
    | stop =>
      have called := (called_of_step hact (by simp)).1
      cases hact
      exact ih.called called rfl
    | close =>
      have called := (called_of_step hact (by simp)).1
      rw [RxState.step] at hact
      split at hact
      · cases hact
        exact ih.called called rfl
      · cases hact

/-- Which files make `Start` count too much. -/
theorem overcount_eq_zero_iff (accepted : Manifest.fromJson j = .ok l.manifest) :
    l.overcount = 0 ↔ ∀ i < l.state.engine.rx.length, ¬l.Overcounts i := by
  have hfile : ∀ (i : Nat) (f : FileRx), l.state.engine.rx[i]? = some f →
      (f.overcount = 0 ↔ ¬l.Overcounts i) := by
    intro i f hf
    have hlaunch : Receiver.start l.io l.manifest l.saveDir l.names l.resume l.fs =
      (l.state.fs, l.state.engine, l.start.2.2) := rfl
    obtain ⟨mf, mid, bytes, hmf, hstart⟩ := Receiver.files_of_start hlaunch hf
    have new := new_freshFile accepted hmf
    obtain ⟨planned, hsize⟩ := Receiver.planned_of_started new hstart
    have hlists : ∀ b, l.Listed i b ↔ Receiver.Lists l.resume (l.diskAt i) (l.freshFile i mf) b := by
      intro b
      constructor
      · rintro ⟨mf', state, hmf', entry, covered, part⟩
        obtain rfl := Option.some.inj (hmf.symm.trans hmf')
        exact ⟨state, entry, covered, part⟩
      · rintro ⟨state, entry, covered, part⟩
        exact ⟨mf, state, hmf, entry, covered, part⟩
    have hadopted : l.Adopted i ↔ Receiver.Adopted l.resume (l.diskAt i) (l.freshFile i mf) := by
      constructor
      · rintro ⟨mf', hmf', adopted⟩
        obtain rfl := Option.some.inj (hmf.symm.trans hmf')
        exact adopted
      · exact fun adopted => ⟨mf, hmf, adopted⟩
    rw [Receiver.overcount_eq_zero_iff planned (Receiver.ready_of_start l hf).sized.size,
      Receiver.lastEarly_of_startFile new hstart, hsize]
    constructor
    · rintro hexact ⟨mf', hmf', hnot, hlast, ⟨b, hb, hmissing⟩, hshort⟩
      obtain rfl := Option.some.inj (hmf.symm.trans hmf')
      exact hshort (hexact ⟨mt hadopted.mpr hnot, (hlists _).mp hlast, b, hb, mt (hlists b).mpr hmissing⟩)
    · rintro hnone ⟨hnot, hlast, b, hb, hmissing⟩
      by_contra hshort
      exact hnone ⟨mf, hmf, mt hadopted.mp hnot, (hlists _).mpr hlast,
        ⟨b, hb, mt (hlists b).mp hmissing⟩, hshort⟩
  rw [Launch.overcount, List.sum_eq_zero_iff, List.forall_mem_map]
  constructor
  · intro hall i hi
    have hf := List.getElem?_eq_getElem hi
    exact (hfile i _ hf).mp (hall _ (List.getElem_mem hi))
  · intro hall f hf
    obtain ⟨i, hi⟩ := List.mem_iff_getElem?.mp hf
    exact (hfile i f hi).mpr (hall i (List.getElem?_eq_some_iff.mp hi).1)

/-- In every state of a run the count is right exactly if `Start` has resumed no part file with its last
    block early. -/
theorem tallied_iff (accepted : Manifest.fromJson j = .ok l.manifest)
    (run : (l.state.machine sha).Run ok as s) :
    s.engine.Tallied ↔ ∀ i < l.state.engine.rx.length, ¬l.Overcounts i := by
  have tally := tally_run accepted run
  rw [← overcount_eq_zero_iff accepted, Receiver.Tallied, tally.bytes]
  omega

end Runs

theorem tallied_oneByte : ∃ s, (oneByteLaunch.state.machine id).Run Machine.anyStep oneByteActs s ∧
    s.engine.bytesReceived = 1 ∧
    (s.engine.Tallied ↔ ∀ i < oneByteLaunch.state.engine.rx.length, ¬oneByteLaunch.Overcounts i) := by
  have hfacts : ((oneByteLaunch.state.machine id).exec oneByteActs oneByteLaunch.state).map
      (fun s => s.engine.bytesReceived) = some 1 := by
    decide +kernel
  obtain ⟨s, hexec, hbytes⟩ := Option.map_eq_some_iff.mp hfacts
  have run := Machine.run_of_exec hexec
  exact ⟨s, run, hbytes, tallied_iff (j := oneByteLaunch.manifest.toJson) (by decide +kernel) run⟩

/-- A file of two blocks, the second of one byte, is resumed with its second block. -/
def lastEarlyLaunch : Launch :=
  { oneByteLaunch with
    manifest := ⟨[⟨ascii "a", 1101⟩], [], [⟨ascii "a", false⟩], 1101⟩
    resume := [⟨0, [⟨1, 1⟩], false⟩]
    fs := (FileSystem.empty.makeDirs [ascii "save"]).create [ascii "save", ascii "a.ctpart"] }

/-- One byte is there, and 1100 are counted. -/
theorem not_tallied : ¬ ∀ (l : Launch) (j : Json) (sha : Bytes → Bytes) (as : List ReceiverAct)
    (s : RxState), Manifest.fromJson j = .ok l.manifest →
      (l.state.machine sha).Run Machine.anyStep as s → s.engine.Tallied := by
  intro h
  have hfacts : lastEarlyLaunch.state.engine.bytesReceived.toNat = 1100 ∧
      (lastEarlyLaunch.state.engine.rx.map FileRx.storedBytes).sum = 1 := by
    decide +kernel
  have htallied := h lastEarlyLaunch lastEarlyLaunch.manifest.toJson id [] lastEarlyLaunch.state
    (by decide +kernel) .init
  rw [Receiver.Tallied, hfacts.1, hfacts.2] at htallied
  cases htallied

end CrossTransfer.Transfer
