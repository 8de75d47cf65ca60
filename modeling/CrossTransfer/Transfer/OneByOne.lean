import CrossTransfer.Library.FileFrame
import CrossTransfer.Transfer.MarkedBlocks

/-! # Blocks one by one

`HandleBatch` collects blocks that follow one another and writes them together. `Parts.blocks` says
what this is to amount to: every block is accepted, written, marked and, if it completes its file,
followed by the verification of that file, before the next one is looked at. It knows the files
without the bookkeeping of SACKs, the disk, and what the file operations of the verifications are
going to do (`ahead`); it has a result as long as no hash is wrong and every write finds an open file.

A run that is written is what its blocks are one by one (`write_extend`): none but its last one can
complete the file.
-/

namespace CrossTransfer.Transfer

open CrossTransfer.Library

instance (f : FileRx) : Decidable (Receiver.Due f) :=
  decidable_of_iff _ Receiver.due_iff.symm

instance (f : FileRx) (p : Pending) : Decidable (Fresh f p) :=
  decidable_of_iff (f.verified = false ∧ p.block < f.blocks ∧ p.len = blockLenFor f.size p.block ∧
      f.bitmap.test p.block.toNat = false)
    ⟨fun h => ⟨h.1, h.2.1, h.2.2.1, h.2.2.2⟩, fun h => ⟨h.verified, h.inside, h.len, h.missing⟩⟩

/-! ## Processing one block -/

/-- The files and the disk, and what the owner has been told of verified files. -/
structure Parts where
  files : List FileRx
  fs : Fs
  /-- Whether `Stop` has been called, and the outcome, at each file operation of a verification. -/
  ahead : List (Bool × Io)
  told : List UInt16

namespace Parts

variable (sha : Bytes → Bytes) (s : Parts)

/-- The part file takes its final name. -/
def rename (i : Nat) : Option Parts :=
  match s.files[i]?, s.ahead with
  | none, _ => some s
  | some _, [] => none
  | some f, (_, io) :: ahead =>
    match s.fs.rename f.partPath f.finalPath io.ok with
    | none => some { s with ahead := ahead }
    | some fs => some {
        files := s.files.set i { f with verified := true, verifying := false }
        fs := fs
        ahead := ahead
        told := s.told ++ [f.index] }

/-- A complete file is hashed; `none` if the hash is wrong. -/
def verify (i : Nat) : Option Parts :=
  match s.files[i]? with
  | none => some s
  | some f =>
    if Receiver.Due f then
      match s.ahead with
      | [] => none
      | (true, io) :: ahead => some { s with
          files := s.files.set i { f with verifying := false, writer := none }
          fs := ((Receiver.hashFile io s.fs f).map (·.1)).getD s.fs
          ahead := ahead }
      | (false, io) :: ahead =>
        let left := { s with
          files := s.files.set i { f with verifying := true, writer := none }
          ahead := ahead }
        match Receiver.hashFile io s.fs f with
        | none => some left
        | some (fs, bytes) =>
          if sha bytes = f.expectedSha256 then ({ left with fs := fs } : Parts).rename i else none
    else some s

/-- The state after blocks have been written to the open file `inode` and marked. -/
def written (f : FileRx) (inode : Nat) (run : BlockRun) : Parts := { s with
  files := s.files.set run.file.toNat (Receiver.markRun f run).core
  fs := s.fs.writeAt inode (run.first.toNat * kBlockPayloadSize) run.data }

/-- Write, mark, verify; `none` if the file is not open. -/
def write (run : BlockRun) : Option Parts :=
  match s.files[run.file.toNat]? with
  | none => some s
  | some f =>
    match f.writer with
    | some (some inode) =>
      let s := s.written f inode run
      if (Receiver.markRun f run).complete then verify sha s run.file.toNat else some s
    | _ => none

/-- Accept, write, mark, verify. -/
def block (p : Pending) : Option Parts :=
  match s.files[p.file.toNat]? with
  | none => some s
  | some f => if Fresh f p then s.write sha (Receiver.extendRun none p) else some s

def blocks (ps : List Pending) : Option Parts := ps.foldlM (block sha) s

theorem blocks_append (ps qs : List Pending) :
    s.blocks sha (ps ++ qs) = (s.blocks sha ps).bind (blocks sha · qs) :=
  List.foldlM_append

theorem blocks_single (p : Pending) : s.blocks sha [p] = s.block sha p := by
  simp [blocks]

end Parts

/-! ## A block that is not new stays so -/

/-- What does not change for the worse: a file gets more marks and is verified. -/
structure Later (f g : FileRx) : Prop where
  size : g.size = f.size
  blocks : g.blocks = f.blocks
  verified : f.verified = true → g.verified = true
  marked : ∀ b, f.bitmap.test b = true → g.bitmap.test b = true

variable {f g h : FileRx} {p : Pending}

theorem Later.refl (f : FileRx) : Later f f := ⟨rfl, rfl, id, fun _ => id⟩

theorem Later.trans (h₁ : Later f g) (h₂ : Later g h) : Later f h :=
  ⟨h₂.size.trans h₁.size, h₂.blocks.trans h₁.blocks, fun hv => h₂.verified (h₁.verified hv),
    fun b hb => h₂.marked b (h₁.marked b hb)⟩

theorem Later.stale (later : Later f g) (fresh : Fresh g p) : Fresh f p := by
  refine ⟨?_, later.blocks ▸ fresh.inside, later.size ▸ fresh.len, ?_⟩
  · by_contra hv
    have hverified := later.verified (by simpa using hv)
    rw [fresh.verified] at hverified
    cases hverified
  · by_contra hb
    have hmarked := later.marked _ (by simpa using hb)
    rw [fresh.missing] at hmarked
    cases hmarked

namespace Parts

variable {sha : Bytes → Bytes} {s t : Parts} {i j : Nat} {run : BlockRun}

/-- Every file of `s` is in `t`, not for the worse. -/
def Grows (s t : Parts) : Prop :=
  ∀ (j : Nat) (g : FileRx), t.files[j]? = some g → ∃ f, s.files[j]? = some f ∧ Later f g

theorem Grows.refl (s : Parts) : Grows s s := fun _ g hg => ⟨g, hg, .refl g⟩

theorem Grows.trans {u : Parts} (h₁ : Grows s t) (h₂ : Grows t u) : Grows s u := by
  intro j h hh
  obtain ⟨g, hg, later⟩ := h₂ j h hh
  obtain ⟨f, hf, before⟩ := h₁ j g hg
  exact ⟨f, hf, before.trans later⟩

theorem grows_set (hf : s.files[i]? = some f) (files : t.files = s.files.set i g)
    (later : Later f g) : Grows s t := by
  intro j h hh
  rw [files, List.getElem?_set] at hh
  split at hh
  · rename_i heq
    subst heq
    split at hh
    · cases hh
      exact ⟨f, hf, later⟩
    · cases hh
  · exact ⟨h, hh, .refl h⟩

theorem grows_rename (h : s.rename i = some t) : Grows s t := by
  unfold rename at h
  split at h
  · cases h
    exact .refl s
  · cases h
  · rename_i hf _
    split at h
    · cases h
      exact .refl _
    · cases h
      exact grows_set hf rfl ⟨rfl, rfl, fun _ => rfl, fun _ => id⟩

theorem verify_idle (idle : ∀ f, s.files[i]? = some f → ¬Receiver.Due f) : s.verify sha i = some s := by
  unfold verify
  split
  · rfl
  · rename_i f hf
    exact if_neg (idle f hf)

theorem verify_stopped {io : Io} {ahead : List (Bool × Io)} (hf : s.files[i]? = some f)
    (due : Receiver.Due f) (hahead : s.ahead = (true, io) :: ahead) : s.verify sha i = some { s with
      files := s.files.set i { f with verifying := false, writer := none }
      fs := ((Receiver.hashFile io s.fs f).map (·.1)).getD s.fs
      ahead := ahead } := by
  rw [verify, hf]
  dsimp only
  rw [if_pos due, hahead]

/-- A verification that goes on after `Stop` has been looked at. -/
theorem verify_due {io : Io} {ahead : List (Bool × Io)} (hf : s.files[i]? = some f)
    (due : Receiver.Due f) (hahead : s.ahead = (false, io) :: ahead) : s.verify sha i =
      let left := { s with
        files := s.files.set i { f with verifying := true, writer := none }
        ahead := ahead }
      match Receiver.hashFile io s.fs f with
      | none => some left
      | some (fs, bytes) =>
        if sha bytes = f.expectedSha256 then ({ left with fs := fs } : Parts).rename i else none := by
  rw [verify, hf]
  dsimp only
  rw [if_pos due, hahead]

theorem grows_verify (h : s.verify sha i = some t) : Grows s t := by
  unfold verify at h
  split at h
  · cases h
    exact .refl s
  · rename_i f hf
    split at h
    swap
    · cases h
      exact .refl s
    split at h
    · cases h
    · cases h
      exact grows_set hf rfl ⟨rfl, rfl, id, fun _ => id⟩
    · dsimp only at h
      split at h
      · cases h
        exact grows_set hf rfl ⟨rfl, rfl, id, fun _ => id⟩
      · split at h
        · refine Grows.trans ?_ (grows_rename h)
          exact grows_set hf rfl ⟨rfl, rfl, id, fun _ => id⟩
        · cases h

theorem later_markRun (f : FileRx) (run : BlockRun) : Later f (Receiver.markRun f run).core :=
  ⟨rfl, rfl, id, (Receiver.setBlocks_grows run.blocks f.bitmap).2⟩

theorem write_open {inode : Nat} (hf : s.files[run.file.toNat]? = some f)
    (writer : f.writer = some (some inode)) : s.write sha run =
      if (Receiver.markRun f run).complete then verify sha (s.written f inode run) run.file.toNat
      else some (s.written f inode run) := by
  rw [write, hf]
  dsimp only
  rw [writer]

theorem write_closed (hf : s.files[run.file.toNat]? = some f)
    (closed : ∀ inode, f.writer ≠ some (some inode)) : s.write sha run = none := by
  rw [write, hf]
  dsimp only
  split
  · rename_i inode hwriter
    exact absurd hwriter (closed inode)
  · rfl

theorem grows_write (h : s.write sha run = some t) : Grows s t := by
  unfold write at h
  split at h
  · cases h
    exact .refl s
  · rename_i f hf
    split at h
    · dsimp only at h
      split at h
      · exact (grows_set hf rfl (later_markRun f run)).trans (grows_verify h)
      · cases h
        exact grows_set hf rfl (later_markRun f run)
    · cases h

/-- A block that is not new in a file is not new later. -/
theorem block_stale (grows : Grows s t) (stale : ∀ f, s.files[p.file.toNat]? = some f → ¬Fresh f p) :
    t.block sha p = some t := by
  unfold block
  split
  · rfl
  · rename_i g hg
    obtain ⟨f, hf, later⟩ := grows _ g hg
    exact if_neg fun fresh => stale f hf (later.stale fresh)

end Parts

/-! ## A run of blocks -/

/-- The bitmap of a file has a bit for every block, and all are set if the file is complete. -/
structure Sized (f : FileRx) : Prop where
  size : f.bitmap.size = f.blocks.toNat
  complete : f.complete = true → f.verified = true ∨ f.bitmap.complete = true

theorem Sized.of_core (h : Sized f) (hcore : g.core = f.core) : Sized g := by
  have hsize := congrArg (fun x : FileRx => x.bitmap.size) hcore
  have hblocks := congrArg (fun x : FileRx => x.blocks.toNat) hcore
  have hcomplete := congrArg FileRx.complete hcore
  have hverified := congrArg FileRx.verified hcore
  have hbits := congrArg (fun x : FileRx => x.bitmap.complete) hcore
  refine ⟨Eq.trans hsize (h.size.trans hblocks.symm), fun hg => ?_⟩
  exact (h.complete (Eq.trans hcomplete.symm hg)).imp (Eq.trans hverified) (Eq.trans hbits)

/-- A file with a missing block is not complete. -/
theorem Sized.missing (h : Sized f) (fresh : Fresh f p) : f.complete = false := by
  by_contra hcomplete
  obtain hv | hall := h.complete (by simpa using hcomplete)
  · rw [fresh.verified] at hv
    cases hv
  · have hinside : p.block.toNat < f.bitmap.size := by
      rw [h.size]
      exact UInt32.lt_iff_toNat_lt.mp fresh.inside
    have htest := (BlockBitmap.complete_iff _).mp hall _ hinside
    rw [fresh.missing] at htest
    cases htest

theorem Sized.markRun (h : Sized f) (run : BlockRun) : Sized (Receiver.markRun f run) := by
  obtain ⟨hsize, grows⟩ := Receiver.setBlocks_grows run.blocks f.bitmap
  refine ⟨hsize.trans h.size, fun hcomplete => ?_⟩
  obtain hold | hnew := Bool.or_eq_true_iff.mp hcomplete
  · refine (h.complete hold).imp_right fun hall => (BlockBitmap.complete_iff _).mpr fun i hi => ?_
    exact grows i ((BlockBitmap.complete_iff _).mp hall i (hsize ▸ hi))
  · exact .inr hnew

variable {run : BlockRun} {ps : List Pending}

/-- The next block of a run comes after all others. -/
theorem Collected.next (h : Collected f (Receiver.extendRun (some run) p) (ps ++ [p]))
    (old : Collected f run ps) : p.block.toNat * kBlockPayloadSize =
      run.first.toNat * kBlockPayloadSize + run.data.length ∧ p.block ∉ run.blocks := by
  have hblock : p.block.toNat = run.first.toNat + ps.length := h.order ps.length p (by simp)
  have hfull : ∀ q ∈ ps, q.payload.length = kBlockPayloadSize := fun q hq =>
    h.full q (by rw [List.dropLast_concat]; exact hq)
  refine ⟨?_, fun hmem => ?_⟩
  · rw [hblock, Nat.add_mul, old.data, List.length_flatMap, List.map_congr_left hfull,
      List.map_const', List.sum_replicate, smul_eq_mul]
  · obtain ⟨q, hq, heq⟩ := old.mem_blocks hmem
    obtain ⟨j, hj⟩ := List.mem_iff_getElem?.mp hq
    have horder := old.order j q hj
    have hlt := (List.getElem?_eq_some_iff.mp hj).1
    rw [heq] at horder
    omega

/-- A block that is still missing when a run has been marked. -/
theorem Fresh.markRun (fresh : Fresh f p) (other : p.block ∉ run.blocks) :
    Fresh (Receiver.markRun f run) p := by
  refine ⟨fresh.verified, fresh.inside, fresh.len, ?_⟩
  by_contra hb
  obtain hold | ⟨b, hmem, hb⟩ := Receiver.setBlocks_test run.blocks f.bitmap (Bool.eq_true_of_not_eq_false hb)
  · rw [fresh.missing] at hold
    cases hold
  · exact other (UInt32.toNat_inj.mp hb ▸ hmem)

theorem setBlocks_append (bitmap : BlockBitmap) (blocks more : List UInt32) :
    Receiver.setBlocks bitmap (blocks ++ more) =
      Receiver.setBlocks (Receiver.setBlocks bitmap blocks) more :=
  List.foldl_append

/-- Marking a run and then its next block is marking the longer run. -/
theorem markRun_extend (incomplete : (Receiver.markRun f run).complete = false) :
    (Receiver.markRun (Receiver.markRun f run).core (Receiver.extendRun none p)).core =
      (Receiver.markRun f (Receiver.extendRun (some run) p)).core := by
  have hcore : (Receiver.markRun f run).core.core = (Receiver.markRun f run).core := rfl
  rw [Receiver.core_markRun hcore]
  have hold : f.complete = false := (Bool.or_eq_false_iff.mp incomplete).1
  have hbitmap : Receiver.setBlocks (Receiver.markRun f run).bitmap [p.block] =
      Receiver.setBlocks f.bitmap (run.blocks ++ [p.block]) := (setBlocks_append ..).symm
  have hmark : ∀ (f : FileRx) (run : BlockRun), (Receiver.markRun f run).core = { f.core with
      bitmap := (Receiver.setBlocks f.bitmap run.blocks).uncached
      complete := f.complete || (Receiver.setBlocks f.bitmap run.blocks).complete } := fun _ _ => rfl
  have hrun : (Receiver.extendRun (some run) p).blocks = run.blocks ++ [p.block] := rfl
  have hlast : (Receiver.extendRun none p).blocks = [p.block] := rfl
  rw [hmark, hmark f (Receiver.extendRun (some run) p), hrun, hlast, hbitmap, incomplete, hold]
  rfl

/-- Writing a run is writing its blocks but the last, and then the last one. -/
theorem Parts.write_extend {sha : Bytes → Bytes} {s : Parts} (hf : s.files[run.file.toNat]? = some f)
    (sized : Sized f) (old : Collected f run ps) (fresh : Fresh f p)
    (extended : Collected f (Receiver.extendRun (some run) p) (ps ++ [p])) :
    s.write sha (Receiver.extendRun (some run) p) = (s.write sha run).bind (block sha · p) := by
  obtain ⟨hoffset, hother⟩ := extended.next old
  have hfile : p.file = run.file := extended.file p (by simp)
  have later := fresh.markRun hother
  have incomplete : (Receiver.markRun f run).complete = false := (sized.markRun run).missing later
  have hlong : s.files[(Receiver.extendRun (some run) p).file.toNat]? = some f := hf
  by_cases opened : ∃ inode, f.writer = some (some inode)
  swap
  · have closed : ∀ inode, f.writer ≠ some (some inode) := fun inode h => opened ⟨inode, h⟩
    rw [write_closed hf closed, write_closed hlong closed]
    rfl
  obtain ⟨inode, hwriter⟩ := opened
  have hi := (List.getElem?_eq_some_iff.mp hf).1
  -- The run does not complete the file, so its last block comes to the file as it is then.
  have hmarked : (s.written f inode run).files[p.file.toNat]? = some (Receiver.markRun f run).core := by
    rw [hfile]
    exact List.getElem?_set_self hi
  have hnext : (s.written f inode run).files[(Receiver.extendRun none p).file.toNat]? =
      some (Receiver.markRun f run).core := hmarked
  have hcore := markRun_extend (p := p) incomplete
  have hsame : (s.written f inode run).written (Receiver.markRun f run).core inode
      (Receiver.extendRun none p) = s.written f inode (Receiver.extendRun (some run) p) := by
    have hplace : (Receiver.extendRun none p).first.toNat * kBlockPayloadSize =
        run.first.toNat * kBlockPayloadSize + run.data.length := hoffset
    have hindex : (Receiver.extendRun none p).file.toNat = run.file.toNat := congrArg UInt16.toNat hfile
    unfold written
    rw [hcore, hplace, hindex]
    dsimp only
    rw [FileSystem.writeAt_append, List.set_set]
    rfl
  have hshort : s.write sha run = some (s.written f inode run) := by
    rw [write_open hf hwriter, if_neg (by rw [incomplete]; exact Bool.false_ne_true)]
  have hflag : (Receiver.markRun (Receiver.markRun f run).core (Receiver.extendRun none p)).complete =
      (Receiver.markRun f (Receiver.extendRun (some run) p)).complete :=
    (congrArg FileRx.complete hcore :)
  have still : Fresh (Receiver.markRun f run).core p := later.of_core rfl
  rw [hshort, Option.bind_some, block, hmarked]
  dsimp only
  rw [if_pos still, write_open hlong hwriter, write_open hnext hwriter, hsame, hflag]
  rw [show (Receiver.extendRun none p).file = run.file from hfile]
  rfl

end CrossTransfer.Transfer
