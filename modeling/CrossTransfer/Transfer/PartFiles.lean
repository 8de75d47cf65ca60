import CrossTransfer.Library.EventLog
import CrossTransfer.Library.FileFrame
import CrossTransfer.Transfer.MarkedBlocks

/-! # The bytes of a part file

An honest sender sends the blocks of the files it has announced, and their hashes (`Honest`). While
such a transfer runs, a part file that was no longer than the file when `Start` found it is as long as
the file (`Filled`), and wherever something has been written to it since it was opened, it agrees with
the sender's file. So when every block has been written it is the sender's file, and its hash is the
announced one (`complete_part_is_content`).

`EnsureSize` makes a part file longer and never shorter. A longer one keeps its tail, and its hash is
wrong however often the blocks come (`not_complete_part_is_content`).
-/

namespace CrossTransfer.Transfer

open CrossTransfer.Library
open FileSystem (Only Agrees)

/-! ## What an honest sender sends -/

/-- The files that a manifest describes; no accepted manifest has a larger one. -/
structure Describes (m : Manifest) (contents : List Bytes) : Prop where
  length : contents.length = m.files.length
  size : ∀ (i : Nat) (mf : ManifestFile) (c : Bytes), m.files[i]? = some mf → contents[i]? = some c →
    c.length = mf.size.toNat ∧ mf.size.toNat ≤ kMaxFileSize

/-- The datagrams hold blocks of the files, and the announced hashes are theirs. -/
structure Honest (sha : Bytes → Bytes) (contents : List Bytes) (as : List ReceiverAct) : Prop where
  blocks : ∀ wire h payload, ReceiverAct.block wire ∈ as → decodeBlock wire = some (h, payload) →
    ∃ c, contents[h.fileIndex.toNat]? = some c ∧ payload = blockOf c h.blockIndex.toNat
  hashes : ∀ index hash, ReceiverAct.fileDone index hash ∈ as →
    ∃ c, contents[index.toNat]? = some c ∧ hash = sha c

variable {sha : Bytes → Bytes} {contents : List Bytes} {as bs : List ReceiverAct} {c : Bytes}
  {f g : FileRx} {run : BlockRun} {ps : List Pending} {p : Pending} {i j inode : Nat}

theorem Honest.mono (h : Honest sha contents bs) (fewer : ∀ a ∈ as, a ∈ bs) : Honest sha contents as :=
  ⟨fun wire header payload hmem => h.blocks wire header payload (fewer _ hmem),
    fun index hash hmem => h.hashes index hash (fewer _ hmem)⟩

theorem Honest.payload (h : Honest sha contents as) (received : Received as p)
    (hc : contents[p.file.toNat]? = some c) : p.payload = blockOf c p.block.toNat := by
  obtain ⟨wire, header, payload, hmem, hdecode, rfl⟩ := received
  obtain ⟨c', hc', hpayload⟩ := h.blocks wire header payload hmem hdecode
  obtain rfl := Option.some.inj (hc'.symm.trans hc)
  exact hpayload

/-- Consecutive blocks are a piece of the file. -/
theorem flatMap_blockOf (content : Bytes) (first n : Nat) :
    (List.range n).flatMap (fun j => blockOf content (first + j)) =
      (content.drop (first * kBlockPayloadSize)).take (n * kBlockPayloadSize) := by
  have hblock : (fun j => blockOf content (first + j)) =
      blockOf (content.drop (first * kBlockPayloadSize)) := by
    funext j
    rw [blockOf, blockOf, List.drop_drop, Nat.add_mul]
  rw [hblock, take_blocks]

/-- The data of a run is a piece of the sender's file. -/
theorem Collected.piece (h : Collected f run ps) (honest : Honest sha contents as)
    (received : ∀ p ∈ ps, Received as p) (hc : contents[run.file.toNat]? = some c) :
    run.data = (c.drop (run.first.toNat * kBlockPayloadSize)).take run.data.length := by
  have hpayloads : ps.map (·.payload) =
      (List.range ps.length).map fun j => blockOf c (run.first.toNat + j) := by
    apply List.ext_getElem (by simp)
    intro j hj _
    rw [List.length_map] at hj
    have hmem : ps[j] ∈ ps := List.getElem_mem hj
    have hpayload := honest.payload (c := c) (received _ hmem) (by rw [h.file _ hmem]; exact hc)
    rw [h.order j _ (List.getElem?_eq_getElem hj)] at hpayload
    rw [List.getElem_map, List.getElem_map, List.getElem_range, hpayload]
  have hdata : run.data = (c.drop (run.first.toNat * kBlockPayloadSize)).take
      (ps.length * kBlockPayloadSize) := by
    rw [h.data, List.flatMap_def, hpayloads, ← List.flatMap_def, flatMap_blockOf]
  rw [hdata, List.length_take, List.take_eq_take_min]

/-! ## The files that a step names -/

/-- The file that an event is about. -/
def DiskEvent.file : DiskEvent → Nat
  | .opened file _ => file
  | .reset file => file
  | .wrote file _ _ _ => file

/-- The part file of a file that is being received, and its writer. -/
def Tied (fs : Fs) (f : FileRx) : Prop :=
  f.verified = false → f.blocks ≠ 0 →
    ∃ inode, fs.link f.partPath = some inode ∧ ∀ n, f.writer = some (some n) → n = inode

theorem Tied.of_core {fs : Fs} (h : Tied fs f) (hcore : g.core = f.core) : Tied fs g := by
  have hverified := congrArg FileRx.verified hcore
  have hblocks := congrArg FileRx.blocks hcore
  have hpart := congrArg FileRx.partPath hcore
  have hwriter := congrArg FileRx.writer hcore
  intro hv hb
  obtain ⟨inode, hlink, hopen⟩ := h (Eq.trans hverified.symm hv) fun h => hb (Eq.trans hblocks h)
  refine ⟨inode, ?_, fun n hn => hopen n (Eq.trans hwriter.symm hn)⟩
  rw [show g.partPath = f.partPath from hpart]
  exact hlink

namespace Receiver

variable {l : Launch} {log events : List DiskEvent} {t t' : Receiver} {fs fs' : Fs} {io : Io}

/-- A run is collected for a file that is being received. -/
theorem receiving_of_flushes (marks : Marks l as log t) (flushes : Flushes t run)
    (hf : t.rx[run.file.toNat]? = some f) : f.verified = false ∧ f.blocks ≠ 0 := by
  obtain ⟨g, ps, hg, collected, -⟩ := flushed_of_marks marks flushes
  obtain rfl : g = f := Option.some.inj (hg.symm.trans hf)
  obtain ⟨p, hp⟩ := List.exists_mem_of_ne_nil ps collected.nonempty
  have fresh := collected.fresh p hp
  refine ⟨fresh.verified, fun hzero => ?_⟩
  have inside := fresh.inside
  rw [hzero] at inside
  exact absurd inside UInt32.not_lt_zero

theorem only_hashed (h : Hashed io fs f fs') : Only [f.partPath, f.finalPath] fs fs' := by
  obtain rfl | ⟨-, h⟩ := h
  · exact .refl _ _
  · exact (FileSystem.only_createEmpty h).mono (by simp)

theorem only_reopens {writer : Option (Option Nat)} (h : Reopens io fs f fs' writer) :
    Only [f.partPath, f.finalPath] fs fs' := by
  cases h with
  | empty => exact .refl _ _
  | refused => exact .refl _ _
  | done _ file => exact (FileSystem.only_openWrite file).mono (by simp)

/-- What a step does to the file that it names, as long as that is being received. -/
inductive OwnEffect (as : List ReceiverAct) (t' : Receiver) (fs : Fs) (j : Nat) (f g : FileRx) :
    Fs → List DiskEvent → Prop where
  | left {fs' : Fs} {events : List DiskEvent} (left : g.verified = true ∨ g.blocks = 0) :
      OwnEffect as t' fs j f g fs' events
  | same (verified : g.verified = f.verified) (writer : g.writer = f.writer ∨ g.writer = none) :
      OwnEffect as t' fs j f g fs []
  /-- A run is written, or the first bytes of it. -/
  | write {run : BlockRun} {ps : List Pending} {inode : Nat} (n : Nat) (verified : g.verified = f.verified)
      (before : f.writer = some (some inode)) (writer : g.writer = f.writer)
      (file : run.file.toNat = j) (collected : Collected f run ps)
      (received : ∀ p ∈ ps, Received as p) :
      OwnEffect as t' fs j f g
        (fs.writeAt inode (run.first.toNat * kBlockPayloadSize) (run.data.take n))
        [.wrote j inode (run.first.toNat * kBlockPayloadSize) (run.data.take n)]
  | reset (verified : f.verified = false)
      (writer : ∀ n, g.writer = some (some n) → fs.link f.partPath = some n) :
      OwnEffect as t' fs j f g fs (.reset j :: t'.opened j)

/-- What a step leaves alone: the disk but for the paths of file `j`, and all other files. -/
structure Names (as : List ReceiverAct) (t t' : Receiver) (fs fs' : Fs) (events : List DiskEvent)
    (j : Nat) : Prop where
  disk : fs' = fs ∨ ∃ f, t.rx[j]? = some f ∧ Only [f.partPath, f.finalPath] fs fs'
  others : ∀ (i : Nat) (g : FileRx), i ≠ j → t'.rx[i]? = some g →
    ∃ f, t.rx[i]? = some f ∧ g.core = f.core
  log : ∀ e ∈ events, e.file = j
  own : ∀ f g, t.rx[j]? = some f → t'.rx[j]? = some g → OwnEffect as t' fs j f g fs' events

theorem own_of_core {j : Nat} (hcore : g.core = f.core) : OwnEffect as t' fs j f g fs [] :=
  .same (congrArg FileRx.verified hcore :) (.inl (congrArg FileRx.writer hcore :))

/-- The files up to bookkeeping after a step that only writes or does nothing. -/
theorem names_same (rx : t'.cores = t.cores) : Names as t t' fs fs [] 0 where
  disk := .inl rfl
  others i g _ hg := file_of_cores rx hg
  log := by simp
  own f g hf hg := by
    obtain ⟨f', hf', hcore⟩ := file_of_cores rx hg
    obtain rfl := Option.some.inj (hf'.symm.trans hf)
    exact own_of_core hcore

theorem others_of_cores_set {j : Nat} {h : FileRx} (hf : t.rx[j]? = some f)
    (rx : t'.cores = t.cores.set j h.core) (i : Nat) (g : FileRx) (hij : i ≠ j)
    (hg : t'.rx[i]? = some g) : ∃ f, t.rx[i]? = some f ∧ g.core = f.core := by
  obtain ⟨heq, -⟩ | ⟨-, old⟩ := file_of_cores_set hf rx hg
  · exact absurd heq hij
  · exact old

/-- The file that a step names, before and after. -/
theorem own_of_cores_set {j : Nat} {h : FileRx} {P : FileRx → FileRx → Prop} (hf : t.rx[j]? = some f)
    (rx : t'.cores = t.cores.set j h.core) (own : ∀ g, g.core = h.core → t'.rx[j]? = some g → P f g) :
    ∀ f g, t.rx[j]? = some f → t'.rx[j]? = some g → P f g := by
  intro f' g hf' hg
  obtain rfl := Option.some.inj (hf'.symm.trans hf)
  obtain ⟨-, hcore⟩ | ⟨hne, -⟩ := file_of_cores_set hf rx hg
  · exact own g hcore hg
  · exact absurd rfl hne

theorem names_of_effect (effect : BlockEffect io t fs t' fs' events) (marks : Marks l as log t)
    (tied : ∀ (i : Nat) (f : FileRx), t.rx[i]? = some f → Tied fs f) :
    ∃ j, Names as t t' fs fs' events j := by
  -- The writer of a file that is being received is that of its part file.
  have link : ∀ {run : BlockRun} {f : FileRx} {inode : Nat}, Flushes t run →
      t.rx[run.file.toNat]? = some f → f.writer = some (some inode) →
      fs.link f.partPath = some inode := by
    intro run f inode flushes hf writer
    obtain ⟨hverified, hblocks⟩ := receiving_of_flushes marks flushes hf
    obtain ⟨n, hlink, hopen⟩ := tied _ f hf hverified hblocks
    rw [hlink, hopen inode writer]
  cases effect with
  | quiet rx _ => exact ⟨0, names_same rx⟩
  | take _ rx _ => exact ⟨0, names_same rx⟩
  | closed _ _ _ rx _ => exact ⟨0, names_same rx⟩
  | @write run f inode flushes hf writer rx _ =>
    obtain ⟨f', ps, hf', collected, received⟩ := flushed_of_marks marks flushes
    obtain rfl : f' = f := Option.some.inj (hf'.symm.trans hf)
    refine ⟨run.file.toNat, .inr ⟨f', hf, (FileSystem.only_writeAt (link flushes hf writer) _ _).mono
      (by simp)⟩, others_of_cores_set hf rx, by simp [DiskEvent.file],
      own_of_cores_set hf rx fun g hcore hg => ?_⟩
    rw [← List.take_length (l := run.data)]
    exact .write _ (congrArg FileRx.verified hcore :) writer (congrArg FileRx.writer hcore :) rfl
      collected received
  | @writeFail run f inode flushes hf writer _ rx _ =>
    obtain ⟨f', ps, hf', collected, received⟩ := flushed_of_marks marks flushes
    obtain rfl : f' = f := Option.some.inj (hf'.symm.trans hf)
    refine ⟨run.file.toNat, .inr ⟨f', hf, (FileSystem.only_writeAt (link flushes hf writer) _ _).mono
      (by simp)⟩, fun i g _ hg => file_of_cores rx hg, by simp [DiskEvent.file], fun f g hf'' hg => ?_⟩
    obtain rfl := Option.some.inj (hf''.symm.trans hf)
    obtain ⟨h, hh, hcore⟩ := file_of_cores rx hg
    obtain rfl := Option.some.inj (hh.symm.trans hf)
    exact .write _ (congrArg FileRx.verified hcore :) writer (congrArg FileRx.writer hcore :) rfl
      collected received
  | expect hf rx _ =>
    exact ⟨_, .inl rfl, others_of_cores_set hf rx, by simp, own_of_cores_set hf rx fun g hcore _ =>
      .same (congrArg FileRx.verified hcore :) (.inl (congrArg FileRx.writer hcore :))⟩
  | @hash _ j f _ hf due hashed rx _ =>
    refine ⟨j, .inr ⟨f, hf, only_hashed hashed⟩, others_of_cores_set hf rx, by simp,
      own_of_cores_set hf rx fun g hcore _ => ?_⟩
    have hverified : g.verified = f.verified := (congrArg FileRx.verified hcore :)
    have hwriter : g.writer = none := (congrArg FileRx.writer hcore :)
    have hblocks : g.blocks = f.blocks := (congrArg FileRx.blocks hcore :)
    obtain rfl | ⟨hzero, -⟩ := hashed
    · exact .same hverified (.inr hwriter)
    · exact .left (.inr (hblocks.trans hzero))
  | @reset mid _ j f writer hf due hashed reopens rx _ =>
    refine ⟨j, .inr ⟨f, hf, (only_hashed hashed).trans (only_reopens reopens)⟩,
      others_of_cores_set hf rx, fun e he => ?_, own_of_cores_set hf rx fun g hcore _ => ?_⟩
    · obtain rfl | he := List.mem_cons.mp he
      · rfl
      · unfold opened at he
        split at he
        · rw [List.mem_singleton.mp he]
          rfl
        · cases he
    · have hblocks : g.blocks = f.blocks := (congrArg FileRx.blocks hcore :)
      have hwriter : g.writer = writer := (congrArg FileRx.writer hcore :)
      obtain rfl | ⟨hzero, -⟩ := hashed
      swap
      · exact .left (.inr (hblocks.trans hzero))
      cases reopens with
      | empty hzero => exact .left (.inr (hblocks.trans hzero))
      | refused => exact .reset due.verified (by simp [hwriter])
      | @done _ inode hne file =>
        -- The part file is there, so it is opened as it is.
        obtain ⟨n, hlink, -⟩ := tied j f hf due.verified hne
        obtain ⟨hlink', rfl⟩ | ⟨hnone, -⟩ := FileSystem.openWrite_cases file
        · refine .reset due.verified fun n hn => ?_
          obtain rfl : inode = n := by simpa [hwriter] using hn
          exact hlink'
        · rw [hlink] at hnone
          cases hnone
  | accept hf atRename renamed rx _ =>
    exact ⟨_, .inr ⟨_, hf, FileSystem.only_rename renamed⟩, others_of_cores_set hf rx, by simp,
      own_of_cores_set hf rx fun g hcore _ => .left (.inl (congrArg FileRx.verified hcore :))⟩

/-! ## The bytes after a step -/

/-- No file of the transfer is kept at the part path of another. -/
def Apart (t : Receiver) : Prop :=
  ∀ (i j : Nat) (f g : FileRx), i ≠ j → t.rx[i]? = some f → t.rx[j]? = some g →
    f.partPath ≠ g.partPath ∧ f.partPath ≠ g.finalPath

theorem file_of_fixed (fixed : t'.rx.map FileRx.fixed = t.rx.map FileRx.fixed)
    (hg : t'.rx[i]? = some g) : ∃ f, t.rx[i]? = some f ∧ g.fixed = f.fixed := by
  have hmap := congrArg (·[i]?) fixed
  simp only [List.getElem?_map, hg, Option.map_some] at hmap
  obtain ⟨f, hf, heq⟩ := Option.map_eq_some_iff.mp hmap.symm
  exact ⟨f, hf, heq.symm⟩

theorem part_of_fixed (h : g.fixed = f.fixed) : g.partPath = f.partPath :=
  (congrArg (fun x : UInt16 × UInt64 × UInt32 × Path × Path => x.2.2.2.1) h :)

theorem blocks_of_fixed (h : g.fixed = f.fixed) : g.blocks = f.blocks :=
  (congrArg (fun x : UInt16 × UInt64 × UInt32 × Path × Path => x.2.2.1) h :)

theorem Apart.step (h : Apart t) (fixed : t'.rx.map FileRx.fixed = t.rx.map FileRx.fixed) :
    Apart t' := by
  intro i j f' g' hij hf' hg'
  obtain ⟨f, hf, hfixed⟩ := file_of_fixed fixed hf'
  obtain ⟨g, hg, hgfixed⟩ := file_of_fixed fixed hg'
  have hfinal : g'.finalPath = g.finalPath :=
    (congrArg (fun x : UInt16 × UInt64 × UInt32 × Path × Path => x.2.2.2.2) hgfixed :)
  rw [part_of_fixed hfixed, part_of_fixed hgfixed, hfinal]
  exact h i j f g hij hf hg

/-- The part file of a file that the step does not name. -/
theorem Names.part {j : Nat} (names : Names as t t' fs fs' events j) (apart : Apart t) (hij : i ≠ j)
    (hf : t.rx[i]? = some f) :
    fs'.link f.partPath = fs.link f.partPath ∧ fs'.read f.partPath = fs.read f.partPath := by
  obtain rfl | ⟨h, hh, only⟩ := names.disk
  · exact ⟨rfl, rfl⟩
  · obtain ⟨hpart, hfinal⟩ := apart i j f h hij hf hh
    have hout : f.partPath ∉ [h.partPath, h.finalPath] := by simp [hpart, hfinal]
    exact ⟨(only _ hout).1, only.read hout⟩

theorem tied_step {j : Nat} (names : Names as t t' fs fs' events j) (apart : Apart t)
    (fixed : t'.rx.map FileRx.fixed = t.rx.map FileRx.fixed)
    (tied : ∀ (i : Nat) (f : FileRx), t.rx[i]? = some f → Tied fs f) :
    ∀ (i : Nat) (g : FileRx), t'.rx[i]? = some g → Tied fs' g := by
  intro i g hg
  by_cases hij : i = j
  · subst hij
    obtain ⟨f, hf, hfixed⟩ := file_of_fixed fixed hg
    have hpart := part_of_fixed hfixed
    have hblocks := blocks_of_fixed hfixed
    have before := tied i f hf
    cases names.own f g hf hg with
    | left left =>
      intro hv hb
      obtain hverified | hzero := left
      · rw [hv] at hverified
        cases hverified
      · exact absurd hzero hb
    | same hverified hwriter =>
      intro hv hb
      obtain ⟨inode, hlink, hopen⟩ := before (hverified ▸ hv) (hblocks ▸ hb)
      refine ⟨inode, hpart ▸ hlink, fun n hn => ?_⟩
      obtain heq | heq := hwriter
      · exact hopen n (heq ▸ hn)
      · rw [heq] at hn
        cases hn
    | write _ hverified _ hwriter =>
      intro hv hb
      obtain ⟨inode, hlink, hopen⟩ := before (hverified ▸ hv) (hblocks ▸ hb)
      exact ⟨inode, hpart ▸ hlink, fun n hn => hopen n (hwriter ▸ hn)⟩
    | reset hverified hwriter =>
      intro _ hb
      obtain ⟨inode, hlink, -⟩ := before hverified (hblocks ▸ hb)
      refine ⟨inode, hpart ▸ hlink, fun n hn => ?_⟩
      exact Option.some.inj ((hwriter n hn).symm.trans hlink)
  · obtain ⟨f, hf, hcore⟩ := names.others i g hij hg
    refine Tied.of_core (fun hv hb => ?_) hcore
    obtain ⟨inode, hlink, hopen⟩ := tied i f hf hv hb
    exact ⟨inode, (names.part apart hij hf).1.trans hlink, hopen⟩

end Receiver

/-- The part file of file `i` is as long as the sender's file `c`, and agrees with it wherever something
    has been written since it was opened. -/
def Filled (c : Bytes) (log : List DiskEvent) (fs : Fs) (i : Nat) (f : FileRx) : Prop :=
  f.verified = false → f.blocks ≠ 0 → ∃ data, fs.read f.partPath = some data ∧ data.length = c.length ∧
    ∀ inode since offset piece, OpenSince log i inode since →
      DiskEvent.wrote i inode offset piece ∈ since →
      ∀ k, offset ≤ k → k < offset + piece.length → Agrees c data k

section Filled

variable {log events since : List DiskEvent} {fs fs' : Fs} {t t' : Receiver}

/-- What happens to other files does not open a part file. -/
theorem openSince_of_append (h : OpenSince (log ++ events) i inode since)
    (others : ∀ e ∈ events, ∀ n, e ≠ .opened i n) :
    ∃ old, OpenSince log i inode old ∧ since = old ++ events := by
  obtain ⟨before, heq, hsince⟩ := h
  obtain ⟨rest, hlog, rfl⟩ | ⟨rest, hevents, -⟩ := append_eq_append_cons heq
  · exact ⟨rest, ⟨before, hlog, fun e he => hsince e (List.mem_append_left _ he)⟩, rfl⟩
  · exact absurd rfl (others _ (by rw [hevents]; simp) inode)

theorem Filled.same (h : Filled c log fs i f) (hverified : g.verified = f.verified)
    (hfixed : g.fixed = f.fixed) : Filled c log fs i g := by
  intro hv hb
  rw [Receiver.part_of_fixed hfixed]
  exact h (hverified ▸ hv) (Receiver.blocks_of_fixed hfixed ▸ hb)

/-- After a file has started over nothing has been written to it. -/
theorem not_wrote_of_reset (h : OpenSince (log ++ .reset i :: t.opened i) i inode since)
    {offset : Nat} {piece : Bytes} : DiskEvent.wrote i inode offset piece ∉ since := by
  intro hmem
  obtain ⟨before, heq, hsince⟩ := h
  obtain ⟨rest, -, rfl⟩ | ⟨rest, hevents, -⟩ := append_eq_append_cons heq
  · exact hsince (.reset i) (by simp) rfl
  · have hin : DiskEvent.wrote i inode offset piece ∈ DiskEvent.reset i :: t.opened i := by
      rw [hevents]
      simp [hmem]
    obtain heq | hin := List.mem_cons.mp hin
    · cases heq
    · unfold Receiver.opened at hin
      split at hin
      · cases List.mem_singleton.mp hin
      · cases hin

/-- A first part of a piece is a piece. -/
theorem take_piece {content data : Bytes} {offset : Nat}
    (h : data = (content.drop offset).take data.length) (n : Nat) :
    data.take n = (content.drop offset).take (data.take n).length := by
  rw [List.length_take]
  conv_lhs => rw [h, List.take_take]

/-- What is known of file `i` from the manifest. -/
structure Fits (c : Bytes) (f : FileRx) : Prop where
  length : c.length = f.size.toNat
  small : f.size.toNat ≤ kMaxFileSize
  blocks : f.blocks = blockCountFor f.size

theorem Fits.offset_lt (fits : Fits c f) {b : UInt32} (inside : b < f.blocks) :
    b.toNat * kBlockPayloadSize < c.length := by
  have hpayload : kBlockPayloadSize = 1100 := rfl
  rw [UInt32.lt_iff_toNat_lt, fits.blocks, toNat_blockCountFor fits.small] at inside
  rw [fits.length, hpayload]
  omega

/-- A run lies in the sender's file. -/
theorem Collected.within (h : Collected f run ps) (fits : Fits c f) (honest : Honest sha contents as)
    (received : ∀ p ∈ ps, Received as p) (hc : contents[run.file.toNat]? = some c) :
    run.first.toNat * kBlockPayloadSize + run.data.length ≤ c.length := by
  have hfirst : run.first.toNat * kBlockPayloadSize < c.length := by
    obtain ⟨p, hp⟩ : ∃ p, ps[0]? = some p :=
      ⟨_, List.getElem?_eq_getElem (List.length_pos_iff.mpr h.nonempty)⟩
    have horder := h.order 0 p hp
    rw [Nat.add_zero] at horder
    rw [← horder]
    exact fits.offset_lt (h.fresh p (List.mem_of_getElem? hp)).inside
  have hlength := congrArg List.length (h.piece honest received hc)
  rw [List.length_take, List.length_drop] at hlength
  omega

/-- The write of a run, or of the first bytes of it. -/
theorem filled_write {n : Nat} (hcollected : Collected f run ps) (received : ∀ p ∈ ps, Received as p)
    (honest : Honest sha contents as) (fits : Fits c f) (hc : contents[run.file.toNat]? = some c)
    (tied : Tied fs f) (hwriter : f.writer = some (some inode)) (filled : Filled c log fs run.file.toNat f) :
    Filled c (log ++ [.wrote run.file.toNat inode (run.first.toNat * kBlockPayloadSize) (run.data.take n)])
      (fs.writeAt inode (run.first.toNat * kBlockPayloadSize) (run.data.take n)) run.file.toNat f := by
  intro hv hb
  obtain ⟨data, hread, hlength, hagrees⟩ := filled hv hb
  obtain ⟨part, hlink, hopen⟩ := tied hv hb
  obtain rfl := hopen inode hwriter
  have hdata : fs.data inode = data := by
    rw [FileSystem.read, hlink] at hread
    exact Option.some.inj hread
  have hpiece := take_piece (hcollected.piece honest received hc) n
  have hinside : run.first.toNat * kBlockPayloadSize + (run.data.take n).length ≤ data.length := by
    have hwithin := hcollected.within fits honest received hc
    have hshort := List.length_take_le' n run.data
    omega
  refine ⟨FileSystem.overlay data (run.first.toNat * kBlockPayloadSize) (run.data.take n), ?_,
    (FileSystem.length_overlay hinside).trans hlength, ?_⟩
  · rw [FileSystem.read, FileSystem.link_writeAt, hlink, Option.map_some, FileSystem.writeAt,
      FileSystem.data_setData, if_pos rfl, hdata]
  · intro inode' since offset piece hsince hmem k hlow hhigh
    obtain ⟨old, hold, rfl⟩ := openSince_of_append hsince (by simp)
    refine Agrees.overlay hpiece hinside ?_
    obtain hmem | hmem := List.mem_append.mp hmem
    · exact .inl (hagrees inode' old offset piece hold hmem k hlow hhigh)
    · cases List.mem_singleton.mp hmem
      exact .inr ⟨hlow, hhigh⟩

theorem filled_step {j : Nat} (names : Receiver.Names as t t' fs fs' events j)
    (apart : Receiver.Apart t) (fixed : t'.rx.map FileRx.fixed = t.rx.map FileRx.fixed)
    (tied : ∀ (i : Nat) (f : FileRx), t.rx[i]? = some f → Tied fs f)
    (honest : Honest sha contents as) (hc : contents[i]? = some c)
    (fits : ∀ f, t.rx[i]? = some f → Fits c f)
    (filled : ∀ f, t.rx[i]? = some f → Filled c log fs i f) :
    ∀ g, t'.rx[i]? = some g → Filled c (log ++ events) fs' i g := by
  intro g hg
  obtain ⟨f, hf, hfixed⟩ := Receiver.file_of_fixed fixed hg
  have before := filled f hf
  by_cases hij : i = j
  · subst hij
    cases names.own f g hf hg with
    | left left =>
      intro hv hb
      obtain hverified | hzero := left
      · rw [hv] at hverified
        cases hverified
      · exact absurd hzero hb
    | same hverified _ =>
      rw [List.append_nil]
      exact before.same hverified hfixed
    | write n hverified hopen _ hfile collected received =>
      subst hfile
      exact (filled_write collected received honest (fits f hf) hc (tied _ f hf) hopen before).same
        hverified hfixed
    | reset hverified _ =>
      intro _ hb
      rw [Receiver.part_of_fixed hfixed]
      obtain ⟨data, hread, hlength, -⟩ := before hverified (Receiver.blocks_of_fixed hfixed ▸ hb)
      exact ⟨data, hread, hlength, fun inode since offset piece hsince hmem =>
        absurd hmem (not_wrote_of_reset hsince)⟩
  · obtain ⟨f', hf', hcore⟩ := names.others i g hij hg
    obtain rfl := Option.some.inj (hf'.symm.trans hf)
    refine Filled.same (f := f') (fun hv hb => ?_) (congrArg FileRx.verified hcore :) hfixed
    obtain ⟨data, hread, hlength, hagrees⟩ := before hv hb
    refine ⟨data, (names.part apart hij hf).2.trans hread, hlength,
      fun inode since offset piece hsince hmem => ?_⟩
    have other : ∀ e ∈ events, e.file ≠ i := fun e he heq => hij (heq.symm.trans (names.log e he))
    obtain ⟨old, hold, rfl⟩ := openSince_of_append hsince fun e he n heq =>
      other e he (by rw [heq]; rfl)
    obtain hmem | hmem := List.mem_append.mp hmem
    · exact hagrees inode old offset piece hold hmem
    · exact absurd rfl (other _ hmem)

end Filled

/-! ## The part files after Start -/

section Start

open Receiver (StartIo Started StartFailed startFile startFiles)

variable {io : StartIo} {resume : List ReceiverFileState} {fs fs' : Fs} {t t' : Receiver}

/-- The part file that `Start` has opened for a file. -/
def PartOpened (fs fs' : Fs) (f : FileRx) : Prop :=
  f.verified = false → f.blocks ≠ 0 → ∃ inode data, fs'.link f.partPath = some inode ∧
    f.writer = some (some inode) ∧ fs'.read f.partPath = some data ∧
    data.length = max ((fs.read f.partPath).getD []).length f.size.toNat

theorem PartOpened.only {fs₀ : Fs} {ps : List Path} (h : PartOpened fs₀ fs f) (only : Only ps fs fs')
    (hout : f.partPath ∉ ps) : PartOpened fs₀ fs' f := by
  intro hv hb
  obtain ⟨inode, data, hlink, hwriter, hread, hlength⟩ := h hv hb
  exact ⟨inode, data, ((only _ hout).1).trans hlink, hwriter, (only.read hout).trans hread, hlength⟩

theorem PartOpened.read_eq {fs₀ fs₁ : Fs} (h : PartOpened fs₀ fs' f)
    (hread : fs₀.read f.partPath = fs₁.read f.partPath) : PartOpened fs₁ fs' f := by
  intro hv hb
  rw [← hread]
  exact h hv hb

theorem disk_of_started (h : Started io resume fs f fs' g) :
    Only [f.partPath] fs fs' ∧ PartOpened fs fs' g := by
  cases h with
  | adopted => exact ⟨.refl _ _, fun hv => absurd hv (by simp)⟩
  | empty blocks dir =>
    exact ⟨(FileSystem.sameFiles_ensureDir dir).only, fun _ hb => absurd blocks hb⟩
  | @opened mid opened inode _ _ _ dir file size =>
    have same := FileSystem.sameFiles_ensureDir dir
    have hlink := FileSystem.link_of_openWrite file
    refine ⟨(same.only.trans (FileSystem.only_openWrite file)).trans
      (FileSystem.only_ensureSize hlink _), fun _ _ => ⟨inode,
        opened.data inode ++ List.replicate (f.size.toNat - (opened.data inode).length) 0,
        by rw [FileSystem.link_ensureSize]; exact hlink, rfl, ?_, ?_⟩⟩
    · rw [FileSystem.read, FileSystem.link_ensureSize, hlink, Option.map_some, FileSystem.ensureSize,
        FileSystem.data_setData, if_pos rfl]
    · have hold : opened.data inode = (fs.read f.partPath).getD [] := by
        have quiet : Only [] fs mid := same.only
        have hmid : mid.read f.partPath = fs.read f.partPath := quiet.read (by simp)
        rw [← hmid, FileSystem.read]
        obtain ⟨hfound, rfl⟩ | ⟨hnone, rfl, rfl⟩ := FileSystem.openWrite_cases file
        · rw [hfound]
          rfl
        · rw [hnone]
          exact if_pos rfl
      rw [List.length_append, List.length_replicate, hold]
      show _ = max ((fs.read f.partPath).getD []).length f.size.toNat
      omega

theorem only_of_startFailed (h : StartFailed io fs f fs') : Only [f.partPath] fs fs' := by
  cases h with
  | dir => exact .refl _ _
  | part dir => exact (FileSystem.sameFiles_ensureDir dir).only
  | size dir file =>
    exact (FileSystem.sameFiles_ensureDir dir).only.trans (FileSystem.only_openWrite file)

theorem disk_of_startFiles {files : List FileRx} {err : Option Bytes}
    (h : startFiles io resume files fs t = (fs', t', err))
    (distinct : (files.map (·.partPath)).Nodup) :
    Only (files.map (·.partPath)) fs fs' ∧ ∃ rx, t'.rx = t.rx ++ rx ∧
      ∀ f ∈ rx, f.partPath ∈ files.map (·.partPath) ∧ PartOpened fs fs' f := by
  induction files generalizing fs t with
  | nil =>
    cases h
    exact ⟨.refl _ _, [], by simp, by simp⟩
  | cons f rest ih =>
    rw [List.map_cons, List.nodup_cons] at distinct
    rw [startFiles] at h
    split at h
    · rename_i hstart
      cases h
      obtain ⟨_, _, hr, -⟩ | ⟨_, -, failed⟩ := Receiver.startFile_cases hstart
      · cases hr
      · exact ⟨(only_of_startFailed failed).mono (by simp), [], by simp, by simp⟩
    · rename_i mid g added hstart
      obtain ⟨g', _, hr, started⟩ | ⟨_, hr, -⟩ := Receiver.startFile_cases hstart
      swap
      · cases hr
      cases hr
      obtain ⟨only, first⟩ := disk_of_started started
      obtain ⟨onlyRest, rx, hrx, each⟩ := ih h distinct.2
      have hpart : g.partPath = f.partPath := Receiver.part_of_fixed started.fixed
      refine ⟨(only.mono (by simp)).trans (onlyRest.mono fun p hp => List.mem_cons_of_mem _ hp),
        g :: rx, by simp [hrx], fun h hmem => ?_⟩
      obtain rfl | hmem := List.mem_cons.mp hmem
      · exact ⟨by rw [hpart]; exact List.mem_cons_self, first.only onlyRest (hpart ▸ distinct.1)⟩
      · obtain ⟨hin, later⟩ := each h hmem
        -- The first file has not touched this one's part file.
        have hne : h.partPath ∉ [f.partPath] := by
          rw [List.mem_singleton]
          exact fun heq => distinct.1 (heq ▸ hin)
        exact ⟨List.mem_cons_of_mem _ hin, later.read_eq (only.read hne)⟩

theorem disk_of_start {m : Manifest} {saveDir : Path} {names : Names} {err : Option Bytes}
    (h : Receiver.start io m saveDir names resume fs = (fs', t, err))
    (distinct : ((m.files.mapIdx (Receiver.freshFile saveDir names)).map (·.partPath)).Nodup) :
    ∀ f ∈ t.rx, PartOpened fs fs' f := by
  unfold Receiver.start at h
  simp only at h
  split at h
  · cases h
    simp
  · rename_i hsave
    have saved := FileSystem.sameFiles_ensureDir hsave
    split at h
    · cases h
      simp
    · rename_i disk created hdirs
      have same := saved.trans (Receiver.startDirs_sameFiles hdirs)
      have files : ∀ {u err}, startFiles io resume (m.files.mapIdx (Receiver.freshFile saveDir names)) disk
          { rx := [], createdDirs := created, pc := .exited } = (fs', u, err) →
          ∀ f ∈ u.rx, PartOpened fs fs' f := by
        intro u err hfiles f hf
        obtain ⟨-, rx, hrx, each⟩ := disk_of_startFiles hfiles distinct
        rw [hrx, List.nil_append] at hf
        have quiet : Only [] fs disk := same.only
        exact (each f hf).2.read_eq (quiet.read (by simp))
      split at h
      · rename_i hfiles
        cases h
        exact (files hfiles :)
      · rename_i hfiles
        cases h
        exact (files hfiles :)

end Start

/-! ## Runs -/

section Runs

variable {l : Launch} {s s' : RxState} {a : ReceiverAct} {out : List RxEvent} {t : Receiver}
  {log since : List DiskEvent} {data : Bytes} {ok : RxState → ReceiverAct → Prop}

/-- `Start` found no part file for file `i` that is longer than the file. -/
def Launch.NotLonger (l : Launch) (i : Nat) : Prop :=
  ∀ mf data, l.manifest.files[i]? = some mf → l.fs.read (l.freshFile i mf).partPath = some data →
    data.length ≤ mf.size.toNat

/-- The paths and the size of a file come from the manifest. -/
def Assigned (l : Launch) (t : Receiver) : Prop :=
  ∀ (i : Nat) (f : FileRx), t.rx[i]? = some f →
    ∃ mf, l.manifest.files[i]? = some mf ∧ f.fixed = (l.freshFile i mf).fixed

theorem Assigned.step {t' : Receiver} (h : Assigned l t)
    (fixed : t'.rx.map FileRx.fixed = t.rx.map FileRx.fixed) : Assigned l t' := by
  intro i g hg
  obtain ⟨f, hf, hfixed⟩ := Receiver.file_of_fixed fixed hg
  obtain ⟨mf, hmf, hfresh⟩ := h i f hf
  exact ⟨mf, hmf, hfixed.trans hfresh⟩

theorem Assigned.apart (h : Assigned l t)
    (distinct : (assignedPaths l.saveDir l.names l.manifest.files).Nodup) : Receiver.Apart t := by
  intro i j f g hij hf hg
  obtain ⟨mf, hmf, hfixed⟩ := h i f hf
  obtain ⟨mg, hmg, hgfixed⟩ := h j g hg
  rw [assignedPaths, List.nodup_append] at distinct
  obtain ⟨-, parts, disjoint⟩ := distinct
  have hpart : f.partPath = partPath (finalPath l.saveDir l.names mf.path) :=
    Receiver.part_of_fixed hfixed
  have hgpart : g.partPath = partPath (finalPath l.saveDir l.names mg.path) :=
    Receiver.part_of_fixed hgfixed
  have hgfinal : g.finalPath = finalPath l.saveDir l.names mg.path :=
    (congrArg (fun x : UInt16 × UInt64 × UInt32 × Path × Path => x.2.2.2.2) hgfixed :)
  rw [hpart, hgpart, hgfinal]
  refine ⟨fun heq => hij ?_, fun heq => ?_⟩
  · refine (List.getElem?_inj ?_ parts).mp ?_
    · rw [List.length_map]
      exact (List.getElem?_eq_some_iff.mp hmf).1
    · rw [List.getElem?_map, List.getElem?_map, hmf, hmg, Option.map_some, Option.map_some, heq]
  · exact disjoint _ (List.mem_map_of_mem (List.mem_of_getElem? hmg)) _
      (List.mem_map_of_mem (List.mem_of_getElem? hmf)) heq.symm

theorem Assigned.fits (h : Assigned l t) (describes : Describes l.manifest contents)
    (hf : t.rx[i]? = some f) (hc : contents[i]? = some c) : Fits c f := by
  obtain ⟨mf, hmf, hfixed⟩ := h i f hf
  obtain ⟨hlength, hsmall⟩ := describes.size i mf c hmf hc
  have hsize : f.size = mf.size :=
    (congrArg (fun x : UInt16 × UInt64 × UInt32 × Path × Path => x.2.1) hfixed :)
  have hblocks : f.blocks = blockCountFor mf.size := Receiver.blocks_of_fixed hfixed
  exact ⟨by rw [hsize, hlength], by rw [hsize]; exact hsmall, by rw [hsize, hblocks]⟩

/-- What is known of a transfer from an honest sender. -/
structure Transferring (l : Launch) (contents : List Bytes) (as : List ReceiverAct)
    (log : List DiskEvent) (s : RxState) : Prop where
  assigned : Assigned l s.engine
  tied : ∀ (i : Nat) (f : FileRx), s.engine.rx[i]? = some f → Tied s.fs f
  filled : ∀ (i : Nat) (f : FileRx) (c : Bytes), s.engine.rx[i]? = some f → contents[i]? = some c →
    l.NotLonger i → Filled c log s.fs i f
  hashes : ∀ e ∈ s.engine.hashes, ReceiverAct.fileDone e.1 e.2 ∈ as
  expected : ∀ (i : Nat) (f : FileRx), s.engine.rx[i]? = some f → f.expectedSha256 ≠ [] →
    ∃ index : UInt16, index.toNat = i ∧ ReceiverAct.fileDone index f.expectedSha256 ∈ as

/-- `Start` writes nothing. -/
theorem not_wrote_of_start (t : Receiver)
    (h : OpenSince ((List.range t.rx.length).flatMap t.opened ++ []) i inode since) {offset : Nat}
    {piece : Bytes} : DiskEvent.wrote i inode offset piece ∉ since := by
  intro hmem
  obtain ⟨before, heq, -⟩ := h
  have hin : DiskEvent.wrote i inode offset piece ∈ (List.range t.rx.length).flatMap t.opened := by
    rw [← List.append_nil (List.flatMap _ _), heq]
    simp [hmem]
  obtain ⟨j, -, hin⟩ := List.mem_flatMap.mp hin
  unfold Receiver.opened at hin
  split at hin
  · cases List.mem_singleton.mp hin
  · cases hin

theorem transferring_start (describes : Describes l.manifest contents)
    (distinct : (assignedPaths l.saveDir l.names l.manifest.files).Nodup) (sha : Bytes → Bytes) :
    Transferring l contents [] (l.diskLog sha []) l.state := by
  have hstart : Receiver.start l.io l.manifest l.saveDir l.names l.resume l.fs =
    (l.state.fs, l.state.engine, l.start.2.2) := rfl
  have started : ∀ {i : Nat} {f : FileRx}, l.state.engine.rx[i]? = some f → ∃ mf,
      l.manifest.files[i]? = some mf ∧ f.fixed = (l.freshFile i mf).fixed ∧ f.expectedSha256 = [] := by
    intro i f hf
    obtain ⟨mf, mid, bytes, hmf, hfile⟩ := Receiver.files_of_start hstart hf
    obtain ⟨g, _, hr, started⟩ | ⟨_, hr, -⟩ := Receiver.startFile_cases hfile
    · cases hr
      exact ⟨mf, hmf, started.fixed, started.expected⟩
    · cases hr
  have assigned : Assigned l l.state.engine := fun i f hf =>
    let ⟨mf, hmf, hfixed, _⟩ := started hf
    ⟨mf, hmf, hfixed⟩
  have hparts : ((l.manifest.files.mapIdx (Receiver.freshFile l.saveDir l.names)).map
      (·.partPath)).Nodup := by
    rw [assignedPaths, List.nodup_append] at distinct
    have heq : (l.manifest.files.mapIdx (Receiver.freshFile l.saveDir l.names)).map (·.partPath) =
        l.manifest.files.map fun mf => partPath (finalPath l.saveDir l.names mf.path) := by
      apply List.ext_getElem?
      intro i
      simp only [List.getElem?_map, List.getElem?_mapIdx, Option.map_map]
      rfl
    rw [heq]
    exact distinct.2.1
  have opened := disk_of_start hstart hparts
  obtain ⟨-, hdone, hpc⟩ := Receiver.idle_of_start hstart
  refine ⟨assigned, fun i f hf hv hb => ?_, fun i f c hf hc short hv hb => ?_, fun e he => ?_,
    fun i f hf hne => ?_⟩
  · obtain ⟨inode, -, hlink, hwriter, -, -⟩ := opened f (List.mem_of_getElem? hf) hv hb
    refine ⟨inode, hlink, fun n hn => ?_⟩
    rw [hwriter] at hn
    exact (Option.some.inj (Option.some.inj hn)).symm
  · obtain ⟨inode, data, -, -, hread, hlength⟩ := opened f (List.mem_of_getElem? hf) hv hb
    have fits := assigned.fits describes hf hc
    obtain ⟨mf, hmf, hfixed⟩ := assigned i f hf
    -- The part file that `Start` found is made as long as the file.
    have hfound : ((l.fs.read f.partPath).getD []).length ≤ f.size.toNat := by
      have hsize : f.size = mf.size :=
        (congrArg (fun x : UInt16 × UInt64 × UInt32 × Path × Path => x.2.1) hfixed :)
      rw [Receiver.part_of_fixed hfixed, hsize]
      cases hold : l.fs.read (l.freshFile i mf).partPath with
      | none => exact Nat.zero_le _
      | some old => exact short mf old hmf hold
    refine ⟨data, hread, by rw [hlength, fits.length]; omega, fun _ since _ _ hsince hmem => ?_⟩
    exact absurd hmem (not_wrote_of_start _ hsince)
  · rw [Receiver.hashes, hdone] at he
    obtain hpc | hpc := hpc
    all_goals
      rw [hpc] at he
      cases he
  · obtain ⟨_, _, _, hnone⟩ := started hf
    exact absurd hnone hne

theorem transferring_step (h : Transferring l contents as log s) (marks : Marks l as log s.engine)
    (distinct : (assignedPaths l.saveDir l.names l.manifest.files).Nodup)
    (describes : Describes l.manifest contents) (honest : Honest sha contents as)
    (hstep : s.step sha a = some (s', out)) :
    Transferring l contents (as ++ [a]) (log ++ s.diskEvents sha a) s' := by
  have more : ∀ b ∈ as, b ∈ as ++ [a] := fun b hb => List.mem_append_left _ hb
  by_cases writer : ∃ io, a = .writer io
  · obtain ⟨io, rfl⟩ := writer
    obtain ⟨⟨t', fs', told⟩, hwriter, heq⟩ := Option.map_eq_some_iff.mp hstep
    cases heq
    have hevents : s.diskEvents sha (.writer io) = s.engine.diskEvents io t' told := by
      rw [RxState.diskEvents, hwriter]
      rfl
    have effect := Receiver.writerStep_effect hwriter
    have fixed := effect.fixed
    have apart := h.assigned.apart distinct
    obtain ⟨j, names⟩ := Receiver.names_of_effect (Receiver.writerStep_blocks hwriter)
      marks h.tied
    rw [hevents]
    refine ⟨h.assigned.step fixed, Receiver.tied_step names apart fixed h.tied,
      fun i g c hg hc short => ?_, fun e he => more _ (h.hashes e (effect.frame.hashes e he)),
      fun i g hg hne => ?_⟩
    · exact filled_step names apart fixed h.tied honest hc
        (fun f hf => h.assigned.fits describes hf hc) (fun f hf => h.filled i f c hf hc short) g hg
    · obtain ⟨f, hf, moved⟩ := effect.file hg
      obtain heq | ⟨index, hindex, hmem⟩ := moved.expected
      · rw [heq] at hne ⊢
        obtain ⟨index, hindex, hmem⟩ := h.expected i f hf hne
        exact ⟨index, hindex, more _ hmem⟩
      · exact ⟨index, hindex, more _ (h.hashes _ hmem)⟩
  · obtain ⟨called, hfs, hevents, hhashes⟩ := called_of_step hstep fun io heq => writer ⟨io, heq⟩
    rw [hevents, List.append_nil]
    -- The files are the same but that their writers may be closed.
    have files : ∀ {i : Nat} {g : FileRx}, s'.engine.rx[i]? = some g → ∃ f writer,
        s.engine.rx[i]? = some f ∧ g = { f with writer := writer } := fun hg => called.file hg
    refine ⟨h.assigned.step called.fixed, fun i g hg => ?_, fun i g c hg hc short => ?_, fun e he => ?_,
      fun i g hg hne => ?_⟩
    · rw [hfs]
      obtain heq | heq := called.rx
      · exact h.tied i g (heq ▸ hg)
      · rw [heq, List.getElem?_map] at hg
        obtain ⟨f, hf, rfl⟩ := Option.map_eq_some_iff.mp hg
        intro hv hb
        obtain ⟨inode, hlink, -⟩ := h.tied i f hf hv hb
        exact ⟨inode, hlink, fun _ hn => by cases hn⟩
    · obtain ⟨f, _, hf, rfl⟩ := files hg
      rw [hfs]
      exact (h.filled i f c hf hc short).same rfl rfl
    · obtain he | rfl := hhashes e he
      · exact more _ (h.hashes e he)
      · exact List.mem_append_right _ (List.mem_singleton_self _)
    · obtain ⟨f, _, hf, rfl⟩ := files hg
      obtain ⟨index, hindex, hmem⟩ := h.expected i f hf hne
      exact ⟨index, hindex, more _ hmem⟩

theorem transferring_of_run (run : (l.state.machine sha).Run ok as s)
    (distinct : (assignedPaths l.saveDir l.names l.manifest.files).Nodup)
    (describes : Describes l.manifest contents) (honest : Honest sha contents as) :
    Transferring l contents as (l.diskLog sha as) s := by
  induction run with
  | init => exact transferring_start describes distinct sha
  | step hrun _ hstep ih =>
    rw [diskLog_snoc hrun]
    obtain ⟨⟨s', out⟩, hact, rfl⟩ := Option.map_eq_some_iff.mp hstep
    have before := honest.mono fun b hb => List.mem_append_left _ hb
    exact transferring_step (ih before) (marks_of_run hrun) distinct describes before hact

/-- What has been written in full is the sender's file. -/
theorem eq_of_written {data : Bytes} (hlength : data.length = c.length) (fits : Fits c f)
    (hagrees : ∀ inode since offset piece, OpenSince log i inode since →
      DiskEvent.wrote i inode offset piece ∈ since →
      ∀ k, offset ≤ k → k < offset + piece.length → Agrees c data k)
    (written : ∀ b : UInt32, b < f.blocks → BlockWritten as log i f b.toNat) : data = c := by
  refine FileSystem.eq_of_agrees hlength fun k hk => ?_
  have hpayload : kBlockPayloadSize = 1100 := rfl
  have hcount := toNat_blockCountFor fits.small
  rw [← fits.blocks, ← fits.length] at hcount
  -- The byte lies in block `k / 1100`.
  have hlt : k / 1100 < 2 ^ 32 := by
    have := f.blocks.toNat_lt
    omega
  have hblock : (UInt32.ofNat (k / 1100)).toNat = k / 1100 := UInt32.toNat_ofNat_of_lt' hlt
  have hinside : UInt32.ofNat (k / 1100) < f.blocks := by
    rw [UInt32.lt_iff_toNat_lt, hblock, hcount]
    omega
  obtain ⟨received, file, block, length, part, wrote, inside, bytes⟩ := written _ hinside
  rw [toNat_blockLenFor, block, hblock, ← fits.length, hpayload] at length
  rw [hblock, hpayload] at inside bytes
  have hpiece := congrArg List.length bytes
  rw [List.length_take, List.length_drop] at hpiece
  exact hagrees _ _ _ _ part wrote k (by omega) (by omega)

end Runs

/-- A file from an honest sender whose part file was no longer than it when `Start` found it: once every
    block has been written, the part file is the sender's file, and its hash is the announced one. -/
theorem complete_part_is_content (l : Launch) (sha : Bytes → Bytes) (contents : List Bytes)
    (as : List ReceiverAct) (s : RxState) (run : (l.state.machine sha).Run Machine.anyStep as s)
    (describes : Describes l.manifest contents) (honest : Honest sha contents as)
    (distinct : (assignedPaths l.saveDir l.names l.manifest.files).Nodup) (i : Nat) (f : FileRx)
    (c : Bytes) (hf : s.engine.rx[i]? = some f) (hc : contents[i]? = some c) (short : l.NotLonger i)
    (unverified : f.verified = false)
    (written : ∀ b : UInt32, b < f.blocks → BlockWritten as (l.diskLog sha as) i f b.toNat) :
    (f.blocks ≠ 0 → s.fs.read f.partPath = some c) ∧
    ∀ io k fs' bytes, s.engine.pc = .verify i k → Receiver.Due f → s.engine.stop = false →
      Receiver.hashFile io s.fs f = some (fs', bytes) →
        bytes = c ∧ sha bytes = f.expectedSha256 ∧
          ∃ s', s.step sha (.writer io) = some (s', []) ∧ s'.engine.pc = .rename i k := by
  have transferring := transferring_of_run run distinct describes honest
  have fits := transferring.assigned.fits describes hf hc
  have whole : f.blocks ≠ 0 → s.fs.read f.partPath = some c := by
    intro hb
    obtain ⟨data, hread, hlength, hagrees⟩ := transferring.filled i f c hf hc short unverified hb
    rw [hread, eq_of_written hlength fits hagrees written]
  refine ⟨whole, fun io k fs' bytes hpc due stop hashed => ?_⟩
  have hbytes : bytes = c := by
    unfold Receiver.hashFile at hashed
    split at hashed
    · -- An empty file is made anew before it is hashed.
      rename_i hzero
      obtain ⟨_, -, heq⟩ := Option.map_eq_some_iff.mp hashed
      cases heq
      have hcount := toNat_blockCountFor fits.small
      rw [← fits.blocks, ← fits.length, hzero] at hcount
      have hzero : (0 : UInt32).toNat = 0 := rfl
      exact (List.eq_nil_of_length_eq_zero (by omega)).symm
    · rename_i hb
      split at hashed
      · rw [whole hb] at hashed
        cases hashed
        rfl
      · cases hashed
  have hsha : sha bytes = f.expectedSha256 := by
    obtain ⟨index, rfl, hmem⟩ := transferring.expected i f hf due.expected
    obtain ⟨c', hc', hhash⟩ := honest.hashes index _ hmem
    obtain rfl := Option.some.inj (hc'.symm.trans hc)
    rw [hbytes, hhash]
  refine ⟨hbytes, hsha, ⟨{ s.engine.setFile i { f with verifying := true, writer := none } with
    pc := .rename i k }, fs'⟩, ?_, rfl⟩
  have hstep : s.engine.writerStep sha io s.fs = some (s.engine.verify sha io i k s.fs) := by
    rw [Receiver.writerStep, hpc]
  rw [RxState.step, hstep, Receiver.verify_matched hf due stop hashed hsha]
  rfl

/-- The hash is announced, the block comes in and is written, and the file is about to be hashed. -/
def announcedActs : List ReceiverAct :=
  .fileDone 0 [7] :: .block oneByteWire :: List.replicate 8 (.writer plainIo)

theorem describes_oneByte : Describes oneByteLaunch.manifest [[7]] where
  length := rfl
  size i mf c hmf hc := by
    cases i with
    | zero =>
      cases hmf
      cases hc
      decide
    | succ i => cases hc

theorem honest_oneByte : Honest id [[7]] announcedActs where
  blocks wire header payload hmem hdecode := by
    have hwire : wire = oneByteWire := by simpa [announcedActs] using hmem
    have hblock : decodeBlock oneByteWire = some (⟨0, 0, 0, 1⟩, [7]) := by decide
    rw [hwire, hblock] at hdecode
    cases hdecode
    exact ⟨[7], rfl, rfl⟩
  hashes index hash hmem := by
    obtain ⟨rfl, rfl⟩ : index = 0 ∧ hash = [7] := by simpa [announcedActs] using hmem
    exact ⟨[7], rfl, rfl⟩

/-- Without a resume record, a marked block of a file that is being received has been written. -/
theorem written_of_marked {l : Launch} {s : RxState} {ok : RxState → ReceiverAct → Prop} {b : Nat}
    (run : (l.state.machine sha).Run ok as s) (hf : s.engine.rx[i]? = some f) (hresume : l.resume = [])
    (hverified : f.verified = false) (hb : f.bitmap.test b = true) :
    BlockWritten as (l.diskLog sha as) i f b := by
  obtain (written | ⟨-, mf, state, -, hentry, -⟩) | ⟨hv, -⟩ := ((marks_of_run run).file i f hf).bits b hb
  · exact written
  · rw [hresume] at hentry
    cases hentry
  · rw [hverified] at hv
    cases hv

theorem complete_part_is_content_oneByte : ∃ s f,
    (oneByteLaunch.state.machine id).exec announcedActs oneByteLaunch.state = some s ∧
      s.engine.rx[0]? = some f ∧ f.bitmap.test 0 = true ∧ s.fs.read f.partPath = some [7] ∧
      ∃ s', s.step id (.writer plainIo) = some (s', []) ∧ s'.engine.pc = .rename 0 (.dones [] 0) := by
  have hfacts : (((oneByteLaunch.state.machine id).exec announcedActs oneByteLaunch.state).bind fun s =>
      (s.engine.rx[0]?).map fun f => (f.verified, f.verifying, f.complete, f.expectedSha256, f.blocks,
        f.bitmap.test 0, s.engine.stop, s.engine.pc, s.fs.read f.partPath)) =
      some (false, false, true, [7], 1, true, false, .verify 0 (.dones [] 0), some [7]) := by
    rfl
  obtain ⟨s, hexec, hfacts⟩ := Option.bind_eq_some_iff.mp hfacts
  obtain ⟨f, hf, hfacts⟩ := Option.map_eq_some_iff.mp hfacts
  simp only [Prod.mk.injEq] at hfacts
  obtain ⟨hverified, hverifying, hcomplete, hexpected, hblocks, hb, hstop, hpc, hread⟩ := hfacts
  have run := Machine.run_of_exec hexec
  have written : ∀ b : UInt32, b < f.blocks →
      BlockWritten announcedActs (oneByteLaunch.diskLog id announcedActs) 0 f b.toNat := by
    intro b hlt
    have hzero : b.toNat = 0 := by
      rw [hblocks, UInt32.lt_iff_toNat_lt] at hlt
      exact Nat.lt_one_iff.mp hlt
    exact written_of_marked run hf rfl hverified (hzero ▸ hb)
  obtain ⟨hpart, hright⟩ := complete_part_is_content oneByteLaunch id [[7]] announcedActs s run
    describes_oneByte honest_oneByte (by decide) 0 f [7] hf rfl (fun mf data _ hdata => by cases hdata)
    hverified written
  have due : Receiver.Due f := ⟨hverified, hverifying, hcomplete, by rw [hexpected]; simp⟩
  have hhash : Receiver.hashFile plainIo s.fs f = some (s.fs, [7]) := by
    have hnonempty : f.blocks ≠ 0 := by rw [hblocks]; decide
    have hok : plainIo.ok = true := rfl
    rw [Receiver.hashFile, if_neg hnonempty, if_pos hok, hread]
    rfl
  obtain ⟨-, -, hstep⟩ := hright plainIo _ s.fs [7] hpc due hstop hhash
  exact ⟨s, f, hexec, hf, hb, hpart (by rw [hblocks]; decide), hstep⟩

/-- A part file of two bytes is there. -/
def longPartLaunch : Launch :=
  { oneByteLaunch with
    fs := ((FileSystem.empty.makeDirs [ascii "save"]).create [ascii "save", ascii "a.ctpart"]).setData 0
      [1, 2] }

/-- The only block of the file is written, and the part file keeps its second byte. -/
theorem not_complete_part_is_content : ¬ ∀ (l : Launch) (sha : Bytes → Bytes) (contents : List Bytes)
    (as : List ReceiverAct) (s : RxState), (l.state.machine sha).Run Machine.anyStep as s →
    Describes l.manifest contents → Honest sha contents as →
    ∀ (i : Nat) (f : FileRx) (c : Bytes), s.engine.rx[i]? = some f → contents[i]? = some c →
      f.verified = false →
      (∀ b : UInt32, b < f.blocks → BlockWritten as (l.diskLog sha as) i f b.toNat) →
      f.blocks ≠ 0 → s.fs.read f.partPath = some c := by
  intro h
  have hfacts : (((longPartLaunch.state.machine id).exec announcedActs longPartLaunch.state).bind fun s =>
      (s.engine.rx[0]?).map fun f => (f.verified, f.blocks, f.bitmap.test 0, s.fs.read f.partPath)) =
      some (false, 1, true, some [7, 2]) := by
    decide +kernel
  obtain ⟨s, hexec, hfacts⟩ := Option.bind_eq_some_iff.mp hfacts
  obtain ⟨f, hf, hfacts⟩ := Option.map_eq_some_iff.mp hfacts
  simp only [Prod.mk.injEq] at hfacts
  obtain ⟨hverified, hblocks, hb, hread⟩ := hfacts
  have run := Machine.run_of_exec hexec
  have written : ∀ b : UInt32, b < f.blocks →
      BlockWritten announcedActs (longPartLaunch.diskLog id announcedActs) 0 f b.toNat := by
    intro b hlt
    have hzero : b.toNat = 0 := by
      rw [hblocks, UInt32.lt_iff_toNat_lt] at hlt
      exact Nat.lt_one_iff.mp hlt
    exact written_of_marked run hf rfl hverified (hzero ▸ hb)
  have hpart := h longPartLaunch id [[7]] announcedActs s run describes_oneByte honest_oneByte 0 f [7]
    hf rfl hverified written (by rw [hblocks]; decide)
  rw [hread] at hpart
  cases hpart

end CrossTransfer.Transfer
