import CrossTransfer.Share.CtrlText
import CrossTransfer.Transfer.CtrlCodec
import CrossTransfer.Transfer.HaveRuns
import CrossTransfer.Transfer.ReceiverStart

/-! # Which shares can be offered

`BuildManifest` bounds the number and the sizes of the files and the length of each path, and asks
for a root. `StartOffer` asks for a file, and the reassembler of the peer for a message of at most
`kMaxCtrlMessage` bytes. Neither of these follows from the former, so a share can be created that no
receiver can ever be offered; nor does it follow that the receiver's `accept` fits, whose length
depends on which blocks it has (`offerable_iff`).

The longest list of runs for a file is the heaviest one of a `RunPacking`. Up to `2 ^ 21` blocks it
is the one of every second block (`haveLength_eq`).
-/

namespace CrossTransfer.Share

open CrossTransfer.Library
open CrossTransfer.Library.RunPacking
open CrossTransfer.Transfer
open CrossTransfer.Transfer.Paths
open TransferSession

/-! ## What is asked of a share -/

/-- A sending session before its offer. -/
structure ReadyToOffer (m : Manifest) (absFiles : List Bytes) (s : TransferSession) : Prop where
  manifest : s.manifest = m
  fileCount : s.fileCount = absFiles.length
  offerSent : s.offerSent = false
  running : s.state.terminal = false
  unstopped : s.stopping = none

/-- The index and the number of blocks of each file. -/
def fileKeys (files : List ManifestFile) : List (UInt16 × UInt32) :=
  files.mapIdx fun i f => (UInt16.ofNat i, blockCountFor f.size)

/-- The engine of a receiver of this manifest, whatever it has of each file. -/
structure BitmapState (m : Manifest) (t : Receiver) : Prop where
  files : t.rx.map (fun f => (f.index, f.blocks)) = fileKeys m.files
  sizes : ∀ f ∈ t.rx, f.bitmap.size = f.blocks.toNat

/-- The message has a text, and the peer's reassembler accepts its chunks. -/
def Arrives (dump : Json → Option Bytes) (msg : CtrlMsg) : Prop :=
  ∃ text, dump msg.toJson = some text ∧ text.length ≤ kMaxCtrlMessage ∧
    CtrlReassembler.feedAll {} (splitCtrlMessage text) = ({}, [text])

structure Offerable (dump : Json → Option Bytes) (m : Manifest) (absFiles : List Bytes) :
    Prop where
  sent : ∀ s, ReadyToOffer m absFiles s →
    .ctrl (.offer m.toJson) ∈ s.startOffer.2 ∧ s.startOffer.1.stopping = none
  offer : Arrives dump (.offer m.toJson)
  accept : ∀ t, BitmapState m t →
    ∃ runs, t.haveRuns = some runs ∧ Arrives dump (.accept (acceptFiles t.verifiedFiles runs))

/-! ## When a share is small enough -/

/-- A run in a list of runs, with a comma. -/
def runWeight (start length : Nat) : Nat := 4 + decimalLength start + decimalLength length

/-- The longest text of runs of a file of so many blocks, with a comma after each. -/
def haveLength (blocks : UInt32) : Nat := heaviest runWeight blocks.toNat (2 ^ 20) 0

/-- The longest entry of a file in an `accept`. -/
def longestEntry (index : UInt16) (blocks : UInt32) : Nat :=
  max (26 + decimalLength index.toNat) (20 + decimalLength index.toNat + (haveLength blocks - 1))

/-- The longest `accept` for these files. -/
def longestAccept (files : List ManifestFile) : Nat :=
  28 + commaLength ((fileKeys files).map fun key => longestEntry key.1 key.2)

structure SmallEnough (look : Bytes → Node) (paths : List Bytes) : Prop where
  file : sharedFiles look paths ≠ []
  offer : offerLength (sharedFiles look paths) (sharedDirs look paths) (sharedRoots look paths)
    ((sharedFiles look paths).map (·.size)).sum ≤ kMaxCtrlMessage
  accept : longestAccept (sharedFiles look paths) ≤ kMaxCtrlMessage

/-! ## Messages that arrive -/

theorem arrives_iff {dump : Json → Option Bytes} {msg : CtrlMsg} {n : Nat}
    (h : HasLength dump msg.toJson n) : Arrives dump msg ↔ n ≤ kMaxCtrlMessage := by
  obtain ⟨text, htext, rfl⟩ := h
  constructor
  · rintro ⟨text', htext', hle, -⟩
    obtain rfl : text = text' := by simpa [htext] using htext'
    exact hle
  · intro hle
    refine ⟨text, htext, hle, ?_⟩
    have hwhole := Framing.receive_split kCtrlChunk_pos (Framing.fits_of_le hle)
    rw [if_pos hle] at hwhole
    rw [splitCtrlMessage_eq, feedAll_map_encodeChunk, hwhole]

theorem commaLength_eq (lengths : List Nat) :
    commaLength lengths = (lengths.map (· + 1)).sum - 1 := by
  have hsum : (lengths.map (· + 1)).sum = lengths.sum + lengths.length := by
    induction lengths with
    | nil => rfl
    | cons n lengths ih =>
      simp only [List.map_cons, List.sum_cons, List.length_cons, ih]
      omega
  rw [commaLength, hsum]
  cases lengths with
  | nil => rfl
  | cons n lengths =>
    rw [List.length_cons]
    omega

/-! ## The runs of a file -/

theorem commaLength_runs (rs : List SackRun) :
    commaLength (rs.map runLength) = weight runWeight (rs.map SackRun.span) - 1 := by
  rw [commaLength_eq, weight, List.map_map, List.map_map]
  congr 2
  refine List.map_congr_left fun r _ => ?_
  simp only [Function.comp_apply, runLength, runWeight, SackRun.span]
  omega

/-- A file of more than `2 ^ 28` blocks has an entry that is too long: runs of a hundred blocks, from
    block `10 ^ 8` on. -/
theorem exists_heavy {blocks : UInt32} (hblocks : 2 ^ 28 < blocks.toNat) :
    ∃ runs, Separated blocks.toNat 0 runs ∧ runs.length = 2 ^ 20 ∧
      kMaxCtrlMessage ≤ weight runWeight runs := by
  have hstart : ∀ s, 10 ^ 8 ≤ s → 9 ≤ decimalLength s := by
    intro s hs
    have := (@decimalLength_le_iff s 8 (by norm_num)).not.mpr (Nat.not_lt.mpr hs)
    omega
  have hlength : 3 ≤ decimalLength 100 := by
    have := (@decimalLength_le_iff 100 2 (by norm_num)).not.mpr (by norm_num)
    omega
  have hsep : Separated blocks.toNat (10 ^ 8) (evenly 100 (2 ^ 20) (10 ^ 8)) :=
    separated_evenly (by norm_num) (by norm_num; omega)
  have hweight : 2 ^ 20 * 16 ≤ weight runWeight (evenly 100 (2 ^ 20) (10 ^ 8)) := by
    refine le_weight_evenly fun s hs => ?_
    have := hstart s hs
    rw [runWeight]
    omega
  exact ⟨_, hsep.earlier (Nat.zero_le _), length_evenly, by simpa [kMaxCtrlMessage] using hweight⟩

theorem haveLength_of_large {blocks : UInt32} (hblocks : 2 ^ 28 < blocks.toNat) :
    kMaxCtrlMessage ≤ haveLength blocks := by
  obtain ⟨runs, hsep, hcount, hweight⟩ := exists_heavy hblocks
  exact hweight.trans (weight_le_heaviest hsep hcount.le)

/-- The even number below an odd one is as long. -/
theorem decimalLength_even (n : Nat) : decimalLength (2 * (n / 2)) = decimalLength n := by
  apply le_antisymm (decimalLength_mono (by omega))
  rw [decimalLength_le_iff (decimalLength_pos _)]
  have hlt := (decimalLength_le_iff (decimalLength_pos (2 * (n / 2)))).mp le_rfl
  have heven : 10 ^ decimalLength (2 * (n / 2)) % 2 = 0 := by
    rw [Nat.pow_mod]
    simp [decimalLength]
  omega

theorem singlesPay_runWeight : SinglesPay runWeight := by
  intro start length hlength
  have hfirst : start / 2 < (start + length + 1) / 2 := by omega
  have hone : decimalLength 1 = 1 := by simp [decimalLength]
  -- Every other slot of the run pays at least six for what the length adds.
  have hrest : 6 * ((start + length + 1) / 2 - (start / 2 + 1)) ≤
      ∑ j ∈ Finset.Ico (start / 2 + 1) ((start + length + 1) / 2), runWeight (2 * j) 1 := by
    rw [← Nat.card_Ico, Nat.mul_comm, ← smul_eq_mul]
    refine Finset.card_nsmul_le_sum _ _ _ fun j _ => ?_
    have := decimalLength_pos (2 * j)
    rw [runWeight, hone]
    omega
  have hdigits : decimalLength length ≤ 1 + 6 * ((start + length + 1) / 2 - (start / 2 + 1)) := by
    by_cases hshort : length < 10
    · have := (@decimalLength_le_iff length 1 one_pos).mpr (by simpa using hshort)
      omega
    · have hlog : Nat.log 10 length ≤ length := Nat.log_le_self 10 length
      rw [decimalLength]
      omega
  rw [Finset.sum_eq_sum_Ico_succ_bot hfirst, runWeight, runWeight, decimalLength_even, hone]
  omega

/-- Up to `2 ^ 21` blocks nothing is longer than every second block. -/
theorem haveLength_eq {blocks : UInt32} (hblocks : blocks.toNat ≤ 2 ^ 21) :
    haveLength blocks =
      ∑ j ∈ Finset.range ((blocks.toNat + 1) / 2), (5 + decimalLength (2 * j)) := by
  rw [haveLength, heaviest_eq_singles singlesPay_runWeight (by omega)]
  refine Finset.sum_congr rfl fun j _ => ?_
  have hone : decimalLength 1 = 1 := by simp [decimalLength]
  rw [runWeight, hone]
  omega

/-! ## The length of an accept -/

/-- What `HaveRuns` lists of a file. -/
def listed (f : FileRx) : List SackRun := (f.bitmap.haveRunsFuel BlockBitmap.scanFuel (2 ^ 20)).getD []

/-- The scans of the file return, if the engine makes them. -/
def Lists (f : FileRx) : Prop :=
  f.verified = false → f.bitmap.count ≠ 0 →
    f.bitmap.haveRunsFuel BlockBitmap.scanFuel (2 ^ 20) = some (listed f)

/-- What a file adds to an `accept`, with a comma. -/
def entryCost (f : FileRx) : Nat :=
  if f.verified then 27 + decimalLength f.index.toNat
  else if f.bitmap.count != 0 then
    21 + decimalLength f.index.toNat + commaLength ((listed f).map runLength)
  else 0

theorem haveRuns_of_lists {t : Receiver} (h : ∀ f ∈ t.rx, Lists f) :
    t.haveRuns = some ((t.rx.filter fun f => !f.verified && f.bitmap.count != 0).map fun f =>
      (f.index, listed f)) := by
  refine CheckedList.mapM_eq_map fun f hf => ?_
  obtain ⟨hmem, hf⟩ := List.mem_filter.mp hf
  simp only [Bool.and_eq_true, Bool.not_eq_true', bne_iff_ne] at hf
  rw [h f hmem hf.1 hf.2, Option.map_some]

theorem acceptLength_eq (t : Receiver) :
    acceptLength (acceptFiles t.verifiedFiles
        ((t.rx.filter fun f => !f.verified && f.bitmap.count != 0).map fun f =>
          (f.index, listed f))) =
      28 + ((t.rx.map entryCost).sum - 1) := by
  rw [acceptLength, commaLength_eq, acceptFiles, Receiver.verifiedFiles]
  congr 2
  induction t.rx with
  | nil => rfl
  | cons f rx ih =>
    simp only [List.map_append, List.map_map, List.sum_append] at ih
    cases hverified : f.verified with
    | true =>
      simp [hverified, entryCost, AcceptFile.textLength, ← ih]
      omega
    | false =>
      by_cases hcount : f.bitmap.count = 0
      · simp [hverified, hcount, entryCost, ← ih]
      · simp [hverified, hcount, entryCost, AcceptFile.textLength, ← ih]
        omega

theorem arrives_accept {dump : Json → Option Bytes} (h : Prints dump) {t : Receiver}
    (hlists : ∀ f ∈ t.rx, Lists f) :
    (∃ runs, t.haveRuns = some runs ∧ Arrives dump (.accept (acceptFiles t.verifiedFiles runs))) ↔
      28 + ((t.rx.map entryCost).sum - 1) ≤ kMaxCtrlMessage := by
  rw [haveRuns_of_lists hlists, ← acceptLength_eq, ← arrives_iff (hasLength_accept h _)]
  simp

/-- A file of which the receiver has something costs at most its longest entry. -/
theorem entryCost_le {f : FileRx} (hsize : f.bitmap.size = f.blocks.toNat)
    (hblocks : f.blocks.toNat ≤ 2 ^ 28) :
    Lists f ∧ entryCost f ≤ longestEntry f.index f.blocks + 1 := by
  obtain ⟨rs, hrs, hcount, hsep⟩ :=
    @BlockBitmap.haveRuns_separated f.bitmap (2 ^ 20) (by omega)
  have hlisted : listed f = rs := by rw [listed, hrs, Option.getD_some]
  have hweight : weight runWeight (rs.map SackRun.span) ≤ haveLength f.blocks := by
    rw [hsize] at hsep
    exact weight_le_heaviest hsep (by simpa using hcount)
  refine ⟨fun _ _ => by rw [hlisted, hrs], ?_⟩
  rw [entryCost, longestEntry, hlisted, commaLength_runs]
  split
  · omega
  · split
    · omega
    · omega

/-! ## The longest accept -/

/-- A file that costs its longest entry, or more than fits. -/
structure Longest (i : UInt16) (n : UInt32) (f : FileRx) : Prop where
  index : f.index = i
  blocks : f.blocks = n
  size : f.bitmap.size = n.toNat
  lists : Lists f
  cost : min (longestEntry i n + 1) (kMaxCtrlMessage + 1) ≤ entryCost f

/-- A file with these runs. -/
def fileWith (index : UInt16) (blocks : UInt32) (runs : List (Nat × Nat)) : FileRx where
  index := index
  size := 0
  blocks := blocks
  partPath := []
  finalPath := []
  bitmap := BlockBitmap.ofRuns blocks runs

theorem entryCost_fileWith {index : UInt16} {blocks : UInt32} {runs : List (Nat × Nat)}
    (hsep : Separated blocks.toNat 0 runs) (hcount : runs.length ≤ 2 ^ 20) (hne : runs ≠ [])
    (hends : blocks.toNat ≤ 2 ^ 32 - 64 ∨ 2 ^ 20 = runs.length) :
    Lists (fileWith index blocks runs) ∧ entryCost (fileWith index blocks runs) =
      21 + decimalLength index.toNat + (weight runWeight runs - 1) := by
  have hscan := BlockBitmap.haveRuns_ofRuns hsep hcount hends
  have hlisted : listed (fileWith index blocks runs) = runs.map SackRun.ofSpan := by
    rw [listed, fileWith, hscan, Option.getD_some]
  have hbits : (BlockBitmap.ofRuns blocks runs).count ≠ 0 := by
    obtain ⟨⟨start, length⟩, rest, rfl⟩ := List.exists_cons_of_ne_nil hne
    have hfirst : (BlockBitmap.ofRuns blocks ((start, length) :: rest)).test start = true :=
      (BlockBitmap.ofRuns_test hsep).mpr (covered_cons.mpr (.inl ⟨le_rfl, by
        have := hsep.2.1
        omega⟩))
    exact BlockBitmap.count_ne_zero hfirst
  refine ⟨fun _ _ => by rw [hlisted, fileWith, hscan], ?_⟩
  rw [entryCost, hlisted, commaLength_runs, BlockBitmap.map_span_ofSpan hsep blocks.toNat_lt]
  simp [fileWith, hbits]

theorem exists_longest (index : UInt16) (blocks : UInt32) : ∃ f, Longest index blocks f := by
  by_cases hlarge : 2 ^ 28 < blocks.toNat
  · obtain ⟨runs, hsep, hcount, hweight⟩ := exists_heavy hlarge
    have hne : runs ≠ [] := by
      rintro rfl
      simp at hcount
    obtain ⟨hlists, hcost⟩ :=
      @entryCost_fileWith index blocks runs hsep hcount.le hne (.inr hcount.symm)
    refine ⟨_, rfl, rfl, BlockBitmap.ofRuns_size .., hlists, (min_le_right ..).trans ?_⟩
    rw [hcost]
    omega
  · by_cases hshort : haveLength blocks ≤ 7
    · let f : FileRx := { fileWith index blocks [] with verified := true }
      refine ⟨f, rfl, rfl, BlockBitmap.ofRuns_size .., fun hverified => ?_, (min_le_left ..).trans ?_⟩
      · cases hverified
      · have hcost : entryCost f = 27 + decimalLength index.toNat := if_pos rfl
        rw [hcost, longestEntry]
        omega
    · obtain ⟨runs, hsep, hcount, hweight⟩ := exists_heaviest runWeight blocks.toNat (2 ^ 20) 0
      have hlong : weight runWeight runs = haveLength blocks := hweight
      have hne : runs ≠ [] := by
        rintro rfl
        rw [weight_nil] at hlong
        omega
      obtain ⟨hlists, hcost⟩ :=
        @entryCost_fileWith index blocks runs hsep hcount hne (.inl (by omega))
      refine ⟨_, rfl, rfl, BlockBitmap.ofRuns_size .., hlists, (min_le_left ..).trans ?_⟩
      rw [hcost, hlong, longestEntry]
      omega

theorem longestAccept_eq (files : List ManifestFile) :
    longestAccept files =
      28 + (((fileKeys files).map fun key => longestEntry key.1 key.2 + 1).sum - 1) := by
  rw [longestAccept, commaLength_eq, List.map_map]
  rfl

theorem le_sum_of_mem {xs : List Nat} {n : Nat} (h : n ∈ xs) : n ≤ xs.sum :=
  List.single_le_sum (fun _ _ => Nat.zero_le _) n h

/-- No accept is longer than the longest one. -/
theorem sum_entryCost_le {m : Manifest} {t : Receiver} (hstate : BitmapState m t)
    (hsmall : longestAccept m.files ≤ kMaxCtrlMessage) :
    (∀ f ∈ t.rx, Lists f) ∧
      (t.rx.map entryCost).sum ≤
        ((fileKeys m.files).map fun key => longestEntry key.1 key.2 + 1).sum := by
  rw [longestAccept_eq, ← hstate.files, List.map_map] at hsmall
  rw [← hstate.files, List.map_map]
  have hfile : ∀ f ∈ t.rx, Lists f ∧ entryCost f ≤ longestEntry f.index f.blocks + 1 := by
    intro f hf
    refine entryCost_le (hstate.sizes f hf) ?_
    by_contra hlarge
    have hhave := haveLength_of_large (Nat.not_le.mp hlarge)
    have hentry : longestEntry f.index f.blocks + 1 ≤ _ :=
      le_sum_of_mem (List.mem_map_of_mem (f := fun f => longestEntry f.index f.blocks + 1) hf)
    have hlong : 20 + decimalLength f.index.toNat + (haveLength f.blocks - 1) ≤
        longestEntry f.index f.blocks := le_max_right ..
    have hlimit : kMaxCtrlMessage = 16777216 := rfl
    simp only [Function.comp_def] at hsmall
    omega
  exact ⟨fun f hf => (hfile f hf).1, List.sum_le_sum fun f hf => (hfile f hf).2⟩

/-- A state whose accept is the longest one, or too long as that one is. -/
theorem exists_longestAccept (m : Manifest) :
    ∃ t, BitmapState m t ∧ (∀ f ∈ t.rx, Lists f) ∧
      (28 + ((t.rx.map entryCost).sum - 1) ≤ kMaxCtrlMessage →
        longestAccept m.files ≤ kMaxCtrlMessage) := by
  choose chosen hchosen using exists_longest
  let t : Receiver := {
    rx := (fileKeys m.files).map fun key => chosen key.1 key.2
    createdDirs := []
    pc := .exited }
  have hmem : ∀ f ∈ t.rx, ∃ index blocks, Longest index blocks f := by
    intro f hf
    obtain ⟨key, -, rfl⟩ := List.mem_map.mp hf
    exact ⟨key.1, key.2, hchosen key.1 key.2⟩
  refine ⟨t, ⟨?_, ?_⟩, ?_, ?_⟩
  · rw [List.map_map]
    refine (List.map_congr_left fun key _ => ?_).trans (List.map_id (fileKeys m.files))
    simp [(hchosen key.1 key.2).index, (hchosen key.1 key.2).blocks]
  · intro f hf
    obtain ⟨index, blocks, hlongest⟩ := hmem f hf
    rw [hlongest.size, hlongest.blocks]
  · intro f hf
    obtain ⟨index, blocks, hlongest⟩ := hmem f hf
    exact hlongest.lists
  · intro hfits
    have hlimit : kMaxCtrlMessage = 16777216 := rfl
    have hcosts : ∀ key ∈ fileKeys m.files,
        longestEntry key.1 key.2 + 1 ≤ entryCost (chosen key.1 key.2) := by
      intro key hkey
      have hcost := (hchosen key.1 key.2).cost
      have hle : entryCost (chosen key.1 key.2) ≤ (t.rx.map entryCost).sum :=
        le_sum_of_mem (List.mem_map_of_mem (List.mem_map_of_mem hkey))
      omega
    have hsum : ((fileKeys m.files).map fun key => longestEntry key.1 key.2 + 1).sum ≤
        (t.rx.map entryCost).sum := by
      rw [List.map_map]
      exact List.sum_le_sum hcosts
    rw [longestAccept_eq]
    omega

/-! ## The accept of an engine that was started -/

/-- The state that the lists of an `accept` are taken in is that of an engine that was started. -/
theorem bitmapState_start {io : Receiver.StartIo} {m : Manifest} {saveDir : Path} {names : Names}
    {resume : List ReceiverFileState} {fs fs' : Fs} {t : Receiver}
    (h : Receiver.start io m saveDir names resume fs = (fs', t, none)) : BitmapState m t := by
  obtain ⟨mid, rx, created, bytes, done, -, hstarted, rfl⟩ := Receiver.start_ok h
  refine ⟨?_, hstarted.forall (P := fun f => f.bitmap.size = f.blocks.toNat) ?_ ?_⟩
  · have hfixed := congrArg (List.map fun key : UInt16 × UInt64 × UInt32 × Path × Path =>
      (key.1, key.2.2.1)) hstarted.fixed
    rw [List.map_map, List.map_map] at hfixed
    refine hfixed.trans (List.ext_getElem (by simp [fileKeys]) fun i _ _ => ?_)
    simp [fileKeys, FileRx.fixed, Receiver.freshFile]
  · intro fs fs' f f' hfile hsize
    have hblocks : f'.blocks = f.blocks := congrArg (·.2.2.1) hfile.fixed
    rw [hfile.bitmapSize, hblocks, hsize]
  · intro f hf
    obtain ⟨i, hi, rfl⟩ := List.mem_mapIdx.mp hf
    rfl

/-! ## Offers -/

theorem startOffer_sends {m : Manifest} {absFiles : List Bytes} {s : TransferSession}
    (hready : ReadyToOffer m absFiles s) (hfiles : absFiles.length ≠ 0) :
    .ctrl (.offer m.toJson) ∈ s.startOffer.2 ∧ s.startOffer.1.stopping = none := by
  have hcount : s.fileCount ≠ 0 := by rwa [hready.fileCount]
  unfold startOffer
  rw [if_neg hcount, hready.offerSent, if_neg (by simp)]
  simp only [setState, hready.running, Bool.or_false]
  split
  · exact ⟨by simp [hready.manifest], hready.unstopped⟩
  · exact ⟨by simp [hready.manifest], hready.unstopped⟩

theorem startOffer_fails (m : Manifest) : ((newSender m 0).startOffer).1.stopping ≠ none := by
  simp [startOffer, newSender, fail, stopEngines, TransferState.terminal]

theorem arrives_offer {dump : Json → Option Bytes} (h : Prints dump) {look : Bytes → Node}
    {paths : List Bytes} {m : Manifest} {absFiles : List Bytes}
    (hholds : Holds look paths m absFiles) :
    Arrives dump (.offer m.toJson) ↔
      offerLength (sharedFiles look paths) (sharedDirs look paths) (sharedRoots look paths)
        ((sharedFiles look paths).map (·.size)).sum ≤ kMaxCtrlMessage := by
  have hlength := hasLength_offer h (fun f hf => (hholds.safeFiles f hf).1) hholds.safeDirs
    hholds.safeRoots
  rw [arrives_iff hlength, offerLength, offerLength, commaLength_perm (hholds.dirs.map _),
    hholds.files, hholds.roots, hholds.total]

/-- A share that was built can be offered exactly when it holds a file, its offer fits and its longest
    accept does. -/
theorem offerable_iff {dump : Json → Option Bytes} (h : Prints dump) {look : Bytes → Node}
    {paths : List Bytes} {m : Manifest} {absFiles : List Bytes}
    (hbuilt : buildManifest look paths = .ok (m, absFiles)) :
    Offerable dump m absFiles ↔ SmallEnough look paths := by
  have hholds := buildManifest_spec hbuilt
  constructor
  · intro hoffer
    refine ⟨fun hnone => ?_, (arrives_offer h hholds).mp hoffer.offer, ?_⟩
    · have hcount : absFiles.length = 0 := by
        rw [hholds.absFiles, hholds.files, hnone, List.length_nil]
      have hready : ReadyToOffer m absFiles (newSender m 0) :=
        ⟨rfl, hcount.symm, rfl, rfl, rfl⟩
      exact startOffer_fails m (hoffer.sent _ hready).2
    · obtain ⟨t, hstate, hlists, hfits⟩ := exists_longestAccept m
      rw [← hholds.files]
      exact hfits ((arrives_accept h hlists).mp (hoffer.accept t hstate))
  · intro hsmall
    have hcount : absFiles.length ≠ 0 := by
      rw [hholds.absFiles, hholds.files, Ne, List.length_eq_zero_iff]
      exact hsmall.file
    refine ⟨fun s hready => startOffer_sends hready hcount,
      (arrives_offer h hholds).mpr hsmall.offer, fun t hstate => ?_⟩
    have haccept := hsmall.accept
    rw [← hholds.files] at haccept
    obtain ⟨hlists, hsum⟩ := sum_entryCost_le hstate haccept
    rw [arrives_accept h hlists]
    rw [longestAccept_eq] at haccept
    omega

/-- `/note`, of three blocks, and `/empty`, a directory. -/
def noteDisk (raw : Bytes) : Node :=
  if raw = ascii "/note" then .leaf (.file (some 3000)) else .dir (ascii "empty") .done

theorem note_offerable :
    Offerable dumpPlain ⟨[⟨ascii "note", 3000⟩], [ascii "empty"],
      [⟨ascii "empty", true⟩, ⟨ascii "note", false⟩], 3000⟩ [ascii "/note"] := by
  have hbuilt : buildManifest noteDisk [ascii "/empty", ascii "/note"] =
      .ok (⟨[⟨ascii "note", 3000⟩], [ascii "empty"],
        [⟨ascii "empty", true⟩, ⟨ascii "note", false⟩], 3000⟩, [ascii "/note"]) := by
    decide +kernel
  have hhave : haveLength 3 = 12 := by
    rw [haveLength_eq (by decide)]
    decide
  refine (offerable_iff prints_dumpPlain hbuilt).mpr ⟨by decide, by decide, ?_⟩
  show 28 + commaLength [max (26 + decimalLength 0) (20 + decimalLength 0 + (haveLength 3 - 1))] ≤
    kMaxCtrlMessage
  rw [hhave]
  decide

/-! ### A folder of long names -/

/-- 250 letters and five digits. -/
def photoName (i : Nat) : Name :=
  List.replicate 250 0x61 ++ (List.range 5).map fun k => UInt8.ofNat (0x30 + i / 10 ^ k % 10)

/-- A directory of `n` empty files. -/
def photos : Nat → Listing
  | 0 => .done
  | n + 1 => .leaf (photoName n) (.file (some 0)) (photos n)

def photoFile (i : Nat) : ManifestFile := ⟨ascii "photos" ++ slash :: photoName i, 0⟩

theorem photoName_word {i : Nat} {u : UInt8} (hu : u ∈ photoName i) : wordByte u = true := by
  rw [photoName, List.mem_append] at hu
  obtain hletter | hdigit := hu
  · obtain rfl := List.eq_of_mem_replicate hletter
    rfl
  · obtain ⟨k, -, rfl⟩ := List.mem_map.mp hdigit
    have hall : ∀ d : Fin 10, wordByte (UInt8.ofNat (0x30 + d.val)) = true := by decide +kernel
    exact hall ⟨i / 10 ^ k % 10, Nat.mod_lt _ (by norm_num)⟩

theorem length_photoName (i : Nat) : (photoName i).length = 255 := by
  rw [photoName, List.length_append, List.length_replicate, List.length_map, List.length_range]

theorem photoFile_safe (i : Nat) : isSafeRelativePath (photoFile i).path = true := by
  have hword : (ascii "photos").all wordByte = true := rfl
  have hroot : ∀ u ∈ ascii "photos", wordByte u = true := List.all_eq_true.mp hword
  have hname : ∀ u ∈ photoName i, wordByte u = true := fun u => photoName_word
  have hslash : ∀ c : Bytes, (∀ u ∈ c, wordByte u = true) → slash ∉ c := fun c hc hmem =>
    (wordByte_allowed (hc slash hmem)).2.2.2.2 rfl
  apply isSafeRelativePath_of_components
  · rw [photoFile, List.length_append, List.length_cons, length_photoName]
    decide
  · apply validUtf8_of_ascii
    rw [photoFile, List.forall_mem_append, List.forall_mem_cons]
    exact ⟨fun u hu => (wordByte_allowed (hroot u hu)).1, by decide,
      fun u hu => (wordByte_allowed (hname u hu)).1⟩
  · rw [photoFile, List.splitOn_append_cons_self, List.splitOn_eq_singleton (hslash _ hroot),
      List.splitOn_eq_singleton (hslash _ hname)]
    rw [List.singleton_append, List.forall_mem_cons, List.forall_mem_singleton]
    exact ⟨safeComponent_of_word hroot (by decide) (by decide),
      safeComponent_of_word hname (by rw [length_photoName]; decide)
        (by rw [length_photoName]; decide)⟩

theorem walk_photos (n : Nat) :
    walk [] (photos n) =
      (List.range n).reverse.map fun i => .leaf (slash :: photoName i) (.file (some 0)) := by
  induction n with
  | zero => rfl
  | succ n ih =>
    rw [photos, walk, ih, List.range_succ, List.reverse_append]
    rfl

theorem photos_files (n : Nat) :
    (Node.dir (ascii "photos") (photos n)).files (ascii "photos") = (List.range n).reverse.map photoFile := by
  rw [Node.files, walk_photos, List.filterMap_map]
  show List.filterMap (fun i => some (photoFile i)) _ = _
  rw [List.filterMap_eq_map']

section Photos

variable {look : Bytes → Node} {raw : Bytes} {n : Nat} (hname : fileName raw = ascii "photos")
  (hlook : look raw = .dir (ascii "photos") (photos n))
include hname hlook

theorem sharedFiles_photos : sharedFiles look [raw] = (List.range n).reverse.map photoFile := by
  rw [sharedFiles, List.flatMap_singleton, hname, hlook, photos_files]

theorem pathPasses_photos : PathPasses look raw := by
  have hvisits : ∀ v ∈ walk [] (photos n), v.Passes (ascii "photos") := by
    intro v hv
    rw [walk_photos] at hv
    obtain ⟨i, -, rfl⟩ := List.mem_map.mp hv
    exact ⟨photoFile_safe i, 0, rfl, Nat.zero_le _⟩
  refine ⟨?_, ?_, ?_⟩
  · rw [hname]
    decide
  · rw [hname]
    decide
  · rw [hlook]
    cases n with
    | zero => exact hvisits
    | succ n => exact hvisits

theorem buildManifest_photos (hn : n ≤ kMaxFilesPerTransfer) :
    ∃ m absFiles, buildManifest look [raw] = .ok (m, absFiles) := by
  refine buildManifest_passes (List.cons_ne_nil _ _) ?_ (List.nodup_singleton _) ?_
  · rw [List.forall_mem_singleton]
    exact pathPasses_photos hname hlook
  · rw [sharedFiles_photos hname hlook, List.length_map, List.length_reverse, List.length_range]
    exact hn

/-- Each file takes 282 bytes of the offer. -/
theorem le_offerLength_photos (dirs : List Bytes) (roots : List ManifestRoot) (total : UInt64) :
    n * 282 ≤ offerLength (sharedFiles look [raw]) dirs roots total := by
  have hfile : ∀ i, fileLength (photoFile i) = 282 := by
    intro i
    rw [fileLength, photoFile, List.length_append, List.length_cons, length_photoName]
    rfl
  have hsum : ((sharedFiles look [raw]).map fileLength).sum = n * 282 := by
    have hall : fileLength ∘ photoFile = fun _ => 282 := funext hfile
    rw [sharedFiles_photos hname hlook, List.map_map, hall]
    simp
  rw [offerLength, commaLength, commaLength, hsum]
  omega

end Photos

/-- `/photos`, with 60000 files. -/
def photoDisk (_ : Bytes) : Node := .dir (ascii "photos") (photos 60000)

theorem photos_not_offerable :
    ∃ m absFiles, buildManifest photoDisk [ascii "/photos"] = .ok (m, absFiles) ∧
      ¬Offerable dumpPlain m absFiles := by
  have hname : fileName (ascii "/photos") = ascii "photos" := by decide
  have hlook : photoDisk (ascii "/photos") = .dir (ascii "photos") (photos 60000) := rfl
  obtain ⟨m, absFiles, hbuilt⟩ := buildManifest_photos hname hlook (by decide)
  refine ⟨m, absFiles, hbuilt, fun hoffer => ?_⟩
  have hfits := (arrives_offer prints_dumpPlain (buildManifest_spec hbuilt)).mp hoffer.offer
  have hlong := (le_offerLength_photos hname hlook _ _ _).trans hfits
  exact absurd hlong (by decide)

end CrossTransfer.Share
