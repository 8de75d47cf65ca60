import Mathlib.Algebra.BigOperators.Group.Finset.Piecewise
import Mathlib.Algebra.Order.BigOperators.Group.Finset
import CrossTransfer.Library.FixedWidth
import CrossTransfer.Transfer.BatchRun
import CrossTransfer.Transfer.BlockLayout

/-! # How many bytes of a file are there

A block counts with its own length, which is 1100 bytes for all blocks but the last (`storedBytes`).
`Start` and the restart after a wrong hash count 1100 bytes for each block of the bitmap, up to the
size of the file. The two differ exactly if the last block is there while another one is missing, by
what the last block falls short of 1100 bytes (`overcount`).
-/

namespace CrossTransfer.Transfer

open CrossTransfer.Library
open Paths

/-! ## Sums of block lengths -/

section Lengths

variable {size n : Nat} {s : Finset Nat}

theorem payloadSize_eq : kBlockPayloadSize = 1100 := rfl

/-- All blocks count 1100 bytes but the last. -/
theorem sum_blockLen (s : Finset Nat) (hn : n = (size + 1099) / 1100) (hs : s ⊆ Finset.range n) :
    ∑ b ∈ s, min kBlockPayloadSize (size - b * kBlockPayloadSize) +
      (if n - 1 ∈ s then kBlockPayloadSize -
        min kBlockPayloadSize (size - (n - 1) * kBlockPayloadSize) else 0) =
      s.card * kBlockPayloadSize := by
  have hlast : (if n - 1 ∈ s then kBlockPayloadSize -
      min kBlockPayloadSize (size - (n - 1) * kBlockPayloadSize) else 0) =
      ∑ b ∈ s, if n - 1 = b then
        kBlockPayloadSize - min kBlockPayloadSize (size - b * kBlockPayloadSize) else 0 := by
    rw [Finset.sum_ite_eq]
  rw [hlast, ← Finset.sum_add_distrib, Finset.card_eq_sum_ones, Finset.sum_mul]
  refine Finset.sum_congr rfl fun b hb => ?_
  have hlt := Finset.mem_range.mp (hs hb)
  rw [payloadSize_eq]
  split
  · omega
  · omega

theorem sum_blockLen_range (hn : n = (size + 1099) / 1100) :
    ∑ b ∈ Finset.range n, min kBlockPayloadSize (size - b * kBlockPayloadSize) = size := by
  have hsum := sum_blockLen (Finset.range n) hn subset_rfl
  rw [Finset.card_range] at hsum
  obtain rfl | hpos := Nat.eq_zero_or_pos n
  · rw [Finset.sum_range_zero]
    omega
  · rw [if_pos (Finset.mem_range.mpr (by omega))] at hsum
    simp only [payloadSize_eq] at hsum ⊢
    omega

/-- The count of 1100 bytes a block, up to the size. -/
theorem min_card_mul (hn : n = (size + 1099) / 1100) (hs : s ⊆ Finset.range n) :
    min (s.card * kBlockPayloadSize) size =
      ∑ b ∈ s, min kBlockPayloadSize (size - b * kBlockPayloadSize) +
        (if n - 1 ∈ s ∧ s ≠ Finset.range n then kBlockPayloadSize -
          min kBlockPayloadSize (size - (n - 1) * kBlockPayloadSize) else 0) := by
  have hsum := sum_blockLen s hn hs
  by_cases hall : s = Finset.range n
  · subst hall
    rw [Finset.card_range, sum_blockLen_range hn, if_neg (fun h => h.2 rfl), payloadSize_eq]
    omega
  · -- One block is missing, so the others do not reach the size.
    have hcard : s.card < n := by
      have hlt := Finset.card_lt_card (Finset.ssubset_iff_subset_ne.mpr ⟨hs, hall⟩)
      rwa [Finset.card_range] at hlt
    have hcond : (n - 1 ∈ s ∧ s ≠ Finset.range n) ↔ n - 1 ∈ s := and_iff_left hall
    rw [if_congr hcond rfl rfl, hsum, payloadSize_eq]
    omega

end Lengths

/-! ## The bytes of a file -/

/-- The blocks of a file that have been received. -/
def FileRx.present (f : FileRx) : Finset Nat :=
  (Finset.range f.blocks.toNat).filter fun b => f.bitmap.test b = true

/-- The length of the received blocks; a verified file counts with its size. -/
def FileRx.storedBytes (f : FileRx) : Nat :=
  if f.verified then f.size.toNat
  else ∑ b ∈ f.present, (blockLenFor f.size (UInt32.ofNat b)).toNat

/-- The last block is there, and another one is missing. -/
def FileRx.LastEarly (f : FileRx) : Prop :=
  f.verified = false ∧ f.bitmap.complete = false ∧ f.bitmap.test (f.blocks.toNat - 1) = true

instance (f : FileRx) : Decidable f.LastEarly :=
  inferInstanceAs (Decidable (_ ∧ _ ∧ _))

/-- What `bitmapBytes` counts too much. -/
def FileRx.overcount (f : FileRx) : Nat :=
  if f.LastEarly then kBlockPayloadSize - (blockLenFor f.size (UInt32.ofNat (f.blocks.toNat - 1))).toNat
  else 0

/-- The plan of a file that a manifest may list. -/
structure Planned (f : FileRx) : Prop where
  size : f.size.toNat ≤ kMaxFileSize
  blocks : f.blocks = blockCountFor f.size

variable {f g : FileRx}

theorem Planned.count (h : Planned f) : f.blocks.toNat = (f.size.toNat + 1099) / 1100 := by
  rw [h.blocks, toNat_blockCountFor h.size]

theorem present_subset (f : FileRx) : f.present ⊆ Finset.range f.blocks.toNat :=
  Finset.filter_subset ..

theorem toNat_ofNat_block {b : Nat} (h : b < f.blocks.toNat) : (UInt32.ofNat b).toNat = b :=
  UInt32.toNat_ofNat_of_lt (h.trans f.blocks.toNat_lt)

theorem sum_lengths {s : Finset Nat} (hs : s ⊆ Finset.range f.blocks.toNat) :
    ∑ b ∈ s, (blockLenFor f.size (UInt32.ofNat b)).toNat =
      ∑ b ∈ s, min kBlockPayloadSize (f.size.toNat - b * kBlockPayloadSize) := by
  refine Finset.sum_congr rfl fun b hb => ?_
  rw [toNat_blockLenFor, toNat_ofNat_block (Finset.mem_range.mp (hs hb))]

theorem storedBytes_le (h : Planned f) : f.storedBytes ≤ f.size.toNat := by
  unfold FileRx.storedBytes
  split
  · exact le_rfl
  · rw [sum_lengths (present_subset f)]
    refine le_trans (Finset.sum_le_sum_of_subset (present_subset f)) (le_of_eq ?_)
    exact sum_blockLen_range h.count

theorem present_eq_iff (hsize : f.bitmap.size = f.blocks.toNat) :
    f.present = Finset.range f.blocks.toNat ↔ f.bitmap.complete = true := by
  rw [FileRx.present, Finset.filter_eq_self, BlockBitmap.complete_iff, hsize]
  simp only [Finset.mem_range]

/-- A complete file is all there. -/
theorem storedBytes_of_complete (h : Planned f) (hsize : f.bitmap.size = f.blocks.toNat)
    (complete : f.verified = true ∨ f.bitmap.complete = true) : f.storedBytes = f.size.toNat := by
  unfold FileRx.storedBytes
  split
  · rfl
  · rename_i hv
    have hall := (present_eq_iff hsize).mpr (complete.resolve_left hv)
    rw [sum_lengths (present_subset f), hall, sum_blockLen_range h.count]

theorem card_present (hsize : f.bitmap.size = f.blocks.toNat) : f.bitmap.count = f.present.card := by
  rw [f.bitmap.count_eq, setIndices, hsize, FileRx.present]
  simp only [BlockBitmap.test_eq]

/-- `bitmapBytes` is right but for the last block. -/
theorem toNat_bitmapBytes (h : Planned f) (hsize : f.bitmap.size = f.blocks.toNat)
    (hv : f.verified = false) :
    (Receiver.bitmapBytes f).toNat = f.storedBytes + f.overcount := by
  have hcount : f.bitmap.count ≤ f.blocks.toNat := by
    rw [card_present hsize]
    exact (Finset.card_le_card (present_subset f)).trans (Finset.card_range _).le
  have hblocks := f.blocks.toNat_lt
  have hmul : (UInt64.ofNat f.bitmap.count * UInt64.ofNat kBlockPayloadSize).toNat =
      f.present.card * kBlockPayloadSize := by
    have hroom : (2 : Nat) ^ 32 < UInt64.size := by decide
    rw [UInt64.toNat_mul, UInt64.toNat_ofNat_of_lt' (by omega), toNat_payloadSize,
      ← card_present hsize, payloadSize_eq, Nat.mod_eq_of_lt (by omega)]
  have hearly : f.LastEarly ↔ f.blocks.toNat - 1 ∈ f.present ∧
      f.present ≠ Finset.range f.blocks.toNat := by
    rw [Ne, present_eq_iff hsize, FileRx.LastEarly, FileRx.present, Finset.mem_filter, Finset.mem_range]
    constructor
    · rintro ⟨-, hmissing, hlast⟩
      have hlt := BlockBitmap.lt_size_of_test hlast
      rw [hsize] at hlt
      exact ⟨⟨hlt, hlast⟩, by simp [hmissing]⟩
    · rintro ⟨⟨-, hlast⟩, hmissing⟩
      exact ⟨hv, by simpa using hmissing, hlast⟩
  rw [Receiver.bitmapBytes, toNat_min64, hmul, min_card_mul h.count (present_subset f),
    FileRx.storedBytes, hv, if_neg Bool.false_ne_true, sum_lengths (present_subset f), FileRx.overcount,
    if_congr hearly rfl rfl]
  congr 1
  split
  · rename_i hlast
    have hlt := Finset.mem_range.mp (present_subset f hlast.1)
    rw [toNat_blockLenFor, toNat_ofNat_block hlt]
  · rfl

/-! ## What changes them -/

/-- Marking missing blocks adds their lengths. -/
theorem sum_setBlocks (len : Nat → Nat) {n : Nat} {blocks : List UInt32} {bitmap : BlockBitmap}
    (hsize : bitmap.size = n) (distinct : (blocks.map (·.toNat)).Nodup)
    (missing : ∀ i ∈ blocks, i.toNat < n ∧ bitmap.test i.toNat = false) :
    ∑ b ∈ Finset.range n with (Receiver.setBlocks bitmap blocks).test b = true, len b =
      ∑ b ∈ Finset.range n with bitmap.test b = true, len b + (blocks.map fun i => len i.toNat).sum := by
  induction blocks generalizing bitmap with
  | nil => rfl
  | cons i rest ih =>
    rw [List.map_cons, List.nodup_cons] at distinct
    rw [List.forall_mem_cons] at missing
    obtain ⟨⟨hlt, hnew⟩, hrest⟩ := missing
    have hset : ∀ k, (bitmap.set i.toNat).1.test k = true ↔ bitmap.test k = true ∨ k = i.toNat := by
      intro k
      rw [BlockBitmap.set_test, Bool.or_eq_true, decide_eq_true_eq, hsize]
      exact or_congr_right ⟨fun h => h.1.symm, fun h => ⟨h.symm, hlt⟩⟩
    have hsum := ih ((BlockBitmap.set_size _ _).trans hsize) distinct.2 fun j hj => by
      refine ⟨(hrest j hj).1, ?_⟩
      have hne : j.toNat ≠ i.toNat := fun heq => distinct.1 (heq ▸ List.mem_map_of_mem hj)
      rw [← Bool.not_eq_true, hset]
      simp [(hrest j hj).2, hne]
    have hinsert : (Finset.range n).filter (fun b => (bitmap.set i.toNat).1.test b = true) =
        insert i.toNat ((Finset.range n).filter fun b => bitmap.test b = true) := by
      ext k
      simp only [Finset.mem_filter, Finset.mem_insert, Finset.mem_range, hset]
      constructor
      · rintro ⟨hk, hold | hnew⟩
        · exact .inr ⟨hk, hold⟩
        · exact .inl hnew
      · rintro (rfl | ⟨hk, hold⟩)
        · exact ⟨hlt, .inr rfl⟩
        · exact ⟨hk, .inl hold⟩
    have hnotin : i.toNat ∉ (Finset.range n).filter fun b => bitmap.test b = true := by
      simp [hnew]
    rw [List.map_cons, List.sum_cons]
    refine hsum.trans ?_
    rw [hinsert, Finset.sum_insert hnotin]
    omega

/-- No block is twice in a run. -/
theorem Collected.distinct {run : BlockRun} {ps : List Pending} (collected : Collected f run ps) :
    (run.blocks.map (·.toNat)).Nodup := by
  rw [collected.blocks, List.map_map, List.nodup_iff_getElem?_ne_getElem?]
  intro i j hij hj heq
  rw [List.length_map] at hj
  obtain ⟨q, hq⟩ : ∃ q, ps[i]? = some q := ⟨_, List.getElem?_eq_getElem (hij.trans hj)⟩
  obtain ⟨r, hr⟩ : ∃ r, ps[j]? = some r := ⟨_, List.getElem?_eq_getElem hj⟩
  have hfirst := collected.order i q hq
  have hsecond := collected.order j r hr
  rw [List.getElem?_map, List.getElem?_map, hq, hr] at heq
  have hsame : q.block.toNat = r.block.toNat := Option.some.inj heq
  omega

theorem Collected.missing {run : BlockRun} {ps : List Pending} (collected : Collected f run ps) :
    ∀ i ∈ run.blocks, i.toNat < f.blocks.toNat ∧ f.bitmap.test i.toNat = false := by
  intro i hi
  obtain ⟨q, hq, rfl⟩ := collected.mem_blocks hi
  have fresh := collected.fresh q hq
  exact ⟨UInt32.lt_iff_toNat_lt.mp fresh.inside, fresh.missing⟩

/-- A run that is written adds its bytes. -/
theorem storedBytes_markRun {run : BlockRun} {ps : List Pending} (sized : Sized f)
    (collected : Collected f run ps) :
    (Receiver.markRun f run).storedBytes = f.storedBytes + run.data.length := by
  obtain ⟨p, rest, hps⟩ := List.exists_cons_of_ne_nil collected.nonempty
  have hv : f.verified = false := (collected.fresh p (hps ▸ List.mem_cons_self)).verified
  have hv' : (Receiver.markRun f run).verified = false := hv
  have hdata : run.data.length =
      (run.blocks.map fun i => (blockLenFor f.size (UInt32.ofNat i.toNat)).toNat).sum := by
    rw [collected.data, collected.blocks, List.length_flatMap, List.map_map]
    congr 1
    refine List.map_congr_left fun q hq => ?_
    rw [(collected.length q hq).1, (collected.fresh q hq).len, Function.comp, UInt32.ofNat_toNat]
  have hsum := sum_setBlocks (fun b => (blockLenFor f.size (UInt32.ofNat b)).toNat) sized.size
    collected.distinct collected.missing
  simp only [FileRx.storedBytes, hv, hv', Bool.false_eq_true, if_false]
  rw [hdata]
  exact hsum

/-- A run that is written adds its blocks. -/
theorem count_markRun {run : BlockRun} {ps : List Pending} (sized : Sized f)
    (collected : Collected f run ps) :
    (Receiver.markRun f run).bitmap.count = f.bitmap.count + run.blocks.length := by
  have hsize : (Receiver.markRun f run).bitmap.size = (Receiver.markRun f run).blocks.toNat :=
    (Receiver.setBlocks_grows run.blocks f.bitmap).1.trans sized.size
  have hsum := sum_setBlocks (fun _ => 1) sized.size collected.distinct collected.missing
  rw [List.map_const', List.sum_replicate_nat, Nat.mul_one] at hsum
  rw [card_present hsize, card_present sized.size, Finset.card_eq_sum_ones, Finset.card_eq_sum_ones]
  exact hsum

/-- A file that starts over has nothing. -/
theorem storedBytes_resetFile (hv : f.verified = false) (writer : Option (Option Nat)) :
    (Receiver.resetFile f writer).storedBytes = 0 := by
  have hv' : (Receiver.resetFile f writer).verified = false := hv
  have hempty : (Receiver.resetFile f writer).present = ∅ := by
    rw [FileRx.present, Finset.filter_eq_empty_iff]
    intro b _
    simp [Receiver.resetFile]
  rw [FileRx.storedBytes, hv', if_neg Bool.false_ne_true, hempty, Finset.sum_empty]

end CrossTransfer.Transfer
