import Mathlib
import CrossTransfer.Library.Pieces
import CrossTransfer.Transfer.Manifest

/-! # How a file is cut into blocks

Block `b` of a file is the bytes from `1100 * b` on, 1100 of them or what is left. `blockCountFor`
and `blockLenFor` compute in 64 bits and cut their result to 32 and 16; up to `kMaxFileSize` nothing
is lost.
-/

namespace CrossTransfer.Transfer

open CrossTransfer.Library
open Paths

variable {size : UInt64} {content : Bytes} {b : Nat}

/-- The bytes of block `b`. -/
def blockOf (content : Bytes) (b : Nat) : Bytes :=
  (content.drop (b * kBlockPayloadSize)).take kBlockPayloadSize

theorem length_blockOf : (blockOf content b).length =
    min kBlockPayloadSize (content.length - b * kBlockPayloadSize) := by
  rw [blockOf, List.length_take, List.length_drop]

/-- The first blocks together are the first bytes. -/
theorem take_blocks (content : Bytes) (n : Nat) :
    (List.range n).flatMap (blockOf content) = content.take (n * kBlockPayloadSize) := by
  induction n with
  | zero => simp
  | succ n ih =>
    rw [List.range_succ, List.flatMap_append, ih, List.flatMap_singleton, blockOf, Nat.succ_mul,
      List.take_add]

/-! ## Counts and lengths -/

theorem toNat_payloadSize : (UInt64.ofNat kBlockPayloadSize).toNat = kBlockPayloadSize := rfl

/-- The sum in `BlockCountFor` fits in 64 bits. -/
theorem toNat_roundUp (h : size.toNat ≤ kMaxFileSize) :
    (size + UInt64.ofNat kBlockPayloadSize - 1).toNat = size.toNat + 1099 := by
  have hmax : kMaxFileSize = 1100 * 0xFFFFFFFF := rfl
  have hpayload : kBlockPayloadSize = 1100 := rfl
  have hone : (1 : UInt64).toNat = 1 := rfl
  have hadd : (size + UInt64.ofNat kBlockPayloadSize).toNat = size.toNat + 1100 := by
    rw [UInt64.toNat_add, toNat_payloadSize, hpayload, Nat.mod_eq_of_lt (by omega)]
  rw [UInt64.toNat_sub_of_le, hadd, hone]
  · omega
  · rw [UInt64.le_iff_toNat_le, hadd, hone]
    omega

/-- The quotient fits in 32 bits. -/
theorem toNat_quotient (h : size.toNat ≤ kMaxFileSize) :
    ((size + UInt64.ofNat kBlockPayloadSize - 1) / UInt64.ofNat kBlockPayloadSize).toNat =
        (size.toNat + 1099) / 1100 ∧ (size.toNat + 1099) / 1100 < 2 ^ 32 := by
  have hmax : kMaxFileSize = 1100 * 0xFFFFFFFF := rfl
  have hpayload : kBlockPayloadSize = 1100 := rfl
  refine ⟨?_, by omega⟩
  rw [UInt64.toNat_div, toNat_roundUp h, toNat_payloadSize, hpayload]

theorem toNat_blockCountFor (h : size.toNat ≤ kMaxFileSize) :
    (blockCountFor size).toNat = (size.toNat + 1099) / 1100 := by
  obtain ⟨hquotient, hlt⟩ := toNat_quotient h
  unfold blockCountFor
  split
  · rename_i hzero
    rw [hzero]
    rfl
  · rw [UInt64.toNat_toUInt32, hquotient, Nat.mod_eq_of_lt hlt]

/-- A block offset fits in 64 bits. -/
theorem toNat_blockOffset (index : UInt32) :
    (index.toUInt64 * UInt64.ofNat kBlockPayloadSize).toNat = index.toNat * kBlockPayloadSize := by
  have hlt := index.toNat_lt
  have hpayload : kBlockPayloadSize = 1100 := rfl
  rw [UInt64.toNat_mul, UInt32.toNat_toUInt64, toNat_payloadSize, hpayload,
    Nat.mod_eq_of_lt (by omega)]

/-- What is left of the file from a block on. -/
theorem toNat_remain {index : UInt32}
    (h : index.toUInt64 * UInt64.ofNat kBlockPayloadSize < size) :
    (size - index.toUInt64 * UInt64.ofNat kBlockPayloadSize).toNat =
      size.toNat - index.toNat * kBlockPayloadSize := by
  rw [UInt64.toNat_sub_of_le _ _ (UInt64.le_of_lt h), toNat_blockOffset]

theorem toNat_blockLenFor (size : UInt64) (index : UInt32) :
    (blockLenFor size index).toNat =
      min kBlockPayloadSize (size.toNat - index.toNat * kBlockPayloadSize) := by
  have hpayload : kBlockPayloadSize = 1100 := rfl
  have hoffset := toNat_blockOffset index
  unfold blockLenFor
  dsimp only
  split
  · rename_i hge
    rw [ge_iff_le, UInt64.le_iff_toNat_le, hoffset] at hge
    have hzero : (0 : UInt16).toNat = 0 := rfl
    rw [hzero]
    omega
  · rename_i hlt
    rw [ge_iff_le, UInt64.not_le] at hlt
    have hremain := toNat_remain hlt
    rw [UInt64.lt_iff_toNat_lt, hoffset] at hlt
    split
    · rename_i hshort
      rw [UInt64.lt_iff_toNat_lt, hremain, toNat_payloadSize] at hshort
      rw [UInt64.toNat_toUInt16, hremain, Nat.mod_eq_of_lt (by omega)]
      omega
    · rename_i hfull
      rw [UInt64.lt_iff_toNat_lt, hremain, toNat_payloadSize] at hfull
      have hsmall : kBlockPayloadSize % 2 ^ 16 = kBlockPayloadSize := rfl
      rw [UInt64.toNat_toUInt16, toNat_payloadSize, hsmall, Nat.min_eq_left (by omega)]

/-- The length of a block as the protocol computes it is its length. -/
theorem length_blockOf_eq (hcontent : content.length = size.toNat) (index : UInt32) :
    (blockOf content index.toNat).length = (blockLenFor size index).toNat := by
  rw [length_blockOf, toNat_blockLenFor, hcontent]

/-! ## The blocks partition the file -/

/-- The offsets that belong to a block. -/
def blockSpan (size : UInt64) (index : UInt32) : Set Nat :=
  Set.Ico (kBlockPayloadSize * index.toNat)
    (kBlockPayloadSize * index.toNat + (blockLenFor size index).toNat)

/-- What `BlockCountFor` and `BlockLenFor` compute on the way to their results is what they would
    compute without a limit on the size of numbers. -/
structure LosesNoBits (size : UInt64) : Prop where
  roundUp : (size + UInt64.ofNat kBlockPayloadSize - 1).toNat = size.toNat + kBlockPayloadSize - 1
  count : ((size + UInt64.ofNat kBlockPayloadSize - 1) / UInt64.ofNat kBlockPayloadSize).toUInt32.toNat =
    ((size + UInt64.ofNat kBlockPayloadSize - 1) / UInt64.ofNat kBlockPayloadSize).toNat
  offset : ∀ index : UInt32,
    (index.toUInt64 * UInt64.ofNat kBlockPayloadSize).toNat = index.toNat * kBlockPayloadSize
  remain : ∀ index : UInt32, index.toUInt64 * UInt64.ofNat kBlockPayloadSize < size →
    (size - index.toUInt64 * UInt64.ofNat kBlockPayloadSize).toNat =
      size.toNat - index.toNat * kBlockPayloadSize
  short : ∀ remain : UInt64, remain < UInt64.ofNat kBlockPayloadSize →
    remain.toUInt16.toNat = remain.toNat
  full : (UInt64.ofNat kBlockPayloadSize).toUInt16.toNat = kBlockPayloadSize

/-- The blocks of a file are full up to the last one, and together they are the file. -/
structure Partitioned (size : UInt64) : Prop where
  count : (blockCountFor size).toNat = pieces kBlockPayloadSize size.toNat
  full : ∀ index : UInt32, index.toNat + 1 < (blockCountFor size).toNat →
    (blockLenFor size index).toNat = kBlockPayloadSize
  last : ∀ index : UInt32, index.toNat + 1 = (blockCountFor size).toNat →
    1 ≤ (blockLenFor size index).toNat ∧ (blockLenFor size index).toNat ≤ kBlockPayloadSize
  beyond : ∀ index : UInt32, blockCountFor size ≤ index → blockLenFor size index = 0
  disjoint : Pairwise (Function.onFun Disjoint (blockSpan size))
  cover : ⋃ index < blockCountFor size, blockSpan size index = Set.Ico 0 size.toNat

theorem losesNoBits (h : size.toNat ≤ kMaxFileSize) : LosesNoBits size where
  roundUp := toNat_roundUp h
  count := by
    obtain ⟨hquotient, hlt⟩ := toNat_quotient h
    rw [UInt64.toNat_toUInt32, hquotient, Nat.mod_eq_of_lt hlt]
  offset := toNat_blockOffset
  remain _ := toNat_remain
  short remain hshort := by
    rw [UInt64.lt_iff_toNat_lt, toNat_payloadSize] at hshort
    have hpayload : kBlockPayloadSize = 1100 := rfl
    rw [UInt64.toNat_toUInt16, Nat.mod_eq_of_lt (by omega)]
  full := rfl

theorem toNat_blockLenFor_eq (size : UInt64) (index : UInt32) :
    (blockLenFor size index).toNat = pieceLen kBlockPayloadSize size.toNat index.toNat := by
  rw [toNat_blockLenFor, pieceLen, Nat.mul_comm]

theorem blockSpan_eq (size : UInt64) (index : UInt32) :
    blockSpan size index = piece kBlockPayloadSize size.toNat index.toNat := by
  rw [blockSpan, piece, toNat_blockLenFor_eq]

/-- Up to `kMaxFileSize` the blocks of a file partition it, and computing them loses no bits. -/
theorem blocks_partition (size : UInt64) (h : size.toNat ≤ kMaxFileSize) :
    Partitioned size ∧ LosesNoBits size := by
  have hpayload : 0 < kBlockPayloadSize := by decide
  have hcount : (blockCountFor size).toNat = pieces kBlockPayloadSize size.toNat :=
    toNat_blockCountFor h
  refine ⟨⟨hcount, fun index hindex => ?_, fun index hindex => ?_, fun index hindex => ?_,
    fun i j hij => ?_, ?_⟩, losesNoBits h⟩
  · rw [toNat_blockLenFor_eq]
    exact pieceLen_of_lt hpayload (hcount ▸ hindex)
  · rw [toNat_blockLenFor_eq]
    exact pieceLen_last hpayload (hcount ▸ hindex)
  · rw [← UInt16.toNat_inj, toNat_blockLenFor_eq]
    exact pieceLen_beyond hpayload (hcount ▸ UInt32.le_iff_toNat_le.mp hindex)
  · rw [Function.onFun, blockSpan_eq, blockSpan_eq]
    exact pairwise_disjoint_piece _ _ (mt UInt32.toNat_inj.mp hij)
  · rw [← iUnion_piece hpayload, ← hcount]
    ext x
    simp only [Set.mem_iUnion, blockSpan_eq, UInt32.lt_iff_toNat_lt, exists_prop]
    constructor
    · rintro ⟨index, hindex, hx⟩
      exact ⟨index.toNat, hindex, hx⟩
    · rintro ⟨i, hi, hx⟩
      have hnat : (UInt32.ofNat i).toNat = i := UInt32.toNat_ofNat_of_lt (hi.trans (UInt32.toNat_lt _))
      exact ⟨UInt32.ofNat i, by rwa [hnat], by rwa [hnat]⟩

theorem blocks_partition_twoBlocks : (1101 : UInt64).toNat ≤ kMaxFileSize ∧
    Partitioned 1101 ∧ LosesNoBits 1101 :=
  ⟨by decide, blocks_partition 1101 (by decide)⟩

end CrossTransfer.Transfer
