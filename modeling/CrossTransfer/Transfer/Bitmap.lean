import Mathlib.Data.Finset.Card
import Mathlib.Tactic
import CrossTransfer.Library.Loop
import CrossTransfer.Transfer.BlockCodec

/-! # The received-block bitmap

`core/src/transfer/bitmap.{h,cpp}`: one bit per block in 64-bit words, a counter, and a
cached lower bound of the first unset index that `AckBase` advances lazily.

`BlockBitmap` carries what the class keeps true of its private fields: the words span the
size, no bit at or above the size is set, the counter is the number of set bits and every
bit below the cached bound is set.  Indices are `Nat`; the 32-bit additions of the scans
are written with `u32`, so that a scan near `2 ^ 32` wraps here as it does in the source.
`size_t` has 64 bits, so that the number of words does not wrap; `BitmapFields` is the class
for both widths.
-/

namespace CrossTransfer.Transfer

open CrossTransfer.Library

/-- Conversion to `uint32_t`. -/
def u32 (n : Nat) : Nat := n % 2 ^ 32

theorem u32_of_lt {n : Nat} (h : n < 2 ^ 32) : u32 n = n := Nat.mod_eq_of_lt h

theorem u32_lt (n : Nat) : u32 n < 2 ^ 32 := Nat.mod_lt _ (by norm_num)

/-- Bit `i` of the word array. -/
def wordBit (words : List (BitVec 64)) (i : Nat) : Bool :=
  (words.getD (i / 64) 0).getLsbD (i % 64)

/-- The word array with bit `i` set. -/
def setWordBit (words : List (BitVec 64)) (i : Nat) : List (BitVec 64) :=
  words.set (i / 64) (words.getD (i / 64) 0 ||| (1#64 <<< (i % 64)))

/-- The indices below `n` whose bit is set. -/
def setIndices (words : List (BitVec 64)) (n : Nat) : Finset Nat :=
  (Finset.range n).filter fun i => wordBit words i = true

structure BlockBitmap where
  words : List (BitVec 64)
  size : Nat
  count : Nat
  /-- `ack_base_`: a lower bound of the first unset index. -/
  ackBaseCache : Nat
  size_lt : size < 2 ^ 32
  words_length : words.length = (size + 63) / 64
  bit_above : ∀ i, size ≤ i → wordBit words i = false
  count_eq : count = (setIndices words size).card
  bit_below : ∀ i, i < ackBaseCache → wordBit words i = true

/-! ## Words -/

theorem wordBit_replicate_zero (n i : Nat) : wordBit (List.replicate n 0#64) i = false := by
  simp only [wordBit, List.getD_eq_getElem?_getD]
  by_cases h : i / 64 < n <;> simp [h]

theorem getLsbD_orBit (w : BitVec 64) (i j : Nat) (hj : j < 64) :
    (w ||| (1#64 <<< i)).getLsbD j = (w.getLsbD j || decide (i = j)) := by
  simp only [BitVec.getLsbD_or, BitVec.getLsbD_shiftLeft, hj, decide_true, Bool.true_and,
    BitVec.getLsbD_one]
  have shifted : (!decide (j < i) && (decide (0 < 64) && decide (j - i = 0))) = decide (i = j) := by
    rw [Bool.eq_iff_iff]
    simp
    omega
  rw [shifted]

theorem wordBit_setWordBit (words : List (BitVec 64)) (i j : Nat) (h : i / 64 < words.length) :
    wordBit (setWordBit words i) j = (wordBit words j || decide (i = j)) := by
  have hj : j % 64 < 64 := Nat.mod_lt _ (by norm_num)
  simp only [wordBit, setWordBit, List.getD_eq_getElem?_getD, List.getElem?_set]
  by_cases hw : i / 64 = j / 64
  · simp only [hw, if_true]
    rw [if_pos (hw ▸ h), Option.getD_some, getLsbD_orBit _ _ _ hj]
    congr 1
    simp only [decide_eq_decide]
    omega
  · have : i ≠ j := fun e => hw (by rw [e])
    simp [hw, this]

/-- A word whose bits are all set holds the 64 indices that start at its first. -/
theorem wordBit_of_allOnes {words : List (BitVec 64)} {w k : Nat}
    (h : words.getD w 0 = BitVec.allOnes 64) (hk : k / 64 = w) : wordBit words k = true := by
  simp only [wordBit, hk, h, BitVec.getLsbD_allOnes, decide_eq_true_eq]
  omega

theorem wordBit_of_zero {words : List (BitVec 64)} {w k : Nat}
    (h : words.getD w 0 = 0) (hk : k / 64 = w) : wordBit words k = false := by
  simp only [wordBit, hk, h]
  exact BitVec.getLsbD_zero

namespace BlockBitmap

/-! ## Reset, Test, Set -/

/-- `Reset`: `block_count` unset bits. -/
def reset (blockCount : UInt32) : BlockBitmap where
  words := List.replicate ((blockCount.toNat + 63) / 64) 0#64
  size := blockCount.toNat
  count := 0
  ackBaseCache := 0
  size_lt := blockCount.toNat_lt
  words_length := List.length_replicate
  bit_above := fun i _ => wordBit_replicate_zero _ i
  count_eq := by
    rw [setIndices, Finset.filter_false_of_mem, Finset.card_empty]
    intro i _
    simp [wordBit_replicate_zero]
  bit_below := fun i h => absurd h (Nat.not_lt_zero i)

def complete (b : BlockBitmap) : Bool := b.count == b.size

def test (b : BlockBitmap) (i : Nat) : Bool :=
  if b.size ≤ i then false else wordBit b.words i

theorem test_eq (b : BlockBitmap) (i : Nat) : b.test i = wordBit b.words i := by
  by_cases h : b.size ≤ i
  · simp [test, h, b.bit_above i h]
  · simp [test, h]

theorem test_above (b : BlockBitmap) {i : Nat} (h : b.size ≤ i) : b.test i = false := by
  simp [test, h]

theorem lt_size_of_test {b : BlockBitmap} {i : Nat} (h : b.test i = true) : i < b.size := by
  by_contra hge
  simp [b.test_above (Nat.not_lt.mp hge)] at h

@[simp] theorem reset_size (n : UInt32) : (reset n).size = n.toNat := rfl

@[simp] theorem reset_test (n : UInt32) (i : Nat) : (reset n).test i = false := by
  rw [test_eq]
  exact wordBit_replicate_zero _ i

/-- The word index of an index below the size is in range. -/
theorem word_lt_length (b : BlockBitmap) {i : Nat} (h : i < b.size) : i / 64 < b.words.length := by
  rw [b.words_length]
  omega

/-- The counter after a fresh bit is set. -/
theorem card_setIndices_setWordBit (b : BlockBitmap) {i : Nat} (h : i < b.size)
    (fresh : wordBit b.words i = false) :
    b.count + 1 = (setIndices (setWordBit b.words i) b.size).card := by
  have grown : setIndices (setWordBit b.words i) b.size = insert i (setIndices b.words b.size) := by
    ext k
    simp only [setIndices, Finset.mem_filter, Finset.mem_range, Finset.mem_insert,
      wordBit_setWordBit _ _ _ (b.word_lt_length h), Bool.or_eq_true, decide_eq_true_eq]
    constructor
    · rintro ⟨hk, hbit | rfl⟩
      · exact .inr ⟨hk, hbit⟩
      · exact .inl rfl
    · rintro (rfl | ⟨hk, hbit⟩)
      · exact ⟨h, .inr rfl⟩
      · exact ⟨hk, .inl hbit⟩
  rw [grown, Finset.card_insert_of_notMem (by simp [setIndices, fresh]), b.count_eq]

/-- `Set`: the new bitmap, and whether the bit was newly set. -/
def set (b : BlockBitmap) (i : Nat) : BlockBitmap × Bool :=
  if h : i < b.size then
    if fresh : wordBit b.words i = false then
      ({ words := setWordBit b.words i
         size := b.size
         count := b.count + 1
         ackBaseCache := b.ackBaseCache
         size_lt := b.size_lt
         words_length := by simp [setWordBit, b.words_length]
         bit_above := fun k hk => by
           rw [wordBit_setWordBit _ _ _ (b.word_lt_length h), b.bit_above k hk]
           simp only [Bool.false_or, decide_eq_false_iff_not]
           omega
         count_eq := b.card_setIndices_setWordBit h fresh
         bit_below := fun k hk => by
           rw [wordBit_setWordBit _ _ _ (b.word_lt_length h), b.bit_below k hk]
           rfl }, true)
    else (b, false)
  else (b, false)

@[simp] theorem set_size (b : BlockBitmap) (i : Nat) : (b.set i).1.size = b.size := by
  unfold set
  split
  · split <;> rfl
  · rfl

theorem set_test (b : BlockBitmap) (i k : Nat) :
    (b.set i).1.test k = (b.test k || decide (i = k ∧ i < b.size)) := by
  rw [test_eq, test_eq]
  unfold set
  by_cases h : i < b.size
  · by_cases fresh : wordBit b.words i = false
    · simp [h, fresh, wordBit_setWordBit _ _ _ (b.word_lt_length h)]
    · simp only [h, fresh, dite_true, and_true]
      by_cases hk : i = k
      · subst hk; simpa using fresh
      · simp [hk]
  · simp [h]

/-- `SetRuns`: every in-range block of the runs. -/
def setRuns (b : BlockBitmap) (runs : List SackRun) : BlockBitmap :=
  runs.foldl (fun b r =>
    if b.size ≤ r.start.toNat then b
    else
      let stop := min (r.start.toNat + r.length.toNat) b.size
      (List.range' r.start.toNat (stop - r.start.toNat)).foldl (fun b i => (b.set i).1) b) b

theorem foldl_set_size (indices : List Nat) (b : BlockBitmap) :
    (indices.foldl (fun b i => (b.set i).1) b).size = b.size := by
  induction indices generalizing b with
  | nil => rfl
  | cons i rest ih => rw [List.foldl_cons, ih, set_size]

@[simp] theorem setRuns_size (b : BlockBitmap) (runs : List SackRun) :
    (b.setRuns runs).size = b.size := by
  unfold setRuns
  induction runs generalizing b with
  | nil => rfl
  | cons r rest ih =>
    rw [List.foldl_cons, ih]
    split
    · rfl
    · exact foldl_set_size _ b

/-- All blocks below the size are set exactly when the counter says so. -/
theorem complete_iff (b : BlockBitmap) : b.complete = true ↔ ∀ i, i < b.size → b.test i = true := by
  simp only [complete, beq_iff_eq, b.count_eq, test_eq]
  constructor
  · intro hcard i hi
    have full : setIndices b.words b.size = Finset.range b.size :=
      Finset.eq_of_subset_of_card_le (Finset.filter_subset _ _) (by simp [hcard])
    have : i ∈ setIndices b.words b.size := by rw [full]; exact Finset.mem_range.mpr hi
    exact (Finset.mem_filter.mp this).2
  · intro hall
    rw [setIndices, Finset.filter_true_of_mem, Finset.card_range]
    exact fun i hi => hall i (Finset.mem_range.mp hi)

/-! ## AckBase -/

/-- One round of the `AckBase` loop at index `i`. -/
def ackBaseStep (b : BlockBitmap) (i : Nat) : Option (Nat ⊕ Nat) :=
  if i < b.size then
    let wi := i / 64
    let w := b.words.getD wi 0
    if w = BitVec.allOnes 64 then some (.inl (u32 ((wi + 1) * 64)))
    else
      -- The first zero bit at or after `i` inside this word.
      let masked := ~~~w &&& (BitVec.allOnes 64 <<< (i % 64))
      if masked = 0 then some (.inl (u32 ((wi + 1) * 64)))
      else some (.inr (u32 (wi * 64 + masked.ctz.toNat)))
  else some (.inr i)

/-- The index the `AckBase` loop stops at, started from the cached bound. -/
def ackBaseScan (b : BlockBitmap) : Option Nat :=
  iterate b.ackBaseStep (b.size + 1) b.ackBaseCache

/-- All bits below `i` are set; such an `i` is at most the size. -/
theorem le_size_of_below (b : BlockBitmap) {i : Nat} (h : ∀ k, k < i → wordBit b.words k = true) :
    i ≤ b.size := by
  by_contra hlt
  have := h b.size (by omega)
  simp [b.bit_above b.size (Nat.le_refl _)] at this

/-- In a round that leaves the word, every bit of the word from `i` on is set. -/
theorem below_next_word (b : BlockBitmap) {i : Nat}
    (below : ∀ k, k < i → wordBit b.words k = true)
    (word : ∀ k, i ≤ k → k / 64 = i / 64 → wordBit b.words k = true) :
    ∀ k, k < (i / 64 + 1) * 64 → wordBit b.words k = true := by
  intro k hk
  by_cases hki : k < i
  · exact below k hki
  · exact word k (by omega) (by omega)

/-- The mask of `AckBase`: bit `j` of the masked word is an unset bit at or after `i`. -/
theorem getLsbD_masked (w : BitVec 64) (i j : Nat) (hj : j < 64) :
    (~~~w &&& (BitVec.allOnes 64 <<< i)).getLsbD j = (!w.getLsbD j && decide (i ≤ j)) := by
  have allOnes : (BitVec.allOnes 64).getLsbD (j - i) = true := by
    simp only [BitVec.getLsbD_allOnes, decide_eq_true_eq]
    omega
  simp only [BitVec.getLsbD_and, BitVec.getLsbD_not, BitVec.getLsbD_shiftLeft, hj, decide_true,
    Bool.true_and, allOnes, Bool.and_true]
  congr 1
  rw [Bool.eq_iff_iff]
  simp

theorem ackBaseScan_spec (b : BlockBitmap) :
    ∃ r, b.ackBaseScan = some r ∧ (∀ k, k < r → wordBit b.words k = true) ∧
      wordBit b.words r = false := by
  refine iterate_total _ (fun i => ∀ k, k < i → wordBit b.words k = true) (fun i => b.size - i)
    (fun r => (∀ k, k < r → wordBit b.words k = true) ∧ wordBit b.words r = false) ?_
    _ _ b.bit_below (by omega)
  intro i below
  have hle := b.le_size_of_below below
  by_cases hi : i < b.size
  swap
  · right
    have : i = b.size := by omega
    exact ⟨i, by simp [ackBaseStep, hi], below, b.bit_above i (by omega)⟩
  -- A word without an unset bit from `i` on is skipped.
  have skip : (∀ k, i ≤ k → k / 64 = i / 64 → wordBit b.words k = true) →
      (∀ k, k < u32 ((i / 64 + 1) * 64) → wordBit b.words k = true) ∧
        b.size - u32 ((i / 64 + 1) * 64) < b.size - i := by
    intro word
    have next := b.below_next_word below word
    have hnext := b.le_size_of_below next
    have hlt := b.size_lt
    rw [u32_of_lt (by omega)]
    exact ⟨next, by omega⟩
  by_cases full : b.words.getD (i / 64) 0 = BitVec.allOnes 64
  · left
    obtain ⟨next, drop⟩ := skip fun k _ hk => wordBit_of_allOnes full hk
    exact ⟨_, by simp only [ackBaseStep, hi, if_true, full], next, drop⟩
  by_cases none : ~~~(b.words.getD (i / 64) 0) &&& (BitVec.allOnes 64 <<< (i % 64)) = 0
  · left
    have word : ∀ k, i ≤ k → k / 64 = i / 64 → wordBit b.words k = true := by
      intro k hik hk
      have bit := congrArg (fun v => v.getLsbD (k % 64)) none
      simp only [getLsbD_masked _ _ _ (Nat.mod_lt k (by norm_num : 64 > 0))] at bit
      simp only [BitVec.ofNat_eq_ofNat, BitVec.getLsbD_zero, Bool.and_eq_false_iff,
        decide_eq_false_iff_not] at bit
      rw [wordBit, hk]
      obtain set | above := bit
      · simpa using set
      · omega
    obtain ⟨next, drop⟩ := skip word
    exact ⟨_, by simp only [ackBaseStep, hi, if_true, full, if_false, none], next, drop⟩
  · right
    set masked := ~~~(b.words.getD (i / 64) 0) &&& (BitVec.allOnes 64 <<< (i % 64)) with hmasked
    have ctz_lt : masked.ctz.toNat < 64 := BitVec.ctz_lt_iff_ne_zero.mpr none
    have found := BitVec.getLsbD_true_ctz_of_ne_zero none
    rw [hmasked, getLsbD_masked _ _ _ (hmasked ▸ ctz_lt), ← hmasked] at found
    simp only [Bool.and_eq_true, decide_eq_true_eq] at found
    have position : (i / 64 * 64 + masked.ctz.toNat) / 64 = i / 64 := by omega
    have offset : (i / 64 * 64 + masked.ctz.toNat) % 64 = masked.ctz.toNat := by omega
    have unset : wordBit b.words (i / 64 * 64 + masked.ctz.toNat) = false := by
      rw [wordBit, position, offset]
      simpa using found.1
    have before : ∀ k, k < i / 64 * 64 + masked.ctz.toNat → wordBit b.words k = true := by
      intro k hk
      by_cases hki : k < i
      · exact below k hki
      have hword : k / 64 = i / 64 := by omega
      have early : k % 64 < masked.ctz.toNat := by omega
      have bit := BitVec.getLsbD_false_of_lt_ctz early
      rw [hmasked, getLsbD_masked _ _ _ (Nat.mod_lt k (by norm_num : 64 > 0))] at bit
      simp only [Bool.and_eq_false_iff, decide_eq_false_iff_not] at bit
      rw [wordBit, hword]
      obtain set | above := bit
      · simpa using set
      · omega
    have hlt := b.size_lt
    have hr := b.le_size_of_below before
    refine ⟨_, ?_, before, unset⟩
    simp only [ackBaseStep, hi, if_true, full, if_false]
    rw [if_neg none, ← hmasked, u32_of_lt (by omega)]

/-- `AckBase`: the first unset index, the size when complete. -/
def ackBase (b : BlockBitmap) : Nat := min (b.ackBaseScan.getD b.size) b.size

theorem test_of_lt_ackBase (b : BlockBitmap) {k : Nat} (h : k < b.ackBase) : b.test k = true := by
  obtain ⟨r, hscan, below, -⟩ := b.ackBaseScan_spec
  rw [test_eq]
  apply below
  simp only [ackBase, hscan, Option.getD_some] at h
  omega

theorem test_ackBase (b : BlockBitmap) : b.test b.ackBase = false := by
  obtain ⟨r, hscan, below, unset⟩ := b.ackBaseScan_spec
  have hle := b.le_size_of_below below
  simp only [ackBase, hscan, Option.getD_some, Nat.min_eq_left hle]
  rw [test_eq, unset]

theorem ackBase_le_size (b : BlockBitmap) : b.ackBase ≤ b.size := Nat.min_le_right _ _

/-- The bitmap is complete exactly when `AckBase` reports its size. -/
theorem ackBase_lt_size_iff (b : BlockBitmap) : b.ackBase < b.size ↔ b.complete = false := by
  rw [← Bool.not_eq_true, complete_iff]
  constructor
  · intro hlt hall
    have := b.test_ackBase
    rw [hall _ hlt] at this
    contradiction
  · intro hnot
    by_contra hge
    refine hnot fun i hi => b.test_of_lt_ackBase ?_
    omega

/-- The bitmap after a call of `AckBase`, which caches its result. -/
def afterAckBase (b : BlockBitmap) : BlockBitmap :=
  { b with
    ackBaseCache := b.ackBase
    bit_below := fun k hk => by rw [← test_eq]; exact b.test_of_lt_ackBase hk }

@[simp] theorem afterAckBase_test (b : BlockBitmap) (k : Nat) :
    b.afterAckBase.test k = b.test k := rfl

@[simp] theorem afterAckBase_size (b : BlockBitmap) : b.afterAckBase.size = b.size := rfl

end BlockBitmap

end CrossTransfer.Transfer
