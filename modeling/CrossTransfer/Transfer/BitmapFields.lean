import CrossTransfer.Transfer.HaveRuns

/-! # The bitmap's fields

`core/src/transfer/bitmap.cpp` once more, as it works on the private fields of the class alone:
nothing is known of the words, so a word that is not there is a read out of bounds (`none`), and
`Reset` computes the number of words in `size_t`, whose width the target decides
(`arm64-v8a` and `x86_64` have 64 bits, `armeabi-v7a` has 32).

`BlockBitmap` is what these fields are as long as `Reset` has not wrapped: each method does on the
fields of a `BlockBitmap` what it does on the `BlockBitmap` itself, and stays within the words.
-/

namespace CrossTransfer.Transfer

open CrossTransfer.Library

/-- The width of `size_t`. -/
inductive SizeT where
  | bits32
  | bits64
  deriving DecidableEq

def SizeT.bits : SizeT → Nat
  | .bits32 => 32
  | .bits64 => 64

/-- The private fields of the class. -/
structure BitmapFields where
  words : List (BitVec 64) := []
  size : Nat := 0
  count : Nat := 0
  ackBaseCache : Nat := 0
  deriving DecidableEq

namespace BitmapFields

/-- `Reset`; the sum is one of `size_t`. -/
def reset (w : SizeT) (blockCount : UInt32) : BitmapFields where
  words := List.replicate ((blockCount.toNat + 63) % 2 ^ w.bits / 64) 0#64
  size := blockCount.toNat

def complete (f : BitmapFields) : Bool := f.count == f.size

def test (f : BitmapFields) (i : Nat) : Option Bool :=
  if f.size ≤ i then some false else f.words[i / 64]?.map fun word => word.getLsbD (i % 64)

/-- `Set`: the new fields, and whether the bit was newly set. -/
def set (f : BitmapFields) (i : Nat) : Option (BitmapFields × Bool) :=
  if f.size ≤ i then some (f, false)
  else f.words[i / 64]?.map fun word =>
    if word.getLsbD (i % 64) then (f, false)
    else ({ f with words := setWordBit f.words i, count := u32 (f.count + 1) }, true)

/-- One run of `SetRuns`. -/
def setRun (f : BitmapFields) (r : SackRun) : Option BitmapFields :=
  if f.size ≤ r.start.toNat then some f
  else
    let stop := min (r.start.toNat + r.length.toNat) f.size
    (List.range' r.start.toNat (stop - r.start.toNat)).foldlM
      (fun f i => (f.set i).map Prod.fst) f

def setRuns (f : BitmapFields) (runs : List SackRun) : Option BitmapFields := runs.foldlM setRun f

/-- One round of the `AckBase` loop at index `i`. The positions are computed in `size_t` and cast
    to `uint32_t`, which is the same for both widths. -/
def ackBaseStep (f : BitmapFields) (i : Nat) : Option (Nat ⊕ Nat) :=
  if i < f.size then f.words[i / 64]?.map fun word =>
    if word = BitVec.allOnes 64 then .inl (u32 ((i / 64 + 1) * 64))
    else
      let masked := ~~~word &&& (BitVec.allOnes 64 <<< (i % 64))
      if masked = 0 then .inl (u32 ((i / 64 + 1) * 64))
      else .inr (u32 (i / 64 * 64 + masked.ctz.toNat))
  else some (.inr i)

/-- `AckBase`: the fields with the bound cached, and the bound. -/
def ackBase (f : BitmapFields) : Option (BitmapFields × Nat) :=
  (iterate f.ackBaseStep (f.size + 1) f.ackBaseCache).map fun i =>
    ({ f with ackBaseCache := min i f.size }, min i f.size)

end BitmapFields

/-! ## A `BlockBitmap` and its fields -/

namespace BlockBitmap

variable {b : BlockBitmap} {i : Nat}

/-- The fields that a `BlockBitmap` consists of. -/
def fields (b : BlockBitmap) : BitmapFields := ⟨b.words, b.size, b.count, b.ackBaseCache⟩

theorem getElem?_words (h : i < b.size) :
    b.fields.words[i / 64]? = some (b.words.getD (i / 64) 0) := by
  have hword := b.word_lt_length h
  rw [List.getD_eq_getElem?_getD, fields, List.getElem?_eq_getElem hword, Option.getD_some]

theorem fields_reset {w : SizeT} {n : UInt32} (h : n.toNat + 63 < 2 ^ w.bits) :
    BitmapFields.reset w n = (reset n).fields := by
  rw [BitmapFields.reset, Nat.mod_eq_of_lt h]
  rfl

theorem fields_test (b : BlockBitmap) (i : Nat) : b.fields.test i = some (b.test i) := by
  by_cases h : b.size ≤ i
  · simp [BitmapFields.test, BlockBitmap.test, fields, h]
  · have hword : b.fields.words[i / 64]? = some (b.words.getD (i / 64) 0) :=
      getElem?_words (Nat.not_le.mp h)
    rw [BitmapFields.test, if_neg (show ¬b.fields.size ≤ i from h), hword, test_eq]
    rfl

/-- The counter of blocks does not wrap. -/
theorem u32_count_succ (h : i < b.size) (fresh : wordBit b.words i = false) :
    u32 (b.count + 1) = b.count + 1 := by
  have hcard : (setIndices (setWordBit b.words i) b.size).card ≤ (Finset.range b.size).card :=
    Finset.card_filter_le _ _
  rw [Finset.card_range] at hcard
  rw [← b.card_setIndices_setWordBit h fresh] at hcard
  have hsize := b.size_lt
  exact u32_of_lt (by omega)

theorem fields_set (b : BlockBitmap) (i : Nat) :
    b.fields.set i = some ((b.set i).1.fields, (b.set i).2) := by
  by_cases h : i < b.size
  swap
  · have hle : b.fields.size ≤ i := Nat.not_lt.mp h
    simp [BitmapFields.set, BlockBitmap.set, h, hle]
  have hsize : ¬b.fields.size ≤ i := Nat.not_le.mpr h
  have hbit : (b.words.getD (i / 64) 0).getLsbD (i % 64) = wordBit b.words i := rfl
  rw [BitmapFields.set, if_neg hsize, getElem?_words h, Option.map_some, hbit]
  by_cases fresh : wordBit b.words i = false
  · -- The bit is new: the counter goes up by one.
    have hcount : u32 (b.fields.count + 1) = b.count + 1 := u32_count_succ h fresh
    rw [hcount]
    simp [BlockBitmap.set, h, fresh, fields]
  · simp [BlockBitmap.set, h, fresh]

theorem fields_foldl_set (indices : List Nat) (b : BlockBitmap) :
    indices.foldlM (fun f i => (f.set i).map Prod.fst) b.fields =
      some (indices.foldl (fun b i => (b.set i).1) b).fields := by
  induction indices generalizing b with
  | nil => rfl
  | cons i indices ih =>
    rw [List.foldlM_cons, fields_set, Option.map_some, List.foldl_cons]
    exact ih (b.set i).1

theorem fields_setRun (b : BlockBitmap) (r : SackRun) :
    b.fields.setRun r = some (b.setRuns [r]).fields := by
  by_cases h : b.size ≤ r.start.toNat
  · have hle : b.fields.size ≤ r.start.toNat := h
    simp [BitmapFields.setRun, setRuns, h, hle]
  · have hle : ¬b.fields.size ≤ r.start.toNat := h
    rw [BitmapFields.setRun, if_neg hle, setRuns, List.foldl_cons, List.foldl_nil, if_neg h]
    exact fields_foldl_set _ b

theorem fields_setRuns (runs : List SackRun) (b : BlockBitmap) :
    b.fields.setRuns runs = some (b.setRuns runs).fields := by
  induction runs generalizing b with
  | nil => rfl
  | cons r runs ih =>
    have hcons : b.setRuns (r :: runs) = (b.setRuns [r]).setRuns runs := by simp [setRuns]
    rw [BitmapFields.setRuns, List.foldlM_cons, fields_setRun, hcons]
    exact ih (b.setRuns [r])

theorem fields_ackBaseStep (b : BlockBitmap) : b.fields.ackBaseStep = b.ackBaseStep := by
  funext i
  by_cases h : i < b.size
  · have hlt : i < b.fields.size := h
    rw [BitmapFields.ackBaseStep, if_pos hlt, getElem?_words h, Option.map_some,
      BlockBitmap.ackBaseStep, if_pos h]
    by_cases full : b.words.getD (i / 64) 0 = BitVec.allOnes 64
    · -- A full word: the scan goes on at the next word.
      simp only [full, if_true]
    · simp only [full, if_false]
      split <;> rfl
  · have hlt : ¬i < b.fields.size := h
    rw [BitmapFields.ackBaseStep, if_neg hlt, BlockBitmap.ackBaseStep, if_neg h]

theorem fields_ackBase (b : BlockBitmap) :
    b.fields.ackBase = some (b.afterAckBase.fields, b.ackBase) := by
  obtain ⟨r, hscan, -⟩ := b.ackBaseScan_spec
  have hiterate : iterate b.fields.ackBaseStep (b.fields.size + 1) b.fields.ackBaseCache = some r := by
    rw [fields_ackBaseStep]
    exact hscan
  have hbase : b.ackBase = min r b.size := by rw [ackBase, hscan, Option.getD_some]
  rw [BitmapFields.ackBase, hiterate, Option.map_some, hbase]
  simp [fields, afterAckBase, hbase]

end BlockBitmap

end CrossTransfer.Transfer
