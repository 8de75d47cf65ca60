import CrossTransfer.Transfer.BlockCodec

/-! # Reads that may fail

`minirtc/src/common/byte_io.h`. The parsers of MiniRTC read from a buffer that the network has
filled. Here a read has no result if a byte of it lies outside the buffer, so a parser that always
has a result stays inside. What is written with `put16` and `put32` is read back.
-/

namespace CrossTransfer.Minirtc

open CrossTransfer.Transfer

def read8 (b : Bytes) (i : Nat) : Option UInt8 := b[i]?

/-- `ReadBigEndian` of two bytes. -/
def read16 (b : Bytes) (i : Nat) : Option UInt16 := do
  let hi ← read8 b i
  let lo ← read8 b (i + 1)
  return (hi.toUInt16 <<< 8) ||| lo.toUInt16

/-- `ReadBigEndian` of four bytes. -/
def read32 (b : Bytes) (i : Nat) : Option UInt32 := do
  let b0 ← read8 b i
  let b1 ← read8 b (i + 1)
  let b2 ← read8 b (i + 2)
  let b3 ← read8 b (i + 3)
  return (b0.toUInt32 <<< 24) ||| (b1.toUInt32 <<< 16) ||| (b2.toUInt32 <<< 8) ||| b3.toUInt32

/-- A copy of `n` bytes. -/
def readBytes (b : Bytes) (i n : Nat) : Option Bytes :=
  if i + n ≤ b.length then some ((b.drop i).take n) else none

variable {b x y : Bytes} {i n : Nat}

/-! ## Inside the buffer -/

theorem exists_read8 (h : i < b.length) : ∃ v, read8 b i = some v :=
  ⟨b[i], List.getElem?_eq_getElem h⟩

theorem exists_read16 (h : i + 2 ≤ b.length) : ∃ v, read16 b i = some v := by
  obtain ⟨hi, hhi⟩ := exists_read8 (b := b) (i := i) (by omega)
  obtain ⟨lo, hlo⟩ := exists_read8 (b := b) (i := i + 1) (by omega)
  exact ⟨_, by rw [read16, hhi, hlo]; rfl⟩

theorem exists_read32 (h : i + 4 ≤ b.length) : ∃ v, read32 b i = some v := by
  obtain ⟨b0, h0⟩ := exists_read8 (b := b) (i := i) (by omega)
  obtain ⟨b1, h1⟩ := exists_read8 (b := b) (i := i + 1) (by omega)
  obtain ⟨b2, h2⟩ := exists_read8 (b := b) (i := i + 2) (by omega)
  obtain ⟨b3, h3⟩ := exists_read8 (b := b) (i := i + 3) (by omega)
  exact ⟨_, by rw [read32, h0, h1, h2, h3]; rfl⟩

theorem readBytes_of_le (h : i + n ≤ b.length) : readBytes b i n = some ((b.drop i).take n) :=
  if_pos h

/-! ## What has been written -/

theorem read8_append (x y : Bytes) (i : Nat) : read8 (x ++ y) (x.length + i) = read8 y i := by
  rw [read8, List.getElem?_append_right (Nat.le_add_right ..), Nat.add_sub_cancel_left, read8]

theorem read16_append (x y : Bytes) (i : Nat) : read16 (x ++ y) (x.length + i) = read16 y i := by
  rw [read16, Nat.add_assoc, read8_append, read8_append, read16]

theorem read32_append (x y : Bytes) (i : Nat) : read32 (x ++ y) (x.length + i) = read32 y i := by
  simp only [read32, Nat.add_assoc, read8_append]

theorem read16_put16 (v : UInt16) (y : Bytes) : read16 (put16 v ++ y) 0 = some v :=
  congrArg some (join16 v)

theorem read32_put32 (v : UInt32) (y : Bytes) : read32 (put32 v ++ y) 0 = some v :=
  congrArg some (join32 v)

end CrossTransfer.Minirtc
