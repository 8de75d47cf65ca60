import Mathlib.Data.Set.Pairwise.Lattice
import Mathlib.Order.CompletePartialOrder
import Mathlib.Order.Interval.Set.Disjoint

/-! # A length cut into pieces

`piece k n i` is the `i`-th piece when `[0, n)` is cut from the left into pieces of length `k`. The
last piece is what is left; there are `pieces k n` of them.
-/

namespace CrossTransfer.Library

variable {k n i j : Nat}

/-- How many pieces there are. -/
def pieces (k n : Nat) : Nat := (n + k - 1) / k

def pieceLen (k n i : Nat) : Nat := min k (n - k * i)

def piece (k n i : Nat) : Set Nat := Set.Ico (k * i) (k * i + pieceLen k n i)

/-- Before the end there is a piece. -/
theorem lt_pieces_iff (hk : 0 < k) : i < pieces k n ↔ k * i < n := by
  rw [pieces, ← Nat.succ_le_iff, Nat.le_div_iff_mul_le hk, Nat.succ_mul, Nat.mul_comm]
  omega

theorem pieceLen_of_lt (hk : 0 < k) (h : i + 1 < pieces k n) : pieceLen k n i = k := by
  rw [lt_pieces_iff hk, Nat.mul_succ] at h
  rw [pieceLen]
  omega

theorem pieceLen_last (hk : 0 < k) (h : i + 1 = pieces k n) :
    1 ≤ pieceLen k n i ∧ pieceLen k n i ≤ k := by
  have hlt : k * i < n := (lt_pieces_iff hk).mp (by omega)
  rw [pieceLen]
  omega

theorem pieceLen_beyond (hk : 0 < k) (h : pieces k n ≤ i) : pieceLen k n i = 0 := by
  have hle : ¬k * i < n := mt (lt_pieces_iff hk).mpr (Nat.not_lt.mpr h)
  rw [pieceLen]
  omega

theorem pairwise_disjoint_piece (k n : Nat) : Pairwise (Function.onFun Disjoint (piece k n)) := by
  -- The earlier of two pieces ends before the later one begins.
  have before : ∀ {i j : Nat}, i < j → Disjoint (piece k n i) (piece k n j) := by
    intro i j hij
    have hmul : k * (i + 1) ≤ k * j := Nat.mul_le_mul_left k hij
    rw [Nat.mul_succ] at hmul
    rw [piece, piece, Set.Ico_disjoint_Ico, pieceLen]
    omega
  intro i j hne
  obtain hij | hij := Nat.lt_or_gt_of_ne hne
  · exact before hij
  · exact (before hij).symm

/-- The pieces are the whole. -/
theorem iUnion_piece (hk : 0 < k) (n : Nat) : ⋃ i < pieces k n, piece k n i = Set.Ico 0 n := by
  ext x
  simp only [Set.mem_iUnion, piece, pieceLen, Set.mem_Ico, exists_prop, lt_pieces_iff hk]
  constructor
  · rintro ⟨i, hi, hlow, hhigh⟩
    omega
  · rintro ⟨-, hx⟩
    have hdiv := Nat.div_add_mod x k
    have hmod := Nat.mod_lt x hk
    exact ⟨x / k, by omega, by omega, by omega⟩

end CrossTransfer.Library
