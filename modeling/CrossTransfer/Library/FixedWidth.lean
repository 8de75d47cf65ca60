import Mathlib.Order.Basic

/-! # Minimum and maximum of machine integers -/

namespace CrossTransfer.Library

theorem toNat_min32 (a b : UInt32) : (min a b).toNat = min a.toNat b.toNat := by
  rw [show min a b = if a ≤ b then a else b from rfl]
  split <;> rename_i h <;> rw [UInt32.le_iff_toNat_le] at h <;> omega

theorem toNat_max32 (a b : UInt32) : (max a b).toNat = max a.toNat b.toNat := by
  rw [show max a b = if a ≤ b then b else a from rfl]
  split <;> rename_i h <;> rw [UInt32.le_iff_toNat_le] at h <;> omega

theorem toNat_min64 (a b : UInt64) : (min a b).toNat = min a.toNat b.toNat := by
  rw [show min a b = if a ≤ b then a else b from rfl]
  split <;> rename_i h <;> rw [UInt64.le_iff_toNat_le] at h <;> omega

end CrossTransfer.Library
