import CrossTransfer.Transfer.HaveRuns

/-! # Run extraction is exact

Without a wrap, `Holes` and `HaveRuns` list the maximal runs of unset and of set blocks, as many as
are asked for.
-/

namespace CrossTransfer.Transfer

open CrossTransfer.Library
open RunPacking

namespace BlockBitmap

variable {b : BlockBitmap} {lo : Nat} {runs : List (Nat × Nat)}

/-- The maximal runs of the `bit` blocks from `lo` on, in ascending order. -/
structure MaximalRuns (b : BlockBitmap) (bit : Bool) (lo : Nat) (runs : List (Nat × Nat)) : Prop where
  ascending : runs.Pairwise fun r s => r.1 + r.2 < s.1
  maximal : ∀ run, run ∈ runs ↔ Maximal (fun k => b.test k = bit) lo b.size run

theorem exists_listsBit (b : BlockBitmap) (bit : Bool) (lo : Nat) :
    ∃ runs : List (Nat × Nat), b.ListsBit bit lo (runs.map SackRun.ofSpan) ∧
      (runs.map SackRun.ofSpan).map SackRun.span = runs := by
  by_cases hle : lo ≤ b.size
  · obtain ⟨runs, hsep, hruns⟩ := exists_separated (fun k => b.test k == bit) hle
    have hspans := map_span_ofSpan hsep b.size_lt
    refine ⟨runs, ?_, hspans⟩
    rw [ListsBit, hspans]
    exact ⟨hsep, fun k hk hsize => by simpa using hruns k hk hsize⟩
  · -- A scan that starts behind the last block finds nothing.
    exact ⟨[], ⟨trivial, fun k hk hsize => by omega⟩, rfl⟩

theorem ListsBit.maximalRuns {bit : Bool} {listed : List SackRun} (h : b.ListsBit bit lo listed) :
    b.MaximalRuns bit lo (listed.map SackRun.span) :=
  ⟨h.1.pairwise, h.1.mem_iff h.2⟩

/-- The runs that are asked for are the first ones. -/
theorem exists_runsFuel (hsmall : b.size ≤ 2 ^ 32 - 64) (bit : Bool) (lo : Nat) :
    ∃ runs, b.MaximalRuns bit lo runs ∧ ∀ maxRuns, runsFuel scanFuel b bit lo maxRuns =
      some ((runs.take maxRuns).map SackRun.ofSpan) := by
  obtain ⟨runs, hlists, hspans⟩ := b.exists_listsBit bit lo
  refine ⟨runs, by simpa [hspans] using hlists.maximalRuns, fun maxRuns => ?_⟩
  rw [hlists.runsFuel_eq (.inl hsmall), List.map_take]

/-- Setting the runs of all set blocks restores a bitmap. -/
theorem setRuns_haveRuns {listed : List SackRun} (h : b.ListsBit true 0 listed) {size : UInt32}
    (hsize : size.toNat = b.size) (k : Nat) : ((reset size).setRuns listed).test k = b.test k := by
  rw [Bool.eq_iff_iff, setRuns_test, reset_test, reset_size, hsize]
  by_cases hk : k < b.size
  · simp [hk, h.2 k (Nat.zero_le k) hk]
  · simp [hk, b.test_above (Nat.not_lt.mp hk)]

/-- For a bitmap without wraps, `Holes` and `HaveRuns` return the first maximal runs, and the runs of
    `HaveRuns` restore the bitmap if none is left out. -/
theorem runs_exact (b : BlockBitmap) (hsmall : b.size ≤ 2 ^ 32 - 64) :
    (∀ start : UInt32, ∃ runs, b.MaximalRuns false (max start.toNat b.ackBase) runs ∧
      ∀ maxRuns, holesFuel scanFuel b start.toNat maxRuns =
        some ((runs.take maxRuns).map SackRun.ofSpan)) ∧
    ∃ runs, b.MaximalRuns true 0 runs ∧
      (∀ maxRuns, haveRunsFuel scanFuel b maxRuns = some ((runs.take maxRuns).map SackRun.ofSpan)) ∧
      ∀ maxRuns, runs.length ≤ maxRuns → ∃ listed, haveRunsFuel scanFuel b maxRuns = some listed ∧
        ∀ k, ((reset (UInt32.ofNat b.size)).setRuns listed).test k = b.test k := by
  refine ⟨fun start => exists_runsFuel hsmall false _, ?_⟩
  obtain ⟨runs, hlists, hspans⟩ := b.exists_listsBit true 0
  have hruns : ∀ maxRuns, haveRunsFuel scanFuel b maxRuns =
      some ((runs.take maxRuns).map SackRun.ofSpan) := by
    intro maxRuns
    rw [haveRunsFuel, hlists.runsFuel_eq (.inl hsmall), List.map_take]
  refine ⟨runs, by simpa [hspans] using hlists.maximalRuns, hruns, fun maxRuns hall => ?_⟩
  refine ⟨runs.map SackRun.ofSpan, by rw [hruns, List.take_of_length_le hall], fun k => ?_⟩
  apply setRuns_haveRuns hlists
  rw [UInt32.toNat_ofNat', Nat.mod_eq_of_lt b.size_lt]

theorem runs_exact_threeBlocks :
    ∃ runs, ((reset 3).set 1).1.MaximalRuns true 0 runs ∧
      haveRunsFuel scanFuel ((reset 3).set 1).1 2 = some ((runs.take 2).map SackRun.ofSpan) := by
  obtain ⟨runs, hmax, hruns, -⟩ := (runs_exact ((reset 3).set 1).1 (by
    rw [set_size, reset_size]
    decide)).2
  exact ⟨runs, hmax, hruns 2⟩

end BlockBitmap

end CrossTransfer.Transfer
