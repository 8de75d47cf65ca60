import CrossTransfer.Transfer.BlockLayout
import CrossTransfer.Transfer.ExactRuns
import CrossTransfer.Transfer.SweepFile

/-! # Index arithmetic up to the largest file

The 32-bit sums of the scans, before they are cut to 32 bits, and the number of buckets that `Start`
allocates. The scans are safe up to `2 ^ 32 - 64` blocks, the buckets up to `2 ^ 32 - 256`; the
largest file that a manifest admits has `2 ^ 32 - 1`.
-/

namespace CrossTransfer.Transfer

open CrossTransfer.Library

namespace BlockBitmap

/-! ## The sums -/

/-- The sum that a round of a scan computes at `i`. -/
def scanSum (b : BlockBitmap) (bit : Bool) (i : Nat) : Nat :=
  if i % 64 = 0 ∧ b.words.getD (i / 64) 0 = (if bit then BitVec.allOnes 64 else 0) then i + 64
  else i + 1

/-- The scan of `bit` blocks from `i` on comes by no sum that wraps. -/
def ScanFits (b : BlockBitmap) (bit : Bool) (i : Nat) : Prop :=
  ∀ j, Passes (b.scanStep bit) i j → j < b.size → b.test j = bit → b.scanSum bit j < 2 ^ 32

/-- The two scans of each round of `Holes` or `HaveRuns` come by none. -/
def RunsFit (b : BlockBitmap) (bit : Bool) (lo maxRuns : Nat) : Prop :=
  ∀ i out, Passes (b.runsStep bit maxRuns scanFuel) (lo, []) (i, out) →
    i < b.size → out.length < maxRuns → b.ScanFits (!bit) i ∧
      ∀ start, b.scan (!bit) scanFuel i = some start → start < b.size → b.ScanFits bit start

/-- `AckBase` comes by no index of a word behind the 32-bit range. -/
def AckFits (b : BlockBitmap) : Prop :=
  ∀ i, Passes b.ackBaseStep b.ackBaseCache i → i < b.size →
    let masked := ~~~b.words.getD (i / 64) 0 &&& (BitVec.allOnes 64 <<< (i % 64))
    if masked = 0 then (i / 64 + 1) * 64 < 2 ^ 32 else i / 64 * 64 + masked.ctz.toNat < 2 ^ 32

/-- No sum of the three scans wraps, and they return. -/
structure ScansFit (b : BlockBitmap) : Prop where
  ackBase : b.AckFits
  holes : ∀ (start : UInt32) maxRuns, b.RunsFit false (max start.toNat b.ackBase) maxRuns
  haveRuns : ∀ maxRuns, b.RunsFit true 0 maxRuns
  ackBaseEnds : ∃ i, b.ackBaseScan = some i
  holesEnds : ∀ (start : UInt32) maxRuns, ∃ out, holesFuel scanFuel b start.toNat maxRuns = some out
  haveRunsEnds : ∀ maxRuns, ∃ out, haveRunsFuel scanFuel b maxRuns = some out

variable {b : BlockBitmap}

theorem scanStep_eq (bit : Bool) {i : Nat} (hi : i < b.size) (hbit : b.test i = bit) :
    b.scanStep bit i = some (.inl (u32 (b.scanSum bit i))) := by
  rw [scanStep, if_pos ⟨hi, hbit⟩, scanSum]
  by_cases hword : i % 64 = 0 ∧ b.words.getD (i / 64) 0 = (if bit then BitVec.allOnes 64 else 0)
  · rw [if_pos hword, if_pos hword]
  · rw [if_neg hword, if_neg hword]

/-- Up to `2 ^ 32 - 64` blocks no sum wraps, wherever a scan is. -/
theorem scanFits_of_small (hsmall : b.size ≤ 2 ^ 32 - 64) (bit : Bool) (i : Nat) : b.ScanFits bit i := by
  intro j _ hj _
  rw [scanSum]
  by_cases hword : j % 64 = 0 ∧ b.words.getD (j / 64) 0 = (if bit then BitVec.allOnes 64 else 0)
  · rw [if_pos hword]
    omega
  · rw [if_neg hword]
    omega

theorem runsFit_of_small (hsmall : b.size ≤ 2 ^ 32 - 64) (bit : Bool) (lo maxRuns : Nat) :
    b.RunsFit bit lo maxRuns :=
  fun i _ _ _ _ => ⟨scanFits_of_small hsmall _ i, fun start _ _ => scanFits_of_small hsmall _ start⟩

theorem ackFits_of_small (hsmall : b.size ≤ 2 ^ 32 - 64) : b.AckFits := by
  intro i _ hi
  simp only
  split
  · omega
  · rename_i hmasked
    have hctz : (~~~b.words.getD (i / 64) 0 &&& (BitVec.allOnes 64 <<< (i % 64))).ctz.toNat < 64 :=
      BitVec.ctz_lt_iff_ne_zero.mpr hmasked
    omega

theorem scansFit_of_small (hsmall : b.size ≤ 2 ^ 32 - 64) : b.ScansFit where
  ackBase := ackFits_of_small hsmall
  holes start maxRuns := runsFit_of_small hsmall false _ maxRuns
  haveRuns maxRuns := runsFit_of_small hsmall true 0 maxRuns
  ackBaseEnds := by
    obtain ⟨r, hscan, -⟩ := b.ackBaseScan_spec
    exact ⟨r, hscan⟩
  holesEnds start maxRuns := by
    obtain ⟨runs, -, hruns⟩ := exists_runsFuel hsmall false (max start.toNat b.ackBase)
    exact ⟨_, hruns maxRuns⟩
  haveRunsEnds maxRuns := by
    obtain ⟨runs, -, hruns⟩ := exists_runsFuel hsmall true 0
    exact ⟨_, hruns maxRuns⟩

/-! ## Larger bitmaps -/

/-- With nothing set, a scan of unset blocks goes from word to word. -/
theorem passes_words {size : UInt32} {k : Nat} (hk : 64 * k < size.toNat) :
    Passes ((reset size).scanStep false) 0 (64 * k) := by
  have hlt := size.toNat_lt
  induction k with
  | zero => exact .here
  | succ k ih =>
    refine .next (ih (by omega)) ?_
    have hword : (reset size).words.getD (64 * k / 64) 0 = 0 := by
      rw [reset, List.getD_eq_getElem?_getD, List.getElem?_replicate]
      split
      · rfl
      · rfl
    have hsum : (reset size).scanSum false (64 * k) = 64 * (k + 1) := by
      rw [scanSum, if_pos]
      · omega
      · exact ⟨by omega, hword⟩
    have hin : 64 * k < (reset size).size := by
      rw [reset_size]
      omega
    rw [scanStep_eq false hin (reset_test size _), hsum, u32_of_lt (by omega)]

/-- A larger empty bitmap wraps `Holes`. -/
theorem not_scansFit_reset {size : UInt32} (hlarge : 2 ^ 32 - 64 < size.toNat) :
    ¬(reset size).ScansFit := by
  intro hfit
  have hsize : (reset size).size = size.toNat := reset_size size
  have hack : (reset size).ackBase = 0 := by
    by_contra hne
    have hset := (reset size).test_of_lt_ackBase (Nat.pos_of_ne_zero hne)
    simp [reset_test] at hset
  have hfirst : (reset size).scan true scanFuel 0 = some 0 := by
    have hleave : (reset size).scanStep true 0 = some (.inr 0) := by
      rw [scanStep, if_neg]
      simp [reset_test]
    exact iterate_succ_leave hleave
  have hpos : 0 < (reset size).size := by
    rw [hsize]
    omega
  have hrounds := hfit.holes 0 1 0 [] (by simpa [hack] using Passes.here) hpos (by simp)
  have hlast := hrounds.2 0 (by simpa using hfirst) hpos (64 * (2 ^ 26 - 1)) (passes_words (by omega))
    (by rw [hsize]; omega) (reset_test size _)
  have hword : (reset size).words.getD (64 * (2 ^ 26 - 1) / 64) 0 = 0 := by
    rw [reset, List.getD_eq_getElem?_getD, List.getElem?_replicate]
    split
    · rfl
    · rfl
  rw [scanSum, if_pos ⟨by norm_num, hword⟩] at hlast
  norm_num at hlast

end BlockBitmap

/-! ## Files -/

/-- The scans of every bitmap of the file are safe. -/
def ScansSafe (size : UInt64) : Prop :=
  ∀ b : BlockBitmap, b.size = (blockCountFor size).toNat → b.ScansFit

/-- `Start` allocates a bucket for every block of the file. -/
def BucketsSafe (size : UInt64) : Prop :=
  ∀ (path : Bytes) (runs : List (UInt16 × List SackRun)) (i block : Nat),
    block < (blockCountFor size).toNat → block / 256 < (Sender.startFile runs i ⟨path, size⟩).sweepMs.length

variable {size : UInt64}

theorem scansSafe_iff (hmax : size.toNat ≤ kMaxFileSize) :
    ScansSafe size ↔ size.toNat ≤ 1100 * (2 ^ 32 - 64) := by
  have hcount := toNat_blockCountFor hmax
  constructor
  · intro hsafe
    by_contra hlarge
    exact BlockBitmap.not_scansFit_reset (by omega) (hsafe _ (BlockBitmap.reset_size _))
  · intro hsmall b hb
    exact BlockBitmap.scansFit_of_small (by omega)

theorem bucketsSafe_iff (hmax : size.toNat ≤ kMaxFileSize) :
    BucketsSafe size ↔ size.toNat ≤ 1100 * (2 ^ 32 - 256) := by
  have hcount := toNat_blockCountFor hmax
  have hlt := (blockCountFor size).toNat_lt
  have hlength : ∀ path runs i, (Sender.startFile runs i ⟨path, size⟩).sweepMs.length =
      ((blockCountFor size).toNat + 255) % 2 ^ 32 / 256 := by
    intro path runs i
    rw [← Sender.length_sweepMs]
    exact List.length_replicate
  constructor
  · intro hsafe
    by_contra hlarge
    have hfirst := hsafe [] [] 0 0 (by omega)
    rw [hlength] at hfirst
    omega
  · intro hsmall path runs i block hblock
    rw [hlength, Nat.mod_eq_of_lt (by omega)]
    omega

/-- The index arithmetic of a file that a manifest admits is safe up to `2 ^ 32 - 256` blocks. -/
theorem indexSafe_iff (hmax : size.toNat ≤ kMaxFileSize) :
    ScansSafe size ∧ BucketsSafe size ↔ size.toNat ≤ 1100 * (2 ^ 32 - 256) := by
  rw [scansSafe_iff hmax, bucketsSafe_iff hmax]
  omega

theorem indexSafe_iff_twoBuckets :
    ScansSafe 300000 ∧ BucketsSafe 300000 ↔ (300000 : UInt64).toNat ≤ 1100 * (2 ^ 32 - 256) :=
  indexSafe_iff (by decide)

/-- The largest file. -/
theorem not_indexSafe : ¬∀ size : UInt64, size.toNat ≤ kMaxFileSize → ScansSafe size ∧ BucketsSafe size := by
  intro hall
  have hmax : (4724464024500 : UInt64).toNat = 4724464024500 := rfl
  have hadmitted : (4724464024500 : UInt64).toNat ≤ kMaxFileSize := by
    rw [hmax]
    decide
  have hbuckets := (bucketsSafe_iff hadmitted).mp (hall _ hadmitted).2
  rw [hmax] at hbuckets
  omega

end CrossTransfer.Transfer
