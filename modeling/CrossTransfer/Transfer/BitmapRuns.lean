import CrossTransfer.Transfer.Bitmap

/-! # Runs of set and unset blocks

`BlockBitmap::Holes` and `HaveRuns` scan the bitmap for maximal runs of unset and of set
blocks.  Both skip whole words and add 64 to a 32-bit index for each; at the last word of
a bitmap with more than `2 ^ 32 - 64` blocks that addition wraps to 0, so the scan of unset
blocks starts over from the first block.  The two functions are mirror images: `runsFuel`
is their common body, with the bit they collect as a parameter.

The scan over set blocks never wraps (`scan_set`), since index `2 ^ 32 - 1` is never set.
The scan over unset blocks ends whenever the bitmap has a set block or at most
`2 ^ 32 - 64` blocks (`scan_unset_total`); otherwise it runs forever
(`scan_unset_diverges`).  `holes_spec` is what the list of holes is good for: every listed
block is missing, and a missing block is listed unless the list is full.
-/

namespace CrossTransfer.Transfer

open CrossTransfer.Library

namespace BlockBitmap

/-! ## The scans -/

/-- One round of `while (i < size_ && Test(i) == bit)`: a whole word of that bit is
    skipped at once. -/
def scanStep (b : BlockBitmap) (bit : Bool) (i : Nat) : Option (Nat ⊕ Nat) :=
  if i < b.size ∧ b.test i = bit then
    if i % 64 = 0 ∧ b.words.getD (i / 64) 0 = (if bit then BitVec.allOnes 64 else 0) then
      some (.inl (u32 (i + 64)))
    else some (.inl (u32 (i + 1)))
  else some (.inr i)

def scan (b : BlockBitmap) (bit : Bool) (fuel i : Nat) : Option Nat :=
  iterate (b.scanStep bit) fuel i

/-- One round of the outer loop: skip the other bit, then collect one run. -/
def runsStep (b : BlockBitmap) (bit : Bool) (maxRuns fuel : Nat) :
    Nat × List SackRun → Option ((Nat × List SackRun) ⊕ List SackRun)
  | (i, out) =>
    if i < b.size ∧ out.length < maxRuns then do
      let start ← b.scan (!bit) fuel i
      if b.size ≤ start then some (.inr out)
      else do
        let stop ← b.scan bit fuel start
        let stop := if b.size < stop then b.size else stop
        some (.inl (stop, out ++ [⟨UInt32.ofNat start, UInt32.ofNat stop - UInt32.ofNat start⟩]))
    else some (.inr out)

/-- The runs of `bit` at or after `i`, at most `maxRuns` of them. -/
def runsFuel (fuel : Nat) (b : BlockBitmap) (bit : Bool) (i maxRuns : Nat) :
    Option (List SackRun) :=
  if maxRuns = 0 then some [] else iterate (b.runsStep bit maxRuns fuel) fuel (i, [])

/-- `Holes`: unset runs at or after `from`, ascending, at most `max_runs`. -/
def holesFuel (fuel : Nat) (b : BlockBitmap) (start maxRuns : Nat) : Option (List SackRun) :=
  runsFuel fuel b false (max start b.ackBase) maxRuns

/-- `HaveRuns`: set runs, ascending, at most `max_runs`. -/
def haveRunsFuel (fuel : Nat) (b : BlockBitmap) (maxRuns : Nat) : Option (List SackRun) :=
  runsFuel fuel b true 0 maxRuns

/-- Enough rounds for every loop of the class that ends at all. -/
def scanFuel : Nat := 2 ^ 33

/-! More fuel does not change a result. -/

theorem scan_mono {b : BlockBitmap} {bit : Bool} {fuel fuel' i j : Nat} (hle : fuel ≤ fuel')
    (h : b.scan bit fuel i = some j) : b.scan bit fuel' i = some j :=
  iterate_mono h hle

theorem runsStep_mono {b : BlockBitmap} {bit : Bool} {maxRuns fuel fuel' : Nat} (hle : fuel ≤ fuel')
    (state : Nat × List SackRun) (out : (Nat × List SackRun) ⊕ List SackRun)
    (h : b.runsStep bit maxRuns fuel state = some out) :
    b.runsStep bit maxRuns fuel' state = some out := by
  obtain ⟨i, runs⟩ := state
  simp only [runsStep] at h ⊢
  split at h
  · rename_i go
    rw [if_pos go]
    obtain ⟨start, hstart, h⟩ := Option.bind_eq_some_iff.mp h
    simp only [scan_mono hle hstart, Option.bind_eq_bind, Option.bind_some]
    split at h
    · rename_i hge
      rw [if_pos hge, h]
    · rename_i hlt
      obtain ⟨stop, hstop, h⟩ := Option.bind_eq_some_iff.mp h
      rw [if_neg hlt, scan_mono hle hstop, Option.bind_some, h]
  · rename_i stay
    rw [if_neg stay, h]

theorem holesFuel_mono {b : BlockBitmap} {fuel fuel' start maxRuns : Nat} {out : List SackRun}
    (hle : fuel ≤ fuel') (h : holesFuel fuel b start maxRuns = some out) :
    holesFuel fuel' b start maxRuns = some out := by
  unfold holesFuel runsFuel at h ⊢
  split at h
  · rename_i hzero
    rw [if_pos hzero, h]
  · rename_i hpos
    rw [if_neg hpos]
    exact iterate_mono (iterate_refine (runsStep_mono hle) h) hle

/-! ## Scanning set blocks -/

theorem scan_set (b : BlockBitmap) {fuel i : Nat} (hi : i ≤ b.size) (hfuel : b.size < fuel) :
    ∃ j, b.scan true fuel i = some j ∧ i ≤ j ∧ j ≤ b.size ∧
      (∀ k, i ≤ k → k < j → b.test k = true) ∧ b.test j = false := by
  refine iterate_total _
    (fun j => i ≤ j ∧ j ≤ b.size ∧ ∀ k, i ≤ k → k < j → b.test k = true)
    (fun j => b.size - j) _ ?_ fuel i ⟨Nat.le_refl _, hi, fun k _ _ => by omega⟩ (by omega)
  rintro j ⟨hij, hj, set⟩
  have hlt := b.size_lt
  by_cases here : j < b.size ∧ b.test j = true
  swap
  · right
    refine ⟨j, by simp [scanStep, here], hij, hj, set, ?_⟩
    by_cases hsize : j < b.size
    · simpa [hsize] using here
    · exact b.test_above (by omega)
  left
  by_cases word : j % 64 = 0 ∧ b.words.getD (j / 64) 0 = BitVec.allOnes 64
  · have inWord : ∀ k, j ≤ k → k < j + 64 → b.test k = true := by
      intro k hjk hk
      rw [test_eq]
      exact wordBit_of_allOnes word.2 (by omega)
    have last := lt_size_of_test (inWord (j + 63) (by omega) (by omega))
    refine ⟨j + 64, ?_, ⟨by omega, by omega, ?_⟩, by omega⟩
    · rw [scanStep, if_pos here, if_pos (by simpa using word), u32_of_lt (by omega)]
    · intro k hik hk
      by_cases hkj : k < j
      · exact set k hik hkj
      · exact inWord k (by omega) hk
  · refine ⟨j + 1, ?_, ⟨by omega, by omega, ?_⟩, by omega⟩
    · rw [scanStep, if_pos here, if_neg (by simpa using word), u32_of_lt (by omega)]
    · intro k hik hk
      by_cases hkj : k < j
      · exact set k hik hkj
      · obtain rfl : k = j := by omega
        exact here.2

/-! ## Scanning unset blocks -/

/-- Where a round of the unset scan goes: over the blocks `[j, next)`, all unset, or over
    the last word and back to block 0. -/
theorem scanStep_unset (b : BlockBitmap) {j : Nat} (here : j < b.size ∧ b.test j = false) :
    ∃ next, b.scanStep false j = some (.inl next) ∧ next < 2 ^ 32 ∧
      ((j < next ∧ next ≤ j + 64 ∧ ∀ k, j ≤ k → k < next → b.test k = false) ∨
        (next = 0 ∧ j = 2 ^ 32 - 64 ∧ ∀ k, j ≤ k → b.test k = false)) := by
  have hlt := b.size_lt
  by_cases word : j % 64 = 0 ∧ b.words.getD (j / 64) 0 = 0
  · have inWord : ∀ k, j ≤ k → k < j + 64 → b.test k = false := by
      intro k hjk hk
      rw [test_eq]
      exact wordBit_of_zero word.2 (by omega)
    refine ⟨u32 (j + 64), ?_, u32_lt _, ?_⟩
    · rw [scanStep, if_pos here, if_pos (by simpa using word)]
    by_cases wrap : j + 64 < 2 ^ 32
    · left
      rw [u32_of_lt wrap]
      exact ⟨by omega, by omega, inWord⟩
    · right
      have hj : j = 2 ^ 32 - 64 := by omega
      refine ⟨by subst hj; rfl, hj, ?_⟩
      intro k hjk
      by_cases hk : k < j + 64
      · exact inWord k hjk hk
      · exact b.test_above (by omega)
  · refine ⟨j + 1, ?_, by omega, .inl ⟨by omega, by omega, ?_⟩⟩
    · rw [scanStep, if_pos here, if_neg (by simpa using word), u32_of_lt (by omega)]
    · intro k hjk hk
      obtain rfl : k = j := by omega
      exact here.2

/-- Where a scan of unset blocks from `i` ends: after a run that starts at `i`, or, having
    wrapped, at a set block below `i` when nothing is set from `i` on. -/
def UnsetScanEnd (b : BlockBitmap) (i j : Nat) : Prop :=
  j < 2 ^ 32 ∧
  ((i ≤ j ∧ (∀ k, i ≤ k → k < j → b.test k = false) ∧ (b.size ≤ j ∨ b.test j = true)) ∨
    (j < i ∧ (∀ k, i ≤ k → b.test k = false) ∧ b.test j = true))

theorem scan_unset_end (b : BlockBitmap) {fuel i j : Nat} (hi : i < b.size)
    (h : b.scan false fuel i = some j) : b.UnsetScanEnd i j := by
  have hlt := b.size_lt
  refine iterate_partial
    (fun j => j < 2 ^ 32 ∧ ((i ≤ j ∧ ∀ k, i ≤ k → k < j → b.test k = false) ∨
      ∀ k, i ≤ k → b.test k = false))
    (b.UnsetScanEnd i) ?_ ?_ fuel i j ⟨by omega, .inl ⟨Nat.le_refl _, fun k _ _ => by omega⟩⟩ h
  · rintro p next ⟨hp, inv⟩ hstep
    by_cases here : p < b.size ∧ b.test p = false
    swap
    · simp [scanStep, here] at hstep
    obtain ⟨next', hstep', hlt', far⟩ := b.scanStep_unset here
    obtain rfl : next' = next := by simpa [hstep'] using hstep
    refine ⟨hlt', ?_⟩
    obtain ⟨hip, before⟩ | all := inv
    · obtain ⟨hpn, -, passed⟩ | ⟨rfl, rfl, passed⟩ := far
      · left
        refine ⟨by omega, fun k hik hk => ?_⟩
        by_cases hkp : k < p
        · exact before k hik hkp
        · exact passed k (by omega) hk
      · right
        intro k hik
        by_cases hkp : k < 2 ^ 32 - 64
        · exact before k hik hkp
        · exact passed k (by omega)
    · exact .inr all
  · rintro p r ⟨hp, inv⟩ hstep
    by_cases here : p < b.size ∧ b.test p = false
    · obtain ⟨next', hstep', -⟩ := b.scanStep_unset here
      simp [hstep'] at hstep
    obtain rfl : p = r := by simpa [scanStep, here] using hstep
    have stop : b.size ≤ p ∨ b.test p = true := by
      by_cases hsize : p < b.size
      · right; simpa [hsize] using here
      · left; omega
    refine ⟨hp, ?_⟩
    obtain ⟨hip, before⟩ | all := inv
    · exact .inl ⟨hip, before, stop⟩
    · by_cases hip : i ≤ p
      · exact .inl ⟨hip, fun k hik _ => all k hik, stop⟩
      · refine .inr ⟨by omega, all, ?_⟩
        obtain hsize | set := stop
        · omega
        · exact set

/-- The scan of unset blocks ends when something stops it: the end of a bitmap small
    enough for the index not to wrap, or a set block. -/
theorem scan_unset_total (b : BlockBitmap) (i : Nat) (hi : i < 2 ^ 32)
    (stops : b.size ≤ 2 ^ 32 - 64 ∨ ∃ k, b.test k = true) :
    ∃ j, b.scan false scanFuel i = some j := by
  have hlt := b.size_lt
  obtain small | ⟨f, set⟩ := stops
  · obtain ⟨j, hj, -⟩ := iterate_total (b.scanStep false) (fun _ => True)
      (fun j => b.size - j) (fun _ => True) (by
        intro p _
        by_cases here : p < b.size ∧ b.test p = false
        · obtain ⟨next, hstep, -, far⟩ := b.scanStep_unset here
          left
          refine ⟨next, hstep, trivial, ?_⟩
          obtain ⟨hpn, -⟩ | ⟨-, hp, -⟩ := far <;> omega
        · exact .inr ⟨p, by simp [scanStep, here], trivial⟩)
      scanFuel i trivial (by norm_num [scanFuel]; omega)
    exact ⟨j, hj⟩
  · -- Cyclic distance to the set block `f`.
    have hf := lt_size_of_test set
    obtain ⟨j, hj, -⟩ := iterate_total (b.scanStep false) (fun p => p < 2 ^ 32)
      (fun p => if p ≤ f then f - p else 2 ^ 32 - p + f + 1) (fun _ => True) (by
        intro p hp
        by_cases here : p < b.size ∧ b.test p = false
        · obtain ⟨next, hstep, hnext, far⟩ := b.scanStep_unset here
          left
          refine ⟨next, hstep, hnext, ?_⟩
          have away : p ≤ f → p < next → (∀ k, p ≤ k → k < next → b.test k = false) → next ≤ f := by
            intro hpf _ passed
            by_contra hfn
            simp [passed f hpf (by omega)] at set
          have ne : p ≠ f := by rintro rfl; simp [here.2] at set
          obtain ⟨hpn, -, passed⟩ | ⟨rfl, rfl, passed⟩ := far
          · by_cases hpf : p ≤ f
            · have := away hpf hpn passed
              simp only [hpf, this, if_true]
              omega
            · have : ¬next ≤ f := by omega
              simp only [hpf, this, if_false]
              omega
          · have : ¬(2 ^ 32 - 64 ≤ f) := by
              intro hpf
              simp [passed f hpf] at set
            simp only [this, if_false, Nat.zero_le, if_true]
            omega
        · exact .inr ⟨p, by simp [scanStep, here], trivial⟩)
      scanFuel i hi (by
        norm_num [scanFuel]
        split <;> omega)
    exact ⟨j, hj⟩

/-- With nothing set and more than `2 ^ 32 - 64` blocks the scan wraps forever. -/
theorem scan_unset_diverges (b : BlockBitmap) (large : 2 ^ 32 - 64 < b.size)
    (empty : ∀ k, b.test k = false) (fuel : Nat) : b.scan false fuel 0 = none := by
  have hlt := b.size_lt
  refine iterate_diverges (fun j => j % 64 = 0 ∧ j < 2 ^ 32) ?_ fuel 0 (by norm_num)
  rintro j ⟨aligned, hj⟩
  have here : j < b.size ∧ b.test j = false := ⟨by omega, empty j⟩
  have word : b.words.getD (j / 64) 0 = 0 := by
    apply BitVec.eq_of_getLsbD_eq
    intro k hk
    have unset := empty (j / 64 * 64 + k)
    rw [test_eq, wordBit, show (j / 64 * 64 + k) / 64 = j / 64 by omega,
      show (j / 64 * 64 + k) % 64 = k by omega] at unset
    rw [unset]
    exact BitVec.getLsbD_zero.symm
  right
  refine ⟨u32 (j + 64), ?_, ?_, u32_lt _⟩
  · rw [scanStep, if_pos here, if_pos (by simpa using ⟨aligned, word⟩)]
  · have : (2 : Nat) ^ 32 = 64 * 2 ^ 26 := by norm_num
    rw [u32, this]
    omega

end BlockBitmap

/-! ## Lists of holes -/

/-- The run `[start, start + length)` contains block `k`. -/
def SackRun.Covers (r : SackRun) (k : Nat) : Prop :=
  r.start.toNat ≤ k ∧ k < r.start.toNat + r.length.toNat

namespace BlockBitmap

/-- The blocks below `n` at which a maximal run of missing blocks starts. -/
def missingRunStarts (b : BlockBitmap) (n : Nat) : Finset Nat :=
  (Finset.range n).filter fun i => b.test i = false ∧ (i = 0 ∨ b.test (i - 1) = true)

/-- Between a set block and a missing one above it a missing run starts. -/
theorem exists_run_start (b : BlockBitmap) {i k : Nat} (set : b.test i = true) (hik : i ≤ k)
    (missing : b.test k = false) :
    ∃ start, (i < start ∧ start ≤ k) ∧ b.test start = false ∧ b.test (start - 1) = true := by
  induction k, hik using Nat.le_induction with
  | base =>
    rw [set] at missing
    cases missing
  | succ k hk ih =>
    cases hprev : b.test k with
    | true => exact ⟨k + 1, by omega, missing, hprev⟩
    | false =>
      obtain ⟨start, hstart, h⟩ := ih hprev
      exact ⟨start, by omega, h⟩

/-- Every listed run is non-empty, starts inside the bitmap and, inside the bitmap, holds
    missing blocks only. -/
def HolesSound (b : BlockBitmap) (out : List SackRun) : Prop :=
  ∀ r ∈ out, r.length ≠ 0 ∧ r.start.toNat < b.size ∧
    ∀ k, r.Covers k → k < b.size → b.test k = false

/-- The missing blocks below `n` are listed. -/
def HolesCover (b : BlockBitmap) (out : List SackRun) (n : Nat) : Prop :=
  ∀ k, k < n → k < b.size → b.test k = false → ∃ r ∈ out, r.Covers k

/-- A list of holes that was cut: it holds one run for each missing run below `i`, and no
    missing run straddles `i`. -/
structure HolesPrefix (b : BlockBitmap) (out : List SackRun) (i : Nat) : Prop where
  cover : b.HolesCover out i
  card : out.length = (b.missingRunStarts i).card
  boundary : i = b.ackBase ∨ b.size ≤ i ∨ b.test i = true
  starts : ∀ r ∈ out, r.start.toNat < i

/-- A run as the scan builds it, between the block `start` and the end `stop` of its scan. -/
def scannedRun (b : BlockBitmap) (start stop : Nat) : SackRun :=
  ⟨UInt32.ofNat start, UInt32.ofNat (if b.size < stop then b.size else stop) - UInt32.ofNat start⟩

/-- What one round of `Holes` does. -/
theorem runsStep_false_cases {b : BlockBitmap} {maxRuns fuel i : Nat} {out : List SackRun}
    {result : (Nat × List SackRun) ⊕ List SackRun}
    (h : b.runsStep false maxRuns fuel (i, out) = some result) :
    (¬(i < b.size ∧ out.length < maxRuns) ∧ result = .inr out) ∨
    (i < b.size ∧ out.length < maxRuns ∧ ∃ start, b.scan true fuel i = some start ∧
      ((b.size ≤ start ∧ result = .inr out) ∨
        (start < b.size ∧ ∃ stop, b.scan false fuel start = some stop ∧
          result = .inl (if b.size < stop then b.size else stop,
            out ++ [b.scannedRun start stop])))) := by
  by_cases go : i < b.size ∧ out.length < maxRuns
  swap
  · left
    simp only [runsStep, go, if_false, Option.some.injEq] at h
    exact ⟨go, h.symm⟩
  right
  refine ⟨go.1, go.2, ?_⟩
  simp only [runsStep, go, and_self, if_true, Option.bind_eq_bind, Option.bind_eq_some_iff,
    Bool.not_false] at h
  obtain ⟨start, hstart, h⟩ := h
  refine ⟨start, hstart, ?_⟩
  split at h
  · rename_i hge
    exact .inl ⟨hge, (Option.some.inj h).symm⟩
  · rename_i hlt
    simp only [Option.bind_eq_some_iff, Option.some.injEq] at h
    obtain ⟨stop, hstop, rfl⟩ := h
    exact .inr ⟨by omega, stop, hstop, rfl⟩

/-- The blocks of a scanned run, clipped to the bitmap: up to the end of the scan, or up to
    the end of the bitmap when the scan wrapped. -/
theorem scannedRun_covers {b : BlockBitmap} {start stop : Nat} (hstart : start < b.size)
    (unset : b.test start = false) (hend : b.UnsetScanEnd start stop) :
    (b.scannedRun start stop).length ≠ 0 ∧ (b.scannedRun start stop).start.toNat = start ∧
      ∀ k, k < b.size → ((b.scannedRun start stop).Covers k ↔ start ≤ k ∧ (k < stop ∨ stop < start)) := by
  have hlt := b.size_lt
  obtain ⟨hstop, far⟩ := hend
  set e := if b.size < stop then b.size else stop with he
  have hecases : (e = b.size ∧ b.size < stop) ∨ (e = stop ∧ stop ≤ b.size) := by
    rw [he]; split <;> omega
  have startNat : (UInt32.ofNat start).toNat = start := by
    rw [UInt32.toNat_ofNat']; exact Nat.mod_eq_of_lt (by omega)
  have endNat : (UInt32.ofNat e).toNat = e := by
    rw [UInt32.toNat_ofNat']; exact Nat.mod_eq_of_lt (by omega)
  have lengthNat : (UInt32.ofNat e - UInt32.ofNat start).toNat = (2 ^ 32 - start + e) % 2 ^ 32 := by
    rw [UInt32.toNat_sub, startNat, endNat]
  have ne : start ≠ stop := by
    rintro rfl
    obtain ⟨-, -, hsize | set⟩ | ⟨hlt', -⟩ := far
    · omega
    · simp [set] at unset
    · omega
  have lengthCases : (start < stop ∧ (UInt32.ofNat e - UInt32.ofNat start).toNat = e - start) ∨
      (stop < start ∧ (UInt32.ofNat e - UInt32.ofNat start).toNat = 2 ^ 32 - start + e) := by
    rw [lengthNat]
    by_cases hss : start < stop
    · left
      refine ⟨hss, ?_⟩
      rw [show 2 ^ 32 - start + e = (e - start) + 2 ^ 32 by omega, Nat.add_mod_right,
        Nat.mod_eq_of_lt (by omega)]
    · right
      exact ⟨by omega, Nat.mod_eq_of_lt (by omega)⟩
  refine ⟨?_, startNat, ?_⟩
  · intro hzero
    have := congrArg UInt32.toNat hzero
    simp only [scannedRun, ← he, UInt32.toNat_zero] at this
    omega
  · intro k hk
    simp only [SackRun.Covers, scannedRun, ← he, startNat]
    omega

/-- The run starts below the end of a new hole: those before it, and its own. -/
theorem missingRunStarts_insert {b : BlockBitmap} {i start stop : Nat} (his : i ≤ start)
    (hss : start < stop) (between : ∀ k, i ≤ k → k < start → b.test k = true)
    (unset : ∀ k, start ≤ k → k < stop → b.test k = false)
    (boundary : start = 0 ∨ b.test (start - 1) = true) :
    b.missingRunStarts stop = insert start (b.missingRunStarts i) := by
  ext k
  simp only [missingRunStarts, Finset.mem_filter, Finset.mem_range, Finset.mem_insert]
  constructor
  · rintro ⟨hk, hkunset, hkstart⟩
    by_cases hki : k < i
    · exact .inr ⟨hki, hkunset, hkstart⟩
    by_cases hks : k < start
    · simp [between k (by omega) hks] at hkunset
    left
    by_contra hne
    obtain rfl | set := hkstart
    · omega
    · simp [unset (k - 1) (by omega) (by omega)] at set
  · rintro (rfl | ⟨hk, hkunset, hkstart⟩)
    · exact ⟨hss, unset k (Nat.le_refl _) hss, boundary⟩
    · exact ⟨by omega, hkunset, hkstart⟩

/-- The block before a hole is set: the scan of set blocks stopped there, or the hole is
    the first of all. -/
theorem hole_boundary {b : BlockBitmap} {i start : Nat} (hi : i < b.size)
    (boundary : i = b.ackBase ∨ b.size ≤ i ∨ b.test i = true) (his : i ≤ start)
    (between : ∀ k, i ≤ k → k < start → b.test k = true) (unset : b.test start = false) :
    start = 0 ∨ b.test (start - 1) = true := by
  by_cases hlt : i < start
  · exact .inr (between (start - 1) (by omega) (by omega))
  obtain rfl : i = start := by omega
  obtain rfl | hsize | set := boundary
  · by_cases hzero : b.ackBase = 0
    · exact .inl hzero
    · exact .inr (b.test_of_lt_ackBase (by omega))
  · omega
  · simp [set] at unset

/-- The state of the `Holes` loop: as long as it has not wrapped it has listed exactly the
    missing runs below `i`; after that it has listed them all. -/
def HolesLoop (b : BlockBitmap) (state : Nat × List SackRun) : Prop :=
  state.1 ≤ b.size ∧ b.HolesSound state.2 ∧
    (b.HolesPrefix state.2 state.1 ∨ b.HolesCover state.2 b.size)

/-- One more hole keeps the loop invariant. -/
theorem holesLoop_push {b : BlockBitmap} {i start stop fuel : Nat} {out : List SackRun}
    (inv : b.HolesLoop (i, out)) (hi : i < b.size) (hfuel : b.size < fuel)
    (hstart : b.scan true fuel i = some start) (hsize : start < b.size)
    (hstop : b.scan false fuel start = some stop) :
    b.HolesLoop (if b.size < stop then b.size else stop, out ++ [b.scannedRun start stop]) := by
  obtain ⟨-, sound, progress⟩ := inv
  obtain ⟨start', hstart', his, -, between, unset⟩ := b.scan_set (Nat.le_of_lt hi) hfuel
  obtain rfl : start' = start := by simpa [hstart'] using hstart
  have hend := b.scan_unset_end hsize hstop
  obtain ⟨nonempty, startNat, covers⟩ := scannedRun_covers hsize unset hend
  obtain ⟨hstop32, far⟩ := hend
  have sound' : b.HolesSound (out ++ [b.scannedRun start' stop]) := by
    intro r hr
    simp only [List.mem_append, List.mem_singleton] at hr
    obtain hr | rfl := hr
    · exact sound r hr
    refine ⟨nonempty, by omega, ?_⟩
    intro k hcover hk
    obtain ⟨hsk, hkstop⟩ := (covers k hk).mp hcover
    obtain ⟨hle, missing, -⟩ | ⟨-, missing, -⟩ := far
    · exact missing k hsk (by omega)
    · exact missing k hsk
  refine ⟨by simp only; split <;> omega, sound', ?_⟩
  have keep : ∀ {k}, (∃ r ∈ out, r.Covers k) →
      ∃ r ∈ out ++ [b.scannedRun start' stop], r.Covers k := by
    rintro k ⟨r, hr, hk⟩
    exact ⟨r, by simp [hr], hk⟩
  have fresh : ∀ {k}, k < b.size → start' ≤ k → (k < stop ∨ stop < start') →
      ∃ r ∈ out ++ [b.scannedRun start' stop], r.Covers k := by
    intro k hk hsk hkstop
    exact ⟨_, by simp, (covers k hk).mpr ⟨hsk, hkstop⟩⟩
  obtain listed | all := progress
  swap
  · exact .inr fun k hk hk' hunset => keep (all k hk hk' hunset)
  -- A missing block is listed already, or lies in the new run, or in neither because the
  -- blocks between `i` and `start` are set.
  have coverTo : ∀ n, (∀ k, k < n → k < stop ∨ stop < start') →
      b.HolesCover (out ++ [b.scannedRun start' stop]) n := by
    intro n hn k hk hksize hkunset
    by_cases hki : k < i
    · exact keep (listed.cover k hki hksize hkunset)
    by_cases hks : k < start'
    · simp [between k (by omega) hks] at hkunset
    · exact fresh hksize (by omega) (hn k hk)
  obtain ⟨hle, missing, ends⟩ | ⟨hwrap, missing, set⟩ := far
  · left
    have hss : start' < stop := by
      by_contra hge
      obtain rfl : start' = stop := by omega
      obtain hsize' | set := ends
      · omega
      · simp [set] at unset
    have boundary := hole_boundary hi listed.boundary his between unset
    obtain ⟨e, he⟩ : ∃ e, e = if b.size < stop then b.size else stop := ⟨_, rfl⟩
    have hecases : (e = b.size ∧ b.size < stop) ∨ (e = stop ∧ stop ≤ b.size) := by
      rw [he]; split <;> omega
    rw [← he]
    refine ⟨coverTo e fun k hk => by omega, ?_, ?_, ?_⟩
    · have starts := missingRunStarts_insert his (show start' < e by omega) between
        (fun k hsk hk => missing k hsk (by omega)) boundary
      have notMem : start' ∉ b.missingRunStarts i := by
        simp [missingRunStarts]
        omega
      rw [starts, Finset.card_insert_of_notMem notMem, ← listed.card]
      simp
    · simp only
      obtain hsize' | set := ends
      · exact .inr (.inl (by omega))
      · have := lt_size_of_test set
        obtain rfl : e = stop := by omega
        exact .inr (.inr set)
    · intro r hr
      obtain hr | hr := List.mem_append.mp hr
      · have := listed.starts r hr
        omega
      · rw [List.mem_singleton.mp hr]
        omega
  · exact .inr (coverTo b.size fun k _ => by omega)

/-- What `Holes(AckBase(), max_runs)` returns lists missing blocks only; it lists every
    missing block, or it is full and lists every missing run that starts below some index. -/
structure HolesResult (b : BlockBitmap) (maxRuns : Nat) (out : List SackRun) : Prop where
  length : out.length ≤ maxRuns
  sound : b.HolesSound out
  cover : b.HolesCover out b.size ∨ ∃ i, out.length = maxRuns ∧ b.HolesPrefix out i

theorem holes_spec {b : BlockBitmap} {maxRuns fuel : Nat} {out : List SackRun}
    (hmax : 0 < maxRuns) (hfuel : b.size < fuel)
    (h : holesFuel fuel b b.ackBase maxRuns = some out) : b.HolesResult maxRuns out := by
  simp only [holesFuel, runsFuel, Nat.max_self, if_neg (Nat.ne_of_gt hmax)] at h
  have starts : b.missingRunStarts b.ackBase = ∅ := by
    apply Finset.filter_false_of_mem
    intro k hk
    simp [b.test_of_lt_ackBase (Finset.mem_range.mp hk)]
  have initial : b.HolesLoop (b.ackBase, []) := by
    refine ⟨b.ackBase_le_size, fun r hr => by simp at hr, .inl ⟨?_, by simp [starts], .inl rfl, by simp⟩⟩
    intro k hk _ hunset
    simp [b.test_of_lt_ackBase hk] at hunset
  refine iterate_partial (fun state => b.HolesLoop state ∧ state.2.length ≤ maxRuns)
    (b.HolesResult maxRuns) ?_ ?_ fuel _ out ⟨initial, by simp⟩ h
  · rintro ⟨i, out⟩ ⟨i', out'⟩ ⟨inv, hlen⟩ hstep
    obtain ⟨-, habs⟩ | ⟨hi, hroom, start, hstart, ⟨-, habs⟩ | ⟨hsize, stop, hstop, hres⟩⟩ :=
      runsStep_false_cases hstep
    · cases habs
    · cases habs
    · cases hres
      exact ⟨holesLoop_push inv hi hfuel hstart hsize hstop, by simp; omega⟩
  · rintro ⟨i, out⟩ result ⟨⟨hi, sound, progress⟩, hlen⟩ hstep
    obtain ⟨hstop, hres⟩ | ⟨hi', hroom, start, hstart, ⟨hge, hres⟩ | ⟨-, stop, -, habs⟩⟩ :=
      runsStep_false_cases hstep
    · cases hres
      refine ⟨hlen, sound, ?_⟩
      obtain listed | all := progress
      · by_cases hsize : i < b.size
        · simp only [hsize, true_and] at hstop
          simp only at hlen
          exact .inr ⟨i, by omega, listed⟩
        · exact .inl fun k hk hk' hunset => listed.cover k (by omega) hk' hunset
      · exact .inl all
    · cases hres
      refine ⟨hlen, sound, .inl ?_⟩
      obtain listed | all := progress
      · intro k _ hk hunset
        by_cases hki : k < i
        · exact listed.cover k hki hk hunset
        obtain ⟨start', hstart', -, -, between, -⟩ := b.scan_set hi hfuel
        obtain rfl : start' = start := by simpa [hstart'] using hstart
        simp [between k (by omega) (by omega)] at hunset
      · exact all
    · cases habs

/-- `Holes` returns whenever its scans do. -/
theorem holes_total (b : BlockBitmap) (maxRuns : Nat) (hmax : maxRuns < 2 ^ 32)
    (stops : b.size ≤ 2 ^ 32 - 64 ∨ ∃ k, b.test k = true) :
    ∃ out, holesFuel scanFuel b b.ackBase maxRuns = some out := by
  have hlt := b.size_lt
  have hfuel : b.size < scanFuel := by norm_num [scanFuel]; omega
  by_cases hzero : maxRuns = 0
  · exact ⟨[], by simp [holesFuel, runsFuel, hzero]⟩
  simp only [holesFuel, runsFuel, if_neg hzero, Nat.max_self]
  obtain ⟨out, hout, -⟩ := iterate_total (b.runsStep false maxRuns scanFuel)
    (fun state => state.1 ≤ b.size) (fun state => maxRuns - state.2.length) (fun _ => True) (by
      rintro ⟨i, out⟩ hi
      by_cases go : i < b.size ∧ out.length < maxRuns
      swap
      · exact .inr ⟨out, by simp [runsStep, go], trivial⟩
      obtain ⟨start, hstart, -⟩ := b.scan_set hi hfuel
      by_cases hge : b.size ≤ start
      · exact .inr ⟨out, by simp [runsStep, go, hstart, hge], trivial⟩
      obtain ⟨stop, hstop⟩ := b.scan_unset_total start (by omega) stops
      refine .inl ⟨_, by simp [runsStep, go, hstart, hge, hstop]; rfl, ?_, ?_⟩
      · simp only
        split <;> omega
      · simp only [List.length_append, List.length_singleton]
        omega)
    scanFuel (b.ackBase, []) b.ackBase_le_size (by norm_num [scanFuel]; omega)
  exact ⟨out, hout⟩

/-- An empty bitmap of more than `2 ^ 32 - 64` blocks: `Holes` never returns. -/
theorem holes_diverges (b : BlockBitmap) (maxRuns : Nat) (hmax : 0 < maxRuns)
    (large : 2 ^ 32 - 64 < b.size) (empty : ∀ k, b.test k = false) (fuel : Nat) :
    holesFuel fuel b b.ackBase maxRuns = none := by
  have hzero : b.ackBase = 0 := by
    by_contra hne
    have := b.test_of_lt_ackBase (k := 0) (by omega)
    simp [empty] at this
  simp only [holesFuel, runsFuel, if_neg (Nat.ne_of_gt hmax), Nat.max_self, hzero]
  -- The first round never gets past the scan of unset blocks.
  cases h : iterate (b.runsStep false maxRuns fuel) fuel (0, []) with
  | none => rfl
  | some out =>
    obtain ⟨rounds, -, hfirst⟩ := iterate_eq_some_succ h
    have stuck : ∀ result, b.runsStep false maxRuns fuel (0, []) ≠ some result := by
      intro result hstep
      obtain ⟨hgo, -⟩ | ⟨-, -, start, hstart, hrest⟩ := runsStep_false_cases hstep
      · exact hgo ⟨by omega, by simpa using hmax⟩
      have hstart0 : start = 0 := by
        obtain ⟨n, -, hleave | ⟨next, hgo, -⟩⟩ := iterate_eq_some_succ hstart
        · simpa [scanStep, empty] using hleave.symm
        · simp [scanStep, empty] at hgo
      subst hstart0
      obtain ⟨hge, -⟩ | ⟨-, stop, hstop, -⟩ := hrest
      · omega
      · rw [b.scan_unset_diverges large empty] at hstop
        contradiction
    obtain hleave | ⟨s', hgo, -⟩ := hfirst
    · exact absurd hleave (stuck _)
    · exact absurd hgo (stuck _)

end BlockBitmap

end CrossTransfer.Transfer
