import CrossTransfer.Library.RunPacking
import CrossTransfer.Transfer.BitmapRuns

/-! # The runs of set blocks

`HaveRuns` lists the maximal runs of set blocks, at most `max_runs` of them (`haveRuns_eq_take`).
So its result is a list of separated runs, and each list of separated runs that is short enough is
the result for some bitmap (`haveRuns_ofRuns`).

The scan wraps only when it looks for the next set block of a bitmap with more than `2 ^ 32 - 64`
blocks and there is none.
-/

namespace CrossTransfer.Transfer

open CrossTransfer.Library
open RunPacking

/-- The first block of a run, and its length. -/
def SackRun.span (r : SackRun) : Nat × Nat := (r.start.toNat, r.length.toNat)

def SackRun.ofSpan (span : Nat × Nat) : SackRun := ⟨UInt32.ofNat span.1, UInt32.ofNat span.2⟩

theorem SackRun.span_ofSpan {span : Nat × Nat} (hstart : span.1 < 2 ^ 32) (hlength : span.2 < 2 ^ 32) :
    (SackRun.ofSpan span).span = span := by
  have hstart' : span.1 % 2 ^ 32 = span.1 := Nat.mod_eq_of_lt hstart
  have hlength' : span.2 % 2 ^ 32 = span.2 := Nat.mod_eq_of_lt hlength
  rw [SackRun.span, SackRun.ofSpan, UInt32.toNat_ofNat', UInt32.toNat_ofNat', hstart', hlength']

namespace BlockBitmap

variable {b : BlockBitmap} {i k start : Nat}

/-! ## Setting runs -/

theorem foldl_set_test (indices : List Nat) (b : BlockBitmap) :
    (indices.foldl (fun b i => (b.set i).1) b).test k = true ↔
      b.test k = true ∨ (k ∈ indices ∧ k < b.size) := by
  induction indices generalizing b with
  | nil => simp
  | cons i indices ih =>
    rw [List.foldl_cons, ih, set_test, set_size, List.mem_cons]
    simp only [Bool.or_eq_true, decide_eq_true_eq]
    grind

theorem setRuns_test (b : BlockBitmap) (runs : List SackRun) :
    (b.setRuns runs).test k = true ↔
      b.test k = true ∨ (k < b.size ∧ Covered (runs.map SackRun.span) k) := by
  induction runs generalizing b with
  | nil => simp [setRuns]
  | cons r runs ih =>
    have hcons : b.setRuns (r :: runs) = (b.setRuns [r]).setRuns runs := by simp [setRuns]
    have hone : (b.setRuns [r]).test k = true ↔
        b.test k = true ∨ (k < b.size ∧ r.start.toNat ≤ k ∧ k < r.start.toNat + r.length.toNat) := by
      simp only [setRuns, List.foldl_cons, List.foldl_nil]
      split
      · have : ¬(k < b.size ∧ r.start.toNat ≤ k ∧ k < r.start.toNat + r.length.toNat) := by omega
        simp [this]
      · rw [foldl_set_test, List.mem_range']
        refine or_congr_right ⟨?_, ?_⟩
        · rintro ⟨⟨j, hj, rfl⟩, hsize⟩
          omega
        · rintro ⟨hsize, hlow, hhigh⟩
          exact ⟨⟨k - r.start.toNat, by omega, by omega⟩, hsize⟩
    rw [hcons, ih, hone, setRuns_size, List.map_cons, SackRun.span, covered_cons]
    grind

/-- A bitmap with the blocks of these runs. -/
def ofRuns (size : UInt32) (runs : List (Nat × Nat)) : BlockBitmap :=
  (reset size).setRuns (runs.map SackRun.ofSpan)

theorem ofRuns_size (size : UInt32) (runs : List (Nat × Nat)) :
    (ofRuns size runs).size = size.toNat := by
  rw [ofRuns, setRuns_size, reset_size]

theorem map_span_ofSpan {lo hi : Nat} {runs : List (Nat × Nat)} (h : Separated hi lo runs)
    (hhi : hi < 2 ^ 32) : (runs.map SackRun.ofSpan).map SackRun.span = runs := by
  induction runs generalizing lo with
  | nil => rfl
  | cons run runs ih =>
    obtain ⟨hstart, hlength, hend, hrest⟩ := h
    rw [List.map_cons, List.map_cons, ih hrest, SackRun.span_ofSpan (by omega) (by omega)]

theorem ofRuns_test {size : UInt32} {runs : List (Nat × Nat)} (h : Separated size.toNat 0 runs) :
    (ofRuns size runs).test k = true ↔ Covered runs k := by
  rw [ofRuns, setRuns_test, reset_test, map_span_ofSpan h size.toNat_lt, reset_size]
  simp only [Bool.false_eq_true, false_or, and_iff_right_iff_imp]
  exact fun hk => (h.le_of_covered hk).2

theorem count_ne_zero (h : b.test k = true) : b.count ≠ 0 := by
  rw [b.count_eq, Finset.card_ne_zero]
  refine ⟨k, Finset.mem_filter.mpr ⟨Finset.mem_range.mpr (lt_size_of_test h), ?_⟩⟩
  rwa [test_eq] at h

/-! ## The scans from block to block -/

/-- The scan of unset blocks reaches the next set one. -/
theorem scan_unset_to (hstart : b.test start = true) (hi : i ≤ start)
    (hunset : ∀ k, i ≤ k → k < start → b.test k = false) :
    b.scan false scanFuel i = some start := by
  have hsize := lt_size_of_test hstart
  have hlt := b.size_lt
  obtain ⟨j, hj⟩ := b.scan_unset_total i (by omega) (.inr ⟨start, hstart⟩)
  obtain ⟨-, ⟨hij, hbefore, hstop⟩ | ⟨-, hnone, -⟩⟩ := b.scan_unset_end (by omega) hj
  · have hle : j ≤ start := by
      by_contra hgt
      simp [hbefore start hi (by omega)] at hstart
    obtain rfl | hless := Nat.eq_or_lt_of_le hle
    · exact hj
    · have hset : b.test j = true := hstop.resolve_left (by omega)
      simp [hunset j hij hless] at hset
  · simp [hnone start hi] at hstart

/-- Where no block is set any more, it leaves the bitmap, if the index does not wrap. -/
theorem scan_unset_out (hsmall : b.size ≤ 2 ^ 32 - 64) (hi : i ≤ b.size)
    (hunset : ∀ k, i ≤ k → b.test k = false) :
    ∃ j, b.scan false scanFuel i = some j ∧ b.size ≤ j := by
  refine iterate_total (b.scanStep false) (fun p => i ≤ p) (fun p => b.size - p) _ ?_ scanFuel i
    le_rfl (by norm_num [scanFuel]; omega)
  intro p hp
  by_cases hhere : p < b.size ∧ b.test p = false
  · obtain ⟨next, hstep, -, hfar⟩ := b.scanStep_unset hhere
    left
    refine ⟨next, hstep, ?_⟩
    obtain ⟨hpn, -⟩ | ⟨-, hlast, -⟩ := hfar
    · omega
    · omega
  · right
    have hout : ¬p < b.size := fun hin => hhere ⟨hin, hunset p hp⟩
    exact ⟨p, by simp [scanStep, hhere], by omega⟩

/-- The scan of set blocks reaches the next unset one. -/
theorem scan_set_to (hi : i ≤ start) (hsize : start ≤ b.size)
    (hset : ∀ k, i ≤ k → k < start → b.test k = true) (hstart : b.test start = false) :
    b.scan true scanFuel i = some start := by
  have hlt := b.size_lt
  have hfuel : b.size < scanFuel := by
    norm_num [scanFuel]
    omega
  obtain ⟨j, hj, hij, -, hbefore, hstop⟩ := b.scan_set (hi.trans hsize) hfuel
  obtain hlow | rfl | hhigh := lt_trichotomy j start
  · simp [hset j hij hlow] at hstop
  · exact hj
  · simp [hbefore start hi hhigh] at hstart

/-- The scan of one kind of blocks reaches the next block of the other kind, or the end. -/
theorem scan_to {bit : Bool} {stop : Nat} (hi : i ≤ stop) (hsize : stop ≤ b.size)
    (hbit : ∀ k, i ≤ k → k < stop → b.test k = bit) (hstop : stop < b.size → b.test stop = !bit)
    (hends : bit = true ∨ stop < b.size ∨ b.size ≤ 2 ^ 32 - 64) :
    ∃ j, b.scan bit scanFuel i = some j ∧ (if b.size < j then b.size else j) = stop := by
  cases bit with
  | true =>
    have hnext : b.test stop = false := by
      by_cases hin : stop < b.size
      · exact hstop hin
      · exact b.test_above (Nat.not_lt.mp hin)
    exact ⟨stop, scan_set_to hi hsize hbit hnext, if_neg (Nat.not_lt.mpr hsize)⟩
  | false =>
    by_cases hin : stop < b.size
    · exact ⟨stop, scan_unset_to (hstop hin) hi hbit, if_neg (Nat.not_lt.mpr hsize)⟩
    · have hunset : ∀ k, i ≤ k → b.test k = false := by
        intro k hk
        by_cases hlow : k < stop
        · exact hbit k hk hlow
        · exact b.test_above (by omega)
      have hsmall : b.size ≤ 2 ^ 32 - 64 := by simpa [hin] using hends
      obtain ⟨j, hj, hout⟩ := scan_unset_out hsmall (by omega) hunset
      refine ⟨j, hj, ?_⟩
      split
      · omega
      · omega

/-! ## The list -/

/-- A round of the outer loop over the next run of `bit` blocks. -/
theorem runsStep_run {bit : Bool} {maxRuns : Nat} {out : List SackRun} {r : SackRun}
    (hi : i ≤ r.start.toNat) (hlength : 0 < r.length.toNat)
    (hend : r.start.toNat + r.length.toNat ≤ b.size) (hroom : out.length < maxRuns)
    (hother : ∀ k, i ≤ k → k < r.start.toNat → b.test k = !bit)
    (hbit : ∀ k, r.start.toNat ≤ k → k < r.start.toNat + r.length.toNat → b.test k = bit)
    (hafter : r.start.toNat + r.length.toNat < b.size →
      b.test (r.start.toNat + r.length.toNat) = !bit)
    (hends : bit = true ∨ b.size ≤ 2 ^ 32 - 64) :
    b.runsStep bit maxRuns scanFuel (i, out) =
      some (.inl (r.start.toNat + r.length.toNat, out ++ [r])) := by
  have hstart : b.test r.start.toNat = bit := hbit _ le_rfl (by omega)
  obtain ⟨start, hfirst, hclip⟩ := scan_to hi (show r.start.toNat ≤ b.size by omega) hother
    (fun _ => by rw [Bool.not_not, hstart]) (.inr (.inl (by omega)))
  obtain rfl : start = r.start.toNat := by
    split at hclip
    · omega
    · exact hclip
  obtain ⟨stop, hlast, hstop⟩ := scan_to (Nat.le_add_right ..) hend hbit hafter
    (hends.imp_right .inr)
  have hgo : i < b.size ∧ out.length < maxRuns := ⟨by omega, hroom⟩
  have hin : ¬b.size ≤ r.start.toNat := by omega
  have hrun : (⟨UInt32.ofNat r.start.toNat,
      UInt32.ofNat (r.start.toNat + r.length.toNat) - UInt32.ofNat r.start.toNat⟩ : SackRun) = r := by
    rw [UInt32.ofNat_add, UInt32.ofNat_toNat, UInt32.ofNat_toNat, UInt32.add_comm, UInt32.add_sub_cancel]
  simp only [runsStep, hgo, and_self, if_true, hfirst, Option.bind_eq_bind, Option.bind_some, hin,
    if_false, hlast, hstop, hrun]

/-- The `bit` blocks from `i` on are those of the runs. -/
def ListsBit (b : BlockBitmap) (bit : Bool) (i : Nat) (runs : List SackRun) : Prop :=
  Separated b.size i (runs.map SackRun.span) ∧
    ∀ k, i ≤ k → k < b.size → (b.test k = bit ↔ Covered (runs.map SackRun.span) k)

/-- The set blocks from `i` on are those of the runs. -/
def Lists (b : BlockBitmap) (i : Nat) (runs : List SackRun) : Prop :=
  Separated b.size i (runs.map SackRun.span) ∧
    ∀ k, i ≤ k → (b.test k = true ↔ Covered (runs.map SackRun.span) k)

theorem Lists.listsBit {runs : List SackRun} (h : b.Lists i runs) : b.ListsBit true i runs :=
  ⟨h.1, fun k hk _ => h.2 k hk⟩

namespace ListsBit

variable {bit : Bool} {r : SackRun} {runs : List SackRun}

theorem other (h : b.ListsBit bit i runs) (hk : i ≤ k) (hsize : k < b.size)
    (hout : ¬Covered (runs.map SackRun.span) k) : b.test k = !bit := by
  rw [Bool.eq_not, Ne, h.2 k hk hsize]
  exact hout

/-- A block is in the first run or in a later one, and those start behind a gap. -/
theorem test_cons (h : b.ListsBit bit i (r :: runs)) (hk : i ≤ k) (hsize : k < b.size) :
    (b.test k = bit ↔ (r.start.toNat ≤ k ∧ k < r.start.toNat + r.length.toNat) ∨
      Covered (runs.map SackRun.span) k) ∧
    (Covered (runs.map SackRun.span) k → r.start.toNat + r.length.toNat < k) := by
  obtain ⟨⟨hstart, hlength, hend, hrest⟩, htest⟩ := h
  exact ⟨(htest k hk hsize).trans covered_cons, fun hcov => (hrest.le_of_covered hcov).1⟩

theorem rest (h : b.ListsBit bit i (r :: runs)) :
    b.ListsBit bit (r.start.toNat + r.length.toNat) runs := by
  obtain ⟨hstart, hlength, hend, hrest⟩ := h.1
  refine ⟨hrest.earlier (Nat.le_succ _), fun k hk hsize => ?_⟩
  have hstart' : i ≤ r.start.toNat := hstart
  rw [(h.test_cons (by omega) hsize).1]
  refine or_iff_right ?_
  omega

/-- A round of the loop lists the first run. -/
theorem step {maxRuns : Nat} {out : List SackRun} (h : b.ListsBit bit i (r :: runs))
    (hroom : out.length < maxRuns) (hends : bit = true ∨ b.size ≤ 2 ^ 32 - 64) :
    b.runsStep bit maxRuns scanFuel (i, out) =
      some (.inl (r.start.toNat + r.length.toNat, out ++ [r])) := by
  obtain ⟨hstart, hlength, hend, -⟩ := h.1
  have hstart' : i ≤ r.start.toNat := hstart
  have hend' : r.start.toNat + r.length.toNat ≤ b.size := hend
  have htest : ∀ k, i ≤ k → k < b.size → k ≤ r.start.toNat + r.length.toNat →
      (b.test k = bit ↔ r.start.toNat ≤ k ∧ k < r.start.toNat + r.length.toNat) := by
    intro k hk hsize hkr
    rw [(h.test_cons hk hsize).1]
    exact or_iff_left fun hcov => absurd ((h.test_cons hk hsize).2 hcov) (Nat.not_lt.mpr hkr)
  refine runsStep_run hstart hlength hend hroom ?_ ?_ ?_ hends
  · intro k hk hkr
    rw [Bool.eq_not, Ne, htest k hk (by omega) (by omega)]
    omega
  · intro k hk hkr
    rw [htest k (by omega) (by omega) (by omega)]
    exact ⟨hk, hkr⟩
  · intro hsize
    rw [Bool.eq_not, Ne, htest _ (by omega) hsize le_rfl]
    omega

/-- The outer loop over the rest of the bitmap. -/
theorem iterate_runsStep {maxRuns fuel : Nat} {out : List SackRun} (h : b.ListsBit bit i runs)
    (hfuel : runs.length < fuel)
    (hends : b.size ≤ 2 ^ 32 - 64 ∨ (bit = true ∧ maxRuns ≤ out.length + runs.length)) :
    iterate (b.runsStep bit maxRuns scanFuel) fuel (i, out) =
      some (out ++ runs.take (maxRuns - out.length)) := by
  induction runs generalizing i out fuel with
  | nil =>
    obtain ⟨fuel, rfl⟩ : ∃ n, fuel = n + 1 := ⟨fuel - 1, by simp at hfuel; omega⟩
    rw [List.take_nil, List.append_nil]
    apply iterate_succ_leave
    by_cases hgo : i < b.size ∧ out.length < maxRuns
    · -- No run is left, so the scan for the next one leaves the bitmap.
      have hsmall : b.size ≤ 2 ^ 32 - 64 := hends.resolve_right (by simp; omega)
      obtain ⟨j, hj, hclip⟩ := scan_to hgo.1.le le_rfl
        (fun k hk hsize => h.other hk hsize (by simp)) (fun habs => absurd habs (lt_irrefl _))
        (.inr (.inr hsmall))
      have hout : b.size ≤ j := by
        split at hclip
        · omega
        · omega
      simp [runsStep, hgo, hj, hout]
    · simp [runsStep, hgo]
  | cons r runs ih =>
    obtain ⟨fuel, rfl⟩ : ∃ n, fuel = n + 1 := ⟨fuel - 1, by omega⟩
    by_cases hroom : out.length < maxRuns
    · have htake : maxRuns - out.length = maxRuns - (out ++ [r]).length + 1 := by
        rw [List.length_append, List.length_singleton]
        omega
      have hstep := h.step hroom (hends.symm.imp_left And.left)
      rw [iterate_succ_continue hstep, ih h.rest (by simpa using hfuel)
        (by simpa [Nat.add_assoc, Nat.add_comm 1] using hends), htake, List.take_succ_cons,
        List.append_assoc, List.singleton_append]
    · have hnone : maxRuns - out.length = 0 := by omega
      rw [hnone, List.take_zero, List.append_nil]
      exact iterate_succ_leave (by simp [runsStep, hroom])

theorem runsFuel_eq {maxRuns : Nat} (h : b.ListsBit bit i runs)
    (hends : b.size ≤ 2 ^ 32 - 64 ∨ (bit = true ∧ maxRuns ≤ runs.length)) :
    runsFuel scanFuel b bit i maxRuns = some (runs.take maxRuns) := by
  have hcount : runs.length ≤ b.size - i := by
    simpa using h.1.length_le
  have hfuel : runs.length < scanFuel := by
    have := b.size_lt
    norm_num [scanFuel]
    omega
  rw [runsFuel]
  split
  · rename_i hzero
    rw [hzero, List.take_zero]
  · rw [h.iterate_runsStep hfuel (by simpa using hends)]
    simp

end ListsBit

theorem haveRuns_eq_take {maxRuns : Nat} {runs : List SackRun} (h : b.Lists 0 runs)
    (hends : b.size ≤ 2 ^ 32 - 64 ∨ maxRuns ≤ runs.length) :
    b.haveRunsFuel scanFuel maxRuns = some (runs.take maxRuns) :=
  h.listsBit.runsFuel_eq (hends.imp_right fun hmax => ⟨rfl, hmax⟩)

/-- The maximal runs of a bitmap. -/
theorem exists_lists (b : BlockBitmap) : ∃ runs, b.Lists 0 runs := by
  obtain ⟨runs, hsep, hruns⟩ := exists_separated b.test (Nat.zero_le b.size)
  refine ⟨runs.map SackRun.ofSpan, ?_⟩
  rw [Lists, map_span_ofSpan hsep b.size_lt]
  refine ⟨hsep, fun k _ => ?_⟩
  by_cases hk : k < b.size
  · exact hruns k (Nat.zero_le k) hk
  · have hout : ¬Covered runs k := fun hcov => hk (hsep.le_of_covered hcov).2
    simp [b.test_above (Nat.not_lt.mp hk), hout]

theorem haveRuns_separated (b : BlockBitmap) {maxRuns : Nat}
    (hsmall : b.size ≤ 2 ^ 32 - 64) :
    ∃ runs, b.haveRunsFuel scanFuel maxRuns = some runs ∧ runs.length ≤ maxRuns ∧
      Separated b.size 0 (runs.map SackRun.span) := by
  obtain ⟨runs, hlists⟩ := b.exists_lists
  refine ⟨_, haveRuns_eq_take hlists (.inl hsmall), List.length_take_le .., ?_⟩
  rw [List.map_take]
  exact hlists.1.take maxRuns

/-- A listed block is set, for a bitmap of any size. -/
theorem haveRuns_sound {fuel maxRuns : Nat} {runs : List SackRun} (hfuel : b.size < fuel)
    (h : b.haveRunsFuel fuel maxRuns = some runs) (hk : Covered (runs.map SackRun.span) k) :
    b.test k = true := by
  suffices hall : ∀ r ∈ runs, ∀ k, r.Covers k → b.test k = true by
    obtain ⟨span, hspan, hcover⟩ := hk
    obtain ⟨r, hr, rfl⟩ := List.mem_map.mp hspan
    exact hall r hr k hcover
  rw [haveRunsFuel, runsFuel] at h
  split at h
  · cases h
    simp
  · refine iterate_partial (fun s : Nat × List SackRun => ∀ r ∈ s.2, ∀ k, r.Covers k → b.test k = true)
      (fun out => ∀ r ∈ out, ∀ k, r.Covers k → b.test k = true) ?_ ?_ fuel (0, []) runs (by simp) h
    · rintro ⟨i, out⟩ next hout hstep
      simp only [runsStep] at hstep
      split at hstep
      · obtain ⟨start, hstart, hstep⟩ := Option.bind_eq_some_iff.mp hstep
        split at hstep
        · cases hstep
        · rename_i hin
          obtain ⟨stop, hstop, hstep⟩ := Option.bind_eq_some_iff.mp hstep
          cases hstep
          obtain ⟨stop', hstop', hle, hend, hset, -⟩ := b.scan_set (Nat.le_of_not_le hin) hfuel
          obtain rfl := Option.some.inj (hstop'.symm.trans hstop)
          have hlt := b.size_lt
          have hspan : (SackRun.ofSpan (start, stop' - start)).span = (start, stop' - start) :=
            SackRun.span_ofSpan (by simp; omega) (by simp; omega)
          intro r hr k hcover
          obtain hr | hr := List.mem_append.mp hr
          · exact hout r hr k hcover
          · rw [List.mem_singleton.mp hr, if_neg (Nat.not_lt.mpr hend), ← UInt32.ofNat_sub hle] at hcover
            have hbounds : start ≤ k ∧ k < start + (stop' - start) := by
              have hfirst := congrArg Prod.fst hspan
              have hlength := congrArg Prod.snd hspan
              simp only [SackRun.span, SackRun.ofSpan] at hfirst hlength
              rwa [SackRun.Covers, hfirst, hlength] at hcover
            exact hset k hbounds.1 (by omega)
      · cases hstep
    · rintro ⟨i, out⟩ result hout hstep
      simp only [runsStep] at hstep
      split at hstep
      · obtain ⟨start, hstart, hstep⟩ := Option.bind_eq_some_iff.mp hstep
        split at hstep
        · cases hstep
          exact hout
        · obtain ⟨stop, hstop, hstep⟩ := Option.bind_eq_some_iff.mp hstep
          cases hstep
      · cases hstep
        exact hout

theorem haveRuns_ofRuns {size : UInt32} {maxRuns : Nat} {runs : List (Nat × Nat)}
    (h : Separated size.toNat 0 runs) (hcount : runs.length ≤ maxRuns)
    (hends : size.toNat ≤ 2 ^ 32 - 64 ∨ maxRuns = runs.length) :
    (ofRuns size runs).haveRunsFuel scanFuel maxRuns = some (runs.map SackRun.ofSpan) := by
  have hlists : (ofRuns size runs).Lists 0 (runs.map SackRun.ofSpan) := by
    rw [Lists, map_span_ofSpan h size.toNat_lt, ofRuns_size]
    exact ⟨h, fun k _ => ofRuns_test h⟩
  rw [haveRuns_eq_take hlists (by rw [ofRuns_size, List.length_map]; omega),
    List.take_of_length_le (by simpa using hcount)]

end BlockBitmap

end CrossTransfer.Transfer
