import Mathlib.Algebra.BigOperators.Intervals
import Mathlib.Algebra.Order.BigOperators.Group.Finset
import Mathlib.Data.Finset.Lattice.Fold
import Mathlib.Data.Finset.Prod
import Mathlib.Order.Lattice.Nat
import Mathlib.Tactic.Linarith

/-! # Separated runs

A run is a first position and a length. A scan of a set of positions lists its maximal runs, which
do not touch each other (`Separated`); `exists_separated` is that list for any set.

A list of runs has a weight, the sum of what each run weighs. `heaviest` is the largest weight of at
most `k` separated runs in an interval: try each first run, and the rest after it.
-/

namespace CrossTransfer.Library

namespace RunPacking

/-- The runs lie in `[lo, hi)`, in order, none empty and with a gap between any two. -/
def Separated (hi : Nat) : Nat → List (Nat × Nat) → Prop
  | _, [] => True
  | lo, (start, length) :: runs =>
    lo ≤ start ∧ 0 < length ∧ start + length ≤ hi ∧ Separated hi (start + length + 1) runs

def Covered (runs : List (Nat × Nat)) (k : Nat) : Prop :=
  ∃ run ∈ runs, run.1 ≤ k ∧ k < run.1 + run.2

def weight (w : Nat → Nat → Nat) (runs : List (Nat × Nat)) : Nat :=
  (runs.map fun run => w run.1 run.2).sum

variable {w : Nat → Nat → Nat} {hi lo lo' start length k : Nat} {runs : List (Nat × Nat)}

@[simp] theorem weight_nil : weight w [] = 0 := rfl

@[simp] theorem weight_cons : weight w ((start, length) :: runs) = w start length + weight w runs := by
  simp [weight]

@[simp] theorem not_covered_nil : ¬Covered [] k := by simp [Covered]

@[simp] theorem covered_cons :
    Covered ((start, length) :: runs) k ↔ (start ≤ k ∧ k < start + length) ∨ Covered runs k := by
  simp [Covered]

theorem Separated.earlier (h : Separated hi lo runs) (hlo : lo' ≤ lo) : Separated hi lo' runs := by
  cases runs with
  | nil => trivial
  | cons run runs => exact ⟨hlo.trans h.1, h.2⟩

theorem Separated.le_of_covered (h : Separated hi lo runs) (hk : Covered runs k) :
    lo ≤ k ∧ k < hi := by
  induction runs generalizing lo with
  | nil => simp at hk
  | cons run runs ih =>
    obtain ⟨hstart, hlength, hend, hrest⟩ := h
    rw [covered_cons] at hk
    obtain hhead | htail := hk
    · omega
    · have := ih hrest htail
      omega

theorem Separated.take (h : Separated hi lo runs) (n : Nat) : Separated hi lo (runs.take n) := by
  induction runs generalizing lo n with
  | nil => simpa using h
  | cons run runs ih =>
    cases n with
    | zero => trivial
    | succ n => exact ⟨h.1, h.2.1, h.2.2.1, ih h.2.2.2 n⟩

/-- Each run takes a position of its own. -/
theorem Separated.length_le (h : Separated hi lo runs) : runs.length ≤ hi - lo := by
  induction runs generalizing lo with
  | nil => simp
  | cons run runs ih =>
    obtain ⟨hstart, hlength, hend, hrest⟩ := h
    have := ih hrest
    rw [List.length_cons]
    omega

/-- The maximal runs of a set of positions. -/
theorem exists_separated (p : Nat → Bool) (hle : lo ≤ hi) :
    ∃ runs, Separated hi lo runs ∧ ∀ k, lo ≤ k → k < hi → (p k = true ↔ Covered runs k) := by
  induction hle using Nat.decreasingInduction with
  | self => exact ⟨[], trivial, fun k hlo hhi => by omega⟩
  | of_succ lo hlt ih =>
    obtain ⟨runs, hsep, hruns⟩ := ih
    have habove : ∀ k, lo + 1 ≤ k → k < hi → (p k = true ↔ Covered runs k) := hruns
    have hbelow : ¬Covered runs lo := fun hlo => by
      have := hsep.le_of_covered hlo
      omega
    cases hp : p lo with
    | false =>
      refine ⟨runs, hsep.earlier (Nat.le_succ lo), fun k hk hkhi => ?_⟩
      obtain rfl | hlater := Nat.eq_or_lt_of_le hk
      · simp [hp, hbelow]
      · exact habove k hlater hkhi
    | true =>
      -- The block joins the first run above it, if that run touches it.
      by_cases htouch : ∃ length rest, runs = (lo + 1, length) :: rest
      · obtain ⟨length, rest, rfl⟩ := htouch
        obtain ⟨-, hlength, hend, hrest⟩ := hsep
        have hnext : lo + (length + 1) + 1 = lo + 1 + length + 1 := by omega
        refine ⟨(lo, length + 1) :: rest,
          ⟨le_rfl, by omega, by omega, hnext ▸ hrest⟩, fun k hk hkhi => ?_⟩
        rw [covered_cons]
        obtain rfl | hlater := Nat.eq_or_lt_of_le hk
        · simp [hp]
        · rw [habove k hlater hkhi, covered_cons]
          refine or_congr_left ?_
          omega
      · have hgap : Separated hi (lo + 1 + 1) runs := by
          cases runs with
          | nil => trivial
          | cons run rest =>
            obtain ⟨start, length⟩ := run
            obtain ⟨hstart, hsep⟩ := hsep
            have : start ≠ lo + 1 := fun heq => htouch ⟨length, rest, by rw [heq]⟩
            exact ⟨by omega, hsep⟩
        refine ⟨(lo, 1) :: runs, ⟨le_rfl, one_pos, hlt, hgap⟩, fun k hk hkhi => ?_⟩
        rw [covered_cons]
        obtain rfl | hlater := Nat.eq_or_lt_of_le hk
        · simp [hp]
        · rw [habove k hlater hkhi]
          refine (or_iff_right ?_).symm
          omega

/-- A run of positions with `p` that cannot be extended in `[lo, hi)`. -/
structure Maximal (p : Nat → Prop) (lo hi : Nat) (run : Nat × Nat) : Prop where
  low : lo ≤ run.1
  nonempty : 0 < run.2
  high : run.1 + run.2 ≤ hi
  inside : ∀ k, run.1 ≤ k → k < run.1 + run.2 → p k
  before : run.1 = lo ∨ ¬p (run.1 - 1)
  after : run.1 + run.2 = hi ∨ ¬p (run.1 + run.2)

theorem Separated.pairwise (h : Separated hi lo runs) :
    runs.Pairwise fun r s => r.1 + r.2 < s.1 := by
  induction runs generalizing lo with
  | nil => exact .nil
  | cons run runs ih =>
    obtain ⟨-, -, -, hrest⟩ := h
    refine .cons (fun s hs => ?_) (ih hrest)
    have hlater : ∀ {lo : Nat} {runs : List (Nat × Nat)}, Separated hi lo runs → s ∈ runs → lo ≤ s.1 := by
      intro lo runs hsep hmem
      induction runs generalizing lo with
      | nil => cases hmem
      | cons first rest ih =>
        obtain ⟨hlow, -, -, hsep⟩ := hsep
        obtain rfl | hmem := List.mem_cons.mp hmem
        · exact hlow
        · have := ih hsep hmem
          omega
    exact hlater hrest hs

/-- Two of the runs are the same, or one lies behind the other with a gap between them. -/
theorem Separated.apart (h : Separated hi lo runs) {r s : Nat × Nat} (hr : r ∈ runs) (hs : s ∈ runs) :
    r = s ∨ r.1 + r.2 < s.1 ∨ s.1 + s.2 < r.1 := by
  have hapart : runs.Pairwise fun r s => r.1 + r.2 < s.1 ∨ s.1 + s.2 < r.1 := h.pairwise.imp .inl
  have hsymm : Std.Symm fun r s : Nat × Nat => r.1 + r.2 < s.1 ∨ s.1 + s.2 < r.1 := ⟨fun _ _ => Or.symm⟩
  by_cases heq : r = s
  · exact .inl heq
  · exact .inr (hapart.forall hr hs heq)

theorem Separated.bounds (h : Separated hi lo runs) {r : Nat × Nat} (hr : r ∈ runs) :
    lo ≤ r.1 ∧ 0 < r.2 ∧ r.1 + r.2 ≤ hi := by
  induction runs generalizing lo with
  | nil => cases hr
  | cons first rest ih =>
    obtain ⟨hlow, hlength, hend, hrest⟩ := h
    obtain rfl | hr := List.mem_cons.mp hr
    · exact ⟨hlow, hlength, hend⟩
    · have := ih hrest hr
      omega

/-- Separated runs that cover the positions with `p` are the maximal runs of `p`. -/
theorem Separated.mem_iff {p : Nat → Prop} (h : Separated hi lo runs)
    (hp : ∀ k, lo ≤ k → k < hi → (p k ↔ Covered runs k)) (run : Nat × Nat) :
    run ∈ runs ↔ Maximal p lo hi run := by
  constructor
  · intro hrun
    obtain ⟨hlow, hlength, hend⟩ := h.bounds hrun
    -- Next to a run no position is covered, because the others keep a gap.
    have hgap : ∀ k, k + 1 = run.1 ∨ k = run.1 + run.2 → ¬Covered runs k := by
      rintro k hk ⟨s, hs, hfrom, hto⟩
      obtain rfl | hlt | hlt := h.apart hrun hs
      · omega
      · omega
      · omega
    refine ⟨hlow, hlength, hend, fun k hfrom hto => ?_, ?_, ?_⟩
    · exact (hp k (by omega) (by omega)).mpr ⟨run, hrun, hfrom, hto⟩
    · by_cases hfirst : run.1 = lo
      · exact .inl hfirst
      · refine .inr fun hbefore => hgap (run.1 - 1) (.inl (by omega)) ?_
        exact (hp _ (by omega) (by omega)).mp hbefore
    · by_cases hlast : run.1 + run.2 = hi
      · exact .inl hlast
      · refine .inr fun hafter => hgap (run.1 + run.2) (.inr rfl) ?_
        exact (hp _ (by omega) (by omega)).mp hafter
  · intro hmax
    have hlow := hmax.low
    have hlength := hmax.nonempty
    have hend := hmax.high
    obtain ⟨s, hs, hfrom, hto⟩ :=
      (hp run.1 hlow (by omega)).mp (hmax.inside run.1 le_rfl (by omega))
    obtain ⟨hslow, hslength, hsend⟩ := h.bounds hs
    have hinside : ∀ k, s.1 ≤ k → k < s.1 + s.2 → p k := fun k hk hks =>
      (hp k (by omega) (by omega)).mpr ⟨s, hs, hk, hks⟩
    have hstart : s.1 = run.1 := by
      by_contra hne
      exact hmax.before.elim (by omega) fun hbefore => hbefore (hinside _ (by omega) (by omega))
    have hstop : s.1 + s.2 = run.1 + run.2 := by
      obtain hlt | heq | hgt := Nat.lt_trichotomy (s.1 + s.2) (run.1 + run.2)
      · -- The position behind `s` would be in `run`, so in another run that touches `s`.
        obtain ⟨t, ht, htfrom, htto⟩ := (hp (s.1 + s.2) (by omega) (by omega)).mp
          (hmax.inside _ (by omega) hlt)
        obtain rfl | hlt | hlt := h.apart hs ht
        · omega
        · omega
        · omega
      · exact heq
      · exact hmax.after.elim (by omega) fun hafter => absurd (hinside _ (by omega) hgt) hafter
    have hlengths : s.2 = run.2 := by omega
    rw [← Prod.ext hstart hlengths]
    exact hs

/-! ## The heaviest list -/

/-- The runs in an interval. -/
def runsWithin (lo hi : Nat) : Finset (Nat × Nat) :=
  (Finset.range hi ×ˢ Finset.range (hi + 1)).filter fun run =>
    lo ≤ run.1 ∧ 0 < run.2 ∧ run.1 + run.2 ≤ hi

theorem mem_runsWithin :
    (start, length) ∈ runsWithin lo hi ↔ lo ≤ start ∧ 0 < length ∧ start + length ≤ hi := by
  simp only [runsWithin, Finset.mem_filter, Finset.mem_product, Finset.mem_range]
  omega

/-- The largest weight of a run in `[lo, hi)`, with what `rest` says of the positions behind it. -/
def heaviestRun (w : Nat → Nat → Nat) (hi : Nat) (rest : Nat → Nat) (lo : Nat) : Nat :=
  (runsWithin lo hi).sup fun run => w run.1 run.2 + rest (run.1 + run.2 + 1)

/-- The largest weight of at most `k` separated runs in `[lo, hi)`. -/
def heaviest (w : Nat → Nat → Nat) (hi : Nat) : Nat → Nat → Nat
  | 0, _ => 0
  | k + 1, lo => heaviestRun w hi (heaviest w hi k) lo

theorem weight_le_heaviest (h : Separated hi lo runs) (hk : runs.length ≤ k) :
    weight w runs ≤ heaviest w hi k lo := by
  induction runs generalizing lo k with
  | nil => simp
  | cons run runs ih =>
    obtain ⟨start, length⟩ := run
    obtain ⟨hstart, hlength, hend, hrest⟩ := h
    cases k with
    | zero => simp at hk
    | succ k =>
      have hfirst : (start, length) ∈ runsWithin lo hi :=
        mem_runsWithin.mpr ⟨hstart, hlength, hend⟩
      have htail := ih hrest (by simpa using hk)
      rw [weight_cons, heaviest, heaviestRun]
      exact (Nat.add_le_add_left htail _).trans
        (Finset.le_sup (f := fun run => w run.1 run.2 + heaviest w hi k (run.1 + run.2 + 1)) hfirst)

theorem exists_heaviest (w : Nat → Nat → Nat) (hi k lo : Nat) :
    ∃ runs, Separated hi lo runs ∧ runs.length ≤ k ∧ weight w runs = heaviest w hi k lo := by
  induction k generalizing lo with
  | zero => exact ⟨[], trivial, le_rfl, rfl⟩
  | succ k ih =>
    obtain hnone | hsome := (runsWithin lo hi).eq_empty_or_nonempty
    · exact ⟨[], trivial, Nat.zero_le _, by simp [heaviest, heaviestRun, hnone]⟩
    · obtain ⟨⟨start, length⟩, hmem, hsup⟩ := Finset.exists_mem_eq_sup _ hsome
        fun run => w run.1 run.2 + heaviest w hi k (run.1 + run.2 + 1)
      obtain ⟨hstart, hlength, hend⟩ := mem_runsWithin.mp hmem
      obtain ⟨runs, hsep, hcount, hweight⟩ := ih (start + length + 1)
      refine ⟨(start, length) :: runs, ⟨hstart, hlength, hend, hsep⟩, by simpa using hcount, ?_⟩
      rw [weight_cons, heaviest, heaviestRun, hsup, hweight]

/-! ## Evenly spaced runs -/

/-- `k` runs of one length, with gaps of one position. -/
def evenly (length : Nat) : Nat → Nat → List (Nat × Nat)
  | 0, _ => []
  | k + 1, start => (start, length) :: evenly length k (start + length + 1)

@[simp] theorem length_evenly : (evenly length k start).length = k := by
  induction k generalizing start with
  | zero => rfl
  | succ k ih => simp [evenly, ih]

theorem separated_evenly (hlength : 0 < length) (hend : start + k * (length + 1) ≤ hi + 1) :
    Separated hi start (evenly length k start) := by
  induction k generalizing start with
  | zero => trivial
  | succ k ih =>
    rw [Nat.succ_mul] at hend
    exact ⟨le_rfl, hlength, by omega, ih (by omega)⟩

theorem le_weight_evenly {c : Nat} (hc : ∀ s, start ≤ s → c ≤ w s length) :
    k * c ≤ weight w (evenly length k start) := by
  induction k generalizing start with
  | zero => simp
  | succ k ih =>
    have hrest : k * c ≤ weight w (evenly length k (start + length + 1)) :=
      ih fun s hs => hc s (by omega)
    have hfirst := hc start le_rfl
    rw [evenly, weight_cons, Nat.succ_mul]
    omega

theorem weight_evenly_one :
    weight w (evenly 1 k start) = ∑ j ∈ Finset.range k, w (start + 2 * j) 1 := by
  induction k generalizing start with
  | zero => rfl
  | succ k ih =>
    rw [evenly, weight_cons, ih, Finset.sum_range_succ', Nat.add_comm]
    congr 1
    exact Finset.sum_congr rfl fun j _ => by congr 1; omega

/-! ## When single positions are heaviest -/

section Singles

/-- A run weighs at most as much as single positions in its place. -/
def SinglesPay (w : Nat → Nat → Nat) : Prop :=
  ∀ start length, 0 < length →
    w start length ≤ ∑ j ∈ Finset.Ico (start / 2) ((start + length + 1) / 2), w (2 * j) 1

theorem weight_le_singles (hpay : SinglesPay w) (h : Separated hi lo runs) :
    weight w runs ≤ ∑ j ∈ Finset.Ico (lo / 2) ((hi + 1) / 2), w (2 * j) 1 := by
  induction runs generalizing lo with
  | nil => simp
  | cons run runs ih =>
    obtain ⟨start, length⟩ := run
    obtain ⟨hstart, hlength, hend, hrest⟩ := h
    calc weight w ((start, length) :: runs)
        = w start length + weight w runs := weight_cons
      _ ≤ (∑ j ∈ Finset.Ico (start / 2) ((start + length + 1) / 2), w (2 * j) 1) +
            ∑ j ∈ Finset.Ico ((start + length + 1) / 2) ((hi + 1) / 2), w (2 * j) 1 :=
          Nat.add_le_add (hpay start length hlength) (ih hrest)
      _ = ∑ j ∈ Finset.Ico (start / 2) ((hi + 1) / 2), w (2 * j) 1 :=
          Finset.sum_Ico_consecutive _ (by omega) (by omega)
      _ ≤ ∑ j ∈ Finset.Ico (lo / 2) ((hi + 1) / 2), w (2 * j) 1 :=
          Finset.sum_le_sum_of_subset (Finset.Ico_subset_Ico (by omega) le_rfl)

theorem heaviest_eq_singles (hpay : SinglesPay w) (hk : (hi + 1) / 2 ≤ k) :
    heaviest w hi k 0 = ∑ j ∈ Finset.range ((hi + 1) / 2), w (2 * j) 1 := by
  apply le_antisymm
  · obtain ⟨runs, hsep, -, hweight⟩ := exists_heaviest w hi k 0
    rw [← hweight, Finset.range_eq_Ico]
    exact weight_le_singles hpay hsep
  · have hsep : Separated hi 0 (evenly 1 ((hi + 1) / 2) 0) := separated_evenly one_pos (by omega)
    have hle : weight w (evenly 1 ((hi + 1) / 2) 0) ≤ heaviest w hi k 0 :=
      weight_le_heaviest hsep (by simpa using hk)
    simpa [weight_evenly_one] using hle

end Singles

end RunPacking

end CrossTransfer.Library
