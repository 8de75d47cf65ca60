import Mathlib.Algebra.Order.Field.Basic
import Mathlib.Tactic.Linarith
import Mathlib.Tactic.Ring

/-! # Token buckets

A bucket gains `rate` tokens per unit of time, holds at most `burst` of them, and gives one to each
request that finds one. It is kept as the tokens at the time of the last request that was given one
(`Bucket`), so what it holds later is computed (`level`).

`Covers` compares two buckets that are asked together: the one has at least the tokens of the other
from some time on, and keeps that lead when both give a token or only the other does.
-/

namespace CrossTransfer.Library

/-- How a bucket fills. -/
structure BucketPolicy (K : Type*) where
  rate : K
  burst : K

structure Bucket (K : Type*) where
  tokens : K
  last : K

namespace BucketPolicy

variable {K : Type*} [Field K] [LinearOrder K] (p q : BucketPolicy K)

/-- A bucket that was never asked. -/
def full : Bucket K := ⟨p.burst, 0⟩

/-- The tokens at the time `t`; time that runs backwards adds none. -/
def level (b : Bucket K) (t : K) : K := min p.burst (b.tokens + p.rate * max 0 (t - b.last))

/-- A request at the time `t`. -/
def allow (b : Bucket K) (t : K) : Bool × Bucket K :=
  if 1 ≤ p.level b t then (true, ⟨p.level b t - 1, t⟩) else (false, b)

variable {p q} {b c : Bucket K} {s t u : K}

theorem allow_eq_true : (p.allow b t).1 = true ↔ 1 ≤ p.level b t := by
  unfold allow
  split <;> simp [*]

theorem allow_of_le (h : 1 ≤ p.level b t) : p.allow b t = (true, ⟨p.level b t - 1, t⟩) := if_pos h

theorem allow_of_lt (h : p.level b t < 1) : p.allow b t = (false, b) := if_neg (not_le.mpr h)

theorem level_le_burst : p.level b t ≤ p.burst := min_le_left ..

variable (p q b c s) in
/-- From the time `s` on the bucket `b` holds what `c` holds, or more. -/
def Covers : Prop := ∀ t, s ≤ t → q.level c t ≤ p.level b t

theorem Covers.later (h : Covers p q b c s) (hst : s ≤ t) : Covers p q b c t :=
  fun u hu => h u (hst.trans hu)

variable [IsStrictOrderedRing K]

/-- The last request is over at the time of the level. -/
theorem level_of_le (h : b.last ≤ t) : p.level b t = min p.burst (b.tokens + p.rate * (t - b.last)) := by
  rw [level, max_eq_right (sub_nonneg.mpr h)]

/-- A full bucket stays full. -/
theorem level_full (hrate : 0 ≤ p.rate) : p.level p.full t = p.burst := by
  have hgain : 0 ≤ p.rate * max 0 (t - p.full.last) := mul_nonneg hrate (le_max_left ..)
  rw [level]
  apply min_eq_left
  change p.burst ≤ p.burst + _
  linarith

/-- What a bucket holds later, from what it holds now. -/
theorem level_later (hrate : 0 ≤ p.rate) (hb : b.last ≤ t) (htu : t ≤ u) :
    p.level b u = min p.burst (p.level b t + p.rate * (u - t)) := by
  have hgain : 0 ≤ p.rate * (u - t) := mul_nonneg hrate (sub_nonneg.mpr htu)
  have hsplit : b.tokens + p.rate * (t - b.last) + p.rate * (u - t) =
      b.tokens + p.rate * (u - b.last) := by
    ring
  rw [level_of_le hb, level_of_le (hb.trans htu), ← min_add_add_right, ← min_assoc, hsplit,
    min_eq_left (by linarith : p.burst ≤ p.burst + p.rate * (u - t))]

/-- What a bucket holds after it gave a token. -/
theorem level_taken (htu : t ≤ u) :
    p.level ⟨p.level b t - 1, t⟩ u = min p.burst (p.level b t - 1 + p.rate * (u - t)) :=
  level_of_le htu

/-- A bucket at the time of its last request. -/
theorem level_last {x : K} (hx : x ≤ p.burst) : p.level ⟨x, t⟩ t = x := by
  rw [level_of_le le_rfl, sub_self, mul_zero, add_zero]
  exact min_eq_right hx

theorem level_taken_self : p.level ⟨p.level b t - 1, t⟩ t = p.level b t - 1 := by
  apply level_last
  have hburst : p.level b t ≤ p.burst := level_le_burst
  linarith

theorem level_taken_le (hrate : 0 ≤ p.rate) (hb : b.last ≤ t) (htu : t ≤ u) :
    p.level ⟨p.level b t - 1, t⟩ u ≤ p.level b u := by
  rw [level_taken htu, level_later hrate hb htu]
  apply min_le_min_left
  linarith

/-- A bucket that nobody asks for long enough is full. -/
theorem level_idle (hrate : 0 ≤ p.rate) (htokens : 0 ≤ b.tokens) (hb : b.last ≤ s) {d : K}
    (hlong : p.burst ≤ p.rate * d) (ht : s + d ≤ t) : p.level b t = p.burst := by
  have hidle : d ≤ max 0 (t - b.last) := by
    apply le_max_of_le_right
    linarith
  have hgain : p.rate * d ≤ p.rate * max 0 (t - b.last) := mul_le_mul_of_nonneg_left hidle hrate
  rw [level]
  apply min_eq_left
  linarith

/-- A request leaves no debt. -/
theorem tokens_allow (htokens : 0 ≤ b.tokens) : 0 ≤ (p.allow b t).2.tokens := by
  unfold allow
  split
  · rename_i hlevel
    exact sub_nonneg.mpr hlevel
  · exact htokens

omit [IsStrictOrderedRing K] in
theorem last_allow (hb : b.last ≤ t) : (p.allow b t).2.last ≤ t := by
  unfold allow
  split
  · exact le_rfl
  · exact hb

/-! ## Two buckets -/

theorem covers_full (hrate : 0 ≤ p.rate) (hburst : q.burst ≤ p.burst) : Covers p q p.full c s := by
  intro t _
  rw [level_full hrate]
  exact level_le_burst.trans hburst

/-- Only the other one gives a token. -/
theorem Covers.take_other (h : Covers p q b c s) (hrate : 0 ≤ q.rate) (hst : s ≤ t) (hc : c.last ≤ t) :
    Covers p q b ⟨q.level c t - 1, t⟩ t :=
  fun u hu => (level_taken_le hrate hc hu).trans (h u (hst.trans hu))

/-- Both give one. -/
theorem Covers.take_both (h : Covers p q b c s) (hrate : q.rate ≤ p.rate) (hburst : q.burst ≤ p.burst)
    (hst : s ≤ t) : Covers p q ⟨p.level b t - 1, t⟩ ⟨q.level c t - 1, t⟩ t := by
  intro u hu
  have hlevel : q.level c t ≤ p.level b t := h t hst
  have hgain : q.rate * (u - t) ≤ p.rate * (u - t) :=
    mul_le_mul_of_nonneg_right hrate (sub_nonneg.mpr hu)
  rw [level_taken hu, level_taken hu]
  apply min_le_min hburst
  linarith

end BucketPolicy

end CrossTransfer.Library
