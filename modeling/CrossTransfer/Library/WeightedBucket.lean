import CrossTransfer.Library.TokenBucket
import Mathlib.Algebra.BigOperators.Group.List.Basic

/-! # Limiters that give several tokens

A request may take more than one token. `WeightedLimiter` is what can be asked of a limiter, and `IsTokenBucket`
what a token bucket answers, if waits of less than a tick are no waits. Whatever is asked for, as long as it is
asked in the order of time, what such a limiter gives between two times is at most what it holds when it is
full and what it gains in between and in one more tick (`Conforms.window`).
-/

namespace CrossTransfer.Library

/-- A limiter and what it answers: the tokens at a time, and whether a request for some of them is granted. -/
structure WeightedLimiter (K : Type*) where
  State : Type
  new : (limit burst : K) → State
  limit : State → K
  burst : State → K
  tokensAt : State → (t : K) → K
  allowN : State → (t n : K) → Bool × State

namespace WeightedLimiter

variable {K : Type*} [Field K] [LinearOrder K]

/-- The answers are those of a bucket. A request is granted if it has to wait for less than a tick. -/
structure IsTokenBucket (L : WeightedLimiter K) (tick : K) : Prop where
  limit_new : ∀ limit burst, L.limit (L.new limit burst) = limit
  burst_new : ∀ limit burst, L.burst (L.new limit burst) = burst
  limit_allowN : ∀ s t n, L.limit (L.allowN s t n).2 = L.limit s
  burst_allowN : ∀ s t n, L.burst (L.allowN s t n).2 = L.burst s
  full : ∀ s t, L.tokensAt s t ≤ L.burst s
  refill : ∀ s t u, 0 ≤ L.limit s → t ≤ u → L.tokensAt s u ≤ L.tokensAt s t + L.limit s * (u - t)
  granted : ∀ s t n, 0 ≤ L.limit s → (L.allowN s t n).1 = true → n ≤ L.tokensAt s t + L.limit s * tick
  taken : ∀ s t n, (L.allowN s t n).1 = true → L.tokensAt (L.allowN s t n).2 t ≤ L.tokensAt s t - n
  refused : ∀ s t n u, (L.allowN s t n).1 = false → L.tokensAt (L.allowN s t n).2 u ≤ L.tokensAt s u

end WeightedLimiter

/-- What a limiter gave, and when. -/
structure Grant (K : Type*) where
  time : K
  amount : K

section Grants

variable {K : Type*} [Field K] [LinearOrder K]

/-- What is given from the time `s` to the time `u`. -/
def granted (grants : List (Grant K)) (s u : K) : K :=
  ((grants.filter fun g => s ≤ g.time ∧ g.time ≤ u).map (·.amount)).sum

variable {grants : List (Grant K)} {s t u : K}

theorem granted_append (g : Grant K) : granted (grants ++ [g]) s u =
    granted grants s u + if s ≤ g.time ∧ g.time ≤ u then g.amount else 0 := by
  rw [granted, List.filter_append, List.map_append, List.sum_append]
  congr 1
  by_cases hin : s ≤ g.time ∧ g.time ≤ u
  · simp [hin]
  · rw [if_neg hin, List.filter_cons_of_neg (by simpa using hin)]
    rfl

/-- Nothing is given after the last time. -/
theorem granted_of_lt (hbefore : ∀ g ∈ grants, g.time ≤ t) (hlt : t < s) : granted grants s u = 0 := by
  have hnone : grants.filter (fun g => s ≤ g.time ∧ g.time ≤ u) = [] := by
    rw [List.filter_eq_nil_iff]
    intro g hg hin
    exact absurd ((of_decide_eq_true hin).1.trans (hbefore g hg)) (not_le.mpr hlt)
  rw [granted, hnone]
  rfl

/-- The end of a window does not matter after the last time. -/
theorem granted_end (hbefore : ∀ g ∈ grants, g.time ≤ t) (htu : t ≤ u) :
    granted grants s u = granted grants s t := by
  rw [granted, granted]
  congr 2
  apply List.filter_congr
  intro g hg
  simp [hbefore g hg, (hbefore g hg).trans htu]

end Grants

namespace WeightedLimiter

variable {K : Type*} [Field K] [LinearOrder K] (L : WeightedLimiter K)

/-- A limiter from which `grants` were taken, oldest first. -/
structure Conforms (tick : K) (b : L.State) (grants : List (Grant K)) : Prop where
  limit : 0 ≤ L.limit b
  /-- What it has is what it has not given. -/
  since : ∀ t, (∀ g ∈ grants, g.time ≤ t) → ∀ s ≤ t,
    granted grants s t + L.tokensAt b t ≤ L.burst b + L.limit b * (t - s)
  window : ∀ s u, s ≤ u → granted grants s u ≤ L.burst b + L.limit b * (u - s + tick)

variable [IsStrictOrderedRing K] {L} {tick : K} {b : L.State} {grants : List (Grant K)} {t n : K}

theorem conforms_new (law : L.IsTokenBucket tick) (htick : 0 ≤ tick) {limit burst : K} (hlimit : 0 ≤ limit)
    (hburst : 0 ≤ burst) : L.Conforms tick (L.new limit burst) [] := by
  constructor
  · rw [law.limit_new]
    exact hlimit
  · intro t _ s hst
    have hfull := law.full (L.new limit burst) t
    have hgain : 0 ≤ limit * (t - s) := mul_nonneg hlimit (sub_nonneg.mpr hst)
    simp only [granted, List.filter_nil, List.map_nil, List.sum_nil, law.limit_new]
    linarith
  · intro s u hsu
    have hgain : 0 ≤ limit * (u - s + tick) := mul_nonneg hlimit (add_nonneg (sub_nonneg.mpr hsu) htick)
    simp only [granted, List.filter_nil, List.map_nil, List.sum_nil, law.limit_new, law.burst_new]
    linarith

/-- A request that is granted, no earlier than those before it. -/
theorem Conforms.grant (h : L.Conforms tick b grants) (law : L.IsTokenBucket tick)
    (ht : ∀ g ∈ grants, g.time ≤ t) (hask : (L.allowN b t n).1 = true) :
    L.Conforms tick (L.allowN b t n).2 (grants ++ [⟨t, n⟩]) := by
  have hlimit := h.limit
  have htaken := law.taken b t n hask
  have hgranted := law.granted b t n hlimit hask
  have hbefore : ∀ g ∈ grants ++ [⟨t, n⟩], g.time ≤ t := by
    rw [List.forall_mem_append]
    exact ⟨ht, by simp⟩
  refine ⟨by rwa [law.limit_allowN], fun u hu s hsu => ?_, fun s u hsu => ?_⟩
  · have htu : t ≤ u := hu ⟨t, n⟩ (by simp)
    have hrefill := law.refill (L.allowN b t n).2 t u (by rwa [law.limit_allowN]) htu
    rw [law.limit_allowN] at hrefill
    rw [law.limit_allowN, law.burst_allowN, granted_end hbefore htu]
    by_cases hst : s ≤ t
    · have hold := h.since t ht s hst
      have hsplit : L.limit b * (u - s) = L.limit b * (t - s) + L.limit b * (u - t) := by ring
      rw [granted_append, if_pos ⟨hst, le_rfl⟩]
      linarith
    · -- Nothing was taken since.
      have hfull := law.full (L.allowN b t n).2 u
      have hgain : 0 ≤ L.limit b * (u - s) := mul_nonneg hlimit (sub_nonneg.mpr hsu)
      rw [law.burst_allowN] at hfull
      rw [granted_of_lt hbefore (not_le.mp hst)]
      linarith
  · rw [law.limit_allowN, law.burst_allowN]
    by_cases htu : t ≤ u
    · rw [granted_end hbefore htu]
      by_cases hst : s ≤ t
      · have hold := h.since t ht s hst
        have hgain : L.limit b * (t - s) ≤ L.limit b * (u - s) :=
          mul_le_mul_of_nonneg_left (sub_le_sub_right htu s) hlimit
        have hsplit : L.limit b * (u - s + tick) = L.limit b * (u - s) + L.limit b * tick := by ring
        rw [granted_append, if_pos ⟨hst, le_rfl⟩]
        linarith
      · have hempty := h.window s s le_rfl
        have hgain : 0 ≤ L.limit b * (u - s) := mul_nonneg hlimit (sub_nonneg.mpr hsu)
        have hsplit : L.limit b * (u - s + tick) = L.limit b * (u - s) + L.limit b * (s - s + tick) := by ring
        rw [granted_of_lt ht (not_le.mp hst)] at hempty
        rw [granted_of_lt hbefore (not_le.mp hst)]
        linarith
    · rw [granted_append, if_neg fun hin => htu hin.2, add_zero]
      exact h.window s u hsu

/-- A request, granted or not. -/
theorem Conforms.allowN (h : L.Conforms tick b grants) (law : L.IsTokenBucket tick)
    (ht : ∀ g ∈ grants, g.time ≤ t) (n : K) :
    L.Conforms tick (L.allowN b t n).2 (grants ++ if (L.allowN b t n).1 then [⟨t, n⟩] else []) := by
  cases hask : (L.allowN b t n).1 with
  | true => exact h.grant law ht hask
  | false =>
    simp only [Bool.false_eq_true, if_false, List.append_nil]
    refine ⟨by rw [law.limit_allowN]; exact h.limit, fun u hu s hsu => ?_, ?_⟩
    · have hrefused := law.refused b t n u hask
      have hold := h.since u hu s hsu
      rw [law.limit_allowN, law.burst_allowN]
      linarith
    · rw [law.limit_allowN, law.burst_allowN]
      exact h.window

end WeightedLimiter

/-! ## A bucket -/

namespace BucketPolicy

variable {K : Type} [Field K] [LinearOrder K]

/-- The bucket as a limiter, in which a wait of less than a tick is none. -/
def limiter (tick : K) : WeightedLimiter K where
  State := BucketPolicy K × Bucket K
  new limit burst := (⟨limit, burst⟩, full ⟨limit, burst⟩)
  limit s := s.1.rate
  burst s := s.1.burst
  tokensAt s t := s.1.level s.2 t
  allowN s t n :=
    if n ≤ s.1.burst ∧ (n ≤ s.1.level s.2 t ∨ n - s.1.level s.2 t < s.1.rate * tick) then
      (true, s.1, ⟨s.1.level s.2 t - n, t⟩)
    else (false, s)

variable [IsStrictOrderedRing K] {tick : K}

theorem isTokenBucket_limiter (htick : 0 ≤ tick) : (limiter tick).IsTokenBucket tick where
  limit_new _ _ := rfl
  burst_new _ _ := rfl
  limit_allowN s t n := by
    dsimp only [limiter]
    split <;> rfl
  burst_allowN s t n := by
    dsimp only [limiter]
    split <;> rfl
  full s t := level_le_burst
  refill s t u hlimit htu := by
    have hlater : max 0 (u - s.2.last) ≤ max 0 (t - s.2.last) + (u - t) := by
      have hleft := le_max_left 0 (t - s.2.last)
      have hright := le_max_right 0 (t - s.2.last)
      exact max_le (by linarith) (by linarith)
    have hgain : s.1.rate * max 0 (u - s.2.last) ≤ s.1.rate * max 0 (t - s.2.last) + s.1.rate * (u - t) := by
      rw [← mul_add]
      exact mul_le_mul_of_nonneg_left hlater hlimit
    have hmore : 0 ≤ s.1.rate * (u - t) := mul_nonneg hlimit (sub_nonneg.mpr htu)
    simp only [limiter, level, ← min_add_add_right]
    exact le_min ((min_le_left ..).trans (by linarith)) ((min_le_right ..).trans (by linarith))
  granted s t n hlimit hask := by
    have hgain : 0 ≤ s.1.rate * tick := mul_nonneg hlimit htick
    dsimp only [limiter] at hask ⊢
    split at hask
    · rename_i hroom
      obtain hroom | hroom := hroom.2
      · linarith
      · linarith
    · cases hask
  taken s t n hask := by
    dsimp only [limiter] at hask ⊢
    split at hask
    · rename_i hroom
      rw [if_pos hroom, level, sub_self, max_self, mul_zero, add_zero]
      exact min_le_right ..
    · cases hask
  refused s t n u hask := by
    dsimp only [limiter] at hask ⊢
    split at hask
    · cases hask
    · rename_i hroom
      rw [if_neg hroom]

end BucketPolicy

end CrossTransfer.Library
