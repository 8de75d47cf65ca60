import CrossTransfer.Library.WeightedBucket
import Mathlib.Algebra.Order.Ring.Rat

/-! # The policer of relayed bytes

`Limiter` of `server/internal/relay/relay.go`: a limiter of `golang.org/x/time/rate` for bytes, with counters.
Without a rate everything may pass. The package is not part of the sources, so its limiter is a parameter:
what it answers is assumed to be what a token bucket answers, where `AllowN` cuts the time that a request would
have to wait to nanoseconds (`IsTokenBucket nanosecond`). The counters do not wrap around, and are right
whatever it answers. Times are in seconds.
-/

namespace CrossTransfer.Turn

open CrossTransfer.Library

/-- The shortest wait. -/
def nanosecond : ℚ := 1 / 1000000000

/-- The burst that `NewLimiter` chooses. -/
def burstFor (bytesPerSec : Int) : Int := if bytesPerSec < 64 * 1024 then 64 * 1024 else bytesPerSec

/-- `rate` is the package of the token bucket. -/
structure Limiter (rate : WeightedLimiter ℚ) where
  limiter : Option rate.State
  dropped : Nat := 0
  bytes : Nat := 0
  frames : Nat := 0

variable (rate : WeightedLimiter ℚ)

/-- `NewLimiter`. -/
def newLimiter (bytesPerSec : Int) : Limiter rate where
  limiter := if 0 < bytesPerSec then some (rate.new bytesPerSec (burstFor bytesPerSec)) else none

namespace Limiter

variable {rate} (l : Limiter rate)

/-- `AllowN` of the bucket, if there is one. -/
def allowN (now : ℚ) (n : Nat) : Bool × Option rate.State :=
  match l.limiter with
  | none => (true, none)
  | some bucket => (rate.allowN bucket now n).map id some

/-- `Allow`. -/
def allow (n : Nat) (now : ℚ) : Bool × Limiter rate :=
  let (ok, limiter) := l.allowN now n
  if ok then (true, { l with limiter, frames := l.frames + 1, bytes := l.bytes + n })
  else (false, { l with limiter, dropped := l.dropped + 1 })

variable {l} {bytesPerSec : Int} {allowed : List (Grant ℚ)} {n : Nat} {now : ℚ}

theorem allow_bytes (l : Limiter rate) (n : Nat) (now : ℚ) :
    (l.allow n now).2.bytes = l.bytes + if (l.allow n now).1 then n else 0 := by
  unfold allow
  dsimp only
  split <;> simp [*]

theorem allow_frames (l : Limiter rate) (n : Nat) (now : ℚ) :
    (l.allow n now).2.frames = l.frames + if (l.allow n now).1 then 1 else 0 := by
  unfold allow
  dsimp only
  split <;> simp [*]

theorem allow_dropped (l : Limiter rate) (n : Nat) (now : ℚ) :
    (l.allow n now).2.dropped = l.dropped + if (l.allow n now).1 then 0 else 1 := by
  unfold allow
  dsimp only
  split <;> simp [*]

/-! ## What passes -/

theorem burstFor_eq (bytesPerSec : Int) : burstFor bytesPerSec = max bytesPerSec 65536 := by
  unfold burstFor
  split <;> omega

theorem nanosecond_nonneg : 0 ≤ nanosecond := by norm_num [nanosecond]

variable (l bytesPerSec allowed) in
/-- A limiter that has allowed frames. -/
structure Polices : Prop where
  unlimited : bytesPerSec ≤ 0 → l.limiter = none
  limited : 0 < bytesPerSec → ∃ bucket, l.limiter = some bucket ∧ rate.limit bucket = bytesPerSec ∧
    rate.burst bucket = burstFor bytesPerSec ∧ rate.Conforms nanosecond bucket allowed
  bytes : l.bytes = (allowed.map (·.amount)).sum

theorem polices_new (law : rate.IsTokenBucket nanosecond) (bytesPerSec : Int) :
    (newLimiter rate bytesPerSec).Polices bytesPerSec [] where
  unlimited h := if_neg (not_lt.mpr h)
  limited h := by
    have hburst : 0 ≤ burstFor bytesPerSec := by
      rw [burstFor_eq]
      omega
    refine ⟨_, if_pos h, law.limit_new .., law.burst_new .., ?_⟩
    exact WeightedLimiter.conforms_new law nanosecond_nonneg (by exact_mod_cast h.le) (by exact_mod_cast hburst)
  bytes := by simp [newLimiter]

/-- A frame comes no earlier than those that were allowed. -/
theorem Polices.allow (h : l.Polices bytesPerSec allowed) (law : rate.IsTokenBucket nanosecond)
    (hnow : ∀ g ∈ allowed, g.time ≤ now) (n : Nat) :
    (l.allow n now).2.Polices bytesPerSec (allowed ++ if (l.allow n now).1 then [⟨now, n⟩] else []) := by
  have hallow : (l.allow n now).1 = (l.allowN now n).1 ∧ (l.allow n now).2.limiter = (l.allowN now n).2 := by
    unfold Limiter.allow
    dsimp only
    split <;> simp [*]
  refine ⟨fun hrate => ?_, fun hrate => ?_, ?_⟩
  · rw [hallow.2, allowN, h.unlimited hrate]
  · obtain ⟨bucket, hbucket, hlimit, hburst, hconforms⟩ := h.limited hrate
    rw [hallow.1, hallow.2, allowN, hbucket]
    exact ⟨_, rfl, (law.limit_allowN ..).trans hlimit, (law.burst_allowN ..).trans hburst,
      hconforms.allowN law hnow n⟩
  · rw [allow_bytes, List.map_append, List.sum_append, ← h.bytes]
    split <;> simp

/-- Between two times no more passes than the burst and what the rate allows. -/
theorem Polices.window (h : l.Polices bytesPerSec allowed) (hrate : 0 < bytesPerSec) {s u : ℚ}
    (hsu : s ≤ u) : granted allowed s u ≤ max bytesPerSec 65536 + bytesPerSec * (u - s + nanosecond) := by
  obtain ⟨bucket, -, hlimit, hburst, hconforms⟩ := h.limited hrate
  have hwindow := hconforms.window s u hsu
  rw [hlimit, hburst, burstFor_eq] at hwindow
  exact_mod_cast hwindow

end Limiter

end CrossTransfer.Turn
