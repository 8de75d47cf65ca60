import CrossTransfer.Signal.Limiter

/-! # Forgetting idle limiters

`Sweep` drops the limiter of an address that has not been asked for ten minutes. If ten minutes fill
a bucket, then a limiter that was dropped is full from then on (`Alike`), as is the one that is made
when its address comes back, so every claim is decided as if nothing had been dropped.
-/

namespace CrossTransfer.Signal

open CrossTransfer.Library
open CrossTransfer.Transfer

inductive LimiterEvent where
  | claim (a : Attempt)
  | sweep (now : ℚ)

def LimiterEvent.time : LimiterEvent → ℚ
  | .claim a => a.now
  | .sweep now => now

/-- The claims among the events. -/
def claimsOf : List LimiterEvent → List Attempt
  | [] => []
  | .claim a :: es => a :: claimsOf es
  | .sweep _ :: es => claimsOf es

namespace Limiters

variable (opt : ClaimLimits) (h : Limiters)

/-- Ten minutes, in seconds. -/
def idleTime : ℚ := 600

/-- The limiters after `Sweep`. -/
def sweep (now : ℚ) : Limiters :=
  { h with perIp := h.perIp.filter fun _ l => now - l.lastSeen ≤ idleTime }

/-- Which claims are admitted. -/
def runSwept : Limiters → List LimiterEvent → List (Attempt × Bool)
  | _, [] => []
  | h, .claim a :: es => (a, (h.claimAllowed opt a).1) :: runSwept (h.claimAllowed opt a).2 es
  | h, .sweep now :: es => runSwept (h.sweep now) es

/-! ## The simulation -/

/-- At the time `t` the limiters that were kept are those of `k`, and those that `k` has beyond
    them are full and stay so. -/
structure Alike (k : Limiters) (t : ℚ) : Prop where
  global : h.global = k.global
  kept : ∀ (ip : Bytes) (l : IpLimiter), h.perIp[ip]? = some l → k.perIp[ip]? = some l ∧
    0 ≤ l.lim.tokens ∧ l.lim.last ≤ l.lastSeen ∧ l.lastSeen ≤ t
  gone : ∀ ip : Bytes, h.perIp[ip]? = none → ∀ u, t ≤ u →
    opt.perIp.level (k.ipLimiter opt ip) u = opt.perIp.burst

variable {opt h} {k : Limiters} {t : ℚ}

theorem alike_start (hrate : 0 < opt.claimRatePerIp) (t : ℚ) :
    Alike opt (start opt) (start opt) t where
  global := rfl
  kept ip l hl := by simp [start] at hl
  gone ip _ u _ := by
    have hfull : (start opt).ipLimiter opt ip = opt.perIp.full := by
      simp [start, ipLimiter]
    rw [hfull]
    exact BucketPolicy.level_full hrate.le

theorem Alike.later (alike : Alike opt h k t) {u : ℚ} (htu : t ≤ u) : Alike opt h k u where
  global := alike.global
  kept ip l hl := by
    obtain ⟨hlim, htokens, hlast, hseen⟩ := alike.kept ip l hl
    exact ⟨hlim, htokens, hlast, hseen.trans htu⟩
  gone ip hnone v hv := alike.gone ip hnone v (htu.trans hv)

/-- Asked now, a full bucket and a new one answer alike and are the same afterwards. -/
theorem allow_full {b c : Bucket ℚ} (hb : opt.perIp.level b t = opt.perIp.burst)
    (hc : opt.perIp.level c t = opt.perIp.burst) : opt.perIp.allow b t = opt.perIp.allow c t := by
  have hburst : 1 ≤ opt.perIp.burst := le_max_right ..
  rw [BucketPolicy.allow_of_le (hb ▸ hburst), BucketPolicy.allow_of_le (hc ▸ hburst), hb, hc]

/-- The limiter of an address answers a claim alike. -/
theorem Alike.allow (alike : Alike opt h k t) (hrate : 0 < opt.claimRatePerIp) (ip : Bytes) :
    opt.perIp.allow (h.ipLimiter opt ip) t = opt.perIp.allow (k.ipLimiter opt ip) t := by
  cases hl : h.perIp[ip]? with
  | some l => simp [ipLimiter, hl, (alike.kept ip l hl).1]
  | none =>
    have hnew : h.ipLimiter opt ip = opt.perIp.full := by simp [ipLimiter, hl]
    rw [hnew]
    exact allow_full (BucketPolicy.level_full hrate.le) (alike.gone ip hl t le_rfl)

theorem tokens_ipLimiter (alike : Alike opt h k t) (ip : Bytes) : 0 ≤ (h.ipLimiter opt ip).tokens := by
  cases hl : h.perIp[ip]? with
  | some l => simpa [ipLimiter, hl] using (alike.kept ip l hl).2.1
  | none =>
    have hburst : (1 : ℚ) ≤ max (opt.claimBurstPerIp : ℚ) 1 := le_max_right ..
    simp only [ipLimiter, hl, Option.map_none, Option.getD_none, BucketPolicy.full, ClaimLimits.perIp]
    linarith

theorem last_allow (alike : Alike opt h k t) (hrate : 0 < opt.claimRatePerIp) (ip : Bytes) :
    (opt.perIp.allow (h.ipLimiter opt ip) t).2.last ≤ t := by
  cases hl : h.perIp[ip]? with
  | some l =>
    obtain ⟨-, -, hlast, hseen⟩ := alike.kept ip l hl
    have hsame : h.ipLimiter opt ip = l.lim := by simp [ipLimiter, hl]
    rw [hsame]
    exact BucketPolicy.last_allow (hlast.trans hseen)
  | none =>
    have hnew : h.ipLimiter opt ip = opt.perIp.full := by simp [ipLimiter, hl]
    have hlevel : 1 ≤ opt.perIp.level opt.perIp.full t := by
      rw [BucketPolicy.level_full hrate.le]
      exact le_max_right ..
    rw [hnew, BucketPolicy.allow_of_le hlevel]

theorem Alike.globalAllowed (alike : Alike opt h k t) :
    (h.globalAllowed opt t).1 = (k.globalAllowed opt t).1 ∧
      Alike opt (h.globalAllowed opt t).2 (k.globalAllowed opt t).2 t := by
  unfold Limiters.globalAllowed
  split
  · rw [alike.global]
    exact ⟨rfl, rfl, alike.kept, alike.gone⟩
  · exact ⟨rfl, alike⟩

theorem Alike.ipAllowed (alike : Alike opt h k t) (hrate : 0 < opt.claimRatePerIp) (ip : Bytes) :
    (h.ipAllowed opt ip t).1 = (k.ipAllowed opt ip t).1 ∧
      Alike opt (h.ipAllowed opt ip t).2 (k.ipAllowed opt ip t).2 t := by
  have htokens := BucketPolicy.tokens_allow (p := opt.perIp) (t := t) (tokens_ipLimiter alike ip)
  have hlast := last_allow alike hrate ip
  rw [Limiters.ipAllowed, Limiters.ipAllowed, if_neg (not_le.mpr hrate), if_neg (not_le.mpr hrate)]
  rw [alike.allow hrate ip] at htokens hlast ⊢
  refine ⟨rfl, alike.global, fun ip' l hl => ?_, fun ip' hnone u hu => ?_⟩
  · simp only [OrderedMap.get_insert] at hl ⊢
    split at hl
    · rename_i heq
      obtain rfl := Option.some.inj hl
      exact ⟨if_pos heq, htokens, hlast, le_rfl⟩
    · rename_i hne
      rw [if_neg hne]
      exact alike.kept ip' l hl
  · simp only [OrderedMap.get_insert] at hnone
    split at hnone
    · cases hnone
    · rename_i hne
      have hsame := alike.gone ip' hnone u hu
      simpa [ipLimiter, hne] using hsame

theorem Alike.claimAllowed {a : Attempt} (alike : Alike opt h k a.now)
    (hrate : 0 < opt.claimRatePerIp) :
    (h.claimAllowed opt a).1 = (k.claimAllowed opt a).1 ∧
      Alike opt (h.claimAllowed opt a).2 (k.claimAllowed opt a).2 a.now := by
  obtain ⟨hanswer, hafter⟩ := alike.globalAllowed
  simp only [Limiters.claimAllowed, hanswer]
  split
  · exact ⟨rfl, hafter⟩
  · exact hafter.ipAllowed hrate a.ip

/-- A limiter that is dropped has been idle for long enough to be full. -/
theorem Alike.sweep (alike : Alike opt h k t) (hrate : 0 < opt.claimRatePerIp)
    (hburst : opt.perIp.burst ≤ opt.perIp.rate * idleTime) : Alike opt (h.sweep t) k t where
  global := alike.global
  kept ip l hl := by
    rw [Limiters.sweep, Std.ExtTreeMap.getElem?_filter', Option.filter_eq_some_iff] at hl
    exact alike.kept ip l hl.1
  gone ip hnone u hu := by
    cases hl : h.perIp[ip]? with
    | none => exact alike.gone ip hl u hu
    | some l =>
      obtain ⟨hlim, htokens, hlast, -⟩ := alike.kept ip l hl
      have hidle : ¬ t - l.lastSeen ≤ idleTime := by
        simpa [Limiters.sweep, Std.ExtTreeMap.getElem?_filter', hl] using hnone
      have hsame : k.ipLimiter opt ip = l.lim := by simp [ipLimiter, hlim]
      rw [hsame]
      exact BucketPolicy.level_idle hrate.le htokens hlast hburst (by linarith)

/-- From limiters that are alike, later events are decided alike. -/
theorem run_alike (hrate : 0 < opt.claimRatePerIp)
    (hburst : opt.perIp.burst ≤ opt.perIp.rate * idleTime) {es : List LimiterEvent}
    (alike : Alike opt h k t) (hordered : (es.map LimiterEvent.time).Pairwise (· ≤ ·))
    (hlater : ∀ e ∈ es, t ≤ e.time) : runSwept opt h es = run opt k (claimsOf es) := by
  induction es generalizing h k t with
  | nil => rfl
  | cons e es ih =>
    rw [List.forall_mem_cons] at hlater
    obtain ⟨hfirst, hrest⟩ := List.pairwise_cons.mp hordered
    rw [List.forall_mem_map] at hfirst
    have hnow := alike.later hlater.1
    cases e with
    | claim a =>
      obtain ⟨hanswer, hafter⟩ := Alike.claimAllowed hnow hrate
      simp only [runSwept, claimsOf, run]
      rw [hanswer, ih hafter hrest hfirst]
    | sweep now =>
      simp only [runSwept, claimsOf]
      exact ih (hnow.sweep hrate hburst) hrest hfirst

/-- With buckets that ten minutes fill, `Sweep` changes the answer to no claim. -/
theorem sweep_unobservable (hrate : 0 < opt.claimRatePerIp)
    (hburst : opt.perIp.burst ≤ 600 * opt.claimRatePerIp) {es : List LimiterEvent}
    (hordered : (es.map LimiterEvent.time).Pairwise (· ≤ ·)) :
    runSwept opt (start opt) es = run opt (start opt) (claimsOf es) := by
  have hfill : opt.perIp.burst ≤ opt.perIp.rate * idleTime := by
    rw [mul_comm]
    exact hburst
  cases es with
  | nil => rfl
  | cons e es =>
    have hlater : ∀ e' ∈ e :: es, e.time ≤ e'.time := by
      rw [List.map_cons, List.pairwise_cons, List.forall_mem_map] at hordered
      exact List.forall_mem_cons.mpr ⟨le_rfl, hordered.1⟩
    exact run_alike hrate hfill (alike_start hrate e.time) hordered hlater

/-- One claim a minute, bursts of ten: the limiter is forgotten and made again. -/
theorem sweep_unobservable_slow :
    runSwept { claimRatePerIp := 1 / 60, claimBurstPerIp := 10 }
      (start { claimRatePerIp := 1 / 60, claimBurstPerIp := 10 })
      [.claim ⟨[1], 0⟩, .sweep 601, .claim ⟨[1], 601⟩] =
    run { claimRatePerIp := 1 / 60, claimBurstPerIp := 10 }
      (start { claimRatePerIp := 1 / 60, claimBurstPerIp := 10 })
      (claimsOf [.claim ⟨[1], 0⟩, .sweep 601, .claim ⟨[1], 601⟩]) :=
  sweep_unobservable (by norm_num) (by norm_num [ClaimLimits.perIp])
    (by norm_num [LimiterEvent.time])

end Limiters

end CrossTransfer.Signal
