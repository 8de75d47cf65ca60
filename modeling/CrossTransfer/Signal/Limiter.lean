import CrossTransfer.Library.TokenBucket
import CrossTransfer.Signal.Hub

/-! # The claim limiters

What `claimAllowed` answers, as a function of the claims before: a token bucket for the hub and one
for each address. A claim is charged to the hub's bucket first, so a claim that the bucket of its
address then rejects has already taken a token from everybody else.

Whether the other addresses notice depends on the options alone. They do not if there is only one
kind of limiter, or if the one for an address is never the stricter one, and then it never rejects
a claim (`othersUnaffected_iff`). Nothing here forgets a limiter.
-/

namespace CrossTransfer.Signal

open CrossTransfer.Library
open CrossTransfer.Transfer

/-- The options of the limiters, in claims and claims per second. -/
structure ClaimLimits where
  claimRatePerIp : ℚ := 0
  claimBurstPerIp : Int := 0
  claimRateGlobal : ℚ := 0
  claimBurstGlobal : Int := 0

def ClaimLimits.global (opt : ClaimLimits) : BucketPolicy ℚ where
  rate := opt.claimRateGlobal
  burst := max opt.claimBurstGlobal 1

def ClaimLimits.perIp (opt : ClaimLimits) : BucketPolicy ℚ where
  rate := opt.claimRatePerIp
  burst := max opt.claimBurstPerIp 1

/-- The limiter of an address, and when it was last asked. -/
structure IpLimiter where
  lim : Bucket ℚ
  lastSeen : ℚ

structure Limiters where
  global : Bucket ℚ
  perIp : OrderedMap Bytes IpLimiter := ∅

/-- A claim from an address, at a time in seconds. -/
structure Attempt where
  ip : Bytes
  now : ℚ
deriving DecidableEq

namespace Limiters

variable (opt : ClaimLimits) (h : Limiters)

/-- The limiters of `NewHub`. -/
def start : Limiters where
  global := opt.global.full

/-- The limiter of an address, which is made when the map has none. -/
def ipLimiter (ip : Bytes) : Bucket ℚ := ((h.perIp[ip]?).map IpLimiter.lim).getD opt.perIp.full

/-- The first limiter. -/
def globalAllowed (now : ℚ) : Bool × Limiters :=
  if 0 < opt.claimRateGlobal then
    let (ok, global) := opt.global.allow h.global now
    (ok, { h with global := global })
  else (true, h)

/-- The second one. That the address was seen is noted whatever it answers. -/
def ipAllowed (ip : Bytes) (now : ℚ) : Bool × Limiters :=
  if opt.claimRatePerIp ≤ 0 then (true, h)
  else
    let (ok, lim) := opt.perIp.allow (h.ipLimiter opt ip) now
    (ok, { h with perIp := h.perIp.insert ip ⟨lim, now⟩ })

/-- `claimAllowed`. -/
def claimAllowed (a : Attempt) : Bool × Limiters :=
  let (ok, h) := h.globalAllowed opt a.now
  if !ok then (false, h) else h.ipAllowed opt a.ip a.now

/-- The limiter of the address is asked, and rejects the claim. -/
def rejectedByIp (a : Attempt) : Bool :=
  (h.globalAllowed opt a.now).1 && !((h.globalAllowed opt a.now).2.ipAllowed opt a.ip a.now).1

/-! ## Sequences of claims -/

/-- Which claims are admitted. -/
def run : Limiters → List Attempt → List (Attempt × Bool)
  | _, [] => []
  | h, a :: as => (a, (h.claimAllowed opt a).1) :: run (h.claimAllowed opt a).2 as

/-- The claims without those of an address that the limiter of the address rejects. -/
def withoutRejected (ip : Bytes) : Limiters → List Attempt → List Attempt
  | _, [] => []
  | h, a :: as =>
    let rest := withoutRejected ip (h.claimAllowed opt a).2 as
    if a.ip = ip ∧ h.rejectedByIp opt a then rest else a :: rest

/-- The clock is at 0 when the hub is made, and does not run backwards. -/
def InOrder (as : List Attempt) : Prop := ((0 : ℚ) :: as.map Attempt.now).Pairwise (· ≤ ·)

/-- What is decided about the other addresses. -/
def others (ip : Bytes) (decisions : List (Attempt × Bool)) : List (Attempt × Bool) :=
  decisions.filter fun d => d.1.ip ≠ ip

/-- The claims of the address that its own limiter rejects make no difference to the others. -/
def OthersUnaffected (as : List Attempt) (ip : Bytes) : Prop :=
  others ip (run opt (start opt) (withoutRejected opt ip (start opt) as)) =
    others ip (run opt (start opt) as)

/-- One claim a second for each address, bursts of two for all: the second claim of the first
    address is rejected, and the claim of the other one with it. -/
def strict : ClaimLimits where
  claimRatePerIp := 1
  claimBurstPerIp := 1
  claimRateGlobal := 1
  claimBurstGlobal := 2

theorem not_othersUnaffected_strict : ¬ OthersUnaffected strict [⟨[1], 0⟩, ⟨[1], 0⟩, ⟨[2], 0⟩] [1] := by
  unfold OthersUnaffected
  decide +kernel

/-! ## One claim -/

variable {opt h}

theorem globalAllowed_off (hoff : opt.claimRateGlobal ≤ 0) (now : ℚ) :
    h.globalAllowed opt now = (true, h) :=
  if_neg (not_lt.mpr hoff)

theorem ipAllowed_off (hoff : opt.claimRatePerIp ≤ 0) (ip : Bytes) (now : ℚ) :
    h.ipAllowed opt ip now = (true, h) :=
  if_pos hoff

theorem rejectedByIp_off (hoff : opt.claimRatePerIp ≤ 0) (a : Attempt) :
    h.rejectedByIp opt a = false := by
  simp [rejectedByIp, ipAllowed_off hoff]

theorem ipLimiter_globalAllowed (now : ℚ) (ip : Bytes) :
    (h.globalAllowed opt now).2.ipLimiter opt ip = h.ipLimiter opt ip := by
  unfold globalAllowed
  split <;> rfl

theorem ipLimiter_ipAllowed_of_ne {a : Attempt} {ip : Bytes} (hne : ip ≠ a.ip) :
    (h.ipAllowed opt a.ip a.now).2.ipLimiter opt ip = h.ipLimiter opt ip := by
  unfold ipAllowed
  split
  · rfl
  · simp only [ipLimiter, OrderedMap.get_insert, if_neg hne]

theorem fst_ipAllowed (hon : 0 < opt.claimRatePerIp) (ip : Bytes) (now : ℚ) :
    (h.ipAllowed opt ip now).1 = (opt.perIp.allow (h.ipLimiter opt ip) now).1 := by
  rw [ipAllowed, if_neg (not_le.mpr hon)]

theorem ipLimiter_ipAllowed (hon : 0 < opt.claimRatePerIp) (ip : Bytes) (now : ℚ) :
    (h.ipAllowed opt ip now).2.ipLimiter opt ip =
      (opt.perIp.allow (h.ipLimiter opt ip) now).2 := by
  rw [ipAllowed, if_neg (not_le.mpr hon)]
  simp [ipLimiter]

theorem global_ipAllowed (ip : Bytes) (now : ℚ) : (h.ipAllowed opt ip now).2.global = h.global := by
  unfold ipAllowed
  split <;> rfl

/-- A claim that finds no token for all. -/
theorem claimAllowed_short (hon : 0 < opt.claimRateGlobal) {a : Attempt}
    (hlevel : opt.global.level h.global a.now < 1) :
    h.claimAllowed opt a = (false, h) ∧ h.rejectedByIp opt a = false := by
  have hglobal : h.globalAllowed opt a.now = (false, h) := by
    rw [globalAllowed, if_pos hon, BucketPolicy.allow_of_lt hlevel]
  simp [claimAllowed, rejectedByIp, hglobal]

/-- The limiters after a claim has taken a token for all. -/
def charged (opt : ClaimLimits) (h : Limiters) (now : ℚ) : Limiters :=
  { h with global := ⟨opt.global.level h.global now - 1, now⟩ }

theorem claimAllowed_charged (hon : 0 < opt.claimRateGlobal) {a : Attempt}
    (hlevel : 1 ≤ opt.global.level h.global a.now) :
    h.claimAllowed opt a = (h.charged opt a.now).ipAllowed opt a.ip a.now ∧
      h.rejectedByIp opt a = !((h.charged opt a.now).ipAllowed opt a.ip a.now).1 := by
  have hglobal : h.globalAllowed opt a.now = (true, h.charged opt a.now) := by
    rw [globalAllowed, if_pos hon, BucketPolicy.allow_of_le hlevel]
    rfl
  simp [claimAllowed, rejectedByIp, hglobal]

/-- A claim leaves the limiters of other addresses alone. -/
theorem ipLimiter_of_ne {a : Attempt} {ip : Bytes} (hne : ip ≠ a.ip) :
    (h.claimAllowed opt a).2.ipLimiter opt ip = h.ipLimiter opt ip := by
  simp only [claimAllowed]
  split
  · exact ipLimiter_globalAllowed a.now ip
  · rw [ipLimiter_ipAllowed_of_ne hne, ipLimiter_globalAllowed]

/-- What an address is told depends on its own limiter. -/
theorem ipAllowed_congr {h h' : Limiters} {ip : Bytes} (hsame : h'.ipLimiter opt ip = h.ipLimiter opt ip)
    (now : ℚ) : (h'.ipAllowed opt ip now).1 = (h.ipAllowed opt ip now).1 ∧
      (h'.ipAllowed opt ip now).2.ipLimiter opt ip = (h.ipAllowed opt ip now).2.ipLimiter opt ip := by
  by_cases hon : 0 < opt.claimRatePerIp
  · rw [fst_ipAllowed hon, fst_ipAllowed hon, ipLimiter_ipAllowed hon, ipLimiter_ipAllowed hon, hsame]
    exact ⟨rfl, rfl⟩
  · rw [ipAllowed_off (not_lt.mp hon), ipAllowed_off (not_lt.mp hon)]
    exact ⟨rfl, hsame⟩

/-- The hub's claims are decided like this when it is told what these buckets answer. -/
theorem claimAllowed_hub (hub : Hub) {o : Options} {io : HubIo} {a : Attempt}
    (hlimits : o.limitsGlobal = decide (0 < opt.claimRateGlobal))
    (hipLimits : o.limitsPerIp = decide (0 < opt.claimRatePerIp))
    (hglobal : io.globalAllows = (opt.global.allow h.global a.now).1)
    (hip : io.ipAllows = (opt.perIp.allow (h.ipLimiter opt a.ip) a.now).1) :
    (hub.claimAllowed o io a.ip).1 = (h.claimAllowed opt a).1 := by
  have hrest : (if !o.limitsPerIp then true else io.ipAllows) = (h.ipAllowed opt a.ip a.now).1 := by
    by_cases hipOn : 0 < opt.claimRatePerIp
    · simp [hipLimits, hipOn, fst_ipAllowed hipOn, hip]
    · simp [hipLimits, hipOn, ipAllowed_off (not_lt.mp hipOn)]
  have hhub : (hub.claimAllowed o io a.ip).1 =
      if o.limitsGlobal && !io.globalAllows then false
      else if !o.limitsPerIp then true else io.ipAllows := by
    unfold Hub.claimAllowed
    split
    · rfl
    · split <;> rfl
  rw [hhub, hrest, hlimits, hglobal]
  by_cases hon : 0 < opt.claimRateGlobal
  · by_cases hlevel : 1 ≤ opt.global.level h.global a.now
    · have hsame : (h.charged opt a.now).ipLimiter opt a.ip = h.ipLimiter opt a.ip := rfl
      have hcharged : ((h.charged opt a.now).ipAllowed opt a.ip a.now).1 =
          (h.ipAllowed opt a.ip a.now).1 := (ipAllowed_congr hsame a.now).1
      rw [(claimAllowed_charged hon hlevel).1, hcharged]
      simp [BucketPolicy.allow_of_le hlevel]
    · rw [(claimAllowed_short hon (not_le.mp hlevel)).1]
      simp [hon, BucketPolicy.allow_of_lt (not_le.mp hlevel)]
  · simp [hon, claimAllowed, globalAllowed_off (not_lt.mp hon)]

/-! ## Sequences -/

/-- The limiters after a sequence of claims. -/
def after (opt : ClaimLimits) (h : Limiters) (as : List Attempt) : Limiters :=
  as.foldl (fun h a => (h.claimAllowed opt a).2) h

theorem run_append (h : Limiters) (as bs : List Attempt) :
    run opt h (as ++ bs) = run opt h as ++ run opt (after opt h as) bs := by
  induction as generalizing h with
  | nil => rfl
  | cons a as ih => simp [run, after, ih]

theorem withoutRejected_append (ip : Bytes) (h : Limiters) (as bs : List Attempt) :
    withoutRejected opt ip h (as ++ bs) =
      withoutRejected opt ip h as ++ withoutRejected opt ip (after opt h as) bs := by
  induction as generalizing h with
  | nil => rfl
  | cons a as ih =>
    simp only [List.cons_append, withoutRejected, ih]
    split <;> rfl

theorem others_append (ip : Bytes) (ds es : List (Attempt × Bool)) :
    others ip (ds ++ es) = others ip ds ++ others ip es :=
  List.filter_append ..

/-! ## When the others notice nothing -/

/-- Without a limiter for an address nothing is rejected by one. -/
theorem withoutRejected_off (hoff : opt.claimRatePerIp ≤ 0) (ip : Bytes) (h : Limiters)
    (as : List Attempt) : withoutRejected opt ip h as = as := by
  induction as generalizing h with
  | nil => rfl
  | cons a as ih => simp [withoutRejected, rejectedByIp_off hoff, ih]

/-- So without a limiter for all the others cannot notice anything. -/
theorem othersUnaffected_separate (hoff : opt.claimRateGlobal ≤ 0) (ip : Bytes) (as : List Attempt)
    (h h' : Limiters) (hsame : ∀ ip', ip' ≠ ip → h'.ipLimiter opt ip' = h.ipLimiter opt ip') :
    others ip (run opt h' (withoutRejected opt ip h as)) = others ip (run opt h as) := by
  induction as generalizing h h' with
  | nil => rfl
  | cons a as ih =>
    have hclaim : ∀ l : Limiters, l.claimAllowed opt a = l.ipAllowed opt a.ip a.now := by
      intro l
      simp [claimAllowed, globalAllowed_off hoff]
    by_cases ha : a.ip = ip
    · -- The claim is not one of the others', whatever is decided about it.
      have hsame₁ : ∀ ip', ip' ≠ ip →
          h'.ipLimiter opt ip' = (h.claimAllowed opt a).2.ipLimiter opt ip' := by
        intro ip' hne
        rw [ipLimiter_of_ne (ha ▸ hne)]
        exact hsame ip' hne
      simp only [withoutRejected]
      split
      · rw [ih _ h' hsame₁]
        simp [run, others, ha]
      · have hsame₂ : ∀ ip', ip' ≠ ip → (h'.claimAllowed opt a).2.ipLimiter opt ip' =
            (h.claimAllowed opt a).2.ipLimiter opt ip' := by
          intro ip' hne
          rw [ipLimiter_of_ne (ha ▸ hne)]
          exact hsame₁ ip' hne
        have hrest := ih _ _ hsame₂
        simpa [run, others, ha] using hrest
    · obtain ⟨hdecision, hlimiter⟩ := ipAllowed_congr (hsame a.ip ha) a.now
      have hsame₁ : ∀ ip', ip' ≠ ip → (h'.claimAllowed opt a).2.ipLimiter opt ip' =
          (h.claimAllowed opt a).2.ipLimiter opt ip' := by
        intro ip' hne
        by_cases hip : ip' = a.ip
        · rw [hip, hclaim, hclaim, hlimiter]
        · rw [ipLimiter_of_ne hip, ipLimiter_of_ne hip, hsame ip' hne]
      have hrest := ih _ _ hsame₁
      have hkept : ¬ (a.ip = ip ∧ h.rejectedByIp opt a = true) := fun hboth => ha hboth.1
      simp only [withoutRejected, if_neg hkept, run, hclaim, hdecision] at hrest ⊢
      simp only [others, List.filter_cons] at hrest ⊢
      rw [hrest]

/-- From `t` on no limiter of an address has fewer tokens than the one for all. -/
structure Ahead (opt : ClaimLimits) (h : Limiters) (t : ℚ) : Prop where
  past : h.global.last ≤ t
  covers : ∀ ip, opt.perIp.Covers opt.global (h.ipLimiter opt ip) h.global t

theorem Ahead.step {t : ℚ} {a : Attempt} (ahead : Ahead opt h t) (hon : 0 < opt.claimRateGlobal)
    (hrate : opt.global.rate ≤ opt.perIp.rate) (hburst : opt.global.burst ≤ opt.perIp.burst)
    (hnow : t ≤ a.now) :
    h.rejectedByIp opt a = false ∧ Ahead opt (h.claimAllowed opt a).2 a.now := by
  have hipOn : 0 < opt.claimRatePerIp := hon.trans_le hrate
  have hpast : h.global.last ≤ a.now := ahead.past.trans hnow
  by_cases hglobal : 1 ≤ opt.global.level h.global a.now
  · have hip : 1 ≤ opt.perIp.level (h.ipLimiter opt a.ip) a.now :=
      hglobal.trans (ahead.covers a.ip a.now hnow)
    obtain ⟨hclaim, hrejected⟩ := claimAllowed_charged hon hglobal
    have hsame : ∀ ip, (h.charged opt a.now).ipLimiter opt ip = h.ipLimiter opt ip := fun ip => rfl
    refine ⟨?_, ?_, fun ip => ?_⟩
    · rw [hrejected, fst_ipAllowed hipOn, hsame, BucketPolicy.allow_of_le hip]
      rfl
    · rw [hclaim, global_ipAllowed]
      exact le_refl _
    · rw [hclaim, global_ipAllowed]
      by_cases hown : ip = a.ip
      · subst hown
        rw [ipLimiter_ipAllowed hipOn, hsame, BucketPolicy.allow_of_le hip]
        exact (ahead.covers a.ip).take_both hrate hburst hnow
      · rw [ipLimiter_ipAllowed_of_ne hown, hsame]
        exact (ahead.covers ip).take_other hon.le hnow hpast
  · obtain ⟨hclaim, hrejected⟩ := claimAllowed_short hon (not_le.mp hglobal)
    rw [hclaim]
    exact ⟨hrejected, hpast, fun ip => (ahead.covers ip).later hnow⟩

/-- A limiter that is never the stricter one rejects nothing. -/
theorem withoutRejected_ahead (hon : 0 < opt.claimRateGlobal)
    (hrate : opt.global.rate ≤ opt.perIp.rate) (hburst : opt.global.burst ≤ opt.perIp.burst)
    (ip : Bytes) {t : ℚ} {as : List Attempt} (ahead : Ahead opt h t)
    (hordered : (as.map Attempt.now).Pairwise (· ≤ ·)) (hlater : ∀ a ∈ as, t ≤ a.now) :
    withoutRejected opt ip h as = as := by
  induction as generalizing h t with
  | nil => rfl
  | cons a as ih =>
    rw [List.forall_mem_cons] at hlater
    rw [List.map_cons, List.pairwise_cons, List.forall_mem_map] at hordered
    obtain ⟨hrejected, hahead⟩ := ahead.step hon hrate hburst hlater.1
    simp [withoutRejected, hrejected, ih hahead hordered.2 hordered.1]

theorem ahead_start (hrate : 0 ≤ opt.perIp.rate) (hburst : opt.global.burst ≤ opt.perIp.burst)
    {t : ℚ} (ht : 0 ≤ t) : Ahead opt (start opt) t where
  past := ht
  covers ip := by
    have hnew : (start opt).ipLimiter opt ip = opt.perIp.full := by
      simp [start, ipLimiter]
    rw [hnew]
    exact BucketPolicy.covers_full hrate hburst

/-! ## When they do -/

/-- The address that claims too often, and another one. -/
def busy : Bytes := [1]

def quiet : Bytes := [2]

/-- All claims so far were made by `busy`, and were admitted. -/
structure Used (opt : ClaimLimits) (as : List Attempt) (h : Limiters) : Prop where
  reached : after opt (start opt) as = h
  own : ∀ a ∈ as, a.ip = busy
  admitted : withoutRejected opt busy (start opt) as = as
  untouched : h.ipLimiter opt quiet = opt.perIp.full

theorem used_start : Used opt [] (start opt) :=
  ⟨rfl, by simp, rfl, by simp [start, ipLimiter]⟩

theorem after_snoc (h : Limiters) (as : List Attempt) (a : Attempt) :
    after opt h (as ++ [a]) = ((after opt h as).claimAllowed opt a).2 := by
  simp [after]

theorem Used.admit {as : List Attempt} {t : ℚ} (used : Used opt as h)
    (hadmitted : h.rejectedByIp opt ⟨busy, t⟩ = false) :
    Used opt (as ++ [⟨busy, t⟩]) (h.claimAllowed opt ⟨busy, t⟩).2 where
  reached := by rw [after_snoc, used.reached]
  own a ha := by
    obtain ha | ha := List.mem_append.mp ha
    · exact used.own a ha
    · rw [List.mem_singleton.mp ha]
  admitted := by
    rw [withoutRejected_append, used.admitted, used.reached]
    simp [withoutRejected, hadmitted]
  untouched := by
    have hne : quiet ≠ busy := by decide
    rw [ipLimiter_of_ne hne, used.untouched]

/-- A claim of `busy` that only its own limiter rejects. -/
theorem claimAllowed_rejected (hon : 0 < opt.claimRateGlobal) (hipOn : 0 < opt.claimRatePerIp) {t : ℚ}
    (hglobal : 1 ≤ opt.global.level h.global t)
    (hshort : opt.perIp.level (h.ipLimiter opt busy) t < 1) :
    h.rejectedByIp opt ⟨busy, t⟩ = true ∧
      opt.global.level (h.claimAllowed opt ⟨busy, t⟩).2.global t = opt.global.level h.global t - 1 ∧
      ∀ ip, (h.claimAllowed opt ⟨busy, t⟩).2.ipLimiter opt ip = h.ipLimiter opt ip := by
  have hcharged := @claimAllowed_charged opt h hon ⟨busy, t⟩ hglobal
  obtain ⟨hclaim, hrejected⟩ := hcharged
  have hsame : ∀ ip, (h.charged opt t).ipLimiter opt ip = h.ipLimiter opt ip := fun ip => rfl
  refine ⟨?_, ?_, fun ip => ?_⟩
  · rw [hrejected, fst_ipAllowed hipOn, hsame, BucketPolicy.allow_of_lt hshort]
    rfl
  · rw [hclaim, global_ipAllowed]
    exact BucketPolicy.level_taken_self
  · rw [hclaim]
    by_cases hip : ip = busy
    · subst hip
      rw [ipLimiter_ipAllowed hipOn, hsame, BucketPolicy.allow_of_lt hshort]
    · rw [@ipLimiter_ipAllowed_of_ne opt _ ⟨busy, t⟩ ip hip, hsame]

/-- The next `n` claims are charged for all, but rejected. -/
theorem charge_replicate (hon : 0 < opt.claimRateGlobal) (hipOn : 0 < opt.claimRatePerIp) {t : ℚ}
    (hshort : opt.perIp.level (h.ipLimiter opt busy) t < 1) (n : Nat)
    (hn : (n : ℚ) ≤ opt.global.level h.global t) :
    opt.global.level (after opt h (List.replicate n ⟨busy, t⟩)).global t =
        opt.global.level h.global t - n ∧
      (∀ ip, (after opt h (List.replicate n ⟨busy, t⟩)).ipLimiter opt ip = h.ipLimiter opt ip) ∧
      withoutRejected opt busy h (List.replicate n ⟨busy, t⟩) = [] := by
  induction n generalizing h with
  | zero => exact ⟨by simp [after], fun ip => rfl, rfl⟩
  | succ n ih =>
    push_cast at hn
    have hn₀ : (0 : ℚ) ≤ n := Nat.cast_nonneg n
    obtain ⟨hrejected, hlevel, hsame⟩ := claimAllowed_rejected hon hipOn (by linarith) hshort
    obtain ⟨hlast, hall, hnone⟩ := ih (by rw [hsame]; exact hshort) (by rw [hlevel]; linarith)
    have hafter : after opt h (List.replicate (n + 1) ⟨busy, t⟩) =
        after opt (h.claimAllowed opt ⟨busy, t⟩).2 (List.replicate n ⟨busy, t⟩) := rfl
    rw [hafter]
    refine ⟨?_, fun ip => (hall ip).trans (hsame ip), ?_⟩
    · rw [hlast, hlevel]
      push_cast
      ring
    · simp [List.replicate_succ, withoutRejected, hrejected, hnone]

theorem others_of_own {as : List Attempt} (hown : ∀ a ∈ as, a.ip = busy) (h : Limiters) :
    others busy (run opt h as) = [] := by
  induction as generalizing h with
  | nil => rfl
  | cons a as ih =>
    rw [List.forall_mem_cons] at hown
    have hrest := ih hown.2 (h.claimAllowed opt a).2
    simpa [run, others, hown.1] using hrest

theorem one_le_perIp_burst (opt : ClaimLimits) : 1 ≤ opt.perIp.burst := le_max_right ..

/-- A new address only needs a token for all. -/
theorem claimAllowed_quiet (hon : 0 < opt.claimRateGlobal) (hipOn : 0 < opt.claimRatePerIp) {t : ℚ}
    (hglobal : 1 ≤ opt.global.level h.global t) (hnew : h.ipLimiter opt quiet = opt.perIp.full) :
    (h.claimAllowed opt ⟨quiet, t⟩).1 = true := by
  obtain ⟨hclaim, -⟩ := @claimAllowed_charged opt h hon ⟨quiet, t⟩ hglobal
  have hsame : (h.charged opt t).ipLimiter opt quiet = h.ipLimiter opt quiet := rfl
  rw [hclaim, fst_ipAllowed hipOn, hsame, hnew, BucketPolicy.allow_eq_true,
    BucketPolicy.level_full hipOn.le]
  exact one_le_perIp_burst opt

/-- Where the limiter for all has a token and the one of `busy` has none, `busy` uses up the tokens
    for all, and the next claim of `quiet` is rejected. -/
def attack (opt : ClaimLimits) (as : List Attempt) (t : ℚ) : List Attempt :=
  as ++ (List.replicate ⌊opt.global.level (after opt (start opt) as).global t⌋₊ ⟨busy, t⟩ ++
    [⟨quiet, t⟩])

theorem Used.not_othersUnaffected (hon : 0 < opt.claimRateGlobal) (hipOn : 0 < opt.claimRatePerIp)
    {as : List Attempt} {t : ℚ} (used : Used opt as h) (hglobal : 1 ≤ opt.global.level h.global t)
    (hshort : opt.perIp.level (h.ipLimiter opt busy) t < 1) :
    ¬ OthersUnaffected opt (attack opt as t) busy := by
  obtain ⟨rfl, hown, hadmitted, hnew⟩ := used
  set h := after opt (start opt) as with hreached
  set n := ⌊opt.global.level h.global t⌋₊ with hn
  have hfloor : (n : ℚ) ≤ opt.global.level h.global t := Nat.floor_le (zero_le_one.trans hglobal)
  have hceil : opt.global.level h.global t < n + 1 := Nat.lt_floor_add_one _
  obtain ⟨hlevel, -, hnone⟩ := charge_replicate hon hipOn hshort n hfloor
  set mid := after opt h (List.replicate n ⟨busy, t⟩)
  -- With the rejected claims, nothing is left for `quiet`.
  have hafter : (mid.claimAllowed opt ⟨quiet, t⟩).1 = false := by
    rw [(@claimAllowed_short opt mid hon ⟨quiet, t⟩ (by rw [hlevel]; linarith)).1]
  have hbefore : (h.claimAllowed opt ⟨quiet, t⟩).1 = true := claimAllowed_quiet hon hipOn hglobal hnew
  have hkept : withoutRejected opt busy (start opt) (attack opt as t) = as ++ [⟨quiet, t⟩] := by
    have hquiet : withoutRejected opt busy mid [⟨quiet, t⟩] = [⟨quiet, t⟩] := by
      have hne : quiet ≠ busy := by decide
      simp [withoutRejected, hne]
    rw [attack, withoutRejected_append, ← hreached, withoutRejected_append, hadmitted, ← hn, hnone,
      hquiet, List.nil_append]
  have hbusy : ∀ a ∈ List.replicate n (⟨busy, t⟩ : Attempt), a.ip = busy := by
    intro a ha
    rw [(List.mem_replicate.mp ha).2]
  have hlast : ∀ l : Limiters, others busy (run opt l [⟨quiet, t⟩]) =
      [(⟨quiet, t⟩, (l.claimAllowed opt ⟨quiet, t⟩).1)] := by
    intro l
    have hne : quiet ≠ busy := by decide
    simp [run, others, hne]
  unfold OthersUnaffected
  rw [hkept, attack, run_append, run_append, run_append, others_append, others_append, others_append,
    others_of_own hown, others_of_own hbusy, hlast, hlast, ← hreached, hbefore, hafter]
  simp

/-- `busy` can bring the limiters here by the time `t`. -/
def Reached (opt : ClaimLimits) (t : ℚ) (h : Limiters) : Prop :=
  ∃ as, Used opt as h ∧ InOrder as ∧ 0 ≤ t ∧ ∀ a ∈ as, a.now ≤ t

theorem InOrder.append {as bs : List Attempt} {t : ℚ} (has : InOrder as) (ht : 0 ≤ t)
    (hearly : ∀ a ∈ as, a.now ≤ t) (hlast : ∀ b ∈ bs, b.now = t) : InOrder (as ++ bs) := by
  unfold InOrder at has ⊢
  rw [List.map_append, ← List.cons_append, List.pairwise_append]
  refine ⟨has, ?_, fun x hx y hy => ?_⟩
  · refine List.pairwise_of_forall_mem_list fun x hx y hy => ?_
    obtain ⟨b, hb, rfl⟩ := List.mem_map.mp hx
    obtain ⟨b', hb', rfl⟩ := List.mem_map.mp hy
    rw [hlast b hb, hlast b' hb']
  · obtain ⟨b, hb, rfl⟩ := List.mem_map.mp hy
    rw [hlast b hb]
    obtain rfl | hx := List.mem_cons.mp hx
    · exact ht
    · obtain ⟨a, ha, rfl⟩ := List.mem_map.mp hx
      exact hearly a ha

theorem Reached.later {t u : ℚ} (reached : Reached opt t h) (htu : t ≤ u) : Reached opt u h := by
  obtain ⟨as, used, has, ht, hearly⟩ := reached
  exact ⟨as, used, has, ht.trans htu, fun a ha => (hearly a ha).trans htu⟩

/-- Another claim of `busy` that both limiters admit. -/
theorem Reached.admit (hon : 0 < opt.claimRateGlobal) (hipOn : 0 < opt.claimRatePerIp) {t : ℚ}
    (reached : Reached opt t h) (hglobal : 1 ≤ opt.global.level h.global t)
    (hip : 1 ≤ opt.perIp.level (h.ipLimiter opt busy) t) :
    ∃ h', Reached opt t h' ∧ h'.global = ⟨opt.global.level h.global t - 1, t⟩ ∧
      h'.ipLimiter opt busy = ⟨opt.perIp.level (h.ipLimiter opt busy) t - 1, t⟩ := by
  obtain ⟨as, used, has, ht, hearly⟩ := reached
  obtain ⟨hclaim, hrejected⟩ := @claimAllowed_charged opt h hon ⟨busy, t⟩ hglobal
  have hsame : (h.charged opt t).ipLimiter opt busy = h.ipLimiter opt busy := rfl
  have hadmitted : h.rejectedByIp opt ⟨busy, t⟩ = false := by
    rw [hrejected, fst_ipAllowed hipOn, hsame, BucketPolicy.allow_of_le hip]
    rfl
  refine ⟨_, ⟨_, used.admit hadmitted, has.append ht hearly (by simp), ht, fun a ha => ?_⟩, ?_, ?_⟩
  · obtain ha | ha := List.mem_append.mp ha
    · exact hearly a ha
    · rw [List.mem_singleton.mp ha]
  · rw [hclaim, global_ipAllowed]
    rfl
  · rw [hclaim, ipLimiter_ipAllowed hipOn, hsame, BucketPolicy.allow_of_le hip]

/-- If the others are never affected, `busy` is admitted wherever there is a token for all. -/
theorem Reached.admitted (hon : 0 < opt.claimRateGlobal) (hipOn : 0 < opt.claimRatePerIp)
    (hall : ∀ as, InOrder as → ∀ ip, OthersUnaffected opt as ip) {t : ℚ}
    (reached : Reached opt t h) (hglobal : 1 ≤ opt.global.level h.global t) :
    1 ≤ opt.perIp.level (h.ipLimiter opt busy) t := by
  obtain ⟨as, used, has, ht, hearly⟩ := reached
  by_contra hshort
  refine used.not_othersUnaffected hon hipOn hglobal (not_le.mp hshort) (hall _ ?_ busy)
  refine has.append ht hearly fun b hb => ?_
  obtain hb | hb := List.mem_append.mp hb
  · rw [(List.mem_replicate.mp hb).2]
  · rw [List.mem_singleton.mp hb]

/-- A burst of claims at the start. -/
theorem reached_burst (hon : 0 < opt.claimRateGlobal) (hipOn : 0 < opt.claimRatePerIp)
    (hall : ∀ as, InOrder as → ∀ ip, OthersUnaffected opt as ip) (n : ℕ)
    (hn : (n : ℚ) ≤ opt.global.burst) : (n : ℚ) ≤ opt.perIp.burst ∧ ∃ h, Reached opt 0 h ∧
      h.global = ⟨opt.global.burst - n, 0⟩ ∧ h.ipLimiter opt busy = ⟨opt.perIp.burst - n, 0⟩ := by
  induction n with
  | zero =>
    have hone := one_le_perIp_burst opt
    refine ⟨by push_cast; linarith, start opt, ⟨[], used_start, by simp [InOrder], le_rfl, by simp⟩, ?_, ?_⟩
    · simp [start, BucketPolicy.full]
    · simp [start, ipLimiter, BucketPolicy.full]
  | succ n ih =>
    push_cast at hn ⊢
    have hn₀ : (0 : ℚ) ≤ n := Nat.cast_nonneg n
    obtain ⟨-, h, hreached, hglobal, hip⟩ := ih (by linarith)
    have hlevel : opt.global.level h.global 0 = opt.global.burst - n := by
      rw [hglobal, BucketPolicy.level_last (by linarith)]
    have hipLevel : opt.perIp.level (h.ipLimiter opt busy) 0 = opt.perIp.burst - n := by
      rw [hip, BucketPolicy.level_last (by linarith)]
    have hadmitted := hreached.admitted hon hipOn hall (by rw [hlevel]; linarith)
    obtain ⟨h', hreached', hglobal', hip'⟩ := hreached.admit hon hipOn (by rw [hlevel]; linarith) hadmitted
    rw [hipLevel] at hadmitted
    refine ⟨by linarith, h', hreached', ?_, ?_⟩
    · rw [hglobal', hlevel, sub_sub]
    · rw [hip', hipLevel, sub_sub]

theorem one_le_global_burst (opt : ClaimLimits) : 1 ≤ opt.global.burst := le_max_right ..

theorem exists_burst (opt : ClaimLimits) : ∃ n : ℕ, (n : ℚ) = opt.global.burst := by
  refine ⟨(max opt.claimBurstGlobal 1).toNat, ?_⟩
  have hcast : (((max opt.claimBurstGlobal 1).toNat : Int) : ℚ) = opt.global.burst := by
    rw [Int.toNat_of_nonneg (zero_le_one.trans (le_max_right ..))]
    push_cast [ClaimLimits.global]
    rfl
  exact_mod_cast hcast

/-- After the burst one claim for every token that all get: if the limiter of `busy` fills more
    slowly, it has a little less each time. -/
theorem reached_paced (hon : 0 < opt.claimRateGlobal) (hipOn : 0 < opt.claimRatePerIp)
    (hall : ∀ as, InOrder as → ∀ ip, OthersUnaffected opt as ip)
    (hslower : opt.claimRatePerIp < opt.claimRateGlobal) (k : ℕ) :
    let left := opt.perIp.burst - opt.global.burst -
      k * (1 - opt.claimRatePerIp / opt.claimRateGlobal)
    0 ≤ left ∧ ∃ h, Reached opt (k / opt.claimRateGlobal) h ∧
      h.global = ⟨0, k / opt.claimRateGlobal⟩ ∧
      h.ipLimiter opt busy = ⟨left, k / opt.claimRateGlobal⟩ := by
  have hone := one_le_global_burst opt
  have hratio : opt.claimRatePerIp / opt.claimRateGlobal < 1 := (div_lt_one hon).mpr hslower
  induction k with
  | zero =>
    obtain ⟨n, hn⟩ := exists_burst opt
    obtain ⟨hburst, h, hreached, hglobal, hip⟩ := reached_burst hon hipOn hall n hn.le
    rw [hn] at hburst hglobal hip
    simp only [Nat.cast_zero, zero_mul, sub_zero, zero_div]
    exact ⟨by linarith, h, hreached, by rw [hglobal, sub_self], hip⟩
  | succ k ih =>
    obtain ⟨hleft, h, hreached, hglobal, hip⟩ := ih
    set t : ℚ := k / opt.claimRateGlobal
    set u : ℚ := (k + 1 : ℕ) / opt.claimRateGlobal with hu
    have hk : (0 : ℚ) ≤ k * (1 - opt.claimRatePerIp / opt.claimRateGlobal) :=
      mul_nonneg (Nat.cast_nonneg k) (by linarith)
    have hgap : u - t = 1 / opt.claimRateGlobal := by
      rw [hu]
      push_cast
      ring
    have htu : t ≤ u := by
      have : 0 < 1 / opt.claimRateGlobal := one_div_pos.mpr hon
      linarith
    have hlevel : opt.global.level h.global u = 1 := by
      rw [hglobal, BucketPolicy.level_of_le htu, hgap]
      have hgain : opt.global.rate * (1 / opt.claimRateGlobal) = 1 := mul_one_div_cancel hon.ne'
      rw [hgain, zero_add]
      exact min_eq_right hone
    -- The bucket of the address fills more slowly than it is emptied.
    have hipLevel : opt.perIp.level (h.ipLimiter opt busy) u = opt.perIp.burst - opt.global.burst -
        k * (1 - opt.claimRatePerIp / opt.claimRateGlobal) +
        opt.claimRatePerIp / opt.claimRateGlobal := by
      rw [hip, BucketPolicy.level_of_le htu, hgap]
      have hgain : opt.perIp.rate * (1 / opt.claimRateGlobal) =
          opt.claimRatePerIp / opt.claimRateGlobal := mul_one_div ..
      rw [hgain]
      apply min_eq_right
      change _ ≤ opt.perIp.burst
      linarith
    have hlater := hreached.later htu
    -- The common bucket has just one token, and the claim has to get it, since the others are not affected.
    have hadmitted := hlater.admitted hon hipOn hall hlevel.ge
    obtain ⟨h', hreached', hglobal', hip'⟩ := hlater.admit hon hipOn hlevel.ge hadmitted
    rw [hipLevel] at hadmitted hip'
    rw [hlevel, sub_self] at hglobal'
    have hnext : opt.perIp.burst - opt.global.burst -
        (k + 1 : ℕ) * (1 - opt.claimRatePerIp / opt.claimRateGlobal) =
        opt.perIp.burst - opt.global.burst -
          k * (1 - opt.claimRatePerIp / opt.claimRateGlobal) +
          opt.claimRatePerIp / opt.claimRateGlobal - 1 := by
      push_cast
      ring
    simp only [hnext]
    exact ⟨by linarith, h', hreached', hglobal', hip'⟩

/-- The limiter of an address is never the stricter one. -/
def NeverStricter (opt : ClaimLimits) : Prop :=
  opt.claimRateGlobal ≤ opt.claimRatePerIp ∧
    max opt.claimBurstGlobal 1 ≤ max opt.claimBurstPerIp 1

theorem neverStricter_of_all (hon : 0 < opt.claimRateGlobal) (hipOn : 0 < opt.claimRatePerIp)
    (hall : ∀ as, InOrder as → ∀ ip, OthersUnaffected opt as ip) : NeverStricter opt := by
  constructor
  · by_contra hslower
    rw [not_le] at hslower
    have hloss : 0 < 1 - opt.claimRatePerIp / opt.claimRateGlobal :=
      sub_pos.mpr ((div_lt_one hon).mpr hslower)
    obtain ⟨k, hk⟩ := exists_nat_gt ((opt.perIp.burst - opt.global.burst) /
      (1 - opt.claimRatePerIp / opt.claimRateGlobal))
    rw [div_lt_iff₀ hloss] at hk
    obtain ⟨hleft, -⟩ := reached_paced hon hipOn hall hslower k
    linarith
  · obtain ⟨n, hn⟩ := exists_burst opt
    obtain ⟨hburst, -⟩ := reached_burst hon hipOn hall n hn.le
    rw [hn] at hburst
    change max (opt.claimBurstGlobal : ℚ) 1 ≤ max (opt.claimBurstPerIp : ℚ) 1 at hburst
    exact_mod_cast hburst

theorem othersUnaffected_iff (opt : ClaimLimits) :
    (∀ as, InOrder as → ∀ ip, OthersUnaffected opt as ip) ↔
      opt.claimRateGlobal ≤ 0 ∨ opt.claimRatePerIp ≤ 0 ∨ NeverStricter opt := by
  constructor
  · intro hall
    by_cases hon : 0 < opt.claimRateGlobal
    · by_cases hipOn : 0 < opt.claimRatePerIp
      · exact .inr (.inr (neverStricter_of_all hon hipOn hall))
      · exact .inr (.inl (not_lt.mp hipOn))
    · exact .inl (not_lt.mp hon)
  · intro hcondition as has ip
    by_cases hon : 0 < opt.claimRateGlobal
    · obtain hoff | hipOff | ⟨hrate, hburst⟩ := hcondition
      · exact absurd hon (not_lt.mpr hoff)
      · unfold OthersUnaffected
        rw [withoutRejected_off hipOff]
      · have hburst' : opt.global.burst ≤ opt.perIp.burst := by
          change max (opt.claimBurstGlobal : ℚ) 1 ≤ max (opt.claimBurstPerIp : ℚ) 1
          exact_mod_cast hburst
        obtain ⟨hlater, hordered⟩ := List.pairwise_cons.mp has
        rw [List.forall_mem_map] at hlater
        have hstart : Ahead opt (start opt) 0 := ahead_start (hon.le.trans hrate) hburst' le_rfl
        unfold OthersUnaffected
        rw [withoutRejected_ahead hon hrate hburst' ip hstart hordered hlater]
    · exact othersUnaffected_separate (not_lt.mp hon) ip as _ _ fun _ _ => rfl

end Limiters

end CrossTransfer.Signal
