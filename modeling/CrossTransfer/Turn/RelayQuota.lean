import CrossTransfer.Library.ListSums
import CrossTransfer.Library.Machine
import CrossTransfer.Turn.RelayLimiter

/-! # The relay sockets of the embedded server

`server/internal/turn/quota.go`: sockets are allocated up to a maximum, each with a limiter of its own and
all under a common one, and are given back when they are closed. A step is what one goroutine does between
two locks or atomic operations, so any two allocations, datagrams and calls of `Close` may interleave. The
numbers that are reported are those of the sockets and datagrams, in every run (`quota_run`), and no more
bytes pass than the common rate allows (`policed_run`).
-/

namespace CrossTransfer.Turn

open CrossTransfer.Library

/-- How far the function is that `closed` calls once. -/
inductive CloseStage
  | idle
  | entered
  | socketClosed
  | done
deriving DecidableEq

structure QuotaPacketConn (rate : WeightedLimiter ℚ) where
  limiter : Limiter rate
  isClosed : Bool := false
  stage : CloseStage := .idle

/-- How far `Allow` is with a datagram. -/
inductive AllowStage
  | own
  | global
  | count (ok : Bool)
  | over (ok : Bool)
deriving DecidableEq

/-- A datagram of a connection, with the time at which `Allow` was called. -/
structure Datagram where
  conn : Nat
  n : Nat
  now : ℚ
  stage : AllowStage := .own

/-- The fields that do not change. -/
structure QuotaOptions where
  maximum : Int
  perAllocationRate : Int
  globalRate : Int

/-- The shared state, every connection and every datagram so far. `admitted` are the bytes that the common
    limiter allowed. -/
structure RelayQuota (rate : WeightedLimiter ℚ) where
  active : Int := 0
  global : Limiter rate
  rejected : Nat := 0
  bytes : Nat := 0
  dropped : Nat := 0
  conns : List (QuotaPacketConn rate) := []
  datagrams : List Datagram := []
  admitted : List (Grant ℚ) := []

inductive QuotaStep
  | allocatePacketConn (base : Bool)
  | readFrom (conn n : Nat) (now : ℚ)
  | writeTo (conn n : Nat) (now : ℚ)
  | askOwn (datagram : Nat)
  | askGlobal (datagram : Nat)
  | count (datagram : Nat)
  | enterClose (conn : Nat)
  | closeSocket (conn : Nat)
  | release (conn : Nat)

namespace RelayQuota

variable {rate : WeightedLimiter ℚ} (opt : QuotaOptions) (q : RelayQuota rate)

/-- `AllocatePacketConn`, under the lock; `base` tells whether there is a port. -/
def allocatePacketConn (base : Bool) : RelayQuota rate :=
  if opt.maximum ≤ q.active then { q with rejected := q.rejected + 1 }
  else if base then
    { q with
      active := q.active + 1
      conns := q.conns ++ [{ limiter := newLimiter rate opt.perAllocationRate }] }
  else q

/-- A datagram goes on to another stage. -/
def proceed (datagram : Nat) (d : Datagram) (stage : AllowStage) : RelayQuota rate :=
  { q with datagrams := q.datagrams.set datagram { d with stage } }

/-- The first limiter in `Allow`. -/
def askOwn (datagram : Nat) : Option (RelayQuota rate) := do
  let d ← q.datagrams[datagram]?
  guard (d.stage = .own)
  let c ← q.conns[d.conn]?
  let (ok, limiter) := c.limiter.allow d.n d.now
  let q := { q with conns := q.conns.set d.conn { c with limiter } }
  return q.proceed datagram d (if ok then .global else .count false)

/-- The second limiter. -/
def askGlobal (datagram : Nat) : Option (RelayQuota rate) := do
  let d ← q.datagrams[datagram]?
  guard (d.stage = .global)
  let (ok, global) := q.global.allow d.n d.now
  let grants : List (Grant ℚ) := if ok then [⟨d.now, d.n⟩] else []
  let q := { q with global, admitted := q.admitted ++ grants }
  return q.proceed datagram d (.count ok)

/-- The counter at the end of `Allow`. -/
def count (datagram : Nat) : Option (RelayQuota rate) := do
  let d ← q.datagrams[datagram]?
  match d.stage with
  | .count true => return { q with bytes := q.bytes + d.n }.proceed datagram d (.over true)
  | .count false => return { q with dropped := q.dropped + 1 }.proceed datagram d (.over false)
  | _ => none

/-- A connection goes on with `Close`. -/
def closing (conn : Nat) (before after : CloseStage) : Option (RelayQuota rate) := do
  let c ← q.conns[conn]?
  guard (c.stage = before)
  return { q with conns := q.conns.set conn { c with stage := after, isClosed := true } }

def step : QuotaStep → Option (RelayQuota rate)
  | .allocatePacketConn base => some (q.allocatePacketConn opt base)
  | .readFrom conn n now => do
    let _ ← q.conns[conn]?
    return { q with datagrams := q.datagrams ++ [⟨conn, n, now, .own⟩] }
  | .writeTo conn n now => do
    let c ← q.conns[conn]?
    return if c.isClosed then q else { q with datagrams := q.datagrams ++ [⟨conn, n, now, .own⟩] }
  | .askOwn datagram => q.askOwn datagram
  | .askGlobal datagram => q.askGlobal datagram
  | .count datagram => q.count datagram
  | .enterClose conn => q.closing conn .idle .entered
  | .closeSocket conn => q.closing conn .entered .socketClosed
  | .release conn => do
    let q ← q.closing conn .socketClosed .done
    return { q with active := q.active - 1 }

variable (rate) in
def machine : Machine (RelayQuota rate) QuotaStep :=
  ⟨{ global := newLimiter rate opt.globalRate }, fun q a => q.step opt a⟩

/-! ## What holds in every run -/

section Counts

variable (conns : List (QuotaPacketConn rate)) (datagrams : List Datagram) (stage : AllowStage)

/-- The connections that count. -/
def held : Nat := conns.countP fun c => c.stage ≠ .done

/-- Those with a socket that is not closed yet. -/
def openSockets : Nat := conns.countP fun c => c.stage = .idle ∨ c.stage = .entered

/-- What the limiters of the connections let pass, and what they did not. -/
def ownFrames : Nat := (conns.map (·.limiter.frames)).sum

def ownDropped : Nat := (conns.map (·.limiter.dropped)).sum

/-- The datagrams of a stage. -/
def waiting : Nat := (datagrams.map fun d => if d.stage = stage then 1 else 0).sum

/-- Their bytes. -/
def waitingBytes : Nat := (datagrams.map fun d => if d.stage = stage then d.n else 0).sum

end Counts

/-- What the numbers of a state are. -/
structure Reports : Prop where
  active : q.active = held q.conns
  capacity : q.active ≤ max opt.maximum 0
  sockets : openSockets q.conns ≤ held q.conns
  bytes : q.bytes = waitingBytes q.datagrams (.over true)
  dropped : q.dropped = waiting q.datagrams (.over false)
  globalBytes : q.global.bytes = q.bytes + waitingBytes q.datagrams (.count true)
  allDropped : q.dropped + waiting q.datagrams (.count false) = ownDropped q.conns + q.global.dropped
  passedOwn : ownFrames q.conns = q.global.frames + q.global.dropped + waiting q.datagrams .global

variable {opt q} {q' : RelayQuota rate} {datagram conn : Nat} {d : Datagram} {c : QuotaPacketConn rate}

/-! ## Steps -/

section Set

variable {conns : List (QuotaPacketConn rate)} {datagrams : List Datagram}

/-- One datagram of `n` bytes goes from a stage to another. -/
structure Moved (datagrams datagrams' : List Datagram) (before after : AllowStage) (n : Nat) : Prop where
  left : waiting datagrams' before + 1 = waiting datagrams before
  leftBytes : waitingBytes datagrams' before + n = waitingBytes datagrams before
  came : waiting datagrams' after = waiting datagrams after + 1
  cameBytes : waitingBytes datagrams' after = waitingBytes datagrams after + n
  others : ∀ stage, stage ≠ before → stage ≠ after → waiting datagrams' stage = waiting datagrams stage
  othersBytes : ∀ stage, stage ≠ before → stage ≠ after →
    waitingBytes datagrams' stage = waitingBytes datagrams stage

theorem moved (h : datagrams[datagram]? = some d) {before after : AllowStage} (hbefore : d.stage = before)
    (hne : before ≠ after) :
    Moved datagrams (datagrams.set datagram { d with stage := after }) before after d.n := by
  have hwaiting (stage : AllowStage) :
      waiting (datagrams.set datagram { d with stage := after }) stage + (if d.stage = stage then 1 else 0) =
        waiting datagrams stage + if after = stage then 1 else 0 :=
    sum_map_set (fun d : Datagram => if d.stage = stage then 1 else 0) datagrams { d with stage := after } h
  have hbytes (stage : AllowStage) :
      waitingBytes (datagrams.set datagram { d with stage := after }) stage +
          (if d.stage = stage then d.n else 0) =
        waitingBytes datagrams stage + if after = stage then d.n else 0 :=
    sum_map_set (fun d : Datagram => if d.stage = stage then d.n else 0) datagrams { d with stage := after } h
  rw [hbefore] at hwaiting hbytes
  refine ⟨?_, ?_, ?_, ?_, fun stage hb ha => ?_, fun stage hb ha => ?_⟩
  · simpa [Ne.symm hne] using hwaiting before
  · simpa [Ne.symm hne] using hbytes before
  · simpa [hne] using hwaiting after
  · simpa [hne] using hbytes after
  · simpa [Ne.symm hb, Ne.symm ha] using hwaiting stage
  · simpa [Ne.symm hb, Ne.symm ha] using hbytes stage

/-- Nothing is decided about a datagram that comes. -/
theorem waiting_come (datagrams : List Datagram) (conn n : Nat) (now : ℚ) {stage : AllowStage}
    (hstage : stage ≠ .own) : waiting (datagrams ++ [⟨conn, n, now, .own⟩]) stage = waiting datagrams stage ∧
      waitingBytes (datagrams ++ [⟨conn, n, now, .own⟩]) stage = waitingBytes datagrams stage := by
  constructor <;> simp [waiting, waitingBytes, Ne.symm hstage]

theorem held_set (h : conns[conn]? = some c) (c' : QuotaPacketConn rate) :
    held (conns.set conn c') + (decide (c.stage ≠ .done)).toNat =
      held conns + (decide (c'.stage ≠ .done)).toNat :=
  countP_set (fun c : QuotaPacketConn rate => decide (c.stage ≠ .done)) conns c' h

theorem openSockets_le (conns : List (QuotaPacketConn rate)) : openSockets conns ≤ held conns := by
  apply List.countP_mono_left
  intro c _ hopen
  simp only [decide_eq_true_eq] at hopen ⊢
  obtain hopen | hopen := hopen <;> simp [hopen]

end Set

theorem Reports.allocatePacketConn (h : q.Reports opt) (base : Bool) :
    (q.allocatePacketConn opt base).Reports opt := by
  unfold RelayQuota.allocatePacketConn
  split
  · exact ⟨h.active, h.capacity, h.sockets, h.bytes, h.dropped, h.globalBytes, h.allDropped, h.passedOwn⟩
  · rename_i hroom
    split
    · refine ⟨?_, ?_, openSockets_le _, h.bytes, h.dropped, h.globalBytes, ?_, ?_⟩
      · simp [held, h.active]
      · dsimp only
        omega
      · simp [ownDropped, newLimiter, h.allDropped]
      · simp [ownFrames, newLimiter, ← h.passedOwn]
    · exact h

theorem Reports.come (h : q.Reports opt) (conn n : Nat) (now : ℚ) :
    Reports opt { q with datagrams := q.datagrams ++ [⟨conn, n, now, .own⟩] } := by
  have hcome {stage : AllowStage} (hstage : stage ≠ .own) := waiting_come q.datagrams conn n now hstage
  refine ⟨h.active, h.capacity, h.sockets, ?_, ?_, ?_, ?_, ?_⟩
  · exact h.bytes.trans (hcome (by simp)).2.symm
  · exact h.dropped.trans (hcome (by simp)).1.symm
  · rw [(hcome (by simp)).2]
    exact h.globalBytes
  · rw [(hcome (by simp)).1]
    exact h.allDropped
  · rw [(hcome (by simp)).1]
    exact h.passedOwn

theorem askOwn_eq (h : q.askOwn datagram = some q') : ∃ d c, q.datagrams[datagram]? = some d ∧
    d.stage = .own ∧ q.conns[d.conn]? = some c ∧
    q' = { q with conns := q.conns.set d.conn { c with limiter := (c.limiter.allow d.n d.now).2 } }.proceed
      datagram d (if (c.limiter.allow d.n d.now).1 then .global else .count false) := by
  simp only [askOwn, Option.bind_eq_bind, Option.bind_eq_some_iff, Option.guard_eq_some'] at h
  obtain ⟨d, hd, -, hstage, c, hc, h⟩ := h
  exact ⟨d, c, hd, hstage, hc, (Option.some.inj h).symm⟩

variable (q d) in
/-- What the common limiter lets pass of a datagram. -/
def grants : List (Grant ℚ) := if (q.global.allow d.n d.now).1 then [⟨d.now, d.n⟩] else []

theorem askGlobal_eq (h : q.askGlobal datagram = some q') : ∃ d, q.datagrams[datagram]? = some d ∧
    d.stage = .global ∧
    q' = { q with
      global := (q.global.allow d.n d.now).2
      admitted := q.admitted ++ q.grants d }.proceed datagram d (.count (q.global.allow d.n d.now).1) := by
  simp only [askGlobal, Option.bind_eq_bind, Option.bind_eq_some_iff, Option.guard_eq_some'] at h
  obtain ⟨d, hd, -, hstage, h⟩ := h
  exact ⟨d, hd, hstage, (Option.some.inj h).symm⟩

theorem count_eq (h : q.count datagram = some q') : ∃ d ok, q.datagrams[datagram]? = some d ∧
    d.stage = .count ok ∧
    q' = { q with
      bytes := q.bytes + if ok then d.n else 0
      dropped := q.dropped + if ok then 0 else 1 }.proceed datagram d (.over ok) := by
  simp only [RelayQuota.count, Option.bind_eq_bind, Option.bind_eq_some_iff] at h
  obtain ⟨d, hd, h⟩ := h
  split at h
  · exact ⟨d, true, hd, ‹_›, (Option.some.inj h).symm⟩
  · exact ⟨d, false, hd, ‹_›, (Option.some.inj h).symm⟩
  · cases h

theorem closing_eq {before after : CloseStage} (h : q.closing conn before after = some q') :
    ∃ c, q.conns[conn]? = some c ∧ c.stage = before ∧
      q' = { q with conns := q.conns.set conn { c with stage := after, isClosed := true } } := by
  simp only [closing, Option.bind_eq_bind, Option.bind_eq_some_iff, Option.guard_eq_some'] at h
  obtain ⟨c, hc, -, hstage, h⟩ := h
  exact ⟨c, hc, hstage, (Option.some.inj h).symm⟩

theorem Reports.askOwn (h : q.Reports opt) (hstep : q.askOwn datagram = some q') : q'.Reports opt := by
  obtain ⟨d, c, hd, hstage, hc, rfl⟩ := askOwn_eq hstep
  have hdropped := c.limiter.allow_dropped d.n d.now
  have hframes := c.limiter.allow_frames d.n d.now
  have hown : ownDropped (q.conns.set d.conn { c with limiter := (c.limiter.allow d.n d.now).2 }) +
      c.limiter.dropped = ownDropped q.conns + (c.limiter.allow d.n d.now).2.dropped :=
    sum_map_set (fun c : QuotaPacketConn rate => c.limiter.dropped) q.conns _ hc
  have hpassed : ownFrames (q.conns.set d.conn { c with limiter := (c.limiter.allow d.n d.now).2 }) +
      c.limiter.frames = ownFrames q.conns + (c.limiter.allow d.n d.now).2.frames :=
    sum_map_set (fun c : QuotaPacketConn rate => c.limiter.frames) q.conns _ hc
  have hheld : held (q.conns.set d.conn { c with limiter := (c.limiter.allow d.n d.now).2 }) = held q.conns :=
    Nat.add_right_cancel (held_set hc _)
  have hallDropped := h.allDropped
  have hpassedOwn := h.passedOwn
  -- A datagram that the own limiter lets pass goes on to the common one; one that it drops is only counted.
  cases hok : (c.limiter.allow d.n d.now).1 with
  | true =>
    rw [hok] at hdropped hframes
    have hmoved := moved hd hstage (show AllowStage.own ≠ .global by simp)
    refine ⟨by rw [h.active, ← hheld]; rfl, h.capacity, openSockets_le _, ?_, ?_, ?_, ?_, ?_⟩
    · exact h.bytes.trans (hmoved.othersBytes _ (by simp) (by simp)).symm
    · exact h.dropped.trans (hmoved.others _ (by simp) (by simp)).symm
    · have hsame := hmoved.othersBytes (.count true) (by simp) (by simp)
      exact h.globalBytes.trans (congrArg _ hsame.symm)
    · have hsame := hmoved.others (.count false) (by simp) (by simp)
      simp only [proceed, if_true] at hdropped ⊢
      omega
    · have hcame := hmoved.came
      simp only [proceed, if_true] at hframes ⊢
      omega
  | false =>
    rw [hok] at hdropped hframes
    have hmoved := moved hd hstage (show AllowStage.own ≠ .count false by simp)
    refine ⟨by rw [h.active, ← hheld]; rfl, h.capacity, openSockets_le _, ?_, ?_, ?_, ?_, ?_⟩
    · exact h.bytes.trans (hmoved.othersBytes _ (by simp) (by simp)).symm
    · exact h.dropped.trans (hmoved.others _ (by simp) (by simp)).symm
    · have hsame := hmoved.othersBytes (.count true) (by simp) (by simp)
      exact h.globalBytes.trans (congrArg _ hsame.symm)
    · have hcame := hmoved.came
      simp only [proceed, Bool.false_eq_true, if_false] at hdropped ⊢
      omega
    · have hsame := hmoved.others .global (by simp) (by simp)
      simp only [proceed, Bool.false_eq_true, if_false] at hframes ⊢
      omega

theorem Reports.askGlobal (h : q.Reports opt) (hstep : q.askGlobal datagram = some q') : q'.Reports opt := by
  obtain ⟨d, hd, hstage, rfl⟩ := askGlobal_eq hstep
  have hbytes := q.global.allow_bytes d.n d.now
  have hdropped := q.global.allow_dropped d.n d.now
  have hframes := q.global.allow_frames d.n d.now
  have hglobalBytes := h.globalBytes
  have hallDropped := h.allDropped
  have hpassedOwn := h.passedOwn
  have hmoved := moved hd hstage (show AllowStage.global ≠ .count (q.global.allow d.n d.now).1 by simp)
  have hleft := hmoved.left
  have hcame := hmoved.came
  have hcameBytes := hmoved.cameBytes
  refine ⟨h.active, h.capacity, openSockets_le _, ?_, ?_, ?_, ?_, ?_⟩
  · exact h.bytes.trans (hmoved.othersBytes _ (by simp) (by simp)).symm
  · exact h.dropped.trans (hmoved.others _ (by simp) (by simp)).symm
  · cases hok : (q.global.allow d.n d.now).1 with
    | true =>
      simp only [hok, proceed, if_true] at hbytes hcameBytes ⊢
      omega
    | false =>
      have hsame := hmoved.othersBytes (.count true) (by simp) (by simp [hok])
      simp only [hok, proceed, Bool.false_eq_true, if_false] at hbytes hsame ⊢
      omega
  · cases hok : (q.global.allow d.n d.now).1 with
    | true =>
      have hsame := hmoved.others (.count false) (by simp) (by simp [hok])
      simp only [hok, proceed, if_true] at hdropped hsame ⊢
      omega
    | false =>
      simp only [hok, proceed, Bool.false_eq_true, if_false] at hdropped hcame ⊢
      omega
  · cases hok : (q.global.allow d.n d.now).1 with
    | true =>
      simp only [hok, proceed, if_true] at hframes hdropped hleft ⊢
      omega
    | false =>
      simp only [hok, proceed, Bool.false_eq_true, if_false] at hframes hdropped hleft ⊢
      omega

theorem Reports.count (h : q.Reports opt) (hstep : q.count datagram = some q') : q'.Reports opt := by
  obtain ⟨d, ok, hd, hstage, rfl⟩ := count_eq hstep
  have hmoved := moved hd hstage (show AllowStage.count ok ≠ .over ok by simp)
  have hleft := hmoved.left
  have hleftBytes := hmoved.leftBytes
  have hcame := hmoved.came
  have hcameBytes := hmoved.cameBytes
  have hbytes := h.bytes
  have hdropped := h.dropped
  have hglobalBytes := h.globalBytes
  have hallDropped := h.allDropped
  have hsame := hmoved.others .global (by simp) (by simp)
  refine ⟨h.active, h.capacity, openSockets_le _, ?_, ?_, ?_, ?_, h.passedOwn.trans (congrArg _ hsame.symm)⟩
  · cases ok with
    | true =>
      simp only [proceed, if_true]
      omega
    | false =>
      have hother := hmoved.othersBytes (.over true) (by simp) (by simp)
      simp only [proceed, Bool.false_eq_true, if_false]
      omega
  · cases ok with
    | true =>
      have hother := hmoved.others (.over false) (by simp) (by simp)
      simp only [proceed, if_true]
      omega
    | false =>
      simp only [proceed, Bool.false_eq_true, if_false]
      omega
  · cases ok with
    | true =>
      simp only [proceed, if_true]
      omega
    | false =>
      have hother := hmoved.othersBytes (.count true) (by simp) (by simp)
      simp only [proceed, Bool.false_eq_true, if_false]
      omega
  · cases ok with
    | true =>
      have hother := hmoved.others (.count false) (by simp) (by simp)
      simp only [proceed, if_true]
      omega
    | false =>
      simp only [proceed, Bool.false_eq_true, if_false]
      omega

/-- `Close` does not touch the limiter. -/
theorem closing_counts {before : CloseStage} (after : CloseStage) (hc : q.conns[conn]? = some c)
    (hstage : c.stage = before) :
    held (q.conns.set conn { c with stage := after, isClosed := true }) + (decide (before ≠ .done)).toNat =
        held q.conns + (decide (after ≠ .done)).toNat ∧
      ownDropped (q.conns.set conn { c with stage := after, isClosed := true }) = ownDropped q.conns ∧
      ownFrames (q.conns.set conn { c with stage := after, isClosed := true }) = ownFrames q.conns := by
  have hheld := held_set hc { c with stage := after, isClosed := true }
  rw [hstage] at hheld
  exact ⟨hheld, congrArg List.sum (map_set_of_eq hc rfl), congrArg List.sum (map_set_of_eq hc rfl)⟩

theorem Reports.step (h : q.Reports opt) {a : QuotaStep} (hstep : q.step opt a = some q') : q'.Reports opt := by
  have hclose {conn : Nat} {before after : CloseStage} {q' : RelayQuota rate}
      (hbefore : before ≠ .done) (hafter : after ≠ .done) (hstep : q.closing conn before after = some q') :
      q'.Reports opt := by
    obtain ⟨c, hc, hstage, rfl⟩ := closing_eq hstep
    obtain ⟨hheld, hdropped, hframes⟩ := closing_counts after hc hstage
    -- The connection holds its socket before and after.
    simp only [hbefore, hafter, ne_eq, not_false_eq_true, decide_true, Nat.add_right_cancel_iff] at hheld
    exact ⟨h.active.trans (congrArg _ hheld.symm), h.capacity, openSockets_le _, h.bytes, h.dropped,
      h.globalBytes, by rw [hdropped]; exact h.allDropped, by rw [hframes]; exact h.passedOwn⟩
  cases a with
  | allocatePacketConn base =>
    obtain rfl := Option.some.inj hstep
    exact h.allocatePacketConn base
  | readFrom conn n now =>
    simp only [RelayQuota.step, Option.bind_eq_bind, Option.bind_eq_some_iff] at hstep
    obtain ⟨c, -, hstep⟩ := hstep
    obtain rfl := Option.some.inj hstep
    exact h.come conn n now
  | writeTo conn n now =>
    simp only [RelayQuota.step, Option.bind_eq_bind, Option.bind_eq_some_iff] at hstep
    obtain ⟨c, -, hstep⟩ := hstep
    obtain rfl := Option.some.inj hstep
    split
    · exact h
    · exact h.come conn n now
  | askOwn datagram => exact h.askOwn hstep
  | askGlobal datagram => exact h.askGlobal hstep
  | count datagram => exact h.count hstep
  | enterClose conn => exact hclose (by simp) (by simp) hstep
  | closeSocket conn => exact hclose (by simp) (by simp) hstep
  | release conn =>
    simp only [RelayQuota.step, Option.bind_eq_bind, Option.bind_eq_some_iff] at hstep
    obtain ⟨mid, hclosing, hstep⟩ := hstep
    obtain ⟨c, hc, hstage, rfl⟩ := closing_eq hclosing
    obtain rfl := Option.some.inj hstep
    obtain ⟨hheld, hdropped, hframes⟩ := closing_counts .done hc hstage
    have hactive := h.active
    have hcapacity := h.capacity
    -- The connection counted until now.
    change _ + 1 = _ + 0 at hheld
    refine ⟨?_, ?_, openSockets_le _, h.bytes, h.dropped, h.globalBytes, by rw [hdropped]; exact h.allDropped,
      by rw [hframes]; exact h.passedOwn⟩
    · dsimp only
      omega
    · dsimp only
      omega

/-! ## Runs -/

variable {as : List QuotaStep}

theorem reports_start (rate : WeightedLimiter ℚ) (opt : QuotaOptions) :
    Reports opt { global := newLimiter rate opt.globalRate } where
  active := rfl
  capacity := le_max_right ..
  sockets := le_rfl
  bytes := rfl
  dropped := rfl
  globalBytes := by simp [newLimiter, waitingBytes]
  allDropped := rfl
  passedOwn := rfl

/-- In every interleaving the sockets in use are those that are reported, and no more than the maximum; they
    are given back once each; and the datagrams that are not over yet are all that the counters of the
    server and of the limiters differ by. -/
theorem quota_run (run : (machine rate opt).Run Machine.anyStep as q) : q.Reports opt := by
  apply run.invariant (Reports opt) (reports_start rate opt)
  intro q a q' h _ hstep
  exact h.step hstep

/-- A datagram comes to the common limiter no earlier than those that it has let pass. -/
def Timely (q : RelayQuota rate) : QuotaStep → Prop
  | .askGlobal datagram => ∀ d, q.datagrams[datagram]? = some d → ∀ g ∈ q.admitted, g.time ≤ d.now
  | _ => True

instance : (a : QuotaStep) → Decidable (Timely q a)
  | .askGlobal datagram => inferInstanceAs (Decidable (∀ d ∈ q.datagrams[datagram]?,
      ∀ g ∈ q.admitted, g.time ≤ d.now))
  | .allocatePacketConn _ | .readFrom .. | .writeTo .. | .askOwn _ | .count _ | .enterClose _ | .closeSocket _
  | .release _ => .isTrue trivial

theorem polices_run (law : rate.IsTokenBucket nanosecond) (run : (machine rate opt).Run Timely as q) :
    q.global.Polices opt.globalRate q.admitted := by
  refine run.invariant (fun q => q.global.Polices opt.globalRate q.admitted) (Limiter.polices_new law _) ?_
  intro q a q' h htimely hstep
  have hclose {conn : Nat} {before after : CloseStage} {q' : RelayQuota rate}
      (hstep : q.closing conn before after = some q') : q'.global.Polices opt.globalRate q'.admitted := by
    obtain ⟨c, -, -, rfl⟩ := closing_eq hstep
    exact h
  cases a with
  | allocatePacketConn base =>
    obtain rfl := Option.some.inj hstep
    unfold allocatePacketConn
    split
    · exact h
    · split <;> exact h
  | readFrom conn n now =>
    simp only [machine, RelayQuota.step, Option.bind_eq_bind, Option.bind_eq_some_iff] at hstep
    obtain ⟨c, -, hstep⟩ := hstep
    obtain rfl := Option.some.inj hstep
    exact h
  | writeTo conn n now =>
    simp only [machine, RelayQuota.step, Option.bind_eq_bind, Option.bind_eq_some_iff] at hstep
    obtain ⟨c, -, hstep⟩ := hstep
    obtain rfl := Option.some.inj hstep
    split <;> exact h
  | askOwn datagram =>
    obtain ⟨d, c, -, -, -, rfl⟩ := askOwn_eq hstep
    exact h
  | askGlobal datagram =>
    obtain ⟨d, hd, -, rfl⟩ := askGlobal_eq hstep
    -- The one step that asks the common limiter.
    exact h.allow law (htimely d hd) d.n
  | count datagram =>
    obtain ⟨d, ok, -, -, rfl⟩ := count_eq hstep
    exact h
  | enterClose conn => exact hclose hstep
  | closeSocket conn => exact hclose hstep
  | release conn =>
    simp only [machine, RelayQuota.step, Option.bind_eq_bind, Option.bind_eq_some_iff] at hstep
    obtain ⟨mid, hclosing, hstep⟩ := hstep
    obtain rfl := Option.some.inj hstep
    have hmid := hclose hclosing
    exact hmid

/-- In every interleaving, between any two times the bytes that pass through all relay sockets together are at
    most what the common rate gives in that time and a nanosecond, and a burst; and what is reported has
    passed. -/
theorem policed_run (law : rate.IsTokenBucket nanosecond) (run : (machine rate opt).Run Timely as q)
    (hrate : 0 < opt.globalRate) :
    (∀ s u : ℚ, s ≤ u → granted q.admitted s u ≤
      max opt.globalRate 65536 + opt.globalRate * (u - s + nanosecond)) ∧
      (q.bytes : ℚ) ≤ (q.admitted.map (·.amount)).sum := by
  have hpolices := polices_run law run
  refine ⟨fun s u hsu => by simpa using hpolices.window hrate hsu, ?_⟩
  have hbytes := (quota_run (run.mono fun _ _ _ => trivial)).globalBytes
  rw [← hpolices.bytes, hbytes]
  exact_mod_cast Nat.le_add_right ..

/-- One socket is closed while a datagram of the other is decided, and a third one has to wait. -/
theorem quota_run_two : ∃ q, (machine (BucketPolicy.limiter nanosecond) ⟨2, 0, 0⟩).Run Machine.anyStep
    [.allocatePacketConn true, .allocatePacketConn true, .allocatePacketConn true, .readFrom 0 100 0,
      .enterClose 1, .askOwn 0, .closeSocket 1, .askGlobal 0, .release 1, .allocatePacketConn true] q ∧
    q.Reports ⟨2, 0, 0⟩ := by
  obtain ⟨q, hq⟩ : ∃ q, (machine (BucketPolicy.limiter nanosecond) ⟨2, 0, 0⟩).exec
      [.allocatePacketConn true, .allocatePacketConn true, .allocatePacketConn true, .readFrom 0 100 0,
        .enterClose 1, .askOwn 0, .closeSocket 1, .askGlobal 0, .release 1, .allocatePacketConn true]
      (machine _ ⟨2, 0, 0⟩).init = some q :=
    ⟨_, rfl⟩
  have run := Machine.run_of_exec hq
  exact ⟨q, run, quota_run run⟩

/-- A burst, and a byte a nanosecond before the rate gives it, which does not wait. -/
theorem policed_run_two : ∃ q, (machine (BucketPolicy.limiter nanosecond) ⟨1, 0, 3⟩).Run Timely
    [.allocatePacketConn true, .readFrom 0 65536 0, .readFrom 0 1 (333333333 / 1000000000), .askOwn 0, .askOwn 1,
      .askGlobal 0, .askGlobal 1] q ∧
    granted q.admitted 0 (333333333 / 1000000000) = 65537 ∧
    granted q.admitted 0 (333333333 / 1000000000) ≤ 65536 + 3 * (333333333 / 1000000000 - 0 + nanosecond) := by
  obtain ⟨q, hq, hgranted⟩ : ∃ q, (machine (BucketPolicy.limiter nanosecond) ⟨1, 0, 3⟩).exec
      [.allocatePacketConn true, .readFrom 0 65536 0, .readFrom 0 1 (333333333 / 1000000000), .askOwn 0,
        .askOwn 1, .askGlobal 0, .askGlobal 1] (machine _ ⟨1, 0, 3⟩).init = some q ∧
      granted q.admitted 0 (333333333 / 1000000000) = 65537 :=
    ⟨_, rfl, by decide +kernel⟩
  have sound (q : RelayQuota (BucketPolicy.limiter nanosecond)) (a : QuotaStep)
      (h : decide (Timely q a) = true) : Timely q a :=
    of_decide_eq_true h
  have run : (machine (BucketPolicy.limiter nanosecond) ⟨1, 0, 3⟩).Run Timely _ q :=
    Machine.Run.of_passes sound hq (by decide +kernel)
  have hwindow := (policed_run (BucketPolicy.isTokenBucket_limiter Limiter.nanosecond_nonneg) run (by decide)).1 0
    (333333333 / 1000000000) (by norm_num)
  exact ⟨q, run, hgranted, by simpa using hwindow⟩

end RelayQuota

end CrossTransfer.Turn
