import CrossTransfer.Api.SessionEffects

/-! # Claim attempts

`StartClaim` queues a receive, `PumpClaims` sends its claim, with the resume token if there is one
that has not been tried, and `OnClaimResult` falls back to the code when the token is rejected.

An attempt is what a receive asks the server from one `StartClaim` to the next. `Tracked` counts
the requests before the current attempt; `Phase` lists how far an attempt can be. The bound "once
with the token, then once with the code" fails when the server rejects the code as well, because
`tried_token` is still set then, and when a result is given to another receive while the one it
answers is in the queue a second time.
-/

namespace CrossTransfer.Api

open CrossTransfer.Library
open CrossTransfer.Transfer

namespace Core

/-- The receive of the newest claim request; only that one can be in flight. -/
def claimOwner (c : Core) : Option Bytes := c.claimRequests.getLast?.map Prod.fst

/-- What the claim requests of a receive carried, oldest first. -/
def requestsFor (c : Core) (id : Bytes) : List ClaimKey :=
  c.claimRequests.filterMap fun q => if q.1 = id then some q.2 else none

/-- The event calls `StartClaim` for a receive. -/
def startsClaim (c : Core) (e : Event) (id : Bytes) : Bool :=
  match e with
  | .receiveStart id' _ _ => id' == id
  | .receiveResume id' => id' == id && (c.receives[id]?).any fun r => !(r.active || r.keysOf)
  | _ => false

/-- A core, and how many claim requests each receive had made when its attempt began. -/
structure Tracked where
  core : Core
  marks : Bytes → Nat

def Tracked.attempt (t : Tracked) (id : Bytes) : List ClaimKey :=
  (t.core.requestsFor id).drop (t.marks id)

def tracked (stored : List Receive) (peer : Bool) : Machine Tracked (CoreIo × Event) where
  init := ⟨(machine stored peer).init, fun _ => 0⟩
  step t a := some
    ⟨t.core.handle a.1 a.2, fun id =>
      if t.core.startsClaim a.2 id then (t.core.requestsFor id).length else t.marks id⟩

/-! ## How far an attempt can be -/

/-- The requests of an attempt of a claiming receive; `queued` says that the queue can send the
    receive again. -/
inductive Phase (queued : Prop) (r : Receive) : List ClaimKey → Prop where
  | start (untried : r.triedToken = false) : Phase queued r []
  /-- Once the token is cleared, the code is next. -/
  | token (tried : r.triedToken = true) (waits : r.resumeToken ≠ [] → ¬ queued) :
      Phase queued r [.token]
  | code {ks : List ClaimKey} (asked : ks = [.code] ∨ ks = [.token, .code])
      (cleared : r.resumeToken = []) (waits : ¬ queued) : Phase queued r ks

structure Attempt (c : Core) (id : Bytes) (mark : Nat) (queued : Prop) : Prop where
  marked : mark ≤ (c.requestsFor id).length
  bounded : ((c.requestsFor id).drop mark).Sublist [.token, .code]
  active : ∀ r, c.receives[id]? = some r → r.state = .claiming → r.active = true
  phase : ∀ r, c.receives[id]? = some r → r.state = .claiming →
    Phase queued r ((c.requestsFor id).drop mark)

/-- The receive is in the queue and its own request is not in flight. -/
def Resendable (c : Core) (id : Bytes) : Prop :=
  id ∈ c.claimQueue ∧ (c.claimInflight = true → c.claimOwner ≠ some id)

variable {io : CoreIo} {c c' : Core} {id : Bytes} {mark : Nat} {queued queued' : Prop}

theorem Phase.mono {r : Receive} {ks : List ClaimKey} (h : Phase queued r ks)
    (less : queued' → queued) : Phase queued' r ks := by
  cases h with
  | start untried => exact .start untried
  | token tried waits => exact .token tried fun hne hq => waits hne (less hq)
  | code asked cleared waits => exact .code asked cleared fun hq => waits (less hq)

theorem Phase.record {r r' : Receive} {ks : List ClaimKey} (h : Phase queued r ks)
    (htried : r'.triedToken = r.triedToken) (htoken : r'.resumeToken = r.resumeToken) :
    Phase queued r' ks := by
  cases h with
  | start untried => exact .start (htried.trans untried)
  | token tried waits => exact .token (htried.trans tried) fun hne => waits (htoken ▸ hne)
  | code asked cleared waits => exact .code asked (htoken.trans cleared) waits

theorem Attempt.mono (h : Attempt c id mark queued) (less : queued' → queued) :
    Attempt c id mark queued' :=
  { h with phase := fun r hr hclaiming => (h.phase r hr hclaiming).mono less }

/-- A receive that does not claim is in no phase. -/
theorem Attempt.idle (hmarked : mark ≤ (c.requestsFor id).length)
    (hbounded : ((c.requestsFor id).drop mark).Sublist [.token, .code])
    (none : ∀ r, c.receives[id]? = some r → r.state ≠ .claiming) : Attempt c id mark queued where
  marked := hmarked
  bounded := hbounded
  active r hr hclaiming := absurd hclaiming (none r hr)
  phase r hr hclaiming := absurd hclaiming (none r hr)

/-- Neither the receive nor its requests change. -/
theorem Attempt.same (h : Attempt c id mark queued) (hreqs : c'.requestsFor id = c.requestsFor id)
    (hreceive : c'.receives[id]? = c.receives[id]?) (less : queued' → queued) :
    Attempt c' id mark queued' where
  marked := hreqs ▸ h.marked
  bounded := hreqs ▸ h.bounded
  active r hr := h.active r (hreceive ▸ hr)
  phase r hr hclaiming := hreqs ▸ (h.phase r (hreceive ▸ hr) hclaiming).mono less

theorem requestsFor_of_quiet (quiet : ClaimsQuiet c c') (id : Bytes) :
    c'.requestsFor id = c.requestsFor id := by
  unfold requestsFor
  rw [quiet.requests]

theorem resendable_of_quiet (quiet : ClaimsQuiet c c') (h : c'.Resendable id) : c.Resendable id := by
  unfold Resendable claimOwner at *
  rw [quiet.queue, quiet.inflight, quiet.requests] at h
  exact h

theorem Attempt.of_quiet (h : Attempt c id mark queued) (quiet : ClaimsQuiet c c')
    (less : queued' → queued) : Attempt c' id mark queued' where
  marked := requestsFor_of_quiet quiet id ▸ h.marked
  bounded := requestsFor_of_quiet quiet id ▸ h.bounded
  active r' hr' hclaiming := by
    obtain ⟨r, hr, hsame⟩ := quiet.receives id r' hr'
    have hsame := hsame hclaiming
    rw [hsame] at hclaiming ⊢
    exact h.active r hr hclaiming
  phase r' hr' hclaiming := by
    obtain ⟨r, hr, hsame⟩ := quiet.receives id r' hr'
    have hsame := hsame hclaiming
    have hphase := h.phase r hr (by rw [hsame] at hclaiming; exact hclaiming)
    rw [requestsFor_of_quiet quiet]
    exact (hphase.mono less).record (by rw [hsame]) (by rw [hsame])

/-! ## Sending -/

/-- A request for another receive. -/
theorem requestsFor_call_ne {other : Bytes} (hne : other ≠ id) (code token : Bytes) :
    (c.call (.claim other code token)).requestsFor id = c.requestsFor id := by
  simp [requestsFor, claimRequests, call, PeerCall.claims, hne]

theorem requestsFor_call_self (code token : Bytes) :
    (c.call (.claim id code token)).requestsFor id =
      c.requestsFor id ++ [if token.isEmpty then .code else .token] := by
  simp [requestsFor, claimRequests, call, PeerCall.claims]

theorem claimOwner_call (code token : Bytes) :
    (c.call (.claim id code token)).claimOwner = some id := by
  simp [claimOwner, claimRequests, call, PeerCall.claims]

/-- The receive as `PumpClaims` leaves it when it sends. -/
def sentReceive (r : Receive) : Receive :=
  if !r.resumeToken.isEmpty && !r.triedToken then { r with triedToken := true } else r

/-- The request `PumpClaims` sends. -/
def claimCall (id : Bytes) (r : Receive) : PeerCall :=
  if !r.resumeToken.isEmpty && !r.triedToken then .claim id [] r.resumeToken else .claim id r.code []

theorem pumpClaimQueue_cons (id : Bytes) (rest : List Bytes) (c : Core) :
    pumpClaimQueue io (id :: rest) c =
      match c.receives[id]? with
      | none => pumpClaimQueue io rest c
      | some r =>
        if r.state ≠ .claiming then pumpClaimQueue io rest c
        else if io.claimOk id then
          { c.setReceive id (sentReceive r) with claimQueue := rest, claimInflight := true }.call
            (claimCall id r)
        else pumpClaimQueue io rest ((c.setReceive id (sentReceive r)).finishReceive io id .failed
          (ascii "claim") (ascii "claim send failed")) := by
  rw [pumpClaimQueue]
  cases c.receives[id]? with
  | none => rfl
  | some r =>
    cases hsend : !r.resumeToken.isEmpty && !r.triedToken with
    | false => simp only [sentReceive, claimCall, hsend, Bool.false_eq_true, ↓reduceIte]
    | true => simp only [sentReceive, claimCall, hsend, ↓reduceIte]

/-- One more request takes an attempt that the queue can send to its next phase. -/
theorem Phase.send {r : Receive} {ks : List ClaimKey} (h : Phase True r ks) :
    Phase False (sentReceive r)
      (ks ++ [if !r.resumeToken.isEmpty && !r.triedToken then .token else .code]) := by
  cases h with
  | start untried =>
    by_cases htoken : r.resumeToken = []
    · have hsent : sentReceive r = r := by simp [sentReceive, htoken]
      simp only [htoken, hsent, List.isEmpty_nil, Bool.not_true, Bool.false_and, Bool.false_eq_true,
        ↓reduceIte, List.nil_append]
      exact .code (.inl rfl) htoken id
    · have hsent : (!r.resumeToken.isEmpty && !r.triedToken) = true := by simp [htoken, untried]
      simp only [sentReceive, hsent, ↓reduceIte, List.nil_append]
      exact .token rfl fun _ => id
  | token tried waits =>
    have htoken : r.resumeToken = [] := by
      by_contra hne
      exact waits hne trivial
    have hsent : sentReceive r = r := by simp [sentReceive, htoken]
    simp only [htoken, hsent, List.isEmpty_nil, Bool.not_true, Bool.false_and, Bool.false_eq_true,
      ↓reduceIte]
    exact .code (.inr rfl) htoken id
  | code asked cleared waits => exact absurd trivial waits

theorem Phase.bounded {r : Receive} {ks : List ClaimKey} (h : Phase queued r ks) :
    ks.Sublist [.token, .code] := by
  cases h with
  | start => exact List.nil_sublist _
  | token => decide
  | code asked =>
    obtain rfl | rfl := asked
    · decide
    · decide

/-- The receive at the head of the queue is sent. -/
theorem Attempt.send {r : Receive} {rest : List Bytes} (h : Attempt c id mark True)
    (hr : c.receives[id]? = some r) (hclaiming : r.state = .claiming) :
    Attempt ({ c.setReceive id (sentReceive r) with claimQueue := rest, claimInflight := true }.call
      (claimCall id r)) id mark False := by
  set sent := { c.setReceive id (sentReceive r) with claimQueue := rest, claimInflight := true }
  have hreqs : (sent.call (claimCall id r)).requestsFor id = c.requestsFor id ++
      [if !r.resumeToken.isEmpty && !r.triedToken then .token else .code] := by
    unfold claimCall
    split
    · rename_i htoken
      simp only [Bool.and_eq_true, Bool.not_eq_true'] at htoken
      rw [requestsFor_call_self, htoken.1]
      rfl
    · rw [requestsFor_call_self]
      rfl
  have hphase := (h.phase r hr hclaiming).send
  have hdrop : ((sent.call (claimCall id r)).requestsFor id).drop mark =
      (c.requestsFor id).drop mark ++
        [if !r.resumeToken.isEmpty && !r.triedToken then .token else .code] := by
    rw [hreqs, List.drop_append_of_le_length h.marked]
  have hreceive : (sent.call (claimCall id r)).receives[id]? = some (sentReceive r) := by
    simp [sent, call, setReceive]
  refine ⟨?_, ?_, fun q hq _ => ?_, fun q hq _ => ?_⟩
  · rw [hreqs, List.length_append]
    exact Nat.le_add_right_of_le h.marked
  · rw [hdrop]
    exact hphase.bounded
  · obtain rfl := Option.some.inj (hreceive.symm.trans hq)
    have hactive := h.active r hr hclaiming
    unfold sentReceive
    split <;> exact hactive
  · obtain rfl := Option.some.inj (hreceive.symm.trans hq)
    rw [hdrop]
    exact hphase

theorem not_claiming_finishReceive (c : Core) (state : Share.TransferState) (code message : Bytes)
    {r : Receive} (hr : (c.finishReceive io id state code message).receives[id]? = some r) :
    r.state ≠ .claiming := by
  have hsaved : (c.finishReceive io id state code message).receives =
      c.receives.modify id fun r => { r with
        state := .transfer state, errorCode := code, errorMessage := message, active := false } := by
    unfold finishReceive saveReceives
    split <;> rfl
  rw [hsaved, OrderedMap.get_modify, if_pos rfl] at hr
  obtain ⟨r, -, rfl⟩ := Option.map_eq_some_iff.mp hr
  exact fun h => by cases h

/-- A receive that is given up. -/
theorem Attempt.finish (h : Attempt c id mark queued) (other : Bytes) (state : Share.TransferState)
    (code message : Bytes) : Attempt (c.finishReceive io other state code message) id mark queued :=
  h.of_quiet (quiet_finishReceive ..).claimSide fun hq => hq

theorem attempt_pumpClaimQueue (queue : List Bytes) (c : Core)
    (h : Attempt c id mark (id ∈ queue)) :
    Attempt (pumpClaimQueue io queue c) id mark (Resendable (pumpClaimQueue io queue c) id) := by
  induction queue generalizing c with
  | nil => exact h.same rfl rfl fun hres => hres.1
  | cons other rest ih =>
    have hrest : Attempt c id mark (id ∈ rest) := h.mono (List.mem_cons_of_mem other)
    rw [pumpClaimQueue_cons]
    split
    · exact ih c hrest
    · rename_i r hr
      split
      · exact ih c hrest
      · rename_i hclaiming
        rw [not_not] at hclaiming
        by_cases heq : other = id
        · subst heq
          split
          · refine ((h.mono fun _ => List.mem_cons_self).send hr hclaiming).mono fun hres => ?_
            refine hres.2 rfl ?_
            unfold claimCall
            split <;> exact claimOwner_call ..
          · -- The request could not be sent, and the receive has failed.
            apply ih
            refine Attempt.idle ?_ ?_ fun q hq => not_claiming_finishReceive _ _ _ _ hq
            all_goals rw [requestsFor_of_quiet (quiet_finishReceive io _ ..).claimSide]
            · exact h.marked
            · exact h.bounded
        · have hset : Attempt (c.setReceive other (sentReceive r)) id mark (id ∈ rest) := by
            refine hrest.same rfl ?_ fun hq => hq
            simp [setReceive, Ne.symm heq]
          split
          · refine hset.same ?_ rfl fun hres => hres.1
            unfold claimCall
            split <;> exact requestsFor_call_ne heq ..
          · exact ih _ (hset.finish ..)

theorem Attempt.pump (h : Attempt c id mark (c.Resendable id)) :
    Attempt (c.pumpClaims io) id mark ((c.pumpClaims io).Resendable id) := by
  unfold pumpClaims
  split
  · exact h
  · rename_i hidle
    simp only [Bool.or_eq_true, not_or, Bool.not_eq_true] at hidle
    refine attempt_pumpClaimQueue _ c (h.mono fun hmem => ⟨hmem, fun hinflight => ?_⟩)
    rw [hidle.1] at hinflight
    cases hinflight

/-- The queue loses entries, or gets some of other receives. -/
theorem Attempt.requeue (h : Attempt c id mark (c.Resendable id)) {queue : List Bytes}
    (hqueue : id ∈ queue → id ∈ c.claimQueue) : Attempt { c with claimQueue := queue } id mark
      (Resendable { c with claimQueue := queue } id) :=
  h.same rfl rfl fun hres => ⟨hqueue hres.1, hres.2⟩

theorem Attempt.setReceive (h : Attempt c id mark (c.Resendable id)) {other : Bytes}
    (hne : other ≠ id) (r : Receive) : Attempt (c.setReceive other r) id mark
      ((c.setReceive other r).Resendable id) := by
  refine h.same rfl ?_ fun hres => hres
  simp [Core.setReceive, Ne.symm hne]

/-! ## Starting an attempt -/

/-- `StartClaim` begins an attempt without requests. -/
theorem attempt_startClaim (c : Core) (id : Bytes) :
    Attempt (c.startClaim io id) id (c.requestsFor id).length
      ((c.startClaim io id).Resendable id) := by
  unfold startClaim
  simp only
  set started := { c with receives := c.receives.modify id fun r =>
    { r with active := true, triedToken := false } } with hstarted
  have hstart : ∀ queued, Attempt started id (c.requestsFor id).length queued := by
    intro queued
    have hdrop : (started.requestsFor id).drop (c.requestsFor id).length = [] := List.drop_length
    refine ⟨le_refl _, by rw [hdrop]; exact List.nil_sublist _, fun r hr _ => ?_, fun r hr _ => ?_⟩
    all_goals
      rw [hstarted, OrderedMap.get_modify, if_pos rfl] at hr
      obtain ⟨r, -, rfl⟩ := Option.map_eq_some_iff.mp hr
    · rfl
    · rw [hdrop]
      exact .start rfl
  split
  · exact (hstart _).finish ..
  · rename_i c' hpeer
    apply Attempt.pump
    exact ((hstart _).of_quiet (quiet_ensurePeer io hpeer).claimSide fun hq => hq).same rfl rfl
      fun hq => hq

/-- `StartClaim` of another receive. -/
theorem Attempt.startClaim (h : Attempt c id mark (c.Resendable id)) {other : Bytes}
    (hne : other ≠ id) : Attempt (c.startClaim io other) id mark
      ((c.startClaim io other).Resendable id) := by
  unfold Core.startClaim
  simp only
  set started := { c with receives := c.receives.modify other fun r =>
    { r with active := true, triedToken := false } } with hstarted
  have hstart : Attempt started id mark (started.Resendable id) := by
    refine h.same rfl ?_ fun hres => hres
    rw [hstarted, OrderedMap.get_modify, if_neg (Ne.symm hne)]
  split
  · exact hstart.of_quiet (quiet_finishReceive io _ ..).claimSide
      (resendable_of_quiet (quiet_finishReceive io _ ..).claimSide)
  · rename_i c' hpeer
    have quiet := (quiet_ensurePeer io hpeer).claimSide
    refine ((hstart.of_quiet quiet (resendable_of_quiet quiet)).requeue fun hmem => ?_).pump
    obtain hmem | hmem := List.mem_append.mp hmem
    · exact hmem
    · exact absurd (List.mem_singleton.mp hmem) (Ne.symm hne)

theorem Attempt.receiveStart (h : Attempt c id mark (c.Resendable id)) {other : Bytes}
    (hne : other ≠ id) (code dir : Bytes) : Attempt (c.receiveStart io other code dir) id mark
      ((c.receiveStart io other code dir).Resendable id) := by
  unfold Core.receiveStart
  simp only
  split
  · rename_i tid r _
    refine Attempt.startClaim ?_ hne
    by_cases htid : id = tid
    · -- The record of this receive is taken over.
      refine Attempt.idle h.marked h.bounded fun q hq => ?_
      simp [htid, htid ▸ Ne.symm hne] at hq
    · refine h.same rfl ?_ fun hres => hres
      simp [htid, Ne.symm hne]
  · exact (h.setReceive hne _).startClaim hne

theorem Attempt.receiveResume (h : Attempt c id mark (c.Resendable id)) {other : Bytes}
    (hstart : c.startsClaim (.receiveResume other) id = false) :
    Attempt (c.receiveResume io other) id mark ((c.receiveResume io other).Resendable id) := by
  unfold Core.receiveResume
  split
  · exact h
  · rename_i r hr
    split
    · exact h
    · rename_i hrunning
      have hne : other ≠ id := by
        rintro rfl
        simp only [startsClaim, hr, beq_self_eq_true, Option.any_some, Bool.true_and] at hstart
        simp only [Bool.not_eq_eq_eq_not, Bool.not_false] at hstart
        exact hrunning hstart
      exact (h.setReceive hne _).startClaim hne

/-! ## Results, cancellation and the loss of the connection -/

/-- The results that make `OnClaimResult` fall back to the code. -/
def ClaimResult.rejectsToken (res : ClaimResult) : Bool := res == .codeNotFound || res == .shareBusy

/-- A rejection is not given to a receive that has already fallen back to its code, and a result is
    not given to another receive while the one it answers still claims and is queued again. -/
def claimsAnswered (c : Core) (a : CoreIo × Event) : Prop :=
  match a.2 with
  | .claimResult res _ _ _ =>
    ∀ id r, OrderedMap.leastKey c.receives claims (·.createdAt) = some id →
      c.receives[id]? = some r →
      (res.rejectsToken = true → ¬ (r.triedToken = true ∧ r.resumeToken = [])) ∧
      ∀ owner q, c.claimOwner = some owner → owner ≠ id → c.receives[owner]? = some q →
        q.state = .claiming → owner ∉ c.claimQueue
  | _ => True

/-- The receive that a result is given to. -/
theorem Attempt.claimed {c : Core} (h : Attempt c id mark queued) {res : ClaimResult}
    (hreject : ∀ r, c.receives[id]? = some r → res.rejectsToken = true →
      ¬ (r.triedToken = true ∧ r.resumeToken = []))
    (hclaims : ∀ r, c.receives[id]? = some r → r.state = .claiming)
    (sessionId token message : Bytes) :
    Attempt (c.claimed io id res sessionId token message) id mark True := by
  unfold Core.claimed
  cases hr : c.receives[id]? with
  | none => exact Attempt.idle h.marked h.bounded fun q hq => by rw [hr] at hq; cases hq
  | some r =>
    simp only
    split
    · have hset : Attempt (c.setReceive id { r with
          sessionId := sessionId
          resumeToken := if token.isEmpty then r.resumeToken else token
          state := .transfer .connecting }) id mark True := by
        refine Attempt.idle h.marked h.bounded fun q hq => ?_
        rw [Core.setReceive, OrderedMap.get_insert, if_pos rfl] at hq
        cases hq
        exact fun hstate => by cases hstate
      exact hset.of_quiet (quiet_saveReceives ..).claimSide fun hq => hq
    · split
      · rename_i hfallback
        simp only [Bool.and_eq_true] at hfallback
        have hphase := h.phase r hr (hclaims r hr)
        have htoken : r.resumeToken ≠ [] := fun hnil =>
          hreject r hr hfallback.2 ⟨hfallback.1, hnil⟩
        refine ⟨h.marked, h.bounded, fun q hq _ => ?_, fun q hq _ => ?_⟩
        all_goals
          simp only [Core.setReceive, OrderedMap.get_insert, ↓reduceIte, Option.some.injEq] at hq
          subst hq
        · exact h.active r hr (hclaims r hr)
        · show Phase True { r with resumeToken := [] } ((c.requestsFor id).drop mark)
          cases hks : (c.requestsFor id).drop mark with
          | nil =>
            rw [hks] at hphase
            cases hphase with
            | start untried => rw [untried] at hfallback; cases hfallback.1
            | code _ cleared => exact absurd cleared htoken
          | cons k ks =>
            rw [hks] at hphase
            cases hphase with
            | token tried => exact .token tried fun hne => absurd rfl hne
            | code _ cleared => exact absurd cleared htoken
      · refine Attempt.idle ?_ ?_ fun q hq => not_claiming_finishReceive _ _ _ _ hq
        all_goals rw [requestsFor_of_quiet (quiet_finishReceive io _ ..).claimSide]
        · exact h.marked
        · exact h.bounded

/-- The receives that a result is not given to. -/
theorem Attempt.claimed_other {c : Core} (h : Attempt c id mark (id ∈ c.claimQueue)) {other : Bytes}
    (hne : other ≠ id) (res : ClaimResult) (sessionId token message : Bytes) :
    Attempt (c.claimed io other res sessionId token message) id mark
      (id ∈ (c.claimed io other res sessionId token message).claimQueue) := by
  unfold Core.claimed
  split
  · exact h
  · split
    · have hset : ∀ r, Attempt (c.setReceive other r) id mark (id ∈ c.claimQueue) := fun r => by
        refine h.same rfl ?_ fun hq => hq
        simp [Core.setReceive, Ne.symm hne]
      refine (hset _).of_quiet (quiet_saveReceives io _).claimSide fun hq => ?_
      rw [(quiet_saveReceives io _).claimSide.queue] at hq
      exact hq
    · split
      · refine h.same rfl ?_ fun hq => (List.mem_cons.mp hq).resolve_left (Ne.symm hne)
        simp [Core.setReceive, Ne.symm hne]
      · refine h.of_quiet (quiet_finishReceive io c ..).claimSide fun hq => ?_
        rw [(quiet_finishReceive io c ..).claimSide.queue] at hq
        exact hq

theorem Attempt.claimResult (h : Attempt c id mark (c.Resendable id)) {res : ClaimResult}
    {sessionId token message : Bytes}
    (hok : claimsAnswered c (io, .claimResult res sessionId token message)) :
    Attempt (c.onClaimResult io res sessionId token message) id mark
      ((c.onClaimResult io res sessionId token message).Resendable id) := by
  unfold onClaimResult
  simp only
  split
  · -- No receive claims.
    rename_i hnone
    refine Attempt.pump (Attempt.idle h.marked h.bounded fun r hr hclaiming => ?_)
    have hactive := h.active r hr hclaiming
    have hsome := OrderedMap.leastKey_eq_none_iff.mp hnone id r hr
    simp [claims, hclaiming, hactive] at hsome
  · rename_i first hfirst
    obtain ⟨r, hr, hclaims⟩ := OrderedMap.of_leastKey hfirst
    simp only [claims, Bool.and_eq_true, beq_iff_eq] at hclaims
    obtain ⟨hreject, hqueued⟩ := hok first r hfirst hr
    by_cases heq : first = id
    · subst heq
      have hcleared : Attempt { c with claimInflight := false } first mark (c.Resendable first) :=
        h.same rfl rfl fun hq => hq
      refine ((hcleared.claimed (fun q hq => ?_) (fun q hq => ?_) ..).mono fun _ => trivial).pump
      · obtain rfl := Option.some.inj (hr.symm.trans hq)
        exact hreject
      · obtain rfl := Option.some.inj (hr.symm.trans hq)
        exact hclaims.1
    · -- Its own request, if it is the one that is answered, is not queued a second time.
      have hcleared : Attempt { c with claimInflight := false } id mark (id ∈ c.claimQueue) := by
        refine ⟨h.marked, h.bounded, h.active, fun q hq hclaiming => ?_⟩
        refine (h.phase q hq hclaiming).mono fun hmem => ⟨hmem, fun _ howner => ?_⟩
        exact hqueued id q howner (Ne.symm heq) hq hclaiming hmem
      exact ((hcleared.claimed_other heq ..).mono fun hres => hres.1).pump

theorem Attempt.transferCancel (h : Attempt c id mark (c.Resendable id)) (other : Bytes) :
    Attempt (c.transferCancel io other) id mark ((c.transferCancel io other).Resendable id) := by
  unfold Core.transferCancel
  split
  · exact h.of_quiet (quiet_cancelSession ..).claimSide
      (resendable_of_quiet (quiet_cancelSession ..).claimSide)
  · split
    · exact h
    · rename_i r hr
      by_cases heq : other = id
      · subst heq
        refine Attempt.idle ?_ ?_ fun q hq => not_claiming_finishReceive _ _ _ _ hq
        all_goals rw [requestsFor_of_quiet (quiet_finishReceive io _ ..).claimSide]
        · exact h.marked
        · exact h.bounded
      · have hfilter : id ∈ c.claimQueue.filter (· ≠ other) → id ∈ c.claimQueue :=
          fun hmem => (List.mem_filter.mp hmem).1
        have hqueue := (h.setReceive heq { r with record := none }).requeue hfilter
        exact hqueue.of_quiet (quiet_finishReceive io _ ..).claimSide
          (resendable_of_quiet (quiet_finishReceive io _ ..).claimSide)

/-- The loss of the connection ends every claim. -/
theorem not_claiming_loseReceives (ids : List Bytes) (c : Core)
    (h : ∀ id r, c.receives[id]? = some r → r.state = .claiming → id ∈ ids) (id : Bytes) (r : Receive)
    (hr : (ids.foldl (fun c id => c.loseReceive io id) c).receives[id]? = some r) :
    r.state ≠ .claiming := by
  induction ids generalizing c with
  | nil => exact fun hclaiming => absurd (h id r hr hclaiming) (by simp)
  | cons first ids ih =>
    refine ih _ (fun id q hq hclaiming => ?_) hr
    obtain ⟨p, hp, hsame⟩ := (quiet_loseReceive io c first).claimSide.receives id q hq
    have hp' : p.state = .claiming := by rw [hsame hclaiming] at hclaiming; exact hclaiming
    obtain rfl | hmem := List.mem_cons.mp (h id p hp hp')
    · simp only [loseReceive, hp, hp', true_or, ↓reduceIte] at hq
      exact absurd hclaiming (not_claiming_finishReceive _ _ _ _ hq)
    · exact hmem

theorem Attempt.signal (h : Attempt c id mark (c.Resendable id)) (connected : Bool) :
    Attempt (c.onSignal io connected) id mark ((c.onSignal io connected).Resendable id) := by
  have hset : Attempt { c with signalConnected := connected } id mark
      (Resendable { c with signalConnected := connected } id) := h.same rfl rfl fun hres => hres
  unfold onSignal
  simp only
  split
  · have quiet := claimsQuiet_pumpShareCreates io { c with signalConnected := connected }
    exact (hset.of_quiet quiet (resendable_of_quiet quiet)).pump
  · split
    · set cleared : Core := { c with
        signalConnected := connected
        shareCreateInflight := false
        claimInflight := false }
      set lost := c.shares.keys.foldl (fun (c : Core) id => c.loseShare io id) cleared
      have quiet : ClaimsQuiet cleared (lost.receives.keys.foldl (fun c id => c.loseReceive io id) lost) :=
        ((quiet_foldl _ (fun c id => quiet_loseShare io c id) c.shares.keys cleared).trans
          (quiet_foldl _ (fun c id => quiet_loseReceive io c id) lost.receives.keys lost)).claimSide
      refine Attempt.idle ?_ ?_ fun r hr => not_claiming_loseReceives _ lost (fun id q hq _ => ?_) id r hr
      · rw [requestsFor_of_quiet quiet]
        exact h.marked
      · rw [requestsFor_of_quiet quiet]
        exact h.bounded
      · exact Std.ExtTreeMap.mem_keys.mpr (Std.ExtTreeMap.mem_iff_isSome_getElem?.mpr (by simp [hq]))
    · exact hset

/-! ## Runs -/

theorem state_of_load {stored : List Receive} {id : Bytes} {r : Receive}
    (hr : (load stored).receives[id]? = some r) : r.state = .interrupted := by
  have hfold : ∀ (rs : List Receive) (m : OrderedMap Bytes Receive),
      (∀ (id : Bytes) r, m[id]? = some r → r.state = .interrupted) →
      ∀ (id : Bytes) r, (rs.foldl (fun m r => m.insert r.transferId (loadReceive r)) m)[id]? = some r →
        r.state = .interrupted := by
    intro rs
    induction rs with
    | nil => exact fun m hm => hm
    | cons r' rs ih =>
      intro m hm
      refine ih _ fun id r hr => ?_
      rw [OrderedMap.get_insert] at hr
      split at hr
      · cases hr
        rfl
      · exact hm id r hr
  exact hfold _ ∅ (fun id r h => by simp at h) id r hr

theorem attempt_init (stored : List Receive) (peer : Bool) (id : Bytes) :
    Attempt (machine stored peer).init id 0 queued := by
  refine Attempt.idle (Nat.zero_le _) ?_ fun r hr => ?_
  · exact List.nil_sublist _
  · have hstate : r.state = .interrupted := state_of_load hr
    rw [hstate]
    exact fun h => by cases h

theorem Attempt.step (h : Attempt c id mark (c.Resendable id)) {e : Event}
    (hok : claimsAnswered c (io, e)) (hstart : c.startsClaim e id = false) :
    Attempt (c.handle io e) id mark ((c.handle io e).Resendable id) := by
  cases hclaims : e.onClaims with
  | false =>
    have quiet := claimsQuiet_handle io c e hclaims
    exact h.of_quiet quiet (resendable_of_quiet quiet)
  | true =>
    cases e with
    | receiveStart other code dir => exact h.receiveStart (by simpa [startsClaim] using hstart) code dir
    | receiveResume other => exact h.receiveResume hstart
    | transferCancel other => exact h.transferCancel other
    | signal connected => exact h.signal connected
    | claimResult => exact h.claimResult hok
    | _ => cases hclaims

/-- An event that calls `StartClaim` begins an attempt. -/
theorem attempt_of_startsClaim {e : Event} (hstart : c.startsClaim e id = true) :
    Attempt (c.handle io e) id (c.requestsFor id).length ((c.handle io e).Resendable id) := by
  cases e with
  | receiveStart other code dir =>
    obtain rfl : other = id := by simpa [startsClaim] using hstart
    simp only [handle, receiveStart]
    split
    · exact attempt_startClaim { c with receives := _ } other
    · exact attempt_startClaim (c.setReceive other _) other
  | receiveResume other =>
    simp only [startsClaim, Bool.and_eq_true, beq_iff_eq, Option.any_eq_true] at hstart
    obtain ⟨rfl, r, hr, hidle⟩ := hstart
    simp only [handle, receiveResume, hr]
    rw [Bool.not_eq_true'] at hidle
    rw [hidle]
    exact attempt_startClaim (c.setReceive other _) other
  | _ => cases hstart

theorem claimAttempt_bounded_run {stored : List Receive} {peer : Bool}
    {as : List (CoreIo × Event)} {t : Tracked}
    (run : (tracked stored peer).Run (fun t a => claimsAnswered t.core a) as t) (id : Bytes) :
    (t.attempt id).Sublist [.token, .code] := by
  have attempt : Attempt t.core id (t.marks id) (t.core.Resendable id) := by
    refine run.invariant (fun t => Attempt t.core id (t.marks id) (t.core.Resendable id))
      (attempt_init stored peer id) fun t a t' h hok hstep => ?_
    obtain rfl := Option.some.inj hstep
    cases hstart : t.core.startsClaim a.2 id with
    | false =>
      simp only [hstart, Bool.false_eq_true, ↓reduceIte]
      exact h.step hok hstart
    | true =>
      simp only [hstart, ↓reduceIte]
      exact attempt_of_startsClaim hstart
  exact attempt.bounded

/-- An interrupted receive that has a resume token. -/
def interruptedReceive : Receive where
  transferId := ascii "rx_1"
  code := ascii "0123456789"
  saveDir := ascii "save"
  resumeToken := ascii "t"

/-- The receive is resumed: the claim carries the token. -/
def resumedClaimRun : List (CoreIo × Event) :=
  [(.steady, .signal true), (.steady, .receiveResume (ascii "rx_1"))]

/-- The server knows neither token nor code. -/
def codeNotFound : CoreIo × Event := (.steady, .claimResult .codeNotFound [] [] [])

theorem exec_resumedClaimRun :
    ((tracked [interruptedReceive] true).exec resumedClaimRun
      (tracked [interruptedReceive] true).init).map (fun t =>
        (OrderedMap.leastKey t.core.receives claims (·.createdAt), t.core.claimOwner,
          (t.core.receives[ascii "rx_1"]?).map (·.resumeToken))) =
    some (some (ascii "rx_1"), some (ascii "rx_1"), some (ascii "t")) := by
  decide +kernel

theorem exec_fallbackRun :
    ((tracked [interruptedReceive] true).exec (resumedClaimRun ++ [codeNotFound])
      (tracked [interruptedReceive] true).init).map (·.attempt (ascii "rx_1")) =
    some [.token, .code] := by
  decide +kernel

theorem claimAttempt_bounded_fallback :
    ∃ t, (tracked [interruptedReceive] true).Run (fun t a => claimsAnswered t.core a)
      (resumedClaimRun ++ [codeNotFound]) t ∧ t.attempt (ascii "rx_1") = [.token, .code] ∧
      (t.attempt (ascii "rx_1")).Sublist [.token, .code] := by
  obtain ⟨mid, hmid, hclaim⟩ := Option.map_eq_some_iff.mp exec_resumedClaimRun
  simp only [Prod.mk.injEq] at hclaim
  obtain ⟨hfirst, howner, htoken⟩ := hclaim
  obtain ⟨t, hexec, hattempt⟩ := Option.map_eq_some_iff.mp exec_fallbackRun
  have before : (tracked [interruptedReceive] true).Run (fun t a => claimsAnswered t.core a)
      resumedClaimRun mid := by
    refine Machine.Run.extend .init (fun a ha t => ?_) hmid
    simp only [List.mem_cons, List.not_mem_nil, or_false] at ha
    obtain rfl | rfl := ha
    · trivial
    · trivial
  have answered : claimsAnswered mid.core codeNotFound := by
    intro id r hid hr
    obtain rfl := Option.some.inj (hfirst.symm.trans hid)
    rw [hr] at htoken
    refine ⟨fun _ hcleared => ?_, fun owner q ho hne => ?_⟩
    · rw [Option.map_some, hcleared.2] at htoken
      cases htoken
    · exact absurd (Option.some.inj (ho.symm.trans howner)) hne
  have hstep : (tracked [interruptedReceive] true).step mid codeNotFound = some t := by
    simpa [Machine.exec_append, hmid, Machine.exec] using hexec
  have run := before.step answered hstep
  exact ⟨t, run, hattempt, claimAttempt_bounded_run run _⟩

theorem exec_rejectedCodeRun :
    ((tracked [interruptedReceive] true).exec (resumedClaimRun ++ [codeNotFound, codeNotFound])
      (tracked [interruptedReceive] true).init).map (fun t =>
        (t.attempt (ascii "rx_1"), (t.core.receives[ascii "rx_1"]?).map (·.state))) =
    some ([.token, .code, .code], some .claiming) := by
  decide +kernel

theorem claimAttempt_bounded_rejectedCode :
    ∃ t, (tracked [interruptedReceive] true).Run Machine.anyStep
      (resumedClaimRun ++ [codeNotFound, codeNotFound]) t ∧
      (t.core.receives[ascii "rx_1"]?).map (·.state) = some .claiming ∧
      ¬ (t.attempt (ascii "rx_1")).Sublist [.token, .code] := by
  obtain ⟨t, hexec, ht⟩ := Option.map_eq_some_iff.mp exec_rejectedCodeRun
  simp only [Prod.mk.injEq] at ht
  refine ⟨t, Machine.run_of_exec hexec, ht.2, ?_⟩
  rw [ht.1]
  decide

end Core

end CrossTransfer.Api
