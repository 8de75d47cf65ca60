import CrossTransfer.Signal.Integrity

/-! # What a step does to shares and sessions

`Effect` lists it once: nothing, a new share, a removal, a peer that leaves, a session that is
resumed or one that starts. A claim that does neither of the last two is refused or, when the hub
is closed, ignored, and then it changes nothing (`onClaim_cases`).
-/

namespace CrossTransfer.Signal

open CrossTransfer.Library
open CrossTransfer.Transfer

namespace Hub

open Tables

/-- The same shares, sessions, tokens and codes. -/
structure SameObjects (t t' : Tables) : Prop where
  shares : t'.shares = t.shares
  sessions : t'.sessions = t.sessions
  liveShares : t'.liveShares = t.liveShares
  liveSessions : t'.liveSessions = t.liveSessions
  tokens : t'.tokens = t.tokens
  codes : t'.codes = t.codes

theorem SameObjects.of_eq {t t' : Tables} (h : t' = t) : SameObjects t t' := by
  subst h
  exact ⟨rfl, rfl, rfl, rfl, rfl, rfl⟩

/-- A claim is answered with an error, perhaps after the failure delay. -/
def Refusal (p : Bytes) (id : Int) (tasks : List Task) : Prop :=
  ∃ code text, tasks = [errorTask p id code text] ∨ tasks = [.sleep, errorTask p id code text]

/-- The hub after `claimAllowed` has looked at its limiters. -/
def limited (opt : Options) (io : HubIo) (h : Hub) (p : Bytes) : Hub :=
  (h.claimAllowed opt io (h.peerIp p)).2

/-- The claim of `sid` by its token succeeds. -/
structure Resumes (opt : Options) (io : HubIo) (h : Hub) (p : Bytes) (m : ClaimMsg) (sid : Bytes)
    (sess : Session) : Prop where
  opened : h.closed = false
  allowed : (h.claimAllowed opt io (h.peerIp p)).1 = true
  byToken : m.resumeToken ≠ []
  token : h.tokens[m.resumeToken]? = some sid
  session : h.sessions[sid]? = some sess
  free : sess.receiver = none
  capacity : (h.peerSessions p).size < opt.maxSessionsPerPeer

/-- The claim of the share `id` by its code succeeds. -/
structure Starts (opt : Options) (io : HubIo) (h : Hub) (p : Bytes) (m : ClaimMsg) (id : Bytes)
    (s : Share) : Prop where
  opened : h.closed = false
  allowed : (h.claimAllowed opt io (h.peerIp p)).1 = true
  byCode : m.resumeToken = []
  found : ∃ e, h.codes.lookup m.code io.now = .ok e ∧ e.id = id
  share : h.share? id = some s
  other : s.owner ≠ p
  capacity : h.sessionsFull opt p s.owner = false

variable {opt : Options} {io : HubIo} {h h' : Hub}

theorem tables_limited (p : Bytes) : (limited opt io h p).toTables = h.toTables :=
  tables_claimAllowed _

theorem limited_eq (p : Bytes) : ∃ perIp, limited opt io h p = { h with perIp := perIp } := by
  unfold limited claimAllowed
  split
  · exact ⟨h.perIp, rfl⟩
  · split
    · exact ⟨h.perIp, rfl⟩
    · exact ⟨_, rfl⟩

/-- What `onClaim` does with a message that could be decoded. -/
inductive ClaimOutcome (opt : Options) (io : HubIo) (h : Hub) (p : Bytes) (id : Int)
    (m : ClaimMsg) : Hub → Prop where
  | ignored (closed : h.closed = true) : ClaimOutcome opt io h p id m h
  | refused (opened : h.closed = false) {tasks : List Task} (refusal : Refusal p id tasks) :
      ClaimOutcome opt io h p id m ((limited opt io h p).next p tasks)
  | resumed {sid : Bytes} {sess : Session} (resumes : Resumes opt io h p m sid sess) :
      ClaimOutcome opt io h p id m ((limited opt io h p).resumeSession p sid id sess)
  | started {shareId : Bytes} {s : Share} (starts : Starts opt io h p m shareId s) :
      ClaimOutcome opt io h p id m ((limited opt io h p).startSession io p id shareId s)

theorem claimToken_cases (p : Bytes) (id : Int) (token : Bytes) :
    (∃ tasks, Refusal p id tasks ∧ h.claimToken opt p id token = h.next p tasks) ∨
    ∃ sid sess, h.tokens[token]? = some sid ∧ h.sessions[sid]? = some sess ∧ sess.receiver = none ∧
      (h.peerSessions p).size < opt.maxSessionsPerPeer ∧
      h.claimToken opt p id token = h.resumeSession p sid id sess := by
  unfold claimToken
  split
  · exact .inl ⟨_, ⟨_, _, .inr rfl⟩, rfl⟩
  · rename_i sid sess hfound
    rw [Option.bind_eq_some_iff] at hfound
    obtain ⟨sid', htoken, hfound⟩ := hfound
    obtain ⟨sess', hsess, heq⟩ := Option.map_eq_some_iff.mp hfound
    obtain ⟨rfl, rfl⟩ := Prod.mk.inj heq
    split
    · exact .inl ⟨_, ⟨_, _, .inr rfl⟩, rfl⟩
    · rename_i hfree
      split
      · exact .inl ⟨_, ⟨_, _, .inl rfl⟩, rfl⟩
      · rename_i hcapacity
        exact .inr ⟨_, _, htoken, hsess, by simpa using hfree, by omega, rfl⟩

theorem claimCode_cases (p : Bytes) (id : Int) (code : Bytes) :
    (∃ tasks, Refusal p id tasks ∧ h.claimCode opt io p id code = h.next p tasks) ∨
    ∃ e s, h.codes.lookup code io.now = .ok e ∧ h.share? e.id = some s ∧ s.owner ≠ p ∧
      h.sessionsFull opt p s.owner = false ∧
      h.claimCode opt io p id code = h.startSession io p id e.id s := by
  unfold claimCode
  split
  · exact .inl ⟨_, ⟨_, _, .inr rfl⟩, rfl⟩
  · exact .inl ⟨_, ⟨_, _, .inr rfl⟩, rfl⟩
  · rename_i e hlookup
    split
    · exact .inl ⟨_, ⟨_, _, .inr rfl⟩, rfl⟩
    · rename_i s hs
      split
      · exact .inl ⟨_, ⟨_, _, .inl rfl⟩, rfl⟩
      · rename_i hother
        split
        · exact .inl ⟨_, ⟨_, _, .inl rfl⟩, rfl⟩
        · rename_i hcapacity
          exact .inr ⟨e, s, hlookup, hs, hother, by simpa using hcapacity, rfl⟩

theorem onClaim_cases (p : Bytes) (id : Int) (m : ClaimMsg) :
    ClaimOutcome opt io h p id m (h.onClaim opt io p id (.ok m)) := by
  have htables : (limited opt io h p).toTables = h.toTables := tables_limited p
  unfold onClaim
  simp only
  split
  · rename_i hclosed
    exact .ignored hclosed
  · rename_i hopen
    rw [Bool.not_eq_true] at hopen
    change ClaimOutcome opt io h p id m (if (!(h.claimAllowed opt io (h.peerIp p)).1) = true then
        (limited opt io h p).next p _
      else if m.resumeToken ≠ [] then (limited opt io h p).claimToken opt p id m.resumeToken
      else (limited opt io h p).claimCode opt io p id m.code)
    split
    · exact .refused hopen ⟨_, _, .inr rfl⟩
    · rename_i hallowed
      split
      · rename_i htoken
        obtain ⟨tasks, hrefusal, heq⟩ | ⟨sid, sess, hfound, hsess, hfree, hcapacity, heq⟩ :=
          @claimToken_cases opt (limited opt io h p) p id m.resumeToken
        · rw [heq]
          exact .refused hopen hrefusal
        · rw [heq]
          rw [htables] at hfound hsess hcapacity
          exact .resumed ⟨hopen, by simpa using hallowed, htoken, hfound, hsess, hfree, hcapacity⟩
      · rename_i hcode
        obtain ⟨tasks, hrefusal, heq⟩ | ⟨e, s, hlookup, hs, hother, hcapacity, heq⟩ :=
          @claimCode_cases opt io (limited opt io h p) p id m.code
        · rw [heq]
          exact .refused hopen hrefusal
        · rw [heq]
          unfold sessionsFull at hcapacity
          rw [htables] at hlookup hs hcapacity
          exact .started ⟨hopen, by simpa using hallowed, by simpa using hcode, ⟨e, hlookup, rfl⟩, hs,
            hother, hcapacity⟩

/-- What holds after each outcome holds after the claim. -/
theorem onClaim_rule {motive : Hub → Prop} {p : Bytes} {id : Int} {m : ClaimMsg}
    (outcome : ∀ h', ClaimOutcome opt io h p id m h' → motive h') :
    motive (h.onClaim opt io p id (.ok m)) :=
  outcome _ (onClaim_cases p id m)

/-- A claim by code whose conditions hold starts a session. -/
theorem Starts.onClaim_eq {p : Bytes} {m : ClaimMsg} {shareId : Bytes} {s : Share}
    (starts : Starts opt io h p m shareId s) (id : Int) :
    h.onClaim opt io p id (.ok m) = (limited opt io h p).startSession io p id shareId s := by
  have htables : (limited opt io h p).toTables = h.toTables := tables_limited p
  obtain ⟨e, hlookup, rfl⟩ := starts.found
  have hcapacity : (limited opt io h p).sessionsFull opt p s.owner = false := by
    have hfull := starts.capacity
    unfold sessionsFull at hfull ⊢
    rw [htables]
    exact hfull
  have hshare : (limited opt io h p).share? e.id = some s := by
    rw [htables]
    exact starts.share
  have hfound : (limited opt io h p).codes.lookup m.code io.now = .ok e := by
    rw [htables]
    exact hlookup
  have hcode : (limited opt io h p).claimCode opt io p id m.code =
      (limited opt io h p).startSession io p id e.id s := by
    simp [claimCode, hfound, hshare, starts.other, hcapacity]
  simpa [onClaim, starts.opened, starts.allowed, starts.byCode, limited] using hcode

/-- And so does a claim by token. -/
theorem Resumes.onClaim_eq {p : Bytes} {m : ClaimMsg} {sid : Bytes} {sess : Session}
    (resumes : Resumes opt io h p m sid sess) (id : Int) :
    h.onClaim opt io p id (.ok m) = (limited opt io h p).resumeSession p sid id sess := by
  have htables : (limited opt io h p).toTables = h.toTables := tables_limited p
  have hfound : (((limited opt io h p).tokens[m.resumeToken]?).bind fun sid =>
      ((limited opt io h p).sessions[sid]?).map (sid, ·)) = some (sid, sess) := by
    rw [htables, resumes.token, Option.bind_some, resumes.session, Option.map_some]
  have hcapacity : ¬ opt.maxSessionsPerPeer ≤ ((limited opt io h p).peerSessions p).size := by
    rw [htables]
    exact not_le.mpr resumes.capacity
  have htoken : (limited opt io h p).claimToken opt p id m.resumeToken =
      (limited opt io h p).resumeSession p sid id sess := by
    simp [claimToken, hfound, resumes.free, hcapacity]
  simpa [onClaim, resumes.opened, resumes.allowed, resumes.byToken, limited] using htoken

/-! ## Every step -/

/-- What a step does to shares and sessions. -/
inductive Effect (opt : Options) (io : HubIo) (h : Hub) : Action → Hub → Prop where
  | quiet {a : Action} {h' : Hub} (same : SameObjects h.toTables h'.toTables) :
      Effect opt io h a h'
  | created {p : Bytes} {req : Option Request} {h' : Hub} {s : Share} {codes : Registry}
      {e : Codes.Entry} (running : h.closed = false) (new : io.shareId ∉ h.shares)
      (empty : s.sessions = ∅) (opened : s.claimed = false)
      (added : h.codes.add io.codeBytes io.shareId s.expiresAt = some (codes, e))
      (code : s.code = e.code) (tables : h'.toTables = { h.toTables with
        codes := codes
        shares := h.shares.insert io.shareId s
        liveShares := h.liveShares.insert io.shareId
        peers := h.peers.modify s.owner (·.addShare io.shareId) }) :
      Effect opt io h (.text p req) h'
  | removed {a : Action} {h' : Hub} {D S : Bytes → Prop}
      (removal : Removal D S h.toTables h'.toTables) : Effect opt io h a h'
  | left {p : Bytes} {h' : Hub} {t : Tables} {D S : Bytes → Prop} {sids : List Bytes}
      (removal : Removal D S { h.toTables with livePeers := h.livePeers.erase p } t)
      (detached : Detached p sids t h'.toTables) : Effect opt io h (.disconnect p) h'
  | resumed {p : Bytes} {id : Int} {m : ClaimMsg} {sid : Bytes} {sess : Session}
      (greeted : h.greeted p = true) (resumes : Resumes opt io h p m sid sess) :
      Effect opt io h (.text p (some ⟨id, .claim (.ok m)⟩))
        ((limited opt io h p).resumeSession p sid id sess)
  | started {p : Bytes} {id : Int} {m : ClaimMsg} {shareId : Bytes} {s : Share}
      (starts : Starts opt io h p m shareId s) :
      Effect opt io h (.text p (some ⟨id, .claim (.ok m)⟩))
        ((limited opt io h p).startSession io p id shareId s)

theorem sameObjects_onHello (p : Bytes) (id : Int) (m : Except Bytes HelloMsg) :
    SameObjects h.toTables (h.onHello opt io p id m).toTables := by
  have same : SameObjects h.toTables h.toTables := .of_eq rfl
  unfold onHello
  split
  · exact same
  · simp only
    split
    · exact same
    · split
      · exact same
      · split
        · exact same
        · split
          · exact ⟨rfl, rfl, rfl, rfl, rfl, rfl⟩
          · exact ⟨rfl, rfl, rfl, rfl, rfl, rfl⟩

theorem effect_onCreateShare (hf : h.fresh io = true) (p : Bytes) (req : Option Request) (id : Int)
    (m : Except Bytes CreateShareMsg) :
    Effect opt io h (.text p req) (h.onCreateShare opt io p id m) := by
  have quiet : ∀ tasks, Effect opt io h (.text p req) (h.next p tasks) :=
    fun tasks => .quiet (.of_eq rfl)
  unfold onCreateShare
  split
  · exact quiet _
  · simp only
    split
    · exact quiet _
    · split
      · exact quiet _
      · split
        · exact .quiet (.of_eq rfl)
        · rename_i hopen
          split
          · exact quiet _
          · split
            · exact quiet _
            · rename_i codes e hadd
              exact .created (s := Share.mk e.code _ p _ _ false ∅) (by simpa using hopen)
                (of_fresh hf).2.1 rfl rfl hadd rfl rfl

theorem effect_disconnect (hi : Intact h.toTables) (p : Bytes) :
    Effect opt io h (.disconnect p) (h.disconnect io p) := by
  unfold disconnect
  split
  · exact .quiet (.of_eq rfl)
  · exact .left (closing_closeShares _ _ _ { h with livePeers := h.livePeers.erase p }
      (linked_erasePeer hi.toLinked p)) (detached_foldl p _ _)

theorem effect_dispatch (hi : Intact h.toTables) (hf : h.fresh io = true) (p : Bytes) (id : Int)
    (body : Body) (hgreeted : h.greeted p = true ∨ body.isHello = true) :
    Effect opt io h (.text p (some ⟨id, body⟩)) (h.dispatch opt io p id body) := by
  have quiet : ∀ tasks, Effect opt io h (.text p (some ⟨id, body⟩)) (h.next p tasks) :=
    fun tasks => .quiet (.of_eq rfl)
  cases body with
  | hello m => exact .quiet (sameObjects_onHello p id m)
  | createShare m => exact effect_onCreateShare hf p _ id m
  | closeShare m =>
    simp only [dispatch, onCloseShare]
    split
    · exact quiet _
    · split
      · exact quiet _
      · split
        · exact quiet _
        · exact .removed (closing_closeShare hi.toLinked ..)
  | claim m =>
    cases m with
    | error err => exact quiet _
    | ok m =>
      apply onClaim_rule
      intro h₂ outcome
      cases outcome with
      | ignored closed => exact .quiet (.of_eq rfl)
      | refused opened refusal => exact .quiet (.of_eq (tables_limited p))
      | resumed resumes => exact .resumed (hgreeted.resolve_right Bool.false_ne_true) resumes
      | started starts => exact .started starts
  | signal m => exact .quiet (.of_eq (tables_onSignal p id m))
  | leave m =>
    simp only [dispatch, onLeave]
    split
    · exact quiet _
    · split
      · exact quiet _
      · exact .removed (removal_endSession hi.toLinked ..)
  | ping => exact quiet _
  | pong => exact .quiet (.of_eq rfl)
  | unknown type => exact quiet _

theorem effect_step {a : Action} (hi : Intact h.toTables)
    (hstep : step opt h (io, a) = some h') : Effect opt io h a h' := by
  obtain ⟨-, hf, heffect⟩ := of_step hstep
  cases a with
  | connect ip =>
    simp only at heffect
    subst heffect
    exact .quiet ⟨rfl, rfl, rfl, rfl, rfl, rfl⟩
  | text p req =>
    obtain ⟨-, rfl⟩ := heffect
    cases req with
    | none => exact .quiet (.of_eq rfl)
    | some req =>
      simp only [handleText]
      split
      · exact .quiet (.of_eq rfl)
      · rename_i hgreeted
        refine effect_dispatch hi hf p req.id req.body ?_
        by_contra hnot
        simp_all
  | binary p frame =>
    obtain ⟨-, rfl⟩ := heffect
    exact .quiet (.of_eq (tables_handleBinary p frame))
  | task p =>
    obtain ⟨t, rest, -, rfl⟩ := heffect
    exact .quiet (.of_eq (tables_runTask p t))
  | disconnect p =>
    obtain ⟨-, rfl⟩ := heffect
    exact effect_disconnect hi p
  | sweep =>
    simp only at heffect
    subst heffect
    exact .removed (closing_foldl (f := fun h id => h.expireShare io id) (Q := Expired io.now)
      closing_expireShare expired_removal (io.order.keysOf h.liveShares) h hi.toLinked)
  | shutdown =>
    simp only at heffect
    subst heffect
    exact .removed (closing_closeShares .serverClose none (io.order.keysOf h.liveShares)
      { h with closed := true } hi.toLinked)
  | setNotifications snapshot =>
    simp only at heffect
    subst heffect
    exact .quiet (.of_eq (tables_setNotifications h snapshot))

end Hub

end CrossTransfer.Signal
