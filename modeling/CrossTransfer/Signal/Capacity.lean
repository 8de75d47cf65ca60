import CrossTransfer.Signal.Claims

/-! # Limits

How many sessions and shares there are. A step adds at most one session to the hub and to a peer,
and only a claim that has looked at the limit does; the same goes for the shares of a peer
(`sessions_step`, `peerSessions_step`, `peerShares_step`). A request that is answered with an error
changes no table.
-/

namespace CrossTransfer.Signal

open CrossTransfer.Library
open CrossTransfer.Transfer

namespace Tables

variable {t : Tables}

theorem Intact.mem_peerSessions_iff (h : Intact t) (p sid : Bytes) : sid ∈ t.peerSessions p ↔
    ∃ sess, t.session? sid = some sess ∧ (sess.sender = p ∨ sess.receiver = some p) := by
  constructor
  · intro hmem
    cases hpeer : t.peers[p]? with
    | none =>
      simp only [Tables.peerSessions, hpeer, Option.elim_none] at hmem
      exact absurd hmem (OrderedSet.not_mem_empty_iff sid)
    | some peer =>
      rw [mem_peerSessions hpeer] at hmem
      exact (h.peerSessions p sid peer hpeer).mp hmem
  · rintro ⟨sess, hsess, hparty⟩
    exact h.mem_sessions hsess hparty

theorem Intact.mem_peerShares_iff (h : Intact t) (p id : Bytes) : id ∈ t.peerShares p ↔
    ∃ s, t.share? id = some s ∧ s.owner = p := by
  constructor
  · intro hmem
    cases hpeer : t.peers[p]? with
    | none =>
      simp only [Tables.peerShares, hpeer, Option.elim_none] at hmem
      exact absurd hmem (OrderedSet.not_mem_empty_iff id)
    | some peer =>
      rw [mem_peerShares hpeer] at hmem
      exact (h.peerShares p id peer hpeer).mp hmem
  · rintro ⟨s, hs, rfl⟩
    obtain ⟨peer, hpeer⟩ := mem_peers (h.owners id s (share?_eq_some.mp hs).2)
    rw [mem_peerShares hpeer]
    exact (h.peerShares _ id peer hpeer).mpr ⟨s, hs, rfl⟩

end Tables

namespace Hub

open Tables

variable {opt : Options} {io : HubIo} {h h' : Hub}

/-- At most one key is added, and only below the limit. -/
def GrowsBelow (limit : Int) (s s' : OrderedSet Bytes) : Prop :=
  (∀ k ∈ s', k ∈ s) ∨ (s.size < limit ∧ ∃ new, ∀ k ∈ s', k = new ∨ k ∈ s)

theorem GrowsBelow.size_le {limit : Int} {s s' : OrderedSet Bytes} (h : GrowsBelow limit s s')
    (hs : s.size ≤ limit) : s'.size ≤ limit := by
  obtain hsub | ⟨hroom, new, hsub⟩ := h
  · have := OrderedSet.size_le hsub
    omega
  · have := OrderedSet.size_le_succ hsub
    omega

/-! ## Sessions -/

theorem liveSessions_startSession (p id : Bytes) (reqId : Int) (s : Share) :
    ((limited opt io h p).startSession io p reqId id s).liveSessions =
      h.liveSessions.insert io.sessionId := by
  simp only [startSession, join, toTables_next, tables_limited]

theorem sessions_step {a : Action} (hi : Intact h.toTables)
    (hstep : step opt h (io, a) = some h') :
    GrowsBelow opt.maxSessions h.liveSessions h'.liveSessions := by
  have heffect := effect_step hi hstep
  cases heffect with
  | quiet same =>
    rw [same.liveSessions]
    exact .inl fun sid hsid => hsid
  | created running new empty opened added code tables =>
    rw [tables]
    exact .inl fun sid hsid => hsid
  | removed removal => exact .inl fun sid hsid => ((removal.liveSessions sid).mp hsid).1
  | left removal detached =>
    rw [detached.liveSessions]
    exact .inl fun sid hsid => ((removal.liveSessions sid).mp hsid).1
  | @resumed p id m sid sess greeted resumes =>
    simp only [resumeSession, join, toTables_next, tables_limited]
    exact .inl fun sid hsid => hsid
  | @started p id m shareId s starts =>
    have hroom := starts.capacity
    simp only [sessionsFull, Bool.or_eq_false_iff, decide_eq_false_iff_not, not_le] at hroom
    rw [liveSessions_startSession]
    exact .inr ⟨hroom.1.1, io.sessionId, fun sid => (OrderedSet.mem_insert_iff ..).mp⟩

/-- The sessions of a peer when a session object of it is not new. -/
theorem GrowsBelow.of_sessions {limit : Int} {t t' : Tables} (hi : Intact t) (hi' : Intact t')
    {q : Bytes} (hparty : ∀ (sid : Bytes) (sess' : Session), t'.session? sid = some sess' →
      (sess'.sender = q ∨ sess'.receiver = some q) →
      ∃ sess, t.session? sid = some sess ∧ (sess.sender = q ∨ sess.receiver = some q)) :
    GrowsBelow limit (t.peerSessions q) (t'.peerSessions q) := by
  left
  intro sid hsid
  obtain ⟨sess', hsess', hq⟩ := (hi'.mem_peerSessions_iff q sid).mp hsid
  exact (hi.mem_peerSessions_iff q sid).mpr (hparty sid sess' hsess' hq)

theorem peerSessions_step {a : Action} (hi : Intact h.toTables)
    (hstep : step opt h (io, a) = some h') (q : Bytes) :
    GrowsBelow opt.maxSessionsPerPeer (h.peerSessions q) (h'.peerSessions q) := by
  have hi' : Intact h'.toTables := intact_step hi hstep
  have heffect := effect_step hi hstep
  cases heffect with
  | quiet same =>
    refine .of_sessions hi hi' fun sid sess hsess hq => ⟨sess, ?_, hq⟩
    rw [session?_eq_some, same.sessions, same.liveSessions] at hsess
    exact session?_eq_some.mpr hsess
  | created running new empty opened added code tables =>
    refine .of_sessions hi hi' fun sid sess hsess hq => ⟨sess, ?_, hq⟩
    rw [session?_eq_some, tables] at hsess
    exact session?_eq_some.mpr hsess
  | removed removal =>
    exact .of_sessions hi hi' fun sid sess hsess hq => ⟨sess, (removal.session?.mp hsess).1, hq⟩
  | @left p _ _ _ _ _ removal detached =>
    refine .of_sessions hi hi' fun sid sess' hsess' hq => ?_
    rw [session?_eq_some, detached.liveSessions] at hsess'
    obtain ⟨sess, hsess, hsame⟩ := detached.of_session hsess'.2
    refine ⟨sess, (removal.session?.mp (session?_eq_some.mpr ⟨hsess'.1, hsess⟩)).1, ?_⟩
    obtain rfl | ⟨-, rfl⟩ := hsame
    · exact hq
    · unfold without at hq
      split at hq
      · exact hq.imp_right fun hnone => absurd hnone (Option.some_ne_none q).symm
      · exact hq
  | @resumed p id m sid sess greeted resumes =>
    -- The only session that is new for a peer is the one that is resumed, and it is new for the receiver.
    have hold : ∀ (sid' : Bytes) (sess' : Session),
        ((limited opt io h p).resumeSession p sid id sess).session? sid' = some sess' →
        (sess'.sender = q ∨ sess'.receiver = some q) → sid' = sid ∧ q = p ∨
          ∃ sess, h.session? sid' = some sess ∧ (sess.sender = q ∨ sess.receiver = some q) := by
      intro sid' sess' hsess' hq
      simp only [resumeSession, join, toTables_next, session?_eq_some, OrderedMap.get_insert,
        tables_limited] at hsess'
      obtain ⟨hlive, hget⟩ := hsess'
      split at hget
      · rename_i heq
        subst heq
        obtain rfl := Option.some.inj hget
        obtain hsender | hreceiver := hq
        · exact .inr ⟨sess, session?_eq_some.mpr ⟨hlive, resumes.session⟩, .inl hsender⟩
        · exact .inl ⟨rfl, (Option.some.inj hreceiver).symm⟩
      · exact .inr ⟨sess', session?_eq_some.mpr ⟨hlive, hget⟩, hq⟩
    by_cases hqp : q = p
    · subst hqp
      refine .inr ⟨resumes.capacity, sid, fun sid' hsid' => ?_⟩
      obtain ⟨sess', hsess', hq⟩ := (hi'.mem_peerSessions_iff q sid').mp hsid'
      exact (hold sid' sess' hsess' hq).imp (·.1) (hi.mem_peerSessions_iff q sid').mpr
    · exact .of_sessions hi hi' fun sid' sess' hsess' hq =>
        (hold sid' sess' hsess' hq).resolve_left fun hnew => hqp hnew.2
  | @started p id m shareId s starts =>
    have hold : ∀ (sid : Bytes) (sess' : Session),
        ((limited opt io h p).startSession io p id shareId s).session? sid = some sess' →
        (sess'.sender = q ∨ sess'.receiver = some q) → sid = io.sessionId ∧ (q = s.owner ∨ q = p) ∨
          ∃ sess, h.session? sid = some sess ∧ (sess.sender = q ∨ sess.receiver = some q) := by
      intro sid sess' hsess' hq
      rw [session?_eq_some, (startSession_eq id).1, liveSessions_startSession, OrderedMap.get_insert,
        OrderedSet.mem_insert_iff] at hsess'
      obtain ⟨hlive, hget⟩ := hsess'
      split at hget
      · rename_i heq
        obtain rfl := Option.some.inj hget
        exact .inl ⟨heq, hq.imp Eq.symm fun hreceiver => (Option.some.inj hreceiver).symm⟩
      · rename_i hne
        exact .inr ⟨sess', session?_eq_some.mpr ⟨hlive.resolve_left hne, hget⟩, hq⟩
    -- Both ends have been checked for room.
    have hroom := starts.capacity
    simp only [sessionsFull, Bool.or_eq_false_iff, decide_eq_false_iff_not, not_le] at hroom
    by_cases hnew : q = s.owner ∨ q = p
    · have hbelow : ((h.peerSessions q).size : Int) < opt.maxSessionsPerPeer := by
        obtain rfl | rfl := hnew
        · exact hroom.2
        · exact hroom.1.2
      refine .inr ⟨hbelow, io.sessionId, fun sid hsid => ?_⟩
      obtain ⟨sess', hsess', hq⟩ := (hi'.mem_peerSessions_iff q sid).mp hsid
      exact (hold sid sess' hsess' hq).imp (·.1) (hi.mem_peerSessions_iff q sid).mpr
    · exact .of_sessions hi hi' fun sid sess' hsess' hq =>
        (hold sid sess' hsess' hq).resolve_left fun h₀ => hnew h₀.2

/-! ## Shares -/

/-- The shares of a peer when every share that is there was there before. -/
theorem GrowsBelow.of_shares {limit : Int} {t t' : Tables} (hi : Intact t) (hi' : Intact t')
    {q : Bytes} (hshare : ∀ (id : Bytes) (s' : Share), t'.share? id = some s' →
      ∃ s, t.share? id = some s ∧ s.owner = s'.owner) :
    GrowsBelow limit (t.peerShares q) (t'.peerShares q) := by
  left
  intro id hid
  obtain ⟨s', hs', howner⟩ := (hi'.mem_peerShares_iff q id).mp hid
  obtain ⟨s, hs, hsame⟩ := hshare id s' hs'
  exact (hi.mem_peerShares_iff q id).mpr ⟨s, hs, hsame.trans howner⟩

/-- What a request has to do that makes a share. -/
def Creates (opt : Options) (io : HubIo) (h : Hub) (p : Bytes) (h' : Hub) : Prop :=
  io.shareId ∈ h.liveShares ∨ io.shareId ∉ h'.liveShares ∨
    (h.peerShares p).size < opt.maxSharesPerPeer ∧
      ∀ s : Share, h'.shares[io.shareId]? = some s → s.owner = p

theorem creates_of_sub {p : Bytes} (hsub : ∀ id, id ∈ h'.liveShares → id ∈ h.liveShares) :
    Creates opt io h p h' := by
  by_cases hmem : io.shareId ∈ h.liveShares
  · exact .inl hmem
  · exact .inr (.inl fun hmem' => hmem (hsub _ hmem'))

theorem creates_next (h : Hub) (p : Bytes) (tasks : List Task) :
    Creates opt io h p (h.next p tasks) :=
  creates_of_sub fun _ hid => hid

theorem creates_onCreateShare (p : Bytes) (id : Int) (m : Except Bytes CreateShareMsg) :
    Creates opt io h p (h.onCreateShare opt io p id m) := by
  unfold onCreateShare
  split
  · exact creates_next ..
  · simp only
    split
    · exact creates_next ..
    · split
      · exact creates_next ..
      · split
        · exact creates_of_sub fun _ hid => hid
        · split
          · exact creates_next ..
          · rename_i hroom
            split
            · exact creates_next ..
            · refine .inr (.inr ⟨not_le.mp hroom, fun s hs => ?_⟩)
              simp only [toTables_next, OrderedMap.get_insert, if_true] at hs
              rw [← Option.some.inj hs]

theorem creates_dispatch (hi : Intact h.toTables) (p : Bytes) (id : Int) (body : Body) :
    Creates opt io h p (h.dispatch opt io p id body) := by
  cases body with
  | hello m =>
    apply creates_of_sub
    intro id' hid
    rwa [dispatch, (sameObjects_onHello p id m).liveShares] at hid
  | createShare m => exact creates_onCreateShare p id m
  | closeShare m =>
    simp only [dispatch, onCloseShare]
    split
    · exact creates_next ..
    · split
      · exact creates_next ..
      · split
        · exact creates_next ..
        · apply creates_of_sub
          intro id' hid
          exact ((closing_closeShare hi.toLinked ..).liveShares id' |>.mp hid).1
  | claim m =>
    cases m with
    | error err => exact creates_next ..
    | ok m =>
      apply onClaim_rule
      intro h₂ outcome
      apply creates_of_sub
      intro id' hid
      cases outcome with
      | ignored closed => exact hid
      | refused opened refusal => rwa [toTables_next, tables_limited] at hid
      | resumed resumes => simpa only [resumeSession, join, toTables_next, tables_limited] using hid
      | started starts => simpa only [startSession, join, toTables_next, tables_limited] using hid
  | signal m =>
    apply creates_of_sub
    intro id' hid
    rwa [dispatch, tables_onSignal] at hid
  | leave m =>
    simp only [dispatch, onLeave]
    split
    · exact creates_next ..
    · split
      · exact creates_next ..
      · apply creates_of_sub
        intro id' hid
        exact ((removal_endSession hi.toLinked ..).liveShares id' |>.mp hid).1
  | ping => exact creates_next ..
  | pong => exact creates_of_sub fun _ hid => hid
  | unknown type => exact creates_next ..

theorem creates_step {p : Bytes} {req : Option Request} (hi : Intact h.toTables)
    (hstep : step opt h (io, .text p req) = some h') : Creates opt io h p h' := by
  cases req with
  | none =>
    obtain ⟨-, -, -, rfl⟩ := of_step hstep
    exact creates_next ..
  | some req =>
    obtain ⟨-, -, ⟨-, code, text, rfl⟩ | ⟨-, rfl⟩⟩ := step_request hstep
    · exact creates_next ..
    · exact creates_dispatch hi p req.id req.body

theorem peerShares_step {a : Action} (hi : Intact h.toTables)
    (hstep : step opt h (io, a) = some h') (q : Bytes) :
    GrowsBelow opt.maxSharesPerPeer (h.peerShares q) (h'.peerShares q) := by
  have hi' : Intact h'.toTables := intact_step hi hstep
  have heffect := effect_step hi hstep
  cases heffect with
  | quiet same =>
    refine .of_shares hi hi' fun id s hs => ⟨s, ?_, rfl⟩
    rw [share?_eq_some, same.shares, same.liveShares] at hs
    exact share?_eq_some.mpr hs
  | @created p req _ s codes e running new empty opened added code tables =>
    have hget : ∀ (id : Bytes) (s' : Share), h'.share? id = some s' →
        (id = io.shareId ∧ s' = s) ∨ h.share? id = some s' := by
      intro id s' hs'
      rw [share?_eq_some, tables, OrderedMap.get_insert, OrderedSet.mem_insert_iff] at hs'
      obtain ⟨hlive, hget⟩ := hs'
      split at hget
      · rename_i heq
        exact .inl ⟨heq, (Option.some.inj hget).symm⟩
      · rename_i hne
        exact .inr (share?_eq_some.mpr ⟨hlive.resolve_left hne, hget⟩)
    -- Only `create` adds a share, and it has checked for room.
    have hcreates : (h.peerShares p).size < opt.maxSharesPerPeer ∧ s.owner = p := by
      obtain hold | hgone | ⟨hroom, howner⟩ := creates_step hi hstep
      · exact absurd (hi.sharesLive _ hold) new
      · exact absurd (by rw [tables]; simp) hgone
      · exact ⟨hroom, howner s (by rw [tables]; simp)⟩
    by_cases hq : q = p
    · subst hq
      refine .inr ⟨hcreates.1, io.shareId, fun id hid => ?_⟩
      obtain ⟨s', hs', howner⟩ := (hi'.mem_peerShares_iff q id).mp hid
      obtain ⟨rfl, -⟩ | hs := hget id s' hs'
      · exact .inl rfl
      · exact .inr ((hi.mem_peerShares_iff q id).mpr ⟨s', hs, howner⟩)
    · left
      intro id hid
      obtain ⟨s', hs', howner⟩ := (hi'.mem_peerShares_iff q id).mp hid
      obtain ⟨-, rfl⟩ | hs := hget id s' hs'
      · exact absurd (howner.symm.trans hcreates.2) hq
      · exact (hi.mem_peerShares_iff q id).mpr ⟨s', hs, howner⟩
  | removed removal =>
    refine .of_shares hi hi' fun id s' hs' => ?_
    obtain ⟨-, s, hs, hminus⟩ := removal.of_share? hs'
    exact ⟨s, hs, by rw [hminus.same]⟩
  | left removal detached =>
    refine .of_shares hi hi' fun id s' hs' => ?_
    rw [share?_eq_some, detached.shares, detached.liveShares, ← share?_eq_some] at hs'
    obtain ⟨-, s, hs, hminus⟩ := removal.of_share? hs'
    exact ⟨s, hs, by rw [hminus.same]⟩
  | @resumed p id m sid sess greeted resumes =>
    refine .of_shares hi hi' fun id' s hs => ⟨s, ?_, rfl⟩
    simp only [resumeSession, join, toTables_next, share?_eq_some, tables_limited] at hs
    exact share?_eq_some.mpr hs
  | @started p id m shareId s starts =>
    refine .of_shares hi hi' fun id' s' hs' => ?_
    rw [share?_eq_some, (startSession_eq id).2, OrderedMap.get_insert] at hs'
    obtain ⟨hlive, hget⟩ := hs'
    have hlive₀ : id' ∈ h.liveShares := by
      simpa only [startSession, join, toTables_next, tables_limited] using hlive
    split at hget
    · rename_i heq
      subst heq
      exact ⟨s, starts.share, by rw [← Option.some.inj hget]⟩
    · exact ⟨s', share?_eq_some.mpr ⟨hlive₀, hget⟩, rfl⟩

/-! ## Requests that are answered with an error -/

/-- The handler leaves an error to its goroutine. -/
def Denied (p : Bytes) (id : Int) (h' : Hub) : Prop :=
  ∃ code text, errorTask p id code text ∈ h'.threads p

/-- The handler has answered, or leaves another answer to its goroutine. -/
theorem not_denied {p : Bytes} {id : Int} {m : Message} (hm : ∀ code text, m ≠ .error id code text) :
    ¬ Denied p id (h.next p [.send p m]) := by
  rintro ⟨code, text, hmem⟩
  simp only [next, Function.update_self, List.mem_singleton, errorTask, Task.send.injEq] at hmem
  exact hm code text hmem.2.symm

theorem tables_onHello_refused {p : Bytes} (hidle : h.threads p = []) (id : Int)
    (m : Except Bytes HelloMsg) (hdenied : Denied p id (h.onHello opt io p id m)) :
    (h.onHello opt io p id m).toTables = h.toTables := by
  revert hdenied
  have hnone : ∀ {h' : Hub}, h'.threads = h.threads → ¬ Denied p id h' := by
    rintro h' hthreads ⟨code, text, hmem⟩
    rw [hthreads, hidle] at hmem
    exact absurd hmem List.not_mem_nil
  unfold onHello
  split
  · exact fun _ => rfl
  · simp only
    split
    · exact fun _ => rfl
    · split
      · exact fun _ => rfl
      · split
        · exact fun _ => rfl
        · split
          · exact fun hdenied => absurd hdenied (hnone rfl)
          · exact fun hdenied => absurd hdenied (hnone rfl)

theorem tables_onCreateShare_refused (p : Bytes) (id : Int) (m : Except Bytes CreateShareMsg)
    (hdenied : Denied p id (h.onCreateShare opt io p id m)) :
    (h.onCreateShare opt io p id m).toTables = h.toTables := by
  revert hdenied
  unfold onCreateShare
  split
  · exact fun _ => rfl
  · simp only
    split
    · exact fun _ => rfl
    · split
      · exact fun _ => rfl
      · split
        · exact fun _ => rfl
        · split
          · exact fun _ => rfl
          · split
            · exact fun _ => rfl
            · exact fun hdenied => absurd hdenied (not_denied (by simp))

theorem tables_denied {p : Bytes} {req : Request}
    (hstep : step opt h (io, .text p (some req)) = some h') (hdenied : Denied p req.id h') :
    h'.toTables = h.toTables := by
  obtain ⟨hidle, -, ⟨-, code, text, rfl⟩ | ⟨-, rfl⟩⟩ := step_request hstep
  · rfl
  · obtain ⟨id, body⟩ := req
    cases body with
    | hello m => exact tables_onHello_refused (idle_threads hidle) id m hdenied
    | createShare m => exact tables_onCreateShare_refused p id m hdenied
    | closeShare m =>
      revert hdenied
      simp only [dispatch, onCloseShare]
      split
      · exact fun _ => rfl
      · split
        · exact fun _ => rfl
        · split
          · exact fun _ => rfl
          · exact fun hdenied => absurd hdenied (not_denied (by simp))
    | claim m => exact tables_refused hstep hdenied
    | signal m => exact tables_onSignal p id m
    | leave m =>
      revert hdenied
      simp only [dispatch, onLeave]
      split
      · exact fun _ => rfl
      · split
        · exact fun _ => rfl
        · exact fun hdenied => absurd hdenied (not_denied (by simp))
    | ping => rfl
    | pong => rfl
    | unknown type => rfl

/-! ## Runs -/

/-- The limits are kept, and a refusal changes nothing. -/
structure Bounded (opt : Options) (h : Hub) : Prop where
  sessions : h.liveSessions.size ≤ opt.withDefaults.maxSessions
  peerSessions : ∀ p, (h.peerSessions p).size ≤ opt.withDefaults.maxSessionsPerPeer
  peerShares : ∀ p, (h.peerShares p).size ≤ opt.withDefaults.maxSharesPerPeer
  /-- A peer's sessions are those it is the sender or the receiver of. -/
  counted : ∀ p sid, sid ∈ h.peerSessions p ↔
    ∃ sess, h.session? sid = some sess ∧ (sess.sender = p ∨ sess.receiver = some p)
  refused : ∀ io p req h', (machine opt).step h (io, .text p (some req)) = some h' →
    Denied p req.id h' → h'.toTables = h.toTables

theorem withDefaults_pos (opt : Options) : 0 < opt.withDefaults.maxSessions ∧
    0 < opt.withDefaults.maxSessionsPerPeer ∧ 0 < opt.withDefaults.maxSharesPerPeer := by
  simp only [Options.withDefaults]
  refine ⟨?_, ?_, ?_⟩
  · split <;> omega
  · split <;> omega
  · split <;> omega

theorem bounded_run {as : List (HubIo × Action)} (run : (machine opt).Run Machine.anyStep as h) :
    Bounded opt h := by
  have hlimits : (h.liveSessions.size : Int) ≤ opt.withDefaults.maxSessions ∧ ∀ p,
      ((h.peerSessions p).size : Int) ≤ opt.withDefaults.maxSessionsPerPeer ∧
      ((h.peerShares p).size : Int) ≤ opt.withDefaults.maxSharesPerPeer := by
    induction run with
    | init =>
      obtain ⟨hsessions, hpeerSessions, hpeerShares⟩ := withDefaults_pos opt
      have hsize : (∅ : OrderedSet Bytes).size = 0 := Std.ExtTreeSet.size_empty
      simp [machine, Tables.peerSessions, Tables.peerShares]
      omega
    | step run _ hstep ih =>
      have hi := intact_run run
      refine ⟨(sessions_step hi hstep).size_le ih.1, fun p => ⟨?_, ?_⟩⟩
      · exact (peerSessions_step hi hstep p).size_le (ih.2 p).1
      · exact (peerShares_step hi hstep p).size_le (ih.2 p).2
  constructor
  · exact hlimits.1
  · exact fun p => (hlimits.2 p).1
  · exact fun p => (hlimits.2 p).2
  · exact (intact_run run).mem_peerSessions_iff
  · exact fun io p req h' hstep => tables_denied hstep

/-- One session is the limit. -/
def narrow : Options := { maxSessionsPerPeer := 1 }

theorem bounded_claimed : ∃ h, (machine narrow).Run Machine.anyStep claimRun h ∧
    (h.peerSessions [80, 1]).size = 1 ∧ Bounded narrow h := by
  have hexec : ((machine narrow).exec claimRun (machine narrow).init).map
      (fun h => (h.peerSessions [80, 1]).size) = some 1 := by
    decide +kernel
  obtain ⟨h, hexec, hsize⟩ := Option.map_eq_some_iff.mp hexec
  have run := Machine.run_of_exec hexec
  exact ⟨h, run, hsize, bounded_run run⟩

end Hub

end CrossTransfer.Signal
