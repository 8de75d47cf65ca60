import CrossTransfer.Signal.Traces

/-! # Claims

A once code yields one session (`onceCode_run`), since a session of a once share exists only after
the share was claimed, and only an unclaimed one has an entry in the registry.

By token a claim can do two things that it cannot do by code: join the sender to its own session
and resume a session whose share has expired. Runs without such a claim, and no others, keep the
parties of every session apart (`partiesApart_run_iff`) and refuse every claim that comes too late
(`punctual_run_iff`).
-/

namespace CrossTransfer.Signal

open CrossTransfer.Library
open CrossTransfer.Transfer

/-- The session with another receiver. -/
def Session.Like (a b : Session) : Prop := b = { a with receiver := b.receiver }

/-- The share with other sessions. -/
def Share.Like (a b : Share) : Prop := b = { a with sessions := b.sessions }

namespace Tables

/-- The same sessions and shares, except for who receives and which sessions a share lists. -/
structure Keeps (t t' : Tables) : Prop where
  sessions : ∀ sid : Bytes, Option.Rel Session.Like t.sessions[sid]? t'.sessions[sid]?
  shares : ∀ id : Bytes, Option.Rel Share.Like t.shares[id]? t'.shares[id]?

variable {t t' t'' : Tables}

theorem Keeps.of_removal {D S : Bytes → Prop} (h : Removal D S t t') : Keeps t t' where
  sessions sid := by
    rw [h.sessions]
    exact rel_refl _ fun sess _ => rfl
  shares id := rel_mono (h.shares id) fun s s' _ hminus => hminus.same

theorem Keeps.of_shares_eq (sessions : t'.sessions = t.sessions) (shares : t'.shares = t.shares) :
    Keeps t t' where
  sessions sid := by
    rw [sessions]
    exact rel_refl _ fun sess _ => rfl
  shares id := by
    rw [shares]
    exact rel_refl _ fun s _ => rfl

theorem Keeps.trans (h : Keeps t t') (h' : Keeps t' t'') : Keeps t t'' where
  sessions sid := rel_trans (h.sessions sid) (h'.sessions sid) fun a b c hab hbc => by
    unfold Session.Like at *
    rw [hbc, hab]
  shares id := rel_trans (h.shares id) (h'.shares id) fun a b c hab hbc => by
    unfold Share.Like at *
    rw [hbc, hab]

/-- A session of the later tables was there before, with the same share. -/
theorem Keeps.of_session (h : Keeps t t') {sid : Bytes} {sess' : Session}
    (hsess' : t'.sessions[sid]? = some sess') :
    ∃ sess, t.sessions[sid]? = some sess ∧ sess.share = sess'.share := by
  have hrel := h.sessions sid
  rw [hsess'] at hrel
  obtain ⟨sess, hsess, hlike⟩ := rel_some hrel
  refine ⟨sess, hsess, ?_⟩
  rw [hlike]

theorem Keeps.session (h : Keeps t t') {sid : Bytes} {sess : Session}
    (hsess : t.sessions[sid]? = some sess) :
    ∃ sess', t'.sessions[sid]? = some sess' ∧ sess'.share = sess.share := by
  have hrel := h.sessions sid
  rw [hsess] at hrel
  generalize t'.sessions[sid]? = found at hrel
  cases hrel with
  | @some _ sess' hlike =>
    refine ⟨sess', rfl, ?_⟩
    rw [hlike]

theorem Keeps.of_share (h : Keeps t t') {id : Bytes} {s' : Share} (hs' : t'.shares[id]? = some s') :
    ∃ s, t.shares[id]? = some s ∧ s.mode = s'.mode ∧ s.claimed = s'.claimed := by
  have hrel := h.shares id
  rw [hs'] at hrel
  obtain ⟨s, hs, hlike⟩ := rel_some hrel
  refine ⟨s, hs, ?_⟩
  rw [hlike]
  exact ⟨rfl, rfl⟩

/-- A once share has at most one session, and none before it was claimed. -/
structure OnceClaimed (t : Tables) : Prop where
  claimed : ∀ (sid : Bytes) (sess : Session) (s : Share), t.sessions[sid]? = some sess →
    t.shares[sess.share]? = some s → s.mode = .once → s.claimed = true
  single : ∀ (sid sid' : Bytes) (sess sess' : Session) (s : Share), t.sessions[sid]? = some sess →
    t.sessions[sid']? = some sess' → sess'.share = sess.share →
    t.shares[sess.share]? = some s → s.mode = .once → sid' = sid

theorem OnceClaimed.of_keeps (h : OnceClaimed t) (hk : Keeps t t') : OnceClaimed t' where
  claimed sid sess' s' hsess' hs' honce := by
    obtain ⟨sess, hsess, hshare⟩ := hk.of_session hsess'
    obtain ⟨s, hs, hmode, hclaimed⟩ := hk.of_share hs'
    rw [← hclaimed]
    exact h.claimed sid sess s hsess (by rw [hshare]; exact hs) (hmode.trans honce)
  single sid sid' sess sess' s' hsess hsess' hsame hs' honce := by
    obtain ⟨sess₀, hsess₀, hshare⟩ := hk.of_session hsess
    obtain ⟨sess₁, hsess₁, hshare'⟩ := hk.of_session hsess'
    obtain ⟨s, hs, hmode, -⟩ := hk.of_share hs'
    refine h.single sid sid' sess₀ sess₁ s hsess₀ hsess₁ ?_ (by rw [hshare]; exact hs)
      (hmode.trans honce)
    rw [hshare, hshare', hsame]

end Tables

namespace Hub

open Tables

variable {opt : Options} {io : HubIo} {h h' : Hub}

theorem keeps_of_detached {p : Bytes} {sids : List Bytes} {t t' : Tables}
    (h : Detached p sids t t') : Keeps t t' where
  sessions sid := by
    rw [h.sessions]
    split
    · cases t.sessions[sid]? with
      | none => exact .none
      | some sess =>
        refine .some ?_
        unfold without Session.Like
        split <;> rfl
    · exact rel_refl _ fun sess _ => rfl
  shares id := by
    rw [h.shares]
    exact rel_refl _ fun s _ => rfl

theorem keeps_resumeSession {p sid : Bytes} {sess : Session} (hsess : h.sessions[sid]? = some sess)
    (id : Int) : Keeps h.toTables (h.resumeSession p sid id sess).toTables where
  sessions sid' := by
    simp only [resumeSession, join, toTables_next, OrderedMap.get_insert]
    split
    · rename_i heq
      rw [heq, hsess]
      exact .some rfl
    · exact rel_refl _ fun sess _ => rfl
  shares id := rel_refl _ fun s _ => rfl

/-- A claim by code finds a share whose code is not consumed. -/
theorem Starts.open (hi : Intact h.toTables) {p id : Bytes} {m : ClaimMsg} {s : Share}
    (starts : Starts opt io h p m id s) : ¬ (s.mode = .once ∧ s.claimed = true) := by
  obtain ⟨e, hlookup, rfl⟩ := starts.found
  obtain ⟨hentry, -, -⟩ := hi.consistent.of_lookup hlookup
  obtain ⟨s', hs', hopen, -⟩ := (hi.codes _ e).mp hentry
  obtain rfl := Option.some.inj (hs'.symm.trans starts.share)
  exact hopen

/-- Only a claim by code makes a session, and only a request makes a share. -/
theorem Effect.keeps_or {a : Action} (effect : Effect opt io h a h') :
    Keeps h.toTables h'.toTables ∨
    (∃ s, io.shareId ∉ h.shares ∧ h'.shares = h.shares.insert io.shareId s ∧
      h'.sessions = h.sessions) ∨
    ∃ p id m shareId s, Starts opt io h p m shareId s ∧
      h' = (limited opt io h p).startSession io p id shareId s := by
  cases effect with
  | quiet same => exact .inl (.of_shares_eq same.sessions same.shares)
  | @created _ _ _ s _ _ running new empty opened added code tables =>
    refine .inr (.inl ⟨s, new, ?_, ?_⟩)
    · rw [tables]
    · rw [tables]
  | removed removal => exact .inl (.of_removal removal)
  | @left p _ _ _ _ _ removal detached =>
    have hleft : Keeps h.toTables { h.toTables with livePeers := h.livePeers.erase p } :=
      .of_shares_eq rfl rfl
    exact .inl ((hleft.trans (.of_removal removal)).trans (keeps_of_detached detached))
  | @resumed p id m sid sess greeted resumes =>
    have hkeeps : Keeps (limited opt io h p).toTables
        ((limited opt io h p).resumeSession p sid id sess).toTables := by
      refine keeps_resumeSession ?_ id
      rw [tables_limited]
      exact resumes.session
    rw [tables_limited] at hkeeps
    exact .inl hkeeps
  | started starts => exact .inr (.inr ⟨_, _, _, _, _, starts, rfl⟩)

/-- The sessions and shares of a session that starts. -/
theorem startSession_eq {p id : Bytes} {s : Share} (reqId : Int) :
    ((limited opt io h p).startSession io p reqId id s).sessions =
      h.sessions.insert io.sessionId ⟨id, s.owner, some p, io.token, io.now⟩ ∧
    ((limited opt io h p).startSession io p reqId id s).shares = h.shares.insert id
      ⟨s.code, s.mode, s.owner, s.info, s.expiresAt, if s.mode = .once then true else s.claimed,
        s.sessions.insert io.sessionId⟩ := by
  constructor
  · simp only [startSession, join, toTables_next, tables_limited]
  · simp only [startSession, join, toTables_next, tables_limited]

theorem onceClaimed_step {a : Action} (hi : Intact h.toTables) (ho : OnceClaimed h.toTables)
    (hstep : step opt h (io, a) = some h') : OnceClaimed h'.toTables := by
  obtain hkeeps | ⟨s, hnew, hshares, hsessions⟩ | ⟨p, reqId, m, id, s, starts, rfl⟩ :=
    (effect_step hi hstep).keeps_or
  · exact ho.of_keeps hkeeps
  · -- No session belongs to a share that has not been there.
    have hother : ∀ (sid : Bytes) (sess : Session), h.sessions[sid]? = some sess →
        h'.shares[sess.share]? = h.shares[sess.share]? := by
      intro sid sess hsess
      rw [hshares, OrderedMap.get_insert, if_neg]
      intro heq
      obtain ⟨s', hs', -⟩ := hi.senders sid sess hsess
      exact hnew (heq ▸ Std.ExtTreeMap.mem_iff_isSome_getElem?.mpr (by simp [hs']))
    constructor
    · intro sid sess s' hsess hs' honce
      rw [hsessions] at hsess
      rw [hother sid sess hsess] at hs'
      exact ho.claimed sid sess s' hsess hs' honce
    · intro sid sid' sess sess' s' hsess hsess' hsame hs' honce
      rw [hsessions] at hsess hsess'
      rw [hother sid sess hsess] at hs'
      exact ho.single sid sid' sess sess' s' hsess hsess' hsame hs' honce
  · obtain ⟨hsessions, hshares⟩ := @startSession_eq opt io h p id s reqId
    -- An unclaimed once share has no session yet.
    have hfirst : ∀ (sid : Bytes) (sess : Session), h.sessions[sid]? = some sess →
        sess.share = id → s.mode ≠ .once := by
      rintro sid sess hsess rfl honce
      exact starts.open hi
        ⟨honce, ho.claimed sid sess s hsess (share?_eq_some.mp starts.share).2 honce⟩
    constructor
    · intro sid sess s' hsess hs' honce
      rw [hsessions, OrderedMap.get_insert] at hsess
      rw [hshares, OrderedMap.get_insert] at hs'
      split at hs'
      · obtain rfl := Option.some.inj hs'
        exact if_pos honce
      · rename_i hne
        split at hsess
        · obtain rfl := Option.some.inj hsess
          exact absurd rfl hne
        · exact ho.claimed sid sess s' hsess hs' honce
    · intro sid sid' sess sess' s' hsess hsess' hsame hs' honce
      rw [hsessions, OrderedMap.get_insert] at hsess hsess'
      rw [hshares, OrderedMap.get_insert] at hs'
      by_cases hshare : sess.share = id
      · rw [if_pos hshare] at hs'
        obtain rfl := Option.some.inj hs'
        split at hsess
        · rename_i heq
          split at hsess'
          · rename_i heq'
            exact heq'.trans heq.symm
          · exact absurd honce (hfirst sid' sess' hsess' (hsame.trans hshare))
        · exact absurd honce (hfirst sid sess hsess hshare)
      · rw [if_neg hshare] at hs'
        split at hsess
        · obtain rfl := Option.some.inj hsess
          exact absurd rfl hshare
        · split at hsess'
          · obtain rfl := Option.some.inj hsess'
            exact absurd hsame.symm hshare
          · exact ho.single sid sid' sess sess' s' hsess hsess' hsame hs' honce

/-- Session objects stay for good, with their share. -/
theorem session_kept {a : Action} (hi : Intact h.toTables) (hstep : step opt h (io, a) = some h')
    {sid : Bytes} {sess : Session} (hsess : h.sessions[sid]? = some sess) :
    ∃ sess', h'.sessions[sid]? = some sess' ∧ sess'.share = sess.share := by
  obtain hkeeps | ⟨s, -, -, hsessions⟩ | ⟨p, reqId, m, id, s, -, rfl⟩ :=
    (effect_step hi hstep).keeps_or
  · exact hkeeps.session hsess
  · exact ⟨sess, by rw [hsessions]; exact hsess, rfl⟩
  · refine ⟨sess, ?_, rfl⟩
    rw [(@startSession_eq opt io h p id s reqId).1, OrderedMap.get_insert, if_neg]
    · exact hsess
    · rintro rfl
      obtain ⟨-, hfresh, -⟩ := of_step hstep
      exact (of_fresh hfresh).2.2.1 (Std.ExtTreeMap.mem_iff_isSome_getElem?.mpr (by simp [hsess]))

theorem session_visited {as : List (HubIo × Action)} (run : (machine opt).Run Machine.anyStep as h) :
    ∀ past, (machine opt).Visited as past → ∀ (sid : Bytes) (sess : Session),
      past.sessions[sid]? = some sess →
      ∃ sess', h.sessions[sid]? = some sess' ∧ sess'.share = sess.share := by
  induction run with
  | init =>
    intro past hpast sid sess hsess
    rw [hpast.nil] at hsess
    exact ⟨sess, hsess, rfl⟩
  | step run _ hstep ih =>
    intro past hpast sid sess hsess
    obtain hpast | rfl := hpast.snoc run hstep
    · obtain ⟨sess', hsess', hshare⟩ := ih past hpast sid sess hsess
      obtain ⟨sess'', hsess'', hshare'⟩ := session_kept (intact_run run) hstep hsess'
      exact ⟨sess'', hsess'', hshare'.trans hshare⟩
    · exact ⟨sess, hsess, rfl⟩

theorem onceClaimed_run {as : List (HubIo × Action)}
    (run : (machine opt).Run Machine.anyStep as h) : OnceClaimed h.toTables := by
  induction run with
  | init =>
    constructor
    · intro sid sess s hsess
      simp [machine] at hsess
    · intro sid sid' sess sess' s hsess
      simp [machine] at hsess
  | step run _ hstep ih => exact onceClaimed_step (intact_run run) ih hstep

/-! ## A once code -/

/-- The handling of a request, if the peer has greeted. -/
theorem step_request {p : Bytes} {req : Request}
    (hstep : step opt h (io, .text p (some req)) = some h') :
    h.idle p = true ∧ h.fresh io = true ∧
      (h.greeted p = false ∧ (∃ code text, h' = h.next p [errorTask p req.id code text]) ∨
        (h.greeted p = true ∨ req.body.isHello = true) ∧
          h' = h.dispatch opt io p req.id req.body) := by
  obtain ⟨-, hf, hidle, heq⟩ := of_step hstep
  refine ⟨hidle, hf, ?_⟩
  simp only [handleText] at heq
  split at heq
  · rename_i hgreeted
    simp only [Bool.and_eq_true, Bool.not_eq_true'] at hgreeted
    exact .inl ⟨hgreeted.1, _, _, heq⟩
  · rename_i hgreeted
    refine .inr ⟨?_, heq⟩
    by_contra hnot
    simp_all

/-- A claim that is answered with an error changes no table. -/
theorem tables_refused {p : Bytes} {id : Int} {m : Except Bytes ClaimMsg}
    (hstep : step opt h (io, .text p (some ⟨id, .claim m⟩)) = some h')
    (herror : ∃ code text, errorTask p id code text ∈ h'.threads p) : h'.toTables = h.toTables := by
  obtain ⟨-, -, ⟨-, code, text, rfl⟩ | ⟨-, rfl⟩⟩ := step_request hstep
  · rfl
  · cases m with
    | error err => rfl
    | ok m =>
      revert herror
      apply onClaim_rule (motive := fun h₂ =>
        (∃ code text, errorTask p id code text ∈ h₂.threads p) → h₂.toTables = h.toTables)
      intro h₂ outcome herror
      cases outcome with
      | ignored closed => rfl
      | refused opened refusal => exact tables_limited p
      | resumed resumes =>
        obtain ⟨code, text, hmem⟩ := herror
        simp [resumeSession, join, next, errorTask] at hmem
      | started starts =>
        obtain ⟨code, text, hmem⟩ := herror
        simp [startSession, join, next, errorTask] at hmem

/-- What a code is good for. -/
structure OnceCode (opt : Options) (as : List (HubIo × Action)) (h : Hub) : Prop where
  /-- Whatever sessions of a once share the run has seen, they were the same one. -/
  single : ∀ past past', (machine opt).Visited as past → (machine opt).Visited as past' →
    ∀ (sid sid' : Bytes) (sess sess' : Session) (s : Share), past.sessions[sid]? = some sess →
      past'.sessions[sid']? = some sess' → sess'.share = sess.share →
      h.shares[sess.share]? = some s → s.mode = .once → sid' = sid
  /-- A claim that is answered with an error leaves everything as it is. -/
  refused : ∀ (io : HubIo) (p : Bytes) (id : Int) (m : Except Bytes ClaimMsg) (h' : Hub),
    (machine opt).step h (io, .text p (some ⟨id, .claim m⟩)) = some h' →
    (∃ code text, errorTask p id code text ∈ h'.threads p) → h'.toTables = h.toTables
  /-- A code that is neither consumed nor expired gives a session to who claims it. -/
  valid : ∀ (io : HubIo) (p shareId : Bytes) (id : Int) (m : ClaimMsg) (s : Share) (h' : Hub),
    (machine opt).step h (io, .text p (some ⟨id, .claim (.ok m)⟩)) = some h' →
    h.greeted p = true → h.closed = false → m.resumeToken = [] →
    (h.claimAllowed opt.withDefaults io (h.peerIp p)).1 = true →
    h.share? shareId = some s → ¬ (s.mode = .once ∧ s.claimed = true) →
    Codes.normalize m.code = some s.code → io.now < s.expiresAt → s.owner ≠ p →
    h.sessionsFull opt.withDefaults p s.owner = false →
    h'.session? io.sessionId = some ⟨shareId, s.owner, some p, io.token, io.now⟩ ∧
      h'.threads p = [.announce io.sessionId id false]

theorem onceCode_run {as : List (HubIo × Action)} (run : (machine opt).Run Machine.anyStep as h) :
    OnceCode opt as h where
  single past past' hpast hpast' sid sid' sess sess' s hsess hsess' hsame hs honce := by
    obtain ⟨sess₀, hsess₀, hshare⟩ := session_visited run past hpast sid sess hsess
    obtain ⟨sess₁, hsess₁, hshare'⟩ := session_visited run past' hpast' sid' sess' hsess'
    refine (onceClaimed_run run).single sid sid' sess₀ sess₁ s hsess₀ hsess₁ ?_ ?_ honce
    · rw [hshare', hsame, hshare]
    · rw [hshare]
      exact hs
  refused io p id m h' hstep herror := tables_refused hstep herror
  valid io p shareId id m s h' hstep hgreeted hopened hcode hallowed hs hopen hnorm hnow hother hfull := by
    have hi := intact_run run
    have hentry : h.codes.byId[shareId]? = some ⟨shareId, s.code, s.expiresAt⟩ :=
      (hi.codes _ _).mpr ⟨s, hs, hopen, rfl⟩
    have starts : Starts opt.withDefaults io h p m shareId s :=
      ⟨hopened, hallowed, hcode, ⟨_, hi.consistent.lookup_code hentry hnorm hnow, rfl⟩, hs, hother,
        hfull⟩
    obtain ⟨-, -, ⟨hnot, -⟩ | ⟨-, rfl⟩⟩ := step_request hstep
    · rw [hgreeted] at hnot
      cases hnot
    · show (h.onClaim _ io p id (.ok m)).session? _ = _ ∧ (h.onClaim _ io p id (.ok m)).threads p = _
      rw [starts.onClaim_eq]
      constructor
      · rw [session?_eq_some, (startSession_eq id).1]
        simp [startSession, join]
      · simp [startSession, join, next]

/-- A wrong code first, and then the right one. -/
def onceRun : List (HubIo × Action) :=
  shareRun (ascii "once") ++
    [request 6 1 [80, 2] 2 (.claim (.ok { code := ascii "5555555555" })),
      goesOn 6 [80, 2], goesOn 6 [80, 2],
      request 6 1 [80, 2] 3 (.claim (.ok { code := ascii "4444444444" }))]

theorem exec_onceRun : ((machine {}).exec onceRun (machine {}).init).map (fun h =>
    (h.liveSessions.toList, h.threads [80, 2])) =
    some ([[88, 6]], [.announce [88, 6] 3 false]) := by
  decide

theorem onceCode_claimed : ∃ h, (machine {}).Run Machine.anyStep onceRun h ∧
    [88, 6] ∈ h.liveSessions ∧ OnceCode {} onceRun h := by
  obtain ⟨h, hexec, heq⟩ := Option.map_eq_some_iff.mp exec_onceRun
  have run := Machine.run_of_exec hexec
  refine ⟨h, run, ?_, onceCode_run run⟩
  rw [← Std.ExtTreeSet.mem_toList, (Prod.mk.inj heq).1]
  exact List.mem_singleton_self _

/-! ## The parties of a session -/

/-- A session that has a receiver had it before, or a claim has just attached it. -/
theorem Effect.attached_or {a : Action} (effect : Effect opt io h a h') {sid q : Bytes}
    {sess' : Session} (hsess' : h'.session? sid = some sess') (hreceiver : sess'.receiver = some q) :
    h.session? sid = some sess' ∨
    (∃ id m sess, a = .text q (some ⟨id, .claim (.ok m)⟩) ∧ h.greeted q = true ∧
      Resumes opt io h q m sid sess ∧ sess' = { sess with receiver := some q }) ∨
    ∃ m id s, Starts opt io h q m id s ∧ sid = io.sessionId ∧
      sess' = ⟨id, s.owner, some q, io.token, io.now⟩ := by
  cases effect with
  | quiet same =>
    rw [session?_eq_some, same.sessions, same.liveSessions] at hsess'
    exact .inl (session?_eq_some.mpr hsess')
  | created running new empty opened added code tables =>
    rw [session?_eq_some, tables] at hsess'
    exact .inl (session?_eq_some.mpr hsess')
  | removed removal => exact .inl (removal.session?.mp hsess').1
  | left removal detached =>
    left
    rw [session?_eq_some, detached.liveSessions] at hsess'
    obtain ⟨sess, hsess, hsame⟩ := detached.of_session hsess'.2
    -- The session has a receiver still, so that it was not detached.
    have hkept : sess' = sess := by
      obtain hsame | ⟨-, rfl⟩ := hsame
      · exact hsame
      · unfold without at hreceiver ⊢
        split at hreceiver
        · cases hreceiver
        · rename_i hother
          exact if_neg hother
    rw [hkept]
    exact (removal.session?.mp (session?_eq_some.mpr ⟨hsess'.1, hsess⟩)).1
  | @resumed p id m sid' sess greeted resumes =>
    simp only [resumeSession, join, toTables_next, session?_eq_some, OrderedMap.get_insert,
      tables_limited] at hsess'
    obtain ⟨hlive, hget⟩ := hsess'
    split at hget
    · rename_i heq
      subst heq
      obtain rfl := Option.some.inj hget
      obtain rfl := Option.some.inj hreceiver
      exact .inr (.inl ⟨id, m, sess, rfl, greeted, resumes, rfl⟩)
    · exact .inl (session?_eq_some.mpr ⟨hlive, hget⟩)
  | @started p reqId m id s starts =>
    rw [session?_eq_some, (startSession_eq reqId).1, OrderedMap.get_insert] at hsess'
    obtain ⟨hlive, hget⟩ := hsess'
    split at hget
    · rename_i heq
      obtain rfl := Option.some.inj hget
      obtain rfl := Option.some.inj hreceiver
      exact .inr (.inr ⟨m, id, s, starts, heq, rfl⟩)
    · rename_i hne
      simp only [startSession, join, toTables_next, OrderedSet.mem_insert_iff, hne, false_or,
        tables_limited] at hlive
      exact .inl (session?_eq_some.mpr ⟨hlive, hget⟩)

/-- No session has its sender as its receiver. -/
def PartiesApart (t : Tables) : Prop :=
  ∀ (sid p : Bytes) (sess : Session), t.session? sid = some sess → sess.receiver = some p →
    sess.sender ≠ p

/-- The sender of a session that has lost its receiver claims it by its token. -/
def ClaimsOwn (opt : Options) (h : Hub) (a : HubIo × Action) : Prop :=
  ∃ p id m sid sess, a.2 = .text p (some ⟨id, .claim (.ok m)⟩) ∧ h.greeted p = true ∧
    Resumes opt a.1 h p m sid sess ∧ sess.sender = p

/-- What a claim by token leaves. -/
theorem Resumes.of_step (hi : Intact h.toTables) {p sid : Bytes} {id : Int} {m : ClaimMsg}
    {sess : Session} (resumes : Resumes opt io h p m sid sess) (hgreeted : h.greeted p = true)
    (hstep : step opt h (io, .text p (some ⟨id, .claim (.ok m)⟩)) = some h') :
    h'.session? sid = some { sess with receiver := some p } ∧
      h'.threads p = [.announce sid id true] := by
  obtain ⟨-, -, ⟨hnot, -⟩ | ⟨-, rfl⟩⟩ := step_request hstep
  · rw [hgreeted] at hnot
    cases hnot
  · show (h.onClaim opt io p id (.ok m)).session? _ = _ ∧ (h.onClaim opt io p id (.ok m)).threads p = _
    rw [resumes.onClaim_eq]
    obtain ⟨sess', hsess', -⟩ := (hi.tokens _ sid).mp resumes.token
    constructor
    · simp [resumeSession, join, session?_eq_some, tables_limited, (session?_eq_some.mp hsess').1]
    · simp [resumeSession, join, next]

theorem partiesApart_step {a : HubIo × Action} (hi : Intact h.toTables)
    (hapart : PartiesApart h.toTables) (hstep : step opt h a = some h') :
    PartiesApart h'.toTables ↔ ¬ ClaimsOwn opt h a := by
  obtain ⟨io, a⟩ := a
  constructor
  · rintro hapart' ⟨p, id, m, sid, sess, rfl, hgreeted, resumes, howner⟩
    exact hapart' sid p _ (resumes.of_step hi hgreeted hstep).1 rfl howner
  · intro hother sid p sess' hsess' hreceiver
    obtain hsess | ⟨id, m, sess, rfl, hgreeted, resumes, rfl⟩ | ⟨m, id, s, starts, -, rfl⟩ :=
      (effect_step hi hstep).attached_or hsess' hreceiver
    · exact hapart sid p sess' hsess hreceiver
    · exact fun howner => hother ⟨p, id, m, sid, sess, rfl, hgreeted, resumes, howner⟩
    · exact starts.other

theorem partiesApart_run_iff {as : List (HubIo × Action)}
    (run : (machine opt).Run Machine.anyStep as h) :
    (∀ past, (machine opt).Visited as past → PartiesApart past.toTables) ↔
      (machine opt).Run (fun h a => ¬ ClaimsOwn opt.withDefaults h a) as h := by
  refine run.forall_visited_iff (fun sid p sess hsess => ?_)
    fun as h a h' run hapart hstep => partiesApart_step (intact_run run) hapart hstep
  simp [machine, session?] at hsess

theorem partiesApart_claimed : ∃ h, (machine {}).Run Machine.anyStep onceRun h ∧
    ((∀ past, (machine {}).Visited onceRun past → PartiesApart past.toTables) ↔
      (machine {}).Run (fun h a => ¬ ClaimsOwn (Options.withDefaults {}) h a) onceRun h) := by
  obtain ⟨h, hexec, -⟩ := Option.map_eq_some_iff.mp exec_onceRun
  have run := Machine.run_of_exec hexec
  exact ⟨h, run, partiesApart_run_iff run⟩

/-- Both parties are told of the session. -/
def toldRun : List (HubIo × Action) :=
  claimRun ++ [goesOn 7 [80, 2], goesOn 7 [80, 2], goesOn 7 [80, 2]]

/-- The receiver disconnects. -/
def droppedRun : List (HubIo × Action) := toldRun ++ [(ioAt 7 1, .disconnect [80, 2])]

/-- The owner of the share takes the place of the receiver. -/
theorem partiesApart_ownResume : ∃ h sess, (machine {}).Run Machine.anyStep (droppedRun ++
      [request 8 2 [80, 1] 3 (.claim (.ok { resumeToken := [84, 6] }))]) h ∧
    h.session? [88, 6] = some sess ∧ sess.sender = [80, 1] ∧ sess.receiver = some [80, 1] := by
  have hexec : ((machine {}).exec (droppedRun ++
      [request 8 2 [80, 1] 3 (.claim (.ok { resumeToken := [84, 6] }))]) (machine {}).init).map
        (·.session? [88, 6]) = some (some ⟨[83, 4], [80, 1], some [80, 1], [84, 6], 1⟩) := by
    decide +kernel
  obtain ⟨h, hexec, hsess⟩ := Option.map_eq_some_iff.mp hexec
  exact ⟨h, _, Machine.run_of_exec hexec, hsess, rfl, rfl⟩

/-! ## Claims that come too late -/

/-- A closed hub has no shares. -/
theorem no_shares_run {as : List (HubIo × Action)} (run : (machine opt).Run Machine.anyStep as h) :
    h.closed = true → ∀ id, id ∉ h.liveShares := by
  induction run with
  | init => exact fun _ id => OrderedSet.not_mem_empty_iff id
  | @step as h a h' run _ hstep ih =>
    obtain ⟨io, a⟩ := a
    intro hclosed id
    have hi := intact_run run
    obtain rfl | hbefore := closed_step hstep hclosed
    · obtain ⟨-, -, heffect⟩ := @of_step opt.withDefaults io h h' .shutdown hstep
      simp only at heffect
      subst heffect
      have hclosing : Closing (· ∈ io.order.keysOf h.liveShares) h.toTables (h.shutdown io).toTables :=
        closing_closeShares .serverClose none _ { h with closed := true } hi.toLinked
      rw [hclosing.liveShares, MapOrder.mem_keysOf]
      exact fun hlive => hlive.2 hlive.1
    · have hnone := ih hbefore
      have heffect := effect_step hi hstep
      cases heffect with
      | quiet same =>
        rw [same.liveShares]
        exact hnone id
      | created running => exact absurd (running.symm.trans hbefore) Bool.false_ne_true
      | removed removal => exact fun hlive => hnone id ((removal.liveShares id).mp hlive).1
      | left removal detached =>
        rw [detached.liveShares]
        exact fun hlive => hnone id ((removal.liveShares id).mp hlive).1
      | resumed greeted resumes => exact absurd (resumes.opened.symm.trans hbefore) Bool.false_ne_true
      | started starts => exact absurd (starts.opened.symm.trans hbefore) Bool.false_ne_true

/-- The claim asks for the share `s`. -/
def AsksFor (t : Tables) (m : ClaimMsg) (s : Share) : Prop :=
  if m.resumeToken ≠ [] then ∃ (sid : Bytes) (sess : Session), t.tokens[m.resumeToken]? = some sid ∧
    t.sessions[sid]? = some sess ∧ t.shares[sess.share]? = some s
  else ∃ (id : Bytes) (e : Codes.Entry), t.codes.byId[id]? = some e ∧
    Codes.normalize m.code = some e.code ∧ t.shares[id]? = some s

/-- The claim is answered with an error, and no session starts or gets a receiver. -/
structure Rejected (h h' : Hub) (p : Bytes) (id : Int) : Prop where
  error : ∃ code text, errorTask p id code text ∈ h'.threads p
  unannounced : ∀ sid reqId resumed, .announce sid reqId resumed ∉ h'.threads p
  tables : h'.toTables = h.toTables

/-- A claim of a share whose time has passed is rejected. -/
def Punctual (h : Hub) (a : HubIo × Action) (h' : Hub) : Prop :=
  ∀ (p : Bytes) (id : Int) (m : ClaimMsg) (s : Share), a.2 = .text p (some ⟨id, .claim (.ok m)⟩) →
    AsksFor h.toTables m s → s.expiresAt ≤ a.1.now → Rejected h h' p id

/-- A claim by token resumes a session of a share whose time has passed. -/
def LateResume (opt : Options) (h : Hub) (a : HubIo × Action) : Prop :=
  ∃ p id m sid sess s, a.2 = .text p (some ⟨id, .claim (.ok m)⟩) ∧ h.greeted p = true ∧
    Resumes opt a.1 h p m sid sess ∧ h.shares[sess.share]? = some s ∧ s.expiresAt ≤ a.1.now

/-- What a claim asks for is there. -/
theorem live_of_asksFor (hi : Intact h.toTables) {m : ClaimMsg} {s : Share}
    (hasks : AsksFor h.toTables m s) : ∃ id, id ∈ h.liveShares := by
  unfold AsksFor at hasks
  split at hasks
  · obtain ⟨sid, sess, htoken, -, -⟩ := hasks
    obtain ⟨sess', hsess', -⟩ := (hi.tokens _ sid).mp htoken
    exact ⟨_, hi.shareLive sid sess' hsess'⟩
  · obtain ⟨id, e, hentry, -, -⟩ := hasks
    obtain ⟨s', hs', -⟩ := (hi.codes id e).mp hentry
    exact ⟨id, (share?_eq_some.mp hs').1⟩

/-- By code, a share is found only before its time has passed. -/
theorem Starts.punctual (hi : Intact h.toTables) {p id : Bytes} {m : ClaimMsg} {s s' : Share}
    (starts : Starts opt io h p m id s) (hasks : AsksFor h.toTables m s') : io.now < s'.expiresAt := by
  simp only [AsksFor, starts.byCode, ne_eq, not_true_eq_false, if_false] at hasks
  obtain ⟨id', e', hentry', hcode', hs'⟩ := hasks
  obtain ⟨e, hlookup, -⟩ := starts.found
  obtain ⟨hentry, hcode, hnow⟩ := hi.consistent.of_lookup hlookup
  obtain rfl := hi.consistent.codes _ _ e e' hentry hentry'
    (Option.some.inj (hcode.symm.trans hcode'))
  obtain ⟨s'', hs'', -, heq⟩ := (hi.codes id' e).mp hentry'
  obtain rfl := Option.some.inj ((share?_eq_some.mp hs'').2.symm.trans hs')
  rw [heq] at hnow
  exact hnow

theorem Refusal.error_mem {p : Bytes} {id : Int} {tasks : List Task} (h : Refusal p id tasks) :
    ∃ code text, errorTask p id code text ∈ tasks := by
  obtain ⟨code, text, rfl | rfl⟩ := h
  · exact ⟨code, text, by simp⟩
  · exact ⟨code, text, by simp⟩

theorem Refusal.rejected {p : Bytes} {id : Int} {tasks : List Task} (hrefusal : Refusal p id tasks)
    (htables : h'.toTables = h.toTables) : Rejected h (h'.next p tasks) p id where
  error := by simpa [next] using hrefusal.error_mem
  unannounced sid reqId resumed hmem := by
    simp only [next, Function.update_self] at hmem
    exact absurd (hrefusal.plain _ hmem) Bool.false_ne_true
  tables := htables

theorem punctual_step {as : List (HubIo × Action)} {a : HubIo × Action}
    (run : (machine opt).Run Machine.anyStep as h) (hstep : (machine opt).step h a = some h') :
    Punctual h a h' ↔ ¬ LateResume opt.withDefaults h a := by
  obtain ⟨io, a⟩ := a
  have hi := intact_run run
  constructor
  · rintro hpunctual ⟨p, id, m, sid, sess, s, rfl, hgreeted, resumes, hs, hlate⟩
    have hasks : AsksFor h.toTables m s := by
      rw [AsksFor, if_pos resumes.byToken]
      exact ⟨sid, sess, resumes.token, resumes.session, hs⟩
    have hthread := (resumes.of_step hi hgreeted hstep).2
    refine (hpunctual p id m s rfl hasks hlate).unannounced sid id true ?_
    rw [hthread]
    exact List.mem_singleton_self _
  · rintro hother p id m s rfl hasks hlate
    have hopened : h.closed = false := by
      obtain ⟨id, hlive⟩ := live_of_asksFor hi hasks
      by_contra hclosed
      exact no_shares_run run (by simpa using hclosed) id hlive
    obtain ⟨-, -, ⟨-, code, text, rfl⟩ | ⟨hgreeted, rfl⟩⟩ := step_request hstep
    · exact Refusal.rejected ⟨code, text, .inl rfl⟩ rfl
    · apply onClaim_rule (motive := fun h₂ => Rejected h h₂ p id)
      intro h₂ outcome
      cases outcome with
      | ignored closed => exact absurd (closed.symm.trans hopened) Bool.false_ne_true.symm
      | refused opened refusal => exact refusal.rejected (tables_limited p)
      | @resumed sid sess resumes =>
        rw [AsksFor, if_pos resumes.byToken] at hasks
        obtain ⟨sid', sess', htoken, hsess', hs⟩ := hasks
        obtain rfl := Option.some.inj (htoken.symm.trans resumes.token)
        obtain rfl := Option.some.inj (hsess'.symm.trans resumes.session)
        exact absurd ⟨p, id, m, sid', sess', s, rfl, hgreeted.resolve_right Bool.false_ne_true, resumes, hs, hlate⟩
          hother
      | started starts => exact absurd (starts.punctual hi hasks) (not_lt.mpr hlate)

theorem punctual_run_iff {as : List (HubIo × Action)}
    (run : (machine opt).Run Machine.anyStep as h) :
    (∀ past a now, (machine opt).Took as past a now → Punctual past a now) ↔
      (machine opt).Run (fun h a => ¬ LateResume opt.withDefaults h a) as h := by
  apply Machine.Run.forall_took_iff ?_ run
  intro as h a h' run hstep
  exact punctual_step run hstep

theorem punctual_claimed : ∃ h, (machine {}).Run Machine.anyStep droppedRun h ∧
    ((∀ past a now, (machine {}).Took droppedRun past a now → Punctual past a now) ↔
      (machine {}).Run (fun h a => ¬ LateResume (Options.withDefaults {}) h a) droppedRun h) := by
  have hexec : ((machine {}).exec droppedRun (machine {}).init).isSome := by decide +kernel
  obtain ⟨h, hexec⟩ := Option.isSome_iff_exists.mp hexec
  have run := Machine.run_of_exec hexec
  exact ⟨h, run, punctual_run_iff run⟩

/-- A third peer connects after the share's ten minutes are over, before the next sweep. -/
def lateRun : List (HubIo × Action) :=
  droppedRun ++ [(ioAt 8 (10 * minute), .connect []),
    request 9 (10 * minute) [80, 8] 1 (.hello (.ok { proto := 1 }))]

def lateClaim : HubIo × Action :=
  request 9 (10 * minute) [80, 8] 2 (.claim (.ok { resumeToken := [84, 6] }))

/-- It gets the session, and the announcement is owed to it. -/
theorem punctual_lateResume : ∃ past now sess, (machine {}).Took (lateRun ++ [lateClaim]) past lateClaim now ∧
    ¬ Punctual past lateClaim now ∧ now.session? [88, 6] = some sess ∧
    sess.receiver = some [80, 8] ∧ now.threads [80, 8] = [.announce [88, 6] 2 true] := by
  have hexec : ((machine {}).exec lateRun (machine {}).init).map (fun past =>
      (past.tokens.get? [84, 6], (past.sessions.get? [88, 6]).map (·.share),
        (past.shares.get? [83, 4]).map (·.expiresAt))) =
      some (some [88, 6], some [83, 4], some (10 * minute)) := by
    decide +kernel
  have hclaim : ((machine {}).exec (lateRun ++ [lateClaim]) (machine {}).init).map (fun now =>
      (now.session? [88, 6], now.threads [80, 8])) =
      some (some ⟨[83, 4], [80, 1], some [80, 8], [84, 6], 1⟩, [.announce [88, 6] 2 true]) := by
    decide +kernel
  obtain ⟨past, hexec, heq⟩ := Option.map_eq_some_iff.mp hexec
  obtain ⟨now, hclaim, hnow⟩ := Option.map_eq_some_iff.mp hclaim
  simp only [Prod.mk.injEq, Option.map_eq_some_iff] at heq hnow
  obtain ⟨htoken, ⟨old, hold, hshare⟩, s, hs, hexpires⟩ := heq
  obtain ⟨hsess, hthread⟩ := hnow
  have run := Machine.run_of_exec hexec
  have hstep : (machine {}).step past lateClaim = some now := by
    simpa [Machine.exec_append, hexec, Machine.exec] using hclaim
  refine ⟨past, now, _, run.took hstep, fun hpunctual => ?_, hsess, rfl, hthread⟩
  have hasks : AsksFor past.toTables { resumeToken := [84, 6] } s := by
    rw [AsksFor, if_pos (List.cons_ne_nil _ _)]
    refine ⟨_, old, htoken, hold, ?_⟩
    rw [hshare]
    exact hs
  refine (hpunctual [80, 8] 2 _ s rfl hasks hexpires.le).unannounced [88, 6] 2 true ?_
  rw [hthread]
  exact List.mem_singleton_self _

end Hub

end CrossTransfer.Signal
