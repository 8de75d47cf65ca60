import CrossTransfer.Library.EventLog
import CrossTransfer.Signal.Announce

/-! # Starts and ends

A goroutine sends the starts of a session after it has given up the lock, so the session may end
in between, and then a start comes after the end. This is the only way: in a run in which no
session ends while its announcement is pending (`Undisturbed`), starts and ends are in order and
only sessions that the hub has are started (`inOrder_run`).
-/

namespace CrossTransfer.Signal

open CrossTransfer.Library
open CrossTransfer.Transfer

/-- The peer is told that the session has ended. -/
def Output.Ends (p sid : Bytes) (o : Output) : Prop := ∃ reason, o = .text p (.sessionEnd sid reason)

/-- The peer is told to start the session. -/
def Output.Starts (p sid : Bytes) (o : Output) : Prop :=
  ∃ m, o = .text p (.sessionStart m) ∧ m.sessionId = sid

/-- A claim has resumed the session. -/
def Output.Resumes (sid : Bytes) (o : Output) : Prop := ∃ p id, o = .joined sid p id true

/-- The session that a task starts. -/
def Task.session? : Task → Option Bytes
  | .announce sid _ _ => some sid
  | .start _ m => some m.sessionId
  | _ => none

namespace Hub

open Tables

variable {opt : Options} {io : HubIo} {h h' : Hub}

/-- The announcement of the session is not complete. -/
def Pending (h : Hub) (sid : Bytes) : Prop := ∃ p, ∃ t ∈ h.threads p, t.session? = some sid

/-- The step removes the session: a party leaves it, its share is closed by the owner, has expired,
    or goes with the owner, or the hub shuts down. -/
def EndsSession (io : HubIo) (h : Hub) (sid : Bytes) : Action → Prop
  | .text p (some ⟨_, .leave (.ok sid')⟩) => sid' = sid ∧ h.greeted p = true ∧
    ∃ sess, h.session? sid = some sess ∧ isMember sess p = true
  | .text p (some ⟨_, .closeShare (.ok id)⟩) => h.greeted p = true ∧
    ∃ s sess, h.share? id = some s ∧ s.owner = p ∧ h.session? sid = some sess ∧ sess.share = id
  | .disconnect p => p ∈ h.livePeers ∧ ∃ sess, h.session? sid = some sess ∧ sess.sender = p
  | .sweep => ∃ sess s, h.session? sid = some sess ∧ h.share? sess.share = some s ∧
    s.expiresAt ≤ io.now
  | .shutdown => sid ∈ h.liveSessions
  | _ => False

/-- No session ends while its announcement is pending. -/
def Undisturbed (h : Hub) (a : HubIo × Action) : Prop :=
  ∀ sid, h.Pending sid → ¬ EndsSession a.1 h sid a.2

/-- Starts and ends of a session are in order. -/
structure InOrder (h : Hub) : Prop where
  /-- For each peer, a start after an end comes from a claim that resumed the session after it. -/
  ordered : ∀ p sid, Separated (Output.Ends p sid) (Output.Resumes sid) (Output.Starts p sid) h.log
  /-- The session that is started next is there. -/
  live : ∀ p q m rest, h.threads p = .start q m :: rest → m.sessionId ∈ h.liveSessions

/-! ## Sessions that stay -/

theorem mem_liveSessions {t : Tables} (hl : Linked t) {sid : Bytes} (hlive : sid ∈ t.liveSessions) :
    ∃ sess, t.session? sid = some sess := by
  obtain ⟨sess, hsess⟩ := Option.isSome_iff_exists.mp
    (Std.ExtTreeMap.mem_iff_isSome_getElem?.mp (hl.sessionsLive sid hlive))
  exact ⟨sess, session?_eq_some.mpr ⟨hlive, hsess⟩⟩

theorem live_closing {D : Bytes → Prop} {t t' : Tables} (hc : Closing D t t') {sid : Bytes}
    {sess : Session} (hsess : t.session? sid = some sess) (hstays : ¬ D sess.share) :
    sid ∈ t'.liveSessions := by
  rw [hc.liveSessions]
  refine ⟨(session?_eq_some.mp hsess).1, ?_⟩
  rintro ⟨sess', hsess', -, hD⟩
  rw [(session?_eq_some.mp hsess).2] at hsess'
  obtain rfl := Option.some.inj hsess'
  exact hstays hD

theorem live_dispatch (hi : Intact h.toTables) {p : Bytes} {id : Int} {body : Body} {sid : Bytes}
    (hlive : sid ∈ h.liveSessions) (hgreeted : h.greeted p = true ∨ body.isHello = true)
    (hstays : ¬ EndsSession io h sid (.text p (some ⟨id, body⟩))) :
    sid ∈ (h.dispatch opt io p id body).liveSessions := by
  obtain ⟨sess, hsess⟩ := mem_liveSessions hi.toLinked hlive
  cases body with
  | hello m =>
    show sid ∈ (h.onHello opt io p id m).liveSessions
    rw [(sameObjects_onHello p id m).liveSessions]
    exact hlive
  | createShare m =>
    simp only [dispatch, onCreateShare]
    repeat' split
    all_goals exact hlive
  | closeShare m =>
    simp only [dispatch, onCloseShare]
    split
    · exact hlive
    · rename_i shareId
      split
      · exact hlive
      · rename_i s hs
        split
        · exact hlive
        · rename_i howner
          -- The session goes on, unless it is one of the share that its owner closes.
          refine live_closing (closing_closeShare hi.toLinked shareId _ _) hsess fun hshare => ?_
          exact hstays ⟨hgreeted.resolve_right Bool.false_ne_true, s, sess, hs, by simpa using howner, hsess, hshare⟩
  | claim m =>
    cases m with
    | error err => exact hlive
    | ok m =>
      show sid ∈ (h.onClaim opt io p id (.ok m)).liveSessions
      apply onClaim_rule (motive := fun h₂ => sid ∈ h₂.liveSessions)
      intro h₂ outcome
      cases outcome with
      | ignored closed => exact hlive
      | refused opened refusal => simpa [tables_limited] using hlive
      | resumed resumes => simpa [resumeSession, join, tables_limited] using hlive
      | started starts =>
        simp [startSession, join, tables_limited, hlive]
  | signal m =>
    show sid ∈ (h.onSignal p id m).liveSessions
    rw [tables_onSignal]
    exact hlive
  | leave m =>
    simp only [dispatch, onLeave]
    split
    · exact hlive
    · rename_i left
      split
      · exact hlive
      · rename_i sess' hmember
        rw [Option.filter_eq_some_iff] at hmember
        -- Only the session goes that a member leaves.
        rw [toTables_next, (removal_endSession hi.toLinked left _ _).liveSessions]
        refine ⟨hlive, fun hsame => ?_⟩
        subst hsame
        exact hstays ⟨rfl, hgreeted.resolve_right Bool.false_ne_true, sess', hmember.1, hmember.2⟩
  | ping => exact hlive
  | pong => exact hlive
  | unknown type => exact hlive

theorem live_disconnect (hi : Intact h.toTables) {p sid : Bytes} (hlive : sid ∈ h.liveSessions)
    (hstays : ¬ EndsSession io h sid (.disconnect p)) :
    sid ∈ (h.disconnect io p).liveSessions := by
  unfold disconnect
  split
  · exact hlive
  · rename_i hconnected
    rw [not_not] at hconnected
    obtain ⟨sess, hsess⟩ := mem_liveSessions hi.toLinked hlive
    have hclosing := @closing_closeShares io .peerOffline (some p)
      (io.order.keysOf (h.peerShares p)) { h with livePeers := h.livePeers.erase p }
      (linked_erasePeer hi.toLinked p)
    simp only
    rw [(detached_foldl p _ _).liveSessions]
    refine live_closing hclosing hsess fun hclosed => hstays ⟨hconnected, sess, hsess, ?_⟩
    obtain ⟨-, s, hs, howner⟩ := hi.integrity.peerShares p _ ((MapOrder.mem_keysOf ..).mp hclosed)
    obtain ⟨s', hs', howner'⟩ := hi.share_of_session hsess
    obtain rfl := Option.some.inj (hs.symm.trans hs')
    rw [← howner', howner]

/-- A session that the step does not end is still there. -/
theorem live_step {a : Action} (hi : Intact h.toTables) (hstep : step opt h (io, a) = some h')
    {sid : Bytes} (hlive : sid ∈ h.liveSessions) (hstays : ¬ EndsSession io h sid a) :
    sid ∈ h'.liveSessions := by
  obtain ⟨sess, hsess⟩ := mem_liveSessions hi.toLinked hlive
  obtain ⟨s, hs, -⟩ := hi.share_of_session hsess
  cases a with
  | connect ip =>
    have heq : h' = h.connect io ip := (of_step hstep).2.2
    rw [heq]
    exact hlive
  | text p req =>
    cases req with
    | none =>
      obtain ⟨-, -, -, rfl⟩ := of_step hstep
      exact hlive
    | some req =>
      obtain ⟨-, -, ⟨-, code, text, rfl⟩ | ⟨hgreeted, rfl⟩⟩ := step_request hstep
      · exact hlive
      · exact live_dispatch hi hlive hgreeted hstays
  | binary p frame =>
    obtain ⟨-, -, -, rfl⟩ := of_step hstep
    rw [tables_handleBinary]
    exact hlive
  | task p =>
    obtain ⟨-, -, t, rest, -, rfl⟩ := of_step hstep
    rw [tables_runTask]
    exact hlive
  | disconnect p =>
    obtain ⟨-, -, -, rfl⟩ := of_step hstep
    exact live_disconnect hi hlive hstays
  | sweep =>
    have heq : h' = h.sweep io := (of_step hstep).2.2
    rw [heq]
    have hclosing := closing_foldl (f := fun h id => h.expireShare io id) (Q := Expired io.now)
      closing_expireShare expired_removal (io.order.keysOf h.liveShares) h hi.toLinked
    refine live_closing hclosing hsess fun hclosed => hstays ?_
    obtain ⟨-, s', hs', hexpired⟩ := hclosed
    exact ⟨sess, s', hsess, share?_eq_some.mpr ⟨(share?_eq_some.mp hs).1, hs'⟩, hexpired⟩
  | shutdown => exact absurd hlive hstays
  | setNotifications snapshot =>
    have heq : h' = h.setNotifications io snapshot :=
      (of_step hstep).2.2
    rw [heq, tables_setNotifications]
    exact hlive

/-! ## The invariant -/

/-- Announcements are about sessions that the hub has, and a session that has a receiver has been
    resumed since it last ended. -/
structure Timely (h : Hub) : Prop where
  pending : ∀ sid, h.Pending sid → sid ∈ h.liveSessions
  known : ∀ p sid reason, .text p (.sessionEnd sid reason) ∈ h.log → sid ∈ h.sessions
  resumed : ∀ p q sid, h.Attached sid q → Followed (Output.Ends p sid) (Output.Resumes sid) h.log
  ordered : ∀ p sid, Separated (Output.Ends p sid) (Output.Resumes sid) (Output.Starts p sid) h.log

theorem told_not_starts {o : Output} (ho : h.Told o) (p sid : Bytes) : ¬ o.Starts p sid := by
  rintro ⟨m, rfl, -⟩
  obtain hsilent | ⟨_, _, _, heq, -⟩ := ho
  · cases hsilent
  · cases heq

theorem told_not_ends {o : Output} (ho : h.Told o) {p q sid : Bytes} (hattached : h.Attached sid q) :
    ¬ o.Ends p sid := by
  rintro ⟨reason, rfl⟩
  obtain hsilent | ⟨_, _, _, heq, -, hended⟩ := ho
  · cases hsilent
  · cases heq
    exact hended q hattached

theorem pending_plain {tasks : List Task} (hplain : ∀ t ∈ tasks, t.plain = true) {t : Task}
    (ht : t ∈ tasks) {sid : Bytes} : t.session? ≠ some sid := by
  have := hplain t ht
  cases t with
  | announce => cases this
  | start => cases this
  | _ => exact (Option.some_ne_none sid).symm

theorem Pending.of_ordinary (same : Ordinary h h') {sid : Bytes} (hp : h'.Pending sid) :
    h.Pending sid := by
  obtain ⟨p, t, ht, hsid⟩ := hp
  obtain heq | ⟨-, hplain⟩ := same.threads p
  · rw [heq] at ht
    exact ⟨p, t, ht, hsid⟩
  · exact absurd hsid (pending_plain hplain ht)

theorem Timely.ordinary (h₀ : Timely h) (same : Ordinary h h')
    (hlive : ∀ sid, h.Pending sid → sid ∈ h.liveSessions → sid ∈ h'.liveSessions) : Timely h' where
  pending sid hp :=
    have hbefore := hp.of_ordinary same
    hlive sid hbefore (h₀.pending sid hbefore)
  known p sid reason hmem := by
    obtain ⟨out, hout, htold⟩ := same.log
    rw [hout, List.mem_append] at hmem
    obtain hmem | hmem := hmem
    · exact (same.sessions sid).mpr (h₀.known p sid reason hmem)
    · obtain hsilent | ⟨_, _, _, heq, hsess, -⟩ := htold _ hmem
      · cases hsilent
      · cases heq
        exact hsess
  resumed p q sid hattached := by
    obtain ⟨out, hout, htold⟩ := same.log
    rw [hout]
    exact (h₀.resumed p q sid (same.attached sid q hattached)).append
      fun o ho => told_not_ends (htold o ho) hattached
  ordered p sid := by
    obtain ⟨out, hout, htold⟩ := same.log
    rw [hout]
    exact (h₀.ordered p sid).append fun o ho => told_not_starts (htold o ho) p sid

/-- A claim attaches a receiver to a session that is new or is resumed. -/
theorem Timely.join (h₀ : Timely h) {p sid : Bytes} {id : Int} {resumed : Bool}
    (log : h'.log = h.log ++ [.joined sid p id resumed])
    (threads : h'.threads = Function.update h.threads p [.announce sid id resumed])
    (live : ∀ sid', sid' ∈ h'.liveSessions ↔ sid' = sid ∨ sid' ∈ h.liveSessions)
    (sessions : ∀ sid', sid' ∈ h.sessions → sid' ∈ h'.sessions)
    (attached : ∀ sid' q, h'.Attached sid' q → sid' = sid ∨ h.Attached sid' q)
    (new : resumed = true ∨ sid ∉ h.sessions) : Timely h' where
  pending sid' hp := by
    obtain ⟨q, t, ht, hsid⟩ := hp
    rw [threads] at ht
    rw [live]
    by_cases hq : q = p
    · subst hq
      rw [Function.update_self, List.mem_singleton] at ht
      subst ht
      exact .inl (Option.some.inj hsid).symm
    · rw [Function.update_of_ne hq] at ht
      exact .inr (h₀.pending sid' ⟨q, t, ht, hsid⟩)
  known q sid' reason hmem := by
    rw [log, List.mem_append, List.mem_singleton] at hmem
    obtain hmem | hmem := hmem
    · exact sessions sid' (h₀.known q sid' reason hmem)
    · cases hmem
  resumed p' q sid' hattached := by
    have hnot : ∀ o ∈ [Output.joined sid p id resumed], ¬ o.Ends p' sid' := by
      rintro o ho ⟨reason, rfl⟩
      cases List.mem_singleton.mp ho
    rw [log]
    obtain rfl | hbefore := attached sid' q hattached
    · obtain rfl | hnew := new
      · exact followed_snoc ⟨p, id, rfl⟩ (hnot _ (List.mem_singleton_self _))
      · refine Followed.append (followed_of_not fun o ho => ?_) hnot
        rintro ⟨reason, rfl⟩
        exact hnew (h₀.known p' sid' reason ho)
    · exact (h₀.resumed p' q sid' hbefore).append hnot
  ordered q sid' := by
    rw [log]
    refine (h₀.ordered q sid').append fun o ho => ?_
    rintro ⟨m, rfl, -⟩
    cases List.mem_singleton.mp ho

/-- A task goes on with the announcement that it belongs to. -/
theorem Pending.of_ran {p : Bytes} {tasks : List Task} (hthread : h.threads p = tasks)
    (ran : Ran opt io h p tasks h') {sid : Bytes} (hp : h'.Pending sid) : h.Pending sid := by
  obtain ⟨q, t, ht, hsid⟩ := hp
  by_cases hq : q = p
  · subst hq
    refine ⟨q, ?_⟩
    rw [hthread]
    cases ran with
    | plain all isPlain silent =>
      simp only [next, Function.update_self] at ht
      exact ⟨t, List.mem_cons_of_mem _ ht, hsid⟩
    | announce receives commit same receiver sender unasked =>
      refine ⟨_, List.mem_singleton_self _, ?_⟩
      obtain ⟨hfirst, -⟩ := Prod.mk.inj commit
      simp only [next, Function.update_self, List.mem_cons, List.not_mem_nil, or_false] at ht
      obtain rfl | rfl := ht
      · rw [← hsid, Task.session?, Task.session?, hfirst]
      · rw [← hsid, Task.session?, Task.session?, same]
    | start receives same receiver sender unasked =>
      simp only [send, next, Function.update_self] at ht
      exact ⟨t, List.mem_cons_of_mem _ ht, hsid⟩
    | last receives sender unasked => simp [send, next] at ht
  · refine ⟨q, t, ?_, hsid⟩
    cases ran <;> simpa [next, send, Function.update_of_ne hq] using ht

/-- A start is sent for a session that has a receiver. -/
theorem Timely.start (h₀ : Timely h) {p q sid : Bytes} {m : SessionStart} (hpending : h.Pending sid)
    (hreceives : h.Receives sid p) (hm : m.sessionId = sid) (htables : h'.toTables = h.toTables)
    (hlog : h'.log = h.log ++ [.text q (.sessionStart m)])
    (hthreads : ∀ sid, h'.Pending sid → h.Pending sid) : Timely h' where
  pending sid' hp := by
    rw [htables]
    exact h₀.pending sid' (hthreads sid' hp)
  known p' sid' reason hmem := by
    rw [hlog, List.mem_append, List.mem_singleton] at hmem
    rw [htables]
    obtain hmem | hmem := hmem
    · exact h₀.known p' sid' reason hmem
    · cases hmem
  resumed p' q' sid' hattached := by
    rw [htables] at hattached
    rw [hlog]
    refine (h₀.resumed p' q' sid' hattached).append fun o ho => ?_
    rintro ⟨reason, rfl⟩
    cases List.mem_singleton.mp ho
  ordered p' sid' := by
    rw [hlog]
    by_cases hsame : sid' = sid
    · subst hsame
      obtain ⟨sess, hsess, hreceiver⟩ := hreceives
      have hattached : h.Attached sid' p :=
        ⟨sess, session?_eq_some.mpr ⟨h₀.pending sid' hpending, hsess⟩, hreceiver⟩
      exact (h₀.ordered p' sid').snoc (h₀.resumed p' p sid' hattached) _
    · refine (h₀.ordered p' sid').append fun o ho => ?_
      rintro ⟨m', rfl, hm'⟩
      cases List.mem_singleton.mp ho
      exact hsame (hm'.symm.trans hm)

theorem Timely.ran (h₀ : Timely h) {p : Bytes} {tasks : List Task} (hthread : h.threads p = tasks)
    (ran : Ran opt io h p tasks h') : Timely h' := by
  have hthreads : ∀ sid, h'.Pending sid → h.Pending sid := fun sid => Pending.of_ran hthread ran
  have hpending : ∀ t ∈ tasks, ∀ sid, t.session? = some sid → h.Pending sid :=
    fun t ht sid hsid => ⟨p, t, hthread ▸ ht, hsid⟩
  cases ran with
  | @plain t rest o all isPlain silent =>
    have htold : h.Told o := .inl silent
    refine ⟨fun sid hp => h₀.pending sid (hthreads sid hp), fun p' sid reason hmem => ?_,
      fun p' q sid hattached => ?_, fun p' sid => ?_⟩
    · rw [List.mem_append, List.mem_singleton] at hmem
      obtain hmem | rfl := hmem
      · exact h₀.known p' sid reason hmem
      · cases silent
    · refine (h₀.resumed p' q sid hattached).append fun o' ho' => ?_
      obtain rfl := List.mem_singleton.mp ho'
      exact told_not_ends htold hattached
    · refine (h₀.ordered p' sid).append fun o' ho' => ?_
      obtain rfl := List.mem_singleton.mp ho'
      exact told_not_starts htold p' sid
  | announce receives commit same receiver sender unasked =>
    exact ⟨fun sid hp => h₀.pending sid (hthreads sid hp), h₀.known, h₀.resumed, h₀.ordered⟩
  | @start m m' q receives same receiver sender unasked =>
    exact h₀.start (m := { m with iceServers := iceServers opt io p })
      (hpending _ List.mem_cons_self _ rfl) receives rfl rfl rfl hthreads
  | @last m q receives sender unasked =>
    exact h₀.start (m := { m with iceServers := iceServers opt io q })
      (hpending _ List.mem_cons_self _ rfl) receives rfl rfl rfl hthreads

theorem mem_sessions_insert {sid sid' : Bytes} {sess : Session} {sessions : OrderedMap Bytes Session}
    (hmem : sid' ∈ sessions) : sid' ∈ sessions.insert sid sess := by
  rw [Std.ExtTreeMap.mem_insert]
  exact .inr hmem

theorem timely_resumed (hi : Intact h.toTables) (h₀ : Timely h) {p sid : Bytes} {id : Int}
    {m : ClaimMsg} {sess : Session} (resumes : Resumes opt io h p m sid sess) :
    Timely ((limited opt io h p).resumeSession p sid id sess) := by
  refine h₀.join (log_resumeSession ..) (threads_resumeSession ..) (fun sid' => ?_)
    (fun sid' hmem => ?_) (fun sid' q hattached => ?_) (.inl rfl)
  · obtain ⟨sess', hsess', -⟩ := (hi.tokens _ sid).mp resumes.token
    simp only [resumeSession, join, toTables_next, tables_limited]
    exact ⟨.inr, fun hmem => hmem.elim (fun heq => heq ▸ (session?_eq_some.mp hsess').1) fun h => h⟩
  · simp only [resumeSession, join, toTables_next, tables_limited]
    exact mem_sessions_insert hmem
  · by_cases hsame : sid' = sid
    · exact .inl hsame
    · right
      obtain ⟨sess', hsess', hreceiver⟩ := hattached
      simp only [resumeSession, join, toTables_next, tables_limited, session?_eq_some,
        OrderedMap.get_insert, if_neg hsame] at hsess'
      exact ⟨sess', session?_eq_some.mpr hsess', hreceiver⟩

theorem timely_started (h₀ : Timely h) (hnew : io.sessionId ∉ h.sessions) {p shareId : Bytes}
    {id : Int} {s : Share} : Timely ((limited opt io h p).startSession io p id shareId s) := by
  refine h₀.join (log_startSession ..) (threads_startSession ..) (fun sid' => ?_)
    (fun sid' hmem => ?_) (fun sid' q hattached => ?_) (.inr hnew)
  · simp only [startSession, join, toTables_next, tables_limited, OrderedSet.mem_insert_iff]
  · rw [(startSession_eq id).1]
    exact mem_sessions_insert hmem
  · by_cases hsame : sid' = io.sessionId
    · exact .inl hsame
    · right
      obtain ⟨sess', hsess', hreceiver⟩ := hattached
      rw [session?_eq_some, (startSession_eq id).1, OrderedMap.get_insert, if_neg hsame] at hsess'
      simp only [startSession, join, toTables_next, tables_limited, OrderedSet.mem_insert_iff, hsame,
        false_or] at hsess'
      exact ⟨sess', session?_eq_some.mpr hsess', hreceiver⟩

theorem timely_step {a : HubIo × Action} (hi : Intact h.toTables)
    (hshapes : ∀ p, Shape h.toTables p (h.threads p)) (h₀ : Timely h) (hok : Undisturbed h a)
    (hstep : step opt h a = some h') : Timely h' := by
  obtain ⟨io, a⟩ := a
  have hlive : ∀ sid, h.Pending sid → sid ∈ h.liveSessions → sid ∈ h'.liveSessions :=
    fun sid hp hmem => live_step hi hstep hmem (hok sid hp)
  have htrace := trace_step hstep
  cases htrace with
  | ordinary same => exact h₀.ordinary same hlive
  | stopped same =>
    have hclosed : Timely { h with closed := true } :=
      ⟨h₀.pending, h₀.known, h₀.resumed, h₀.ordered⟩
    exact hclosed.ordinary same hlive
  | resumed idle resumes => exact timely_resumed hi h₀ resumes
  | started idle starts =>
    obtain ⟨-, hfresh, -⟩ := of_step hstep
    exact timely_started h₀ (of_fresh hfresh).2.2.1
  | @ran p t rest thread => exact h₀.ran thread (ran_runTask hi (thread ▸ hshapes p))

theorem timely_run {as : List (HubIo × Action)} (run : (machine opt).Run Undisturbed as h) :
    Timely h := by
  induction run with
  | init =>
    refine ⟨fun sid hp => ?_, fun p sid reason hmem => ?_, fun p q sid _ => followed_nil,
      fun p sid => separated_nil⟩
    · obtain ⟨p, t, ht, -⟩ := hp
      simp [machine] at ht
    · simp [machine] at hmem
  | step run hok hstep ih => exact timely_step (intact_run run) (shapes_run run).1 ih hok hstep

theorem inOrder_run {as : List (HubIo × Action)} (run : (machine opt).Run Undisturbed as h) :
    InOrder h where
  ordered := (timely_run run).ordered
  live p q m rest hthread :=
    (timely_run run).pending _ ⟨p, .start q m, by rw [hthread]; exact List.mem_cons_self, rfl⟩

/-- The receiver has gone and another peer has resumed the session, whose parties are told again. -/
def resumedTail : List (HubIo × Action) :=
  [(ioAt 8 2, .connect []), request 9 2 [80, 8] 1 (.hello (.ok { proto := 1 })),
    request 9 2 [80, 8] 2 (.claim (.ok { resumeToken := [84, 6] })),
    goesOn 9 [80, 8], goesOn 9 [80, 8], goesOn 9 [80, 8]]

theorem exec_resumedTail : ((machine {}).exec (droppedRun ++ resumedTail) (machine {}).init).map
    (fun h => (h.log.drop 6).map fun o => match o with
      | .text p (.sessionEnd sid _) => (p, sid, false)
      | .text p (.sessionStart m) => (p, m.sessionId, true)
      | _ => ([], [], false)) =
    some [([80, 1], [88, 6], false), ([], [], false), ([], [], false), ([80, 8], [88, 6], true),
      ([80, 1], [88, 6], true)] := by
  decide

theorem exec_toldRun : ((machine {}).exec toldRun (machine {}).init).map (fun h =>
    (h.liveSessions.toList, (h.sessions.get? [88, 6]).map (·.sender))) =
    some ([[88, 6]], some [80, 1]) := by
  decide

theorem inOrder_resumed : ∃ h, (machine {}).Run Undisturbed (droppedRun ++ resumedTail) h ∧
    InOrder h := by
  obtain ⟨h, hexec, -⟩ := Option.map_eq_some_iff.mp exec_resumedTail
  obtain ⟨dropped, hdropped, htail⟩ := Machine.exec_append_some hexec
  obtain ⟨told, htold, hdisconnect⟩ := Machine.exec_append_some hdropped
  obtain ⟨told', htold', heq⟩ := Option.map_eq_some_iff.mp exec_toldRun
  obtain rfl := Option.some.inj (htold.symm.trans htold')
  simp only [Prod.mk.injEq, Option.map_eq_some_iff] at heq
  obtain ⟨hlive, sess, hsess, hsender⟩ := heq
  have run : (machine {}).Run Undisturbed toldRun told := by
    refine .of_exec (fun a ha t sid _ => ?_) htold
    simp only [toldRun, claimRun, shareRun, request, goesOn, List.mem_append, List.mem_cons,
      List.not_mem_nil, or_false] at ha
    obtain ((rfl | rfl | rfl | rfl | rfl | rfl) | rfl) | rfl | rfl | rfl := ha <;> exact fun h => h
  have hstep : (machine {}).step told (ioAt 7 1, .disconnect [80, 2]) = some dropped := by
    simpa [Machine.exec] using hdisconnect
  -- The peer that disconnects sends in no session.
  have hok : Undisturbed told (ioAt 7 1, .disconnect [80, 2]) := by
    rintro sid - ⟨-, sess', hsess', hsender'⟩
    have hmem := (session?_eq_some.mp hsess').1
    rw [← Std.ExtTreeSet.mem_toList, hlive, List.mem_singleton] at hmem
    subst hmem
    obtain rfl := Option.some.inj (hsess.symm.trans (session?_eq_some.mp hsess').2)
    rw [hsender] at hsender'
    cases hsender'
  have run' := run.step hok hstep
  have run'' : (machine {}).Run Undisturbed (droppedRun ++ resumedTail) h := by
    refine run'.extend (fun a ha t sid _ => ?_) htail
    simp only [resumedTail, request, goesOn, List.mem_cons, List.not_mem_nil, or_false] at ha
    obtain rfl | rfl | rfl | rfl | rfl | rfl := ha <;> exact fun h => h
  exact ⟨h, run'', inOrder_run run''⟩

/-- The owner leaves the session that has just started, before the receiver is told of it. -/
def leftRun : List (HubIo × Action) :=
  claimRun ++ [request 7 1 [80, 1] 3 (.leave (.ok [88, 6])), goesOn 7 [80, 2], goesOn 7 [80, 2]]

theorem exec_leftRun : ((machine {}).exec leftRun (machine {}).init).map (fun h =>
    (h.log.drop 4, h.liveSessions.toList)) =
    some ([.text [80, 2] (.sessionEnd [88, 6] .peerLeft),
      .text [80, 2] (.sessionStart {
        id := 2
        sessionId := [88, 6]
        shareId := [83, 4]
        isSender := false
        remotePeerId := [80, 1]
        resumeToken := [84, 6]
        resumed := false })], []) := by
  decide

/-- The start comes after the end, for a session that is gone. -/
theorem inOrder_left : ∃ h, (machine {}).Run Machine.anyStep leftRun h ∧
    ¬ Separated (Output.Ends [80, 2] [88, 6]) (Output.Resumes [88, 6])
      (Output.Starts [80, 2] [88, 6]) h.log ∧ [88, 6] ∉ h.liveSessions := by
  obtain ⟨h, hexec, heq⟩ := Option.map_eq_some_iff.mp exec_leftRun
  obtain ⟨hlog, hlive⟩ := Prod.mk.inj heq
  refine ⟨h, Machine.run_of_exec hexec, fun hseparated => ?_, ?_⟩
  · have hsplit := (List.take_append_drop 4 h.log).symm
    rw [hlog] at hsplit
    obtain ⟨o, hmem, -⟩ := hseparated (h.log.take 4) _ [] _ [] hsplit ⟨_, rfl⟩ ⟨_, rfl, rfl⟩
    cases hmem
  · rw [← Std.ExtTreeSet.mem_toList, hlive]
    exact List.not_mem_nil

end Hub

end CrossTransfer.Signal
