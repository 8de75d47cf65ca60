import CrossTransfer.Signal.Effects

/-! # What a step sends

Two kinds of steps send the start of a session: a claim that succeeds leaves an `announce` to its
goroutine, and the goroutine works it off (`Trace`). All others are `Ordinary`: what they leave to
a goroutine starts no session, what they send does not either, and the end of a session is sent
when the session has lost its receiver.
-/

namespace CrossTransfer.Signal

open CrossTransfer.Library
open CrossTransfer.Transfer

/-- Neither the start nor the end of a session. -/
def Message.silent : Message → Bool
  | .sessionStart _ => false
  | .sessionEnd _ _ => false
  | _ => true

def Output.silent : Output → Bool
  | .text _ m => m.silent
  | .joined .. => false
  | _ => true

/-- A task that neither starts nor ends a session. -/
def Task.plain : Task → Bool
  | .send _ m => m.silent
  | .announce .. => false
  | .start .. => false
  | _ => true

/-- The peer is the receiver of a session that the hub has. -/
def Tables.Attached (t : Tables) (sid p : Bytes) : Prop :=
  ∃ sess, t.session? sid = some sess ∧ sess.receiver = some p

theorem Tables.Attached.mono {t t' : Tables} (hlive : ∀ sid, sid ∈ t'.liveSessions → sid ∈ t.liveSessions)
    (hsessions : t'.sessions = t.sessions) {sid p : Bytes} (h : t'.Attached sid p) :
    t.Attached sid p := by
  obtain ⟨sess, hsess, hreceiver⟩ := h
  rw [session?_eq_some, hsessions] at hsess
  exact ⟨sess, session?_eq_some.mpr ⟨hlive sid hsess.1, hsess.2⟩, hreceiver⟩

namespace Hub

open Tables

/-- What an ordinary step may send: among others the end of a session that has no receiver. -/
def Told (h' : Hub) (o : Output) : Prop :=
  o.silent = true ∨ ∃ p sid reason, o = .text p (.sessionEnd sid reason) ∧ sid ∈ h'.sessions ∧
    ∀ q, ¬ h'.Attached sid q

/-- A step that neither attaches a receiver nor announces one. -/
structure Ordinary (h h' : Hub) : Prop where
  threads : ∀ p, h'.threads p = h.threads p ∨
    h.threads p = [] ∧ ∀ t ∈ h'.threads p, t.plain = true
  log : ∃ out, h'.log = h.log ++ out ∧ ∀ o ∈ out, h'.Told o
  closed : h'.closed = h.closed
  crashed : h'.crashed = h.crashed
  attached : ∀ sid p, h'.Attached sid p → h.Attached sid p
  sessions : ∀ sid, sid ∈ h'.sessions ↔ sid ∈ h.sessions

variable {opt : Options} {io : HubIo} {h h' h'' : Hub}

namespace Ordinary

/-- A step that sends nothing. -/
theorem of_frame (threads : h'.threads = h.threads) (log : h'.log = h.log)
    (closed : h'.closed = h.closed) (crashed : h'.crashed = h.crashed)
    (attached : ∀ sid p, h'.Attached sid p → h.Attached sid p)
    (sessions : ∀ sid, sid ∈ h'.sessions ↔ sid ∈ h.sessions) : Ordinary h h' where
  threads p := .inl (congrFun threads p)
  log := ⟨[], by simpa using log, by simp⟩
  closed := closed
  crashed := crashed
  attached := attached
  sessions := sessions

theorem refl (h : Hub) : Ordinary h h :=
  of_frame rfl rfl rfl rfl (fun _ _ hq => hq) fun _ => .rfl

theorem told (hh' : Ordinary h h') {o : Output} (ho : h.Told o) : h'.Told o := by
  obtain hsilent | ⟨p, sid, reason, rfl, hsess, hended⟩ := ho
  · exact .inl hsilent
  · exact .inr ⟨p, sid, reason, rfl, (hh'.sessions sid).mpr hsess,
      fun q hq => hended q (hh'.attached sid q hq)⟩

theorem trans (hh' : Ordinary h h') (hh'' : Ordinary h' h'') : Ordinary h h'' where
  threads p := by
    obtain hsame' | ⟨hempty', hplain'⟩ := hh''.threads p
    · rw [hsame']
      exact hh'.threads p
    · right
      refine ⟨?_, hplain'⟩
      obtain hsame | ⟨hempty, -⟩ := hh'.threads p
      · rw [← hsame, hempty']
      · exact hempty
  log := by
    obtain ⟨out, hout, htold⟩ := hh'.log
    obtain ⟨out', hout', htold'⟩ := hh''.log
    refine ⟨out ++ out', by rw [hout', hout, List.append_assoc], fun o ho => ?_⟩
    obtain ho | ho := List.mem_append.mp ho
    · exact hh''.told (htold o ho)
    · exact htold' o ho
  closed := hh''.closed.trans hh'.closed
  crashed := hh''.crashed.trans hh'.crashed
  attached sid p hp := hh'.attached sid p (hh''.attached sid p hp)
  sessions sid := (hh''.sessions sid).trans (hh'.sessions sid)

theorem send {p : Bytes} {m : Message} (hh' : Ordinary h h') (hm : h'.Told (.text p m)) :
    Ordinary h (h'.send p m) := by
  refine hh'.trans ⟨fun q => .inl rfl, ⟨[.text p m], rfl, ?_⟩, rfl, rfl, fun _ _ hq => hq, fun _ => .rfl⟩
  intro o ho
  obtain rfl := List.mem_singleton.mp ho
  exact hm

/-- The handler of an idle peer leaves tasks that start nothing. -/
theorem next {p : Bytes} {tasks : List Task} (hh' : Ordinary h h') (hidle : h.threads p = [])
    (hplain : ∀ t ∈ tasks, t.plain = true) : Ordinary h (h'.next p tasks) where
  threads q := by
    by_cases hq : q = p
    · subst hq
      simp [Hub.next, hidle]
      exact .inr hplain
    · simp only [Hub.next, Function.update_of_ne hq]
      exact hh'.threads q
  log := hh'.log
  closed := hh'.closed
  crashed := hh'.crashed
  attached := hh'.attached
  sessions := hh'.sessions

theorem foldl {β : Type*} {f : Hub → β → Hub} (hf : ∀ h b, Ordinary h (f h b)) (bs : List β)
    (h : Hub) : Ordinary h (bs.foldl f h) := by
  induction bs generalizing h with
  | nil => exact refl h
  | cons b bs ih => exact (hf h b).trans (ih (f h b))

end Ordinary

/-! ## Teardown -/

theorem ordinary_endFor {sid : Bytes} (hsess : sid ∈ h.sessions) (hended : ∀ q, ¬ h.Attached sid q)
    (reason : Reason) (initiator : Option Bytes) (p : Bytes) :
    Ordinary h (h.endFor sid reason initiator p) := by
  have hdropped : Ordinary h { h with peers := h.peers.modify p (·.dropSession sid) } :=
    .of_frame rfl rfl rfl rfl (fun _ _ hq => hq) fun _ => .rfl
  unfold endFor
  simp only
  split
  · exact hdropped
  · exact hdropped.send (.inr ⟨p, sid, reason, rfl, hsess, hended⟩)

theorem ordinary_endFor_foldl {sid : Bytes} (reason : Reason) (initiator : Option Bytes)
    (parties : List Bytes) (h : Hub) (hsess : sid ∈ h.sessions) (hended : ∀ q, ¬ h.Attached sid q) :
    Ordinary h (parties.foldl (fun h p => h.endFor sid reason initiator p) h) := by
  induction parties generalizing h with
  | nil => exact .refl h
  | cons p parties ih =>
    have hfirst := ordinary_endFor hsess hended reason initiator p
    exact hfirst.trans (ih _ ((hfirst.sessions sid).mpr hsess)
      fun q hq => hended q (hfirst.attached sid q hq))

theorem ordinary_endSessionLocked (h : Hub) (sid : Bytes) (reason : Reason)
    (initiator : Option Bytes) : Ordinary h (h.endSessionLocked sid reason initiator) := by
  unfold endSessionLocked
  cases hsess : h.session? sid with
  | none => exact .refl h
  | some sess =>
    simp only
    set ended : Hub := { h with
      liveSessions := h.liveSessions.erase sid
      tokens := h.tokens.erase sess.resumeToken
      shares := h.shares.modify sess.share (·.dropSession sid) }
    have hremoved : Ordinary h ended := by
      refine .of_frame rfl rfl rfl rfl (fun sid' q hq => ?_) fun _ => .rfl
      refine Attached.mono (fun sid'' => ?_) ?_ hq
      · simp [ended]
      · rfl
    refine hremoved.trans (ordinary_endFor_foldl _ _ _ ended ?_ ?_)
    · exact Std.ExtTreeMap.mem_iff_isSome_getElem?.mpr (by simp [ended, (session?_eq_some.mp hsess).2])
    · rintro q ⟨sess', hsess', -⟩
      simp [ended, session?_eq_some] at hsess'

theorem ordinary_closeShareLocked (h : Hub) (id : Bytes) (reason : Reason)
    (initiator : Option Bytes) : Ordinary h (h.closeShareLocked io id reason initiator) := by
  unfold closeShareLocked
  cases h.share? id with
  | none => exact .refl h
  | some s =>
    simp only
    set unlisted : Hub := { h with
      liveShares := h.liveShares.erase id
      codes := h.codes.remove id
      peers := h.peers.modify s.owner (·.dropShare id) }
    have hremoved : Ordinary h unlisted := .of_frame rfl rfl rfl rfl (fun _ _ hq => hq) fun _ => .rfl
    have hended := hremoved.trans (.foldl (fun h sid => ordinary_endSessionLocked h sid reason initiator)
      (io.order.keysOf s.sessions) unlisted)
    split
    · exact hended.send (.inl rfl)
    · exact hended

theorem ordinary_expireShare (h : Hub) (id : Bytes) : Ordinary h (h.expireShare io id) := by
  unfold expireShare
  split
  · exact .refl h
  · split
    · exact .refl h
    · exact ordinary_closeShareLocked ..

/-- The sender is told that the receiver is gone. -/
theorem ordinary_detachReceiver (h : Hub) (p sid : Bytes) : Ordinary h (h.detachReceiver p sid) := by
  unfold detachReceiver
  cases hsess : h.sessions[sid]? with
  | none => exact .refl h
  | some sess =>
    simp only
    split
    · set detached : Hub := { h with
        sessions := h.sessions.insert sid { sess with receiver := none }
        peers := h.peers.modify p (·.dropSession sid) }
      have hget : ∀ sid' : Bytes, detached.sessions[sid']? =
          if sid' = sid then some { sess with receiver := none } else h.sessions[sid']? :=
        fun sid' => OrderedMap.get_insert ..
      have hended : ∀ q, ¬ detached.Attached sid q := by
        rintro q ⟨sess', hsess', hreceiver⟩
        rw [session?_eq_some, hget, if_pos rfl] at hsess'
        rw [← Option.some.inj hsess'.2] at hreceiver
        cases hreceiver
      have hmem : ∀ sid', sid' ∈ detached.sessions ↔ sid' ∈ h.sessions := by
        intro sid'
        simp only [Std.ExtTreeMap.mem_iff_isSome_getElem?, hget]
        split
        · rename_i heq
          simp [heq, hsess]
        · rfl
      have hdetached : Ordinary h detached := by
        refine .of_frame rfl rfl rfl rfl (fun sid' q hq => ?_) hmem
        obtain ⟨sess', hsess', hreceiver⟩ := hq
        rw [session?_eq_some, hget] at hsess'
        split at hsess'
        · rw [← Option.some.inj hsess'.2] at hreceiver
          cases hreceiver
        · exact ⟨sess', session?_eq_some.mpr hsess', hreceiver⟩
      refine hdetached.send (.inr ⟨_, sid, .peerOffline, rfl, ?_, hended⟩)
      exact (hmem sid).mpr (Std.ExtTreeMap.mem_iff_isSome_getElem?.mpr (by simp [hsess]))
    · exact .refl h

theorem ordinary_disconnect (h : Hub) (p : Bytes) : Ordinary h (h.disconnect io p) := by
  unfold disconnect
  split
  · exact .refl h
  · have hleft : Ordinary h { h with livePeers := h.livePeers.erase p } :=
      .of_frame rfl rfl rfl rfl (fun _ _ hq => hq) fun _ => .rfl
    refine (hleft.trans (.foldl (fun h id => ?_) _ _)).trans (.foldl (fun h sid => ?_) _ _)
    · exact ordinary_closeShareLocked ..
    · exact ordinary_detachReceiver ..

theorem ordinary_sweep (h : Hub) : Ordinary h (h.sweep io) :=
  (Ordinary.foldl (fun h id => ordinary_expireShare h id) (io.order.keysOf h.liveShares) h).trans
    (.of_frame rfl rfl rfl rfl (fun _ _ hq => hq) fun _ => .rfl)

theorem ordinary_shutdown (h : Hub) : Ordinary { h with closed := true } (h.shutdown io) := by
  refine (Ordinary.foldl (fun h id => ?_) (io.order.keysOf h.liveShares) { h with closed := true }).trans
    ⟨fun _ => .inl rfl, ⟨_, rfl, fun o ho => ?_⟩, rfl, rfl, fun _ _ hq => hq, fun _ => .rfl⟩
  · exact ordinary_closeShareLocked ..
  · obtain ⟨p, -, rfl⟩ := List.mem_map.mp ho
    exact .inl rfl

/-! ## Requests -/

/-- A handler that only leaves tasks. -/
theorem ordinary_next {p : Bytes} {tasks : List Task} (hidle : h.threads p = [])
    (hplain : ∀ t ∈ tasks, t.plain = true) : Ordinary h (h.next p tasks) :=
  (Ordinary.refl h).next hidle hplain

theorem plain_errorTask (p : Bytes) (id : Int) (code : ErrorCode) (text : Bytes) :
    (errorTask p id code text).plain = true := rfl

/-- A request that is answered with an error. -/
theorem ordinary_refused {p : Bytes} (hidle : h.threads p = []) (id : Int) (code : ErrorCode)
    (text : Bytes) : Ordinary h (h.next p [errorTask p id code text]) :=
  ordinary_next hidle (by simp [plain_errorTask])

theorem ordinary_onHello {p : Bytes} (hidle : h.threads p = []) (id : Int)
    (m : Except Bytes HelloMsg) : Ordinary h (h.onHello opt io p id m) := by
  unfold onHello
  split
  · exact ordinary_refused hidle ..
  · simp only
    split
    · refine ordinary_next hidle fun t ht => ?_
      obtain rfl | rfl : t = _ ∨ t = _ := by simpa using ht
      · rfl
      · rfl
    · split
      · exact .refl h
      · rename_i peer _
        split
        · exact ordinary_refused hidle ..
        · rename_i m _ _ _ _
          have hwelcomed : Ordinary h (({ h with peers := h.peers.insert p { peer with
              hello := true
              app := m.app
              platform := m.platform
              notifications := m.notifications } } : Hub).send p
              (.welcome id p (iceServers opt io p) opt.heartbeatSec (io.now / second))) :=
            Ordinary.send (.of_frame rfl rfl rfl rfl (fun _ _ hq => hq) fun _ => .rfl) (.inl rfl)
          split
          · exact hwelcomed.send (.inl rfl)
          · exact hwelcomed

theorem ordinary_onCreateShare {p : Bytes} (hidle : h.threads p = []) (id : Int)
    (m : Except Bytes CreateShareMsg) : Ordinary h (h.onCreateShare opt io p id m) := by
  unfold onCreateShare
  split
  · exact ordinary_refused hidle ..
  · simp only
    split
    · exact ordinary_refused hidle ..
    · split
      · exact ordinary_refused hidle ..
      · split
        · exact .refl h
        · split
          · exact ordinary_refused hidle ..
          · split
            · exact ordinary_refused hidle ..
            · exact Ordinary.next (.of_frame rfl rfl rfl rfl (fun _ _ hq => hq) fun _ => .rfl) hidle
                (by simp [Task.plain, Message.silent])

theorem ordinary_onCloseShare {p : Bytes} (hidle : h.threads p = []) (id : Int)
    (m : Except Bytes Bytes) : Ordinary h (h.onCloseShare io p id m) := by
  unfold onCloseShare
  split
  · exact ordinary_refused hidle ..
  · split
    · exact ordinary_refused hidle ..
    · split
      · exact ordinary_refused hidle ..
      · exact (ordinary_closeShareLocked h _ _ _).next hidle (by simp [Task.plain, Message.silent])

theorem ordinary_onSignal {p : Bytes} (hidle : h.threads p = []) (id : Int)
    (m : Except Bytes SignalMsg) : Ordinary h (h.onSignal p id m) := by
  unfold onSignal
  split
  · exact ordinary_refused hidle ..
  · split
    · exact ordinary_refused hidle ..
    · split
      · exact ordinary_refused hidle ..
      · split
        · exact ordinary_refused hidle ..
        · split
          · exact ordinary_refused hidle ..
          · refine ordinary_next hidle ?_
            split
            · simp [Task.plain, Message.silent]
            · simp [Task.plain, Message.silent]

theorem ordinary_onLeave {p : Bytes} (hidle : h.threads p = []) (id : Int)
    (m : Except Bytes Bytes) : Ordinary h (h.onLeave p id m) := by
  unfold onLeave
  split
  · exact ordinary_refused hidle ..
  · split
    · exact ordinary_refused hidle ..
    · exact (ordinary_endSessionLocked h _ _ _).next hidle (by simp [Task.plain, Message.silent])

theorem ordinary_handleBinary {p : Bytes} (hidle : h.threads p = []) (frame : Bytes) :
    Ordinary h (h.handleBinary io p frame) := by
  unfold handleBinary
  split
  · exact .refl h
  · split
    · exact ordinary_refused hidle ..
    · split
      · exact .refl h
      · split
        · exact ordinary_refused hidle ..
        · split
          · exact .refl h
          · split
            · exact ordinary_next hidle (by simp [Task.plain])
            · exact .refl h

theorem ordinary_setNotifications (h : Hub) (snapshot : Bytes) :
    Ordinary h (h.setNotifications io snapshot) := by
  have hkept : Ordinary h { h with notifications := snapshot } :=
    .of_frame rfl rfl rfl rfl (fun _ _ hq => hq) fun _ => .rfl
  refine hkept.trans (.foldl (fun h p => ?_) _ _)
  split
  · exact (Ordinary.refl h).send (.inl rfl)
  · exact .refl h

theorem Refusal.plain {p : Bytes} {id : Int} {tasks : List Task} (h : Refusal p id tasks) :
    ∀ t ∈ tasks, t.plain = true := by
  obtain ⟨code, text, rfl | rfl⟩ := h
  · simp [plain_errorTask]
  · intro t ht
    obtain rfl | rfl : t = _ ∨ t = _ := by simpa using ht
    · rfl
    · rfl

/-! ## Every step -/

/-- What a step sends and leaves to do. -/
inductive Trace (opt : Options) (io : HubIo) (h : Hub) : Action → Hub → Prop where
  | ordinary {a : Action} {h' : Hub} (same : Ordinary h h') : Trace opt io h a h'
  | stopped {h' : Hub} (same : Ordinary { h with closed := true } h') : Trace opt io h .shutdown h'
  | resumed {p : Bytes} {id : Int} {m : ClaimMsg} {sid : Bytes} {sess : Session}
      (idle : h.threads p = []) (resumes : Resumes opt io h p m sid sess) :
      Trace opt io h (.text p (some ⟨id, .claim (.ok m)⟩))
        ((limited opt io h p).resumeSession p sid id sess)
  | started {p : Bytes} {id : Int} {m : ClaimMsg} {shareId : Bytes} {s : Share}
      (idle : h.threads p = []) (starts : Starts opt io h p m shareId s) :
      Trace opt io h (.text p (some ⟨id, .claim (.ok m)⟩))
        ((limited opt io h p).startSession io p id shareId s)
  | ran {p : Bytes} {t : Task} {rest : List Task} (thread : h.threads p = t :: rest) :
      Trace opt io h (.task p) ((h.next p rest).runTask opt io p t)

theorem ordinary_limited (h : Hub) (p : Bytes) : Ordinary h (limited opt io h p) := by
  obtain ⟨perIp, hperIp⟩ : ∃ perIp, limited opt io h p = { h with perIp := perIp } := limited_eq p
  rw [hperIp]
  exact .of_frame rfl rfl rfl rfl (fun _ _ hq => hq) fun _ => .rfl

theorem closed_limited (p : Bytes) : (limited opt io h p).closed = h.closed :=
  (ordinary_limited h p).closed

theorem crashed_limited (p : Bytes) : (limited opt io h p).crashed = h.crashed :=
  (ordinary_limited h p).crashed

theorem log_limited (p : Bytes) : (limited opt io h p).log = h.log := by
  obtain ⟨perIp, hperIp⟩ : ∃ perIp, limited opt io h p = { h with perIp := perIp } := limited_eq p
  rw [hperIp]

theorem threads_limited (p : Bytes) : (limited opt io h p).threads = h.threads := by
  obtain ⟨perIp, hperIp⟩ : ∃ perIp, limited opt io h p = { h with perIp := perIp } := limited_eq p
  rw [hperIp]

/-- What a claim that succeeds sends, and what it leaves to do. -/
theorem log_resumeSession (p sid : Bytes) (id : Int) (sess : Session) :
    ((limited opt io h p).resumeSession p sid id sess).log = h.log ++ [.joined sid p id true] := by
  simp [resumeSession, join, next, log_limited]

theorem threads_resumeSession (p sid : Bytes) (id : Int) (sess : Session) :
    ((limited opt io h p).resumeSession p sid id sess).threads =
      Function.update h.threads p [.announce sid id true] := by
  simp [resumeSession, join, next, threads_limited]

theorem log_startSession (p shareId : Bytes) (id : Int) (s : Share) :
    ((limited opt io h p).startSession io p id shareId s).log =
      h.log ++ [.joined io.sessionId p id false] := by
  simp [startSession, join, next, log_limited]

theorem threads_startSession (p shareId : Bytes) (id : Int) (s : Share) :
    ((limited opt io h p).startSession io p id shareId s).threads =
      Function.update h.threads p [.announce io.sessionId id false] := by
  simp [startSession, join, next, threads_limited]

theorem trace_dispatch {p : Bytes} (hidle : h.threads p = []) (id : Int) (body : Body) :
    Trace opt io h (.text p (some ⟨id, body⟩)) (h.dispatch opt io p id body) := by
  have hplain : ∀ tasks : List Task, (∀ t ∈ tasks, t.plain = true) →
      Trace opt io h (.text p (some ⟨id, body⟩)) (h.next p tasks) :=
    fun tasks htasks => .ordinary (ordinary_next hidle htasks)
  have hrefused : ∀ code text, Trace opt io h (.text p (some ⟨id, body⟩))
      (h.next p [errorTask p id code text]) :=
    fun code text => .ordinary (ordinary_refused hidle ..)
  cases body with
  | hello m => exact .ordinary (ordinary_onHello hidle id m)
  | createShare m => exact .ordinary (ordinary_onCreateShare hidle id m)
  | closeShare m => exact .ordinary (ordinary_onCloseShare hidle id m)
  | claim m =>
    cases m with
    | error err => exact hrefused ..
    | ok m =>
      apply onClaim_rule
      intro h₂ outcome
      cases outcome with
      | ignored closed => exact .ordinary (.refl h)
      | refused opened refusal =>
        exact .ordinary ((ordinary_limited h p).next hidle refusal.plain)
      | resumed resumes => exact .resumed hidle resumes
      | started starts => exact .started hidle starts
  | signal m => exact .ordinary (ordinary_onSignal hidle id m)
  | leave m => exact .ordinary (ordinary_onLeave hidle id m)
  | ping => exact hplain _ (by simp [Task.plain, Message.silent])
  | pong => exact .ordinary (.refl h)
  | unknown type => exact hrefused ..

theorem idle_threads {p : Bytes} (hidle : h.idle p = true) : h.threads p = [] := by
  simp only [idle, Bool.and_eq_true, List.isEmpty_iff] at hidle
  exact hidle.2

theorem trace_step {a : Action} (hstep : step opt h (io, a) = some h') : Trace opt io h a h' := by
  obtain ⟨-, -, heffect⟩ := of_step hstep
  cases a with
  | connect ip =>
    simp only at heffect
    subst heffect
    exact .ordinary (.of_frame rfl rfl rfl rfl (fun _ _ hq => hq) fun _ => .rfl)
  | text p req =>
    obtain ⟨hidle, rfl⟩ := heffect
    have hthread := idle_threads hidle
    cases req with
    | none =>
      exact .ordinary (ordinary_refused hthread ..)
    | some req =>
      simp only [handleText]
      split
      · exact .ordinary (ordinary_refused hthread ..)
      · exact trace_dispatch hthread req.id req.body
  | binary p frame =>
    obtain ⟨hidle, rfl⟩ := heffect
    exact .ordinary (ordinary_handleBinary (idle_threads hidle) frame)
  | task p =>
    obtain ⟨t, rest, hthread, rfl⟩ := heffect
    exact .ran hthread
  | disconnect p =>
    obtain ⟨-, rfl⟩ := heffect
    exact .ordinary (ordinary_disconnect h p)
  | sweep =>
    simp only at heffect
    subst heffect
    exact .ordinary (ordinary_sweep h)
  | shutdown =>
    simp only at heffect
    subst heffect
    exact .stopped (ordinary_shutdown h)
  | setNotifications snapshot =>
    simp only at heffect
    subst heffect
    exact .ordinary (ordinary_setNotifications h snapshot)

theorem closed_runTask (p : Bytes) (t : Task) : (h.runTask opt io p t).closed = h.closed := by
  cases t with
  | announce sid reqId resumed =>
    simp only [runTask, announceSession]
    split
    · rfl
    · split
      · rfl
      · split <;> rfl
  | _ => rfl

/-- Only `Shutdown` closes the hub. -/
theorem closed_step {a : Action} (hstep : step opt h (io, a) = some h') (hclosed : h'.closed = true) :
    a = .shutdown ∨ h.closed = true := by
  have htrace := trace_step hstep
  cases htrace with
  | ordinary same => exact .inr (same.closed ▸ hclosed)
  | stopped same => exact .inl rfl
  | resumed idle resumes =>
    have := resumes.opened
    rw [← closed_limited] at this
    exact absurd (this.symm.trans hclosed) Bool.false_ne_true
  | started idle starts =>
    have := starts.opened
    rw [← closed_limited] at this
    exact absurd (this.symm.trans hclosed) Bool.false_ne_true
  | ran thread =>
    rw [closed_runTask] at hclosed
    exact .inr hclosed

/-- And it stays closed. -/
theorem closed_kept {a : Action} (hstep : step opt h (io, a) = some h') (hclosed : h.closed = true) :
    h'.closed = true := by
  have htrace := trace_step hstep
  cases htrace with
  | ordinary same => exact same.closed.trans hclosed
  | stopped same => exact same.closed
  | resumed idle resumes => exact absurd (resumes.opened.symm.trans hclosed) Bool.false_ne_true
  | started idle starts => exact absurd (starts.opened.symm.trans hclosed) Bool.false_ne_true
  | ran thread =>
    rw [closed_runTask]
    exact hclosed

end Hub

end CrossTransfer.Signal
