import CrossTransfer.Signal.Announce

/-! # Replies

What the handler of a request does is listed once (`Handled`): it answers, in its critical section
or by what it leaves to its goroutine, it pairs the peer into a session, whose announcement is then
the answer, or it forwards a signal. Everything else a step sends is a notice: it carries no request
id and no data of a session.

So the ids that a peer has used are those it was sent back and those its goroutine still owes it,
in the same order (`ledger_run`), and no other peer is sent one of them.
-/

namespace CrossTransfer.Signal

open CrossTransfer.Library
open CrossTransfer.Transfer

/-- The request id in the envelope. -/
def Message.id : Message → Int
  | .welcome id .. => id
  | .shareCreated id .. => id
  | .sessionStart m => m.id
  | .ok id => id
  | .error id .. => id
  | .pong id _ => id
  | _ => 0

def Message.isSignal : Message → Bool
  | .signal .. => true
  | _ => false

/-- What one party of a session sends to the other: a signal or a relay frame. -/
def Output.isData : Output → Bool
  | .text _ m => m.isSignal
  | .binary .. => true
  | _ => false

/-- The id of a message to `q'`, as a reply to `q`. -/
def replyTo (q q' : Bytes) (id : Int) : List Int := if q' = q ∧ id ≠ 0 then [id] else []

def Output.replies (q : Bytes) : Output → List Int
  | .text q' m => replyTo q q' m.id
  | _ => []

/-- The replies to `q` that a task of the goroutine of `p` will send. -/
def Task.replies (p q : Bytes) : Task → List Int
  | .send q' m => replyTo q q' m.id
  | .announce _ id _ => replyTo q p id
  | .start q' m => replyTo q q' m.id
  | _ => []

/-- It answers no request and carries nothing from one party of a session to the other. -/
structure Output.Notice (o : Output) : Prop where
  replies : ∀ q, o.replies q = []
  data : o.isData = false

namespace Hub

open Tables

variable {opt : Options} {io : HubIo} {h h' h'' : Hub}

theorem replyTo_zero (q q' : Bytes) : replyTo q q' 0 = [] := by
  simp [replyTo]

theorem replyTo_other {q q' : Bytes} (hq : q' ≠ q) (id : Int) : replyTo q q' id = [] := by
  simp [replyTo, hq]

/-- A message without a request id. -/
theorem notice_text {p : Bytes} {m : Message} (hid : m.id = 0) (hdata : m.isSignal = false) :
    (Output.text p m).Notice where
  replies q := by
    simp only [Output.replies, hid]
    exact replyTo_zero q p
  data := hdata

/-! ## Notices -/

/-- What is sent is nothing but notices, and nothing is left to do. -/
structure Notified (h h' : Hub) : Prop where
  threads : h'.threads = h.threads
  log : ∃ out, h'.log = h.log ++ out ∧ ∀ o ∈ out, o.Notice

namespace Notified

theorem of_frame (threads : h'.threads = h.threads) (log : h'.log = h.log) : Notified h h' where
  threads := threads
  log := ⟨[], by simpa using log, by simp⟩

theorem refl (h : Hub) : Notified h h := of_frame rfl rfl

theorem trans (hh' : Notified h h') (hh'' : Notified h' h'') : Notified h h'' where
  threads := hh''.threads.trans hh'.threads
  log := by
    obtain ⟨out, hout, hnotice⟩ := hh'.log
    obtain ⟨out', hout', hnotice'⟩ := hh''.log
    refine ⟨out ++ out', by rw [hout', hout, List.append_assoc], fun o ho => ?_⟩
    obtain ho | ho := List.mem_append.mp ho
    · exact hnotice o ho
    · exact hnotice' o ho

theorem send {p : Bytes} {m : Message} (hh' : Notified h h') (hid : m.id = 0)
    (hdata : m.isSignal = false) : Notified h (h'.send p m) := by
  apply hh'.trans
  refine ⟨rfl, [.text p m], rfl, fun o ho => ?_⟩
  obtain rfl := List.mem_singleton.mp ho
  exact notice_text hid hdata

theorem foldl {β : Type*} {f : Hub → β → Hub} (hf : ∀ h b, Notified h (f h b)) (bs : List β)
    (h : Hub) : Notified h (bs.foldl f h) := by
  induction bs generalizing h with
  | nil => exact refl h
  | cons b bs ih => exact (hf h b).trans (ih (f h b))

end Notified

theorem notified_endFor (h : Hub) (sid : Bytes) (reason : Reason) (initiator : Option Bytes)
    (p : Bytes) : Notified h (h.endFor sid reason initiator p) := by
  have hdropped : Notified h { h with peers := h.peers.modify p (·.dropSession sid) } :=
    .of_frame rfl rfl
  unfold endFor
  simp only
  split
  · exact hdropped
  · exact hdropped.send rfl rfl

theorem notified_endSessionLocked (h : Hub) (sid : Bytes) (reason : Reason)
    (initiator : Option Bytes) : Notified h (h.endSessionLocked sid reason initiator) := by
  unfold endSessionLocked
  split
  · exact .refl h
  · rename_i sess _
    have hremoved : Notified h { h with
        liveSessions := h.liveSessions.erase sid
        tokens := h.tokens.erase sess.resumeToken
        shares := h.shares.modify sess.share (·.dropSession sid) } := .of_frame rfl rfl
    exact hremoved.trans (.foldl (fun h p => notified_endFor h sid reason initiator p) _ _)

theorem notified_closeShareLocked (h : Hub) (id : Bytes) (reason : Reason)
    (initiator : Option Bytes) : Notified h (h.closeShareLocked io id reason initiator) := by
  unfold closeShareLocked
  split
  · exact .refl h
  · rename_i s _
    have hremoved : Notified h { h with
        liveShares := h.liveShares.erase id
        codes := h.codes.remove id
        peers := h.peers.modify s.owner (·.dropShare id) } := .of_frame rfl rfl
    have hended := hremoved.trans (.foldl (fun h sid => notified_endSessionLocked h sid reason initiator)
      (io.order.keysOf s.sessions) _)
    simp only
    split
    · exact hended.send rfl rfl
    · exact hended

theorem notified_expireShare (h : Hub) (id : Bytes) : Notified h (h.expireShare io id) := by
  unfold expireShare
  split
  · exact .refl h
  · split
    · exact .refl h
    · exact notified_closeShareLocked ..

theorem notified_detachReceiver (h : Hub) (p sid : Bytes) : Notified h (h.detachReceiver p sid) := by
  unfold detachReceiver
  split
  · exact .refl h
  · rename_i sess _
    split
    · have hdetached : Notified h { h with
          sessions := h.sessions.insert sid { sess with receiver := none }
          peers := h.peers.modify p (·.dropSession sid) } := .of_frame rfl rfl
      exact hdetached.send rfl rfl
    · exact .refl h

theorem notified_disconnect (h : Hub) (p : Bytes) : Notified h (h.disconnect io p) := by
  unfold disconnect
  split
  · exact .refl h
  · have hleft : Notified h { h with livePeers := h.livePeers.erase p } := .of_frame rfl rfl
    apply (hleft.trans (.foldl (fun h id => notified_closeShareLocked h id _ _) _ _)).trans
    exact .foldl (fun h sid => notified_detachReceiver h p sid) _ _

theorem notified_sweep (h : Hub) : Notified h (h.sweep io) := by
  have hexpired := Notified.foldl (fun h id => @notified_expireShare io h id)
    (io.order.keysOf h.liveShares) h
  exact hexpired.trans (.of_frame rfl rfl)

theorem notified_shutdown (h : Hub) : Notified h (h.shutdown io) := by
  have hclosed : Notified h { h with closed := true } := .of_frame rfl rfl
  apply (hclosed.trans (.foldl (fun h id => @notified_closeShareLocked io h id .serverClose none)
    (io.order.keysOf h.liveShares) _)).trans
  refine ⟨rfl, _, rfl, fun o ho => ?_⟩
  obtain ⟨p, -, rfl⟩ := List.mem_map.mp ho
  exact ⟨fun q => rfl, rfl⟩

theorem notified_setNotifications (h : Hub) (snapshot : Bytes) :
    Notified h (h.setNotifications io snapshot) := by
  have hkept : Notified h { h with notifications := snapshot } := .of_frame rfl rfl
  apply hkept.trans
  apply Notified.foldl
  intro h p
  split
  · exact (Notified.refl h).send rfl rfl
  · exact .refl h

/-! ## Requests -/

/-- A task that sends no message. -/
def Mute (t : Task) : Prop := t = .sleep ∨ ∃ reason, t = .kick reason

/-- The signal that the other party of a session is sent. -/
def signalFrom (p : Bytes) (m : SignalMsg) (dst : Bytes) : Message :=
  .signal m.sessionId p dst m.payload

/-- A request is answered; a `pong` is, if the peer has not said hello. -/
def Answerable (h : Hub) (p : Bytes) (req : Request) : Prop :=
  ¬ (req.body = .pong ∧ h.greeted p = true)

instance (h : Hub) (p : Bytes) (req : Request) : Decidable (h.Answerable p req) :=
  inferInstanceAs (Decidable (¬ _))

/-- What the handler of a request does. -/
inductive Handled (h : Hub) (p : Bytes) (req : Request) : Hub → Prop where
  | unanswered (reason : h.closed = true ∨ ¬ h.Answerable p req) : Handled h p req h
  | welcomed {h' : Hub} {m : Message} (out : List Output) (threads : h'.threads = h.threads)
      (log : h'.log = h.log ++ .text p m :: out) (reply : m.id = req.id)
      (data : m.isSignal = false) (notices : ∀ o ∈ out, o.Notice) (asks : h.Answerable p req) :
      Handled h p req h'
  | answered {mid : Hub} {m : Message} (before after : List Task) (notified : Notified h mid)
      (mute : ∀ t ∈ before ++ after, Mute t) (reply : m.id = req.id) (data : m.isSignal = false)
      (asks : h.Answerable p req) : Handled h p req (mid.next p (before ++ .send p m :: after))
  | joined {h' : Hub} {sid : Bytes} {resumed : Bool}
      (threads : h'.threads = Function.update h.threads p [.announce sid req.id resumed])
      (log : h'.log = h.log ++ [.joined sid p req.id resumed]) (asks : h.Answerable p req) :
      Handled h p req h'
  | forwarded {m : SignalMsg} {sess : Session} {dst : Bytes} (body : req.body = .signal (.ok m))
      (session : h.session? m.sessionId = some sess) (member : isMember sess p = true)
      (other : otherParty sess p = some dst) :
      Handled h p req (h.next p (.send dst (signalFrom p m dst) ::
        if req.id ≠ 0 then [.send p (.ok req.id)] else []))

variable {p : Bytes} {req : Request}

theorem Handled.reply {mid : Hub} {m : Message} (notified : Notified h mid) (hid : m.id = req.id)
    (hdata : m.isSignal = false) (asks : h.Answerable p req) :
    Handled h p req (mid.next p [.send p m]) :=
  .answered [] [] notified (by simp) hid hdata asks

/-- A request that is answered with an error. -/
theorem Handled.refused (asks : h.Answerable p req) (code : ErrorCode) (text : Bytes) :
    Handled h p req (h.next p [errorTask p req.id code text]) :=
  .reply (.refl h) rfl rfl asks

theorem log_send_send (h : Hub) (p : Bytes) (m m' : Message) :
    ((h.send p m).send p m').log = h.log ++ .text p m :: [.text p m'] := by
  simp [send]

theorem handled_onHello (hpeer : p ∈ h.peers) {m : Except Bytes HelloMsg}
    (hbody : req.body = .hello m) : Handled h p req (h.onHello opt io p req.id m) := by
  have asks : h.Answerable p req := by simp [Answerable, hbody]
  unfold onHello
  split
  · exact .refused asks ..
  · rename_i m
    simp only
    split
    · exact .answered [] [_] (.refl h) (by simp [Mute]) rfl rfl asks
    · obtain ⟨peer, hpeer⟩ := mem_peers hpeer
      simp only [hpeer]
      split
      · exact .refused asks ..
      · split
        · refine .welcomed [.text p (.notifications h.notifications)] rfl (log_send_send ..) rfl rfl ?_
            asks
          intro o ho
          obtain rfl := List.mem_singleton.mp ho
          exact notice_text rfl rfl
        · exact .welcomed [] rfl rfl rfl rfl (by simp) asks

theorem handled_onCreateShare {m : Except Bytes CreateShareMsg} (hbody : req.body = .createShare m) :
    Handled h p req (h.onCreateShare opt io p req.id m) := by
  have asks : h.Answerable p req := by simp [Answerable, hbody]
  unfold onCreateShare
  split
  · exact .refused asks ..
  · simp only
    split
    · exact .refused asks ..
    · split
      · exact .refused asks ..
      · split
        · rename_i hclosed
          exact .unanswered (.inl hclosed)
        · split
          · exact .refused asks ..
          · split
            · exact .refused asks ..
            · exact .reply (.of_frame rfl rfl) rfl rfl asks

theorem handled_onCloseShare {m : Except Bytes Bytes} (hbody : req.body = .closeShare m) :
    Handled h p req (h.onCloseShare io p req.id m) := by
  have asks : h.Answerable p req := by simp [Answerable, hbody]
  unfold onCloseShare
  split
  · exact .refused asks ..
  · split
    · exact .refused asks ..
    · split
      · exact .refused asks ..
      · exact .reply (notified_closeShareLocked ..) rfl rfl asks

theorem handled_onClaim {m : Except Bytes ClaimMsg} (hbody : req.body = .claim m) :
    Handled h p req (h.onClaim opt io p req.id m) := by
  have asks : h.Answerable p req := by simp [Answerable, hbody]
  cases m with
  | error err => exact .refused asks ..
  | ok m =>
    apply onClaim_rule
    intro h₂ outcome
    cases outcome with
    | ignored closed => exact .unanswered (.inl closed)
    | refused opened refusal =>
      have hlimited : Notified h (limited opt io h p) :=
        .of_frame (threads_limited p) (log_limited p)
      obtain ⟨code, text, rfl | rfl⟩ := refusal
      · exact .reply hlimited rfl rfl asks
      · exact .answered [.sleep] [] hlimited (by simp [Mute]) rfl rfl asks
    | resumed resumes => exact .joined (threads_resumeSession ..) (log_resumeSession ..) asks
    | started starts => exact .joined (threads_startSession ..) (log_startSession ..) asks

theorem handled_onSignal {m : Except Bytes SignalMsg} (hbody : req.body = .signal m) :
    Handled h p req (h.onSignal p req.id m) := by
  have asks : h.Answerable p req := by simp [Answerable, hbody]
  unfold onSignal
  split
  · exact .refused asks ..
  · split
    · exact .refused asks ..
    · split
      · exact .refused asks ..
      · rename_i sess hsess
        obtain ⟨hsess, hmember⟩ := Option.filter_eq_some_iff.mp hsess
        split
        · exact .refused asks ..
        · rename_i dst hdst
          split
          · exact .refused asks ..
          · exact .forwarded hbody hsess hmember hdst

theorem handled_onLeave {m : Except Bytes Bytes} (hbody : req.body = .leave m) :
    Handled h p req (h.onLeave p req.id m) := by
  have asks : h.Answerable p req := by simp [Answerable, hbody]
  unfold onLeave
  split
  · exact .refused asks ..
  · split
    · exact .refused asks ..
    · exact .reply (notified_endSessionLocked ..) rfl rfl asks

theorem handled_dispatch (hpeer : p ∈ h.peers)
    (hgreeted : h.greeted p = true ∨ req.body.isHello = true) :
    Handled h p req (h.dispatch opt io p req.id req.body) := by
  cases hbody : req.body with
  | hello m => exact handled_onHello hpeer hbody
  | createShare m => exact handled_onCreateShare hbody
  | closeShare m => exact handled_onCloseShare hbody
  | claim m => exact handled_onClaim hbody
  | signal m => exact handled_onSignal hbody
  | leave m => exact handled_onLeave hbody
  | ping => exact .reply (.refl h) rfl rfl (by simp [Answerable, hbody])
  | pong =>
    apply Handled.unanswered
    right
    simpa [Answerable, hbody, Body.isHello] using hgreeted
  | unknown type => exact .refused (by simp [Answerable, hbody]) ..

/-! ## Every step -/

/-- What a step sends and leaves to do. -/
inductive Sent (opt : Options) (io : HubIo) (h : Hub) : Action → Hub → Prop where
  | handled {p : Bytes} {req : Request} {h' : Hub} (idle : h.threads p = [])
      (handled : Handled h p req h') : Sent opt io h (.text p (some req)) h'
  | malformed {p : Bytes} (idle : h.threads p = []) (text : Bytes) :
      Sent opt io h (.text p none) (h.next p [errorTask p 0 .badRequest text])
  | refused {p frame : Bytes} (idle : h.threads p = []) (code : ErrorCode) (text : Bytes) :
      Sent opt io h (.binary p frame) (h.next p [errorTask p 0 code text])
  | relayed {p frame sid dst : Bytes} {sess : Session} (idle : h.threads p = [])
      (header : parseHeader frame = .ok sid) (session : h.session? sid = some sess)
      (member : isMember sess p = true) (other : otherParty sess p = some dst) :
      Sent opt io h (.binary p frame) (h.next p [.binary dst frame])
  | ran {p : Bytes} {t : Task} {rest : List Task} (thread : h.threads p = t :: rest) :
      Sent opt io h (.task p) ((h.next p rest).runTask opt io p t)
  | noticed {a : Action} {h' : Hub} (notified : Notified h h') (unasked : ∀ p req, a ≠ .text p req) :
      Sent opt io h a h'

theorem sent_handleBinary {p : Bytes} (hidle : h.threads p = []) (frame : Bytes) :
    Sent opt io h (.binary p frame) (h.handleBinary io p frame) := by
  have dropped : Sent opt io h (.binary p frame) h := .noticed (.refl h) (by simp)
  unfold handleBinary
  split
  · exact dropped
  · split
    · exact .refused hidle ..
    · rename_i sid hheader
      split
      · exact dropped
      · rename_i sess hsess
        split
        · exact .refused hidle ..
        · rename_i hmember
          rw [Bool.not_eq_true', Bool.not_eq_false] at hmember
          split
          · exact dropped
          · rename_i dst hdst
            split
            · exact .relayed hidle hheader hsess hmember hdst
            · exact dropped

theorem sent_step {a : Action} (hi : Intact h.toTables) (hstep : step opt h (io, a) = some h') :
    Sent opt io h a h' := by
  obtain ⟨-, -, heffect⟩ := of_step hstep
  cases a with
  | connect ip =>
    simp only at heffect
    subst heffect
    exact .noticed (.of_frame rfl rfl) (by simp)
  | text p req =>
    cases req with
    | none =>
      obtain ⟨hidle, rfl⟩ := heffect
      exact .malformed (idle_threads hidle) _
    | some req =>
      obtain ⟨hidle, -, ⟨hgreeted, code, text, rfl⟩ | ⟨hgreeted, rfl⟩⟩ := step_request hstep
      · exact .handled (idle_threads hidle) (.refused (by simp [Answerable, hgreeted]) ..)
      · have hlive : p ∈ h.livePeers := by
          simp only [idle, Bool.and_eq_true, decide_eq_true_eq] at hidle
          exact hidle.1
        exact .handled (idle_threads hidle) (handled_dispatch (hi.peersLive p hlive) hgreeted)
  | binary p frame =>
    obtain ⟨hidle, rfl⟩ := heffect
    exact sent_handleBinary (idle_threads hidle) frame
  | task p =>
    obtain ⟨t, rest, hthread, rfl⟩ := heffect
    exact .ran hthread
  | disconnect p =>
    obtain ⟨-, rfl⟩ := heffect
    exact .noticed (notified_disconnect h p) (by simp)
  | sweep =>
    simp only at heffect
    subst heffect
    exact .noticed (notified_sweep h) (by simp)
  | shutdown =>
    simp only at heffect
    subst heffect
    exact .noticed (notified_shutdown h) (by simp)
  | setNotifications snapshot =>
    simp only at heffect
    subst heffect
    exact .noticed (notified_setNotifications h snapshot) (by simp)

/-! ## The ledger -/

/-- The replies to `q` in a log. -/
def replied (q : Bytes) (log : List Output) : List Int := log.flatMap (Output.replies q)

/-- The replies that the goroutine of `p` still owes `q`. -/
def owing (p q : Bytes) (tasks : List Task) : List Int := tasks.flatMap (Task.replies p q)

/-- The id of the request, as one that `q` waits for. -/
def awaits (q : Bytes) (h : Hub) : HubIo × Action → List Int
  | (_, .text p (some req)) => if h.Answerable p req then replyTo q p req.id else []
  | _ => []

theorem replied_append (q : Bytes) (log out : List Output) :
    replied q (log ++ out) = replied q log ++ replied q out :=
  List.flatMap_append

theorem replied_notices {out : List Output} (hnotices : ∀ o ∈ out, o.Notice) (q : Bytes) :
    replied q out = [] :=
  List.flatMap_eq_nil_iff.mpr fun o ho => (hnotices o ho).replies q

theorem owing_mute {tasks : List Task} (hmute : ∀ t ∈ tasks, Mute t) (p q : Bytes) :
    owing p q tasks = [] := by
  refine List.flatMap_eq_nil_iff.mpr fun t ht => ?_
  obtain rfl | ⟨reason, rfl⟩ := hmute t ht
  · rfl
  · rfl

/-- The goroutine of `p` moves: what is sent and what it then owes is what it owed before and the
    replies that became due. -/
structure Moved (p : Bytes) (due : Bytes → List Int) (h h' : Hub) : Prop where
  moved : ∃ out tasks, h'.log = h.log ++ out ∧ h'.threads = Function.update h.threads p tasks ∧
    ∀ q, replied q out ++ owing p q tasks = owing p q (h.threads p) ++ due q

theorem Notified.moved (notified : Notified h h') (p : Bytes) : Moved p (fun _ => []) h h' := by
  obtain ⟨hthreads, out, hlog, hnotices⟩ := notified
  refine ⟨out, h.threads p, hlog, ?_, fun q => ?_⟩
  · rw [Function.update_eq_self, hthreads]
  · rw [replied_notices hnotices]
    simp

/-- The handler of an idle peer answers it, or the hub is closed. -/
theorem Handled.moved {p : Bytes} {req : Request} (idle : h.threads p = [])
    (handled : Handled h p req h') :
    Moved p (fun q => awaits q h (io, .text p (some req))) h h' ∨ h.closed = true ∧ h' = h := by
  have hdue : h.Answerable p req → ∀ q, awaits q h (io, .text p (some req)) = replyTo q p req.id :=
    fun asks q => if_pos asks
  cases handled with
  | unanswered reason =>
    by_cases hclosed : h.closed = true
    · exact .inr ⟨hclosed, rfl⟩
    · left
      have hnone : ∀ q, awaits q h (io, .text p (some req)) = [] :=
        fun q => if_neg (reason.resolve_left hclosed)
      simpa only [hnone] using (Notified.refl h).moved p
  | @welcomed _ m out threads log reply data notices asks =>
    refine .inl ⟨_, [], log, ?_, fun q => ?_⟩
    · rw [threads, ← idle, Function.update_eq_self]
    · have hout : out.flatMap (Output.replies q) = [] := replied_notices notices q
      rw [hdue asks, idle, ← reply]
      simp [replied, owing, Output.replies, hout]
  | @answered mid m before after notified mute reply data asks =>
    obtain ⟨hthreads, out, hlog, hnotices⟩ := notified
    rw [List.forall_mem_append] at mute
    refine .inl ⟨out, before ++ .send p m :: after, hlog, ?_, fun q => ?_⟩
    · simp [next, hthreads]
    · have hbefore : before.flatMap (Task.replies p q) = [] := owing_mute mute.1 p q
      have hafter : after.flatMap (Task.replies p q) = [] := owing_mute mute.2 p q
      rw [hdue asks, idle, replied_notices hnotices, ← reply]
      simp [owing, hbefore, hafter, Task.replies]
  | @joined _ sid resumed threads log asks =>
    refine .inl ⟨_, _, log, threads, fun q => ?_⟩
    rw [hdue asks, idle]
    simp [replied, owing, Output.replies, Task.replies]
  | @forwarded m sess dst body session member other =>
    refine .inl ⟨[], _, by simp [next], rfl, fun q => ?_⟩
    have hsignal : (Task.send dst (signalFrom p m dst)).replies p q = [] := replyTo_zero q dst
    rw [hdue (by simp [Answerable, body]), idle]
    simp only [replied, owing, List.flatMap_nil, List.nil_append, List.flatMap_cons, hsignal]
    split
    · simp [Task.replies, Message.id]
    · rename_i hid
      simp [replyTo, not_not.mp hid]

/-- What a task sends, and what an announcement leaves to do, are the replies that it stood for. -/
theorem moved_runTask (hi : Intact h.toTables) {p : Bytes} {t : Task} {rest : List Task}
    (hthread : h.threads p = t :: rest) (hshape : Shape h.toTables p (t :: rest)) :
    Moved p (fun _ => []) h ((h.next p rest).runTask opt io p t) := by
  have hsent : ∀ o : Output, (∀ q, o.replies q = t.replies p q) →
      Moved p (fun _ => []) h { h.next p rest with log := h.log ++ [o] } := by
    intro o hreplies
    refine ⟨[o], rest, rfl, rfl, fun q => ?_⟩
    rw [hthread]
    simp [replied, owing, hreplies]
  cases t with
  | announce sid id resumed =>
    cases hshape with
    | plain all => exact absurd (all _ List.mem_cons_self) Bool.false_ne_true
    | announce receives =>
      obtain ⟨sess, hsess, hreceiver⟩ := receives
      obtain ⟨s, hs, -⟩ := hi.senders _ sess hsess
      simp only [runTask, announceSession, toTables_next, hsess, hs, hreceiver]
      refine ⟨[], _, (List.append_nil _).symm, Function.update_idem .., fun q => ?_⟩
      rw [hthread]
      simp [replied, owing, Task.replies, replyTo_zero]
  | sleep => exact hsent (.slept p) fun q => rfl
  | send q m => exact hsent (.text q m) fun q' => rfl
  | binary q frame => exact hsent (.binary q frame) fun q' => rfl
  | kick reason => exact hsent (.kick p reason) fun q => rfl
  | start q m =>
    exact hsent (.text q (.sessionStart { m with iceServers := iceServers opt io q })) fun q' => rfl

/-- Whose goroutine takes the step. -/
def Action.mover : Action → Bytes
  | .text p _ => p
  | .binary p _ => p
  | .task p => p
  | _ => []

theorem moved_step {a : Action} (hi : Intact h.toTables)
    (hshapes : ∀ p, Shape h.toTables p (h.threads p)) (hstep : step opt h (io, a) = some h') :
    Moved a.mover (fun q => awaits q h (io, a)) h h' ∨ h.closed = true ∧ h' = h := by
  have hsent := sent_step hi hstep
  have hplain : ∀ {p : Bytes} {tasks : List Task}, h.threads p = [] →
      (∀ q, owing p q tasks = []) → Moved p (fun _ => []) h (h.next p tasks) := by
    intro p tasks hidle hnone
    refine ⟨[], tasks, by simp [next], rfl, fun q => ?_⟩
    rw [hidle, hnone]
    rfl
  cases hsent with
  | handled idle handled => exact handled.moved idle
  | malformed idle text =>
    exact .inl (hplain idle fun q => by simp [owing, errorTask, Task.replies, Message.id, replyTo])
  | refused idle code text =>
    exact .inl (hplain idle fun q => by simp [owing, errorTask, Task.replies, Message.id, replyTo])
  | relayed idle header session member other =>
    exact .inl (hplain idle fun q => by simp [owing, Task.replies])
  | ran thread => exact .inl (moved_runTask hi thread (thread ▸ hshapes _))
  | noticed notified unasked =>
    left
    have hnone : ∀ q, awaits q h (io, a) = [] := by
      intro q
      cases a with
      | text p req => exact absurd rfl (unasked p req)
      | _ => rfl
    simpa only [hnone] using notified.moved _

/-- The replies sent and owed to a peer are those to its requests `due`, and no other goroutine owes
    it one. -/
structure Ledger (due : List Int) (q : Bytes) (h : Hub) : Prop where
  answered : replied q h.log ++ owing q q (h.threads q) = due
  own : ∀ p, p ≠ q → owing p q (h.threads p) = []

theorem Ledger.moved {q p : Bytes} {due : List Int} {more : Bytes → List Int}
    (ledger : Ledger due q h) (moved : Moved p more h h') (hother : p ≠ q → more q = []) :
    Ledger (due ++ more q) q h' := by
  obtain ⟨out, tasks, hlog, hthreads, hdue⟩ := moved
  by_cases hp : p = q
  · subst hp
    constructor
    · rw [hlog, hthreads, replied_append, Function.update_self, List.append_assoc, hdue,
        ← List.append_assoc, ledger.answered]
    · intro p' hp'
      rw [hthreads, Function.update_of_ne hp']
      exact ledger.own p' hp'
  · -- What another goroutine sends or owes `q` would have to be due.
    have hnone := hdue q
    rw [ledger.own p hp, hother hp, List.nil_append, List.append_eq_nil_iff] at hnone
    constructor
    · rw [hlog, hthreads, replied_append, Function.update_of_ne (Ne.symm hp), hnone.1,
        List.append_nil, hother hp, List.append_nil]
      exact ledger.answered
    · intro p' hp'
      rw [hthreads]
      by_cases hmover : p' = p
      · subst hmover
        rw [Function.update_self]
        exact hnone.2
      · rw [Function.update_of_ne hmover]
        exact ledger.own p' hp'

theorem awaits_other {a : Action} {q : Bytes} (hq : a.mover ≠ q) : awaits q h (io, a) = [] := by
  cases a with
  | text p req =>
    cases req with
    | none => rfl
    | some req =>
      have hp : p ≠ q := hq
      simp only [awaits, replyTo_other hp, ite_self]
  | _ => rfl

theorem ledger_step {a : Action} (hi : Intact h.toTables)
    (hshapes : ∀ p, Shape h.toTables p (h.threads p)) (hstep : step opt h (io, a) = some h')
    {q : Bytes} {due : List Int} (ledger : Ledger due q h) :
    Ledger (due ++ awaits q h (io, a)) q h' ∨ h.closed = true ∧ Ledger due q h' := by
  obtain hmoved | ⟨hclosed, rfl⟩ := moved_step hi hshapes hstep
  · exact .inl (ledger.moved hmoved awaits_other)
  · exact .inr ⟨hclosed, ledger⟩

theorem ledger_run {as : List (HubIo × Action)} (run : (machine opt).Run Machine.anyStep as h) (q : Bytes) :
    h.closed = false → Ledger ((machine opt).collect (awaits q) as (machine opt).init) q h := by
  induction run with
  | init => exact fun _ => ⟨rfl, fun p _ => rfl⟩
  | @step as h a h' run _ hstep ih =>
    intro hopen'
    have hopen : h.closed = false := by
      by_contra hclosed
      have hclosed' := closed_kept hstep (by simpa using hclosed)
      exact Bool.false_ne_true (hopen'.symm.trans hclosed')
    rw [Machine.collect_snoc run.exec_eq]
    obtain hledger | ⟨hclosed, -⟩ :=
      ledger_step (intact_run run) (shapes_run run).1 hstep (ih hopen)
    · exact hledger
    · exact absurd (hopen.symm.trans hclosed) Bool.false_ne_true

/-- After a shutdown some requests stay without an answer, but those made before do not. -/
theorem ledger_exec {as bs : List (HubIo × Action)} (run : (machine opt).Run Machine.anyStep as h)
    {q : Bytes} {due : List Int} (ledger : Ledger due q h) (later : (machine opt).exec bs h = some h') :
    ∃ late, late.Sublist ((machine opt).collect (awaits q) bs h) ∧ Ledger (due ++ late) q h' := by
  induction bs generalizing as h due with
  | nil =>
    obtain rfl := Option.some.inj later
    exact ⟨[], List.Sublist.refl _, by simpa using ledger⟩
  | cons b bs ih =>
    simp only [Machine.exec, Option.bind_eq_some_iff] at later
    obtain ⟨mid, hstep, hrest⟩ := later
    have hmid := run.step trivial hstep
    obtain hledger | ⟨-, hledger⟩ := ledger_step (intact_run run) (shapes_run run).1 hstep ledger
    · obtain ⟨late, hlate, hledger⟩ := ih hmid hledger hrest
      refine ⟨awaits q h b ++ late, ?_, by simpa using hledger⟩
      simpa [Machine.collect, hstep] using hlate
    · obtain ⟨late, hlate, hledger⟩ := ih hmid hledger hrest
      refine ⟨late, ?_, hledger⟩
      simpa [Machine.collect, hstep] using hlate.trans (List.sublist_append_right _ _)

/-! ## A goroutine comes to its end -/

/-- The steps that a task takes, those of an announcement included. -/
def Task.work : Task → Nat
  | .announce .. => 3
  | _ => 1

def work (tasks : List Task) : Nat := (tasks.map Task.work).sum

theorem work_runTask {p : Bytes} {t : Task} {rest : List Task} :
    work (((h.next p rest).runTask opt io p t).threads p) < work (t :: rest) := by
  have hrest : (h.next p rest).threads p = rest := Function.update_self ..
  cases t with
  | announce sid reqId resumed =>
    have hleft : work rest < work (.announce sid reqId resumed :: rest) := by
      simp [work, Task.work]
    simp only [runTask, announceSession]
    split
    · rwa [hrest]
    · split
      · rwa [hrest]
      · split
        · change work ((h.next p rest).threads p) < _
          rwa [hrest]
        · simp [next, work, Task.work]
          omega
  | _ =>
    change work ((h.next p rest).threads p) < _
    rw [hrest]
    simp [work, Task.work]

theorem turn {p : Bytes} (hrunning : h.crashed = false) (hfresh : h.fresh io = true)
    (hbusy : h.threads p ≠ []) : ∃ h', step opt h (io, .task p) = some h' ∧
      work (h'.threads p) < work (h.threads p) := by
  obtain ⟨t, rest, hthread⟩ := List.exists_cons_of_ne_nil hbusy
  have hless := @work_runTask opt io h p t rest
  rw [← hthread] at hless
  refine ⟨_, ?_, hless⟩
  simp [step, hrunning, hfresh, hthread]

/-- Every request made before the shutdown is answered once, with its id, and nobody else is sent
    that answer. -/
theorem answered_run {as bs : List (HubIo × Action)} (run : (machine opt).Run Machine.anyStep as h)
    (opened : h.closed = false) (later : (machine opt).exec bs h = some h') :
    (∀ q, ∃ late, late.Sublist ((machine opt).collect (awaits q) bs h) ∧
      Ledger ((machine opt).collect (awaits q) as (machine opt).init ++ late) q h') ∧
    ∀ p io, h'.threads p ≠ [] → h'.fresh io = true → ∃ h'', (machine opt).step h' (io, .task p) = some h'' ∧
      work (h''.threads p) < work (h'.threads p) := by
  refine ⟨fun q => ledger_exec run (ledger_run run q opened) later, fun p io hbusy hfresh => ?_⟩
  have run' := run.extend (fun _ _ _ => trivial) later
  exact turn (shapes_run run').2.running hfresh hbusy

/-- The hub is shut down between a claim and its answer. -/
def stoppedTail : List (HubIo × Action) :=
  [(ioAt 7 1, .shutdown), goesOn 8 [80, 2], goesOn 9 [80, 2]]

theorem answered_stopped : ∃ h h', (machine {}).exec claimRun (machine {}).init = some h ∧
    (machine {}).exec stoppedTail h = some h' ∧ replied [80, 2] h'.log = [1, 2] ∧
    ∃ late, late.Sublist ((machine {}).collect (awaits [80, 2]) stoppedTail h) ∧
      Ledger ((machine {}).collect (awaits [80, 2]) claimRun (machine {}).init ++ late) [80, 2] h' := by
  have hexec : ((machine {}).exec (claimRun ++ stoppedTail) (machine {}).init).map (fun h =>
      replied [80, 2] h.log) = some [1, 2] := by
    decide +kernel
  have hopen : ((machine {}).exec claimRun (machine {}).init).map (·.closed) = some false := by
    decide +kernel
  obtain ⟨h', hexec, hreplied⟩ := Option.map_eq_some_iff.mp hexec
  obtain ⟨h, hclaimed, hlater⟩ := Machine.exec_append_some hexec
  rw [hclaimed] at hopen
  obtain ⟨hledger, -⟩ := answered_run (Machine.run_of_exec hclaimed) (Option.some.inj hopen) hlater
  exact ⟨h, h', hclaimed, hlater, hreplied, hledger _⟩

end Hub

end CrossTransfer.Signal
