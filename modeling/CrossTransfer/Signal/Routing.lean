import CrossTransfer.Signal.Replies

/-! # Routing

A signal or a relay frame that names a session reaches the other party of that session, if its
sender is a party, and nobody else (`routed_onSignal`, `routed_handleBinary`). Over a run all data
that a peer was sent comes from such a message, checked at a moment when both were parties of the
session (`isolated_run`).
-/

namespace CrossTransfer.Signal

open CrossTransfer.Library
open CrossTransfer.Transfer

/-- The data that a task will send. -/
def Task.data? : Task → Option Output
  | .send q m => if m.isSignal then some (.text q m) else none
  | .binary q frame => some (.binary q frame)
  | _ => none

/-- The peer that is sent data, and the session it belongs to. -/
def Output.dataFor? : Output → Option (Bytes × Bytes)
  | .text q (.signal sid ..) => some (q, sid)
  | .binary q frame => (parseHeader frame).toOption.map (q, ·)
  | _ => none

/-- What the task sends goes to `p`, and is no data of a session. -/
def Task.Local (p : Bytes) (t : Task) : Prop := Hub.Mute t ∨ ∃ m, t = .send p m ∧ m.isSignal = false

theorem Task.Local.no_data {p : Bytes} {t : Task} (h : t.Local p) : t.data? = none := by
  obtain (rfl | ⟨reason, rfl⟩) | ⟨m, rfl, hdata⟩ := h
  · rfl
  · rfl
  · simp [Task.data?, hdata]

namespace Hub

open Tables

variable {opt : Options} {io : HubIo} {h h' : Hub}

/-- What a message of `p` that names the session does: `data` is the task that would carry it to its
    destination. -/
structure Routed (h : Hub) (p sid : Bytes) (data : Bytes → Task) (h' : Hub) : Prop where
  tables : h'.toTables = h.toTables
  log : h'.log = h.log
  others : ∀ q, q ≠ p → h'.threads q = h.threads q
  stranger : (∀ sess, h.session? sid = some sess → isMember sess p = false) →
    ∀ t ∈ h'.threads p, t.Local p
  member : ∀ sess, h.session? sid = some sess → (∀ t ∈ h'.threads p, t.Local p) ∨
    ∃ dst rest, otherParty sess p = some dst ∧ h'.threads p = data dst :: rest ∧
      ∀ t ∈ rest, t.Local p

/-- The message is dropped or answered. -/
theorem Routed.local {p sid : Bytes} {data : Bytes → Task} {tasks : List Task}
    (hlocal : ∀ t ∈ tasks, t.Local p) : Routed h p sid data (h.next p tasks) := by
  have hthread : (h.next p tasks).threads p = tasks := Function.update_self ..
  constructor
  · rfl
  · rfl
  · exact fun q hq => Function.update_of_ne hq ..
  · intro _
    rwa [hthread]
  · intro sess _
    left
    rwa [hthread]

/-- The message is forwarded to the other party. -/
theorem Routed.forward {p sid dst : Bytes} {data : Bytes → Task} {sess : Session} {rest : List Task}
    (hsess : h.session? sid = some sess) (hmember : isMember sess p = true)
    (hdst : otherParty sess p = some dst) (hrest : ∀ t ∈ rest, t.Local p) :
    Routed h p sid data (h.next p (data dst :: rest)) := by
  constructor
  · rfl
  · rfl
  · exact fun q hq => Function.update_of_ne hq ..
  · intro hstranger
    exact absurd (hstranger sess hsess) (by simp [hmember])
  · intro sess' hsess'
    obtain rfl := Option.some.inj (hsess.symm.trans hsess')
    exact .inr ⟨dst, rest, hdst, Function.update_self .., hrest⟩

theorem local_send (p : Bytes) {m : Message} (hdata : m.isSignal = false) :
    ∀ t ∈ [Task.send p m], t.Local p := by
  intro t ht
  obtain rfl := List.mem_singleton.mp ht
  exact .inr ⟨m, rfl, hdata⟩

theorem routed_onSignal (p : Bytes) (id : Int) (m : SignalMsg) :
    Routed h p m.sessionId (fun dst => .send dst (signalFrom p m dst)) (h.onSignal p id (.ok m)) := by
  unfold onSignal
  simp only
  split
  · exact .local (local_send p rfl)
  · split
    · exact .local (local_send p rfl)
    · rename_i sess hsess
      obtain ⟨hsess, hmember⟩ := Option.filter_eq_some_iff.mp hsess
      split
      · exact .local (local_send p rfl)
      · rename_i dst hdst
        split
        · exact .local (local_send p rfl)
        · apply Routed.forward hsess hmember hdst
          split
          · exact local_send p rfl
          · simp

theorem routed_idle {p sid : Bytes} {data : Bytes → Task} (hidle : h.threads p = []) :
    Routed h p sid data h := by
  have hsame : h.next p [] = h := by
    unfold next
    rw [← hidle, Function.update_eq_self]
  have hrouted : Routed h p sid data (h.next p []) := .local (by simp)
  rwa [hsame] at hrouted

theorem routed_handleBinary {p frame sid : Bytes} (hidle : h.threads p = [])
    (hheader : parseHeader frame = .ok sid) :
    Routed h p sid (.binary · frame) (h.handleBinary io p frame) := by
  unfold handleBinary
  split
  · exact routed_idle hidle
  · rw [hheader]
    simp only
    split
    · exact routed_idle hidle
    · rename_i sess hsess
      split
      · exact .local (local_send p rfl)
      · rename_i hmember
        rw [Bool.not_eq_true', Bool.not_eq_false] at hmember
        split
        · exact routed_idle hidle
        · rename_i dst hdst
          split
          · exact .forward hsess hmember hdst (by simp)
          · exact routed_idle hidle

theorem routed_signal {p : Bytes} {id : Int} {m : SignalMsg}
    (hstep : step opt h (io, .text p (some ⟨id, .signal (.ok m)⟩)) = some h') :
    Routed h p m.sessionId (fun dst => .send dst (signalFrom p m dst)) h' := by
  obtain ⟨-, -, ⟨-, code, text, rfl⟩ | ⟨-, rfl⟩⟩ := step_request hstep
  · exact .local (local_send p rfl)
  · exact routed_onSignal p id m

theorem routed_frame {p frame sid : Bytes} (hheader : parseHeader frame = .ok sid)
    (hstep : step opt h (io, .binary p frame) = some h') : Routed h p sid (.binary · frame) h' := by
  obtain ⟨-, -, hidle, rfl⟩ := of_step hstep
  exact routed_handleBinary (idle_threads hidle) hheader

/-! ## Where data comes from -/

/-- The output is what a party of a session sent to the other one in the run `as`. -/
inductive Delivery (opt : Options) (as : List (HubIo × Action)) : Output → Prop where
  | signal {past now : Hub} {io : HubIo} {p dst : Bytes} {id : Int} {m : SignalMsg} {sess : Session}
      (took : (machine opt).Took as past (io, .text p (some ⟨id, .signal (.ok m)⟩)) now)
      (session : past.session? m.sessionId = some sess) (member : isMember sess p = true)
      (other : otherParty sess p = some dst) : Delivery opt as (.text dst (signalFrom p m dst))
  | frame {past now : Hub} {io : HubIo} {p dst frame sid : Bytes} {sess : Session}
      (took : (machine opt).Took as past (io, .binary p frame) now)
      (header : parseHeader frame = .ok sid) (session : past.session? sid = some sess)
      (member : isMember sess p = true) (other : otherParty sess p = some dst) :
      Delivery opt as (.binary dst frame)

theorem Delivery.mono {as bs : List (HubIo × Action)} {o : Output} (h : Delivery opt as o)
    (hbs : as <+: bs) : Delivery opt bs o := by
  cases h with
  | signal took session member other => exact .signal (took.mono hbs) session member other
  | frame took header session member other => exact .frame (took.mono hbs) header session member other

/-- All data sent, and all that is still to be sent, is delivered from party to party. -/
structure Sourced (opt : Options) (as : List (HubIo × Action)) (h : Hub) : Prop where
  log : ∀ o ∈ h.log, o.isData = true → Delivery opt as o
  tasks : ∀ p, ∀ t ∈ h.threads p, ∀ o, t.data? = some o → Delivery opt as o

theorem Sourced.mono {as bs : List (HubIo × Action)} (h₀ : Sourced opt as h) (hbs : as <+: bs) :
    Sourced opt bs h where
  log o ho hdata := (h₀.log o ho hdata).mono hbs
  tasks p t ht o ho := (h₀.tasks p t ht o ho).mono hbs

/-- The goroutine of `p` sends `out` and is left with `tasks`. -/
theorem Sourced.grow {as : List (HubIo × Action)} {p : Bytes} {out : List Output} {tasks : List Task}
    (h₀ : Sourced opt as h) (hlog : h'.log = h.log ++ out)
    (hthreads : h'.threads = Function.update h.threads p tasks)
    (hout : ∀ o ∈ out, o.isData = true → Delivery opt as o)
    (htasks : ∀ t ∈ tasks, ∀ o, t.data? = some o → Delivery opt as o) : Sourced opt as h' where
  log o ho hdata := by
    rw [hlog, List.mem_append] at ho
    obtain ho | ho := ho
    · exact h₀.log o ho hdata
    · exact hout o ho hdata
  tasks q t ht o ho := by
    rw [hthreads] at ht
    by_cases hq : q = p
    · subst hq
      rw [Function.update_self] at ht
      exact htasks t ht o ho
    · rw [Function.update_of_ne hq] at ht
      exact h₀.tasks q t ht o ho

theorem Sourced.notified {as : List (HubIo × Action)} (h₀ : Sourced opt as h)
    (notified : Notified h h') : Sourced opt as h' := by
  obtain ⟨hthreads, out, hlog, hnotices⟩ := notified
  have hsame : h'.threads = Function.update h.threads [] (h.threads []) := by
    rw [Function.update_eq_self, hthreads]
  apply h₀.grow hlog hsame
  · intro o ho hdata
    exact absurd ((hnotices o ho).data.symm.trans hdata) Bool.false_ne_true
  · exact h₀.tasks []

theorem Sourced.next {as : List (HubIo × Action)} {p : Bytes} {tasks : List Task}
    (h₀ : Sourced opt as h) (htasks : ∀ t ∈ tasks, ∀ o, t.data? = some o → Delivery opt as o) :
    Sourced opt as (h.next p tasks) := by
  refine h₀.grow (List.append_nil _).symm rfl ?_ htasks
  intro o ho
  exact absurd ho List.not_mem_nil

theorem Sourced.local {as : List (HubIo × Action)} {p : Bytes} {tasks : List Task}
    (h₀ : Sourced opt as h) (hlocal : ∀ t ∈ tasks, t.Local p) : Sourced opt as (h.next p tasks) := by
  apply h₀.next
  intro t ht o ho
  rw [(hlocal t ht).no_data] at ho
  cases ho

/-- One task that carries data, and others that do not. -/
theorem Sourced.forward {as : List (HubIo × Action)} {p : Bytes} {t : Task} {rest : List Task}
    {o : Output} (h₀ : Sourced opt as h) (hdata : t.data? = some o) (hdelivery : Delivery opt as o)
    (hrest : ∀ t ∈ rest, t.Local p) : Sourced opt as (h.next p (t :: rest)) := by
  apply h₀.next
  intro t' ht' o' ho'
  obtain rfl | ht' := List.mem_cons.mp ht'
  · obtain rfl := Option.some.inj (hdata.symm.trans ho')
    exact hdelivery
  · rw [(hrest t' ht').no_data] at ho'
    cases ho'

theorem Sourced.handled {as : List (HubIo × Action)} {p : Bytes} {req : Request}
    (h₀ : Sourced opt as h) (hidle : h.threads p = []) (handled : Handled h p req h')
    (took : (machine opt).Took as h (io, .text p (some req)) h') : Sourced opt as h' := by
  cases handled with
  | unanswered reason => exact h₀
  | @welcomed _ m out threads log reply data notices asks =>
    have hsame : h'.threads = Function.update h.threads p [] := by
      rw [threads, ← hidle, Function.update_eq_self]
    apply h₀.grow log hsame
    · intro o ho hdata
      obtain rfl | ho := List.mem_cons.mp ho
      · exact absurd (data.symm.trans hdata) Bool.false_ne_true
      · exact absurd ((notices o ho).data.symm.trans hdata) Bool.false_ne_true
    · intro t ht
      exact absurd ht List.not_mem_nil
  | @answered mid m before after notified mute reply data asks =>
    apply (h₀.notified notified).local
    intro t ht
    obtain ht | ht := List.mem_append.mp ht
    · exact .inl (mute t (List.mem_append_left _ ht))
    · obtain rfl | ht := List.mem_cons.mp ht
      · exact .inr ⟨m, rfl, data⟩
      · exact .inl (mute t (List.mem_append_right _ ht))
  | @joined _ sid resumed threads log asks =>
    apply h₀.grow log threads
    · intro o ho hdata
      obtain rfl := List.mem_singleton.mp ho
      cases hdata
    · intro t ht o ho
      obtain rfl := List.mem_singleton.mp ht
      cases ho
  | @forwarded m sess dst body session member other =>
    obtain ⟨id, body'⟩ := req
    obtain rfl : body' = _ := body
    apply h₀.forward rfl (.signal took session member other)
    split
    · exact local_send p rfl
    · simp

theorem Sourced.ran {as : List (HubIo × Action)} {p : Bytes} {t : Task} {rest : List Task}
    (h₀ : Sourced opt as h) (hthread : h.threads p = t :: rest) :
    Sourced opt as ((h.next p rest).runTask opt.withDefaults io p t) := by
  have hrest : ∀ t ∈ rest, ∀ o, t.data? = some o → Delivery opt as o :=
    fun t ht => h₀.tasks p t (hthread ▸ List.mem_cons_of_mem _ ht)
  have hsent : ∀ o : Output, (o.isData = true → t.data? = some o) →
      Sourced opt as { h.next p rest with log := h.log ++ [o] } := by
    intro o hdata
    apply h₀.grow rfl rfl
    · intro o' ho' hdata'
      obtain rfl := List.mem_singleton.mp ho'
      exact h₀.tasks p t (hthread ▸ List.mem_cons_self) _ (hdata hdata')
    · exact hrest
  cases t with
  | announce sid reqId resumed =>
    have hleft : Sourced opt as (h.next p rest) := h₀.next hrest
    simp only [runTask, announceSession]
    split
    · exact hleft
    · split
      · exact hleft
      · split
        · exact ⟨hleft.log, hleft.tasks⟩
        · apply hleft.next
          intro t ht o ho
          obtain rfl | rfl : t = _ ∨ t = _ := by simpa using ht
          · cases ho
          · cases ho
  | sleep => exact hsent (.slept p) (by simp [Output.isData])
  | send q m => exact hsent (.text q m) fun hdata => if_pos hdata
  | binary q frame => exact hsent (.binary q frame) fun _ => rfl
  | kick reason => exact hsent (.kick p reason) (by simp [Output.isData])
  | start q m =>
    exact hsent (.text q (.sessionStart { m with iceServers := iceServers opt.withDefaults io q }))
      (by simp [Output.isData, Message.isSignal])

theorem sourced_run {as : List (HubIo × Action)} (run : (machine opt).Run Machine.anyStep as h) :
    Sourced opt as h := by
  induction run with
  | init => exact ⟨by simp [machine], by simp [machine]⟩
  | @step as h a h' run _ hstep ih =>
    have h₀ : Sourced opt (as ++ [a]) h := ih.mono (List.prefix_append ..)
    have took := run.took hstep
    obtain ⟨io, a⟩ := a
    have hsent : Sent opt.withDefaults io h a h' := sent_step (intact_run run) hstep
    cases hsent with
    | handled idle handled => exact h₀.handled idle handled took
    | malformed idle text => exact h₀.local (local_send _ rfl)
    | refused idle code text => exact h₀.local (local_send _ rfl)
    | relayed idle header session member other =>
      exact h₀.forward rfl (.frame took header session member other) (by simp)
    | ran thread => exact h₀.ran thread
    | noticed notified unasked => exact h₀.notified notified

theorem isMember_otherParty {sess : Session} {p q : Bytes} (hq : otherParty sess p = some q) :
    isMember sess q = true := by
  simp only [isMember, Bool.or_eq_true, decide_eq_true_eq]
  unfold otherParty at hq
  split at hq
  · exact .inr hq
  · exact .inl (Option.some.inj hq)

/-- Who is sent data of a session was a party of it. -/
theorem Delivery.party {as : List (HubIo × Action)} {o : Output} {q sid : Bytes}
    (h : Delivery opt as o) (hdata : o.dataFor? = some (q, sid)) :
    ∃ past sess, (machine opt).Visited as past ∧ past.session? sid = some sess ∧
      isMember sess q = true := by
  cases h with
  | signal took session member other =>
    obtain ⟨rfl, rfl⟩ := Prod.mk.inj (Option.some.inj hdata)
    exact ⟨_, _, took.visited, session, isMember_otherParty other⟩
  | frame took header session member other =>
    simp only [Output.dataFor?, header] at hdata
    obtain ⟨rfl, rfl⟩ := Prod.mk.inj (Option.some.inj hdata)
    exact ⟨_, _, took.visited, session, isMember_otherParty other⟩

theorem isData_of_dataFor {o : Output} {e : Bytes × Bytes} (h : o.dataFor? = some e) :
    o.isData = true := by
  cases o with
  | text q m =>
    cases m with
    | signal => rfl
    | _ => cases h
  | binary => rfl
  | _ => cases h

/-! ## Pairing -/

/-- A receiver has claimed its session. -/
def Paired (h : Hub) : Prop :=
  ∀ (sid p : Bytes) (sess : Session), h.sessions[sid]? = some sess → sess.receiver = some p →
    ∃ id resumed, .joined sid p id resumed ∈ h.log

theorem log_step {a : Action} (hi : Intact h.toTables)
    (hshapes : ∀ p, Shape h.toTables p (h.threads p)) (hstep : step opt h (io, a) = some h') :
    h.log <+: h'.log := by
  obtain ⟨out, tasks, hlog, -⟩ | ⟨-, rfl⟩ := moved_step hi hshapes hstep
  · exact ⟨out, hlog.symm⟩
  · exact List.prefix_rfl

theorem paired_step {a : Action} (hi : Intact h.toTables)
    (hshapes : ∀ p, Shape h.toTables p (h.threads p)) (hpaired : Paired h)
    (hstep : step opt h (io, a) = some h') : Paired h' := by
  have hpre : h.log <+: h'.log := log_step hi hshapes hstep
  -- The log only grows, so that a session that was there is paired as before.
  have hbefore : ∀ (sid p : Bytes) (sess : Session), h.sessions[sid]? = some sess →
      sess.receiver = some p → ∃ id resumed, .joined sid p id resumed ∈ h'.log := by
    intro sid p sess hsess hreceiver
    obtain ⟨id, resumed, hjoined⟩ := hpaired sid p sess hsess hreceiver
    exact ⟨id, resumed, hpre.subset hjoined⟩
  intro sid p sess hsess hreceiver
  have heffect := effect_step hi hstep
  cases heffect with
  | quiet same =>
    rw [same.sessions] at hsess
    exact hbefore sid p sess hsess hreceiver
  | created running new empty opened added code tables =>
    rw [tables] at hsess
    exact hbefore sid p sess hsess hreceiver
  | removed removal =>
    rw [removal.sessions] at hsess
    exact hbefore sid p sess hsess hreceiver
  | @left q _ _ _ _ _ removal detached =>
    rw [detached.sessions, removal.sessions] at hsess
    split at hsess
    · obtain ⟨sess₀, hsess₀, rfl⟩ := Option.map_eq_some_iff.mp hsess
      unfold without at hreceiver
      split at hreceiver
      · cases hreceiver
      · exact hbefore sid p sess₀ hsess₀ hreceiver
    · exact hbefore sid p sess hsess hreceiver
  | @resumed q id m sid' sess' greeted resumes =>
    simp only [resumeSession, join, toTables_next, OrderedMap.get_insert, tables_limited] at hsess
    split at hsess
    · rename_i heq
      subst heq
      obtain rfl := Option.some.inj hsess
      obtain rfl := Option.some.inj hreceiver
      refine ⟨id, true, ?_⟩
      rw [log_resumeSession]
      simp
    · exact hbefore sid p sess hsess hreceiver
  | @started q id m shareId s starts =>
    rw [(startSession_eq id).1, OrderedMap.get_insert] at hsess
    split at hsess
    · rename_i heq
      subst heq
      obtain rfl := Option.some.inj hsess
      obtain rfl := Option.some.inj hreceiver
      refine ⟨id, false, ?_⟩
      rw [log_startSession]
      simp
    · exact hbefore sid p sess hsess hreceiver

theorem paired_run {as : List (HubIo × Action)} (run : (machine opt).Run Machine.anyStep as h) :
    Paired h := by
  induction run with
  | init =>
    intro sid p sess hsess
    simp [machine] at hsess
  | step run _ hstep ih => exact paired_step (intact_run run) (shapes_run run).1 ih hstep

/-! ## Isolation -/

/-- What a signal or a frame does now, and what has been delivered so far. -/
structure Isolated (opt : Options) (as : List (HubIo × Action)) (h : Hub) : Prop where
  signal : ∀ io p id m h', (machine opt).step h (io, .text p (some ⟨id, .signal (.ok m)⟩)) = some h' →
    Routed h p m.sessionId (fun dst => .send dst (signalFrom p m dst)) h'
  frame : ∀ io p frame sid h', parseHeader frame = .ok sid →
    (machine opt).step h (io, .binary p frame) = some h' → Routed h p sid (.binary · frame) h'
  delivered : ∀ o ∈ h.log, o.isData = true → Delivery opt as o
  /-- A peer that was never a party of a session was sent none of its data. -/
  parties : ∀ o ∈ h.log, ∀ q sid, o.dataFor? = some (q, sid) → ∃ past sess,
    (machine opt).Visited as past ∧ past.session? sid = some sess ∧ isMember sess q = true
  paired : Paired h

theorem isolated_run {as : List (HubIo × Action)} (run : (machine opt).Run Machine.anyStep as h) :
    Isolated opt as h where
  signal _ _ _ _ _ hstep := routed_signal hstep
  frame io p frame sid h' hheader hstep := @routed_frame opt.withDefaults io h h' p frame sid hheader hstep
  delivered := (sourced_run run).log
  parties o ho _ _ hdata := ((sourced_run run).log o ho (isData_of_dataFor hdata)).party hdata
  paired := paired_run run

/-- The receiver signals to the sender. -/
def signalRun : List (HubIo × Action) :=
  toldRun ++ [request 7 1 [80, 2] 3 (.signal (.ok { sessionId := [88, 6], payload := [1] })),
    goesOn 8 [80, 2]]

theorem isolated_signal : ∃ h, (machine {}).Run Machine.anyStep signalRun h ∧
    .text [80, 1] (.signal [88, 6] [80, 2] [80, 1] [1]) ∈ h.log ∧ Isolated {} signalRun h := by
  have hexec : ((machine {}).exec signalRun (machine {}).init).map (fun h => h.log.getLast?) =
      some (some (.text [80, 1] (.signal [88, 6] [80, 2] [80, 1] [1]))) := by
    decide +kernel
  obtain ⟨h, hexec, hlast⟩ := Option.map_eq_some_iff.mp hexec
  have run := Machine.run_of_exec hexec
  exact ⟨h, run, List.mem_of_getLast? hlast, isolated_run run⟩

end Hub

end CrossTransfer.Signal
