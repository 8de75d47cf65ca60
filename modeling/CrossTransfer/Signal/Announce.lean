import CrossTransfer.Signal.Claims

/-! # Announcements

What a claim that succeeds leaves to its goroutine goes through `announce`, the two starts and the
last one (`Shape`). Only the goroutine's own peer can be the receiver of the session until it is
done, for others need a session without a receiver, and the hub clears the receiver when the peer
disconnects, which it does after its last handler (`receives_step`). So the receiver is there when
the announcement reads it, and every claim gets its start (`announced_run`).
-/

namespace CrossTransfer.Signal

open CrossTransfer.Library
open CrossTransfer.Transfer

/-- The peer is the receiver of the session, even if the hub has removed it. -/
def Tables.Receives (t : Tables) (sid p : Bytes) : Prop :=
  ∃ sess, t.sessions[sid]? = some sess ∧ sess.receiver = some p

namespace Hub

open Tables

variable {opt : Options} {io : HubIo} {h h' : Hub}

/-- What the goroutine of `p` may have to do: nothing that starts a session, or the rest of an
    announcement. -/
inductive Shape (t : Tables) (p : Bytes) : List Task → Prop where
  | plain {tasks : List Task} (all : ∀ t ∈ tasks, t.plain = true) : Shape t p tasks
  | announce {sid : Bytes} {id : Int} {resumed : Bool} (receives : t.Receives sid p) :
      Shape t p [.announce sid id resumed]
  | starts {m m' : SessionStart} {q : Bytes} (receives : t.Receives m.sessionId p)
      (same : m'.sessionId = m.sessionId) (receiver : m.isSender = false)
      (sender : m'.isSender = true) (unasked : m'.id = 0) : Shape t p [.start p m, .start q m']
  | last {m : SessionStart} {q : Bytes} (receives : t.Receives m.sessionId p)
      (sender : m.isSender = true) (unasked : m.id = 0) : Shape t p [.start q m]

theorem Shape.mono {t t' : Tables} {p : Bytes} {tasks : List Task} (h : Shape t p tasks)
    (hreceives : ∀ sid, t.Receives sid p → t'.Receives sid p) : Shape t' p tasks := by
  cases h with
  | plain all => exact .plain all
  | announce receives => exact .announce (hreceives _ receives)
  | starts receives same receiver sender unasked =>
    exact .starts (hreceives _ receives) same receiver sender unasked
  | last receives sender unasked => exact .last (hreceives _ receives) sender unasked

/-- A receiver stays one until it disconnects. -/
theorem receives_step {a : Action} (hi : Intact h.toTables)
    (hstep : step opt h (io, a) = some h') {sid p : Bytes} (hreceives : h.Receives sid p)
    (hstays : a ≠ .disconnect p) : h'.Receives sid p := by
  obtain ⟨sess, hsess, hreceiver⟩ := hreceives
  have heffect := effect_step hi hstep
  cases heffect with
  | quiet same => exact ⟨sess, by rw [same.sessions]; exact hsess, hreceiver⟩
  | created running new empty opened added code tables =>
    exact ⟨sess, by rw [tables]; exact hsess, hreceiver⟩
  | removed removal => exact ⟨sess, by rw [removal.sessions]; exact hsess, hreceiver⟩
  | @left q _ _ _ _ _ removal detached =>
    have hkept : without q sess = sess := by
      unfold without
      rw [if_neg]
      rw [hreceiver]
      rintro heq
      exact hstays (by rw [Option.some.inj heq])
    refine ⟨sess, ?_, hreceiver⟩
    rw [detached.sessions, removal.sessions, hsess, Option.map_some, hkept, ite_self]
  | @resumed q id m sid' sess' greeted resumes =>
    refine ⟨sess, ?_, hreceiver⟩
    simp only [resumeSession, join, toTables_next, OrderedMap.get_insert, tables_limited]
    rw [if_neg]
    · exact hsess
    · -- The session that is resumed has no receiver.
      rintro rfl
      obtain rfl := Option.some.inj (hsess.symm.trans resumes.session)
      rw [resumes.free] at hreceiver
      cases hreceiver
  | @started q id m shareId s starts =>
    refine ⟨sess, ?_, hreceiver⟩
    rw [(startSession_eq id).1, OrderedMap.get_insert, if_neg]
    · exact hsess
    · rintro rfl
      obtain ⟨-, hfresh, -⟩ := of_step hstep
      exact (of_fresh hfresh).2.2.1 (Std.ExtTreeMap.mem_iff_isSome_getElem?.mpr (by simp [hsess]))

/-! ## Tasks -/

/-- What the next task of a goroutine does. -/
inductive Ran (opt : Options) (io : HubIo) (h : Hub) (p : Bytes) : List Task → Hub → Prop where
  | plain {t : Task} {rest : List Task} {o : Output} (all : ∀ t ∈ rest, t.plain = true)
      (isPlain : t.plain = true) (silent : o.silent = true) :
      Ran opt io h p (t :: rest) { h.next p rest with log := h.log ++ [o] }
  | announce {sid : Bytes} {id : Int} {resumed : Bool} {m m' : SessionStart} {q : Bytes}
      (receives : h.Receives sid p) (commit : (m.sessionId, m.id, m.resumed) = (sid, id, resumed))
      (same : m'.sessionId = sid) (receiver : m.isSender = false) (sender : m'.isSender = true)
      (unasked : m'.id = 0) :
      Ran opt io h p [.announce sid id resumed] (h.next p [.start p m, .start q m'])
  | start {m m' : SessionStart} {q : Bytes} (receives : h.Receives m.sessionId p)
      (same : m'.sessionId = m.sessionId) (receiver : m.isSender = false)
      (sender : m'.isSender = true) (unasked : m'.id = 0) :
      Ran opt io h p [.start p m, .start q m'] ((h.next p [.start q m']).send p
        (.sessionStart { m with iceServers := iceServers opt io p }))
  | last {m : SessionStart} {q : Bytes} (receives : h.Receives m.sessionId p)
      (sender : m.isSender = true) (unasked : m.id = 0) :
      Ran opt io h p [.start q m] ((h.next p []).send q
        (.sessionStart { m with iceServers := iceServers opt io q }))

theorem ran_runTask (hi : Intact h.toTables) {p : Bytes} {t : Task} {rest : List Task}
    (hshape : Shape h.toTables p (t :: rest)) :
    Ran opt io h p (t :: rest) ((h.next p rest).runTask opt io p t) := by
  generalize htasks : t :: rest = tasks at hshape
  cases hshape with
  | plain all =>
    subst htasks
    rw [List.forall_mem_cons] at all
    obtain ⟨ht, hrest⟩ := all
    cases t with
    | sleep => exact .plain hrest ht rfl
    | send q m => exact .plain hrest ht (o := .text q m) ht
    | binary q frame => exact .plain hrest ht rfl
    | kick reason => exact .plain hrest ht rfl
    | announce => cases ht
    | start => cases ht
  | announce receives =>
    obtain ⟨rfl, rfl⟩ := List.cons.inj htasks
    obtain ⟨sess, hsess, hreceiver⟩ := receives
    obtain ⟨s, hs, -⟩ := hi.senders _ sess hsess
    simp only [runTask, announceSession, toTables_next, hsess, hs, hreceiver]
    have htwice : ∀ tasks, (h.next p []).next p tasks = h.next p tasks := by
      intro tasks
      simp [next]
    rw [htwice]
    exact .announce ⟨sess, hsess, hreceiver⟩ rfl rfl rfl rfl rfl
  | starts receives same receiver sender unasked =>
    obtain ⟨rfl, rfl⟩ := List.cons.inj htasks
    exact .start receives same receiver sender unasked
  | last receives sender unasked =>
    obtain ⟨rfl, rfl⟩ := List.cons.inj htasks
    exact .last receives sender unasked

theorem Ran.tables {p : Bytes} {tasks : List Task} (ran : Ran opt io h p tasks h') :
    h'.toTables = h.toTables := by
  cases ran <;> rfl

/-- The thread of `p` after its next task, and those of the others. -/
theorem Ran.shape {p : Bytes} {tasks : List Task} (ran : Ran opt io h p tasks h')
    (hshapes : ∀ q, Shape h.toTables q (h.threads q)) (q : Bytes) :
    Shape h'.toTables q (h'.threads q) := by
  rw [ran.tables]
  by_cases hq : q = p
  · subst hq
    cases ran with
    | plain all isPlain silent => simpa [next] using Shape.plain all
    | announce receives commit same receiver sender unasked =>
      obtain ⟨rfl, -⟩ := Prod.mk.inj commit
      simpa [next] using Shape.starts receives same receiver sender unasked
    | start receives same receiver sender unasked =>
      simpa [next, send] using Shape.last (same ▸ receives) sender unasked
    | last receives sender unasked =>
      have hdone : Shape h.toTables q [] := .plain (by simp)
      simpa [next, send] using hdone
  · have hsame : h'.threads q = h.threads q := by
      cases ran <;> simp [next, send, Function.update_of_ne hq]
    rw [hsame]
    exact hshapes q

theorem shapes_step {a : Action} (hi : Intact h.toTables)
    (hshapes : ∀ p, Shape h.toTables p (h.threads p)) (hstep : step opt h (io, a) = some h')
    (p : Bytes) : Shape h'.toTables p (h'.threads p) := by
  -- What a busy goroutine still has to do stays as it is.
  have hbusy : h.threads p ≠ [] → Shape h'.toTables p (h.threads p) := by
    intro hnonempty
    refine (hshapes p).mono fun sid hreceives => receives_step hi hstep hreceives ?_
    rintro rfl
    obtain ⟨-, -, hidle, -⟩ := of_step hstep
    exact hnonempty hidle
  have hidle : h.threads p = [] → Shape h'.toTables p (h.threads p) := by
    intro hempty
    rw [hempty]
    exact .plain (by simp)
  have hkept : Shape h'.toTables p (h.threads p) := by
    by_cases hempty : h.threads p = []
    · exact hidle hempty
    · exact hbusy hempty
  have htrace := trace_step hstep
  cases htrace with
  | ordinary same =>
    obtain heq | ⟨-, hplain⟩ := same.threads p
    · rw [heq]
      exact hkept
    · exact .plain hplain
  | stopped same =>
    obtain heq | ⟨-, hplain⟩ := same.threads p
    · rw [heq]
      exact hkept
    · exact .plain hplain
  | @resumed q id m sid sess idle resumes =>
    by_cases hp : p = q
    · subst hp
      rw [threads_resumeSession, Function.update_self]
      refine .announce ⟨{ sess with receiver := some p }, ?_, rfl⟩
      simp only [resumeSession, join, toTables_next, OrderedMap.get_insert, if_true]
    · rw [threads_resumeSession, Function.update_of_ne hp]
      exact hkept
  | @started q id m shareId s idle starts =>
    by_cases hp : p = q
    · subst hp
      rw [threads_startSession, Function.update_self]
      refine .announce ⟨⟨shareId, s.owner, some p, io.token, io.now⟩, ?_, rfl⟩
      rw [(startSession_eq id).1, OrderedMap.get_insert, if_pos rfl]
    · rw [threads_startSession, Function.update_of_ne hp]
      exact hkept
  | @ran q t rest thread =>
    exact (ran_runTask hi (thread ▸ hshapes q)).shape hshapes p

/-! ## Every claim gets its start -/

/-- A claim of `p` that has succeeded: the session, the request id, and whether it was resumed. -/
def Output.join? (p : Bytes) : Output → Option (Bytes × Int × Bool)
  | .joined sid q id resumed => if q = p then some (sid, id, resumed) else none
  | _ => none

/-- The start of a session that `p` is sent as its receiver. -/
def Output.start? (p : Bytes) : Output → Option (Bytes × Int × Bool)
  | .text q (.sessionStart m) =>
    if q = p ∧ m.isSender = false then some (m.sessionId, m.id, m.resumed) else none
  | _ => none

/-- The start for the receiver that a task stands for. -/
def Task.start? : Task → Option (Bytes × Int × Bool)
  | .announce sid id resumed => some (sid, id, resumed)
  | .start _ m => if m.isSender = false then some (m.sessionId, m.id, m.resumed) else none
  | _ => none

def joins (p : Bytes) (log : List Output) : List (Bytes × Int × Bool) := log.filterMap (Output.join? p)

def starts (p : Bytes) (log : List Output) : List (Bytes × Int × Bool) := log.filterMap (Output.start? p)

/-- What the goroutine of a peer still has to send to it. -/
def owed (tasks : List Task) : List (Bytes × Int × Bool) := tasks.filterMap Task.start?

/-- An announcement finds its receiver, and the claims of a peer that have succeeded are those
    whose start it was sent or is owed, each once and in order. -/
structure Announced (h : Hub) : Prop where
  running : h.crashed = false
  receiver : ∀ p sid id resumed, .announce sid id resumed ∈ h.threads p →
    ∃ sess, h.sessions[sid]? = some sess ∧ sess.receiver = some p
  answered : ∀ p, joins p h.log = starts p h.log ++ owed (h.threads p)
  /-- The other party's message answers no request. -/
  unasked : ∀ q m, .text q (.sessionStart m) ∈ h.log → m.isSender = true → m.id = 0

theorem join?_told {h' : Hub} {o : Output} (ho : h'.Told o) (p : Bytes) : Output.join? p o = none := by
  obtain hsilent | ⟨q, sid, reason, rfl, -⟩ := ho
  · cases o with
    | joined => cases hsilent
    | _ => rfl
  · rfl

theorem start?_told {h' : Hub} {o : Output} (ho : h'.Told o) (p : Bytes) :
    Output.start? p o = none := by
  obtain hsilent | ⟨q, sid, reason, rfl, -⟩ := ho
  · cases o with
    | text q m =>
      cases m with
      | sessionStart => cases hsilent
      | _ => rfl
    | _ => rfl
  · rfl

theorem owed_plain {tasks : List Task} (hplain : ∀ t ∈ tasks, t.plain = true) : owed tasks = [] := by
  refine List.filterMap_eq_nil_iff.mpr fun t ht => ?_
  have := hplain t ht
  cases t with
  | announce => cases this
  | start => cases this
  | _ => rfl

/-- What the log and the goroutines say about each other. -/
structure Settled (h : Hub) : Prop where
  running : h.crashed = false
  answered : ∀ p, joins p h.log = starts p h.log ++ owed (h.threads p)
  unasked : ∀ q m, .text q (.sessionStart m) ∈ h.log → m.isSender = true → m.id = 0

theorem Settled.ordinary (h₀ : Settled h) (same : Ordinary h h') : Settled h' where
  running := same.crashed.trans h₀.running
  answered p := by
    obtain ⟨out, hout, htold⟩ := same.log
    have hjoins : joins p out = [] :=
      List.filterMap_eq_nil_iff.mpr fun o ho => join?_told (htold o ho) p
    have hstarts : starts p out = [] :=
      List.filterMap_eq_nil_iff.mpr fun o ho => start?_told (htold o ho) p
    have howed : owed (h'.threads p) = owed (h.threads p) := by
      obtain heq | ⟨hempty, hplain⟩ := same.threads p
      · rw [heq]
      · rw [hempty, owed_plain hplain]
        rfl
    rw [howed, hout, joins, starts, List.filterMap_append, List.filterMap_append]
    change joins p h.log ++ joins p out = starts p h.log ++ starts p out ++ _
    rw [hjoins, hstarts, List.append_nil, List.append_nil]
    exact h₀.answered p
  unasked q m hmem := by
    obtain ⟨out, hout, htold⟩ := same.log
    rw [hout, List.mem_append] at hmem
    obtain hmem | hmem := hmem
    · exact h₀.unasked q m hmem
    · obtain hsilent | ⟨_, _, _, heq, -⟩ := htold _ hmem
      · cases hsilent
      · cases heq

/-- A claim succeeds, and its start is owed. -/
theorem Settled.join (h₀ : Settled h) {p sid : Bytes} {id : Int} {resumed : Bool}
    (hidle : h.threads p = []) (crashed : h'.crashed = h.crashed)
    (log : h'.log = h.log ++ [.joined sid p id resumed])
    (threads : h'.threads = Function.update h.threads p [.announce sid id resumed]) :
    Settled h' where
  running := crashed.trans h₀.running
  answered q := by
    have hbefore := h₀.answered q
    rw [log, threads, joins, starts, List.filterMap_append, List.filterMap_append]
    change joins q h.log ++ _ = starts q h.log ++ _ ++ _
    by_cases hq : q = p
    · subst hq
      rw [hidle] at hbefore
      rw [hbefore]
      simp [owed, Output.join?, Output.start?, Task.start?]
    · simp [Output.join?, Output.start?, Ne.symm hq, Function.update_of_ne hq, hbefore]
  unasked q m hmem := by
    rw [log, List.mem_append, List.mem_singleton] at hmem
    obtain hmem | hmem := hmem
    · exact h₀.unasked q m hmem
    · cases hmem

theorem Settled.ran (h₀ : Settled h) {p : Bytes} {tasks : List Task} (hthread : h.threads p = tasks)
    (ran : Ran opt io h p tasks h') : Settled h' := by
  have hbefore := h₀.answered p
  rw [hthread] at hbefore
  -- The others' starts are not sent by this goroutine.
  suffices hstep : ∃ out rest, h'.log = h.log ++ out ∧ h'.threads = Function.update h.threads p rest ∧
      h'.crashed = h.crashed ∧ joins p out = [] ∧ owed tasks = starts p out ++ owed rest ∧
      (∀ q, q ≠ p → joins q out = [] ∧ starts q out = []) ∧
      ∀ q m, .text q (.sessionStart m) ∈ out → m.isSender = true → m.id = 0 by
    obtain ⟨out, rest, hlog, hthreads, hcrashed, hjoins, howed, hother, hunasked⟩ := hstep
    refine ⟨hcrashed.trans h₀.running, fun q => ?_, fun q m hmem => ?_⟩
    · rw [hlog, hthreads, joins, starts, List.filterMap_append, List.filterMap_append]
      change joins q h.log ++ joins q out = starts q h.log ++ starts q out ++ _
      by_cases hq : q = p
      · subst hq
        rw [hbefore, hjoins, howed, Function.update_self, List.append_nil, List.append_assoc]
      · rw [(hother q hq).1, (hother q hq).2, Function.update_of_ne hq, List.append_nil,
          List.append_nil]
        exact h₀.answered q
    · rw [hlog, List.mem_append] at hmem
      obtain hmem | hmem := hmem
      · exact h₀.unasked q m hmem
      · exact hunasked q m hmem
  cases ran with
  | @plain t rest o all isPlain silent =>
    have htold : h.Told o := .inl silent
    refine ⟨[o], rest, rfl, rfl, rfl, ?_, ?_, fun q _ => ?_, fun q m hmem => ?_⟩
    · simp [joins, join?_told htold]
    · rw [owed_plain (List.forall_mem_cons.mpr ⟨isPlain, all⟩), owed_plain all]
      simp [starts, start?_told htold]
    · simp [joins, starts, join?_told htold, start?_told htold]
    · obtain rfl := List.mem_singleton.mp hmem
      cases silent
  | @announce sid id resumed m m' q receives commit same receiver sender unasked =>
    refine ⟨[], _, by simp [next], rfl, rfl, rfl, ?_, fun _ _ => ⟨rfl, rfl⟩,
      fun _ _ hmem => absurd hmem List.not_mem_nil⟩
    simp [owed, starts, Task.start?, receiver, sender, commit]
  | @start m m' q receives same receiver sender unasked =>
    refine ⟨_, _, rfl, rfl, rfl, rfl, ?_, fun q' hq' => ⟨rfl, ?_⟩, fun q' m'' hmem hsender => ?_⟩
    · simp [owed, starts, Task.start?, Output.start?, receiver, sender]
    · simp [starts, Output.start?, Ne.symm hq']
    · simp only [List.mem_singleton, Output.text.injEq, Message.sessionStart.injEq] at hmem
      obtain ⟨-, rfl⟩ := hmem
      exact absurd (receiver.symm.trans hsender) Bool.false_ne_true
  | @last m q receives sender unasked =>
    refine ⟨_, _, rfl, rfl, rfl, rfl, ?_, fun q' hq' => ⟨rfl, ?_⟩, fun q' m'' hmem hsender => ?_⟩
    · simp [owed, starts, Task.start?, Output.start?, sender]
    · simp [starts, Output.start?, sender]
    · simp only [List.mem_singleton, Output.text.injEq, Message.sessionStart.injEq] at hmem
      obtain ⟨-, rfl⟩ := hmem
      exact unasked

theorem settled_step {a : Action} (hi : Intact h.toTables)
    (hshapes : ∀ p, Shape h.toTables p (h.threads p)) (h₀ : Settled h)
    (hstep : step opt h (io, a) = some h') : Settled h' := by
  have htrace := trace_step hstep
  cases htrace with
  | ordinary same => exact h₀.ordinary same
  | stopped same =>
    have hclosed : Settled { h with closed := true } := ⟨h₀.running, h₀.answered, h₀.unasked⟩
    exact hclosed.ordinary same
  | @resumed p id m sid sess idle resumes =>
    exact h₀.join idle (crashed_limited p) (log_resumeSession ..) (threads_resumeSession ..)
  | @started p id m shareId s idle starts =>
    exact h₀.join idle (crashed_limited p) (log_startSession ..) (threads_startSession ..)
  | @ran p t rest thread => exact h₀.ran thread (ran_runTask hi (thread ▸ hshapes p))

theorem shapes_run {ok : Hub → HubIo × Action → Prop} {as : List (HubIo × Action)}
    (run : (machine opt).Run ok as h) : (∀ p, Shape h.toTables p (h.threads p)) ∧ Settled h := by
  induction run with
  | init =>
    refine ⟨fun p => .plain (by simp [machine]), rfl, fun p => rfl, fun q m hmem => ?_⟩
    simp [machine] at hmem
  | step run _ hstep ih =>
    have hi := intact_run run
    exact ⟨shapes_step hi ih.1 hstep, settled_step hi ih.1 ih.2 hstep⟩

theorem announced_run {as : List (HubIo × Action)} (run : (machine opt).Run Machine.anyStep as h) :
    Announced h := by
  obtain ⟨hshapes, hsettled⟩ := shapes_run run
  refine ⟨hsettled.running, fun p sid id resumed hmem => ?_, hsettled.answered, hsettled.unasked⟩
  have hshape := hshapes p
  generalize h.threads p = tasks at hmem hshape
  cases hshape with
  | plain all => exact absurd (all _ hmem) Bool.false_ne_true
  | announce receives =>
    obtain heq := List.mem_singleton.mp hmem
    cases heq
    exact receives
  | starts => simp at hmem
  | last => simp at hmem

theorem exec_droppedRun : ((machine {}).exec droppedRun (machine {}).init).map (fun h =>
    (joins [80, 2] h.log, starts [80, 2] h.log)) =
    some ([([88, 6], 2, false)], [([88, 6], 2, false)]) := by
  decide +kernel

theorem announced_dropped : ∃ h, (machine {}).Run Machine.anyStep droppedRun h ∧
    starts [80, 2] h.log = [([88, 6], 2, false)] ∧ Announced h := by
  obtain ⟨h, hexec, heq⟩ := Option.map_eq_some_iff.mp exec_droppedRun
  have run := Machine.run_of_exec hexec
  exact ⟨h, run, (Prod.mk.inj heq).2, announced_run run⟩

end Hub

end CrossTransfer.Signal
