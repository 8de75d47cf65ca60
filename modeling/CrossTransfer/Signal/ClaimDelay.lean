import CrossTransfer.Signal.Replies

/-! # The delay of failed claims

After its critical section the goroutine of a claim sleeps, or not, and sends the reply; other
peers go on in between (`emitted` is what it hands out, in any such interleaving). A failed claim
sleeps once before its error is sent, except on the exits that `Undelayed` lists: a message that
cannot be decoded, the claim of the peer's own share, and both refusals for want of capacity.
-/

namespace CrossTransfer.Signal

open CrossTransfer.Library
open CrossTransfer.Transfer

/-- What a task of `p` hands out, if it is a delay or a message. -/
def Task.output (p : Bytes) : Task → Option Output
  | .sleep => some (.slept p)
  | .send q m => some (.text q m)
  | _ => none

/-- A task of an announcement. -/
def Task.starts : Task → Bool
  | .announce .. => true
  | .start .. => true
  | _ => false

/-- An error comes after one delay, and the start of a session without any. -/
structure Delayed (p : Bytes) (out : List Output) : Prop where
  failed : ∀ before after id code text, out = before ++ .text p (.error id code text) :: after →
    before.count (.slept p) = 1
  started : ∀ m, .text p (.sessionStart m) ∈ out → .slept p ∉ out

namespace Hub

open Tables

variable {opt : Options} {io : HubIo} {h h' : Hub} {p : Bytes}

/-- A message or a frame of `p` is handled. -/
def Action.handles (p : Bytes) : Action → Bool
  | .text q _ => q = p
  | .binary q _ => q = p
  | _ => false

/-- What the goroutine of `p` hands out in a step. -/
def emitted (opt : Options) (p : Bytes) (h : Hub) (a : HubIo × Action) : List Output :=
  match a.2 with
  | .task q => if q = p then ((machine opt).step h a).elim [] fun h' => h'.log.drop h.log.length else []
  | _ => []

/-- The token leads to a session without a receiver, but the peer has as many as it may have. -/
def TokenAtCapacity (opt : Options) (h : Hub) (p token : Bytes) : Prop :=
  ∃ sid sess, h.tokens[token]? = some sid ∧ h.sessions[sid]? = some sess ∧ sess.receiver = none ∧
    opt.maxSessionsPerPeer ≤ (h.peerSessions p).size

/-- The code leads to a share that is the peer's own, or no session can be added. -/
def CodeRefused (opt : Options) (io : HubIo) (h : Hub) (p code : Bytes) : Prop :=
  ∃ e s, h.codes.lookup code io.now = .ok e ∧ h.share? e.id = some s ∧
    (s.owner = p ∨ h.sessionsFull opt p s.owner = true)

/-- The claims that fail at once. -/
def Undelayed (opt : Options) (io : HubIo) (h : Hub) (p : Bytes) : Except Bytes ClaimMsg → Prop
  | .error _ => True
  | .ok m => h.closed = false ∧ (h.claimAllowed opt io (h.peerIp p)).1 = true ∧
    if m.resumeToken ≠ [] then h.TokenAtCapacity opt p m.resumeToken
    else h.CodeRefused opt io p m.code

/-! ## The exits -/

/-- How the critical section of a claim can end, where `atOnce` says whether it fails at once. -/
inductive ClaimExit (p : Bytes) (id : Int) (atOnce : Prop) (tasks : List Task) : Prop where
  | ignored (empty : tasks = []) (slow : ¬ atOnce)
  | refused (code : ErrorCode) (text : Bytes) (error : tasks = [errorTask p id code text])
      (fast : atOnce)
  | delayed (code : ErrorCode) (text : Bytes) (error : tasks = [.sleep, errorTask p id code text])
      (slow : ¬ atOnce)
  | joined (sid : Bytes) (resumed : Bool) (announce : tasks = [.announce sid id resumed])
      (slow : ¬ atOnce)

theorem threads_next (tasks : List Task) : (h.next p tasks).threads p = tasks :=
  Function.update_self ..

theorem exit_claimToken (h : Hub) (p : Bytes) (id : Int) (token : Bytes) :
    ClaimExit p id (h.TokenAtCapacity opt p token) ((h.claimToken opt p id token).threads p) := by
  unfold claimToken
  split
  · rename_i hnone
    refine .delayed .codeNotFound _ (threads_next _) ?_
    rintro ⟨sid, sess, htoken, hsess, -⟩
    simp [htoken, hsess] at hnone
  · rename_i sid sess hfound
    obtain ⟨sid', htoken, hmap⟩ := Option.bind_eq_some_iff.mp hfound
    obtain ⟨sess', hsess, heq⟩ := Option.map_eq_some_iff.mp hmap
    obtain ⟨rfl, rfl⟩ := Prod.mk.inj heq
    have honly : h.TokenAtCapacity opt p token →
        sess'.receiver = none ∧ opt.maxSessionsPerPeer ≤ (h.peerSessions p).size := by
      rintro ⟨sid, sess, htoken', hsess', hfull⟩
      obtain rfl := Option.some.inj (htoken.symm.trans htoken')
      obtain rfl := Option.some.inj (hsess.symm.trans hsess')
      exact hfull
    split
    · rename_i hbusy
      refine .delayed .shareBusy _ (threads_next _) fun hcapacity => ?_
      rw [(honly hcapacity).1] at hbusy
      cases hbusy
    · rename_i hfree
      split
      · rename_i hfull
        have hnone : sess'.receiver = none := by simpa using hfree
        exact .refused .serverBusy _ (threads_next _) ⟨sid', sess', htoken, hsess, hnone, hfull⟩
      · rename_i hroom
        exact .joined sid' true (threads_next _) fun hcapacity => hroom (honly hcapacity).2

theorem exit_claimCode (h : Hub) (p : Bytes) (id : Int) (code : Bytes) :
    ClaimExit p id (h.CodeRefused opt io p code) ((h.claimCode opt io p id code).threads p) := by
  unfold claimCode
  split
  · rename_i hlookup
    refine .delayed .codeNotFound _ (threads_next _) ?_
    rintro ⟨e, s, hok, -⟩
    rw [hlookup] at hok
    cases hok
  · rename_i hlookup
    refine .delayed .codeExpired _ (threads_next _) ?_
    rintro ⟨e, s, hok, -⟩
    rw [hlookup] at hok
    cases hok
  · rename_i e hlookup
    have honly : ∀ s, h.share? e.id = some s → h.CodeRefused opt io p code →
        s.owner = p ∨ h.sessionsFull opt p s.owner = true := by
      rintro s hs ⟨e', s', hok, hs', hrefused⟩
      obtain rfl := Except.ok.inj (hlookup.symm.trans hok)
      obtain rfl := Option.some.inj (hs.symm.trans hs')
      exact hrefused
    split
    · rename_i hgone
      refine .delayed .codeNotFound _ (threads_next _) ?_
      rintro ⟨e', s, hok, hs, -⟩
      obtain rfl := Except.ok.inj (hlookup.symm.trans hok)
      rw [hgone] at hs
      cases hs
    · rename_i s hs
      split
      · rename_i hown
        exact .refused .badRequest _ (threads_next _) ⟨e, s, hlookup, hs, .inl hown⟩
      · rename_i hother
        split
        · rename_i hfull
          exact .refused .serverBusy _ (threads_next _) ⟨e, s, hlookup, hs, .inr hfull⟩
        · rename_i hroom
          refine .joined io.sessionId false (threads_next _) fun hrefused => ?_
          exact (honly s hs hrefused).elim hother hroom

theorem exit_onClaim (hidle : h.threads p = []) (id : Int) (m : Except Bytes ClaimMsg) :
    ClaimExit p id (h.Undelayed opt io p m) ((h.onClaim opt io p id m).threads p) := by
  cases m with
  | error err => exact .refused .badRequest err (threads_next _) trivial
  | ok m =>
    unfold onClaim
    simp only
    split
    · rename_i hclosed
      refine .ignored hidle fun hfast => ?_
      rw [hfast.1] at hclosed
      cases hclosed
    · rename_i hopen
      change ClaimExit p id _ (Hub.threads (if (!(h.claimAllowed opt io (h.peerIp p)).1) = true then
          (limited opt io h p).next p _
        else if m.resumeToken ≠ [] then (limited opt io h p).claimToken opt p id m.resumeToken
        else (limited opt io h p).claimCode opt io p id m.code) p)
      have hopened : h.closed = false := by simpa using hopen
      obtain ⟨perIp, hlimited⟩ : ∃ perIp, limited opt io h p = { h with perIp := perIp } := limited_eq p
      split
      · rename_i hrejected
        refine .delayed .rateLimited _ (threads_next _) fun hfast => ?_
        simp [hfast.2.1] at hrejected
      · rename_i hallowed
        rw [Bool.not_eq_true', Bool.not_eq_false] at hallowed
        -- The limiters have no part in what follows.
        have hsame : h.Undelayed opt io p (.ok m) ↔
            if m.resumeToken ≠ [] then (limited opt io h p).TokenAtCapacity opt p m.resumeToken
            else (limited opt io h p).CodeRefused opt io p m.code := by
          rw [hlimited]
          exact ⟨fun hfast => hfast.2.2, fun hfast => ⟨hopened, hallowed, hfast⟩⟩
        rw [hsame]
        split
        · exact exit_claimToken ..
        · exact exit_claimCode ..

/-! ## What the goroutine hands out -/

/-- No other goroutine and no handler of another peer touches the tasks of `p`. -/
theorem threads_step {a : Action} (hi : Intact h.toTables) (hstep : step opt h (io, a) = some h')
    (hhandles : a.handles p = false) (htask : a ≠ .task p) : h'.threads p = h.threads p := by
  have hother : ∀ {q : Bytes} {tasks : List Task}, q ≠ p →
      Function.update h.threads q tasks p = h.threads p :=
    fun hq => Function.update_of_ne (Ne.symm hq) ..
  cases sent_step hi hstep with
  | handled idle handled =>
    have hq := of_decide_eq_false hhandles
    cases handled with
    | unanswered reason => rfl
    | welcomed out threads => rw [threads]
    | answered before after notified =>
      simp only [next, notified.threads]
      exact hother hq
    | joined threads =>
      rw [threads]
      exact hother hq
    | forwarded => exact hother hq
  | malformed => exact hother (of_decide_eq_false hhandles)
  | refused => exact hother (of_decide_eq_false hhandles)
  | relayed => exact hother (of_decide_eq_false hhandles)
  | @ran q t rest thread =>
    have hq : q ≠ p := fun heq => htask (heq ▸ rfl)
    cases t with
    | announce sid reqId resumed =>
      simp only [runTask, announceSession]
      split
      · exact hother hq
      · split
        · exact hother hq
        · split
          · exact hother hq
          · simp only [next, Function.update_idem]
            exact hother hq
    | _ => exact hother hq
  | noticed notified => rw [notified.threads]

theorem emitted_other {a : HubIo × Action} (htask : a.2 ≠ .task p) : emitted opt p h a = [] := by
  obtain ⟨io, a⟩ := a
  cases a with
  | task q =>
    have hq : q ≠ p := fun heq => htask (heq ▸ rfl)
    exact if_neg hq
  | _ => rfl

theorem emitted_task (hstep : (machine opt).step h (io, .task p) = some h') {out : List Output}
    (hlog : h'.log = h.log ++ out) : emitted opt p h (io, .task p) = out := by
  simp [emitted, hstep, hlog]

/-- A delay or a message is handed out, and the next task is due. -/
theorem runTask_output (opt : Options) (io : HubIo) (h : Hub) (rest : List Task) {t : Task}
    {o : Output} (ho : t.output p = some o) :
    ((h.next p rest).runTask opt io p t).log = h.log ++ [o] ∧
      ((h.next p rest).runTask opt io p t).threads p = rest := by
  cases t with
  | sleep =>
    obtain rfl := Option.some.inj ho
    exact ⟨rfl, threads_next rest⟩
  | send q m =>
    obtain rfl := Option.some.inj ho
    exact ⟨rfl, threads_next rest⟩
  | _ => cases ho

/-- An announcement hands out starts only, and so do the tasks that it leaves. -/
theorem runTask_starts (opt : Options) (io : HubIo) (h : Hub) (p : Bytes) {t : Task}
    {rest : List Task} (ht : t.starts = true) (hrest : ∀ t ∈ rest, t.starts = true) :
    (∃ out, ((h.next p rest).runTask opt io p t).log = h.log ++ out ∧
      ∀ o ∈ out, ∃ q m, o = .text q (.sessionStart m)) ∧
      ∀ t' ∈ ((h.next p rest).runTask opt io p t).threads p, t'.starts = true := by
  have hnone : ∃ out, h.log = h.log ++ out ∧ ∀ o ∈ out, ∃ q m, o = .text q (.sessionStart m) :=
    ⟨[], (List.append_nil _).symm, by simp⟩
  cases t with
  | announce sid reqId resumed =>
    simp only [runTask, announceSession]
    split
    · exact ⟨hnone, by rwa [threads_next]⟩
    · split
      · exact ⟨hnone, by rwa [threads_next]⟩
      · split
        · refine ⟨hnone, ?_⟩
          change ∀ t' ∈ (h.next p rest).threads p, t'.starts = true
          rwa [threads_next]
        · refine ⟨hnone, ?_⟩
          rw [threads_next]
          simp [Task.starts]
  | start q m =>
    refine ⟨⟨[.text q (.sessionStart { m with iceServers := iceServers opt io q })], rfl, ?_⟩, ?_⟩
    · intro o ho
      exact ⟨q, _, List.mem_singleton.mp ho⟩
    · change ∀ t' ∈ (h.next p rest).threads p, t'.starts = true
      rwa [threads_next]
  | _ => cases ht

variable {as bs : List (HubIo × Action)}

/-- The goroutine hands out what its tasks are, in their order, whoever steps in between. -/
theorem collect_outputs (run : (machine opt).Run Machine.anyStep as h) (outs : List Output)
    (houts : (h.threads p).map (Task.output p) = outs.map some)
    (hexec : (machine opt).exec bs h = some h') (hown : ∀ b ∈ bs, b.2.handles p = false)
    (hdone : h'.threads p = []) : (machine opt).collect (emitted opt p) bs h = outs := by
  induction bs generalizing as h outs with
  | nil =>
    obtain rfl := Option.some.inj hexec
    rw [hdone] at houts
    have hnone : outs = [] := by simpa using houts.symm
    rw [hnone]
    rfl
  | cons b bs ih =>
    simp only [Machine.exec, Option.bind_eq_some_iff] at hexec
    obtain ⟨mid, hstep, hexec⟩ := hexec
    rw [List.forall_mem_cons] at hown
    simp only [Machine.collect, hstep, Option.elim_some]
    by_cases htask : b.2 = .task p
    · obtain ⟨io, a⟩ := b
      obtain rfl : a = .task p := htask
      obtain ⟨-, -, t, rest, hthread, rfl⟩ := of_step hstep
      rw [hthread, List.map_cons] at houts
      cases outs with
      | nil => cases houts
      | cons o outs =>
        obtain ⟨ho, houts⟩ := List.cons.inj houts
        obtain ⟨hlog, hthreads⟩ := runTask_output opt.withDefaults io h rest ho
        rw [emitted_task hstep hlog]
        rw [← hthreads] at houts
        rw [ih (Machine.Run.step run trivial hstep) outs houts hexec hown.2]
        rfl
    · have hsame := threads_step (intact_run run) hstep hown.1 htask
      rw [emitted_other htask, List.nil_append]
      exact ih (Machine.Run.step run trivial hstep) outs (by rw [hsame, houts]) hexec hown.2

/-- A goroutine that announces a session hands out nothing else. -/
theorem collect_starts (run : (machine opt).Run Machine.anyStep as h)
    (hstarts : ∀ t ∈ h.threads p, t.starts = true) (hexec : (machine opt).exec bs h = some h')
    (hown : ∀ b ∈ bs, b.2.handles p = false) :
    ∀ o ∈ (machine opt).collect (emitted opt p) bs h, ∃ q m, o = .text q (.sessionStart m) := by
  induction bs generalizing as h with
  | nil => simp [Machine.collect]
  | cons b bs ih =>
    simp only [Machine.exec, Option.bind_eq_some_iff] at hexec
    obtain ⟨mid, hstep, hexec⟩ := hexec
    rw [List.forall_mem_cons] at hown
    simp only [Machine.collect, hstep, Option.elim_some]
    by_cases htask : b.2 = .task p
    · obtain ⟨io, a⟩ := b
      obtain rfl : a = .task p := htask
      obtain ⟨-, -, t, rest, hthread, rfl⟩ := of_step hstep
      rw [hthread, List.forall_mem_cons] at hstarts
      obtain ⟨⟨out, hlog, hout⟩, hnext⟩ := runTask_starts opt.withDefaults io h p
        hstarts.1 hstarts.2
      rw [emitted_task hstep hlog]
      intro o ho
      obtain ho | ho := List.mem_append.mp ho
      · exact hout o ho
      · exact ih (Machine.Run.step run trivial hstep) hnext hexec hown.2 o ho
    · have hsame := threads_step (intact_run run) hstep hown.1 htask
      rw [emitted_other htask, List.nil_append]
      exact ih (Machine.Run.step run trivial hstep) (by rwa [hsame]) hexec hown.2

/-! ## The delay -/

/-- A claim is answered as it should be exactly when it is not one of those that fail at once. -/
theorem delayed_iff (run : (machine opt).Run Machine.anyStep as h) {id : Int}
    {m : Except Bytes ClaimMsg} (hgreeted : h.greeted p = true) {mid : Hub}
    (hclaim : (machine opt).step h (io, .text p (some ⟨id, .claim m⟩)) = some mid)
    (hexec : (machine opt).exec bs mid = some h') (hown : ∀ b ∈ bs, b.2.handles p = false)
    (hdone : h'.threads p = []) :
    Delayed p ((machine opt).collect (emitted opt p) bs mid) ↔ ¬ h.Undelayed opt.withDefaults io p m := by
  have hrun := Machine.Run.step run trivial hclaim
  obtain ⟨hidle, -, ⟨hnot, -⟩ | ⟨-, rfl⟩⟩ := step_request hclaim
  · rw [hgreeted] at hnot
    cases hnot
  have hexit : ClaimExit p id (h.Undelayed opt.withDefaults io p m)
      ((h.dispatch opt.withDefaults io p id (.claim m)).threads p) := exit_onClaim (idle_threads hidle) id m
  have houtputs := @collect_outputs opt _ h' p _ bs hrun
  cases hexit with
  | ignored empty slow =>
    rw [houtputs [] (by rw [empty]; rfl) hexec hown hdone]
    refine iff_of_true ⟨fun before after _ _ _ heq => ?_, by simp⟩ slow
    simp at heq
  | refused code text error fast =>
    rw [houtputs [.text p (.error id code text)] (by rw [error]; rfl) hexec hown hdone]
    refine iff_of_false (fun hdelayed => ?_) (not_not.mpr fast)
    have hcount := hdelayed.failed [] [] id code text rfl
    cases hcount
  | delayed code text error slow =>
    rw [houtputs [.slept p, .text p (.error id code text)] (by rw [error]; rfl) hexec hown hdone]
    refine iff_of_true ⟨fun before after id' code' text' heq => ?_, by simp⟩ slow
    have hbefore : before = [.slept p] := by
      cases before with
      | nil => simp at heq
      | cons first before =>
        cases before with
        | nil =>
          simp at heq
          simp [heq.1]
        | cons _ before => simp at heq
    simp [hbefore]
  | joined sid resumed announce slow =>
    have hstarts := collect_starts hrun (p := p) (by simp [announce, Task.starts]) hexec hown
    refine iff_of_true ⟨fun before after id' code text heq => ?_, fun _ _ hslept => ?_⟩ slow
    · obtain ⟨q, m', hsame⟩ := hstarts (.text p (.error id' code text)) (by simp [heq])
      cases hsame
    · obtain ⟨q, m', hsame⟩ := hstarts _ hslept
      cases hsame

/-- The claim of a code, once the first peer has created its share. -/
def claimBy (p : Bytes) (code : String) : HubIo × Action :=
  request 6 1 p 3 (.claim (.ok { code := ascii code }))

/-- Another peer claims a code that no share has. -/
theorem delayed_unknown : ∃ h mid h', (machine {}).exec (shareRun (ascii "once")) (machine {}).init = some h ∧
    (machine {}).step h (claimBy [80, 2] "5555555555") = some mid ∧
    (machine {}).exec [goesOn 7 [80, 2], goesOn 7 [80, 2]] mid = some h' ∧
    (Delayed [80, 2] ((machine {}).collect (emitted {} [80, 2]) [goesOn 7 [80, 2], goesOn 7 [80, 2]] mid) ↔
      ¬ h.Undelayed (Options.withDefaults {}) (ioAt 6 1) [80, 2] (.ok { code := ascii "5555555555" })) := by
  have hgreeted : ((machine {}).exec (shareRun (ascii "once")) (machine {}).init).map
      (·.greeted [80, 2]) = some true := by
    decide +kernel
  obtain ⟨h, hexec, hgreeted⟩ := Option.map_eq_some_iff.mp hgreeted
  have hall : ((machine {}).exec (shareRun (ascii "once") ++ (claimBy [80, 2] "5555555555" ::
      [goesOn 7 [80, 2], goesOn 7 [80, 2]])) (machine {}).init).map (·.threads [80, 2]) = some [] := by
    decide +kernel
  obtain ⟨h', hall, hdone⟩ := Option.map_eq_some_iff.mp hall
  rw [Machine.exec_append, hexec, Option.bind_some] at hall
  simp only [Machine.exec, Option.bind_eq_some_iff] at hall
  obtain ⟨mid, hclaim, hrest⟩ := hall
  have hrest' : (machine {}).exec [goesOn 7 [80, 2], goesOn 7 [80, 2]] mid = some h' := by
    simpa only [Machine.exec, Option.bind_eq_some_iff] using hrest
  exact ⟨h, mid, h', hexec, hclaim, hrest',
    delayed_iff (Machine.run_of_exec hexec) hgreeted hclaim hrest' (by decide) hdone⟩

/-- The owner claims its own share, and is told so at once. -/
theorem not_delayed_own : ∃ h mid h', (machine {}).Run Machine.anyStep (shareRun (ascii "once")) h ∧
    h.greeted [80, 1] = true ∧ (machine {}).step h (claimBy [80, 1] "4444444444") = some mid ∧
    (machine {}).exec [goesOn 7 [80, 1]] mid = some h' ∧ h'.threads [80, 1] = [] ∧
    ¬ Delayed [80, 1] ((machine {}).collect (emitted {} [80, 1]) [goesOn 7 [80, 1]] mid) := by
  have hgreeted : ((machine {}).exec (shareRun (ascii "once")) (machine {}).init).map
      (·.greeted [80, 1]) = some true := by
    decide +kernel
  obtain ⟨h, hexec, hgreeted⟩ := Option.map_eq_some_iff.mp hgreeted
  have hmid : ((machine {}).exec (shareRun (ascii "once") ++ [claimBy [80, 1] "4444444444"])
      (machine {}).init).map ((machine {}).collect (emitted {} [80, 1]) [goesOn 7 [80, 1]]) =
      some [.text [80, 1] (.error 3 .badRequest (ascii "cannot claim own share"))] := by
    decide +kernel
  obtain ⟨mid, hclaim, hout⟩ := Option.map_eq_some_iff.mp hmid
  have hlast : ((machine {}).exec (shareRun (ascii "once") ++ [claimBy [80, 1] "4444444444"] ++
      [goesOn 7 [80, 1]]) (machine {}).init).map (·.threads [80, 1]) = some [] := by
    decide +kernel
  obtain ⟨h', hlast, hdone⟩ := Option.map_eq_some_iff.mp hlast
  rw [Machine.exec_append, hclaim, Option.bind_some] at hlast
  rw [Machine.exec_append, hexec, Option.bind_some] at hclaim
  refine ⟨h, mid, h', Machine.run_of_exec hexec, hgreeted, ?_, hlast, hdone, fun hdelayed => ?_⟩
  · simpa [Machine.exec] using hclaim
  · rw [hout] at hdelayed
    have hcount := hdelayed.failed [] [] _ _ _ rfl
    cases hcount

end Hub

end CrossTransfer.Signal
