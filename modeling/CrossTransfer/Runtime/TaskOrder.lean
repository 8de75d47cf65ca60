import CrossTransfer.Runtime.EventLoop

/-! # The order of tasks

In which order the event loop runs the tasks, whatever threads post and cancel in between
(`run_keepsOrder`). The queue is sorted by due time and then by id, since ids are given out under the
lock under which the entries come in; so a task that has come in earlier and is due no later than
another one is either in front of it or not in the queue any more (`Waiting.notPassed`).

A statement about the log of a run says which events are in it in which order.
-/

namespace CrossTransfer.Runtime

open CrossTransfer.Library

namespace EventLoop

variable {τ : Type*} {s s' : EventLoop τ} {log : List Event} {event : Event} {e : Entry τ} {p : Posted}
  {id : Nat} {now : Int}

/-! ## What the log says -/

/-- The tasks come in with increasing ids. -/
structure Entering (log : List Event) : Prop where
  unique : ∀ p q : Posted, .posted p ∈ log → .posted q ∈ log → p.id = q.id → p = q
  numbered : ∀ p q : Posted, [.posted p, .posted q].Sublist log → p.id < q.id

/-- The tasks are taken once, when they are due, unless they have been cancelled before, and in order. -/
structure Taking (log : List Event) : Prop where
  once : ∀ id t u, ¬ [.taken id t, .taken id u].Sublist log
  due : ∀ id t, .taken id t ∈ log → ∃ p : Posted, [.posted p, .taken id t].Sublist log ∧
    p.id = id ∧ p.due ≤ t
  notCancelled : ∀ p : Posted, ∀ t, ¬ [.posted p, .cancelled p.id, .taken p.id t].Sublist log
  inOrder : ∀ p q : Posted, ∀ t u, [.posted p, .posted q].Sublist log → p.due ≤ q.due →
    ¬ [.taken q.id t, .taken p.id u].Sublist log

/-- The tasks are run as they have been taken. -/
structure Running (log : List Event) : Prop where
  taken : ∀ id u, .ran id u ∈ log → ∃ t ≤ u, [.taken id t, .ran id u].Sublist log
  inOrder : ∀ id t id' t', [.ran id t, .ran id' t'].Sublist log →
    ∃ u u', [.taken id u, .taken id' u'].Sublist log

/-- An entry that is still in the queue: it has been put there, it has neither been taken nor been
    cancelled, and nothing that it goes before has been taken. -/
structure Waiting (log : List Event) (e : Entry τ) : Prop where
  posted : ∃ p, .posted p ∈ log ∧ p.id = e.id ∧ p.due = e.when
  notTaken : ∀ t, .taken e.id t ∉ log
  notCancelled : ∀ p : Posted, p.id = e.id → ¬ [.posted p, .cancelled e.id].Sublist log
  notPassed : ∀ p q : Posted, ∀ t, p.id = e.id → [.posted p, .posted q].Sublist log → p.due ≤ q.due →
    .taken q.id t ∉ log

/-- The task that the loop holds was taken after all that have run. -/
def Held (log : List Event) (now : Int) (id : Nat) : Prop :=
  ∃ t ≤ now, .taken id t ∈ log ∧ ∀ id' u, .ran id' u ∈ log → ∃ v, [.taken id' v, .taken id t].Sublist log

structure Inv (s : EventLoop τ) : Prop where
  entering : Entering s.log
  taking : Taking s.log
  running : Running s.log
  queued : TimedQueue.Queued Entry.when Entry.id s.queue
  distinct : s.queue.Pairwise fun e e' => e.id ≠ e'.id
  waiting : ∀ e ∈ s.queue, Waiting s.log e
  fresh : ∀ p, .posted p ∈ s.log → p.id < s.nextId
  held : ∀ id task, s.thread = .holding id task → Held s.log s.now id

theorem Taking.not_mem (h : Taking log) (hfresh : ∀ p, .posted p ∈ log → p.id < id) (t : Int) :
    .taken id t ∉ log := by
  intro htaken
  obtain ⟨p, hbefore, hid, -⟩ := h.due id t htaken
  have hlt := hfresh p (hbefore.subset (by simp))
  omega

/-! ## An event of another kind -/

theorem Entering.other (h : Entering log) (hevent : ∀ p, event ≠ .posted p) :
    Entering (log ++ [event]) where
  unique p q hp hq := by
    refine h.unique p q ?_ ?_
    · simpa [(hevent p).symm] using hp
    · simpa [(hevent q).symm] using hq
  numbered p q hbefore := h.numbered p q (by simpa [pair_sublist_snoc, (hevent q).symm] using hbefore)

/-- A task that comes in has not been taken. -/
theorem Taking.other (h : Taking log) (hevent : ∀ id t, event ≠ .taken id t)
    (hposted : ∀ p, event = .posted p → ∀ t, .taken p.id t ∉ log) : Taking (log ++ [event]) where
  once id t u := by simpa [pair_sublist_snoc, (hevent id u).symm] using h.once id t u
  due id t htaken := by
    obtain ⟨p, hp⟩ := h.due id t (by simpa [(hevent id t).symm] using htaken)
    exact ⟨p, hp.1.trans (List.sublist_append_left ..), hp.2⟩
  notCancelled p t := by simpa [triple_sublist_snoc, (hevent p.id t).symm] using h.notCancelled p t
  inOrder p q t u hbefore hdue htaken := by
    replace htaken : [.taken q.id t, .taken p.id u].Sublist log := by
      simpa [pair_sublist_snoc, (hevent p.id u).symm] using htaken
    obtain hold | ⟨hq, -⟩ := pair_sublist_snoc.mp hbefore
    · exact h.inOrder p q t u hold hdue htaken
    · exact hposted q hq.symm t (htaken.subset (by simp))

theorem Running.other (h : Running log) (hevent : ∀ id t, event ≠ .ran id t) :
    Running (log ++ [event]) where
  taken id u hran := by
    obtain ⟨t, hle, hsub⟩ := h.taken id u (by simpa [(hevent id u).symm] using hran)
    exact ⟨t, hle, hsub.trans (List.sublist_append_left ..)⟩
  inOrder id t id' t' hran := by
    obtain ⟨u, u', hsub⟩ := h.inOrder id t id' t' (by
      simpa [pair_sublist_snoc, (hevent id' t').symm] using hran)
    exact ⟨u, u', hsub.trans (List.sublist_append_left ..)⟩

/-- An entry goes on waiting, unless it is cancelled or taken, or passed. -/
theorem Waiting.other (h : Waiting log e) (hposted : ∀ p, event = .posted p → ∀ t, .taken p.id t ∉ log)
    (hcancelled : event ≠ .cancelled e.id)
    (htaken : ∀ id t, event = .taken id t → e.id ≠ id ∧ ∀ p q : Posted, p.id = e.id →
      [.posted p, .posted q].Sublist log → p.due ≤ q.due → q.id ≠ id) :
    Waiting (log ++ [event]) e where
  posted := by
    obtain ⟨p, hp, hid⟩ := h.posted
    exact ⟨p, List.mem_append_left _ hp, hid⟩
  notTaken t hmem := by
    obtain hold | hnew := List.mem_append.mp hmem
    · exact h.notTaken t hold
    · exact (htaken e.id t (List.mem_singleton.mp hnew).symm).1 rfl
  notCancelled p hp := by simpa [pair_sublist_snoc, hcancelled.symm] using h.notCancelled p hp
  notPassed p q t hp hbefore hdue hmem := by
    obtain hbefore | ⟨hq, -⟩ := pair_sublist_snoc.mp hbefore
    · obtain hold | hnew := List.mem_append.mp hmem
      · exact h.notPassed p q t hp hbefore hdue hold
      · exact (htaken q.id t (List.mem_singleton.mp hnew).symm).2 p q hp hbefore hdue rfl
    · refine hposted q hq.symm t ?_
      simpa [← hq] using hmem

/-! ## A task comes in -/

theorem Entering.posted (h : Entering log) (hfresh : ∀ q, .posted q ∈ log → q.id < p.id) :
    Entering (log ++ [.posted p]) where
  unique q r hq hr hid := by
    simp only [List.mem_append, List.mem_singleton, Event.posted.injEq] at hq hr
    obtain hq | rfl := hq <;> obtain hr | rfl := hr
    · exact h.unique q r hq hr hid
    · have hlt := hfresh q hq
      omega
    · have hlt := hfresh r hr
      omega
    · rfl
  numbered q r hbefore := by
    obtain hold | ⟨hr, hq⟩ := pair_sublist_snoc.mp hbefore
    · exact h.numbered q r hold
    · obtain rfl := Event.posted.inj hr
      exact hfresh q hq

theorem waiting_posted (h : Taking log) (hfresh : ∀ q, .posted q ∈ log → q.id < p.id)
    (hid : e.id = p.id) (hwhen : e.when = p.due) : Waiting (log ++ [.posted p]) e where
  posted := ⟨p, by simp, hid.symm, hwhen.symm⟩
  notTaken t := by simpa [hid] using h.not_mem hfresh t
  notCancelled q hq := by
    have hold : ¬ [.posted q, .cancelled e.id].Sublist log := by
      intro hbefore
      have hlt := hfresh q (hbefore.subset (by simp))
      omega
    simpa [pair_sublist_snoc] using hold
  notPassed q r t hq hbefore := by
    have hmem : .posted q ∈ log := by
      obtain hold | ⟨-, hmem⟩ := pair_sublist_snoc.mp hbefore
      · exact hold.subset (by simp)
      · exact hmem
    have hlt := hfresh q hmem
    omega

/-! ## A task is taken -/

theorem Taking.taken {first : Entry τ} (h : Taking log) (hfirst : Waiting log first)
    (hdue : first.when ≤ now) : Taking (log ++ [.taken first.id now]) where
  once id t u htaken := by
    obtain hold | ⟨hid, hmem⟩ := pair_sublist_snoc.mp htaken
    · exact h.once id t u hold
    · obtain ⟨rfl, rfl⟩ := Event.taken.inj hid
      exact hfirst.notTaken t hmem
  due id t htaken := by
    obtain hold | hnew := List.mem_append.mp htaken
    · obtain ⟨p, hp⟩ := h.due id t hold
      exact ⟨p, hp.1.trans (List.sublist_append_left ..), hp.2⟩
    · obtain ⟨rfl, rfl⟩ := Event.taken.inj (List.mem_singleton.mp hnew)
      obtain ⟨p, hp, hid, hwhen⟩ := hfirst.posted
      exact ⟨p, pair_sublist_snoc.mpr (.inr ⟨rfl, hp⟩), hid, hwhen.trans_le hdue⟩
  notCancelled p t htaken := by
    obtain hold | ⟨hid, hsub⟩ := triple_sublist_snoc.mp htaken
    · exact h.notCancelled p t hold
    · have hp := (Event.taken.inj hid).1
      exact hfirst.notCancelled p hp (hp ▸ hsub)
  inOrder p q t u hbefore hle htaken := by
    replace hbefore : [.posted p, .posted q].Sublist log := by simpa [pair_sublist_snoc] using hbefore
    obtain hold | ⟨hid, hmem⟩ := pair_sublist_snoc.mp htaken
    · exact h.inOrder p q t u hbefore hle hold
    · exact hfirst.notPassed p q t (Event.taken.inj hid).1 hbefore hle hmem

/-- What the front entry passes is not one that goes before it. -/
theorem Waiting.taken_other {first : Entry τ} (hentering : Entering log) (h : Waiting log e)
    (hfirst : Waiting log first) (hne : e.id ≠ first.id)
    (hbehind : ¬ TimedQueue.Sooner Entry.when Entry.id e first) :
    Waiting (log ++ [.taken first.id now]) e := by
  refine h.other (by simp) (by simp) ?_
  rintro id t hevent
  obtain ⟨rfl, -⟩ := Event.taken.inj hevent
  refine ⟨hne, fun p q hp hbefore hdue hid => hbehind (TimedQueue.sooner_iff.mpr ?_)⟩
  obtain ⟨p', hp', hpid, hpdue⟩ := h.posted
  obtain ⟨q', hq', hqid, hqdue⟩ := hfirst.posted
  obtain rfl := hentering.unique p p' (hbefore.subset (by simp)) hp' (hp.trans hpid.symm)
  obtain rfl := hentering.unique q q' (hbefore.subset (by simp)) hq' (hid.trans hqid.symm)
  have hlt := hentering.numbered p q hbefore
  omega

/-! ## A task is run -/

theorem Running.held (h : Running log) (id : Nat) (now : Int) : Held (log ++ [.taken id now]) now id := by
  refine ⟨now, le_rfl, by simp, fun id' u hran => ?_⟩
  obtain ⟨v, -, hsub⟩ := h.taken id' u (by simpa using hran)
  exact ⟨v, pair_sublist_snoc.mpr (.inr ⟨rfl, hsub.subset (by simp)⟩)⟩

theorem Held.other {later : Int} (h : Held log now id) (hnow : now ≤ later)
    (hevent : ∀ id t, event ≠ .ran id t) : Held (log ++ [event]) later id := by
  obtain ⟨t, hle, hmem, hlast⟩ := h
  refine ⟨t, hle.trans hnow, List.mem_append_left _ hmem, fun id' u hran => ?_⟩
  obtain ⟨v, hsub⟩ := hlast id' u (by simpa [(hevent id' u).symm] using hran)
  exact ⟨v, hsub.trans (List.sublist_append_left ..)⟩

theorem Running.ran (h : Running log) (hheld : Held log now id) : Running (log ++ [.ran id now]) where
  taken id' u hran := by
    obtain hold | hnew := List.mem_append.mp hran
    · obtain ⟨t, hle, hsub⟩ := h.taken id' u hold
      exact ⟨t, hle, hsub.trans (List.sublist_append_left ..)⟩
    · obtain ⟨rfl, rfl⟩ := Event.ran.inj (List.mem_singleton.mp hnew)
      obtain ⟨t, hle, hmem, -⟩ := hheld
      exact ⟨t, hle, pair_sublist_snoc.mpr (.inr ⟨rfl, hmem⟩)⟩
  inOrder i t j u hran := by
    obtain hold | ⟨hid, hmem⟩ := pair_sublist_snoc.mp hran
    · obtain ⟨v, w, hsub⟩ := h.inOrder i t j u hold
      exact ⟨v, w, hsub.trans (List.sublist_append_left ..)⟩
    · obtain ⟨rfl, rfl⟩ := Event.ran.inj hid
      obtain ⟨w, -, -, hlast⟩ := hheld
      obtain ⟨v, hsub⟩ := hlast i t hmem
      exact ⟨v, w, hsub.trans (List.sublist_append_left ..)⟩

/-! ## Every step -/

theorem Inv.quiet (h : Inv s) (hlog : s'.log = s.log) (hqueue : s'.queue.Sublist s.queue)
    (hnextId : s'.nextId = s.nextId) (hnow : s.now ≤ s'.now)
    (hheld : ∀ id task, s'.thread = .holding id task → s.thread = .holding id task) : Inv s' where
  entering := hlog ▸ h.entering
  taking := hlog ▸ h.taking
  running := hlog ▸ h.running
  queued := h.queued.sublist hqueue
  distinct := h.distinct.sublist hqueue
  waiting e he := hlog ▸ h.waiting e (hqueue.subset he)
  fresh p hp := hnextId ▸ h.fresh p (hlog ▸ hp)
  held id task hthread := by
    obtain ⟨t, hle, hmem⟩ := h.held id task (hheld id task hthread)
    exact ⟨t, hle.trans hnow, hlog ▸ hmem⟩

theorem Inv.emplaced (h : Inv s) (θ : Thread) (call : Posting τ) : Inv (s.emplaceStep θ call) where
  entering := h.entering.posted h.fresh
  taking := h.taking.other (by simp) (by
    rintro p hp
    obtain rfl := Event.posted.inj hp
    exact h.taking.not_mem h.fresh)
  running := h.running.other (by simp)
  queued := h.queued.emplace fun e he => by
    obtain ⟨p, hp, hid, -⟩ := (h.waiting e he).posted
    exact hid ▸ h.fresh p hp
  distinct := by
    refine (TimedQueue.emplace_perm.pairwise_iff fun hne => hne.symm).mpr
      (List.pairwise_cons.mpr ⟨fun e he => ?_, h.distinct⟩)
    obtain ⟨p, hp, hid, -⟩ := (h.waiting e he).posted
    exact (hid ▸ h.fresh p hp).ne'
  waiting e he := by
    obtain rfl | he := TimedQueue.mem_emplace.mp he
    · exact waiting_posted h.taking h.fresh rfl rfl
    · refine (h.waiting e he).other ?_ (by simp) (by simp)
      rintro p hp
      obtain rfl := Event.posted.inj hp
      exact h.taking.not_mem h.fresh
  fresh p hp := by
    obtain hold | hnew := List.mem_append.mp hp
    · exact (h.fresh p hold).trans (Nat.lt_succ_self _)
    · obtain rfl := Event.posted.inj (List.mem_singleton.mp hnew)
      exact Nat.lt_succ_self _
  held id task hthread := (h.held id task hthread).other le_rfl (by simp)

theorem Inv.cancelled (h : Inv s) (id : Nat) : Inv (s.cancelStep id) where
  entering := h.entering.other (by simp)
  taking := h.taking.other (by simp) (by simp)
  running := h.running.other (by simp)
  queued := h.queued.sublist List.eraseP_sublist
  distinct := h.distinct.sublist List.eraseP_sublist
  waiting e he := by
    have hne : e.id ≠ id := TimedQueue.number_ne_of_mem_eraseP h.distinct he
    exact (h.waiting e (List.mem_of_mem_eraseP he)).other (by simp) (by simpa using hne.symm) (by simp)
  fresh p hp := h.fresh p (by simpa [cancelStep] using hp)
  held id task hthread := (h.held id task hthread).other le_rfl (by simp)

theorem Inv.taken (h : Inv s) {first : Entry τ} {rest : List (Entry τ)} (hqueue : s.queue = first :: rest)
    (hdue : first.when ≤ s.now) : Inv { s with
      queue := rest
      thread := .holding first.id first.task
      log := s.log ++ [.taken first.id s.now] } := by
  have hqueued := h.queued
  have hdistinct := h.distinct
  rw [hqueue] at hqueued hdistinct
  have hfirst : Waiting s.log first := h.waiting first (by simp [hqueue])
  exact {
    entering := h.entering.other (by simp)
    taking := h.taking.taken hfirst hdue
    running := h.running.other (by simp)
    queued := hqueued.sublist (List.sublist_cons_self _ _)
    distinct := (List.pairwise_cons.mp hdistinct).2
    waiting := fun e he => (h.waiting e (by simp [hqueue, he])).taken_other h.entering hfirst
      (List.rel_of_pairwise_cons hdistinct he).symm (hqueued.front he)
    fresh := fun p hp => h.fresh p (by simpa using hp)
    held := by
      rintro id task hthread
      obtain ⟨rfl, -⟩ := LoopThread.holding.inj hthread
      exact h.running.held _ _ }

theorem Inv.ran (h : Inv s) {task : τ} (hheld : s.thread = .holding id (some task)) :
    Inv { s with thread := .running, log := s.log ++ [.ran id s.now] } where
  entering := h.entering.other (by simp)
  taking := h.taking.other (by simp) (by simp)
  running := h.running.ran (h.held id _ hheld)
  queued := h.queued
  distinct := h.distinct
  waiting e he := (h.waiting e he).other (by simp) (by simp) (by simp)
  fresh p hp := h.fresh p (by simpa using hp)
  held := by simp

theorem Inv.step (h : Inv s) (heffect : StepEffect s s') : Inv s' := by
  cases heffect with
  | quiet log queue nextId now held posting => exact h.quiet log queue nextId now held
  | emplaced θ call _ result => exact result ▸ h.emplaced θ call
  | cancelled id result => exact result ▸ h.cancelled id
  | taken first rest queue due result => exact result ▸ h.taken queue due
  | ran id task held result => exact result ▸ h.ran held

theorem inv_init : Inv (τ := τ) {} where
  entering := ⟨by simp, by simp⟩
  taking := ⟨by simp, by simp, by simp, by simp⟩
  running := ⟨by simp, by simp⟩
  queued := .nil
  distinct := .nil
  waiting := by simp
  fresh := by simp
  held := by simp

theorem run_inv {as : List (LoopAction τ)} (run : (machine τ).Run Machine.anyStep as s) : Inv s :=
  run.invariant Inv inv_init fun _ _ _ h _ hstep => h.step (step_effect hstep)

/-! ## What the loop keeps -/

/-- The order in which tasks come in, are taken and are run. -/
structure KeepsOrder (log : List Event) : Prop where
  /-- An id belongs to one task. -/
  unique : ∀ p q : Posted, .posted p ∈ log → .posted q ∈ log → p.id = q.id → p = q
  once : ∀ id t u, ¬ [.ran id t, .ran id u].Sublist log
  due : ∀ id u, .ran id u ∈ log → ∃ p : Posted, .posted p ∈ log ∧ p.id = id ∧ p.due ≤ u
  taken : ∀ id u, .ran id u ∈ log → ∃ t ≤ u, [.taken id t, .ran id u].Sublist log
  notCancelled : ∀ p : Posted, ∀ t, ¬ [.posted p, .cancelled p.id, .taken p.id t].Sublist log
  inOrder : ∀ p q : Posted, ∀ t u, [.posted p, .posted q].Sublist log → p.due ≤ q.due →
    ¬ [.ran q.id t, .ran p.id u].Sublist log

/-- In every run of the event loop, with any threads posting and cancelling: a task runs at most once,
    not before it is due, and only if it was taken before it was cancelled; and of two tasks the one
    that came in first runs first, if it is due no later. -/
theorem run_keepsOrder {as : List (LoopAction τ)} (run : (machine τ).Run Machine.anyStep as s) :
    KeepsOrder s.log := by
  have h := run_inv run
  refine ⟨h.entering.unique, fun id t u hran => ?_, fun id u hran => ?_, h.running.taken,
    h.taking.notCancelled, fun p q t u hbefore hdue hran => ?_⟩
  · obtain ⟨t', u', htaken⟩ := h.running.inOrder id t id u hran
    exact h.taking.once id t' u' htaken
  · obtain ⟨t, hle, htaken⟩ := h.running.taken id u hran
    obtain ⟨p, hp, hid, hdue⟩ := h.taking.due id t (htaken.subset (by simp))
    exact ⟨p, hp.subset (by simp), hid, hdue.trans hle⟩
  · obtain ⟨t', u', htaken⟩ := h.running.inOrder q.id t p.id u hran
    exact h.taking.inOrder p q t' u' hbefore hdue htaken

/-- Two threads, and a task due later that has come in first. -/
theorem run_keepsOrder_twoThreads : ∃ s : EventLoop Unit,
    s.log = [.posted ⟨.other 1, 1, 0, 5⟩, .posted ⟨.other 2, 2, 10, 0⟩, .taken 2 10, .ran 2 10,
      .taken 1 5000010, .ran 1 5000010] ∧ KeepsOrder s.log := by
  have hrun : ∃ s, (machine Unit).exec [.start, .postDelayed (.other 1) (some ()) 5, .tick 10,
      .postDelayed (.other 2) (some ()) 0, .emplace (.other 1), .emplace (.other 2), .poll, .run, .finish,
      .tick 5000000, .poll, .run, .finish] (machine Unit).init = some s ∧
      s.log = [.posted ⟨.other 1, 1, 0, 5⟩, .posted ⟨.other 2, 2, 10, 0⟩, .taken 2 10, .ran 2 10,
        .taken 1 5000010, .ran 1 5000010] := ⟨_, rfl, rfl⟩
  obtain ⟨s, hexec, hlog⟩ := hrun
  exact ⟨s, hlog, run_keepsOrder (Machine.run_of_exec hexec)⟩

end EventLoop

end CrossTransfer.Runtime
