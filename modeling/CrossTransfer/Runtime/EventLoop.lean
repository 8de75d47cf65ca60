import CrossTransfer.Library.EventLog
import CrossTransfer.Library.Machine
import CrossTransfer.Library.TimedQueue

/-! # The event loop

`core/src/runtime/event_loop.{h,cpp}`: a thread that runs the tasks of a queue when they are due. Any
thread may post and cancel; a task may post as well, on the thread of the loop. `PostDelayed` reads
the clock before it takes the lock of the queue, so these are two steps, and other threads may take
theirs in between. Times are nanoseconds of the steady clock; `TimerId` is a 64-bit counter, which no
process brings round.
-/

namespace CrossTransfer.Runtime

open CrossTransfer.Library

inductive Thread
  | loop
  | other (n : Nat)
deriving DecidableEq, Repr

/-- An entry of the multimap. A task may be an empty function. -/
structure Entry (τ : Type*) where
  when : Int
  id : Nat
  task : Option τ

/-- A call of `PostDelayed` that has read the clock. -/
structure Posting (τ : Type*) where
  read : Int
  delayMs : Int
  task : Option τ

def dueAt (read : Int) (delayMs : Int) : Int := read + 1000000 * if delayMs < 0 then 0 else delayMs

/-- A task that has been put into the queue. -/
structure Posted where
  thread : Thread
  id : Nat
  read : Int
  delayMs : Int
deriving DecidableEq, Repr

def Posted.due (p : Posted) : Int := dueAt p.read p.delayMs

inductive Event
  | posted (p : Posted)
  | cancelled (id : Nat)
  | taken (id : Nat) (now : Int)
  | ran (id : Nat) (now : Int)
deriving DecidableEq, Repr

/-- Where the loop thread is: not there, before the lock, with a task it has taken, in a task, or
    returned from `Run`. -/
inductive LoopThread (τ : Type*)
  | absent
  | polling
  | holding (id : Nat) (task : Option τ)
  | running
  | exited

structure EventLoop (τ : Type*) where
  running : Bool := false
  stop : Bool := false
  queue : List (Entry τ) := []
  nextId : Nat := 1
  thread : LoopThread τ := .absent
  posting : Thread → Option (Posting τ) := fun _ => none
  now : Int := 0
  /-- What has happened, oldest first. -/
  log : List Event := []

inductive LoopAction (τ : Type*)
  /-- The clock goes on. -/
  | tick (ns : Nat)
  | start
  /-- `Stop` before and after it joins the thread. -/
  | stop
  | join
  /-- `PostDelayed` before and under the lock. -/
  | postDelayed (θ : Thread) (task : Option τ) (delayMs : Int)
  | emplace (θ : Thread)
  | cancel (id : Nat)
  /-- A round of the inner loop of `Run`; with nothing to take, it waits and comes round again. -/
  | poll
  /-- The task taken is called, and returns. -/
  | run
  | finish

namespace EventLoop

variable {τ : Type*}

/-- A round of `Run` under the lock. -/
def pollStep (s : EventLoop τ) : EventLoop τ :=
  if s.stop then { s with thread := .exited }
  else
    match s.queue with
    | [] => s
    | first :: rest =>
      if first.when ≤ s.now then
        { s with
          queue := rest
          thread := .holding first.id first.task
          log := s.log ++ [.taken first.id s.now] }
      else s

def emplaceStep (s : EventLoop τ) (θ : Thread) (call : Posting τ) : EventLoop τ :=
  { s with
    posting := fun other => if other = θ then none else s.posting other
    nextId := s.nextId + 1
    queue := TimedQueue.emplace Entry.when
      ⟨dueAt call.read call.delayMs, s.nextId, call.task⟩ s.queue
    log := s.log ++ [.posted ⟨θ, s.nextId, call.read, call.delayMs⟩] }

def cancelStep (s : EventLoop τ) (id : Nat) : EventLoop τ :=
  { s with queue := s.queue.eraseP (·.id == id), log := s.log ++ [.cancelled id] }

def step (s : EventLoop τ) : LoopAction τ → Option (EventLoop τ)
  | .tick ns => some { s with now := s.now + ns }
  | .start =>
    if s.running then some s
    else some { s with running := true, stop := false, thread := .polling }
  | .stop => if s.running then some { s with stop := true } else some s
  | .join =>
    match s.running, s.thread with
    | true, .exited => some { s with running := false, thread := .absent, queue := [] }
    | _, _ => none
  | .postDelayed θ task delayMs =>
    -- The thread of the loop posts from within a task only.
    match s.posting θ, θ, s.thread with
    | none, .loop, .running | none, .other _, _ =>
      some { s with
        posting := fun other => if other = θ then some ⟨s.now, delayMs, task⟩ else s.posting other }
    | _, _, _ => none
  | .emplace θ => (s.posting θ).map (s.emplaceStep θ)
  | .cancel id => some (s.cancelStep id)
  | .poll =>
    match s.thread with
    | .polling => some s.pollStep
    | _ => none
  | .run =>
    match s.thread with
    | .holding _ none => some { s with thread := .polling }
    | .holding id (some _) => some { s with thread := .running, log := s.log ++ [.ran id s.now] }
    | _ => none
  | .finish =>
    match s.thread, s.posting .loop with
    | .running, none => some { s with thread := .polling }
    | _, _ => none

def machine (τ : Type*) : Machine (EventLoop τ) (LoopAction τ) := ⟨{}, step⟩

/-! ## What a step can do -/

variable {s s' : EventLoop τ} {a : LoopAction τ}

/-- The effects of a step on the queue, the log and the task that the loop holds. -/
inductive StepEffect (s s' : EventLoop τ) : Prop
  /-- Nothing happens; entries may be lost when the loop has been stopped. -/
  | quiet (log : s'.log = s.log) (queue : s'.queue.Sublist s.queue) (nextId : s'.nextId = s.nextId)
      (now : s.now ≤ s'.now)
      (held : ∀ id task, s'.thread = .holding id task → s.thread = .holding id task)
      (posting : ∀ θ call, s'.posting θ = some call → s.posting θ = some call ∨ call.read = s.now)
  | emplaced (θ : Thread) (call : Posting τ) (pending : s.posting θ = some call)
      (result : s' = s.emplaceStep θ call)
  | cancelled (id : Nat) (result : s' = s.cancelStep id)
  | taken (first : Entry τ) (rest : List (Entry τ)) (queue : s.queue = first :: rest)
      (due : first.when ≤ s.now)
      (result : s' = { s with
        queue := rest
        thread := .holding first.id first.task
        log := s.log ++ [.taken first.id s.now] })
  | ran (id : Nat) (task : τ) (held : s.thread = .holding id (some task))
      (result : s' = { s with thread := .running, log := s.log ++ [.ran id s.now] })

/-- A step that does not touch queue and log. -/
theorem StepEffect.still (log : s'.log = s.log) (queue : s'.queue.Sublist s.queue)
    (nextId : s'.nextId = s.nextId) (now : s'.now = s.now) (posting : s'.posting = s.posting)
    (held : ∀ id task, s'.thread = .holding id task → s.thread = .holding id task) : StepEffect s s' :=
  .quiet log queue nextId now.ge held fun _ _ h => .inl (posting ▸ h)

theorem pollStep_effect (s : EventLoop τ) : StepEffect s s.pollStep := by
  unfold pollStep
  split
  · exact .still rfl (List.Sublist.refl _) rfl rfl rfl (by simp)
  · split
    · exact .still rfl (List.Sublist.refl _) rfl rfl rfl (fun _ _ h => h)
    · rename_i first rest hqueue
      split
      · exact .taken first rest hqueue ‹_› rfl
      · exact .still rfl (List.Sublist.refl _) rfl rfl rfl (fun _ _ h => h)

theorem step_effect (h : s.step a = some s') : StepEffect s s' := by
  cases a with
  | tick ns =>
    obtain rfl := Option.some.inj h
    exact .quiet rfl (List.Sublist.refl _) rfl (by dsimp only; omega) (fun _ _ h => h) (fun _ _ h => .inl h)
  | start =>
    simp only [step] at h
    split at h <;> obtain rfl := Option.some.inj h
    · exact .still rfl (List.Sublist.refl _) rfl rfl rfl (fun _ _ h => h)
    · exact .still rfl (List.Sublist.refl _) rfl rfl rfl (by simp)
  | stop =>
    simp only [step] at h
    split at h <;> obtain rfl := Option.some.inj h
    · exact .still rfl (List.Sublist.refl _) rfl rfl rfl (fun _ _ h => h)
    · exact .still rfl (List.Sublist.refl _) rfl rfl rfl (fun _ _ h => h)
  | join =>
    simp only [step] at h
    split at h
    · obtain rfl := Option.some.inj h
      exact .still rfl (List.nil_sublist _) rfl rfl rfl (by simp)
    · contradiction
  | postDelayed θ task delayMs =>
    -- On the loop itself and on another thread `PostDelayed` begins alike.
    have hresult : s' = { s with
        posting := fun other => if other = θ then some ⟨s.now, delayMs, task⟩ else s.posting other } := by
      simp only [step] at h
      split at h
      · exact (Option.some.inj h).symm
      · exact (Option.some.inj h).symm
      · contradiction
    subst hresult
    refine .quiet rfl (List.Sublist.refl _) rfl le_rfl (fun _ _ h => h) fun other call hcall => ?_
    dsimp only at hcall
    split at hcall
    · obtain rfl := Option.some.inj hcall
      exact .inr rfl
    · exact .inl hcall
  | emplace θ =>
    obtain ⟨call, hpending, rfl⟩ := Option.map_eq_some_iff.mp h
    exact .emplaced θ call hpending rfl
  | cancel id => exact .cancelled id (Option.some.inj h).symm
  | poll =>
    simp only [step] at h
    split at h
    · obtain rfl := Option.some.inj h
      exact pollStep_effect s
    · contradiction
  | run =>
    simp only [step] at h
    split at h
    · obtain rfl := Option.some.inj h
      exact .still rfl (List.Sublist.refl _) rfl rfl rfl (by simp)
    · exact .ran _ _ ‹_› (Option.some.inj h).symm
    · contradiction
  | finish =>
    simp only [step] at h
    split at h
    · obtain rfl := Option.some.inj h
      exact .still rfl (List.Sublist.refl _) rfl rfl rfl (by simp)
    · contradiction

end EventLoop

end CrossTransfer.Runtime
