import CrossTransfer.Library.ListSums
import CrossTransfer.Library.Machine
import CrossTransfer.Transfer.PathSanitize
import Mathlib.Algebra.BigOperators.Group.List.Basic
import Mathlib.Algebra.Group.Int.Defs

/-! # The outbound queue of a connection

The channel of a `wsSink`, the counter of its bytes, the calls of `enqueue` that are under way and
the writer goroutine. Every atomic operation, the choice of a `select` with the send or receive it
makes, and `Kick` are one step each, and the steps of all goroutines interleave freely.

The counter is raised before a message is in the channel and lowered on every exit that does not
send it, or after the writer has taken it out. So it is the bytes in the channel and those that
calls and the writer still hold (`Accounted`), and the calls that passed the check have room. The
bytes that are counted are in memory, so the counter does not wrap.
-/

namespace CrossTransfer.Signal

open CrossTransfer.Library
open CrossTransfer.Transfer

inductive MessageType where
  | text
  | binary
deriving DecidableEq, Repr

structure OutMsg where
  typ : MessageType
  data : Bytes
deriving DecidableEq, Repr

def OutMsg.bytes (m : OutMsg) : Int := m.data.length

/-- The capacity of the channel. -/
def outQueue : Nat := 512

/-- `MaxQueuedBytes`. -/
def maxQueuedBytes : Int := 4 * 2 ^ 20

/-- What a call of `enqueue` does next. -/
inductive EnqueueCall where
  /-- The counter has passed the limit: lower it again. -/
  | overLimit (m : OutMsg)
  /-- The `select`. -/
  | select (m : OutMsg)
  /-- The sink is closed: lower the counter. -/
  | discard (m : OutMsg)
  /-- The channel is full: lower the counter. -/
  | overflow (m : OutMsg)
  /-- `RecordDrop`, which counts twice. -/
  | recordDrop
  | recordQueueDrop
  | kick (reason : Bytes)
  | returned
deriving DecidableEq, Repr

/-- Where the writer goroutine stands. -/
inductive Writer where
  | waiting
  /-- A message was received and is still counted. -/
  | received (m : OutMsg)
  | writing (m : OutMsg)
  | failed
  | stopped
deriving DecidableEq, Repr

structure WsSink where
  out : List OutMsg := []
  queuedBytes : Int := 0
  dropped : Nat := 0
  /-- What the sink has added to the counter of the hub; `none` without one. -/
  queueDropped : Option Nat := some 0
  closed : Bool := false
  reason : Bytes := []
  calls : List EnqueueCall := []
  writer : Writer := .waiting
  /-- The context of the connection is done. -/
  cancelled : Bool := false
deriving DecidableEq, Repr

/-- The ready case that a `select` picks. -/
inductive SelectCase where
  | closed
  | send
  | fallback
deriving DecidableEq, Repr

inductive SinkAction where
  /-- A goroutine calls `enqueue` and raises the counter. -/
  | enqueue (m : OutMsg)
  /-- The next step of the `i`-th call. -/
  | call (i : Nat) (choice : SelectCase)
  /-- The writer receives a message. -/
  | receive
  /-- It finds the sink closed or the context done. -/
  | stop
  /-- It lowers the counter. -/
  | release
  | write (ok : Bool)
  /-- It closes the sink, as its write failed. -/
  | giveUp
  /-- `Kick` from elsewhere. -/
  | kick (reason : Bytes)
  | cancel
deriving DecidableEq, Repr

namespace WsSink

variable (s : WsSink)

/-- The bytes of the messages in the channel. -/
def queued : Int := (s.out.map OutMsg.bytes).sum

/-- `Kick`; only the first one closes the sink. -/
def kick (reason : Bytes) : WsSink :=
  if s.closed then s else { s with closed := true, reason := reason }

/-- A message that is refused, once the counter is lowered. -/
def afterRefusal (m : OutMsg) (reason : Bytes) : EnqueueCall :=
  match m.typ with
  | .binary => .recordDrop
  | .text => .kick reason

/-- The first step of `enqueue`. -/
def enqueue (m : OutMsg) : WsSink :=
  let total := s.queuedBytes + m.bytes
  { s with
    queuedBytes := total
    calls := s.calls ++ [if maxQueuedBytes < total then .overLimit m else .select m] }

/-- The `select` of `enqueue`; the fallback is taken if neither case is ready. -/
def selectCase (m : OutMsg) : SelectCase → Option (WsSink × EnqueueCall)
  | .closed => if s.closed then some (s, .discard m) else none
  | .send => if s.out.length < outQueue then some ({ s with out := s.out ++ [m] }, .returned) else none
  | .fallback => if s.closed || s.out.length < outQueue then none else some (s, .overflow m)

/-- The next step of a call. -/
def advance (choice : SelectCase) : EnqueueCall → Option (WsSink × EnqueueCall)
  | .overLimit m => some ({ s with queuedBytes := s.queuedBytes - m.bytes },
      afterRefusal m (ascii "send queue byte limit"))
  | .select m => s.selectCase m choice
  | .discard m => some ({ s with queuedBytes := s.queuedBytes - m.bytes }, .returned)
  | .overflow m => some ({ s with queuedBytes := s.queuedBytes - m.bytes },
      afterRefusal m (ascii "send queue overflow"))
  | .recordDrop => some ({ s with dropped := s.dropped + 1 },
      if s.queueDropped.isSome then .recordQueueDrop else .returned)
  | .recordQueueDrop => some ({ s with queueDropped := s.queueDropped.map (· + 1) }, .returned)
  | .kick reason => some (s.kick reason, .returned)
  | .returned => none

def step (s : WsSink) : SinkAction → Option WsSink
  | .enqueue m => some (s.enqueue m)
  | .call i choice =>
    match s.calls[i]? with
    | none => none
    | some c => (s.advance choice c).map fun r => { r.1 with calls := s.calls.set i r.2 }
  | .receive =>
    match s.writer, s.out with
    | .waiting, m :: rest => some { s with out := rest, writer := .received m }
    | _, _ => none
  | .stop =>
    if s.writer = .waiting ∧ (s.closed = true ∨ s.cancelled = true) then
      some { s with writer := .stopped }
    else none
  | .release =>
    match s.writer with
    | .received m => some { s with queuedBytes := s.queuedBytes - m.bytes, writer := .writing m }
    | _ => none
  | .write ok =>
    match s.writer with
    | .writing _ => some { s with writer := if ok then .waiting else .failed }
    | _ => none
  | .giveUp =>
    if s.writer = .failed then some { s.kick (ascii "write failed") with writer := .stopped } else none
  | .kick reason => some (s.kick reason)
  | .cancel => some { s with cancelled := true }

end WsSink

/-- The messages that are refused by the next step of a call. -/
def refusedBy (choice : SelectCase) : EnqueueCall → List OutMsg
  | .select m => if choice = .fallback then [m] else []
  | _ => []

/-- The messages that a step refuses: they pass the limit, or find the channel full. -/
def WsSink.refusals (s : WsSink) : SinkAction → List OutMsg
  | .enqueue m => if maxQueuedBytes < s.queuedBytes + m.bytes then [m] else []
  | .call i choice => (s.calls[i]?).elim [] (refusedBy choice)
  | _ => []

/-- The sink of a new connection, with or without a counter of the hub. -/
def WsSink.machine (counts : Bool) : Machine WsSink SinkAction where
  init := { queueDropped := if counts then some 0 else none }
  step := WsSink.step

/-- The bytes that a call still has counted. -/
def EnqueueCall.reserved : EnqueueCall → Int
  | .overLimit m => m.bytes
  | .select m => m.bytes
  | .discard m => m.bytes
  | .overflow m => m.bytes
  | _ => 0

/-- The bytes that a call may yet put into the channel. -/
def EnqueueCall.admitted : EnqueueCall → Int
  | .select m => m.bytes
  | _ => 0

/-- The bytes that the writer still has counted. -/
def Writer.reserved : Writer → Int
  | .received m => m.bytes
  | _ => 0

def OutMsg.isBinary (m : OutMsg) : Bool := m.typ = .binary

/-- How often a call will yet count a dropped message. -/
def EnqueueCall.records : EnqueueCall → Nat
  | .overLimit m => if m.isBinary then 1 else 0
  | .overflow m => if m.isBinary then 1 else 0
  | .recordDrop => 1
  | _ => 0

/-- How often it will for the hub. -/
def EnqueueCall.recordsQueue : EnqueueCall → Nat
  | .recordQueueDrop => 1
  | c => c.records

/-- A call that is about to close the sink. -/
def EnqueueCall.kicks : EnqueueCall → Bool
  | .overLimit m => !m.isBinary
  | .overflow m => !m.isBinary
  | .kick _ => true
  | _ => false

theorem EnqueueCall.admitted_le (c : EnqueueCall) : 0 ≤ c.admitted ∧ c.admitted ≤ c.reserved := by
  cases c <;> simp [EnqueueCall.admitted, EnqueueCall.reserved, OutMsg.bytes]

theorem EnqueueCall.reserved_nonneg (c : EnqueueCall) : 0 ≤ c.reserved :=
  c.admitted_le.1.trans c.admitted_le.2

theorem Writer.reserved_nonneg (w : Writer) : 0 ≤ w.reserved := by
  cases w <;> simp [Writer.reserved, OutMsg.bytes]

namespace WsSink

variable {s s' : WsSink}

/-- The bytes that are counted, and those that may enter the channel. -/
structure Accounted (s : WsSink) : Prop where
  counter : s.queuedBytes = s.queued + (s.calls.map EnqueueCall.reserved).sum + s.writer.reserved
  room : s.queued + (s.calls.map EnqueueCall.admitted).sum ≤ maxQueuedBytes

/-! ## Calls under way -/

theorem mem_set_of_mem {α : Type*} {l : List α} {i : Nat} {a x : α} (b : α) (h : l[i]? = some a)
    (hx : x ∈ l) : x = a ∨ x ∈ l.set i b := by
  obtain ⟨j, hj⟩ := List.mem_iff_getElem?.mp hx
  by_cases hij : i = j
  · subst hij
    exact .inl (Option.some.inj (hj.symm.trans h))
  · exact .inr (List.mem_iff_getElem?.mpr ⟨j, by rw [List.getElem?_set_ne hij, hj]⟩)

/-! ## The next step of a call -/

/-- What the next step of a call changes. -/
structure Advanced (s s' : WsSink) (c c' : EnqueueCall) (refused : List OutMsg) : Prop where
  counter : s'.queuedBytes - s'.queued - c'.reserved = s.queuedBytes - s.queued - c.reserved
  room : s'.queued + c'.admitted ≤ s.queued + c.admitted
  writer : s'.writer = s.writer
  dropped : s'.dropped + c'.records = s.dropped + c.records + refused.countP OutMsg.isBinary
  queueDropped : s'.queueDropped.isSome = s.queueDropped.isSome
  counted : ∀ n n', s.queueDropped = some n → s'.queueDropped = some n' →
    n' + c'.recordsQueue = n + c.recordsQueue + refused.countP OutMsg.isBinary
  closed : s.closed = true → s'.closed = true
  kicks : c.kicks = true → c'.kicks = true ∨ s'.closed = true
  refusedText : ∀ m ∈ refused, m.typ = .text → c'.kicks = true

/-- A step that lowers the counter by what the call still had counted. -/
theorem advanced_release {c c' : EnqueueCall} {m : OutMsg} (hc : c.reserved = m.bytes)
    (hc' : c'.reserved = 0) (hrecords : c'.records = c.records) (hqueue : c'.recordsQueue = c.recordsQueue)
    (hkicks : c'.kicks = c.kicks) :
    Advanced s { s with queuedBytes := s.queuedBytes - m.bytes } c c' [] where
  counter := by
    change s.queuedBytes - m.bytes - s.queued - c'.reserved = _
    omega
  room := by
    have := c'.admitted_le
    have := c.admitted_le
    change s.queued + c'.admitted ≤ _
    omega
  writer := rfl
  dropped := by simp [hrecords]
  queueDropped := rfl
  counted n n' hn hn' := by
    obtain rfl := Option.some.inj (hn.symm.trans hn')
    simp [hqueue]
  closed := id
  kicks h := .inl (hkicks.trans h)
  refusedText := by simp

theorem afterRefusal_spec (m : OutMsg) (reason : Bytes) :
    (afterRefusal m reason).reserved = 0 ∧
      (afterRefusal m reason).records = (if m.isBinary then 1 else 0) ∧
      (afterRefusal m reason).recordsQueue = (if m.isBinary then 1 else 0) ∧
      (afterRefusal m reason).kicks = !m.isBinary := by
  obtain ⟨typ, data⟩ := m
  cases typ <;> exact ⟨rfl, rfl, rfl, rfl⟩

/-- A step that leaves the channel and its counter alone. -/
theorem advanced_count {c c' : EnqueueCall} (hbytes : s'.queuedBytes = s.queuedBytes)
    (hout : s'.out = s.out) (hwriter : s'.writer = s.writer) (hc : c.reserved = 0)
    (hc' : c'.reserved = 0) (hdropped : s'.dropped + c'.records = s.dropped + c.records)
    (hsome : s'.queueDropped.isSome = s.queueDropped.isSome)
    (hcounted : ∀ n n', s.queueDropped = some n → s'.queueDropped = some n' →
      n' + c'.recordsQueue = n + c.recordsQueue)
    (hclosed : s.closed = true → s'.closed = true)
    (hkicks : c.kicks = true → s'.closed = true) : Advanced s s' c c' [] where
  counter := by
    rw [hbytes, hc, hc', queued, hout, queued]
  room := by
    have := c'.admitted_le
    have := c.admitted_le
    rw [queued, hout, ← queued]
    omega
  writer := hwriter
  dropped := hdropped
  queueDropped := hsome
  counted := hcounted
  closed := hclosed
  kicks h := .inr (hkicks h)
  refusedText := by simp

theorem advanced_select {m : OutMsg} {choice : SelectCase} {c' : EnqueueCall}
    (h : s.selectCase m choice = some (s', c')) :
    Advanced s s' (.select m) c' (refusedBy choice (.select m)) := by
  have hnonneg : 0 ≤ m.bytes := Int.natCast_nonneg _
  -- Nothing is counted by the first two cases.
  have hsame : ∀ n n' : Nat, s.queueDropped = some n → s.queueDropped = some n' → n' = n := by
    intro n n' hn hn'
    exact Option.some.inj (hn'.symm.trans hn)
  cases choice with
  | closed =>
    simp only [selectCase] at h
    split at h
    · cases h
      exact {
        counter := rfl
        room := by simpa [EnqueueCall.admitted] using hnonneg
        writer := rfl
        dropped := rfl
        queueDropped := rfl
        counted := hsame
        closed := id
        kicks := .inl
        refusedText := by simp [refusedBy] }
    · cases h
  | send =>
    simp only [selectCase] at h
    split at h
    · cases h
      have hqueued : ({ s with out := s.out ++ [m] } : WsSink).queued = s.queued + m.bytes := by
        simp [queued]
      exact {
        counter := by
          rw [hqueued]
          simp only [EnqueueCall.reserved]
          omega
        room := by simp [hqueued, EnqueueCall.admitted]
        writer := rfl
        dropped := rfl
        queueDropped := rfl
        counted := hsame
        closed := id
        kicks := .inl
        refusedText := by simp [refusedBy] }
    · cases h
  | fallback =>
    simp only [selectCase] at h
    split at h
    · cases h
    · cases h
      have hcount : [m].countP OutMsg.isBinary = if m.isBinary then 1 else 0 := List.countP_singleton
      exact {
        counter := rfl
        room := by simpa [EnqueueCall.admitted] using hnonneg
        writer := rfl
        dropped := by simp [refusedBy, EnqueueCall.records, hcount]
        queueDropped := rfl
        counted := fun n n' hn hn' => by
          rw [hsame n n' hn hn']
          simp [refusedBy, EnqueueCall.recordsQueue, EnqueueCall.records, hcount]
        closed := id
        kicks := fun h => absurd h Bool.false_ne_true
        refusedText := fun m' hm' htext => by
          obtain rfl := List.mem_singleton.mp hm'
          simp [EnqueueCall.kicks, OutMsg.isBinary, htext] }

theorem of_advance {choice : SelectCase} {c c' : EnqueueCall} (h : s.advance choice c = some (s', c')) :
    Advanced s s' c c' (refusedBy choice c) := by
  cases c with
  | overLimit m =>
    cases h
    obtain ⟨hreserved, hrecords, hqueue, hkicks⟩ := afterRefusal_spec m (ascii "send queue byte limit")
    exact advanced_release rfl hreserved hrecords hqueue hkicks
  | select m => exact advanced_select h
  | discard m =>
    cases h
    exact advanced_release rfl rfl rfl rfl rfl
  | overflow m =>
    cases h
    obtain ⟨hreserved, hrecords, hqueue, hkicks⟩ := afterRefusal_spec m (ascii "send queue overflow")
    exact advanced_release rfl hreserved hrecords hqueue hkicks
  | recordDrop =>
    cases h
    refine advanced_count rfl rfl rfl rfl ?_ ?_ rfl ?_ id (fun h => absurd h Bool.false_ne_true)
    · split <;> rfl
    · split <;> rfl
    · intro n n' hn hn'
      obtain rfl := Option.some.inj (hn.symm.trans hn')
      rw [hn]
      rfl
  | recordQueueDrop =>
    cases h
    refine advanced_count rfl rfl rfl rfl rfl rfl (by simp) ?_ id (fun h => absurd h Bool.false_ne_true)
    intro n n' hn hn'
    rw [hn] at hn'
    obtain rfl := Option.some.inj hn'
    rfl
  | kick reason =>
    cases h
    unfold kick
    split
    · rename_i hclosed
      exact advanced_count rfl rfl rfl rfl rfl rfl rfl
        (fun n n' hn hn' => Option.some.inj (hn'.symm.trans hn)) id fun _ => hclosed
    · exact advanced_count rfl rfl rfl rfl rfl rfl rfl
        (fun n n' hn hn' => Option.some.inj (hn'.symm.trans hn)) (fun _ => rfl) fun _ => rfl
  | returned => cases h

/-! ## Runs -/

/-- The counters agree with the channel and with the messages that were refused so far. -/
structure Exact (refused : List OutMsg) (s : WsSink) : Prop where
  accounted : Accounted s
  dropped : s.dropped + (s.calls.map EnqueueCall.records).sum = refused.countP OutMsg.isBinary
  queueDropped : ∀ n, s.queueDropped = some n →
    n + (s.calls.map EnqueueCall.recordsQueue).sum = refused.countP OutMsg.isBinary
  texts : ∀ m ∈ refused, m.typ = .text → s.closed = true ∨ ∃ c ∈ s.calls, c.kicks = true

variable {refused : List OutMsg}

/-- A step of the writer, or one that only closes the sink. -/
theorem Exact.beside (exact : Exact refused s) (hcalls : s'.calls = s.calls)
    (hdropped : s'.dropped = s.dropped) (hqueueDropped : s'.queueDropped = s.queueDropped)
    (hclosed : s.closed = true → s'.closed = true) (hroom : s'.queued ≤ s.queued)
    (hcounter : s'.queuedBytes - s'.queued - s'.writer.reserved =
      s.queuedBytes - s.queued - s.writer.reserved) : Exact refused s' where
  accounted := by
    obtain ⟨hold, hfits⟩ := exact.accounted
    exact ⟨by rw [hcalls]; omega, by rw [hcalls]; omega⟩
  dropped := by rw [hcalls, hdropped, exact.dropped]
  queueDropped n hn := by
    rw [hcalls]
    exact exact.queueDropped n (hqueueDropped ▸ hn)
  texts m hm htext := by
    rw [hcalls]
    exact (exact.texts m hm htext).imp_left hclosed

theorem Exact.kick (exact : Exact refused s) (reason : Bytes) : Exact refused (s.kick reason) := by
  unfold WsSink.kick
  split
  · exact exact
  · exact exact.beside rfl rfl rfl (fun _ => rfl) le_rfl rfl

theorem Exact.enqueue (exact : Exact refused s) (m : OutMsg) :
    Exact (refused ++ s.refusals (.enqueue m)) (s.enqueue m) := by
  obtain ⟨⟨hcounter, hroom⟩, hdropped, hqueueDropped, htexts⟩ := exact
  have hbytes : 0 ≤ m.bytes := Int.natCast_nonneg _
  have hqueued : (s.enqueue m).queued = s.queued := rfl
  have hwriter := s.writer.reserved_nonneg
  have hadmitted := List.sum_le_sum fun c (_ : c ∈ s.calls) => (EnqueueCall.admitted_le c).2
  have hold : ∀ m' ∈ refused, m'.typ = .text → (s.enqueue m).closed = true ∨
      ∃ c ∈ (s.enqueue m).calls, c.kicks = true := by
    intro m' hm' htext
    obtain hclosed | ⟨c, hc, hkicks⟩ := htexts m' hm' htext
    · exact .inl hclosed
    · exact .inr ⟨c, List.mem_append_left _ hc, hkicks⟩
  by_cases hover : maxQueuedBytes < s.queuedBytes + m.bytes
  · have hcalls : (s.enqueue m).calls = s.calls ++ [.overLimit m] := by simp [WsSink.enqueue, hover]
    have hrefused : s.refusals (.enqueue m) = [m] := if_pos hover
    have hcount : [m].countP OutMsg.isBinary = if m.isBinary then 1 else 0 := List.countP_singleton
    rw [hrefused]
    refine ⟨⟨?_, ?_⟩, ?_, fun n hn => ?_, fun m' hm' htext => ?_⟩
    · change s.queuedBytes + m.bytes = (s.enqueue m).queued + _ + s.writer.reserved
      rw [hqueued, hcalls]
      simp only [List.map_append, List.sum_append, List.map_cons, List.map_nil, List.sum_cons,
        List.sum_nil, EnqueueCall.reserved]
      omega
    · rw [hqueued, hcalls]
      simpa [EnqueueCall.admitted] using hroom
    · change s.dropped + _ = _
      rw [hcalls, List.countP_append, hcount, ← hdropped]
      simp [EnqueueCall.records, Nat.add_assoc]
    · rw [hcalls, List.countP_append, hcount, ← hqueueDropped n hn]
      simp [EnqueueCall.recordsQueue, EnqueueCall.records, Nat.add_assoc]
    · obtain hm' | hm' := List.mem_append.mp hm'
      · exact hold m' hm' htext
      · obtain rfl := List.mem_singleton.mp hm'
        refine .inr ⟨.overLimit m', by simp [hcalls], ?_⟩
        simp [EnqueueCall.kicks, OutMsg.isBinary, htext]
  · have hcalls : (s.enqueue m).calls = s.calls ++ [.select m] := by simp [WsSink.enqueue, hover]
    have hrefused : s.refusals (.enqueue m) = [] := if_neg hover
    rw [hrefused, List.append_nil]
    refine ⟨⟨?_, ?_⟩, ?_, fun n hn => ?_, hold⟩
    · change s.queuedBytes + m.bytes = (s.enqueue m).queued + _ + s.writer.reserved
      rw [hqueued, hcalls]
      simp only [List.map_append, List.sum_append, List.map_cons, List.map_nil, List.sum_cons,
        List.sum_nil, EnqueueCall.reserved]
      omega
    · -- All that is admitted is counted, and the count is within the limit.
      rw [hqueued, hcalls]
      simp only [List.map_append, List.sum_append, List.map_cons, List.map_nil, List.sum_cons,
        List.sum_nil, EnqueueCall.admitted]
      omega
    · change s.dropped + _ = _
      rw [hcalls, ← hdropped]
      simp [EnqueueCall.records]
    · rw [hcalls, ← hqueueDropped n hn]
      simp [EnqueueCall.recordsQueue, EnqueueCall.records]

/-- The next step of the `i`-th call. -/
theorem Exact.advance (exact : Exact refused s) {i : Nat} {c c' : EnqueueCall} {new : List OutMsg}
    (hc : s.calls[i]? = some c) (advanced : Advanced s s' c c' new) :
    Exact (refused ++ new) { s' with calls := s.calls.set i c' } := by
  obtain ⟨⟨hcounter, hroom⟩, hdropped, hqueueDropped, htexts⟩ := exact
  have hqueued : ({ s' with calls := s.calls.set i c' } : WsSink).queued = s'.queued := rfl
  refine ⟨⟨?_, ?_⟩, ?_, fun n' hn' => ?_, fun m hm htext => ?_⟩
  · have hsum := sum_map_set EnqueueCall.reserved s.calls c' hc
    have hchange := advanced.counter
    change s'.queuedBytes = s'.queued + ((s.calls.set i c').map EnqueueCall.reserved).sum +
      s'.writer.reserved
    rw [advanced.writer]
    omega
  · have hsum := sum_map_set EnqueueCall.admitted s.calls c' hc
    have hchange := advanced.room
    rw [hqueued]
    change s'.queued + ((s.calls.set i c').map EnqueueCall.admitted).sum ≤ _
    omega
  · have hsum := sum_map_set EnqueueCall.records s.calls c' hc
    have hchange := advanced.dropped
    rw [List.countP_append]
    change s'.dropped + ((s.calls.set i c').map EnqueueCall.records).sum = _
    omega
  · have hsum := sum_map_set EnqueueCall.recordsQueue s.calls c' hc
    obtain ⟨n, hn⟩ : ∃ n, s.queueDropped = some n := by
      rw [← Option.isSome_iff_exists, ← advanced.queueDropped]
      exact Option.isSome_iff_exists.mpr ⟨n', hn'⟩
    have hchange := advanced.counted n n' hn hn'
    have hcount := hqueueDropped n hn
    rw [List.countP_append]
    change n' + ((s.calls.set i c').map EnqueueCall.recordsQueue).sum = _
    omega
  · have hmem : c' ∈ s.calls.set i c' := List.mem_iff_getElem?.mpr ⟨i, by
      rw [List.getElem?_set_self (List.getElem?_eq_some_iff.mp hc).1]⟩
    obtain hm | hm := List.mem_append.mp hm
    · obtain hclosed | ⟨x, hx, hkicks⟩ := htexts m hm htext
      · exact .inl (advanced.closed hclosed)
      · obtain rfl | hx := mem_set_of_mem c' hc hx
        · obtain hkicks | hclosed := advanced.kicks hkicks
          · exact .inr ⟨c', hmem, hkicks⟩
          · exact .inl hclosed
        · exact .inr ⟨x, hx, hkicks⟩
    · exact .inr ⟨c', hmem, advanced.refusedText m hm htext⟩

theorem Exact.step (exact : Exact refused s) {a : SinkAction} (hstep : s.step a = some s') :
    Exact (refused ++ s.refusals a) s' := by
  have quiet : ∀ {t : WsSink}, Exact refused t → Exact (refused ++ []) t := fun h => by
    rwa [List.append_nil]
  cases a with
  | enqueue m =>
    obtain rfl := Option.some.inj hstep
    exact exact.enqueue m
  | call i choice =>
    simp only [WsSink.step] at hstep
    cases hc : s.calls[i]? with
    | none =>
      rw [hc] at hstep
      cases hstep
    | some c =>
      rw [hc] at hstep
      obtain ⟨⟨t, c'⟩, hadvance, rfl⟩ := Option.map_eq_some_iff.mp hstep
      have hnew : s.refusals (.call i choice) = refusedBy choice c := by simp [refusals, hc]
      rw [hnew]
      exact exact.advance hc (of_advance hadvance)
  | receive =>
    simp only [WsSink.step] at hstep
    split at hstep
    · rename_i m rest hwriter hout
      obtain rfl := Option.some.inj hstep
      have hbytes : 0 ≤ m.bytes := Int.natCast_nonneg _
      -- The bytes of the message that is taken over stay counted until the writer releases them.
      have hqueued : s.queued = m.bytes + (rest.map OutMsg.bytes).sum := by simp [queued, hout]
      refine quiet (exact.beside rfl rfl rfl id ?_ ?_)
      · change (rest.map OutMsg.bytes).sum ≤ _
        omega
      · change s.queuedBytes - (rest.map OutMsg.bytes).sum - m.bytes = _
        rw [hwriter, hqueued]
        simp only [Writer.reserved]
        omega
    · cases hstep
  | stop =>
    simp only [WsSink.step] at hstep
    split at hstep
    · rename_i hwaiting
      obtain rfl := Option.some.inj hstep
      refine quiet (exact.beside rfl rfl rfl id le_rfl ?_)
      rw [hwaiting.1]
      rfl
    · cases hstep
  | release =>
    simp only [WsSink.step] at hstep
    split at hstep
    · rename_i m hwriter
      obtain rfl := Option.some.inj hstep
      refine quiet (exact.beside rfl rfl rfl id le_rfl ?_)
      change s.queuedBytes - m.bytes - s.queued - 0 = _
      rw [hwriter]
      simp only [Writer.reserved]
      omega
    · cases hstep
  | write ok =>
    simp only [WsSink.step] at hstep
    split at hstep
    · rename_i m hwriter
      obtain rfl := Option.some.inj hstep
      refine quiet (exact.beside rfl rfl rfl id le_rfl ?_)
      rw [hwriter]
      cases ok <;> rfl
    · cases hstep
  | giveUp =>
    simp only [WsSink.step] at hstep
    split at hstep
    · rename_i hwriter
      obtain rfl := Option.some.inj hstep
      -- The writer that gives up kicks the connection, and holds no bytes any more.
      have hkicked := exact.kick (ascii "write failed")
      have hsame : (s.kick (ascii "write failed")).writer = .failed := by
        unfold WsSink.kick
        split <;> exact hwriter
      refine quiet (hkicked.beside rfl rfl rfl id le_rfl ?_)
      rw [hsame]
      rfl
    · cases hstep
  | kick reason =>
    obtain rfl := Option.some.inj hstep
    exact quiet (exact.kick reason)
  | cancel =>
    obtain rfl := Option.some.inj hstep
    exact quiet (exact.beside rfl rfl rfl id le_rfl rfl)

theorem exact_run {counts : Bool} {as : List SinkAction}
    (run : (machine counts).Run Machine.anyStep as s) :
    Exact ((machine counts).collect refusals as (machine counts).init) s := by
  refine run.history (fun as s => Exact ((machine counts).collect refusals as (machine counts).init) s)
    ?_ fun as s a s' run exact _ hstep => ?_
  · have hlimit : (0 : Int) ≤ maxQueuedBytes := by decide
    refine ⟨⟨rfl, hlimit⟩, rfl, fun n hn => ?_, by simp [Machine.collect]⟩
    cases counts with
    | false => cases hn
    | true =>
      obtain rfl := Option.some.inj hn
      rfl
  · rw [Machine.collect_snoc run.exec_eq]
    exact exact.step hstep

/-- No call of `enqueue` and no receive is between its steps. -/
def Quiet (s : WsSink) : Prop := (∀ c ∈ s.calls, c = .returned) ∧ ∀ m, s.writer ≠ .received m

/-- What the queue promises, when the messages `refused` did not fit. -/
structure Bounded (refused : List OutMsg) (s : WsSink) : Prop where
  limit : s.queued ≤ maxQueuedBytes
  covered : s.queued ≤ s.queuedBytes
  /-- Each refused frame is counted, or about to be. -/
  dropped : s.dropped + (s.calls.map EnqueueCall.records).sum = refused.countP OutMsg.isBinary
  /-- A refused text has closed the sink, or is about to. -/
  texts : ∀ m ∈ refused, m.typ = .text → s.closed = true ∨ ∃ c ∈ s.calls, c.kicks = true
  quiet : s.Quiet → s.queuedBytes = s.queued ∧ s.dropped = refused.countP OutMsg.isBinary ∧
    (∀ n, s.queueDropped = some n → n = refused.countP OutMsg.isBinary) ∧
    ∀ m ∈ refused, m.typ = .text → s.closed = true

theorem sum_returned {M : Type*} [AddCommMonoid M] {f : EnqueueCall → M} (hf : f .returned = 0)
    {calls : List EnqueueCall} (hcalls : ∀ c ∈ calls, c = .returned) : (calls.map f).sum = 0 := by
  induction calls with
  | nil => rfl
  | cons c calls ih =>
    rw [List.forall_mem_cons] at hcalls
    rw [List.map_cons, List.sum_cons, hcalls.1, hf, ih hcalls.2, add_zero]

theorem Exact.bounded (exact : Exact refused s) : Bounded refused s := by
  obtain ⟨⟨hcounter, hroom⟩, hdropped, hqueueDropped, htexts⟩ := exact
  have hadmitted := List.sum_nonneg (List.forall_mem_map.mpr fun c (_ : c ∈ s.calls) => (EnqueueCall.admitted_le c).1)
  have hreserved := List.sum_nonneg (List.forall_mem_map.mpr fun c (_ : c ∈ s.calls) => EnqueueCall.reserved_nonneg c)
  have hwriter := s.writer.reserved_nonneg
  refine ⟨by omega, by omega, hdropped, htexts, fun hquiet => ⟨?_, ?_, fun n hn => ?_, fun m hm htext => ?_⟩⟩
  · have hnone : s.writer.reserved = 0 := by
      cases hw : s.writer with
      | received m => exact absurd hw (hquiet.2 m)
      | _ => rfl
    rw [sum_returned rfl hquiet.1] at hcounter
    omega
  · rw [sum_returned rfl hquiet.1] at hdropped
    exact hdropped
  · have hcount := hqueueDropped n hn
    rw [sum_returned rfl hquiet.1] at hcount
    exact hcount
  · obtain hclosed | ⟨c, hc, hkicks⟩ := htexts m hm htext
    · exact hclosed
    · rw [hquiet.1 c hc] at hkicks
      cases hkicks

/-- In every interleaving the queue is bounded, and its counters are exact. -/
theorem queue_run {counts : Bool} {as : List SinkAction}
    (run : (machine counts).Run Machine.anyStep as s) :
    Bounded ((machine counts).collect refusals as (machine counts).init) s :=
  (exact_run run).bounded

/-- A frame is sent, the sink is closed under a text, and the writer takes the frame out. -/
def closingRun : List SinkAction :=
  [.enqueue ⟨.text, [1]⟩, .enqueue ⟨.binary, [2, 3]⟩, .call 1 .send, .kick (ascii "read closed"),
    .call 0 .closed, .receive]

theorem queue_run_closing : ∃ s, (machine true).Run Machine.anyStep closingRun s ∧
    s.queuedBytes = 3 ∧ s.queued = 0 ∧
    Bounded ((machine true).collect refusals closingRun (machine true).init) s := by
  have hexec : ((machine true).exec closingRun (machine true).init).map (fun s =>
      (s.queuedBytes, s.queued)) = some (3, 0) := by
    decide +kernel
  obtain ⟨s, hexec, heq⟩ := Option.map_eq_some_iff.mp hexec
  obtain ⟨hbytes, hqueued⟩ := Prod.mk.inj heq
  have run := Machine.run_of_exec hexec
  exact ⟨s, run, hbytes, hqueued, queue_run run⟩

/-! ## The channel -/

/-- The message that a call puts into the channel if it can send. -/
def sentBy : EnqueueCall → List OutMsg
  | .select m => [m]
  | _ => []

/-- The messages that a step puts into the channel. -/
def sends (s : WsSink) : SinkAction → List OutMsg
  | .call i .send => (s.calls[i]?).elim [] sentBy
  | _ => []

/-- Those that it takes out. -/
def receives (s : WsSink) : SinkAction → List OutMsg
  | .receive => s.out.take 1
  | _ => []

theorem out_kick (s : WsSink) (reason : Bytes) : (s.kick reason).out = s.out := by
  unfold kick
  split <;> rfl

theorem out_advance {choice : SelectCase} {c c' : EnqueueCall} (h : s.advance choice c = some (s', c')) :
    s'.out = s.out ++ if choice = .send then sentBy c else [] := by
  have hnone : ∀ {t : WsSink}, t.out = s.out → t.out = s.out ++ if choice = .send then [] else [] := by
    intro t ht
    rw [ite_self, List.append_nil, ht]
  cases c with
  | select m =>
    cases choice with
    | closed =>
      simp only [advance, selectCase] at h
      split at h
      · cases h
        simp
      · cases h
    | send =>
      simp only [advance, selectCase] at h
      split at h
      · cases h
        rfl
      · cases h
    | fallback =>
      simp only [advance, selectCase] at h
      split at h
      · cases h
      · cases h
        simp
  | kick reason =>
    cases h
    exact hnone (out_kick s reason)
  | returned => cases h
  | _ =>
    cases h
    exact hnone rfl

theorem out_step {a : SinkAction} (h : s.step a = some s') :
    s.out ++ s.sends a = s.receives a ++ s'.out := by
  cases a with
  | call i choice =>
    simp only [step] at h
    cases hc : s.calls[i]? with
    | none =>
      rw [hc] at h
      cases h
    | some c =>
      rw [hc] at h
      obtain ⟨⟨t, c'⟩, hadvance, rfl⟩ := Option.map_eq_some_iff.mp h
      have hout := out_advance hadvance
      cases choice <;> simp [sends, receives, hc, hout]
  | receive =>
    simp only [step] at h
    split at h
    · rename_i m rest hwriter hout
      obtain rfl := Option.some.inj h
      simp [sends, receives, hout]
    · cases h
  | giveUp =>
    simp only [step] at h
    split at h
    · obtain rfl := Option.some.inj h
      simp [sends, receives, out_kick]
    · cases h
  | kick reason =>
    obtain rfl := Option.some.inj h
    simp [sends, receives, out_kick]
  | enqueue m =>
    obtain rfl := Option.some.inj h
    simp [sends, receives, enqueue]
  | cancel =>
    obtain rfl := Option.some.inj h
    simp [sends, receives]
  | _ =>
    simp only [step] at h
    split at h
    · obtain rfl := Option.some.inj h
      simp [sends, receives]
    · cases h

/-- The writer gets what was sent, once each and in order; the rest is in the channel. -/
theorem channel_run {counts : Bool} {as : List SinkAction}
    (run : (machine counts).Run Machine.anyStep as s) :
    (machine counts).collect sends as (machine counts).init =
      (machine counts).collect receives as (machine counts).init ++ s.out := by
  refine run.history (fun as s => (machine counts).collect sends as (machine counts).init =
    (machine counts).collect receives as (machine counts).init ++ s.out) rfl
    fun as s a s' run hsame _ hstep => ?_
  rw [Machine.collect_snoc run.exec_eq, Machine.collect_snoc run.exec_eq, hsame, List.append_assoc,
    out_step hstep, List.append_assoc]

end WsSink

end CrossTransfer.Signal
