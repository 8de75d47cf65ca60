import CrossTransfer.Library.Machine
import CrossTransfer.Transfer.SenderRun

/-! # The sender engine as a machine

The steps of the sender thread and the calls of the other threads, in any order (`Sender.machine`).
No step changes what was prepared of a file, and a repair pass visits only files that the file loop
has passed (`Prepared`). What a call of another thread leaves alone is `CallKeeps`.
-/

namespace CrossTransfer.Transfer

open CrossTransfer.Library
open Paths

/-! ## The engine as a machine -/

/-- A step of the sender thread, or a call of another thread. -/
inductive SenderAct where
  | thread (io : TxIo)
  | sack (wire : Bytes)
  | fileOk (index : UInt16)
  | fileBad (index : UInt16)
  | pause (paused : Bool)
  | stop
deriving DecidableEq, Repr

namespace Sender

def step (sha : Bytes → Bytes) (t : Sender) : SenderAct → Option (Sender × List TxEvent)
  | .thread io => t.senderStep sha io
  | .sack wire => some (t.onSack wire, [])
  | .fileOk index => some (t.onFileOk index, [])
  | .fileBad index => some (t.onFileBad index, [])
  | .pause paused => some (t.setPaused paused, [])
  | .stop => some (t.requestStop, [])

/-- The engine from the state `t` on. -/
def machine (sha : Bytes → Bytes) (t : Sender) : Machine Sender SenderAct where
  init := t
  step t a := (t.step sha a).map (·.1)

end Sender

/-! ## What belongs to the sweep -/

/-- What is fixed of a file, and the times its sweep records. -/
def FileTx.own (f : FileTx) : UInt16 × UInt64 × UInt32 × List UInt32 :=
  (f.index, f.size, f.blocks, f.sweepMs)

/-- What is fixed of a file, and for how many buckets there is room. -/
def FileTx.plan (f : FileTx) : UInt16 × UInt64 × UInt32 × Nat :=
  (f.index, f.size, f.blocks, f.sweepMs.length)

theorem plan_of_own {l l' : List FileTx} (h : l'.map FileTx.own = l.map FileTx.own) :
    l'.map FileTx.plan = l.map FileTx.plan := by
  have hplan : FileTx.plan = (fun o : UInt16 × UInt64 × UInt32 × List UInt32 =>
      (o.1, o.2.1, o.2.2.1, o.2.2.2.length)) ∘ FileTx.own := rfl
  rw [hplan, ← List.map_map, h, List.map_map]

namespace Sender

variable {t t' t'' : Sender} {sha : Bytes → Bytes} {io : TxIo} {out : List TxEvent}

/-- The files are as before, up to what a sweep does not look at. -/
structure Quiet (t t' : Sender) : Prop where
  own : t'.tx.map FileTx.own = t.tx.map FileTx.own
  inflight : ∀ j ∈ t'.inflight, j ∈ t.inflight

theorem Quiet.refl (t : Sender) : Quiet t t := ⟨rfl, fun _ => id⟩

theorem Quiet.trans (h : Quiet t t') (h' : Quiet t' t'') : Quiet t t'' :=
  ⟨h'.own.trans h.own, fun j hj => h.inflight j (h'.inflight j hj)⟩

theorem Quiet.pc (h : Quiet t t') (pc : SenderPc) : Quiet t { t' with pc := pc } :=
  ⟨h.own, h.inflight⟩

theorem Quiet.length (h : Quiet t t') : t'.tx.length = t.tx.length := by
  simpa using congrArg List.length h.own

theorem Quiet.file (h : Quiet t t') {i : Nat} {f : FileTx} (hf : t'.tx[i]? = some f) (f' : FileTx)
    (hown : f'.own = f.own) : Quiet t (t'.setFile i f') :=
  ⟨(map_set_eq_self hf hown).trans h.own, h.inflight⟩

theorem Quiet.getElem? (h : Quiet t t') {i : Nat} {f : FileTx} (hf : t.tx[i]? = some f) :
    ∃ f', t'.tx[i]? = some f' ∧ f'.own = f.own := by
  have hmap := congrArg (·[i]?) h.own
  simp only [List.getElem?_map, hf, Option.map_some] at hmap
  exact Option.map_eq_some_iff.mp hmap

/-! ## Pieces of a step -/

theorem quiet_fail (t : Sender) (code message : Bytes) :
    Quiet t (t.fail code message).1 ∧ (t.fail code message).1.pc = t.pc := by
  unfold fail
  split
  · exact ⟨.refl t, rfl⟩
  · exact ⟨⟨rfl, fun _ => id⟩, rfl⟩

theorem quiet_reapInflight (t : Sender) : Quiet t t.reapInflight where
  own := by
    apply List.ext_getElem?
    intro j
    simp only [reapInflight, List.getElem?_map, List.getElem?_mapIdx, Option.map_map]
    congr 1
    funext f
    simp only [Function.comp]
    split <;> rfl
  inflight := fun _ hj => (List.mem_filter.mp hj).1

theorem quiet_readBlocks {i : Nat} {f : FileTx} {first count : UInt32} {data : Option Bytes}
    (hf : t.tx[i]? = some f) (h : t.readBlocks io i f first count = (t', out, data)) :
    Quiet t t' ∧ t'.pc = t.pc := by
  have opened : Quiet t (t.setFile i { f with readerOpen := true }) := (Quiet.refl t).file hf _ rfl
  have failing : ∀ code message,
      Quiet t ((t.setFile i { f with readerOpen := true }).fail code message).1 ∧
        ((t.setFile i { f with readerOpen := true }).fail code message).1.pc = t.pc :=
    fun code message => ⟨opened.trans (quiet_fail _ _ _).1, (quiet_fail _ _ _).2⟩
  unfold readBlocks at h
  simp only at h
  split at h
  · cases h
    exact failing _ _
  · split at h
    · cases h
      exact failing _ _
    · split at h
      · cases h
        exact failing _ _
      · split at h
        · cases h
          exact ⟨opened, rfl⟩
        · cases h
          exact failing _ _

theorem quiet_trySend {f : FileTx} {block : UInt32} {payload : Bytes} {repair : Bool}
    {sent : Option Bool} (h : t.trySend io f block payload repair = (t', out, sent)) :
    Quiet t t' ∧ t'.tx = t.tx := by
  unfold trySend at h
  split at h
  · cases h
    exact ⟨.refl t, rfl⟩
  · simp only at h
    split at h
    · cases h
      exact ⟨⟨rfl, fun _ => id⟩, rfl⟩
    · split at h
      · cases h
        exact ⟨.refl t, rfl⟩
      · split at h
        · cases h
          unfold fail
          split <;> exact ⟨⟨rfl, fun _ => id⟩, rfl⟩
        · cases h
          exact ⟨⟨rfl, fun _ => id⟩, rfl⟩

theorem dropOldRepairs_own (f : FileTx) : (dropOldRepairs f).own = f.own := by
  unfold dropOldRepairs
  split <;> rfl

/-! ## Files that have been prepared -/

/-- The repair pass the thread is in. -/
def repairOf : SenderPc → Option RepairLocals
  | .repairPass r => some r
  | .repairRun _ _ r => some r
  | .repairSend _ _ _ r => some r
  | _ => none

/-- What a step of the thread does to the file plans and to the files in flight: these are files
    that the file loop has passed, and so are the files of a repair pass. -/
structure Advances (t t' : Sender) : Prop where
  plan : t'.tx.map FileTx.plan = t.tx.map FileTx.plan
  inflight : ∀ j ∈ t'.inflight,
    j ∈ t.inflight ∨ j < t.tx.length ∧ j < passed t.tx.length t'.pc
  passed : ∀ j, j < t.tx.length → j < passed t.tx.length t.pc → j < passed t.tx.length t'.pc
  repairs : ∀ r', repairOf t'.pc = some r' → (∀ j ∈ r'.files, j ∈ t'.inflight) ∨
    ∃ r, repairOf t.pc = some r ∧ ∀ j ∈ r'.files, j ∈ r.files

/-- The plans are those of the manifest, and a file in flight has been passed. -/
structure Prepared (m : Manifest) (t : Sender) : Prop where
  plan : t.tx.map FileTx.plan = m.files.mapIdx fun i mf => (startFile [] i mf).plan
  inflight : ∀ j ∈ t.inflight, j < t.tx.length ∧ j < passed t.tx.length t.pc
  repairs : ∀ r, repairOf t.pc = some r →
    ∀ j ∈ r.files, j < t.tx.length ∧ j < passed t.tx.length t.pc

theorem Prepared.advance {m : Manifest} (h : Prepared m t) (move : Advances t t') :
    Prepared m t' := by
  have length : t'.tx.length = t.tx.length := by simpa using congrArg List.length move.plan
  have inflight : ∀ j ∈ t'.inflight, j < t.tx.length ∧ j < Sender.passed t.tx.length t'.pc := by
    intro j hj
    obtain hj | hj := move.inflight j hj
    · exact ⟨(h.inflight j hj).1, move.passed j (h.inflight j hj).1 (h.inflight j hj).2⟩
    · exact hj
  refine ⟨move.plan.trans h.plan, length ▸ inflight, ?_⟩
  rw [length]
  intro r' hr' j hj
  obtain hfiles | ⟨r, hr, hfiles⟩ := move.repairs r' hr'
  · exact inflight j (hfiles j hj)
  · obtain ⟨hlt, hpassed⟩ := h.repairs r hr j (hfiles j hj)
    exact ⟨hlt, move.passed j hlt hpassed⟩

/-- A quiet step to a place outside a repair pass. -/
theorem Quiet.advances (h : Quiet t t')
    (hpassed : passed t.tx.length t.pc ≤ passed t.tx.length t'.pc ∨
      t.tx.length ≤ passed t.tx.length t'.pc) (hrepair : repairOf t'.pc = none) : Advances t t' where
  plan := plan_of_own h.own
  inflight := fun j hj => .inl (h.inflight j hj)
  passed := fun j hlt hj => by omega
  repairs := fun r' hr' => by rw [hrepair] at hr'; cases hr'

/-- A quiet step inside a repair pass. -/
theorem Quiet.repairs (h : Quiet t t') {r r' : RepairLocals} (hr : repairOf t.pc = some r)
    (hr' : repairOf t'.pc = some r')
    (hpassed : passed t.tx.length t.pc ≤ passed t.tx.length t'.pc)
    (hfiles : ∀ j ∈ r'.files, j ∈ r.files) : Advances t t' where
  plan := plan_of_own h.own
  inflight := fun j hj => .inl (h.inflight j hj)
  passed := fun j _ hj => by omega
  repairs := fun r'' hr'' => by
    rw [hr', Option.some.injEq] at hr''
    exact .inr ⟨r, hr, hr'' ▸ hfiles⟩

theorem Quiet.enterRepair (h : Quiet t t') {caller : RepairCaller}
    (hpassed : passed t.tx.length t.pc ≤ passed.byCaller t.tx.length caller) :
    Advances t (t'.enterRepair io caller) where
  plan := plan_of_own h.own
  inflight := fun j hj => .inl (h.inflight j hj)
  passed := fun j _ hj => lt_of_lt_of_le hj hpassed
  repairs := fun r' hr' => by
    cases hr'
    exact .inl fun _ => id

theorem Quiet.leaveFiles (h : Quiet t t') : Advances t t'.leaveFiles :=
  (⟨h.own, h.inflight⟩ : Quiet t t'.leaveFiles).advances (.inr le_rfl) rfl

theorem Quiet.repairBroken (h : Quiet t t') {caller : RepairCaller}
    (hpassed : passed t.tx.length t.pc ≤ passed.byCaller t.tx.length caller) :
    Advances t (t'.repairBroken caller) := by
  cases caller with
  | sweep => exact h.leaveFiles
  | inner i => exact (h.pc (.file (i + 1))).advances (.inl hpassed) rfl
  | drain => exact (h.pc .finish).advances (.inl hpassed) rfl

theorem Quiet.repairDone (h : Quiet t t') {caller : RepairCaller}
    (hpassed : passed t.tx.length t.pc ≤ passed.byCaller t.tx.length caller) :
    Advances t { t' with pc := Sender.repairDone caller } := by
  refine (h.pc (Sender.repairDone caller)).advances (.inl ?_) ?_
  · exact hpassed.trans (le_of_eq (passed_repairDone _ _).1.symm)
  · cases caller <;> rfl

theorem advances_repairPassStep {r : RepairLocals} (hpc : t.pc = .repairPass r) :
    Advances t (t.repairPassStep r) := by
  have hrepair : repairOf t.pc = some r := hpc ▸ rfl
  have next : Advances t { t with pc := .repairPass (nextFile r) } :=
    Quiet.repairs ⟨rfl, fun _ => id⟩ hrepair rfl (by rw [hpc]; exact le_rfl) fun j hj =>
      List.mem_of_mem_tail hj
  unfold repairPassStep
  split
  · exact (Quiet.refl t).repairDone (by rw [hpc]; exact le_rfl)
  · rename_i i rest hfiles
    split
    · exact next
    · rename_i f hf
      split
      · exact next
      · split
        · exact next
        · have dropped := (Quiet.refl t).file hf _ (dropOldRepairs_own f)
          exact Quiet.repairs ⟨dropped.own, dropped.inflight⟩ hrepair rfl (by rw [hpc]; exact le_rfl)
            fun _ => id

theorem advances_repairRunStep {holes : List SackRun} {block : UInt32} {r : RepairLocals}
    (hpc : t.pc = .repairRun holes block r)
    (h : t.repairRunStep io holes block r = some (t', out)) : Advances t t' := by
  have hrepair : repairOf t.pc = some r := hpc ▸ rfl
  have hpassed : passed t.tx.length t.pc ≤ passed.byCaller t.tx.length r.caller := by
    rw [hpc]
    exact le_rfl
  have same : ∀ holes' block', Advances t { t with pc := .repairRun holes' block' r } :=
    fun _ _ => Quiet.repairs ⟨rfl, fun _ => id⟩ hrepair rfl hpassed fun _ => id
  unfold repairRunStep at h
  split at h
  · cases h
  · split at h
    · cases h
    · cases h
      split
      · exact (Quiet.refl t).repairDone hpassed
      · exact Quiet.repairs ⟨rfl, fun _ => id⟩ hrepair rfl hpassed fun j hj =>
          List.mem_of_mem_tail hj
    · rename_i f run rest hf
      split at h
      · cases h
        exact (Quiet.refl t).repairDone hpassed
      · split at h
        · cases h
          exact same _ _
        · split at h
          · cases h
            exact same _ _
          · split at h
            · cases h
              exact same _ _
            · split at h
              · cases h
                exact (Quiet.refl t).repairBroken hpassed
              · split at h
                · cases h
                · split at h
                  · rename_i mid out' hread
                    cases h
                    exact (quiet_readBlocks hf hread).1.repairBroken hpassed
                  · rename_i mid out' payload hread
                    cases h
                    have read := (quiet_readBlocks hf hread).1
                    exact Quiet.repairs ⟨read.own, read.inflight⟩ hrepair rfl hpassed fun _ => id

theorem advances_repairSendStep {holes : List SackRun} {block : UInt32} {payload : Bytes}
    {r : RepairLocals} (hpc : t.pc = .repairSend holes block payload r)
    (h : t.repairSendStep io holes block payload r = some (t', out)) : Advances t t' := by
  have hrepair : repairOf t.pc = some r := hpc ▸ rfl
  have hpassed : passed t.tx.length t.pc ≤ passed.byCaller t.tx.length r.caller := by
    rw [hpc]
    exact le_rfl
  unfold repairSendStep at h
  split at h
  · cases h
  · split at h
    · cases h
    · rename_i i rest hfiles f hf
      split at h
      all_goals
        rename_i mid out' hsend
        obtain ⟨quiet, htx⟩ := quiet_trySend hsend
        obtain ⟨-, -, hmid, -⟩ := trySend_spec hsend
        cases h
      · exact Quiet.repairs quiet hrepair (hmid ▸ hrepair) (by rw [hmid]) fun _ => id
      · exact quiet.repairBroken hpassed
      · have hmidFile := htx ▸ hf
        have sent := quiet.file hmidFile { f with repairMs := (block, io.now) :: f.repairMs } rfl
        exact Quiet.repairs ⟨sent.own, sent.inflight⟩ hrepair rfl hpassed fun _ => id

theorem advances_sweepStep {i : Nat} {s : Sweep} {f : FileTx} (hpc : t.pc = .sweepRead i s)
    (hf : t.tx[i]? = some f) (h : t.sweepStep sha io i s f = some (t', out)) : Advances t t' := by
  have hpassed : passed t.tx.length t.pc ≤ i := by
    rw [hpc]
    exact le_rfl
  unfold sweepStep at h
  split at h
  · cases h
    have hashed := (Quiet.refl t).file hf { f with sha256 := sha s.hashed, sweepDone := true } rfl
    exact Quiet.advances ⟨hashed.own, hashed.inflight⟩ (.inl hpassed) rfl
  · split at h
    · cases h
      exact (Quiet.refl t).leaveFiles
    · split at h
      · cases h
      · simp only at h
        split at h
        · rename_i mid out' hread
          cases h
          exact (quiet_readBlocks hf hread).1.leaveFiles
        · rename_i mid out' bytes hread
          cases h
          have read := (quiet_readBlocks hf hread).1
          exact Quiet.advances ⟨read.own, read.inflight⟩ (.inl hpassed) rfl

/-- Recording the time of a bucket keeps the plans. -/
theorem advances_sweepMarkStep {i : Nat} {s : Sweep} {f : FileTx} (hpc : t.pc = .sweepMark i s)
    (hf : t.tx[i]? = some f) : Advances t (t.sweepMarkStep io i s f) := by
  have hplan : (t.tx.set i
      { f with sweepMs := f.sweepMs.set (s.block / kBucketBlocks).toNat io.now }).map FileTx.plan =
        t.tx.map FileTx.plan := by
    refine map_set_eq_self hf ?_
    simp only [FileTx.plan, List.length_set]
  have hpassed : ∀ j, j < t.tx.length → j < passed t.tx.length t.pc → j < i := by
    rw [hpc]
    exact fun _ _ => id
  unfold sweepMarkStep
  dsimp only
  split
  · have reaped := quiet_reapInflight (t.setFile i
      { f with sweepMs := f.sweepMs.set (s.block / kBucketBlocks).toNat io.now })
    refine ⟨(plan_of_own reaped.own).trans hplan, fun j hj => .inl (reaped.inflight j hj), hpassed, ?_⟩
    · intro r' hr'
      cases hr'
      exact .inl fun _ => id
  · refine ⟨hplan, fun _ => .inl, hpassed, fun r' hr' => ?_⟩
    cases hr'

theorem advances_senderStep (h : t.senderStep sha io = some (t', out)) : Advances t t' := by
  unfold senderStep at h
  split at h
  -- The head of the file loop.
  case h_1 i hpc =>
    split at h
    · cases h
      exact (Quiet.refl t).leaveFiles
    · rename_i f hf
      split at h
      · cases h
        exact (Quiet.refl t).leaveFiles
      · split at h
        · cases h
          refine Quiet.advances ⟨rfl, fun _ => id⟩ (.inl ?_) rfl
          rw [hpc]
          exact Nat.le_succ i
        · split at h
          · cases h
            have hashed := (Quiet.refl t).file hf { f with sha256 := sha [], sweepDone := true } rfl
            refine Quiet.advances ⟨hashed.own, hashed.inflight⟩ (.inl ?_) rfl
            rw [hpc]
            exact le_rfl
          · cases h
            refine Quiet.advances ⟨rfl, fun _ => id⟩ (.inl ?_) rfl
            rw [hpc]
            exact le_rfl
  -- The sweep reads a chunk.
  case h_2 i s hpc =>
    obtain ⟨f, hf, h⟩ := Option.bind_eq_some_iff.mp h
    exact advances_sweepStep hpc hf h
  -- A block of the chunk, which is skipped or sent.
  case h_3 i s hpc =>
    obtain ⟨f, hf, h⟩ := Option.map_eq_some_iff.mp h
    have same : ∀ pc, passed t.tx.length pc = i → repairOf pc = none →
        Advances t { t with pc := pc } := by
      intro pc hi hrepair
      refine Quiet.advances ⟨rfl, fun _ => id⟩ (.inl ?_) hrepair
      rw [hpc]
      exact le_of_eq hi.symm
    split at h
    · cases h
      exact same _ rfl rfl
    · split at h
      · cases h
        exact same _ rfl rfl
      · split at h
        · cases h
          exact (Quiet.refl t).leaveFiles
        · cases h
          exact same _ rfl rfl
  -- `TrySend` of that block: it waits, the link is closed, or the block is sent.
  case h_4 i s hpc =>
    obtain ⟨f, hf, h⟩ := Option.map_eq_some_iff.mp h
    split at h
    all_goals
      rename_i mid out' hsend
      obtain ⟨quiet, -⟩ := quiet_trySend hsend
      obtain ⟨-, -, hmid, -⟩ := trySend_spec hsend
      cases h
    · exact quiet.advances (.inl (by rw [hmid])) (by rw [hmid, hpc]; rfl)
    · exact quiet.leaveFiles
    · exact Quiet.advances ⟨quiet.own, quiet.inflight⟩ (.inl (by rw [hpc]; exact le_rfl)) rfl
  -- After the block, where a repair may be due.
  case h_5 i s hpc =>
    obtain ⟨f, hf, h⟩ := Option.map_eq_some_iff.mp h
    cases h
    exact advances_sweepMarkStep hpc hf
  -- `file_done` goes out, and the file is in flight.
  case h_6 i hpc =>
    obtain ⟨f, hf, h⟩ := Option.map_eq_some_iff.mp h
    cases h
    have hlt := (List.getElem?_eq_some_iff.mp hf).1
    have marked := (Quiet.refl t).file hf { f with announced := true } rfl
    refine ⟨plan_of_own marked.own, fun j hj => ?_, fun j _ hj => ?_, fun r' hr' => by cases hr'⟩
    · obtain hj | hj := List.mem_append.mp hj
      · exact .inl hj
      · obtain rfl := List.mem_singleton.mp hj
        exact .inr ⟨hlt, Nat.lt_succ_self j⟩
    · rw [hpc] at hj
      exact Nat.lt_succ_of_lt hj
  -- The wait for room in `inflight_`.
  case h_7 i hpc =>
    have hpassed : passed t.tx.length t.pc ≤ i + 1 := by
      rw [hpc]
      exact le_rfl
    split at h
    · cases h
      exact Quiet.advances ⟨rfl, fun _ => id⟩ (.inl hpassed) rfl
    · simp only at h
      have reaped := quiet_reapInflight t
      split at h
      · cases h
        exact Quiet.advances ⟨reaped.own, reaped.inflight⟩ (.inl hpassed) rfl
      · cases h
        exact reaped.enterRepair hpassed
  -- The wait for the last files.
  case h_8 hpc =>
    have hpassed : passed t.tx.length t.pc ≤ t.tx.length := by
      rw [hpc]
      exact le_rfl
    split at h
    · cases h
      exact Quiet.advances ⟨rfl, fun _ => id⟩ (.inr le_rfl) rfl
    · simp only at h
      have reaped := quiet_reapInflight t
      split at h
      · cases h
        exact Quiet.advances ⟨reaped.own, reaped.inflight⟩ (.inr le_rfl) rfl
      · cases h
        exact reaped.enterRepair hpassed
  -- A repair pass.
  case h_9 r hpc =>
    cases h
    exact advances_repairPassStep hpc
  case h_10 holes block r hpc => exact advances_repairRunStep hpc h
  case h_11 holes block payload r hpc => exact advances_repairSendStep hpc h
  -- The readers are closed, and the end is reported unless the thread was stopped.
  case h_12 hpc =>
    have closed : (t.tx.map fun f => { f with readerOpen := false }).map FileTx.own =
        t.tx.map FileTx.own := by
      rw [List.map_map]
      rfl
    simp only at h
    split at h
    all_goals
      cases h
      exact Quiet.advances ⟨closed, fun _ => id⟩ (.inr le_rfl) rfl
  case h_13 => cases h

/-! ## Calls of the other threads -/

/-- A call of another thread touches neither the thread's place nor what its sweep has recorded;
    only `OnFileBad` of a file changes its skip set. -/
structure CallKeeps (t : Sender) (a : SenderAct) (t' : Sender) : Prop extends Quiet t t' where
  pc : t'.pc = t.pc
  skip : ∀ (j : Nat) (f f' : FileTx), t.tx[j]? = some f → t'.tx[j]? = some f' →
    (∀ v, a = .fileBad v → v.toNat ≠ j) → f'.skip = f.skip

theorem callKeeps_set {a : SenderAct} {i : Nat} {f f' : FileTx} (hf : t.tx[i]? = some f)
    (htx : t'.tx = t.tx.set i f') (hown : f'.own = f.own)
    (hskip : (∀ v, a = .fileBad v → v.toNat ≠ i) → f'.skip = f.skip) (hpc : t'.pc = t.pc) (hinflight : t'.inflight = t.inflight) :
    CallKeeps t a t' where
  own := htx ▸ map_set_eq_self hf hown
  inflight := hinflight ▸ fun _ => id
  pc := hpc
  skip := by
    intro j g g' hg hg' hbad
    rw [htx, List.getElem?_set] at hg'
    split at hg'
    · rename_i hij
      subst hij
      rw [hf, Option.some.injEq] at hg
      split at hg'
      · cases hg'
        exact hg ▸ hskip hbad
      · cases hg'
    · rw [hg, Option.some.injEq] at hg'
      rw [hg']

theorem callKeeps_same {a : SenderAct} (htx : t'.tx = t.tx) (hpc : t'.pc = t.pc)
    (hinflight : t'.inflight = t.inflight) : CallKeeps t a t' where
  own := by rw [htx]
  inflight := hinflight ▸ fun _ => id
  pc := hpc
  skip := by
    intro j f f' hf hf' _
    rw [htx, hf, Option.some.injEq] at hf'
    rw [hf']

theorem CallKeeps.advances {a : SenderAct} (h : CallKeeps t a t') : Advances t t' where
  plan := plan_of_own h.own
  inflight := fun j hj => .inl (h.inflight j hj)
  passed := fun _ _ hj => h.pc ▸ hj
  repairs := fun r' hr' => .inr ⟨r', h.pc ▸ hr', fun _ => id⟩

theorem step_cases {a : SenderAct} (h : t.step sha a = some (t', out)) :
    (∃ io, a = .thread io ∧ t.senderStep sha io = some (t', out)) ∨
      CallKeeps t a t' ∧ out = [] ∧ ∀ io, a ≠ .thread io := by
  cases a with
  | thread io => exact .inl ⟨io, rfl, h⟩
  | sack wire =>
    cases h
    refine .inr ⟨?_, rfl, by simp⟩
    unfold onSack
    split
    · exact callKeeps_same rfl rfl rfl
    · split
      · exact callKeeps_same rfl rfl rfl
      · rename_i f hf
        dsimp only
        split
        · exact callKeeps_same rfl rfl rfl
        · exact callKeeps_set hf rfl rfl (fun _ => rfl) rfl rfl
  | fileOk index =>
    cases h
    refine .inr ⟨?_, rfl, by simp⟩
    unfold onFileOk
    split
    · exact callKeeps_same rfl rfl rfl
    · rename_i f hf
      split
      · exact callKeeps_same rfl rfl rfl
      · exact callKeeps_set hf rfl rfl (fun _ => rfl) rfl rfl
  | fileBad index =>
    cases h
    refine .inr ⟨?_, rfl, by simp⟩
    unfold onFileBad
    split
    · exact callKeeps_same rfl rfl rfl
    · rename_i f hf
      split
      · exact callKeeps_same rfl rfl rfl
      · exact callKeeps_set hf rfl rfl (fun hbad => absurd rfl (hbad index rfl)) rfl rfl
  | pause paused =>
    cases h
    exact .inr ⟨callKeeps_same rfl rfl rfl, rfl, by simp⟩
  | stop =>
    cases h
    exact .inr ⟨callKeeps_same rfl rfl rfl, rfl, by simp⟩

/-! ## From the start -/

theorem prepared_start (m : Manifest) (runs : List (UInt16 × List SackRun))
    (verified : List UInt16) : Prepared m (start m runs verified) := by
  have hplan : (start m runs verified).tx.map FileTx.plan =
      m.files.mapIdx fun i mf => (startFile [] i mf).plan := by
    have hfold : ∀ (vs : List UInt16) (t : Sender),
        (vs.foldl startVerified t).tx.map FileTx.plan = t.tx.map FileTx.plan := by
      intro vs
      induction vs with
      | nil => exact fun _ => rfl
      | cons v vs ih =>
        intro t
        rw [List.foldl_cons, ih]
        unfold startVerified
        split
        · rfl
        · rename_i f hf
          exact map_set_eq_self hf rfl
    rw [start, hfold]
    apply List.ext_getElem?
    intro j
    simp only [List.getElem?_map, List.getElem?_mapIdx, Option.map_map]
    rfl
  have called := called_startVerified verified
    { tx := m.files.mapIdx (startFile runs), pc := .file 0 }
  have hinflight : (start m runs verified).inflight = [] := called.inflight
  have hpc : (start m runs verified).pc = .file 0 := called.pc
  refine ⟨hplan, ?_, ?_⟩
  · rw [hinflight]
    simp
  · rw [hpc]
    intro r hr
    cases hr

theorem Prepared.step {m : Manifest} {a : SenderAct} (h : Prepared m t)
    (hstep : t.step sha a = some (t', out)) : Prepared m t' := by
  obtain ⟨io, -, hthread⟩ | ⟨called, -, -⟩ := step_cases hstep
  · exact h.advance (advances_senderStep hthread)
  · exact h.advance called.advances

end Sender

end CrossTransfer.Transfer
