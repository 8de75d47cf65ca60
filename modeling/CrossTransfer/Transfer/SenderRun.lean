import CrossTransfer.Transfer.Sender

/-! # What the sender thread can do

The sender thread changes only fields of its own: the SACK, the skip set and the
acknowledgement of a file belong to the other threads (`senderStep_keeps`). It announces
completion only after every file has been acknowledged: a file that the file loop has passed
is acknowledged or in flight, unless the engine was stopped or failed
(`Covered`, `senderStep_covered`).
-/

namespace CrossTransfer.Transfer

/-- A file without the fields that only the sender thread uses. -/
def FileTx.shared (f : FileTx) : FileTx :=
  { f with
    sweepMs := []
    repairMs := []
    sweepDone := false
    sha256 := []
    readerOpen := false
    announced := false }

theorem map_set_eq_self {α β : Type*} {g : α → β} {l : List α} {i : Nat} {x y : α}
    (hy : l[i]? = some y) (h : g x = g y) : (l.set i x).map g = l.map g := by
  apply List.ext_getElem?
  intro j
  rw [List.getElem?_map, List.getElem?_map, List.getElem?_set]
  split
  · rename_i hij
    subst hij
    split
    · simp [hy, h]
    · rename_i hlen
      simp [List.getElem?_eq_none (Nat.not_lt.mp hlen)]
  · rfl

namespace Sender

/-- File `j` has been acknowledged. -/
def okAt (t : Sender) (j : Nat) : Prop := ∃ f, t.tx[j]? = some f ∧ f.ok = true

/-- A step of the sender thread: what it leaves alone. -/
structure Keeps (t t' : Sender) : Prop where
  shared : t'.tx.map FileTx.shared = t.tx.map FileTx.shared
  stop : t'.stop = t.stop
  finished : t'.finished = t.finished
  failed : t.failed = true → t'.failed = true
  inflight : ∀ j ∈ t.inflight, j ∈ t'.inflight ∨ t.okAt j

variable {t t' t'' : Sender} {sha : Bytes → Bytes} {io : TxIo} {out : List TxEvent}

theorem Keeps.refl (t : Sender) : Keeps t t := ⟨rfl, rfl, rfl, id, fun _ h => .inl h⟩

theorem shared_getElem? (h : t'.tx.map FileTx.shared = t.tx.map FileTx.shared) (j : Nat) :
    (t'.tx[j]?).map FileTx.shared = (t.tx[j]?).map FileTx.shared := by
  rw [← List.getElem?_map, ← List.getElem?_map, h]

theorem okAt_of_shared (h : t'.tx.map FileTx.shared = t.tx.map FileTx.shared) {j : Nat} :
    t'.okAt j ↔ t.okAt j := by
  have hj := shared_getElem? h j
  unfold okAt
  cases hx' : t'.tx[j]? with
  | none => cases hx : t.tx[j]? <;> simp_all
  | some f' =>
    cases hx : t.tx[j]? with
    | none => simp_all
    | some f =>
      have : f'.ok = f.ok := by
        rw [hx', hx, Option.map_some, Option.map_some] at hj
        change f'.shared.ok = f.shared.ok
        rw [Option.some.inj hj]
      simp [this]

theorem Keeps.trans (h : Keeps t t') (h' : Keeps t' t'') : Keeps t t'' where
  shared := h'.shared.trans h.shared
  stop := h'.stop.trans h.stop
  finished := h'.finished.trans h.finished
  failed := fun hf => h'.failed (h.failed hf)
  inflight := fun j hj => by
    obtain hj | hok := h.inflight j hj
    · obtain hj | hok := h'.inflight j hj
      · exact .inl hj
      · exact .inr ((okAt_of_shared h.shared).mp hok)
    · exact .inr hok

theorem Keeps.length (h : Keeps t t') : t'.tx.length = t.tx.length := by
  simpa using congrArg List.length h.shared

/-! ## Pieces of a step -/

theorem Keeps.pc (h : Keeps t t') (pc : SenderPc) : Keeps t { t' with pc := pc } :=
  ⟨h.shared, h.stop, h.finished, h.failed, h.inflight⟩

theorem Keeps.file (h : Keeps t t') {i : Nat} {f : FileTx} (f' : FileTx) (hf : t'.tx[i]? = some f)
    (hshared : f'.shared = f.shared) : Keeps t (t'.setFile i f') :=
  ⟨(map_set_eq_self hf hshared).trans h.shared, h.stop, h.finished, h.failed, h.inflight⟩

theorem Keeps.leaveFiles (h : Keeps t t') : Keeps t t'.leaveFiles :=
  ⟨h.shared, h.stop, h.finished, h.failed, h.inflight⟩

theorem Keeps.repairBroken (h : Keeps t t') (caller : RepairCaller) :
    Keeps t (t'.repairBroken caller) := by
  cases caller
  · exact h.leaveFiles
  · exact h.pc _
  · exact h.pc _

theorem keeps_fail (t : Sender) (code message : Bytes) : Keeps t (t.fail code message).1 := by
  unfold fail
  split
  · exact .refl t
  · exact ⟨rfl, rfl, rfl, fun _ => rfl, fun _ h => .inl h⟩

theorem failed_fail (t : Sender) (code message : Bytes) : (t.fail code message).1.failed = true := by
  unfold fail
  split
  · assumption
  · rfl

theorem keeps_reapInflight (t : Sender) : Keeps t t.reapInflight where
  shared := by
    apply List.ext_getElem?
    intro j
    simp only [reapInflight, List.getElem?_map, List.getElem?_mapIdx, Option.map_map]
    congr 1
    funext f
    simp only [Function.comp]
    split <;> rfl
  stop := rfl
  finished := rfl
  failed := id
  inflight := fun j hj => by
    cases hok : (t.tx[j]?).any (·.ok) with
    | true =>
      right
      obtain ⟨f, hf, h⟩ := (Option.any_eq_true _ _).mp hok
      exact ⟨f, hf, h⟩
    | false =>
      left
      exact List.mem_filter.mpr ⟨hj, by simp [hok]⟩

/-- `ReadBlocks` keeps what a step keeps, and fails the engine if it returns false. -/
theorem readBlocks_spec {i : Nat} {f : FileTx} {first count : UInt32} {data : Option Bytes}
    (hf : t.tx[i]? = some f) (h : t.readBlocks io i f first count = (t', out, data)) :
    Keeps t t' ∧ (data = none → t'.failed = true) ∧ .allDone ∉ out := by
  have opened : Keeps t (t.setFile i { f with readerOpen := true }) := (Keeps.refl t).file _ hf rfl
  have failing : ∀ code message,
      Keeps t ((t.setFile i { f with readerOpen := true }).fail code message).1 ∧
        ((t.setFile i { f with readerOpen := true }).fail code message).1.failed = true ∧
        .allDone ∉ ((t.setFile i { f with readerOpen := true }).fail code message).2 := by
    intro code message
    refine ⟨opened.trans (keeps_fail _ _ _), failed_fail _ _ _, ?_⟩
    unfold fail
    split <;> simp
  unfold readBlocks at h
  simp only at h
  split at h
  · cases h
    exact ⟨(failing _ _).1, fun _ => (failing _ _).2.1, (failing _ _).2.2⟩
  · split at h
    · cases h
      exact ⟨(failing _ _).1, fun _ => (failing _ _).2.1, (failing _ _).2.2⟩
    · split at h
      · cases h
        exact ⟨(failing _ _).1, fun _ => (failing _ _).2.1, (failing _ _).2.2⟩
      · split at h
        · cases h
          exact ⟨opened, by simp, by simp⟩
        · cases h
          exact ⟨(failing _ _).1, fun _ => (failing _ _).2.1, (failing _ _).2.2⟩

/-- `SendBlock` returns false only if the engine was stopped or failed. -/
theorem trySend_spec {f : FileTx} {block : UInt32} {payload : Bytes} {repair : Bool}
    {sent : Option Bool} (h : t.trySend io f block payload repair = (t', out, sent)) :
    Keeps t t' ∧ t'.tx = t.tx ∧ t'.pc = t.pc ∧
      (sent = some false → t'.stop = true ∨ t'.failed = true) ∧ .allDone ∉ out := by
  unfold trySend at h
  split at h
  · rename_i hstop
    cases h
    exact ⟨.refl t, rfl, rfl, fun _ => .inl hstop, by simp⟩
  · simp only at h
    split at h
    · cases h
      exact ⟨⟨rfl, rfl, rfl, id, fun _ h => .inl h⟩, rfl, rfl, by simp, by simp⟩
    · split at h
      · cases h
        exact ⟨.refl t, rfl, rfl, by simp, by simp⟩
      · split at h
        · cases h
          refine ⟨?_, ?_, ?_, fun _ => .inr (failed_fail _ _ _), ?_⟩
          · have marked : Keeps t { t with linkDownSinceMs := t.downSince io } :=
              ⟨rfl, rfl, rfl, id, fun _ h => .inl h⟩
            exact marked.trans (keeps_fail _ _ _)
          all_goals
            unfold fail
            split <;> simp
        · cases h
          exact ⟨⟨rfl, rfl, rfl, id, fun _ h => .inl h⟩, rfl, rfl, by simp, by simp⟩

theorem dropOldRepairs_shared (f : FileTx) : (dropOldRepairs f).shared = f.shared := by
  unfold dropOldRepairs
  split <;> rfl

/-! ## One step -/

/-- The files the file loop has passed. -/
def passed (n : Nat) : SenderPc → Nat
  | .file i => i
  | .sweepRead i _ => i
  | .sweepBlock i _ => i
  | .sweepSend i _ => i
  | .sweepMark i _ => i
  | .announce i => i
  | .inner i => i + 1
  | .repairPass r => byCaller n r.caller
  | .repairRun _ _ r => byCaller n r.caller
  | .repairSend _ _ _ r => byCaller n r.caller
  | .drain => n
  | .finish => n
  | .exited => n
where
  byCaller (n : Nat) : RepairCaller → Nat
    | .sweep i _ => i
    | .inner i => i + 1
    | .drain => n

/-- What a step of the sender thread does to the list of files that have been passed: nothing
    is passed unless it is put in flight, except when the engine is stopped or failed. -/
structure Moves (t t' : Sender) (out : List TxEvent) : Prop extends Keeps t t' where
  progress : t'.stop = true ∨ t'.failed = true ∨
    ∀ j, j < t.tx.length → j < passed t.tx.length t'.pc →
      j < passed t.tx.length t.pc ∨ j ∈ t'.inflight ∨ t.okAt j
  finish : t'.pc = .finish → t'.stop = true ∨ t'.failed = true ∨ t'.inflight = []
  noDone : .allDone ∉ out

theorem moves_same (keeps : Keeps t t')
    (hpc : passed t.tx.length t'.pc ≤ passed t.tx.length t.pc) (hfin : t'.pc ≠ .finish)
    (noDone : .allDone ∉ out) : Moves t t' out :=
  ⟨keeps, .inr (.inr fun j _ hj => .inl (by omega)), fun h => absurd h hfin, noDone⟩

theorem moves_halted (keeps : Keeps t t') (halted : t'.stop = true ∨ t'.failed = true)
    (noDone : .allDone ∉ out) : Moves t t' out :=
  ⟨keeps, halted.imp_right .inl, fun _ => halted.imp_right .inl, noDone⟩

theorem halted_repairBroken {caller : RepairCaller} (h : t.stop = true ∨ t.failed = true) :
    (t.repairBroken caller).stop = true ∨ (t.repairBroken caller).failed = true := by
  cases caller <;> exact h

theorem passed_repairDone (n : Nat) (caller : RepairCaller) :
    passed n (repairDone caller) = passed.byCaller n caller ∧ repairDone caller ≠ .finish := by
  cases caller <;> simp [repairDone, passed, passed.byCaller]

theorem moves_repairPassStep {r : RepairLocals} (hpc : t.pc = .repairPass r) :
    Moves t (t.repairPassStep r) [] := by
  unfold repairPassStep
  split
  · refine moves_same ((Keeps.refl t).pc _) ?_ (passed_repairDone 0 _).2 (by simp)
    rw [hpc]
    exact le_of_eq (passed_repairDone _ _).1
  · rename_i i rest hfiles
    have next : Moves t { t with pc := .repairPass (nextFile r) } [] := by
      refine moves_same ((Keeps.refl t).pc _) ?_ (by simp) (by simp)
      rw [hpc]
      exact le_rfl
    split
    · exact next
    · rename_i f hf
      split
      · exact next
      · split
        · exact next
        · refine moves_same ?_ ?_ (by simp) (by simp)
          · exact ((Keeps.refl t).file _ hf (dropOldRepairs_shared f)).pc _
          · rw [hpc]
            exact le_rfl

theorem moves_repairRunStep {holes : List SackRun} {block : UInt32} {r : RepairLocals}
    (hpc : t.pc = .repairRun holes block r)
    (h : t.repairRunStep io holes block r = some (t', out)) : Moves t t' out := by
  have same : ∀ holes' block', Moves t { t with pc := .repairRun holes' block' r } [] := by
    intro holes' block'
    refine moves_same ((Keeps.refl t).pc _) ?_ (by simp) (by simp)
    rw [hpc]
    exact le_rfl
  have done : Moves t { t with pc := repairDone r.caller } [] := by
    refine moves_same ((Keeps.refl t).pc _) ?_ (passed_repairDone 0 _).2 (by simp)
    rw [hpc]
    exact le_of_eq (passed_repairDone _ _).1
  unfold repairRunStep at h
  split at h
  · cases h
  · split at h
    · cases h
    · cases h
      split
      · exact done
      · refine moves_same ((Keeps.refl t).pc _) ?_ (by simp) (by simp)
        rw [hpc]
        exact le_rfl
    · rename_i f run rest hf
      split at h
      · cases h
        exact done
      · split at h
        · cases h
          exact same _ _
        · split at h
          · cases h
            exact same _ _
          · split at h
            · cases h
              exact same _ _
            · split at h
              · rename_i hstop
                cases h
                exact moves_halted ((Keeps.refl t).repairBroken _)
                  (halted_repairBroken (.inl hstop)) (by simp)
              · split at h
                · cases h
                · split at h
                  · rename_i mid out' hread
                    cases h
                    obtain ⟨keeps, failed, noDone⟩ := readBlocks_spec hf hread
                    exact moves_halted (keeps.repairBroken _)
                      (halted_repairBroken (.inr (failed rfl))) noDone
                  · rename_i mid out' payload hread
                    cases h
                    obtain ⟨keeps, -, noDone⟩ := readBlocks_spec hf hread
                    refine moves_same (keeps.pc _) ?_ (by simp) noDone
                    rw [hpc]
                    exact le_rfl

theorem moves_repairSendStep {holes : List SackRun} {block : UInt32} {payload : Bytes}
    {r : RepairLocals} (hpc : t.pc = .repairSend holes block payload r)
    (h : t.repairSendStep io holes block payload r = some (t', out)) : Moves t t' out := by
  unfold repairSendStep at h
  split at h
  · cases h
  · split at h
    · cases h
    · rename_i i rest hfiles f hf
      split at h
      all_goals
        rename_i mid out' hsend
        obtain ⟨keeps, htx, hmid, halted, noDone⟩ := trySend_spec hsend
        cases h
      · refine moves_same keeps ?_ (by simp [hmid, hpc]) noDone
        rw [hmid]
      · exact moves_halted (keeps.repairBroken _) (halted_repairBroken (halted rfl)) noDone
      · refine moves_same ((keeps.file _ (f := f) (by rw [htx]; exact hf) (by rfl)).pc _) ?_ (by simp) noDone
        rw [hpc]
        exact le_rfl

theorem moves_sweepStep {i : Nat} {s : Sweep} {f : FileTx} (hpc : t.pc = .sweepRead i s)
    (hf : t.tx[i]? = some f) (h : t.sweepStep sha io i s f = some (t', out)) : Moves t t' out := by
  unfold sweepStep at h
  split at h
  · cases h
    refine moves_same (((Keeps.refl t).file _ hf (by rfl)).pc _) ?_ (by simp) (by simp)
    rw [hpc]
    exact le_rfl
  · split at h
    · rename_i hstop
      cases h
      exact moves_halted (Keeps.refl t).leaveFiles (.inl hstop) (by simp)
    · split at h
      · cases h
      · simp only at h
        split at h
        · rename_i mid out' hread
          cases h
          obtain ⟨keeps, failed, noDone⟩ := readBlocks_spec hf hread
          exact moves_halted keeps.leaveFiles (.inr (failed rfl)) noDone
        · rename_i mid out' bytes hread
          cases h
          obtain ⟨keeps, -, noDone⟩ := readBlocks_spec hf hread
          refine moves_same (keeps.pc _) ?_ (by simp) noDone
          rw [hpc]
          exact le_rfl

theorem moves_sweepMarkStep {i : Nat} {s : Sweep} {f : FileTx} (hpc : t.pc = .sweepMark i s)
    (hf : t.tx[i]? = some f) : Moves t (t.sweepMarkStep io i s f) [] := by
  have marked := (Keeps.refl t).file
    { f with sweepMs := f.sweepMs.set (s.block / kBucketBlocks).toNat io.now } hf rfl
  unfold sweepMarkStep
  simp only
  split
  · refine moves_same ((marked.trans (keeps_reapInflight _)).pc _) ?_ (by simp [enterRepair])
      (by simp)
    rw [hpc]
    exact le_rfl
  · refine moves_same (marked.pc _) ?_ (by simp) (by simp)
    rw [hpc]
    exact le_rfl

theorem moves_announce {i : Nat} {f : FileTx} (hpc : t.pc = .announce i) (hf : t.tx[i]? = some f)
    (hdone : .allDone ∉ out) :
    Moves t { t.setFile i { f with announced := true } with
      inflight := t.inflight ++ [i], pc := .inner i } out := by
  have marked := (Keeps.refl t).file { f with announced := true } hf rfl
  refine ⟨⟨marked.shared, rfl, rfl, id, fun j hj => .inl (List.mem_append_left _ hj)⟩, ?_, by simp,
    hdone⟩
  refine .inr (.inr fun j _ hj => ?_)
  simp only [passed] at hj
  rw [hpc]
  obtain hlt | heq := Nat.lt_succ_iff_lt_or_eq.mp hj
  · exact .inl hlt
  · exact .inr (.inl (by simp [heq]))

/-- What a step of the sender thread does: it moves on, or it announces that all is done, and
    then it had nothing left and was neither stopped nor failed. -/
theorem senderStep_cases (h : t.senderStep sha io = some (t', out)) :
    Moves t t' out ∨
    (t.pc = .finish ∧ t.stop = false ∧ t.failed = false ∧
      t'.tx.map FileTx.shared = t.tx.map FileTx.shared ∧ t'.stop = t.stop ∧
      t'.failed = t.failed ∧ t'.inflight = t.inflight ∧ t'.pc = .exited) := by
  unfold senderStep at h
  split at h
  -- The head of the file loop.
  case h_1 i hpc =>
    split at h
    · rename_i hnone
      cases h
      left
      refine ⟨(Keeps.refl t).leaveFiles, .inr (.inr fun j hj _ => .inl ?_), by simp [leaveFiles],
        by simp⟩
      rw [hpc]
      have := List.getElem?_eq_none_iff.mp hnone
      simp only [passed]
      omega
    · rename_i f hf
      split at h
      · rename_i halted
        cases h
        exact .inl (moves_halted (Keeps.refl t).leaveFiles (by simpa [leaveFiles] using halted)
          (by simp))
      · split at h
        · rename_i hok
          cases h
          left
          refine ⟨(Keeps.refl t).pc _, .inr (.inr fun j _ hj => ?_), by simp, by simp⟩
          rw [hpc]
          simp only [passed] at hj ⊢
          obtain hlt | heq := Nat.lt_succ_iff_lt_or_eq.mp hj
          · exact .inl hlt
          · exact .inr (.inr ⟨f, heq ▸ hf, hok⟩)
        · split at h
          · cases h
            left
            refine moves_same ?_ ?_ (by simp) (by simp)
            · exact ⟨map_set_eq_self hf rfl, rfl, rfl, id, fun _ h => .inl h⟩
            · rw [hpc]
              exact le_rfl
          · cases h
            left
            refine moves_same ⟨rfl, rfl, rfl, id, fun _ h => .inl h⟩ ?_ (by simp) (by simp)
            rw [hpc]
            exact le_rfl
  -- The sweep reads a chunk.
  case h_2 i s hpc =>
    obtain ⟨f, hf, h⟩ := Option.bind_eq_some_iff.mp h
    exact .inl (moves_sweepStep hpc hf h)
  -- A block of the chunk, which is skipped or sent.
  case h_3 i s hpc =>
    obtain ⟨f, hf, h⟩ := Option.map_eq_some_iff.mp h
    left
    have same : ∀ pc, passed t.tx.length pc = i → pc ≠ .finish → Moves t { t with pc := pc } [] := by
      intro pc hi hfin
      refine moves_same ((Keeps.refl t).pc _) ?_ hfin (by simp)
      rw [hpc]
      exact le_of_eq hi
    split at h
    · cases h
      exact same _ rfl (by simp)
    · split at h
      · cases h
        exact same _ rfl (by simp)
      · split at h
        · rename_i hstop
          cases h
          exact moves_halted (Keeps.refl t).leaveFiles (.inl hstop) (by simp)
        · cases h
          exact same _ rfl (by simp)
  -- `TrySend` of that block: it waits, the link is closed, or the block is sent.
  case h_4 i s hpc =>
    obtain ⟨f, hf, h⟩ := Option.map_eq_some_iff.mp h
    left
    split at h
    all_goals
      rename_i mid out' hsend
      obtain ⟨keeps, -, hmid, halted, noDone⟩ := trySend_spec hsend
      cases h
    · refine moves_same keeps ?_ (by simp [hmid, hpc]) noDone
      rw [hmid]
    · exact moves_halted keeps.leaveFiles (halted rfl) noDone
    · refine moves_same (keeps.pc _) ?_ (by simp) noDone
      rw [hpc]
      exact le_rfl
  -- After the block, where a repair may be due.
  case h_5 i s hpc =>
    obtain ⟨f, hf, h⟩ := Option.map_eq_some_iff.mp h
    cases h
    exact .inl (moves_sweepMarkStep hpc hf)
  -- `file_done` goes out, and the file is in flight.
  case h_6 i hpc =>
    obtain ⟨f, hf, h⟩ := Option.map_eq_some_iff.mp h
    cases h
    exact .inl (moves_announce hpc hf (by split <;> simp))
  -- The wait for room in `inflight_`.
  case h_7 i hpc =>
    left
    split at h
    · rename_i halted
      cases h
      exact moves_halted ((Keeps.refl t).pc _) (by simpa using halted) (by simp)
    · simp only at h
      split at h
      all_goals
        cases h
        refine moves_same ((keeps_reapInflight t).pc _) ?_ (by simp [enterRepair]) (by simp)
        rw [hpc]
        exact le_rfl
  -- The wait for the last files.
  case h_8 hpc =>
    left
    split at h
    · rename_i halted
      cases h
      exact moves_halted ((Keeps.refl t).pc _) (by simpa using halted) (by simp)
    · simp only at h
      split at h
      · rename_i hempty
        cases h
        refine ⟨(keeps_reapInflight t).pc _, .inr (.inr fun j hj _ => .inl ?_), fun _ => ?_, by simp⟩
        · rw [hpc]
          exact hj
        · exact .inr (.inr (by simpa using hempty))
      · cases h
        refine moves_same ((keeps_reapInflight t).pc _) ?_ (by simp [enterRepair]) (by simp)
        rw [hpc]
        exact le_rfl
  -- A repair pass.
  case h_9 r hpc =>
    cases h
    exact .inl (moves_repairPassStep hpc)
  case h_10 holes block r hpc => exact .inl (moves_repairRunStep hpc h)
  case h_11 holes block payload r hpc => exact .inl (moves_repairSendStep hpc h)
  -- The readers are closed, and the end is reported unless the thread was stopped.
  case h_12 hpc =>
    have closed : t.tx.map (FileTx.shared ∘ fun f => { f with readerOpen := false }) =
        t.tx.map FileTx.shared := rfl
    simp only at h
    split at h
    · rename_i halted
      cases h
      left
      refine moves_halted ⟨by rw [List.map_map, closed], rfl, rfl, id, fun _ h => .inl h⟩ ?_ (by simp)
      simpa using halted
    · rename_i running
      cases h
      right
      simp only [Bool.or_eq_true, not_or, Bool.not_eq_true] at running
      exact ⟨hpc, running.1, running.2, by rw [List.map_map, closed], rfl, rfl, rfl, rfl⟩
  case h_13 => cases h

/-- The sender thread changes no field of a file that another thread uses. -/
theorem shared_of_senderStep (h : t.senderStep sha io = some (t', out)) :
    t'.tx.map FileTx.shared = t.tx.map FileTx.shared := by
  obtain moves | ⟨-, -, -, hshared, -⟩ := senderStep_cases h
  · exact moves.shared
  · exact hshared

/-! ## What only the other threads change -/

/-- The flag and the totals that only calls of the other threads change. -/
def outer (t : Sender) : Bool × UInt32 × UInt64 := (t.paused, t.filesDone, t.bytesAcked)

theorem outer_fail (t : Sender) (code message : Bytes) : (t.fail code message).1.outer = t.outer := by
  unfold fail
  split <;> rfl

theorem outer_repairBroken (t : Sender) (caller : RepairCaller) :
    (t.repairBroken caller).outer = t.outer := by
  cases caller <;> rfl

theorem outer_readBlocks {i : Nat} {f : FileTx} {first count : UInt32} {data : Option Bytes}
    (h : t.readBlocks io i f first count = (t', out, data)) : t'.outer = t.outer := by
  unfold readBlocks at h
  simp only at h
  split at h
  · cases h
    exact outer_fail _ _ _
  · split at h
    · cases h
      exact outer_fail _ _ _
    · split at h
      · cases h
        exact outer_fail _ _ _
      · split at h
        · cases h
          rfl
        · cases h
          exact outer_fail _ _ _

theorem outer_trySend {f : FileTx} {block : UInt32} {payload : Bytes} {repair : Bool}
    {sent : Option Bool} (h : t.trySend io f block payload repair = (t', out, sent)) :
    t'.outer = t.outer := by
  unfold trySend at h
  split at h
  · cases h
    rfl
  · simp only at h
    split at h
    · cases h
      rfl
    · split at h
      · cases h
        rfl
      · split at h
        · cases h
          exact outer_fail _ _ _
        · cases h
          rfl

theorem outer_repairPassStep (t : Sender) (r : RepairLocals) :
    (t.repairPassStep r).outer = t.outer := by
  unfold repairPassStep
  split
  · rfl
  · split
    · rfl
    · split
      · rfl
      · split <;> rfl

theorem outer_repairRunStep {holes : List SackRun} {block : UInt32} {r : RepairLocals}
    (h : t.repairRunStep io holes block r = some (t', out)) : t'.outer = t.outer := by
  unfold repairRunStep at h
  split at h
  · cases h
  · split at h
    · cases h
    · cases h
      rfl
    · split at h
      · cases h
        rfl
      · split at h
        · cases h
          rfl
        · split at h
          · cases h
            rfl
          · split at h
            · cases h
              rfl
            · split at h
              · cases h
                exact outer_repairBroken _ _
              · split at h
                · cases h
                · split at h
                  · rename_i hread
                    cases h
                    exact (outer_repairBroken _ _).trans (outer_readBlocks hread)
                  · rename_i hread
                    cases h
                    exact (outer_readBlocks hread :)

theorem outer_repairSendStep {holes : List SackRun} {block : UInt32} {payload : Bytes}
    {r : RepairLocals} (h : t.repairSendStep io holes block payload r = some (t', out)) :
    t'.outer = t.outer := by
  unfold repairSendStep at h
  split at h
  · cases h
  · split at h
    · cases h
    · split at h
      · rename_i hsend
        cases h
        exact (outer_trySend hsend :)
      · rename_i hsend
        cases h
        exact (outer_repairBroken _ _).trans (outer_trySend hsend)
      · rename_i hsend
        cases h
        exact (outer_trySend hsend :)

theorem outer_sweepStep {i : Nat} {s : Sweep} {f : FileTx}
    (h : t.sweepStep sha io i s f = some (t', out)) : t'.outer = t.outer := by
  unfold sweepStep at h
  split at h
  · cases h
    rfl
  · split at h
    · cases h
      rfl
    · split at h
      · cases h
      · simp only at h
        split at h
        · rename_i hread
          cases h
          exact (outer_readBlocks hread :)
        · rename_i hread
          cases h
          exact (outer_readBlocks hread :)

theorem outer_sweepMarkStep (t : Sender) (i : Nat) (s : Sweep) (f : FileTx) :
    (t.sweepMarkStep io i s f).outer = t.outer := by
  unfold sweepMarkStep
  simp only
  split <;> rfl

/-- The sender thread changes none of them. -/
theorem outer_senderStep (h : t.senderStep sha io = some (t', out)) : t'.outer = t.outer := by
  unfold senderStep at h
  split at h
  case h_1 =>
    split at h
    · cases h
      rfl
    · split at h
      · cases h
        rfl
      · split at h
        · cases h
          rfl
        · split at h <;> cases h <;> rfl
  case h_2 =>
    obtain ⟨f, -, h⟩ := Option.bind_eq_some_iff.mp h
    exact outer_sweepStep h
  case h_3 =>
    obtain ⟨f, -, h⟩ := Option.map_eq_some_iff.mp h
    split at h
    · cases h
      rfl
    · split at h
      · cases h
        rfl
      · split at h <;> cases h <;> rfl
  case h_4 =>
    obtain ⟨f, -, h⟩ := Option.map_eq_some_iff.mp h
    split at h <;> rename_i hsend <;> cases h <;> exact (outer_trySend hsend :)
  case h_5 =>
    obtain ⟨f, -, h⟩ := Option.map_eq_some_iff.mp h
    cases h
    exact outer_sweepMarkStep _ _ _ _
  case h_6 =>
    obtain ⟨f, -, h⟩ := Option.map_eq_some_iff.mp h
    cases h
    rfl
  case h_7 =>
    split at h
    · cases h
      rfl
    · simp only at h
      split at h <;> cases h <;> rfl
  case h_8 =>
    split at h
    · cases h
      rfl
    · simp only at h
      split at h <;> cases h <;> rfl
  case h_9 =>
    cases h
    exact outer_repairPassStep _ _
  case h_10 => exact outer_repairRunStep h
  case h_11 => exact outer_repairSendStep h
  case h_12 =>
    simp only at h
    split at h <;> cases h <;> rfl
  case h_13 => cases h

/-! ## The whole run -/

/-- The files that have been passed are acknowledged or in flight, unless the engine was stopped
    or failed; and it has finished only if every file is acknowledged. -/
structure Covered (t : Sender) : Prop where
  passed : t.stop = true ∨ t.failed = true ∨
    ∀ j, j < t.tx.length → j < passed t.tx.length t.pc → j ∈ t.inflight ∨ t.okAt j
  finish : t.pc = .finish → t.stop = true ∨ t.failed = true ∨ t.inflight = []
  finished : t.finished = true → ∀ j, j < t.tx.length → t.okAt j

theorem senderStep_covered (covered : Covered t) (h : t.senderStep sha io = some (t', out)) :
    Covered t' ∧ (.allDone ∈ out → ∀ j, j < t'.tx.length → t'.okAt j) := by
  obtain moves | ⟨hpc, hstop, hfailed, hshared, hstop', hfailed', hinflight, hpc'⟩ :=
    senderStep_cases h
  · refine ⟨⟨?_, moves.finish, ?_⟩, fun hdone => absurd hdone moves.noDone⟩
    · obtain hs | hf | before := covered.passed
      · exact .inl (moves.stop.trans hs)
      · exact .inr (.inl (moves.failed hf))
      · obtain hs | hf | progress := moves.progress
        · exact .inl hs
        · exact .inr (.inl hf)
        · refine .inr (.inr fun j hj hlt => ?_)
          rw [moves.length] at hj hlt
          rw [okAt_of_shared moves.shared]
          obtain hlt | hin | hok := progress j hj hlt
          · obtain hin | hok := before j hj hlt
            · exact moves.inflight j hin
            · exact .inr hok
          · exact .inl hin
          · exact .inr hok
    · intro hfin j hj
      rw [moves.length] at hj
      exact (okAt_of_shared moves.shared).mpr (covered.finished (moves.finished ▸ hfin) j hj)
  · have allOk : ∀ j, j < t.tx.length → t.okAt j := by
      intro j hj
      obtain hs | hf | before := covered.passed
      · simp [hs] at hstop
      · simp [hf] at hfailed
      · obtain hs | hf | hempty := covered.finish hpc
        · simp [hs] at hstop
        · simp [hf] at hfailed
        · obtain hin | hok := before j hj (by rw [hpc]; exact hj)
          · simp [hempty] at hin
          · exact hok
    have length : t'.tx.length = t.tx.length := by simpa using congrArg List.length hshared
    have done : ∀ j, j < t'.tx.length → t'.okAt j := by
      intro j hj
      exact (okAt_of_shared hshared).mpr (allOk j (length ▸ hj))
    exact ⟨⟨.inr (.inr fun j hj _ => .inr (done j hj)), by simp [hpc'], fun _ => done⟩, fun _ => done⟩

/-! ## The other threads -/

/-- A call of another thread leaves the state of the sender thread alone; it acknowledges at
    most the files in `acked`. -/
structure Called (acked : List UInt16) (t t' : Sender) : Prop where
  length : t'.tx.length = t.tx.length
  pc : t'.pc = t.pc
  inflight : t'.inflight = t.inflight
  finished : t'.finished = t.finished
  failed : t'.failed = t.failed
  stop : t.stop = true → t'.stop = true
  kept : ∀ j, t.okAt j → t'.okAt j
  acked : ∀ j, t'.okAt j → t.okAt j ∨ ∃ v ∈ acked, v.toNat = j

theorem Called.refl (acked : List UInt16) (t : Sender) : Called acked t t :=
  ⟨rfl, rfl, rfl, rfl, rfl, id, fun _ => id, fun _ => .inl⟩

theorem Called.trans {acked acked' : List UInt16} (h : Called acked t t')
    (h' : Called acked' t' t'') : Called (acked ++ acked') t t'' where
  length := h'.length.trans h.length
  pc := h'.pc.trans h.pc
  inflight := h'.inflight.trans h.inflight
  finished := h'.finished.trans h.finished
  failed := h'.failed.trans h.failed
  stop := fun hs => h'.stop (h.stop hs)
  kept := fun j hj => h'.kept j (h.kept j hj)
  acked := fun j hj => by
    obtain hj | ⟨v, hv, hvj⟩ := h'.acked j hj
    · obtain hj | ⟨v, hv, hvj⟩ := h.acked j hj
      · exact .inl hj
      · exact .inr ⟨v, List.mem_append_left _ hv, hvj⟩
    · exact .inr ⟨v, List.mem_append_right _ hv, hvj⟩

theorem Called.covered {acked : List UInt16} (h : Called acked t t') (covered : Covered t) :
    Covered t' where
  passed := by
    obtain hs | hf | before := covered.passed
    · exact .inl (h.stop hs)
    · exact .inr (.inl (h.failed.trans hf))
    · refine .inr (.inr fun j hj hlt => ?_)
      rw [h.length] at hj hlt
      rw [h.pc] at hlt
      obtain hin | hok := before j hj hlt
      · exact .inl (h.inflight ▸ hin)
      · exact .inr (h.kept j hok)
  finish := by
    intro hpc
    obtain hs | hf | hempty := covered.finish (h.pc ▸ hpc)
    · exact .inl (h.stop hs)
    · exact .inr (.inl (h.failed.trans hf))
    · exact .inr (.inr (h.inflight.trans hempty))
  finished := by
    intro hfin j hj
    exact h.kept j (covered.finished (h.finished ▸ hfin) j (h.length ▸ hj))

theorem okAt_set {i : Nat} {f f' : FileTx} {j : Nat} (hf : t.tx[i]? = some f) :
    (t.setFile i f').okAt j ↔ if i = j then f'.ok = true else t.okAt j := by
  have hi : i < t.tx.length := (List.getElem?_eq_some_iff.mp hf).1
  unfold okAt setFile
  simp only [List.getElem?_set]
  split
  · rename_i hij
    subst hij
    simp
  · rfl

/-- A call that replaces the state of one file and keeps its acknowledgement. -/
theorem called_setFile {i : Nat} {f f' : FileTx} (hf : t.tx[i]? = some f) (hok : f'.ok = f.ok)
    (bytesAcked : UInt64) (maxLossPermille : UInt16) :
    Called [] t { t with
      tx := t.tx.set i f', bytesAcked := bytesAcked, maxLossPermille := maxLossPermille } := by
  have same : ∀ j, (t.setFile i f').okAt j ↔ t.okAt j := by
    intro j
    rw [okAt_set hf, hok]
    split
    · rename_i hij
      subst hij
      simp [okAt, hf]
    · rfl
  exact ⟨List.length_set, rfl, rfl, rfl, rfl, id, fun j hj => (same j).mpr hj,
    fun j hj => .inl ((same j).mp hj)⟩

/-- A call that acknowledges one file. -/
theorem called_ok {index : UInt16} {f f' : FileTx} (hf : t.tx[index.toNat]? = some f)
    (hok : f'.ok = true) (bytesAcked : UInt64) (filesDone : UInt32) :
    Called [index] t { t with
      tx := t.tx.set index.toNat f', bytesAcked := bytesAcked, filesDone := filesDone } := by
  refine ⟨List.length_set, rfl, rfl, rfl, rfl, id, fun j hj => ?_, fun j hj => ?_⟩
  · refine (okAt_set hf).mpr ?_
    split
    · exact hok
    · exact hj
  · have hj := (okAt_set hf).mp hj
    split at hj
    · rename_i hij
      exact .inr ⟨index, List.mem_singleton_self _, hij⟩
    · exact .inl hj

theorem called_onSack (t : Sender) (data : Bytes) : Called [] t (t.onSack data) := by
  unfold onSack
  split
  · exact .refl _ t
  · split
    · exact .refl _ t
    · rename_i f hf
      simp only
      split
      · exact .refl _ t
      · exact called_setFile hf (by rfl) _ _

theorem called_onFileBad (t : Sender) (index : UInt16) : Called [] t (t.onFileBad index) := by
  unfold onFileBad
  split
  · exact .refl _ t
  · rename_i f hf
    split
    · exact .refl _ t
    · exact called_setFile hf (by rfl) _ _

theorem called_onFileOk (t : Sender) (index : UInt16) : Called [index] t (t.onFileOk index) := by
  unfold onFileOk
  split
  · exact .refl _ t
  · rename_i f hf
    split
    · exact .refl _ t
    · exact called_ok hf (by rfl) _ _

theorem called_requestStop (t : Sender) : Called [] t t.requestStop :=
  ⟨rfl, rfl, rfl, rfl, rfl, fun _ => rfl, fun _ => id, fun _ => .inl⟩

theorem called_startVerified (verified : List UInt16) (t : Sender) :
    Called verified t (verified.foldl startVerified t) := by
  induction verified generalizing t with
  | nil => exact .refl _ t
  | cons v rest ih =>
    have first : Called [v] t (startVerified t v) := by
      unfold startVerified
      split
      · exact .refl _ t
      · rename_i f hf
        exact called_ok hf (by rfl) _ _
    exact first.trans (ih _)

/-- A sender that has just been started. -/
theorem start_covered (m : Manifest) (runs : List (UInt16 × List SackRun))
    (verified : List UInt16) :
    Covered (start m runs verified) ∧ (start m runs verified).tx.length = m.files.length ∧
      ∀ j, (start m runs verified).okAt j → ∃ v ∈ verified, v.toNat = j := by
  have called := called_startVerified verified
    { tx := m.files.mapIdx (startFile runs), pc := .file 0 }
  refine ⟨called.covered ⟨.inr (.inr fun j _ hj => ?_), by simp, by simp⟩, ?_, fun j hj => ?_⟩
  · exact absurd hj (Nat.not_lt_zero j)
  · exact called.length.trans (List.length_mapIdx ..)
  · obtain ⟨f, hf, hok⟩ | hv := called.acked j hj
    · simp only [List.getElem?_mapIdx, Option.map_eq_some_iff] at hf
      obtain ⟨mf, -, rfl⟩ := hf
      cases hok
    · exact hv

/-! ## The stored SACKs -/

/-- No SACK is stored or forgotten. -/
def KeepsSacks (t t' : Sender) : Prop :=
  ∀ (j : Nat) (f' : FileTx), t'.tx[j]? = some f' →
    ∃ f, t.tx[j]? = some f ∧ f'.sack = f.sack ∧ f'.sackSeq = f.sackSeq

theorem keepsSacks_of_shared (h : t'.tx.map FileTx.shared = t.tx.map FileTx.shared) :
    KeepsSacks t t' := by
  intro j f' hf'
  have hj := shared_getElem? h j
  rw [hf'] at hj
  cases hf : t.tx[j]? with
  | none => simp [hf] at hj
  | some f =>
    rw [hf, Option.map_some, Option.map_some] at hj
    have hshared := Option.some.inj hj
    have hsack := congrArg FileTx.sack hshared
    have hseq := congrArg FileTx.sackSeq hshared
    exact ⟨f, rfl, hsack, hseq⟩

/-- The state of one file has been replaced. -/
theorem tx_set_cases {i j : Nat} {g f' : FileTx} (hf' : (t.tx.set i g)[j]? = some f') :
    (j = i ∧ f' = g) ∨ j ≠ i ∧ t.tx[j]? = some f' := by
  rw [List.getElem?_set] at hf'
  split at hf'
  · rename_i hij
    split at hf'
    · cases hf'
      exact .inl ⟨hij.symm, rfl⟩
    · cases hf'
  · rename_i hij
    exact .inr ⟨fun h => hij h.symm, hf'⟩

theorem keepsSacks_onFileOk (t : Sender) (index : UInt16) : KeepsSacks t (t.onFileOk index) := by
  intro j f' hf'
  unfold onFileOk at hf'
  split at hf'
  · exact ⟨f', hf', rfl, rfl⟩
  · rename_i f hf
    split at hf'
    · exact ⟨f', hf', rfl, rfl⟩
    · obtain ⟨rfl, rfl⟩ | ⟨-, hf'⟩ := tx_set_cases hf'
      · exact ⟨f, hf, rfl, rfl⟩
      · exact ⟨f', hf', rfl, rfl⟩

/-- `OnFileBad` forgets the SACK of a file that is not acknowledged, and no other. -/
theorem onFileBad_file {index : UInt16} {j : Nat} {f' : FileTx}
    (hf' : (t.onFileBad index).tx[j]? = some f') :
    f'.sackSeq = 0 ∨ t.tx[j]? = some f' ∧ (j = index.toNat → f'.ok = true) := by
  unfold onFileBad at hf'
  split at hf'
  · rename_i hnone
    refine .inr ⟨hf', fun h => ?_⟩
    rw [h, hnone] at hf'
    cases hf'
  · rename_i f hf
    split at hf'
    · rename_i hok
      refine .inr ⟨hf', fun h => ?_⟩
      rw [h, hf] at hf'
      cases hf'
      exact hok
    · obtain ⟨rfl, rfl⟩ | ⟨hne, hf'⟩ := tx_set_cases hf'
      · exact .inl rfl
      · exact .inr ⟨hf', fun h => absurd h hne⟩

/-- `OnSack` stores the SACK with its file, or changes nothing. -/
theorem onSack_file {wire : Bytes} {j : Nat} {f' : FileTx}
    (hf' : (t.onSack wire).tx[j]? = some f') : t.tx[j]? = some f' ∨
      ∃ s, decodeSack wire = some s ∧ s.fileIndex.toNat = j ∧ f'.sack = s := by
  unfold onSack at hf'
  split at hf'
  · exact .inl hf'
  · rename_i s hs
    split at hf'
    · exact .inl hf'
    · simp only at hf'
      split at hf'
      · exact .inl hf'
      · obtain ⟨rfl, rfl⟩ | ⟨-, hf'⟩ := tx_set_cases hf'
        · exact .inr ⟨s, hs, rfl, rfl⟩
        · exact .inl hf'

/-- What holds of a new file, and of one the receiver has verified before, holds of all files when
    the engine starts. -/
theorem forall_start {P : FileTx → Prop} (m : Manifest) (runs : List (UInt16 × List SackRun))
    (verified : List UInt16) (new : ∀ i mf, P (startFile runs i mf))
    (mark : ∀ f, P f → P { f with ok := true, announced := true }) :
    ∀ f ∈ (start m runs verified).tx, P f := by
  suffices ∀ (verified : List UInt16) (t : Sender), (∀ f ∈ t.tx, P f) →
      ∀ f ∈ (verified.foldl startVerified t).tx, P f by
    refine this verified _ fun f hf => ?_
    obtain ⟨i, mf, -, rfl⟩ := List.mem_mapIdx.mp hf
    exact new i _
  intro verified
  induction verified with
  | nil => exact fun t h => h
  | cons v rest ih =>
    intro t h
    refine ih _ fun f hf => ?_
    unfold startVerified at hf
    split at hf
    · exact h f hf
    · rename_i g hg
      obtain hf | rfl := List.mem_or_eq_of_mem_set hf
      · exact h f hf
      · exact mark g (h g (List.mem_of_getElem? hg))

theorem sackSeq_start (m : Manifest) (runs : List (UInt16 × List SackRun))
    (verified : List UInt16) : ∀ f ∈ (start m runs verified).tx, f.sackSeq = 0 :=
  forall_start m runs verified (fun _ _ => rfl) fun _ h => h

end Sender

end CrossTransfer.Transfer
