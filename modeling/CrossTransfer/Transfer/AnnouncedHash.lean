import CrossTransfer.Transfer.BatchRun

/-! # The hash that was announced last

`OnFileDone` keeps one hash for each file, the last, until the writer thread takes them all; the thread
stores one after the other with its file. So the hash that is stored with a file is the last one that
was announced, unless one waits (`Announced`).
-/

namespace CrossTransfer.Transfer

open CrossTransfer.Library

/-- The hash announced last for file `i`. -/
def lastHash (as : List ReceiverAct) (i : Nat) : Bytes :=
  as.foldl (fun last a =>
    match a with
    | .fileDone index hash => if index.toNat = i then hash else last
    | _ => last) []

theorem lastHash_fileDone (as : List ReceiverAct) (index : UInt16) (hash : Bytes) (i : Nat) :
    lastHash (as ++ [.fileDone index hash]) i = if index.toNat = i then hash else lastHash as i := by
  simp [lastHash]

theorem lastHash_other (as : List ReceiverAct) {a : ReceiverAct} (h : ∀ index hash, a ≠ .fileDone index hash)
    (i : Nat) : lastHash (as ++ [a]) i = lastHash as i := by
  cases a with
  | fileDone index hash => exact absurd rfl (h index hash)
  | _ => simp [lastHash]

/-! ## One hash for each file -/

/-- The hash for file `i` among those that wait, or else `old`. -/
def hashFor (hashes : List (UInt16 × Bytes)) (i : Nat) (old : Bytes) : Bytes :=
  ((hashes.find? (·.1.toNat == i)).map (·.2)).getD old

variable {hashes : List (UInt16 × Bytes)} {i : Nat} {old hash : Bytes} {index : UInt16}

@[simp] theorem hashFor_nil (i : Nat) (old : Bytes) : hashFor [] i old = old := rfl

theorem hashFor_cons : hashFor ((index, hash) :: hashes) i old =
    if index.toNat = i then hash else hashFor hashes i old := by
  unfold hashFor
  rw [List.find?_cons]
  by_cases h : index.toNat = i
  · simp [h]
  · have hother : (index.toNat == i) = false := by simpa using h
    rw [hother, if_neg h]

theorem hashFor_absent (h : ∀ e ∈ hashes, e.1.toNat ≠ i) (old : Bytes) : hashFor hashes i old = old := by
  unfold hashFor
  rw [List.find?_eq_none.mpr fun e he => by simpa using h e he]
  rfl

theorem hashFor_insertDone : hashFor (Receiver.insertDone index hash hashes) i old =
    if index.toNat = i then hash else hashFor hashes i old := by
  induction hashes with
  | nil => exact hashFor_cons
  | cons e hashes ih =>
    obtain ⟨k, v⟩ := e
    rw [Receiver.insertDone]
    split
    · exact hashFor_cons
    · split
      · rename_i heq
        subst heq
        rw [hashFor_cons, hashFor_cons]
        by_cases h : index.toNat = i
        · simp [h]
        · simp [h]
      · rename_i hne
        rw [hashFor_cons, hashFor_cons, ih]
        by_cases hk : k.toNat = i
        · have hindex : index.toNat ≠ i := fun h => hne (UInt16.toNat_inj.mp (h.trans hk.symm))
          simp [hk, hindex]
        · simp [hk]

theorem sorted_insertDone (h : hashes.Pairwise fun a b => a.1 < b.1) :
    (Receiver.insertDone index hash hashes).Pairwise fun a b => a.1 < b.1 := by
  have keys : ∀ {l : List (UInt16 × Bytes)}, ∀ e ∈ Receiver.insertDone index hash l,
      e.1 = index ∨ e ∈ l := by
    intro l
    induction l with
    | nil => simp [Receiver.insertDone]
    | cons e l ih =>
      obtain ⟨k, v⟩ := e
      intro e he
      rw [Receiver.insertDone] at he
      split at he
      · obtain rfl | he := List.mem_cons.mp he
        · exact .inl rfl
        · exact .inr he
      · split at he
        · obtain rfl | he := List.mem_cons.mp he
          · exact .inl rfl
          · exact .inr (List.mem_cons_of_mem _ he)
        · obtain rfl | he := List.mem_cons.mp he
          · exact .inr List.mem_cons_self
          · exact (ih e he).imp_right (List.mem_cons_of_mem _)
  induction hashes with
  | nil => simp [Receiver.insertDone]
  | cons e hashes ih =>
    obtain ⟨k, v⟩ := e
    obtain ⟨hfirst, hrest⟩ := List.pairwise_cons.mp h
    rw [Receiver.insertDone]
    split
    · rename_i hlt
      refine List.pairwise_cons.mpr ⟨fun e he => ?_, h⟩
      obtain rfl | he := List.mem_cons.mp he
      · exact hlt
      · exact UInt16.lt_trans hlt (hfirst e he)
    · split
      · rename_i heq
        subst heq
        exact List.pairwise_cons.mpr ⟨hfirst, hrest⟩
      · rename_i hnot hne
        refine List.pairwise_cons.mpr ⟨fun e he => ?_, ih hrest⟩
        obtain heq | he := keys e he
        · show k < e.1
          rw [heq]
          exact UInt16.lt_of_le_of_ne (UInt16.not_lt.mp hnot) fun hk => hne hk.symm
        · exact hfirst e he

/-! ## What a step does to hashes -/

namespace Receiver

variable {t t' u : Receiver} {fs fs' : Fs} {sha : Bytes → Bytes} {io : Io} {out : List RxEvent}
  {k : WriterCont} {f g : FileRx} {now : UInt32}

/-- The hashes that wait and those that are stored stay as they are. -/
structure SameHashes (t t' : Receiver) : Prop where
  waiting : t'.pendingDone = t.pendingDone
  taken : t'.pc.hashes = t.pc.hashes
  stored : t'.rx.map (·.expectedSha256) = t.rx.map (·.expectedSha256)

theorem expected_of_cores (h : t'.cores = t.cores) :
    t'.rx.map (·.expectedSha256) = t.rx.map (·.expectedSha256) := by
  have hmap := congrArg (List.map FileRx.expectedSha256) h
  rw [cores, cores, List.map_map, List.map_map] at hmap
  exact hmap

/-- Bookkeeping. -/
theorem Book.sameHashes (h : Book t t') (taken : t'.pc.hashes = t.pc.hashes) : SameHashes t t' :=
  ⟨h.pendingDone, taken, expected_of_cores h.cores⟩

theorem SameHashes.trans (h : SameHashes t u) (h' : SameHashes u t') : SameHashes t t' :=
  ⟨h'.waiting.trans h.waiting, h'.taken.trans h.taken, h'.stored.trans h.stored⟩

/-- What a step does to the hashes. -/
inductive HashStep (t t' : Receiver) : Prop where
  | same (same : SameHashes t t')
  /-- The thread has failed. -/
  | exited (pc : t'.pc = .exited)
  /-- All that wait are taken. -/
  | takes (rx : t'.rx = t.rx) (old : t.pc.hashes = []) (waiting : t'.pendingDone = [])
      (taken : t'.pc.hashes = t.pendingDone)
  /-- The first that was taken is stored. -/
  | stores {index : UInt16} {hash : Bytes} {rest : List (UInt16 × Bytes)}
      (old : t.pc.hashes = (index, hash) :: rest) (waiting : t'.pendingDone = t.pendingDone)
      (taken : t'.pc.hashes = rest) (rx : ∀ (i : Nat) (g : FileRx), t'.rx[i]? = some g →
        ∃ f, t.rx[i]? = some f ∧ g.expectedSha256 = if index.toNat = i then hash else f.expectedSha256)

theorem flushRun_hashes {run : BlockRun} (taken : u.pc.hashes = k.hashes)
    (h : u.flushRun io run now k fs = (t', fs', out)) : SameHashes u t' ∨ t'.pc = .exited := by
  unfold flushRun at h
  split at h
  · cases h
    exact .inl ⟨rfl, k.toPc_hashes.trans taken.symm, rfl⟩
  · rename_i f hf
    simp only at h
    split at h
    · split at h
      · cases h
        refine .inl ⟨rfl, ?_, map_set_of_eq hf rfl⟩
        dsimp only
        split
        · exact taken.symm
        · exact k.toPc_hashes.trans taken.symm
      · cases h
        exact .inr rfl
    · cases h
      exact .inr rfl

theorem batchStep_hashes {rest : List Pending} {run : Option BlockRun} {dones : List (UInt16 × Bytes)}
    (hpc : t.pc = .batch rest run dones now) (h : t.batchStep io rest run dones now fs = (t', fs', out)) :
    SameHashes t t' ∨ t'.pc = .exited := by
  have htaken : t.pc.hashes = dones := by rw [hpc]; rfl
  unfold batchStep at h
  split at h
  · exact flushRun_hashes (by exact htaken) h
  · cases h
    dsimp only
    split
    · exact .inr rfl
    · exact .inl ⟨rfl, htaken.symm, rfl⟩
  · rename_i p rest
    split at h
    · exact flushRun_hashes (by exact htaken) h
    · obtain ⟨book, hsame⟩ := book_acceptBlock t p
      have accepted : SameHashes t (t.acceptBlock p).1 := book.sameHashes (by rw [hsame])
      simp only at h
      split at h
      · cases h
        exact .inl (accepted.trans ⟨rfl, (accepted.taken.trans htaken).symm, rfl⟩)
      · split at h
        · exact (flushRun_hashes (by exact accepted.taken.trans htaken) h).imp_left accepted.trans
        · cases h
          exact .inl (accepted.trans ⟨rfl, (accepted.taken.trans htaken).symm, rfl⟩)

theorem verify_hashes {i : Nat} (hpc : t.pc = .verify i k) (h : t.verify sha io i k fs = (t', fs', out)) :
    SameHashes t t' := by
  have htaken : k.toPc.hashes = t.pc.hashes := by
    rw [hpc]
    exact k.toPc_hashes
  by_cases due : ∃ f, t.rx[i]? = some f ∧ Due f
  swap
  · rw [verify_idle fun f hf hdue => due ⟨f, hf, hdue⟩] at h
    cases h
    exact ⟨rfl, htaken, rfl⟩
  obtain ⟨f, hf, due⟩ := due
  cases hstop : t.stop with
  | true =>
    rw [verify_stopped hf due hstop] at h
    cases h
    exact ⟨rfl, htaken, map_set_of_eq hf rfl⟩
  | false =>
    cases hashed : hashFile io fs f with
    | none =>
      rw [verify_unread hf due hstop hashed] at h
      cases h
      obtain ⟨book, -⟩ := book_fail (t.setFile i { f with verifying := true, writer := none })
        (ascii "io") (ascii "verify read failed")
      have hset : SameHashes t (t.setFile i { f with verifying := true, writer := none }) :=
        ⟨rfl, rfl, map_set_of_eq hf rfl⟩
      exact ⟨book.pendingDone.trans hset.waiting, htaken, (expected_of_cores book.cores).trans hset.stored⟩
    | some hashing =>
      by_cases right : sha hashing.2 = f.expectedSha256
      · rw [verify_matched hf due hstop hashed right] at h
        cases h
        exact ⟨rfl, by rw [hpc]; rfl, map_set_of_eq hf rfl⟩
      · rw [verify_mismatch hf due hstop hashed right] at h
        cases h
        exact ⟨rfl, htaken, map_set_of_eq hf rfl⟩

theorem renameFile_hashes {i : Nat} (hpc : t.pc = .rename i k)
    (h : t.renameFile io i k fs = (t', fs', out)) : SameHashes t t' := by
  have htaken : k.toPc.hashes = t.pc.hashes := by
    rw [hpc]
    exact k.toPc_hashes
  unfold renameFile at h
  split at h
  · cases h
    exact ⟨rfl, htaken, rfl⟩
  · rename_i f hf
    split at h
    · cases h
      obtain ⟨book, -⟩ := book_fail t (ascii "io") (ascii "rename failed: " ++ io.err)
      exact ⟨book.pendingDone, htaken, expected_of_cores book.cores⟩
    · cases h
      exact ⟨rfl, htaken, map_set_of_eq hf rfl⟩

theorem tailStep_hashes (hpc : t.pc = .tail now) (h : t.tailStep io now = some (t', out)) : SameHashes t t' := by
  obtain ⟨v, finished, pc, book, rfl, hnext⟩ := book_tailStep h
  refine ⟨book.pendingDone, ?_, expected_of_cores book.cores⟩
  rw [hpc]
  obtain rfl | rfl := hnext <;> rfl

theorem writerStep_hashes (h : t.writerStep sha io fs = some (t', fs', out)) : HashStep t t' := by
  unfold writerStep at h
  split at h
  -- The loop condition; a stopped thread persists and leaves.
  case h_1 hpc =>
    split at h
    · obtain ⟨⟨u, saved⟩, hsaved, heq⟩ := Option.map_eq_some_iff.mp h
      cases heq
      exact .exited rfl
    · cases h
      exact .same ⟨rfl, by rw [hpc]; rfl, rfl⟩
  -- The queue and the announced hashes are taken over.
  case h_2 hpc =>
    cases h
    exact .takes rfl (by rw [hpc]; rfl) rfl rfl
  case h_3 rest run dones now hpc =>
    obtain same | exited := batchStep_hashes hpc (Option.some.inj h)
    · exact .same same
    · exact .exited exited
  -- The SACK that follows a flushed run.
  case h_4 i now k hpc =>
    obtain ⟨⟨u, sent⟩, hsent, heq⟩ := Option.map_eq_some_iff.mp h
    cases heq
    obtain ⟨book, -, -⟩ := book_sendSack hsent
    exact .same ((book.pc (.verify i k)).sameHashes (by rw [hpc]; rfl))
  case h_5 i k hpc => exact .same (verify_hashes hpc (Option.some.inj h))
  case h_6 i k hpc => exact .same (renameFile_hashes hpc (Option.some.inj h))
  -- No announced hash is left.
  case h_7 now hpc =>
    cases h
    exact .same ⟨rfl, by rw [hpc]; rfl, rfl⟩
  -- An announced hash, for a file that may not exist.
  case h_8 index hash rest now hpc =>
    have hold : t.pc.hashes = (index, hash) :: rest := by rw [hpc]; rfl
    split at h
    · rename_i hnone
      cases h
      refine .stores hold rfl rfl fun i g hg => ⟨g, hg, ?_⟩
      rw [if_neg]
      rintro rfl
      rw [hnone] at hg
      cases hg
    · rename_i f hf
      cases h
      refine .stores hold rfl rfl fun i g hg => ?_
      rw [setFile, List.getElem?_set] at hg
      split at hg
      · rename_i hi
        subst hi
        rw [if_pos (List.getElem?_eq_some_iff.mp hf).1] at hg
        obtain rfl := Option.some.inj hg
        exact ⟨f, hf, (if_pos rfl).symm⟩
      · rename_i hi
        exact ⟨g, hg, (if_neg hi).symm⟩
  -- The rest of the round.
  case h_9 now hpc =>
    obtain ⟨⟨u, sent⟩, htail, heq⟩ := Option.map_eq_some_iff.mp h
    cases heq
    exact .same (tailStep_hashes hpc htail)
  case h_10 => cases h

end Receiver

/-! ## Runs -/

/-- Where the hash is that was announced last for a file. -/
structure Announced (as : List ReceiverAct) (t : Receiver) : Prop where
  waiting : t.pendingDone.Pairwise fun a b => a.1 < b.1
  taken : t.pc.hashes.Pairwise fun a b => a.1 < b.1
  file : ∀ (i : Nat) (f : FileRx), t.rx[i]? = some f →
    hashFor t.pendingDone i (hashFor t.pc.hashes i f.expectedSha256) = lastHash as i

variable {t t' : Receiver} {as : List ReceiverAct}

theorem Announced.same (h : Announced as t) (same : Receiver.SameHashes t t') : Announced as t' := by
  refine ⟨same.waiting ▸ h.waiting, same.taken ▸ h.taken, fun i g hg => ?_⟩
  have hi : (t'.rx[i]?).map (·.expectedSha256) = (t.rx[i]?).map (·.expectedSha256) := by
    rw [← List.getElem?_map, ← List.getElem?_map, same.stored]
  rw [hg] at hi
  obtain ⟨f, hf, heq⟩ := Option.map_eq_some_iff.mp hi.symm
  have hstored : g.expectedSha256 = f.expectedSha256 := heq.symm
  rw [same.waiting, same.taken, hstored]
  exact h.file i f hf

/-- The keys of what is left are larger than the one that has been stored. -/
theorem hashFor_tail {hashes : List (UInt16 × Bytes)} {index : UInt16} {hash old : Bytes}
    (h : ((index, hash) :: hashes).Pairwise fun a b => a.1 < b.1) (i : Nat) :
    hashFor hashes i (if index.toNat = i then hash else old) = hashFor ((index, hash) :: hashes) i old := by
  rw [hashFor_cons]
  split
  · rename_i hi
    subst hi
    refine hashFor_absent (fun e he heq => ?_) hash
    have hlt : index < e.1 := (List.pairwise_cons.mp h).1 e he
    rw [UInt16.lt_iff_toNat_lt] at hlt
    omega
  · rfl

/-- Every step of the writer thread, up to its end. -/
theorem announced_writer {fs fs' : Fs} {sha : Bytes → Bytes} {io : Io} {out : List RxEvent}
    (h : Announced as t) (hstep : t.writerStep sha io fs = some (t', fs', out)) (on : t'.pc ≠ .exited) :
    Announced as t' := by
  cases Receiver.writerStep_hashes hstep with
  | same same => exact h.same same
  | exited pc => exact absurd pc on
  | takes rx old waiting taken =>
    refine ⟨by simp [waiting], taken ▸ h.waiting, fun i g hg => ?_⟩
    have hfile := h.file i g (rx ▸ hg)
    rw [old, hashFor_nil] at hfile
    rw [waiting, hashFor_nil, taken, hfile]
  | stores old waiting taken rx =>
    have hsorted := h.taken
    rw [old] at hsorted
    refine ⟨waiting ▸ h.waiting, taken ▸ (List.pairwise_cons.mp hsorted).2, fun i g hg => ?_⟩
    obtain ⟨f, hf, hstored⟩ := rx i g hg
    have hfile := h.file i f hf
    rw [old] at hfile
    rw [waiting, taken, hstored, hashFor_tail hsorted, hfile]

/-- An action that announces nothing. -/
theorem Announced.snoc (h : Announced as t) {a : ReceiverAct} (ha : ∀ index hash, a ≠ .fileDone index hash) :
    Announced (as ++ [a]) t := by
  refine ⟨h.waiting, h.taken, fun i f hf => ?_⟩
  rw [lastHash_other as ha]
  exact h.file i f hf

theorem announced_fileDone (h : Announced as t) (index : UInt16) (hash : Bytes) :
    Announced (as ++ [.fileDone index hash]) (t.onFileDone index hash) := by
  refine ⟨sorted_insertDone h.waiting, h.taken, fun i f hf => ?_⟩
  have hfile := h.file i f hf
  show hashFor (Receiver.insertDone index hash t.pendingDone) i _ = _
  rw [hashFor_insertDone, lastHash_fileDone]
  split
  · rfl
  · exact hfile

theorem sameHashes_onBlock (t : Receiver) (wire : Bytes) : Receiver.SameHashes t (t.onBlock wire) := by
  unfold Receiver.onBlock
  split
  · exact ⟨rfl, rfl, rfl⟩
  · split
    · exact ⟨rfl, rfl, rfl⟩
    · split <;> exact ⟨rfl, rfl, rfl⟩

variable {sha : Bytes → Bytes} {l : Launch} {s s' : RxState} {a : ReceiverAct} {out : List RxEvent}
  {ok : RxState → ReceiverAct → Prop}

theorem announced_act (h : s.engine.pc ≠ .exited → Announced as s.engine)
    (hstep : s.step sha a = some (s', out)) : s'.engine.pc ≠ .exited → Announced (as ++ [a]) s'.engine := by
  intro on
  cases a with
  | writer io =>
    obtain ⟨⟨t', fs', told⟩, hwriter, heq⟩ := Option.map_eq_some_iff.mp hstep
    cases heq
    have running : s.engine.pc ≠ .exited := by
      intro hpc
      rw [Receiver.writerStep, hpc] at hwriter
      cases hwriter
    exact (announced_writer (h running) hwriter on).snoc (by simp)
  | fileDone index hash =>
    cases hstep
    exact announced_fileDone (h on) index hash
  | block wire =>
    cases hstep
    have same := sameHashes_onBlock s.engine wire
    have hpc := (Receiver.called_onBlock s.engine wire).1.pc
    exact ((h (hpc ▸ on)).same same).snoc (by simp)
  | stop =>
    cases hstep
    have same : Receiver.SameHashes s.engine s.engine.requestStop := ⟨rfl, rfl, rfl⟩
    exact ((h on).same same).snoc (by simp)
  | close =>
    rw [RxState.step] at hstep
    split at hstep
    · rename_i hexited
      cases hstep
      rw [Bool.and_eq_true, beq_iff_eq] at hexited
      exact absurd hexited.2 on
    · cases hstep

theorem announced_start (l : Launch) : Announced [] l.state.engine := by
  have hstart : Receiver.start l.io l.manifest l.saveDir l.names l.resume l.fs =
    (l.state.fs, l.state.engine, l.start.2.2) := rfl
  obtain ⟨-, hwaiting, hpc⟩ := Receiver.idle_of_start hstart
  have htaken : l.state.engine.pc.hashes = [] := by
    obtain hpc | hpc := hpc <;> rw [hpc] <;> rfl
  refine ⟨by simp [hwaiting], by simp [htaken], fun i f hf => ?_⟩
  obtain ⟨mf, mid, bytes, -, hfile⟩ := Receiver.files_of_start hstart hf
  obtain ⟨g, _, hr, started⟩ | ⟨_, hr, -⟩ := Receiver.startFile_cases hfile
  · cases hr
    rw [hwaiting, htaken, hashFor_nil, hashFor_nil, started.expected]
    rfl
  · cases hr

/-- Every run, up to the end of the writer thread. -/
theorem announced_of_run (run : (l.state.machine sha).Run ok as s) :
    s.engine.pc ≠ .exited → Announced as s.engine := by
  induction run with
  | init => exact fun _ => announced_start l
  | step _ _ hstep ih =>
    obtain ⟨⟨s', out⟩, hact, rfl⟩ := Option.map_eq_some_iff.mp hstep
    exact announced_act ih hact

end CrossTransfer.Transfer
