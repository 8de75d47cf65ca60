import CrossTransfer.Transfer.BatchRun

/-! # The frontier is ahead of new blocks

`AcceptBlock` moves the frontier of a file past each block it takes, so a block that a step marks lies
below the frontier (`Ahead`); the run that is being collected does already (`Behind`). Blocks that were
marked when the engine started may lie above it.
-/

namespace CrossTransfer.Transfer

open CrossTransfer.Library

/-- From `f` to `g` the frontier has not moved back behind a mark, and it is past new ones. -/
def Ahead (f g : FileRx) : Prop :=
  ∀ b, g.bitmap.test b = true → b < g.frontier.toNat ∨ f.bitmap.test b = true ∧ f.frontier ≤ g.frontier

variable {f g : FileRx} {i j b : Nat} {p : Pending}

theorem Ahead.trans {h : FileRx} (hfg : Ahead f g) (hgh : Ahead g h) : Ahead f h := by
  intro b hb
  obtain hnew | ⟨hold, hle⟩ := hgh b hb
  · exact .inl hnew
  · obtain hnew | ⟨hold, hle'⟩ := hfg b hold
    · exact .inl (hnew.trans_le (UInt32.le_iff_toNat_le.mp hle))
    · exact .inr ⟨hold, UInt32.le_trans hle' hle⟩

/-- What the frontier is compared with. -/
def FileRx.marks (f : FileRx) : UInt32 × (Nat → Bool) := (f.frontier, f.bitmap.test)

theorem ahead_of_marks (h : g.marks = f.marks) : Ahead f g := by
  obtain ⟨hfrontier, htest⟩ := Prod.mk.inj h
  intro b hb
  exact .inr ⟨by rw [← htest]; exact hb, hfrontier ▸ UInt32.le_refl _⟩

/-- A file that has started over has no marks. -/
theorem ahead_resetFile (f : FileRx) (writer : Option (Option Nat)) : Ahead f (Receiver.resetFile f writer) := by
  intro b hb
  rw [Receiver.resetFile, BlockBitmap.reset_test] at hb
  cases hb

namespace Receiver

/-- File by file. -/
def AllAhead (t t' : Receiver) : Prop :=
  ∀ (i : Nat) (g : FileRx), t'.rx[i]? = some g → ∃ f, t.rx[i]? = some f ∧ Ahead f g

/-- The run lies behind the frontier of its file. -/
def Behind (t : Receiver) (run : BlockRun) : Prop :=
  ∀ f, t.rx[run.file.toNat]? = some f → ∀ b ∈ run.blocks, b.toNat < f.frontier.toNat

variable {t t' u : Receiver} {fs fs' : Fs} {sha : Bytes → Bytes} {io : Io} {out : List RxEvent}
  {k : WriterCont} {run : BlockRun} {now : UInt32}

theorem AllAhead.trans (h : AllAhead t u) (h' : AllAhead u t') : AllAhead t t' := by
  intro i g hg
  obtain ⟨f', hf', ahead'⟩ := h' i g hg
  obtain ⟨f, hf, ahead⟩ := h i f' hf'
  exact ⟨f, hf, ahead.trans ahead'⟩

theorem allAhead_of_marks (h : t'.rx.map FileRx.marks = t.rx.map FileRx.marks) : AllAhead t t' := by
  intro i g hg
  have hi : (t'.rx[i]?).map FileRx.marks = (t.rx[i]?).map FileRx.marks := by
    rw [← List.getElem?_map, ← List.getElem?_map, h]
  rw [hg] at hi
  obtain ⟨f, hf, heq⟩ := Option.map_eq_some_iff.mp hi.symm
  exact ⟨f, hf, ahead_of_marks heq.symm⟩

theorem allAhead_set (hf : t.rx[i]? = some f) (rx : t'.rx = t.rx.set i g) (h : Ahead f g) :
    AllAhead t t' := by
  intro j f' hf'
  rw [rx, List.getElem?_set] at hf'
  split at hf'
  · rename_i hij
    subst hij
    rw [if_pos (List.getElem?_eq_some_iff.mp hf).1] at hf'
    obtain rfl := Option.some.inj hf'
    exact ⟨f, hf, h⟩
  · exact ⟨f', hf', ahead_of_marks rfl⟩

/-! ## Blocks -/

/-- A block that is taken lies behind the frontier, which moves forward only. -/
theorem frontier_acceptFile {fresh : Bool} (h : acceptFile f p = some (g, fresh)) :
    g.bitmap = f.bitmap ∧ f.frontier.toNat ≤ g.frontier.toNat ∧ p.block.toNat < g.frontier.toNat := by
  unfold acceptFile at h
  split at h
  · cases h
  · rename_i haccepts
    simp only [Bool.or_eq_true, decide_eq_true_eq, not_or, UInt32.not_le] at haccepts
    split at h
    · cases h
    · cases h
      dsimp only
      split
      · rename_i hle
        have hlt := UInt32.lt_iff_toNat_lt.mp haccepts.2
        have hblocks := f.blocks.toNat_lt
        rw [UInt32.le_iff_toNat_le] at hle
        -- The block is within the file, so `block + 1` does not wrap.
        have hnext : (p.block + 1).toNat = p.block.toNat + 1 := by
          rw [UInt32.toNat_add, UInt32.toNat_one, Nat.mod_eq_of_lt (by omega)]
        refine ⟨rfl, ?_, ?_⟩
        · show _ ≤ (p.block + 1).toNat
          omega
        · show _ < (p.block + 1).toNat
          omega
      · rename_i hlt
        rw [UInt32.not_le, UInt32.lt_iff_toNat_lt] at hlt
        exact ⟨rfl, le_rfl, hlt⟩

theorem acceptBlock_ahead (t : Receiver) (p : Pending) :
    AllAhead t (t.acceptBlock p).1 ∧ (∀ run, t.Behind run → (t.acceptBlock p).1.Behind run) ∧
      ((t.acceptBlock p).2 = true → ∀ f, (t.acceptBlock p).1.rx[p.file.toNat]? = some f →
        p.block.toNat < f.frontier.toNat) := by
  unfold acceptBlock
  split
  · exact ⟨allAhead_of_marks rfl, fun _ h => h, nofun⟩
  · rename_i f hf
    split
    · exact ⟨allAhead_of_marks rfl, fun _ h => h, nofun⟩
    · rename_i g fresh haccept
      obtain ⟨hbitmap, hmoved, hpast⟩ := frontier_acceptFile haccept
      have hi := (List.getElem?_eq_some_iff.mp hf).1
      refine ⟨allAhead_set hf rfl ?_, fun run behind f' hf' b hb => ?_, fun _ f' hf' => ?_⟩
      · intro b hb
        rw [hbitmap] at hb
        exact .inr ⟨hb, UInt32.le_iff_toNat_le.mpr hmoved⟩
      · simp only [List.getElem?_set] at hf'
        split at hf'
        · rename_i hfile
          obtain rfl := Option.some.inj hf'
          exact (behind f (hfile ▸ hf) b hb).trans_le hmoved
        · exact behind f' hf' b hb
      · rw [List.getElem?_set_self hi] at hf'
        obtain rfl := Option.some.inj hf'
        exact hpast

theorem marks_fail (t : Receiver) (code message : Bytes) :
    (t.fail code message).1.rx.map FileRx.marks = t.rx.map FileRx.marks := by
  unfold fail
  split <;> rfl

/-- Flushing a run marks its blocks and no others. -/
theorem flushRun_ahead (behind : u.Behind run) (h : u.flushRun io run now k fs = (t', fs', out)) :
    AllAhead u t' ∧ t'.pc.run = none := by
  unfold flushRun at h
  split at h
  · cases h
    exact ⟨allAhead_of_marks rfl, k.toPc_run⟩
  · rename_i f hf
    have failed := marks_fail u (ascii "io") (ascii "write failed: " ++ f.finalPath.getLast?.getD [])
    simp only at h
    split at h
    · split at h
      · cases h
        constructor
        · refine allAhead_set (g := markRun f run) hf rfl fun b hb => ?_
          obtain hold | ⟨block, hblock, rfl⟩ := setBlocks_test run.blocks f.bitmap hb
          · exact .inr ⟨hold, UInt32.le_refl _⟩
          · exact .inl (behind f hf block hblock)
        · dsimp only
          split
          · rfl
          · exact k.toPc_run
      · cases h
        exact ⟨allAhead_of_marks failed, rfl⟩
    · cases h
      exact ⟨allAhead_of_marks failed, rfl⟩

/-- The run goes on with a block that has been taken. -/
theorem behind_extendRun {run : Option BlockRun} (behind : ∀ r, run = some r → u.Behind r)
    (contiguous : ∀ r, run = some r → contiguous r p = true)
    (past : ∀ f, u.rx[p.file.toNat]? = some f → p.block.toNat < f.frontier.toNat) :
    u.Behind (extendRun run p) := by
  cases run with
  | none =>
    intro f hf b hb
    rw [List.mem_singleton.mp hb]
    exact past f hf
  | some r =>
    have hcontiguous := contiguous r rfl
    simp only [Receiver.contiguous, Bool.and_eq_true, beq_iff_eq] at hcontiguous
    intro f hf b hb
    obtain hb | hb := List.mem_append.mp hb
    · exact behind r rfl f hf b hb
    · rw [List.mem_singleton.mp hb]
      exact past f (hcontiguous.1.1 ▸ hf)

/-- A thread that collects no run. -/
theorem behind_of_none (h : t.pc.run = none) : ∀ r, t.pc.run = some r → t.Behind r := by
  intro r hr
  rw [h] at hr
  cases hr

theorem batchStep_ahead {rest : List Pending} {run : Option BlockRun} {dones : List (UInt16 × Bytes)}
    (behind : ∀ r, run = some r → t.Behind r)
    (h : t.batchStep io rest run dones now fs = (t', fs', out)) :
    AllAhead t t' ∧ ∀ r, t'.pc.run = some r → t'.Behind r := by
  unfold batchStep at h
  split at h
  · obtain ⟨ahead, hnone⟩ := flushRun_ahead (behind _ rfl) h
    exact ⟨ahead, behind_of_none hnone⟩
  · cases h
    refine ⟨allAhead_of_marks rfl, behind_of_none ?_⟩
    dsimp only
    split <;> rfl
  · rename_i p rest
    split at h
    · rename_i r hr
      obtain ⟨ahead, hnone⟩ := flushRun_ahead (behind r (Option.filter_eq_some_iff.mp hr).1) h
      exact ⟨ahead, behind_of_none hnone⟩
    · rename_i hr
      obtain ⟨ahead, kept, past⟩ := acceptBlock_ahead t p
      simp only at h
      split at h
      · cases h
        exact ⟨ahead, fun r heq => kept r (behind r heq)⟩
      · rename_i hfresh
        have hnew : (t.acceptBlock p).2 = true := by simpa using hfresh
        have extended : (t.acceptBlock p).1.Behind (extendRun run p) :=
          behind_extendRun (fun r heq => kept r (behind r heq))
            (fun r heq => by simpa [heq] using hr) (past hnew)
        split at h
        · obtain ⟨ahead', hnone⟩ := flushRun_ahead extended h
          exact ⟨ahead.trans ahead', behind_of_none hnone⟩
        · cases h
          refine ⟨ahead, fun r heq => ?_⟩
          obtain rfl := Option.some.inj heq
          exact extended

/-! ## Everything else -/

theorem marks_sendSack (h : t.sendSack i now = some (t', out)) :
    t'.rx.map FileRx.marks = t.rx.map FileRx.marks := by
  unfold sendSack at h
  split at h
  · cases h
    rfl
  · rename_i f hf
    obtain ⟨s, -, heq⟩ := Option.map_eq_some_iff.mp h
    cases heq
    refine map_set_of_eq hf ?_
    rw [FileRx.marks, FileRx.marks]
    congr 1

theorem marks_sendSacks {force : Bool} {n : Nat} (h : sendSacks now force n i t = some (t', out)) :
    t'.rx.map FileRx.marks = t.rx.map FileRx.marks := by
  induction n generalizing i t out with
  | zero =>
    cases h
    rfl
  | succ n ih =>
    rw [sendSacks] at h
    split at h
    · cases h
      rfl
    · split at h
      · split at h
        · cases h
        · rename_i u sent hsend
          obtain ⟨⟨v, more⟩, hmore, heq⟩ := Option.map_eq_some_iff.mp h
          cases heq
          exact (ih hmore).trans (marks_sendSack hsend)
      · exact ih h

theorem marks_initiallyChecked (t : Receiver) : t.initiallyChecked.rx.map FileRx.marks = t.rx.map FileRx.marks := by
  unfold initiallyChecked
  split
  · rw [List.map_map]
    refine List.map_congr_left fun f _ => ?_
    rw [Function.comp]
    split <;> rfl
  · rfl

theorem marks_tailStep (h : t.tailStep io now = some (t', out)) :
    t'.rx.map FileRx.marks = t.rx.map FileRx.marks := by
  have rates : ∀ u : Receiver, (u.updateRates now).rx = u.rx := by
    intro u
    unfold updateRates
    split <;> rfl
  unfold tailStep at h
  simp only at h
  split at h
  · cases h
  · rename_i u sacks hsacks
    have hsent := (marks_sendSacks hsacks).trans (marks_initiallyChecked t)
    split at h
    · cases h
    · rename_i v saved hsaved
      have hkept : v.rx = u.rx := (book_persist hsaved).2.1.trans (rates u)
      split at h
      · obtain ⟨⟨w, final⟩, hfinal, heq⟩ := Option.map_eq_some_iff.mp h
        cases heq
        show w.rx.map FileRx.marks = _
        rw [(book_persist hfinal).2.1, hkept, hsent]
      · cases h
        show v.rx.map FileRx.marks = _
        rw [hkept, hsent]

theorem verify_ahead (h : t.verify sha io i k fs = (t', fs', out)) : AllAhead t t' ∧ t'.pc.run = none := by
  by_cases due : ∃ f, t.rx[i]? = some f ∧ Due f
  swap
  · rw [verify_idle fun f hf hdue => due ⟨f, hf, hdue⟩] at h
    cases h
    exact ⟨allAhead_of_marks rfl, k.toPc_run⟩
  obtain ⟨f, hf, due⟩ := due
  cases hstop : t.stop with
  | true =>
    rw [verify_stopped hf due hstop] at h
    cases h
    exact ⟨allAhead_set hf rfl (ahead_of_marks rfl), k.toPc_run⟩
  | false =>
    cases hashed : hashFile io fs f with
    | none =>
      rw [verify_unread hf due hstop hashed] at h
      cases h
      refine ⟨allAhead_of_marks ((marks_fail _ _ _).trans ?_), k.toPc_run⟩
      exact map_set_of_eq hf rfl
    | some hashing =>
      by_cases right : sha hashing.2 = f.expectedSha256
      · rw [verify_matched hf due hstop hashed right] at h
        cases h
        exact ⟨allAhead_set hf rfl (ahead_of_marks rfl), rfl⟩
      · rw [verify_mismatch hf due hstop hashed right] at h
        cases h
        exact ⟨allAhead_set hf rfl (ahead_resetFile f _), k.toPc_run⟩

theorem renameFile_ahead (h : t.renameFile io i k fs = (t', fs', out)) : AllAhead t t' ∧ t'.pc.run = none := by
  unfold renameFile at h
  split at h
  · cases h
    exact ⟨allAhead_of_marks rfl, k.toPc_run⟩
  · rename_i f hf
    split at h
    · cases h
      exact ⟨allAhead_of_marks (marks_fail _ _ _), k.toPc_run⟩
    · cases h
      exact ⟨allAhead_set hf rfl (ahead_of_marks rfl), k.toPc_run⟩

/-- Every step of the writer thread keeps the frontiers ahead. -/
theorem writerStep_ahead (behind : ∀ r, t.pc.run = some r → t.Behind r)
    (h : t.writerStep sha io fs = some (t', fs', out)) :
    AllAhead t t' ∧ ∀ r, t'.pc.run = some r → t'.Behind r := by
  unfold writerStep at h
  split at h
  -- The loop condition; a stopped thread persists and leaves.
  case h_1 hpc =>
    split at h
    · obtain ⟨⟨u, saved⟩, hsaved, heq⟩ := Option.map_eq_some_iff.mp h
      cases heq
      refine ⟨allAhead_of_marks ?_, nofun⟩
      show u.rx.map FileRx.marks = _
      rw [(book_persist hsaved).2.1]
    · cases h
      exact ⟨allAhead_of_marks rfl, nofun⟩
  -- The queue and the announced hashes are taken over.
  case h_2 hpc =>
    cases h
    exact ⟨allAhead_of_marks rfl, nofun⟩
  case h_3 rest run dones now hpc =>
    refine batchStep_ahead (fun r hr => behind r ?_) (Option.some.inj h)
    rw [hpc]
    exact hr
  -- The SACK that follows a flushed run.
  case h_4 i now k hpc =>
    obtain ⟨⟨u, sent⟩, hsent, heq⟩ := Option.map_eq_some_iff.mp h
    cases heq
    have hmarks := marks_sendSack hsent
    exact ⟨allAhead_of_marks hmarks, nofun⟩
  case h_5 i k hpc =>
    obtain ⟨ahead, hnone⟩ := verify_ahead (Option.some.inj h)
    exact ⟨ahead, behind_of_none hnone⟩
  case h_6 i k hpc =>
    obtain ⟨ahead, hnone⟩ := renameFile_ahead (Option.some.inj h)
    exact ⟨ahead, behind_of_none hnone⟩
  -- No announced hash is left.
  case h_7 now hpc =>
    cases h
    exact ⟨allAhead_of_marks rfl, nofun⟩
  -- An announced hash, for a file that may not exist.
  case h_8 index hash rest now hpc =>
    split at h
    · cases h
      exact ⟨allAhead_of_marks rfl, nofun⟩
    · rename_i f hf
      cases h
      exact ⟨allAhead_set hf rfl (ahead_of_marks rfl), nofun⟩
  -- The rest of the round.
  case h_9 now hpc =>
    obtain ⟨⟨u, sent⟩, htail, heq⟩ := Option.map_eq_some_iff.mp h
    cases heq
    refine ⟨allAhead_of_marks (marks_tailStep htail), ?_⟩
    obtain ⟨v, finished, pc, -, rfl, hnext⟩ := book_tailStep htail
    obtain rfl | rfl := hnext <;> exact nofun
  case h_10 => cases h

end Receiver

end CrossTransfer.Transfer
