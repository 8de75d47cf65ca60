import CrossTransfer.Transfer.StoredBytes

/-! # The totals of a loss window

The loss estimate compares two totals: the blocks by which the frontiers of the files have moved
(`expected_since_sack`, which `SendSack` moves to `rate_expected_`) and the blocks that were new
(`rate_received_`). A window goes from one renewal of the estimate to the next. `LossWindow` has its
true totals, read off the states before and after each step of the writer thread; the counters of the
engine have 32 bits and hold these totals modulo 2^32 (`Tracks`).
-/

namespace CrossTransfer.Transfer

open CrossTransfer.Library

/-- The totals of a window. -/
structure LossWindow where
  /-- The blocks by which the frontier of each file has moved since the last SACK for it. -/
  since : Nat → Nat
  expected : Nat
  received : Nat

namespace Receiver

variable (t : Receiver)

def frontierAt (i : Nat) : Nat := ((t.rx[i]?).map (·.frontier.toNat)).getD 0

def markedBlocks : Nat := (t.rx.map (·.bitmap.count)).sum

/-- The files that a step of the writer thread sends a SACK for. -/
def sacked : List Nat :=
  match t.pc with
  | .sack i _ _ => [i]
  | .tail now =>
    (List.range' 0 t.initiallyChecked.rx.length).filter fun i =>
      (t.initiallyChecked.rx[i]?).any (sackDue · now false)
  | _ => []

/-- A step renews the estimate. -/
def closesWindow : Bool :=
  match t.pc with
  | .tail now => !decide (now - t.lastRateMs < kRateWindowMs)
  | _ => false

end Receiver

namespace LossWindow

/-- Nothing has happened yet. -/
def fresh : LossWindow := ⟨fun _ => 0, 0, 0⟩

variable (w : LossWindow)

/-- Frontiers have moved and blocks have been marked. -/
def grow (t t' : Receiver) : LossWindow where
  since i := w.since i + (t'.frontierAt i - t.frontierAt i)
  expected := w.expected
  received := w.received + (t'.markedBlocks - t.markedBlocks)

@[simp] theorem grow_since (t t' : Receiver) (i : Nat) :
    (w.grow t t').since i = w.since i + (t'.frontierAt i - t.frontierAt i) := rfl

@[simp] theorem grow_received (t t' : Receiver) :
    (w.grow t t').received = w.received + (t'.markedBlocks - t.markedBlocks) := rfl

/-- A SACK for file `i`. -/
def move (i : Nat) : LossWindow where
  since j := if j = i then 0 else w.since j
  expected := w.expected + w.since i
  received := w.received

@[simp] theorem move_since_self (i : Nat) : (w.move i).since i = 0 := if_pos rfl

theorem move_since_ne {i j : Nat} (h : i ≠ j) : (w.move i).since j = w.since j := if_neg (Ne.symm h)

@[simp] theorem move_received (i : Nat) : (w.move i).received = w.received := rfl

@[simp] theorem move_expected (i : Nat) : (w.move i).expected = w.expected + w.since i := rfl

/-- The SACKs of a step. -/
def moved (t : Receiver) : LossWindow := t.sacked.foldl move w

/-- The next window. -/
def next : LossWindow := { w with expected := 0, received := 0 }

/-- A step of the writer thread from `t` to `t'`. -/
def after (t t' : Receiver) : LossWindow :=
  if t.closesWindow then ((w.grow t t').moved t).next else (w.grow t t').moved t

/-- The share of the expected blocks that have not come, in permille. -/
def permille : Nat := 1000 * (w.expected - w.received) / w.expected

end LossWindow

/-- The steps of the writer thread, as pairs of states. -/
def RxState.writerSteps (sha : Bytes → Bytes) (s : RxState) : ReceiverAct → List (Receiver × Receiver)
  | .writer io => ((s.engine.writerStep sha io s.fs).map fun r => (s.engine, r.1)).toList
  | _ => []

/-- The window that is open after a run. -/
def Launch.lossWindow (l : Launch) (sha : Bytes → Bytes) (as : List ReceiverAct) : LossWindow :=
  ((l.state.machine sha).collect (RxState.writerSteps sha) as l.state).foldl
    (fun w p => w.after p.1 p.2) .fresh

/-- The counters hold the totals modulo 2^32. -/
structure Tracks (w : LossWindow) (t : Receiver) : Prop where
  since : ∀ (i : Nat) (f : FileRx), t.rx[i]? = some f → f.expectedSinceSack = UInt32.ofNat (w.since i)
  absent : ∀ i, t.rx[i]? = none → w.since i = 0
  expected : t.rateExpected = UInt32.ofNat w.expected
  received : t.rateReceived = UInt32.ofNat w.received

/-! ## Steps that change no total -/

/-- What the totals are read off. -/
def FileRx.extent (f : FileRx) : UInt32 × Nat := (f.frontier, f.bitmap.count)

/-- No frontier moves and no block is marked. -/
def Still (t t' : Receiver) : Prop := t'.rx.map FileRx.extent = t.rx.map FileRx.extent

/-- The counters stay as well. -/
structure SameLoss (t t' : Receiver) : Prop where
  still : Still t t'
  since : t'.rx.map (·.expectedSinceSack) = t.rx.map (·.expectedSinceSack)
  expected : t'.rateExpected = t.rateExpected
  received : t'.rateReceived = t.rateReceived

/-- Where nothing is gained the totals stay. -/
theorem LossWindow.grow_of_le {t t' : Receiver} (w : LossWindow)
    (frontier : ∀ i, t'.frontierAt i ≤ t.frontierAt i) (marked : t'.markedBlocks ≤ t.markedBlocks) :
    w.grow t t' = w := by
  unfold grow
  simp only [Nat.sub_eq_zero_of_le (frontier _), Nat.sub_eq_zero_of_le marked, Nat.add_zero]

/-- A step moves frontiers forward, marks blocks and counts both. -/
structure Advances (w : LossWindow) (t t' : Receiver) : Prop where
  tracks : Tracks (w.grow t t') t'
  frontier : ∀ i, t.frontierAt i ≤ t'.frontierAt i
  marked : t.markedBlocks ≤ t'.markedBlocks

section Totals

variable {t t' u : Receiver} {w : LossWindow} {i : Nat} {f g : FileRx}

theorem Still.frontierAt (h : Still t t') (i : Nat) : t'.frontierAt i = t.frontierAt i := by
  have hfile : (t'.rx[i]?).map FileRx.extent = (t.rx[i]?).map FileRx.extent := by
    rw [← List.getElem?_map, ← List.getElem?_map, h]
  have hfrontier := congrArg (fun x => (x.map fun k : UInt32 × Nat => k.1.toNat).getD 0) hfile
  simp only [Option.map_map] at hfrontier
  exact hfrontier

theorem Still.markedBlocks (h : Still t t') : t'.markedBlocks = t.markedBlocks := by
  have hsum := congrArg (fun x => (x.map fun k : UInt32 × Nat => k.2).sum) h
  simp only [List.map_map] at hsum
  exact hsum

theorem Still.grow (h : Still t t') (w : LossWindow) : w.grow t t' = w :=
  w.grow_of_le (fun i => (h.frontierAt i).le) h.markedBlocks.le

theorem SameLoss.refl (t : Receiver) : SameLoss t t := ⟨rfl, rfl, rfl, rfl⟩

theorem SameLoss.trans (h : SameLoss t u) (h' : SameLoss u t') : SameLoss t t' :=
  ⟨h'.still.trans h.still, h'.since.trans h.since, h'.expected.trans h.expected,
    h'.received.trans h.received⟩

/-- A file changes in what the estimate does not look at. -/
theorem same_set (hf : t.rx[i]? = some f) (rx : t'.rx = t.rx.set i g) (hextent : g.extent = f.extent)
    (hsince : g.expectedSinceSack = f.expectedSinceSack)
    (expected : t'.rateExpected = t.rateExpected) (received : t'.rateReceived = t.rateReceived) :
    SameLoss t t' :=
  ⟨by rw [Still, rx, map_set_of_eq hf hextent], by rw [rx, map_set_of_eq hf hsince], expected, received⟩

theorem same_fail (t : Receiver) (code message : Bytes) : SameLoss t (t.fail code message).1 := by
  unfold Receiver.fail
  split
  · exact .refl t
  · exact ⟨rfl, rfl, rfl, rfl⟩

theorem Tracks.of_since (h : Tracks w t)
    (since : t'.rx.map (·.expectedSinceSack) = t.rx.map (·.expectedSinceSack))
    (expected : t'.rateExpected = t.rateExpected) (received : t'.rateReceived = t.rateReceived) :
    Tracks w t' := by
  have hfile : ∀ i : Nat, (t'.rx[i]?).map (·.expectedSinceSack) = (t.rx[i]?).map (·.expectedSinceSack) := by
    intro i
    rw [← List.getElem?_map, ← List.getElem?_map, since]
  refine ⟨fun i f hf => ?_, fun i hi => h.absent i ?_, expected.trans h.expected,
    received.trans h.received⟩
  · have hi := hfile i
    rw [hf] at hi
    obtain ⟨g, hg, heq⟩ := Option.map_eq_some_iff.mp hi.symm
    exact heq.symm.trans (h.since i g hg)
  · have hi' := hfile i
    rw [hi] at hi'
    exact Option.map_eq_none_iff.mp hi'.symm

theorem Tracks.same (h : Tracks w t) (same : SameLoss t t') : Tracks w t' :=
  h.of_since same.since same.expected same.received

theorem Tracks.advances (h : Tracks w t) (same : SameLoss t t') : Advances w t t' := by
  refine ⟨?_, fun i => (same.still.frontierAt i).ge, same.still.markedBlocks.ge⟩
  rw [same.still.grow]
  exact h.same same

theorem Tracks.quiet (h : Tracks w t) (same : SameLoss t t') : Tracks (w.grow t t') t' :=
  (h.advances same).tracks

theorem Advances.trans (h : Advances w t u) (h' : Advances (w.grow t u) u t') : Advances w t t' := by
  have hgrow : (w.grow t u).grow u t' = w.grow t t' := by
    unfold LossWindow.grow
    congr 1
    · funext i
      have hfirst := h.frontier i
      have hsecond := h'.frontier i
      dsimp only
      omega
    · have hfirst := h.marked
      have hsecond := h'.marked
      dsimp only
      omega
  exact ⟨hgrow ▸ h'.tracks, fun i => (h.frontier i).trans (h'.frontier i), h.marked.trans h'.marked⟩

theorem frontierAt_set (hf : t.rx[i]? = some f) (rx : t'.rx = t.rx.set i g) (j : Nat) :
    t'.frontierAt j = if i = j then g.frontier.toNat else t.frontierAt j := by
  unfold Receiver.frontierAt
  rw [rx, List.getElem?_set]
  split
  · rw [if_pos (List.getElem?_eq_some_iff.mp hf).1]
    rfl
  · rfl

theorem markedBlocks_set (hf : t.rx[i]? = some f) (rx : t'.rx = t.rx.set i g) :
    t'.markedBlocks + f.bitmap.count = t.markedBlocks + g.bitmap.count := by
  unfold Receiver.markedBlocks
  rw [rx]
  exact sum_map_set (fun f : FileRx => f.bitmap.count) t.rx g hf

theorem frontierAt_of_file (hf : t.rx[i]? = some f) : t.frontierAt i = f.frontier.toNat := by
  rw [Receiver.frontierAt, hf]
  rfl

/-- One file moves its frontier by `m` blocks and has `n` new ones. -/
theorem Tracks.set {m n : Nat} (h : Tracks w t) (hf : t.rx[i]? = some f) (rx : t'.rx = t.rx.set i g)
    (frontier : g.frontier.toNat = f.frontier.toNat + m)
    (since : g.expectedSinceSack = f.expectedSinceSack + UInt32.ofNat m)
    (count : g.bitmap.count = f.bitmap.count + n) (expected : t'.rateExpected = t.rateExpected)
    (received : t'.rateReceived = t.rateReceived + UInt32.ofNat n) : Advances w t t' := by
  have hfrontier := frontierAt_set hf rx
  have hmarked := markedBlocks_set hf rx
  refine ⟨⟨fun j f' hf' => ?_, fun j hj => ?_, expected.trans h.expected, ?_⟩, fun j => ?_, by omega⟩
  · rw [rx, List.getElem?_set] at hf'
    have hj := hfrontier j
    split at hf'
    · rename_i hij
      subst hij
      rw [if_pos (List.getElem?_eq_some_iff.mp hf).1] at hf'
      obtain rfl := Option.some.inj hf'
      rw [if_pos rfl, frontier] at hj
      have hgain : t'.frontierAt i - t.frontierAt i = m := by
        rw [hj, frontierAt_of_file hf, Nat.add_sub_cancel_left]
      rw [since, h.since i f hf, ← UInt32.ofNat_add, LossWindow.grow_since, hgain]
    · rename_i hij
      rw [if_neg hij] at hj
      rw [h.since j f' hf', LossWindow.grow_since, hj, Nat.sub_self, Nat.add_zero]
  · have hj' : t.rx[j]? = none := by
      rw [rx, List.getElem?_eq_none_iff, List.length_set] at hj
      exact List.getElem?_eq_none hj
    have habsent := h.absent j hj'
    have hzero : t'.frontierAt j = 0 := by
      rw [Receiver.frontierAt, hj]
      rfl
    rw [LossWindow.grow_since, hzero, habsent, Nat.zero_sub]
  · have hgain : t'.markedBlocks - t.markedBlocks = n := by omega
    rw [received, h.received, ← UInt32.ofNat_add, LossWindow.grow_received, hgain]
  · rw [hfrontier]
    split
    · rename_i hij
      subst hij
      rw [frontier, frontierAt_of_file hf]
      exact Nat.le_add_right _ _
    · exact le_rfl

end Totals

/-! ## Blocks -/

namespace Receiver

section Blocks

variable {t t' u : Receiver} {w : LossWindow} {l : Launch} {as : List ReceiverAct}
  {log : List DiskEvent} {fs fs' : Fs} {sha : Bytes → Bytes} {io : Io} {out : List RxEvent}
  {f g : FileRx} {p : Pending}

/-- A block that is taken moves the frontier behind it. -/
theorem frontier_of_acceptFile {fresh : Bool} (h : acceptFile f p = some (g, fresh)) :
    g.bitmap = f.bitmap ∧ ∃ m, g.frontier.toNat = f.frontier.toNat + m ∧
      g.expectedSinceSack = f.expectedSinceSack + UInt32.ofNat m := by
  unfold acceptFile at h
  split at h
  · cases h
  · rename_i haccepts
    simp only [Bool.or_eq_true, decide_eq_true_eq, not_or, UInt32.not_le] at haccepts
    split at h
    · cases h
    · cases h
      dsimp only
      split
      · rename_i hle
        have hlt := UInt32.lt_iff_toNat_lt.mp haccepts.2
        have hblocks := f.blocks.toNat_lt
        rw [UInt32.le_iff_toNat_le] at hle
        -- The block is within the file, so `block + 1` does not wrap.
        have hnext : (p.block + 1).toNat = p.block.toNat + 1 := by
          rw [UInt32.toNat_add, UInt32.toNat_one, Nat.mod_eq_of_lt (by omega)]
        refine ⟨rfl, p.block.toNat + 1 - f.frontier.toNat, by dsimp only; omega, ?_⟩
        have hsub : (p.block - f.frontier).toNat = p.block.toNat - f.frontier.toNat :=
          UInt32.toNat_sub_of_le _ _ (UInt32.le_iff_toNat_le.mpr hle)
        have hmoved : p.block - f.frontier + 1 = UInt32.ofNat (p.block.toNat + 1 - f.frontier.toNat) := by
          apply UInt32.toNat_inj.mp
          rw [UInt32.toNat_add, hsub, UInt32.toNat_one, UInt32.toNat_ofNat', Nat.sub_add_comm hle]
        rw [hmoved]
      · exact ⟨rfl, 0, rfl, (UInt32.add_zero _).symm⟩

theorem advances_acceptBlock (h : Tracks w t) (p : Pending) : Advances w t (t.acceptBlock p).1 := by
  unfold acceptBlock
  split
  · exact h.advances (.refl t)
  · rename_i f hf
    split
    · exact h.advances (.refl t)
    · rename_i g fresh hacc
      obtain ⟨hbitmap, m, hfrontier, hsince⟩ := frontier_of_acceptFile hacc
      exact h.set hf rfl hfrontier hsince (n := 0) (by rw [hbitmap]; rfl) rfl (UInt32.add_zero _).symm

/-- A run that is flushed has new blocks only. -/
theorem advances_flushRun {run : BlockRun} {now : UInt32} {k : WriterCont} (h : Tracks w t)
    (blocks : ∀ f, t.rx[run.file.toNat]? = some f → Sized f ∧ ∃ ps, Collected f run ps)
    (hflush : t.flushRun io run now k fs = (t', fs', out)) : Advances w t t' := by
  unfold flushRun at hflush
  split at hflush
  · cases hflush
    exact h.advances ⟨rfl, rfl, rfl, rfl⟩
  · rename_i f hf
    have hfail := same_fail t (ascii "io") (ascii "write failed: " ++ f.finalPath.getLast?.getD [])
    obtain ⟨sized, ps, collected⟩ := blocks f hf
    simp only at hflush
    split at hflush
    · split at hflush
      · cases hflush
        exact h.set hf (g := markRun f run) rfl (m := 0) rfl (UInt32.add_zero _).symm
          (count_markRun sized collected) rfl rfl
      · cases hflush
        exact h.advances (hfail.trans ⟨rfl, rfl, rfl, rfl⟩)
    · cases hflush
      exact h.advances (hfail.trans ⟨rfl, rfl, rfl, rfl⟩)

/-- Any step inside `HandleBatch`. -/
theorem advances_batchStep {rest : List Pending} {run : Option BlockRun}
    {dones : List (UInt16 × Bytes)} {now : UInt32} (hpc : t.pc = .batch rest run dones now)
    (h : Tracks w t) (marks : Marks l as log t)
    (sized : ∀ (i : Nat) (f : FileRx), t.rx[i]? = some f → Sized f)
    (hstep : t.batchStep io rest run dones now fs = (t', fs', out)) : Advances w t t' := by
  have hrun : t.pc.run = run := by rw [hpc]; rfl
  -- Bookkeeping before the flush changes nothing about the blocks of the run.
  have blocks : ∀ {u : Receiver} {r : BlockRun}, Book t u → Flushes t r →
      ∀ f, u.rx[r.file.toNat]? = some f → Sized f ∧ ∃ ps, Collected f r ps := by
    intro u r book flushes f hf
    obtain ⟨g, hg, hcore⟩ := book.file hf
    obtain ⟨g', ps, hg', collected, -⟩ := flushed_of_marks marks flushes
    obtain rfl : g' = g := Option.some.inj (hg'.symm.trans hg)
    exact ⟨(sized _ _ hg).of_core hcore, ps, collected.of_core hcore⟩
  unfold batchStep at hstep
  split at hstep
  · exact advances_flushRun h (blocks (.refl t) (.collected hrun)) hstep
  · cases hstep
    exact h.advances ⟨rfl, rfl, rfl, rfl⟩
  · rename_i p rest
    split at hstep
    · rename_i r hr
      refine advances_flushRun h (blocks (.refl t) (.collected ?_)) hstep
      rw [hrun, (Option.filter_eq_some_iff.mp hr).1]
    · rename_i hr
      have accepted := advances_acceptBlock h p
      obtain ⟨book, -⟩ := book_acceptBlock t p
      simp only at hstep
      split at hstep
      · cases hstep
        exact accepted.trans (accepted.tracks.advances ⟨rfl, rfl, rfl, rfl⟩)
      · rename_i hfresh
        have hnew : (t.acceptBlock p).2 = true := by simpa using hfresh
        obtain ⟨f, hf, fresh⟩ := acceptBlock_fresh hnew
        have joins : Joins t f p := by
          refine ⟨by rw [hpc]; exact List.mem_cons_self, hf, fresh, fun r heq => ?_⟩
          rw [hrun] at heq
          simpa [heq] using hr
        split at hstep
        · exact accepted.trans (advances_flushRun accepted.tracks (blocks book (hrun ▸ .long joins)) hstep)
        · cases hstep
          exact accepted.trans (accepted.tracks.advances ⟨rfl, rfl, rfl, rfl⟩)

/-- Verification marks no block and moves no frontier forward. -/
theorem tracks_verify {i : Nat} {k : WriterCont} (h : Tracks w t)
    (hstep : t.verify sha io i k fs = (t', fs', out)) : Tracks (w.grow t t') t' := by
  by_cases due : ∃ f, t.rx[i]? = some f ∧ Due f
  swap
  · rw [verify_idle fun f hf hdue => due ⟨f, hf, hdue⟩] at hstep
    cases hstep
    exact h.quiet ⟨rfl, rfl, rfl, rfl⟩
  obtain ⟨f, hf, due⟩ := due
  cases hstop : t.stop with
  | true =>
    rw [verify_stopped hf due hstop] at hstep
    cases hstep
    exact h.quiet (same_set hf rfl rfl rfl rfl rfl)
  | false =>
    cases hashed : hashFile io fs f with
    | none =>
      rw [verify_unread hf due hstop hashed] at hstep
      cases hstep
      have hset : SameLoss t (t.setFile i { f with verifying := true, writer := none }) :=
        same_set hf rfl rfl rfl rfl rfl
      exact h.quiet ((hset.trans (same_fail _ _ _)).trans ⟨rfl, rfl, rfl, rfl⟩)
    | some hashing =>
      by_cases right : sha hashing.2 = f.expectedSha256
      · rw [verify_matched hf due hstop hashed right] at hstep
        cases hstep
        exact h.quiet (same_set hf rfl rfl rfl rfl rfl)
      · rw [verify_mismatch hf due hstop hashed right] at hstep
        cases hstep
        -- The file starts over: its frontier and its marks fall back.
        rw [LossWindow.grow_of_le]
        · exact h.of_since (map_set_of_eq hf rfl) rfl rfl
        · intro j
          rw [frontierAt_set hf rfl]
          split
          · exact Nat.zero_le _
          · exact le_rfl
        · refine Nat.le_of_add_le_add_right (b := f.bitmap.count) ?_
          rw [markedBlocks_set hf rfl]
          exact Nat.add_le_add_left (Nat.zero_le _) _

end Blocks

/-! ## SACKs and rates -/

/-- The engine at the end of a round, when `UpdateRates` is called. -/
def atRates (t : Receiver) (now : UInt32) : Option Receiver :=
  (sendSacks now false t.initiallyChecked.rx.length 0 t.initiallyChecked).map (·.1)

section Sacks

variable {t t' u : Receiver} {w : LossWindow} {i : Nat} {now : UInt32} {io : Io} {out : List RxEvent}

/-- A SACK moves what it counts to the window. -/
theorem tracks_sendSack (h : Tracks w t) (hsend : t.sendSack i now = some (t', out)) :
    Tracks (w.move i) t' ∧ Still t t' ∧ t'.lastRateMs = t.lastRateMs ∧
      ∀ j, i ≠ j → t'.rx[j]? = t.rx[j]? := by
  have absent : ∀ j, t.rx[j]? = none → (w.move i).since j = 0 := by
    intro j hj
    by_cases hij : i = j
    · rw [hij, w.move_since_self]
    · rw [w.move_since_ne hij, h.absent j hj]
  unfold sendSack at hsend
  split at hsend
  · rename_i hnone
    cases hsend
    refine ⟨⟨fun j f hf => ?_, fun j hj => absent j hj, ?_, h.received⟩, rfl, rfl, fun _ _ => rfl⟩
    · have hne : i ≠ j := by
        rintro rfl
        rw [hnone] at hf
        cases hf
      rw [w.move_since_ne hne]
      exact h.since j f hf
    · rw [w.move_expected, h.absent i hnone]
      exact h.expected
  · rename_i f hf
    obtain ⟨s, hs, heq⟩ := Option.map_eq_some_iff.mp hsend
    cases heq
    refine ⟨⟨fun j g hg => ?_, fun j hj => ?_, ?_, h.received⟩, map_set_of_eq hf rfl, rfl,
      fun j hne => List.getElem?_set_ne hne⟩
    · by_cases hij : i = j
      · subst hij
        rw [List.getElem?_set_self (List.getElem?_eq_some_iff.mp hf).1] at hg
        cases hg
        rw [w.move_since_self]
        rfl
      · rw [List.getElem?_set_ne hij] at hg
        rw [w.move_since_ne hij]
        exact h.since j g hg
    · rw [List.getElem?_eq_none_iff, List.length_set, ← List.getElem?_eq_none_iff] at hj
      exact absent j hj
    · rw [w.move_expected, UInt32.ofNat_add, ← h.since i f hf, ← h.expected]

theorem tracks_sendSacks {force : Bool} {n : Nat} (h : Tracks w t)
    (hsend : sendSacks now force n i t = some (t', out)) :
    Tracks (((List.range' i n).filter fun j => (t.rx[j]?).any (sackDue · now force)).foldl
      LossWindow.move w) t' ∧ Still t t' ∧ t'.lastRateMs = t.lastRateMs := by
  induction n generalizing i t w out with
  | zero =>
    cases hsend
    exact ⟨h, rfl, rfl⟩
  | succ n ih =>
    rw [List.range'_succ, List.filter_cons]
    rw [sendSacks] at hsend
    split at hsend
    · rename_i hnone
      -- There are no more files.
      have hrest : ∀ j ∈ List.range' (i + 1) n, ¬(t.rx[j]?).any (sackDue · now force) = true := by
        intro j hj
        have hlen := List.getElem?_eq_none_iff.mp hnone
        have hlt := (List.mem_range'_1.mp hj).1
        rw [List.getElem?_eq_none (by omega)]
        exact Bool.false_ne_true
      rw [hnone, List.filter_eq_nil_iff.mpr hrest]
      cases hsend
      exact ⟨h, rfl, rfl⟩
    · rename_i f hf
      rw [hf, Option.any_some]
      split at hsend
      · rename_i hdue
        split at hsend
        · cases hsend
        · rename_i mid sent hfirst
          obtain ⟨⟨u, more⟩, hmore, heq⟩ := Option.map_eq_some_iff.mp hsend
          cases heq
          obtain ⟨tracks, still, hms, hother⟩ := tracks_sendSack h hfirst
          obtain ⟨tracks, still', hms'⟩ := ih tracks hmore
          rw [if_pos hdue, List.foldl_cons]
          -- A SACK for one file does not make one for another due.
          have hsame : (List.range' (i + 1) n).filter (fun j => (mid.rx[j]?).any (sackDue · now force)) =
              (List.range' (i + 1) n).filter fun j => (t.rx[j]?).any (sackDue · now force) := by
            refine List.filter_congr fun j hj => ?_
            have hlt := (List.mem_range'_1.mp hj).1
            rw [hother j (by omega)]
          exact ⟨hsame ▸ tracks, still'.trans still, hms'.trans hms⟩
      · rename_i hdue
        rw [if_neg hdue]
        exact ih h hsend

theorem same_initiallyChecked (t : Receiver) : SameLoss t t.initiallyChecked := by
  unfold initiallyChecked
  split
  · have hmap : ∀ {β : Type} (k : FileRx → β), (∀ f, k { f with dirty := true } = k f) →
        (t.rx.map fun f => if f.complete && !f.verified then { f with dirty := true } else f).map k =
          t.rx.map k := by
      intro β k hk
      rw [List.map_map]
      refine List.map_congr_left fun f _ => ?_
      rw [Function.comp]
      split
      · exact hk f
      · rfl
    exact ⟨hmap _ fun _ => rfl, hmap _ fun _ => rfl, rfl, rfl⟩
  · exact .refl t

theorem same_persist {force : Bool} (h : t.persist force now = some (t', out)) :
    SameLoss t t' ∧ t'.lossPermille = t.lossPermille := by
  unfold persist at h
  split at h
  · cases h
    exact ⟨.refl t, rfl⟩
  · obtain ⟨state, -, heq⟩ := Option.map_eq_some_iff.mp h
    cases heq
    exact ⟨⟨rfl, rfl, rfl, rfl⟩, rfl⟩

/-- After `UpdateRates` nothing changes the estimate. -/
theorem atRates_of_tailStep (h : t.tailStep io now = some (t', out)) :
    ∃ u, t.atRates now = some u ∧ SameLoss (u.updateRates now) t' ∧
      t'.lossPermille = (u.updateRates now).lossPermille := by
  unfold tailStep at h
  unfold atRates
  simp only at h
  split at h
  · cases h
  · rename_i u sacks hsacks
    refine ⟨u, by rw [hsacks]; rfl, ?_⟩
    split at h
    · cases h
    · rename_i v saved hsaved
      obtain ⟨same, hloss⟩ := same_persist hsaved
      split at h
      · obtain ⟨⟨z, final⟩, hfinal, heq⟩ := Option.map_eq_some_iff.mp h
        cases heq
        obtain ⟨same', hloss'⟩ := same_persist hfinal
        exact ⟨(same.trans same').trans ⟨rfl, rfl, rfl, rfl⟩, hloss'.trans hloss⟩
      · cases h
        exact ⟨same.trans ⟨rfl, rfl, rfl, rfl⟩, hloss⟩

/-- The counters when `UpdateRates` is called. -/
theorem tracks_atRates (h : Tracks w t) (hpc : t.pc = .tail now) (hu : t.atRates now = some u) :
    Tracks (w.moved t) u ∧ Still t u ∧ u.lastRateMs = t.lastRateMs := by
  obtain ⟨⟨u, sacks⟩, hsacks, heq⟩ := Option.map_eq_some_iff.mp hu
  cases heq
  have checked := same_initiallyChecked t
  obtain ⟨tracks, still, hms⟩ := tracks_sendSacks (h.same checked) hsacks
  have hsacked : t.sacked = (List.range' 0 t.initiallyChecked.rx.length).filter fun i =>
      (t.initiallyChecked.rx[i]?).any (sackDue · now false) := by
    rw [sacked, hpc]
  rw [LossWindow.moved, hsacked]
  refine ⟨tracks, still.trans checked.still, hms.trans ?_⟩
  unfold initiallyChecked
  split <;> rfl

theorem tracks_tailStep (h : Tracks w t) (hpc : t.pc = .tail now)
    (hstep : t.tailStep io now = some (t', out)) : Tracks (w.after t t') t' := by
  obtain ⟨u, hu, same, -⟩ := atRates_of_tailStep hstep
  obtain ⟨tracks, still, hms⟩ := tracks_atRates h hpc hu
  have hrates : Still u (u.updateRates now) := by
    unfold updateRates
    split <;> rfl
  have hstill : Still t t' := (same.still.trans hrates).trans still
  have hcloses : t.closesWindow = true ↔ ¬now - u.lastRateMs < kRateWindowMs := by
    rw [closesWindow, hpc, hms, Bool.not_eq_true', decide_eq_false_iff_not]
  rw [LossWindow.after, hstill.grow]
  refine Tracks.same ?_ same
  by_cases hearly : now - u.lastRateMs < kRateWindowMs
  · rw [if_neg fun hc => hcloses.mp hc hearly, updateRates, if_pos hearly]
    exact tracks
  · rw [if_pos (hcloses.mpr hearly), updateRates, if_neg hearly]
    exact ⟨tracks.since, tracks.absent, rfl, rfl⟩

end Sacks

/-! ## Every step -/

section Steps

variable {t t' : Receiver} {w : LossWindow} {l : Launch} {as : List ReceiverAct}
  {log : List DiskEvent} {fs fs' : Fs} {sha : Bytes → Bytes} {io : Io} {out : List RxEvent}

/-- Where no SACK is sent and no window closes, the totals only grow. -/
theorem tracks_after (h : Tracks (w.grow t t') t') (sacked : t.sacked = [])
    (closes : t.closesWindow = false) : Tracks (w.after t t') t' := by
  rw [LossWindow.after, LossWindow.moved, closes, sacked]
  exact h

/-- Every step of the writer thread keeps the counters with the totals. -/
theorem tracks_step (h : Tracks w t) (marks : Marks l as log t)
    (sized : ∀ (i : Nat) (f : FileRx), t.rx[i]? = some f → Sized f)
    (hstep : t.writerStep sha io fs = some (t', fs', out)) : Tracks (w.after t t') t' := by
  unfold writerStep at hstep
  split at hstep
  -- The loop condition; a stopped thread persists and leaves.
  case h_1 hpc =>
    refine tracks_after ?_ (by rw [sacked, hpc]) (by rw [closesWindow, hpc])
    split at hstep
    · obtain ⟨⟨u, saved⟩, hsaved, heq⟩ := Option.map_eq_some_iff.mp hstep
      cases heq
      exact h.quiet ((same_persist hsaved).1.trans ⟨rfl, rfl, rfl, rfl⟩)
    · cases hstep
      exact h.quiet ⟨rfl, rfl, rfl, rfl⟩
  -- The queue and the announced hashes are taken over.
  case h_2 hpc =>
    refine tracks_after ?_ (by rw [sacked, hpc]) (by rw [closesWindow, hpc])
    cases hstep
    exact h.quiet ⟨rfl, rfl, rfl, rfl⟩
  case h_3 rest run dones now hpc =>
    refine tracks_after ?_ (by rw [sacked, hpc]) (by rw [closesWindow, hpc])
    exact (advances_batchStep hpc h marks sized (Option.some.inj hstep)).tracks
  -- The SACK that follows a flushed run.
  case h_4 i now k hpc =>
    obtain ⟨⟨u, sent⟩, hsent, heq⟩ := Option.map_eq_some_iff.mp hstep
    cases heq
    obtain ⟨tracks, still, -⟩ := tracks_sendSack h hsent
    have hstill : Still t { u with pc := .verify i k } := still
    rw [LossWindow.after, hstill.grow, LossWindow.moved, sacked, closesWindow, hpc]
    exact tracks.same ⟨rfl, rfl, rfl, rfl⟩
  case h_5 i k hpc =>
    refine tracks_after ?_ (by rw [sacked, hpc]) (by rw [closesWindow, hpc])
    exact tracks_verify h (Option.some.inj hstep)
  case h_6 i k hpc =>
    refine tracks_after ?_ (by rw [sacked, hpc]) (by rw [closesWindow, hpc])
    have hrename := Option.some.inj hstep
    unfold renameFile at hrename
    split at hrename
    · cases hrename
      exact h.quiet ⟨rfl, rfl, rfl, rfl⟩
    · rename_i f hf
      split at hrename
      · cases hrename
        exact h.quiet ((same_fail _ _ _).trans ⟨rfl, rfl, rfl, rfl⟩)
      · cases hrename
        exact h.quiet (same_set hf rfl rfl rfl rfl rfl)
  -- No announced hash is left.
  case h_7 now hpc =>
    refine tracks_after ?_ (by rw [sacked, hpc]) (by rw [closesWindow, hpc])
    cases hstep
    exact h.quiet ⟨rfl, rfl, rfl, rfl⟩
  -- An announced hash, for a file that may not exist.
  case h_8 index hash rest now hpc =>
    refine tracks_after ?_ (by rw [sacked, hpc]) (by rw [closesWindow, hpc])
    split at hstep
    · cases hstep
      exact h.quiet ⟨rfl, rfl, rfl, rfl⟩
    · rename_i f hf
      cases hstep
      exact h.quiet (same_set hf rfl rfl rfl rfl rfl)
  -- The rest of the round.
  case h_9 now hpc =>
    obtain ⟨⟨u, sent⟩, htail, heq⟩ := Option.map_eq_some_iff.mp hstep
    cases heq
    exact tracks_tailStep h hpc htail
  case h_10 => cases hstep

end Steps

end Receiver

end CrossTransfer.Transfer
