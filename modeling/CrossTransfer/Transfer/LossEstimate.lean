import CrossTransfer.Transfer.ExactRuns
import CrossTransfer.Transfer.LossWindow

/-! # The loss estimate

`UpdateRates` computes the estimate from its two 32-bit counters, and multiplies their difference by
1000 in 32 bits. The counters are right as long as the totals of the window fit into 32 bits
(`tracks_of_run`), and the estimate is right exactly if the product does not wrap, which it does from
4294968 lost blocks on (`estimates_iff`).
-/

namespace CrossTransfer.Transfer

open CrossTransfer.Library

/-! ## Runs -/

section Runs

variable {l : Launch} {sha : Bytes → Bytes} {as : List ReceiverAct} {s s' : RxState}
  {a : ReceiverAct} {ok : RxState → ReceiverAct → Prop}

namespace Receiver

/-- Nothing is counted yet. -/
theorem rates_of_start {l : Launch} {fs : Fs} {t : Receiver} {err : Option Bytes}
    (h : start l.io l.manifest l.saveDir l.names l.resume l.fs = (fs, t, err)) :
    t.rateExpected = 0 ∧ t.rateReceived = 0 := by
  unfold start at h
  simp only at h
  split at h
  · cases h
    exact ⟨rfl, rfl⟩
  · split at h
    · cases h
      exact ⟨rfl, rfl⟩
    · split at h
      · rename_i hfiles
        cases h
        obtain ⟨done, f, rest, mid, rx, bytes, count, -, -, -, rfl⟩ := startFiles_error hfiles
        exact ⟨rfl, rfl⟩
      · rename_i hfiles
        cases h
        obtain ⟨rx, bytes, done, -, rfl⟩ := startFiles_ok hfiles
        exact ⟨rfl, rfl⟩

theorem since_of_startFile {io : StartIo} {resume : List ReceiverFileState} {fs fs' : Fs} {f f' : FileRx}
    {bytes : UInt64} (h : startFile io resume fs f = (fs', .ok (f', bytes))) :
    f'.expectedSinceSack = f.expectedSinceSack := by
  obtain ⟨g, _, hr, started⟩ | ⟨_, hr, -⟩ := startFile_cases h
  · cases hr
    cases started <;> rfl
  · cases hr

end Receiver

theorem tracks_start (l : Launch) : Tracks .fresh l.state.engine := by
  have hstart : Receiver.start l.io l.manifest l.saveDir l.names l.resume l.fs =
    (l.state.fs, l.state.engine, l.start.2.2) := rfl
  obtain ⟨hexpected, hreceived⟩ := Receiver.rates_of_start hstart
  refine ⟨fun i f hf => ?_, fun _ _ => rfl, hexpected, hreceived⟩
  obtain ⟨mf, mid, bytes, -, hfile⟩ := Receiver.files_of_start hstart hf
  exact Receiver.since_of_startFile hfile

theorem lossWindow_snoc (run : (l.state.machine sha).Run ok as s) (a : ReceiverAct) :
    l.lossWindow sha (as ++ [a]) = (s.writerSteps sha a).foldl (fun w p => w.after p.1 p.2)
      (l.lossWindow sha as) := by
  have hexec : (l.state.machine sha).exec as l.state = some s := run.exec_eq
  rw [Launch.lossWindow, Launch.lossWindow, Machine.collect_snoc hexec, List.foldl_append]

/-- In every state of a run the counters hold the totals modulo 2^32. -/
theorem tracks_of_run (run : (l.state.machine sha).Run ok as s) :
    Tracks (l.lossWindow sha as) s.engine := by
  induction run with
  | init => exact tracks_start l
  | @step as s a s' hrun _ hstep ih =>
    rw [lossWindow_snoc hrun]
    obtain ⟨⟨s', out⟩, hact, rfl⟩ := Option.map_eq_some_iff.mp hstep
    cases a with
    | writer io =>
      obtain ⟨⟨t', fs', told⟩, hwriter, heq⟩ := Option.map_eq_some_iff.mp hact
      cases heq
      rw [RxState.writerSteps, hwriter]
      exact Receiver.tracks_step ih (marks_of_run hrun) (sized_of_run hrun) hwriter
    | block wire =>
      cases hact
      refine ih.same ?_
      unfold Receiver.onBlock
      split
      · exact .refl _
      · split
        · exact .refl _
        · split <;> exact ⟨rfl, rfl, rfl, rfl⟩
    | fileDone index hash =>
      cases hact
      exact ih.same ⟨rfl, rfl, rfl, rfl⟩
    | stop =>
      cases hact
      exact ih.same ⟨rfl, rfl, rfl, rfl⟩
    | close =>
      rw [RxState.step] at hact
      split at hact
      · cases hact
        exact ih.same ⟨List.map_map .., List.map_map .., rfl, rfl⟩
      · cases hact

end Runs

/-! ## The estimate -/

namespace Receiver

/-- What `UpdateRates` takes for the lost blocks. -/
def lost (u : Receiver) : UInt32 :=
  if u.rateReceived < u.rateExpected then u.rateExpected - u.rateReceived else 0

theorem toNat_lost (u : Receiver) : u.lost.toNat = u.rateExpected.toNat - u.rateReceived.toNat := by
  unfold lost
  split
  · rename_i hlt
    exact UInt32.toNat_sub_of_le _ _ (UInt32.le_of_lt hlt)
  · rename_i hnot
    have hle := UInt32.le_iff_toNat_le.mp (UInt32.not_lt.mp hnot)
    rw [UInt32.toNat_zero]
    omega

/-- The value that `UpdateRates` stores: the product wraps. -/
theorem permille_updateRates {u : Receiver} {now : UInt32} (due : ¬now - u.lastRateMs < kRateWindowMs) :
    (u.updateRates now).lossPermille.toNat =
      min 1000 (1000 * u.lost.toNat % 2 ^ 32 / u.rateExpected.toNat) := by
  have hstored : (u.updateRates now).lossPermille =
      if 0 < u.rateExpected then (min 1000 (u.lost * 1000 / u.rateExpected)).toUInt16 else 0 := by
    rw [updateRates, if_neg due]
    rfl
  rw [hstored]
  split
  · have hmin : (min 1000 (u.lost * 1000 / u.rateExpected)).toNat =
        min 1000 (1000 * u.lost.toNat % 2 ^ 32 / u.rateExpected.toNat) := by
      rw [toNat_min32, UInt32.toNat_div, UInt32.toNat_mul, Nat.mul_comm]
      rfl
    rw [UInt32.toNat_toUInt16, hmin, Nat.mod_eq_of_lt (by omega)]
  · rename_i hzero
    have hexpected : u.rateExpected.toNat = 0 := by
      rw [UInt32.lt_iff_toNat_lt, UInt32.toNat_zero] at hzero
      omega
    rw [hexpected, Nat.div_zero]
    rfl

end Receiver

/-- A wrapped product is too small by more than the divisor. -/
theorem wrapped_iff {lost expected : Nat} (hexpected : expected < 2 ^ 32) (hle : lost ≤ expected) :
    min 1000 (1000 * lost % 2 ^ 32 / expected) = 1000 * lost / expected ↔ 1000 * lost < 2 ^ 32 := by
  obtain rfl | hpos := Nat.eq_zero_or_pos expected
  · obtain rfl := Nat.le_zero.mp hle
    simp
  have hthousand : 1000 * lost / expected ≤ 1000 := by
    rw [Nat.div_le_iff_le_mul_add_pred hpos]
    have hmul := Nat.mul_le_mul_left 1000 hle
    omega
  constructor
  · intro heq
    by_contra hwraps
    -- At least 2^32 is lost, and that is more than one divisor.
    have hless : 1000 * lost % 2 ^ 32 + expected ≤ 1000 * lost := by
      have hdiv := Nat.mod_add_div (1000 * lost) (2 ^ 32)
      have hone : 1 ≤ 1000 * lost / 2 ^ 32 := (Nat.one_le_div_iff (by omega)).mpr (by omega)
      have hstep := Nat.mul_le_mul_left (2 ^ 32) hone
      omega
    have hsmaller : 1000 * lost % 2 ^ 32 / expected + 1 ≤ 1000 * lost / expected := by
      rw [← Nat.add_div_right _ hpos]
      exact Nat.div_le_div_right hless
    omega
  · intro hfits
    rw [Nat.mod_eq_of_lt hfits, min_eq_right hthousand]

/-- The totals fit into 32 bits, and so does a thousand times what is lost. -/
structure LossWindow.Fits (w : LossWindow) : Prop where
  expected : w.expected < 2 ^ 32
  received : w.received < 2 ^ 32
  lost : w.expected - w.received ≤ 4294967

/-- The estimate of a window is exact and has been computed without overflow from `u`. -/
structure Estimates (w : LossWindow) (u t' : Receiver) : Prop where
  value : t'.lossPermille.toNat = w.permille
  range : t'.lossPermille.toNat ≤ 1000
  expected : u.rateExpected.toNat = w.expected
  received : u.rateReceived.toNat = w.received
  product : (u.lost * 1000).toNat = 1000 * (w.expected - w.received)

/-- When a window closes, the estimate is exact if and only if the window fits. As long as its totals
    fit, the stored value is right exactly if at most 4294967 blocks are lost. -/
theorem estimates_iff (l : Launch) (sha : Bytes → Bytes) (as : List ReceiverAct) (s s' : RxState)
    (run : (l.state.machine sha).Run Machine.anyStep as s) {io : Io} {now : UInt32} {out : List RxEvent}
    (tail : s.engine.pc = .tail now) (closes : s.engine.closesWindow = true)
    (hstep : s.step sha (.writer io) = some (s', out)) :
    ∃ u, s.engine.atRates now = some u ∧
      (Estimates ((l.lossWindow sha as).moved s.engine) u s'.engine ↔
        ((l.lossWindow sha as).moved s.engine).Fits) ∧
      (((l.lossWindow sha as).moved s.engine).expected < 2 ^ 32 →
        ((l.lossWindow sha as).moved s.engine).received < 2 ^ 32 →
        (s'.engine.lossPermille.toNat = ((l.lossWindow sha as).moved s.engine).permille ↔
          ((l.lossWindow sha as).moved s.engine).expected -
            ((l.lossWindow sha as).moved s.engine).received ≤ 4294967)) := by
  obtain ⟨⟨t', fs', told⟩, hwriter, heq⟩ := Option.map_eq_some_iff.mp hstep
  cases heq
  rw [Receiver.writerStep, tail] at hwriter
  obtain ⟨⟨t', told⟩, htail, heq⟩ := Option.map_eq_some_iff.mp hwriter
  cases heq
  obtain ⟨u, hu, -, hloss⟩ := Receiver.atRates_of_tailStep htail
  obtain ⟨tracks, -, hms⟩ := Receiver.tracks_atRates (tracks_of_run run) tail hu
  refine ⟨u, hu, ?_⟩
  generalize (l.lossWindow sha as).moved s.engine = w at tracks
  have due : ¬now - u.lastRateMs < kRateWindowMs := by
    rw [Receiver.closesWindow, tail, Bool.not_eq_true', decide_eq_false_iff_not] at closes
    rwa [hms]
  have hstored := Receiver.permille_updateRates due
  rw [← hloss, Receiver.toNat_lost] at hstored
  have hexpected : u.rateExpected.toNat = w.expected % 2 ^ 32 := by
    rw [tracks.expected, UInt32.toNat_ofNat']
  have hreceived : u.rateReceived.toNat = w.received % 2 ^ 32 := by
    rw [tracks.received, UInt32.toNat_ofNat']
  have value : w.expected < 2 ^ 32 → w.received < 2 ^ 32 →
      (t'.lossPermille.toNat = w.permille ↔ w.expected - w.received ≤ 4294967) := by
    intro he hr
    rw [hstored, hexpected, hreceived, Nat.mod_eq_of_lt he, Nat.mod_eq_of_lt hr, LossWindow.permille,
      wrapped_iff he (Nat.sub_le _ _)]
    omega
  refine ⟨⟨fun h => ?_, fun h => ?_⟩, value⟩
  · have he : w.expected < 2 ^ 32 := h.expected ▸ u.rateExpected.toNat_lt
    have hr : w.received < 2 ^ 32 := h.received ▸ u.rateReceived.toNat_lt
    exact ⟨he, hr, (value he hr).mp h.value⟩
  · have hlost := h.lost
    refine ⟨(value h.expected h.received).mpr hlost, ?_, ?_, ?_, ?_⟩
    · rw [hstored]
      exact Nat.min_le_left _ _
    · rw [hexpected, Nat.mod_eq_of_lt h.expected]
    · rw [hreceived, Nat.mod_eq_of_lt h.received]
    · rw [UInt32.toNat_mul, Receiver.toNat_lost, hexpected, hreceived, Nat.mod_eq_of_lt h.expected,
        Nat.mod_eq_of_lt h.received, show (1000 : UInt32).toNat = 1000 from rfl, Nat.mul_comm,
        Nat.mod_eq_of_lt (by omega)]

/-- The clock stands at one second. -/
def lateIo : Io := ⟨true, true, 0, [], 1000⟩

/-- The block of the one-byte file comes in and is flushed, and the file is complete. -/
def lateActs : List ReceiverAct := .block oneByteWire :: List.replicate 8 (.writer lateIo)

theorem estimates_oneByte : ∃ s s' out u,
    (oneByteLaunch.state.machine id).exec lateActs oneByteLaunch.state = some s ∧
      s.step id (.writer lateIo) = some (s', out) ∧ s.engine.atRates 1000 = some u ∧
      Estimates ((oneByteLaunch.lossWindow id lateActs).moved s.engine) u s'.engine := by
  have hfacts : (((oneByteLaunch.state.machine id).exec lateActs oneByteLaunch.state).bind fun s =>
      (s.step id (.writer lateIo)).map fun _ =>
        (s.engine.pc == .tail 1000, s.engine.closesWindow,
          ((oneByteLaunch.lossWindow id lateActs).moved s.engine).expected,
          ((oneByteLaunch.lossWindow id lateActs).moved s.engine).received)) =
      some (true, true, 1, 1) := by
    decide +kernel
  obtain ⟨s, hexec, hfacts⟩ := Option.bind_eq_some_iff.mp hfacts
  obtain ⟨⟨s', out⟩, hstep, hfacts⟩ := Option.map_eq_some_iff.mp hfacts
  simp only [Prod.mk.injEq, beq_iff_eq] at hfacts
  obtain ⟨htail, hcloses, hexpected, hreceived⟩ := hfacts
  obtain ⟨u, hu, hiff, -⟩ := estimates_iff oneByteLaunch id lateActs s s' (Machine.run_of_exec hexec)
    htail hcloses hstep
  exact ⟨s, s', out, u, hexec, hstep, hu,
    hiff.mpr ⟨by rw [hexpected]; decide, by rw [hreceived]; decide, by rw [hexpected, hreceived]; decide⟩⟩

/-! ## A large file whose last block comes first -/

/-- A file of five million blocks comes to an empty folder. -/
def hugeLaunch : Launch :=
  { oneByteLaunch with manifest := ⟨[⟨ascii "a", 5499998901⟩], [], [⟨ascii "a", false⟩], 5499998901⟩ }

/-- The last block of the file. -/
def hugeWire : Bytes := (encodeBlock ⟨0, 0, 4999999, 1⟩ [7]).getD []

/-- The block comes in and is flushed; the writer thread stops before `SendSacks`. -/
def hugeActs : List ReceiverAct := .block hugeWire :: List.replicate 6 (.writer lateIo)

/-- The file before a block of it has come. -/
def hugeFile : FileRx where
  index := 0
  size := 5499998901
  blocks := 5000000
  partPath := (hugeLaunch.freshFile 0 ⟨ascii "a", 5499998901⟩).partPath
  finalPath := (hugeLaunch.freshFile 0 ⟨ascii "a", 5499998901⟩).finalPath
  bitmap := BlockBitmap.reset 5000000
  writer := some (some 0)

/-- The frontier has moved behind the last block. -/
def hugeTaken : FileRx :=
  { hugeFile with dirty := true, expectedSinceSack := 5000000, frontier := 5000000 }

def hugeRun : BlockRun := ⟨0, 4999999, [7], [4999999]⟩

namespace Receiver

/-- A block beyond the frontier is taken, and the blocks before it count as expected. -/
theorem acceptFile_beyond {f : FileRx} {p : Pending} (hv : f.verified = false)
    (inside : p.block < f.blocks) (len : p.len = blockLenFor f.size p.block)
    (beyond : f.frontier ≤ p.block) :
    acceptFile f p = some ({ f with
      dirty := true
      expectedSinceSack := f.expectedSinceSack + (p.block - f.frontier + 1)
      frontier := p.block + 1 }, !f.bitmap.test p.block.toNat) := by
  have hblocks : f.blocks ≠ 0 := by
    rintro hzero
    rw [hzero] at inside
    exact absurd inside UInt32.not_lt_zero
  have haccepts : (f.verified || decide (f.blocks = 0) || decide (f.blocks ≤ p.block)) = false := by
    simp [hv, hblocks, inside]
  unfold acceptFile
  rw [haccepts, if_neg Bool.false_ne_true, if_neg (not_not.mpr len)]
  simp only
  rw [if_pos beyond]

theorem flushRun_ok {t : Receiver} {io : Io} {run : BlockRun} {now : UInt32} {k : WriterCont} {fs : Fs}
    {f : FileRx} {i : Nat} (hf : t.rx[run.file.toNat]? = some f)
    (writer : f.writer = some (some i)) (ok : io.ok = true) :
    t.flushRun io run now k fs =
      ({ t with
        rx := t.rx.set run.file.toNat (markRun f run)
        rateReceived := t.rateReceived + UInt32.ofNat run.blocks.length
        rateBytes := t.rateBytes + UInt64.ofNat run.data.length
        bytesReceived := t.bytesReceived + UInt64.ofNat run.data.length
        pc := if (markRun f run).complete then .sack run.file.toNat now k else k.toPc },
        fs.writeAt i (run.first.toNat * kBlockPayloadSize) run.data, []) := by
  unfold flushRun
  rw [hf]
  simp only [writer]
  rw [if_pos ok]

/-! The end of a round returns if no bitmap has more than 2^32 - 64 blocks. -/

section Returns

variable {t t' : Receiver}

theorem small_of_cores (rx : t'.cores = t.cores) (small : ∀ f ∈ t.rx, f.bitmap.size ≤ 2 ^ 32 - 64) :
    ∀ f ∈ t'.rx, f.bitmap.size ≤ 2 ^ 32 - 64 := by
  intro f hf
  obtain ⟨g, hg, hcore⟩ := List.mem_map.mp (rx ▸ List.mem_map_of_mem hf : f.core ∈ t.cores)
  have hsize := congrArg (fun x : FileRx => x.bitmap.size) hcore
  exact Eq.trans_le hsize.symm (small g hg)

theorem exists_sendSack (small : ∀ f ∈ t.rx, f.bitmap.size ≤ 2 ^ 32 - 64) (i : Nat) (now : UInt32) :
    ∃ r, t.sendSack i now = some r := by
  unfold sendSack
  split
  · exact ⟨_, rfl⟩
  · rename_i f hf
    obtain ⟨runs, -, hruns⟩ := BlockBitmap.exists_runsFuel (small f (List.mem_of_getElem? hf)) false
      (max f.bitmap.ackBase f.bitmap.ackBase)
    have holes : ∃ holes, (if f.bitmap.complete then some []
        else f.bitmap.holesFuel BlockBitmap.scanFuel f.bitmap.ackBase kSackMaxRuns) = some holes := by
      split
      · exact ⟨_, rfl⟩
      · exact ⟨_, hruns kSackMaxRuns⟩
    obtain ⟨holes, hholes⟩ := holes
    unfold buildSack
    simp only [hholes]
    exact ⟨_, rfl⟩

theorem exists_sendSacks (small : ∀ f ∈ t.rx, f.bitmap.size ≤ 2 ^ 32 - 64) (now : UInt32) (force : Bool)
    (n i : Nat) : ∃ r, sendSacks now force n i t = some r := by
  induction n generalizing t i with
  | zero => exact ⟨_, rfl⟩
  | succ n ih =>
    rw [sendSacks]
    split
    · exact ⟨_, rfl⟩
    · split
      · obtain ⟨⟨u, out⟩, hsend⟩ := exists_sendSack small i now
        obtain ⟨r, hrest⟩ := ih (small_of_cores (book_sendSack hsend).1.cores small) (i + 1)
        simp only [hsend, hrest]
        exact ⟨_, rfl⟩
      · exact ih small (i + 1)

theorem exists_persist (small : ∀ f ∈ t.rx, f.bitmap.size ≤ 2 ^ 32 - 64) (force : Bool) (now : UInt32) :
    ∃ r, t.persist force now = some r := by
  have hfile : ∀ f ∈ t.rx, ∃ state, fileState f = some state := by
    intro f hf
    unfold fileState
    split
    · exact ⟨_, rfl⟩
    · obtain ⟨runs, -, hruns⟩ := BlockBitmap.exists_runsFuel (small f hf) true 0
      rw [BlockBitmap.haveRunsFuel, hruns]
      exact ⟨_, rfl⟩
  have hall : ∀ rx : List FileRx, (∀ f ∈ rx, ∃ state, fileState f = some state) →
      ∃ states, rx.mapM fileState = some states := by
    intro rx h
    induction rx with
    | nil => exact ⟨[], rfl⟩
    | cons f rest ih =>
      rw [List.forall_mem_cons] at h
      obtain ⟨state, hstate⟩ := h.1
      obtain ⟨states, hstates⟩ := ih h.2
      exact ⟨state :: states, by rw [List.mapM_cons, hstate, hstates]; rfl⟩
  obtain ⟨states, hstates⟩ := hall t.rx hfile
  unfold persist
  split
  · exact ⟨_, rfl⟩
  · rw [snapshot, hstates]
    exact ⟨_, rfl⟩

theorem exists_tailStep (small : ∀ f ∈ t.rx, f.bitmap.size ≤ 2 ^ 32 - 64) (io : Io) (now : UInt32) :
    ∃ r, t.tailStep io now = some r := by
  have checked := book_initiallyChecked t
  have small := small_of_cores checked.cores small
  obtain ⟨⟨u, sacks⟩, hsacks⟩ := exists_sendSacks small now false t.initiallyChecked.rx.length 0
  have small := small_of_cores ((book_sendSacks hsacks).1.trans (book_updateRates u now)).cores small
  obtain ⟨⟨v, saved⟩, hsaved⟩ := exists_persist small false io.now
  unfold tailStep
  simp only [hsacks, hsaved]
  split
  · obtain ⟨r, hr⟩ := exists_persist (small_of_cores (book_persist hsaved).1.cores small) true io.now
    rw [hr]
    exact ⟨_, rfl⟩
  · exact ⟨_, rfl⟩

end Returns

theorem count_set {b : BlockBitmap} {i : Nat} (hi : i < b.size) (missing : b.test i = false) :
    (b.set i).1.count = b.count + 1 := by
  rw [BlockBitmap.test_eq] at missing
  rw [BlockBitmap.set, dif_pos hi, dif_pos missing]

/-- The SACKs at the end of a round, for a single file. -/
theorem sacked_single {t : Receiver} {f : FileRx} {n : UInt32} (hpc : t.pc = .tail n) (hrx : t.rx = [f])
    (incomplete : f.complete = false) (due : sackDue f n false = true) : t.sacked = [0] := by
  have hchecked : t.initiallyChecked.rx = [f] := by
    unfold initiallyChecked
    split
    · simp [hrx, incomplete]
    · exact hrx
  rw [sacked, hpc]
  simp [hchecked, due]

/-- The engine before the block. -/
def hugeEngine (created : List Path) (f : FileRx) (pc : WriterPc) : Receiver :=
  { rx := [f], createdDirs := created, pc := pc }

/-- The block has been taken. -/
def hugeTook (created : List Path) : Receiver :=
  { hugeEngine created hugeTaken (.batch [] (some hugeRun) [] 1000) with currentFile := some 0 }

/-- The block has been written. -/
def hugeWrote (created : List Path) (pc : WriterPc) : Receiver :=
  { hugeEngine created (markRun hugeTaken hugeRun) pc with
    currentFile := some 0
    rateReceived := 1
    rateBytes := 1
    bytesReceived := 1 }

section Huge

variable (created : List Path) (disk : Fs)

theorem count_huge : (markRun hugeTaken hugeRun).bitmap.count = 1 := by
  have hinside : (4999999 : UInt32).toNat < hugeTaken.bitmap.size := by decide
  have hset : ∀ (f : FileRx) (i : UInt32), (markRun f ⟨0, i, [7], [i]⟩).bitmap = (f.bitmap.set i.toNat).1 :=
    fun _ _ => rfl
  rw [hugeRun, hset, count_set hinside (BlockBitmap.reset_test _ _)]
  rfl

theorem complete_huge : (markRun hugeTaken hugeRun).complete = false := by
  have hflag : ∀ (f : FileRx) (run : BlockRun),
      (markRun f run).complete = (f.complete || (markRun f run).bitmap.complete) := fun _ _ => rfl
  have hsize : (markRun hugeTaken hugeRun).bitmap.size = 5000000 := (setBlocks_grows _ _).1
  rw [hflag, show hugeTaken.complete = false from rfl, Bool.false_or, BlockBitmap.complete, count_huge, hsize]
  rfl

theorem take_huge :
    (hugeEngine created hugeFile (.batch [⟨0, 4999999, 1, [7]⟩] none [] 1000)).writerStep id lateIo disk =
      some (hugeTook created, disk, []) := by
  have hmissing : hugeFile.bitmap.test (4999999 : UInt32).toNat = false := BlockBitmap.reset_test _ _
  have haccept : acceptFile hugeFile ⟨0, 4999999, 1, [7]⟩ = some (hugeTaken, true) := by
    rw [acceptFile_beyond rfl (by decide) (by decide) (by decide), hmissing]
    rfl
  have hblock : (hugeEngine created hugeFile (.batch [⟨0, 4999999, 1, [7]⟩] none [] 1000)).acceptBlock
      ⟨0, 4999999, 1, [7]⟩ =
        ({ hugeEngine created hugeTaken (.batch [⟨0, 4999999, 1, [7]⟩] none [] 1000) with
          currentFile := some 0 }, true) := by
    have hfile : (hugeEngine created hugeFile (.batch [⟨0, 4999999, 1, [7]⟩] none [] 1000)).rx[
      (0 : UInt16).toNat]? = some hugeFile := rfl
    rw [acceptBlock, hfile]
    simp only [haccept]
    rfl
  show some (batchStep _ lateIo [⟨0, 4999999, 1, [7]⟩] none [] 1000 disk) = _
  unfold batchStep
  simp only [Option.filter_none]
  rw [hblock]
  rfl

theorem flush_huge : (hugeTook created).writerStep id lateIo disk =
    some (hugeWrote created (.batch [] none [] 1000),
      disk.writeAt 0 (hugeRun.first.toNat * kBlockPayloadSize) [7], []) := by
  have hstep : (hugeTook created).writerStep id lateIo disk =
    some ((hugeTook created).flushRun lateIo hugeRun 1000 (.batch [] [] 1000) disk) := rfl
  rw [hstep, flushRun_ok (f := hugeTaken) (i := 0) rfl rfl rfl, complete_huge]
  rfl

/-- At the end of the round a SACK is due. -/
theorem sacked_huge : (hugeWrote created (.tail 1000)).sacked = [0] := by
  refine sacked_single (f := markRun hugeTaken hugeRun) rfl rfl complete_huge ?_
  unfold sackDue
  rw [complete_huge]
  rfl

end Huge

end Receiver

section Window

variable {l : Launch} {sha : Bytes → Bytes} {as : List ReceiverAct} {s : RxState}
  {ok : RxState → ReceiverAct → Prop}

theorem run_writer (run : (l.state.machine sha).Run Machine.anyStep as s) {io : Io} {t : Receiver} {fs : Fs}
    {out : List RxEvent} (h : s.engine.writerStep sha io s.fs = some (t, fs, out)) :
    (l.state.machine sha).Run Machine.anyStep (as ++ [.writer io]) ⟨t, fs⟩ := by
  refine run.step trivial ?_
  show (s.step sha (.writer io)).map (·.1) = _
  rw [RxState.step, h]
  rfl

/-- A step without a SACK. -/
theorem lossWindow_grow (run : (l.state.machine sha).Run ok as s) {io : Io} {t : Receiver} {fs : Fs}
    {out : List RxEvent} (h : s.engine.writerStep sha io s.fs = some (t, fs, out))
    (sacked : s.engine.sacked = []) (closes : s.engine.closesWindow = false) :
    l.lossWindow sha (as ++ [.writer io]) = (l.lossWindow sha as).grow s.engine t := by
  rw [lossWindow_snoc run, RxState.writerSteps, h]
  show (l.lossWindow sha as).after s.engine t = _
  rw [LossWindow.after, LossWindow.moved, sacked, closes]
  rfl

end Window

/-- The run that leads to the end of the round, and the totals of its window. -/
theorem run_huge : ∃ disk created, (hugeLaunch.state.machine id).Run Machine.anyStep hugeActs
      ⟨Receiver.hugeWrote created (.tail 1000), disk⟩ ∧
    (hugeLaunch.lossWindow id hugeActs).since 0 = 5000000 ∧
    (hugeLaunch.lossWindow id hugeActs).expected = 0 ∧
    (hugeLaunch.lossWindow id hugeActs).received = 1 := by
  obtain ⟨disk, created, hstart⟩ : ∃ disk created, hugeLaunch.state =
      ⟨Receiver.hugeEngine created hugeFile .top, disk⟩ :=
    ⟨hugeLaunch.state.fs, hugeLaunch.state.engine.createdDirs, rfl⟩
  have r0 : (hugeLaunch.state.machine id).Run Machine.anyStep [] hugeLaunch.state := .init
  -- The block is queued, and the writer thread takes the queue.
  have r1 : (hugeLaunch.state.machine id).Run Machine.anyStep [.block hugeWire]
      ⟨{ Receiver.hugeEngine created hugeFile .top with
        queue := [⟨0, 4999999, 1, [7]⟩], queueBytes := 1 }, disk⟩ := by
    refine r0.step trivial ?_
    show (hugeLaunch.state.step id (.block hugeWire)).map (·.1) = _
    rw [hstart]
    rfl
  have h2 : ({ Receiver.hugeEngine created hugeFile .top with
        queue := [⟨0, 4999999, 1, [7]⟩], queueBytes := 1 } : Receiver).writerStep id lateIo disk =
      some ({ Receiver.hugeEngine created hugeFile .waiting with
        queue := [⟨0, 4999999, 1, [7]⟩], queueBytes := 1 }, disk, []) := rfl
  have h3 : ({ Receiver.hugeEngine created hugeFile .waiting with
        queue := [⟨0, 4999999, 1, [7]⟩], queueBytes := 1 } : Receiver).writerStep id lateIo disk =
      some (Receiver.hugeEngine created hugeFile (.batch [⟨0, 4999999, 1, [7]⟩] none [] 1000), disk, []) :=
    rfl
  have r2 := run_writer r1 h2
  have r3 := run_writer r2 h3
  have h4 := Receiver.take_huge created disk
  have r4 := run_writer r3 h4
  have h5 := Receiver.flush_huge created disk
  have r5 := run_writer r4 h5
  have h6 : ∀ disk, (Receiver.hugeWrote created (.batch [] none [] 1000)).writerStep id lateIo disk =
    some (Receiver.hugeWrote created (.dones [] 1000), disk, []) := fun _ => rfl
  have h7 : ∀ disk, (Receiver.hugeWrote created (.dones [] 1000)).writerStep id lateIo disk =
    some (Receiver.hugeWrote created (.tail 1000), disk, []) := fun _ => rfl
  have r6 := run_writer r5 (h6 _)
  have r7 := run_writer r6 (h7 _)
  -- Two steps change the window: the frontier moves, the block is marked.
  have w2 := (lossWindow_grow r1 h2 rfl rfl).trans (Still.grow rfl _)
  have w3 := (lossWindow_grow r2 h3 rfl rfl).trans (Still.grow rfl _)
  have w4 := lossWindow_grow r3 h4 rfl rfl
  have w5 := lossWindow_grow r4 h5 rfl rfl
  have w6 := (lossWindow_grow r5 (h6 _) rfl rfl).trans (Still.grow rfl _)
  have w7 := (lossWindow_grow r6 (h7 _) rfl rfl).trans (Still.grow rfl _)
  have w3 := w3.trans w2
  rw [w3] at w4
  rw [w4] at w5
  have hmarked : (Receiver.hugeWrote created (.batch [] none [] 1000)).markedBlocks = 1 := by
    have hrx : (Receiver.hugeWrote created (.batch [] none [] 1000)).rx =
      [Receiver.markRun hugeTaken hugeRun] := rfl
    rw [Receiver.markedBlocks, hrx, List.map_singleton, List.sum_singleton, Receiver.count_huge]
  have hwindow : hugeLaunch.lossWindow id hugeActs = (LossWindow.fresh.grow
      (Receiver.hugeEngine created hugeFile (.batch [⟨0, 4999999, 1, [7]⟩] none [] 1000))
      (Receiver.hugeTook created)).grow (Receiver.hugeTook created)
        (Receiver.hugeWrote created (.batch [] none [] 1000)) :=
    w7.trans (w6.trans w5)
  have hbefore : (Receiver.hugeEngine created hugeFile (.batch [⟨0, 4999999, 1, [7]⟩] none [] 1000)).frontierAt
    0 = (0 : UInt32).toNat := rfl
  have htook : (Receiver.hugeTook created).frontierAt 0 = (5000000 : UInt32).toNat := rfl
  have hwrote : (Receiver.hugeWrote created (.batch [] none [] 1000)).frontierAt 0 =
    (5000000 : UInt32).toNat := rfl
  refine ⟨_, created, r7, ?_⟩
  rw [hwindow]
  refine ⟨?_, rfl, ?_⟩
  · rw [LossWindow.grow_since, LossWindow.grow_since, hbefore, htook, hwrote]
    rfl
  · rw [LossWindow.grow_received, hmarked]
    rfl

/-- The frontier jumps over 4999999 blocks, and the estimate is 141 instead of 999. -/
theorem not_estimates : ¬ ∀ (l : Launch) (sha : Bytes → Bytes) (as : List ReceiverAct) (s s' : RxState)
    (io : Io) (now : UInt32) (out : List RxEvent), (l.state.machine sha).Run Machine.anyStep as s →
      s.engine.pc = .tail now → s.engine.closesWindow = true → s.step sha (.writer io) = some (s', out) →
      s'.engine.lossPermille.toNat = ((l.lossWindow sha as).moved s.engine).permille := by
  intro h
  obtain ⟨disk, created, run, hsince, hexpected, hreceived⟩ := run_huge
  have small : ∀ f ∈ (Receiver.hugeWrote created (.tail 1000)).rx, f.bitmap.size ≤ 2 ^ 32 - 64 := by
    intro f hf
    obtain rfl := List.mem_singleton.mp hf
    have hsize : (Receiver.markRun hugeTaken hugeRun).bitmap.size = 5000000 :=
      (Receiver.setBlocks_grows _ _).1
    rw [hsize]
    decide
  obtain ⟨⟨t', out⟩, htail⟩ := Receiver.exists_tailStep small lateIo 1000
  have hwriter : (Receiver.hugeWrote created (.tail 1000)).writerStep id lateIo disk =
      some (t', disk, out) := by
    have hpc : (Receiver.hugeWrote created (.tail 1000)).writerStep id lateIo disk =
      ((Receiver.hugeWrote created (.tail 1000)).tailStep lateIo 1000).map fun r => (r.1, disk, r.2) := rfl
    rw [hpc, htail]
    rfl
  have hstep : RxState.step id ⟨Receiver.hugeWrote created (.tail 1000), disk⟩ (.writer lateIo) =
      some (⟨t', disk⟩, out) := by
    rw [RxState.step, hwriter]
    rfl
  have hcloses : (Receiver.hugeWrote created (.tail 1000)).closesWindow =
    !decide ((1000 : UInt32) - 0 < kRateWindowMs) := rfl
  have hvalue := h _ _ _ _ _ _ _ _ run rfl (hcloses.trans (by decide)) hstep
  -- The counters are right, and their product with 1000 wraps.
  obtain ⟨u, hu, -, hloss⟩ := Receiver.atRates_of_tailStep htail
  obtain ⟨tracks, -, hms⟩ := Receiver.tracks_atRates (tracks_of_run run) rfl hu
  have due : ¬(1000 : UInt32) - u.lastRateMs < kRateWindowMs := by
    have hzero : u.lastRateMs = 0 := hms
    rw [hzero]
    decide
  have hstored := Receiver.permille_updateRates due
  have hmoved : (hugeLaunch.lossWindow id hugeActs).moved (Receiver.hugeWrote created (.tail 1000)) =
      (hugeLaunch.lossWindow id hugeActs).move 0 := by
    rw [LossWindow.moved, Receiver.sacked_huge]
    rfl
  rw [hmoved] at tracks hvalue
  have htotals : ((hugeLaunch.lossWindow id hugeActs).move 0).expected = 5000000 ∧
      ((hugeLaunch.lossWindow id hugeActs).move 0).received = 1 := by
    rw [LossWindow.move_expected, LossWindow.move_received, hexpected, hsince, hreceived]
    exact ⟨Nat.zero_add _, rfl⟩
  rw [Receiver.toNat_lost, tracks.expected, tracks.received, htotals.1, htotals.2] at hstored
  rw [LossWindow.permille, htotals.1, htotals.2] at hvalue
  have hwrong : min 1000 (1000 * ((UInt32.ofNat 5000000).toNat - (UInt32.ofNat 1).toNat) % 2 ^ 32 /
      (UInt32.ofNat 5000000).toNat) = 141 := by decide +kernel
  rw [hwrong] at hstored
  have hright : 1000 * (5000000 - 1) / 5000000 = 999 := by decide +kernel
  rw [hright, hloss, hstored] at hvalue
  cases hvalue

end CrossTransfer.Transfer
