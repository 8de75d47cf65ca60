import CrossTransfer.Library.FixedWidth
import CrossTransfer.Transfer.Receiver
import CrossTransfer.Transfer.Sender

/-! # A SACK and the repairs it causes

`ReceiverTransfer::SendSack` describes the missing blocks of a file by at most 140 holes below
the frontier; `SenderTransfer::RepairFile` takes those holes and everything beyond the
frontier, leaves out the blocks reported at `accept`, and resends the rest.

* `clippedHoles_sound`, `clippedHoles_cover` — what is left of the hole list after it has been
  cut at the frontier.
* `sendSack_repair_iff` — a SACK makes the sender consider missing blocks only, among them the
  first one, and all of them unless the hole list was full; this fails exactly for an empty
  bitmap of more than `2 ^ 32 - 64` blocks, for which `SendSack` does not return.
-/

namespace CrossTransfer.Transfer

open CrossTransfer.Library
open BlockBitmap

theorem toNat_runEnd (f : FileTx) (run : SackRun) :
    (Sender.runEnd f run).toNat = min (run.start.toNat + run.length.toNat) f.blocks.toNat := by
  have hstart := run.start.toNat_lt
  have hlength := run.length.toNat_lt
  have hblocks := f.blocks.toNat_lt
  rw [Sender.runEnd, UInt64.toNat_toUInt32, toNat_min64, UInt64.toNat_add,
    UInt32.toNat_toUInt64, UInt32.toNat_toUInt64, UInt32.toNat_toUInt64]
  omega

/-! ## Cutting the hole list at the frontier -/

/-- The holes of a SACK: those that start below the frontier, the last one cut there. -/
def clippedHoles (frontier : UInt32) (holes : List SackRun) : List SackRun :=
  Receiver.buildSack.clipLast frontier (holes.rdropWhile fun r => frontier ≤ r.start)

section Clip

variable {b : BlockBitmap} {frontier : UInt32} {holes : List SackRun}

/-- Every run of the cut list is a run of the list, or its last run cut at the frontier. -/
theorem mem_clippedHoles {r : SackRun} (hr : r ∈ clippedHoles frontier holes) :
    r ∈ holes ∨ ∃ last ∈ holes, last.start < frontier ∧
      r = ⟨last.start, frontier - last.start⟩ ∧ frontier < last.start + last.length := by
  have prefixed := List.rdropWhile_prefix (fun r : SackRun => decide (frontier ≤ r.start)) holes
  unfold clippedHoles Receiver.buildSack.clipLast at hr
  split at hr
  · cases hr
  · rename_i last hlast
    have hmem := List.mem_of_getLast? hlast
    have below : last.start < frontier := by
      have hne : holes.rdropWhile (fun r => decide (frontier ≤ r.start)) ≠ [] := by
        intro h
        simp [h] at hlast
      have := List.rdropWhile_last_not (fun r : SackRun => decide (frontier ≤ r.start)) holes hne
      rw [List.getLast?_eq_getLast_of_ne_nil hne] at hlast
      rw [Option.some.inj hlast] at this
      simpa using this
    split at hr
    · rename_i cut
      obtain hr | hr := List.mem_append.mp hr
      · exact .inl (prefixed.subset (List.mem_of_mem_dropLast hr))
      · exact .inr ⟨last, prefixed.subset hmem, below, List.mem_singleton.mp hr, cut⟩
    · exact .inl (prefixed.subset hr)

theorem toNat_cut {last : SackRun} (below : last.start < frontier) :
    (frontier - last.start).toNat = frontier.toNat - last.start.toNat := by
  exact UInt32.toNat_sub_of_le _ _ (UInt32.le_of_lt below)

/-- A cut run covers blocks of the run it was cut from only. -/
theorem covers_of_cut {last : SackRun} (below : last.start < frontier)
    (cut : frontier < last.start + last.length) {k : Nat}
    (h : SackRun.Covers ⟨last.start, frontier - last.start⟩ k) : last.Covers k := by
  obtain ⟨hge, hlt⟩ := h
  simp only [toNat_cut below] at hge hlt
  rw [UInt32.lt_iff_toNat_lt, UInt32.toNat_add] at cut
  rw [UInt32.lt_iff_toNat_lt] at below
  have := frontier.toNat_lt
  refine ⟨hge, ?_⟩
  -- The 32-bit sum may have wrapped; the frontier is then below the exact end as well.
  omega

theorem clippedHoles_sound (sound : b.HolesSound holes) :
    b.HolesSound (clippedHoles frontier holes) := by
  intro r hr
  obtain hr | ⟨last, hlast, below, rfl, cut⟩ := mem_clippedHoles hr
  · exact sound r hr
  · obtain ⟨-, hstart, missing⟩ := sound last hlast
    refine ⟨?_, hstart, fun k hk => missing k (covers_of_cut below cut hk)⟩
    intro hzero
    have := congrArg UInt32.toNat hzero
    rw [toNat_cut below] at this
    rw [UInt32.lt_iff_toNat_lt] at below
    simp at this
    omega

theorem mem_rdropWhile {p : SackRun → Bool} {r : SackRun} (hr : r ∈ holes) (keep : p r = false) :
    r ∈ holes.rdropWhile p := by
  induction holes using List.reverseRecOn with
  | nil => cases hr
  | append_singleton init last ih =>
    rw [List.rdropWhile_concat]
    split
    · rename_i hlast
      obtain hr | hr := List.mem_append.mp hr
      · exact ih hr
      · rw [List.mem_singleton.mp hr, hlast] at keep
        cases keep
    · exact hr

/-- What the list covers below the frontier, the cut list covers too. -/
theorem clippedHoles_cover {r : SackRun} {k : Nat} (hr : r ∈ holes) (covers : r.Covers k)
    (hk : k < frontier.toNat) : ∃ r' ∈ clippedHoles frontier holes, r'.Covers k := by
  have hstart : ¬ frontier ≤ r.start := by
    rw [UInt32.le_iff_toNat_le]
    have := covers.1
    omega
  have kept : r ∈ holes.rdropWhile fun r => decide (frontier ≤ r.start) :=
    mem_rdropWhile hr (by simpa using hstart)
  unfold clippedHoles Receiver.buildSack.clipLast
  split
  · rename_i hnil
    rw [List.getLast?_eq_none_iff] at hnil
    rw [hnil] at kept
    cases kept
  · rename_i last hlast
    split
    · rw [← List.dropLast_append_getLast? last hlast] at kept
      obtain kept | kept := List.mem_append.mp kept
      · exact ⟨r, List.mem_append_left _ kept, covers⟩
      · obtain rfl := List.mem_singleton.mp kept
        refine ⟨_, List.mem_append_right _ (List.mem_singleton.mpr rfl), covers.1, ?_⟩
        have below : r.start < frontier := UInt32.not_le.mp hstart
        have := covers.1
        simp only [toNat_cut below]
        omega
    · exact ⟨r, kept, covers⟩

/-- A run is only dropped if it starts at the frontier or beyond. -/
theorem length_clippedHoles_lt (h : (clippedHoles frontier holes).length < holes.length) :
    ∃ r ∈ holes, frontier ≤ r.start := by
  have length : (clippedHoles frontier holes).length =
      (holes.rdropWhile fun r => decide (frontier ≤ r.start)).length := by
    unfold clippedHoles Receiver.buildSack.clipLast
    split
    · rename_i hnil
      rw [List.getLast?_eq_none_iff] at hnil
      rw [hnil]
    · rename_i last hlast
      split
      · have := List.length_pos_of_mem (List.mem_of_getLast? hlast)
        rw [List.length_append, List.length_dropLast, List.length_singleton]
        omega
      · rfl
  by_contra hnone
  push Not at hnone
  have same : (holes.rdropWhile fun r => decide (frontier ≤ r.start)) = holes := by
    refine List.rdropWhile_eq_self_iff.mpr fun hne => ?_
    simpa using hnone _ (List.getLast_mem hne)
  rw [length, same] at h
  exact lt_irrefl _ h

theorem length_clippedHoles_le : (clippedHoles frontier holes).length ≤ holes.length := by
  have prefixed := List.rdropWhile_prefix (fun r : SackRun => decide (frontier ≤ r.start)) holes
  refine le_trans ?_ prefixed.length_le
  unfold clippedHoles Receiver.buildSack.clipLast
  split
  · simp
  · rename_i last hlast
    have hpos : holes.rdropWhile (fun r => decide (frontier ≤ r.start)) ≠ [] := by
      intro h
      simp [h] at hlast
    split
    · rw [List.length_append, List.length_dropLast, List.length_singleton]
      have := List.length_pos_of_ne_nil hpos
      omega
    · exact le_rfl

end Clip

/-! ## The SACK on the sender's side -/

/-- A receiver's file: blocks set since the start or the last reset are below the frontier,
    and the resumed ones are still set. -/
structure ReceiverView (f : FileRx) (resumed : Nat → Prop) : Prop where
  size : f.bitmap.size = f.blocks.toNat
  kept : ∀ b, resumed b → f.bitmap.test b = true
  frontier : ∀ b, f.bitmap.test b = true → ¬ resumed b → b < f.frontier.toNat

/-- The sender's file: swept, with the resumed blocks as its skip set and `s` as its SACK. -/
structure SenderView (f : FileRx) (resumed : Nat → Prop) (g : FileTx) (s : Sack) : Prop where
  blocks : g.blocks = f.blocks
  swept : g.sweepDone = true
  skip : ∀ b, g.skip.test b = true ↔ resumed b
  seq : 0 < g.sackSeq
  stored : g.sack = s

/-- The repairs of `g` fit the bitmap of `f`. -/
structure RepairFits (f : FileRx) (g : FileTx) : Prop where
  first : f.bitmap.complete = false → Sender.Considers g f.bitmap.ackBase
  all : (f.bitmap.missingRunStarts (min f.frontier.toNat f.bitmap.size)).card ≤ 140 →
    ∀ b, Sender.Considers g b ↔ b < f.bitmap.size ∧ f.bitmap.test b = false
  only : ∀ b, Sender.Considers g b → b < f.blocks.toNat ∧ f.bitmap.test b = false

section Sack

variable {f : FileRx} {g : FileTx} {resumed : Nat → Prop} {holes : List SackRun} {s : Sack}

/-- The frontier a SACK reports. -/
def sackFrontier (f : FileRx) : UInt32 := max f.frontier (UInt32.ofNat f.bitmap.ackBase)

theorem toNat_ackBase (b : BlockBitmap) : (UInt32.ofNat b.ackBase).toNat = b.ackBase := by
  have := b.ackBase_le_size
  have := b.size_lt
  rw [UInt32.toNat_ofNat']
  omega

theorem toNat_sackFrontier (f : FileRx) :
    (sackFrontier f).toNat = max f.frontier.toNat f.bitmap.ackBase := by
  rw [sackFrontier, toNat_max32, toNat_ackBase]

/-- What the sender makes of a SACK of an incomplete file. -/
theorem considers_iff (view : SenderView f resumed g s) (incomplete : s.isComplete = false)
    (hfrontier : s.frontier = sackFrontier f) (hackBase : s.ackBase = UInt32.ofNat f.bitmap.ackBase)
    (b : Nat) :
    Sender.Considers g b ↔ b < f.blocks.toNat ∧ ¬ resumed b ∧
      ((∃ r ∈ s.holes, r.Covers b) ∨ (sackFrontier f).toNat ≤ b) := by
  have tailStart : max s.frontier s.ackBase = sackFrontier f := by
    rw [hfrontier, hackBase, sackFrontier, ← UInt32.toNat_inj]
    simp only [toNat_max32, toNat_ackBase]
    omega
  -- Beyond the frontier of the SACK the whole tail is one more hole.
  have listed : Sender.repairHoles g = if sackFrontier f < f.blocks then
      s.holes ++ [⟨sackFrontier f, f.blocks - sackFrontier f⟩] else s.holes := by
    simp [Sender.repairHoles, view.seq, view.stored, incomplete, tailStart, view.swept, view.blocks]
  have inRun : ∀ r : SackRun, (r.start.toNat ≤ b ∧ b < (Sender.runEnd g r).toNat) ↔
      r.Covers b ∧ b < f.blocks.toNat := by
    intro r
    rw [toNat_runEnd, view.blocks, SackRun.Covers]
    omega
  have notSkipped : g.skip.test b = false ↔ ¬ resumed b := by
    rw [← view.skip b, Bool.not_eq_true]
  have inTail : sackFrontier f < f.blocks → b < f.blocks.toNat →
      (SackRun.Covers ⟨sackFrontier f, f.blocks - sackFrontier f⟩ b ↔
        (sackFrontier f).toNat ≤ b) := by
    intro hlt hb
    rw [SackRun.Covers, UInt32.toNat_sub_of_le _ _ (UInt32.le_of_lt hlt)]
    rw [UInt32.lt_iff_toNat_lt] at hlt
    simp only
    omega
  unfold Sender.Considers
  rw [listed]
  constructor
  · rintro ⟨r, hr, hstart, hend, hskip⟩
    obtain ⟨hcovers, hb⟩ := (inRun r).mp ⟨hstart, hend⟩
    refine ⟨hb, notSkipped.mp hskip, ?_⟩
    split at hr
    · rename_i hlt
      obtain hr | hr := List.mem_append.mp hr
      · exact .inl ⟨r, hr, hcovers⟩
      · rw [List.mem_singleton.mp hr] at hcovers
        exact .inr ((inTail hlt hb).mp hcovers)
    · exact .inl ⟨r, hr, hcovers⟩
  · rintro ⟨hb, hskip, ⟨r, hr, hcovers⟩ | htail⟩
    · obtain ⟨hstart, hend⟩ := (inRun r).mpr ⟨hcovers, hb⟩
      refine ⟨r, ?_, hstart, hend, notSkipped.mpr hskip⟩
      split
      · exact List.mem_append_left _ hr
      · exact hr
    · have hlt : sackFrontier f < f.blocks := by
        rw [UInt32.lt_iff_toNat_lt]
        omega
      obtain ⟨hstart, hend⟩ := (inRun _).mpr ⟨(inTail hlt hb).mpr htail, hb⟩
      exact ⟨_, by rw [if_pos hlt]; simp, hstart, hend, notSkipped.mpr hskip⟩

/-- The cut hole list covers every missing block below the frontier, unless the list is full
    and a further missing run starts below the frontier. -/
theorem clippedHoles_complete (result : f.bitmap.HolesResult kSackMaxRuns holes) {b : Nat}
    (hb : b < f.bitmap.size) (missing : f.bitmap.test b = false) (below : b < (sackFrontier f).toNat)
    (room : b = f.bitmap.ackBase ∨
      (f.bitmap.missingRunStarts (min f.frontier.toNat f.bitmap.size)).card ≤ 140) :
    ∃ r ∈ clippedHoles (sackFrontier f) holes, r.Covers b := by
  have above : f.bitmap.ackBase ≤ b := by
    by_contra hlt
    simp [f.bitmap.test_of_lt_ackBase (Nat.not_le.mp hlt)] at missing
  suffices listed : ∃ r ∈ holes, r.Covers b by
    obtain ⟨r, hr, hcovers⟩ := listed
    exact clippedHoles_cover hr hcovers below
  obtain full | ⟨i, hlength, cut⟩ := result.cover
  · exact full b hb hb missing
  by_cases hi : b < i
  · exact cut.cover b hi hb missing
  -- The list stopped at `i ≤ b`: it is full, so some run starts below `i`.
  have hcard : (f.bitmap.missingRunStarts i).card = 140 := by
    rw [← cut.card, hlength, kSackMaxRuns_eq]
  have startsAbove : ∀ k ∈ f.bitmap.missingRunStarts i, f.bitmap.ackBase ≤ k := by
    intro k hk
    obtain ⟨-, hunset, -⟩ := Finset.mem_filter.mp hk
    by_contra hlt
    simp [f.bitmap.test_of_lt_ackBase (Nat.not_le.mp hlt)] at hunset
  obtain ⟨k, hk⟩ : (f.bitmap.missingRunStarts i).Nonempty := by
    rw [← Finset.card_pos, hcard]
    norm_num
  have hki : k < i := Finset.mem_range.mp (Finset.mem_filter.mp hk).1
  have hak := startsAbove k hk
  obtain hfirst | hroom := room
  · omega
  -- `b` belongs to a run that starts between `i` and the frontier.
  have set : f.bitmap.test i = true := by
    obtain hbase | hsize | hset := cut.boundary
    · omega
    · omega
    · exact hset
  obtain ⟨start, hstart, hunset, hprev⟩ :
      ∃ start, (i < start ∧ start ≤ b) ∧ f.bitmap.test start = false ∧
        f.bitmap.test (start - 1) = true := by
    exact f.bitmap.exists_run_start set (by omega) missing
  have grown : insert start (f.bitmap.missingRunStarts i) ⊆
      f.bitmap.missingRunStarts (min f.frontier.toNat f.bitmap.size) := by
    have hfront : b < f.frontier.toNat := by
      rw [toNat_sackFrontier] at below
      omega
    intro j hj
    obtain rfl | hj := Finset.mem_insert.mp hj
    · exact Finset.mem_filter.mpr ⟨Finset.mem_range.mpr (by omega), hunset, .inr hprev⟩
    · obtain ⟨hrange, hrest⟩ := Finset.mem_filter.mp hj
      have := Finset.mem_range.mp hrange
      exact Finset.mem_filter.mpr ⟨Finset.mem_range.mpr (by omega), hrest⟩
  have := Finset.card_le_card grown
  rw [Finset.card_insert_of_notMem, hcard] at this
  · omega
  · intro hmem
    have := Finset.mem_range.mp (Finset.mem_filter.mp hmem).1
    omega

theorem repairFits_of_holes (receiver : ReceiverView f resumed) (sender : SenderView f resumed g s)
    (hflag : s.isComplete = false)
    (hfrontier : s.frontier = sackFrontier f) (hackBase : s.ackBase = UInt32.ofNat f.bitmap.ackBase)
    (hholes : s.holes = clippedHoles (sackFrontier f) holes)
    (result : f.bitmap.HolesResult kSackMaxRuns holes) : RepairFits f g := by
  have considers := considers_iff sender hflag hfrontier hackBase
  have notResumed : ∀ b, f.bitmap.test b = false → ¬ resumed b := by
    intro b missing hres
    rw [receiver.kept b hres] at missing
    cases missing
  have only : ∀ b, Sender.Considers g b → b < f.blocks.toNat ∧ f.bitmap.test b = false := by
    intro b hb
    obtain ⟨hlt, hskip, ⟨r, hr, hcovers⟩ | htail⟩ := (considers b).mp hb
    · rw [hholes] at hr
      have missing := (clippedHoles_sound result.sound r hr).2.2 b hcovers
      exact ⟨hlt, missing (by rw [receiver.size]; exact hlt)⟩
    · refine ⟨hlt, ?_⟩
      by_contra hset
      have := receiver.frontier b (by simpa using hset) hskip
      rw [toNat_sackFrontier] at htail
      omega
  have covered : ∀ b, b < f.bitmap.size → f.bitmap.test b = false →
      (b = f.bitmap.ackBase ∨
        (f.bitmap.missingRunStarts (min f.frontier.toNat f.bitmap.size)).card ≤ 140) →
      Sender.Considers g b := by
    intro b hb missing room
    refine (considers b).mpr ⟨by rw [← receiver.size]; exact hb, notResumed b missing, ?_⟩
    by_cases below : b < (sackFrontier f).toNat
    · rw [hholes]
      exact .inl (clippedHoles_complete result hb missing below room)
    · exact .inr (Nat.not_lt.mp below)
  refine ⟨fun h => ?_, fun hroom b => ⟨fun hb => ?_, fun hb => covered b hb.1 hb.2 (.inr hroom)⟩, only⟩
  · exact covered _ ((f.bitmap.ackBase_lt_size_iff).mpr h) f.bitmap.test_ackBase (.inl rfl)
  · rw [receiver.size]
    exact only b hb

/-- A SACK of a complete file stops all repairs. -/
theorem repairFits_of_complete (sender : SenderView f resumed g s)
    (complete : f.bitmap.complete = true) (hflag : s.isComplete = true) : RepairFits f g := by
  have none : ∀ b, ¬ Sender.Considers g b := by
    rintro b ⟨r, hr, -⟩
    simp [Sender.repairHoles, sender.seq, sender.stored ▸ hflag] at hr
  have full := (complete_iff f.bitmap).mp complete
  refine ⟨fun h => by simp [complete] at h, fun _ b => ⟨fun h => absurd h (none b), ?_⟩,
    fun b h => absurd h (none b)⟩
  rintro ⟨hb, missing⟩
  rw [full b hb] at missing
  cases missing

end Sack

/-- `SendSack` builds `s`: the scan of the bitmap returns. -/
def BuildsSack (f : FileRx) (rate : Int64) (loss : UInt16) (s : Sack) : Prop :=
  ∃ fuel, Receiver.buildSack fuel f rate loss = some s

section Build

variable {f : FileRx} {rate : Int64} {loss : UInt16} {s : Sack}

/-- A SACK that is built: of a complete file, or with the cut list of its holes. -/
theorem buildsSack_cases (h : BuildsSack f rate loss s) :
    s.frontier = sackFrontier f ∧ s.ackBase = UInt32.ofNat f.bitmap.ackBase ∧
    ((f.bitmap.complete = true ∧ s.isComplete = true ∧ s.holes = []) ∨
      (f.bitmap.complete = false ∧ s.isComplete = false ∧
        ∃ holes, f.bitmap.HolesResult kSackMaxRuns holes ∧
          s.holes = clippedHoles (sackFrontier f) holes)) := by
  obtain ⟨fuel, h⟩ := h
  obtain ⟨holes, hholes, rfl⟩ := Option.map_eq_some_iff.mp h
  refine ⟨rfl, rfl, ?_⟩
  cases hcomplete : f.bitmap.complete with
  | true =>
    rw [hcomplete, if_pos rfl] at hholes
    cases hholes
    exact .inl ⟨rfl, by simp [Sack.isComplete, kSackFlagComplete], rfl⟩
  | false =>
    rw [hcomplete, if_neg (by simp)] at hholes
    refine .inr ⟨rfl, by simp [Sack.isComplete, kSackFlagComplete], holes, ?_, rfl⟩
    have enough : fuel ≤ max fuel (f.bitmap.size + 1) := le_max_left ..
    exact holes_spec (by norm_num [kSackMaxRuns_eq]) (by omega) (holesFuel_mono enough hholes)

theorem fileIndex_of_builds (h : BuildsSack f rate loss s) : s.fileIndex = f.index := by
  obtain ⟨fuel, h⟩ := h
  obtain ⟨holes, -, rfl⟩ := Option.map_eq_some_iff.mp h
  rfl

/-- The blocks a SACK says have been received. -/
def Sack.Reports (s : Sack) (b : Nat) : Prop :=
  s.isComplete = true ∨ b < s.ackBase.toNat ∨
    s.holes.length < kSackMaxRuns ∧ b < s.frontier.toNat ∧ ∀ r ∈ s.holes, ¬ r.Covers b

/-- A SACK reports only blocks that have been received. -/
theorem test_of_reports (h : BuildsSack f rate loss s) {b : Nat} (hb : b < f.bitmap.size)
    (reports : s.Reports b) : f.bitmap.test b = true := by
  obtain ⟨hfrontier, hackBase, ⟨hcomplete, -, -⟩ | ⟨-, hflag, holes, result, hholes⟩⟩ :=
    buildsSack_cases h
  · exact (complete_iff f.bitmap).mp hcomplete b hb
  obtain hcomplete | hlow | ⟨hroom, hfront, houtside⟩ := reports
  · rw [hflag] at hcomplete
    cases hcomplete
  · rw [hackBase, toNat_ackBase] at hlow
    exact f.bitmap.test_of_lt_ackBase hlow
  rw [hholes] at hroom houtside
  rw [hfrontier] at hfront
  by_contra hunset
  have missing : f.bitmap.test b = false := by simpa using hunset
  have uncovered : ¬ ∃ r ∈ holes, r.Covers b := by
    rintro ⟨r, hr, hcovers⟩
    obtain ⟨r', hr', hcovers'⟩ := clippedHoles_cover hr hcovers hfront
    exact houtside r' hr' hcovers'
  obtain full | ⟨i, hlength, cut⟩ := result.cover
  · exact uncovered (full b hb hb missing)
  -- The list was full and a run was dropped, so it reaches beyond the frontier.
  obtain ⟨r, hr, hbeyond⟩ := length_clippedHoles_lt (hlength ▸ hroom)
  have := cut.starts r hr
  rw [UInt32.le_iff_toNat_le] at hbeyond
  exact uncovered (cut.cover b (by omega) hb missing)

/-- A SACK survives the wire: its holes are few and not empty. -/
theorem decodeSack_of_builds (h : BuildsSack f rate loss s) :
    decodeSack (encodeSack s) = some s := by
  have table : s.holes.length ≤ kSackMaxRuns ∧ ∀ r ∈ s.holes, r.length ≠ 0 := by
    obtain ⟨-, -, ⟨-, -, hholes⟩ | ⟨-, -, holes, result, hholes⟩⟩ := buildsSack_cases h
    · simp [hholes]
    · rw [hholes]
      exact ⟨le_trans length_clippedHoles_le result.length,
        fun r hr => (clippedHoles_sound result.sound r hr).1⟩
  rw [decodeSack_encodeSack s table.2, List.take_of_length_le table.1]

/-- `SendSack` returns unless no block of a bitmap of more than `2 ^ 32 - 64` blocks is set. -/
theorem exists_buildsSack_iff (f : FileRx) (rate : Int64) (loss : UInt16) :
    (∃ s, BuildsSack f rate loss s) ↔
      ¬ (2 ^ 32 - 64 < f.bitmap.size ∧ ∀ b, f.bitmap.test b = false) := by
  constructor
  · rintro ⟨s, fuel, h⟩ ⟨large, empty⟩
    obtain ⟨holes, hholes, -⟩ := Option.map_eq_some_iff.mp h
    have incomplete : f.bitmap.complete = false := by
      by_contra hcomplete
      have := (complete_iff f.bitmap).mp (by simpa using hcomplete) 0 (by omega)
      simp [empty] at this
    rw [incomplete, if_neg (by simp), holes_diverges _ _ (by norm_num [kSackMaxRuns_eq]) large empty]
      at hholes
    cases hholes
  · intro condition
    have stops : f.bitmap.size ≤ 2 ^ 32 - 64 ∨ ∃ k, f.bitmap.test k = true := by
      by_contra hnot
      push Not at hnot
      exact condition ⟨hnot.1, fun b => by simpa using hnot.2 b⟩
    obtain ⟨holes, hholes⟩ := holes_total f.bitmap kSackMaxRuns (by norm_num [kSackMaxRuns_eq]) stops
    have listed : ∃ holes, (if f.bitmap.complete then some []
        else f.bitmap.holesFuel scanFuel f.bitmap.ackBase kSackMaxRuns) = some holes := by
      split
      · exact ⟨[], rfl⟩
      · exact ⟨holes, hholes⟩
    obtain ⟨holes, hholes⟩ := listed
    exact ⟨_, scanFuel, Option.map_eq_some_iff.mpr ⟨holes, hholes, rfl⟩⟩

end Build

/-- Repair covers what is missing: `SendSack` builds a SACK, the SACK decodes, and the repairs of
    every swept sender that stores it fit the bitmap. -/
def SackRepairs (f : FileRx) (resumed : Nat → Prop) (rate : Int64) (loss : UInt16) : Prop :=
  (∃ s, BuildsSack f rate loss s) ∧ ∀ s, BuildsSack f rate loss s →
    ∃ s', decodeSack (encodeSack s) = some s' ∧ ∀ g, SenderView f resumed g s' → RepairFits f g

/-- Repair covers what is missing exactly when the bitmap has a block set or at most
    `2 ^ 32 - 64` blocks. -/
theorem sendSack_repair_iff (f : FileRx) (resumed : Nat → Prop) (rate : Int64) (loss : UInt16)
    (receiver : ReceiverView f resumed) :
    SackRepairs f resumed rate loss ↔
      ¬ (2 ^ 32 - 64 < f.blocks.toNat ∧ ∀ b, f.bitmap.test b = false) := by
  rw [SackRepairs, exists_buildsSack_iff, ← receiver.size]
  constructor
  · exact fun h => h.1
  · refine fun condition => ⟨condition, fun s hs => ⟨s, decodeSack_of_builds hs, fun g sender => ?_⟩⟩
    obtain ⟨hfrontier, hackBase, ⟨complete, hflag, -⟩ | ⟨-, hflag, holes, result, hholes⟩⟩ :=
      buildsSack_cases hs
    · exact repairFits_of_complete sender complete hflag
    · exact repairFits_of_holes receiver sender hflag hfrontier hackBase hholes result

/-- A file of three blocks of which the second has arrived. -/
def middleBlockFile : FileRx :=
  { Receiver.freshFile [] [] 0 ⟨[], 3300⟩ with
    bitmap := ((BlockBitmap.reset 3).set 1).1
    frontier := 2 }

theorem sendSack_repair_middleBlock : SackRepairs middleBlockFile (fun _ => False) 0 0 := by
  refine (sendSack_repair_iff middleBlockFile (fun _ => False) 0 0 ⟨by decide, by simp, ?_⟩).mpr ?_
  · intro b hset _
    rw [show middleBlockFile.bitmap = ((BlockBitmap.reset 3).set 1).1 from rfl, set_test] at hset
    simp at hset
    subst hset
    decide
  · rintro ⟨-, empty⟩
    exact absurd (empty 1) (by decide)

/-- A file of the largest admitted size before its first block. -/
def largestFile : FileRx := Receiver.freshFile [] [] 0 ⟨[], UInt64.ofNat kMaxFileSize⟩

theorem sendSack_repair_largestFile :
    ¬ ∀ (f : FileRx) (resumed : Nat → Prop) (rate : Int64) (loss : UInt16),
      ReceiverView f resumed → SackRepairs f resumed rate loss := by
  intro repairs
  have blocks : largestFile.blocks = 0xFFFFFFFF := by decide
  have empty : ∀ b, largestFile.bitmap.test b = false := fun b => reset_test _ b
  obtain ⟨returns, -⟩ := repairs largestFile (fun _ => False) 0 0
    ⟨rfl, by simp, fun b hset => by simp [empty] at hset⟩
  refine (exists_buildsSack_iff largestFile 0 0).mp returns ⟨?_, empty⟩
  rw [show largestFile.bitmap.size = largestFile.blocks.toNat from rfl, blocks]
  decide

end CrossTransfer.Transfer
