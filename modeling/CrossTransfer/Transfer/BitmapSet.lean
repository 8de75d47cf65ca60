import CrossTransfer.Transfer.BitmapFields

/-! # The bitmap is a finite set

`IndexSet` is what a bitmap is for: a set of indices below a size. Each operation of the class is
one on sets, and the class answers every question as the set does (`Represents` for a
`BlockBitmap`).

The fields alone answer so unless `Reset` wraps: where `size_t` has 32 bits, a count above
`2 ^ 32 - 64` leaves no word at all, and the first `Test` reads past the end
(`BitmapFields.answersAs_iff`).
-/

namespace CrossTransfer.Transfer

open CrossTransfer.Library
open RunPacking

/-- A call of a method that changes a `BlockBitmap`; `AckBase` moves the cached bound. -/
inductive BitmapOp where
  | reset (blockCount : UInt32)
  | set (index : UInt32)
  | setRuns (runs : List SackRun)
  | ackBase

def BlockBitmap.apply (b : BlockBitmap) : BitmapOp → BlockBitmap
  | .reset blockCount => .reset blockCount
  | .set index => (b.set index.toNat).1
  | .setRuns runs => b.setRuns runs
  | .ackBase => b.afterAckBase

/-- A finite set of indices below `size`. -/
structure IndexSet where
  size : Nat
  members : Finset Nat
  below : members ⊆ Finset.range size

namespace IndexSet

def empty (size : Nat) : IndexSet := ⟨size, ∅, Finset.empty_subset _⟩

/-- Those of the new indices join that are below the size. -/
def join (s : IndexSet) (new : Nat → Prop) [DecidablePred new] : IndexSet where
  size := s.size
  members := s.members ∪ (Finset.range s.size).filter new
  below := Finset.union_subset s.below (Finset.filter_subset ..)

def apply (s : IndexSet) : BitmapOp → IndexSet
  | .reset blockCount => .empty blockCount.toNat
  | .set index => s.join (· = index.toNat)
  | .setRuns runs => s.join fun i => ∃ r ∈ runs, r.start.toNat ≤ i ∧ i < r.start.toNat + r.length.toNat
  | .ackBase => s

theorem mem_join (s : IndexSet) (new : Nat → Prop) [DecidablePred new] (i : Nat) :
    i ∈ (s.join new).members ↔ i ∈ s.members ∨ (i < s.size ∧ new i) := by
  rw [join, Finset.mem_union, Finset.mem_filter, Finset.mem_range]

end IndexSet

/-- The bitmap stands for the set. -/
structure BlockBitmap.Represents (b : BlockBitmap) (s : IndexSet) : Prop where
  size : b.size = s.size
  test : ∀ i, b.test i = true ↔ i ∈ s.members

namespace BlockBitmap

variable {b : BlockBitmap} {s : IndexSet}

theorem represents_reset (blockCount : UInt32) :
    (reset blockCount).Represents (.empty blockCount.toNat) :=
  ⟨reset_size blockCount, fun i => by simp [IndexSet.empty]⟩

/-- One call keeps the bitmap and the set in step. -/
theorem Represents.apply (h : b.Represents s) (op : BitmapOp) : (b.apply op).Represents (s.apply op) := by
  cases op with
  | reset blockCount => exact represents_reset blockCount
  | set index =>
    refine ⟨(set_size b index.toNat).trans h.size, fun i => ?_⟩
    rw [IndexSet.apply, IndexSet.mem_join, ← h.test i, ← h.size, BlockBitmap.apply, set_test,
      Bool.or_eq_true, decide_eq_true_eq]
    refine or_congr_right ⟨?_, ?_⟩
    · rintro ⟨rfl, hin⟩
      exact ⟨hin, rfl⟩
    · rintro ⟨hin, rfl⟩
      exact ⟨rfl, hin⟩
  | setRuns runs =>
    refine ⟨(setRuns_size b runs).trans h.size, fun i => ?_⟩
    have hcovered : Covered (runs.map SackRun.span) i ↔
        ∃ r ∈ runs, r.start.toNat ≤ i ∧ i < r.start.toNat + r.length.toNat := by
      -- The runs are clipped at the size, so that only the indices below it join.
      simp [Covered, SackRun.span]
    rw [IndexSet.apply, IndexSet.mem_join, ← h.test i, ← h.size, BlockBitmap.apply, setRuns_test,
      hcovered]
  | ackBase => exact ⟨h.size, h.test⟩

theorem Represents.foldl (h : b.Represents s) (ops : List BitmapOp) :
    (ops.foldl BlockBitmap.apply b).Represents (ops.foldl IndexSet.apply s) := by
  induction ops generalizing b s with
  | nil => exact h
  | cons op ops ih => exact ih (h.apply op)

/-! ## What the methods return -/

theorem Represents.count (h : b.Represents s) : b.count = s.members.card := by
  have hmembers : setIndices b.words b.size = s.members := by
    ext i
    rw [setIndices, Finset.mem_filter, Finset.mem_range, ← test_eq, h.test i, h.size]
    exact ⟨And.right, fun hi => ⟨Finset.mem_range.mp (s.below hi), hi⟩⟩
  rw [b.count_eq, hmembers]

theorem Represents.complete (h : b.Represents s) :
    b.complete = true ↔ s.members = Finset.range s.size := by
  rw [complete_iff, h.size]
  constructor
  · intro hall
    exact s.below.antisymm fun i hi => (h.test i).mp (hall i (Finset.mem_range.mp hi))
  · intro hall i hi
    rw [h.test, hall]
    exact Finset.mem_range.mpr hi

theorem Represents.set (h : b.Represents s) (i : Nat) :
    (b.set i).2 = true ↔ i < s.size ∧ i ∉ s.members := by
  rw [← h.size, ← h.test i, test_eq, BlockBitmap.set]
  by_cases hin : i < b.size
  · by_cases hfresh : wordBit b.words i = false
    · simp [hin, hfresh]
    · simp [hin, hfresh]
  · simp [hin]

/-- The loop of `AckBase` ends at the least index that is missing. -/
theorem Represents.ackBase (h : b.Represents s) :
    b.ackBaseScan = some b.ackBase ∧ IsLeast {i | i ∉ s.members} b.ackBase := by
  constructor
  · obtain ⟨r, hscan, hbelow, -⟩ := b.ackBaseScan_spec
    have hle : r ≤ b.size := b.le_size_of_below hbelow
    rw [BlockBitmap.ackBase, hscan, Option.getD_some, min_eq_left hle]
  · constructor
    · rw [Set.mem_ofPred_eq, ← h.test, b.test_ackBase]
      simp
    · intro i hi
      rw [Set.mem_ofPred_eq, ← h.test] at hi
      by_contra hlt
      exact hi (b.test_of_lt_ackBase (Nat.not_le.mp hlt))

end BlockBitmap

/-! ## The fields -/

namespace BitmapFields

variable {f : BitmapFields} {s : IndexSet} {w : SizeT} {ops : List BitmapOp}

/-- The fields after a call; `none` is a call that reads past the words. -/
def apply (w : SizeT) (f : BitmapFields) : BitmapOp → Option BitmapFields
  | .reset blockCount => some (reset w blockCount)
  | .set index => (f.set index.toNat).map Prod.fst
  | .setRuns runs => f.setRuns runs
  | .ackBase => f.ackBase.map Prod.fst

/-- The calls, one after the other, on a new bitmap. -/
def run (w : SizeT) (ops : List BitmapOp) : Option BitmapFields := ops.foldlM (apply w) {}

/-- Every method answers as the set does, and reads no word that is not there. -/
structure AnswersAs (f : BitmapFields) (s : IndexSet) : Prop where
  size : f.size = s.size
  test : ∀ i, f.test i = some (decide (i ∈ s.members))
  count : f.count = s.members.card
  complete : f.complete = true ↔ s.members = Finset.range s.size
  set : ∀ i, (f.set i).map Prod.snd = some (decide (i < s.size ∧ i ∉ s.members))
  ackBase : ∃ base, f.ackBase.map Prod.snd = some base ∧ IsLeast {i | i ∉ s.members} base

/-- No `Reset` of the calls wraps. -/
def Fits (w : SizeT) (ops : List BitmapOp) : Prop :=
  ∀ n, .reset n ∈ ops → n.toNat + 63 < 2 ^ w.bits

theorem answersAs_fields {b : BlockBitmap} (h : b.Represents s) : b.fields.AnswersAs s where
  size := h.size
  test := by
    intro i
    rw [b.fields_test, Option.some.injEq, Bool.eq_iff_iff, decide_eq_true_eq]
    exact h.test i
  count := h.count
  complete := h.complete
  set := by
    intro i
    rw [b.fields_set, Option.map_some, Option.some.injEq, Bool.eq_iff_iff, decide_eq_true_eq]
    exact h.set i
  ackBase := by
    rw [b.fields_ackBase]
    exact ⟨b.ackBase, rfl, h.ackBase.2⟩

theorem apply_fields {op : BitmapOp} (h : Fits w [op]) (b : BlockBitmap) :
    apply w b.fields op = some (b.apply op).fields := by
  cases op with
  | reset n =>
    have hfits : n.toNat + 63 < 2 ^ w.bits := h n (List.mem_singleton_self _)
    exact congrArg some (BlockBitmap.fields_reset hfits)
  | set index => simp [apply, b.fields_set, BlockBitmap.apply]
  | setRuns runs => exact b.fields_setRuns runs
  | ackBase => simp [apply, b.fields_ackBase, BlockBitmap.apply]

/-- While no `Reset` wraps, the fields are those of a `BlockBitmap`. -/
theorem foldlM_fields (h : Fits w ops) (b : BlockBitmap) :
    ops.foldlM (apply w) b.fields = some (ops.foldl BlockBitmap.apply b).fields := by
  induction ops generalizing b with
  | nil => rfl
  | cons op ops ih =>
    have hop : Fits w [op] := fun n hn =>
      h n (List.mem_cons.mpr (.inl (List.mem_singleton.mp hn)))
    have hops : Fits w ops := fun n hn => h n (List.mem_cons_of_mem op hn)
    rw [List.foldlM_cons, apply_fields hop]
    exact ih hops (b.apply op)

theorem run_answers (h : Fits w ops) :
    ∃ f, run w ops = some f ∧ f.AnswersAs (ops.foldl IndexSet.apply (.empty 0)) :=
  ⟨_, foldlM_fields h (.reset 0),
    answersAs_fields ((BlockBitmap.represents_reset 0).foldl ops)⟩

/-- A `Reset` that wraps leaves no word. -/
theorem words_reset_of_wraps {n : UInt32} (h : 2 ^ w.bits ≤ n.toNat + 63) :
    (reset w n).words = [] := by
  have hn := n.toNat_lt
  cases w with
  | bits32 =>
    rw [SizeT.bits] at h
    have hwords : (n.toNat + 63) % 2 ^ 32 / 64 = 0 := by omega
    rw [reset, SizeT.bits, hwords, List.replicate_zero]
  -- A count has 32 bits, so that nothing wraps here.
  | bits64 =>
    rw [SizeT.bits] at h
    omega

/-- So the first index, which is below the size, is read past the end. -/
theorem test_reset_of_wraps {n : UInt32} (h : 2 ^ w.bits ≤ n.toNat + 63) :
    (reset w n).test 0 = none := by
  have hsize : ¬(reset w n).size ≤ 0 := by
    have hbits : 2 ^ 32 ≤ 2 ^ w.bits := by cases w <;> simp [SizeT.bits]
    show ¬n.toNat ≤ 0
    omega
  rw [test, if_neg hsize, words_reset_of_wraps h]
  rfl

theorem run_concat_reset {before : List BitmapOp} {n : UInt32}
    (h : run w (before ++ [.reset n]) = some f) : f = reset w n := by
  rw [run, List.foldlM_append] at h
  obtain ⟨g, -, hreset⟩ := Option.bind_eq_some_iff.mp h
  exact (Option.some.inj hreset).symm

/-- After each call of a sequence the class answers as the set of indices that the calls have made,
    exactly if no `Reset` of the sequence wraps. -/
theorem answersAs_iff (w : SizeT) (ops : List BitmapOp) :
    (∀ before, before <+: ops →
      ∃ f, run w before = some f ∧ f.AnswersAs (before.foldl IndexSet.apply (.empty 0))) ↔
      Fits w ops := by
  constructor
  · intro h n hn
    -- The prefix that ends with this `Reset` is where the class stops answering.
    by_contra hwraps
    obtain ⟨before, after, rfl⟩ := List.append_of_mem hn
    have hprefix : before ++ [.reset n] <+: before ++ .reset n :: after :=
      ⟨after, by simp⟩
    obtain ⟨f, hrun, hanswers⟩ := h _ hprefix
    have htest := hanswers.test 0
    rw [run_concat_reset hrun, test_reset_of_wraps (Nat.not_lt.mp hwraps)] at htest
    contradiction
  · intro h before hbefore
    exact run_answers fun n hn => h n (hbefore.subset hn)

/-- A bitmap of `2 ^ 32 - 1` blocks, where `size_t` has 32 bits. -/
theorem not_answersAs_wrapped :
    ¬∀ (w : SizeT) (ops : List BitmapOp),
      ∃ f, run w ops = some f ∧ f.AnswersAs (ops.foldl IndexSet.apply (.empty 0)) := by
  intro h
  obtain ⟨f, hrun, hanswers⟩ := h .bits32 [.reset 4294967295]
  have hfields : reset .bits32 4294967295 = f := Option.some.inj hrun
  have htest := hanswers.test 0
  rw [← hfields, test_reset_of_wraps (by decide)] at htest
  contradiction

end BitmapFields

end CrossTransfer.Transfer
