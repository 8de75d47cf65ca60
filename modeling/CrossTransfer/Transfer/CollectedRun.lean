import CrossTransfer.Transfer.BlockLayout
import CrossTransfer.Transfer.ReceiverMachine

/-! # The run that HandleBatch collects

A run stands for the pending blocks it was built from (`Collected`): they are consecutive blocks of
one file that are still missing, and each but the last is as long as blocks get, so a payload lies in
the data of the run where its block lies in the file (`Collected.slice`).
-/

namespace CrossTransfer.Transfer

open CrossTransfer.Library

/-- A block that came in as a datagram. -/
def Received (as : List ReceiverAct) (p : Pending) : Prop :=
  ∃ wire h payload, ReceiverAct.block wire ∈ as ∧ decodeBlock wire = some (h, payload) ∧
    p = ⟨h.fileIndex, h.blockIndex, h.len, payload⟩

theorem Received.mono {as bs : List ReceiverAct} {p : Pending} (h : Received as p)
    (more : ∀ a ∈ as, a ∈ bs) : Received bs p := by
  obtain ⟨wire, header, payload, hmem, hdecode, hp⟩ := h
  exact ⟨wire, header, payload, more _ hmem, hdecode, hp⟩

theorem length_of_decodeBlock {data payload : Bytes} {h : BlockHeader}
    (hdecode : decodeBlock data = some (h, payload)) :
    payload.length = h.len.toNat ∧ h.len.toNat ≤ kBlockPayloadSize := by
  unfold decodeBlock at hdecode
  split at hdecode
  · cases hdecode
  · split at hdecode
    · cases hdecode
    · dsimp only at hdecode
      split at hdecode
      · cases hdecode
      · rename_i hsmall
        split at hdecode
        · cases hdecode
        · rename_i hlength
          cases hdecode
          rw [List.length_drop, not_not.mp hlength, Nat.add_sub_cancel_left]
          exact ⟨rfl, Nat.not_lt.mp hsmall⟩

theorem Received.length {as : List ReceiverAct} {p : Pending} (h : Received as p) :
    p.payload.length = p.len.toNat ∧ p.payload.length ≤ kBlockPayloadSize := by
  obtain ⟨wire, header, payload, -, hdecode, rfl⟩ := h
  obtain ⟨hlength, hsmall⟩ := length_of_decodeBlock hdecode
  exact ⟨hlength, hlength ▸ hsmall⟩

/-! ## Pieces of one length -/

section Pieces

variable {α β : Type*} {pieces : α → List β} {n : Nat}

/-- The data of pieces of length `n`, a last one of any length apart, has the piece `j` at `n * j`. -/
theorem slice_flatMap {xs : List α} (full : ∀ x ∈ xs.dropLast, (pieces x).length = n) {j : Nat} {x : α}
    (hx : xs[j]? = some x) :
    ((xs.flatMap pieces).drop (j * n)).take (pieces x).length = pieces x := by
  induction xs generalizing j with
  | nil => cases hx
  | cons y ys ih =>
    cases j with
    | zero =>
      cases hx
      rw [Nat.zero_mul, List.drop_zero, List.flatMap_cons, List.take_left']
      rfl
    | succ j =>
      have hys : ys[j]? = some x := hx
      cases ys with
      | nil => cases hys
      | cons z zs =>
        rw [List.dropLast_cons_cons, List.forall_mem_cons] at full
        have hy : (pieces y).length = n := full.1
        rw [List.flatMap_cons, Nat.succ_mul, Nat.add_comm, ← List.drop_drop, List.drop_left' hy]
        exact ih full.2 hys

/-- Pieces of length at most `n` that are together as long as pieces of length `n` are of this
    length. -/
theorem full_of_length {xs : List α} (short : ∀ x ∈ xs, (pieces x).length ≤ n)
    (total : (xs.flatMap pieces).length = xs.length * n) : ∀ x ∈ xs, (pieces x).length = n := by
  have bound : ∀ ys : List α, (∀ x ∈ ys, (pieces x).length ≤ n) →
      (ys.flatMap pieces).length ≤ ys.length * n := by
    intro ys hys
    induction ys with
    | nil => simp
    | cons y ys ih =>
      rw [List.forall_mem_cons] at hys
      rw [List.flatMap_cons, List.length_append, List.length_cons, Nat.succ_mul]
      have := ih hys.2
      omega
  induction xs with
  | nil => simp
  | cons x xs ih =>
    rw [List.forall_mem_cons] at short ⊢
    rw [List.flatMap_cons, List.length_append, List.length_cons, Nat.succ_mul] at total
    have hrest := bound xs short.2
    have hfirst := short.1
    exact ⟨by omega, ih short.2 (by omega)⟩

end Pieces

/-! ## The blocks of a run -/

/-- The run `run` has been built from the pending blocks `ps`, all missing in the file `f`. -/
structure Collected (f : FileRx) (run : BlockRun) (ps : List Pending) : Prop where
  nonempty : ps ≠ []
  file : ∀ p ∈ ps, p.file = run.file
  fresh : ∀ p ∈ ps, Fresh f p
  length : ∀ p ∈ ps, p.payload.length = p.len.toNat ∧ p.payload.length ≤ kBlockPayloadSize
  blocks : run.blocks = ps.map (·.block)
  data : run.data = ps.flatMap (·.payload)
  order : ∀ (j : Nat) (p : Pending), ps[j]? = some p → p.block.toNat = run.first.toNat + j
  full : ∀ p ∈ ps.dropLast, p.payload.length = kBlockPayloadSize

variable {f g : FileRx} {run : BlockRun} {ps : List Pending} {p : Pending}

/-- What `Fresh` looks at is no bookkeeping. -/
theorem Fresh.of_core (h : Fresh f p) (hcore : g.core = f.core) : Fresh g p := by
  have hverified := congrArg FileRx.verified hcore
  have hblocks := congrArg FileRx.blocks hcore
  have hsize := congrArg FileRx.size hcore
  have htest := congrArg (fun x : FileRx => x.bitmap.test p.block.toNat) hcore
  refine ⟨hverified.trans h.verified, ?_, ?_, Eq.trans htest h.missing⟩
  · rw [show g.blocks = f.blocks from hblocks]
    exact h.inside
  · rw [show g.size = f.size from hsize]
    exact h.len

theorem Collected.of_core (h : Collected f run ps) (hcore : g.core = f.core) :
    Collected g run ps :=
  { h with fresh := fun p hp => (h.fresh p hp).of_core hcore }

/-- A run of one block. -/
theorem collected_single (fresh : Fresh f p)
    (length : p.payload.length = p.len.toNat ∧ p.payload.length ≤ kBlockPayloadSize) :
    Collected f (Receiver.extendRun none p) [p] where
  nonempty := List.cons_ne_nil _ _
  file := by simp [Receiver.extendRun]
  fresh := by simpa using fresh
  length := by simpa using length
  blocks := rfl
  data := by simp [Receiver.extendRun]
  order := by
    intro j q hq
    obtain ⟨rfl, rfl⟩ : j = 0 ∧ p = q := by simpa [List.getElem?_singleton] using hq
    rfl
  full := by simp

/-- The run goes on with a block that is contiguous to it. -/
theorem Collected.extend (h : Collected f run ps) (fresh : Fresh f p)
    (length : p.payload.length = p.len.toNat ∧ p.payload.length ≤ kBlockPayloadSize)
    (contiguous : Receiver.contiguous run p = true) :
    Collected f (Receiver.extendRun (some run) p) (ps ++ [p]) := by
  simp only [Receiver.contiguous, Bool.and_eq_true, beq_iff_eq] at contiguous
  obtain ⟨⟨hfile, hnext⟩, htotal⟩ := contiguous
  have hfull : ∀ q ∈ ps, q.payload.length = kBlockPayloadSize := by
    refine full_of_length (fun q hq => (h.length q hq).2) ?_
    rw [← h.data, htotal, h.blocks, List.length_map]
  have horder : p.block.toNat = run.first.toNat + ps.length := by
    obtain ⟨last, hlast⟩ : ∃ last, ps.getLast? = some last :=
      ⟨_, List.getLast?_eq_some_getLast h.nonempty⟩
    rw [h.blocks, List.getLast?_map, hlast] at hnext
    have hblock : p.block = last.block + 1 := by simpa using hnext
    have hmem := List.mem_of_getLast? hlast
    rw [List.getLast?_eq_getElem?] at hlast
    have hat := h.order _ last hlast
    have hpos := List.length_pos_iff.mpr h.nonempty
    -- The last block lies inside the file, so the next index does not wrap.
    have hinside := UInt32.lt_iff_toNat_lt.mp (h.fresh last hmem).inside
    have hblocks := f.blocks.toNat_lt
    have hone : (1 : UInt32).toNat = 1 := rfl
    rw [hblock, UInt32.toNat_add, hone, Nat.mod_eq_of_lt (by omega)]
    omega
  refine ⟨by simp, ?_, ?_, ?_, ?_, ?_, ?_, ?_⟩
  · intro q hq
    obtain hq | hq := List.mem_append.mp hq
    · exact h.file q hq
    · rw [List.mem_singleton.mp hq]
      exact hfile.symm
  · intro q hq
    obtain hq | hq := List.mem_append.mp hq
    · exact h.fresh q hq
    · exact List.mem_singleton.mp hq ▸ fresh
  · intro q hq
    obtain hq | hq := List.mem_append.mp hq
    · exact h.length q hq
    · exact List.mem_singleton.mp hq ▸ length
  · rw [Receiver.extendRun, h.blocks, List.map_append, List.map_singleton]
  · rw [Receiver.extendRun, h.data, List.flatMap_append, List.flatMap_singleton]
  · intro j q hq
    rw [List.getElem?_append] at hq
    split at hq
    · exact h.order j q hq
    · rename_i hge
      obtain ⟨hzero, rfl⟩ : j - ps.length = 0 ∧ p = q := by
        simpa [List.getElem?_singleton] using hq
      obtain rfl : j = ps.length := by omega
      exact horder
  · rw [List.dropLast_concat]
    exact hfull

/-- Where the payload of a block lies in the data of the run. -/
theorem Collected.slice (h : Collected f run ps) (hp : p ∈ ps) :
    run.first.toNat * kBlockPayloadSize ≤ p.block.toNat * kBlockPayloadSize ∧
    (run.data.drop (p.block.toNat * kBlockPayloadSize - run.first.toNat * kBlockPayloadSize)).take
      p.payload.length = p.payload := by
  obtain ⟨j, hj⟩ := List.mem_iff_getElem?.mp hp
  rw [h.order j p hj, Nat.add_mul, Nat.add_sub_cancel_left, h.data]
  exact ⟨Nat.le_add_right .., slice_flatMap h.full hj⟩

theorem Collected.mem_blocks (h : Collected f run ps) {b : UInt32} (hb : b ∈ run.blocks) :
    ∃ p ∈ ps, p.block = b := by
  rw [h.blocks] at hb
  exact List.mem_map.mp hb

end CrossTransfer.Transfer
