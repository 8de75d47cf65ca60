import CrossTransfer.Library.FixedWidth
import CrossTransfer.Library.ListSums
import CrossTransfer.Transfer.ManifestTree
import CrossTransfer.Transfer.SenderRun

/-! # The totals of the sender

`files_done_` and `bytes_acked_` are adjusted by `Start`, `OnSack`, `OnFileBad` and `OnFileOk`, what
they add up is kept with each file. `Ledger` relates the two: a file that has been acknowledged
counts with its size, another one with its `acked_bytes`. `OnFileBad` and `OnFileOk` keep it in every
state, a SACK if it reports no more of an acknowledged file than is known already, and `Start`
brings it about if no file is listed twice. The sender thread touches neither side.
-/

namespace CrossTransfer.Transfer

open CrossTransfer.Library

/-- The bytes of a file that count as acknowledged. -/
def FileTx.credit (f : FileTx) : UInt64 := if f.ok then f.size else f.ackedBytes

theorem FileTx.credit_le {f : FileTx} (h : f.ackedBytes ≤ f.size) : f.credit ≤ f.size := by
  unfold credit
  split
  · exact UInt64.le_refl _
  · exact h

/-- The bytes a SACK acknowledges of a file. -/
def Sack.acknowledges (s : Sack) (f : FileTx) : UInt64 :=
  if s.isComplete then f.size else min (s.receivedCount.toUInt64 * UInt64.ofNat kBlockPayloadSize) f.size

theorem Sack.acknowledges_le (s : Sack) (f : FileTx) : s.acknowledges f ≤ f.size := by
  rw [UInt64.le_iff_toNat_le, acknowledges]
  split
  · exact Nat.le_refl _
  · rw [toNat_min64]
    exact Nat.min_le_right _ _

namespace Sender

variable {t t' : Sender} {sha : Bytes → Bytes} {io : TxIo} {out : List TxEvent}

/-- The totals agree with the files of an engine for at most `count` files of `total` bytes. -/
structure Ledger (count total : Nat) (t : Sender) : Prop where
  count : t.tx.length ≤ count
  sizes : (t.tx.map (·.size.toNat)).sum ≤ total
  within : ∀ f ∈ t.tx, f.ackedBytes ≤ f.size
  done : t.filesDone.toNat = t.tx.countP (·.ok)
  acked : t.bytesAcked.toNat = (t.tx.map (·.credit.toNat)).sum

/-! ## The sender thread -/

theorem Ledger.senderStep {count total : Nat} (h : Ledger count total t)
    (hstep : t.senderStep sha io = some (t', out)) : Ledger count total t' := by
  have shared := shared_of_senderStep hstep
  have totals := outer_senderStep hstep
  -- Everything the ledger reads of a file is shared between the threads.
  have read : ∀ {β : Type} (g : FileTx → β), (∀ f, g f = g f.shared) →
      t'.tx.map g = t.tx.map g := by
    intro β g hg
    have hmap := congrArg (List.map g) shared
    simp only [List.map_map, Function.comp_def, ← hg] at hmap
    exact hmap
  have hok := congrArg (List.countP id) (read (·.ok) fun _ => rfl)
  rw [List.countP_map, List.countP_map] at hok
  refine ⟨?_, ?_, fun f' hf' => ?_, ?_, ?_⟩
  · have hlength := congrArg List.length shared
    simp only [List.length_map] at hlength
    exact hlength ▸ h.count
  · rw [read (·.size.toNat) fun _ => rfl]
    exact h.sizes
  · have hmem : (f'.ackedBytes, f'.size) ∈ t.tx.map fun f => (f.ackedBytes, f.size) :=
      read (fun f => (f.ackedBytes, f.size)) (fun _ => rfl) ▸ List.mem_map_of_mem hf'
    obtain ⟨f, hf, heq⟩ := List.mem_map.mp hmem
    obtain ⟨hacked, hsize⟩ := Prod.mk.inj heq
    rw [← hacked, ← hsize]
    exact h.within f hf
  · rw [(Prod.mk.inj (Prod.mk.inj totals).2).1, h.done]
    exact hok.symm
  · rw [(Prod.mk.inj (Prod.mk.inj totals).2).2, h.acked, read (·.credit.toNat) fun _ => rfl]

/-! ## The calls -/

/-- There is room for the rest of a file. -/
theorem Ledger.room {count total : Nat} (h : Ledger count total t) {i : Nat} {f : FileTx}
    (hf : t.tx[i]? = some f) : t.bytesAcked.toNat + f.size.toNat ≤ total + f.credit.toNat := by
  have hle : ∀ g ∈ t.tx, g.credit.toNat ≤ g.size.toNat := fun g hg =>
    UInt64.le_iff_toNat_le.mp (FileTx.credit_le (h.within g hg))
  have hraise := sum_map_raise hle hf
  have hsizes := h.sizes
  rw [h.acked]
  omega

/-- There is a number for a file that has not been counted yet. -/
theorem Ledger.done_add_one {count total : Nat} (h : Ledger count total t) (hcount : count < 2 ^ 32)
    {i : Nat} {f : FileTx} (hf : t.tx[i]? = some f) (hok : f.ok = false) :
    (t.filesDone + 1).toNat = t.filesDone.toNat + 1 := by
  have hset := countP_set (·.ok) t.tx { f with ok := true } hf
  have hle := List.countP_le_length (p := (·.ok)) (l := t.tx.set i { f with ok := true })
  have hdone := h.done
  have hlength := h.count
  rw [List.length_set] at hle
  simp only [hok, Bool.toNat_false, Bool.toNat_true] at hset
  rw [UInt32.toNat_add, UInt32.toNat_one, Nat.mod_eq_of_lt (by omega)]

/-- One file is replaced, and the totals change as it does. -/
theorem Ledger.set {count total : Nat} (h : Ledger count total t) {i : Nat} {f f' : FileTx}
    (hf : t.tx[i]? = some f) (tx : t'.tx = t.tx.set i f') (size : f'.size = f.size)
    (within : f'.ackedBytes ≤ f'.size)
    (done : t'.filesDone.toNat + f.ok.toNat = t.filesDone.toNat + f'.ok.toNat)
    (acked : t'.bytesAcked.toNat + f.credit.toNat = t.bytesAcked.toNat + f'.credit.toNat) :
    Ledger count total t' where
  count := by
    rw [tx, List.length_set]
    exact h.count
  sizes := by
    have hset := sum_map_set (fun g : FileTx => g.size.toNat) t.tx f' hf
    have hsizes := h.sizes
    simp only [size] at hset
    rw [tx]
    omega
  within := by
    rw [tx]
    intro g hg
    obtain hg | rfl := List.mem_or_eq_of_mem_set hg
    · exact h.within g hg
    · exact within
  done := by
    have hset := countP_set (fun g : FileTx => g.ok) t.tx f' hf
    have hdone := h.done
    rw [tx]
    omega
  acked := by
    have hset := sum_map_set (fun g : FileTx => g.credit.toNat) t.tx f' hf
    have hacked := h.acked
    rw [tx]
    omega

/-- `OnFileBad` takes back what the file had added. -/
theorem Ledger.onFileBad {count total : Nat} (h : Ledger count total t) (index : UInt16) :
    Ledger count total (t.onFileBad index) := by
  unfold Sender.onFileBad
  split
  · exact h
  · rename_i f hf
    split
    · exact h
    · rename_i hok
      simp only [Bool.not_eq_true] at hok
      have hcredit : f.credit = f.ackedBytes := by simp [FileTx.credit, hok]
      have hle : f.ackedBytes.toNat ≤ t.bytesAcked.toNat := by
        rw [h.acked, ← hcredit]
        exact List.le_sum_of_mem (List.mem_map_of_mem (List.mem_of_getElem? hf))
      have hmin : (min t.bytesAcked f.ackedBytes).toNat = f.ackedBytes.toNat := by
        rw [toNat_min64, Nat.min_eq_right hle]
      refine h.set hf rfl rfl (UInt64.le_iff_toNat_le.mpr (Nat.zero_le _)) rfl ?_
      have hsub : min t.bytesAcked f.ackedBytes ≤ t.bytesAcked := by
        rw [UInt64.le_iff_toNat_le, hmin]
        exact hle
      rw [UInt64.toNat_sub_of_le _ _ hsub, hmin, hcredit]
      simp only [FileTx.credit, hok, Bool.false_eq_true, if_false, UInt64.toNat_zero]
      omega

section

variable {count total : Nat} (htotal : total < 2 ^ 64)
include htotal

/-- A SACK keeps the ledger if it reports nothing new of an acknowledged file. -/
theorem Ledger.onSack (h : Ledger count total t) {wire : Bytes}
    (known : ∀ s, decodeSack wire = some s → ∀ f, t.tx[s.fileIndex.toNat]? = some f →
      f.ok = true → s.acknowledges f ≤ f.ackedBytes) : Ledger count total (t.onSack wire) := by
  unfold Sender.onSack
  split
  · exact h
  · rename_i s hs
    split
    · exact h
    · rename_i f hf
      simp only
      split
      · exact h
      · have hle := s.acknowledges_le f
        have hroom := h.room hf
        have hwithin := h.within f (List.mem_of_getElem? hf)
        have hknown := known s hs f hf
        change Ledger count total { t with
          tx := t.tx.set s.fileIndex.toNat { f with
            sack := s
            sackSeq := f.sackSeq + 1
            ackedBytes := if f.ackedBytes < s.acknowledges f then s.acknowledges f else f.ackedBytes }
          bytesAcked := if f.ackedBytes < s.acknowledges f then
            t.bytesAcked + (s.acknowledges f - f.ackedBytes) else t.bytesAcked
          maxLossPermille := max t.maxLossPermille s.lossPermille }
        generalize s.acknowledges f = acked at *
        refine h.set hf rfl rfl ?_ rfl ?_
        · split
          · exact hle
          · exact hwithin
        · split
          · rename_i hmore
            cases hok : f.ok with
            | true => exact absurd (hknown hok) (UInt64.not_le.mpr hmore)
            | false =>
              have hsub := UInt64.toNat_sub_of_le _ _ (UInt64.le_of_lt hmore)
              rw [UInt64.le_iff_toNat_le] at hle
              rw [UInt64.lt_iff_toNat_lt] at hmore
              simp only [FileTx.credit, hok, Bool.false_eq_true, if_false] at hroom ⊢
              rw [UInt64.toNat_add, hsub, Nat.mod_eq_of_lt (by omega)]
              omega
          · rfl

/-- `OnFileOk` adds what was missing of the file. -/
theorem Ledger.onFileOk (h : Ledger count total t) (hcount : count < 2 ^ 32) (index : UInt16) :
    Ledger count total (t.onFileOk index) := by
  unfold Sender.onFileOk
  split
  · exact h
  · rename_i f hf
    split
    · exact h
    · rename_i hok
      simp only [Bool.not_eq_true] at hok
      have hroom := h.room hf
      have hwithin := h.within f (List.mem_of_getElem? hf)
      have hdone := h.done_add_one hcount hf hok
      have hmax : max f.ackedBytes f.size = f.size := by
        change (if f.ackedBytes ≤ f.size then f.size else f.ackedBytes) = f.size
        rw [if_pos hwithin]
      refine h.set hf rfl rfl ?_ ?_ ?_
      · rw [hmax]
        exact UInt64.le_refl _
      · rw [hdone, hok]
        rfl
      · have hcredit : f.credit = f.ackedBytes := by simp [FileTx.credit, hok]
        rw [hcredit] at hroom ⊢
        rw [UInt64.le_iff_toNat_le] at hwithin
        simp only [FileTx.credit, if_true]
        split
        · rename_i hless
          rw [UInt64.toNat_add, UInt64.toNat_sub_of_le _ _ (UInt64.le_of_lt hless),
            Nat.mod_eq_of_lt (by omega)]
          omega
        · rename_i hfull
          rw [UInt64.not_lt, UInt64.le_iff_toNat_le] at hfull
          omega

/-! ## The start -/

/-- A verified file counts with its size, if it did not count before. -/
theorem Ledger.startVerified (h : Ledger count total t) (hcount : count < 2 ^ 32) {v : UInt16}
    (new : ∀ f, t.tx[v.toNat]? = some f → f.ok = false ∧ f.ackedBytes = 0) :
    Ledger count total (t.startVerified v) := by
  unfold Sender.startVerified
  split
  · exact h
  · rename_i f hf
    obtain ⟨hok, hzero⟩ := new f hf
    have hroom := h.room hf
    have hcredit : f.credit.toNat = 0 := by simp [FileTx.credit, hok, hzero]
    have hdone := h.done_add_one hcount hf hok
    refine h.set hf rfl rfl ?_ ?_ ?_
    · exact h.within f (List.mem_of_getElem? hf)
    · rw [hdone, hok]
      rfl
    · rw [hcredit] at hroom ⊢
      simp only [FileTx.credit, if_true]
      rw [UInt64.toNat_add, Nat.mod_eq_of_lt (by omega)]
      rfl

/-- `Start` sets the totals up, if the receiver lists no file as verified twice. -/
theorem Ledger.start {m : Manifest} (hfiles : m.files.length ≤ count) (hcount : count < 2 ^ 32)
    (hsizes : (m.files.map (·.size.toNat)).sum ≤ total) (runs : List (UInt16 × List SackRun))
    {verified : List UInt16} (once : verified.Nodup) :
    Ledger count total (Sender.start m runs verified) := by
  suffices ∀ (verified : List UInt16) (t : Sender), verified.Nodup → Ledger count total t →
      (∀ v ∈ verified, ∀ f, t.tx[v.toNat]? = some f → f.ok = false ∧ f.ackedBytes = 0) →
      Ledger count total (verified.foldl Sender.startVerified t) by
    have fresh : ∀ f ∈ m.files.mapIdx (startFile runs), f.ok = false ∧ f.ackedBytes = 0 := by
      intro f hf
      obtain ⟨i, mf, -, rfl⟩ := List.mem_mapIdx.mp hf
      exact ⟨rfl, rfl⟩
    refine this verified _ once ⟨?_, ?_, fun f hf => ?_, ?_, ?_⟩ fun v _ f hf =>
      fresh f (List.mem_of_getElem? hf)
    · rw [List.length_mapIdx]
      exact hfiles
    · have hmap : (m.files.mapIdx (startFile runs)).map (·.size.toNat) =
          m.files.map (·.size.toNat) := by
        apply List.ext_getElem?
        intro i
        simp only [List.getElem?_map, List.getElem?_mapIdx, Option.map_map]
        rfl
      rw [hmap]
      exact hsizes
    · rw [(fresh f hf).2]
      exact UInt64.le_iff_toNat_le.mpr (Nat.zero_le _)
    · exact (List.countP_eq_zero.mpr fun f hf => by simp [(fresh f hf).1]).symm
    · refine (List.sum_eq_zero fun n hn => ?_).symm
      obtain ⟨f, hf, rfl⟩ := List.mem_map.mp hn
      simp [FileTx.credit, fresh f hf]
  -- The files that are still to come are those of the manifest, untouched.
  intro verified
  induction verified with
  | nil => exact fun t _ h _ => h
  | cons v rest ih =>
    intro t once h new
    rw [List.nodup_cons] at once
    rw [List.forall_mem_cons] at new
    refine ih _ once.2 (h.startVerified htotal hcount new.1) fun w hw f hf => ?_
    have hne : v.toNat ≠ w.toNat := fun heq => once.1 (UInt16.toNat_inj.mp heq ▸ hw)
    refine new.2 w hw f ?_
    unfold Sender.startVerified at hf
    split at hf
    · exact hf
    · rwa [List.getElem?_set_ne hne] at hf

end

end Sender

end CrossTransfer.Transfer
