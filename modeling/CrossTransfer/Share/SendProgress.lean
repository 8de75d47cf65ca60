import CrossTransfer.Share.FinalRecord
import CrossTransfer.Transfer.BuildManifest
import CrossTransfer.Transfer.SenderLedger

/-! # What a sending session reports as done

The engine of a sending session starts with the first `accept` and is told of SACKs, `file_ok` and
`file_bad` from then on. `counted_run`: its totals are those of its files in every state of a run in
which nothing is counted twice. They are not in every run. `Start` adds up the list it is given, so
an index that stands in it twice counts twice, and `OnSack` does not ask whether the file counts with
its size already, as it does if the receiver had it verified before.
-/

namespace CrossTransfer.Share

open CrossTransfer.Library
open CrossTransfer.Transfer

/-- The progress of the engine of a sending session for `m`. -/
structure Counted (m : Manifest) (t : Sender) : Prop where
  done : t.filesDone.toNat = t.tx.countP (·.ok)
  count : t.filesDone.toNat ≤ m.files.length
  acked : t.bytesAcked.toNat = (t.tx.map fun f => if f.ok then f.size.toNat else f.ackedBytes.toNat).sum
  total : t.bytesAcked ≤ m.totalBytes

/-- The `accept` that starts the engine lists no file as verified twice, and a SACK reports nothing new
    of a file that has been acknowledged. -/
def CountsOnce (p : Party) : PartyAct → Prop
  | .ctrl _ (.accept files) => p.session.acceptReceived = false →
      (TransferSession.readAccept p.session.manifest.files.length files).1.Nodup
  | .sack wire => ∀ t, p.session.sender = some t → ∀ s, decodeSack wire = some s →
      ∀ f, t.tx[s.fileIndex.toNat]? = some f → f.ok = true → s.acknowledges f ≤ f.ackedBytes
  | _ => True

section Runs

variable {sha : Bytes → Bytes} {look : Bytes → Node} {paths absFiles : List Bytes} {m : Manifest}
  {fs : Fs} {p p' : Party} {a : PartyAct} {as : List PartyAct}

/-- A step that counts nothing twice keeps the ledger. -/
theorem ledger_step (hcount : m.files.length < 2 ^ 32)
    (htotal : (m.files.map (·.size.toNat)).sum < 2 ^ 64) (inv : Sending m p)
    (old : ∀ t, p.session.sender = some t →
      t.Ledger m.files.length (m.files.map (·.size.toNat)).sum)
    (once : CountsOnce p a) (hstep : p.step sha a = some p') :
    ∀ t, p'.session.sender = some t →
      t.Ledger m.files.length (m.files.map (·.size.toNat)).sum := by
  intro t' ht'
  cases senderMove inv.role inv.receiver hstep with
  | other frame engine =>
    cases hs : p.session.sender with
    | none =>
      rw [hs, ht'] at engine
      cases engine
    | some t =>
      rw [hs, ht'] at engine
      cases engine with
      | some nudged =>
        obtain ⟨stop, paused, rfl, -⟩ := nudged
        have h := old t hs
        exact ⟨h.count, h.sizes, h.within, h.done, h.acked⟩
  | start frame engine txLog completed first =>
    rw [engine] at ht'
    cases ht'
    rw [← inv.manifest] at hcount htotal ⊢
    exact .start htotal le_rfl hcount le_rfl _ (once first)
  | noStart frame engine empty exited finished txLog completed fresh =>
    rw [engine] at ht'
    cases ht'
    refine ⟨?_, ?_, ?_, ?_, ?_⟩ <;> simp [empty, fresh]
  | fileOk frame engine engine' =>
    rw [engine'] at ht'
    cases ht'
    exact (old _ engine).onFileOk htotal hcount _
  | fileBad frame engine engine' =>
    rw [engine'] at ht'
    cases ht'
    exact (old _ engine).onFileBad _
  | sack frame engine =>
    rw [engine] at ht'
    obtain ⟨t, ht, rfl⟩ := Option.map_eq_some_iff.mp ht'
    exact (old t ht).onSack htotal (once t ht)
  | thread frame engine step engine' =>
    rw [engine'] at ht'
    cases ht'
    exact (old _ engine).senderStep step
  | done frame report engine => exact old t' (engine ▸ ht')

/-- In a run that counts nothing twice the progress is that of the files, in every state. -/
theorem counted_run (built : buildManifest look paths = .ok (m, absFiles))
    (run : (party sha { session := .newSender m absFiles.length, fs := fs }).Run CountsOnce as p)
    {t : Sender} (ht : p.session.sender = some t) : Counted m t := by
  have holds := buildManifest_spec built
  obtain ⟨hsum, hle⟩ := Manifest.toNat_sizeSum holds.count fun f hf => (holds.safeFiles f hf).2
  have hroom : m.files.length * kMaxFileSize < 2 ^ 64 :=
    (Nat.mul_le_mul_right _ holds.count).trans_lt (by decide)
  have hcount : m.files.length < 2 ^ 32 := holds.count.trans_lt (by decide)
  have htotal : m.totalBytes.toNat = (m.files.map (·.size.toNat)).sum := by
    rw [← hsum, holds.total, ← holds.files]
    rfl
  have hledger : Sending m p ∧ ∀ t, p.session.sender = some t →
      t.Ledger m.files.length (m.files.map (·.size.toNat)).sum := by
    refine run.invariant (fun q => Sending m q ∧ ∀ t, q.session.sender = some t →
      t.Ledger m.files.length (m.files.map (·.size.toNat)).sum) ?_ ?_
    · exact ⟨sending_init m _ fs, fun t ht => by cases ht⟩
    · intro q a q' inv once hstep
      exact ⟨sending_step inv.1 hstep, ledger_step hcount (hle.trans_lt hroom) inv.1 inv.2 once hstep⟩
  have ledger := hledger.2 t ht
  have hcredit : (fun f : FileTx => f.credit.toNat) =
      fun f => if f.ok then f.size.toNat else f.ackedBytes.toNat := by
    funext f
    unfold FileTx.credit
    split <;> rfl
  refine ⟨ledger.done, ?_, hcredit ▸ ledger.acked, ?_⟩
  · rw [ledger.done]
    exact List.countP_le_length.trans ledger.count
  · rw [UInt64.le_iff_toNat_le, htotal, ledger.acked]
    refine le_trans (List.sum_le_sum fun f hf => ?_) ledger.sizes
    exact UInt64.le_iff_toNat_le.mp (FileTx.credit_le (ledger.within f hf))

end Runs

/-! ## A share of one byte -/

/-- The receiver takes the file and confirms it. -/
def oneByteConfirmed : List PartyAct :=
  [.here .ready, .ctrl calmOfferIo (.accept []), .ctrl calmOfferIo (.fileOk 0)]

theorem oneByte_built : buildManifest (fun _ => .leaf (.file (some 1))) [ascii "/a"] =
    .ok (oneByteManifest, [ascii "/a"]) := by
  decide +kernel

theorem counted_oneByteConfirmed : ∃ (p : Party) (t : Sender), p.session.sender = some t ∧ t.filesDone = 1 ∧
    t.bytesAcked = 1 ∧ Counted oneByteManifest t := by
  have hfacts : ((party (fun _ => []) { session := .newSender oneByteManifest 1, fs := .empty }).exec
      oneByteConfirmed { session := .newSender oneByteManifest 1, fs := .empty }).bind
      (fun p => p.session.sender.map fun t => (t.filesDone, t.bytesAcked)) = some (1, 1) := by
    decide +kernel
  obtain ⟨p, hexec, hsender⟩ := Option.bind_eq_some_iff.mp hfacts
  obtain ⟨t, ht, hcounts⟩ := Option.map_eq_some_iff.mp hsender
  refine ⟨p, t, ht, (Prod.mk.inj hcounts).1, (Prod.mk.inj hcounts).2,
    counted_run oneByte_built (.of_exec ?_ hexec) ht⟩
  intro a ha q
  simp only [oneByteConfirmed, List.mem_cons, List.not_mem_nil, or_false] at ha
  obtain rfl | rfl | rfl := ha
  · trivial
  · exact fun _ => List.nodup_nil
  · trivial

/-- The receiver lists the file twice as verified. -/
def verifiedTwice : List PartyAct :=
  [.here .ready, .ctrl calmOfferIo (.accept [.verified 0, .verified 0])]

/-- Two files of one are done. -/
theorem not_counted : ¬ ∀ (sha : Bytes → Bytes) (look : Bytes → Node) (paths absFiles : List Bytes)
    (m : Manifest) (fs : Fs) (as : List PartyAct) (p : Party) (t : Sender),
    buildManifest look paths = .ok (m, absFiles) →
      (party sha { session := .newSender m absFiles.length, fs := fs }).Run Machine.anyStep as p →
        p.session.sender = some t → Counted m t := by
  intro h
  have hfacts : ((party (fun _ => []) { session := .newSender oneByteManifest 1, fs := .empty }).exec
      verifiedTwice { session := .newSender oneByteManifest 1, fs := .empty }).bind
      (fun p => p.session.sender.map (·.filesDone)) = some 2 := by
    decide +kernel
  obtain ⟨p, hexec, hsender⟩ := Option.bind_eq_some_iff.mp hfacts
  obtain ⟨t, ht, hdone⟩ := Option.map_eq_some_iff.mp hsender
  have hcount := (h _ _ _ _ _ _ _ p t oneByte_built (Machine.run_of_exec hexec) ht).count
  rw [hdone] at hcount
  exact absurd hcount (by decide)

end CrossTransfer.Share
