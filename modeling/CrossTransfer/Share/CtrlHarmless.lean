import CrossTransfer.Share.CtrlPrinted
import CrossTransfer.Share.FinalRecord

/-! # Malformed control messages

A control message does no harm if no exception leaves `OnCtrlMessage`, and if a message or an entry
that is malformed changes nothing that the session keeps of a file. The accessors do not see to it,
nor does the printer: `Fail` prints the error text of the system, which need not be UTF-8.
`harmless_iff` says which texts are harmless in which state.
-/

namespace CrossTransfer.Share

open CrossTransfer.Transfer
open CrossTransfer.Transfer.Paths
open TransferSession

structure Harmless (parse : Bytes → Option Json) (dump : Json → Option Bytes) (sha : Bytes → Bytes)
    (casts : Casts) (io : OfferIo) (s : TransferSession) (message : Bytes) (fs : Fs) : Prop where
  /-- No exception escapes. -/
  caught : s.onCtrlText parse dump sha casts io message fs ≠ .error .typeError
  /-- A malformed message changes nothing of a file. -/
  files : ∀ (t : CtrlType) (j : Json) (s' : TransferSession) (fs' : Fs) (out : List SessionEvent),
    parseCtrlMessage parse message = some (t.name, j) →
    s.onCtrlText parse dump sha casts io message fs = .ok (some (s', fs', out)) →
    ¬ WellFormedDoc (filesOf s) t j → ∀ i < filesOf s, fileView s' i = fileView s i
  /-- A malformed entry of the `accept` says nothing of a file. -/
  entries : ∀ (j : Json) (files : List Json) (f : Json),
    parseCtrlMessage parse message = some (CtrlType.accept.name, j) →
    s.isSender = true → s.acceptReceived = false → j.find "files" = some (.arr files) → f ∈ files →
    ¬ WellFormedEntry (filesOf s) f → Passed casts (filesOf s) f

/-! ## Every text -/

section Texts

variable {parse : Bytes → Option Json} {dump : Json → Option Bytes} {casts : Casts}
  {sha : Bytes → Bytes} {io : OfferIo} {s : TransferSession} {message : Bytes} {fs : Fs}
  {t : CtrlType} {j : Json}

/-- A text that carries no control message is dropped. -/
theorem onCtrlText_of_dropped
    (h : ∀ (t : CtrlType) (j : Json), parseCtrlMessage parse message ≠ some (t.name, j)) :
    s.onCtrlText parse dump sha casts io message fs = .ok (some (s, fs, [])) := by
  unfold onCtrlText
  split
  · rfl
  · rename_i type j hparse
    split
    · rfl
    · rename_i t ht
      exact absurd (CtrlType.name_of_ofName ht ▸ hparse) (h t j)

section Carried

variable (hparse : parseCtrlMessage parse message = some (t.name, j))
include hparse

theorem onCtrlText_of_error {e : JsonError} (h : s.onCtrlDoc sha casts io t j fs = .error e) :
    s.onCtrlText parse dump sha casts io message fs = .error e := by
  rw [onCtrlText, hparse]
  dsimp only
  rw [CtrlType.ofName_name]
  dsimp only
  rw [h]

theorem onCtrlText_of_ok {r : Option (TransferSession × Fs × List SessionEvent)}
    (h : s.onCtrlDoc sha casts io t j fs = .ok r) :
    s.onCtrlText parse dump sha casts io message fs = s.print dump r := by
  rw [onCtrlText, hparse]
  dsimp only
  rw [CtrlType.ofName_name]
  dsimp only
  rw [h]

theorem onCtrlText_caught_iff :
    s.onCtrlText parse dump sha casts io message fs ≠ .error .typeError ↔
      s.onCtrlDoc sha casts io t j fs ≠ .error .typeError ∧
        PrintedDoc dump sha casts io s t j fs := by
  cases hdoc : s.onCtrlDoc sha casts io t j fs with
  | error e => exact iff_of_false (by simp [onCtrlText_of_error hparse hdoc]) (by simp)
  | ok r =>
    rw [onCtrlText_of_ok hparse hdoc]
    constructor
    · intro h
      refine ⟨by simp, fun r' hr' => ?_⟩
      rw [hdoc] at hr'
      cases hr'
      cases hprint : s.print dump r with
      | error e => exact absurd hprint h
      | ok r' => rw [print_eq_ok hprint]
    · rintro ⟨-, printed⟩
      rw [printed r hdoc]
      simp

/-- What the call returns is what it returns for the document. -/
theorem onCtrlDoc_of_onCtrlText {r : Option (TransferSession × Fs × List SessionEvent)}
    (h : s.onCtrlText parse dump sha casts io message fs = .ok r) :
    s.onCtrlDoc sha casts io t j fs = .ok r := by
  cases hdoc : s.onCtrlDoc sha casts io t j fs with
  | error e =>
    rw [onCtrlText_of_error hparse hdoc] at h
    cases h
  | ok r' =>
    rw [onCtrlText_of_ok hparse hdoc] at h
    rw [print_eq_ok h]

end Carried

theorem name_injective {t u : CtrlType} (h : t.name = u.name) : t = u :=
  Option.some.inj ((CtrlType.ofName_name t).symm.trans (h ▸ CtrlType.ofName_name u))

theorem harmless_of_parse (hparse : parseCtrlMessage parse message = some (t.name, j)) :
    Harmless parse dump sha casts io s message fs ↔
      HarmlessDoc sha casts io s t j fs ∧ PrintedDoc dump sha casts io s t j fs := by
  have unique : ∀ {u : CtrlType} {j' : Json},
      parseCtrlMessage parse message = some (u.name, j') → u = t ∧ j' = j := by
    intro u j' h
    rw [hparse, Option.some.injEq, Prod.mk.injEq] at h
    exact ⟨(name_injective h.1).symm, h.2.symm⟩
  constructor
  · intro h
    obtain ⟨hcaught, hprinted⟩ := (onCtrlText_caught_iff hparse).mp h.caught
    refine ⟨⟨hcaught, fun s' fs' out hdoc => ?_, ?_⟩, hprinted⟩
    · exact h.files t j s' fs' out hparse ((onCtrlText_of_ok hparse hdoc).trans (hprinted _ hdoc))
    · rintro files f rfl
      exact h.entries j files f hparse
  · rintro ⟨h, hprinted⟩
    refine ⟨(onCtrlText_caught_iff hparse).mpr ⟨h.caught, hprinted⟩,
      fun u j' s' fs' out hu htext => ?_, fun j' files f hu => ?_⟩
    · obtain ⟨rfl, rfl⟩ := unique hu
      exact h.files s' fs' out (onCtrlDoc_of_onCtrlText hparse htext)
    · obtain ⟨heq, rfl⟩ := unique hu
      exact h.entries files f heq.symm

/-- A text is harmless exactly if it carries no control message, or one that is readable in the state
    of the session and that is not an offer on which the engine fails to start with an error text
    other than UTF-8. -/
theorem harmless_iff (strict : StrictDump dump) :
    Harmless parse dump sha casts io s message fs ↔
      ∀ (t : CtrlType) (j : Json), parseCtrlMessage parse message = some (t.name, j) →
        Readable casts s t j ∧ Printable sha io s fs t j := by
  by_cases hcarried : ∃ (t : CtrlType) (j : Json), parseCtrlMessage parse message = some (t.name, j)
  · obtain ⟨t, j, hparse⟩ := hcarried
    rw [harmless_of_parse hparse, harmlessDoc_iff, printedDoc_iff strict]
    constructor
    · intro h u j' hu
      rw [hparse, Option.some.injEq, Prod.mk.injEq] at hu
      obtain ⟨hname, rfl⟩ := hu
      obtain rfl := name_injective hname
      exact h
    · exact fun h => h t j hparse
  · have hnone : ∀ (t : CtrlType) (j : Json), parseCtrlMessage parse message ≠ some (t.name, j) :=
      fun t j hparse => hcarried ⟨t, j, hparse⟩
    refine iff_of_true ⟨?_, ?_, ?_⟩ fun t j hparse => absurd hparse (hnone t j)
    · simp [onCtrlText_of_dropped hnone]
    · exact fun t j _ _ _ hparse => absurd hparse (hnone t j)
    · exact fun j _ _ hparse => absurd hparse (hnone .accept j)

end Texts

/-! ## A text of the system -/

/-- A printer that throws as `dump()` does, and prints what has nothing to escape. -/
def dumpStrict (j : Json) : Option Bytes := if j.utf8 then some ((dumpPlain j).getD []) else none

theorem strictDump_dumpStrict : StrictDump dumpStrict := by
  intro j
  cases h : j.utf8 <;> simp [dumpStrict, h]

/-- A session that waits for an offer. -/
def waitingReceiver : TransferSession := .newReceiver (some [ascii "save"]) none

def oneByteOffer : Bytes :=
  ascii "\x7b\"type\":\"offer\",\"manifest\":\x7b\"files\":[\x7b\"path\":\"a\",\"size\":1\x7d]," ++
    ascii "\"dirs\":[],\"roots\":[\x7b\"name\":\"a\",\"dir\":false\x7d],\"total_bytes\":1\x7d\x7d"

def parseOffer (text : Bytes) : Option Json :=
  if text = oneByteOffer then some (CtrlMsg.offer oneByteManifest.toJson).toJson else none

/-- No directory can be made; the system says why. -/
def refusingOfferIo (err : Bytes) : OfferIo :=
  ⟨⟨fun _ => false, fun _ => true, fun _ => true, err⟩, fun _ => 0⟩

/-- "Accès refusé" in UTF-8 and in Latin-1. -/
def deniedUtf8 : Bytes := ascii "Acc" ++ [0xC3, 0xA8] ++ ascii "s refus" ++ [0xC3, 0xA9]

def deniedLatin1 : Bytes := ascii "Acc" ++ [0xE8] ++ ascii "s refus" ++ [0xE9]

theorem fromJson_oneByte : Manifest.fromJson oneByteManifest.toJson = .ok oneByteManifest := rfl

theorem parse_oneByteOffer : parseCtrlMessage parseOffer oneByteOffer =
    some (CtrlType.offer.name, (CtrlMsg.offer oneByteManifest.toJson).toJson) := by
  rw [parseCtrlMessage, parseOffer, if_pos rfl]
  rfl

theorem startFails_refused (err : Bytes) :
    StartFails id (refusingOfferIo err) waitingReceiver oneByteManifest [ascii "save"] .empty :=
  ⟨ascii "save dir: " ++ err, rfl, by simp [ascii]⟩

/-- The same refusal is told to the peer, or ends the process: the encoding decides. -/
theorem harmless_refused :
    Harmless parseOffer dumpStrict id ⟨fun _ => 0, fun _ => 0⟩ (refusingOfferIo deniedUtf8)
      waitingReceiver oneByteOffer .empty ∧
    ¬Harmless parseOffer dumpStrict id ⟨fun _ => 0, fun _ => 0⟩ (refusingOfferIo deniedLatin1)
      waitingReceiver oneByteOffer .empty := by
  constructor
  · refine (harmless_iff strictDump_dumpStrict).mpr fun t j hparse => ?_
    rw [parse_oneByteOffer, Option.some.injEq, Prod.mk.injEq] at hparse
    obtain ⟨hname, rfl⟩ := hparse
    obtain rfl := name_injective hname
    refine ⟨fun _ _ m hm => ?_, fun _ _ _ _ _ _ _ _ _ _ _ => (validUtf8_iff _).mp rfl⟩
    cases hm
    by_contra hbad
    have hthrown := fromJson_thrown_iff.mpr hbad
    rw [fromJson_oneByte] at hthrown
    cases hthrown
  · intro h
    obtain ⟨-, printable⟩ :=
      (harmless_iff strictDump_dumpStrict).mp h .offer _ parse_oneByteOffer
    have hutf8 : IsUtf8 deniedLatin1 :=
      printable rfl rfl rfl rfl _ _ _ rfl fromJson_oneByte rfl (startFails_refused _)
    exact absurd ((validUtf8_iff _).mpr hutf8) (by decide)

/-! ## An index that is reduced -/

/-- A session that sends one file of one byte, after the `accept`. -/
def oneByteSending : TransferSession := ((newSender oneByteManifest 1).handleAccept []).1

def wrappedAck : Bytes := ascii "\x7b\"type\":\"file_ok\",\"index\":65536\x7d"

def wrappedAckJson : Json :=
  .obj [(ascii "type", .str (ascii "file_ok")), (ascii "index", .unsigned 65536)]

/-- The ack of file 65536 is taken for one of file 0, of which the receiver has nothing. -/
theorem not_harmless : ¬ ∀ (parse : Bytes → Option Json) (dump : Json → Option Bytes)
    (sha : Bytes → Bytes) (casts : Casts) (io : OfferIo) (s : TransferSession) (message : Bytes)
    (fs : Fs), StrictDump dump → Harmless parse dump sha casts io s message fs := by
  intro h
  have hall := h (fun text => if text = wrappedAck then some wrappedAckJson else none) dumpStrict id
    ⟨fun _ => 0, fun _ => 0⟩ calmOfferIo oneByteSending wrappedAck .empty strictDump_dumpStrict
  have hparse : parseCtrlMessage (fun text => if text = wrappedAck then some wrappedAckJson else none)
      wrappedAck = some (CtrlType.fileOk.name, wrappedAckJson) := by
    rw [parseCtrlMessage, if_pos rfl]
    rfl
  have hmal : ¬ WellFormedDoc (filesOf oneByteSending) .fileOk wrappedAckJson := by
    rintro ⟨v, hv, hsmall, -⟩
    cases hv
    exact absurd hsmall (by decide)
  have hview := hall.files .fileOk wrappedAckJson _ _ _ hparse
    ((onCtrlText_of_ok hparse rfl).trans (print_of_silent (prints_same rfl))) hmal 0 (by decide)
  have hacked := congrArg FileView.acked hview
  exact absurd hacked (by decide +kernel)

end CrossTransfer.Share
