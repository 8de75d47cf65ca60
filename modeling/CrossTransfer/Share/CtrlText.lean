import CrossTransfer.Share.TransferSession
import CrossTransfer.Transfer.BuildManifest
import CrossTransfer.Transfer.JsonText

/-! # The documents of the control messages

What `SendCtrl` of `core/src/share/transfer_session.cpp` is given for each message, and how long the
texts of an `offer` and of an `accept` are. An `offer` has an entry for each file, directory and
root, an `accept` one for each file of which the receiver has something.
-/

namespace CrossTransfer.Share

open CrossTransfer.Transfer
open CrossTransfer.Transfer.Paths

/-! ## The documents -/

def runJson (r : SackRun) : Json :=
  .arr [.unsigned r.start.toUInt64, .unsigned r.length.toUInt64]

def AcceptFile.toJson : AcceptFile → Json
  | .verified index =>
    .obj [(ascii "index", .unsigned index.toUInt64), (ascii "verified", .bool true)]
  | .runs index rs =>
    .obj [(ascii "index", .unsigned index.toUInt64), (ascii "have", .arr (rs.map runJson))]

/-- A document with this `type`. -/
def typed (type : String) (entries : List (Bytes × Json)) : Json :=
  .obj ((ascii "type", .str (ascii type)) :: entries)

def CtrlMsg.toJson : CtrlMsg → Json
  | .offer manifest => typed "offer" [(ascii "manifest", manifest)]
  | .accept files => typed "accept" [(ascii "files", .arr (files.map AcceptFile.toJson))]
  | .fileDone index sha256 =>
    typed "file_done" [(ascii "index", .unsigned index.toUInt64), (ascii "sha256", .str sha256)]
  | .fileOk index => typed "file_ok" [(ascii "index", .unsigned index.toUInt64)]
  | .fileBad index reason =>
    typed "file_bad" [(ascii "index", .unsigned index.toUInt64), (ascii "reason", .str reason)]
  | .transferDone => typed "transfer_done" []
  | .pause => typed "pause" []
  | .resume => typed "resume" []
  | .cancel reason => typed "cancel" [(ascii "reason", .str reason)]
  | .error code message =>
    typed "error" [(ascii "code", .str code), (ascii "msg", .str message)]

/-! ## Safe paths are their own text -/

theorem plain_of_isSafeRelativePath {s : Bytes} (h : isSafeRelativePath s = true) :
    plain s = true := by
  have hutf8 : validUtf8 s = true := by
    unfold isSafeRelativePath at h
    split at h
    · contradiction
    · split at h
      · contradiction
      · split at h
        · contradiction
        · rename_i hvalid
          simpa using hvalid
  have hbytes : ∀ u ∈ s, (decide (0x20 ≤ u) && u != 0x22 && u != 0x5C) = true := by
    intro u hu
    by_cases hslash : u = slash
    · subst hslash
      rfl
    · have hallowed := not_forbidden_of_isSafeRelativePath h hu hslash
      have hchars : ascii "\\:*?\"<>|" = [0x5C, 0x3A, 0x2A, 0x3F, 0x22, 0x3C, 0x3E, 0x7C] := rfl
      simp only [forbiddenByte, hchars, Bool.or_eq_false_iff, decide_eq_false_iff_not,
        UInt8.not_lt, List.contains_eq_mem, List.mem_cons, not_or] at hallowed
      simp [hallowed.1.1, hallowed.2]
  rw [plain, hutf8, Bool.true_and, List.all_eq_true]
  exact hbytes

/-! ## Lengths -/

def fileLength (f : ManifestFile) : Nat := 19 + f.path.length + decimalLength f.size.toNat

def rootLength (r : ManifestRoot) : Nat := (if r.isDir then 22 else 23) + r.name.length

/-- The length of an `offer`. -/
def offerLength (files : List ManifestFile) (dirs : List Bytes) (roots : List ManifestRoot)
    (total : UInt64) : Nat :=
  76 + commaLength (dirs.map fun d => d.length + 2) + commaLength (files.map fileLength) +
    commaLength (roots.map rootLength) + decimalLength total.toNat

def runLength (r : SackRun) : Nat :=
  3 + decimalLength r.start.toNat + decimalLength r.length.toNat

def AcceptFile.textLength : AcceptFile → Nat
  | .verified index => 26 + decimalLength index.toNat
  | .runs index rs => 20 + decimalLength index.toNat + commaLength (rs.map runLength)

/-- The length of an `accept`. -/
def acceptLength (files : List AcceptFile) : Nat :=
  28 + commaLength (files.map AcceptFile.textLength)

section Lengths

variable {dump : Json → Option Bytes} (h : Prints dump)
include h

theorem hasLength_file {f : ManifestFile} (hsafe : isSafeRelativePath f.path = true) :
    HasLength dump (Manifest.fileJson f) (fileLength f) := by
  have hpath := h.hasLength_str (plain_of_isSafeRelativePath hsafe)
  have hentry : HasLength dump (Manifest.fileJson f) _ :=
    h.hasLength_obj rfl (.cons hpath (.cons (h.hasLength_unsigned f.size) .nil))
  convert hentry using 1
  show fileLength f = commaLength [7 + (f.path.length + 2), 7 + decimalLength f.size.toNat] + 2
  simp [fileLength, commaLength]
  omega

theorem hasLength_root {r : ManifestRoot} (hsafe : isSafeRelativePath r.name = true) :
    HasLength dump (Manifest.rootJson r) (rootLength r) := by
  have hname := h.hasLength_str (plain_of_isSafeRelativePath hsafe)
  have hentry : HasLength dump (Manifest.rootJson r) _ :=
    h.hasLength_obj rfl (.cons hname (.cons (h.hasLength_bool r.isDir) .nil))
  convert hentry using 1
  show rootLength r = commaLength [7 + (r.name.length + 2), 6 + if r.isDir then 4 else 5] + 2
  simp only [rootLength, commaLength]
  cases r.isDir
  · simp
    omega
  · simp
    omega

theorem hasLength_run (r : SackRun) : HasLength dump (runJson r) (runLength r) := by
  have hpair : HasLength dump (runJson r) _ :=
    h.hasLength_arr (.cons (h.hasLength_unsigned _) (.cons (h.hasLength_unsigned _) .nil))
  convert hpair using 1
  simp [runLength, commaLength]
  omega

theorem hasLength_acceptFile (f : AcceptFile) : HasLength dump f.toJson f.textLength := by
  cases f with
  | verified index =>
    have hentry : HasLength dump (AcceptFile.verified index).toJson _ :=
      h.hasLength_obj rfl
        (.cons (h.hasLength_unsigned index.toUInt64) (.cons (h.hasLength_bool true) .nil))
    convert hentry using 1
    show AcceptFile.textLength (.verified index) =
      commaLength [8 + decimalLength index.toUInt64.toNat, 11 + 4] + 2
    simp [AcceptFile.textLength, commaLength]
    omega
  | runs index rs =>
    have hruns := h.hasLength_arr_map fun r (_ : r ∈ rs) => hasLength_run h r
    have hentry : HasLength dump (AcceptFile.runs index rs).toJson _ :=
      h.hasLength_obj rfl (.cons (h.hasLength_unsigned index.toUInt64) (.cons hruns .nil))
    convert hentry using 1
    show AcceptFile.textLength (.runs index rs) = commaLength
      [8 + decimalLength index.toUInt64.toNat, 7 + (commaLength (rs.map runLength) + 2)] + 2
    simp only [AcceptFile.textLength, UInt16.toNat_toUInt64]
    simp only [commaLength, List.sum_cons, List.sum_nil, List.length_cons, List.length_nil]
    omega

theorem hasLength_accept (files : List AcceptFile) :
    HasLength dump (CtrlMsg.accept files).toJson (acceptLength files) := by
  have hfiles := h.hasLength_arr_map fun f (_ : f ∈ files) => hasLength_acceptFile h f
  have hmsg : HasLength dump (CtrlMsg.accept files).toJson _ :=
    h.hasLength_obj rfl (.cons (h.hasLength_str rfl) (.cons hfiles .nil))
  convert hmsg using 1
  show acceptLength files =
    commaLength [7 + 8, 8 + (commaLength (files.map AcceptFile.textLength) + 2)] + 2
  simp only [acceptLength]
  simp only [commaLength, List.sum_cons, List.sum_nil, List.length_cons, List.length_nil]
  omega

theorem hasLength_offer {m : Manifest}
    (hfiles : ∀ f ∈ m.files, isSafeRelativePath f.path = true)
    (hdirs : ∀ d ∈ m.dirs, isSafeRelativePath d = true)
    (hroots : ∀ r ∈ m.roots, isSafeRelativePath r.name = true) :
    HasLength dump (CtrlMsg.offer m.toJson).toJson
      (offerLength m.files m.dirs m.roots m.totalBytes) := by
  have hfiles := h.hasLength_arr_map fun f hf => hasLength_file h (hfiles f hf)
  have hdirs := h.hasLength_arr_map fun d hd =>
    h.hasLength_str (plain_of_isSafeRelativePath (hdirs d hd))
  have hroots := h.hasLength_arr_map fun r hr => hasLength_root h (hroots r hr)
  have hmanifest : HasLength dump m.toJson _ :=
    h.hasLength_obj rfl (.cons hfiles (.cons hdirs (.cons hroots
      (.cons (h.hasLength_unsigned m.totalBytes) .nil))))
  have hmsg : HasLength dump (CtrlMsg.offer m.toJson).toJson _ :=
    h.hasLength_obj rfl (.cons (h.hasLength_str rfl) (.cons hmanifest .nil))
  convert hmsg using 1
  show offerLength m.files m.dirs m.roots m.totalBytes = commaLength [7 + 7, 11 + (commaLength
    [8 + (commaLength (m.files.map fileLength) + 2),
      7 + (commaLength (m.dirs.map fun d => d.length + 2) + 2),
      8 + (commaLength (m.roots.map rootLength) + 2), 14 + decimalLength m.totalBytes.toNat] + 2)] + 2
  simp only [offerLength]
  simp only [commaLength, List.sum_cons, List.sum_nil, List.length_cons, List.length_nil]
  omega

end Lengths

end CrossTransfer.Share
