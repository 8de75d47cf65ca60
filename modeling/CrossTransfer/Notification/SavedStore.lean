import CrossTransfer.Library.FileFrame
import CrossTransfer.Library.Machine
import CrossTransfer.Notification.ItemJson
import CrossTransfer.Transfer.PathSanitize

/-! # The notification store and its file

`Open`, `Create`, `Revoke` and `Commit` of `server/internal/notification/store.go` with the file they
keep. A commit writes a temporary file next to it and renames that; each step on the way can fail, and
the deferred `os.Remove` can fail too.
-/

namespace CrossTransfer.Notification

open CrossTransfer.Library
open CrossTransfer.Transfer

/-! ## What a call is given -/

/-- A `Draft`, whose strings need not be valid. -/
structure RawDraft where
  title : Bytes
  body : Bytes
  level : Bytes

/-- `Validate`. Trimming removes whole code points, so that it can follow the test of the encoding. -/
def RawDraft.validate (d : RawDraft) : Except String Draft :=
  match Utf8.runes? d.title, Utf8.runes? d.body with
  | some title, some body => Draft.validate ⟨title, body, Utf8.runes d.level⟩
  | _, _ => .error "标题需为 1–120 字，正文需为 1–2000 字"

/-- What a call reads from its surroundings, and which of the file operations succeed. -/
structure CallIo where
  /-- `rand.Read` of 16 bytes. -/
  random : Option { bytes : Bytes // bytes.length = 16 }
  /-- `time.Now().Unix()` -/
  now : Int64
  /-- What `os.CreateTemp` puts after `.notifications-`. -/
  suffix : Bytes
  mkdirAll : Bool := true
  createTemp : Bool := true
  /-- After how many bytes the write fails. -/
  written : Option Nat := none
  sync : Bool := true
  close : Bool := true
  rename : Bool := true
  remove : Bool := true

/-- No operation on the temporary file is refused. -/
structure CallIo.Works (io : CallIo) : Prop where
  createTemp : io.createTemp = true
  written : io.written = none
  sync : io.sync = true
  close : io.close = true
  rename : io.rename = true

inductive Failure where
  | invalid (message : String)
  | random
  | notFound
  | mkdirAll
  | createTemp
  | write
  | sync
  | close
  | rename
deriving DecidableEq

/-- `hex.EncodeToString` -/
def hexEncode (bytes : Bytes) : Text :=
  bytes.flatMap fun b => [Nat.digitChar (b.toNat / 16), Nat.digitChar (b.toNat % 16)]

/-! ## Saving -/

abbrev Files := FileSystem Name

/-- `os.CreateTemp`, which does not open a file that exists. -/
def createTemp (fs : Files) (p : Path) (ok : Bool) : Option (Files × Nat) :=
  if ok && fs.canHold p && !fs.isRegular p then some (fs.create p, fs.next) else none

/-- The temporary file next to `path`. -/
def CallIo.tempPath (io : CallIo) (path : Path) : Path :=
  path.dropLast ++ [ascii ".notifications-" ++ io.suffix]

/-- Write, sync and close the temporary file. -/
def fillTemp (io : CallIo) (fs : Files) (i : Nat) (data : Bytes) : Files × Except Failure Unit :=
  match io.written with
  | some n => (fs.writeAt i 0 (data.take n), .error .write)
  | none =>
    (fs.writeAt i 0 data,
      if !io.sync then .error .sync else if !io.close then .error .close else .ok ())

/-- The part of `Commit` between `CreateTemp` and the deferred `Remove`. -/
def replaceFile (io : CallIo) (fs : Files) (path : Path) (i : Nat) (data : Bytes) :
    Files × Except Failure Unit :=
  match fillTemp io fs i data with
  | (fs, .error e) => (fs, .error e)
  | (fs, .ok ()) =>
    match fs.rename (io.tempPath path) path io.rename with
    | none => (fs, .error .rename)
    | some fs => (fs, .ok ())

/-- The file operations of `Commit`. -/
def saveFile (io : CallIo) (fs : Files) (path : Path) (data : Bytes) : Files × Except Failure Unit :=
  match fs.ensureDir path.dropLast io.mkdirAll with
  | none => (fs, .error .mkdirAll)
  | some fs =>
    match createTemp fs (io.tempPath path) io.createTemp with
    | none => (fs, .error .createTemp)
    | some (fs, i) =>
      let (fs, result) := replaceFile io fs path i data
      (if io.remove then fs.unlink (io.tempPath path) else fs, result)

/-! ## The store -/

structure SavedStore where
  fs : Files
  path : Path
  store : Store
  /-- What was last handed to `onChange`; `none` if there is no `onChange`. -/
  snapshot : Option Bytes

/-- `os.ReadFile` and `json.Unmarshal`; `none` if the file does not exist. -/
def readItems (fs : Files) (path : Path) (readable : Bool) : Except String (Option (List Item)) :=
  match fs.read path with
  | some data =>
    if readable then
      match unmarshal data with
      | some items => .ok (some items)
      | none => .error "read notifications"
    else .error "open"
  | none =>
    if readable && !fs.isDir path && !(path.dropLast.inits.any fs.isRegular) then .ok none
    else .error "open"

namespace SavedStore

/-- `PublishSnapshot`. -/
def publishSnapshot (s : SavedStore) : SavedStore :=
  { s with snapshot := s.snapshot.map fun _ => marshalSnapshot s.store.active }

/-- `Open`; `onChange` may be missing. -/
def openFile (fs : Files) (path : Path) (readable onChange : Bool) : Except String SavedStore :=
  (openStore (readItems fs path readable)).map fun store =>
    publishSnapshot ⟨fs, path, store, if onChange then some [] else none⟩

/-- `Commit`. -/
def commit (s : SavedStore) (io : CallIo) (items : List Item) : SavedStore × Except Failure Unit :=
  match saveFile io s.fs s.path (marshalIndent items) with
  | (fs, .error e) => ({ s with fs := fs }, .error e)
  | (fs, .ok ()) => (publishSnapshot { s with fs := fs, store := ⟨items⟩ }, .ok ())

/-- The item of `Create`. -/
def newItem (d : Draft) (id : Bytes) (now : Int64) : Item :=
  { d with id := hexEncode id, createdAt := now.toInt }

def create (s : SavedStore) (io : CallIo) (d : RawDraft) : SavedStore × Except Failure Item :=
  match d.validate, io.random with
  | .error message, _ => (s, .error (.invalid message))
  | .ok _, none => (s, .error .random)
  | .ok d, some id =>
    let item := newItem d id io.now
    let (s, result) := s.commit io ((item :: s.store.items).take limit)
    (s, result.map fun _ => item)

def revoke (s : SavedStore) (io : CallIo) (id : Text) : SavedStore × Except Failure Unit :=
  match s.store.items.find? fun item => item.id == id with
  | none => (s, .error .notFound)
  | some item =>
    if item.revokedAt ≠ 0 then (s, .ok ())
    else s.commit io (Store.revokeFirst id io.now.toInt s.store.items)

end SavedStore

/-! ## Runs -/

inductive Call where
  | create (io : CallIo) (d : RawDraft)
  | revoke (io : CallIo) (id : Text)

inductive StoreAct where
  | call (c : Call)
  /-- Another program changes other files. -/
  | other (fs : Files)

namespace SavedStore

/-- The state after a call, and what it returns but for the item. -/
def call (s : SavedStore) : Call → SavedStore × Except Failure Unit
  | .create io d => ((s.create io d).1, (s.create io d).2.map fun _ => ())
  | .revoke io id => s.revoke io id

def step (s : SavedStore) : StoreAct → Option SavedStore
  | .call c => some (s.call c).1
  -- The file of the store is left alone.
  | .other fs => if fs.read s.path = s.fs.read s.path then some { s with fs := fs } else none

def machine (s : SavedStore) : Machine SavedStore StoreAct := ⟨s, step⟩

/-- The item that a step announces. -/
def announces (s : SavedStore) : StoreAct → List Item
  | .call (.create io d) =>
    match (s.create io d).2 with
    | .ok item => [item]
    | .error _ => []
  | _ => []

end SavedStore

/-! ## What saving does -/

section Saving

variable {io : CallIo} {fs fs' : Files} {path : Path} {data : Bytes} {i : Nat} {e : Failure}
  {result : Except Failure Unit} {ok : Bool}

theorem createTemp_cases {p : Path} (h : createTemp fs p ok = some (fs', i)) :
    ok = true ∧ fs.link p = none ∧ fs' = fs.create p ∧ i = fs.next := by
  unfold createTemp at h
  split at h
  · rename_i hnew
    cases h
    simp only [Bool.and_eq_true, Bool.not_eq_true', FileSystem.isRegular,
      Option.isSome_eq_false_iff, Option.isNone_iff_eq_none] at hnew
    exact ⟨hnew.1.1, hnew.2, rfl, rfl⟩
  · cases h

/-- All data has been written, synced and closed. -/
theorem fillTemp_ok (h : fillTemp io fs i data = (fs', .ok ())) :
    fs' = fs.writeAt i 0 data ∧ io.written = none ∧ io.sync = true ∧ io.close = true := by
  unfold fillTemp at h
  split at h
  · cases h
  · rename_i hwritten
    obtain ⟨hfs, hresult⟩ := Prod.mk.inj h
    split at hresult
    · cases hresult
    · rename_i hsync
      split at hresult
      · cases hresult
      · rename_i hclose
        exact ⟨hfs.symm, hwritten, by simpa using hsync, by simpa using hclose⟩

theorem only_fillTemp {p : Path} (hp : fs.link p = some i) (h : fillTemp io fs i data = (fs', result)) :
    FileSystem.Only [p] fs fs' := by
  unfold fillTemp at h
  split at h
  · cases h
    exact FileSystem.only_writeAt hp _ _
  · cases h
    exact FileSystem.only_writeAt hp _ _

theorem only_unlink {p : Path} : FileSystem.Only [p] fs (fs.unlink p) := by
  intro q hq
  have hne : q ≠ p := fun h => hq (h ▸ List.mem_singleton_self _)
  exact ⟨by rw [FileSystem.link_unlink, if_neg hne], fun _ _ => rfl⟩

/-- A new file with some data. -/
theorem read_writeAt_new {p : Path} :
    ((fs.create p).writeAt fs.next 0 data).read p = some data := by
  simp only [FileSystem.read, FileSystem.link_writeAt, FileSystem.link_create, if_pos, Option.map_some]
  simp [FileSystem.writeAt, FileSystem.create, FileSystem.overlay, FileSystem.setData]

theorem allowed_of_rename {src dst : Path} (h : fs.rename src dst ok = some fs') : ok = true := by
  unfold FileSystem.rename at h
  split at h
  · rename_i hallowed
    exact (Bool.and_eq_true_iff.mp hallowed).1
  · cases h

theorem replaceFile_cases (hcreated : io.createTemp = true) (hlink : fs.link (io.tempPath path) = some i)
    (h : replaceFile io fs path i data = (fs', result)) :
    (∃ e, result = .error e ∧ FileSystem.Only [io.tempPath path] fs fs') ∨
      result = .ok () ∧ io.Works ∧
        (fs.writeAt i 0 data).rename (io.tempPath path) path io.rename = some fs' := by
  unfold replaceFile at h
  split at h
  · rename_i mid e hfill
    cases h
    exact .inl ⟨e, rfl, only_fillTemp hlink hfill⟩
  · rename_i mid hfill
    obtain ⟨rfl, hwritten, hsync, hclose⟩ := fillTemp_ok hfill
    split at h
    · cases h
      exact .inl ⟨.rename, rfl, FileSystem.only_writeAt hlink _ _⟩
    · rename_i renamed hrename
      cases h
      exact .inr ⟨rfl, ⟨hcreated, hwritten, hsync, hclose, allowed_of_rename hrename⟩, hrename⟩

theorem only_removeTemp {p : Path} :
    FileSystem.Only [p] fs (if io.remove then fs.unlink p else fs) := by
  split
  · exact only_unlink
  · exact .refl _ _

/-- Either the file of the store is what it was, or it holds the data. -/
theorem saveFile_cases (htemp : io.tempPath path ≠ path)
    (h : saveFile io fs path data = (fs', result)) :
    (∃ e, result = .error e ∧ fs'.read path = fs.read path) ∨
      result = .ok () ∧ io.Works ∧ fs'.read path = some data := by
  have hother : path ∉ [io.tempPath path] := fun hmem => htemp (List.mem_singleton.mp hmem).symm
  unfold saveFile at h
  split at h
  · cases h
    exact .inl ⟨.mkdirAll, rfl, rfl⟩
  · rename_i made hmade
    have hdirs : FileSystem.Only [io.tempPath path] fs made := (FileSystem.sameFiles_ensureDir hmade).only
    split at h
    · cases h
      exact .inl ⟨.createTemp, rfl, hdirs.read hother⟩
    · rename_i opened i hopened
      obtain ⟨hcreated, -, rfl, rfl⟩ := createTemp_cases hopened
      have hlink : (made.create (io.tempPath path)).link (io.tempPath path) = some made.next := by simp
      have honly := hdirs.trans FileSystem.only_create
      cases hreplace : replaceFile io (made.create (io.tempPath path)) path made.next data with
      | mk replaced outcome =>
        rw [hreplace] at h
        cases h
        obtain ⟨e, rfl, hreplaced⟩ | ⟨rfl, hworks, hrename⟩ := replaceFile_cases hcreated hlink hreplace
        · exact .inl ⟨e, rfl, ((honly.trans hreplaced).trans only_removeTemp).read hother⟩
        · refine .inr ⟨rfl, hworks, ?_⟩
          rw [only_removeTemp.read hother, FileSystem.read_rename hrename, read_writeAt_new]

end Saving

end CrossTransfer.Notification
