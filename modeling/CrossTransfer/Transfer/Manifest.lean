import CrossTransfer.Transfer.PathSanitize

/-! # The transfer manifest

`core/src/transfer/manifest.{h,cpp}`: the list of files, directories and roots of a share,
its JSON form, and the validation a receiver makes before it trusts an offer.
-/

namespace CrossTransfer.Transfer

open Paths

/-! ## JSON documents

The part of `nlohmann::json` the core reads and writes. An object is the list of its
entries; `find` takes the first one of a key, and the writers here never repeat a key. -/

inductive Json where
  | null
  | bool (b : Bool)
  | unsigned (n : UInt64)
  | integer (n : Int)
  /-- A number with a fraction or an exponent; `whole` is its integer part. -/
  | float (whole : Int)
  | str (s : Bytes)
  | arr (items : List Json)
  | obj (entries : List (Bytes × Json))

namespace Json

/-- `j.find(key)`; `none` is `j.end()`. -/
def find (j : Json) (key : String) : Option Json :=
  match j with
  | .obj entries => entries.lookup (ascii key)
  | _ => none

def isObject : Json → Bool
  | .obj _ => true
  | _ => false

end Json

/-! ## Manifests -/

structure ManifestFile where
  /-- Relative, `/`-separated, starts with a root name. -/
  path : Bytes
  size : UInt64
deriving DecidableEq, Repr

structure ManifestRoot where
  /-- A single path component. -/
  name : Name
  isDir : Bool
deriving DecidableEq, Repr

structure Manifest where
  files : List ManifestFile
  dirs : List Bytes
  roots : List ManifestRoot
  totalBytes : UInt64
deriving DecidableEq, Repr

/-- Number of data blocks for a file of `size` bytes (0 for an empty file). -/
def blockCountFor (size : UInt64) : UInt32 :=
  if size = 0 then 0
  else ((size + UInt64.ofNat kBlockPayloadSize - 1) / UInt64.ofNat kBlockPayloadSize).toUInt32

/-- Payload length of block `index` of a file with `size` bytes. -/
def blockLenFor (size : UInt64) (index : UInt32) : UInt16 :=
  let offset := index.toUInt64 * UInt64.ofNat kBlockPayloadSize
  if offset ≥ size then 0
  else
    let remain := size - offset
    (if remain < UInt64.ofNat kBlockPayloadSize then remain
      else UInt64.ofNat kBlockPayloadSize).toUInt16

/-- `p.substr(0, p.find('/'))`. -/
def rootOf (p : Bytes) : Name := substr p 0 (findFrom p slash 0)

namespace Manifest

def fileJson (f : ManifestFile) : Json :=
  .obj [(ascii "path", .str f.path), (ascii "size", .unsigned f.size)]

def rootJson (r : ManifestRoot) : Json :=
  .obj [(ascii "name", .str r.name), (ascii "dir", .bool r.isDir)]

def toJson (m : Manifest) : Json :=
  .obj [(ascii "files", .arr (m.files.map fileJson)),
    (ascii "dirs", .arr (m.dirs.map .str)),
    (ascii "roots", .arr (m.roots.map rootJson)),
    (ascii "total_bytes", .unsigned m.totalBytes)]

/-! ## Validation -/

/-- Why an offer's manifest is refused: `FromJson` returned false with this text, or a
    `get` inside it threw a type error. -/
inductive ParseError where
  | rejected (msg : String)
  | thrown
deriving DecidableEq, Repr

/-- `r.value("dir", false)`. -/
def valueDir (r : Json) : Except ParseError Bool :=
  match r.find "dir" with
  | none => .ok false
  | some (.bool b) => .ok b
  | some _ => .error .thrown

/-- One entry of `roots`; `acc` are the roots read before it. -/
def readRoot (acc : List ManifestRoot) (r : Json) : Except ParseError ManifestRoot :=
  match r.find "name" with
  | some (.str name) =>
    match valueDir r with
    | .error e => .error e
    | .ok isDir =>
      if !isSafeRelativePath name || (findFrom name slash 0).isSome then
        .error (.rejected "manifest root name unsafe")
      else if acc.any (·.name == name) then .error (.rejected "duplicate root")
      else .ok ⟨name, isDir⟩
  | _ => .error (.rejected "manifest.roots entry invalid")

/-- One entry of `dirs`; `acc` are the directories read before it. -/
def readDir (roots : List ManifestRoot) (acc : List Bytes) (d : Json) : Except ParseError Bytes :=
  match d with
  | .str p =>
    if !isSafeRelativePath p then .error (.rejected "manifest dir path unsafe")
    else if acc.contains p then .error (.rejected "duplicate manifest entry")
    else if !roots.any (·.name == rootOf p) then .error (.rejected "manifest dir outside roots")
    else .ok p
  | _ => .error (.rejected "manifest.dirs entry invalid")

/-- One entry of `files`; `acc` are the files read before it and `total` their bytes. -/
def readFile (roots : List ManifestRoot) (dirs : List Bytes) (acc : List ManifestFile)
    (total : UInt64) (f : Json) : Except ParseError ManifestFile :=
  match f.find "path", f.find "size" with
  | some (.str path), some (.unsigned size) =>
    if !isSafeRelativePath path then .error (.rejected "manifest file path unsafe")
    else if size > UInt64.ofNat kMaxFileSize then .error (.rejected "file too large")
    else if dirs.contains path || acc.any (·.path == path) then
      .error (.rejected "duplicate manifest entry")
    else if !roots.any (·.name == rootOf path) then
      .error (.rejected "manifest file outside roots")
    else if total + size < size then .error (.rejected "total size overflow")
    else .ok ⟨path, size⟩
  | _, _ => .error (.rejected "manifest.files entry invalid")

def readRoots : List Json → List ManifestRoot → Except ParseError (List ManifestRoot)
  | [], acc => .ok acc
  | r :: rest, acc =>
    match readRoot acc r with
    | .error e => .error e
    | .ok root => readRoots rest (acc ++ [root])

def readDirs (roots : List ManifestRoot) : List Json → List Bytes → Except ParseError (List Bytes)
  | [], acc => .ok acc
  | d :: rest, acc =>
    match readDir roots acc d with
    | .error e => .error e
    | .ok p => readDirs roots rest (acc ++ [p])

def readFiles (roots : List ManifestRoot) (dirs : List Bytes) :
    List Json → List ManifestFile → UInt64 → Except ParseError (List ManifestFile × UInt64)
  | [], acc, total => .ok (acc, total)
  | f :: rest, acc, total =>
    match readFile roots dirs acc total f with
    | .error e => .error e
    | .ok mf => readFiles roots dirs rest (acc ++ [mf]) (total + mf.size)

/-- The closing check of one file against the directories and the directory roots. -/
def fileConflict (dirs : List Bytes) (roots : List ManifestRoot) (f : ManifestFile) :
    Option String :=
  if dirs.any fun d => (f.path ++ [slash]).isPrefixOf d then some "directory nested in file"
  else if roots.any fun r => r.isDir && r.name == f.path then some "root type mismatch"
  else none

def fromJson (j : Json) : Except ParseError Manifest :=
  if !j.isObject then .error (.rejected "manifest not an object")
  else
    match j.find "files", j.find "dirs", j.find "roots" with
    | some (.arr files), dirs, roots =>
      match dirs, roots with
      | some (.arr dirs), some (.arr roots) => body files dirs roots
      | none, some (.arr roots) => body files [] roots
      | some (.arr _), _ | none, _ => .error (.rejected "manifest.roots missing")
      | some _, _ => .error (.rejected "manifest.dirs invalid")
    | _, _, _ => .error (.rejected "manifest.files missing")
where
  body (files dirs roots : List Json) : Except ParseError Manifest :=
    if kMaxFilesPerTransfer < files.length then .error (.rejected "too many files")
    else
      match readRoots roots [] with
      | .error e => .error e
      | .ok roots =>
        match readDirs roots dirs [] with
        | .error e => .error e
        | .ok dirs =>
          match readFiles roots dirs files [] 0 with
          | .error e => .error e
          | .ok (files, total) =>
            match files.findSome? (fileConflict dirs roots) with
            | some msg => .error (.rejected msg)
            | none => .ok ⟨files, dirs, roots, total⟩

/-! ## What an accepted manifest satisfies -/

theorem slash_not_mem_of_findFrom {s : Bytes} (h : (findFrom s slash 0).isSome = false) :
    slash ∉ s := by
  intro hmem
  simp only [findFrom, List.drop_zero, Option.isSome_map, List.findIdx?_isSome,
    List.any_eq_false, beq_iff_eq] at h
  exact h slash hmem rfl

structure GoodRoots (roots : List ManifestRoot) : Prop where
  nodup : (roots.map (·.name)).Nodup
  safe : ∀ r ∈ roots, isSafeRelativePath r.name = true
  single : ∀ r ∈ roots, slash ∉ r.name

theorem readRoot_ok {acc : List ManifestRoot} {r : Json} {root : ManifestRoot}
    (h : readRoot acc r = .ok root) :
    isSafeRelativePath root.name = true ∧ slash ∉ root.name ∧ root.name ∉ acc.map (·.name) := by
  unfold readRoot at h
  split at h
  · split at h
    · cases h
    · split at h
      · cases h
      · rename_i hsafe
        split at h
        · cases h
        · rename_i hnew
          cases h
          simp only [Bool.or_eq_true, Bool.not_eq_true', not_or, Bool.not_eq_false,
            Bool.not_eq_true] at hsafe
          refine ⟨hsafe.1, slash_not_mem_of_findFrom hsafe.2, ?_⟩
          simpa using hnew
  · cases h

theorem GoodRoots.snoc {acc : List ManifestRoot} {root : ManifestRoot} (good : GoodRoots acc)
    (safe : isSafeRelativePath root.name = true) (single : slash ∉ root.name)
    (fresh : root.name ∉ acc.map (·.name)) : GoodRoots (acc ++ [root]) where
  nodup := by
    rw [List.map_append, List.map_singleton, List.nodup_append]
    refine ⟨good.nodup, List.nodup_singleton _, ?_⟩
    rintro a ha b hb rfl
    exact fresh (List.mem_singleton.mp hb ▸ ha)
  safe r hr := by
    obtain hr | hr := List.mem_append.mp hr
    · exact good.safe r hr
    · exact List.mem_singleton.mp hr ▸ safe
  single r hr := by
    obtain hr | hr := List.mem_append.mp hr
    · exact good.single r hr
    · exact List.mem_singleton.mp hr ▸ single

theorem readRoots_good {items : List Json} {acc roots : List ManifestRoot}
    (h : readRoots items acc = .ok roots) (good : GoodRoots acc) : GoodRoots roots := by
  induction items generalizing acc with
  | nil =>
    cases h
    exact good
  | cons r rest ih =>
    rw [readRoots] at h
    cases hr : readRoot acc r with
    | error e => simp [hr] at h
    | ok root =>
      rw [hr] at h
      obtain ⟨safe, single, fresh⟩ := readRoot_ok hr
      exact ih h (good.snoc safe single fresh)

/-- The entries of `files` that have been accepted so far. -/
structure GoodFiles (roots : List ManifestRoot) (files : List ManifestFile) : Prop where
  nodup : (files.map (·.path)).Nodup
  safe : ∀ f ∈ files, isSafeRelativePath f.path = true
  rooted : ∀ f ∈ files, ∃ r ∈ roots, r.name = rootOf f.path
  size : ∀ f ∈ files, f.size.toNat ≤ kMaxFileSize

theorem readFile_ok {roots : List ManifestRoot} {dirs : List Bytes} {acc : List ManifestFile}
    {total : UInt64} {j : Json} {f : ManifestFile} (h : readFile roots dirs acc total j = .ok f) :
    isSafeRelativePath f.path = true ∧ f.size.toNat ≤ kMaxFileSize ∧
      f.path ∉ acc.map (·.path) ∧ ∃ r ∈ roots, r.name = rootOf f.path := by
  unfold readFile at h
  split at h
  · split at h
    · cases h
    · rename_i hsafe
      split at h
      · cases h
      · rename_i hsize
        split at h
        · cases h
        · rename_i hnew
          split at h
          · cases h
          · rename_i hroot
            split at h
            · cases h
            · cases h
              refine ⟨by simpa using hsafe, ?_, by simp_all, by simpa using hroot⟩
              exact UInt64.le_iff_toNat_le.mp (UInt64.not_lt.mp hsize)
  · cases h

theorem GoodFiles.snoc {roots : List ManifestRoot} {acc : List ManifestFile} {f : ManifestFile}
    (good : GoodFiles roots acc) (safe : isSafeRelativePath f.path = true)
    (size : f.size.toNat ≤ kMaxFileSize) (fresh : f.path ∉ acc.map (·.path))
    (rooted : ∃ r ∈ roots, r.name = rootOf f.path) : GoodFiles roots (acc ++ [f]) := by
  have each : ∀ {P : ManifestFile → Prop}, (∀ g ∈ acc, P g) → P f → ∀ g ∈ acc ++ [f], P g := by
    intro P hacc hf g hg
    obtain hg | hg := List.mem_append.mp hg
    · exact hacc g hg
    · exact List.mem_singleton.mp hg ▸ hf
  refine ⟨?_, each good.safe safe, each good.rooted rooted, each good.size size⟩
  rw [List.map_append, List.map_singleton, List.nodup_append]
  refine ⟨good.nodup, List.nodup_singleton _, ?_⟩
  rintro a ha b hb rfl
  exact fresh (List.mem_singleton.mp hb ▸ ha)

theorem readFiles_good {roots : List ManifestRoot} {dirs : List Bytes} {items : List Json}
    {acc files : List ManifestFile} {total total' : UInt64}
    (h : readFiles roots dirs items acc total = .ok (files, total')) (good : GoodFiles roots acc) :
    GoodFiles roots files ∧ files.length = acc.length + items.length := by
  induction items generalizing acc total with
  | nil =>
    cases h
    exact ⟨good, rfl⟩
  | cons j rest ih =>
    rw [readFiles] at h
    cases hf : readFile roots dirs acc total j with
    | error e => simp [hf] at h
    | ok f =>
      rw [hf] at h
      obtain ⟨safe, size, fresh, rooted⟩ := readFile_ok hf
      obtain ⟨hgood, hlen⟩ := ih h (good.snoc safe size fresh rooted)
      refine ⟨hgood, ?_⟩
      rw [hlen, List.length_append, List.length_singleton, List.length_cons]
      omega

/-- What `FromJson` has checked of the roots and the files. -/
structure WellFormed (m : Manifest) : Prop where
  roots : GoodRoots m.roots
  files : GoodFiles m.roots m.files
  count : m.files.length ≤ kMaxFilesPerTransfer

theorem fromJson_body {files dirs roots : List Json} {m : Manifest}
    (h : fromJson.body files dirs roots = .ok m) : m.WellFormed := by
  unfold fromJson.body at h
  split at h
  · cases h
  · rename_i hcount
    split at h
    · cases h
    · rename_i rs hroots
      split at h
      · cases h
      · split at h
        · cases h
        · rename_i fs total hfiles
          split at h
          · cases h
          · cases h
            have good := readRoots_good hroots ⟨by simp, by simp, by simp⟩
            obtain ⟨gfiles, hlen⟩ := readFiles_good hfiles ⟨by simp, by simp, by simp, by simp⟩
            exact ⟨good, gfiles, by simp only [hlen, List.length_nil] at *; omega⟩

theorem fromJson_ok {j : Json} {m : Manifest} (h : fromJson j = .ok m) :
    ∃ files dirs roots, fromJson.body files dirs roots = .ok m := by
  unfold fromJson at h
  split at h
  · cases h
  · split at h
    · split at h
      · exact ⟨_, _, _, h⟩
      · exact ⟨_, _, _, h⟩
      all_goals cases h
    · cases h

theorem wellFormed_of_fromJson {j : Json} {m : Manifest} (h : fromJson j = .ok m) :
    m.WellFormed := by
  obtain ⟨files, dirs, roots, hbody⟩ := fromJson_ok h
  exact fromJson_body hbody

/-! ## The way back -/

theorem readFile_fileJson {roots : List ManifestRoot} {dirs : List Bytes} {acc : List ManifestFile}
    {total : UInt64} {f g : ManifestFile} (h : readFile roots dirs acc total (fileJson f) = .ok g) :
    g = f := by
  have hpath : (fileJson f).find "path" = some (.str f.path) := rfl
  have hsize : (fileJson f).find "size" = some (.unsigned f.size) := rfl
  unfold readFile at h
  rw [hpath, hsize] at h
  dsimp only at h
  repeat' split at h
  all_goals cases h
  rfl

theorem readFiles_fileJson {roots : List ManifestRoot} {dirs : List Bytes}
    {files acc read : List ManifestFile} {total total' : UInt64}
    (h : readFiles roots dirs (files.map fileJson) acc total = .ok (read, total')) :
    read = acc ++ files := by
  induction files generalizing acc total with
  | nil =>
    cases h
    exact (List.append_nil _).symm
  | cons f rest ih =>
    rw [List.map_cons, readFiles] at h
    split at h
    · cases h
    · rename_i g hg
      rw [readFile_fileJson hg] at h
      rw [ih h, List.append_assoc, List.singleton_append]

/-- A manifest that is read back lists the same files. -/
theorem files_of_fromJson_toJson {m m' : Manifest} (h : fromJson m.toJson = .ok m') :
    m'.files = m.files := by
  have hfiles : m.toJson.find "files" = some (.arr (m.files.map fileJson)) := rfl
  have hdirs : m.toJson.find "dirs" = some (.arr (m.dirs.map .str)) := rfl
  have hroots : m.toJson.find "roots" = some (.arr (m.roots.map rootJson)) := rfl
  unfold fromJson at h
  rw [hfiles, hdirs, hroots] at h
  simp only [toJson, Json.isObject, Bool.not_true, Bool.false_eq_true, if_false] at h
  unfold fromJson.body at h
  split at h
  · cases h
  · split at h
    · cases h
    · split at h
      · cases h
      · split at h
        · cases h
        · rename_i read total hread
          split at h
          · cases h
          · cases h
            exact readFiles_fileJson hread

end Manifest

end CrossTransfer.Transfer
