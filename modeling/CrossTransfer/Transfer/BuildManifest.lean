import Mathlib.Data.List.Sort
import Mathlib.Data.UInt
import CrossTransfer.Transfer.Manifest

/-! # Building the manifest of a share

`BuildManifest` of `core/src/transfer/manifest.cpp`. A share path names a file or a directory
(`Node`); a directory is gone through by a `recursive_directory_iterator`, which enters a directory
right after it has yielded it (`walk`).

What the file system answers is part of the tree: a status that cannot be read, a size that cannot,
a listing that fails, and how `relative` spells the name of a directory that is shared. A directory
that may not be opened is skipped, so it is an empty `Listing`. That `relative` fails for a path that
was just listed, and a tree that changes under the iterator, are left out.

A manifest that was built holds the files, the directories and the roots of the share paths, and
each of their paths is safe (`buildManifest_spec`).
-/

namespace CrossTransfer.Transfer

open Paths

/-! ## What the paths name -/

/-- `symlink_status` of what is not a directory, with the `file_size` of a regular file. -/
inductive FileStatus where
  /-- The status could not be read. -/
  | unknown (err : Bytes)
  | symlink
  /-- `none` if the size could not be read. -/
  | file (size : Option UInt64)
  | special
deriving DecidableEq, Repr

/-- The entries of a directory, in the order in which the iterator meets them. -/
inductive Listing where
  | done
  | failed (err : Bytes)
  | leaf (name : Name) (status : FileStatus) (rest : Listing)
  | dir (name : Name) (entries rest : Listing)

inductive Node where
  | leaf (status : FileStatus)
  /-- `spelled` is its name in the paths of `relative`, as the directory above has it. -/
  | dir (spelled : Name) (entries : Listing)

/-- What a step of the iterator yields. The path is relative to the share path and starts with a
    slash. -/
inductive Visit where
  | leaf (path : Bytes) (status : FileStatus)
  | dir (path : Bytes)
  /-- The step throws. -/
  | throws

/-- The steps of the iterator below the directory `base`. -/
def walk (base : Bytes) : Listing → List Visit
  | .done => []
  | .failed _ => [.throws]
  | .leaf name status rest => .leaf (base ++ slash :: name) status :: walk base rest
  | .dir name entries rest =>
    .dir (base ++ slash :: name) :: (walk (base ++ slash :: name) entries ++ walk base rest)

/-- `p.filename()`. -/
def fileName (raw : Bytes) : Name := (rfind raw slash).elim raw fun i => raw.drop (i + 1)

/-! ## The builder -/

inductive BuildError where
  | rejected (msg : Bytes)
  /-- An exception of the iterator. -/
  | thrown
deriving DecidableEq, Repr

/-- `m` and `files`. -/
structure Built where
  manifest : Manifest := ⟨[], [], [], 0⟩
  absFiles : List Bytes := []

namespace Built

variable (b : Built)

def pushRoot (root : ManifestRoot) : Built :=
  { b with manifest := { b.manifest with roots := b.manifest.roots ++ [root] } }

def pushDir (path : Bytes) : Built :=
  { b with manifest := { b.manifest with dirs := b.manifest.dirs ++ [path] } }

def pushFile (file : ManifestFile) (absPath : Bytes) : Built where
  manifest := { b.manifest with
    files := b.manifest.files ++ [file]
    totalBytes := b.manifest.totalBytes + file.size }
  absFiles := b.absFiles ++ [absPath]

/-- The size of a file, if it can be read and is not too large. -/
def sized (label : Bytes) : Option UInt64 → Except BuildError UInt64
  | none => .error (.rejected (ascii "cannot size " ++ label))
  | some size =>
    if UInt64.ofNat kMaxFileSize < size then
      .error (.rejected (ascii "file too large: " ++ label))
    else .ok size

/-- One round of the loop over the directory `raw`, which `relative` spells `name`. -/
def addVisit (raw name : Bytes) : Visit → Except BuildError Built
  | .throws => .error .thrown
  | .leaf _ (.unknown _) => .ok b
  | .leaf _ .symlink => .ok b
  | .dir path =>
    if !isSafeRelativePath (name ++ path) then
      .error (.rejected (ascii "unsafe path: " ++ name ++ path))
    else .ok (b.pushDir (name ++ path))
  | .leaf path (.file size) =>
    if !isSafeRelativePath (name ++ path) then
      .error (.rejected (ascii "unsafe path: " ++ name ++ path))
    else
      (sized (name ++ path) size).bind fun size =>
        if kMaxFilesPerTransfer ≤ b.manifest.files.length then
          .error (.rejected (ascii "too many files"))
        else .ok (b.pushFile ⟨name ++ path, size⟩ (raw ++ path))
  | .leaf path .special =>
    if !isSafeRelativePath (name ++ path) then
      .error (.rejected (ascii "unsafe path: " ++ name ++ path))
    else .ok b

/-- What a share path adds, after the checks of its name. -/
def addNode (raw name : Bytes) : Node → Except BuildError Built
  | .leaf (.file size) =>
    (sized raw size).bind fun size =>
      .ok ((b.pushRoot ⟨name, false⟩).pushFile ⟨name, size⟩ raw)
  | .dir _ (.failed err) => .error (.rejected (ascii "cannot list " ++ raw ++ ascii ": " ++ err))
  | .dir spelled entries =>
    (walk [] entries).foldlM (addVisit · raw spelled) ((b.pushRoot ⟨name, true⟩).pushDir name)
  | .leaf _ => .error (.rejected (ascii "not a file or directory: " ++ raw))

/-- One round of the loop over the share paths. -/
def addPath (look : Bytes → Node) (raw : Bytes) : Except BuildError Built :=
  match look raw with
  | .leaf (.unknown err) => .error (.rejected (ascii "cannot stat " ++ raw ++ ascii ": " ++ err))
  | .leaf .symlink => .error (.rejected (ascii "symlink not supported: " ++ raw))
  | node =>
    let name := fileName raw
    if name.isEmpty || !isSafeRelativePath name || (findFrom name slash 0).isSome then
      .error (.rejected (ascii "unsafe name: " ++ name))
    else if b.manifest.roots.any (·.name == name) then
      .error (.rejected (ascii "duplicate name: " ++ name))
    else
      (b.addNode raw name node).bind fun b =>
        if kMaxFilesPerTransfer < b.manifest.files.length then
          .error (.rejected (ascii "too many files"))
        else .ok b

end Built

/-- `BuildManifest`: the manifest, and the path of each of its files. -/
def buildManifest (look : Bytes → Node) (paths : List Bytes) :
    Except BuildError (Manifest × List Bytes) :=
  (paths.foldlM (Built.addPath · look) {}).bind fun b =>
    if b.manifest.roots.isEmpty then .error (.rejected (ascii "nothing to share"))
    else .ok ({ b.manifest with dirs := b.manifest.dirs.insertionSort (· ≤ ·) }, b.absFiles)

/-! ## What is shared -/

def Visit.file (name : Name) : Visit → Option ManifestFile
  | .leaf path (.file (some size)) => some ⟨name ++ path, size⟩
  | _ => none

def Visit.directory (name : Name) : Visit → Option Bytes
  | .dir path => some (name ++ path)
  | _ => none

namespace Node

def isDir : Node → Bool
  | .leaf _ => false
  | .dir _ _ => true

/-- The regular files at a share path. -/
def files (name : Name) : Node → List ManifestFile
  | .leaf (.file (some size)) => [⟨name, size⟩]
  | .leaf _ => []
  | .dir spelled entries => (walk [] entries).filterMap (Visit.file spelled)

/-- The directories at a share path. -/
def dirs (name : Name) : Node → List Bytes
  | .leaf _ => []
  | .dir spelled entries => name :: (walk [] entries).filterMap (Visit.directory spelled)

end Node

section Shared

variable (look : Bytes → Node) (paths : List Bytes)

def sharedFiles : List ManifestFile := paths.flatMap fun raw => (look raw).files (fileName raw)

def sharedDirs : List Bytes := paths.flatMap fun raw => (look raw).dirs (fileName raw)

def sharedRoots : List ManifestRoot := paths.map fun raw => ⟨fileName raw, (look raw).isDir⟩

end Shared

/-! ## The manifest holds what is shared -/

/-- What a part of the run has added. -/
structure Adds (b b' : Built) (fs : List ManifestFile) (ds : List Bytes)
    (rs : List ManifestRoot) : Prop where
  files : b'.manifest.files = b.manifest.files ++ fs
  dirs : b'.manifest.dirs = b.manifest.dirs ++ ds
  roots : b'.manifest.roots = b.manifest.roots ++ rs
  total : b'.manifest.totalBytes = b.manifest.totalBytes + (fs.map (·.size)).sum
  absFiles : b'.absFiles.length = b.absFiles.length + fs.length
  safeFiles : ∀ f ∈ fs, isSafeRelativePath f.path = true ∧ f.size.toNat ≤ kMaxFileSize
  safeDirs : ∀ d ∈ ds, isSafeRelativePath d = true
  safeRoots : ∀ r ∈ rs, isSafeRelativePath r.name = true

namespace Adds

variable {b b' b'' : Built} {fs fs' : List ManifestFile} {ds ds' : List Bytes}
  {rs rs' : List ManifestRoot}

theorem refl (b : Built) : Adds b b [] [] [] where
  files := by simp
  dirs := by simp
  roots := by simp
  total := by simp
  absFiles := rfl
  safeFiles := by simp
  safeDirs := by simp
  safeRoots := by simp

theorem trans (h : Adds b b' fs ds rs) (h' : Adds b' b'' fs' ds' rs') :
    Adds b b'' (fs ++ fs') (ds ++ ds') (rs ++ rs') where
  files := by rw [h'.files, h.files, List.append_assoc]
  dirs := by rw [h'.dirs, h.dirs, List.append_assoc]
  roots := by rw [h'.roots, h.roots, List.append_assoc]
  total := by rw [h'.total, h.total, List.map_append, List.sum_append, add_assoc]
  absFiles := by rw [h'.absFiles, h.absFiles, List.length_append, Nat.add_assoc]
  safeFiles := List.forall_mem_append.mpr ⟨h.safeFiles, h'.safeFiles⟩
  safeDirs := List.forall_mem_append.mpr ⟨h.safeDirs, h'.safeDirs⟩
  safeRoots := List.forall_mem_append.mpr ⟨h.safeRoots, h'.safeRoots⟩

theorem pushRoot (b : Built) {root : ManifestRoot} (hsafe : isSafeRelativePath root.name = true) :
    Adds b (b.pushRoot root) [] [] [root] where
  files := by simp [Built.pushRoot]
  dirs := by simp [Built.pushRoot]
  roots := rfl
  total := by simp [Built.pushRoot]
  absFiles := rfl
  safeFiles := by simp
  safeDirs := by simp
  safeRoots := by simpa using hsafe

theorem pushDir (b : Built) {path : Bytes} (hsafe : isSafeRelativePath path = true) :
    Adds b (b.pushDir path) [] [path] [] where
  files := by simp [Built.pushDir]
  dirs := rfl
  roots := by simp [Built.pushDir]
  total := by simp [Built.pushDir]
  absFiles := rfl
  safeFiles := by simp
  safeDirs := by simpa using hsafe
  safeRoots := by simp

theorem pushFile (b : Built) {file : ManifestFile} (absPath : Bytes)
    (hsafe : isSafeRelativePath file.path = true) (hsize : file.size.toNat ≤ kMaxFileSize) :
    Adds b (b.pushFile file absPath) [file] [] [] where
  files := rfl
  dirs := by simp [Built.pushFile]
  roots := by simp [Built.pushFile]
  total := by simp [Built.pushFile]
  absFiles := by simp [Built.pushFile]
  safeFiles := by simpa using ⟨hsafe, hsize⟩
  safeDirs := by simp
  safeRoots := by simp

end Adds

theorem sized_ok {label : Bytes} {size : Option UInt64} {n : UInt64}
    (h : Built.sized label size = .ok n) : size = some n ∧ n.toNat ≤ kMaxFileSize := by
  cases size with
  | none => cases h
  | some size =>
    rw [Built.sized] at h
    split at h
    · cases h
    · rename_i hsize
      cases h
      exact ⟨rfl, UInt64.le_iff_toNat_le.mp (UInt64.not_lt.mp hsize)⟩

theorem addVisit_adds {b b' : Built} {raw name : Bytes} {v : Visit}
    (h : b.addVisit raw name v = .ok b') :
    Adds b b' (Visit.file name v).toList (Visit.directory name v).toList [] := by
  cases v with
  | throws => cases h
  | dir path =>
    rw [Built.addVisit] at h
    split at h
    · cases h
    · rename_i hsafe
      cases h
      exact .pushDir b (by simpa using hsafe)
  | leaf path status =>
    cases status with
    | unknown err =>
      cases h
      exact .refl b
    | symlink =>
      cases h
      exact .refl b
    | special =>
      rw [Built.addVisit] at h
      split at h
      · cases h
      · cases h
        exact .refl b
    | file size =>
      rw [Built.addVisit] at h
      split at h
      · cases h
      · rename_i hsafe
        cases hn : Built.sized (name ++ path) size with
        | error e =>
          rw [hn] at h
          cases h
        | ok n =>
          obtain ⟨rfl, hsize⟩ := sized_ok hn
          rw [hn] at h
          simp only [Except.bind] at h
          split at h
          · cases h
          · cases h
            exact .pushFile b (raw ++ path) (by simpa using hsafe) hsize

theorem foldlM_addVisit_adds {b b' : Built} {raw name : Bytes} {visits : List Visit}
    (h : visits.foldlM (Built.addVisit · raw name) b = .ok b') :
    Adds b b' (visits.filterMap (Visit.file name)) (visits.filterMap (Visit.directory name)) [] := by
  induction visits generalizing b with
  | nil =>
    cases h
    exact .refl _
  | cons v visits ih =>
    rw [List.foldlM_cons] at h
    cases hv : b.addVisit raw name v with
    | error e =>
      rw [hv] at h
      cases h
    | ok c =>
      rw [hv] at h
      have hadds := (addVisit_adds hv).trans (ih h)
      simp only [List.filterMap_eq_flatMap_toList] at hadds ⊢
      exact hadds

theorem addNode_adds {b b' : Built} {raw name : Bytes} {node : Node}
    (h : b.addNode raw name node = .ok b') (hsafe : isSafeRelativePath name = true) :
    Adds b b' (node.files name) (node.dirs name) [⟨name, node.isDir⟩] := by
  cases node with
  | leaf status =>
    cases status with
    | file size =>
      rw [Built.addNode] at h
      cases hn : Built.sized raw size with
      | error e =>
        rw [hn] at h
        cases h
      | ok n =>
        obtain ⟨rfl, hsize⟩ := sized_ok hn
        rw [hn] at h
        cases h
        exact (Adds.pushRoot b hsafe).trans (.pushFile _ raw hsafe hsize)
    | unknown err => cases h
    | symlink => cases h
    | special => cases h
  | dir spelled entries =>
    have hwalk : (walk [] entries).foldlM (Built.addVisit · raw spelled)
        ((b.pushRoot ⟨name, true⟩).pushDir name) = .ok b' := by
      cases entries with
      | failed err => cases h
      | done => exact h
      | leaf first status rest => exact h
      | dir first entries rest => exact h
    exact ((Adds.pushRoot b hsafe).trans (.pushDir _ hsafe)).trans (foldlM_addVisit_adds hwalk)

theorem addPath_adds {look : Bytes → Node} {b b' : Built} {raw : Bytes}
    (h : b.addPath look raw = .ok b') :
    Adds b b' ((look raw).files (fileName raw)) ((look raw).dirs (fileName raw))
        [⟨fileName raw, (look raw).isDir⟩] ∧
      b'.manifest.files.length ≤ kMaxFilesPerTransfer := by
  unfold Built.addPath at h
  split at h
  · cases h
  · cases h
  · dsimp only at h
    split at h
    · cases h
    · rename_i hname
      split at h
      · cases h
      · cases hn : b.addNode raw (fileName raw) (look raw) with
        | error e =>
          rw [hn] at h
          cases h
        | ok c =>
          rw [hn] at h
          simp only [Except.bind] at h
          split at h
          · cases h
          · rename_i hcount
            cases h
            simp only [Bool.or_eq_true, Bool.not_eq_true', not_or, Bool.not_eq_false] at hname
            exact ⟨addNode_adds hn hname.1.2, Nat.not_lt.mp hcount⟩

theorem foldlM_addPath_adds {look : Bytes → Node} {b b' : Built} {paths : List Bytes}
    (h : paths.foldlM (Built.addPath · look) b = .ok b')
    (hcount : b.manifest.files.length ≤ kMaxFilesPerTransfer) :
    Adds b b' (sharedFiles look paths) (sharedDirs look paths) (sharedRoots look paths) ∧
      b'.manifest.files.length ≤ kMaxFilesPerTransfer := by
  induction paths generalizing b with
  | nil =>
    cases h
    exact ⟨.refl _, hcount⟩
  | cons raw paths ih =>
    rw [List.foldlM_cons] at h
    cases hc : b.addPath look raw with
    | error e =>
      rw [hc] at h
      cases h
    | ok c =>
      rw [hc] at h
      obtain ⟨hadds, hcount⟩ := addPath_adds hc
      obtain ⟨hrest, hcount⟩ := ih h hcount
      exact ⟨hadds.trans hrest, hcount⟩

/-- What a manifest that was built holds. -/
structure Holds (look : Bytes → Node) (paths : List Bytes) (m : Manifest)
    (absFiles : List Bytes) : Prop where
  files : m.files = sharedFiles look paths
  dirs : m.dirs.Perm (sharedDirs look paths)
  roots : m.roots = sharedRoots look paths
  total : m.totalBytes = ((sharedFiles look paths).map (·.size)).sum
  absFiles : absFiles.length = m.files.length
  count : m.files.length ≤ kMaxFilesPerTransfer
  safeFiles : ∀ f ∈ m.files, isSafeRelativePath f.path = true ∧ f.size.toNat ≤ kMaxFileSize
  safeDirs : ∀ d ∈ m.dirs, isSafeRelativePath d = true
  safeRoots : ∀ r ∈ m.roots, isSafeRelativePath r.name = true

theorem buildManifest_spec {look : Bytes → Node} {paths : List Bytes} {m : Manifest}
    {absFiles : List Bytes} (h : buildManifest look paths = .ok (m, absFiles)) :
    Holds look paths m absFiles := by
  unfold buildManifest at h
  cases hb : paths.foldlM (Built.addPath · look) {} with
  | error e =>
    rw [hb] at h
    cases h
  | ok b =>
    rw [hb] at h
    simp only [Except.bind] at h
    split at h
    · cases h
    · cases h
      obtain ⟨hadds, hcount⟩ := foldlM_addPath_adds hb (Nat.zero_le _)
      have hfiles : b.manifest.files = sharedFiles look paths := by simpa using hadds.files
      have hdirs : b.manifest.dirs = sharedDirs look paths := by simpa using hadds.dirs
      have hroots : b.manifest.roots = sharedRoots look paths := by simpa using hadds.roots
      refine ⟨hfiles, ?_, hroots, by simpa using hadds.total, ?_, hcount, ?_, ?_, ?_⟩
      · rw [← hdirs]
        exact List.perm_insertionSort _ _
      · rw [hfiles]
        simpa using hadds.absFiles
      · rw [hfiles]
        exact hadds.safeFiles
      · intro d hd
        rw [List.mem_insertionSort, hdirs] at hd
        exact hadds.safeDirs d hd
      · rw [hroots]
        exact hadds.safeRoots

/-! ## The builder succeeds -/

/-- The loop over a directory goes past this step, as long as there is room for a file. -/
def Visit.Passes (name : Name) : Visit → Prop
  | .throws => False
  | .leaf _ (.unknown _) => True
  | .leaf _ .symlink => True
  | .leaf path .special => isSafeRelativePath (name ++ path) = true
  | .leaf path (.file size) =>
    isSafeRelativePath (name ++ path) = true ∧ ∃ n, size = some n ∧ n.toNat ≤ kMaxFileSize
  | .dir path => isSafeRelativePath (name ++ path) = true

def Node.Passes : Node → Prop
  | .leaf (.file size) => ∃ n, size = some n ∧ n.toNat ≤ kMaxFileSize
  | .leaf _ => False
  | .dir _ (.failed _) => False
  | .dir spelled entries => ∀ v ∈ walk [] entries, v.Passes spelled

theorem sized_eq {label : Bytes} {n : UInt64} (h : n.toNat ≤ kMaxFileSize) :
    Built.sized label (some n) = .ok n := by
  rw [Built.sized, if_neg]
  exact UInt64.not_lt.mpr (UInt64.le_iff_toNat_le.mpr h)

theorem addVisit_passes {b : Built} {raw name : Bytes} {v : Visit} (h : v.Passes name)
    (hroom : b.manifest.files.length + (Visit.file name v).toList.length ≤ kMaxFilesPerTransfer) :
    ∃ b', b.addVisit raw name v = .ok b' := by
  cases v with
  | throws => exact h.elim
  | dir path =>
    have hsafe : isSafeRelativePath (name ++ path) = true := h
    exact ⟨_, by rw [Built.addVisit, hsafe]; rfl⟩
  | leaf path status =>
    cases status with
    | unknown err => exact ⟨b, rfl⟩
    | symlink => exact ⟨b, rfl⟩
    | special =>
      have hsafe : isSafeRelativePath (name ++ path) = true := h
      exact ⟨b, by rw [Built.addVisit, hsafe]; rfl⟩
    | file size =>
      obtain ⟨hsafe, n, rfl, hsize⟩ := h
      have hcount : ¬kMaxFilesPerTransfer ≤ b.manifest.files.length := Nat.not_le.mpr hroom
      rw [Built.addVisit, hsafe, sized_eq hsize]
      exact ⟨_, if_neg hcount⟩

theorem foldlM_addVisit_passes {b : Built} {raw name : Bytes} {visits : List Visit}
    (h : ∀ v ∈ visits, v.Passes name)
    (hroom : b.manifest.files.length + (visits.filterMap (Visit.file name)).length ≤
      kMaxFilesPerTransfer) :
    ∃ b', visits.foldlM (Built.addVisit · raw name) b = .ok b' := by
  induction visits generalizing b with
  | nil => exact ⟨b, rfl⟩
  | cons v visits ih =>
    rw [List.forall_mem_cons] at h
    rw [List.filterMap_eq_flatMap_toList, List.flatMap_cons, List.length_append,
      ← List.filterMap_eq_flatMap_toList] at hroom
    obtain ⟨c, hc⟩ := @addVisit_passes b raw name v h.1 (by omega)
    have hfiles := (addVisit_adds hc).files
    obtain ⟨b', hb'⟩ := @ih c h.2 (by rw [hfiles, List.length_append]; omega)
    exact ⟨b', by rw [List.foldlM_cons, hc]; exact hb'⟩

theorem addNode_passes {b : Built} {raw name : Bytes} {node : Node} (h : node.Passes)
    (hroom : b.manifest.files.length + (node.files name).length ≤ kMaxFilesPerTransfer) :
    ∃ b', b.addNode raw name node = .ok b' := by
  cases node with
  | leaf status =>
    cases status with
    | file size =>
      obtain ⟨n, rfl, hsize⟩ := h
      exact ⟨_, by rw [Built.addNode, sized_eq hsize]; rfl⟩
    | unknown err => exact h.elim
    | symlink => exact h.elim
    | special => exact h.elim
  | dir spelled entries =>
    cases entries with
    | failed err => exact h.elim
    | done => exact ⟨_, rfl⟩
    | leaf first status rest => exact foldlM_addVisit_passes h hroom
    | dir first entries rest => exact foldlM_addVisit_passes h hroom

/-- What the builder asks of a share path. -/
structure PathPasses (look : Bytes → Node) (raw : Bytes) : Prop where
  safe : isSafeRelativePath (fileName raw) = true
  single : slash ∉ fileName raw
  node : (look raw).Passes

theorem addPath_passes {look : Bytes → Node} {b : Built} {raw : Bytes} (h : PathPasses look raw)
    (hnew : fileName raw ∉ b.manifest.roots.map (·.name))
    (hroom : b.manifest.files.length + ((look raw).files (fileName raw)).length ≤
      kMaxFilesPerTransfer) :
    ∃ b', b.addPath look raw = .ok b' := by
  obtain ⟨c, hc⟩ := @addNode_passes b raw (fileName raw) (look raw) h.node hroom
  have hcount : ¬kMaxFilesPerTransfer < c.manifest.files.length := by
    rw [(addNode_adds hc h.safe).files, List.length_append]
    omega
  have hname : ((fileName raw).isEmpty || !isSafeRelativePath (fileName raw) ||
      (findFrom (fileName raw) slash 0).isSome) = false := by
    have hne : (fileName raw).isEmpty = false := by
      cases hraw : fileName raw with
      | nil =>
        have hsafe := h.safe
        rw [hraw] at hsafe
        cases hsafe
      | cons u rest => rfl
    have hsingle : (findFrom (fileName raw) slash 0).isSome = false := by
      simp only [findFrom, List.drop_zero, Option.isSome_map, List.findIdx?_isSome,
        List.any_eq_false, beq_iff_eq]
      exact fun u hu heq => h.single (heq ▸ hu)
    rw [hne, h.safe, hsingle]
    rfl
  have hroot : (b.manifest.roots.any (·.name == fileName raw)) = false := by
    simpa [List.any_eq_false] using hnew
  refine ⟨c, ?_⟩
  unfold Built.addPath
  split
  · rename_i err hlook
    have hpasses := h.node
    rw [hlook] at hpasses
    exact hpasses.elim
  · rename_i hlook
    have hpasses := h.node
    rw [hlook] at hpasses
    exact hpasses.elim
  · dsimp only
    rw [hname, if_neg (by simp), hroot, if_neg (by simp), hc]
    exact if_neg hcount

theorem foldlM_addPath_passes {look : Bytes → Node} {b : Built} {paths : List Bytes}
    (h : ∀ raw ∈ paths, PathPasses look raw)
    (hnew : ∀ raw ∈ paths, fileName raw ∉ b.manifest.roots.map (·.name))
    (hnames : (paths.map fileName).Nodup)
    (hroom : b.manifest.files.length + (sharedFiles look paths).length ≤ kMaxFilesPerTransfer) :
    ∃ b', paths.foldlM (Built.addPath · look) b = .ok b' := by
  induction paths generalizing b with
  | nil => exact ⟨b, rfl⟩
  | cons raw paths ih =>
    rw [List.forall_mem_cons] at h hnew
    rw [List.map_cons, List.nodup_cons] at hnames
    rw [sharedFiles, List.flatMap_cons, List.length_append, ← sharedFiles] at hroom
    obtain ⟨c, hc⟩ := @addPath_passes look b raw h.1 hnew.1 (by omega)
    obtain ⟨hadds, -⟩ := addPath_adds hc
    have hlater : ∀ later ∈ paths, fileName later ∉ c.manifest.roots.map (·.name) := by
      intro later hmem
      rw [hadds.roots, List.map_append, List.mem_append, not_or]
      refine ⟨hnew.2 later hmem, fun hin => hnames.1 ?_⟩
      have hsame : fileName later = fileName raw := List.mem_singleton.mp hin
      exact hsame ▸ List.mem_map_of_mem hmem
    obtain ⟨b', hb'⟩ := @ih c h.2 hlater hnames.2 (by
      rw [hadds.files, List.length_append]
      omega)
    exact ⟨b', by rw [List.foldlM_cons, hc]; exact hb'⟩

/-- Share paths with names of their own, of files and directories that the builder goes past, make a
    manifest. -/
theorem buildManifest_passes {look : Bytes → Node} {paths : List Bytes} (hne : paths ≠ [])
    (h : ∀ raw ∈ paths, PathPasses look raw) (hnames : (paths.map fileName).Nodup)
    (hroom : (sharedFiles look paths).length ≤ kMaxFilesPerTransfer) :
    ∃ m absFiles, buildManifest look paths = .ok (m, absFiles) := by
  obtain ⟨b, hb⟩ := @foldlM_addPath_passes look {} paths h (by simp) hnames (by simpa using hroom)
  have hroots : b.manifest.roots = sharedRoots look paths := by
    simpa using (foldlM_addPath_adds hb (Nat.zero_le _)).1.roots
  have hsome : b.manifest.roots.isEmpty = false := by
    rw [hroots, sharedRoots, List.isEmpty_eq_false_iff, Ne, List.map_eq_nil_iff]
    exact hne
  refine ⟨{ b.manifest with dirs := b.manifest.dirs.insertionSort (· ≤ ·) }, b.absFiles, ?_⟩
  rw [buildManifest, hb]
  simp [Except.bind, hsome]

end CrossTransfer.Transfer
