import Mathlib.Data.UInt
import CrossTransfer.Library.CheckedList
import CrossTransfer.Transfer.Manifest

/-! # Accepted manifests

What `Manifest::FromJson` lets through, exactly: the entries of the three lists (`Json.entries`) and
the checks it makes of them (`Accepted`). The checks leave one gap. A file may lie under another
file, which its comment rules out, so an accepted manifest is a tree if no two file entries do that
(`describesTree_iff`).
-/

namespace CrossTransfer.Transfer

open CrossTransfer.Library.CheckedList Paths

/-! ## Entries -/

namespace Json

def rootEntry (r : Json) : Option ManifestRoot :=
  match r.find "name", Manifest.valueDir r with
  | some (.str name), .ok isDir => some ⟨name, isDir⟩
  | _, _ => none

def dirEntry : Json → Option Bytes
  | .str p => some p
  | _ => none

def fileEntry (f : Json) : Option ManifestFile :=
  match f.find "path", f.find "size" with
  | some (.str path), some (.unsigned size) => some ⟨path, size⟩
  | _, _ => none

/-- The three lists of a JSON manifest; no `dirs` is an empty list. -/
def lists (j : Json) : Option (List Json × List Json × List Json) :=
  match j.find "files", j.find "dirs", j.find "roots" with
  | some (.arr files), some (.arr dirs), some (.arr roots) => some (files, dirs, roots)
  | some (.arr files), none, some (.arr roots) => some (files, [], roots)
  | _, _, _ => none

/-- A JSON document lists these files, directories and roots. -/
def Lists (j : Json) (files : List ManifestFile) (dirs : List Bytes)
    (roots : List ManifestRoot) : Prop :=
  ∃ fs ds rs, j.lists = some (fs, ds, rs) ∧ fs.mapM fileEntry = some files ∧
    ds.mapM dirEntry = some dirs ∧ rs.mapM rootEntry = some roots

end Json

namespace Manifest

/-- The paths of the directories and the files. -/
def paths (m : Manifest) : List Bytes := m.dirs ++ m.files.map (·.path)

/-- What `FromJson` checks of the lists. -/
structure Accepted (files : List ManifestFile) (dirs : List Bytes)
    (roots : List ManifestRoot) : Prop where
  goodRoots : GoodRoots roots
  goodFiles : GoodFiles roots files
  count : files.length ≤ kMaxFilesPerTransfer
  safeDirs : ∀ d ∈ dirs, isSafeRelativePath d = true
  rootedDirs : ∀ d ∈ dirs, ∃ r ∈ roots, r.name = rootOf d
  nodupDirs : dirs.Nodup
  apart : ∀ f ∈ files, f.path ∉ dirs
  dirNotUnder : ∀ f ∈ files, ∀ d ∈ dirs, ¬(f.path ++ [slash]) <+: d
  rootNotFile : ∀ f ∈ files, ∀ r ∈ roots, r.isDir = true → r.name ≠ f.path

/-- No file lies under another file. -/
def FilesApart (files : List ManifestFile) : Prop :=
  ∀ f ∈ files, ∀ g ∈ files, ¬(f.path ++ [slash]) <+: g.path

/-! ## Each check -/

section Read

variable {roots racc : List ManifestRoot} {dirs dacc : List Bytes} {files facc : List ManifestFile}

theorem findFrom_isSome {s : Bytes} : (findFrom s slash 0).isSome = true ↔ slash ∈ s := by
  simp [findFrom]

theorem any_key {α κ : Type*} [BEq κ] [LawfulBEq κ] {key : α → κ} {xs : List α} {k : κ} :
    (xs.any fun x => key x == k) = true ↔ k ∈ xs.map key := by
  rw [List.any_eq_true, List.mem_map]
  simp only [beq_iff_eq]

theorem readRoot_ok_iff {r : Json} {root : ManifestRoot} :
    readRoot racc r = .ok root ↔ r.rootEntry = some root ∧
      (isSafeRelativePath root.name = true ∧ slash ∉ root.name) ∧
        root.name ∉ racc.map (·.name) := by
  unfold readRoot Json.rootEntry
  split
  · rename_i name hname
    rw [hname]
    cases hdir : valueDir r with
    | error e => simp
    | ok isDir =>
      have hchecks : (!isSafeRelativePath name || (findFrom name slash 0).isSome) = true ↔
          ¬(isSafeRelativePath name = true ∧ slash ∉ name) := by
        rw [Bool.or_eq_true, findFrom_isSome, Bool.not_eq_true', not_and_or, not_not,
          Bool.not_eq_true]
      have hfresh : (racc.any (·.name == name)) = true ↔ name ∈ racc.map (·.name) := any_key
      dsimp only
      constructor
      · intro h
        split at h
        · cases h
        · rename_i hsafe
          split at h
          · cases h
          · rename_i hnew
            cases h
            exact ⟨rfl, not_not.mp (mt hchecks.mpr hsafe), mt hfresh.mpr hnew⟩
      · rintro ⟨hroot, hsafe, hnew⟩
        cases hroot
        rw [if_neg (mt hchecks.mp (not_not.mpr hsafe)), if_neg (mt hfresh.mp hnew)]
  · rename_i hname
    simp only [reduceCtorEq, false_iff, not_and]
    intro h
    split at h
    · rename_i name isDir hfound hvalue
      exact absurd hfound (hname name)
    · cases h

theorem readDir_ok_iff {d : Json} {p : Bytes} :
    readDir roots dacc d = .ok p ↔ d.dirEntry = some p ∧
      (isSafeRelativePath p = true ∧ ∃ r ∈ roots, r.name = rootOf p) ∧ p ∉ dacc.map id := by
  cases d with
  | str q =>
    have hroot : (roots.any (·.name == rootOf q)) = true ↔ ∃ r ∈ roots, r.name = rootOf q := by simp
    simp only [readDir, Json.dirEntry, List.map_id, Option.some.injEq]
    constructor
    · intro h
      split at h
      · cases h
      · rename_i hsafe
        split at h
        · cases h
        · rename_i hnew
          split at h
          · cases h
          · rename_i hrooted
            cases h
            exact ⟨rfl, ⟨by simpa using hsafe, hroot.mp (by simpa using hrooted)⟩, by simpa using hnew⟩
    · rintro ⟨rfl, ⟨hsafe, hrooted⟩, hnew⟩
      have hcontains : dacc.contains q = false := by simpa using hnew
      rw [hsafe, if_neg (by simp), hcontains, if_neg (by simp), hroot.mpr hrooted,
        if_neg (by simp)]
  | _ => simp [readDir, Json.dirEntry]

/-- The bytes of the files read so far, as the loop adds them up. -/
def sizeSum (files : List ManifestFile) : UInt64 := (files.map (·.size)).sum

@[simp] theorem sizeSum_append (files files' : List ManifestFile) :
    sizeSum (files ++ files') = sizeSum files + sizeSum files' := by
  simp [sizeSum]

theorem readFile_ok_iff {total : UInt64} {j : Json} {f : ManifestFile} :
    readFile roots dirs facc total j = .ok f ↔ j.fileEntry = some f ∧
      (((isSafeRelativePath f.path = true ∧ f.size.toNat ≤ kMaxFileSize ∧
          (∃ r ∈ roots, r.name = rootOf f.path) ∧ f.path ∉ dirs) ∧
        f.path ∉ facc.map (·.path)) ∧ ¬total + f.size < f.size) := by
  unfold readFile
  split
  · rename_i path size hpath hsize
    have hread : j.fileEntry = some ⟨path, size⟩ := by rw [Json.fileEntry, hpath, hsize]
    rw [hread]
    have hlarge : size > UInt64.ofNat kMaxFileSize ↔ ¬size.toNat ≤ kMaxFileSize := by
      rw [gt_iff_lt, UInt64.lt_iff_toNat_lt, Nat.not_le]
      rfl
    have hknown : (dirs.contains path || facc.any (·.path == path)) = true ↔
        path ∈ dirs ∨ path ∈ facc.map (·.path) := by
      rw [Bool.or_eq_true, any_key, List.contains_iff_mem]
    have hroot : (roots.any (·.name == rootOf path)) = true ↔
        ∃ r ∈ roots, r.name = rootOf path := by
      simp
    -- The checks in the order of the source.
    constructor
    · intro h
      split at h
      · cases h
      · rename_i hsafe
        split at h
        · cases h
        · rename_i hfits
          split at h
          · cases h
          · rename_i hnew
            split at h
            · cases h
            · rename_i hrooted
              split at h
              · cases h
              · rename_i htotal
                cases h
                obtain ⟨hdir, hfile⟩ := not_or.mp (mt hknown.mpr hnew)
                exact ⟨rfl, ⟨⟨by simpa using hsafe, not_not.mp (mt hlarge.mpr hfits),
                  hroot.mp (by simpa using hrooted), hdir⟩, hfile⟩, htotal⟩
    · rintro ⟨hentry, ⟨⟨hsafe, hfits, hrooted, hdir⟩, hfile⟩, htotal⟩
      cases hentry
      rw [hsafe, if_neg (by simp), if_neg (mt hlarge.mp (not_not.mpr hfits)),
        if_neg (mt hknown.mp (not_or.mpr ⟨hdir, hfile⟩)), hroot.mpr hrooted, if_neg (by simp),
        if_neg htotal]
  · rename_i hnone
    have hread : j.fileEntry = none := by
      unfold Json.fileEntry
      split
      · rename_i path size hpath hsize
        exact (hnone path size hpath hsize).elim
      · rfl
    simp [hread]

/-! ## The three lists -/

theorem readRoots_eq (items : List Json) (acc : List ManifestRoot) :
    readRoots items acc = readAll readRoot items acc := by
  induction items generalizing acc with
  | nil => rfl
  | cons item items ih =>
    rw [readRoots, readAll]
    cases readRoot acc item with
    | error e => rfl
    | ok root => exact ih _

theorem readDirs_eq (items : List Json) (acc : List Bytes) :
    readDirs roots items acc = readAll (readDir roots) items acc := by
  induction items generalizing acc with
  | nil => rfl
  | cons item items ih =>
    rw [readDirs, readAll]
    cases readDir roots acc item with
    | error e => rfl
    | ok path => exact ih _

theorem readFiles_eq (items : List Json) (acc : List ManifestFile) :
    readFiles roots dirs items acc (sizeSum acc) =
      (readAll (fun acc => readFile roots dirs acc (sizeSum acc)) items acc).map
        fun files => (files, sizeSum files) := by
  induction items generalizing acc with
  | nil => rfl
  | cons item items ih =>
    rw [readFiles, readAll]
    cases readFile roots dirs acc (sizeSum acc) item with
    | error e => rfl
    | ok f =>
      have hsum : sizeSum acc + f.size = sizeSum (acc ++ [f]) := by simp [sizeSum]
      dsimp only
      rw [hsum, ih]
      rfl

/-- The keys of a list read from the start are new if no two agree. -/
theorem inOrder_keys {α κ : Type*} {key : α → κ} {p : α → Prop} {xs : List α} :
    InOrder (fun acc x => p x ∧ key x ∉ acc.map key) [] xs ↔
      (∀ x ∈ xs, p x) ∧ (xs.map key).Nodup := by
  rw [inOrder_and, inOrder_forall, inOrder_fresh]
  simp

theorem readRoots_ok_iff {items : List Json} :
    readRoots items [] = .ok roots ↔ items.mapM Json.rootEntry = some roots ∧ GoodRoots roots := by
  rw [readRoots_eq, readAll_ok_iff fun acc item root => @readRoot_ok_iff acc item root]
  constructor
  · rintro ⟨xs, hxs, horder, rfl⟩
    obtain ⟨hnames, hnodup⟩ := inOrder_keys.mp horder
    exact ⟨hxs, hnodup, fun r hr => (hnames r hr).1, fun r hr => (hnames r hr).2⟩
  · rintro ⟨hxs, hgood⟩
    exact ⟨roots, hxs, inOrder_keys.mpr ⟨fun r hr => ⟨hgood.safe r hr, hgood.single r hr⟩,
      hgood.nodup⟩, rfl⟩

theorem readDirs_ok_iff {items : List Json} :
    readDirs roots items [] = .ok dirs ↔ items.mapM Json.dirEntry = some dirs ∧
      (∀ d ∈ dirs, isSafeRelativePath d = true ∧ ∃ r ∈ roots, r.name = rootOf d) ∧
        dirs.Nodup := by
  rw [readDirs_eq, readAll_ok_iff fun acc item path => @readDir_ok_iff roots acc item path]
  constructor
  · rintro ⟨xs, hxs, horder, rfl⟩
    obtain ⟨hchecks, hnodup⟩ := inOrder_keys.mp horder
    exact ⟨hxs, hchecks, by simpa using hnodup⟩
  · rintro ⟨hxs, hchecks, hnodup⟩
    exact ⟨dirs, hxs, inOrder_keys.mpr ⟨hchecks, by simpa using hnodup⟩, rfl⟩

/-- The sizes of as many files as a transfer may have add up without a wrap. -/
theorem toNat_sizeSum (hcount : files.length ≤ kMaxFilesPerTransfer)
    (hsize : ∀ f ∈ files, f.size.toNat ≤ kMaxFileSize) :
    (sizeSum files).toNat = (files.map (·.size.toNat)).sum ∧
      (files.map (·.size.toNat)).sum ≤ files.length * kMaxFileSize := by
  induction files with
  | nil => simp [sizeSum]
  | cons f files ih =>
    rw [List.length_cons] at hcount
    rw [List.forall_mem_cons] at hsize
    obtain ⟨hsum, hle⟩ := ih (by omega) hsize.2
    have hbound : (files.length + 1) * kMaxFileSize ≤ kMaxFilesPerTransfer * kMaxFileSize :=
      Nat.mul_le_mul_right _ hcount
    have hroom : kMaxFilesPerTransfer * kMaxFileSize < 2 ^ 64 := by decide
    have hadd : sizeSum (f :: files) = f.size + sizeSum files := by simp [sizeSum]
    rw [List.map_cons, List.sum_cons, List.length_cons, Nat.succ_mul] at *
    have hfirst := hsize.1
    refine ⟨?_, by omega⟩
    rw [hadd, UInt64.toNat_add, hsum, Nat.mod_eq_of_lt (by omega)]

/-- So the check of the sum never fails. -/
theorem total_not_lt {before after : List ManifestFile} {f : ManifestFile}
    (hcount : (before ++ f :: after).length ≤ kMaxFilesPerTransfer)
    (hsize : ∀ g ∈ before ++ f :: after, g.size.toNat ≤ kMaxFileSize) :
    ¬sizeSum before + f.size < f.size := by
  rw [List.length_append, List.length_cons] at hcount
  have hupTo : ∀ g ∈ before ++ [f], g.size.toNat ≤ kMaxFileSize := fun g hg => hsize g (by
    rw [List.append_cons]
    exact List.mem_append_left _ hg)
  have hboth := (@toNat_sizeSum (before ++ [f]) (by simp; omega) hupTo).1
  have hone : sizeSum [f] = f.size := by simp [sizeSum]
  rw [sizeSum_append, hone] at hboth
  rw [UInt64.lt_iff_toNat_lt, hboth, List.map_append, List.sum_append]
  simp

theorem readFiles_ok_iff {items : List Json} {total : UInt64}
    (hcount : items.length ≤ kMaxFilesPerTransfer) :
    readFiles roots dirs items [] 0 = .ok (files, total) ↔
      items.mapM Json.fileEntry = some files ∧ GoodFiles roots files ∧
        (∀ f ∈ files, f.path ∉ dirs) ∧ total = sizeSum files := by
  have hread : readFiles roots dirs items [] 0 =
      (readAll (fun acc => readFile roots dirs acc (sizeSum acc)) items []).map
        fun files => (files, sizeSum files) := readFiles_eq items []
  have hlist : readAll (fun acc => readFile roots dirs acc (sizeSum acc)) items [] = .ok files ↔
      items.mapM Json.fileEntry = some files ∧ GoodFiles roots files ∧
        ∀ f ∈ files, f.path ∉ dirs := by
    rw [readAll_ok_iff fun acc item f => @readFile_ok_iff roots dirs acc (sizeSum acc) item f]
    constructor
    · rintro ⟨xs, hxs, horder, rfl⟩
      obtain ⟨hchecks, hnodup⟩ := inOrder_keys.mp (inOrder_and.mp horder).1
      exact ⟨hxs, ⟨hnodup, fun f hf => (hchecks f hf).1, fun f hf => (hchecks f hf).2.2.1,
        fun f hf => (hchecks f hf).2.1⟩, fun f hf => (hchecks f hf).2.2.2⟩
    · rintro ⟨hxs, hgood, hapart⟩
      have hlength : files.length ≤ kMaxFilesPerTransfer := by rwa [length_of_mapM hxs]
      refine ⟨files, hxs, inOrder_and.mpr ⟨inOrder_keys.mpr ⟨fun f hf => ?_, hgood.nodup⟩,
        inOrder_of_append fun before f after heq => ?_⟩, rfl⟩
      · exact ⟨hgood.safe f hf, hgood.size f hf, hgood.rooted f hf, hapart f hf⟩
      · rw [List.nil_append] at heq
        rw [heq] at hlength hgood
        exact total_not_lt hlength hgood.size
  rw [hread]
  cases hall : readAll (fun acc => readFile roots dirs acc (sizeSum acc)) items [] with
  | error e =>
    rw [hall] at hlist
    simp only [reduceCtorEq, false_iff, not_and] at hlist
    simp only [Except.map, reduceCtorEq, false_iff, not_and]
    exact fun hxs hgood hapart => absurd hapart (hlist hxs hgood)
  | ok read =>
    rw [hall] at hlist
    simp only [Except.map, Except.ok.injEq, Prod.mk.injEq]
    constructor
    · rintro ⟨rfl, rfl⟩
      obtain ⟨hxs, hgood, hapart⟩ := hlist.mp rfl
      exact ⟨hxs, hgood, hapart, rfl⟩
    · rintro ⟨hxs, hgood, hapart, rfl⟩
      obtain rfl := Except.ok.inj (hlist.mpr ⟨hxs, hgood, hapart⟩)
      exact ⟨rfl, rfl⟩

/-! ## The manifest -/

theorem fileConflict_eq_none {f : ManifestFile} :
    fileConflict dirs roots f = none ↔ (∀ d ∈ dirs, ¬(f.path ++ [slash]) <+: d) ∧
      ∀ r ∈ roots, r.isDir = true → r.name ≠ f.path := by
  unfold fileConflict
  split
  · rename_i hnested
    obtain ⟨d, hd, hunder⟩ := List.any_eq_true.mp hnested
    simp only [reduceCtorEq, false_iff, not_and]
    exact fun hdirs => absurd (List.isPrefixOf_iff_prefix.mp hunder) (hdirs d hd)
  · rename_i hnested
    have hdirs : ∀ d ∈ dirs, ¬(f.path ++ [slash]) <+: d := fun d hd hunder =>
      hnested (List.any_eq_true.mpr ⟨d, hd, List.isPrefixOf_iff_prefix.mpr hunder⟩)
    split
    · rename_i hmismatch
      obtain ⟨r, hr, hroot⟩ := List.any_eq_true.mp hmismatch
      rw [Bool.and_eq_true, beq_iff_eq] at hroot
      simp only [reduceCtorEq, false_iff, not_and]
      exact fun _ hroots => hroots r hr hroot.1 hroot.2
    · rename_i hmismatch
      refine ⟨fun _ => ⟨hdirs, fun r hr hdir hname => hmismatch ?_⟩, fun _ => rfl⟩
      exact List.any_eq_true.mpr ⟨r, hr, by simp [hdir, hname]⟩

end Read

theorem fromJson_ok_body {j : Json} {m : Manifest} :
    fromJson j = .ok m ↔ ∃ fs ds rs, j.lists = some (fs, ds, rs) ∧ fromJson.body fs ds rs = .ok m := by
  have hobject : j.isObject = false → j.lists = none := by
    intro h
    cases j with
    | obj entries => cases h
    | _ => rfl
  unfold fromJson
  cases hobj : j.isObject with
  | false => simp [hobject hobj]
  | true =>
    rw [Bool.not_true, if_neg Bool.false_ne_true]
    unfold Json.lists
    cases hfiles : j.find "files" with
    | none => simp
    | some files =>
      cases files with
      | arr fs =>
        cases hdirs : j.find "dirs" with
        | none =>
          cases hroots : j.find "roots" with
          | none => simp
          | some roots => cases roots <;> simp
        | some dirs =>
          cases hroots : j.find "roots" with
          | none => cases dirs <;> simp
          | some roots => cases dirs <;> cases roots <;> simp
      | _ => simp

theorem body_ok_iff {fs ds rs : List Json} {m : Manifest} :
    fromJson.body fs ds rs = .ok m ↔ fs.length ≤ kMaxFilesPerTransfer ∧
      readRoots rs [] = .ok m.roots ∧ readDirs m.roots ds [] = .ok m.dirs ∧
        readFiles m.roots m.dirs fs [] 0 = .ok (m.files, m.totalBytes) ∧
          ∀ f ∈ m.files, fileConflict m.dirs m.roots f = none := by
  unfold fromJson.body
  constructor
  · intro h
    split at h
    · cases h
    · rename_i hcount
      split at h
      · cases h
      · rename_i roots hroots
        split at h
        · cases h
        · rename_i dirs hdirs
          split at h
          · cases h
          · rename_i files total hfiles
            split at h
            · cases h
            · rename_i hconflict
              cases h
              exact ⟨Nat.not_lt.mp hcount, hroots, hdirs, hfiles,
                List.findSome?_eq_none_iff.mp hconflict⟩
  · rintro ⟨hcount, hroots, hdirs, hfiles, hconflict⟩
    rw [if_neg (Nat.not_lt.mpr hcount), hroots]
    dsimp only
    rw [hdirs]
    dsimp only
    rw [hfiles]
    dsimp only
    rw [List.findSome?_eq_none_iff.mpr hconflict]

/-- The accepted manifest is made of the lists of the document, which pass the checks. -/
theorem fromJson_ok_iff {j : Json} {m : Manifest} :
    fromJson j = .ok m ↔ j.Lists m.files m.dirs m.roots ∧ Accepted m.files m.dirs m.roots ∧
      m.totalBytes = sizeSum m.files := by
  rw [fromJson_ok_body]
  constructor
  · rintro ⟨fs, ds, rs, hlists, hbody⟩
    obtain ⟨hcount, hroots, hdirs, hfiles, hconflict⟩ := body_ok_iff.mp hbody
    obtain ⟨hroots, hgoodRoots⟩ := readRoots_ok_iff.mp hroots
    obtain ⟨hdirs, hdirChecks, hnodup⟩ := readDirs_ok_iff.mp hdirs
    obtain ⟨hfiles, hgoodFiles, hapart, htotal⟩ := (readFiles_ok_iff hcount).mp hfiles
    have hnested := fun f hf => fileConflict_eq_none.mp (hconflict f hf)
    exact ⟨⟨fs, ds, rs, hlists, hfiles, hdirs, hroots⟩, {
      goodRoots := hgoodRoots
      goodFiles := hgoodFiles
      count := by rwa [length_of_mapM hfiles]
      safeDirs := fun d hd => (hdirChecks d hd).1
      rootedDirs := fun d hd => (hdirChecks d hd).2
      nodupDirs := hnodup
      apart := hapart
      dirNotUnder := fun f hf => (hnested f hf).1
      rootNotFile := fun f hf => (hnested f hf).2 }, htotal⟩
  · rintro ⟨⟨fs, ds, rs, hlists, hfiles, hdirs, hroots⟩, haccepted, htotal⟩
    have hcount : fs.length ≤ kMaxFilesPerTransfer := by
      rw [← length_of_mapM hfiles]
      exact haccepted.count
    refine ⟨fs, ds, rs, hlists, body_ok_iff.mpr ⟨hcount, ?_, ?_, ?_, ?_⟩⟩
    · exact readRoots_ok_iff.mpr ⟨hroots, haccepted.goodRoots⟩
    · exact readDirs_ok_iff.mpr ⟨hdirs, fun d hd => ⟨haccepted.safeDirs d hd, haccepted.rootedDirs d hd⟩,
        haccepted.nodupDirs⟩
    · exact (readFiles_ok_iff hcount).mpr ⟨hfiles, haccepted.goodFiles, haccepted.apart, htotal⟩
    · exact fun f hf => fileConflict_eq_none.mpr
        ⟨haccepted.dirNotUnder f hf, haccepted.rootNotFile f hf⟩

/-! ## The tree -/

/-- The entries of a manifest describe a tree below its roots. -/
structure Tree (m : Manifest) : Prop where
  safeRoots : ∀ r ∈ m.roots, isSafeRelativePath r.name = true
  single : ∀ r ∈ m.roots, slash ∉ r.name
  nodupRoots : (m.roots.map (·.name)).Nodup
  safePaths : ∀ p ∈ m.paths, isSafeRelativePath p = true
  nodupPaths : m.paths.Nodup
  rooted : ∀ p ∈ m.paths, ∃ r ∈ m.roots, r.name = rootOf p
  count : m.files.length ≤ kMaxFilesPerTransfer
  size : ∀ f ∈ m.files, f.size.toNat ≤ kMaxFileSize
  total : m.totalBytes.toNat = (m.files.map (·.size.toNat)).sum
  /-- Nothing lies under a file. -/
  notUnder : ∀ f ∈ m.files, ∀ p ∈ m.paths, ¬(f.path ++ [slash]) <+: p
  rootNotFile : ∀ f ∈ m.files, ∀ r ∈ m.roots, r.isDir = true → r.name ≠ f.path

theorem forall_mem_paths {m : Manifest} {P : Bytes → Prop} :
    (∀ p ∈ m.paths, P p) ↔ (∀ d ∈ m.dirs, P d) ∧ ∀ f ∈ m.files, P f.path := by
  rw [paths, List.forall_mem_append, List.forall_mem_map]

/-- The checks make a tree, up to files under files. -/
theorem Accepted.tree_iff {m : Manifest} (h : Accepted m.files m.dirs m.roots)
    (htotal : m.totalBytes = sizeSum m.files) : m.Tree ↔ FilesApart m.files := by
  constructor
  · intro tree f hf g hg
    exact (forall_mem_paths.mp (tree.notUnder f hf)).2 g hg
  · intro hapart
    have hdisjoint : ∀ d ∈ m.dirs, ∀ p ∈ m.files.map (·.path), d ≠ p := by
      intro d hd p hp
      obtain ⟨f, hf, rfl⟩ := List.mem_map.mp hp
      rintro rfl
      exact h.apart f hf hd
    exact {
      safeRoots := h.goodRoots.safe
      single := h.goodRoots.single
      nodupRoots := h.goodRoots.nodup
      safePaths := forall_mem_paths.mpr ⟨h.safeDirs, h.goodFiles.safe⟩
      nodupPaths := List.nodup_append.mpr ⟨h.nodupDirs, h.goodFiles.nodup, hdisjoint⟩
      rooted := forall_mem_paths.mpr ⟨h.rootedDirs, h.goodFiles.rooted⟩
      count := h.count
      size := h.goodFiles.size
      total := by rw [htotal, (toNat_sizeSum h.count h.goodFiles.size).1]
      notUnder := fun f hf => forall_mem_paths.mpr ⟨h.dirNotUnder f hf, hapart f hf⟩
      rootNotFile := h.rootNotFile }

/-- `FromJson` with the manifest its caller passes in. -/
def fromJsonInto (j : Json) (out : Manifest) : Except ParseError Unit × Manifest :=
  match fromJson j with
  | .ok m => (.ok (), m)
  | .error e => (.error e, out)

/-- An accepted document fills in a tree, and a refused one leaves the manifest as it was. -/
def DescribesTree (j : Json) : Prop :=
  ∀ out, match fromJsonInto j out with
    | (.ok _, m) => m.Tree
    | (.error _, m) => m = out

/-- A document that no other check refuses describes a tree only if none of its files lies under
    another. -/
theorem describesTree_iff (j : Json) :
    DescribesTree j ↔ ∀ files dirs roots, j.Lists files dirs roots → Accepted files dirs roots →
      FilesApart files := by
  constructor
  · intro h files dirs roots hlists haccepted
    have hok : fromJson j = .ok ⟨files, dirs, roots, sizeSum files⟩ :=
      fromJson_ok_iff.mpr ⟨hlists, haccepted, rfl⟩
    have htree := h ⟨[], [], [], 0⟩
    rw [fromJsonInto, hok] at htree
    exact (haccepted.tree_iff rfl).mp htree
  · intro h out
    rw [fromJsonInto]
    cases hj : fromJson j with
    | error e => rfl
    | ok m =>
      obtain ⟨hlists, haccepted, htotal⟩ := fromJson_ok_iff.mp hj
      exact (haccepted.tree_iff htotal).mpr (h _ _ _ hlists haccepted)

/-- The file `a` and the file `a/b`. -/
def nestedFiles : Json :=
  .obj [(ascii "files", .arr (([⟨ascii "a", 0⟩, ⟨ascii "a/b", 0⟩] : List ManifestFile).map fileJson)),
    (ascii "roots", .arr [rootJson ⟨ascii "a", false⟩])]

theorem nestedFiles_accepted : ¬DescribesTree nestedFiles := by
  intro h
  have htree := h ⟨[], [], [], 0⟩
  have hok : fromJson nestedFiles =
      .ok ⟨[⟨ascii "a", 0⟩, ⟨ascii "a/b", 0⟩], [], [⟨ascii "a", false⟩], 0⟩ := by
    decide +kernel
  rw [fromJsonInto, hok] at htree
  refine htree.notUnder ⟨ascii "a", 0⟩ (by simp) (ascii "a/b") (by simp [paths]) ?_
  decide +kernel

end Manifest

end CrossTransfer.Transfer
