import Mathlib.Data.List.Basic
import Mathlib.Tactic

/-! # A file system with inodes

Directories, regular files and their contents. A path is a list of components over an
arbitrary type; a regular file is a link from a path to an inode, and the contents belong to
the inode, so a descriptor that was opened on a path keeps writing to the same file after
the path has been renamed or unlinked. There are no hard links (`link_unique`).

An operation the operating system can refuse takes a flag `ok` for the refusals the model
does not explain (permissions, space, devices) and returns `none` when it fails; it then
changes nothing.
-/

namespace CrossTransfer.Library

/-- An entry list without the entries of `p`. -/
def dropKey {κ β : Type*} [BEq κ] (entries : List (κ × β)) (p : κ) : List (κ × β) :=
  entries.filter fun e => !(e.1 == p)

theorem lookup_dropKey {κ β : Type*} [BEq κ] [LawfulBEq κ] [DecidableEq κ]
    (entries : List (κ × β)) (p q : κ) :
    (dropKey entries p).lookup q = if q = p then none else entries.lookup q := by
  induction entries with
  | nil => simp [dropKey]
  | cons e rest ih =>
    obtain ⟨k, v⟩ := e
    unfold dropKey at ih ⊢
    rw [List.filter_cons]
    by_cases hq : q = k
    · subst hq
      by_cases hqp : q = p
      · rw [if_neg (by simp [hqp]), ih, if_pos hqp, if_pos hqp]
      · simp [hqp]
    · have hqk : (q == k) = false := beq_eq_false_iff_ne.mpr hq
      by_cases hkp : k = p
      · simp [hkp, ih, List.lookup_cons, hkp ▸ hqk]
      · simp [hkp, ih, List.lookup_cons, hqk]

structure FileSystem (ν : Type*) [DecidableEq ν] where
  dirs : List (List ν)
  links : List (List ν × Nat)
  data : Nat → List UInt8
  /-- Nats from here on are unused. -/
  next : Nat
  link_lt : ∀ p i, links.lookup p = some i → i < next
  link_unique : ∀ p q i, links.lookup p = some i → links.lookup q = some i → p = q

namespace FileSystem

variable {ν : Type*} [DecidableEq ν]

/-- Only the root directory. -/
def empty : FileSystem ν where
  dirs := [[]]
  links := []
  data := fun _ => []
  next := 0
  link_lt := by simp
  link_unique := by simp

/-! ## Queries -/

def link (fs : FileSystem ν) (p : List ν) : Option Nat := fs.links.lookup p

def isDir (fs : FileSystem ν) (p : List ν) : Bool := fs.dirs.contains p

def isRegular (fs : FileSystem ν) (p : List ν) : Bool := (fs.link p).isSome

def pathExists (fs : FileSystem ν) (p : List ν) : Bool := fs.isDir p || fs.isRegular p

/-- The contents of the regular file at `p`. -/
def read (fs : FileSystem ν) (p : List ν) : Option (List UInt8) := (fs.link p).map fs.data

/-- Whether a directory has no entry. -/
def isEmptyDir (fs : FileSystem ν) (p : List ν) : Bool :=
  fs.isDir p && !(fs.dirs.any fun q => q ≠ [] ∧ q.dropLast = p) &&
    !(fs.links.any fun e => e.1 ≠ [] ∧ e.1.dropLast = p)

/-! ## Directories -/

/-- Create `p` and its missing parents. -/
def makeDirs (fs : FileSystem ν) (p : List ν) : FileSystem ν :=
  { fs with dirs := fs.dirs ++ p.inits }

/-- Make sure that `p` is a directory. -/
def ensureDir (fs : FileSystem ν) (p : List ν) (ok : Bool) : Option (FileSystem ν) :=
  if fs.isDir p then some fs
  else if ok && !(p.inits.any fs.isRegular) then some (fs.makeDirs p)
  else none

/-- Remove a directory if it is empty. -/
def removeEmptyDir (fs : FileSystem ν) (p : List ν) : FileSystem ν :=
  if fs.isEmptyDir p then { fs with dirs := fs.dirs.filter (· ≠ p) } else fs

/-! ## Files -/

/-- A file can be created or replaced at `p`: its parent is a directory and `p` is not. -/
def canHold (fs : FileSystem ν) (p : List ν) : Bool :=
  !fs.isDir p && fs.isDir p.dropLast

/-- A new, empty file at `p`. -/
def create (fs : FileSystem ν) (p : List ν) : FileSystem ν where
  dirs := fs.dirs
  links := (p, fs.next) :: dropKey fs.links p
  data := fun i => if i = fs.next then [] else fs.data i
  next := fs.next + 1
  link_lt := by
    intro q i h
    rw [List.lookup_cons] at h
    split at h
    · cases h
      omega
    · rw [lookup_dropKey] at h
      split at h
      · cases h
      · have := fs.link_lt q i h
        omega
  link_unique := by
    intro q r i hq hr
    have old : ∀ s, s ≠ p → ((p, fs.next) :: dropKey fs.links p).lookup s = fs.links.lookup s := by
      intro s hs
      rw [List.lookup_cons, beq_eq_false_iff_ne.mpr hs]
      simp [lookup_dropKey, hs]
    have new : ((p, fs.next) :: dropKey fs.links p).lookup p = some fs.next := by simp
    by_cases hqp : q = p <;> by_cases hrp : r = p
    · rw [hqp, hrp]
    · subst hqp
      rw [new] at hq
      rw [old r hrp] at hr
      cases hq
      exact absurd (fs.link_lt r _ hr) (by omega)
    · subst hrp
      rw [new] at hr
      rw [old q hqp] at hq
      cases hr
      exact absurd (fs.link_lt q _ hq) (by omega)
    · rw [old q hqp] at hq
      rw [old r hrp] at hr
      exact fs.link_unique q r i hq hr

/-- Open for reading and writing, creating the file if it is missing. -/
def openWrite (fs : FileSystem ν) (p : List ν) (ok : Bool) : Option (FileSystem ν × Nat) :=
  if ok && fs.canHold p then
    match fs.link p with
    | some i => some (fs, i)
    | none => some (fs.create p, fs.next)
  else none

/-- Replace the contents of an inode. -/
def setData (fs : FileSystem ν) (i : Nat) (bytes : List UInt8) : FileSystem ν :=
  { fs with data := fun j => if j = i then bytes else fs.data j }

/-- `bytes` with `buf` at `offset`; a gap is filled with zeros. -/
def overlay (bytes : List UInt8) (offset : Nat) (buf : List UInt8) : List UInt8 :=
  if buf = [] then bytes
  else (bytes ++ List.replicate (offset - bytes.length) 0).take offset ++ buf ++
    bytes.drop (offset + buf.length)

def writeAt (fs : FileSystem ν) (i : Nat) (offset : Nat) (buf : List UInt8) : FileSystem ν :=
  fs.setData i (overlay (fs.data i) offset buf)

/-- Grow a file to at least `size` bytes. -/
def ensureSize (fs : FileSystem ν) (i : Nat) (size : Nat) : FileSystem ν :=
  fs.setData i (fs.data i ++ List.replicate (size - (fs.data i).length) 0)

/-- Create an empty file at `p`, truncating what is there. -/
def createEmpty (fs : FileSystem ν) (p : List ν) (ok : Bool) : Option (FileSystem ν) :=
  (fs.openWrite p ok).map fun (fs, i) => fs.setData i []

def unlink (fs : FileSystem ν) (p : List ν) : FileSystem ν where
  dirs := fs.dirs
  links := dropKey fs.links p
  data := fs.data
  next := fs.next
  link_lt := by
    intro q i h
    rw [lookup_dropKey] at h
    split at h
    · cases h
    · exact fs.link_lt q i h
  link_unique := by
    intro q r i hq hr
    rw [lookup_dropKey] at hq hr
    split at hq
    · cases hq
    · split at hr
      · cases hr
      · exact fs.link_unique q r i hq hr

/-- The links after `src` (inode `i`) has taken the place of `dst`. -/
theorem lookup_moved (entries : List (List ν × Nat)) (src dst q : List ν) (i : Nat) :
    ((dst, i) :: dropKey (dropKey entries src) dst).lookup q =
      if q = dst then some i else if q = src then none else entries.lookup q := by
  by_cases hdst : q = dst
  · subst hdst
    simp
  · rw [List.lookup_cons, beq_eq_false_iff_ne.mpr hdst]
    simp [lookup_dropKey, hdst]

/-- Move the file at `src` (inode `i`) to `dst`, replacing a file there. -/
def move (fs : FileSystem ν) (src dst : List ν) (i : Nat) (hi : fs.links.lookup src = some i) :
    FileSystem ν where
  dirs := fs.dirs
  links := (dst, i) :: dropKey (dropKey fs.links src) dst
  data := fs.data
  next := fs.next
  link_lt := by
    intro q k h
    rw [lookup_moved] at h
    split at h
    · cases h
      exact fs.link_lt src i hi
    · split at h
      · cases h
      · exact fs.link_lt q k h
  link_unique := by
    intro q r k hq hr
    rw [lookup_moved] at hq hr
    split at hq
    · rename_i hqd
      split at hr
      · rename_i hrd
        rw [hqd, hrd]
      · split at hr
        · cases hr
        · rename_i hrs
          cases hq
          exact absurd (fs.link_unique r src i hr hi) hrs
    · split at hq
      · cases hq
      · rename_i hqs
        split at hr
        · cases hr
          exact absurd (fs.link_unique q src i hq hi) hqs
        · split at hr
          · cases hr
          · exact fs.link_unique q r k hq hr

/-- Rename with replacement. -/
def rename (fs : FileSystem ν) (src dst : List ν) (ok : Bool) : Option (FileSystem ν) :=
  if ok && fs.canHold dst then
    match h : fs.links.lookup src with
    | some i => some (fs.move src dst i h)
    | none => none
  else none

/-! ## What the operations do -/

variable {fs fs' : FileSystem ν} {p q src dst : List ν} {i j : Nat} {ok : Bool}

@[simp] theorem link_create : (fs.create p).link q = if q = p then some fs.next else fs.link q := by
  simp only [link, create, List.lookup_cons]
  by_cases h : q = p
  · simp [h]
  · simp [h, beq_eq_false_iff_ne.mpr h, lookup_dropKey]

@[simp] theorem link_setData (bytes : List UInt8) : (fs.setData i bytes).link q = fs.link q := rfl

@[simp] theorem data_setData (bytes : List UInt8) :
    (fs.setData i bytes).data j = if j = i then bytes else fs.data j := rfl

@[simp] theorem link_writeAt (offset : Nat) (buf : List UInt8) :
    (fs.writeAt i offset buf).link q = fs.link q := rfl

@[simp] theorem link_ensureSize (size : Nat) : (fs.ensureSize i size).link q = fs.link q := rfl

@[simp] theorem link_makeDirs : (fs.makeDirs p).link q = fs.link q := rfl

@[simp] theorem link_unlink : (fs.unlink p).link q = if q = p then none else fs.link q :=
  lookup_dropKey ..

@[simp] theorem link_removeEmptyDir : (fs.removeEmptyDir p).link q = fs.link q := by
  unfold removeEmptyDir
  split <;> rfl

@[simp] theorem link_move (h : fs.links.lookup src = some i) :
    (fs.move src dst i h).link q = if q = dst then some i else if q = src then none else fs.link q :=
  lookup_moved ..

theorem openWrite_cases (h : fs.openWrite p ok = some (fs', i)) :
    (fs.link p = some i ∧ fs' = fs) ∨ (fs.link p = none ∧ fs' = fs.create p ∧ i = fs.next) := by
  unfold openWrite at h
  split at h
  · split at h
    · rename_i j hj
      cases h
      exact .inl ⟨hj, rfl⟩
    · rename_i hnone
      cases h
      exact .inr ⟨hnone, rfl, rfl⟩
  · cases h

theorem link_of_openWrite (h : fs.openWrite p ok = some (fs', i)) : fs'.link p = some i := by
  obtain ⟨hlink, rfl⟩ | ⟨-, rfl, rfl⟩ := openWrite_cases h
  · exact hlink
  · simp

theorem createEmpty_cases (h : fs.createEmpty p ok = some fs') :
    ∃ mid i, fs.openWrite p ok = some (mid, i) ∧ fs' = mid.setData i [] := by
  obtain ⟨⟨mid, i⟩, hopen, heq⟩ := Option.map_eq_some_iff.mp h
  exact ⟨mid, i, hopen, heq.symm⟩

/-- The empty file reads back empty. -/
theorem read_createEmpty (h : fs.createEmpty p ok = some fs') : fs'.read p = some [] := by
  obtain ⟨mid, i, hopen, rfl⟩ := createEmpty_cases h
  simp [read, link_of_openWrite hopen]

theorem rename_cases (h : fs.rename src dst ok = some fs') :
    ∃ i, ∃ hi : fs.links.lookup src = some i, fs' = fs.move src dst i hi := by
  unfold rename at h
  split at h
  · split at h
    · rename_i i hi
      cases h
      exact ⟨i, hi, rfl⟩
    · cases h
  · cases h

/-- The new name reads what the old one read. -/
theorem read_rename (h : fs.rename src dst ok = some fs') : fs'.read dst = fs.read src := by
  obtain ⟨i, hi, rfl⟩ := rename_cases h
  rw [read, link_move, if_pos rfl, read, link, hi]
  rfl

/-! ## Operations that touch no file -/

/-- The regular files are the same; directories may differ. -/
structure SameFiles (fs fs' : FileSystem ν) : Prop where
  link : ∀ q, fs'.link q = fs.link q
  data : fs'.data = fs.data
  next : fs'.next = fs.next

theorem SameFiles.refl (fs : FileSystem ν) : SameFiles fs fs := ⟨fun _ => rfl, rfl, rfl⟩

theorem SameFiles.trans {fs'' : FileSystem ν} (h : SameFiles fs fs') (h' : SameFiles fs' fs'') :
    SameFiles fs fs'' :=
  ⟨fun q => (h'.link q).trans (h.link q), h'.data.trans h.data, h'.next.trans h.next⟩

theorem sameFiles_ensureDir (h : fs.ensureDir p ok = some fs') : SameFiles fs fs' := by
  unfold ensureDir at h
  split at h
  · cases h
    exact .refl fs
  · split at h
    · cases h
      exact ⟨fun _ => rfl, rfl, rfl⟩
    · cases h

theorem sameFiles_removeEmptyDir (fs : FileSystem ν) (p : List ν) :
    SameFiles fs (fs.removeEmptyDir p) := by
  unfold removeEmptyDir
  split
  · exact ⟨fun _ => rfl, rfl, rfl⟩
  · exact .refl fs

/-! ## Removing many files -/

/-- `unlink` of the paths `f a`, one after another. -/
theorem foldl_unlink {α : Type*} (f : α → List ν) (xs : List α) (fs : FileSystem ν) (q : List ν) :
    (xs.foldl (fun fs a => fs.unlink (f a)) fs).link q = (if ∃ a ∈ xs, f a = q then none else fs.link q) ∧
      (xs.foldl (fun fs a => fs.unlink (f a)) fs).data = fs.data := by
  induction xs generalizing fs with
  | nil => simp
  | cons a xs ih =>
    obtain ⟨hlink, hdata⟩ := ih (fs.unlink (f a))
    refine ⟨?_, hdata⟩
    rw [List.foldl_cons, hlink, link_unlink]
    by_cases ha : f a = q
    · simp [ha]
    · simp [ha, Ne.symm ha]

theorem sameFiles_removeEmptyDirs (ps : List (List ν)) (fs : FileSystem ν) :
    SameFiles fs (ps.foldl removeEmptyDir fs) := by
  induction ps generalizing fs with
  | nil => exact .refl fs
  | cons p ps ih => exact (sameFiles_removeEmptyDir fs p).trans (ih _)

end FileSystem

end CrossTransfer.Library
