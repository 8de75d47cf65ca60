import CrossTransfer.Library.SeparatedPath
import CrossTransfer.Transfer.BuildManifest
import CrossTransfer.Transfer.ManifestTree

/-! # The manifest of a share is accepted

`BuildManifest` and `FromJson` check a manifest each in its own way. The builder looks at names and
sizes only; that no path comes twice or lies under a file is a fact about the tree it walks, which
the validator checks again (`buildManifest_accepted`).

The share paths are taken as the entries of one directory (`shareTree`), so that a path of the
manifest is a path of its walk without the leading slash.
-/

namespace CrossTransfer.Transfer

open CrossTransfer.Library.CheckedList CrossTransfer.Library.SeparatedPath Paths

/-! ## Trees -/

namespace Listing

/-- The names of the entries. -/
def names : Listing → List Name
  | .done => []
  | .failed _ => []
  | .leaf name _ rest => name :: rest.names
  | .dir name _ rest => name :: rest.names

/-- Every directory has its names once, and a name is a single component. -/
def Proper : Listing → Prop
  | .done => True
  | .failed _ => True
  | .leaf name _ rest => slash ∉ name ∧ name ∉ rest.names ∧ rest.Proper
  | .dir name entries rest => slash ∉ name ∧ name ∉ rest.names ∧ entries.Proper ∧ rest.Proper

theorem Proper.single {l : Listing} (h : l.Proper) : ∀ n ∈ l.names, slash ∉ n := by
  induction l with
  | done => simp [names]
  | failed err => simp [names]
  | leaf name status rest ih => exact List.forall_mem_cons.mpr ⟨h.1, ih h.2.2⟩
  | dir name entries rest _ ih => exact List.forall_mem_cons.mpr ⟨h.1, ih h.2.2.2⟩

end Listing

def Node.Proper : Node → Prop
  | .leaf _ => True
  | .dir _ entries => entries.Proper

/-- `relative` spells a directory like this. -/
def Node.SpelledAs (name : Name) : Node → Prop
  | .leaf _ => True
  | .dir spelled _ => spelled = name

namespace Visit

/-- Where the iterator is; it is nowhere when it throws. -/
def path : Visit → Option Bytes
  | .leaf path _ => some path
  | .dir path => some path
  | .throws => none

def isDir : Visit → Bool
  | .dir _ => true
  | _ => false

/-- The visit, seen from the directory above `top`. -/
def under (top : Bytes) : Visit → Visit
  | .leaf path status => .leaf (top ++ path) status
  | .dir path => .dir (top ++ path)
  | .throws => .throws

end Visit

theorem walk_under (top base : Bytes) (l : Listing) :
    walk (top ++ base) l = (walk base l).map (Visit.under top) := by
  induction l generalizing base with
  | done => rfl
  | failed err => rfl
  | leaf name status rest ih => simp [walk, ih, Visit.under]
  | dir name entries rest ihEntries ih => simp [walk, ih, ← ihEntries, Visit.under]

/-! ## The paths of a walk -/

section Walk

variable {l : Listing} {base q : Bytes} {v w : Visit}

/-- Each step is within an entry. -/
theorem within_of_mem_walk (hv : v ∈ walk base l) (hq : v.path = some q) :
    ∃ name ∈ l.names, Within slash (base ++ slash :: name) q := by
  induction l generalizing base with
  | done => simp [walk] at hv
  | failed err =>
    obtain rfl := List.mem_singleton.mp hv
    cases hq
  | leaf name status rest ih =>
    obtain rfl | hv := List.mem_cons.mp hv
    · cases hq
      exact ⟨name, List.mem_cons_self .., .refl _⟩
    · obtain ⟨n, hn, hwithin⟩ := ih hv
      exact ⟨n, List.mem_cons_of_mem _ hn, hwithin⟩
  | dir name entries rest ihEntries ih =>
    rw [walk, List.mem_cons, List.mem_append] at hv
    obtain rfl | hv | hv := hv
    · cases hq
      exact ⟨name, List.mem_cons_self .., .refl _⟩
    · obtain ⟨n, hn, hwithin⟩ := ihEntries hv
      exact ⟨name, List.mem_cons_self .., .inr (below_entry hwithin)⟩
    · obtain ⟨n, hn, hwithin⟩ := ih hv
      exact ⟨n, List.mem_cons_of_mem _ hn, hwithin⟩

/-- A step comes before another: the second is not above the first, and above the second are only
    directories. -/
def Precedes (v w : Visit) : Prop :=
  ∀ p q, v.path = some p → w.path = some q →
    ¬Within slash q p ∧ (Within slash p q → v.isDir = true)

/-- A step within an entry comes before the steps within the entries after it. -/
theorem precedes_rest {name : Bytes} {rest : Listing} (hname : slash ∉ name)
    (hnew : name ∉ rest.names) (hrest : rest.Proper)
    (hv : ∀ p, v.path = some p → Within slash (base ++ slash :: name) p)
    (hw : w ∈ walk base rest) : Precedes v w := by
  intro p q hp hq
  obtain ⟨name', hmem, hwithin⟩ := within_of_mem_walk hw hq
  have hne : name ≠ name' := fun heq => hnew (heq ▸ hmem)
  refine ⟨fun habove => ?_, fun habove => ?_⟩
  · exact absurd (name_unique hname (hrest.single _ hmem) (hv p hp) (hwithin.trans habove)) hne
  · exact absurd (name_unique hname (hrest.single _ hmem) ((hv p hp).trans habove) hwithin) hne

theorem pairwise_walk (h : l.Proper) : (walk base l).Pairwise Precedes := by
  induction l generalizing base with
  | done => exact .nil
  | failed err => exact List.pairwise_singleton _ _
  | leaf name status rest ih =>
    obtain ⟨hname, hnew, hrest⟩ := h
    refine List.pairwise_cons.mpr ⟨fun w hw => precedes_rest hname hnew hrest ?_ hw, ih hrest⟩
    rintro p ⟨⟩
    exact .refl _
  | dir name entries rest ihEntries ih =>
    obtain ⟨hname, hnew, hentries, hrest⟩ := h
    have hbelow : ∀ w ∈ walk (base ++ slash :: name) entries, ∀ q, w.path = some q →
        Below slash (base ++ slash :: name) q := by
      intro w hw q hq
      obtain ⟨n, -, hwithin⟩ := within_of_mem_walk hw hq
      exact below_entry hwithin
    refine List.pairwise_cons.mpr ⟨fun w hw => ?_, List.pairwise_append.mpr
      ⟨ihEntries hentries, ih hrest, fun v hv w hw => ?_⟩⟩
    · obtain hw | hw := List.mem_append.mp hw
      · -- Below the directory that is entered.
        rintro p q ⟨⟩ hq
        exact ⟨(hbelow w hw q hq).not_within, fun _ => rfl⟩
      · refine precedes_rest hname hnew hrest ?_ hw
        rintro p ⟨⟩
        exact .refl _
    · exact precedes_rest hname hnew hrest (fun p hp => .inr (hbelow v hv p hp)) hw

/-- No step is within a leaf but the leaf itself. -/
theorem eq_of_within_leaf {p : Bytes} {status : FileStatus} (h : l.Proper)
    (hv : .leaf p status ∈ walk base l) (hw : w ∈ walk base l) (hq : w.path = some q)
    (hwithin : Within slash p q) : w = .leaf p status := by
  by_contra hne
  have hsymm : Std.Symm fun v w => Precedes v w ∨ Precedes w v := ⟨fun _ _ => Or.symm⟩
  have heither : (walk base l).Pairwise fun v w => Precedes v w ∨ Precedes w v :=
    (pairwise_walk h).imp .inl
  obtain hbefore | hafter := heither.forall hv hw (Ne.symm hne)
  · cases (hbefore p q rfl hq).2 hwithin
  · exact (hafter q p hq rfl).1 hwithin

/-- The directories above a step have been visited, up to the one where the walk starts. -/
theorem parent_of_walk {p : Bytes} (h : l.Proper) (hv : v ∈ walk base l) (hq : v.path = some q)
    (hbelow : Below slash p q) : Within slash p base ∨ .dir p ∈ walk base l := by
  induction l generalizing base with
  | done => simp [walk] at hv
  | failed err =>
    obtain rfl := List.mem_singleton.mp hv
    cases hq
  | leaf name status rest ih =>
    obtain rfl | hv := List.mem_cons.mp hv
    · cases hq
      exact .inl (within_of_below_entry h.1 hbelow)
    · exact (ih h.2.2 hv).imp_right (List.mem_cons_of_mem _)
  | dir name entries rest ihEntries ih =>
    obtain ⟨hname, -, hentries, hrest⟩ := h
    simp only [walk, List.mem_cons, List.mem_append] at hv ⊢
    obtain rfl | hv | hv := hv
    · cases hq
      exact .inl (within_of_below_entry hname hbelow)
    · obtain (rfl | habove) | hdir := ihEntries hentries hv
      · exact .inr (.inl rfl)
      · exact .inl (within_of_below_entry hname habove)
      · exact .inr (.inr (.inl hdir))
    · exact (ih hrest hv).imp_right fun hdir => .inr (.inr hdir)

end Walk

theorem rootOf_eq_takeWhile (p : Bytes) : rootOf p = p.takeWhile (· ≠ slash) := by
  have hfound : rootOf p = (p.findIdx? (· == slash)).elim p p.take := by
    unfold rootOf findFrom
    cases hidx : p.findIdx? (· == slash) <;> simp [hidx, substr]
  rw [hfound, List.takeWhile_eq_take_findIdx_not]
  cases hidx : p.findIdx? (· == slash) with
  | none =>
    have hall : ∀ x ∈ p, (!decide (x ≠ slash)) = false := by
      simpa [List.findIdx?_eq_none_iff] using hidx
    rw [List.findIdx_eq_length_of_false hall, List.take_length]
    rfl
  | some i =>
    have hfirst : p.findIdx (· == slash) = i := (List.findIdx?_eq_some_iff_findIdx_eq.mp hidx).2
    have hsame : (fun x : UInt8 => !decide (x ≠ slash)) = (· == slash) := by
      funext x
      simp [Bool.beq_eq_decide_eq]
    rw [hsame, hfirst]
    rfl

/-! ## The share paths as one directory -/

section Share

variable (look : Bytes → Node)

def shareTree : List Bytes → Listing
  | [] => .done
  | raw :: paths =>
    match look raw with
    | .leaf status => .leaf (fileName raw) status (shareTree paths)
    | .dir _ entries => .dir (fileName raw) entries (shareTree paths)

variable {look} {paths : List Bytes}

theorem names_shareTree : (shareTree look paths).names = paths.map fileName := by
  induction paths with
  | nil => rfl
  | cons raw paths ih =>
    cases hraw : look raw with
    | leaf status => simp [shareTree, hraw, Listing.names, ih]
    | dir spelled entries => simp [shareTree, hraw, Listing.names, ih]

theorem proper_shareTree (htree : ∀ raw ∈ paths, (look raw).Proper)
    (hsingle : ∀ raw ∈ paths, slash ∉ fileName raw) (hnames : (paths.map fileName).Nodup) :
    (shareTree look paths).Proper := by
  induction paths with
  | nil => trivial
  | cons raw paths ih =>
    rw [List.forall_mem_cons] at htree hsingle
    rw [List.map_cons, List.nodup_cons] at hnames
    have hrest := ih htree.2 hsingle.2 hnames.2
    have hnew : fileName raw ∉ (shareTree look paths).names := names_shareTree ▸ hnames.1
    have hnode := htree.1
    cases hraw : look raw with
    | leaf status =>
      rw [shareTree, hraw]
      exact ⟨hsingle.1, hnew, hrest⟩
    | dir spelled entries =>
      rw [hraw] at hnode
      rw [shareTree, hraw]
      exact ⟨hsingle.1, hnew, hnode, hrest⟩

/-- A path of the share as a path of its tree. -/
def raise (f : ManifestFile) : ManifestFile := ⟨slash :: f.path, f.size⟩

theorem file_under (name : Name) (v : Visit) :
    Visit.file [] (v.under (slash :: name)) = (Visit.file name v).map raise := by
  cases v with
  | throws => rfl
  | dir path => rfl
  | leaf path status =>
    cases status with
    | file size => cases size <;> rfl
    | _ => rfl

theorem directory_under (name : Name) (v : Visit) :
    Visit.directory [] (v.under (slash :: name)) = (Visit.directory name v).map (slash :: ·) := by
  cases v <;> rfl

theorem walk_dir (name : Name) (entries rest : Listing) :
    walk [] (.dir name entries rest) =
      .dir (slash :: name) :: ((walk [] entries).map (Visit.under (slash :: name)) ++ walk [] rest) := by
  rw [← walk_under, List.append_nil]
  rfl

variable (spelled : ∀ raw ∈ paths, (look raw).SpelledAs (fileName raw))
include spelled

theorem files_shareTree :
    (walk [] (shareTree look paths)).filterMap (Visit.file []) =
      (sharedFiles look paths).map raise := by
  induction paths with
  | nil => rfl
  | cons raw paths ih =>
    rw [List.forall_mem_cons] at spelled
    obtain ⟨hspelled, hrest⟩ := spelled
    rw [sharedFiles, List.flatMap_cons, List.map_append, ← sharedFiles, ← ih hrest, shareTree]
    cases hraw : look raw with
    | leaf status =>
      cases status with
      | file size => cases size <;> rfl
      | _ => rfl
    | dir name entries =>
      rw [hraw] at hspelled
      obtain rfl : name = fileName raw := hspelled
      rw [walk_dir, List.filterMap_cons, List.filterMap_append, List.filterMap_map]
      simp only [Visit.file, Node.files, List.map_filterMap]
      congr 2
      funext v
      exact file_under _ v

theorem dirs_shareTree :
    (walk [] (shareTree look paths)).filterMap (Visit.directory []) =
      (sharedDirs look paths).map (slash :: ·) := by
  induction paths with
  | nil => rfl
  | cons raw paths ih =>
    rw [List.forall_mem_cons] at spelled
    obtain ⟨hspelled, hrest⟩ := spelled
    rw [sharedDirs, List.flatMap_cons, List.map_append, ← sharedDirs, ← ih hrest, shareTree]
    cases hraw : look raw with
    | leaf status => cases status <;> rfl
    | dir name entries =>
      rw [hraw] at hspelled
      obtain rfl : name = fileName raw := hspelled
      rw [walk_dir, List.filterMap_cons, List.filterMap_append, List.filterMap_map]
      simp only [Visit.directory, Node.dirs, List.map_cons, List.map_filterMap, List.nil_append,
        List.cons_append]
      congr 3
      funext v
      exact directory_under _ v

omit spelled in
theorem file_eq_some {f : ManifestFile} {v : Visit} :
    Visit.file [] v = some f ↔ v = .leaf f.path (.file (some f.size)) := by
  cases v with
  | throws => simp [Visit.file]
  | dir path => simp [Visit.file]
  | leaf path status =>
    cases status with
    | file size =>
      cases f
      cases size <;> simp [Visit.file]
    | _ => simp [Visit.file]

omit spelled in
theorem directory_eq_some {d : Bytes} {v : Visit} :
    Visit.directory [] v = some d ↔ v = .dir d := by
  cases v <;> simp [Visit.directory]

theorem mem_walk_of_file {f : ManifestFile} (hf : f ∈ sharedFiles look paths) :
    .leaf (slash :: f.path) (.file (some f.size)) ∈ walk [] (shareTree look paths) := by
  have hraised : raise f ∈ (walk [] (shareTree look paths)).filterMap (Visit.file []) :=
    files_shareTree spelled ▸ List.mem_map_of_mem hf
  obtain ⟨v, hv, hfile⟩ := List.mem_filterMap.mp hraised
  rwa [file_eq_some.mp hfile] at hv

theorem mem_walk_of_dir {d : Bytes} :
    .dir (slash :: d) ∈ walk [] (shareTree look paths) ↔ d ∈ sharedDirs look paths := by
  constructor
  · intro hd
    have hraised : slash :: d ∈ (walk [] (shareTree look paths)).filterMap (Visit.directory []) :=
      List.mem_filterMap.mpr ⟨_, hd, rfl⟩
    rw [dirs_shareTree spelled] at hraised
    obtain ⟨d', hd', heq⟩ := List.mem_map.mp hraised
    rwa [← (List.cons.inj heq).2]
  · intro hd
    have hraised : slash :: d ∈ (walk [] (shareTree look paths)).filterMap (Visit.directory []) :=
      dirs_shareTree spelled ▸ List.mem_map_of_mem hd
    obtain ⟨v, hv, hdir⟩ := List.mem_filterMap.mp hraised
    rwa [directory_eq_some.mp hdir] at hv

/-! ### Once each -/

variable (h : (shareTree look paths).Proper)
include h

theorem nodup_sharedDirs : (sharedDirs look paths).Nodup := by
  have hraised : ((sharedDirs look paths).map (slash :: ·)).Nodup := by
    rw [← dirs_shareTree spelled]
    refine (pairwise_walk h).filterMap _ fun v w hbefore p hp q hq => ?_
    obtain rfl := directory_eq_some.mp hp
    obtain rfl := directory_eq_some.mp hq
    rintro rfl
    exact (hbefore p p rfl rfl).1 (.refl p)
  exact List.Nodup.of_map _ hraised

theorem nodup_sharedFiles : ((sharedFiles look paths).map (·.path)).Nodup := by
  have hraised : ((sharedFiles look paths).map raise).Pairwise (·.path ≠ ·.path) := by
    rw [← files_shareTree spelled]
    refine (pairwise_walk h).filterMap _ fun v w hbefore f hf g hg => ?_
    obtain rfl := file_eq_some.mp hf
    obtain rfl := file_eq_some.mp hg
    intro heq
    exact (hbefore _ _ rfl rfl).1 (heq ▸ .refl _)
  rw [List.Nodup, List.pairwise_map]
  refine (List.pairwise_map.mp hraised).imp fun hne heq => hne ?_
  exact congrArg (slash :: ·) heq

/-- No directory is within a file. -/
theorem not_within_file {f : ManifestFile} {d : Bytes} (hf : f ∈ sharedFiles look paths)
    (hd : d ∈ sharedDirs look paths) : ¬Within slash f.path d := by
  intro hwithin
  have heq := eq_of_within_leaf h (mem_walk_of_file spelled hf) ((mem_walk_of_dir spelled).mpr hd) rfl
    (within_cons.mpr hwithin)
  cases heq

omit spelled in
/-- What is within the tree of the share has one of its root names. -/
theorem rootOf_of_mem_walk {v : Visit} {p : Bytes} (hv : v ∈ walk [] (shareTree look paths))
    (hp : v.path = some (slash :: p)) : rootOf p ∈ paths.map fileName := by
  obtain ⟨name, hname, hwithin⟩ := within_of_mem_walk hv hp
  rw [names_shareTree] at hname
  have hsingle : slash ∉ name := h.single name (names_shareTree ▸ hname)
  rw [rootOf_eq_takeWhile, takeWhile_of_within hsingle (within_cons.mp hwithin)]
  exact hname

end Share

/-! ## The builder -/

theorem addPath_name {look : Bytes → Node} {b b' : Built} {raw : Bytes}
    (h : b.addPath look raw = .ok b') :
    slash ∉ fileName raw ∧ fileName raw ∉ b.manifest.roots.map (·.name) := by
  unfold Built.addPath at h
  split at h
  · cases h
  · cases h
  · dsimp only at h
    split at h
    · cases h
    · rename_i hname
      split at h
      · cases h
      · rename_i hnew
        rw [Bool.or_eq_true, not_or, Manifest.findFrom_isSome] at hname
        exact ⟨hname.2, mt Manifest.any_key.mpr hnew⟩

theorem foldlM_addPath_names {look : Bytes → Node} {b b' : Built} {paths : List Bytes}
    (h : paths.foldlM (Built.addPath · look) b = .ok b') :
    (∀ raw ∈ paths, slash ∉ fileName raw) ∧ (paths.map fileName).Nodup ∧
      ∀ raw ∈ paths, fileName raw ∉ b.manifest.roots.map (·.name) := by
  induction paths generalizing b with
  | nil => simp
  | cons raw paths ih =>
    rw [List.foldlM_cons] at h
    cases hc : b.addPath look raw with
    | error e =>
      rw [hc] at h
      cases h
    | ok c =>
      rw [hc] at h
      obtain ⟨hsingle, hnew⟩ := addPath_name hc
      obtain ⟨hsingles, hnames, hlater⟩ := ih h
      rw [(addPath_adds hc).1.roots, List.map_append] at hlater
      simp only [List.mem_append, not_or] at hlater
      refine ⟨List.forall_mem_cons.mpr ⟨hsingle, hsingles⟩, ?_,
        List.forall_mem_cons.mpr ⟨hnew, fun later hmem => (hlater later hmem).1⟩⟩
      rw [List.map_cons, List.nodup_cons]
      refine ⟨fun hmem => ?_, hnames⟩
      obtain ⟨later, hmem, heq⟩ := List.mem_map.mp hmem
      exact (hlater later hmem).2 (by simp [heq])

theorem buildManifest_names {look : Bytes → Node} {paths : List Bytes} {m : Manifest}
    {absFiles : List Bytes} (h : buildManifest look paths = .ok (m, absFiles)) :
    (∀ raw ∈ paths, slash ∉ fileName raw) ∧ (paths.map fileName).Nodup := by
  unfold buildManifest at h
  cases hb : paths.foldlM (Built.addPath · look) {} with
  | error e =>
    rw [hb] at h
    cases h
  | ok b =>
    obtain ⟨hsingle, hnames, -⟩ := foldlM_addPath_names hb
    exact ⟨hsingle, hnames⟩

/-! ### Where the files are -/

/-- A regular file at a path below the node, with its size. -/
def Node.HasFile (path : Bytes) (size : UInt64) : Node → Prop
  | .leaf status => path = [] ∧ status = .file (some size)
  | .dir _ entries => .leaf path (.file (some size)) ∈ walk [] entries

/-- A file of the manifest and its absolute path. -/
def FileAt (look : Bytes → Node) (paths : List Bytes) (f : ManifestFile) (absPath : Bytes) : Prop :=
  ∃ raw ∈ paths, ∃ path, (look raw).HasFile path f.size ∧
    f.path = fileName raw ++ path ∧ absPath = raw ++ path

def Built.Matched (look : Bytes → Node) (paths : List Bytes) (b : Built) : Prop :=
  List.Forall₂ (FileAt look paths) b.manifest.files b.absFiles

section Matched

variable {look : Bytes → Node} {paths : List Bytes} {b b' : Built} {raw : Bytes}

theorem Built.Matched.pushFile {f : ManifestFile} {absPath : Bytes} (h : b.Matched look paths)
    (hfile : FileAt look paths f absPath) : (b.pushFile f absPath).Matched look paths :=
  List.rel_append h (.cons hfile .nil)

theorem matched_addVisit {name : Name} {entries : Listing} {v : Visit} (hraw : raw ∈ paths)
    (hlook : look raw = .dir name entries) (hv : v ∈ walk [] entries) (h : b.Matched look paths)
    (hb : b.addVisit raw (fileName raw) v = .ok b') : b'.Matched look paths := by
  cases v with
  | throws => cases hb
  | dir path =>
    rw [Built.addVisit] at hb
    split at hb
    · cases hb
    · cases hb
      exact h
  | leaf path status =>
    cases status with
    | unknown err =>
      cases hb
      exact h
    | symlink =>
      cases hb
      exact h
    | special =>
      rw [Built.addVisit] at hb
      split at hb
      · cases hb
      · cases hb
        exact h
    | file size =>
      rw [Built.addVisit] at hb
      split at hb
      · cases hb
      · cases hn : Built.sized (fileName raw ++ path) size with
        | error e =>
          rw [hn] at hb
          cases hb
        | ok n =>
          obtain ⟨rfl, -⟩ := sized_ok hn
          rw [hn] at hb
          simp only [Except.bind] at hb
          split at hb
          · cases hb
          · cases hb
            have hat : (look raw).HasFile path n := by
              rw [hlook]
              exact hv
            exact h.pushFile ⟨raw, hraw, path, hat, rfl, rfl⟩

theorem matched_foldlM_addVisit {name : Name} {entries : Listing} {visits : List Visit}
    (hraw : raw ∈ paths) (hlook : look raw = .dir name entries)
    (hvisits : ∀ v ∈ visits, v ∈ walk [] entries)
    (h : b.Matched look paths)
    (hb : visits.foldlM (Built.addVisit · raw (fileName raw)) b = .ok b') :
    b'.Matched look paths := by
  induction visits generalizing b with
  | nil =>
    cases hb
    exact h
  | cons v visits ih =>
    rw [List.foldlM_cons] at hb
    rw [List.forall_mem_cons] at hvisits
    cases hc : b.addVisit raw (fileName raw) v with
    | error e =>
      rw [hc] at hb
      cases hb
    | ok c =>
      rw [hc] at hb
      exact ih hvisits.2 (matched_addVisit hraw hlook hvisits.1 h hc) hb

theorem matched_addNode {node : Node} (hraw : raw ∈ paths) (hlook : look raw = node)
    (spelled : node.SpelledAs (fileName raw)) (h : b.Matched look paths)
    (hb : b.addNode raw (fileName raw) node = .ok b') :
    b'.Matched look paths := by
  cases node with
  | leaf status =>
    cases status with
    | file size =>
      rw [Built.addNode] at hb
      cases hn : Built.sized raw size with
      | error e =>
        rw [hn] at hb
        cases hb
      | ok n =>
        obtain ⟨rfl, -⟩ := sized_ok hn
        rw [hn] at hb
        cases hb
        have hat : (look raw).HasFile [] n := by
          rw [hlook]
          exact ⟨rfl, rfl⟩
        have hroot : (b.pushRoot ⟨fileName raw, false⟩).Matched look paths := h
        exact hroot.pushFile ⟨raw, hraw, [], hat, by simp, by simp⟩
    | unknown err => cases hb
    | symlink => cases hb
    | special => cases hb
  | dir name entries =>
    obtain rfl : name = fileName raw := spelled
    have hstart : ((b.pushRoot ⟨fileName raw, true⟩).pushDir (fileName raw)).Matched look paths := h
    refine matched_foldlM_addVisit hraw hlook (fun v hv => hv) hstart ?_
    cases entries with
    | failed err => cases hb
    | done => exact hb
    | leaf first status rest => exact hb
    | dir first entries rest => exact hb

theorem matched_addPath (hraw : raw ∈ paths) (spelled : (look raw).SpelledAs (fileName raw))
    (h : b.Matched look paths) (hb : b.addPath look raw = .ok b') : b'.Matched look paths := by
  unfold Built.addPath at hb
  split at hb
  · cases hb
  · cases hb
  · dsimp only at hb
    split at hb
    · cases hb
    · split at hb
      · cases hb
      · cases hn : b.addNode raw (fileName raw) (look raw) with
        | error e =>
          rw [hn] at hb
          cases hb
        | ok c =>
          rw [hn] at hb
          simp only [Except.bind] at hb
          split at hb
          · cases hb
          · cases hb
            exact matched_addNode hraw rfl spelled h hn

theorem matched_foldlM_addPath {rest : List Bytes} (hrest : ∀ raw ∈ rest, raw ∈ paths)
    (spelled : ∀ raw ∈ rest, (look raw).SpelledAs (fileName raw)) (h : b.Matched look paths)
    (hb : rest.foldlM (Built.addPath · look) b = .ok b') :
    b'.Matched look paths := by
  induction rest generalizing b with
  | nil =>
    cases hb
    exact h
  | cons raw rest ih =>
    rw [List.foldlM_cons] at hb
    rw [List.forall_mem_cons] at hrest spelled
    cases hc : b.addPath look raw with
    | error e =>
      rw [hc] at hb
      cases hb
    | ok c =>
      rw [hc] at hb
      exact ih hrest.2 spelled.2 (matched_addPath hrest.1 spelled.1 h hc) hb

end Matched

theorem buildManifest_matched {look : Bytes → Node} {paths : List Bytes} {m : Manifest}
    {absFiles : List Bytes} (spelled : ∀ raw ∈ paths, (look raw).SpelledAs (fileName raw))
    (h : buildManifest look paths = .ok (m, absFiles)) :
    List.Forall₂ (FileAt look paths) m.files absFiles := by
  unfold buildManifest at h
  cases hb : paths.foldlM (Built.addPath · look) {} with
  | error e =>
    rw [hb] at h
    cases h
  | ok b =>
    rw [hb] at h
    simp only [Except.bind] at h
    split at h
    · cases h
    · cases h
      have hstart : Built.Matched look paths {} := .nil
      exact matched_foldlM_addPath (fun raw hraw => hraw) spelled hstart hb

/-! ## The round trip -/

/-- Every directory comes after the directories above it. -/
def ParentsFirst (dirs : List Bytes) : Prop :=
  ∀ before d after, dirs = before ++ d :: after → ∀ p, Below slash p d → p ∈ before

theorem lt_of_below {p d : Bytes} (h : Below slash p d) : p < d := by
  obtain ⟨rest, rfl⟩ := h
  have hbehind : ([] : Bytes) < slash :: rest := List.nil_lt_cons _ _
  have happend : p ++ [] < p ++ slash :: rest := List.append_left_lt hbehind
  simpa using happend

theorem parentsFirst_of_sorted {dirs : List Bytes} (hsorted : dirs.Pairwise (· ≤ ·))
    (hparents : ∀ d ∈ dirs, ∀ p, Below slash p d → p ∈ dirs) : ParentsFirst dirs := by
  rintro before d after rfl p hbelow
  have hp := hparents d (by simp) p hbelow
  obtain hp | hp := List.mem_append.mp hp
  · exact hp
  · have hle : d ≤ p := by
      obtain rfl | hlater := List.mem_cons.mp hp
      · exact List.le_refl _
      · exact (List.pairwise_cons.mp (List.pairwise_append.mp hsorted).2.1).1 p hlater
    exact absurd (lt_of_below hbelow) (List.not_lt.mpr hle)

theorem lists_toJson (m : Manifest) : m.toJson.Lists m.files m.dirs m.roots := by
  refine ⟨m.files.map Manifest.fileJson, m.dirs.map .str, m.roots.map Manifest.rootJson, rfl, ?_, ?_, ?_⟩
  · exact mapM_map fun f => rfl
  · exact mapM_map fun d => rfl
  · exact mapM_map fun r => rfl

section Accepted

variable {look : Bytes → Node} {paths : List Bytes} {m : Manifest} {absFiles : List Bytes}

theorem name_mem_dirs (h : Holds look paths m absFiles) {r : ManifestRoot} (hr : r ∈ m.roots)
    (hisDir : r.isDir = true) : r.name ∈ m.dirs := by
  rw [h.roots] at hr
  obtain ⟨raw, hraw, rfl⟩ := List.mem_map.mp hr
  refine h.dirs.mem_iff.mpr (List.mem_flatMap.mpr ⟨raw, hraw, ?_⟩)
  cases hlook : look raw with
  | leaf status =>
    rw [hlook] at hisDir
    cases hisDir
  | dir spelled entries => exact List.mem_cons_self ..

theorem accepted_of_holds (spelled : ∀ raw ∈ paths, (look raw).SpelledAs (fileName raw))
    (htree : (shareTree look paths).Proper)
    (hsingle : ∀ raw ∈ paths, slash ∉ fileName raw) (hnames : (paths.map fileName).Nodup)
    (h : Holds look paths m absFiles) : Manifest.Accepted m.files m.dirs m.roots := by
  have hroots : m.roots.map (·.name) = paths.map fileName := by
    rw [h.roots, sharedRoots, List.map_map]
    rfl
  have hroot : ∀ {p}, p ∈ paths.map fileName → ∃ r ∈ m.roots, r.name = p := by
    intro p hp
    rw [← hroots] at hp
    exact List.mem_map.mp hp
  have hrootSingle : ∀ r ∈ m.roots, slash ∉ r.name := by
    intro r hr
    have hname : r.name ∈ paths.map fileName := hroots ▸ List.mem_map_of_mem hr
    obtain ⟨raw, hraw, heq⟩ := List.mem_map.mp hname
    exact heq ▸ hsingle raw hraw
  have hfile : ∀ {f}, f ∈ m.files → f ∈ sharedFiles look paths := fun hf => h.files ▸ hf
  have hdir : ∀ {d}, d ∈ m.dirs ↔ d ∈ sharedDirs look paths := h.dirs.mem_iff
  exact {
    goodRoots := ⟨hroots ▸ hnames, h.safeRoots, hrootSingle⟩
    goodFiles := {
      nodup := h.files ▸ nodup_sharedFiles spelled htree
      safe := fun f hf => (h.safeFiles f hf).1
      rooted := fun f hf => hroot (rootOf_of_mem_walk htree (mem_walk_of_file spelled (hfile hf)) rfl)
      size := fun f hf => (h.safeFiles f hf).2 }
    count := h.count
    safeDirs := h.safeDirs
    rootedDirs := fun d hd =>
      hroot (rootOf_of_mem_walk htree ((mem_walk_of_dir spelled).mpr (hdir.mp hd)) rfl)
    nodupDirs := h.dirs.nodup_iff.mpr (nodup_sharedDirs spelled htree)
    apart := fun f hf hd => not_within_file spelled htree (hfile hf) (hdir.mp hd) (.refl _)
    dirNotUnder := fun f hf d hd hbelow =>
      not_within_file spelled htree (hfile hf) (hdir.mp hd) (.inr hbelow)
    rootNotFile := fun f hf r hr hisDir heq =>
      not_within_file spelled htree (hfile hf) (hdir.mp (name_mem_dirs h hr hisDir)) (.inl heq) }

theorem buildManifest_sorted (h : buildManifest look paths = .ok (m, absFiles)) :
    m.dirs.Pairwise (· ≤ ·) := by
  unfold buildManifest at h
  cases hb : paths.foldlM (Built.addPath · look) {} with
  | error e =>
    rw [hb] at h
    cases h
  | ok b =>
    rw [hb] at h
    simp only [Except.bind] at h
    split at h
    · cases h
    · cases h
      exact List.pairwise_insertionSort _ _

/-- The directories above a directory of the share are shared. -/
theorem parent_mem_dirs (spelled : ∀ raw ∈ paths, (look raw).SpelledAs (fileName raw))
    (htree : (shareTree look paths).Proper) {d p : Bytes} (hd : d ∈ sharedDirs look paths)
    (hbelow : Below slash p d) : p ∈ sharedDirs look paths := by
  have hraised : Below slash (slash :: p) (slash :: d) := below_cons.mpr hbelow
  obtain hstart | hdir := parent_of_walk htree ((mem_walk_of_dir spelled).mpr hd) rfl hraised
  · exact absurd hstart.length_le (by simp)
  · exact (mem_walk_of_dir spelled).mp hdir

/-- A manifest that was built, with the names of the share paths as the file system spells them, is
    read back as it is. Its directories stand behind their parents, its files are those of `absFiles`
    in this order, and its total is the sum of their sizes. -/
theorem buildManifest_accepted (spelled : ∀ raw ∈ paths, (look raw).SpelledAs (fileName raw))
    (htree : ∀ raw ∈ paths, (look raw).Proper)
    (h : buildManifest look paths = .ok (m, absFiles)) :
    Manifest.fromJson m.toJson = .ok m ∧ ParentsFirst m.dirs ∧
      List.Forall₂ (FileAt look paths) m.files absFiles ∧
        m.totalBytes.toNat = (m.files.map (·.size.toNat)).sum := by
  obtain ⟨hsingle, hnames⟩ := buildManifest_names h
  have hholds := buildManifest_spec h
  have hproper := proper_shareTree htree hsingle hnames
  have haccepted := accepted_of_holds spelled hproper hsingle hnames hholds
  have htotal : m.totalBytes = Manifest.sizeSum m.files := by
    rw [hholds.total, hholds.files]
    rfl
  refine ⟨Manifest.fromJson_ok_iff.mpr ⟨lists_toJson m, haccepted, htotal⟩, ?_,
    buildManifest_matched spelled h, ?_⟩
  · refine parentsFirst_of_sorted (buildManifest_sorted h) fun d hd p hbelow => ?_
    exact hholds.dirs.mem_iff.mpr (parent_mem_dirs spelled hproper (hholds.dirs.mem_iff.mp hd) hbelow)
  · rw [htotal]
    exact (Manifest.toNat_sizeSum haccepted.count haccepted.goodFiles.size).1

end Accepted

/-- `sub`, with a file in it, and a file beside it. -/
def folder : Listing :=
  .dir (ascii "sub") (.leaf (ascii "b.bin") (.file (some 3000)) .done)
    (.leaf (ascii "a.txt") (.file (some 5)) .done)

def folderManifest : Manifest :=
  ⟨[⟨ascii "root/sub/b.bin", 3000⟩, ⟨ascii "root/a.txt", 5⟩], [ascii "root", ascii "root/sub"],
    [⟨ascii "root", true⟩], 3005⟩

theorem folder_accepted : Manifest.fromJson folderManifest.toJson = .ok folderManifest :=
  (@buildManifest_accepted (fun _ => .dir (ascii "root") folder) [ascii "/tmp/root"] folderManifest
    [ascii "/tmp/root/sub/b.bin", ascii "/tmp/root/a.txt"] (by
      intro raw hraw
      obtain rfl := List.mem_singleton.mp hraw
      show ascii "root" = fileName (ascii "/tmp/root")
      decide) (by
      intro raw hraw
      exact ⟨by decide, by decide, ⟨by decide, List.not_mem_nil, trivial⟩,
        by decide, List.not_mem_nil, trivial⟩) (by decide +kernel)).1

end CrossTransfer.Transfer
