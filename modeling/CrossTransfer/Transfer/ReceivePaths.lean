import CrossTransfer.Transfer.Manifest

/-! # Where a receiver puts the files of a manifest

The path assignment of `ReceiverTransfer::Start` (`core/src/transfer/receiver.cpp`): the root
of a manifest path is replaced by the name chosen for it, the result is joined to the save
directory, and the part file gets `.ctpart` appended.

* `finalPath_eq` — a final path is the save directory, the renamed root, and the other
  components of the manifest path.
* `assignedPaths_nodup_iff` — when the final and part paths of one transfer are distinct.
-/

namespace CrossTransfer.Transfer

open Paths

/-- `final_names`: manifest root to on-disk name. -/
abbrev Names := List (Name × Name)

/-- The on-disk name of a root; a root without an entry keeps its own. -/
def Names.headOf (names : Names) (root : Name) : Name := (names.lookup root).getD root

/-- The suffix of a part file. -/
def ctpart : Bytes := ascii ".ctpart"

/-- The `mapped` lambda of `Start`. -/
def mapped (names : Names) (rel : Bytes) : Bytes :=
  let slashAt := findFrom rel slash 0
  let head := names.headOf (substr rel 0 slashAt)
  match slashAt with
  | none => head
  | some at' => head ++ substr rel at' none

def finalPath (saveDir : Path) (names : Names) (rel : Bytes) : Path :=
  joinSafe saveDir (mapped names rel)

/-- `path += suffix`: the suffix goes to the last component. -/
def appendSuffix (p : Path) (suffix : Bytes) : Path :=
  p.dropLast ++ [p.getLast?.getD [] ++ suffix]

def partPath (final : Path) : Path := appendSuffix final ctpart

/-- All paths `Start` assigns: the final paths, then the part paths. -/
def assignedPaths (saveDir : Path) (names : Names) (files : List ManifestFile) : List Path :=
  files.map (fun f => finalPath saveDir names f.path) ++
    files.map (fun f => partPath (finalPath saveDir names f.path))

/-! ## Components of a mapped path -/

/-- A manifest path is one component, or its root and the rest. -/
theorem rootOf_cases (rel : Bytes) :
    (findFrom rel slash 0 = none ∧ slash ∉ rel ∧ rootOf rel = rel) ∨
    (∃ tail, findFrom rel slash 0 = some (rootOf rel).length ∧ slash ∉ rootOf rel ∧
      rel = rootOf rel ++ slash :: tail) := by
  cases h : rel.findIdx? (· == slash) with
  | none =>
    have hnone : findFrom rel slash 0 = none := by simp [findFrom, h]
    refine .inl ⟨hnone, ?_, by simp [rootOf, hnone, substr]⟩
    intro hmem
    simpa using List.findIdx?_eq_none_iff.mp h slash hmem
  | some k =>
    obtain ⟨hk, hslash, before⟩ := List.findIdx?_eq_some_iff_getElem.mp h
    have hsome : findFrom rel slash 0 = some k := by simp [findFrom, h]
    have hroot : rootOf rel = rel.take k := by simp [rootOf, hsome, substr]
    have hlen : (rootOf rel).length = k := by rw [hroot, List.length_take]; omega
    refine .inr ⟨rel.drop (k + 1), by rw [hsome, hlen], ?_, ?_⟩
    · rw [hroot]
      intro hmem
      obtain ⟨j, hj, hget⟩ := List.mem_take_iff_getElem.mp hmem
      exact before j (by omega) (by simp [hget])
    · rw [hroot, ← (by simpa using hslash : rel[k] = slash), ← List.drop_eq_getElem_cons hk,
        List.take_append_drop]

theorem rootOf_of_clean {p : Bytes} (clean : slash ∉ p) : rootOf p = p := by
  obtain ⟨-, -, h⟩ | ⟨tail, -, -, h⟩ := rootOf_cases p
  · exact h
  · rw [h] at clean
    simp at clean

/-- The components after the root. -/
def restOf (rel : Bytes) : Path := (rel.splitOn slash).tail

theorem splitOn_eq_root_rest (rel : Bytes) : rel.splitOn slash = rootOf rel :: restOf rel := by
  obtain ⟨-, clean, hroot⟩ | ⟨tail, -, clean, hrel⟩ := rootOf_cases rel
  · rw [restOf, hroot, List.splitOn_eq_singleton clean]
    rfl
  · have hsplit : rel.splitOn slash = rootOf rel :: tail.splitOn slash := by
      conv_lhs => rw [hrel]
      rw [List.splitOn_append_cons_self, List.splitOn_eq_singleton clean]
      rfl
    rw [restOf, hsplit]
    rfl

theorem restOf_eq_nil_iff (rel : Bytes) : restOf rel = [] ↔ slash ∉ rel := by
  obtain ⟨-, clean, -⟩ | ⟨tail, -, clean, hrel⟩ := rootOf_cases rel
  · simp [restOf, List.splitOn_eq_singleton clean, clean]
  · have hmem : slash ∈ rel := by rw [hrel]; simp
    have hrest : restOf rel = tail.splitOn slash := by
      rw [restOf]
      conv_lhs => rw [hrel]
      rw [List.splitOn_append_cons_self, List.splitOn_eq_singleton clean]
      rfl
    simp [hrest, hmem]

theorem eq_of_root_rest {p q : Bytes} (hroot : rootOf p = rootOf q) (hrest : restOf p = restOf q) :
    p = q := by
  calc p = [slash].intercalate (p.splitOn slash) := (List.intercalate_splitOn slash).symm
    _ = [slash].intercalate (q.splitOn slash) := by
      rw [splitOn_eq_root_rest p, splitOn_eq_root_rest q, hroot, hrest]
    _ = q := List.intercalate_splitOn slash

theorem splitOn_mapped (names : Names) (rel : Bytes) (single : slash ∉ names.headOf (rootOf rel)) :
    (mapped names rel).splitOn slash = names.headOf (rootOf rel) :: restOf rel := by
  have hroot : substr rel 0 (findFrom rel slash 0) = rootOf rel := rfl
  obtain ⟨hnone, clean, -⟩ | ⟨tail, hsome, clean, hrel⟩ := rootOf_cases rel
  · have hmapped : mapped names rel = names.headOf (rootOf rel) := by
      simp only [mapped, hroot]
      rw [hnone]
    rw [hmapped, (restOf_eq_nil_iff rel).mpr clean, List.splitOn_eq_singleton single]
  · have hdrop : rel.drop (rootOf rel).length = slash :: tail := by
      have cut : ∀ root, rel = root ++ slash :: tail → rel.drop root.length = slash :: tail := by
        rintro root rfl
        simp
      exact cut _ hrel
    have hmapped : mapped names rel = names.headOf (rootOf rel) ++ slash :: tail := by
      simp only [mapped, hroot]
      rw [hsome]
      simp only [substr, hdrop]
    have hrest : restOf rel = tail.splitOn slash := by
      have := splitOn_eq_root_rest rel
      conv_lhs at this => rw [hrel]
      rw [List.splitOn_append_cons_self, List.splitOn_eq_singleton clean] at this
      exact (List.cons.inj this).2.symm
    rw [hmapped, List.splitOn_append_cons_self, List.splitOn_eq_singleton single, hrest]
    rfl

theorem restOf_ne_nil {rel : Bytes} (safe : isSafeRelativePath rel = true) :
    ∀ c ∈ restOf rel, c ≠ [] := by
  intro c hc
  refine safeComponent_ne_nil (safeComponent_of_isSafeRelativePath safe c ?_)
  rw [splitOn_eq_root_rest]
  exact List.mem_cons_of_mem _ hc

/-- A final path: the save directory, the renamed root, the other components. -/
theorem finalPath_eq {saveDir : Path} {names : Names} {rel : Bytes}
    (safe : isSafeRelativePath rel = true) (single : slash ∉ names.headOf (rootOf rel))
    (nonempty : names.headOf (rootOf rel) ≠ []) :
    finalPath saveDir names rel = saveDir ++ names.headOf (rootOf rel) :: restOf rel := by
  rw [finalPath, joinSafe_eq, splitOn_mapped names rel single, List.filter_eq_self.mpr]
  intro c hc
  obtain rfl | hc := List.mem_cons.mp hc
  · simpa using nonempty
  · simpa using restOf_ne_nil safe c hc

/-! ## Suffixes -/

theorem appendSuffix_singleton (c s : Bytes) : appendSuffix [c] s = [c ++ s] := rfl

theorem appendSuffix_append {p q : Path} (hq : q ≠ []) (s : Bytes) :
    appendSuffix (p ++ q) s = p ++ appendSuffix q s := by
  rw [appendSuffix, appendSuffix, List.dropLast_append_of_ne_nil hq,
    List.getLast?_append_of_ne_nil p hq, List.append_assoc]

theorem appendSuffix_cons {c : Bytes} {q : Path} (hq : q ≠ []) (s : Bytes) :
    appendSuffix (c :: q) s = c :: appendSuffix q s :=
  appendSuffix_append (p := [c]) hq s

theorem appendSuffix_injective {p q : Path} {s : Bytes} (hp : p ≠ []) (hq : q ≠ [])
    (h : appendSuffix p s = appendSuffix q s) : p = q := by
  obtain ⟨hinit, hlast⟩ := List.append_inj' h rfl
  have hlast : p.getLast?.getD [] = q.getLast?.getD [] := by
    simpa using hlast
  rw [List.getLast?_eq_getLast_of_ne_nil hp, List.getLast?_eq_getLast_of_ne_nil hq,
    Option.getD_some, Option.getD_some] at hlast
  rw [← List.dropLast_concat_getLast hp, ← List.dropLast_concat_getLast hq, hinit, hlast]

/-- A suffix without a slash lands in the last component. -/
theorem splitOn_append_suffix {s : Bytes} (hs : slash ∉ s) (p : Bytes) :
    (p ++ s).splitOn slash = appendSuffix (p.splitOn slash) s := by
  induction hlen : p.length using Nat.strong_induction_on generalizing p with
  | _ n ih =>
    obtain ⟨-, clean, -⟩ | ⟨tail, -, clean, hp⟩ := rootOf_cases p
    · rw [List.splitOn_eq_singleton clean, appendSuffix_singleton, List.splitOn_eq_singleton]
      simp [clean, hs]
    · have cut : ∀ q, slash ∉ rootOf p →
          (rootOf p ++ slash :: q).splitOn slash = rootOf p :: q.splitOn slash := by
        intro q hroot
        rw [List.splitOn_append_cons_self, List.splitOn_eq_singleton hroot]
        rfl
      have shorter : tail.length < n := by
        rw [← hlen, hp, List.length_append, List.length_cons]
        omega
      calc (p ++ s).splitOn slash
          = (rootOf p ++ slash :: (tail ++ s)).splitOn slash := by
            conv_lhs => rw [hp, List.append_assoc, List.cons_append]
        _ = rootOf p :: appendSuffix (tail.splitOn slash) s := by
            rw [cut _ clean, ih _ shorter tail rfl]
        _ = appendSuffix ((rootOf p ++ slash :: tail).splitOn slash) s := by
            rw [cut _ clean, appendSuffix_cons (by simp)]
        _ = appendSuffix (p.splitOn slash) s := by rw [← hp]

theorem root_rest_append_suffix {s p : Bytes} (hs : slash ∉ s) (hp : slash ∈ p) :
    rootOf (p ++ s) = rootOf p ∧ restOf (p ++ s) = appendSuffix (restOf p) s := by
  have hrest : restOf p ≠ [] := fun h => (restOf_eq_nil_iff p).mp h hp
  have h := splitOn_append_suffix hs p
  rw [splitOn_eq_root_rest, splitOn_eq_root_rest, appendSuffix_cons hrest] at h
  exact List.cons.inj h

/-! ## Distinct paths -/

/-- A renaming gives each root a name of its own: a single, non-empty component. -/
structure RootRenaming (m : Manifest) (names : Names) : Prop where
  single : ∀ r ∈ m.roots, slash ∉ names.headOf r.name
  nonempty : ∀ r ∈ m.roots, names.headOf r.name ≠ []
  injective : ∀ r ∈ m.roots, ∀ s ∈ m.roots,
    names.headOf r.name = names.headOf s.name → r.name = s.name

/-- `f` is called like the part file of `g`: below a root their manifest paths say so, at the
    top of the save directory their on-disk names do. -/
def PartClash (names : Names) (f g : ManifestFile) : Prop :=
  (slash ∈ g.path ∧ f.path = g.path ++ ctpart) ∨
  (slash ∉ f.path ∧ slash ∉ g.path ∧ names.headOf f.path = names.headOf g.path ++ ctpart)

theorem slash_not_mem_ctpart : slash ∉ ctpart := by decide

section Accepted

variable {m : Manifest} {names : Names} {saveDir : Path} {f g : ManifestFile}

theorem finalPath_of_accepted (wf : m.WellFormed) (ren : RootRenaming m names)
    (hf : f ∈ m.files) :
    finalPath saveDir names f.path = saveDir ++ names.headOf (rootOf f.path) :: restOf f.path := by
  obtain ⟨r, hr, hroot⟩ := wf.files.rooted f hf
  exact finalPath_eq (wf.files.safe f hf) (hroot ▸ ren.single r hr) (hroot ▸ ren.nonempty r hr)

theorem partPath_of_accepted (wf : m.WellFormed) (ren : RootRenaming m names)
    (hf : f ∈ m.files) :
    partPath (finalPath saveDir names f.path) =
      saveDir ++ appendSuffix (names.headOf (rootOf f.path) :: restOf f.path) ctpart := by
  rw [partPath, finalPath_of_accepted wf ren hf, appendSuffix_append (by simp)]

theorem rootOf_eq_of_headOf (wf : m.WellFormed) (ren : RootRenaming m names) (hf : f ∈ m.files)
    (hg : g ∈ m.files) (h : names.headOf (rootOf f.path) = names.headOf (rootOf g.path)) :
    rootOf f.path = rootOf g.path := by
  obtain ⟨r, hr, hrf⟩ := wf.files.rooted f hf
  obtain ⟨s, hs, hsg⟩ := wf.files.rooted g hg
  rw [← hrf, ← hsg] at h ⊢
  exact ren.injective r hr s hs h

theorem finalPath_injective (wf : m.WellFormed) (ren : RootRenaming m names) (hf : f ∈ m.files)
    (hg : g ∈ m.files)
    (h : finalPath saveDir names f.path = finalPath saveDir names g.path) : f.path = g.path := by
  rw [finalPath_of_accepted wf ren hf, finalPath_of_accepted wf ren hg] at h
  obtain ⟨hhead, hrest⟩ := List.cons.inj (List.append_cancel_left h)
  exact eq_of_root_rest (rootOf_eq_of_headOf wf ren hf hg hhead) hrest

theorem partPath_injective (wf : m.WellFormed) (ren : RootRenaming m names) (hf : f ∈ m.files)
    (hg : g ∈ m.files)
    (h : partPath (finalPath saveDir names f.path) = partPath (finalPath saveDir names g.path)) :
    f.path = g.path := by
  have hf' : finalPath saveDir names f.path ≠ [] := by simp [finalPath_of_accepted wf ren hf]
  have hg' : finalPath saveDir names g.path ≠ [] := by simp [finalPath_of_accepted wf ren hg]
  exact finalPath_injective wf ren hf hg (appendSuffix_injective hf' hg' h)

theorem finalPath_eq_partPath_iff (wf : m.WellFormed) (ren : RootRenaming m names)
    (hf : f ∈ m.files) (hg : g ∈ m.files) :
    finalPath saveDir names f.path = partPath (finalPath saveDir names g.path) ↔
      PartClash names f g := by
  rw [finalPath_of_accepted wf ren hf, partPath_of_accepted wf ren hg, List.append_cancel_left_eq]
  by_cases nested : slash ∈ g.path
  · have hrest : restOf g.path ≠ [] := fun h => (restOf_eq_nil_iff _).mp h nested
    obtain ⟨hroot', hrest'⟩ := root_rest_append_suffix slash_not_mem_ctpart nested
    rw [appendSuffix_cons hrest, List.cons.injEq, PartClash]
    constructor
    · rintro ⟨hhead, hsuffix⟩
      refine .inl ⟨nested, eq_of_root_rest ?_ ?_⟩
      · rw [hroot', rootOf_eq_of_headOf wf ren hf hg hhead]
      · rw [hrest', hsuffix]
    · rintro (⟨-, hpath⟩ | ⟨-, hclean, -⟩)
      · rw [hpath, hroot', hrest']
        exact ⟨rfl, rfl⟩
      · exact absurd nested hclean
  · have hrest := (restOf_eq_nil_iff g.path).mpr nested
    rw [hrest, appendSuffix_singleton, List.cons.injEq, restOf_eq_nil_iff, PartClash]
    constructor
    · rintro ⟨hhead, clean⟩
      rw [rootOf_of_clean clean, rootOf_of_clean nested] at hhead
      exact .inr ⟨clean, nested, hhead⟩
    · rintro (⟨hslash, -⟩ | ⟨clean, -, hhead⟩)
      · exact absurd hslash nested
      · rw [rootOf_of_clean clean, rootOf_of_clean nested]
        exact ⟨hhead, clean⟩

end Accepted

/-- The final and part paths `Start` assigns to the files of an accepted manifest are pairwise
    distinct exactly when no file is called like another's part file. -/
theorem assignedPaths_nodup_iff (j : Json) (m : Manifest) (accepted : Manifest.fromJson j = .ok m)
    (saveDir : Path) (names : Names) (ren : RootRenaming m names) :
    (assignedPaths saveDir names m.files).Nodup ↔
      ∀ f ∈ m.files, ∀ g ∈ m.files, ¬ PartClash names f g := by
  have wf := Manifest.wellFormed_of_fromJson accepted
  have files : m.files.Nodup := wf.files.nodup.of_map
  have same : ∀ f ∈ m.files, ∀ g ∈ m.files, f.path = g.path → f = g := by
    intro f hf g hg h
    exact List.inj_on_of_nodup_map wf.files.nodup hf hg h
  rw [assignedPaths, List.nodup_append]
  constructor
  · rintro ⟨-, -, apart⟩ f hf g hg clash
    exact apart _ (List.mem_map_of_mem hf) _ (List.mem_map_of_mem hg)
      ((finalPath_eq_partPath_iff wf ren hf hg).mpr clash)
  · intro clear
    refine ⟨List.Nodup.map_on ?_ files, List.Nodup.map_on ?_ files, ?_⟩
    · intro f hf g hg h
      exact same f hf g hg (finalPath_injective wf ren hf hg h)
    · intro f hf g hg h
      exact same f hf g hg (partPath_injective wf ren hf hg h)
    · intro a ha b hb h
      obtain ⟨f, hf, rfl⟩ := List.mem_map.mp ha
      obtain ⟨g, hg, rfl⟩ := List.mem_map.mp hb
      exact clear f hf g hg ((finalPath_eq_partPath_iff wf ren hf hg).mp h)

/-- An offer of two one-byte files, `a` and `a.ctpart`. -/
def partNameOffer : Json :=
  Manifest.toJson ⟨[⟨ascii "a", 1⟩, ⟨ascii "a.ctpart", 1⟩], [],
    [⟨ascii "a", false⟩, ⟨ascii "a.ctpart", false⟩], 2⟩

/-- An offer of a directory with two files. -/
def plainOffer : Json :=
  Manifest.toJson ⟨[⟨ascii "d/a", 1⟩, ⟨ascii "d/b", 2⟩], [ascii "d"], [⟨ascii "d", true⟩], 3⟩

theorem assignedPaths_nodup_plainOffer :
    (assignedPaths [ascii "save"] [(ascii "d", ascii "d (1)")]
      [⟨ascii "d/a", 1⟩, ⟨ascii "d/b", 2⟩]).Nodup :=
  (assignedPaths_nodup_iff plainOffer
    ⟨[⟨ascii "d/a", 1⟩, ⟨ascii "d/b", 2⟩], [ascii "d"], [⟨ascii "d", true⟩], 3⟩
    (by decide +kernel) [ascii "save"] [(ascii "d", ascii "d (1)")]
    ⟨by decide, by decide, by decide⟩).mpr (by unfold PartClash; decide)

theorem assignedPaths_partNameOffer :
    ¬ ∀ (j : Json) (m : Manifest) (saveDir : Path) (names : Names),
      Manifest.fromJson j = .ok m → RootRenaming m names →
        (assignedPaths saveDir names m.files).Nodup := by
  intro distinct
  have clash := distinct partNameOffer
    ⟨[⟨ascii "a", 1⟩, ⟨ascii "a.ctpart", 1⟩], [],
      [⟨ascii "a", false⟩, ⟨ascii "a.ctpart", false⟩], 2⟩ [ascii "save"] []
    (by decide +kernel) ⟨by decide, by decide, by decide⟩
  revert clash
  decide

end CrossTransfer.Transfer
