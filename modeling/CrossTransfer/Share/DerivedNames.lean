import CrossTransfer.Share.ChooseNames
import CrossTransfer.Share.ManifestSignature
import CrossTransfer.Transfer.PathGrammar

/-! # Names made from the names of a manifest

The validator limits the names on the wire; `UniqueName` puts a number into a root name that is
taken, and `ReceiverTransfer::Start` puts `.ctpart` behind the name of every file.  Neither looks
at the length of what it makes, and the last resort of `UniqueName` does not look at the
directory.

* `isComponent_candidate_iff` — a numbered name is a component exactly when it is short enough.
* `derivedNames_usable_iff` — when the chosen name of a root and the part files are usable.
-/

namespace CrossTransfer.Share

open CrossTransfer.Transfer
open CrossTransfer.Transfer.Paths

/-! ## Numbered names -/

/-- The number in its brackets. -/
def bracketed (n : Nat) : Bytes := ascii " (" ++ ascii (toString n) ++ ascii ")"

theorem allowed_of_mem_bracketed {n : Nat} {u : UInt8} (h : u ∈ bracketed n) :
    0x20 ≤ u.toNat ∧ u.toNat ≠ 0x7F ∧ u ∉ ascii "\\:*?\"<>|" ∧ u ≠ dot ∧ u ≠ slash := by
  have hplain : ∀ u : UInt8, u ∈ ascii " ()" ∨ (0x30 ≤ u.toNat ∧ u.toNat ≤ 0x39) →
      0x20 ≤ u.toNat ∧ u.toNat ≠ 0x7F ∧ u ∉ ascii "\\:*?\"<>|" ∧ u ≠ dot ∧ u ≠ slash := by
    apply forall_byte
    decide
  apply hplain
  rw [bracketed, List.mem_append, List.mem_append] at h
  obtain (h | h) | h := h
  · have hsub : ∀ v ∈ ascii " (", v ∈ ascii " ()" := by decide +kernel
    exact .inl (hsub u h)
  · exact .inr (digit_of_mem_toString h)
  · have hsub : ∀ v ∈ ascii ")", v ∈ ascii " ()" := by decide +kernel
    exact .inl (hsub u h)

theorem getLast?_bracketed (n : Nat) : (bracketed n).getLast? = some 0x29 := by
  rw [bracketed, List.getLast?_append]
  rfl

theorem space_mem_bracketed (n : Nat) : (0x20 : UInt8) ∈ bracketed n := by
  rw [bracketed, List.append_assoc]
  exact List.mem_append_left _ (by decide)

theorem not_isDevice_of_space {stem : Bytes} (h : (0x20 : UInt8) ∈ stem) : ¬IsDevice stem := by
  have hno : ∀ d ∈ deviceNames, (0x20 : UInt8) ∉ d := by decide
  have hup : toUpper 0x20 = 0x20 := by decide
  intro hdevice
  apply hno _ ((isDevice_iff stem).mp hdevice)
  rw [← hup]
  exact List.mem_map_of_mem h

theorem rfind_some {s : Bytes} {c : UInt8} {i : Nat} (h : rfind s c = some i) :
    ∃ hi : i < s.length, s[i] = c := by
  rw [rfind, Option.map_eq_some_iff] at h
  obtain ⟨k, hk, rfl⟩ := h
  obtain ⟨hlt, hget, -⟩ := List.findIdx?_eq_some_iff_getElem.mp hk
  rw [List.length_reverse] at hlt
  rw [List.getElem_reverse] at hget
  exact ⟨by omega, by simpa using hget⟩

/-- Where the number goes: behind a stem that is not empty, before an extension that ends as the
    name does. -/
theorem candidate_cases {name : Name} (hname : name ≠ []) (isDir : Bool) :
    ∃ stem ext, name = stem ++ ext ∧ stem ≠ [] ∧ (ext = [] ∨ dot ∈ ext) ∧
      ∀ n, candidate name isDir n = stem ++ (bracketed n ++ ext) := by
  have hform : ∀ stem ext, splitExtension name isDir = (stem, ext) →
      ∀ n, candidate name isDir n = stem ++ (bracketed n ++ ext) := by
    intro stem ext hsplit n
    simp only [candidate, hsplit, bracketed, List.append_assoc]
  have hwhole : splitExtension name isDir = (name, []) → ∃ stem ext, name = stem ++ ext ∧
      stem ≠ [] ∧ (ext = [] ∨ dot ∈ ext) ∧
      ∀ n, candidate name isDir n = stem ++ (bracketed n ++ ext) := by
    intro hsplit
    exact ⟨name, [], (List.append_nil _).symm, hname, .inl rfl, hform _ _ hsplit⟩
  cases isDir with
  | true => exact hwhole rfl
  | false =>
    cases hdot : rfind name dot with
    | none => exact hwhole (by simp [splitExtension, hdot])
    | some at' =>
      by_cases hpos : 0 < at'
      swap
      · exact hwhole (by simp [splitExtension, hdot, hpos])
      have hsplit : splitExtension name false = (name.take at', name.drop at') := by
        simp [splitExtension, hdot, hpos]
      obtain ⟨hlt, hget⟩ := rfind_some hdot
      refine ⟨_, _, (List.take_append_drop at' name).symm, ?_, .inr ?_, hform _ _ hsplit⟩
      · intro hnil
        obtain hzero | hnil := List.take_eq_nil_iff.mp hnil
        · omega
        · exact hname hnil
      · rw [List.drop_eq_getElem_cons hlt, hget]
        exact List.mem_cons_self

theorem length_candidate (name : Name) (hname : name ≠ []) (isDir : Bool) (n : Nat) :
    (candidate name isDir n).length = name.length + (bracketed n).length := by
  obtain ⟨stem, ext, rfl, -, -, hcandidate⟩ := candidate_cases hname isDir
  rw [hcandidate, List.length_append, List.length_append, List.length_append]
  omega

theorem takeWhile_append_of_dot {stem : Bytes} (h : dot ∈ stem) (rest : Bytes) :
    (stem ++ rest).takeWhile (fun u => u != dot) = stem.takeWhile fun u => u != dot := by
  induction stem with
  | nil => cases h
  | cons v stem ih =>
    by_cases hv : v = dot
    · rw [hv]
      rfl
    · have hmem : dot ∈ stem := (List.mem_cons.mp h).resolve_left fun heq => hv heq.symm
      have hgo : (v != dot) = true := by simpa using hv
      rw [List.cons_append, List.takeWhile_cons_of_pos (p := fun u => u != dot) hgo,
        List.takeWhile_cons_of_pos (p := fun u => u != dot) hgo, ih hmem]

/-- The number changes nothing that the rules look at, except the length. -/
theorem isComponent_candidate_iff {name : Name} (h : IsComponent name) (isDir : Bool) (n : Nat) :
    IsComponent (candidate name isDir n) ↔ (candidate name isDir n).length ≤ 255 := by
  refine ⟨fun hcandidate => hcandidate.short, fun hshort => ?_⟩
  obtain ⟨stem, ext, rfl, hstem, hext, hcandidate⟩ := candidate_cases h.nonempty isDir
  rw [hcandidate] at hshort ⊢
  have hspace : (0x20 : UInt8) ∈ stem ++ (bracketed n ++ ext) :=
    List.mem_append_right _ (List.mem_append_left _ (space_mem_bracketed n))
  exact
    { nonempty := List.ne_nil_of_mem hspace
      short := hshort
      notDot := by
        intro hdot
        rw [hdot] at hspace
        exact absurd hspace (by decide)
      notDots := by
        intro hdots
        rw [hdots] at hspace
        exact absurd hspace (by decide)
      allowed := by
        intro u hu
        rw [List.mem_append, List.mem_append] at hu
        obtain hu | hu | hu := hu
        · exact h.allowed u (List.mem_append_left _ hu)
        · obtain ⟨hlow, hdel, hspecial, -⟩ := allowed_of_mem_bracketed hu
          exact ⟨hlow, hdel, hspecial⟩
        · exact h.allowed u (List.mem_append_right _ hu)
      ending := by
        intro u hu
        rw [List.getLast?_append, List.getLast?_append, getLast?_bracketed] at hu
        cases hlast : ext.getLast? with
        | none =>
          rw [hlast] at hu
          cases hu
          decide
        | some v =>
          rw [hlast] at hu
          cases hu
          apply h.ending
          rw [List.getLast?_append, hlast]
          rfl
      noDevice := by
        by_cases hdot : dot ∈ stem
        · -- The first dot stands before the number.
          rw [takeWhile_append_of_dot hdot, ← takeWhile_append_of_dot hdot ext]
          exact h.noDevice
        · have hclean : ∀ u ∈ stem ++ bracketed n, (u != dot) = true := by
            intro u hu
            obtain hu | hu := List.mem_append.mp hu
            · simp only [bne_iff_ne]
              rintro rfl
              exact hdot hu
            · simpa using (allowed_of_mem_bracketed hu).2.2.2.1
          rw [← List.append_assoc, List.takeWhile_append_of_pos hclean]
          apply not_isDevice_of_space
          exact List.mem_append_left _ (List.mem_append_right _ (space_mem_bracketed n)) }

theorem slash_not_mem_candidate {name : Name} (hname : name ≠ []) (hslash : slash ∉ name)
    (isDir : Bool) (n : Nat) : slash ∉ candidate name isDir n := by
  obtain ⟨stem, ext, rfl, -, -, hcandidate⟩ := candidate_cases hname isDir
  rw [hcandidate]
  intro hmem
  rw [List.mem_append, List.mem_append] at hmem
  obtain hmem | hmem | hmem := hmem
  · exact hslash (List.mem_append_left _ hmem)
  · exact (allowed_of_mem_bracketed hmem).2.2.2.2 rfl
  · exact hslash (List.mem_append_right _ hmem)

/-! ## The chosen name of a root -/

/-- A root name: one component, which the validator accepts. -/
structure IsRootName (name : Name) : Prop where
  single : slash ∉ name
  safe : isSafeRelativePath name = true

theorem IsRootName.component {name : Name} (h : IsRootName name) : IsComponent name := by
  apply ((isSafeRelativePath_iff name).mp h.safe).components
  rw [List.splitOn_eq_singleton h.single]
  exact List.mem_singleton_self name

/-- A name that can be used for a new entry of the directory. -/
def Usable (exist : Name → Bool) (name : Name) : Prop :=
  safeComponent name = true ∧ exist name = false

/-- Where the root is taken, the numbered name it gets is free and not too long. -/
def NumberFits (exist : Name → Bool) (rd : Nat) (r : ManifestRoot) : Prop :=
  ∀ n, SuffixFor exist rd r n →
    exist (candidate r.name r.isDir n) = false ∧ (candidate r.name r.isDir n).length ≤ 255

theorem uniqueName_usable_iff {r : ManifestRoot} (h : IsRootName r.name) (exist : Name → Bool)
    (rd : Nat) : Usable exist (uniqueName exist rd r.name r.isDir) ↔ NumberFits exist rd r := by
  rw [Usable, safeComponent_iff]
  cases htaken : exist r.name with
  | false =>
    rw [uniqueName_of_free htaken]
    constructor
    · intro _ n hn
      rw [hn.1] at htaken
      cases htaken
    · intro _
      exact ⟨h.component, htaken⟩
  | true =>
    have hnumber := suffixFor_suffixNumber rd htaken
    rw [uniqueName_of_suffixFor hnumber, isComponent_candidate_iff h.component]
    constructor
    · rintro ⟨hshort, hfree⟩ n hn
      rw [suffixFor_unique hn hnumber]
      exact ⟨hfree, hshort⟩
    · intro hfits
      exact (hfits _ hnumber).symm

/-! ## Part files -/

/-- The last component of a path. -/
def lastComponent (p : Path) : Name := p.getLast?.getD []

/-- What is left of 255 bytes for a name in front of `.ctpart`. -/
def partNameBytes : Nat := 248

theorem length_lastComponent_partPath (p : Path) :
    (lastComponent (partPath p)).length = (lastComponent p).length + 7 := by
  rw [lastComponent, partPath, appendSuffix, List.getLast?_concat, Option.getD_some,
    List.length_append]
  rfl

/-- The names that become part files are short enough: below a root the last component of the
    manifest path, at the top the name chosen for it. -/
def PartsFit (m : Manifest) (exist : Name → Bool) (rd : Name → Nat) : Prop :=
  ∀ f ∈ m.files,
    (slash ∈ f.path → (lastComponent (f.path.splitOn slash)).length ≤ partNameBytes) ∧
    (slash ∉ f.path → (exist f.path = false → f.path.length ≤ partNameBytes) ∧
      ∀ r ∈ m.roots, r.name = f.path → ∀ n, SuffixFor exist (rd r.name) r n →
        (candidate r.name r.isDir n).length ≤ partNameBytes)

section Accepted

variable {m : Manifest} {exist : Name → Bool} {rd : Name → Nat} {names : Names} {saveDir : Path}
  {f : ManifestFile}

theorem rootName_of_mem (wf : m.WellFormed) {r : ManifestRoot} (hr : r ∈ m.roots) :
    IsRootName r.name :=
  ⟨wf.roots.single r hr, wf.roots.safe r hr⟩

theorem headOf_of_chosen (wf : m.WellFormed) (chosen : Chosen m exist rd names)
    {r : ManifestRoot} (hr : r ∈ m.roots) :
    names.headOf r.name = uniqueName exist (rd r.name) r.name r.isDir := by
  rw [Names.headOf, chosen.lookup wf hr, Option.getD_some]

/-- The chosen name is one component, whatever its length. -/
theorem uniqueName_single {r : ManifestRoot} (h : IsRootName r.name) (rd : Nat) :
    slash ∉ uniqueName exist rd r.name r.isDir ∧ uniqueName exist rd r.name r.isDir ≠ [] := by
  cases htaken : exist r.name with
  | false =>
    rw [uniqueName_of_free htaken]
    exact ⟨h.single, h.component.nonempty⟩
  | true =>
    rw [uniqueName_of_suffixFor (suffixFor_suffixNumber rd htaken)]
    refine ⟨slash_not_mem_candidate h.component.nonempty h.single _ _, ?_⟩
    intro hnil
    have hlength := length_candidate r.name h.component.nonempty r.isDir
      (suffixNumber exist rd r.name r.isDir)
    rw [hnil, List.length_nil] at hlength
    exact h.component.nonempty (List.eq_nil_of_length_eq_zero (by omega))

theorem lastComponent_append {p q : Path} (hq : q ≠ []) :
    lastComponent (p ++ q) = lastComponent q := by
  rw [lastComponent, lastComponent, List.getLast?_append_of_ne_nil p hq]

/-- The last component of a final path: below a root that of the manifest path, at the top the
    chosen name. -/
theorem lastComponent_finalPath (wf : m.WellFormed) (chosen : Chosen m exist rd names)
    (hf : f ∈ m.files) : lastComponent (finalPath saveDir names f.path) =
      if slash ∈ f.path then lastComponent (f.path.splitOn slash) else names.headOf f.path := by
  obtain ⟨r, hr, hroot⟩ := wf.files.rooted f hf
  have hsingle : slash ∉ names.headOf (rootOf f.path) ∧ names.headOf (rootOf f.path) ≠ [] := by
    rw [← hroot, headOf_of_chosen wf chosen hr]
    exact uniqueName_single (rootName_of_mem wf hr) (rd r.name)
  rw [finalPath_eq (wf.files.safe f hf) hsingle.1 hsingle.2, lastComponent_append (by simp)]
  split
  · rename_i hslash
    have hrest : restOf f.path ≠ [] := fun h => (restOf_eq_nil_iff _).mp h hslash
    rw [splitOn_eq_root_rest, ← List.singleton_append, ← List.singleton_append (l := restOf f.path),
      lastComponent_append hrest, lastComponent_append hrest]
  · rename_i hslash
    rw [(restOf_eq_nil_iff _).mpr hslash, rootOf_of_clean hslash]
    rfl

theorem partPath_short_iff (wf : m.WellFormed) (chosen : Chosen m exist rd names) :
    (∀ f ∈ m.files, (lastComponent (partPath (finalPath saveDir names f.path))).length ≤ 255) ↔
      PartsFit m exist rd := by
  refine forall₂_congr fun f hf => ?_
  rw [length_lastComponent_partPath, lastComponent_finalPath wf chosen hf, partNameBytes]
  by_cases hslash : slash ∈ f.path
  · simp only [hslash, if_true, true_implies, not_true, false_implies, and_true]
    omega
  · obtain ⟨r, hr, hroot⟩ := wf.files.rooted f hf
    have hself : r.name = f.path := hroot.trans (rootOf_of_clean hslash)
    have honly : ∀ s ∈ m.roots, s.name = f.path → s = r := by
      intro s hs hname
      exact List.inj_on_of_nodup_map wf.roots.nodup hs hr (hname.trans hself.symm)
    have hhead := headOf_of_chosen wf chosen hr
    rw [hself] at hhead
    simp only [hslash, if_false, false_implies, not_false_iff, true_implies, true_and]
    rw [hhead, ← hself]
    cases htaken : exist r.name with
    | false =>
      rw [uniqueName_of_free htaken]
      constructor
      · intro hshort
        refine ⟨fun _ => by omega, ?_⟩
        intro s _ hs n hn
        rw [SuffixFor, hs, htaken] at hn
        cases hn.1
      · rintro ⟨hshort, -⟩
        have hshort := hshort rfl
        omega
    | true =>
      have hnumber := suffixFor_suffixNumber (rd r.name) htaken
      rw [uniqueName_of_suffixFor hnumber]
      constructor
      · intro hshort
        refine ⟨fun hfree => absurd hfree (by simp), ?_⟩
        intro s hs hname n hn
        obtain rfl := honly s hs (hname.trans hself)
        rw [suffixFor_unique hn hnumber]
        omega
      · rintro ⟨-, hfits⟩
        have hfits := hfits r hr rfl _ hnumber
        omega

end Accepted

/-- The name `UniqueName` chooses is usable exactly when the number it adds fits; the part files of
    an accepted manifest can be created exactly when the names below and at the top leave room for
    their suffix. -/
theorem derivedNames_usable_iff (r : ManifestRoot) (rootName : IsRootName r.name)
    (exist : Name → Bool) (draw : Nat) (j : Json) (m : Manifest)
    (accepted : Manifest.fromJson j = .ok m) (rd : Name → Nat) (names : Names)
    (chosen : Chosen m exist rd names) (saveDir : Path) :
    (Usable exist (uniqueName exist draw r.name r.isDir) ↔ NumberFits exist draw r) ∧
    ((∀ f ∈ m.files, (lastComponent (partPath (finalPath saveDir names f.path))).length ≤ 255) ↔
      PartsFit m exist rd) :=
  ⟨uniqueName_usable_iff rootName exist draw,
    partPath_short_iff (Manifest.wellFormed_of_fromJson accepted) chosen⟩

/-- In a directory that holds `a`, the root `a` becomes `a (1)`. -/
theorem derivedNames_usable_numbered :
    (Usable (· == ascii "a") (uniqueName (· == ascii "a") 0 (ascii "a") false) ↔
      NumberFits (· == ascii "a") 0 ⟨ascii "a", false⟩) ∧
    ((∀ f ∈ numberedManifest.files, (lastComponent (partPath (finalPath [ascii "save"]
      (chooseNames [] (· == ascii "a") (fun _ => 0) numberedManifest.roots) f.path))).length ≤ 255) ↔
      PartsFit numberedManifest (· == ascii "a") (fun _ => 0)) :=
  derivedNames_usable_iff ⟨ascii "a", false⟩ ⟨by decide, by decide +kernel⟩ (· == ascii "a") 0
    numberedOffer numberedManifest (by decide +kernel) (fun _ => 0) _ .fresh [ascii "save"]

/-- The name of 255 times the letter `a`. -/
def longName : Name := List.replicate 255 0x61

def longManifest : Manifest := ⟨[⟨longName, 1⟩], [], [⟨longName, false⟩], 1⟩

/-- A taken name of 255 bytes gets a number and has 259, and in an empty directory its part file
    has 262. -/
theorem derivedNames_longName :
    ¬ ∀ (r : ManifestRoot), IsRootName r.name → ∀ (exist : Name → Bool) (draw : Nat) (j : Json)
      (m : Manifest), Manifest.fromJson j = .ok m → ∀ (rd : Name → Nat) (names : Names),
      Chosen m exist rd names → ∀ saveDir : Path,
        Usable exist (uniqueName exist draw r.name r.isDir) ∧
        ∀ f ∈ m.files,
          (lastComponent (partPath (finalPath saveDir names f.path))).length ≤ 255 := by
  intro husable
  have hparts := (husable ⟨longName, false⟩ ⟨by decide +kernel, by decide +kernel⟩
    (fun _ => false) 0 longManifest.toJson longManifest (by decide +kernel) (fun _ => 0) _ .fresh
    []).2
  revert hparts
  decide +kernel

end CrossTransfer.Share
