import CrossTransfer.Share.CtrlDispatch

/-! # Reading a control message

`OnCtrlMessage` reads the fields of a document with accessors that throw on a value of another type,
and some of which reduce a number that is too large. `harmlessDoc_iff` says which documents are read
without an exception, and without changing anything that the session keeps of a file when they are
malformed.
-/

namespace CrossTransfer.Share

open CrossTransfer.Transfer
open CrossTransfer.Transfer.Paths
open TransferSession

/-! ## Well-formed messages -/

/-- The document has an `index`, of a file. -/
def IndexBelow (n : Nat) (j : Json) : Prop :=
  ∃ v : UInt64, j.find "index" = some (.unsigned v) ∧ v.toNat < 2 ^ 16 ∧ v.toNat < n

/-- A number of 32 bits. -/
def Bound32 (j : Json) : Prop := ∃ v : UInt64, j = .unsigned v ∧ v.toNat < 2 ^ 32

/-- Every field that is read of an entry of `accept` has its type and its range. -/
structure WellFormedEntry (n : Nat) (f : Json) : Prop where
  index : IndexBelow n f
  verified : ∀ b, f.find "verified" = some b → ∃ c, b = .bool c
  /-- Only read if the file is not verified. -/
  bounds : f.find "verified" ≠ some (.bool true) → ∀ h, f.find "have" = some h →
    ∃ rs, h = .arr rs ∧ ∀ a b, .arr [a, b] ∈ rs → Bound32 a ∧ Bound32 b

/-- Every field that is read of a `file_done`, `file_ok` or `file_bad` has its type and its range. -/
def WellFormedDoc (n : Nat) : CtrlType → Json → Prop
  | .fileDone, j => IndexBelow n j ∧ ∃ hash, j.find "sha256" = some (.str hash)
  | .fileOk, j => IndexBelow n j
  | .fileBad, j => IndexBelow n j
  | _, _ => True

/-! ## What a session keeps of a file -/

/-- What a session keeps of a file. -/
structure FileView where
  acked : Option Bool
  tx : Option FileTx
  rx : Option FileRx
  /-- The hash the sender has announced and the receiver has not yet compared. -/
  hash : Option Bytes

def fileView (s : TransferSession) (i : Nat) : FileView where
  acked := s.senderFileOk[i]?
  tx := s.sender.bind (·.tx[i]?)
  rx := s.receiver.bind (·.rx[i]?)
  hash := s.receiver.bind fun t => t.pendingDone.lookup (UInt16.ofNat i)

/-- The number of files. -/
def filesOf (s : TransferSession) : Nat := s.manifest.files.length

/-- An entry of `accept` that says nothing of a file. -/
def Passed (casts : Casts) (n : Nat) (f : Json) : Prop :=
  ∀ acc, acceptStep casts n acc f = .ok acc

/-! ## Readable messages -/

/-- No root of a manifest that is read has a `dir` other than a boolean. -/
def ReadableManifest (m : Json) : Prop :=
  ∀ files roots before r after, m.isObject = true → m.find "files" = some (.arr files) →
    (∀ d, m.find "dirs" = some d → ∃ dirs, d = .arr dirs) → m.find "roots" = some (.arr roots) →
    files.length ≤ kMaxFilesPerTransfer → roots = before ++ r :: after →
    (∃ acc, Manifest.readRoots before [] = .ok acc) → (∃ name, r.find "name" = some (.str name)) →
    ∀ d, r.find "dir" = some d → ∃ b, d = .bool b

/-- An entry whose index, reduced modulo 65536, is that of a file. -/
structure ReadableEntry (n : Nat) (f : Json) : Prop where
  flag : ∀ v : UInt64, f.find "index" = some (.unsigned v) → v.toNat % 2 ^ 16 < n →
    ∀ b, f.find "verified" = some b → ∃ c, b = .bool c
  verified : ∀ v : UInt64, f.find "index" = some (.unsigned v) → v.toNat % 2 ^ 16 < n →
    f.find "verified" = some (.bool true) → v.toNat < 2 ^ 16
  runs : ∀ v : UInt64, f.find "index" = some (.unsigned v) → v.toNat % 2 ^ 16 < n →
    f.find "verified" ≠ some (.bool true) → ∀ rs, f.find "have" = some (.arr rs) →
    ∀ a b, .arr [a, b] ∈ rs → v.toNat < 2 ^ 16 ∧ Bound32 a ∧ Bound32 b

/-- Nothing is known of what the receiver has of the file. -/
structure Fresh (f : FileTx) : Prop where
  skip : f.skip = BlockBitmap.reset f.blocks
  ackedBytes : f.ackedBytes = 0
  sack : f.sack = {}
  sackSeq : f.sackSeq = 0

/-- The condition on the message, in this state. -/
def Readable (casts : Casts) (s : TransferSession) : CtrlType → Json → Prop
  | .offer, j => s.isSender = false → s.receiver = none →
    ∀ m, j.find "manifest" = some m → ReadableManifest m
  | .accept, j => s.isSender = true → s.acceptReceived = false →
    ∀ files, j.find "files" = some (.arr files) → ∀ f ∈ files, ReadableEntry (filesOf s) f
  | .fileDone, j => s.isSender = false → ∀ t, s.receiver = some t →
    ∀ index sha256, j.find "index" = some index → j.find "sha256" = some sha256 →
    ∃ k hash, getUInt16 casts index = .ok k ∧ sha256 = .str hash ∧
      ((∃ v : UInt64, index = .unsigned v ∧ v.toNat < 2 ^ 16) ∨ filesOf s ≤ k.toNat ∨
        t.pendingDone.lookup k = some hash)
  | .fileOk, j => s.isSender = true → s.sender ≠ none →
    ∀ v : UInt64, j.find "index" = some (.unsigned v) → 2 ^ 16 ≤ v.toNat →
    v.toNat % 2 ^ 16 < filesOf s → s.senderFileOk[v.toNat % 2 ^ 16]? ≠ some false
  | .fileBad, j => s.isSender = true → ∀ t, s.sender = some t →
    ∀ v : UInt64, j.find "index" = some (.unsigned v) → 2 ^ 16 ≤ v.toNat →
    v.toNat % 2 ^ 16 < filesOf s → s.senderFileOk[v.toNat % 2 ^ 16]? ≠ none →
    ∀ f, t.tx[v.toNat % 2 ^ 16]? = some f → f.ok = true ∨ Fresh f
  | .error, j => ∀ code, j.find "code" = some code → ∃ text, code = .str text
  | _, _ => True

/-! ## Offers -/

theorem readRoot_thrown_iff {acc : List ManifestRoot} {r : Json} :
    Manifest.readRoot acc r = .error .thrown ↔
      (∃ name, r.find "name" = some (.str name)) ∧ ∃ d, r.find "dir" = some d ∧ ∀ b, d ≠ .bool b := by
  constructor
  · intro h
    unfold Manifest.readRoot at h
    split at h
    · rename_i name hname
      refine ⟨⟨name, hname⟩, ?_⟩
      cases hdir : r.find "dir" with
      | none =>
        simp only [Manifest.valueDir, hdir] at h
        repeat' split at h
        all_goals cases h
      | some d =>
        refine ⟨d, rfl, ?_⟩
        rintro b rfl
        simp only [Manifest.valueDir, hdir] at h
        repeat' split at h
        all_goals cases h
    · cases h
  · rintro ⟨⟨name, hname⟩, d, hdir, hd⟩
    have hvalue : Manifest.valueDir r = .error .thrown := by
      rw [Manifest.valueDir, hdir]
      cases d with
      | bool b => exact absurd rfl (hd b)
      | _ => rfl
    rw [Manifest.readRoot, hname]
    dsimp only
    rw [hvalue]

theorem readRoots_append (before : List Json) (rest : List Json) (acc : List ManifestRoot) :
    Manifest.readRoots (before ++ rest) acc =
      (Manifest.readRoots before acc).bind (Manifest.readRoots rest) := by
  induction before generalizing acc with
  | nil => rfl
  | cons r before ih =>
    rw [List.cons_append, Manifest.readRoots, Manifest.readRoots]
    cases Manifest.readRoot acc r with
    | error e => rfl
    | ok root => exact ih _

theorem readRoots_thrown_iff {roots : List Json} {acc : List ManifestRoot} :
    Manifest.readRoots roots acc = .error .thrown ↔
      ∃ before r after, roots = before ++ r :: after ∧
        (∃ acc', Manifest.readRoots before acc = .ok acc') ∧
        (∃ name, r.find "name" = some (.str name)) ∧ ∃ d, r.find "dir" = some d ∧ ∀ b, d ≠ .bool b := by
  constructor
  · intro h
    induction roots generalizing acc with
    | nil => cases h
    | cons r rest ih =>
      rw [Manifest.readRoots] at h
      cases hr : Manifest.readRoot acc r with
      | error e =>
        rw [hr] at h
        cases h
        exact ⟨[], r, rest, rfl, ⟨acc, rfl⟩, readRoot_thrown_iff.mp hr⟩
      | ok root =>
        rw [hr] at h
        obtain ⟨before, r', after, rfl, ⟨acc', hbefore⟩, hthrown⟩ := ih h
        refine ⟨r :: before, r', after, rfl, ⟨acc', ?_⟩, hthrown⟩
        rw [Manifest.readRoots, hr]
        exact hbefore
  · rintro ⟨before, r, after, rfl, ⟨acc', hbefore⟩, hthrown⟩
    rw [readRoots_append, hbefore]
    change Manifest.readRoots (r :: after) acc' = _
    rw [Manifest.readRoots, readRoot_thrown_iff.mpr hthrown]

theorem readDirs_not_thrown {roots : List ManifestRoot} {items : List Json} {acc : List Bytes} :
    Manifest.readDirs roots items acc ≠ .error .thrown := by
  induction items generalizing acc with
  | nil => simp [Manifest.readDirs]
  | cons d rest ih =>
    rw [Manifest.readDirs]
    split
    · rename_i e he
      unfold Manifest.readDir at he
      repeat' split at he
      all_goals cases he
      all_goals simp
    · exact ih

theorem readFiles_not_thrown {roots : List ManifestRoot} {dirs : List Bytes} {items : List Json}
    {acc : List ManifestFile} {total : UInt64} :
    Manifest.readFiles roots dirs items acc total ≠ .error .thrown := by
  induction items generalizing acc total with
  | nil => simp [Manifest.readFiles]
  | cons f rest ih =>
    rw [Manifest.readFiles]
    split
    · rename_i e he
      unfold Manifest.readFile at he
      repeat' split at he
      all_goals cases he
      all_goals simp
    · exact ih

theorem body_thrown_iff {files dirs roots : List Json} :
    Manifest.fromJson.body files dirs roots = .error .thrown ↔
      files.length ≤ kMaxFilesPerTransfer ∧ Manifest.readRoots roots [] = .error .thrown := by
  unfold Manifest.fromJson.body
  split
  · rename_i hmany
    simp [hmany]
  · rename_i hfew
    rw [Nat.not_lt] at hfew
    split
    · rename_i e he
      simp [hfew, he]
    · rename_i rs hrs
      rw [hrs]
      refine iff_of_false ?_ (by simp)
      split
      · rename_i e he
        rintro heq
        cases heq
        exact readDirs_not_thrown he
      · split
        · rename_i e he
          rintro heq
          cases heq
          exact readFiles_not_thrown he
        · split <;> simp

theorem fromJson_thrown_iff {m : Json} :
    Manifest.fromJson m = .error .thrown ↔ ¬ ReadableManifest m := by
  constructor
  · intro h readable
    have found : ∃ files dirs roots, m.isObject = true ∧ m.find "files" = some (.arr files) ∧
        (∀ d, m.find "dirs" = some d → ∃ dirs, d = .arr dirs) ∧ m.find "roots" = some (.arr roots) ∧
        Manifest.fromJson.body files dirs roots = .error .thrown := by
      unfold Manifest.fromJson at h
      split at h
      · cases h
      · rename_i hobject
        rw [Bool.not_eq_true, Bool.not_eq_false'] at hobject
        split at h
        · rename_i dirs roots files hfiles
          split at h
          · rename_i items rs hdirs hroots
            refine ⟨files, items, rs, hobject, hfiles, fun d hd => ?_, hroots, h⟩
            rw [hdirs] at hd
            cases hd
            exact ⟨items, rfl⟩
          · rename_i rs hdirs hroots
            refine ⟨files, [], rs, hobject, hfiles, fun d hd => ?_, hroots, h⟩
            rw [hdirs] at hd
            cases hd
          all_goals cases h
        · cases h
    obtain ⟨files, dirs, roots, hobject, hfiles, hdirs, hroots, hbody⟩ := found
    obtain ⟨hfew, hthrown⟩ := body_thrown_iff.mp hbody
    obtain ⟨before, r, after, heq, hbefore, hname, d, hdir, hd⟩ := readRoots_thrown_iff.mp hthrown
    obtain ⟨b, rfl⟩ := readable files roots before r after hobject hfiles hdirs hroots hfew heq
      hbefore hname d hdir
    exact hd b rfl
  · intro h
    by_contra hnot
    refine h fun files roots before r after hobject hfiles hdirs hroots hfew heq hbefore hname d hdir => ?_
    by_contra hd
    rw [not_exists] at hd
    have hbody : ∀ dirs, Manifest.fromJson.body files dirs roots = .error .thrown := fun dirs =>
      body_thrown_iff.mpr ⟨hfew, readRoots_thrown_iff.mpr
        ⟨before, r, after, heq, hbefore, hname, d, hdir, hd⟩⟩
    apply hnot
    rw [Manifest.fromJson, if_neg (by simp [hobject]), hfiles, hroots]
    cases hd' : m.find "dirs" with
    | none => exact hbody []
    | some e =>
      obtain ⟨dirs, rfl⟩ := hdirs e hd'
      exact hbody dirs

/-! ## Entries of an `accept` -/

section Entries

variable {casts : Casts} {n : Nat} {f : Json} {acc : Accepted}

theorem getUInt32_of_bound (casts : Casts) {j : Json} (h : Bound32 j) : ∃ v, getUInt32 casts j = .ok v := by
  obtain ⟨v, rfl, -⟩ := h
  exact ⟨_, rfl⟩

theorem readHave_of_bounds (casts : Casts) {rs : List Json}
    (h : ∀ a b, .arr [a, b] ∈ rs → Bound32 a ∧ Bound32 b) :
    ∃ runs, readHave casts rs = .ok runs := by
  fun_induction readHave casts rs with
  | case1 => exact ⟨[], rfl⟩
  | case2 a b rest => exact ⟨_, rfl⟩
  | case3 a b rest hbad ih =>
    obtain ⟨ha, hb⟩ := h a b (by simp)
    obtain ⟨start, hstart⟩ := getUInt32_of_bound casts ha
    obtain ⟨length, hlength⟩ := getUInt32_of_bound casts hb
    obtain ⟨runs, hruns⟩ := ih fun a b hmem => h a b (List.mem_cons_of_mem _ hmem)
    exact (hbad start length runs hstart hlength hruns).elim
  | case4 head rest _ ih => exact ih fun a b hmem => h a b (List.mem_cons_of_mem _ hmem)

/-- What is no pair is left out. -/
theorem readHave_of_no_pair (casts : Casts) {rs : List Json} (h : ∀ a b, .arr [a, b] ∉ rs) :
    readHave casts rs = .ok [] := by
  fun_induction readHave casts rs with
  | case1 => rfl
  | case2 a b rest => exact absurd List.mem_cons_self (h a b)
  | case3 a b rest => exact absurd List.mem_cons_self (h a b)
  | case4 head rest _ ih => exact ih fun a b hmem => h a b (List.mem_cons_of_mem _ hmem)

theorem readHave_ne_nil {rs : List Json} {a b : Json} {runs : List SackRun}
    (hmem : .arr [a, b] ∈ rs) (h : readHave casts rs = .ok runs) : runs ≠ [] := by
  fun_induction readHave casts rs with
  | case1 => cases hmem
  | case2 a b rest =>
    cases h
    simp
  | case3 a b rest => cases h
  | case4 head rest hother ih =>
    obtain rfl | hmem := List.mem_cons.mp hmem
    · exact (hother a b rfl).elim
    · exact ih hmem h

theorem valueVerified_eq_true_iff :
    valueVerified f = .ok true ↔ f.find "verified" = some (.bool true) := by
  unfold valueVerified
  cases f.find "verified" with
  | none => simp
  | some b => cases b <;> simp

theorem valueVerified_ok_iff :
    (∃ b, valueVerified f = .ok b) ↔ ∀ b, f.find "verified" = some b → ∃ c, b = .bool c := by
  unfold valueVerified
  cases f.find "verified" with
  | none => simp
  | some b => cases b <;> simp

/-- The index of no file. -/
theorem acceptStep_of_no_file
    (h : ∀ v : UInt64, f.find "index" = some (.unsigned v) → n ≤ v.toNat % 2 ^ 16) :
    acceptStep casts n acc f = .ok acc := by
  unfold acceptStep
  split
  · rename_i v hv
    exact if_pos (by simpa using h v hv)
  · rfl

section File

variable {v : UInt64} (hindex : f.find "index" = some (.unsigned v)) (hfile : v.toNat % 2 ^ 16 < n)
include hindex hfile

theorem acceptStep_verified (h : f.find "verified" = some (.bool true)) :
    acceptStep casts n acc f = .ok (acc.1 ++ [v.toUInt16], acc.2) := by
  rw [acceptStep, hindex]
  dsimp only
  rw [if_neg (by simpa using hfile), valueVerified_eq_true_iff.mpr h]

theorem acceptStep_thrown (h : ¬ ∀ b, f.find "verified" = some b → ∃ c, b = .bool c) :
    acceptStep casts n acc f = .error .typeError := by
  rw [← valueVerified_ok_iff] at h
  rw [acceptStep, hindex]
  dsimp only
  rw [if_neg (by simpa using hfile)]
  cases hvalue : valueVerified f with
  | error e => rfl
  | ok b => exact absurd ⟨b, hvalue⟩ h

theorem acceptStep_runs {rs : List Json} (hvalue : valueVerified f = .ok false)
    (hhave : f.find "have" = some (.arr rs)) :
    acceptStep casts n acc f = (readHave casts rs).map fun runs =>
      if runs.isEmpty then acc else (acc.1, (v.toUInt16, runs) :: acc.2) := by
  rw [acceptStep, hindex]
  dsimp only
  rw [if_neg (by simpa using hfile), hvalue, hhave]
  dsimp only
  cases readHave casts rs <;> rfl

theorem acceptStep_of_no_runs (hvalue : valueVerified f = .ok false)
    (hhave : ∀ rs, f.find "have" ≠ some (.arr rs)) : acceptStep casts n acc f = .ok acc := by
  rw [acceptStep, hindex]
  dsimp only
  rw [if_neg (by simpa using hfile), hvalue]
  dsimp only
  split
  · rename_i rs hrs
    exact absurd hrs (hhave rs)
  · rfl

end File

/-- No exception escapes, and a malformed entry says nothing of a file. -/
def HarmlessEntry (casts : Casts) (n : Nat) (f : Json) : Prop :=
  (∀ acc, acceptStep casts n acc f ≠ .error .typeError) ∧ (¬ WellFormedEntry n f → Passed casts n f)

theorem Passed.harmless (h : Passed casts n f) : HarmlessEntry casts n f :=
  ⟨fun acc => by simp [h acc], fun _ => h⟩

theorem harmlessEntry_wellFormed (h : HarmlessEntry casts n f) (hread : ¬ Passed casts n f) :
    WellFormedEntry n f := by
  by_contra hmal
  exact hread (h.2 hmal)

section File

variable {v : UInt64} (hindex : f.find "index" = some (.unsigned v)) (hfile : v.toNat % 2 ^ 16 < n)
include hindex

theorem index_unique {w : UInt64} (h : f.find "index" = some (.unsigned w)) : w = v := by
  rw [hindex] at h
  cases h
  rfl

include hfile

theorem indexBelow_iff : IndexBelow n f ↔ v.toNat < 2 ^ 16 := by
  constructor
  · rintro ⟨w, hw, hsmall, -⟩
    exact index_unique hindex hw ▸ hsmall
  · intro hsmall
    exact ⟨v, hindex, hsmall, by rwa [Nat.mod_eq_of_lt hsmall] at hfile⟩

/-- The file is marked as verified, so the entry has to be well formed. -/
theorem readableEntry_verified (htrue : f.find "verified" = some (.bool true)) :
    ReadableEntry n f ↔ HarmlessEntry casts n f := by
  have htyped : ∀ b, f.find "verified" = some b → ∃ c, b = .bool c := by simp [htrue]
  have hstep : ∀ acc, acceptStep casts n acc f = .ok (acc.1 ++ [v.toUInt16], acc.2) :=
    fun acc => acceptStep_verified hindex hfile htrue
  constructor
  · intro readable
    have wellFormed : WellFormedEntry n f :=
      ⟨(indexBelow_iff hindex hfile).mpr (readable.verified v hindex hfile htrue), htyped,
        fun hfalse => absurd htrue hfalse⟩
    exact ⟨fun acc => by simp [hstep], fun hmal => absurd wellFormed hmal⟩
  · intro harmless
    have wellFormed := harmlessEntry_wellFormed harmless fun hpassed => by
      simpa [hstep] using hpassed ([], [])
    have hsmall := (indexBelow_iff hindex hfile).mp wellFormed.index
    exact ⟨fun _ _ _ => htyped, fun w hw _ _ => index_unique hindex hw ▸ hsmall,
      fun _ _ _ hfalse => absurd htrue hfalse⟩

/-- There is a run, which is read. -/
theorem readableEntry_runs {rs : List Json} {a b : Json} (hvalue : valueVerified f = .ok false)
    (hhave : f.find "have" = some (.arr rs)) (hmem : .arr [a, b] ∈ rs) :
    ReadableEntry n f ↔ HarmlessEntry casts n f := by
  have htyped := valueVerified_ok_iff.mp ⟨_, hvalue⟩
  have htrue : f.find "verified" ≠ some (.bool true) := by
    rw [ne_eq, ← valueVerified_eq_true_iff, hvalue]
    simp
  have hstep : ∀ acc, acceptStep casts n acc f = (readHave casts rs).map fun runs =>
      if runs.isEmpty then acc else (acc.1, (v.toUInt16, runs) :: acc.2) :=
    fun acc => acceptStep_runs hindex hfile hvalue hhave
  constructor
  · intro readable
    have bounds := readable.runs v hindex hfile htrue rs hhave
    have wellFormed : WellFormedEntry n f := by
      refine ⟨(indexBelow_iff hindex hfile).mpr (bounds a b hmem).1, htyped, fun _ h hh => ?_⟩
      rw [hhave] at hh
      exact ⟨rs, (Option.some.inj hh).symm, fun a b hmem => (bounds a b hmem).2⟩
    obtain ⟨runs, hruns⟩ := readHave_of_bounds casts fun a b hmem => (bounds a b hmem).2
    exact ⟨fun acc => by simp [hstep, hruns, Except.map], fun hmal => absurd wellFormed hmal⟩
  · intro harmless
    have wellFormed := harmlessEntry_wellFormed harmless fun hpassed => by
      have hsame := hpassed ([], [])
      rw [hstep] at hsame
      cases hruns : readHave casts rs with
      | error e => simp [hruns, Except.map] at hsame
      | ok runs => simp [hruns, Except.map, readHave_ne_nil hmem hruns] at hsame
    have hsmall := (indexBelow_iff hindex hfile).mp wellFormed.index
    refine ⟨fun _ _ _ => htyped, fun w hw _ _ => index_unique hindex hw ▸ hsmall, ?_⟩
    intro w hw _ _ rs' hrs' a' b' hmem'
    obtain ⟨rs'', heq, hbounds⟩ := wellFormed.bounds htrue _ hrs'
    cases heq
    exact ⟨index_unique hindex hw ▸ hsmall, hbounds a' b' hmem'⟩

theorem passed_of_no_pair (hvalue : valueVerified f = .ok false)
    (hnone : ∀ rs a b, f.find "have" = some (.arr rs) → .arr [a, b] ∉ rs) : Passed casts n f := by
  intro acc
  by_cases harr : ∃ rs, f.find "have" = some (.arr rs)
  · obtain ⟨rs, hrs⟩ := harr
    have hnil := readHave_of_no_pair casts fun a b => hnone rs a b hrs
    simp [acceptStep_runs hindex hfile hvalue hrs, hnil, Except.map]
  · exact acceptStep_of_no_runs hindex hfile hvalue (not_exists.mp harr)

end File

theorem readableEntry_iff : ReadableEntry n f ↔ HarmlessEntry casts n f := by
  by_cases hno : ∀ v : UInt64, f.find "index" = some (.unsigned v) → n ≤ v.toNat % 2 ^ 16
  · have hpassed : Passed casts n f := fun acc => acceptStep_of_no_file hno
    refine iff_of_true ?_ hpassed.harmless
    exact ⟨fun v hv hlt => absurd (hno v hv) (Nat.not_le.mpr hlt),
      fun v hv hlt => absurd (hno v hv) (Nat.not_le.mpr hlt),
      fun v hv hlt => absurd (hno v hv) (Nat.not_le.mpr hlt)⟩
  · simp only [not_forall, not_le] at hno
    obtain ⟨v, hindex, hfile⟩ := hno
    by_cases htyped : ∀ b, f.find "verified" = some b → ∃ c, b = .bool c
    · obtain ⟨verified, hvalue⟩ := valueVerified_ok_iff.mpr htyped
      cases verified with
      | true => exact readableEntry_verified hindex hfile (valueVerified_eq_true_iff.mp hvalue)
      | false =>
        by_cases hhave : ∃ rs a b, f.find "have" = some (.arr rs) ∧ .arr [a, b] ∈ rs
        · obtain ⟨rs, a, b, hhave, hmem⟩ := hhave
          exact readableEntry_runs hindex hfile hvalue hhave hmem
        · have hnone : ∀ rs a b, f.find "have" = some (.arr rs) → .arr [a, b] ∉ rs :=
            fun rs a b hrs hmem => hhave ⟨rs, a, b, hrs, hmem⟩
          refine iff_of_true ⟨fun _ _ _ => htyped, fun _ _ _ htrue => ?_, ?_⟩
            (passed_of_no_pair hindex hfile hvalue hnone).harmless
          · rw [valueVerified_eq_true_iff.mpr htrue] at hvalue
            cases hvalue
          · exact fun _ _ _ _ rs hrs a b hmem => absurd hmem (hnone rs a b hrs)
    · refine iff_of_false (fun readable => htyped (readable.flag v hindex hfile)) ?_
      exact fun harmless => harmless.1 ([], []) (acceptStep_thrown hindex hfile htyped)

/-- Whether an entry throws does not depend on the entries before it. -/
theorem acceptStep_eq : acceptStep casts n acc f =
    (acceptStep casts n ([], []) f).map fun e => (acc.1 ++ e.1, e.2 ++ acc.2) := by
  have hnil : (acc.1 ++ ([] : List UInt16), ([] : List (UInt16 × List SackRun)) ++ acc.2) = acc := by
    rw [List.append_nil, List.nil_append]
  unfold acceptStep
  split
  · dsimp only
    split
    · rw [Except.map, hnil]
    · split
      · rfl
      · rfl
      · split
        · split
          · rfl
          · split
            · rw [Except.map, hnil]
            · rw [Except.map, List.append_nil]
              rfl
        · rw [Except.map, hnil]
  · rw [Except.map, hnil]

theorem foldlM_acceptStep_iff {files : List Json} :
    files.foldlM (acceptStep casts n) acc ≠ .error .typeError ↔
      ∀ f ∈ files, ∀ acc, acceptStep casts n acc f ≠ .error .typeError := by
  induction files generalizing acc with
  | nil => simp [pure, Except.pure]
  | cons f rest ih =>
    rw [List.foldlM_cons, List.forall_mem_cons]
    cases hstep : acceptStep casts n acc f with
    | error e =>
      refine iff_of_false (fun h => h rfl) fun h => h.1 acc hstep
    | ok acc' =>
      have hthis : ∀ acc'', acceptStep casts n acc'' f ≠ .error .typeError := by
        intro acc''
        rw [acceptStep_eq] at hstep ⊢
        cases hfirst : acceptStep casts n ([], []) f with
        | error e => simp [hfirst, Except.map] at hstep
        | ok e => simp [Except.map]
      exact ih.trans ⟨fun h => ⟨hthis, h⟩, fun h => h.2⟩

end Entries

/-! ## Each type of message -/

section Messages

variable {casts : Casts} {sha : Bytes → Bytes} {io : OfferIo} {s : TransferSession} {j : Json}
  {fs : Fs}

/-- A document that causes no exception, and changes nothing of a file if it is malformed. -/
structure HarmlessDoc (sha : Bytes → Bytes) (casts : Casts) (io : OfferIo) (s : TransferSession)
    (t : CtrlType) (j : Json) (fs : Fs) : Prop where
  caught : s.onCtrlDoc sha casts io t j fs ≠ .error .typeError
  files : ∀ (s' : TransferSession) (fs' : Fs) (out : List SessionEvent),
    s.onCtrlDoc sha casts io t j fs = .ok (some (s', fs', out)) →
    ¬ WellFormedDoc (filesOf s) t j → ∀ i < filesOf s, fileView s' i = fileView s i
  entries : ∀ (files : List Json) (f : Json), t = .accept →
    s.isSender = true → s.acceptReceived = false → j.find "files" = some (.arr files) → f ∈ files →
    ¬ WellFormedEntry (filesOf s) f → Passed casts (filesOf s) f

/-- A type whose handler reads nothing of a file. -/
theorem harmlessDoc_iff_of_wellFormed {t : CtrlType} (hfiles : WellFormedDoc (filesOf s) t j)
    (haccept : t ≠ .accept) :
    HarmlessDoc sha casts io s t j fs ↔ s.onCtrlDoc sha casts io t j fs ≠ .error .typeError :=
  ⟨fun h => h.caught, fun h => ⟨h, fun _ _ _ _ hmal => absurd hfiles hmal,
    fun _ _ ht => absurd ht haccept⟩⟩

theorem harmless_offer :
    HarmlessDoc sha casts io s .offer j fs ↔ Readable casts s .offer j := by
  rw [harmlessDoc_iff_of_wellFormed (t := .offer) trivial (by simp), onCtrlDoc, handleOfferDoc]
  constructor
  · intro h hrole hidle m hm
    rw [if_neg (by simp [hrole, hidle]), hm] at h
    dsimp only at h
    by_contra hbad
    rw [fromJson_thrown_iff.mpr hbad] at h
    exact h rfl
  · intro readable
    split
    · simp
    · rename_i hidle
      simp only [Bool.or_eq_true, not_or, Bool.not_eq_true, Option.isSome_eq_false_iff,
        Option.isNone_iff_eq_none] at hidle
      split
      · simp
      · rename_i m hm
        split
        · rename_i hthrown
          exact absurd (readable hidle.1 hidle.2 m hm) (fromJson_thrown_iff.mp hthrown)
        · simp

theorem harmless_error :
    HarmlessDoc sha casts io s .error j fs ↔ Readable casts s .error j := by
  rw [harmlessDoc_iff_of_wellFormed (t := .error) trivial (by simp), onCtrlDoc, Readable, valueCode]
  cases j.find "code" with
  | none => simp
  | some code => cases code <;> simp [getString]

theorem map_ne_thrown {α β : Type*} {g : α → β} {x : Except JsonError α} :
    x.map g ≠ .error .typeError ↔ x ≠ .error .typeError := by
  cases x <;> simp [Except.map]

theorem harmless_accept :
    HarmlessDoc sha casts io s .accept j fs ↔ Readable casts s .accept j := by
  have hcaught : s.onCtrlDoc sha casts io .accept j fs ≠ .error .typeError ↔
      (s.isSender = true → s.acceptReceived = false → ∀ files, j.find "files" = some (.arr files) →
        ∀ f ∈ files, ∀ acc, acceptStep casts (filesOf s) acc f ≠ .error .typeError) := by
    rw [onCtrlDoc, map_ne_thrown, handleAcceptDoc]
    split
    · rename_i hlate
      refine iff_of_true (by simp) fun hrole hnew => ?_
      rw [hrole, hnew] at hlate
      cases hlate
    · rename_i hfirst
      have hrole : s.isSender = true ∧ s.acceptReceived = false := by simpa using hfirst
      simp only [hrole, forall_const]
      split
      · rename_i files hfiles
        rw [map_ne_thrown, foldlM_acceptStep_iff]
        refine ⟨fun h files' hfiles' => ?_, fun h => h files hfiles⟩
        rw [hfiles] at hfiles'
        cases hfiles'
        exact h
      · rename_i hfiles
        exact iff_of_true (by simp) fun files hfiles' => absurd hfiles' (hfiles files)
  constructor
  · intro h hrole hnew files hfiles f hf
    exact readableEntry_iff.mpr ⟨hcaught.mp h.caught hrole hnew files hfiles f hf,
      h.entries files f rfl hrole hnew hfiles hf⟩
  · intro readable
    have harmless : s.isSender = true → s.acceptReceived = false → ∀ files,
        j.find "files" = some (.arr files) → ∀ f ∈ files, HarmlessEntry casts (filesOf s) f :=
      fun hrole hnew files hfiles f hf =>
        readableEntry_iff.mp (readable hrole hnew files hfiles f hf)
    exact ⟨hcaught.mpr fun hrole hnew files hfiles f hf => (harmless hrole hnew files hfiles f hf).1,
      fun _ _ _ _ hmal => absurd trivial hmal,
      fun files f _ hrole hnew hfiles hf => (harmless hrole hnew files hfiles f hf).2⟩

theorem tx_onFileOk_of_ne {t : Sender} {k : UInt16} {i : Nat} (h : i ≠ k.toNat) :
    (t.onFileOk k).tx[i]? = t.tx[i]? := by
  unfold Sender.onFileOk
  split
  · rfl
  · split
    · rfl
    · exact List.getElem?_set_ne h.symm

theorem tx_onFileBad_of_ne {t : Sender} {k : UInt16} {i : Nat} (h : i ≠ k.toNat) :
    (t.onFileBad k).tx[i]? = t.tx[i]? := by
  unfold Sender.onFileBad
  split
  · rfl
  · split
    · rfl
    · exact List.getElem?_set_ne h.symm

theorem fileView_handleFileAck_of_ne {k : UInt16} {ok : Bool} {i : Nat} (h : i ≠ k.toNat) :
    fileView (s.handleFileAck k ok) i = fileView s i := by
  obtain ⟨heq, -⟩ | ⟨t, ht, ⟨-, heq⟩ | ⟨-, heq⟩⟩ := handleFileAck_cases s k ok
  · rw [heq]
  · rw [heq]
    simp [fileView, ht, tx_onFileOk_of_ne h, List.getElem?_set_ne h.symm]
  · rw [heq]
    simp [fileView, ht, tx_onFileBad_of_ne h]

section Ack

variable {t : Sender} {k : UInt16} (hrole : s.isSender = true) (hengine : s.sender = some t)
include hrole hengine

theorem fileView_ok_iff : fileView (s.handleFileAck k true) k.toNat = fileView s k.toNat ↔
    s.senderFileOk[k.toNat]? ≠ some false := by
  rw [handleFileAck, if_neg (by simp [hrole]), hengine]
  dsimp only
  cases hknown : s.senderFileOk[k.toNat]? with
  | none => simp
  | some known =>
    cases known with
    | true => simp
    | false =>
      obtain ⟨hlt, hfalse⟩ := List.getElem?_eq_some_iff.mp hknown
      refine iff_of_false (fun hview => ?_) (by simp)
      have hacked := congrArg FileView.acked hview
      simp [fileView, hlt, hfalse] at hacked

theorem fileView_bad_iff : fileView (s.handleFileAck k false) k.toNat = fileView s k.toNat ↔
    (s.senderFileOk[k.toNat]? ≠ none →
      ∀ f, t.tx[k.toNat]? = some f → f.ok = true ∨ Fresh f) := by
  rw [handleFileAck, if_neg (by simp [hrole]), hengine]
  dsimp only
  cases hknown : s.senderFileOk[k.toNat]? with
  | none => simp
  | some known =>
    have hview : fileView { s with sender := some (t.onFileBad k) } k.toNat = fileView s k.toNat ↔
        (t.onFileBad k).tx[k.toNat]? = t.tx[k.toNat]? := by
      simp [fileView, hengine]
    refine hview.trans ?_
    rw [Sender.onFileBad]
    cases hf : t.tx[k.toNat]? with
    | none => simp [hf]
    | some f =>
      have hlt := (List.getElem?_eq_some_iff.mp hf).1
      dsimp only
      split
      · rename_i hok
        simp [hf, hok]
      · rename_i hok
        rw [List.getElem?_set_self hlt, Option.some.injEq]
        constructor
        · intro hsame _ g hg
          cases hg
          exact .inr ⟨(congrArg FileTx.skip hsame).symm, (congrArg FileTx.ackedBytes hsame).symm,
            (congrArg FileTx.sack hsame).symm, (congrArg FileTx.sackSeq hsame).symm⟩
        · intro h
          obtain hok' | fresh := h (by simp) f rfl
          · exact absurd hok' hok
          · rw [← fresh.skip, ← fresh.ackedBytes, ← fresh.sack, ← fresh.sackSeq]

end Ack

theorem toNat_toUInt16 (v : UInt64) : v.toUInt16.toNat = v.toNat % 2 ^ 16 := by simp

/-- A `file_ok` or `file_bad` does harm only by an index that is reduced to that of a file. -/
theorem handleFileAckDoc_iff (s : TransferSession) (j : Json) (ok : Bool) :
    (¬ IndexBelow (filesOf s) j →
      ∀ i < filesOf s, fileView (s.handleFileAckDoc j ok) i = fileView s i) ↔
    (s.isSender = true → s.sender ≠ none → ∀ v : UInt64, j.find "index" = some (.unsigned v) →
      2 ^ 16 ≤ v.toNat → v.toNat % 2 ^ 16 < filesOf s →
      fileView (s.handleFileAck v.toUInt16 ok) v.toUInt16.toNat = fileView s v.toUInt16.toNat) := by
  by_cases hidle : (!s.isSender || s.sender.isNone) = true
  · have hsame : s.handleFileAckDoc j ok = s := by rw [handleFileAckDoc, if_pos hidle]
    refine iff_of_true (fun _ i _ => by rw [hsame]) fun hrole hengine => ?_
    simp [hrole, hengine] at hidle
  · simp only [Bool.or_eq_true, Bool.not_eq_true', not_or, Bool.not_eq_false,
      Option.isNone_iff_eq_none] at hidle
    by_cases hindex : ∃ v : UInt64, j.find "index" = some (.unsigned v)
    · obtain ⟨v, hv⟩ := hindex
      have hdoc : s.handleFileAckDoc j ok = s.handleFileAck v.toUInt16 ok := by
        rw [handleFileAckDoc, if_neg (by simp [hidle]), hv]
      rw [hdoc]
      constructor
      · intro h _ _ w hw hlarge hfile
        cases index_unique hv hw
        refine h ?_ _ (toNat_toUInt16 v ▸ hfile)
        rintro ⟨w', hw', hsmall, -⟩
        cases index_unique hv hw'
        omega
      · intro h hmal i hi
        by_cases hhit : i = v.toUInt16.toNat
        · -- The file the ack is applied to is named by a large index.
          subst hhit
          rw [toNat_toUInt16] at hi
          refine h hidle.1 hidle.2 v hv ?_ hi
          by_contra hsmall
          rw [Nat.not_le] at hsmall
          exact hmal ⟨v, hv, hsmall, by rwa [Nat.mod_eq_of_lt hsmall] at hi⟩
        · exact fileView_handleFileAck_of_ne hhit
    · have hsame : s.handleFileAckDoc j ok = s := by
        rw [handleFileAckDoc, if_neg (by simp [hidle])]
        split
        · rename_i v hv
          exact absurd ⟨v, hv⟩ hindex
        · rfl
      exact iff_of_true (fun _ i _ => by rw [hsame]) fun _ _ v hv => absurd ⟨v, hv⟩ hindex

theorem harmless_fileOk :
    HarmlessDoc sha casts io s .fileOk j fs ↔ Readable casts s .fileOk j := by
  have hack := handleFileAckDoc_iff s j true
  constructor
  · intro h hrole hengine v hv hlarge hfile
    obtain ⟨t, ht⟩ := Option.ne_none_iff_exists'.mp hengine
    rw [← toNat_toUInt16, ← fileView_ok_iff hrole ht]
    exact hack.mp (h.files _ _ _ rfl) hrole hengine v hv hlarge hfile
  · intro readable
    refine ⟨by simp [onCtrlDoc], fun s' fs' out hdoc => ?_, by simp⟩
    cases hdoc
    refine hack.mpr fun hrole hengine v hv hlarge hfile => ?_
    obtain ⟨t, ht⟩ := Option.ne_none_iff_exists'.mp hengine
    rw [fileView_ok_iff hrole ht, toNat_toUInt16]
    exact readable hrole hengine v hv hlarge hfile

theorem harmless_fileBad :
    HarmlessDoc sha casts io s .fileBad j fs ↔ Readable casts s .fileBad j := by
  have hack := handleFileAckDoc_iff s j false
  constructor
  · intro h hrole t ht v hv hlarge hfile
    have hview := hack.mp (h.files _ _ _ rfl) hrole (by simp [ht]) v hv hlarge hfile
    rw [fileView_bad_iff hrole ht, toNat_toUInt16] at hview
    exact hview
  · intro readable
    refine ⟨by simp [onCtrlDoc], fun s' fs' out hdoc => ?_, by simp⟩
    cases hdoc
    refine hack.mpr fun hrole hengine v hv hlarge hfile => ?_
    obtain ⟨t, ht⟩ := Option.ne_none_iff_exists'.mp hengine
    rw [fileView_bad_iff hrole ht, toNat_toUInt16]
    exact readable hrole t ht v hv hlarge hfile

theorem lookup_insertDone {k : UInt16} {hash : Bytes} (l : List (UInt16 × Bytes)) (i : UInt16) :
    (Receiver.insertDone k hash l).lookup i = if i = k then some hash else l.lookup i := by
  have first : ∀ rest : List (UInt16 × Bytes),
      ((k, hash) :: rest).lookup i = if i = k then some hash else rest.lookup i := by
    intro rest
    rw [List.lookup_cons]
    obtain rfl | hik := eq_or_ne i k
    · simp
    · simp [beq_false_of_ne hik, hik]
  induction l with
  | nil => exact first []
  | cons e rest ih =>
    obtain ⟨k', hash'⟩ := e
    rw [Receiver.insertDone]
    split
    · exact first _
    · split
      · rename_i heq
        subst heq
        rw [first, List.lookup_cons]
        obtain rfl | hik := eq_or_ne i k
        · simp
        · simp [beq_false_of_ne hik, hik]
      · rename_i hne
        rw [List.lookup_cons, List.lookup_cons, ih]
        obtain rfl | hik := eq_or_ne i k'
        · simp [Ne.symm hne]
        · simp [beq_false_of_ne hik]

theorem fileView_onFileDone {t : Receiver} (hengine : s.receiver = some t) (k : UInt16) (hash : Bytes)
    (i : Nat) : fileView { s with receiver := s.receiver.map (·.onFileDone k hash) } i =
      { fileView s i with
        hash := if UInt16.ofNat i = k then some hash else t.pendingDone.lookup (UInt16.ofNat i) } := by
  simp only [fileView, hengine, Option.map_some, Option.bind_some, Receiver.onFileDone,
    lookup_insertDone]

theorem handleFileDoneDoc_of_read {index : Json} {k : UInt16} {hash : Bytes}
    (hrole : s.isSender = false) (hengine : s.receiver ≠ none) (hindex : j.find "index" = some index)
    (hsha : j.find "sha256" = some (.str hash)) (hk : getUInt16 casts index = .ok k) :
    s.handleFileDoneDoc casts j =
      .ok { s with receiver := s.receiver.map (·.onFileDone k hash) } := by
  rw [handleFileDoneDoc, if_neg (by simp [hrole, hengine]), hindex, hsha]
  dsimp only
  rw [hk]
  rfl

/-- Both fields are read, or one of them throws. -/
theorem handleFileDoneDoc_cases (casts : Casts) {index sha256 : Json} (hrole : s.isSender = false)
    (hengine : s.receiver ≠ none) (hindex : j.find "index" = some index)
    (hsha : j.find "sha256" = some sha256) :
    (∃ k hash, getUInt16 casts index = .ok k ∧ sha256 = .str hash) ∨
    s.handleFileDoneDoc casts j = .error .typeError := by
  rw [handleFileDoneDoc, if_neg (by simp [hrole, hengine]), hindex, hsha]
  dsimp only
  cases hk : getUInt16 casts index with
  | error e => exact .inr rfl
  | ok k =>
    cases sha256 with
    | str hash => exact .inl ⟨k, hash, rfl, rfl⟩
    | _ => exact .inr rfl

theorem handleFileDoneDoc_of_idle (casts : Casts)
    (h : ∀ index sha256, s.isSender = false → s.receiver ≠ none → j.find "index" = some index →
      j.find "sha256" ≠ some sha256) : s.handleFileDoneDoc casts j = .ok s := by
  unfold handleFileDoneDoc
  split
  · rfl
  · rename_i hidle
    simp only [Bool.or_eq_true, not_or, Bool.not_eq_true, Option.isNone_eq_false_iff,
      Option.isSome_iff_ne_none] at hidle
    split
    · rename_i index sha256 hindex hsha
      exact absurd hsha (h index sha256 hidle.1 hidle.2 hindex)
    · rfl

theorem ofNat_ne_of_lt {i : Nat} {k : UInt16} (h : i < k.toNat) : UInt16.ofNat i ≠ k := by
  rintro rfl
  rw [UInt16.toNat_ofNat'] at h
  exact absurd h (Nat.not_lt.mpr (Nat.mod_le _ _))

theorem harmless_fileDone :
    HarmlessDoc sha casts io s .fileDone j fs ↔ Readable casts s .fileDone j := by
  constructor
  · intro h hrole t ht index sha256 hindex hsha
    have hengine : s.receiver ≠ none := by simp [ht]
    have hcaught := h.caught
    rw [onCtrlDoc, map_ne_thrown] at hcaught
    obtain ⟨k, hash, hk, rfl⟩ | hthrown := handleFileDoneDoc_cases casts hrole hengine hindex hsha
    · have hdoc := handleFileDoneDoc_of_read hrole hengine hindex hsha hk
      refine ⟨k, hash, hk, rfl, ?_⟩
      by_cases hmal : IndexBelow (filesOf s) j
      · obtain ⟨v, hv, hsmall, -⟩ := hmal
        rw [hindex] at hv
        exact .inl ⟨v, Option.some.inj hv, hsmall⟩
      · right
        by_cases hfile : filesOf s ≤ k.toNat
        · exact .inl hfile
        · right
          -- The hash of this file is not to change.
          have hview := h.files _ fs [] (by rw [onCtrlDoc, hdoc]; rfl) (fun hwell => hmal hwell.1) k.toNat
            (Nat.not_le.mp hfile)
          rw [fileView_onFileDone ht, UInt16.ofNat_toNat, if_pos rfl] at hview
          have hhash := congrArg FileView.hash hview
          simp only [fileView, ht, Option.bind_some, UInt16.ofNat_toNat] at hhash
          exact hhash.symm
    · exact absurd hthrown hcaught
  · intro readable
    by_cases hread : ∃ index sha256, s.isSender = false ∧ s.receiver ≠ none ∧
        j.find "index" = some index ∧ j.find "sha256" = some sha256
    · obtain ⟨index, sha256, hrole, hengine, hindex, hsha⟩ := hread
      obtain ⟨t, ht⟩ := Option.ne_none_iff_exists'.mp hengine
      obtain ⟨k, hash, hk, rfl, hcase⟩ := readable hrole t ht index sha256 hindex hsha
      have hdoc := handleFileDoneDoc_of_read hrole hengine hindex hsha hk
      refine ⟨by simp [onCtrlDoc, hdoc, Except.map], fun s' fs' out hstep hmal i hi => ?_, by simp⟩
      rw [onCtrlDoc, hdoc] at hstep
      cases hstep
      rw [fileView_onFileDone ht]
      have hsame : (if UInt16.ofNat i = k then some hash
          else t.pendingDone.lookup (UInt16.ofNat i)) = t.pendingDone.lookup (UInt16.ofNat i) := by
        split
        · rename_i hik
          obtain ⟨v, rfl, hsmall⟩ | hother | hknown := hcase
          · -- The index is that of no file.
            have hlarge : filesOf s ≤ v.toNat := by
              by_contra hbelow
              exact hmal ⟨⟨v, hindex, hsmall, Nat.not_le.mp hbelow⟩, hash, hsha⟩
            cases hk
            refine absurd hik (ofNat_ne_of_lt ?_)
            rw [toNat_toUInt16, Nat.mod_eq_of_lt hsmall]
            exact hi.trans_le hlarge
          · exact absurd hik (ofNat_ne_of_lt (hi.trans_le hother))
          · rw [hik, hknown]
        · rfl
      rw [hsame]
      simp [fileView, ht]
    · have hidle := handleFileDoneDoc_of_idle (s := s) (j := j) casts
        fun index sha256 hrole hengine hindex hsha =>
          hread ⟨index, sha256, hrole, hengine, hindex, hsha⟩
      refine ⟨by simp [onCtrlDoc, hidle, Except.map], fun s' fs' out hstep _ i _ => ?_, by simp⟩
      rw [onCtrlDoc, hidle] at hstep
      cases hstep
      rfl

/-- A document is harmless exactly if it is readable. -/
theorem harmlessDoc_iff {t : CtrlType} :
    HarmlessDoc sha casts io s t j fs ↔ Readable casts s t j := by
  have plain : ∀ {u : CtrlType}, WellFormedDoc (filesOf s) u j → u ≠ .accept → Readable casts s u j →
      s.onCtrlDoc sha casts io u j fs ≠ .error .typeError →
      (HarmlessDoc sha casts io s u j fs ↔ Readable casts s u j) :=
    fun hwell hne readable hcaught =>
      iff_of_true ((harmlessDoc_iff_of_wellFormed hwell hne).mpr hcaught) readable
  cases t with
  | offer => exact harmless_offer
  | accept => exact harmless_accept
  | fileDone => exact harmless_fileDone
  | fileOk => exact harmless_fileOk
  | fileBad => exact harmless_fileBad
  | error => exact harmless_error
  | transferDone => exact plain trivial (by simp) trivial (by simp [onCtrlDoc])
  | pause => exact plain trivial (by simp) trivial (by simp [onCtrlDoc])
  | resume => exact plain trivial (by simp) trivial (by simp [onCtrlDoc])
  | cancel => exact plain trivial (by simp) trivial (by simp [onCtrlDoc])

end Messages

end CrossTransfer.Share
