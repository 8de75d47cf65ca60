import CrossTransfer.Transfer.ReceivePaths

/-! # On-disk names of the roots

`TransferSession::ChooseNames` (`core/src/share/transfer_session.cpp`) over
`paths::UniqueName`. The names of a resume record are kept; every other root gets the name
`UniqueName` finds in the save directory, which looks at the directory only.

* `headOf_chooseNames` — the name each root gets.
* `chooseNames_injective_iff` — when the chosen names are distinct.
-/

namespace CrossTransfer.Share

open CrossTransfer.Transfer
open CrossTransfer.Transfer.Paths

/-- One root of the loop of `ChooseNames`. -/
def chooseName (exist : Name → Bool) (rd : Name → Nat) (names : Names) (r : ManifestRoot) :
    Names :=
  if (names.lookup r.name).isSome then names
  else names ++ [(r.name, uniqueName exist (rd r.name) r.name r.isDir)]

/-- `ChooseNames`: `reused` are the names of the resume record (none without one), `exist`
    says which names the save directory has, and `rd root` is the random number drawn for a
    root whose numbered names are all taken. -/
def chooseNames (reused : Names) (exist : Name → Bool) (rd : Name → Nat)
    (roots : List ManifestRoot) : Names :=
  roots.foldl (chooseName exist rd) reused

/-! ## The name of one root -/

theorem lookup_append {names extra : Names} (n : Name) :
    (names ++ extra).lookup n = (names.lookup n).or (extra.lookup n) := by
  induction names with
  | nil => simp
  | cons e rest ih =>
    obtain ⟨k, v⟩ := e
    cases h : n == k with
    | true => simp [List.lookup_cons, h]
    | false => simpa [List.lookup_cons, h] using ih

section

variable {exist : Name → Bool} {rd : Name → Nat}

theorem lookup_chooseName (names : Names) (r : ManifestRoot) (n : Name) :
    (chooseName exist rd names r).lookup n =
      (names.lookup n).or
        (if r.name = n then some (uniqueName exist (rd r.name) r.name r.isDir) else none) := by
  unfold chooseName
  split
  · rename_i known
    obtain ⟨v, hv⟩ := Option.isSome_iff_exists.mp known
    split
    · subst n
      simp [hv]
    · simp
  · rw [lookup_append]
    split
    · subst n
      simp
    · rename_i hne
      have : (n == r.name) = false := by simpa using Ne.symm hne
      simp [List.lookup_cons, this]

/-- Roots that are not listed keep what `reused` says of them. -/
theorem lookup_chooseNames_other (reused : Names) {roots : List ManifestRoot} {n : Name}
    (hn : n ∉ roots.map (·.name)) :
    (chooseNames reused exist rd roots).lookup n = reused.lookup n := by
  induction roots generalizing reused with
  | nil => rfl
  | cons r rest ih =>
    simp only [List.map_cons, List.mem_cons, not_or] at hn
    rw [chooseNames, List.foldl_cons, ← chooseNames, ih _ hn.2, lookup_chooseName,
      if_neg (Ne.symm hn.1), Option.or_none]

theorem lookup_chooseNames (reused : Names) {roots : List ManifestRoot}
    (nodup : (roots.map (·.name)).Nodup) {r : ManifestRoot} (hr : r ∈ roots) :
    (chooseNames reused exist rd roots).lookup r.name =
      some ((reused.lookup r.name).getD (uniqueName exist (rd r.name) r.name r.isDir)) := by
  induction roots generalizing reused with
  | nil => cases hr
  | cons s rest ih =>
    rw [List.map_cons, List.nodup_cons] at nodup
    rw [chooseNames, List.foldl_cons, ← chooseNames]
    obtain rfl | hr := List.mem_cons.mp hr
    · rw [lookup_chooseNames_other _ nodup.1, lookup_chooseName, if_pos rfl]
      cases reused.lookup r.name <;> rfl
    · have hne : s.name ≠ r.name := by
        intro h
        exact nodup.1 (h ▸ List.mem_map_of_mem hr)
      rw [ih _ nodup.2 hr, lookup_chooseName, if_neg hne, Option.or_none]

end

/-! ## Names over several runs -/

/-- The names of a receive of `m`: chosen against a directory (`exist`, `rd`) by its first run,
    then carried from record to record by the runs that resume it, whatever the directory
    holds at that time. -/
inductive Chosen (m : Manifest) (exist : Name → Bool) (rd : Name → Nat) : Names → Prop where
  | fresh : Chosen m exist rd (chooseNames [] exist rd m.roots)
  | resumed {names : Names} (now : Name → Bool) (draw : Name → Nat)
      (earlier : Chosen m exist rd names) : Chosen m exist rd (chooseNames names now draw m.roots)

theorem Chosen.lookup {m : Manifest} {exist : Name → Bool} {rd : Name → Nat} {names : Names}
    (chosen : Chosen m exist rd names) (wf : m.WellFormed) {r : ManifestRoot} (hr : r ∈ m.roots) :
    names.lookup r.name = some (uniqueName exist (rd r.name) r.name r.isDir) := by
  induction chosen with
  | fresh => rw [lookup_chooseNames [] wf.roots.nodup hr]; rfl
  | resumed now draw earlier ih => rw [lookup_chooseNames _ wf.roots.nodup hr, ih]; rfl

/-! ## Clashes -/

/-- `name` is taken and `n` is the number `UniqueName` puts behind it: the first of
    `1, …, 10000` with a free name, or the random one when there is none. -/
def SuffixFor (exist : Name → Bool) (rd : Nat) (r : ManifestRoot) (n : Nat) : Prop :=
  exist r.name = true ∧
    ((1 ≤ n ∧ n ≤ 10000 ∧ exist (candidate r.name r.isDir n) = false ∧
        ∀ k, 1 ≤ k → k < n → exist (candidate r.name r.isDir k) = true) ∨
      ((∀ k, 1 ≤ k → k ≤ 10000 → exist (candidate r.name r.isDir k) = true) ∧ n = rd))

/-- No numbered name of a taken root is the name of a free root, nor the numbered name of
    another taken root. -/
def NoClash (m : Manifest) (exist : Name → Bool) (rd : Name → Nat) : Prop :=
  ∀ r ∈ m.roots, ∀ s ∈ m.roots, r.name ≠ s.name → ∀ n, SuffixFor exist (rd r.name) r n →
    (exist s.name = false → candidate r.name r.isDir n ≠ s.name) ∧
    ∀ k, SuffixFor exist (rd s.name) s k →
      candidate r.name r.isDir n ≠ candidate s.name s.isDir k

theorem suffixFor_suffixNumber {exist : Name → Bool} (rd : Nat) {r : ManifestRoot}
    (taken : exist r.name = true) :
    SuffixFor exist rd r (suffixNumber exist rd r.name r.isDir) := by
  refine ⟨taken, ?_⟩
  unfold suffixNumber
  cases h : (List.range' 1 10000).find? (fun i => !exist (candidate r.name r.isDir i)) with
  | none =>
    refine .inr ⟨fun k hk hle => ?_, rfl⟩
    simpa using List.find?_range'_eq_none.mp h k hk (by omega)
  | some n =>
    obtain ⟨hfree, hmem, before⟩ := List.find?_range'_eq_some.mp h
    simp only [List.mem_range'_1] at hmem
    refine .inl ⟨hmem.1, by simp only [Option.getD_some]; omega, by simpa using hfree, ?_⟩
    intro k hk hlt
    simpa using before k hk hlt

theorem suffixFor_unique {exist : Name → Bool} {rd : Nat} {r : ManifestRoot} {n k : Nat}
    (hn : SuffixFor exist rd r n) (hk : SuffixFor exist rd r k) : n = k := by
  obtain ⟨-, ⟨hn1, hn2, hfreeN, beforeN⟩ | ⟨fullN, rfl⟩⟩ := hn
  · obtain ⟨-, ⟨hk1, hk2, hfreeK, beforeK⟩ | ⟨fullK, rfl⟩⟩ := hk
    · obtain hlt | heq | hgt := Nat.lt_trichotomy n k
      · simp [beforeK n hn1 hlt] at hfreeN
      · exact heq
      · simp [beforeN k hk1 hgt] at hfreeK
    · simp [fullK n hn1 hn2] at hfreeN
  · obtain ⟨-, ⟨hk1, hk2, hfreeK, -⟩ | ⟨-, rfl⟩⟩ := hk
    · simp [fullN k hk1 hk2] at hfreeK
    · rfl

theorem uniqueName_of_free {exist : Name → Bool} {rd : Nat} {r : ManifestRoot}
    (free : exist r.name = false) : uniqueName exist rd r.name r.isDir = r.name := by
  simp [uniqueName, free]

theorem uniqueName_of_suffixFor {exist : Name → Bool} {rd : Nat} {r : ManifestRoot} {n : Nat}
    (h : SuffixFor exist rd r n) :
    uniqueName exist rd r.name r.isDir = candidate r.name r.isDir n := by
  rw [suffixFor_unique h (suffixFor_suffixNumber rd h.1), uniqueName, if_pos h.1]

/-- The names of a receive send distinct roots to distinct names exactly when there was no
    clash in the directory its first run saw. -/
theorem chooseNames_injective_iff (j : Json) (m : Manifest) (accepted : Manifest.fromJson j = .ok m)
    (exist : Name → Bool) (rd : Name → Nat) (names : Names) (chosen : Chosen m exist rd names) :
    (∀ r ∈ m.roots, ∀ s ∈ m.roots, r.name ≠ s.name →
        names.headOf r.name ≠ names.headOf s.name) ↔
      NoClash m exist rd := by
  have wf := Manifest.wellFormed_of_fromJson accepted
  have head : ∀ r ∈ m.roots,
      names.headOf r.name = uniqueName exist (rd r.name) r.name r.isDir := by
    intro r hr
    rw [Names.headOf, chosen.lookup wf hr, Option.getD_some]
  constructor
  · intro injective r hr s hs hne n hn
    have apart := injective r hr s hs hne
    rw [head r hr, head s hs, uniqueName_of_suffixFor hn] at apart
    refine ⟨fun free => ?_, fun k hk => ?_⟩
    · rwa [uniqueName_of_free free] at apart
    · rwa [uniqueName_of_suffixFor hk] at apart
  · intro clear r hr s hs hne
    rw [head r hr, head s hs]
    cases hrx : exist r.name with
    | true =>
      have hn := suffixFor_suffixNumber (rd r.name) hrx
      obtain ⟨versusFree, versusTaken⟩ := clear r hr s hs hne _ hn
      rw [uniqueName_of_suffixFor hn]
      cases hsx : exist s.name with
      | true =>
        have hk := suffixFor_suffixNumber (rd s.name) hsx
        rw [uniqueName_of_suffixFor hk]
        exact versusTaken _ hk
      | false =>
        rw [uniqueName_of_free hsx]
        exact versusFree hsx
    | false =>
      rw [uniqueName_of_free hrx]
      cases hsx : exist s.name with
      | true =>
        have hk := suffixFor_suffixNumber (rd s.name) hsx
        rw [uniqueName_of_suffixFor hk]
        exact Ne.symm ((clear s hs r hr (Ne.symm hne) _ hk).1 hrx)
      | false =>
        rw [uniqueName_of_free hsx]
        exact hne

/-- An offer of the files `a` and `a (1)`. -/
def numberedOffer : Json :=
  Manifest.toJson ⟨[⟨ascii "a", 1⟩, ⟨ascii "a (1)", 1⟩], [],
    [⟨ascii "a", false⟩, ⟨ascii "a (1)", false⟩], 2⟩

def numberedManifest : Manifest :=
  ⟨[⟨ascii "a", 1⟩, ⟨ascii "a (1)", 1⟩], [], [⟨ascii "a", false⟩, ⟨ascii "a (1)", false⟩], 2⟩

/-- In a directory that holds both names, each root gets a suffix of its own. -/
theorem chooseNames_numberedOffer_renamed : ∃ names,
    names = chooseNames [] [ascii "a", ascii "a (1)"].contains (fun _ => 0) numberedManifest.roots ∧
    names.headOf (ascii "a") = ascii "a (2)" ∧ names.headOf (ascii "a (1)") = ascii "a (1) (1)" ∧
    NoClash numberedManifest [ascii "a", ascii "a (1)"].contains fun _ => 0 := by
  have hnames : (chooseNames [] [ascii "a", ascii "a (1)"].contains (fun _ => 0) numberedManifest.roots).headOf
      (ascii "a") = ascii "a (2)" ∧
      (chooseNames [] [ascii "a", ascii "a (1)"].contains (fun _ => 0) numberedManifest.roots).headOf
        (ascii "a (1)") = ascii "a (1) (1)" := by
    decide +kernel
  have injective : ∀ r ∈ numberedManifest.roots, ∀ s ∈ numberedManifest.roots, r.name ≠ s.name →
      (chooseNames [] [ascii "a", ascii "a (1)"].contains (fun _ => 0) numberedManifest.roots).headOf r.name ≠
        (chooseNames [] [ascii "a", ascii "a (1)"].contains (fun _ => 0) numberedManifest.roots).headOf s.name := by
    decide +kernel
  exact ⟨_, rfl, hnames.1, hnames.2, (chooseNames_injective_iff numberedOffer numberedManifest (by decide +kernel)
    [ascii "a", ascii "a (1)"].contains (fun _ => 0) _ .fresh).mp injective⟩

/-- In a directory that holds only `a`, both roots become `a (1)`. -/
theorem chooseNames_numberedOffer_taken :
    ¬ ∀ (j : Json) (m : Manifest), Manifest.fromJson j = .ok m →
      ∀ (exist : Name → Bool) (rd : Name → Nat) (names : Names), Chosen m exist rd names →
        ∀ r ∈ m.roots, ∀ s ∈ m.roots, r.name ≠ s.name →
          names.headOf r.name ≠ names.headOf s.name := by
  intro injective
  refine injective numberedOffer numberedManifest (by decide +kernel) (· == ascii "a")
    (fun _ => 0) _ .fresh ⟨ascii "a", false⟩ (by decide) ⟨ascii "a (1)", false⟩ (by decide)
    (by decide) ?_
  decide

end CrossTransfer.Share
