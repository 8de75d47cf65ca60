import CrossTransfer.Transfer.ReceivePaths
import CrossTransfer.Transfer.Utf8

/-! # The grammar of relative paths

`path_sanitize.h` documents which paths may be joined under a save directory.  Here the rules are
a grammar over the bytes of the path (`IsRelativePath`), apart from the loops that check them.

* `safeComponent_iff`, `isSafeRelativePath_iff` — the checks accept the grammar and nothing else.
* `safePaths` — and an accepted path joins to its components, below the base, injectively.
-/

namespace CrossTransfer.Transfer

namespace Paths

/-- The names that Windows keeps for devices. -/
def deviceNames : List Bytes :=
  ["CON", "PRN", "AUX", "NUL", "COM1", "COM2", "COM3", "COM4", "COM5", "COM6", "COM7", "COM8",
    "COM9", "LPT1", "LPT2", "LPT3", "LPT4", "LPT5", "LPT6", "LPT7", "LPT8", "LPT9"].map ascii

/-- The byte `v`, or the small letter of the capital `v`. -/
def SameLetter (u v : UInt8) : Prop :=
  u = v ∨ (0x41 ≤ v.toNat ∧ v.toNat ≤ 0x5A ∧ u.toNat = v.toNat + 0x20)

/-- A device name in any letter case. -/
def IsDevice (stem : Bytes) : Prop := ∃ d ∈ deviceNames, List.Forall₂ SameLetter stem d

/-- One component of a relative path. -/
structure IsComponent (c : Bytes) : Prop where
  nonempty : c ≠ []
  short : c.length ≤ 255
  notDot : c ≠ ascii "."
  notDots : c ≠ ascii ".."
  allowed : ∀ u ∈ c, 0x20 ≤ u.toNat ∧ u.toNat ≠ 0x7F ∧ u ∉ ascii "\\:*?\"<>|"
  ending : ∀ u, c.getLast? = some u → u ≠ 0x20 ∧ u ≠ dot
  noDevice : ¬IsDevice (c.takeWhile fun u => u != dot)

/-- A relative path: the components are what lies between the slashes. -/
structure IsRelativePath (rel : Bytes) : Prop where
  nonempty : rel ≠ []
  short : rel.length ≤ 4096
  utf8 : IsUtf8 rel
  components : ∀ c ∈ rel.splitOn slash, IsComponent c

/-- A place that is reached from `base` by going down: each further component names an entry of
    the directory before it. -/
def Below (base p : Path) : Prop :=
  ∃ rest, p = base ++ rest ∧ rest ≠ [] ∧
    ∀ c ∈ rest, c ≠ [] ∧ c ≠ ascii "." ∧ c ≠ ascii ".." ∧ slash ∉ c

/-! ## Device names -/

/-- A byte that is no small letter. -/
def NoSmall (v : UInt8) : Prop := v.toNat < 0x61 ∨ 0x7A < v.toNat

instance (v : UInt8) : Decidable (NoSmall v) := inferInstanceAs (Decidable (_ ∨ _))

theorem toUpper_toNat (u : UInt8) : (toUpper u).toNat =
    if 0x61 ≤ u.toNat ∧ u.toNat ≤ 0x7A then u.toNat - 0x20 else u.toNat := by
  revert u
  apply forall_byte
  decide

theorem toUpper_eq_iff {u v : UInt8} (hv : NoSmall v) : toUpper u = v ↔ SameLetter u v := by
  have hv' : v.toNat < 0x61 ∨ 0x7A < v.toNat := hv
  rw [SameLetter, ← UInt8.toNat_inj, ← UInt8.toNat_inj, toUpper_toNat]
  split
  · constructor
    · intro h
      right
      omega
    · intro h
      omega
  · omega

theorem map_toUpper_eq_iff {stem d : Bytes} (hd : ∀ v ∈ d, NoSmall v) :
    stem.map toUpper = d ↔ List.Forall₂ SameLetter stem d := by
  induction stem generalizing d with
  | nil => simp [eq_comm]
  | cons u stem ih =>
    cases d with
    | nil => simp
    | cons v d =>
      rw [List.forall_mem_cons] at hd
      rw [List.map_cons, List.cons.injEq, List.forall₂_cons, toUpper_eq_iff hd.1, ih hd.2]

theorem deviceNames_noSmall : ∀ d ∈ deviceNames, ∀ v ∈ d, NoSmall v := by
  decide +kernel

theorem isDevice_iff (stem : Bytes) : IsDevice stem ↔ stem.map toUpper ∈ deviceNames := by
  constructor
  · rintro ⟨d, hd, hstem⟩
    rwa [(map_toUpper_eq_iff (deviceNames_noSmall d hd)).mpr hstem]
  · intro h
    exact ⟨_, h, (map_toUpper_eq_iff (deviceNames_noSmall _ h)).mp rfl⟩

/-- A capital letter or a digit, as a device name is made of. -/
theorem deviceNames_shape (stem : Bytes) : stem ∈ deviceNames ↔
    stem = ascii "CON" ∨ stem = ascii "PRN" ∨ stem = ascii "AUX" ∨ stem = ascii "NUL" ∨
      (stem.length = 4 ∧ (stem.take 3 = ascii "COM" ∨ stem.take 3 = ascii "LPT") ∧
        0x31 ≤ byteAt stem 3 ∧ byteAt stem 3 ≤ 0x39) := by
  constructor
  · intro h
    revert stem
    decide
  · rintro (rfl | rfl | rfl | rfl | ⟨hlength, hhead, hlow, hhigh⟩)
    · decide
    · decide
    · decide
    · decide
    · have hsplit : stem = stem.take 3 ++ [byteAt stem 3] := by
        have hdrop := drop_byteAt (s := stem) (i := 3) (by omega)
        rw [List.drop_eq_nil_of_le (show stem.length ≤ 3 + 1 by omega)] at hdrop
        rw [← hdrop, List.take_append_drop]
      have hdigits : ∀ u : UInt8, 0x31 ≤ u → u ≤ 0x39 →
          ascii "COM" ++ [u] ∈ deviceNames ∧ ascii "LPT" ++ [u] ∈ deviceNames := by
        apply forall_byte
        decide
      rw [hsplit]
      obtain hhead | hhead := hhead
      · rw [hhead]
        exact (hdigits _ hlow hhigh).1
      · rw [hhead]
        exact (hdigits _ hlow hhigh).2

/-- `component.substr(0, component.find('.'))`. -/
theorem stem_eq (c : Bytes) : substr c 0 (findFrom c dot 0) = c.takeWhile fun u => u != dot := by
  have hpred : (fun u : UInt8 => !(u != dot)) = fun u => u == dot := by
    funext u
    rw [bne, Bool.not_not]
  rw [List.takeWhile_eq_take_findIdx_not, hpred]
  cases h : c.findIdx? (· == dot) with
  | none =>
    have hnone : findFrom c dot 0 = none := by simp [findFrom, h]
    rw [hnone, substr, List.drop_zero, List.findIdx?_eq_none_iff_findIdx_eq.mp h, List.take_length]
  | some k =>
    have hsome : findFrom c dot 0 = some k := by simp [findFrom, h]
    rw [hsome, substr, List.drop_zero, Nat.sub_zero, (List.findIdx?_eq_some_iff_findIdx_eq.mp h).2]

theorem isReservedDeviceName_iff (c : Bytes) :
    isReservedDeviceName c = true ↔ IsDevice (c.takeWhile fun u => u != dot) := by
  rw [isDevice_iff, deviceNames_shape, isReservedDeviceName, stem_eq]
  generalize c.takeWhile (fun u => u != dot) = stem
  cases stem with
  | nil => simp [ascii]
  | cons u stem =>
    simp only [List.isEmpty_cons, Bool.false_eq_true, if_false, Bool.if_true_left, Bool.or_eq_true,
      Bool.and_eq_true, beq_iff_eq, decide_eq_true_eq, or_assoc, and_assoc]

/-! ## Components -/

theorem forbiddenByte_eq_false_iff (u : UInt8) : forbiddenByte u = false ↔
    0x20 ≤ u.toNat ∧ u.toNat ≠ 0x7F ∧ u ∉ ascii "\\:*?\"<>|" := by
  revert u
  apply forall_byte
  decide

theorem safeComponent_iff (c : Bytes) : safeComponent c = true ↔ IsComponent c := by
  have hallowed : c.any forbiddenByte = false ↔
      ∀ u ∈ c, 0x20 ≤ u.toNat ∧ u.toNat ≠ 0x7F ∧ u ∉ ascii "\\:*?\"<>|" := by
    simp only [List.any_eq_false, Bool.not_eq_true, forbiddenByte_eq_false_iff]
  have hending : (c.getLast? == some 0x20 || c.getLast? == some dot) = false ↔
      ∀ u, c.getLast? = some u → u ≠ 0x20 ∧ u ≠ dot := by
    cases c.getLast? with
    | none => simp
    | some u => simp
  have hreserved : isReservedDeviceName c = false ↔ ¬IsDevice (c.takeWhile fun u => u != dot) := by
    rw [← isReservedDeviceName_iff, Bool.not_eq_true]
  have hnames : (c.isEmpty || c == ascii "." || c == ascii "..") = false ↔
      c ≠ [] ∧ c ≠ ascii "." ∧ c ≠ ascii ".." := by
    simp only [Bool.or_eq_false_iff, List.isEmpty_eq_false_iff, beq_eq_false_iff_ne, and_assoc]
  constructor
  · intro h
    unfold safeComponent at h
    split at h
    · contradiction
    · rename_i h1
      split at h
      · contradiction
      · rename_i h2
        split at h
        · contradiction
        · rename_i h3
          split at h
          · contradiction
          · rename_i h4
            obtain ⟨hne, hdot, hdots⟩ := hnames.mp (by simpa using h1)
            exact
              { nonempty := hne
                short := Nat.not_lt.mp h2
                notDot := hdot
                notDots := hdots
                allowed := hallowed.mp (by simpa using h3)
                ending := hending.mp (by simpa using h4)
                noDevice := hreserved.mp (by simpa using h) }
  · intro h
    have hshort : ¬kMaxComponentBytes < c.length := Nat.not_lt.mpr h.short
    rw [safeComponent, hnames.mpr ⟨h.nonempty, h.notDot, h.notDots⟩, if_neg Bool.false_ne_true,
      if_neg hshort, hallowed.mpr h.allowed, if_neg Bool.false_ne_true,
      hending.mpr h.ending, if_neg Bool.false_ne_true, hreserved.mpr h.noDevice]
    rfl

/-! ## Paths -/

/-- The early tests and the loop of `IsSafeRelativePath` together check the grammar. -/
theorem isSafeRelativePath_iff (rel : Bytes) :
    isSafeRelativePath rel = true ↔ IsRelativePath rel := by
  constructor
  · intro h
    have hcomponents := safeComponent_of_isSafeRelativePath h
    unfold isSafeRelativePath at h
    split at h
    · contradiction
    · rename_i hlength
      split at h
      · contradiction
      · split at h
        · contradiction
        · rename_i hutf8
          simp only [Bool.or_eq_true, List.isEmpty_iff, decide_eq_true_eq, not_or] at hlength
          exact
            { nonempty := hlength.1
              short := Nat.not_lt.mp hlength.2
              utf8 := (validUtf8_iff rel).mp (by simpa using hutf8)
              components := fun c hc => (safeComponent_iff c).mp (hcomponents c hc) }
  · intro h
    apply isSafeRelativePath_of_components h.short ((validUtf8_iff rel).mpr h.utf8)
    intro c hc
    exact (safeComponent_iff c).mpr (h.components c hc)

theorem joinSafe_of_isSafeRelativePath {rel : Bytes} (h : isSafeRelativePath rel = true)
    (base : Path) : joinSafe base rel = base ++ rel.splitOn slash := by
  rw [joinSafe_eq, List.filter_eq_self.mpr]
  intro c hc
  simpa using safeComponent_ne_nil (safeComponent_of_isSafeRelativePath h c hc)

/-- What lies between two slashes holds no slash. -/
theorem slash_not_mem_of_splitOn {rel c : Bytes} (hc : c ∈ rel.splitOn slash) : slash ∉ c := by
  induction hlength : rel.length using Nat.strong_induction_on generalizing rel with
  | _ n ih =>
    obtain ⟨-, hclean, hroot⟩ | ⟨tail, -, hclean, hrel⟩ := rootOf_cases rel
    · rw [List.splitOn_eq_singleton hclean, List.mem_singleton] at hc
      rwa [hc]
    · rw [hrel, List.splitOn_append_cons_self, List.splitOn_eq_singleton hclean] at hc
      obtain rfl | hc := List.mem_cons.mp hc
      · exact hclean
      · have hshorter : tail.length < n := by
          rw [← hlength, hrel, List.length_append, List.length_cons]
          omega
        exact ih tail.length hshorter hc rfl

theorem below_of_isSafeRelativePath {rel : Bytes} (h : isSafeRelativePath rel = true)
    (base : Path) : Below base (joinSafe base rel) := by
  refine ⟨rel.splitOn slash, joinSafe_of_isSafeRelativePath h base, List.splitOn_ne_nil _ _, ?_⟩
  intro c hc
  have hcomponent := ((isSafeRelativePath_iff rel).mp h).components c hc
  exact ⟨hcomponent.nonempty, hcomponent.notDot, hcomponent.notDots, slash_not_mem_of_splitOn hc⟩

/-- The filter accepts the grammar and nothing else; an accepted path joins to the base followed by
    its components, a place below the base, and no two of them to one place. -/
theorem safePaths (base : Path) :
    (∀ rel, isSafeRelativePath rel = true ↔ IsRelativePath rel) ∧
    (∀ rel, isSafeRelativePath rel = true →
      joinSafe base rel = base ++ rel.splitOn slash ∧ Below base (joinSafe base rel)) ∧
    Set.InjOn (joinSafe base) {rel | isSafeRelativePath rel = true} := by
  refine ⟨isSafeRelativePath_iff, ?_, ?_⟩
  · intro rel h
    exact ⟨joinSafe_of_isSafeRelativePath h base, below_of_isSafeRelativePath h base⟩
  · intro p hp q hq heq
    rw [joinSafe_of_isSafeRelativePath hp, joinSafe_of_isSafeRelativePath hq,
      List.append_cancel_left_eq] at heq
    have hjoin := congrArg [slash].intercalate heq
    rwa [List.intercalate_splitOn, List.intercalate_splitOn] at hjoin

end Paths

end CrossTransfer.Transfer
