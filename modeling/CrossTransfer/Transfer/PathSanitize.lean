import Mathlib.Tactic
import CrossTransfer.Library.Loop
import CrossTransfer.Transfer.BlockCodec

/-! # Relative path validation and path helpers

`core/src/transfer/path_sanitize.{h,cpp}`.  Manifest paths are `/`-separated byte strings;
a `Path` of the file system is its list of components.  The loops over `find('/', start)`
are kept as loops over the start index; `component_cases` says that they visit the parts
between the slashes.
-/

namespace CrossTransfer.Transfer

open CrossTransfer.Library

/-- The bytes of an ASCII literal. -/
def ascii (s : String) : Bytes := s.toList.map fun c => UInt8.ofNat c.toNat

/-- One component of a path. -/
abbrev Name := Bytes

/-- An absolute path: the components from the root of the file system. -/
abbrev Path := List Name

namespace Paths

def slash : UInt8 := 0x2F
def dot : UInt8 := 0x2E
def kMaxComponentBytes : Nat := 255
def kMaxPathBytes : Nat := 4096

/-- `s.find(c, start)`, `none` for `npos`. -/
def findFrom (s : Bytes) (c : UInt8) (start : Nat) : Option Nat :=
  ((s.drop start).findIdx? (· == c)).map (start + ·)

/-- `s.rfind(c)`, `none` for `npos`. -/
def rfind (s : Bytes) (c : UInt8) : Option Nat :=
  (s.reverse.findIdx? (· == c)).map (s.length - 1 - ·)

/-- `s.substr(start, stop - start)`; `none` as the end is `npos`. -/
def substr (s : Bytes) (start : Nat) : Option Nat → Bytes
  | none => s.drop start
  | some stop => (s.drop start).take (stop - start)

/-! ## UTF-8 -/

/-- Sequence length and payload bits announced by a lead byte. -/
def leadByte (c : UInt8) : Option (Nat × Nat) :=
  if c &&& 0xE0 = 0xC0 then (if c < 0xC2 then none else some (2, (c &&& 0x1F).toNat))
  else if c &&& 0xF0 = 0xE0 then some (3, (c &&& 0x0F).toNat)
  else if c &&& 0xF8 = 0xF0 then (if 0xF4 < c then none else some (4, (c &&& 0x07).toNat))
  else none

/-- The code point after the continuation bytes `s[i], …, s[i + n - 1]`. -/
def continuationBytes (s : Bytes) : Nat → Nat → Nat → Option Nat
  | _, 0, cp => some cp
  | i, n + 1, cp =>
    let cc := byteAt s i
    if cc &&& 0xC0 = 0x80 then continuationBytes s (i + 1) n ((cp <<< 6) ||| (cc &&& 0x3F).toNat)
    else none

/-- Shortest form, in range, not a surrogate. -/
def codePointOk (len cp : Nat) : Bool :=
  !(len == 3 && decide (cp < 0x800)) && !(len == 4 && decide (cp < 0x10000)) &&
    decide (cp ≤ 0x10FFFF) && !(decide (0xD800 ≤ cp) && decide (cp ≤ 0xDFFF))

def validUtf8Step (s : Bytes) (i : Nat) : Option (Nat ⊕ Bool) :=
  if i < s.length then
    if byteAt s i < 0x80 then some (.inl (i + 1))
    else
      match leadByte (byteAt s i) with
      | none => some (.inr false)
      | some (len, bits) =>
        if s.length < i + len then some (.inr false)
        else
          match continuationBytes s (i + 1) (len - 1) bits with
          | none => some (.inr false)
          | some cp => if codePointOk len cp then some (.inl (i + len)) else some (.inr false)
  else some (.inr true)

def validUtf8 (s : Bytes) : Bool := (iterate (validUtf8Step s) (s.length + 1) 0).getD false

/-! ## Components -/

/-- `std::toupper` in the C locale. -/
def toUpper (c : UInt8) : UInt8 := if 0x61 ≤ c ∧ c ≤ 0x7A then c - 0x20 else c

def isReservedDeviceName (component : Bytes) : Bool :=
  let stem := substr component 0 (findFrom component dot 0)
  if stem.isEmpty then false
  else
    let up := stem.map toUpper
    if up == ascii "CON" || up == ascii "PRN" || up == ascii "AUX" || up == ascii "NUL" then true
    else up.length == 4 && (up.take 3 == ascii "COM" || up.take 3 == ascii "LPT") &&
      decide (0x31 ≤ byteAt up 3) && decide (byteAt up 3 ≤ 0x39)

/-- A byte no component may hold: a control character or one of `\ : * ? " < > |`. -/
def forbiddenByte (u : UInt8) : Bool :=
  decide (u < 0x20) || u == 0x7F || (ascii "\\:*?\"<>|").contains u

def safeComponent (c : Bytes) : Bool :=
  if c.isEmpty || c == ascii "." || c == ascii ".." then false
  else if kMaxComponentBytes < c.length then false
  else if c.any forbiddenByte then false
  else if c.getLast? == some 0x20 || c.getLast? == some dot then false
  else !isReservedDeviceName c

/-- The component loop of `IsSafeRelativePath` at position `start`. -/
def safeStep (rel : Bytes) (start : Nat) : Option (Nat ⊕ Bool) :=
  if start ≤ rel.length then
    let slashAt := findFrom rel slash start
    if !safeComponent (substr rel start slashAt) then some (.inr false)
    else
      match slashAt with
      | none => some (.inr true)
      | some at' =>
        if at' + 1 = rel.length then some (.inr false)  -- trailing '/'
        else some (.inl (at' + 1))
  else some (.inr true)

def isSafeRelativePath (rel : Bytes) : Bool :=
  if rel.isEmpty || decide (kMaxPathBytes < rel.length) then false
  else if rel.head? == some slash then false
  else if !validUtf8 rel then false
  else (iterate (safeStep rel) (rel.length + 1) 0).getD false

/-- The append loop of `JoinSafe`. -/
def joinStep (rel : Bytes) (state : Nat × Path) : Option ((Nat × Path) ⊕ Path) :=
  let (start, out) := state
  if start < rel.length then
    let slashAt := findFrom rel slash start
    let comp := substr rel start slashAt
    let out := if comp.isEmpty then out else out ++ [comp]
    match slashAt with
    | none => some (.inr out)
    | some at' => some (.inl (at' + 1, out))
  else some (.inr out)

/-- `JoinSafe`: the components of `rel` under `base`. -/
def joinSafe (base : Path) (rel : Bytes) : Path :=
  (iterate (joinStep rel) (rel.length + 1) (0, base)).getD base

/-! ## Unique names -/

/-- Stem and extension: for files the suffix goes before the last `.`, if that is not the
    first byte. -/
def splitExtension (name : Name) (isDir : Bool) : Bytes × Bytes :=
  if isDir then (name, [])
  else
    match rfind name dot with
    | none => (name, [])
    | some at' => if 0 < at' then (name.take at', name.drop at') else (name, [])

/-- `stem (i)ext`. -/
def candidate (name : Name) (isDir : Bool) (i : Nat) : Name :=
  let (stem, ext) := splitExtension name isDir
  stem ++ ascii " (" ++ ascii (toString i) ++ ascii ")" ++ ext

/-- The number in the suffix: the first of `1, …, 10000` whose candidate is free, else the
    random number `rd`, which is not checked against the directory. -/
def suffixNumber (exist : Name → Bool) (rd : Nat) (name : Name) (isDir : Bool) : Nat :=
  ((List.range' 1 10000).find? fun i => !exist (candidate name isDir i)).getD rd

/-- `UniqueName`; `exist n` says whether `base / n` exists and `rd` is the value
    `std::random_device` would give. -/
def uniqueName (exist : Name → Bool) (rd : Nat) (name : Name) (isDir : Bool) : Name :=
  if exist name then candidate name isDir (suffixNumber exist rd name isDir) else name

/-! ## The component loops visit the parts between the slashes -/

theorem splitOn_of_findIdx?_none {t : Bytes} (h : t.findIdx? (· == slash) = none) :
    t.splitOn slash = [t] := by
  apply List.splitOn_eq_singleton_of_beq_eq_false
  exact List.findIdx?_eq_none_iff.mp h

theorem splitOn_of_findIdx?_some {t : Bytes} {k : Nat} (h : t.findIdx? (· == slash) = some k) :
    k < t.length ∧ t.splitOn slash = t.take k :: (t.drop (k + 1)).splitOn slash := by
  obtain ⟨hk, hslash, before⟩ := List.findIdx?_eq_some_iff_getElem.mp h
  refine ⟨hk, ?_⟩
  have split : t = t.take k ++ slash :: t.drop (k + 1) := by
    rw [← (by simpa using hslash : t[k] = slash), ← List.drop_eq_getElem_cons hk,
      List.take_append_drop]
  have clean : slash ∉ t.take k := by
    intro hmem
    obtain ⟨j, hj, hget⟩ := List.mem_take_iff_getElem.mp hmem
    exact before j (by omega) (by simp [hget])
  conv_lhs => rw [split]
  rw [List.splitOn_append_cons_self, List.splitOn_eq_singleton clean]
  rfl

/-- The component that starts at `start`, and where the next one starts. -/
theorem component_cases (rel : Bytes) (start : Nat) :
    (findFrom rel slash start = none ∧ substr rel start none = rel.drop start ∧
      (rel.drop start).splitOn slash = [rel.drop start]) ∨
    (∃ at', findFrom rel slash start = some at' ∧ start ≤ at' ∧ at' < rel.length ∧
      (rel.drop start).splitOn slash =
        substr rel start (some at') :: (rel.drop (at' + 1)).splitOn slash) := by
  cases h : (rel.drop start).findIdx? (· == slash) with
  | none => exact .inl ⟨by simp [findFrom, h], rfl, splitOn_of_findIdx?_none h⟩
  | some k =>
    obtain ⟨hk, hsplit⟩ := splitOn_of_findIdx?_some h
    rw [List.length_drop] at hk
    refine .inr ⟨start + k, by simp [findFrom, h], by omega, by omega, ?_⟩
    rw [hsplit, List.drop_drop, show start + (k + 1) = start + k + 1 by omega]
    simp [substr]

/-- The loop of `IsSafeRelativePath` accepts only if every component is safe. -/
theorem safeComponent_of_safeLoop {rel : Bytes}
    (h : (iterate (safeStep rel) (rel.length + 1) 0).getD false = true) :
    ∀ c ∈ rel.splitOn slash, safeComponent c = true := by
  have result : iterate (safeStep rel) (rel.length + 1) 0 = some true := by
    cases hr : iterate (safeStep rel) (rel.length + 1) 0 with
    | none => simp [hr] at h
    | some r => simpa [hr] using h
  refine iterate_partial
    (fun start => start ≤ rel.length ∧ ((∀ c ∈ (rel.drop start).splitOn slash, safeComponent c = true) →
      ∀ c ∈ rel.splitOn slash, safeComponent c = true))
    (fun r => r = true → ∀ c ∈ rel.splitOn slash, safeComponent c = true) ?_ ?_ _ 0 true
    ⟨by omega, fun rest => by simpa using rest⟩ result rfl
  · rintro start next ⟨hstart, rest⟩ hstep
    obtain ⟨hnone, -, -⟩ | ⟨at', hsome, hge, hlt, hsplit⟩ := component_cases rel start
    · simp only [safeStep, hstart, if_true, hnone] at hstep
      split at hstep <;> simp at hstep
    · simp only [safeStep, hstart, if_true, hsome] at hstep
      split at hstep
      · simp at hstep
      · rename_i hsafe
        split at hstep
        · simp at hstep
        · obtain rfl : at' + 1 = next := by simpa using hstep
          refine ⟨by omega, fun tail => rest ?_⟩
          rw [hsplit]
          intro c hc
          obtain rfl | hc := List.mem_cons.mp hc
          · simpa using hsafe
          · exact tail c hc
  · rintro start r ⟨hstart, rest⟩ hstep rfl
    apply rest
    obtain ⟨hnone, hsub, hsplit⟩ | ⟨at', hsome, -⟩ := component_cases rel start
    · simp only [safeStep, hstart, if_true, hnone, hsub] at hstep
      rw [hsplit]
      intro c hc
      obtain rfl := List.mem_singleton.mp hc
      split at hstep
      · simp at hstep
      · rename_i hsafe
        simpa using hsafe
    · simp only [safeStep, hstart, if_true, hsome] at hstep
      split at hstep
      · simp at hstep
      · split at hstep <;> simp at hstep

theorem safeComponent_ne_nil {c : Bytes} (h : safeComponent c = true) : c ≠ [] := by
  rintro rfl
  simp [safeComponent] at h

/-- The components of an accepted path are safe, hence not empty. -/
theorem safeComponent_of_isSafeRelativePath {rel : Bytes} (h : isSafeRelativePath rel = true) :
    ∀ c ∈ rel.splitOn slash, safeComponent c = true := by
  unfold isSafeRelativePath at h
  split at h
  · contradiction
  · split at h
    · contradiction
    · split at h
      · contradiction
      · exact safeComponent_of_safeLoop h

theorem exists_mem_splitOn {s : Bytes} {u : UInt8} (hu : u ∈ s) (hslash : u ≠ slash) :
    ∃ c ∈ s.splitOn slash, u ∈ c := by
  induction s with
  | nil => cases hu
  | cons x s ih =>
    obtain ⟨first, rest, hsplit⟩ := List.exists_cons_of_ne_nil (List.splitOn_ne_nil slash s)
    rw [List.splitOn_cons_eq_if_modifyHead, hsplit]
    rw [hsplit] at ih
    obtain rfl | htail := List.mem_cons.mp hu
    · rw [if_neg (by simpa using hslash)]
      exact ⟨u :: first, by simp, List.mem_cons_self⟩
    · obtain ⟨c, hc, huc⟩ := ih htail
      split
      · exact ⟨c, List.mem_cons_of_mem _ hc, huc⟩
      · obtain rfl | hc := List.mem_cons.mp hc
        · exact ⟨x :: c, by simp, List.mem_cons_of_mem _ huc⟩
        · exact ⟨c, by simp [hc], huc⟩

theorem not_forbidden_of_safeComponent {c : Bytes} {u : UInt8} (h : safeComponent c = true)
    (hu : u ∈ c) : forbiddenByte u = false := by
  unfold safeComponent at h
  split at h
  · contradiction
  · split at h
    · contradiction
    · split at h
      · contradiction
      · rename_i hany
        simp only [List.any_eq_true, not_exists, not_and, Bool.not_eq_true] at hany
        exact hany u hu

/-- A byte of an accepted path other than the slashes is an allowed one. -/
theorem not_forbidden_of_isSafeRelativePath {rel : Bytes} {u : UInt8}
    (h : isSafeRelativePath rel = true) (hu : u ∈ rel) (hslash : u ≠ slash) :
    forbiddenByte u = false := by
  obtain ⟨c, hc, huc⟩ := exists_mem_splitOn hu hslash
  exact not_forbidden_of_safeComponent (safeComponent_of_isSafeRelativePath h c hc) huc

/-- `JoinSafe` appends the non-empty components. -/
theorem joinSafe_eq (base : Path) (rel : Bytes) :
    joinSafe base rel = base ++ (rel.splitOn slash).filter fun c => !c.isEmpty := by
  obtain ⟨out, hout, hpost⟩ := iterate_total (joinStep rel)
    (fun state => state.1 ≤ rel.length ∧
      state.2 ++ ((rel.drop state.1).splitOn slash).filter (fun c => !c.isEmpty) =
        base ++ (rel.splitOn slash).filter fun c => !c.isEmpty)
    (fun state => rel.length - state.1)
    (fun out => out = base ++ (rel.splitOn slash).filter fun c => !c.isEmpty) (by
      rintro ⟨start, out⟩ ⟨hstart, inv⟩
      simp only at hstart inv
      by_cases hlt : start < rel.length
      swap
      · right
        obtain rfl : start = rel.length := by omega
        refine ⟨out, by simp [joinStep], ?_⟩
        simpa using inv
      have pushed : ∀ comp : Bytes, (if comp.isEmpty then out else out ++ [comp]) =
          out ++ [comp].filter fun c => !c.isEmpty := by
        intro comp
        cases hc : comp.isEmpty <;> simp [hc]
      obtain ⟨hnone, hsub, hsplit⟩ | ⟨at', hsome, hge, hat, hsplit⟩ := component_cases rel start
      · right
        refine ⟨if (substr rel start none).isEmpty then out else out ++ [substr rel start none],
          by simp only [joinStep, hlt, if_true, hnone], ?_⟩
        rw [← inv, hsplit, hsub, pushed]
      · left
        refine ⟨(at' + 1, if (substr rel start (some at')).isEmpty then out
            else out ++ [substr rel start (some at')]),
          by simp only [joinStep, hlt, if_true, hsome], ⟨by simp only; omega, ?_⟩,
          by simp only; omega⟩
        rw [← inv, hsplit, pushed, List.append_assoc, ← List.filter_append]
        rfl)
    (rel.length + 1) (0, base) ⟨by simp, by simp⟩ (by simp)
  rw [joinSafe, hout, Option.getD_some, hpost]

/-! ## Paths that are accepted -/

theorem validUtf8_of_ascii {s : Bytes} (h : ∀ u ∈ s, u < 0x80) : validUtf8 s = true := by
  obtain ⟨r, hr, rfl⟩ := iterate_total (validUtf8Step s) (fun i => i ≤ s.length)
    (fun i => s.length - i) (fun r => r = true) (by
      intro i hi
      by_cases hlt : i < s.length
      · have hbyte : byteAt s i < 0x80 := by
          have hget : byteAt s i = s[i] := by simp [byteAt, hlt]
          rw [hget]
          exact h _ (List.getElem_mem hlt)
        exact .inl ⟨i + 1, by simp [validUtf8Step, hlt, hbyte], by omega, by omega⟩
      · exact .inr ⟨true, by simp [validUtf8Step, hlt], rfl⟩)
    (s.length + 1) 0 (Nat.zero_le _) (by omega)
  rw [validUtf8, hr]
  rfl

theorem safeLoop_of_safeComponent {rel : Bytes}
    (h : ∀ c ∈ rel.splitOn slash, safeComponent c = true) :
    iterate (safeStep rel) (rel.length + 1) 0 = some true := by
  obtain ⟨r, hr, rfl⟩ := iterate_total (safeStep rel)
    (fun start => start ≤ rel.length ∧ ∀ c ∈ (rel.drop start).splitOn slash, safeComponent c = true)
    (fun start => rel.length - start) (fun r => r = true) (by
      rintro start ⟨hstart, hrest⟩
      obtain ⟨hnone, hsub, hsplit⟩ | ⟨at', hsome, hge, hlt, hsplit⟩ := component_cases rel start
      · rw [hsplit, List.forall_mem_singleton] at hrest
        exact .inr ⟨true, by simp [safeStep, hstart, hnone, hsub, hrest], rfl⟩
      · rw [hsplit, List.forall_mem_cons] at hrest
        have hmore : at' + 1 ≠ rel.length := by
          intro hend
          have hempty := hrest.2
          rw [hend, List.drop_length, List.splitOn_nil, List.forall_mem_singleton] at hempty
          exact safeComponent_ne_nil hempty rfl
        exact .inl ⟨at' + 1, by simp [safeStep, hstart, hsome, hrest.1, hmore],
          ⟨by omega, hrest.2⟩, by omega⟩)
    (rel.length + 1) 0 ⟨Nat.zero_le _, by simpa using h⟩ (by omega)
  exact hr

theorem isSafeRelativePath_of_components {rel : Bytes} (hlength : rel.length ≤ kMaxPathBytes)
    (hutf8 : validUtf8 rel = true) (h : ∀ c ∈ rel.splitOn slash, safeComponent c = true) :
    isSafeRelativePath rel = true := by
  have hne : rel ≠ [] := by
    rintro rfl
    exact safeComponent_ne_nil (h [] (by simp)) rfl
  have hhead : rel.head? ≠ some slash := by
    intro hslash
    obtain ⟨rest, rfl⟩ := List.head?_eq_some_iff.mp hslash
    exact safeComponent_ne_nil (h [] (by simp [List.splitOn_cons_eq_if_modifyHead])) rfl
  have hshort : ¬kMaxPathBytes < rel.length := Nat.not_lt.mpr hlength
  simp [isSafeRelativePath, hne, hhead, hutf8, hshort, safeLoop_of_safeComponent h]

/-- A lower case letter or a digit. -/
def wordByte (u : UInt8) : Bool :=
  (decide (0x30 ≤ u) && decide (u ≤ 0x39)) || (decide (0x61 ≤ u) && decide (u ≤ 0x7A))

theorem wordByte_allowed {u : UInt8} (h : wordByte u = true) :
    u < 0x80 ∧ forbiddenByte u = false ∧ u ≠ 0x20 ∧ u ≠ dot ∧ u ≠ slash := by
  have hall : ∀ n : Fin 256, wordByte (UInt8.ofNat n) = true →
      UInt8.ofNat n < 0x80 ∧ forbiddenByte (UInt8.ofNat n) = false ∧ UInt8.ofNat n ≠ 0x20 ∧
        UInt8.ofNat n ≠ dot ∧ UInt8.ofNat n ≠ slash := by
    decide +kernel
  have hu := hall ⟨u.toNat, u.toNat_lt⟩
  rw [UInt8.ofNat_toNat] at hu
  exact hu h

theorem isReservedDeviceName_of_long {c : Bytes} (hdot : dot ∉ c) (hlow : 5 ≤ c.length) :
    isReservedDeviceName c = false := by
  have hstem : substr c 0 (findFrom c dot 0) = c := by
    have hnone : c.findIdx? (· == dot) = none := by
      rw [List.findIdx?_eq_none_iff]
      intro u hu
      exact beq_false_of_ne fun heq => hdot (heq ▸ hu)
    simp [findFrom, hnone, substr]
  have hne : c.isEmpty = false := by
    cases c with
    | nil => simp at hlow
    | cons u c => rfl
  have hother : ∀ s : String, s.length < 5 → (c.map toUpper == ascii s) = false := by
    intro s hs
    refine beq_false_of_ne fun heq => ?_
    have hlength := congrArg List.length heq
    rw [List.length_map, ascii, List.length_map, String.length_toList] at hlength
    omega
  have hfour : ((c.map toUpper).length == 4) = false := by
    rw [List.length_map]
    exact beq_false_of_ne (by omega)
  simp only [isReservedDeviceName, hstem, hne, hother "CON" (by decide), hother "PRN" (by decide),
    hother "AUX" (by decide), hother "NUL" (by decide), hfour]
  rfl

/-- Five letters and digits, or more, are a name. -/
theorem safeComponent_of_word {c : Bytes} (h : ∀ u ∈ c, wordByte u = true) (hlow : 5 ≤ c.length)
    (hhigh : c.length ≤ kMaxComponentBytes) : safeComponent c = true := by
  have hnames : (c.isEmpty || c == ascii "." || c == ascii "..") = false := by
    have hempty : c ≠ [] := by
      rintro rfl
      simp at hlow
    have hdot : c ≠ ascii "." := by
      rintro rfl
      exact absurd hlow (by decide)
    have hdots : c ≠ ascii ".." := by
      rintro rfl
      exact absurd hlow (by decide)
    simp [hempty, hdot, hdots]
  have hallowed : c.any forbiddenByte = false := by
    rw [List.any_eq_false]
    intro u hu
    simp [(wordByte_allowed (h u hu)).2.1]
  have hlast : (c.getLast? == some 0x20 || c.getLast? == some dot) = false := by
    cases hget : c.getLast? with
    | none => rfl
    | some u =>
      obtain ⟨-, -, hspace, hdot, -⟩ := wordByte_allowed (h u (List.mem_of_getLast? hget))
      simp [hspace, hdot]
  have hreserved := isReservedDeviceName_of_long
    (fun hdot => (wordByte_allowed (h dot hdot)).2.2.2.1 rfl) hlow
  rw [safeComponent, hnames, if_neg (by simp), if_neg (Nat.not_lt.mpr hhigh), hallowed,
    if_neg (by simp), hlast, if_neg (by simp), hreserved]
  rfl

end Paths

end CrossTransfer.Transfer
