import CrossTransfer.Library.Trimming
import CrossTransfer.Signal.CodeTable

/-! # Links carry their code

`MakeHttpsLink` and `MakeSchemeLink` of `take_code.cpp`, read back by `ParseCodeOrLink` with white
space around them and a query, a fragment or more path behind them. A link of the web has its code
behind the first `/r/`. A link of the scheme has it behind a leading `r/`, but a `/r/` later in the
text goes first: then the code is looked for there (`linksCarry_iff`).
-/

namespace CrossTransfer.Share

open CrossTransfer.Library
open CrossTransfer.Transfer
open CrossTransfer.Signal.Codes (Canonical normalize_client normalize_client_eq_iff normalize_format
  canonical_of_normalize)

def kScheme : Bytes := ascii "crosstransfer"

def makeHttpsLink (linkHost canonical : Bytes) : Bytes :=
  if linkHost.isEmpty || canonical.length ≠ kLength then []
  else ascii "https://" ++ linkHost ++ ascii "/r/" ++ format canonical

def makeSchemeLink (canonical : Bytes) : Bytes :=
  if canonical.length ≠ kLength then [] else kScheme ++ ascii "://r/" ++ format canonical

/-- What may stand behind the code of a link: nothing, or what begins with `?`, `#` or `/`. -/
def Trails (suffix : Bytes) : Prop := ∀ c ∈ suffix.head?, endsCode c = true

instance (suffix : Bytes) : Decidable (Trails suffix) :=
  inferInstanceAs (Decidable (∀ c ∈ suffix.head?, _))

/-- White space around a link. -/
def Blank (s : Bytes) : Prop := ∀ c ∈ s, isSpace c = true

instance (s : Bytes) : Decidable (Blank s) := inferInstanceAs (Decidable (∀ c ∈ s, _))

/-- What stands in a text up to what ends a code. -/
def codeSegment (s : Bytes) : Bytes := s.takeWhile (!endsCode ·)

variable {code host suffix pre post s : Bytes}

/-! ## The symbols of a code -/

theorem format_eq (h : Canonical code) : format code = code.take 5 ++ [45] ++ code.drop 5 :=
  if_neg (not_not.mpr h.size)

/-- What the symbols of a code and the dash are not. -/
theorem symbol_plain : ∀ c ∈ 45 :: Signal.Codes.alphabet,
    endsCode c = false ∧ isSpace c = false ∧ c ≠ 47 ∧ c ≠ 114 := by
  decide +kernel

theorem mem_format (h : Canonical code) {c : UInt8} (hc : c ∈ format code) :
    c ∈ 45 :: Signal.Codes.alphabet := by
  rw [format_eq h] at hc
  simp only [List.append_assoc, List.mem_append, List.mem_singleton] at hc
  obtain hc | rfl | hc := hc
  · exact List.mem_cons_of_mem _ (h.symbols c (List.mem_of_mem_take hc))
  · exact List.mem_cons_self
  · exact List.mem_cons_of_mem _ (h.symbols c (List.mem_of_mem_drop hc))

theorem format_ne_nil (h : Canonical code) : format code ≠ [] := by
  rw [format_eq h]
  simp

theorem normalize_formatted (h : Canonical code) : normalize (format code) = code :=
  (normalize_client_eq_iff h).mpr (normalize_format h)

/-- The code of a link is what stands before its suffix. -/
theorem codeSegment_format (h : Canonical code) (hsuffix : Trails suffix) :
    codeSegment (format code ++ suffix) = format code := by
  rw [codeSegment, List.takeWhile_append_of_pos]
  · cases suffix with
    | nil => exact List.append_nil _
    | cons c suffix =>
      have hends : endsCode c = true := hsuffix c rfl
      rw [List.takeWhile_cons_of_neg (by simp [hends]), List.append_nil]
  · intro c hc
    rw [(symbol_plain c (mem_format h hc)).1]
    rfl

/-! ## Trimming -/

theorem trails_rdropWhile (h : Trails suffix) : Trails (suffix.rdropWhile isSpace) := by
  intro c hc
  obtain ⟨rest, hrest⟩ := List.rdropWhile_prefix isSpace suffix
  apply h c
  rw [← hrest, List.head?_append, Option.mem_def.mp hc]
  rfl

/-- `Trim` of a link and what is around it. -/
theorem trim_link {head : UInt8} {rest : Bytes} (hcode : Canonical code) (hhead : isSpace head = false)
    (hpre : Blank pre) (hpost : Blank post) :
    trim (pre ++ (head :: rest ++ format code ++ suffix) ++ post) =
      head :: rest ++ format code ++ suffix.rdropWhile isSpace := by
  have hmargins : trim (pre ++ (head :: rest ++ format code ++ suffix) ++ post) =
      strip isSpace (head :: rest ++ format code ++ suffix) := strip_margins hpre hpost
  have hfront : (head :: rest ++ format code ++ suffix).dropWhile isSpace =
      head :: rest ++ format code ++ suffix :=
    List.dropWhile_cons_of_neg (by simp [hhead])
  rw [hmargins, strip, hfront]
  apply rdropWhile_append_of_last
  intro c hc
  rw [List.getLast?_append_of_ne_nil _ (format_ne_nil hcode)] at hc
  exact (symbol_plain c (mem_format hcode (List.mem_of_getLast? hc))).2.1

/-! ## Reading -/

/-- `ParseCodeOrLink` of a text in which it finds a scheme. -/
theorem parseCodeOrLink_of_scheme {rest : Bytes} (h : behindScheme (trim s) = some rest) :
    parseCodeOrLink s = (behindMarker rest).elim [] fun code => normalize (codeSegment code) := by
  have hne : (trim s).isEmpty = false := by
    cases htrim : trim s with
    | nil =>
      rw [htrim] at h
      cases h
    | cons c t => rfl
  rw [parseCodeOrLink]
  simp only [hne, h]
  cases behindMarker rest <;> rfl

theorem behindScheme_append {scheme rest : Bytes} (h : (58 : UInt8) ∉ scheme) :
    behindScheme (scheme ++ (ascii "://" ++ rest)) = some rest := by
  have hafter : after (ascii "://") (scheme ++ (ascii "://" ++ rest)) = some rest :=
    (after_append_of_notMem h).trans after_pattern
  rw [behindScheme, hafter]

/-- What `ParseCodeOrLink` makes of a link, its suffix and the white space around them. -/
theorem parse_link {head : UInt8} {scheme body : Bytes} (hcode : Canonical code)
    (hhead : isSpace head = false) (hcolon : 58 ∉ head :: scheme) (hpre : Blank pre)
    (hpost : Blank post) :
    parseCodeOrLink
        (pre ++ (head :: scheme ++ (ascii "://" ++ (body ++ format code)) ++ suffix) ++ post) =
      (behindMarker (body ++ (format code ++ suffix.rdropWhile isSpace))).elim [] fun code =>
        normalize (codeSegment code) := by
  apply parseCodeOrLink_of_scheme
  have htrim : trim (pre ++ (head :: (scheme ++ (ascii "://" ++ body)) ++ format code ++ suffix) ++ post) =
      head :: (scheme ++ (ascii "://" ++ body)) ++ format code ++ suffix.rdropWhile isSpace :=
    trim_link hcode hhead hpre hpost
  simp only [List.cons_append, List.append_assoc] at htrim ⊢
  rw [htrim]
  exact behindScheme_append hcolon

/-- The code of a link of the web is behind the first `/r/`. -/
theorem parse_httpsLink (hcode : Canonical code) (hhost : host ≠ []) (hslash : 47 ∉ host)
    (hsuffix : Trails suffix) (hpre : Blank pre) (hpost : Blank post) :
    parseCodeOrLink (pre ++ (makeHttpsLink host code ++ suffix) ++ post) = code := by
  have hlink : makeHttpsLink host code =
      104 :: ascii "ttps" ++ (ascii "://" ++ (host ++ ascii "/r/" ++ format code)) := by
    have hnot : ¬((host.isEmpty || decide (code.length ≠ kLength)) = true) := by
      simp [hhost, hcode.size, kLength, Signal.Codes.length]
    rw [makeHttpsLink, if_neg hnot]
    simp only [List.append_assoc]
    rfl
  have hafter : after (ascii "/r/")
      (host ++ ascii "/r/" ++ (format code ++ suffix.rdropWhile isSpace)) =
        some (format code ++ suffix.rdropWhile isSpace) := by
    rw [List.append_assoc]
    exact (after_append_of_notMem hslash).trans after_pattern
  have hbehind : behindMarker (host ++ ascii "/r/" ++ (format code ++ suffix.rdropWhile isSpace)) =
      some (format code ++ suffix.rdropWhile isSpace) := by
    unfold behindMarker
    rw [hafter]
  rw [hlink, parse_link hcode (by decide) (by decide) hpre hpost, hbehind, Option.elim_some,
    codeSegment_format hcode (trails_rdropWhile hsuffix), normalize_formatted hcode]

/-- No `/r/` begins in a link of the scheme behind its `://` before the suffix. -/
theorem after_marker_format (hcode : Canonical code) (suffix : Bytes) :
    after (ascii "/r/") (ascii "r/" ++ (format code ++ suffix)) = after (ascii "/r/") suffix := by
  have hslash : (47 : UInt8) ∉ format code := fun hmem =>
    (symbol_plain 47 (mem_format hcode hmem)).2.2.1 rfl
  have hfirst : ¬ascii "/r/" <+: 47 :: (format code ++ suffix) := by
    obtain ⟨c, rest, hformat⟩ := List.exists_cons_of_ne_nil (format_ne_nil hcode)
    have hc : c ≠ 114 := (symbol_plain c (mem_format hcode (hformat ▸ List.mem_cons_self))).2.2.2
    rintro ⟨more, hmore⟩
    rw [hformat] at hmore
    exact hc (List.cons.inj (List.cons.inj hmore).2).1.symm
  have hlead : after (ascii "/r/") (114 :: 47 :: (format code ++ suffix)) =
      after (ascii "/r/") (47 :: (format code ++ suffix)) := after_cons_of_ne (by decide)
  exact hlead.trans ((after_cons hfirst).trans (after_append_of_notMem hslash))

/-- The code of a link of the scheme is looked for behind a `/r/` of its suffix, if there is one. -/
theorem parse_schemeLink (hcode : Canonical code) (hsuffix : Trails suffix) (hpre : Blank pre)
    (hpost : Blank post) :
    parseCodeOrLink (pre ++ (makeSchemeLink code ++ suffix) ++ post) =
      match after (ascii "/r/") (suffix.rdropWhile isSpace) with
      | none => code
      | some other => normalize (codeSegment other) := by
  have hlink : makeSchemeLink code =
      99 :: ascii "rosstransfer" ++ (ascii "://" ++ (ascii "r/" ++ format code)) := by
    have hsize : ¬code.length ≠ kLength := not_not.mpr hcode.size
    rw [makeSchemeLink, if_neg hsize]
    simp only [List.append_assoc]
    rfl
  rw [hlink, parse_link hcode (by decide) (by decide) hpre hpost]
  have hafter := after_marker_format hcode (suffix.rdropWhile isSpace)
  unfold behindMarker
  rw [hafter]
  cases after (ascii "/r/") (suffix.rdropWhile isSpace) with
  | some other => rfl
  | none =>
    -- The leading `r/`.
    have hlead : ((114 : UInt8) = 114 ∨ (114 : UInt8) = 82) ∧ (47 : UInt8) = 47 ∧
        format code ++ suffix.rdropWhile isSpace ≠ [] := by
      simp [format_ne_nil hcode]
    have hread : normalize (codeSegment (format code ++ suffix.rdropWhile isSpace)) = code := by
      rw [codeSegment_format hcode (trails_rdropWhile hsuffix), normalize_formatted hcode]
    exact (congrArg (Option.elim · [] fun code => normalize (codeSegment code)) (if_pos hlead)).trans
      hread

/-- Whatever is read is a code or nothing. -/
theorem parse_canonical (input : Bytes) :
    parseCodeOrLink input = [] ∨ Canonical (parseCodeOrLink input) := by
  have hread (s : Bytes) : normalize s = [] ∨ Canonical (normalize s) := by
    rw [normalize_client]
    cases hcode : Signal.Codes.normalize s with
    | none => exact .inl rfl
    | some code => exact .inr (canonical_of_normalize hcode)
  unfold parseCodeOrLink
  dsimp only
  split
  · exact .inl rfl
  · split
    · exact hread _
    · split
      · exact .inl rfl
      · exact hread _

/-! ## Links -/

/-- Both links with the code are read as the code, and whatever is read is a code or nothing. -/
def LinksCarry (code host suffix pre post : Bytes) : Prop :=
  parseCodeOrLink (pre ++ (makeHttpsLink host code ++ suffix) ++ post) = code ∧
    parseCodeOrLink (pre ++ (makeSchemeLink code ++ suffix) ++ post) = code ∧
    ∀ input, parseCodeOrLink input = [] ∨ Canonical (parseCodeOrLink input)

/-- The suffix has no `/r/` to look for a code behind, or the code is there as well. -/
def NoOtherCode (code suffix : Bytes) : Prop :=
  ∀ other, after (ascii "/r/") (suffix.rdropWhile isSpace) = some other →
    normalize (codeSegment other) = code

/-- A link carries its code exactly if no `/r/` in its suffix makes a link of the scheme be read
    there; a link of the web is always read as its code. -/
theorem linksCarry_iff (code host suffix pre post : Bytes) (hcode : Canonical code)
    (hhost : host ≠ []) (hslash : 47 ∉ host) (hsuffix : Trails suffix) (hpre : Blank pre)
    (hpost : Blank post) :
    (LinksCarry code host suffix pre post ↔ NoOtherCode code suffix) ∧
      parseCodeOrLink (pre ++ (makeHttpsLink host code ++ suffix) ++ post) = code ∧
      ∀ input, parseCodeOrLink input = [] ∨ Canonical (parseCodeOrLink input) := by
  have hhttps := parse_httpsLink hcode hhost hslash hsuffix hpre hpost
  refine ⟨?_, hhttps, parse_canonical⟩
  rw [LinksCarry, NoOtherCode, parse_schemeLink hcode hsuffix hpre hpost]
  cases after (ascii "/r/") (suffix.rdropWhile isSpace) with
  | none => exact iff_of_true ⟨hhttps, rfl, parse_canonical⟩ fun _ h => absurd h (by simp)
  | some other =>
    constructor
    · rintro ⟨-, hread, -⟩ _ hother
      exact Option.some.inj hother ▸ hread
    · intro hread
      exact ⟨hhttps, hread other rfl, parse_canonical⟩

/-- A query with the beginning of a link in it. -/
theorem linksCarry_query :
    LinksCarry (ascii "3K7QWP9X2M") (ascii "a.b:80") (ascii "?x=https://r#/") (ascii " ") (ascii " \n") := by
  refine (linksCarry_iff _ _ _ _ _ ⟨by decide +kernel, by decide +kernel⟩ (by decide +kernel)
    (by decide +kernel) (by decide +kernel) (by decide +kernel) (by decide +kernel)).1.mpr ?_
  intro other hother
  have hnone : after (ascii "/r/") ((ascii "?x=https://r#/").rdropWhile isSpace) = none := by
    decide +kernel
  rw [hnone] at hother
  cases hother

/-- A query that holds the address of another share. -/
theorem not_linksCarry : ¬∀ code host suffix pre post : Bytes, Canonical code → host ≠ [] →
    47 ∉ host → Trails suffix → Blank pre → Blank post → LinksCarry code host suffix pre post := by
  intro h
  have hcarry := h (ascii "3K7QWP9X2M") (ascii "a.b") (ascii "?from=/r/00000-00000") [] []
    ⟨by decide +kernel, by decide +kernel⟩ (by decide +kernel) (by decide +kernel)
    (by decide +kernel) (by decide +kernel) (by decide +kernel)
  have hread : parseCodeOrLink (makeSchemeLink (ascii "3K7QWP9X2M") ++ ascii "?from=/r/00000-00000") =
      ascii "0000000000" := by
    decide +kernel
  exact absurd (hread.symm.trans hcarry.2.1) (by decide +kernel)

end CrossTransfer.Share
