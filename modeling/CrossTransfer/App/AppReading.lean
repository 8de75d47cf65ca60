import CrossTransfer.App.CodeSpelling

/-! # What the app reads

`firstSegment` finds what is behind the first `/r/` unless a character that ends the code is there; it
then looks further. White space around the text makes no difference to the code found. What `isLink`
looks for is ASCII, to which no other character is mapped.
-/

namespace CrossTransfer.App

open CrossTransfer.Library
open CrossTransfer.Transfer
open CrossTransfer.Share (toLower schemePrefix)

/-- What the regular expression takes behind `/r/`. -/
def segment (x : Text) : Text := x.takeWhile inSegment

def marker : Text := text (ascii "/r/")

section Search

variable {c : Rune} {x y pre post : Text}

theorem firstSegment_cons (h : ¬marker <+: c :: x) : firstSegment (c :: x) = firstSegment x := by
  have hstart : (text (ascii "/r/")).isPrefixOf (c :: x) = false :=
    Bool.eq_false_iff.mpr (mt List.isPrefixOf_iff_prefix.mp h)
  rw [firstSegment]
  simp only [hstart, Bool.false_and, Bool.false_eq_true, if_false]

/-- Behind the marker stands what ends the code, so no other marker begins in it. -/
theorem firstSegment_lead (h : segment x = []) :
    firstSegment (rune 114 :: rune 47 :: x) = firstSegment x := by
  rw [firstSegment_cons, firstSegment_cons]
  · rintro ⟨y, hy⟩
    obtain ⟨-, rfl⟩ := List.cons.inj hy
    cases h
  · intro hstart
    exact absurd (List.cons_prefix_cons.mp hstart).1 (by decide)

theorem firstSegment_marker (x : Text) : firstSegment (marker ++ x) =
    if segment x = [] then firstSegment x else some (segment x) := by
  have hstart : (text (ascii "/r/")).isPrefixOf (marker ++ x) = true :=
    List.isPrefixOf_iff_prefix.mpr (List.prefix_append marker x)
  have hhead : marker ++ x = rune 47 :: rune 114 :: rune 47 :: x := rfl
  rw [hhead] at hstart ⊢
  rw [firstSegment]
  by_cases hsegment : segment x = []
  · have hempty : (x.takeWhile inSegment).isEmpty = true := List.isEmpty_iff.mpr hsegment
    rw [if_pos hsegment, ← firstSegment_lead hsegment]
    simp only [hstart, List.drop_succ_cons, List.drop_zero, hempty, Bool.not_true, Bool.and_false,
      Bool.false_eq_true, if_false]
  · have hsome : (x.takeWhile inSegment).isEmpty = false := List.isEmpty_eq_false_iff.mpr hsegment
    rw [if_neg hsegment]
    simp only [hstart, List.drop_succ_cons, List.drop_zero, hsome, Bool.not_false, Bool.and_true, if_true]
    rfl

/-- No marker begins in a text without slashes. -/
theorem firstSegment_append (h : rune 47 ∉ y) : firstSegment (y ++ x) = firstSegment x := by
  induction y with
  | nil => rfl
  | cons c y ih =>
    rw [List.mem_cons, not_or] at h
    rw [List.cons_append, firstSegment_cons, ih h.2]
    intro hstart
    exact h.1 (List.cons_prefix_cons.mp hstart).1

theorem firstSegment_of_none (h : after marker x = none) : firstSegment x = none := by
  induction x with
  | nil => rfl
  | cons c x ih =>
    rw [after] at h
    split at h
    · cases h
    · rename_i hstart
      rw [firstSegment_cons (mt List.isPrefixOf_iff_prefix.mpr hstart), ih h]

theorem firstSegment_of_some (h : after marker x = some y) :
    firstSegment x = if segment y = [] then firstSegment y else some (segment y) := by
  induction x with
  | nil => cases h
  | cons c x ih =>
    rw [after] at h
    split at h
    · rename_i hstart
      obtain ⟨z, hz⟩ := List.isPrefixOf_iff_prefix.mp hstart
      rw [← hz, List.drop_left, Option.some.injEq] at h
      rw [← hz, h, firstSegment_marker]
    · rename_i hstart
      rw [firstSegment_cons (mt List.isPrefixOf_iff_prefix.mpr hstart), ih h]

theorem not_white_of_mem_marker (h : c ∈ marker) : isWhiteSpace c = false := by
  have hall : (marker.all fun c => !isWhiteSpace c) = true := by decide
  rw [List.all_eq_true] at hall
  simpa using hall c h

theorem inSegment_of_white (h : isWhiteSpace c = true) : inSegment c = true := by
  simp only [isWhiteSpace, Bool.or_eq_true, decide_eq_true_eq, List.contains_iff_mem, List.mem_cons,
    List.not_mem_nil, or_false] at h
  simp only [inSegment, Bool.not_eq_true', Bool.or_eq_false_iff, beq_eq_false_iff_ne, ne_eq, Fin.ext_iff, rune,
    UInt8.reduceToNat]
  omega

theorem segment_append_white (hpost : ∀ c ∈ post, isWhiteSpace c = true) :
    segment (x ++ post) = if segment x = x then x ++ post else segment x := by
  have hall : post.takeWhile inSegment = post :=
    List.takeWhile_eq_self_iff.mpr fun c hc => inSegment_of_white (hpost c hc)
  rw [segment, List.takeWhile_append, hall]
  have hfull : (x.takeWhile inSegment).length = x.length ↔ segment x = x :=
    ⟨fun h => (List.takeWhile_prefix inSegment).eq_of_length h, congrArg List.length⟩
  exact if_congr hfull rfl rfl

end Search

/-- The code that the app finds in a link. -/
def linkCode (m : CaseMapping) (x : Text) : Option Text := (firstSegment x).bind (normalizeTakeCode m)

section LinkCode

variable {m : CaseMapping} {x pre post : Text}

theorem normalizeTakeCode_white (hpost : ∀ c ∈ post, isWhiteSpace c = true) :
    normalizeTakeCode m post = none := by
  have hnil := normalizeTakeCode_margins m (x := []) hpost (List.forall_mem_nil _)
  rw [List.append_nil, List.append_nil] at hnil
  rw [hnil]
  rfl

theorem firstSegment_white (hpost : ∀ c ∈ post, isWhiteSpace c = true) : firstSegment post = none := by
  have hslash : rune 47 ∉ post := fun h => absurd (hpost _ h) (by decide)
  have hnil := firstSegment_append (x := []) hslash
  rwa [List.append_nil] at hnil

theorem linkCode_append_white (hpost : ∀ c ∈ post, isWhiteSpace c = true) :
    linkCode m (x ++ post) = linkCode m x := by
  have hdisjoint : ∀ c ∈ marker, c ∉ post := fun c hc hmem =>
    Bool.false_ne_true (not_white_of_mem_marker hc ▸ hpost c hmem)
  induction hlength : x.length using Nat.strong_induction_on generalizing x with
  | _ n ih =>
    subst hlength
    cases x with
    | nil =>
      rw [List.nil_append, linkCode, firstSegment_white hpost]
      rfl
    | cons c x =>
      by_cases hstart : marker <+: c :: x
      · obtain ⟨y, hy⟩ := hstart
        rw [← hy, List.append_assoc, linkCode, linkCode, firstSegment_marker, firstSegment_marker,
          segment_append_white hpost]
        have hshorter : y.length < (c :: x).length := by
          rw [← hy, List.length_append]
          exact Nat.lt_add_of_pos_left (by decide)
        have hrest := ih _ hshorter rfl
        by_cases hfull : segment y = y
        · -- The segment runs to the end of the text and takes the white space along.
          have hcode : normalizeTakeCode m (y ++ post) = normalizeTakeCode m y := by
            have hnil : ∀ c ∈ ([] : Text), isWhiteSpace c = true := List.forall_mem_nil _
            have hmargins := normalizeTakeCode_margins m (x := y) hnil hpost
            rwa [List.nil_append] at hmargins
          rw [hfull, if_pos rfl]
          by_cases hempty : y = []
          · subst hempty
            rw [if_pos rfl]
            rw [List.nil_append] at hrest ⊢
            split
            · exact hrest
            · exact (normalizeTakeCode_white hpost).trans rfl
          · rw [if_neg fun h => hempty (List.append_eq_nil_iff.mp h).1, if_neg hempty]
            exact hcode
        · rw [if_neg hfull]
          split
          · exact hrest
          · rfl
      · have hwhole := mt (prefix_append_of_disjoint hdisjoint).mp hstart
        rw [List.cons_append] at hwhole ⊢
        rw [linkCode, firstSegment_cons hwhole, linkCode, firstSegment_cons hstart]
        exact ih _ (Nat.lt_succ_self _) rfl

/-- The margins that `trim` removes do not matter to the code of a link. -/
theorem linkCode_margins (hpre : ∀ c ∈ pre, isWhiteSpace c = true)
    (hpost : ∀ c ∈ post, isWhiteSpace c = true) : linkCode m (pre ++ x ++ post) = linkCode m x := by
  have hslash : rune 47 ∉ pre := fun h => absurd (hpre _ h) (by decide)
  rw [linkCode_append_white hpost, linkCode, firstSegment_append hslash]
  rfl

end LinkCode

/-! ## Schemes -/

section Scheme

variable {x pre post : Text}

/-- A scheme is not found in the margins. -/
theorem opens_of_margins {pat : Bytes} (hpat : LowerAscii pat) (hne : pat ≠ [])
    (hsolid : ∀ b, toLower b ∈ pat → isWhiteSpace (rune b) = false) (hpre : ∀ c ∈ pre, isWhiteSpace c = true)
    (hpost : ∀ c ∈ post, isWhiteSpace c = true) (h : opens pat (pre ++ x ++ post) = true) :
    opens pat x = true := by
  obtain ⟨w, rfl, hstart⟩ := (opens_iff hpat).mp h
  have hsolid (c : Rune) (hc : c ∈ text w) : isWhiteSpace c = false := by
    obtain ⟨b, hb, rfl⟩ := List.mem_map.mp hc
    exact hsolid b (List.mem_map_of_mem hb)
  cases pre with
  | nil =>
    have hdisjoint (c : Rune) (hc : c ∈ text w) (hmem : c ∈ post) : False :=
      Bool.false_ne_true (hsolid c hc ▸ hpost c hmem)
    exact (opens_iff hpat).mpr ⟨w, rfl, (prefix_append_of_disjoint hdisjoint).mp hstart⟩
  | cons c pre =>
    cases w with
    | nil => exact absurd rfl hne
    | cons b w =>
      have hhead : rune b = c := (List.cons_prefix_cons.mp hstart).1
      have hwhite := hsolid (rune b) List.mem_cons_self
      rw [hhead, hpre c List.mem_cons_self] at hwhite
      cases hwhite

theorem solid_scheme (b : UInt8) : toLower b ∈ schemePrefix → isWhiteSpace (rune b) = false := by
  revert b
  apply Paths.forall_byte
  decide

/-- The text in front of `://` when a scheme with it begins the string. -/
theorem exists_of_opens (scheme : Bytes) (hpat : LowerAscii (scheme ++ ascii "://"))
    (hfree : 58 ∉ scheme ∧ 47 ∉ scheme) (h : opens (scheme ++ ascii "://") x = true) :
    ∃ w z, x = w ++ (text (ascii "://") ++ z) ∧ rune 58 ∉ w ∧ rune 47 ∉ w := by
  obtain ⟨w, hw, z, hz⟩ := (opens_iff hpat).mp h
  obtain ⟨w₁, w₂, rfl, rfl, hsep⟩ := List.map_eq_append_iff.mp hw
  have hsep' : w₂ = ascii "://" := by
    have same (b : UInt8) : (toLower b = 58 → b = 58) ∧ (toLower b = 47 → b = 47) := by
      revert b
      apply Paths.forall_byte
      decide
    have hascii : ascii "://" = [58, 47, 47] := by decide
    rw [hascii] at hsep ⊢
    obtain ⟨a, w₃, rfl, ha, hsep⟩ := List.map_eq_cons_iff.mp hsep
    obtain ⟨b, w₄, rfl, hb, hsep⟩ := List.map_eq_cons_iff.mp hsep
    obtain ⟨c, w₅, rfl, hc, hsep⟩ := List.map_eq_cons_iff.mp hsep
    rw [(same a).1 ha, (same b).2 hb, (same c).2 hc, List.map_eq_nil_iff.mp hsep]
  have notMem {b : UInt8} (hb : toLower b = b) (hscheme : b ∉ w₁.map toLower) : rune b ∉ text w₁ := by
    intro hmem
    obtain ⟨c, hc, heq⟩ := List.mem_map.mp hmem
    obtain rfl := rune_inj.mp heq
    exact hscheme (hb ▸ List.mem_map_of_mem hc)
  refine ⟨text w₁, z, ?_, notMem rfl hfree.1, notMem rfl hfree.2⟩
  rw [← hz, hsep', ← List.append_assoc]
  exact congrArg (· ++ z) List.map_append

/-- `isLink` looks for ASCII, which no other character is mapped to in these places. -/
theorem isPrefixOf_lower (m : CaseMapping) {pat : Bytes} (hpat : LowerAscii pat)
    (hfree : ∀ p ∈ pat, p ≠ 105 ∧ p ≠ 107) (x : Text) :
    (text pat).isPrefixOf (x.flatMap m.lower) = opens pat x := by
  induction pat generalizing x with
  | nil => rfl
  | cons p pat ih =>
    obtain ⟨⟨hlow, hp⟩, htail⟩ := List.forall_mem_cons.mp hpat
    obtain ⟨⟨hi, hk⟩, hrest⟩ := List.forall_mem_cons.mp hfree
    cases x with
    | nil => rfl
    | cons c x =>
      have hcons : text (p :: pat) = rune p :: text pat := rfl
      rw [hcons, List.flatMap_cons, opens]
      obtain ⟨b, hb, rfl⟩ | hhigh := rune_cases c
      · have hlower : m.lower (rune b) = [rune (toLower b)] := m.lower_ascii b hb
        rw [hlower, List.singleton_append, List.isPrefixOf_cons_cons, ih htail hrest, Bool.eq_iff_iff]
        simp only [Bool.and_eq_true, Bool.or_eq_true, beq_iff_eq, rune_inj]
        rw [eq_comm, toLower_eq_iff hp]
      · obtain ⟨first, rest, hlower, hfirst⟩ := m.lower_foreign c hhigh
        have hne : rune p ≠ first := by
          rintro rfl
          obtain hfar | heq | heq := hfirst
          · exact Nat.not_le.mpr (lt_128.mp hlow) hfar
          · exact hi (rune_inj.mp heq)
          · exact hk (rune_inj.mp heq)
        have hcne (q : UInt8) (hq : q < 128) : c ≠ rune q := by
          rintro rfl
          exact Nat.not_le.mpr (lt_128.mp hq) hhigh
        have hupper : Paths.toUpper p < 128 := lt_128_of_toLower (((toLower_eq_iff hp).mpr (.inr rfl)).symm ▸ hlow)
        rw [hlower, List.cons_append, List.isPrefixOf_cons_cons, beq_eq_false_iff_ne.mpr hne,
          beq_eq_false_iff_ne.mpr (hcne p hlow), beq_eq_false_iff_ne.mpr (hcne _ hupper)]
        rfl

theorem isLink_eq (m : CaseMapping) (x : Text) : isLink m x =
    (opens (ascii "http://") x || opens (ascii "https://") x || opens schemePrefix x) := by
  have free (pat : Bytes) (h : (pat.all fun p => p < 128 && toLower p == p && p != 105 && p != 107) = true) :
      LowerAscii pat ∧ ∀ p ∈ pat, p ≠ 105 ∧ p ≠ 107 := by
    rw [List.all_eq_true] at h
    simp only [Bool.and_eq_true, decide_eq_true_eq, beq_iff_eq, bne_iff_ne] at h
    exact ⟨fun p hp => (h p hp).1.1, fun p hp => ⟨(h p hp).1.2, (h p hp).2⟩⟩
  have hhttp := free (ascii "http://") (by decide)
  have hhttps := free (ascii "https://") (by decide)
  have hscheme := free schemePrefix (by decide)
  rw [← isPrefixOf_lower m hhttp.1 hhttp.2, ← isPrefixOf_lower m hhttps.1 hhttps.2,
    ← isPrefixOf_lower m hscheme.1 hscheme.2]
  rfl

theorem extractTakeCode_eq (m : CaseMapping) (s : Text) : extractTakeCode m s =
    if isLink m (trim s) = true then linkCode m (trim s) else normalizeTakeCode m (trim s) := by
  rw [extractTakeCode]
  by_cases hempty : trim s = []
  · have hnil : isLink m [] = false := by
      rw [isLink_eq]
      rfl
    have hnone : normalizeTakeCode m [] = none := rfl
    rw [hempty, hnil, hnone]
    rfl
  · have hne : (trim s).isEmpty = false := List.isEmpty_eq_false_iff.mpr hempty
    simp only [hne, Bool.false_eq_true, if_false]
    rfl

end Scheme

end CrossTransfer.App
