import CrossTransfer.App.AppReading

/-! # App and core on a code

The app reads a code from the code points of a string, the core from its UTF-8 bytes. `view` says where
in the string the two look. They take the same code from it iff what stands there is consistent
(`agrees_iff`): they see the same code at the same place only if it is plain, and where one of them does
not look the other must not find a code.
-/

namespace CrossTransfer.App

open CrossTransfer.Library
open CrossTransfer.Transfer
open CrossTransfer.Share (toLower schemePrefix parseCodeOrLink)

/-- The app and the core take the same code from a string, or none. -/
def Agrees (m : CaseMapping) (s : Text) : Prop :=
  extractTakeCode m s = result (parseCodeOrLink (utf8 s))

/-! ## Where they look -/

/-- Where the two look for the code in a string. -/
inductive View where
  | nowhere
  | same (part : Text)
  | coreOnly (part : Text)
  | appOnly (part : Text)
  | apart (ofCore ofApp : Text)

namespace View

/-- Two places, if they are there. -/
def places : Option Text → Option Text → View
  | none, none => nowhere
  | some part, none => coreOnly part
  | none, some part => appOnly part
  | some ofCore, some ofApp => apart ofCore ofApp

/-- What stands there gives the app and the core the same code. -/
def Consistent (m : CaseMapping) : View → Prop
  | nowhere => True
  | same part => Spells m part → Plain part
  | coreOnly part => ¬(Plain part ∧ Spells m part)
  | appOnly part => ¬Spells m part
  | apart ofCore ofApp => (Plain ofCore ∧ Spells m ofCore ↔ Spells m ofApp) ∧
      (Spells m ofApp → symbolsOf m ofCore = symbolsOf m ofApp)

end View

/-- Where they look behind the scheme of a link; `slash` if the scheme ends with a slash. -/
def linkView (slash : Bool) (rest : Text) : View :=
  if slash = true ∧ text (ascii "r/") <+: rest ∧ segment (rest.drop 2) ≠ [] then
    -- The app takes the last slash of the scheme for the first one of `/r/`.
    match after marker rest with
    | none => .same (segment (rest.drop 2))
    | some code => .apart (segment code) (segment (rest.drop 2))
  else
    match after marker rest with
    | none => .places (marked rest) none
    | some code =>
      if segment code = [] then .places none (firstSegment code) else .same (segment code)

/-- Whether the app takes the first `://` for that of the scheme. -/
def schemeFirst (x : Text) : Bool :=
  opens (ascii "http://") x || opens (ascii "https://") x || opens (ascii "crosstransfer://") x

def view (s : Text) : View :=
  match after (text (ascii "://")) (coreTrim s) with
  | some rest =>
    if schemeFirst (trim s) = true then linkView true rest
    else if opens schemePrefix (trim s) = true then .places (marked rest) (firstSegment (coreTrim s))
    else .places (marked rest) none
  | none =>
    if opens schemePrefix (trim s) = true then
      if opens schemePrefix (coreTrim s) = true then
        linkView false ((coreTrim s).drop schemePrefix.length)
      else .places none (firstSegment (coreTrim s))
    else .same (coreTrim s)

/-! ## What they find there -/

/-- The code that the core takes from a part of the string. -/
def plainCode (m : CaseMapping) (part : Text) : Option Text :=
  if Plain part ∧ Spells m part then some (symbolsOf m part) else none

namespace View

def coreCode (m : CaseMapping) : View → Option Text
  | nowhere | appOnly _ => none
  | same part | coreOnly part | apart part _ => plainCode m part

def appCode (m : CaseMapping) : View → Option Text
  | nowhere | coreOnly _ => none
  | same part | appOnly part | apart _ part => normalizeTakeCode m part

theorem coreCode_places (m : CaseMapping) (p q : Option Text) :
    (places p q).coreCode m = p.bind (plainCode m) := by
  cases p with
  | none => cases q <;> rfl
  | some part =>
    rw [Option.bind_some]
    cases q <;> rfl

theorem appCode_places (m : CaseMapping) (p q : Option Text) :
    (places p q).appCode m = q.bind (normalizeTakeCode m) := by
  cases p <;> cases q <;> rfl

theorem consistent_iff (m : CaseMapping) (v : View) : v.appCode m = v.coreCode m ↔ v.Consistent m := by
  cases v with
  | nowhere => exact iff_of_true rfl trivial
  | same part =>
    rw [appCode, coreCode, normalizeTakeCode_eq, plainCode, Consistent]
    by_cases hspells : Spells m part
    · by_cases hplain : Plain part <;> simp [hspells, hplain]
    · simp [hspells]
  | coreOnly part =>
    rw [appCode, coreCode, plainCode, Consistent]
    split <;> simp [*]
  | appOnly part =>
    rw [appCode, coreCode, normalizeTakeCode_eq, Consistent]
    split <;> simp [*]
  | apart ofCore ofApp =>
    rw [appCode, coreCode, normalizeTakeCode_eq, plainCode, Consistent]
    by_cases happ : Spells m ofApp
    · by_cases hcore : Plain ofCore ∧ Spells m ofCore
      · rw [if_pos happ, if_pos hcore, Option.some.injEq, eq_comm]
        exact ⟨fun h => ⟨iff_of_true hcore happ, fun _ => h⟩, fun h => h.2 happ⟩
      · rw [if_pos happ, if_neg hcore]
        exact iff_of_false (Option.some_ne_none _) fun h => hcore (h.1.mpr happ)
    · by_cases hcore : Plain ofCore ∧ Spells m ofCore
      · rw [if_neg happ, if_pos hcore]
        exact iff_of_false (Option.some_ne_none _).symm fun h => happ (h.1.mp hcore)
      · rw [if_neg happ, if_neg hcore]
        exact iff_of_true rfl ⟨iff_of_false hcore happ, fun h => absurd h happ⟩

end View

/-! ## Behind the scheme -/

section LinkView

variable {m : CaseMapping} {slash : Bool} {rest : Text}

theorem plainCode_nil (m : CaseMapping) : plainCode m [] = none := by
  have hsymbols : symbolsOf m [] = [] := rfl
  exact if_neg fun h => absurd h.2.2 (by rw [hsymbols]; decide)

theorem marked_of_some {code : Text} (h : after marker rest = some code) :
    marked rest = some (segment code) := by
  have hafter : after (text (ascii "/r/")) rest = some code := h
  rw [marked, hafter]
  rfl

theorem marked_of_lead {z : Text} (h : after marker (text (ascii "r/") ++ z) = none) (hne : z ≠ []) :
    marked (text (ascii "r/") ++ z) = some (segment z) := by
  have hafter : after (text (ascii "/r/")) (text (ascii "r/") ++ z) = none := h
  have hopens : opens (ascii "r/") (text (ascii "r/") ++ z) = true :=
    (opens_iff lowerAscii_marker).mpr ⟨_, rfl, List.prefix_append _ _⟩
  rw [marked, hafter]
  exact if_pos ⟨hopens, hne⟩

theorem coreCode_linkView (m : CaseMapping) (slash : Bool) (rest : Text) :
    (linkView slash rest).coreCode m = (marked rest).bind (plainCode m) := by
  rw [linkView]
  split
  · rename_i hlead
    obtain ⟨-, ⟨z, rfl⟩, hsegment⟩ := hlead
    have hdrop : (text (ascii "r/") ++ z).drop 2 = z := rfl
    rw [hdrop] at hsegment ⊢
    have hne : z ≠ [] := fun hnil => hsegment (by rw [hnil]; rfl)
    cases hmarker : after marker (text (ascii "r/") ++ z) with
    | none => rw [marked_of_lead hmarker hne, View.coreCode, Option.bind_some]
    | some code => rw [marked_of_some hmarker, View.coreCode, Option.bind_some]
  · cases hmarker : after marker rest with
    | none => exact View.coreCode_places m _ _
    | some code =>
      rw [marked_of_some hmarker, Option.bind_some]
      dsimp only
      split
      · rename_i hempty
        rw [View.coreCode_places, hempty, plainCode_nil, Option.bind_none]
      · rw [View.coreCode]

theorem appCode_linkView (m : CaseMapping) (slash : Bool) (rest : Text) :
    (linkView slash rest).appCode m = linkCode m (if slash = true then rune 47 :: rest else rest) := by
  rw [linkView]
  split
  · rename_i hlead
    obtain ⟨hslash, ⟨z, rfl⟩, hsegment⟩ := hlead
    have hdrop : (text (ascii "r/") ++ z).drop 2 = z := rfl
    have hmarker : rune 47 :: (text (ascii "r/") ++ z) = marker ++ z := rfl
    rw [hdrop] at hsegment ⊢
    rw [if_pos hslash, linkCode, hmarker, firstSegment_marker, if_neg hsegment, Option.bind_some]
    cases after marker (text (ascii "r/") ++ z) with
    | none => rw [View.appCode]
    | some code => rw [View.appCode]
  · rename_i hlead
    have hskip : linkCode m (if slash = true then rune 47 :: rest else rest) = linkCode m rest := by
      split
      · rename_i hslash
        rw [linkCode, linkCode]
        by_cases hstart : marker <+: rune 47 :: rest
        · -- The marker is there, but nothing is behind it.
          obtain ⟨z, hz⟩ := hstart
          have hrest : rest = text (ascii "r/") ++ z := (List.cons.inj hz).2.symm
          have hempty : segment z = [] := by
            by_contra hne
            exact hlead ⟨hslash, ⟨z, hrest.symm⟩, by rw [hrest]; exact hne⟩
          have hwhole : firstSegment (rune 47 :: rest) = firstSegment z := by
            rw [hrest]
            exact (firstSegment_marker z).trans (if_pos hempty)
          have htail : firstSegment rest = firstSegment z := by
            rw [hrest]
            exact firstSegment_lead hempty
          rw [hwhole, htail]
        · rw [firstSegment_cons hstart]
      · rfl
    rw [hskip, linkCode]
    cases hmarker : after marker rest with
    | none =>
      rw [firstSegment_of_none hmarker]
      exact View.appCode_places m _ _
    | some code =>
      rw [firstSegment_of_some hmarker]
      dsimp only
      split
      · exact View.appCode_places m _ _
      · rw [View.appCode, Option.bind_some]

end LinkView

/-! ## The whole string -/

section Whole

variable {x : Text}

theorem exists_of_schemeFirst (h : schemeFirst x = true) :
    ∃ w z, x = w ++ (text (ascii "://") ++ z) ∧ rune 58 ∉ w ∧ rune 47 ∉ w := by
  have lower {pat : Bytes} (hall : (pat.all fun p => p < 128 && toLower p == p) = true) : LowerAscii pat := by
    rw [List.all_eq_true] at hall
    simpa only [LowerAscii, Bool.and_eq_true, decide_eq_true_eq, beq_iff_eq] using hall
  rw [schemeFirst, Bool.or_eq_true, Bool.or_eq_true] at h
  obtain (h | h) | h := h
  · exact exists_of_opens (ascii "http") (lower (by decide)) (by decide) h
  · exact exists_of_opens (ascii "https") (lower (by decide)) (by decide) h
  · exact exists_of_opens (ascii "crosstransfer") (lower (by decide)) (by decide) h

theorem opens_append (pat more : Bytes) (h : opens (pat ++ more) x = true) : opens pat x = true := by
  induction pat generalizing x with
  | nil => rfl
  | cons p pat ih =>
    cases x with
    | nil => cases h
    | cons c x =>
      rw [List.cons_append, opens, Bool.and_eq_true] at h
      rw [opens, Bool.and_eq_true]
      exact ⟨h.1, ih h.2⟩

theorem isLink_iff (m : CaseMapping) : isLink m x = true ↔
    schemeFirst x = true ∨ opens schemePrefix x = true := by
  have hlong : opens (ascii "crosstransfer://") x = true → opens schemePrefix x = true :=
    opens_append schemePrefix (ascii "//")
  rw [isLink_eq, schemeFirst]
  simp only [Bool.or_eq_true]
  exact ⟨fun h => h.imp_left .inl, fun h => h.elim (fun hs => hs.imp_right hlong) .inr⟩

/-- What follows `crosstransfer:` is searched like the whole. -/
theorem crosstransfer_first (m : CaseMapping) (h : opens schemePrefix x = true) :
    rune 58 ∈ x ∧ linkCode m x = linkCode m (x.drop schemePrefix.length) := by
  obtain ⟨w, hw, z, rfl⟩ := (opens_iff lowerAscii_scheme).mp h
  have hlength : schemePrefix.length = (text w).length := by
    rw [← hw, List.length_map]
    exact (List.length_map _).symm
  have solid (b : UInt8) : toLower b ∈ schemePrefix → b ≠ 47 := by
    revert b
    apply Paths.forall_byte
    decide
  have hslash : rune 47 ∉ text w := by
    intro hmem
    obtain ⟨b, hb, heq⟩ := List.mem_map.mp hmem
    exact solid b (hw ▸ List.mem_map_of_mem hb) (rune_inj.mp heq)
  have hcolon : rune 58 ∈ text w := by
    have hmem : (58 : UInt8) ∈ w.map toLower := by
      rw [hw]
      decide
    obtain ⟨b, hb, heq⟩ := List.mem_map.mp hmem
    have hb' : b = 58 := ((toLower_eq_iff (p := 58) rfl).mp heq).elim id id
    exact List.mem_map.mpr ⟨b, hb, congrArg rune hb'⟩
  refine ⟨List.mem_append_left z hcolon, ?_⟩
  rw [hlength, List.drop_left, linkCode, firstSegment_append hslash]
  rfl

end Whole

/-! ## The two trims -/

/-- A text with white space around it. -/
def Around (t d : Text) : Prop := ∃ pre post, t = pre ++ d ++ post ∧
  (∀ c ∈ pre, isWhiteSpace c = true) ∧ ∀ c ∈ post, isWhiteSpace c = true

/-- The core leaves white space that is not ASCII. -/
theorem around_trim (s : Text) : Around (coreTrim s) (trim s) := by
  apply exists_margins
  intro c hc
  simp only [isAsciiSpace, Bool.or_eq_true, decide_eq_true_eq, beq_iff_eq] at hc
  simp only [isWhiteSpace, Bool.or_eq_true, decide_eq_true_eq, List.contains_iff_mem, List.mem_cons]
  omega

namespace Around

variable {t d : Text}

theorem linkCode_eq (h : Around t d) (m : CaseMapping) : linkCode m t = linkCode m d := by
  obtain ⟨pre, post, rfl, hpre, hpost⟩ := h
  exact linkCode_margins hpre hpost

theorem normalizeTakeCode_eq (h : Around t d) (m : CaseMapping) :
    normalizeTakeCode m t = normalizeTakeCode m d := by
  obtain ⟨pre, post, rfl, hpre, hpost⟩ := h
  exact normalizeTakeCode_margins m hpre hpost

theorem colon (h : Around t d) (hmem : rune 58 ∈ t) : rune 58 ∈ d := by
  obtain ⟨pre, post, rfl, hpre, hpost⟩ := h
  have solid : ¬isWhiteSpace (rune 58) = true := by decide
  rw [List.mem_append, List.mem_append] at hmem
  obtain (hmem | hmem) | hmem := hmem
  · exact absurd (hpre _ hmem) solid
  · exact hmem
  · exact absurd (hpost _ hmem) solid

theorem opens_scheme (h : Around t d) (hscheme : opens schemePrefix t = true) :
    opens schemePrefix d = true := by
  obtain ⟨pre, post, rfl, hpre, hpost⟩ := h
  exact opens_of_margins lowerAscii_scheme (by decide) solid_scheme hpre hpost hscheme

/-- If the scheme has the first `://`, the core finds it there. -/
theorem after_schemeFirst (h : Around t d) (hfirst : schemeFirst d = true) (m : CaseMapping) :
    ∃ rest, after (text (ascii "://")) t = some rest ∧ linkCode m t = linkCode m (rune 47 :: rest) := by
  obtain ⟨pre, post, rfl, hpre, hpost⟩ := h
  obtain ⟨w, z, rfl, hcolon, hslash⟩ := exists_of_schemeFirst hfirst
  have hsplit : pre ++ (w ++ (text (ascii "://") ++ z)) ++ post =
      (pre ++ w) ++ (text (ascii "://") ++ (z ++ post)) := by
    simp only [List.append_assoc]
  have notMem {c : Rune} (hc : isWhiteSpace c = false) (hw : c ∉ w) : c ∉ pre ++ w := by
    rw [List.mem_append, not_or]
    exact ⟨fun hmem => Bool.false_ne_true (hc ▸ hpre c hmem), hw⟩
  rw [hsplit]
  refine ⟨z ++ post, ?_, ?_⟩
  · have hskip : after (text (ascii "://")) (pre ++ w ++ (text (ascii "://") ++ (z ++ post))) =
        after (text (ascii "://")) (text (ascii "://") ++ (z ++ post)) :=
      after_append_of_notMem (p := rune 58) (notMem (by decide) hcolon)
    exact hskip.trans (after_pattern (p := rune 58))
  · -- Of the two slashes only the second can begin `/r/`.
    have hsecond : firstSegment (text (ascii "://") ++ (z ++ post)) = firstSegment (rune 47 :: (z ++ post)) := by
      change firstSegment (rune 58 :: rune 47 :: rune 47 :: (z ++ post)) = _
      rw [firstSegment_cons, firstSegment_cons]
      · intro hstart
        have hr := (List.cons_prefix_cons.mp (List.cons_prefix_cons.mp hstart).2).1
        exact absurd hr (by decide)
      · intro hstart
        exact absurd (List.cons_prefix_cons.mp hstart).1 (by decide)
    rw [linkCode, firstSegment_append (notMem (by decide) hslash), hsecond]
    rfl

end Around

/-! ## What each of them reads -/

section Reads

variable (m : CaseMapping) (s : Text)

/-- The app reads what `view` says. -/
theorem app_reads : extractTakeCode m s = (view s).appCode m := by
  rw [extractTakeCode_eq, view]
  have haround := around_trim s
  generalize trim s = d at *
  generalize coreTrim s = t at *
  rw [← haround.linkCode_eq m, ← haround.normalizeTakeCode_eq m]
  cases hsep : after (text (ascii "://")) t with
  | some rest =>
    dsimp only
    by_cases hfirst : schemeFirst d = true
    · obtain ⟨rest', hrest, hcode⟩ := haround.after_schemeFirst hfirst m
      rw [hsep, Option.some.injEq] at hrest
      rw [if_pos ((isLink_iff m).mpr (.inl hfirst)), if_pos hfirst, appCode_linkView, if_pos rfl, hcode, hrest]
    · rw [if_neg hfirst]
      by_cases hscheme : opens schemePrefix d = true
      · rw [if_pos ((isLink_iff m).mpr (.inr hscheme)), if_pos hscheme, View.appCode_places]
        rfl
      · -- Another scheme: the app takes the text for a bare code.
        have hcolon : rune 58 ∈ t := by
          obtain ⟨w, hw⟩ := eq_append_of_after (p := rune 58) hsep
          rw [hw]
          exact List.mem_append_left _ (List.mem_append_right w List.mem_cons_self)
        have hlink : ¬isLink m d = true := fun h => ((isLink_iff m).mp h).elim hfirst hscheme
        rw [if_neg hlink, if_neg hscheme, View.appCode_places, normalizeTakeCode_eq,
          if_neg (not_spells_of_colon m hcolon), Option.bind_none]
  | none =>
    have hfirst : ¬schemeFirst d = true := by
      intro hfirst
      obtain ⟨rest, hrest, -⟩ := haround.after_schemeFirst hfirst m
      rw [hsep] at hrest
      cases hrest
    dsimp only
    by_cases hscheme : opens schemePrefix d = true
    · rw [if_pos ((isLink_iff m).mpr (.inr hscheme)), if_pos hscheme]
      by_cases hopens : opens schemePrefix t = true
      · rw [if_pos hopens, appCode_linkView, (crosstransfer_first m hopens).2, if_neg Bool.false_ne_true]
      · rw [if_neg hopens, View.appCode_places]
        rfl
    · have hlink : ¬isLink m d = true := fun h => ((isLink_iff m).mp h).elim hfirst hscheme
      rw [if_neg hlink, if_neg hscheme, View.appCode]

/-- The core reads what `view` says. -/
theorem core_reads : result (parseCodeOrLink (utf8 s)) = (view s).coreCode m := by
  have hpart : result (parseCodeOrLink (utf8 s)) = (corePart s).bind (plainCode m) := by
    rw [parseCodeOrLink_utf8]
    cases corePart s with
    | none => rfl
    | some part => rw [Option.elim_some, result_normalize m, Option.bind_some, plainCode]
  rw [hpart, corePart, view]
  have haround := around_trim s
  generalize trim s = d at *
  generalize coreTrim s = t at *
  have hlink : rune 58 ∈ t → plainCode m t = none := fun hcolon =>
    if_neg fun h => not_spells_of_colon m hcolon h.2
  cases after (text (ascii "://")) t with
  | some rest =>
    dsimp only
    split
    · exact (coreCode_linkView m true rest).symm
    · split
      · exact (View.coreCode_places m _ _).symm
      · exact (View.coreCode_places m _ _).symm
  | none =>
    dsimp only
    by_cases hscheme : opens schemePrefix d = true
    · rw [if_pos hscheme]
      by_cases hopens : opens schemePrefix t = true
      · rw [if_pos hopens, coreCode_linkView]
        by_cases hempty : t.drop schemePrefix.length = []
        · rw [if_neg fun h => h.2 hempty, hempty, Option.bind_some]
          exact hlink (crosstransfer_first m hopens).1
        · rw [if_pos ⟨hopens, hempty⟩]
      · -- White space that is not ASCII hides the scheme from the core.
        obtain ⟨pre, post, rfl, -, -⟩ := haround
        have hcolon : rune 58 ∈ pre ++ d ++ post :=
          List.mem_append_left post (List.mem_append_right pre (crosstransfer_first m hscheme).1)
        rw [if_neg hopens, if_neg fun h => hopens h.1, Option.bind_some, View.coreCode_places, Option.bind_none]
        exact hlink hcolon
    · rw [if_neg hscheme, if_neg fun h => hscheme (haround.opens_scheme h.1), Option.bind_some, View.coreCode]

/-- The app and the core take the same code exactly from the strings in which what they see is
consistent. -/
theorem agrees_iff : Agrees m s ↔ (view s).Consistent m := by
  rw [Agrees, app_reads, core_reads m, View.consistent_iff]

end Reads

/-- Case mapping for ASCII alone. -/
def asciiCase : CaseMapping where
  upper c := [if h : 97 ≤ c.val ∧ c.val ≤ 122 then ⟨c.val - 32, by omega⟩ else c]
  lower c := [if h : 65 ≤ c.val ∧ c.val ≤ 90 then ⟨c.val + 32, by omega⟩ else c]
  upper_ascii := by
    apply Paths.forall_byte
    decide
  lower_ascii := by
    apply Paths.forall_byte
    decide
  lower_foreign c hc := ⟨c, [], by rw [dif_neg (by omega)], .inl hc⟩

/-- Without `//` the core reads a link of its own scheme and the app finds no `/r/` in it. -/
theorem not_agrees : ¬Agrees asciiCase (text (ascii "CrossTransfer:r/3K7QW-P9X2M")) := by
  unfold Agrees
  decide +kernel

end CrossTransfer.App
