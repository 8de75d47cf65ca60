import CrossTransfer.App.TakeCode
import CrossTransfer.Library.Trimming

/-! # What the core reads

`ParseCodeOrLink` on the UTF-8 bytes of a string, as a function of the code points: what the core
looks for is ASCII, for which UTF-8 is transparent (`utf8_transparent`).
-/

namespace CrossTransfer.App

open CrossTransfer.Library
open CrossTransfer.Transfer
open CrossTransfer.Share (toLower iEquals schemePrefix behindScheme behindMarker endsCode parseCodeOrLink)

/-! ## UTF-8 -/

theorem lt_128 {b : UInt8} : b < 128 ↔ b.toNat < 128 := UInt8.lt_iff_toNat_lt

theorem val_ofNat {n : Nat} (h : n.isValidChar) : (Char.ofNat n).val.toNat = n := by
  rw [Char.ofNat, dif_pos h]
  rfl

theorem encode_rune {b : UInt8} (h : b < 128) : (rune b).encode = [b] := by
  have hlow := lt_128.mp h
  have hvalid : b.toNat.isValidChar := .inl (by omega)
  have hval := val_ofNat hvalid
  have hencode : (rune b).encode = String.utf8EncodeChar (Char.ofNat b.toNat) := by
    rw [Rune.encode]
    exact congrArg _ (if_pos hvalid)
  rw [hencode, Paths.encode_one (by omega), hval, UInt8.ofNat_toNat]

/-- A character beyond ASCII is written without ASCII. -/
theorem encode_high {c : Char} (h : 0x7F < c.val.toNat) :
    String.utf8EncodeChar c ≠ [] ∧ ∀ b ∈ String.utf8EncodeChar c, ¬b < 128 := by
  have high {n k : Nat} (hk : 128 ≤ k) (hn : n + k < 256) : ¬UInt8.ofNat (n + k) < 128 := by
    rw [lt_128, UInt8.toNat_ofNat', Nat.mod_eq_of_lt hn]
    omega
  have hbound : c.val.toNat < 0x110000 := by
    obtain hvalid | hvalid := c.valid <;> omega
  obtain h2 | h2 := Nat.lt_or_ge 0x7FF c.val.toNat
  · obtain h3 | h3 := Nat.lt_or_ge 0xFFFF c.val.toNat
    · rw [Paths.encode_four h3]
      simp only [List.forall_mem_cons]
      exact ⟨List.cons_ne_nil _ _, high (by decide) (by omega), high (by decide) (by omega),
        high (by decide) (by omega), high (by decide) (by omega), List.forall_mem_nil _⟩
    · rw [Paths.encode_three h2 h3]
      simp only [List.forall_mem_cons]
      exact ⟨List.cons_ne_nil _ _, high (by decide) (by omega), high (by decide) (by omega),
        high (by decide) (by omega), List.forall_mem_nil _⟩
  · rw [Paths.encode_two h h2]
    simp only [List.forall_mem_cons]
    exact ⟨List.cons_ne_nil _ _, high (by decide) (by omega), high (by decide) (by omega),
      List.forall_mem_nil _⟩

theorem encode_foreign {c : Rune} (h : 128 ≤ c.val) : c.encode ≠ [] ∧ ∀ b ∈ c.encode, ¬b < 128 := by
  rw [Rune.encode]
  split
  · rename_i hvalid
    apply encode_high
    rw [val_ofNat hvalid]
    omega
  · exact encode_high (by decide)

/-- A rune is a byte of ASCII or beyond. -/
theorem rune_cases (c : Rune) : (∃ b : UInt8, b < 128 ∧ c = rune b) ∨ 128 ≤ c.val := by
  obtain hlow | hhigh := Nat.lt_or_ge c.val 128
  · left
    have hnat : (UInt8.ofNat c.val).toNat = c.val := by
      rw [UInt8.toNat_ofNat']
      omega
    exact ⟨UInt8.ofNat c.val, lt_128.mpr (by omega), Fin.ext hnat.symm⟩
  · exact .inr hhigh

theorem utf8_transparent : Transparent Rune.encode rune (· < 128) where
  alone _ h := encode_rune h
  foreign c := (rune_cases c).imp_right encode_foreign

theorem rune_inj {b c : UInt8} : rune b = rune c ↔ b = c := by
  rw [Fin.ext_iff]
  exact UInt8.toNat_inj

/-! ## What the core looks for -/

/-- Whether a text begins with a pattern of lower-case ASCII, in whatever case. -/
def opens : Bytes → Text → Bool
  | [], _ => true
  | _ :: _, [] => false
  | p :: pat, c :: x => (c == rune p || c == rune (Paths.toUpper p)) && opens pat x

/-- ASCII without upper-case letters. -/
def LowerAscii (pat : Bytes) : Prop := ∀ p ∈ pat, p < 128 ∧ toLower p = p

theorem toLower_eq_iff {b p : UInt8} (hp : toLower p = p) : toLower b = p ↔ b = p ∨ b = Paths.toUpper p := by
  simp only [toLower, Paths.toUpper, UInt8.le_iff_toNat_le, ← UInt8.toNat_inj] at hp ⊢
  have hb := b.toNat_lt
  have hlt := p.toNat_lt
  split at hp
  · simp only [UInt8.toNat_add, UInt8.reduceToNat] at hp
    omega
  split
  · split
    · simp only [UInt8.toNat_add, UInt8.toNat_sub, UInt8.reduceToNat] at *
      omega
    · simp only [UInt8.toNat_add, UInt8.reduceToNat] at *
      omega
  · split
    · simp only [UInt8.toNat_sub, UInt8.reduceToNat] at *
      omega
    · simp only [or_self]

theorem lt_128_of_toLower {b : UInt8} (h : toLower b < 128) : b < 128 := by
  simp only [toLower, lt_128, UInt8.le_iff_toNat_le] at *
  split at h
  · simp only [UInt8.reduceToNat] at *
    omega
  · exact h

theorem opens_iff {pat : Bytes} (hpat : LowerAscii pat) {x : Text} :
    opens pat x = true ↔ ∃ w, w.map toLower = pat ∧ text w <+: x := by
  induction pat generalizing x with
  | nil => exact iff_of_true rfl ⟨[], rfl, List.nil_prefix⟩
  | cons p pat ih =>
    obtain ⟨⟨-, hp⟩, htail⟩ := List.forall_mem_cons.mp hpat
    cases x with
    | nil =>
      refine iff_of_false Bool.false_ne_true ?_
      rintro ⟨w, hw, hstart⟩
      rw [List.prefix_nil, text, List.map_eq_nil_iff] at hstart
      rw [hstart] at hw
      cases hw
    | cons c x =>
      rw [opens, Bool.and_eq_true, Bool.or_eq_true, beq_iff_eq, beq_iff_eq, ih htail]
      constructor
      · rintro ⟨hc, w, rfl, hstart⟩
        obtain ⟨b, hb, rfl⟩ : ∃ b, toLower b = p ∧ c = rune b :=
          hc.elim (fun h => ⟨p, hp, h⟩) fun h => ⟨_, (toLower_eq_iff hp).mpr (.inr rfl), h⟩
        exact ⟨b :: w, by rw [List.map_cons, hb], List.cons_prefix_cons.mpr ⟨rfl, hstart⟩⟩
      · rintro ⟨_ | ⟨b, w⟩, hw, hstart⟩
        · cases hw
        · rw [List.map_cons, List.cons.injEq] at hw
          obtain ⟨rfl, hrest⟩ := List.cons_prefix_cons.mp hstart
          exact ⟨((toLower_eq_iff hp).mp hw.1).imp (congrArg rune) (congrArg rune), w, hw.2, hrest⟩

theorem forall_of_toLower {w pat : Bytes} (hpat : LowerAscii pat) (hw : w.map toLower = pat) :
    ∀ b ∈ w, b < 128 := by
  intro b hb
  exact lt_128_of_toLower (hpat _ (hw ▸ List.mem_map_of_mem hb)).1

/-- `IEquals` of the first bytes and a pattern. -/
theorem iEquals_utf8 {pat : Bytes} (hpat : LowerAscii pat) (x : Text) :
    iEquals ((utf8 x).take pat.length) pat = opens pat x := by
  have hsame : pat.map toLower = pat :=
    (List.map_congr_left fun p hp => (hpat p hp).2).trans (List.map_id' pat)
  rw [Bool.eq_iff_iff, opens_iff hpat, iEquals, beq_iff_eq, hsame]
  constructor
  · intro htake
    refine ⟨_, htake, (utf8_transparent.prefix_iff (forall_of_toLower hpat htake)).mp ?_⟩
    exact List.take_prefix _ _
  · rintro ⟨w, hw, hstart⟩
    obtain ⟨rest, hrest⟩ := (utf8_transparent.prefix_iff (forall_of_toLower hpat hw)).mpr hstart
    have hlength : w.length = pat.length := by rw [← hw, List.length_map]
    rw [utf8, ← hrest, ← hlength, List.take_left, hw]

theorem drop_utf8 {pat : Bytes} (hpat : LowerAscii pat) {x : Text} (h : opens pat x = true) :
    (utf8 x).drop pat.length = utf8 (x.drop pat.length) := by
  obtain ⟨w, hw, hstart⟩ := (opens_iff hpat).mp h
  have hlength : w.length = pat.length := by rw [← hw, List.length_map]
  rw [← hlength]
  exact utf8_transparent.drop_of_start (forall_of_toLower hpat hw) hstart

theorem utf8_eq_nil {x : Text} : utf8 x = [] ↔ x = [] := by
  refine ⟨fun h => ?_, fun h => h ▸ rfl⟩
  cases x with
  | nil => rfl
  | cons c x =>
    rw [utf8, List.flatMap_cons, List.append_eq_nil_iff] at h
    obtain ⟨b, hb, rfl⟩ | hhigh := rune_cases c
    · rw [encode_rune hb] at h
      cases h.1
    · exact absurd h.1 (encode_foreign hhigh).1

/-! ## The part that the core reads -/

/-- `isspace` of a character; the core sees no other white space. -/
def isAsciiSpace (c : Rune) : Bool := decide (9 ≤ c.val ∧ c.val ≤ 13) || c.val == 32

def coreTrim (s : Text) : Text := strip isAsciiSpace s

/-- What is behind `/r/`, or behind a leading `r/`, up to what ends the code. -/
def marked (rest : Text) : Option Text :=
  match after (text (ascii "/r/")) rest with
  | some code => some (code.takeWhile inSegment)
  | none =>
    if opens (ascii "r/") rest = true ∧ rest.drop 2 ≠ [] then some ((rest.drop 2).takeWhile inSegment)
    else none

/-- The part of a string that the core takes for the code. -/
def corePart (s : Text) : Option Text :=
  match after (text (ascii "://")) (coreTrim s) with
  | some rest => marked rest
  | none =>
    if opens schemePrefix (coreTrim s) = true ∧ (coreTrim s).drop schemePrefix.length ≠ [] then
      marked ((coreTrim s).drop schemePrefix.length)
    else some (coreTrim s)

theorem isAsciiSpace_rune (b : UInt8) : isAsciiSpace (rune b) = Share.isSpace b := by
  revert b
  apply Paths.forall_byte
  decide

theorem inSegment_rune (b : UInt8) : inSegment (rune b) = !endsCode b := by
  revert b
  apply Paths.forall_byte
  decide

/-- What is not a byte of ASCII is beyond it. -/
theorem high_of_ne {c : Rune} (h : ∀ b : UInt8, b < 128 → c ≠ rune b) : 128 ≤ c.val := by
  obtain ⟨b, hb, hc⟩ | hhigh := rune_cases c
  · exact absurd hc (h b hb)
  · exact hhigh

theorem trim_utf8 (s : Text) : Share.trim (utf8 s) = utf8 (coreTrim s) := by
  have stays (b : UInt8) (hb : ¬b < 128) : Share.isSpace b = false := by
    simp only [lt_128, Share.isSpace, UInt8.le_iff_toNat_le, Bool.or_eq_false_iff, decide_eq_false_iff_not,
      beq_eq_false_iff_ne, ne_eq, ← UInt8.toNat_inj, UInt8.reduceToNat] at *
    omega
  have stays' (c : Rune) (hc : ∀ b : UInt8, b < 128 → c ≠ rune b) : isAsciiSpace c = false := by
    have hhigh := high_of_ne hc
    simp only [isAsciiSpace, Bool.or_eq_false_iff, decide_eq_false_iff_not, beq_eq_false_iff_ne, ne_eq]
    omega
  have same (b : UInt8) (_ : b < 128) := isAsciiSpace_rune b
  rw [Share.trim, utf8, utf8_transparent.dropWhile_encode same stays stays',
    utf8_transparent.rdropWhile_encode same stays stays']
  rfl

theorem after_utf8 {p : UInt8} {ps : Bytes} (hpat : ∀ b ∈ p :: ps, b < 128) (x : Text) :
    after (p :: ps) (utf8 x) = (after (text (p :: ps)) x).map utf8 :=
  utf8_transparent.after_encode hpat

theorem segment_utf8 (x : Text) :
    (utf8 x).takeWhile (!endsCode ·) = utf8 (x.takeWhile inSegment) := by
  apply utf8_transparent.takeWhile_encode fun b _ => inSegment_rune b
  · intro b hb
    simp only [lt_128, endsCode, Bool.not_eq_true', Bool.or_eq_false_iff, beq_eq_false_iff_ne, ne_eq,
      ← UInt8.toNat_inj, UInt8.reduceToNat] at *
    omega
  · intro c hc
    have hhigh := high_of_ne hc
    simp only [inSegment, rune, Bool.not_eq_true', Bool.or_eq_false_iff, beq_eq_false_iff_ne, ne_eq, Fin.ext_iff,
      UInt8.reduceToNat]
    omega

theorem lowerAscii_marker : LowerAscii (ascii "r/") := by
  unfold LowerAscii
  decide +kernel

theorem lowerAscii_scheme : LowerAscii schemePrefix := by
  unfold LowerAscii
  decide +kernel

/-- The branch of a leading `r/`. -/
theorem behindMarker_of_none {b : Bytes} (h : after (ascii "/r/") b = none) : behindMarker b =
    if iEquals (b.take 2) (ascii "r/") = true ∧ b.drop 2 ≠ [] then some (b.drop 2) else none := by
  unfold behindMarker
  rw [h]
  match b with
  | [] => rfl
  | [c] => exact (if_neg fun hlead => hlead.2 rfl).symm
  | c :: sep :: code =>
    have hr := toLower_eq_iff (b := c) (p := 114) rfl
    have hslash := toLower_eq_iff (b := sep) (p := 47) rfl
    have hmarker : iEquals [c, sep] (ascii "r/") = true ↔ (c = 114 ∨ c = 82) ∧ sep = 47 := by
      rw [iEquals, beq_iff_eq]
      change [toLower c, toLower sep] = [114, 47] ↔ _
      rw [List.cons.injEq, List.cons.injEq, hr, hslash]
      exact and_congr Iff.rfl ⟨fun h => h.1.elim id id, fun h => ⟨.inl h, rfl⟩⟩
    have hcond : ((c = 114 ∨ c = 82) ∧ sep = 47 ∧ code ≠ []) ↔
        iEquals [c, sep] (ascii "r/") = true ∧ code ≠ [] := by
      rw [hmarker, and_assoc]
    exact if_congr hcond rfl rfl

theorem marked_utf8 (rest : Text) :
    (behindMarker (utf8 rest)).map (·.takeWhile (!endsCode ·)) = (marked rest).map utf8 := by
  have hafter : after (ascii "/r/") (utf8 rest) = (after (text (ascii "/r/")) rest).map utf8 :=
    after_utf8 (p := 47) (by decide +kernel) rest
  cases hcode : after (text (ascii "/r/")) rest with
  | some code =>
    rw [hcode] at hafter
    have hbehind : behindMarker (utf8 rest) = some (utf8 code) := by
      unfold behindMarker
      rw [hafter]
      rfl
    rw [hbehind, marked, hcode]
    exact congrArg some (segment_utf8 code)
  | none =>
    rw [hcode] at hafter
    rw [behindMarker_of_none hafter, marked, hcode]
    have hopens : iEquals ((utf8 rest).take 2) (ascii "r/") = opens (ascii "r/") rest :=
      iEquals_utf8 lowerAscii_marker rest
    rw [hopens]
    by_cases hlead : opens (ascii "r/") rest = true
    · have hdrop : (utf8 rest).drop 2 = utf8 (rest.drop 2) := drop_utf8 lowerAscii_marker hlead
      simp only [hlead, hdrop, ne_eq, utf8_eq_nil, true_and]
      split
      · exact congrArg some (segment_utf8 _)
      · rfl
    · rw [if_neg fun h => hlead h.1, if_neg fun h => hlead h.1]
      rfl

/-- The core reads the code in `corePart`. -/
theorem parseCodeOrLink_utf8 (s : Text) :
    parseCodeOrLink (utf8 s) = (corePart s).elim [] fun part => Share.normalize (utf8 part) := by
  have link (rest : Text) :
      ((behindMarker (utf8 rest)).elim [] fun code => Share.normalize (code.takeWhile (!endsCode ·))) =
        (marked rest).elim [] fun part => Share.normalize (utf8 part) := by
    have hmarked := marked_utf8 rest
    cases hcode : behindMarker (utf8 rest) with
    | none =>
      rw [hcode, Option.map_none, eq_comm, Option.map_eq_none_iff] at hmarked
      rw [hmarked]
      rfl
    | some code =>
      rw [hcode, Option.map_some, eq_comm, Option.map_eq_some_iff] at hmarked
      obtain ⟨part, hpart, hsegment⟩ := hmarked
      rw [hpart]
      exact congrArg Share.normalize hsegment.symm
  rw [parseCodeOrLink, trim_utf8, corePart]
  generalize coreTrim s = t
  have hafter : after (ascii "://") (utf8 t) = (after (text (ascii "://")) t).map utf8 :=
    after_utf8 (p := 58) (by decide +kernel) t
  by_cases hempty : t = []
  · rw [hempty]
    rfl
  · rw [if_neg (by rw [List.isEmpty_iff, utf8_eq_nil]; exact hempty), behindScheme, hafter]
    cases after (text (ascii "://")) t with
    | some rest =>
      refine Eq.trans ?_ (link rest)
      dsimp only [Option.map_some]
      cases behindMarker (utf8 rest) <;> rfl
    | none =>
      rw [Option.map_none, iEquals_utf8 lowerAscii_scheme]
      by_cases hscheme : opens schemePrefix t = true
      · have hdrop := drop_utf8 lowerAscii_scheme hscheme
        have hlength : schemePrefix.length < (utf8 t).length ↔ t.drop schemePrefix.length ≠ [] := by
          rw [ne_eq, ← utf8_eq_nil, ← hdrop, List.drop_eq_nil_iff, Nat.not_le]
        rw [hdrop]
        by_cases hrest : t.drop schemePrefix.length = []
        · rw [if_neg fun h => hlength.mp h.1 hrest, if_neg fun h => h.2 hrest]
          rfl
        · rw [if_pos ⟨hlength.mpr hrest, hscheme⟩, if_pos ⟨hscheme, hrest⟩]
          refine Eq.trans ?_ (link _)
          dsimp only
          cases behindMarker (utf8 (t.drop schemePrefix.length)) <;> rfl
      · rw [if_neg fun h => hscheme h.2, if_neg fun h => hscheme h.1]
        rfl

end CrossTransfer.App
