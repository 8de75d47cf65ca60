import CrossTransfer.Transfer.PathSanitize

/-! # The UTF-8 validator

`ValidUtf8` of `path_sanitize.cpp` accepts the encodings of the sequences of Unicode scalar values
and nothing else (`validUtf8_iff`). A round of its loop passes one encoded character.
-/

namespace CrossTransfer.Transfer

open CrossTransfer.Library

namespace Paths

/-- The encoding of a sequence of characters. -/
def IsUtf8 (s : Bytes) : Prop := ∃ cs : List Char, s = cs.flatMap String.utf8EncodeChar

/-! ## Bytes -/

/-- A continuation byte. -/
def IsContinuation (u : UInt8) : Prop := 0x80 ≤ u.toNat ∧ u.toNat < 0xC0

instance (u : UInt8) : Decidable (IsContinuation u) := inferInstanceAs (Decidable (_ ∧ _))

/-- A byte is checked by its two halves. -/
theorem forall_byte {p : UInt8 → Prop} (h : ∀ i j : Fin 16, p (UInt8.ofNat (16 * i.val + j.val)))
    (u : UInt8) : p u := by
  have hu := h ⟨u.toNat / 16, Nat.div_lt_of_lt_mul u.toNat_lt⟩ ⟨u.toNat % 16, Nat.mod_lt _ (by omega)⟩
  rwa [Nat.div_add_mod, UInt8.ofNat_toNat] at hu

theorem leadByte_eq (u : UInt8) : leadByte u =
    if 0xC2 ≤ u.toNat ∧ u.toNat ≤ 0xDF then some (2, u.toNat - 0xC0)
    else if 0xE0 ≤ u.toNat ∧ u.toNat ≤ 0xEF then some (3, u.toNat - 0xE0)
    else if 0xF0 ≤ u.toNat ∧ u.toNat ≤ 0xF4 then some (4, u.toNat - 0xF0)
    else none := by
  revert u
  apply forall_byte
  decide

theorem continuation_eq (u : UInt8) :
    (u &&& 0xC0 = 0x80 ↔ IsContinuation u) ∧ (u &&& 0x3F).toNat = u.toNat % 64 := by
  revert u
  apply forall_byte
  decide

theorem continuationBytes_succ (s : Bytes) (i n cp : Nat) : continuationBytes s i (n + 1) cp =
    if IsContinuation (byteAt s i) then
      continuationBytes s (i + 1) n (cp * 64 + ((byteAt s i).toNat - 0x80))
    else none := by
  obtain ⟨hcont, hbits⟩ := continuation_eq (byteAt s i)
  rw [continuationBytes]
  simp only [hcont]
  split
  · rename_i hc
    have hc' : 0x80 ≤ (byteAt s i).toNat ∧ (byteAt s i).toNat < 0xC0 := hc
    have hlow : (byteAt s i).toNat % 64 = (byteAt s i).toNat - 0x80 := by omega
    have hjoin : (cp <<< 6) ||| ((byteAt s i).toNat - 0x80) = cp * 64 + ((byteAt s i).toNat - 0x80) := by
      rw [← Nat.shiftLeft_add_eq_or_of_lt (show (byteAt s i).toNat - 0x80 < 2 ^ 6 by omega),
        Nat.shiftLeft_eq]
    rw [hbits, hlow, hjoin]
  · rfl

theorem drop_byteAt {s : Bytes} {i : Nat} (h : i < s.length) :
    s.drop i = byteAt s i :: s.drop (i + 1) := by
  rw [List.drop_eq_getElem_cons h, byteAt, List.getD_eq_getElem?_getD, List.getElem?_eq_getElem h,
    Option.getD_some]

/-! ## One round -/

section Round

variable {s : Bytes} {i : Nat}

theorem byte_lt_iff {u v : UInt8} : u < v ↔ u.toNat < v.toNat := UInt8.lt_iff_toNat_lt

/-- The value of two, three and four bytes. -/
def value2 (s : Bytes) (i : Nat) : Nat :=
  ((byteAt s i).toNat - 0xC0) * 64 + ((byteAt s (i + 1)).toNat - 0x80)

def value3 (s : Bytes) (i : Nat) : Nat :=
  (((byteAt s i).toNat - 0xE0) * 64 + ((byteAt s (i + 1)).toNat - 0x80)) * 64 +
    ((byteAt s (i + 2)).toNat - 0x80)

def value4 (s : Bytes) (i : Nat) : Nat :=
  ((((byteAt s i).toNat - 0xF0) * 64 + ((byteAt s (i + 1)).toNat - 0x80)) * 64 +
    ((byteAt s (i + 2)).toNat - 0x80)) * 64 + ((byteAt s (i + 3)).toNat - 0x80)

theorem continuationBytes_one (cp : Nat) : continuationBytes s (i + 1) 1 cp =
    if IsContinuation (byteAt s (i + 1)) then some (cp * 64 + ((byteAt s (i + 1)).toNat - 0x80))
    else none := by
  rw [continuationBytes_succ]
  rfl

theorem continuationBytes_two (cp : Nat) : continuationBytes s (i + 1) 2 cp =
    if IsContinuation (byteAt s (i + 1)) ∧ IsContinuation (byteAt s (i + 2)) then
      some ((cp * 64 + ((byteAt s (i + 1)).toNat - 0x80)) * 64 + ((byteAt s (i + 2)).toNat - 0x80))
    else none := by
  rw [continuationBytes_succ, continuationBytes_one]
  exact (ite_and ..).symm

theorem continuationBytes_three (cp : Nat) : continuationBytes s (i + 1) 3 cp =
    if IsContinuation (byteAt s (i + 1)) ∧ IsContinuation (byteAt s (i + 2)) ∧
      IsContinuation (byteAt s (i + 3)) then
      some (((cp * 64 + ((byteAt s (i + 1)).toNat - 0x80)) * 64 +
        ((byteAt s (i + 2)).toNat - 0x80)) * 64 + ((byteAt s (i + 3)).toNat - 0x80))
    else none := by
  rw [continuationBytes_succ, continuationBytes_two]
  exact (ite_and ..).symm

theorem round_one (hi : i < s.length) (h : (byteAt s i).toNat < 0x80) :
    validUtf8Step s i = some (.inl (i + 1)) := by
  have hascii : byteAt s i < 0x80 := byte_lt_iff.mpr h
  rw [validUtf8Step, if_pos hi, if_pos hascii]

theorem not_ascii (h : 0x80 ≤ (byteAt s i).toNat) : ¬byteAt s i < 0x80 := by
  rw [byte_lt_iff, Nat.not_lt]
  exact h

/-- A round over a lead byte and what follows it. -/
theorem round_lead {len bits cp : Nat} {P : Prop} [Decidable P] (hi : i < s.length)
    (h : 0x80 ≤ (byteAt s i).toNat) (hlead : leadByte (byteAt s i) = some (len, bits))
    (hrest : continuationBytes s (i + 1) (len - 1) bits = if P then some cp else none) :
    validUtf8Step s i = if i + len ≤ s.length ∧ P ∧ codePointOk len cp = true then
      some (.inl (i + len)) else some (.inr false) := by
  rw [validUtf8Step, if_pos hi, if_neg (not_ascii h), hlead]
  simp only [hrest]
  by_cases hroom : i + len ≤ s.length
  · rw [if_neg (Nat.not_lt.mpr hroom)]
    by_cases hbytes : P
    · simp [hroom, hbytes]
    · simp [hbytes]
  · simp [hroom, Nat.not_le.mp hroom]

theorem round_two (hi : i < s.length) (h : 0xC2 ≤ (byteAt s i).toNat ∧ (byteAt s i).toNat ≤ 0xDF) :
    validUtf8Step s i = if i + 2 ≤ s.length ∧ IsContinuation (byteAt s (i + 1)) ∧
        codePointOk 2 (value2 s i) = true then
      some (.inl (i + 2)) else some (.inr false) := by
  apply round_lead hi (by omega) _ (continuationBytes_one _)
  rw [leadByte_eq, if_pos h]

theorem round_three (hi : i < s.length) (h : 0xE0 ≤ (byteAt s i).toNat ∧ (byteAt s i).toNat ≤ 0xEF) :
    validUtf8Step s i = if i + 3 ≤ s.length ∧ (IsContinuation (byteAt s (i + 1)) ∧
        IsContinuation (byteAt s (i + 2))) ∧ codePointOk 3 (value3 s i) = true then
      some (.inl (i + 3)) else some (.inr false) := by
  apply round_lead hi (by omega) _ (continuationBytes_two _)
  rw [leadByte_eq, if_neg (by omega), if_pos h]

theorem round_four (hi : i < s.length) (h : 0xF0 ≤ (byteAt s i).toNat ∧ (byteAt s i).toNat ≤ 0xF4) :
    validUtf8Step s i = if i + 4 ≤ s.length ∧ (IsContinuation (byteAt s (i + 1)) ∧
        IsContinuation (byteAt s (i + 2)) ∧ IsContinuation (byteAt s (i + 3))) ∧
        codePointOk 4 (value4 s i) = true then
      some (.inl (i + 4)) else some (.inr false) := by
  apply round_lead hi (by omega) _ (continuationBytes_three _)
  rw [leadByte_eq, if_neg (by omega), if_neg (by omega), if_pos h]

theorem round_other (hi : i < s.length) (h : 0x80 ≤ (byteAt s i).toNat)
    (h2 : ¬(0xC2 ≤ (byteAt s i).toNat ∧ (byteAt s i).toNat ≤ 0xDF))
    (h3 : ¬(0xE0 ≤ (byteAt s i).toNat ∧ (byteAt s i).toNat ≤ 0xEF))
    (h4 : ¬(0xF0 ≤ (byteAt s i).toNat ∧ (byteAt s i).toNat ≤ 0xF4)) :
    validUtf8Step s i = some (.inr false) := by
  rw [validUtf8Step, if_pos hi, if_neg (not_ascii h), leadByte_eq, if_neg h2, if_neg h3, if_neg h4]

theorem codePointOk_iff (len cp : Nat) : codePointOk len cp = true ↔
    (len = 3 → 0x800 ≤ cp) ∧ (len = 4 → 0x10000 ≤ cp) ∧ Nat.isValidChar cp := by
  simp only [codePointOk, Nat.isValidChar, Bool.and_eq_true, Bool.not_eq_true', Bool.and_eq_false_imp,
    beq_iff_eq, decide_eq_true_eq, decide_eq_false_iff_not]
  constructor
  · intro hok
    refine ⟨?_, ?_, ?_⟩
    · intro h
      have := hok.1.1.1 h
      omega
    · intro h
      have := hok.1.1.2 h
      omega
    · have := hok.2
      omega
  · rintro ⟨h3, h4, hvalid⟩
    refine ⟨⟨⟨?_, ?_⟩, ?_⟩, ?_⟩
    · intro h
      have := h3 h
      omega
    · intro h
      have := h4 h
      omega
    · omega
    · omega

/-! ## Encoded characters -/

theorem encode_one {c : Char} (h : c.val.toNat ≤ 0x7F) :
    String.utf8EncodeChar c = [UInt8.ofNat c.val.toNat] := by
  simp only [String.utf8EncodeChar, h, if_true]

theorem encode_two {c : Char} (hlow : 0x7F < c.val.toNat) (h : c.val.toNat ≤ 0x7FF) :
    String.utf8EncodeChar c = [UInt8.ofNat (c.val.toNat / 64 % 0x20 + 0xC0),
      UInt8.ofNat (c.val.toNat % 0x40 + 0x80)] := by
  simp only [String.utf8EncodeChar, Nat.not_le.mpr hlow, h, if_false, if_true]

theorem encode_three {c : Char} (hlow : 0x7FF < c.val.toNat) (h : c.val.toNat ≤ 0xFFFF) :
    String.utf8EncodeChar c = [UInt8.ofNat (c.val.toNat / 4096 % 0x10 + 0xE0),
      UInt8.ofNat (c.val.toNat / 64 % 0x40 + 0x80), UInt8.ofNat (c.val.toNat % 0x40 + 0x80)] := by
  have hlow' : ¬c.val.toNat ≤ 0x7F := by omega
  simp only [String.utf8EncodeChar, hlow', Nat.not_le.mpr hlow, h, if_false, if_true]

theorem encode_four {c : Char} (hlow : 0xFFFF < c.val.toNat) :
    String.utf8EncodeChar c = [UInt8.ofNat (c.val.toNat / 262144 % 0x08 + 0xF0),
      UInt8.ofNat (c.val.toNat / 4096 % 0x40 + 0x80), UInt8.ofNat (c.val.toNat / 64 % 0x40 + 0x80),
      UInt8.ofNat (c.val.toNat % 0x40 + 0x80)] := by
  have hlow' : ¬c.val.toNat ≤ 0x7F := by omega
  have hlow'' : ¬c.val.toNat ≤ 0x7FF := by omega
  simp only [String.utf8EncodeChar, hlow', hlow'', Nat.not_le.mpr hlow, if_false]

/-- A byte that is written with the value it has. -/
theorem ofNat_eq_byte {n : Nat} {u : UInt8} (h : n = u.toNat) : UInt8.ofNat n = u := by
  rw [h, UInt8.ofNat_toNat]

theorem toNat_byte {n : Nat} (h : n < 256) : (UInt8.ofNat n).toNat = n := by
  rw [UInt8.toNat_ofNat']
  exact Nat.mod_eq_of_lt h

/-- A round that goes on has passed an encoded character. -/
theorem round_goes {j : Nat} (h : validUtf8Step s i = some (.inl j)) :
    ∃ c, s.drop i = String.utf8EncodeChar c ++ s.drop j ∧ i < j ∧ j ≤ s.length := by
  by_cases hi : i < s.length
  swap
  · simp [validUtf8Step, hi] at h
  -- One case for each length, by the lead byte.
  by_cases h1 : (byteAt s i).toNat < 0x80
  · rw [round_one hi h1] at h
    cases h
    have hvalid : (byteAt s i).toNat.isValidChar := .inl (by omega)
    refine ⟨Char.ofNatAux _ hvalid, ?_, by omega, hi⟩
    have hval : (Char.ofNatAux _ hvalid).val.toNat = (byteAt s i).toNat := rfl
    rw [encode_one (by omega), ofNat_eq_byte hval, drop_byteAt hi]
    rfl
  rw [Nat.not_lt] at h1
  by_cases h2 : 0xC2 ≤ (byteAt s i).toNat ∧ (byteAt s i).toNat ≤ 0xDF
  · rw [round_two hi h2] at h
    split at h
    · rename_i hok
      cases h
      obtain ⟨hroom, ⟨hlow1, hhigh1⟩, hok⟩ := hok
      obtain ⟨-, -, hvalid⟩ := (codePointOk_iff ..).mp hok
      refine ⟨Char.ofNatAux _ hvalid, ?_, by omega, hroom⟩
      have hval : (Char.ofNatAux _ hvalid).val.toNat = value2 s i := rfl
      have hvalue : value2 s i =
        ((byteAt s i).toNat - 0xC0) * 64 + ((byteAt s (i + 1)).toNat - 0x80) := rfl
      rw [encode_two (by omega) (by omega), hval, ofNat_eq_byte (u := byteAt s i) (by omega),
        ofNat_eq_byte (u := byteAt s (i + 1)) (by omega), drop_byteAt hi, drop_byteAt (by omega)]
      rfl
    · cases h
  by_cases h3 : 0xE0 ≤ (byteAt s i).toNat ∧ (byteAt s i).toNat ≤ 0xEF
  · rw [round_three hi h3] at h
    split at h
    · rename_i hok
      cases h
      obtain ⟨hroom, ⟨⟨hlow1, hhigh1⟩, hlow2, hhigh2⟩, hok⟩ := hok
      obtain ⟨hlong, -, hvalid⟩ := (codePointOk_iff ..).mp hok
      have hlong := hlong rfl
      refine ⟨Char.ofNatAux _ hvalid, ?_, by omega, hroom⟩
      have hval : (Char.ofNatAux _ hvalid).val.toNat = value3 s i := rfl
      have hvalue : value3 s i =
        (((byteAt s i).toNat - 0xE0) * 64 + ((byteAt s (i + 1)).toNat - 0x80)) * 64 +
          ((byteAt s (i + 2)).toNat - 0x80) := rfl
      rw [encode_three (by omega) (by omega), hval, ofNat_eq_byte (u := byteAt s i) (by omega),
        ofNat_eq_byte (u := byteAt s (i + 1)) (by omega),
        ofNat_eq_byte (u := byteAt s (i + 2)) (by omega), drop_byteAt hi, drop_byteAt (by omega),
        drop_byteAt (by omega)]
      rfl
    · cases h
  by_cases h4 : 0xF0 ≤ (byteAt s i).toNat ∧ (byteAt s i).toNat ≤ 0xF4
  · rw [round_four hi h4] at h
    split at h
    · rename_i hok
      cases h
      obtain ⟨hroom, ⟨⟨hlow1, hhigh1⟩, ⟨hlow2, hhigh2⟩, hlow3, hhigh3⟩, hok⟩ := hok
      obtain ⟨-, hlong, hvalid⟩ := (codePointOk_iff ..).mp hok
      have hlong := hlong rfl
      refine ⟨Char.ofNatAux _ hvalid, ?_, by omega, hroom⟩
      have hval : (Char.ofNatAux _ hvalid).val.toNat = value4 s i := rfl
      have hvalue : value4 s i =
        ((((byteAt s i).toNat - 0xF0) * 64 + ((byteAt s (i + 1)).toNat - 0x80)) * 64 +
          ((byteAt s (i + 2)).toNat - 0x80)) * 64 + ((byteAt s (i + 3)).toNat - 0x80) := rfl
      rw [encode_four (by omega), hval, ofNat_eq_byte (u := byteAt s i) (by omega),
        ofNat_eq_byte (u := byteAt s (i + 1)) (by omega),
        ofNat_eq_byte (u := byteAt s (i + 2)) (by omega),
        ofNat_eq_byte (u := byteAt s (i + 3)) (by omega), drop_byteAt hi, drop_byteAt (by omega),
        drop_byteAt (by omega), drop_byteAt (by omega)]
      rfl
    · cases h
  · rw [round_other hi h1 h2 h3 h4] at h
    cases h

theorem byteAt_add (k : Nat) : byteAt s (i + k) = byteAt (s.drop i) k := by
  rw [byteAt, byteAt, List.getD_eq_getElem?_getD, List.getD_eq_getElem?_getD, List.getElem?_drop]

/-! The bits that the bytes of an encoding take from a value give the value back. -/

theorem digits2 {n : Nat} (h : n ≤ 0x7FF) :
    (n / 64 % 0x20 + 0xC0 - 0xC0) * 64 + (n % 0x40 + 0x80 - 0x80) = n := by
  simp only [Nat.add_sub_cancel]
  omega

theorem digits3 {n : Nat} (h : n ≤ 0xFFFF) :
    ((n / 4096 % 0x10 + 0xE0 - 0xE0) * 64 + (n / 64 % 0x40 + 0x80 - 0x80)) * 64 +
      (n % 0x40 + 0x80 - 0x80) = n := by
  simp only [Nat.add_sub_cancel]
  omega

theorem digits4 {n : Nat} (h : n < 0x110000) :
    (((n / 262144 % 0x08 + 0xF0 - 0xF0) * 64 + (n / 4096 % 0x40 + 0x80 - 0x80)) * 64 +
      (n / 64 % 0x40 + 0x80 - 0x80)) * 64 + (n % 0x40 + 0x80 - 0x80) = n := by
  simp only [Nat.add_sub_cancel]
  omega

/-- A round at an encoded character passes it. -/
theorem round_char {c : Char} {rest : Bytes} (h : s.drop i = String.utf8EncodeChar c ++ rest) :
    validUtf8Step s i = some (.inl (i + (String.utf8EncodeChar c).length)) := by
  have hvalid : c.val.toNat < 0xD800 ∨ 0xDFFF < c.val.toNat ∧ c.val.toNat < 0x110000 := c.valid
  have hlength := congrArg List.length h
  rw [List.length_drop, List.length_append] at hlength
  -- The bytes are read off the encoding, and from them the value, case by case of the length.
  have hbyte : ∀ k, byteAt s (i + k) = byteAt (String.utf8EncodeChar c ++ rest) k := by
    intro k
    rw [byteAt_add, h]
  have hfirst := hbyte 0
  rw [Nat.add_zero] at hfirst
  obtain h1 | h1 := Nat.lt_or_ge 0x7F c.val.toNat
  swap
  · rw [encode_one h1] at hbyte hlength hfirst ⊢
    have hb0 : (byteAt s i).toNat = c.val.toNat := by
      rw [hfirst]
      exact toNat_byte (by omega)
    simp only [List.length_cons, List.length_nil] at hlength
    exact round_one (by omega) (by omega)
  obtain h2 | h2 := Nat.lt_or_ge 0x7FF c.val.toNat
  swap
  · rw [encode_two h1 h2] at hbyte hlength hfirst ⊢
    have hb0 : (byteAt s i).toNat = c.val.toNat / 64 % 0x20 + 0xC0 := by
      rw [hfirst]
      exact toNat_byte (by omega)
    have hb1 : (byteAt s (i + 1)).toNat = c.val.toNat % 0x40 + 0x80 := by
      rw [hbyte 1]
      exact toNat_byte (by omega)
    have hvalue : value2 s i = c.val.toNat := by
      have h := digits2 h2
      rw [← hb0, ← hb1] at h
      exact h
    simp only [List.length_cons, List.length_nil] at hlength
    rw [round_two (by omega) (by omega), if_pos]
    · rfl
    · refine ⟨by omega, ⟨by omega, by omega⟩, (codePointOk_iff ..).mpr ⟨by omega, by omega, ?_⟩⟩
      rw [hvalue]
      exact c.valid
  obtain h3 | h3 := Nat.lt_or_ge 0xFFFF c.val.toNat
  swap
  · rw [encode_three h2 h3] at hbyte hlength hfirst ⊢
    have hb0 : (byteAt s i).toNat = c.val.toNat / 4096 % 0x10 + 0xE0 := by
      rw [hfirst]
      exact toNat_byte (by omega)
    have hb1 : (byteAt s (i + 1)).toNat = c.val.toNat / 64 % 0x40 + 0x80 := by
      rw [hbyte 1]
      exact toNat_byte (by omega)
    have hb2 : (byteAt s (i + 2)).toNat = c.val.toNat % 0x40 + 0x80 := by
      rw [hbyte 2]
      exact toNat_byte (by omega)
    have hvalue : value3 s i = c.val.toNat := by
      have h := digits3 h3
      rw [← hb0, ← hb1, ← hb2] at h
      exact h
    simp only [List.length_cons, List.length_nil] at hlength
    rw [round_three (by omega) (by omega), if_pos]
    · rfl
    · refine ⟨by omega, ⟨⟨by omega, by omega⟩, by omega, by omega⟩,
        (codePointOk_iff ..).mpr ⟨by omega, by omega, ?_⟩⟩
      rw [hvalue]
      exact c.valid
  · rw [encode_four h3] at hbyte hlength hfirst ⊢
    have hb0 : (byteAt s i).toNat = c.val.toNat / 262144 % 0x08 + 0xF0 := by
      rw [hfirst]
      exact toNat_byte (by omega)
    have hb1 : (byteAt s (i + 1)).toNat = c.val.toNat / 4096 % 0x40 + 0x80 := by
      rw [hbyte 1]
      exact toNat_byte (by omega)
    have hb2 : (byteAt s (i + 2)).toNat = c.val.toNat / 64 % 0x40 + 0x80 := by
      rw [hbyte 2]
      exact toNat_byte (by omega)
    have hb3 : (byteAt s (i + 3)).toNat = c.val.toNat % 0x40 + 0x80 := by
      rw [hbyte 3]
      exact toNat_byte (by omega)
    have hvalue : value4 s i = c.val.toNat := by
      have h := digits4 (n := c.val.toNat) (by omega)
      rw [← hb0, ← hb1, ← hb2, ← hb3] at h
      exact h
    simp only [List.length_cons, List.length_nil] at hlength
    rw [round_four (by omega) (by omega), if_pos]
    · rfl
    · refine ⟨by omega, ⟨⟨by omega, by omega⟩, ⟨by omega, by omega⟩, by omega, by omega⟩,
        (codePointOk_iff ..).mpr ⟨by omega, by omega, ?_⟩⟩
      rw [hvalue]
      exact c.valid

end Round

/-! ## The loop -/

theorem isUtf8_of_validUtf8 {s : Bytes} (h : validUtf8 s = true) : IsUtf8 s := by
  have hresult : iterate (validUtf8Step s) (s.length + 1) 0 = some true := by
    rw [validUtf8] at h
    cases hr : iterate (validUtf8Step s) (s.length + 1) 0 with
    | none => simp [hr] at h
    | some r => simpa [hr] using h
  -- What the loop has passed is the encoding of some characters.
  refine iterate_partial (fun i => i ≤ s.length ∧ ∃ cs : List Char,
    s = cs.flatMap String.utf8EncodeChar ++ s.drop i) (fun r => r = true → IsUtf8 s) ?_ ?_ _ 0 true
    ⟨Nat.zero_le _, [], by simp⟩ hresult rfl
  · rintro i j ⟨hi, cs, hcs⟩ hstep
    obtain ⟨c, hc, hij, hj⟩ := round_goes hstep
    refine ⟨hj, cs ++ [c], ?_⟩
    rw [List.flatMap_append, List.append_assoc, List.flatMap_singleton, ← hc]
    exact hcs
  · rintro i r ⟨hi, cs, hcs⟩ hstep rfl
    have hend : ¬i < s.length := by
      intro hlt
      unfold validUtf8Step at hstep
      rw [if_pos hlt] at hstep
      split at hstep
      · cases hstep
      · split at hstep
        · cases hstep
        · split at hstep
          · cases hstep
          · split at hstep
            · cases hstep
            · split at hstep
              · cases hstep
              · cases hstep
    rw [List.drop_eq_nil_of_le (Nat.not_lt.mp hend), List.append_nil] at hcs
    exact ⟨cs, hcs⟩

theorem validUtf8_of_isUtf8 {s : Bytes} (h : IsUtf8 s) : validUtf8 s = true := by
  obtain ⟨cs, hs⟩ := h
  obtain ⟨r, hr, rfl⟩ := iterate_total (validUtf8Step s)
    (fun i => i ≤ s.length ∧ ∃ cs : List Char, s.drop i = cs.flatMap String.utf8EncodeChar)
    (fun i => s.length - i) (fun r => r = true) (by
      rintro i ⟨hi, cs, hcs⟩
      cases cs with
      | nil =>
        have hend : ¬i < s.length := by
          rw [List.flatMap_nil, List.drop_eq_nil_iff] at hcs
          omega
        exact .inr ⟨true, by rw [validUtf8Step, if_neg hend], rfl⟩
      | cons c cs =>
        rw [List.flatMap_cons] at hcs
        have hlength := congrArg List.length hcs
        rw [List.length_drop, List.length_append] at hlength
        have hpos : 0 < (String.utf8EncodeChar c).length := by
          rw [String.length_utf8EncodeChar]
          exact Char.utf8Size_pos c
        refine .inl ⟨_, round_char hcs, ⟨by omega, cs, ?_⟩, by omega⟩
        rw [← List.drop_drop, hcs, List.drop_left])
    (s.length + 1) 0 ⟨Nat.zero_le _, cs, hs⟩ (by omega)
  rw [validUtf8, hr]
  rfl

theorem validUtf8_iff (s : Bytes) : validUtf8 s = true ↔ IsUtf8 s :=
  ⟨isUtf8_of_validUtf8, validUtf8_of_isUtf8⟩

/-! ## What stands behind ASCII -/

/-- The encoding of a character that begins with an ASCII byte is that byte. -/
theorem encode_of_ascii_head {c : Char} {u : UInt8} {rest s : Bytes} (hu : u < 0x80)
    (h : u :: s = String.utf8EncodeChar c ++ rest) : rest = s := by
  have hlead : u.toNat < 0x80 := byte_lt_iff.mp hu
  have hvalid : c.val.toNat < 0xD800 ∨ 0xDFFF < c.val.toNat ∧ c.val.toNat < 0x110000 := c.valid
  obtain h1 | h1 := Nat.lt_or_ge 0x7F c.val.toNat
  swap
  · rw [encode_one h1] at h
    exact (List.cons.inj h).2.symm
  -- A longer encoding begins with a lead byte.
  exfalso
  obtain h2 | h2 := Nat.lt_or_ge 0x7FF c.val.toNat
  swap
  · rw [encode_two h1 h2] at h
    rw [(List.cons.inj h).1, toNat_byte (by omega)] at hlead
    omega
  obtain h3 | h3 := Nat.lt_or_ge 0xFFFF c.val.toNat
  swap
  · rw [encode_three h2 h3] at h
    rw [(List.cons.inj h).1, toNat_byte (by omega)] at hlead
    omega
  · rw [encode_four h3] at h
    rw [(List.cons.inj h).1, toNat_byte (by omega)] at hlead
    omega

theorem isUtf8_cons {u : UInt8} (hu : u < 0x80) (s : Bytes) : IsUtf8 (u :: s) ↔ IsUtf8 s := by
  have hlead : u.toNat < 0x80 := byte_lt_iff.mp hu
  constructor
  · rintro ⟨cs, hcs⟩
    cases cs with
    | nil => cases hcs
    | cons c cs =>
      rw [List.flatMap_cons] at hcs
      exact ⟨cs, (encode_of_ascii_head hu hcs).symm⟩
  · rintro ⟨cs, rfl⟩
    have hvalid : u.toNat.isValidChar := .inl (by omega)
    have hval : (Char.ofNatAux _ hvalid).val.toNat = u.toNat := rfl
    refine ⟨Char.ofNatAux _ hvalid :: cs, ?_⟩
    rw [List.flatMap_cons, encode_one (by omega), ofNat_eq_byte hval]
    rfl

theorem isUtf8_append {lead : Bytes} (h : ∀ u ∈ lead, u < 0x80) (s : Bytes) :
    IsUtf8 (lead ++ s) ↔ IsUtf8 s := by
  induction lead with
  | nil => rfl
  | cons u lead ih =>
    rw [List.forall_mem_cons] at h
    rw [List.cons_append, isUtf8_cons h.1, ih h.2]

end Paths

end CrossTransfer.Transfer
