import CrossTransfer.Transfer.Utf8

/-! # What the UTF-8 validator reads

`validUtf8` reads with `byteAt`, which has a value everywhere. Here the loop of `ValidUtf8` is given
again with reads that fail past the end (`readValidUtf8`): it has a result for every string, so it
terminates without such a read, and the result is that of `validUtf8`.
-/

namespace CrossTransfer.Transfer

open CrossTransfer.Library

namespace Paths

/-- `continuationBytes`; `none` if a byte is past the end. -/
def readContinuation (s : Bytes) : Nat → Nat → Nat → Option (Option Nat)
  | _, 0, cp => some (some cp)
  | i, n + 1, cp => do
    let cc ← s[i]?
    if cc &&& 0xC0 = 0x80 then readContinuation s (i + 1) n ((cp <<< 6) ||| (cc &&& 0x3F).toNat)
    else some none

/-- A round of `ValidUtf8`; `none` if it reads past the end. -/
def readValidUtf8Step (s : Bytes) (i : Nat) : Option (Nat ⊕ Bool) :=
  if i < s.length then do
    let c ← s[i]?
    if c < 0x80 then some (.inl (i + 1))
    else
      match leadByte c with
      | none => some (.inr false)
      | some (len, bits) =>
        if s.length < i + len then some (.inr false)
        else
          match ← readContinuation s (i + 1) (len - 1) bits with
          | none => some (.inr false)
          | some cp => if codePointOk len cp then some (.inl (i + len)) else some (.inr false)
  else some (.inr true)

/-- `ValidUtf8`; `none` if it reads past the end or does not come to an end. -/
def readValidUtf8 (s : Bytes) : Option Bool := iterate (readValidUtf8Step s) (s.length + 1) 0

variable {s : Bytes} {i n : Nat}

theorem getElem?_eq_byteAt (h : i < s.length) : s[i]? = some (byteAt s i) := by
  rw [byteAt, List.getD_eq_getElem?_getD, List.getElem?_eq_getElem h, Option.getD_some]

/-- Nothing is read past the last continuation byte. -/
theorem readContinuation_eq (h : i + n ≤ s.length) (cp : Nat) :
    readContinuation s i n cp = some (continuationBytes s i n cp) := by
  induction n generalizing i cp with
  | zero => rfl
  | succ n ih =>
    have hread : s[i]? = some (byteAt s i) := getElem?_eq_byteAt (by omega)
    rw [readContinuation, hread, continuationBytes]
    simp only [Option.bind_eq_bind, Option.bind_some]
    split
    · exact ih (by omega) _
    · rfl

theorem leadByte_len {c : UInt8} {len bits : Nat} (h : leadByte c = some (len, bits)) :
    2 ≤ len ∧ len ≤ 4 := by
  rw [leadByte_eq] at h
  split at h
  · cases h
    decide
  · split at h
    · cases h
      decide
    · split at h
      · cases h
        decide
      · cases h

theorem readValidUtf8Step_eq (s : Bytes) (i : Nat) : readValidUtf8Step s i = validUtf8Step s i := by
  unfold readValidUtf8Step validUtf8Step
  split
  · rename_i hi
    rw [getElem?_eq_byteAt hi, Option.bind_eq_bind, Option.bind_some]
    split
    · rfl
    · cases hlead : leadByte (byteAt s i) with
      | none => rfl
      | some sequence =>
        obtain ⟨len, bits⟩ := sequence
        dsimp only
        split
        · rfl
        · rename_i hroom
          have hlen := (leadByte_len hlead).1
          have hread : readContinuation s (i + 1) (len - 1) bits =
              some (continuationBytes s (i + 1) (len - 1) bits) := readContinuation_eq (by omega) bits
          cases hbytes : continuationBytes s (i + 1) (len - 1) bits <;>
            simp only [hread, hbytes, Option.bind_eq_bind, Option.bind_some]
  · rfl

/-- A round goes on or gives a result. -/
theorem exists_round (s : Bytes) (i : Nat) : ∃ out, validUtf8Step s i = some out := by
  by_cases hi : i < s.length
  · by_cases hascii : byteAt s i < 0x80
    · exact ⟨_, by rw [validUtf8Step, if_pos hi, if_pos hascii]⟩
    · cases hlead : leadByte (byteAt s i) with
      | none => exact ⟨.inr false, by rw [validUtf8Step, if_pos hi, if_neg hascii, hlead]⟩
      | some sequence =>
        rw [validUtf8Step, if_pos hi, if_neg hascii, hlead]
        dsimp only
        split
        · exact ⟨_, rfl⟩
        · split
          · exact ⟨_, rfl⟩
          · split <;> exact ⟨_, rfl⟩
  · exact ⟨.inr true, by rw [validUtf8Step, if_neg hi]⟩

/-- The loop comes to an end. -/
theorem exists_validUtf8 (s : Bytes) : ∃ r, iterate (validUtf8Step s) (s.length + 1) 0 = some r := by
  have total := iterate_total (validUtf8Step s) (fun i => i ≤ s.length) (fun i => s.length - i)
    (fun _ => True) (by
      intro i hi
      obtain ⟨j | r, hstep⟩ := exists_round s i
      · obtain ⟨-, -, hij, hj⟩ := round_goes hstep
        exact .inl ⟨j, hstep, hj, by omega⟩
      · exact .inr ⟨r, hstep, trivial⟩)
  obtain ⟨r, hr, -⟩ := total (s.length + 1) 0 (Nat.zero_le _) (by omega)
  exact ⟨r, hr⟩

theorem readValidUtf8_eq (s : Bytes) : readValidUtf8 s = some (validUtf8 s) := by
  have hstep : readValidUtf8Step s = validUtf8Step s := funext (readValidUtf8Step_eq s)
  obtain ⟨r, hr⟩ := exists_validUtf8 s
  rw [readValidUtf8, hstep, validUtf8, hr, Option.getD_some]

/-- `ValidUtf8` comes to an end without a read past the end of the string, and it accepts the
    encodings of the sequences of Unicode scalar values and nothing else. -/
theorem readValidUtf8_exact (s : Bytes) :
    (∃ r, readValidUtf8 s = some r) ∧ (readValidUtf8 s = some true ↔ IsUtf8 s) := by
  refine ⟨⟨_, readValidUtf8_eq s⟩, ?_⟩
  rw [readValidUtf8_eq, Option.some.injEq, validUtf8_iff]

end Paths

end CrossTransfer.Transfer
