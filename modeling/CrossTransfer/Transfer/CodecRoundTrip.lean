import CrossTransfer.Transfer.BlockCodec

/-! # What the datagram decoders accept

Decoding undoes encoding, and encoding undoes decoding: a datagram that is accepted is the encoding
of what was read from it. The one field that is not read is the reserved one of a SACK.
-/

namespace CrossTransfer.Transfer

/-! ## Fields of a datagram -/

/-- A value that was read reads back as its two bytes. -/
theorem split16 (a b : UInt8) :
    (((a.toUInt16 <<< 8) ||| b.toUInt16) >>> 8).toUInt8 = a ∧
      ((a.toUInt16 <<< 8) ||| b.toUInt16).toUInt8 = b := by
  have ha : ∀ i, i ≥ 8 → a.toNat.testBit i = false := fun i h =>
    Nat.testBit_lt_two_pow (lt_of_lt_of_le a.toNat_lt (Nat.pow_le_pow_right (by norm_num) h))
  have hb : ∀ i, i ≥ 8 → b.toNat.testBit i = false := fun i h =>
    Nat.testBit_lt_two_pow (lt_of_lt_of_le b.toNat_lt (Nat.pow_le_pow_right (by norm_num) h))
  constructor
  · apply UInt8.toNat_inj.mp
    apply Nat.eq_of_testBit_eq
    intro i
    simp only [UInt16.toNat_or, UInt16.toNat_shiftLeft, UInt8.toNat_toUInt16, UInt16.toNat_toUInt8,
      UInt16.toNat_shiftRight, Nat.testBit_or, Nat.testBit_mod_two_pow, Nat.testBit_shiftLeft,
      Nat.testBit_shiftRight, UInt16.reduceToNat, Nat.reduceMod]
    grind
  · apply UInt8.toNat_inj.mp
    apply Nat.eq_of_testBit_eq
    intro i
    simp only [UInt16.toNat_or, UInt16.toNat_shiftLeft, UInt8.toNat_toUInt16, UInt16.toNat_toUInt8,
      Nat.testBit_or, Nat.testBit_mod_two_pow, Nat.testBit_shiftLeft, UInt16.reduceToNat,
      Nat.reduceMod]
    grind

/-- The bytes of a 32-bit value that was read. -/
theorem split32 (a b c d : UInt8) :
    let v := (a.toUInt32 <<< 24) ||| (b.toUInt32 <<< 16) ||| (c.toUInt32 <<< 8) ||| d.toUInt32
    (v >>> 24).toUInt8 = a ∧ (v >>> 16).toUInt8 = b ∧ (v >>> 8).toUInt8 = c ∧ v.toUInt8 = d := by
  have small : ∀ (u : UInt8) i, i ≥ 8 → u.toNat.testBit i = false := fun u i h =>
    Nat.testBit_lt_two_pow (lt_of_lt_of_le u.toNat_lt (Nat.pow_le_pow_right (by norm_num) h))
  have ha := small a
  have hb := small b
  have hc := small c
  have hd := small d
  refine ⟨?_, ?_, ?_, ?_⟩
  all_goals
    apply UInt8.toNat_inj.mp
    apply Nat.eq_of_testBit_eq
    intro i
    simp only [UInt32.toNat_or, UInt32.toNat_shiftLeft, UInt8.toNat_toUInt32, UInt32.toNat_toUInt8,
      UInt32.toNat_shiftRight, Nat.testBit_or, Nat.testBit_mod_two_pow, Nat.testBit_shiftLeft,
      Nat.testBit_shiftRight, UInt32.reduceToNat, Nat.reduceMod]
    grind

section Datagram

variable {d : Bytes} {i : Nat}

/-! Writing the fields that were read, one after another, restores the datagram. -/

theorem take_byteAt (h : i + 1 ≤ d.length) : d.take i ++ [byteAt d i] = d.take (i + 1) := by
  have hget : d[i]? = some (d.get ⟨i, h⟩) := List.getElem?_eq_getElem h
  rw [byteAt, List.getD_eq_getElem?_getD, hget, List.take_add_one, hget]
  rfl

theorem take_put16 (h : i + 2 ≤ d.length) : d.take i ++ put16 (get16 d i) = d.take (i + 2) := by
  obtain ⟨hhigh, hlow⟩ := split16 (byteAt d i) (byteAt d (i + 1))
  rw [put16, get16, hhigh, hlow, ← take_byteAt (i := i + 1) h, ← take_byteAt (i := i) (by omega)]
  simp

theorem take_put32 (h : i + 4 ≤ d.length) : d.take i ++ put32 (get32 d i) = d.take (i + 4) := by
  obtain ⟨h0, h1, h2, h3⟩ := split32 (byteAt d i) (byteAt d (i + 1)) (byteAt d (i + 2)) (byteAt d (i + 3))
  rw [put32, get32, h0, h1, h2, h3, ← take_byteAt (i := i + 3) h, ← take_byteAt (i := i + 2) (by omega),
    ← take_byteAt (i := i + 1) (by omega), ← take_byteAt (i := i) (by omega)]
  simp

theorem put16_take (h : 2 ≤ d.length) : put16 (get16 d 0) = d.take 2 := by
  simpa using take_put16 (i := 0) h

end Datagram

/-! ## Blocks -/

theorem decodeBlock_encodeBlock {h : BlockHeader} {payload : Bytes}
    (hlen : h.len.toNat ≤ kBlockPayloadSize) (hpayload : payload.length = h.len.toNat) :
    ∃ d, encodeBlock h payload = some d ∧ decodeBlock d = some (h, payload) := by
  have hfits : ¬kBlockPayloadSize < h.len.toNat := Nat.not_lt.mpr hlen
  have hwhole : payload.take h.len.toNat = payload := List.take_of_length_le hpayload.le
  refine ⟨_, by rw [encodeBlock, if_neg hfits, hwhole], ?_⟩
  set d := put16 kBlockMagic ++ [kProtoVersion, h.flags] ++ put16 h.fileIndex ++
    put32 h.blockIndex ++ put16 h.len ++ payload
  have hmagic : get16 d 0 = kBlockMagic := join16 kBlockMagic
  have hversion : byteAt d 2 = kProtoVersion := rfl
  have hplen : get16 d 10 = h.len := join16 h.len
  have hfile : get16 d 4 = h.fileIndex := join16 h.fileIndex
  have hblock : get32 d 6 = h.blockIndex := join32 h.blockIndex
  have hsize : d.length = kBlockHeaderSize + h.len.toNat := by
    simp only [d, List.length_append, length_put16, length_put32, List.length_cons, List.length_nil,
      hpayload, kBlockHeaderSize]
  have hrest : d.drop kBlockHeaderSize = payload := rfl
  have hflags : byteAt d 3 = h.flags := rfl
  rw [decodeBlock, hmagic, hversion, hplen, hfile, hblock, hrest, hflags, hsize]
  simp [hfits]

theorem encodeBlock_decodeBlock {d payload : Bytes} {h : BlockHeader}
    (hdecode : decodeBlock d = some (h, payload)) :
    h.len.toNat ≤ kBlockPayloadSize ∧ payload.length = h.len.toNat ∧
      encodeBlock h payload = some d := by
  unfold decodeBlock at hdecode
  split at hdecode
  · cases hdecode
  rename_i hlong
  split at hdecode
  · cases hdecode
  rename_i hhead
  simp only at hdecode
  split at hdecode
  · cases hdecode
  rename_i hfits
  split at hdecode
  · cases hdecode
  rename_i hsize
  cases hdecode
  rw [not_or, not_not, not_not] at hhead
  rw [not_not] at hsize
  simp only [kBlockHeaderSize] at hlong hsize
  have hrest : (d.drop kBlockHeaderSize).length = (get16 d 10).toNat := by
    rw [List.length_drop, hsize, kBlockHeaderSize]
    omega
  refine ⟨Nat.not_lt.mp hfits, hrest, ?_⟩
  have hwhole : (d.drop kBlockHeaderSize).take (get16 d 10).toNat = d.drop kBlockHeaderSize :=
    List.take_of_length_le hrest.le
  have hversion : [kProtoVersion, byteAt d 3] = [byteAt d 2] ++ [byteAt d 3] := by
    rw [hhead.2]
    rfl
  -- Each field is put where it was read.
  rw [encodeBlock, if_neg hfits, hwhole, hversion, ← hhead.1, put16_take (by omega),
    ← List.append_assoc, take_byteAt (by omega), take_byteAt (by omega), take_put16 (by omega),
    take_put32 (by omega), take_put16 (by omega)]
  exact congrArg some (List.take_append_drop 12 d)

/-! ## SACKs -/

theorem length_flatMap_encodeRun (runs : List SackRun) :
    (runs.flatMap encodeRun).length = runs.length * kSackRunSize := by
  rw [List.length_flatMap]
  simp [kSackRunSize]

theorem length_encodeSack (s : Sack) :
    (encodeSack s).length = kSackHeaderSize + (s.holes.take kSackMaxRuns).length * kSackRunSize := by
  rw [← length_flatMap_encodeRun]
  simp only [encodeSack, List.length_append, length_put16, length_put32, List.length_cons,
    List.length_nil, kSackHeaderSize]

theorem length_encodeSack_le (s : Sack) : (encodeSack s).length ≤ kMaxDatagram := by
  rw [length_encodeSack]
  have hcut : (s.holes.take kSackMaxRuns).length ≤ 140 := List.length_take_le ..
  simp only [kSackHeaderSize, kSackRunSize, kMaxDatagram]
  omega

/-- A run table that is accepted is the encoding of its runs. -/
theorem encodeRun_decodeRuns {n : Nat} {p : Bytes} {runs : List SackRun}
    (hsize : p.length = n * kSackRunSize) (hdecode : decodeRuns n p = some runs) :
    runs.length = n ∧ runs.flatMap encodeRun = p := by
  induction n generalizing p runs with
  | zero =>
    cases hdecode
    rw [Nat.zero_mul] at hsize
    exact ⟨rfl, (List.length_eq_zero_iff.mp hsize).symm⟩
  | succ n ih =>
    simp only [decodeRuns] at hdecode
    split at hdecode
    · cases hdecode
    · obtain ⟨rest, hrest, rfl⟩ := Option.map_eq_some_iff.mp hdecode
      simp only [kSackRunSize] at hsize
      have hdrop : (p.drop kSackRunSize).length = n * kSackRunSize := by
        rw [List.length_drop, hsize, kSackRunSize]
        omega
      obtain ⟨hlength, htable⟩ := ih hdrop hrest
      refine ⟨by rw [List.length_cons, hlength], ?_⟩
      have hfirst : encodeRun ⟨get32 p 0, get32 p 4⟩ = p.take 8 := by
        have hstart : put32 (get32 p 0) = p.take 4 := by
          simpa using take_put32 (d := p) (i := 0) (by omega)
        rw [encodeRun, hstart, take_put32 (by omega)]
      rw [List.flatMap_cons, htable, hfirst]
      exact List.take_append_drop 8 p

theorem encodeSack_decodeSack {d : Bytes} {s : Sack} (hdecode : decodeSack d = some s)
    (hreserved : get16 d 26 = 0) (hruns : s.holes.length ≤ kSackMaxRuns) : encodeSack s = d := by
  unfold decodeSack at hdecode
  split at hdecode
  · cases hdecode
  rename_i hlong
  split at hdecode
  · cases hdecode
  rename_i hhead
  simp only at hdecode
  split at hdecode
  · cases hdecode
  rename_i hsize
  obtain ⟨holes, hholes, rfl⟩ := Option.map_eq_some_iff.mp hdecode
  rw [not_or, not_not, not_not] at hhead
  rw [not_not] at hsize
  have hdrop : (d.drop kSackHeaderSize).length = (get16 d 6).toNat * kSackRunSize := by
    rw [List.length_drop, hsize]
    omega
  obtain ⟨hcount, htable⟩ := encodeRun_decodeRuns hdrop hholes
  simp only [kSackHeaderSize] at hlong
  have hwhole : holes.take kSackMaxRuns = holes := List.take_of_length_le hruns
  have hnumber : UInt16.ofNat holes.length = get16 d 6 := by
    rw [hcount, UInt16.ofNat_toNat]
  have hversion : [kProtoVersion, byteAt d 3] = [byteAt d 2] ++ [byteAt d 3] := by
    rw [hhead.2]
    rfl
  have hzero : put16 0 = put16 (get16 d 26) := by rw [hreserved]
  simp only [encodeSack, hwhole]
  rw [hnumber, htable, hversion, hzero, ← hhead.1, put16_take (by omega), ← List.append_assoc,
    take_byteAt (by omega), take_byteAt (by omega), take_put16 (by omega), take_put16 (by omega),
    take_put32 (by omega), take_put32 (by omega), take_put32 (by omega), take_put32 (by omega),
    take_put16 (by omega), take_put16 (by omega)]
  exact List.take_append_drop 28 d

/-! ## Both formats -/

/-- Blocks and SACKs survive the wire, and every datagram that is accepted is the encoding of what
    was read. -/
theorem datagrams_round_trip :
    (∀ (h : BlockHeader) (payload : Bytes), h.len.toNat ≤ 1100 → payload.length = h.len.toNat →
      ∃ d, encodeBlock h payload = some d ∧ decodeBlock d = some (h, payload)) ∧
    (∀ (d : Bytes) (h : BlockHeader) (payload : Bytes), decodeBlock d = some (h, payload) →
      payload.length = h.len.toNat ∧ encodeBlock h payload = some d) ∧
    (∀ s : Sack, (∀ r ∈ s.holes, r.length ≠ 0) → (encodeSack s).length ≤ 1150 ∧
      decodeSack (encodeSack s) = some { s with holes := s.holes.take 140 }) ∧
    ∀ (d : Bytes) (s : Sack), decodeSack d = some s → byteAt d 26 = 0 → byteAt d 27 = 0 →
      s.holes.length ≤ 140 → encodeSack s = d := by
  refine ⟨fun h payload hlen hpayload => decodeBlock_encodeBlock hlen hpayload,
    fun d h payload hdecode => (encodeBlock_decodeBlock hdecode).2,
    fun s hholes => ⟨length_encodeSack_le s, decodeSack_encodeSack s hholes⟩, ?_⟩
  intro d s hdecode hhigh hlow hruns
  have hreserved : get16 d 26 = 0 := by
    rw [get16, hhigh, hlow]
    rfl
  exact encodeSack_decodeSack hdecode hreserved hruns

/-- A block of two bytes, the empty block and a SACK with one hole. -/
theorem datagrams_round_trip_oneHole :
    (∃ d, encodeBlock ⟨1, 2, 3, 2⟩ [7, 8] = some d ∧ decodeBlock d = some (⟨1, 2, 3, 2⟩, [7, 8])) ∧
    encodeBlock ⟨0, 0, 0, 0⟩ [] = some [0x43, 0x42, 1, 0, 0, 0, 0, 0, 0, 0, 0, 0] ∧
    (decodeSack (encodeSack { holes := [⟨1, 2⟩] }) = some { holes := [⟨1, 2⟩] }) ∧
    encodeSack { ackBase := 5 } =
      [0x43, 0x53, 1, 0, 0, 0, 0, 0, 0, 0, 0, 5] ++ List.replicate 16 0 :=
  ⟨datagrams_round_trip.1 ⟨1, 2, 3, 2⟩ [7, 8] (by decide) rfl,
    (datagrams_round_trip.2.1 [0x43, 0x42, 1, 0, 0, 0, 0, 0, 0, 0, 0, 0] ⟨0, 0, 0, 0⟩ [] rfl).2,
    (datagrams_round_trip.2.2.1 { holes := [⟨1, 2⟩] } (by decide)).2,
    datagrams_round_trip.2.2.2 ([0x43, 0x53, 1, 0, 0, 0, 0, 0, 0, 0, 0, 5] ++ List.replicate 16 0)
      { ackBase := 5 } rfl rfl rfl (by decide)⟩

end CrossTransfer.Transfer
