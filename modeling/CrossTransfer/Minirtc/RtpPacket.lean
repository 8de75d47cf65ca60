import CrossTransfer.Library.Attempt
import CrossTransfer.Library.Loop
import CrossTransfer.Minirtc.ByteIo

/-! # RTP packets

`minirtc/src/rtp/rtp_packet/rtp_packet.{h,cpp}`. `Parse` fills in the object from a datagram; every
length in it comes from the network. It is cut at its comments: the fixed header, the CSRCs, the
extensions, the padding.

* `parse_inBounds`: the parser comes to an end and reads inside the datagram only, and what it
  accepts is divided without rest.
* `ExtensionsPlaced`: where the recorded extensions lie.
-/

namespace CrossTransfer.Minirtc

open CrossTransfer.Library
open CrossTransfer.Transfer

def kRtpVersion : UInt8 := 2
def kMaxRtpCsrcSize : UInt8 := 15
def kFixedHeaderSize : Nat := 12
def kOneByteExtensionProfileId : UInt16 := 0xBEDE

structure Extension where
  id : UInt8
  len : UInt8
  dataOffset : Nat
  data : Bytes
deriving DecidableEq, Repr

structure RtpPacket where
  version : UInt8 := 0
  hasPadding : Bool := false
  hasExtension : Bool := false
  csrcCount : UInt8 := 0
  marker : Bool := false
  payloadType : UInt8 := 0
  sequenceNumber : UInt16 := 1
  timestamp : UInt32 := 0
  ssrc : UInt32 := 0
  csrcs : List UInt32 := []
  extensionProfile : UInt16 := 0
  extensionLen : UInt16 := 0
  extensions : List Extension := []
  payloadOffset : Nat := 0
  payloadSize : Nat := 0
  paddingSize : Nat := 0
  buffer : Bytes := []
  size : Nat := 0
deriving DecidableEq, Repr

namespace RtpPacket

variable (p : RtpPacket) (buffer : Bytes)

/-! ## Parse -/

/-- `Parse`, the fixed header. -/
def parseFixed : Option (Bool × RtpPacket) :=
  let p := { p with payloadOffset := 0, csrcs := [], extensions := [] }
  if buffer.length < kFixedHeaderSize then some (false, p)
  else do
    let first ← read8 buffer 0
    let p := { p with version := (first >>> 6) &&& 0x03 }
    if p.version ≠ kRtpVersion then some (false, p)
    else
      let p := { p with
        hasPadding := (first >>> 5) &&& 0x01 != 0
        hasExtension := (first >>> 4) &&& 0x01 != 0
        csrcCount := first &&& 0x0F }
      if kMaxRtpCsrcSize < p.csrcCount then some (false, p)
      else do
        let second ← read8 buffer 1
        let sequenceNumber ← read16 buffer 2
        let timestamp ← read32 buffer 4
        let ssrc ← read32 buffer 8
        some (true, { p with
          marker := (second >>> 7) &&& 0x01 != 0
          payloadType := second &&& 0x7F
          sequenceNumber := sequenceNumber
          timestamp := timestamp
          ssrc := ssrc
          payloadOffset := kFixedHeaderSize })

/-- `Parse`, the CSRCs. -/
def parseCsrcs : Option (Bool × RtpPacket) :=
  if buffer.length < kFixedHeaderSize + p.csrcCount.toNat * 4 then some (false, p)
  else do
    let csrcs ← (List.range p.csrcCount.toNat).mapM fun i => read32 buffer (p.payloadOffset + i * 4)
    let p := { p with csrcs := csrcs, payloadOffset := kFixedHeaderSize + p.csrcCount.toNat * 4 }
    if buffer.length < p.payloadOffset then some (false, p) else some (true, p)

/-- A round of the loop over the one-byte extensions: the offset, and the extensions so far. -/
def extensionStep (extensionEnd : Nat) :
    Nat × List Extension → Option ((Nat × List Extension) ⊕ (Bool × List Extension))
  | (offset, extensions) =>
    if offset < extensionEnd then do
      let element ← read8 buffer offset
      let id := element >>> 4
      if id = 0 then some (.inl (offset + 1, extensions))
      else if id = 15 then some (.inr (true, extensions))
      else
        let len := (element &&& 0x0F) + 1
        if extensionEnd < offset + 1 + len.toNat then some (.inr (false, extensions))
        else do
          let data ← readBytes buffer (offset + 1) len.toNat
          some (.inl (offset + 1 + len.toNat, extensions ++ [⟨id, len, offset + 1, data⟩]))
    else some (.inr (true, extensions))

/-- `Parse`, the header extension. -/
def parseExtensions : Option (Bool × RtpPacket) :=
  if !p.hasExtension then some (true, p)
  else if buffer.length < p.payloadOffset + 4 then some (false, p)
  else do
    let profile ← read16 buffer p.payloadOffset
    let len ← read16 buffer (p.payloadOffset + 2)
    let p := { p with
      extensionProfile := profile
      extensionLen := len
      payloadOffset := p.payloadOffset + 4 }
    let totalExtLen := len.toNat * 4
    if buffer.length < p.payloadOffset + totalExtLen then some (false, p)
    else if profile = kOneByteExtensionProfileId then do
      let (ok, extensions) ← iterate (extensionStep buffer (p.payloadOffset + totalExtLen))
        (totalExtLen + 1) (p.payloadOffset, p.extensions)
      let p := { p with extensions := extensions }
      if ok then some (true, { p with payloadOffset := p.payloadOffset + totalExtLen })
      else some (false, p)
    else some (true, { p with payloadOffset := p.payloadOffset + totalExtLen })

/-- `Parse`, the padding and what remains for the payload. -/
def parsePadding : Option (Bool × RtpPacket) := do
  let p ←
    if p.hasPadding ∧ p.payloadOffset < buffer.length then do
      let padding ← read8 buffer (buffer.length - 1)
      if padding = 0 then some { p with hasPadding := false, paddingSize := 0 }
      else some { p with paddingSize := padding.toNat }
    else some { p with paddingSize := 0 }
  if buffer.length < p.payloadOffset + p.paddingSize then some (false, p)
  else some (true, { p with payloadSize := buffer.length - p.payloadOffset - p.paddingSize })

/-- `Parse`; without a result if it reads outside the datagram or does not come to an end. -/
def parse : Attempt RtpPacket :=
  let fixed := Attempt.andThen (p.parseFixed buffer) (parseCsrcs · buffer)
  Attempt.andThen (Attempt.andThen fixed (parseExtensions · buffer)) (parsePadding · buffer)

/-- `Build`. -/
def build : Attempt RtpPacket :=
  Attempt.andThen (p.parse buffer) fun p => some (true, { p with buffer := buffer, size := buffer.length })

/-! ## Where the extensions are -/

/-- The area that the header extension declares. -/
def extensionStart : Nat := kFixedHeaderSize + p.csrcCount.toNat * 4 + 4

def extensionEnd : Nat := p.extensionStart + p.extensionLen.toNat * 4

/-- The recorded extensions lie in an area, one behind the other, and are copies of what is there. -/
structure Placed (first last : Nat) (extensions : List Extension) : Prop where
  inside : ∀ e ∈ extensions, first ≤ e.dataOffset ∧ e.dataOffset + e.len.toNat ≤ last
  data : ∀ e ∈ extensions, e.data.length = e.len.toNat ∧
    e.data = (buffer.drop e.dataOffset).take e.len.toNat
  apart : extensions.Pairwise fun e e' => e.dataOffset + e.len.toNat < e'.dataOffset

/-- The extensions of a packet lie in the area that its header declares. -/
structure ExtensionsPlaced : Prop where
  placed : Placed buffer p.extensionStart p.extensionEnd p.extensions
  declared : p.extensions ≠ [] → p.hasExtension = true ∧ p.extensionEnd = p.payloadOffset ∧
    p.extensionEnd ≤ buffer.length

variable {p buffer} {first last offset : Nat} {extensions : List Extension}

theorem placed_nil : Placed buffer first last [] :=
  ⟨by simp, by simp, .nil⟩

theorem Placed.mono {last' : Nat} (h : Placed buffer first last extensions) (hle : last ≤ last') :
    Placed buffer first last' extensions :=
  ⟨fun e he => ⟨(h.inside e he).1, (h.inside e he).2.trans hle⟩, h.data, h.apart⟩

/-- One more extension behind the others. -/
theorem Placed.snoc (h : Placed buffer first offset extensions) {id len : UInt8}
    (hfirst : first ≤ offset) (hroom : offset + 1 + len.toNat ≤ buffer.length) :
    Placed buffer first (offset + 1 + len.toNat)
      (extensions ++ [⟨id, len, offset + 1, (buffer.drop (offset + 1)).take len.toNat⟩]) := by
  refine ⟨fun e he => ?_, fun e he => ?_, ?_⟩
  · obtain he | he := List.mem_append.mp he
    · have hinside := h.inside e he
      omega
    · rw [List.mem_singleton.mp he]
      dsimp only
      omega
  · obtain he | he := List.mem_append.mp he
    · exact h.data e he
    · rw [List.mem_singleton.mp he]
      refine ⟨?_, rfl⟩
      rw [List.length_take, List.length_drop]
      dsimp only
      omega
  · rw [List.pairwise_append]
    refine ⟨h.apart, List.pairwise_singleton .., fun e he e' he' => ?_⟩
    rw [List.mem_singleton.mp he']
    have hinside := (h.inside e he).2
    dsimp only
    omega

/-! ## What each part ensures -/

theorem fixed_ensures (p : RtpPacket) (buffer : Bytes) : Attempt.Ensures (p.parseFixed buffer) fun q =>
    kFixedHeaderSize ≤ buffer.length ∧ q.payloadOffset = kFixedHeaderSize ∧ q.extensions = [] := by
  unfold parseFixed
  dsimp only
  split
  · exact Attempt.ensures_failure _
  · rename_i hsize
    have hheader : kFixedHeaderSize = 12 := rfl
    obtain ⟨b0, h0⟩ := exists_read8 (b := buffer) (i := 0) (by omega)
    obtain ⟨b1, h1⟩ := exists_read8 (b := buffer) (i := 1) (by omega)
    obtain ⟨seq, hseq⟩ := exists_read16 (b := buffer) (i := 2) (by omega)
    obtain ⟨ts, hts⟩ := exists_read32 (b := buffer) (i := 4) (by omega)
    obtain ⟨ssrc, hssrc⟩ := exists_read32 (b := buffer) (i := 8) (by omega)
    apply Attempt.ensures_bind h0
    split
    · exact Attempt.ensures_failure _
    · split
      · exact Attempt.ensures_failure _
      · apply Attempt.ensures_bind h1
        apply Attempt.ensures_bind hseq
        apply Attempt.ensures_bind hts
        apply Attempt.ensures_bind hssrc
        exact Attempt.ensures_success ⟨Nat.not_lt.mp hsize, rfl, rfl⟩

/-- All of a list of reads have a result if each of them has. -/
theorem exists_mapM {α β : Type} {f : α → Option β} {xs : List α} (h : ∀ x ∈ xs, ∃ v, f x = some v) :
    ∃ vs, xs.mapM f = some vs := by
  induction xs with
  | nil => exact ⟨[], rfl⟩
  | cons x xs ih =>
    obtain ⟨v, hv⟩ := h x List.mem_cons_self
    obtain ⟨vs, hvs⟩ := ih fun y hy => h y (List.mem_cons_of_mem _ hy)
    exact ⟨v :: vs, by rw [List.mapM_cons, hv, hvs]; rfl⟩

theorem csrcs_ensures (hoffset : p.payloadOffset = kFixedHeaderSize) (hnone : p.extensions = []) :
    Attempt.Ensures (p.parseCsrcs buffer) fun q =>
      q.payloadOffset = kFixedHeaderSize + q.csrcCount.toNat * 4 ∧ q.payloadOffset ≤ buffer.length ∧
        q.extensions = [] := by
  unfold parseCsrcs
  split
  · exact Attempt.ensures_failure _
  · rename_i hsize
    have hall : ∀ i ∈ List.range p.csrcCount.toNat, ∃ v, read32 buffer (p.payloadOffset + i * 4) = some v := by
      intro i hi
      rw [List.mem_range] at hi
      exact exists_read32 (by omega)
    obtain ⟨csrcs, hcsrcs⟩ := exists_mapM hall
    apply Attempt.ensures_bind hcsrcs
    dsimp only
    split
    · exact Attempt.ensures_failure _
    · exact Attempt.ensures_success ⟨rfl, Nat.not_lt.mp hsize, hnone⟩

/-- The loop over the extensions comes to an end inside the area. -/
theorem extensions_ensures (hend : last ≤ buffer.length) (hfirst : first ≤ last) :
    ∃ ok extensions, iterate (extensionStep buffer last) (last - first + 1) (first, []) =
      some (ok, extensions) ∧ Placed buffer first last extensions := by
  obtain ⟨⟨ok, extensions⟩, hr, hplaced⟩ := iterate_total (extensionStep buffer last)
    (fun s => first ≤ s.1 ∧ s.1 ≤ last ∧ Placed buffer first s.1 s.2) (fun s => last - s.1)
    (fun r => Placed buffer first last r.2) (by
      rintro ⟨offset, extensions⟩ ⟨hlow, hhigh, hplaced⟩
      dsimp only at hlow hhigh hplaced ⊢
      have hmore := hplaced.mono hhigh
      unfold extensionStep
      dsimp only
      split
      · rename_i hinside
        obtain ⟨element, helement⟩ := exists_read8 (b := buffer) (i := offset) (by omega)
        rw [helement, Option.bind_eq_bind, Option.bind_some]
        split
        · exact .inl ⟨_, rfl, ⟨by dsimp only; omega, by dsimp only; omega, hplaced.mono (Nat.le_succ _)⟩,
            by dsimp only; omega⟩
        · split
          · exact .inr ⟨_, rfl, hmore⟩
          · split
            · exact .inr ⟨_, rfl, hmore⟩
            · rename_i hroom
              rw [readBytes_of_le (by omega), Option.bind_eq_bind, Option.bind_some]
              exact .inl ⟨_, rfl, ⟨by dsimp only; omega, by dsimp only; omega,
                hplaced.snoc hlow (by omega)⟩, by dsimp only; omega⟩
      · exact .inr ⟨_, rfl, hmore⟩)
    (last - first + 1) (first, []) ⟨le_rfl, hfirst, placed_nil⟩ (by dsimp only; omega)
  exact ⟨ok, extensions, hr, hplaced⟩

theorem parseExtensions_ensures (hoffset : p.payloadOffset = kFixedHeaderSize + p.csrcCount.toNat * 4)
    (hsize : p.payloadOffset ≤ buffer.length) (hnone : p.extensions = []) :
    Attempt.Ensures (p.parseExtensions buffer) fun q =>
      q.payloadOffset ≤ buffer.length ∧ ExtensionsPlaced q buffer := by
  have nothing : ∀ {q : RtpPacket}, q.extensions = [] → ExtensionsPlaced q buffer := by
    intro q hq
    exact ⟨hq ▸ placed_nil, fun h => absurd hq h⟩
  unfold parseExtensions
  split
  · exact Attempt.ensures_success ⟨hsize, nothing hnone⟩
  · rename_i hextension
    split
    · exact Attempt.ensures_failure _
    · rename_i hhead
      obtain ⟨profile, hprofile⟩ := exists_read16 (b := buffer) (i := p.payloadOffset) (by omega)
      obtain ⟨len, hlen⟩ := exists_read16 (b := buffer) (i := p.payloadOffset + 2) (by omega)
      apply Attempt.ensures_bind hprofile
      apply Attempt.ensures_bind hlen
      dsimp only
      split
      · exact Attempt.ensures_failure _
      · rename_i harea
        rw [Nat.not_lt] at harea
        split
        · obtain ⟨ok, extensions, hloop, hplaced⟩ := extensions_ensures harea (Nat.le_add_right _ _)
          rw [Nat.add_sub_cancel_left, ← hnone] at hloop
          apply Attempt.ensures_bind hloop
          dsimp only
          cases ok with
          | false => exact Attempt.ensures_failure _
          | true =>
            rw [hoffset] at hplaced harea
            refine Attempt.ensures_success ⟨hoffset ▸ harea, hplaced, fun _ => ⟨?_, ?_, harea⟩⟩
            · simpa using hextension
            · dsimp only [extensionEnd, extensionStart]
              rw [hoffset]
        · exact Attempt.ensures_success ⟨harea, nothing hnone⟩

theorem padding_ensures (hplaced : ExtensionsPlaced p buffer) :
    Attempt.Ensures (p.parsePadding buffer) fun q =>
      q.payloadOffset + q.payloadSize + q.paddingSize = buffer.length ∧ ExtensionsPlaced q buffer := by
  -- Whatever the padding is taken for.
  have rest : ∀ q : RtpPacket, q.payloadOffset = p.payloadOffset → ExtensionsPlaced q buffer →
      Attempt.Ensures (if buffer.length < q.payloadOffset + q.paddingSize then some (false, q)
        else some (true, { q with payloadSize := buffer.length - q.payloadOffset - q.paddingSize }))
        fun q => q.payloadOffset + q.payloadSize + q.paddingSize = buffer.length ∧
          ExtensionsPlaced q buffer := by
    intro q hq hplaced
    split
    · exact Attempt.ensures_failure _
    · refine Attempt.ensures_success ⟨?_, hplaced.placed, hplaced.declared⟩
      dsimp only
      omega
  unfold parsePadding
  split
  · rename_i hpadding
    obtain ⟨padding, hlast⟩ := exists_read8 (b := buffer) (i := buffer.length - 1) (by omega)
    rw [hlast]
    simp only [Option.bind_eq_bind, Option.bind_some]
    split
    · exact rest { p with hasPadding := false, paddingSize := 0 } rfl ⟨hplaced.placed, hplaced.declared⟩
    · exact rest { p with paddingSize := padding.toNat } rfl ⟨hplaced.placed, hplaced.declared⟩
  · exact rest { p with paddingSize := 0 } rfl ⟨hplaced.placed, hplaced.declared⟩

/-- For every datagram, `Parse` comes to an end and reads inside it only. What it accepts is header,
    payload and padding, and its extensions lie apart and in order in the area declared for them. -/
theorem parse_inBounds (p : RtpPacket) (buffer : Bytes) : Attempt.Ensures (p.parse buffer) fun q =>
    q.payloadOffset + q.payloadSize + q.paddingSize = buffer.length ∧ ExtensionsPlaced q buffer := by
  have header : Attempt.Ensures (Attempt.andThen (p.parseFixed buffer) (parseCsrcs · buffer)) fun q =>
      q.payloadOffset = kFixedHeaderSize + q.csrcCount.toNat * 4 ∧ q.payloadOffset ≤ buffer.length ∧
        q.extensions = [] :=
    (fixed_ensures p buffer).andThen fun _ hq => csrcs_ensures hq.2.1 hq.2.2
  have extended : Attempt.Ensures (Attempt.andThen
      (Attempt.andThen (p.parseFixed buffer) (parseCsrcs · buffer)) (parseExtensions · buffer)) fun q =>
      q.payloadOffset ≤ buffer.length ∧ ExtensionsPlaced q buffer :=
    header.andThen fun _ hq => parseExtensions_ensures hq.1 hq.2.1 hq.2.2
  exact extended.andThen fun _ hq => padding_ensures hq.2

end RtpPacket

end CrossTransfer.Minirtc
