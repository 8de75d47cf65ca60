import CrossTransfer.Library.FileSystem

/-! # What an operation leaves alone, and what a write puts where

`Only ps fs fs'` says that between two states of a file system the files at other paths than `ps`
have stayed what they were. A path that an operation is not called with is not touched, because no
two paths share an inode.

`overlay` is what a write does to the bytes of a file. A write of a piece of some content agrees with
that content wherever it writes (`Agrees.overlay`), so a file that pieces of one content are written
to becomes that content.
-/

namespace CrossTransfer.Library

namespace FileSystem

variable {ν : Type*} [DecidableEq ν] {fs fs' fs'' : FileSystem ν} {p q src dst : List ν} {i : Nat}
  {ok : Bool} {ps qs : List (List ν)}

/-! ## Other files -/

/-- The files at other paths are the same. -/
def Only (ps : List (List ν)) (fs fs' : FileSystem ν) : Prop :=
  ∀ q, q ∉ ps → fs'.link q = fs.link q ∧ ∀ i, fs.link q = some i → fs'.data i = fs.data i

theorem Only.refl (ps : List (List ν)) (fs : FileSystem ν) : Only ps fs fs :=
  fun _ _ => ⟨rfl, fun _ _ => rfl⟩

theorem Only.trans (h : Only ps fs fs') (h' : Only ps fs' fs'') : Only ps fs fs'' := by
  intro q hq
  obtain ⟨hlink, hdata⟩ := h q hq
  obtain ⟨hlink', hdata'⟩ := h' q hq
  exact ⟨hlink'.trans hlink, fun i hi => (hdata' i (hlink.trans hi)).trans (hdata i hi)⟩

theorem Only.mono (h : Only ps fs fs') (more : ∀ p ∈ ps, p ∈ qs) : Only qs fs fs' :=
  fun q hq => h q fun hmem => hq (more q hmem)

theorem Only.read (h : Only ps fs fs') (hq : q ∉ ps) : fs'.read q = fs.read q := by
  obtain ⟨hlink, hdata⟩ := h q hq
  rw [FileSystem.read, FileSystem.read, hlink]
  cases hi : fs.link q with
  | none => rfl
  | some i => exact congrArg some (hdata i hi)

theorem SameFiles.only (h : SameFiles fs fs') : Only ps fs fs' :=
  fun q _ => ⟨h.link q, fun i _ => congrFun h.data i⟩

theorem only_create : Only [p] fs (fs.create p) := by
  intro q hq
  have hne : q ≠ p := fun h => hq (h ▸ List.mem_singleton_self _)
  refine ⟨by rw [link_create, if_neg hne], fun i hi => ?_⟩
  have hlt := fs.link_lt q i hi
  exact if_neg (by omega)

theorem only_openWrite (h : fs.openWrite p ok = some (fs', i)) : Only [p] fs fs' := by
  obtain ⟨-, rfl⟩ | ⟨-, rfl, -⟩ := openWrite_cases h
  · exact .refl _ _
  · exact only_create

/-- Changing the bytes of a file. -/
theorem only_setData (hp : fs.link p = some i) (bytes : List UInt8) : Only [p] fs (fs.setData i bytes) := by
  intro q hq
  refine ⟨rfl, fun j hj => ?_⟩
  have hne : j ≠ i := by
    rintro rfl
    exact hq (fs.link_unique q p j hj hp ▸ List.mem_singleton_self _)
  exact if_neg hne

theorem only_writeAt (hp : fs.link p = some i) (offset : Nat) (buf : List UInt8) :
    Only [p] fs (fs.writeAt i offset buf) :=
  only_setData hp _

theorem only_ensureSize (hp : fs.link p = some i) (size : Nat) : Only [p] fs (fs.ensureSize i size) :=
  only_setData hp _

theorem only_createEmpty (h : fs.createEmpty p ok = some fs') : Only [p] fs fs' := by
  obtain ⟨mid, i, hopen, rfl⟩ := createEmpty_cases h
  exact (only_openWrite hopen).trans (only_setData (link_of_openWrite hopen) [])

theorem only_rename (h : fs.rename src dst ok = some fs') : Only [src, dst] fs fs' := by
  obtain ⟨i, hi, rfl⟩ := rename_cases h
  intro q hq
  have hsrc : q ≠ src := fun h => hq (by simp [h])
  have hdst : q ≠ dst := fun h => hq (by simp [h])
  exact ⟨by rw [link_move, if_neg hdst, if_neg hsrc], fun _ _ => rfl⟩

/-! ## Bytes -/

variable {bytes buf buf' content : List UInt8} {offset k : Nat}

/-- A write inside the file. -/
theorem overlay_inside (h : offset + buf.length ≤ bytes.length) :
    overlay bytes offset buf = bytes.take offset ++ buf ++ bytes.drop (offset + buf.length) := by
  have hgap : offset - bytes.length = 0 := by omega
  unfold overlay
  split
  · rename_i hempty
    rw [hempty, List.append_nil, List.length_nil, Nat.add_zero, List.take_append_drop]
  · rw [hgap, List.replicate_zero, List.append_nil]

theorem length_overlay (h : offset + buf.length ≤ bytes.length) :
    (overlay bytes offset buf).length = bytes.length := by
  rw [overlay_inside h, List.length_append, List.length_append, List.length_take, List.length_drop]
  omega

theorem getElem?_overlay (h : offset + buf.length ≤ bytes.length) (k : Nat) :
    (overlay bytes offset buf)[k]? =
      if offset ≤ k ∧ k < offset + buf.length then buf[k - offset]? else bytes[k]? := by
  have hlength : (bytes.take offset).length = offset := by
    rw [List.length_take]
    omega
  rw [overlay_inside h, List.append_assoc]
  split
  · rename_i hk
    rw [List.getElem?_append_right (by omega), hlength, List.getElem?_append_left (by omega)]
  · rename_i hk
    by_cases hlow : k < offset
    · rw [List.getElem?_append_left (by omega), List.getElem?_take_of_lt hlow]
    · have hhigh : offset + buf.length ≤ k := by omega
      rw [List.getElem?_append_right (by omega), hlength, List.getElem?_append_right (by omega),
        List.getElem?_drop]
      congr 1
      omega

/-- Two writes in a row are one. -/
theorem overlay_append :
    overlay (overlay bytes offset buf) (offset + buf.length) buf' = overlay bytes offset (buf ++ buf') := by
  by_cases hbuf : buf = []
  · rw [hbuf, List.nil_append, List.length_nil, Nat.add_zero]
    simp [overlay]
  by_cases hbuf' : buf' = []
  · rw [hbuf', List.append_nil]
    simp [overlay]
  have hfirst : overlay bytes offset buf =
      (bytes ++ List.replicate (offset - bytes.length) 0).take offset ++ buf ++
        bytes.drop (offset + buf.length) := if_neg hbuf
  have hlength : ((bytes ++ List.replicate (offset - bytes.length) 0).take offset).length = offset := by
    rw [List.length_take, List.length_append, List.length_replicate]
    omega
  have hhead : ((bytes ++ List.replicate (offset - bytes.length) 0).take offset ++ buf).length =
      offset + buf.length := by
    rw [List.length_append, hlength]
  have hgap : offset + buf.length - (overlay bytes offset buf).length = 0 := by
    rw [hfirst, List.length_append, hhead]
    omega
  have hsecond : overlay (overlay bytes offset buf) (offset + buf.length) buf' =
      (overlay bytes offset buf).take (offset + buf.length) ++ buf' ++
        (overlay bytes offset buf).drop (offset + buf.length + buf'.length) := by
    conv_lhs => rw [overlay, if_neg hbuf', hgap, List.replicate_zero, List.append_nil]
  have hboth : overlay bytes offset (buf ++ buf') =
      (bytes ++ List.replicate (offset - bytes.length) 0).take offset ++ (buf ++ buf') ++
        bytes.drop (offset + (buf ++ buf').length) := if_neg (by simp [hbuf])
  rw [hsecond, hboth, hfirst, List.take_left' hhead, ← List.drop_drop, List.drop_left' hhead,
    List.drop_drop, List.length_append, Nat.add_assoc]
  simp

/-- Two writes in a row to one file are one. -/
theorem writeAt_append : (fs.writeAt i offset buf).writeAt i (offset + buf.length) buf' =
    fs.writeAt i offset (buf ++ buf') := by
  have hdata : (fs.writeAt i offset buf).data i = overlay (fs.data i) offset buf := if_pos rfl
  unfold writeAt at hdata ⊢
  rw [hdata, overlay_append]
  unfold setData
  congr 1
  funext j
  by_cases hj : j = i
  · rw [if_pos hj, if_pos hj]
  · rw [if_neg hj, if_neg hj]
    exact if_neg hj

/-! ## Pieces of a content -/

/-- The bytes at `k` are those of the content. -/
def Agrees (content bytes : List UInt8) (k : Nat) : Prop := bytes[k]? = content[k]?

/-- A piece of the content is written to its place. -/
theorem Agrees.overlay (hbuf : buf = (content.drop offset).take buf.length)
    (h : offset + buf.length ≤ bytes.length) {k : Nat}
    (agrees : Agrees content bytes k ∨ offset ≤ k ∧ k < offset + buf.length) :
    Agrees content (FileSystem.overlay bytes offset buf) k := by
  rw [Agrees, getElem?_overlay h]
  split
  · rename_i hk
    rw [hbuf, List.getElem?_take_of_lt (by omega), List.getElem?_drop]
    congr 1
    omega
  · rename_i hk
    exact agrees.resolve_right hk

/-- A file that is as long as the content and agrees with it everywhere is the content. -/
theorem eq_of_agrees (hlength : bytes.length = content.length)
    (h : ∀ k, k < content.length → Agrees content bytes k) : bytes = content := by
  apply List.ext_getElem?
  intro k
  by_cases hk : k < content.length
  · exact h k hk
  · rw [List.getElem?_eq_none (by omega), List.getElem?_eq_none (by omega)]

end FileSystem

end CrossTransfer.Library
