import Mathlib.Data.List.Basic

/-! # Messages in pieces

A message is cut into pieces of at most `size` elements, of which the last one is marked, and a
reader joins what it gets up to a marked piece. The reader holds at most `limit` elements: a piece
that would exceed it is dropped with everything before it (`feed`).

A stream of whole messages comes out as it went in, without those that are too long, if each of
those is too long by its last piece only (`receive_split`). A stream that is cut off after a marked
piece is one of whole messages again (`exists_of_final`).
-/

namespace CrossTransfer.Library

structure Piece (α : Type*) where
  final : Bool
  payload : List α

namespace Framing

variable {α : Type*} {size limit : Nat}

/-- The pieces of a message. -/
def split (size : Nat) (m : List α) : List (Piece α) :=
  if size = 0 ∨ m.length ≤ size then [⟨true, m⟩] else ⟨false, m.take size⟩ :: split size (m.drop size)
termination_by m.length
decreasing_by
  rw [List.length_drop]
  omega

/-- The reader's buffer after a piece, and the message that the piece completes. -/
def feed (limit : Nat) (buffer : List α) (piece : Piece α) : List α × Option (List α) :=
  if limit < buffer.length + piece.payload.length then ([], none)
  else if piece.final then ([], some (buffer ++ piece.payload))
  else (buffer ++ piece.payload, none)

/-- The buffer after some pieces, and the messages that they complete. -/
def receive (limit : Nat) : List α → List (Piece α) → List α × List (List α)
  | buffer, [] => (buffer, [])
  | buffer, piece :: pieces =>
    let (buffer, message) := feed limit buffer piece
    let (buffer, messages) := receive limit buffer pieces
    (buffer, message.toList ++ messages)

theorem split_of_le {m : List α} (h : m.length ≤ size) : split size m = [⟨true, m⟩] := by
  rw [split, if_pos (.inr h)]

theorem split_of_lt (hsize : 0 < size) {m : List α} (h : size < m.length) :
    split size m = ⟨false, m.take size⟩ :: split size (m.drop size) := by
  rw [split, if_neg]
  omega

theorem feed_more {buffer payload : List α} (h : buffer.length + payload.length ≤ limit) :
    feed limit buffer ⟨false, payload⟩ = (buffer ++ payload, none) := by
  simp [feed, Nat.not_lt.mpr h]

theorem receive_append (buffer : List α) (ps qs : List (Piece α)) :
    receive limit buffer (ps ++ qs) =
      ((receive limit (receive limit buffer ps).1 qs).1,
        (receive limit buffer ps).2 ++ (receive limit (receive limit buffer ps).1 qs).2) := by
  induction ps generalizing buffer with
  | nil => rfl
  | cons p ps ih => simp [receive, ih]

/-- What has come out stays the beginning of what comes out. -/
theorem receive_mono (buffer : List α) {ps qs : List (Piece α)} (h : ps <+: qs) :
    (receive limit buffer ps).2 <+: (receive limit buffer qs).2 := by
  obtain ⟨rest, rfl⟩ := h
  rw [receive_append]
  exact List.prefix_append ..

/-- Only the last piece may exceed the limit. -/
def Fits (size limit : Nat) (m : List α) : Prop := (m.length - 1) / size * size ≤ limit

theorem fits_of_le {m : List α} (h : m.length ≤ limit) : Fits size limit m :=
  Nat.le_trans (Nat.div_mul_le_self ..) (by omega)

theorem receive_split_from (hsize : 0 < size) (m buffer : List α)
    (hfits : buffer.length + (m.length - 1) / size * size ≤ limit) :
    receive limit buffer (split size m) =
      ([], if buffer.length + m.length ≤ limit then [buffer ++ m] else []) := by
  fun_induction split size m generalizing buffer with
  | case1 m hlast =>
    by_cases hroom : buffer.length + m.length ≤ limit
    · simp [receive, feed, hroom, Nat.not_lt.mpr hroom]
    · simp [receive, feed, hroom, Nat.not_le.mp hroom]
  | case2 m hmore ih =>
    have hlong : size < m.length := by omega
    have hcount : (m.length - 1) / size * size = (m.length - size - 1) / size * size + size := by
      have hdiv : (m.length - 1) / size = (m.length - size - 1) / size + 1 := by
        rw [← Nat.add_div_right _ hsize]
        congr 1
        omega
      rw [hdiv, Nat.add_mul, Nat.one_mul]
    have htake : (m.take size).length = size := by
      rw [List.length_take]
      omega
    have hdrop : (m.drop size).length = m.length - size := List.length_drop
    have hrest := ih (buffer ++ m.take size)
      (by rw [List.length_append, htake, hdrop]; omega)
    have hjoin : buffer ++ m.take size ++ m.drop size = buffer ++ m := by
      rw [List.append_assoc, List.take_append_drop]
    have htotal : (buffer ++ m.take size).length + (m.drop size).length = buffer.length + m.length := by
      rw [List.length_append, htake, hdrop]
      omega
    have hroom : buffer.length + (m.take size).length ≤ limit := by omega
    rw [hjoin, htotal] at hrest
    simp only [receive, feed_more hroom, hrest, Option.toList_none, List.nil_append]

/-- A whole message arrives, or is dropped. -/
theorem receive_split (hsize : 0 < size) {m : List α} (hfits : Fits size limit m) :
    receive limit [] (split size m) = ([], if m.length ≤ limit then [m] else []) := by
  have hwhole := receive_split_from hsize m [] (by simpa [Fits] using hfits)
  simpa using hwhole

theorem receive_stream (hsize : 0 < size) {ms : List (List α)} (hfits : ∀ m ∈ ms, Fits size limit m) :
    receive limit [] (ms.flatMap (split size)) = ([], ms.filter (·.length ≤ limit)) := by
  induction ms with
  | nil => rfl
  | cons m ms ih =>
    rw [List.forall_mem_cons] at hfits
    rw [List.flatMap_cons, receive_append, receive_split hsize hfits.1, ih hfits.2, List.filter_cons]
    by_cases hm : m.length ≤ limit
    · simp [hm]
    · simp [hm]

/-! ## Streams that break off -/

/-- No piece of a message but the last is marked. -/
theorem split_eq_concat (size : Nat) (m : List α) :
    ∃ before last, split size m = before ++ [⟨true, last⟩] ∧ ∀ p ∈ before, p.final = false := by
  fun_induction split size m with
  | case1 m hlast => exact ⟨[], m, rfl, by simp⟩
  | case2 m hmore ih =>
    obtain ⟨before, last, hsplit, hbefore⟩ := ih
    refine ⟨⟨false, m.take size⟩ :: before, last, ?_, ?_⟩
    · rw [hsplit, List.cons_append]
    · rw [List.forall_mem_cons]
      exact ⟨rfl, hbefore⟩

/-- A message broken off after a marked piece is the whole message. -/
theorem eq_split_of_final {m : List α} {ps qs : List (Piece α)} (h : split size m = ps ++ qs)
    (hlast : ∀ p, ps.getLast? = some p → p.final = true) : ps = [] ∨ qs = [] := by
  obtain ⟨before, last, hsplit, hbefore⟩ := split_eq_concat size m
  obtain rfl | ⟨qs, q, rfl⟩ := List.eq_nil_or_concat' qs
  · exact .inr rfl
  · left
    rw [hsplit, ← List.append_assoc] at h
    obtain ⟨rfl, -⟩ := List.append_inj' h rfl
    by_contra hne
    obtain ⟨ps, p, rfl⟩ := (List.eq_nil_or_concat' ps).resolve_left hne
    have hfinal := hlast p (by simp)
    rw [hbefore p (by simp)] at hfinal
    cases hfinal

/-- Where the last piece is a marked one, the pieces are those of whole messages. -/
theorem exists_of_final {ms : List (List α)} {ps qs : List (Piece α)}
    (h : ps ++ qs = ms.flatMap (split size)) (hlast : ∀ p, ps.getLast? = some p → p.final = true) :
    ∃ ms', ms' <+: ms ∧ ps = ms'.flatMap (split size) := by
  induction ms generalizing ps with
  | nil =>
    obtain ⟨rfl, -⟩ := List.append_eq_nil_iff.mp h
    exact ⟨[], List.nil_prefix, rfl⟩
  | cons m ms ih =>
    rw [List.flatMap_cons] at h
    obtain ⟨rest, hsplit, -⟩ | ⟨rest, rfl, hrest⟩ := List.append_eq_append_iff.mp h
    · obtain rfl | rfl := eq_split_of_final hsplit hlast
      · exact ⟨[], List.nil_prefix, rfl⟩
      · exact ⟨[m], List.prefix_append [m] ms, by simpa using hsplit.symm⟩
    · have hlast' : ∀ p, rest.getLast? = some p → p.final = true := by
        intro p hp
        apply hlast
        rw [List.getLast?_append, hp]
        rfl
      obtain ⟨ms', hms', rfl⟩ := ih hrest.symm hlast'
      exact ⟨m :: ms', List.cons_prefix_cons.mpr ⟨rfl, hms'⟩, rfl⟩

end Framing

end CrossTransfer.Library
