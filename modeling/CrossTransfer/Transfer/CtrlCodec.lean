import CrossTransfer.Library.Framing
import CrossTransfer.Transfer.PathSanitize

/-! # The framing of control messages

`ctrl_codec.cpp`: a message is cut into chunks with a flag byte each, and the peer joins them.
-/

namespace CrossTransfer.Transfer

open CrossTransfer.Library

/-- The largest payload of a chunk. -/
def kCtrlChunk : Nat := 16 * 1024

/-- The largest message that is joined. -/
def kMaxCtrlMessage : Nat := 16 * 1024 * 1024

/-- `SplitCtrlMessage`, from an offset on. -/
def splitCtrlMessageFrom (message : Bytes) (offset : Nat) : List Bytes :=
  let n := min kCtrlChunk (message.length - offset)
  let chunk := (if message.length ≤ offset + n then 1 else 0) :: (message.drop offset).take n
  if offset + n < message.length then chunk :: splitCtrlMessageFrom message (offset + n) else [chunk]
termination_by message.length - offset
decreasing_by
  have : 0 < kCtrlChunk := by decide
  omega

/-- `SplitCtrlMessage`. -/
def splitCtrlMessage (message : Bytes) : List Bytes := splitCtrlMessageFrom message 0

/-- `CtrlReassembler`. -/
structure CtrlReassembler where
  buffer : Bytes := []
deriving DecidableEq

namespace CtrlReassembler

/-- `Feed`: the message that the chunk completes, if it does, or the error. -/
def feed (r : CtrlReassembler) : Bytes → CtrlReassembler × Except Bytes (Option Bytes)
  | [] => ({}, .error (ascii "empty ctrl chunk"))
  | flag :: payload =>
    if 1 < flag then ({}, .error (ascii "bad ctrl chunk flags"))
    else if kMaxCtrlMessage < r.buffer.length + payload.length then
      ({}, .error (ascii "ctrl message too large"))
    else
      let buffer := r.buffer ++ payload
      if flag = 1 then ({}, .ok (some buffer)) else ({ buffer := buffer }, .ok none)

/-- The chunks fed one after another, and the messages that they complete. -/
def feedAll (r : CtrlReassembler) : List Bytes → CtrlReassembler × List Bytes
  | [] => (r, [])
  | chunk :: chunks =>
    let (r, result) := r.feed chunk
    let (r, messages) := r.feedAll chunks
    (r, (result.toOption.join).toList ++ messages)

/-- The chunks fed one after another, and what each call returns. -/
def feedEach (r : CtrlReassembler) :
    List Bytes → CtrlReassembler × List (Except Bytes (Option Bytes))
  | [] => (r, [])
  | chunk :: chunks =>
    let (r, result) := r.feed chunk
    let (r, results) := r.feedEach chunks
    (r, result :: results)

end CtrlReassembler

/-! ## Chunks and pieces -/

/-- The bytes of a piece. -/
def encodeChunk (piece : Piece UInt8) : Bytes := (if piece.final then 1 else 0) :: piece.payload

theorem kCtrlChunk_pos : 0 < kCtrlChunk := by decide

theorem splitCtrlMessageFrom_eq (message : Bytes) (offset : Nat) :
    splitCtrlMessageFrom message offset =
      (Framing.split kCtrlChunk (message.drop offset)).map encodeChunk := by
  have hrest : (message.drop offset).length = message.length - offset := List.length_drop
  rw [splitCtrlMessageFrom]
  by_cases hlong : kCtrlChunk < message.length - offset
  · have hn : min kCtrlChunk (message.length - offset) = kCtrlChunk := min_eq_left hlong.le
    have hmore : offset + kCtrlChunk < message.length := by omega
    rw [Framing.split_of_lt kCtrlChunk_pos (by rw [hrest]; exact hlong), List.drop_drop]
    simp [hn, hmore, encodeChunk, splitCtrlMessageFrom_eq message (offset + kCtrlChunk)]
  · rw [not_lt] at hlong
    have hn : min kCtrlChunk (message.length - offset) = message.length - offset := min_eq_right hlong
    have hlast : message.length ≤ offset + (message.length - offset) := by omega
    have htake : (message.drop offset).take (message.length - offset) = message.drop offset :=
      List.take_of_length_le hrest.le
    rw [Framing.split_of_le (hrest.trans_le hlong)]
    simp [hn, hlast, htake, encodeChunk]
termination_by message.length - offset
decreasing_by
  have := kCtrlChunk_pos
  omega

theorem splitCtrlMessage_eq (message : Bytes) :
    splitCtrlMessage message = (Framing.split kCtrlChunk message).map encodeChunk := by
  rw [splitCtrlMessage, splitCtrlMessageFrom_eq, List.drop_zero]

theorem splitCtrlMessage_short {message : Bytes} (h : message.length ≤ kCtrlChunk) :
    splitCtrlMessage message = [1 :: message] := by
  rw [splitCtrlMessage_eq, Framing.split_of_le h]
  rfl

theorem feed_encodeChunk (r : CtrlReassembler) (piece : Piece UInt8) :
    (r.feed (encodeChunk piece)).1.buffer = (Framing.feed kMaxCtrlMessage r.buffer piece).1 ∧
      (r.feed (encodeChunk piece)).2.toOption.join =
        (Framing.feed kMaxCtrlMessage r.buffer piece).2 := by
  obtain ⟨final, payload⟩ := piece
  by_cases hlarge : kMaxCtrlMessage < r.buffer.length + payload.length
  · cases final with
    | false => simp [CtrlReassembler.feed, Framing.feed, encodeChunk, hlarge, Except.toOption]
    | true => simp [CtrlReassembler.feed, Framing.feed, encodeChunk, hlarge, Except.toOption]
  · cases final with
    | false => simp [CtrlReassembler.feed, Framing.feed, encodeChunk, hlarge, Except.toOption]
    | true => simp [CtrlReassembler.feed, Framing.feed, encodeChunk, hlarge, Except.toOption]

/-- Feeding chunks is receiving pieces. -/
theorem feedAll_map_encodeChunk (r : CtrlReassembler) (pieces : List (Piece UInt8)) :
    r.feedAll (pieces.map encodeChunk) =
      (⟨(Framing.receive kMaxCtrlMessage r.buffer pieces).1⟩,
        (Framing.receive kMaxCtrlMessage r.buffer pieces).2) := by
  induction pieces generalizing r with
  | nil => rfl
  | cons piece pieces ih =>
    obtain ⟨hbuffer, hmessage⟩ := feed_encodeChunk r piece
    simp only [List.map_cons, CtrlReassembler.feedAll, Framing.receive, ih, hbuffer, hmessage]

theorem CtrlReassembler.feedAll_snoc (r : CtrlReassembler) (chunks : List Bytes) (chunk : Bytes) :
    r.feedAll (chunks ++ [chunk]) =
      (((r.feedAll chunks).1.feed chunk).1,
        (r.feedAll chunks).2 ++ ((r.feedAll chunks).1.feed chunk).2.toOption.join.toList) := by
  induction chunks generalizing r with
  | nil => simp [feedAll]
  | cons first chunks ih => simp [feedAll, ih]

/-! ## A stream of messages -/

theorem CtrlReassembler.feedEach_append (r : CtrlReassembler) (chunks chunks' : List Bytes) :
    r.feedEach (chunks ++ chunks') =
      (((r.feedEach chunks).1.feedEach chunks').1,
        (r.feedEach chunks).2 ++ ((r.feedEach chunks).1.feedEach chunks').2) := by
  induction chunks generalizing r with
  | nil => rfl
  | cons chunk chunks ih => simp [feedEach, ih]

/-- What `Feed` returns for the chunks of a message: nothing until the last one. -/
def replies (message : Bytes) : List (Except Bytes (Option Bytes)) :=
  List.replicate ((splitCtrlMessage message).length - 1) (.ok none) ++ [.ok (some message)]

/-- The pieces of the rest of a message complete what the buffer holds of it. -/
theorem feedEach_split (rest : Bytes) (r : CtrlReassembler)
    (hfits : r.buffer.length + rest.length ≤ kMaxCtrlMessage) :
    r.feedEach ((Framing.split kCtrlChunk rest).map encodeChunk) =
      ({}, List.replicate ((Framing.split kCtrlChunk rest).length - 1) (.ok none) ++
        [.ok (some (r.buffer ++ rest))]) := by
  fun_induction Framing.split kCtrlChunk rest generalizing r with
  | case1 rest hlast =>
    have hroom : ¬kMaxCtrlMessage < r.buffer.length + rest.length := Nat.not_lt.mpr hfits
    simp [CtrlReassembler.feedEach, CtrlReassembler.feed, encodeChunk, hroom]
  | case2 rest hmore ih =>
    have hlong : kCtrlChunk < rest.length := by omega
    have htake : (rest.take kCtrlChunk).length = kCtrlChunk := by
      rw [List.length_take]
      omega
    have hdrop : (rest.drop kCtrlChunk).length = rest.length - kCtrlChunk := List.length_drop
    have hroom : ¬kMaxCtrlMessage < r.buffer.length + (rest.take kCtrlChunk).length := by omega
    have hfed : r.feed (encodeChunk ⟨false, rest.take kCtrlChunk⟩) =
        (⟨r.buffer ++ rest.take kCtrlChunk⟩, .ok none) := by
      simp [encodeChunk, CtrlReassembler.feed, -List.length_take, hroom]
    have hrest := ih ⟨r.buffer ++ rest.take kCtrlChunk⟩ (by
      rw [List.length_append, htake, hdrop]
      omega)
    have hpos : 0 < (Framing.split kCtrlChunk (rest.drop kCtrlChunk)).length := by
      rw [Framing.split]
      split
      · simp
      · simp
    have hcount : (Framing.split kCtrlChunk (rest.drop kCtrlChunk)).length =
        (Framing.split kCtrlChunk (rest.drop kCtrlChunk)).length - 1 + 1 := by omega
    simp only [List.map_cons, CtrlReassembler.feedEach, hfed, hrest, List.append_assoc,
      List.take_append_drop, List.length_cons, Nat.add_sub_cancel]
    conv_rhs => rw [hcount, List.replicate_succ, List.cons_append]

theorem feedEach_splitCtrlMessage {message : Bytes} (h : message.length ≤ kMaxCtrlMessage) :
    CtrlReassembler.feedEach {} (splitCtrlMessage message) = ({}, replies message) := by
  have hwhole := feedEach_split message {} (by simpa using h)
  rw [replies, splitCtrlMessage_eq, List.length_map]
  exact hwhole

theorem length_split_le (message : Bytes) :
    ∀ piece ∈ Framing.split kCtrlChunk message, piece.payload.length ≤ kCtrlChunk := by
  fun_induction Framing.split kCtrlChunk message with
  | case1 message hlast =>
    intro piece hpiece
    obtain rfl := List.mem_singleton.mp hpiece
    have := kCtrlChunk_pos
    simp only
    omega
  | case2 message hmore ih =>
    rw [List.forall_mem_cons]
    exact ⟨List.length_take_le .., ih⟩

/-- Messages that are not too long come out as they went in, each with its last chunk, and the
    buffer is empty after each of them. -/
theorem feedEach_messages (messages : List Bytes)
    (hshort : ∀ message ∈ messages, message.length ≤ 16 * 1024 * 1024) :
    CtrlReassembler.feedEach {} (messages.flatMap splitCtrlMessage) =
        ({}, messages.flatMap replies) ∧
      ∀ message ∈ messages, ∀ chunk ∈ splitCtrlMessage message, chunk.length ≤ 16 * 1024 + 1 := by
  constructor
  · induction messages with
    | nil => rfl
    | cons message messages ih =>
      rw [List.forall_mem_cons] at hshort
      rw [List.flatMap_cons, CtrlReassembler.feedEach_append, feedEach_splitCtrlMessage hshort.1,
        ih hshort.2, List.flatMap_cons]
  · intro message _ chunk hchunk
    rw [splitCtrlMessage_eq] at hchunk
    obtain ⟨piece, hpiece, rfl⟩ := List.mem_map.mp hchunk
    rw [encodeChunk, List.length_cons]
    exact Nat.succ_le_succ (length_split_le message piece hpiece)

theorem feedEach_messages_empty :
    CtrlReassembler.feedEach {} ([[], [7]].flatMap splitCtrlMessage) =
        ({}, [[], [7]].flatMap replies) ∧
      ∀ message ∈ ([[], [7]] : List Bytes), ∀ chunk ∈ splitCtrlMessage message,
        chunk.length ≤ 16 * 1024 + 1 :=
  feedEach_messages [[], [7]] (by simp)

end CrossTransfer.Transfer
