/-
The bytes of a peer and the messages in them (`net.cpp`: `CNode::ReceiveMsgBytes`,
`CNetMessage::readHeader`, `CNetMessage::readData`).

The bytes come in packets, cut anywhere.  A message keeps what it has of its header in a buffer of
24 bytes; once the header is whole, the payload grows behind it.  `Pending` relates the message in
the making to what is left over of the stream so far, and one pass of the loop takes some bytes on
both sides (`Pending.took`).

  * `receiveAll_parse`: the messages, and the place where the node gives up, are those of the
        whole stream.

The time at which a message was complete and the waking of the message handler are left out.
-/
import Stonecoin.Framing
import Stonecoin.Loops
import Stonecoin.Streams
import Mathlib.Data.List.Forall2
import Mathlib.Logic.Relation

namespace Stonecoin

open Readers Framing

def MAX_PROTOCOL_MESSAGE_LENGTH : ℕ := 2 * 1024 * 1024

def MESSAGE_START_SIZE : ℕ := 4

def COMMAND_SIZE : ℕ := 12

/-! ### Headers -/

structure CMessageHeader where
  pchMessageStart : List UInt8
  pchCommand : List UInt8
  nMessageSize : ℕ
  nChecksum : ℕ
  deriving DecidableEq, Repr

namespace CMessageHeader

/-- The header of a message that has not been received: its size is `-1`. -/
def new (pchMessageStartIn : List UInt8) : CMessageHeader :=
  ⟨pchMessageStartIn, List.replicate COMMAND_SIZE 0, 2 ^ 32 - 1, 0⟩

/-- `SerializationOp`, for reading. -/
def read : Reader UInt8 CMessageHeader := do
  let pchMessageStart ← Readers.take MESSAGE_START_SIZE
  let pchCommand ← Readers.take COMMAND_SIZE
  let nMessageSize ← readNum 4
  let nChecksum ← readNum 4
  pure ⟨pchMessageStart, pchCommand, nMessageSize, nChecksum⟩

def ofBytes (h : List UInt8) : CMessageHeader :=
  ⟨h.take 4, (h.drop 4).take 12, readLE ((h.drop 16).take 4), readLE ((h.drop 20).take 4)⟩

theorem readNum_of_le {w : ℕ} {s : List UInt8} (h : w ≤ s.length) :
    readNum w s = some (readLE (s.take w), s.drop w) := by
  show (Readers.take w s).bind (fun p => some (readLE p.1, p.2)) = _
  rw [Readers.take, if_pos h]
  rfl

theorem read_eq {h : List UInt8} (hh : h.length = 24) : read h = some (ofBytes h, []) := by
  have hstart : Readers.take MESSAGE_START_SIZE h = some (h.take 4, h.drop 4) :=
    if_pos (hh ▸ by decide)
  have hcommand : Readers.take COMMAND_SIZE (h.drop 4) = some ((h.drop 4).take 12, h.drop 16) := by
    rw [Readers.take, if_pos (by rw [List.length_drop, hh]; decide), List.drop_drop]
    rfl
  have hsize : readNum 4 (h.drop 16) = some (readLE ((h.drop 16).take 4), h.drop 20) := by
    rw [readNum_of_le (by rw [List.length_drop, hh]; decide), List.drop_drop]
  have hsum : readNum 4 (h.drop 20) = some (readLE ((h.drop 20).take 4), []) := by
    rw [readNum_of_le (by rw [List.length_drop, hh]), List.drop_drop,
      List.drop_eq_nil_of_le (Nat.le_of_eq hh)]
  unfold read
  rw [bind_of_some hstart, bind_of_some hcommand, bind_of_some hsize, bind_of_some hsum]
  rfl

end CMessageHeader

/-- Headers of 24 bytes and what they announce. -/
def messageFormat : Format UInt8 where
  header := 24
  size h := (CMessageHeader.ofBytes h).nMessageSize
  limit := MAX_PROTOCOL_MESSAGE_LENGTH
  header_pos := by decide

/-! ### A message in the making -/

/-- `memcpy`: there is no result when bytes outside of one of the two buffers were touched. -/
def memcpy (dst : List UInt8) (pos : ℕ) (src : List UInt8) (n : ℕ) : Option (List UInt8) :=
  if pos + n ≤ dst.length ∧ n ≤ src.length then
    some (dst.take pos ++ src.take n ++ dst.drop (pos + n))
  else none

structure CNetMessage where
  in_data : Bool
  hdrbuf : List UInt8
  hdr : CMessageHeader
  nHdrPos : ℕ
  vRecv : List UInt8
  nDataPos : ℕ
  deriving Repr

namespace CNetMessage

def new (pchMessageStartIn : List UInt8) : CNetMessage :=
  ⟨false, List.replicate 24 0, .new pchMessageStartIn, 0, [], 0⟩

def complete (msg : CNetMessage) : Bool :=
  msg.in_data && decide (msg.hdr.nMessageSize = msg.nDataPos)

def headerRead (msg : CNetMessage) (nCopy : ℕ) : CNetMessage × ℤ :=
  (CMessageHeader.read msg.hdrbuf).elim (msg, -1) fun (hdr, hdrbuf) =>
    if MAX_SIZE < hdr.nMessageSize then ({ msg with hdr := hdr, hdrbuf := hdrbuf }, -1)
    else ({ msg with hdr := hdr, hdrbuf := hdrbuf, in_data := true }, nCopy)

def headerCopy (msg : CNetMessage) (nBytes : ℕ) : ℕ :=
  min ((24 + 2 ^ 32 - msg.nHdrPos) % 2 ^ 32) nBytes

def readHeader (msg : CNetMessage) (pch : List UInt8) : Option (CNetMessage × ℤ) :=
  (memcpy msg.hdrbuf msg.nHdrPos pch (msg.headerCopy pch.length)).map fun hdrbuf =>
    if msg.nHdrPos + msg.headerCopy pch.length < 24 then
      ({ msg with hdrbuf := hdrbuf, nHdrPos := msg.nHdrPos + msg.headerCopy pch.length },
        (msg.headerCopy pch.length : ℤ))
    else
      headerRead { msg with hdrbuf := hdrbuf, nHdrPos := msg.nHdrPos + msg.headerCopy pch.length }
        (msg.headerCopy pch.length)

def dataCopy (msg : CNetMessage) (nBytes : ℕ) : ℕ :=
  min ((msg.hdr.nMessageSize + 2 ^ 32 - msg.nDataPos) % 2 ^ 32) nBytes

def resize (l : List UInt8) (n : ℕ) : List UInt8 := l.take n ++ List.replicate (n - l.length) 0

/-- The buffer of the payload, with room for some more bytes. -/
def grown (msg : CNetMessage) (nCopy : ℕ) : List UInt8 :=
  if msg.vRecv.length < (msg.nDataPos + nCopy) % 2 ^ 32 then
    resize msg.vRecv (min msg.hdr.nMessageSize ((msg.nDataPos + nCopy + 256 * 1024) % 2 ^ 32))
  else msg.vRecv

def readData (msg : CNetMessage) (pch : List UInt8) : Option (CNetMessage × ℤ) :=
  (memcpy (msg.grown (msg.dataCopy pch.length)) msg.nDataPos pch (msg.dataCopy pch.length)).map
    fun vRecv => ({ msg with vRecv := vRecv, nDataPos := msg.nDataPos + msg.dataCopy pch.length },
      (msg.dataCopy pch.length : ℤ))

def absorb (msg : CNetMessage) (pch : List UInt8) : Option (CNetMessage × ℤ) :=
  if msg.in_data then msg.readData pch else msg.readHeader pch

end CNetMessage

/-! ### The loop -/

open CNetMessage

variable (pchMessageStart : List UInt8)

/-- The messages before the current one, and the current incomplete message, or a new one. -/
def currentMessage (vRecvMsg : List CNetMessage) : List CNetMessage × CNetMessage :=
  vRecvMsg.getLast?.elim ([], .new pchMessageStart) fun back =>
    if back.complete then (vRecvMsg, .new pchMessageStart) else (vRecvMsg.dropLast, back)

/-- The rest of a pass, after bytes were handled. -/
def handledBytes (before : List CNetMessage) (pch : List UInt8) :
    CNetMessage × ℤ → (List CNetMessage × List UInt8) ⊕ Option (List CNetMessage × Bool)
  | (msg, handled) =>
    if handled < 0 then .inr (some (before ++ [msg], false))
    else if msg.in_data ∧ MAX_PROTOCOL_MESSAGE_LENGTH < msg.hdr.nMessageSize then
      .inr (some (before ++ [msg], false))
    else .inl (before ++ [msg], pch.drop handled.toNat)

def receivePass (s : List CNetMessage × List UInt8) :
    (List CNetMessage × List UInt8) ⊕ Option (List CNetMessage × Bool) :=
  if s.2 = [] then .inr (some (s.1, true))
  else ((currentMessage pchMessageStart s.1).2.absorb s.2).elim (.inr none)
    (handledBytes (currentMessage pchMessageStart s.1).1 s.2)

def ReceiveMsgBytes (vRecvMsg : List CNetMessage) (pch : List UInt8)
    (r : List CNetMessage × Bool) : Prop :=
  Loops.Ends (receivePass pchMessageStart) (vRecvMsg, pch) (some r)

/-! ### What a message in the making is -/

variable {n : ℕ}

omit pchMessageStart in
theorem memcpy_eq {dst src : List UInt8} {pos : ℕ} (hdst : pos + n ≤ dst.length)
    (hsrc : n ≤ src.length) :
    memcpy dst pos src n = some (dst.take pos ++ src.take n ++ dst.drop (pos + n)) :=
  if_pos ⟨hdst, hsrc⟩

structure IsFrame (msg : CNetMessage) (f : Frame UInt8) : Prop where
  in_data : msg.in_data = true
  hdr : msg.hdr = .ofBytes f.head
  vRecv : msg.vRecv = f.body
  size : msg.hdr.nMessageSize = f.body.length
  le : msg.hdr.nMessageSize ≤ MAX_PROTOCOL_MESSAGE_LENGTH
  nDataPos : msg.nDataPos = f.body.length

structure InHeader (msg : CNetMessage) (h : List UInt8) : Prop where
  in_data : msg.in_data = false
  lt : h.length < 24
  nHdrPos : msg.nHdrPos = h.length
  hdrbuf : msg.hdrbuf.length = 24
  take : msg.hdrbuf.take h.length = h
  vRecv : msg.vRecv = []
  nDataPos : msg.nDataPos = 0

structure InPayload (msg : CNetMessage) (h p : List UInt8) : Prop where
  in_data : msg.in_data = true
  head : h.length = 24
  hdr : msg.hdr = .ofBytes h
  size : msg.hdr.nMessageSize ≤ MAX_PROTOCOL_MESSAGE_LENGTH
  lt : p.length < msg.hdr.nMessageSize
  nDataPos : msg.nDataPos = p.length
  le : msg.vRecv.length ≤ msg.hdr.nMessageSize
  ge : p.length ≤ msg.vRecv.length
  take : msg.vRecv.take p.length = p

/-- The message in the making and what is left over of the stream. -/
def Pending (msg : CNetMessage) : Tail UInt8 → Prop
  | .header h => InHeader msg h
  | .payload h p => InPayload msg h p
  | .oversized _ _ => False

/-- What became of the bytes that a message took behind the word `w`: they were all handled, and
the message is still in the making or is whole, or its header announces too much. -/
inductive Took (w taken : List UInt8) : CNetMessage × ℤ → Prop
  | pending {msg : CNetMessage} {t : Tail UInt8} (hmsg : Pending msg t)
      (hparse : messageFormat.parse (w ++ taken) = ⟨[], t⟩) :
      Took w taken (msg, taken.length)
  | whole {msg : CNetMessage} {f : Frame UInt8} (hmsg : IsFrame msg f)
      (hparse : messageFormat.parse (w ++ taken) = ⟨[f], .header []⟩) :
      Took w taken (msg, taken.length)
  | refused {msg : CNetMessage} {h : List UInt8} {handled : ℤ} (hmsg : msg.complete = false)
      (hparse : messageFormat.parse (w ++ taken) = ⟨[], .oversized h []⟩)
      (hover : handled < 0 ∨
        0 ≤ handled ∧ msg.in_data = true ∧ MAX_PROTOCOL_MESSAGE_LENGTH < msg.hdr.nMessageSize) :
      Took w taken (msg, handled)

variable {msg : CNetMessage}

omit pchMessageStart in
theorem IsFrame.complete {f : Frame UInt8} (h : IsFrame msg f) :
    msg.complete = true := by
  rw [CNetMessage.complete, h.in_data, h.size, h.nDataPos]
  simp

omit pchMessageStart in
theorem Pending.complete {t : Tail UInt8} (h : Pending msg t) :
    msg.complete = false := by
  cases t with
  | header w =>
    have hmsg : InHeader msg w := h
    rw [CNetMessage.complete, hmsg.in_data, Bool.false_and]
  | payload w p =>
    have hmsg : InPayload msg w p := h
    rw [CNetMessage.complete, hmsg.in_data, Bool.true_and, hmsg.nDataPos]
    exact decide_eq_false hmsg.lt.ne'
  | oversized w rest => exact h.elim

theorem inHeader_new : InHeader (.new pchMessageStart) [] :=
  ⟨rfl, by decide, rfl, rfl, rfl, rfl, rfl⟩

omit pchMessageStart in
theorem Pending.size {t : Tail UInt8} (h : Pending msg t) (hdata : msg.in_data = true) :
    msg.hdr.nMessageSize ≤ MAX_PROTOCOL_MESSAGE_LENGTH := by
  cases t with
  | header w => exact absurd (hdata.symm.trans (InHeader.in_data h)) (by decide)
  | payload w p => exact InPayload.size h
  | oversized w rest => exact h.elim

/-! ### A message takes bytes -/

omit pchMessageStart in
theorem took_headerRead (msg : CNetMessage) (h taken : List UInt8) (hbuf : msg.hdrbuf = h ++ taken)
    (hlen : (h ++ taken).length = 24) (hdata : msg.in_data = false) (hvRecv : msg.vRecv = [])
    (hpos : msg.nDataPos = 0) : Took h taken (msg.headerRead taken.length) := by
  have hread : CMessageHeader.read msg.hdrbuf = some (.ofBytes (h ++ taken), []) := by
    rw [hbuf, CMessageHeader.read_eq hlen]
  rw [headerRead, hread]
  show Took h taken (if MAX_SIZE < (CMessageHeader.ofBytes (h ++ taken)).nMessageSize then _ else _)
  rcases Nat.lt_or_ge MAX_PROTOCOL_MESSAGE_LENGTH
    (CMessageHeader.ofBytes (h ++ taken)).nMessageSize with hover | hsize
  · -- refused here above `MAX_SIZE`, and by the loop below it
    have hparse : messageFormat.parse (h ++ taken) = ⟨[], .oversized (h ++ taken) []⟩ := by
      have heq := Format.parse_oversized (F := messageFormat) hlen hover []
      rwa [List.append_nil] at heq
    split
    · exact .refused (by rw [complete, hdata, Bool.false_and]) hparse (.inl (by decide))
    · refine .refused ?_ hparse (.inr ⟨Int.natCast_nonneg _, rfl, hover⟩)
      rw [complete, hpos]
      exact decide_eq_false (Nat.ne_of_gt (Nat.zero_lt_of_lt hover))
  · rw [if_neg (Nat.not_lt.mpr (hsize.trans (by decide)))]
    rcases Nat.eq_zero_or_pos (CMessageHeader.ofBytes (h ++ taken)).nMessageSize with hzero | hgt
    · -- there is no payload: the message is whole
      refine .whole (f := ⟨h ++ taken, []⟩) ⟨rfl, rfl, hvRecv, hzero, hsize, hpos⟩ ?_
      have heq := Format.parse_frame (F := messageFormat) (p := []) hlen hsize hzero.symm []
      rwa [List.append_nil, List.append_nil, Format.parse_nil] at heq
    · refine .pending (t := .payload (h ++ taken) [])
        ⟨rfl, hlen, rfl, hsize, hgt, hpos, ?_, Nat.zero_le _, rfl⟩ ?_
      · show msg.vRecv.length ≤ _
        rw [hvRecv]
        exact Nat.zero_le _
      · have heq := Format.parse_payload (F := messageFormat) (p := []) hlen hsize hgt
        rwa [List.append_nil] at heq

variable {pch : List UInt8}

omit pchMessageStart in
theorem InHeader.absorb_eq {h : List UInt8} (hmsg : InHeader msg h)
    (hn : n = min (24 - h.length) pch.length) :
    msg.absorb pch = some (if h.length + n < 24 then
        ({ msg with
          hdrbuf := h ++ pch.take n ++ msg.hdrbuf.drop (h.length + n), nHdrPos := h.length + n },
          (n : ℤ))
      else headerRead { msg with
        hdrbuf := h ++ pch.take n ++ msg.hdrbuf.drop (h.length + n), nHdrPos := h.length + n } n) := by
  have hlt := hmsg.lt
  have hcopy : msg.headerCopy pch.length = n := by
    rw [headerCopy, hmsg.nHdrPos]
    omega
  have hmem : memcpy msg.hdrbuf msg.nHdrPos pch n =
      some (h ++ pch.take n ++ msg.hdrbuf.drop (h.length + n)) := by
    rw [memcpy_eq (by rw [hmsg.nHdrPos, hmsg.hdrbuf]; omega) (by omega), hmsg.nHdrPos, hmsg.take]
  rw [absorb, if_neg (by rw [hmsg.in_data]; decide), readHeader, hcopy, hmem, hmsg.nHdrPos]
  rfl

omit pchMessageStart in
theorem InHeader.took {h : List UInt8} (hmsg : InHeader msg h) (hne : pch ≠ []) :
    ∃ taken rest r, pch = taken ++ rest ∧ taken ≠ [] ∧
      msg.absorb pch = some r ∧ Took h taken r := by
  have hlt := hmsg.lt
  have hpch : 0 < pch.length := List.length_pos_iff.mpr hne
  obtain ⟨n, hn⟩ : ∃ n, n = min (24 - h.length) pch.length := ⟨_, rfl⟩
  have htaken : (pch.take n).length = n := List.length_take_of_le (by omega)
  refine ⟨pch.take n, pch.drop n, _, (List.take_append_drop n pch).symm,
    List.length_pos_iff.mp (by omega), hmsg.absorb_eq hn, ?_⟩
  rcases Nat.lt_or_ge (h.length + n) 24 with hshort | hfull
  · -- the packet ends before the header does
    have hword : (h ++ pch.take n).length = h.length + n := by rw [List.length_append, htaken]
    have hmore : InHeader { msg with
        hdrbuf := h ++ pch.take n ++ msg.hdrbuf.drop (h.length + n), nHdrPos := h.length + n }
        (h ++ pch.take n) := by
      refine ⟨hmsg.in_data, hword ▸ hshort, hword.symm, ?_, List.take_left, hmsg.vRecv,
        hmsg.nDataPos⟩
      rw [List.length_append, hword, List.length_drop, hmsg.hdrbuf]
      omega
    have htook : Took h (pch.take n) (_, ((pch.take n).length : ℤ)) :=
      .pending (t := .header (h ++ pch.take n)) hmore (Format.parse_header (hword ▸ hshort))
    rw [if_pos hshort]
    rwa [htaken] at htook
  · rw [if_neg (Nat.not_lt.mpr hfull)]
    have hfull' : h.length + n = 24 := by omega
    have htook := took_headerRead { msg with
      hdrbuf := h ++ pch.take n ++ msg.hdrbuf.drop (h.length + n), nHdrPos := h.length + n }
      h (pch.take n)
      (by rw [List.drop_eq_nil_of_le (by rw [hmsg.hdrbuf, hfull']), List.append_nil])
      (by rw [List.length_append, htaken, hfull']) hmsg.in_data hmsg.vRecv hmsg.nDataPos
    rwa [htaken] at htook

omit pchMessageStart in
theorem InPayload.grown {h p : List UInt8} (hmsg : InPayload msg h p)
    (hn : p.length + n ≤ msg.hdr.nMessageSize) : p.length + n ≤ (msg.grown n).length ∧
      (msg.grown n).length ≤ msg.hdr.nMessageSize ∧ (msg.grown n).take p.length = p := by
  have hmax : msg.hdr.nMessageSize ≤ 2097152 := hmsg.size
  have hge := hmsg.ge
  have hle := hmsg.le
  rw [CNetMessage.grown, hmsg.nDataPos, Nat.mod_eq_of_lt (by omega)]
  split
  next hgrow =>
    rw [Nat.mod_eq_of_lt (by omega)]
    -- nothing of the old buffer is cut off
    rw [resize, List.take_of_length_le (by omega), List.length_append, List.length_replicate]
    refine ⟨by omega, by omega, ?_⟩
    rw [List.take_append_of_le_length hge, hmsg.take]
  next hroom => exact ⟨Nat.not_lt.mp hroom, hle, hmsg.take⟩

omit pchMessageStart in
theorem InPayload.absorb_eq {h p : List UInt8} (hmsg : InPayload msg h p)
    (hn : n = min (msg.hdr.nMessageSize - p.length) pch.length) :
    msg.absorb pch = some ({ msg with
      vRecv := p ++ pch.take n ++ (msg.grown n).drop (p.length + n), nDataPos := p.length + n },
      (n : ℤ)) := by
  have hlt := hmsg.lt
  have hmax : msg.hdr.nMessageSize ≤ 2097152 := hmsg.size
  have hcopy : msg.dataCopy pch.length = n := by
    rw [dataCopy, hmsg.nDataPos]
    omega
  obtain ⟨hroom, -, htake⟩ := hmsg.grown (n := n) (by omega)
  have hmem : memcpy (msg.grown n) msg.nDataPos pch n =
      some (p ++ pch.take n ++ (msg.grown n).drop (p.length + n)) := by
    rw [memcpy_eq (by rw [hmsg.nDataPos]; exact hroom) (by omega), hmsg.nDataPos, htake]
  rw [absorb, if_pos hmsg.in_data, readData, hcopy, hmem, hmsg.nDataPos]
  rfl

omit pchMessageStart in
theorem InPayload.took {h p : List UInt8} (hmsg : InPayload msg h p) (hne : pch ≠ []) :
    ∃ taken rest r, pch = taken ++ rest ∧ taken ≠ [] ∧
      msg.absorb pch = some r ∧ Took (h ++ p) taken r := by
  have hlt := hmsg.lt
  have hpch : 0 < pch.length := List.length_pos_iff.mpr hne
  obtain ⟨n, hn⟩ : ∃ n, n = min (msg.hdr.nMessageSize - p.length) pch.length := ⟨_, rfl⟩
  have htaken : (pch.take n).length = n := List.length_take_of_le (by omega)
  obtain ⟨hroom, hle, -⟩ := hmsg.grown (n := n) (by omega)
  have hword : (p ++ pch.take n).length = p.length + n := by rw [List.length_append, htaken]
  have hsize : messageFormat.size h = msg.hdr.nMessageSize := by
    rw [hmsg.hdr]
    rfl
  have hlimit : messageFormat.size h ≤ messageFormat.limit := hsize ▸ hmsg.size
  refine ⟨pch.take n, pch.drop n, _, (List.take_append_drop n pch).symm,
    List.length_pos_iff.mp (by omega), hmsg.absorb_eq hn, ?_⟩
  rcases Nat.lt_or_ge (p.length + n) msg.hdr.nMessageSize with hshort | hfull
  · have hmore : InPayload { msg with
        vRecv := p ++ pch.take n ++ (msg.grown n).drop (p.length + n), nDataPos := p.length + n }
        h (p ++ pch.take n) := by
      refine ⟨hmsg.in_data, hmsg.head, hmsg.hdr, hmsg.size, hword ▸ hshort, hword.symm, ?_, ?_,
        List.take_left⟩
      · show (p ++ pch.take n ++ (msg.grown n).drop (p.length + n)).length ≤ msg.hdr.nMessageSize
        rw [List.length_append, hword, List.length_drop]
        omega
      · exact hword ▸ (List.sublist_append_left _ _).length_le.trans' (by omega)
    have htook : Took (h ++ p) (pch.take n) (_, ((pch.take n).length : ℤ)) :=
      .pending (t := .payload h (p ++ pch.take n)) hmore (by
        rw [List.append_assoc]
        exact Format.parse_payload hmsg.head hlimit (by rw [hsize, hword]; exact hshort))
    rwa [htaken] at htook
  · -- the payload is whole, and so the buffer is full
    have hsum : p.length + n = msg.hdr.nMessageSize := by omega
    have hdone : IsFrame { msg with
        vRecv := p ++ pch.take n ++ (msg.grown n).drop (p.length + n), nDataPos := p.length + n }
        ⟨h, p ++ pch.take n⟩ := by
      refine ⟨hmsg.in_data, hmsg.hdr, ?_, hsum ▸ hword.symm, hmsg.size, hword.symm⟩
      show p ++ pch.take n ++ (msg.grown n).drop (p.length + n) = p ++ pch.take n
      rw [List.drop_eq_nil_of_le (hsum ▸ hle), List.append_nil]
    have htook : Took (h ++ p) (pch.take n) (_, ((pch.take n).length : ℤ)) :=
      .whole hdone (by
        have hparse := Format.parse_frame (F := messageFormat) (p := p ++ pch.take n) hmsg.head
          hlimit (by rw [hword, hsum, hsize]) []
        rwa [List.append_nil, Format.parse_nil, ← List.append_assoc] at hparse)
    rwa [htaken] at htook

omit pchMessageStart in
theorem Pending.took {t : Tail UInt8} (hmsg : Pending msg t) (hne : pch ≠ []) :
    ∃ taken rest r, pch = taken ++ rest ∧ taken ≠ [] ∧
      msg.absorb pch = some r ∧ Took t.word taken r := by
  cases t with
  | header h => exact InHeader.took hmsg hne
  | payload h p => exact InPayload.took hmsg hne
  | oversized h rest => exact hmsg.elim

/-! ### A pass of the loop -/

/-- The messages that have been received show the stream so far. -/
inductive Shows : List CNetMessage → Parsed UInt8 → Prop
  | boundary {ms : List CNetMessage} {fs : List (Frame UInt8)} (hms : List.Forall₂ IsFrame ms fs) :
      Shows ms ⟨fs, .header []⟩
  | pending {ms : List CNetMessage} {fs : List (Frame UInt8)} {msg : CNetMessage} {t : Tail UInt8}
      (hms : List.Forall₂ IsFrame ms fs) (hmsg : Pending msg t) : Shows (ms ++ [msg]) ⟨fs, t⟩

/-- The messages when the node has given up: the last one is not complete. -/
def GaveUp (vRecvMsg : List CNetMessage) (fs : List (Frame UInt8)) : Prop :=
  ∃ ms msg, vRecvMsg = ms ++ [msg] ∧ List.Forall₂ IsFrame ms fs ∧ msg.complete = false

variable {ms : List CNetMessage} {fs : List (Frame UInt8)}

omit pchMessageStart in
theorem complete_of_mem (hms : List.Forall₂ IsFrame ms fs) : ∀ msg ∈ ms, msg.complete = true ∧
      msg.vRecv.length = msg.hdr.nMessageSize := by
  induction hms with
  | nil => simp
  | cons hmsg _ ih =>
    rw [List.forall_mem_cons]
    exact ⟨⟨hmsg.complete, hmsg.vRecv ▸ hmsg.size.symm⟩, ih⟩

omit pchMessageStart in
theorem map_of_forall (hms : List.Forall₂ IsFrame ms fs) :
    ms.map (fun msg => (msg.hdr, msg.vRecv)) =
      fs.map (fun f => (CMessageHeader.ofBytes f.head, f.body)) := by
  induction hms with
  | nil => rfl
  | cons hmsg _ ih => rw [List.map_cons, List.map_cons, ih, hmsg.hdr, hmsg.vRecv]

theorem currentMessage_complete (h : msg.complete = true) :
    currentMessage pchMessageStart (ms ++ [msg]) = (ms ++ [msg], .new pchMessageStart) := by
  rw [currentMessage, List.getLast?_concat]
  exact if_pos h

theorem currentMessage_incomplete (h : msg.complete = false) :
    currentMessage pchMessageStart (ms ++ [msg]) = (ms, msg) := by
  rw [currentMessage, List.getLast?_concat, List.dropLast_concat]
  exact if_neg (by simp [h])

variable {v : List CNetMessage}

theorem Shows.current {P : Parsed UInt8} (hv : Shows v P) :
    List.Forall₂ IsFrame (currentMessage pchMessageStart v).1 P.frames ∧
      Pending (currentMessage pchMessageStart v).2 P.tail := by
  cases hv with
  | boundary hms =>
    rcases List.eq_nil_or_concat' v with rfl | ⟨ms, m, rfl⟩
    · exact ⟨hms, inHeader_new pchMessageStart⟩
    · rw [currentMessage_complete pchMessageStart (complete_of_mem hms m (by simp)).1]
      exact ⟨hms, inHeader_new pchMessageStart⟩
  | pending hms hmsg =>
    rw [currentMessage_incomplete pchMessageStart (Pending.complete hmsg)]
    exact ⟨hms, hmsg⟩

theorem receivePass_shows {s : List UInt8} (hv : Shows v (messageFormat.parse s)) (hne : pch ≠ []) :
    ∃ taken rest, pch = taken ++ rest ∧ taken ≠ [] ∧
      ((∃ v', receivePass pchMessageStart (v, pch) = .inl (v', rest) ∧
          Shows v' (messageFormat.parse (s ++ taken))) ∨
        ∃ v' h, receivePass pchMessageStart (v, pch) = .inr (some (v', false)) ∧
          (messageFormat.parse (s ++ taken)).tail = .oversized h [] ∧
          GaveUp v' (messageFormat.parse (s ++ taken)).frames) := by
  obtain ⟨hms, hmsg⟩ := hv.current pchMessageStart
  obtain ⟨taken, rest, r, rfl, htaken, habsorb, htook⟩ := hmsg.took hne
  have hpass : receivePass pchMessageStart (v, taken ++ rest) =
      handledBytes (currentMessage pchMessageStart v).1 (taken ++ rest) r := by
    rw [receivePass, if_neg hne, habsorb]
    rfl
  refine ⟨taken, rest, rfl, htaken, ?_⟩
  rw [hpass, Format.parse_append]
  cases htook with
  | @pending msg t hmsg' hparse =>
    refine .inl ⟨(currentMessage pchMessageStart v).1 ++ [msg], ?_, ?_⟩
    · rw [handledBytes, if_neg (Int.not_lt.mpr (Int.natCast_nonneg _)),
        if_neg fun hover => Nat.not_lt.mpr (hmsg'.size hover.1) hover.2]
      simp
    · rw [hparse, List.append_nil]
      exact .pending hms hmsg'
  | @whole msg f hmsg' hparse =>
    refine .inl ⟨(currentMessage pchMessageStart v).1 ++ [msg], ?_, ?_⟩
    · rw [handledBytes, if_neg (Int.not_lt.mpr (Int.natCast_nonneg _)),
        if_neg fun hover => Nat.not_lt.mpr hmsg'.le hover.2]
      simp
    · rw [hparse]
      exact .boundary (List.rel_append hms (.cons hmsg' .nil))
  | @refused msg h handled hmsg' hparse hover =>
    refine .inr ⟨(currentMessage pchMessageStart v).1 ++ [msg], h, ?_, ?_, ?_⟩
    · rw [handledBytes]
      rcases hover with hneg | ⟨hnonneg, hover⟩
      · rw [if_pos hneg]
      · rw [if_neg (Int.not_lt.mpr hnonneg), if_pos hover]
    · rw [hparse]
    · rw [hparse, List.append_nil]
      exact ⟨_, _, rfl, hms, hmsg'⟩

/-! ### A packet -/

/-- The states that the loop passes through. -/
def Iterates : List CNetMessage × List UInt8 → List CNetMessage × List UInt8 → Prop :=
  Relation.ReflTransGen fun s s' => receivePass pchMessageStart s = .inl s'

theorem Iterates.shows {v' : List CNetMessage} {s rest : List UInt8}
    (h : Iterates pchMessageStart (v, pch) (v', rest)) (hv : Shows v (messageFormat.parse s)) :
    ∃ taken, pch = taken ++ rest ∧ Shows v' (messageFormat.parse (s ++ taken)) := by
  have hall : ∀ s', Iterates pchMessageStart (v, pch) s' →
      ∃ taken, pch = taken ++ s'.2 ∧ Shows s'.1 (messageFormat.parse (s ++ taken)) := by
    intro s' hs'
    induction hs' with
    | refl => exact ⟨[], rfl, by rwa [List.append_nil]⟩
    | @tail s₁ s₂ _ hpass ih =>
      obtain ⟨taken, rfl, hshows⟩ := ih
      by_cases hne : s₁.2 = []
      · rw [receivePass, if_pos hne] at hpass
        exact absurd hpass (by simp)
      obtain ⟨taken', rest', hs₁, -, ⟨v₂, hpass₂, hshows₂⟩ | ⟨v₂, h₂, hpass₂, -⟩⟩ :=
        receivePass_shows pchMessageStart hshows hne
      · obtain rfl := Sum.inl.inj (hpass₂.symm.trans hpass)
        exact ⟨taken ++ taken', by rw [hs₁, List.append_assoc], by rwa [← List.append_assoc]⟩
      · exact absurd (hpass₂.symm.trans hpass) (by simp)
  exact hall _ h

theorem receiveMsgBytes_shows {s : List UInt8} (pch : List UInt8)
    (hv : Shows v (messageFormat.parse s)) :
    (∃ v', ReceiveMsgBytes pchMessageStart v pch (v', true) ∧
        Shows v' (messageFormat.parse (s ++ pch))) ∨
      ∃ v' taken rest h, ReceiveMsgBytes pchMessageStart v pch (v', false) ∧
        pch = taken ++ rest ∧ taken ≠ [] ∧
        (messageFormat.parse (s ++ taken)).tail = .oversized h [] ∧
        GaveUp v' (messageFormat.parse (s ++ taken)).frames := by
  induction hn : pch.length using Nat.strongRecOn generalizing v s pch with
  | ind n ih =>
    by_cases hne : pch = []
    · subst hne
      exact .inl ⟨v, .stop rfl, by rwa [List.append_nil]⟩
    obtain ⟨taken, rest, rfl, htaken, ⟨v', hpass, hshows⟩ | ⟨v', h, hpass, htail, hgave⟩⟩ :=
      receivePass_shows pchMessageStart hv hne
    · have hless : rest.length < n := by
        have hpos := List.length_pos_iff.mpr htaken
        rw [← hn, List.length_append]
        omega
      rw [← List.append_assoc]
      obtain ⟨v₁, hends, hshows₁⟩ | ⟨v₁, taken₁, rest₁, h, hends, rfl, htaken₁, htail, hgave⟩ :=
        ih _ hless rest hshows rfl
      · exact .inl ⟨v₁, .next hpass hends, hshows₁⟩
      · refine .inr ⟨v₁, taken ++ taken₁, rest₁, h, .next hpass hends,
          (List.append_assoc _ _ _).symm, by simp [htaken], ?_, ?_⟩
        · rwa [← List.append_assoc]
        · rwa [← List.append_assoc]
    · exact .inr ⟨v', taken, rest, h, .stop hpass, rfl, htaken, htail, hgave⟩

/-! ### All packets -/

/-- What has become of some packets: the messages, whether all bytes were taken, and the number of
packets that were looked at. -/
structure Receipt where
  vRecvMsg : List CNetMessage
  ok : Bool
  nCalls : ℕ

/-- `ReceiveMsgBytes`, for one packet after another, until it fails. -/
inductive ReceiveAll : List CNetMessage → List (List UInt8) → Receipt → Prop
  | done {v : List CNetMessage} : ReceiveAll v [] ⟨v, true, 0⟩
  | fail {v v' : List CNetMessage} {pch : List UInt8} {chunks : List (List UInt8)} :
      ReceiveMsgBytes pchMessageStart v pch (v', false) → ReceiveAll v (pch :: chunks) ⟨v', false, 1⟩
  | next {v v' : List CNetMessage} {pch : List UInt8} {chunks : List (List UInt8)} {r : Receipt} :
      ReceiveMsgBytes pchMessageStart v pch (v', true) → ReceiveAll v' chunks r →
      ReceiveAll v (pch :: chunks) ⟨r.vRecvMsg, r.ok, r.nCalls + 1⟩

/-- The states that the loop passes through in any of the packets. -/
inductive Visits : List CNetMessage → List (List UInt8) → List CNetMessage × List UInt8 → Prop
  | here {v : List CNetMessage} {pch : List UInt8} {chunks : List (List UInt8)}
      {s : List CNetMessage × List UInt8} :
      Iterates pchMessageStart (v, pch) s → Visits v (pch :: chunks) s
  | later {v v' : List CNetMessage} {pch : List UInt8} {chunks : List (List UInt8)}
      {s : List CNetMessage × List UInt8} :
      ReceiveMsgBytes pchMessageStart v pch (v', true) → Visits v' chunks s →
      Visits v (pch :: chunks) s

/-- The outcome of some packets that come behind the bytes `before` is that of the whole stream. -/
structure SameOutcome (before : List UInt8) (chunks : List (List UInt8)) (r : Receipt) : Prop where
  messages : (r.vRecvMsg.filter complete).map (fun msg => (msg.hdr, msg.vRecv)) =
    (messageFormat.parse (before ++ chunks.flatten)).frames.map
      (fun f => (CMessageHeader.ofBytes f.head, f.body))
  sizes : ∀ msg ∈ r.vRecvMsg, msg.complete = true → msg.vRecv.length = msg.hdr.nMessageSize
  ok : r.ok = false ↔
    ∃ h rest, (messageFormat.parse (before ++ chunks.flatten)).tail = .oversized h rest
  calls : r.ok = true → r.nCalls = chunks.length
  point : ∀ h rest, (messageFormat.parse (before ++ chunks.flatten)).tail = .oversized h rest →
    (before ++ (chunks.take (r.nCalls - 1)).flatten).length <
        (before ++ chunks.flatten).length - rest.length ∧
      (before ++ chunks.flatten).length - rest.length ≤
        (before ++ (chunks.take r.nCalls).flatten).length

/-- A pass that has bytes to take takes at least one of them, or the node gives up; no copy goes
beyond its buffer. -/
def Advances (s : List CNetMessage × List UInt8) : Prop :=
  (∃ v taken rest, s.2 = taken ++ rest ∧ taken ≠ [] ∧
      receivePass pchMessageStart s = .inl (v, rest)) ∨
    ∃ v, receivePass pchMessageStart s = .inr (some (v, false))

omit pchMessageStart in
theorem filter_of_forall (hms : List.Forall₂ IsFrame ms fs) : ms.filter complete = ms :=
  List.filter_eq_self.mpr fun msg hmsg => (complete_of_mem hms msg hmsg).1

omit pchMessageStart in
theorem messages_incomplete (hms : List.Forall₂ IsFrame ms fs) (hmsg : msg.complete = false) :
    ((ms ++ [msg]).filter complete).map (fun msg => (msg.hdr, msg.vRecv)) =
        fs.map (fun f => (CMessageHeader.ofBytes f.head, f.body)) ∧
      ∀ m ∈ ms ++ [msg], m.complete = true → m.vRecv.length = m.hdr.nMessageSize := by
  constructor
  · rw [List.filter_append, filter_of_forall hms, List.filter_cons_of_neg (by simp [hmsg]),
      List.filter_nil, List.append_nil, map_of_forall hms]
  · intro m hm hcomplete
    rcases List.mem_append.mp hm with hm | hm
    · exact (complete_of_mem hms m hm).2
    · rw [List.mem_singleton.mp hm, hmsg] at hcomplete
      exact absurd hcomplete (by decide)

omit pchMessageStart in
theorem Shows.messages {P : Parsed UInt8} (hv : Shows v P) :
    (v.filter complete).map (fun msg => (msg.hdr, msg.vRecv)) =
        P.frames.map (fun f => (CMessageHeader.ofBytes f.head, f.body)) ∧
      (∀ m ∈ v, m.complete = true → m.vRecv.length = m.hdr.nMessageSize) ∧
      ∀ h rest, P.tail ≠ .oversized h rest := by
  cases hv with
  | boundary hms =>
    rw [filter_of_forall hms]
    exact ⟨map_of_forall hms, fun m hm _ => (complete_of_mem hms m hm).2, by simp⟩
  | @pending ms fs msg t hms hmsg =>
    obtain ⟨hmessages, hsizes⟩ := messages_incomplete hms (Pending.complete hmsg)
    refine ⟨hmessages, hsizes, ?_⟩
    rintro h rest rfl
    exact hmsg

variable {before : List UInt8}

omit pchMessageStart in
theorem Shows.sameOutcome (hv : Shows v (messageFormat.parse before)) :
    SameOutcome before [] ⟨v, true, 0⟩ := by
  obtain ⟨hmessages, hsizes, hover⟩ := hv.messages
  refine ⟨?_, hsizes, ?_, fun _ => rfl, ?_⟩
  · rwa [List.flatten_nil, List.append_nil]
  · rw [List.flatten_nil, List.append_nil]
    exact iff_of_false (by simp) fun ⟨h, rest, htail⟩ => hover h rest htail
  · intro h rest htail
    rw [List.flatten_nil, List.append_nil] at htail
    exact absurd htail (hover h rest)

omit pchMessageStart in
theorem GaveUp.sameOutcome {taken rest h : List UInt8} {chunks : List (List UInt8)}
    (htaken : taken ≠ []) (htail : (messageFormat.parse (before ++ taken)).tail = .oversized h [])
    (hgave : GaveUp v (messageFormat.parse (before ++ taken)).frames) :
    SameOutcome before ((taken ++ rest) :: chunks) ⟨v, false, 1⟩ := by
  obtain ⟨ms, msg, rfl, hms, hmsg⟩ := hgave
  obtain ⟨hmessages, hsizes⟩ := messages_incomplete hms hmsg
  have hstream : before ++ ((taken ++ rest) :: chunks).flatten =
      before ++ taken ++ (rest ++ chunks.flatten) := by
    rw [List.flatten_cons, List.append_assoc, List.append_assoc]
  have hparse : messageFormat.parse (before ++ ((taken ++ rest) :: chunks).flatten) =
      ⟨(messageFormat.parse (before ++ taken)).frames, .oversized h (rest ++ chunks.flatten)⟩ := by
    rw [hstream, Format.parse_append_of_oversized htail, List.nil_append]
  refine ⟨?_, hsizes, ?_, by simp, ?_⟩
  · rw [hparse]
    exact hmessages
  · rw [hparse]
    exact iff_of_true rfl ⟨h, _, rfl⟩
  · intro h' rest' htail'
    rw [hparse] at htail'
    obtain ⟨rfl, rfl⟩ := Tail.oversized.inj htail'
    have hpos := List.length_pos_iff.mpr htaken
    simp only [List.length_append, List.flatten_cons, List.take_succ_cons, List.take_zero,
      List.flatten_nil, List.length_nil, Nat.sub_self]
    omega

omit pchMessageStart in
theorem SameOutcome.cons {before pch : List UInt8} {chunks : List (List UInt8)} {r : Receipt}
    (h : SameOutcome (before ++ pch) chunks r) :
    SameOutcome before (pch :: chunks) ⟨r.vRecvMsg, r.ok, r.nCalls + 1⟩ := by
  have hstream : before ++ (pch :: chunks).flatten = before ++ pch ++ chunks.flatten := by
    rw [List.flatten_cons, List.append_assoc]
  refine ⟨hstream ▸ h.messages, h.sizes, hstream ▸ h.ok, fun hok => ?_, ?_⟩
  · rw [h.calls hok, List.length_cons]
  · intro w rest htail
    rw [hstream] at htail ⊢
    obtain ⟨hlt, hle⟩ := h.point w rest htail
    -- the packet that failed is not the first one
    cases hn : r.nCalls with
    | zero =>
      rw [hn] at hlt hle
      exact absurd (Nat.lt_of_lt_of_le hlt hle) (by simp)
    | succ n =>
      rw [hn] at hlt hle
      simp only [Nat.add_sub_cancel, List.take_succ_cons, List.flatten_cons] at hlt hle ⊢
      rw [← List.append_assoc, ← List.append_assoc]
      exact ⟨hlt, hle⟩

theorem receiveAll_sameOutcome (chunks : List (List UInt8))
    (hv : Shows v (messageFormat.parse before)) :
    ∃ r, ReceiveAll pchMessageStart v chunks r ∧ SameOutcome before chunks r := by
  induction chunks generalizing v before with
  | nil => exact ⟨_, .done, hv.sameOutcome⟩
  | cons pch chunks ih =>
    obtain ⟨v', hends, hv'⟩ | ⟨v', taken, rest, h, hends, rfl, htaken, htail, hgave⟩ :=
      receiveMsgBytes_shows pchMessageStart pch hv
    · obtain ⟨r, hr, hsame⟩ := ih hv'
      exact ⟨_, .next hends hr, hsame.cons⟩
    · exact ⟨_, .fail hends, hgave.sameOutcome htaken htail⟩

theorem ReceiveAll.unique {chunks : List (List UInt8)} {r r' : Receipt}
    (h : ReceiveAll pchMessageStart v chunks r) (h' : ReceiveAll pchMessageStart v chunks r') :
    r' = r := by
  induction h generalizing r' with
  | done =>
    cases h'
    rfl
  | fail hends =>
    cases h' with
    | fail hends' => rw [(Prod.mk.inj (Option.some.inj (hends'.unique hends))).1]
    | next hends' => exact absurd (hends'.unique hends) (by simp)
  | next hends _ ih =>
    cases h' with
    | fail hends' => exact absurd (hends'.unique hends) (by simp)
    | next hends' hrest =>
      rw [(Prod.mk.inj (Option.some.inj (hends'.unique hends))).1] at hrest
      rw [ih hrest]

theorem Visits.advances {chunks : List (List UInt8)} {s : List CNetMessage × List UInt8}
    (h : Visits pchMessageStart v chunks s) (hv : Shows v (messageFormat.parse before))
    (hne : s.2 ≠ []) :
    Advances pchMessageStart s := by
  induction h generalizing before with
  | here hiter =>
    obtain ⟨taken, -, hshows⟩ := hiter.shows pchMessageStart hv
    obtain ⟨taken', rest, hs, htaken, ⟨v', hpass, -⟩ | ⟨v', w, hpass, -⟩⟩ :=
      receivePass_shows pchMessageStart hshows hne
    · exact .inl ⟨v', taken', rest, hs, htaken, hpass⟩
    · exact .inr ⟨v', hpass⟩
  | @later v v' pch chunks s hends _ ih =>
    obtain ⟨v₁, hends₁, hv₁⟩ | ⟨v₁, taken, rest, w, hends₁, -⟩ :=
      receiveMsgBytes_shows pchMessageStart pch hv
    · rw [(Prod.mk.inj (Option.some.inj (hends₁.unique hends))).1] at hv₁
      exact ih hv₁ hne
    · exact absurd (hends₁.unique hends) (by simp)

/-- **The packets do not matter.**  However the bytes of a peer are cut into packets, the complete
messages and the place where the node gives up are those of the whole stream. -/
theorem receiveAll_parse (chunks : List (List UInt8)) :
    ∃ r, ReceiveAll pchMessageStart [] chunks r ∧
      (∀ r', ReceiveAll pchMessageStart [] chunks r' → r' = r) ∧ SameOutcome [] chunks r ∧
      ∀ s, Visits pchMessageStart [] chunks s → s.2 ≠ [] → Advances pchMessageStart s := by
  have hempty : Shows [] (messageFormat.parse []) := by
    rw [Format.parse_nil]
    exact .boundary .nil
  obtain ⟨r, hr, hsame⟩ := receiveAll_sameOutcome pchMessageStart chunks hempty
  exact ⟨r, hr, fun r' hr' => hr.unique pchMessageStart hr', hsame,
    fun s hs hne => hs.advances pchMessageStart hempty hne⟩

end Stonecoin
