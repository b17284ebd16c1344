/-
The messages that a node sends, and what is made of them at the other end (`net.cpp`:
`CNode::BeginMessage`, `CNode::EndMessage`, `SocketSendData`; `main.cpp`: `ProcessMessages`).

`send` takes as many of the bytes as it can, or none.  A message that was sent in part stays at the
front of the queue, with the number of its bytes that are gone.

  * `messages_arrive`: any run of the sender, and its bytes in any packets.
-/
import Stonecoin.NetMessages

namespace Stonecoin

open Readers Framing

/-! ### One message -/

namespace CMessageHeader

/-- The header of a command: `strncpy` fills up with NUL bytes. -/
def forCommand (pchMessageStartIn pszCommand : List UInt8) (nMessageSizeIn : ℕ) : CMessageHeader :=
  ⟨pchMessageStartIn, (pszCommand ++ List.replicate COMMAND_SIZE 0).take COMMAND_SIZE,
    nMessageSizeIn, 0⟩

/-- `SerializationOp`, for writing. -/
def write (hdr : CMessageHeader) : List UInt8 :=
  hdr.pchMessageStart ++ hdr.pchCommand ++ writeLE 4 hdr.nMessageSize ++ writeLE 4 hdr.nChecksum

def getCommand (hdr : CMessageHeader) : List UInt8 := hdr.pchCommand.takeWhile (· != 0)

/-- The loop over the command: all zeros after the first zero. -/
def validCommand : List UInt8 → Bool
  | [] => true
  | c :: cs => if c = 0 then cs.all (· = 0) else (32 ≤ c && c ≤ 126) && validCommand cs

def isValid (hdr : CMessageHeader) (pchMessageStartIn : List UInt8) : Bool :=
  hdr.pchMessageStart = pchMessageStartIn && validCommand hdr.pchCommand &&
    hdr.nMessageSize ≤ MAX_SIZE

end CMessageHeader

/-- A command and its payload. -/
structure Message where
  pszCommand : List UInt8
  payload : List UInt8
  deriving DecidableEq

variable (hash : List UInt8 → UInt256) (pchMessageStart : List UInt8)

def checksum (payload : List UInt8) : List UInt8 := (writeHash (hash payload)).take 4

def endMessage (ssSend : List UInt8) : List UInt8 :=
  let sized := ssSend.take 16 ++ writeLE 4 (ssSend.length - 24) ++ ssSend.drop 20
  sized.take 20 ++ checksum hash (sized.drop 24) ++ sized.drop 24

def Message.data (m : Message) : List UInt8 :=
  endMessage hash ((CMessageHeader.forCommand pchMessageStart m.pszCommand 0).write ++ m.payload)

def accepted (hdr : CMessageHeader) (vRecv : List UInt8) : Option Message :=
  if hdr.pchMessageStart ≠ pchMessageStart then none
  else if !hdr.isValid pchMessageStart then none
  else if readLE (checksum hash (vRecv.take hdr.nMessageSize)) ≠ hdr.nChecksum then none
  else some ⟨hdr.getCommand, vRecv⟩

/-- The command can be told from its padding, and the receiver takes a payload of that size. -/
structure Message.Sendable (m : Message) : Prop where
  command : m.pszCommand.length ≤ COMMAND_SIZE
  printable : ∀ c ∈ m.pszCommand, 32 ≤ c ∧ c ≤ 126
  payload : m.payload.length ≤ MAX_PROTOCOL_MESSAGE_LENGTH

/-! ### The queue -/

structure SendQueue where
  vSendMsg : List (List UInt8)
  nSendOffset : ℕ
  nSendSize : ℕ

/-- The loop of `SocketSendData`, with the numbers of bytes that `send` takes; what is sent, and
what is left.  There is no result when an assertion fails. -/
def sendLoop : List (List UInt8) → ℕ → ℕ → List ℕ → Option (List UInt8 × SendQueue)
  | [], nSendOffset, nSendSize, _ =>
    if nSendOffset = 0 ∧ nSendSize = 0 then some ([], ⟨[], 0, 0⟩) else none
  | data :: vSendMsg, nSendOffset, nSendSize, answers =>
    if data.length ≤ nSendOffset then none
    else
      let nBytes := min (answers.headD 0) (data.length - nSendOffset)
      let sent := (data.drop nSendOffset).take nBytes
      if nSendOffset + nBytes = data.length then
        (sendLoop vSendMsg 0 (nSendSize - data.length) answers.tail).map fun r =>
          (sent ++ r.1, r.2)
      else some (sent, ⟨data :: vSendMsg, nSendOffset + nBytes, nSendSize⟩)

def SendQueue.socketSendData (q : SendQueue) (answers : List ℕ) :
    Option (List UInt8 × SendQueue) :=
  sendLoop q.vSendMsg q.nSendOffset q.nSendSize answers

/-- A message is pushed, or the socket can be written to. -/
inductive SendEvent
  | push (m : Message) (answers : List ℕ)
  | socket (answers : List ℕ)

def pushed (es : List SendEvent) : List Message :=
  es.filterMap fun
    | .push m _ => some m
    | .socket _ => none

/-- `EndMessage` tries to send at once if there was nothing in the queue. -/
def SendQueue.step (q : SendQueue) : SendEvent → Option (List UInt8 × SendQueue)
  | .push m answers =>
    let data := m.data hash pchMessageStart
    let q' : SendQueue := ⟨q.vSendMsg ++ [data], q.nSendOffset, q.nSendSize + data.length⟩
    if q.vSendMsg = [] then q'.socketSendData answers else some ([], q')
  | .socket answers => q.socketSendData answers

def SendQueue.run : List SendEvent → SendQueue → Option (List UInt8 × SendQueue)
  | [], q => some ([], q)
  | e :: es, q => do
    let (sent, q) ← q.step hash pchMessageStart e
    let (later, q) ← run es q
    some (sent ++ later, q)

/-! ### The bytes that are sent -/

/-- The whole messages and the part of one that are gone. -/
structure Sending (gone : List (List UInt8)) (wire : List UInt8) (q : SendQueue) : Prop where
  wire : wire = gone.flatten ++ (q.vSendMsg.headD []).take q.nSendOffset
  offset : q.nSendOffset = 0 ∨ q.nSendOffset < (q.vSendMsg.headD []).length
  size : q.nSendSize = (q.vSendMsg.map List.length).sum
  ne_nil : ∀ data ∈ q.vSendMsg, data ≠ []

theorem Sending.sendLoop : ∀ {v : List (List UInt8)} {gone : List (List UInt8)}
    {wire : List UInt8} {off size : ℕ} (answers : List ℕ), Sending gone wire ⟨v, off, size⟩ →
    ∃ sent q' gone', sendLoop v off size answers = some (sent, q') ∧
      gone' ++ q'.vSendMsg = gone ++ v ∧ Sending gone' (wire ++ sent) q'
  | [], gone, wire, off, size, answers, h => by
    obtain rfl : off = 0 := h.offset.resolve_right (Nat.not_lt_zero _)
    obtain rfl : size = 0 := h.size
    exact ⟨[], _, gone, by rw [Stonecoin.sendLoop, if_pos ⟨rfl, rfl⟩], rfl, by rwa [List.append_nil]⟩
  | data :: v, gone, wire, off, size, answers, h => by
    have hwire : wire = gone.flatten ++ data.take off := h.wire
    have hsize : size = data.length + (v.map List.length).sum := h.size
    have hlt : off < data.length := by
      rcases h.offset with hzero | hlt
      · have hpos := List.length_pos_iff.mpr (h.ne_nil data List.mem_cons_self)
        have hzero' : off = 0 := hzero
        omega
      · exact hlt
    rw [Stonecoin.sendLoop, if_neg (Nat.not_le.mpr hlt)]
    generalize hn : min (answers.headD 0) (data.length - off) = n
    have hle : off + n ≤ data.length := by omega
    have htake : wire ++ (data.drop off).take n = gone.flatten ++ data.take (off + n) := by
      rw [hwire, List.append_assoc, List.take_add]
    by_cases hall : off + n = data.length
    · -- the whole message is gone
      have hnext : Sending (gone ++ [data]) (wire ++ (data.drop off).take n)
          ⟨v, 0, size - data.length⟩ := by
        refine ⟨?_, .inl rfl, by rw [hsize, Nat.add_sub_cancel_left], fun d hd =>
          h.ne_nil d (List.mem_cons_of_mem data hd)⟩
        rw [htake, hall, List.take_length]
        simp
      obtain ⟨sent, q', gone', hloop, hgone, hsending⟩ := Sending.sendLoop answers.tail hnext
      refine ⟨_, q', gone', by rw [if_pos hall, hloop]; rfl, ?_, ?_⟩
      · rw [hgone, List.append_assoc]
        rfl
      · rwa [List.append_assoc] at hsending
    · have hpart : Sending gone (wire ++ (data.drop off).take n) ⟨data :: v, off + n, size⟩ :=
        ⟨htake, .inr (lt_of_le_of_ne hle hall), h.size, h.ne_nil⟩
      exact ⟨_, _, gone, if_neg hall, rfl, hpart⟩

/-! ### The bytes of a message -/

variable {hash} {pchMessageStart} {m : Message}

theorem length_checksum (payload : List UInt8) : (checksum hash payload).length = 4 := by
  rw [checksum, writeHash, List.length_take_of_le (by rw [length_writeLE]; decide)]

section

variable {a b c d p : List UInt8} (ha : a.length = 4) (hb : b.length = 12) (hc : c.length = 4)
  (hd : d.length = 4)

include ha hb hc hd

theorem ofBytes_append :
    CMessageHeader.ofBytes (a ++ b ++ c ++ d) = ⟨a, b, readLE c, readLE d⟩ := by
  simp [CMessageHeader.ofBytes, List.drop_append, ha, hb, hc, hd, List.take_of_length_le,
    List.drop_eq_nil_of_le]

theorem endMessage_append : endMessage hash (a ++ b ++ c ++ d ++ p) =
    a ++ b ++ writeLE 4 p.length ++ checksum hash p ++ p := by
  have hsize : 4 + (12 + (4 + (4 + p.length))) - 24 = p.length := by omega
  simp [endMessage, List.take_append, List.drop_append, ha, hb, hc, hd, hsize, length_writeLE,
    List.take_of_length_le, List.drop_eq_nil_of_le]

end

/-- The bytes in front of the payload. -/
def Message.head (hash : List UInt8 → UInt256) (pchMessageStart : List UInt8) (m : Message) :
    List UInt8 :=
  pchMessageStart ++ (m.pszCommand ++ List.replicate COMMAND_SIZE 0).take COMMAND_SIZE ++
    writeLE 4 m.payload.length ++ checksum hash m.payload

theorem Message.length_command (m : Message) :
    ((m.pszCommand ++ List.replicate COMMAND_SIZE 0).take COMMAND_SIZE).length = 12 :=
  List.length_take_of_le (by simp)

theorem Message.data_eq (hstart : pchMessageStart.length = 4) (m : Message) :
    m.data hash pchMessageStart = m.head hash pchMessageStart ++ m.payload :=
  endMessage_append hstart m.length_command (length_writeLE 4 0) (length_writeLE 4 0)

theorem Message.length_head (hstart : pchMessageStart.length = 4) (m : Message) :
    (m.head hash pchMessageStart).length = 24 := by
  simp only [head, List.length_append, hstart, m.length_command, length_writeLE, length_checksum]

theorem Message.ofBytes_head (hstart : pchMessageStart.length = 4) (hm : m.Sendable) :
    CMessageHeader.ofBytes (m.head hash pchMessageStart) = ⟨pchMessageStart,
      (m.pszCommand ++ List.replicate COMMAND_SIZE 0).take COMMAND_SIZE, m.payload.length,
      readLE (checksum hash m.payload)⟩ := by
  rw [head, ofBytes_append hstart m.length_command (length_writeLE 4 _) (length_checksum _),
    readLE_writeLE (lt_of_le_of_lt hm.payload (by decide))]

/-! ### What arrives -/

theorem validCommand_padded (n : ℕ) : ∀ {cmd : List UInt8}, (∀ c ∈ cmd, 32 ≤ c ∧ c ≤ 126) →
    CMessageHeader.validCommand (cmd ++ List.replicate n 0) = true ∧
      (cmd ++ List.replicate n 0).takeWhile (· != 0) = cmd
  | [], _ => by
    cases n with
    | zero => exact ⟨rfl, rfl⟩
    | succ n => simp [List.replicate_succ, CMessageHeader.validCommand]
  | c :: cmd, h => by
    obtain ⟨hlow, hhigh⟩ := h c List.mem_cons_self
    have hne : c ≠ 0 := by
      rintro rfl
      exact absurd hlow (by decide)
    obtain ⟨hvalid, htake⟩ := validCommand_padded n fun d hd => h d (List.mem_cons_of_mem c hd)
    constructor
    · simp [CMessageHeader.validCommand, hne, hlow, hhigh, hvalid]
    · rw [List.cons_append, List.takeWhile_cons_of_pos (by simpa using hne), htake]

/-- **A message is accepted** as it was pushed. -/
theorem Message.accepted_eq (hstart : pchMessageStart.length = 4) (hm : m.Sendable) :
    accepted hash pchMessageStart (.ofBytes (m.head hash pchMessageStart)) m.payload = some m := by
  have hcommand : (m.pszCommand ++ List.replicate COMMAND_SIZE 0).take COMMAND_SIZE =
      m.pszCommand ++ List.replicate (COMMAND_SIZE - m.pszCommand.length) 0 := by
    rw [List.take_append, List.take_of_length_le hm.command, List.take_replicate,
      Nat.min_eq_left (Nat.sub_le _ _)]
  obtain ⟨hvalid, hget⟩ := validCommand_padded (COMMAND_SIZE - m.pszCommand.length) hm.printable
  have hsize : m.payload.length ≤ MAX_SIZE := hm.payload.trans (by decide)
  rw [m.ofBytes_head hstart hm, hcommand]
  simp [accepted, CMessageHeader.isValid, CMessageHeader.getCommand, hvalid, hget, hsize]

theorem Message.parse_take (hstart : pchMessageStart.length = 4) (hm : m.Sendable) {k : ℕ}
    (hk : k < (m.data hash pchMessageStart).length) :
    (messageFormat.parse ((m.data hash pchMessageStart).take k)).frames = [] ∧
      ∀ h rest, (messageFormat.parse ((m.data hash pchMessageStart).take k)).tail ≠
        .oversized h rest := by
  have hhead : (m.head hash pchMessageStart).length = 24 := m.length_head hstart
  rw [m.data_eq hstart] at hk ⊢
  rcases Nat.lt_or_ge k 24 with hlt | hge
  · rw [Format.parse_header (by rw [List.length_take]; exact lt_of_le_of_lt (Nat.min_le_left _ _) hlt)]
    exact ⟨rfl, by simp⟩
  · have hsize : messageFormat.size (m.head hash pchMessageStart) = m.payload.length := by
      show (CMessageHeader.ofBytes _).nMessageSize = _
      rw [m.ofBytes_head hstart hm]
    rw [List.length_append, hhead] at hk
    rw [List.take_append, List.take_of_length_le (hhead.le.trans hge), hhead,
      Format.parse_payload hhead (hsize.le.trans hm.payload) (by
        rw [hsize, List.length_take]; omega)]
    exact ⟨rfl, by simp⟩

/-- **The bytes that are sent, taken apart.** -/
theorem parse_gone (hstart : pchMessageStart.length = 4) {rest : List UInt8} :
    ∀ {ms : List Message}, (∀ m ∈ ms, m.Sendable) →
      messageFormat.parse ((ms.map (Message.data hash pchMessageStart)).flatten ++ rest) =
        ⟨ms.map (fun m => ⟨m.head hash pchMessageStart, m.payload⟩) ++
          (messageFormat.parse rest).frames, (messageFormat.parse rest).tail⟩
  | [], _ => rfl
  | m :: ms, h => by
    have hm := h m List.mem_cons_self
    have hsize : messageFormat.size (m.head hash pchMessageStart) = m.payload.length := by
      show (CMessageHeader.ofBytes _).nMessageSize = _
      rw [m.ofBytes_head hstart hm]
    rw [List.map_cons, List.flatten_cons, List.append_assoc, m.data_eq hstart,
      Format.parse_frame (m.length_head hstart) (hsize.le.trans hm.payload) hsize.symm,
      parse_gone hstart fun m' hm' => h m' (List.mem_cons_of_mem m hm')]
    rfl

/-! ### Runs -/

/-- **One event**: the new message is behind the others. -/
theorem Sending.step {gone : List (List UInt8)} {wire : List UInt8} {q : SendQueue}
    (hstart : pchMessageStart.length = 4) (h : Sending gone wire q) (e : SendEvent) :
    ∃ sent q' gone', q.step hash pchMessageStart e = some (sent, q') ∧
      gone' ++ q'.vSendMsg =
        gone ++ q.vSendMsg ++ (pushed [e]).map (Message.data hash pchMessageStart) ∧
      Sending gone' (wire ++ sent) q' := by
  cases e with
  | socket answers =>
    obtain ⟨sent, q', gone', hloop, hgone, h'⟩ := h.sendLoop answers
    exact ⟨sent, q', gone', hloop, by simpa [pushed] using hgone, h'⟩
  | push m answers =>
    have hne : m.data hash pchMessageStart ≠ [] := by
      intro hnil
      have hlength : (m.head hash pchMessageStart).length = 24 := m.length_head hstart
      rw [m.data_eq hstart] at hnil
      rw [(List.append_eq_nil_iff.mp hnil).1] at hlength
      exact absurd hlength (by decide)
    -- the message in front, and the part of it that is gone, are the same
    have hqueued : Sending gone wire ⟨q.vSendMsg ++ [m.data hash pchMessageStart], q.nSendOffset,
        q.nSendSize + (m.data hash pchMessageStart).length⟩ := by
      obtain ⟨hwire, hoffset, hsize, hnil⟩ := h
      refine ⟨?_, ?_, by simp [hsize], fun d hd => ?_⟩
      · cases hv : q.vSendMsg with
        | nil =>
          rw [hv] at hoffset hwire
          have hzero := hoffset.resolve_right (Nat.not_lt_zero _)
          simpa [hzero] using hwire
        | cons d v => simpa [hv] using hwire
      · cases hv : q.vSendMsg with
        | nil =>
          rw [hv] at hoffset
          exact .inl (hoffset.resolve_right (Nat.not_lt_zero _))
        | cons d v => simpa [hv] using hoffset
      · rcases List.mem_append.mp hd with hd | hd
        · exact hnil d hd
        · exact List.mem_singleton.mp hd ▸ hne
    by_cases hempty : q.vSendMsg = []
    · obtain ⟨sent, q', gone', hloop, hgone, h'⟩ := hqueued.sendLoop answers
      refine ⟨sent, q', gone', (if_pos hempty).trans hloop, ?_, h'⟩
      rw [hgone, ← List.append_assoc]
      rfl
    · refine ⟨[], _, gone, if_neg hempty, (List.append_assoc _ _ _).symm, ?_⟩
      rwa [List.append_nil]

theorem Sending.run (hstart : pchMessageStart.length = 4) : ∀ (es : List SendEvent)
    {gone : List (List UInt8)} {wire : List UInt8} {q : SendQueue}, Sending gone wire q →
    ∃ sent q' gone', q.run hash pchMessageStart es = some (sent, q') ∧
      gone' ++ q'.vSendMsg = gone ++ q.vSendMsg ++ (pushed es).map (Message.data hash pchMessageStart) ∧
      Sending gone' (wire ++ sent) q'
  | [], gone, wire, q, h => ⟨[], q, gone, rfl, by simp [pushed], by rwa [List.append_nil]⟩
  | e :: es, gone, wire, q, h => by
    obtain ⟨sent, q₁, gone₁, hstep, hgone₁, h₁⟩ := h.step hstart e
    obtain ⟨later, q', gone', hrun, hgone', h'⟩ := Sending.run hstart es h₁
    have hpushed : pushed (e :: es) = pushed [e] ++ pushed es := by
      rw [pushed, pushed, pushed, ← List.filterMap_append]
      rfl
    refine ⟨sent ++ later, q', gone', ?_, ?_, by rwa [← List.append_assoc]⟩
    · rw [SendQueue.run, hstep]
      simp only [Option.bind_eq_bind, Option.bind_some, hrun]
    · rw [hgone', hgone₁, hpushed, List.map_append, List.append_assoc]

/-- No assertion of the sender fails, and however the bytes that are sent are cut into packets, the
receiver takes them all, and it accepts the messages that have left the queue, as they were pushed
and in this order. -/
def Arrive (hash : List UInt8 → UInt256) (pchMessageStart : List UInt8) (es : List SendEvent) :
    Prop :=
  ∃ wire q, SendQueue.run hash pchMessageStart es ⟨[], 0, 0⟩ = some (wire, q) ∧
    q.nSendSize = (q.vSendMsg.map List.length).sum ∧
    ∀ chunks : List (List UInt8), chunks.flatten = wire →
      ∃ r, ReceiveAll pchMessageStart [] chunks r ∧ r.ok = true ∧
        (r.vRecvMsg.filter CNetMessage.complete).map
            (fun msg => accepted hash pchMessageStart msg.hdr msg.vRecv) =
          ((pushed es).take ((pushed es).length - q.vSendMsg.length)).map some

/-- **Messages arrive**, whatever is pushed and however many bytes `send` takes. -/
theorem messages_arrive (hstart : pchMessageStart.length = 4) (es : List SendEvent)
    (hes : ∀ m ∈ pushed es, m.Sendable) : Arrive hash pchMessageStart es := by
  have hinit : Sending [] [] ⟨[], 0, 0⟩ := ⟨rfl, .inl rfl, rfl, by simp⟩
  obtain ⟨wire, q, gone, hrun, hgone, h⟩ := @Sending.run hash pchMessageStart hstart es _ _ _ hinit
  rw [List.nil_append] at h
  simp only [List.nil_append, List.append_nil] at hgone
  refine ⟨wire, q, hrun, h.size, fun chunks hchunks => ?_⟩
  set n := (pushed es).length - q.vSendMsg.length
  have hlength := congrArg List.length hgone
  rw [List.length_append, List.length_map] at hlength
  have hgone' : gone = ((pushed es).take n).map (Message.data hash pchMessageStart) := by
    rw [List.map_take, ← hgone, List.take_left' (by omega)]
  have hqueue : q.vSendMsg = ((pushed es).drop n).map (Message.data hash pchMessageStart) := by
    rw [List.map_drop, ← hgone, List.drop_left' (by omega)]
  have hrest : (messageFormat.parse ((q.vSendMsg.headD []).take q.nSendOffset)).frames = [] ∧
      ∀ h rest, (messageFormat.parse ((q.vSendMsg.headD []).take q.nSendOffset)).tail ≠
        .oversized h rest := by
    cases hd : (pushed es).drop n with
    | nil =>
      rw [hqueue, hd, List.map_nil, List.headD_nil, List.take_nil, Format.parse_nil]
      exact ⟨rfl, by simp⟩
    | cons m ms =>
      have hoffset := h.offset
      have hm : m.Sendable := hes m (List.mem_of_mem_drop (hd ▸ List.mem_cons_self))
      rw [hqueue, hd, List.map_cons, List.headD_cons] at hoffset ⊢
      refine m.parse_take hstart hm ?_
      rcases hoffset with hzero | hlt
      · rw [hzero, m.data_eq hstart, List.length_append, m.length_head hstart]
        omega
      · exact hlt
  have hshows : Shows [] (messageFormat.parse []) := by
    rw [Format.parse_nil]
    exact .boundary .nil
  obtain ⟨r, hr, hsame⟩ := receiveAll_sameOutcome pchMessageStart chunks hshows
  have hmem : ∀ m ∈ (pushed es).take n, m.Sendable := fun m hm => hes m (List.mem_of_mem_take hm)
  have hmessages := hsame.messages
  have hok := hsame.ok
  rw [List.nil_append, hchunks, h.wire, hgone', parse_gone hstart hmem] at hmessages hok
  rw [hrest.1, List.append_nil] at hmessages
  refine ⟨r, hr, ?_, ?_⟩
  · by_contra hfalse
    obtain ⟨w, rest, htail⟩ := hok.mp (Bool.eq_false_iff.mpr hfalse)
    exact hrest.2 w rest htail
  · have haccept := congrArg (List.map fun p => accepted hash pchMessageStart p.1 p.2) hmessages
    rw [List.map_map, List.map_map, List.map_map] at haccept
    refine haccept.trans (List.map_congr_left fun m hm => ?_)
    exact m.accepted_eq hstart (hmem m hm)

/-- A `ping` of which ten bytes are sent at first. -/
def pingSends : List SendEvent := [.push ⟨[112, 105, 110, 103], [7]⟩ [10], .socket [30]]

theorem messages_arrive_ping : Arrive (fun _ => 0) [191, 12, 107, 189] pingSends := by
  refine messages_arrive rfl pingSends fun m hm => ?_
  obtain rfl : m = ⟨[112, 105, 110, 103], [7]⟩ := List.mem_singleton.mp hm
  exact ⟨by decide, by decide +kernel, by decide⟩

end Stonecoin
