import BlockchainCrypto.Text.Bytes
import Mathlib.Data.Nat.Bitwise
import Mathlib.Tactic.Ring

/-!
# Message frames

A message travels as a frame: a fixed header of 19 bytes with the lengths of the two variable
fields, the sender id, and the payload, all numbers big-endian. `P2PMessage.h` writes and parses
whole frames; the reader of a peer in `P2PNode.cpp` collects the bytes of its socket in a buffer
and takes frames from the front of it.

## Main definitions

* `p2p.Message`, with `serialize` and `deserialize`.
* `p2p.extractMessage`, `p2p.pollReceive`: one step of the reader.
* `p2p.Message.Framable`: the limits on sender id and payload.

## Main results

* `p2p.readU32BE_appendU32BE`, `p2p.appendU32BE_readU32BE` and the like: the numbers of a header
  are read and written back.
* `p2p.extractMessage_header`: what the reader makes of a header and the bytes after it.
* `p2p.extractMessage_frame`, `p2p.extractMessage_of_prefix`: a whole frame is taken, and a part of
  one is waited for.
-/

namespace BlockchainCrypto

open ByteText

namespace p2p

/-! ### Numbers -/

/-- Four bytes as a number, the highest first. -/
def readU32BE : Bytes → UInt32
  | p0 :: p1 :: p2 :: p3 :: _ =>
    p0.toUInt32 <<< 24 ||| p1.toUInt32 <<< 16 ||| p2.toUInt32 <<< 8 ||| p3.toUInt32
  | _ => 0

/-- Two bytes as a number, the highest first. -/
def readU16BE : Bytes → UInt16
  | p0 :: p1 :: _ => (p0.toUInt32 <<< 8 ||| p1.toUInt32).toUInt16
  | _ => 0

/-- The cast of an unsigned accumulator over eight bytes. -/
def readI64BE (p : Bytes) : Int64 :=
  ((p.take 8).foldl (fun (value : UInt64) b => value <<< 8 ||| b.toUInt64) 0).toInt64

/-- The four bytes of a number. -/
def appendU32BE (value : UInt32) : Bytes :=
  [(value >>> 24).toUInt8, (value >>> 16).toUInt8, (value >>> 8).toUInt8, value.toUInt8]

/-- The two bytes of a number. -/
def appendU16BE (value : UInt16) : Bytes := [(value >>> 8).toUInt8, value.toUInt8]

/-- The eight bytes of a number. -/
def appendI64BE (value : Int64) : Bytes :=
  [56, 48, 40, 32, 24, 16, 8, 0].map fun i : UInt64 => (value.toUInt64 >>> i).toUInt8

/-! ### Messages -/

/-- The type byte of a message. The enumeration has a fixed underlying type, so that every byte is
a value of it. -/
abbrev MessageType := UInt8

namespace MessageType

/-- The first message of the dialling node. -/
def HANDSHAKE : MessageType := 0x00

/-- The answer to a handshake. -/
def HANDSHAKE_ACK : MessageType := 0x01

/-- The question whether a peer is still there. -/
def PING : MessageType := 0x10

/-- The answer to a ping. -/
def PONG : MessageType := 0x11

/-- A list of peers. -/
def PEERS : MessageType := 0x13

/-- A request for blocks. -/
def GET_BLOCKS : MessageType := 0x20

/-- The answer to a request for blocks. -/
def BLOCKS : MessageType := 0x21

/-- The height of the chain of the sender. -/
def BLOCK_HEIGHT : MessageType := 0x23

/-- The announcement of a block. -/
def NEW_BLOCK : MessageType := 0x30

/-- The announcement of a transaction. -/
def NEW_TRANSACTION : MessageType := 0x31

/-- A refusal in words. -/
def ERROR_MSG : MessageType := 0xFE

/-- The end of a connection. -/
def DISCONNECT : MessageType := 0xFF

end MessageType

/-- A message, as both ends see it. -/
structure Message where
  type : MessageType
  payload : Bytes
  senderId : Bytes
  timestamp : Int64
  deriving DecidableEq

namespace Message

/-- The first four bytes of a frame. -/
def MAGIC_NUMBER : UInt32 := 0x424C4B43

/-- The bytes of a frame before the sender id and the payload. -/
def HEADER_SIZE : ℕ := 19

/-- The limit that the decoders put on a payload. -/
def MAX_PAYLOAD_SIZE : ℕ := 10 * 1024 * 1024

/-- What the length field of the sender id can hold. -/
def MAX_SENDER_ID_SIZE : ℕ := 0xFFFF

/-- The fixed part of a frame. -/
def header (type : MessageType) (payloadLen : UInt32) (timestamp : Int64) (senderLen : UInt16) :
    Bytes :=
  appendU32BE MAGIC_NUMBER ++ [type] ++ appendU32BE payloadLen ++ appendI64BE timestamp ++
    appendU16BE senderLen

/-- The frame of a message; a sender id that its length field cannot count is an error. The length
of the payload is cast to 32 bits unchecked. -/
def serialize (msg : Message) : Option Bytes :=
  if msg.senderId.length > MAX_SENDER_ID_SIZE then none
  else some (header msg.type (UInt32.ofNat msg.payload.length) msg.timestamp
    (UInt16.ofNat msg.senderId.length) ++ msg.senderId ++ msg.payload)

/-- The message of a frame, or none where the bytes are not a frame. -/
def deserialize (data : Bytes) : Option Message :=
  if data.length < HEADER_SIZE then none
  else if readU32BE data ≠ MAGIC_NUMBER then none
  else
    let type := data.getD 4 0
    let len := (readU32BE (data.drop 5)).toNat
    if len > MAX_PAYLOAD_SIZE then none
    else
      let timestamp := readI64BE (data.drop 9)
      let senderLen := (readU16BE (data.drop 17)).toNat
      if data.length < HEADER_SIZE + senderLen then none
      else
        let senderId := (data.drop HEADER_SIZE).take senderLen
        let payloadStart := HEADER_SIZE + senderLen
        if data.length < payloadStart + len then none
        else some ⟨type, (data.drop payloadStart).take len, senderId, timestamp⟩

/-- The limits that a frame can carry. -/
structure Framable (msg : Message) : Prop where
  senderId : msg.senderId.length ≤ MAX_SENDER_ID_SIZE
  payload : msg.payload.length ≤ MAX_PAYLOAD_SIZE

end Message

/-! ### The reader of a peer -/

/-- The result of one step of the reader; the message is the one stored in its argument. -/
inductive ReceiveStatus where
  | message (msg : Message)
  | incomplete
  | closed
  deriving DecidableEq

/-- The largest frame. -/
def MAX_FRAME_SIZE : ℕ := Message.HEADER_SIZE + 0xFFFF + Message.MAX_PAYLOAD_SIZE

/-- The frame in front of the receive buffer, and the buffer without it. -/
def extractMessage (recvBuffer : Bytes) : ReceiveStatus × Bytes :=
  if recvBuffer.length < Message.HEADER_SIZE then (.incomplete, recvBuffer)
  else if readU32BE recvBuffer ≠ Message.MAGIC_NUMBER then (.closed, recvBuffer)
  else
    let payloadLen := (readU32BE (recvBuffer.drop 5)).toNat
    if payloadLen > Message.MAX_PAYLOAD_SIZE then (.closed, recvBuffer)
    else
      let senderLen := (readU16BE (recvBuffer.drop 17)).toNat
      let frameSize := Message.HEADER_SIZE + senderLen + payloadLen
      if recvBuffer.length < frameSize then (.incomplete, recvBuffer)
      else
        match Message.deserialize (recvBuffer.take frameSize) with
        | none => (.closed, recvBuffer)
        | some msg => (.message msg, recvBuffer.drop frameSize)

/-- One read of the socket, which returns the bytes `chunk`; an empty read is the end of the
connection. -/
def pollReceive (recvBuffer chunk : Bytes) : ReceiveStatus × Bytes :=
  if chunk = [] then (.closed, recvBuffer)
  else
    let recvBuffer := recvBuffer ++ chunk
    if recvBuffer.length > MAX_FRAME_SIZE then (.closed, recvBuffer) else extractMessage recvBuffer

/-! ### Numbers are read back -/

private theorem or_eq_add {k x y : ℕ} (hx : 2 ^ k ∣ x) (hy : y < 2 ^ k) : x ||| y = x + y := by
  obtain ⟨a, rfl⟩ := hx
  rw [mul_comm, ← Nat.shiftLeft_eq, Nat.shiftLeft_add_eq_or_of_lt hy]

/-- The disjunction of four numbers that occupy different bytes is their sum. -/
private theorem or_bytes {x y z w : ℕ} (hx : 2 ^ 24 ∣ x) (hy : 2 ^ 16 ∣ y) (hy' : y < 2 ^ 24)
    (hz : 2 ^ 8 ∣ z) (hz' : z < 2 ^ 16) (hw : w < 2 ^ 8) : x ||| y ||| z ||| w = x + y + z + w := by
  rw [or_eq_add hx hy', or_eq_add (k := 16) (by omega) hz', or_eq_add (k := 8) (by omega) hw]

theorem readU32BE_appendU32BE (value : UInt32) (rest : Bytes) :
    readU32BE (appendU32BE value ++ rest) = value := by
  have hlt := value.toNat_lt
  apply UInt32.toNat_inj.mp
  simp only [appendU32BE, List.cons_append, List.nil_append, readU32BE, UInt32.toNat_or,
    UInt32.toNat_shiftLeft, UInt8.toNat_toUInt32, UInt32.toNat_toUInt8, UInt32.toNat_shiftRight,
    Nat.shiftLeft_eq, Nat.shiftRight_eq_div_pow, UInt32.reduceToNat, Nat.reduceMod, Nat.reducePow]
  rw [or_bytes (by omega) (by omega) (by omega) (by omega) (by omega) (by omega)]
  omega

theorem readU16BE_appendU16BE (value : UInt16) (rest : Bytes) :
    readU16BE (appendU16BE value ++ rest) = value := by
  have hlt := value.toNat_lt
  apply UInt16.toNat_inj.mp
  simp only [appendU16BE, List.cons_append, List.nil_append, readU16BE, UInt32.toNat_or,
    UInt32.toNat_shiftLeft, UInt8.toNat_toUInt32, UInt16.toNat_toUInt8, UInt16.toNat_shiftRight,
    UInt32.toNat_toUInt16, Nat.shiftLeft_eq, Nat.shiftRight_eq_div_pow, UInt32.reduceToNat,
    UInt16.reduceToNat, Nat.reduceMod, Nat.reducePow]
  rw [or_eq_add (k := 8) (by omega) (by omega)]
  omega

/-- One round of the accumulation: a byte is appended to the bytes in front of it. -/
private theorem accumulate (x : UInt64) (i j : UInt64) (hi : i.toNat < 56) (hj : j = i + 8) :
    (x >>> j) <<< 8 ||| (x >>> i).toUInt8.toUInt64 = x >>> i := by
  have hlt := x.toNat_lt
  subst hj
  apply UInt64.toNat_inj.mp
  have hi8 : (i + 8).toNat = i.toNat + 8 := by
    rw [UInt64.toNat_add]
    exact Nat.mod_eq_of_lt (by have : (8 : UInt64).toNat = 8 := rfl; omega)
  simp only [UInt64.toNat_or, UInt64.toNat_shiftLeft, UInt64.toNat_shiftRight, hi8,
    UInt8.toNat_toUInt64, UInt64.toNat_toUInt8, Nat.shiftLeft_eq, Nat.shiftRight_eq_div_pow,
    UInt64.reduceToNat, Nat.reduceMod, Nat.reducePow, Nat.mod_eq_of_lt (by omega : i.toNat < 64),
    Nat.mod_eq_of_lt (by omega : i.toNat + 8 < 64), pow_add, ← Nat.div_div_eq_div_mul]
  have hdiv : x.toNat / 2 ^ i.toNat ≤ x.toNat := Nat.div_le_self _ _
  generalize x.toNat / 2 ^ i.toNat = y at hdiv ⊢
  rw [or_eq_add (k := 8) (by omega) (by omega)]
  omega

theorem readI64BE_appendI64BE (value : Int64) (rest : Bytes) :
    readI64BE (appendI64BE value ++ rest) = value := by
  have hround (i j : UInt64) := accumulate value.toUInt64 i j
  have hstart : (0 : UInt64) <<< 8 ||| (value.toUInt64 >>> 56).toUInt8.toUInt64 =
      value.toUInt64 >>> 56 := by
    have hlt := value.toUInt64.toNat_lt
    apply UInt64.toNat_inj.mp
    simp only [UInt64.zero_shiftLeft, UInt64.zero_or, UInt64.toNat_shiftRight, UInt8.toNat_toUInt64,
      UInt64.toNat_toUInt8, Nat.shiftRight_eq_div_pow, UInt64.reduceToNat, Nat.reduceMod]
    omega
  simp only [readI64BE, appendI64BE, List.map_cons, List.map_nil, List.cons_append, List.nil_append,
    List.take_succ_cons, List.take_zero, List.foldl_cons, List.foldl_nil]
  rw [hstart, hround 48 56 (by decide) rfl, hround 40 48 (by decide) rfl,
    hround 32 40 (by decide) rfl, hround 24 32 (by decide) rfl, hround 16 24 (by decide) rfl,
    hround 8 16 (by decide) rfl, hround 0 8 (by decide) rfl]
  simp

/-! ### Numbers are written back -/

theorem appendU32BE_readU32BE {p : Bytes} (h : 4 ≤ p.length) :
    appendU32BE (readU32BE p) = p.take 4 := by
  obtain ⟨p0, p1, p2, p3, rest, rfl⟩ : ∃ p0 p1 p2 p3 rest, p = p0 :: p1 :: p2 :: p3 :: rest := by
    rcases p with _ | ⟨p0, _ | ⟨p1, _ | ⟨p2, _ | ⟨p3, rest⟩⟩⟩⟩ <;>
      first | exact ⟨_, _, _, _, _, rfl⟩ | simp at h
  have h0 := p0.toNat_lt
  have h1 := p1.toNat_lt
  have h2 := p2.toNat_lt
  have h3 := p3.toNat_lt
  have hvalue : (readU32BE (p0 :: p1 :: p2 :: p3 :: rest)).toNat =
      p0.toNat * 2 ^ 24 + p1.toNat * 2 ^ 16 + p2.toNat * 2 ^ 8 + p3.toNat := by
    simp only [readU32BE, UInt32.toNat_or, UInt32.toNat_shiftLeft, UInt8.toNat_toUInt32,
      Nat.shiftLeft_eq, UInt32.reduceToNat, Nat.reduceMod, Nat.reducePow]
    rw [or_bytes (by omega) (by omega) (by omega) (by omega) (by omega) (by omega)]
    omega
  simp only [appendU32BE, List.take_succ_cons, List.take_zero, List.cons.injEq, ← UInt8.toNat_inj,
    UInt32.toNat_toUInt8, UInt32.toNat_shiftRight, hvalue, Nat.shiftRight_eq_div_pow,
    UInt32.reduceToNat, Nat.reduceMod, Nat.reducePow, and_true]
  omega

theorem appendU16BE_readU16BE {p : Bytes} (h : 2 ≤ p.length) :
    appendU16BE (readU16BE p) = p.take 2 := by
  obtain ⟨p0, p1, rest, rfl⟩ : ∃ p0 p1 rest, p = p0 :: p1 :: rest := by
    rcases p with _ | ⟨p0, _ | ⟨p1, rest⟩⟩ <;> first | exact ⟨_, _, _, rfl⟩ | simp at h
  have h0 := p0.toNat_lt
  have h1 := p1.toNat_lt
  have hvalue : (readU16BE (p0 :: p1 :: rest)).toNat = p0.toNat * 2 ^ 8 + p1.toNat := by
    simp only [readU16BE, UInt32.toNat_or, UInt32.toNat_shiftLeft, UInt8.toNat_toUInt32,
      UInt32.toNat_toUInt16, Nat.shiftLeft_eq, UInt32.reduceToNat, Nat.reduceMod, Nat.reducePow]
    rw [or_eq_add (k := 8) (by omega) (by omega)]
    omega
  simp only [appendU16BE, List.take_succ_cons, List.take_zero, List.cons.injEq, ← UInt8.toNat_inj,
    UInt16.toNat_toUInt8, UInt16.toNat_shiftRight, hvalue, Nat.shiftRight_eq_div_pow,
    UInt16.reduceToNat, Nat.reduceMod, Nat.reducePow, and_true]
  omega

/-- One round of the accumulation, in numbers. -/
theorem toNat_accumulate {value : UInt64} (h : value.toNat < 2 ^ 56) (b : UInt8) :
    (value <<< 8 ||| b.toUInt64).toNat = value.toNat * 2 ^ 8 + b.toNat := by
  have hb := b.toNat_lt
  simp only [UInt64.toNat_or, UInt64.toNat_shiftLeft, UInt8.toNat_toUInt64, Nat.shiftLeft_eq,
    UInt64.reduceToNat, Nat.reduceMod, Nat.reducePow]
  rw [or_eq_add (k := 8) (by omega) (by omega)]
  omega

/-- Bytes that leave room for further ones in the accumulator. -/
theorem toNat_foldl_accumulate {k : ℕ} (p : Bytes) (value : UInt64) (hk : k + p.length ≤ 8)
    (h : value.toNat < 2 ^ (8 * k)) :
    (p.foldl (fun (value : UInt64) b => value <<< 8 ||| b.toUInt64) value).toNat =
      p.foldl (fun n b => n * 2 ^ 8 + b.toNat) value.toNat := by
  induction p generalizing k value with
  | nil => rfl
  | cons b p ih =>
    have hb := b.toNat_lt
    rw [List.length_cons] at hk
    have hroom : 2 ^ (8 * k) ≤ 2 ^ 56 := Nat.pow_le_pow_right (by decide) (by omega)
    have hstep := toNat_accumulate (h.trans_le hroom) b
    rw [List.foldl_cons, List.foldl_cons, ← hstep]
    refine ih (k := k + 1) _ (by omega) ?_
    rw [hstep, Nat.mul_succ, pow_add]
    omega

theorem appendI64BE_readI64BE {p : Bytes} (h : 8 ≤ p.length) :
    appendI64BE (readI64BE p) = p.take 8 := by
  have hlength : (p.take 8).length = 8 := by rw [List.length_take, Nat.min_eq_left h]
  have hvalue := toNat_foldl_accumulate (k := 0) (p.take 8) 0 (by omega) (by decide)
  rw [readI64BE]
  generalize p.take 8 = q at hlength hvalue ⊢
  obtain ⟨b0, b1, b2, b3, b4, b5, b6, b7, rfl⟩ : ∃ b0 b1 b2 b3 b4 b5 b6 b7 : UInt8,
      q = [b0, b1, b2, b3, b4, b5, b6, b7] := by
    rcases q with _ | ⟨b0, _ | ⟨b1, _ | ⟨b2, _ | ⟨b3, _ | ⟨b4, _ | ⟨b5, _ | ⟨b6, _ | ⟨b7,
      _ | ⟨b8, q⟩⟩⟩⟩⟩⟩⟩⟩⟩ <;>
      first | exact ⟨_, _, _, _, _, _, _, _, rfl⟩ | simp at hlength
  have h0 := b0.toNat_lt
  have h1 := b1.toNat_lt
  have h2 := b2.toNat_lt
  have h3 := b3.toNat_lt
  have h4 := b4.toNat_lt
  have h5 := b5.toNat_lt
  have h6 := b6.toNat_lt
  have h7 := b7.toNat_lt
  generalize [b0, b1, b2, b3, b4, b5, b6, b7].foldl
    (fun (value : UInt64) b => value <<< 8 ||| b.toUInt64) 0 = value at hvalue ⊢
  simp only [List.foldl_cons, List.foldl_nil, UInt64.reduceToNat, Nat.reducePow] at hvalue
  simp only [appendI64BE, List.map_cons, List.map_nil, UInt64.toUInt64_toInt64, List.cons.injEq,
    ← UInt8.toNat_inj, UInt64.toNat_toUInt8, UInt64.toNat_shiftRight, hvalue,
    Nat.shiftRight_eq_div_pow, UInt64.reduceToNat, Nat.reduceMod, Nat.reducePow, and_true]
  omega

/-! ### Frames are taken from the buffer -/

section Frames

variable (type : MessageType) (payloadLen : UInt32) (timestamp : Int64) (senderLen : UInt16)
  (body : Bytes)

theorem Message.length_header :
    (Message.header type payloadLen timestamp senderLen).length = Message.HEADER_SIZE := by
  simp [Message.header, appendU32BE, appendI64BE, appendU16BE, Message.HEADER_SIZE]

/-- The fields of a header are read back. -/
theorem read_header (data : Bytes)
    (hdata : data = Message.header type payloadLen timestamp senderLen ++ body) :
    readU32BE data = Message.MAGIC_NUMBER ∧ data.getD 4 0 = type ∧
      readU32BE (data.drop 5) = payloadLen ∧ readI64BE (data.drop 9) = timestamp ∧
      readU16BE (data.drop 17) = senderLen ∧ data.drop Message.HEADER_SIZE = body := by
  subst hdata
  refine ⟨?_, rfl, ?_, ?_, ?_, ?_⟩
  · simp only [Message.header, List.append_assoc]
    exact readU32BE_appendU32BE _ _
  · exact readU32BE_appendU32BE payloadLen (appendI64BE timestamp ++ appendU16BE senderLen ++ body)
  · exact readI64BE_appendI64BE timestamp (appendU16BE senderLen ++ body)
  · exact readU16BE_appendU16BE senderLen body
  · rw [← Message.length_header type payloadLen timestamp senderLen]
    exact List.drop_left

theorem Message.deserialize_header :
    Message.deserialize (Message.header type payloadLen timestamp senderLen ++ body) =
      if payloadLen.toNat > Message.MAX_PAYLOAD_SIZE then none
      else if body.length < senderLen.toNat then none
      else if body.length < senderLen.toNat + payloadLen.toNat then none
      else some ⟨type, (body.drop senderLen.toNat).take payloadLen.toNat,
        body.take senderLen.toNat, timestamp⟩ := by
  obtain ⟨hmagic, htype, hpayload, htime, hsender, hbody⟩ :=
    read_header type payloadLen timestamp senderLen body _ rfl
  have hlength := Message.length_header type payloadLen timestamp senderLen
  have hstart : (Message.header type payloadLen timestamp senderLen ++ body).drop
      (Message.HEADER_SIZE + senderLen.toNat) = body.drop senderLen.toNat := by
    rw [← List.drop_drop, hbody]
  have hshort (n : ℕ) : (Message.header type payloadLen timestamp senderLen ++ body).length <
      Message.HEADER_SIZE + n ↔ body.length < n := by
    rw [List.length_append, hlength]
    omega
  rw [Message.deserialize, if_neg (by rw [List.length_append, hlength]; omega),
    if_neg (by simp [hmagic])]
  simp only [hpayload, hsender, htype, htime, hbody, hstart, Nat.add_assoc, hshort]

/-- What the reader makes of a header and the bytes that follow it. -/
theorem extractMessage_header :
    extractMessage (Message.header type payloadLen timestamp senderLen ++ body) =
      if payloadLen.toNat > Message.MAX_PAYLOAD_SIZE then
        (.closed, Message.header type payloadLen timestamp senderLen ++ body)
      else if body.length < senderLen.toNat + payloadLen.toNat then
        (.incomplete, Message.header type payloadLen timestamp senderLen ++ body)
      else
        (.message ⟨type, (body.drop senderLen.toNat).take payloadLen.toNat,
          body.take senderLen.toNat, timestamp⟩,
          body.drop (senderLen.toNat + payloadLen.toNat)) := by
  obtain ⟨hmagic, -, hpayload, -, hsender, hbody⟩ :=
    read_header type payloadLen timestamp senderLen body _ rfl
  have hlength := Message.length_header type payloadLen timestamp senderLen
  have hframe (n : ℕ) : (Message.header type payloadLen timestamp senderLen ++ body).take
      (Message.HEADER_SIZE + n) =
        Message.header type payloadLen timestamp senderLen ++ body.take n := by
    rw [← hlength, List.take_length_add_append]
  have hrest (n : ℕ) : (Message.header type payloadLen timestamp senderLen ++ body).drop
      (Message.HEADER_SIZE + n) = body.drop n := by
    rw [← List.drop_drop, hbody]
  have hshort (n : ℕ) : (Message.header type payloadLen timestamp senderLen ++ body).length <
      Message.HEADER_SIZE + n ↔ body.length < n := by
    rw [List.length_append, hlength]
    omega
  rw [extractMessage, if_neg (by rw [List.length_append, hlength]; omega),
    if_neg (by simp [hmagic])]
  simp only [hpayload, hsender, Nat.add_assoc, hshort, hframe, hrest, Message.deserialize_header,
    List.length_take]
  split_ifs with hlarge hpart h1 h2
  · rfl
  · rfl
  · omega
  · omega
  · simp only [List.drop_take, List.take_take, Nat.add_sub_cancel_left, Nat.min_self]
    rw [Nat.min_eq_left (Nat.le_add_right _ _)]

end Frames

namespace Message

/-- The bytes of a message: a header that counts the two fields after it. -/
def frame (msg : Message) : Bytes :=
  header msg.type (UInt32.ofNat msg.payload.length) msg.timestamp
    (UInt16.ofNat msg.senderId.length) ++ (msg.senderId ++ msg.payload)

theorem serialize_eq_some {msg : Message} (h : msg.senderId.length ≤ MAX_SENDER_ID_SIZE) :
    msg.serialize = some msg.frame := by
  rw [serialize, if_neg (by omega), List.append_assoc, frame]

theorem length_frame (msg : Message) :
    msg.frame.length = HEADER_SIZE + (msg.senderId.length + msg.payload.length) := by
  rw [frame, List.length_append, List.length_append, length_header]

variable {msg : Message}

/-- The lengths of a message within the limits survive their casts. -/
theorem Framable.toNat_lengths (h : msg.Framable) :
    (UInt32.ofNat msg.payload.length).toNat = msg.payload.length ∧
      (UInt16.ofNat msg.senderId.length).toNat = msg.senderId.length := by
  have hpayload := h.payload
  have hsender := h.senderId
  simp only [MAX_PAYLOAD_SIZE, MAX_SENDER_ID_SIZE] at hpayload hsender
  rw [UInt32.toNat_ofNat', UInt16.toNat_ofNat']
  omega

end Message

section Frames

variable {msg : Message} (h : msg.Framable)

include h

/-- A whole frame in front of the buffer is taken, and nothing else. -/
theorem extractMessage_frame (rest : Bytes) :
    extractMessage (msg.frame ++ rest) = (.message msg, rest) := by
  obtain ⟨hpayload, hsender⟩ := h.toNat_lengths
  have hlarge : ¬ msg.payload.length > Message.MAX_PAYLOAD_SIZE := Nat.not_lt.mpr h.payload
  have hwhole : ¬ (msg.senderId ++ msg.payload ++ rest).length <
      msg.senderId.length + msg.payload.length := by
    rw [List.length_append, List.length_append]
    omega
  rw [Message.frame, List.append_assoc, extractMessage_header, hpayload, hsender, if_neg hlarge,
    if_neg hwhole]
  simp

/-- A part of a frame is waited for. -/
theorem extractMessage_of_prefix {recvBuffer : Bytes} (hpre : recvBuffer <+: msg.frame)
    (hlt : recvBuffer.length < msg.frame.length) :
    extractMessage recvBuffer = (.incomplete, recvBuffer) := by
  obtain ⟨hpayload, hsender⟩ := h.toNat_lengths
  have hle := h.payload
  rw [Message.length_frame] at hlt
  by_cases hshort : recvBuffer.length < Message.HEADER_SIZE
  · rw [extractMessage, if_pos hshort]
  · obtain ⟨body, rfl⟩ := List.prefix_of_prefix_length_le (List.prefix_append _ _) hpre
      (by rw [Message.length_header]; omega)
    rw [List.length_append, Message.length_header] at hlt
    rw [extractMessage_header, hpayload, hsender, if_neg (by omega), if_pos (by omega)]

end Frames

end p2p

end BlockchainCrypto
