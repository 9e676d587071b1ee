import BlockchainCrypto.Network.Frames
import BlockchainCrypto.Theory.StreamParser
import Mathlib.Data.List.Induction

/-!
# Framing of messages

Serializing and parsing are inverse to each other: a message within the limits is read back, and
what was parsed from a string is serialized to the bytes it was parsed from. The numbers of a header
carry all its bytes, so that every string with a header is the header of some message and the bytes
behind it.

The reader of a peer finds the boundaries of frames in its buffer by itself, before it hands a
frame to the parser. The two agree, and the messages of a stream do not depend on the reads in which
it arrives.

## Main definitions

* `p2p.frameSize`, `p2p.Malformed`: what a header says about its frame.
* `p2p.frameParser`: the parser of the consecutive frames of a string.
* `p2p.Reader`, `p2p.reads`: the reads of a peer.
* `p2p.Division`: the reads in which a string arrives.

## Main results

* `p2p.eq_header`: a string with a header.
* `p2p.framing_round_trip`: serializing and parsing undo each other.
* `p2p.extractMessage_eq`: the reader takes the frames that the parser accepts.
* `p2p.reads_independent`: the messages do not depend on the division.
-/

namespace BlockchainCrypto

open ByteText

namespace p2p

/-! ### Strings with a header -/

/-- The size of the frame that a header announces. -/
def frameSize (data : Bytes) : ℕ :=
  Message.HEADER_SIZE + (readU16BE (data.drop 17)).toNat + (readU32BE (data.drop 5)).toNat

/-- A header that no message has. -/
def Malformed (data : Bytes) : Prop :=
  Message.HEADER_SIZE ≤ data.length ∧ (readU32BE data ≠ Message.MAGIC_NUMBER ∨
    (readU32BE (data.drop 5)).toNat > Message.MAX_PAYLOAD_SIZE)

instance (data : Bytes) : Decidable (Malformed data) := inferInstanceAs (Decidable (_ ∧ (_ ∨ _)))

/-- A string with the right start is a header and the bytes behind it. -/
theorem eq_header {data : Bytes} (hlength : Message.HEADER_SIZE ≤ data.length)
    (hmagic : readU32BE data = Message.MAGIC_NUMBER) :
    data = Message.header (data.getD 4 0) (readU32BE (data.drop 5)) (readI64BE (data.drop 9))
      (readU16BE (data.drop 17)) ++ data.drop Message.HEADER_SIZE := by
  have hsize : Message.HEADER_SIZE = 19 := rfl
  rw [hsize] at hlength ⊢
  have hdrop (i : ℕ) : (data.drop i).length = data.length - i := List.length_drop
  have hpart (i n : ℕ) : (data.drop i).take n ++ data.drop (i + n) = data.drop i := by
    rw [← List.drop_drop, List.take_append_drop]
  have htype : data.getD 4 0 :: data.drop 5 = data.drop 4 := by
    rw [List.getD_eq_getElem _ _ (by omega), List.getElem_cons_drop]
  rw [Message.header, ← hmagic, appendU32BE_readU32BE (by omega),
    appendU32BE_readU32BE (by rw [hdrop]; omega), appendI64BE_readI64BE (by rw [hdrop]; omega),
    appendU16BE_readU16BE (by rw [hdrop]; omega)]
  simp only [List.append_assoc]
  rw [hpart 17 2, hpart 9 8, hpart 5 4, List.singleton_append, htype, List.take_append_drop]

/-- The fields of a string with the right start. -/
theorem exists_header {data : Bytes} (hlength : Message.HEADER_SIZE ≤ data.length)
    (hmagic : readU32BE data = Message.MAGIC_NUMBER) :
    ∃ type payloadLen timestamp senderLen body,
      data = Message.header type payloadLen timestamp senderLen ++ body ∧
        readU32BE (data.drop 5) = payloadLen ∧ readU16BE (data.drop 17) = senderLen :=
  ⟨_, _, _, _, _, eq_header hlength hmagic, rfl, rfl⟩

theorem readU32BE_append {p : Bytes} (h : 4 ≤ p.length) (t : Bytes) :
    readU32BE (p ++ t) = readU32BE p := by
  conv_lhs => rw [← List.take_append_drop 4 p, ← appendU32BE_readU32BE h, List.append_assoc]
  exact readU32BE_appendU32BE _ _

theorem readU16BE_append {p : Bytes} (h : 2 ≤ p.length) (t : Bytes) :
    readU16BE (p ++ t) = readU16BE p := by
  conv_lhs => rw [← List.take_append_drop 2 p, ← appendU16BE_readU16BE h, List.append_assoc]
  exact readU16BE_appendU16BE _ _

section Appended

variable {data : Bytes} (h : Message.HEADER_SIZE ≤ data.length) (t : Bytes)

include h

/-- What arrives behind a header changes nothing in it. -/
theorem read_append : readU32BE (data ++ t) = readU32BE data ∧
    readU32BE ((data ++ t).drop 5) = readU32BE (data.drop 5) ∧
      readU16BE ((data ++ t).drop 17) = readU16BE (data.drop 17) := by
  have hsize : Message.HEADER_SIZE = 19 := rfl
  have hdrop (i : ℕ) : (data.drop i).length = data.length - i := List.length_drop
  refine ⟨readU32BE_append (by omega) t, ?_, ?_⟩
  · rw [List.drop_append_of_le_length (by omega)]
    exact readU32BE_append (by rw [hdrop]; omega) t
  · rw [List.drop_append_of_le_length (by omega)]
    exact readU16BE_append (by rw [hdrop]; omega) t

theorem frameSize_append : frameSize (data ++ t) = frameSize data := by
  obtain ⟨-, hpayload, hsender⟩ := read_append h t
  rw [frameSize, hpayload, hsender, frameSize]

theorem malformed_append_iff : Malformed (data ++ t) ↔ Malformed data := by
  obtain ⟨hmagic, hpayload, -⟩ := read_append h t
  rw [Malformed, Malformed, hmagic, hpayload, List.length_append]
  exact and_congr_left fun _ => iff_of_true (by omega) h

end Appended

/-! ### Serializing and parsing -/

/-- A parsed string starts like every frame. -/
theorem Message.starts_of_deserialize {data : Bytes} {msg : Message}
    (h : Message.deserialize data = some msg) :
    HEADER_SIZE ≤ data.length ∧ readU32BE data = MAGIC_NUMBER := by
  rw [deserialize] at h
  split_ifs at h with hlength hmagic
  exact ⟨not_lt.mp hlength, not_not.mp hmagic⟩

theorem Message.not_malformed_of_deserialize {data : Bytes} {msg : Message}
    (h : Message.deserialize data = some msg) : ¬ Malformed data := by
  simp only [deserialize] at h
  split_ifs at h with hlength hmagic hlarge
  exact fun hbad => hbad.2.elim hmagic hlarge

theorem Message.deserialize_frame {msg : Message} (h : msg.Framable) :
    deserialize msg.frame = some msg := by
  obtain ⟨hpayload, hsender⟩ := h.toNat_lengths
  have hlarge : ¬ msg.payload.length > MAX_PAYLOAD_SIZE := Nat.not_lt.mpr h.payload
  rw [frame, deserialize_header, hpayload, hsender, List.length_append, if_neg hlarge,
    if_neg (by omega), if_neg (by omega), List.drop_left, List.take_left, List.take_length]

/-- The frame of what was parsed is the part of the string that its header announces. -/
theorem Message.frame_of_deserialize {data : Bytes} {msg : Message}
    (h : deserialize data = some msg) :
    msg.Framable ∧ frameSize data ≤ data.length ∧ msg.frame = data.take (frameSize data) := by
  obtain ⟨hlength, hmagic⟩ := starts_of_deserialize h
  obtain ⟨type, payloadLen, timestamp, senderLen, body, hdata, hpayload, hsender⟩ :=
    exists_header hlength hmagic
  have hheader := length_header type payloadLen timestamp senderLen
  rw [frameSize, hpayload, hsender]
  subst hdata
  rw [deserialize_header] at h
  split_ifs at h with hlarge hshort hpart
  obtain rfl := Option.some.inj h
  have hpayloadLen : ((body.drop senderLen.toNat).take payloadLen.toNat).length =
      payloadLen.toNat := by
    rw [List.length_take, List.length_drop]
    omega
  have hsenderLen : (body.take senderLen.toNat).length = senderLen.toNat := by
    rw [List.length_take]
    omega
  have hlimit := senderLen.toNat_lt
  refine ⟨⟨?_, ?_⟩, ?_, ?_⟩
  · rw [hsenderLen, MAX_SENDER_ID_SIZE]
    omega
  · rw [hpayloadLen]
    omega
  · rw [List.length_append, hheader]
    omega
  · rw [frame, hpayloadLen, hsenderLen, UInt32.ofNat_toNat, UInt16.ofNat_toNat, ← List.take_add,
      Nat.add_assoc, ← hheader, List.take_length_add_append]

/-- **Serializing and parsing undo each other.** A message within the limits is read back, and what
was parsed from a string is serialized to the part of it that its header announces. -/
theorem framing_round_trip :
    (∀ msg : Message, msg.senderId.length ≤ 65535 →
      msg.payload.length ≤ Message.MAX_PAYLOAD_SIZE →
        ∃ data, msg.serialize = some data ∧ Message.deserialize data = some msg) ∧
    ∀ (data : Bytes) (msg : Message), Message.deserialize data = some msg →
      msg.serialize = some (data.take (Message.HEADER_SIZE + (readU16BE (data.drop 17)).toNat +
        (readU32BE (data.drop 5)).toNat)) := by
  refine ⟨fun msg hsender hpayload => ?_, fun data msg h => ?_⟩
  · exact ⟨msg.frame, Message.serialize_eq_some hsender,
      Message.deserialize_frame ⟨hsender, hpayload⟩⟩
  · obtain ⟨hframable, -, hframe⟩ := Message.frame_of_deserialize h
    rw [Message.serialize_eq_some hframable.senderId, hframe, frameSize]

/-- A message with the sender id `n`, the payload `hi` and a timestamp with its high bit set. -/
theorem framing_round_trip_hi :
    ∃ data, (⟨0xFE, ascii "hi", ascii "n", -1⟩ : Message).serialize = some data ∧
      Message.deserialize data = some ⟨0xFE, ascii "hi", ascii "n", -1⟩ ∧
      (⟨0xFE, ascii "hi", ascii "n", -1⟩ : Message).serialize =
        some (data.take (Message.HEADER_SIZE + (readU16BE (data.drop 17)).toNat +
          (readU32BE (data.drop 5)).toNat)) := by
  obtain ⟨data, hdata, hread⟩ := framing_round_trip.1 ⟨0xFE, ascii "hi", ascii "n", -1⟩
    (by decide) (by decide)
  exact ⟨data, hdata, hread, framing_round_trip.2 data _ hread⟩

/-! ### The consecutive frames of a string -/

/-- The frame in front of a string, parsed. A header that no message has is refused. -/
def nextFrame (data : Bytes) : StreamParser.Step Message UInt8 :=
  match Message.deserialize (data.take (frameSize data)) with
  | some msg => .item msg (data.drop (frameSize data))
  | none => if Malformed data then .refuse else .wait

/-- A string that is long enough for the frame that its header announces is accepted. -/
theorem exists_deserialize_take {data : Bytes} (hlength : Message.HEADER_SIZE ≤ data.length)
    (hmalformed : ¬ Malformed data) (hwhole : frameSize data ≤ data.length) :
    ∃ msg, Message.deserialize (data.take (frameSize data)) = some msg := by
  obtain ⟨hmagic, hlarge⟩ := not_or.mp fun h => hmalformed ⟨hlength, h⟩
  obtain ⟨type, payloadLen, timestamp, senderLen, body, hdata, hpayload, hsender⟩ :=
    exists_header hlength (not_not.mp hmagic)
  have hheader := Message.length_header type payloadLen timestamp senderLen
  rw [hpayload] at hlarge
  rw [frameSize, hpayload, hsender, Nat.add_assoc] at hwhole ⊢
  rw [hdata, List.length_append, hheader] at hwhole
  rw [hdata, ← hheader, List.take_length_add_append, Message.deserialize_header, List.length_take,
    if_neg hlarge, if_neg (by omega), if_neg (by omega)]
  exact ⟨_, rfl⟩

/-- An accepted frame lies within the string. -/
theorem frameSize_le_of_deserialize {data : Bytes} {msg : Message}
    (h : Message.deserialize (data.take (frameSize data)) = some msg) :
    Message.HEADER_SIZE ≤ data.length ∧ ¬ Malformed data ∧ frameSize data ≤ data.length := by
  obtain ⟨hlength, -⟩ := Message.starts_of_deserialize h
  obtain ⟨-, hle, -⟩ := Message.frame_of_deserialize h
  have hmalformed := malformed_append_iff hlength (data.drop (frameSize data))
  have hsize := frameSize_append hlength (data.drop (frameSize data))
  rw [List.take_append_drop] at hmalformed hsize
  rw [List.length_take] at hlength hle
  exact ⟨by omega, fun hbad => Message.not_malformed_of_deserialize h (hmalformed.mp hbad),
    by omega⟩

theorem nextFrame_eq_item_iff {data : Bytes} {msg : Message} {rest : Bytes} :
    nextFrame data = .item msg rest ↔
      Message.deserialize (data.take (frameSize data)) = some msg ∧
        rest = data.drop (frameSize data) := by
  rw [nextFrame]
  split
  · next msg' h =>
    rw [h, StreamParser.Step.item.injEq, Option.some.injEq]
    exact and_congr_right fun _ => eq_comm
  · next h =>
    rw [h]
    split_ifs <;> simp

theorem nextFrame_eq_refuse_iff {data : Bytes} : nextFrame data = .refuse ↔ Malformed data := by
  rw [nextFrame]
  split
  · next msg h => exact iff_of_false (by simp) (frameSize_le_of_deserialize h).2.1
  · split_ifs with h
    · exact iff_of_true rfl h
    · exact iff_of_false (by simp) h

/-- The parser of the consecutive frames of a string. -/
def frameParser : StreamParser Message UInt8 where
  next := nextFrame
  length_lt {data msg rest} h := by
    obtain ⟨hparse, rfl⟩ := nextFrame_eq_item_iff.mp h
    obtain ⟨hlength, -, -⟩ := frameSize_le_of_deserialize hparse
    have hsize : Message.HEADER_SIZE = 19 := rfl
    have hframe : Message.HEADER_SIZE ≤ frameSize data := by
      rw [frameSize]
      omega
    rw [List.length_drop]
    omega
  item_append {data msg rest} h t := by
    obtain ⟨hparse, rfl⟩ := nextFrame_eq_item_iff.mp h
    obtain ⟨hlength, -, hwhole⟩ := frameSize_le_of_deserialize hparse
    rw [nextFrame_eq_item_iff, frameSize_append hlength, List.take_append_of_le_length hwhole,
      List.drop_append_of_le_length hwhole]
    exact ⟨hparse, rfl⟩
  refuse_append {data} h t := by
    have hbad := nextFrame_eq_refuse_iff.mp h
    exact nextFrame_eq_refuse_iff.mpr ((malformed_append_iff hbad.1 t).mpr hbad)

/-- **The reader takes the frames that the parser accepts**: its own reading of the two lengths
never contradicts the one of the parser. -/
theorem extractMessage_eq (recvBuffer : Bytes) :
    extractMessage recvBuffer =
      match frameParser.next recvBuffer with
      | .item msg rest => (.message msg, rest)
      | .wait => (.incomplete, recvBuffer)
      | .refuse => (.closed, recvBuffer) := by
  have hwait (h : ¬ Malformed recvBuffer)
      (hpart : recvBuffer.length < Message.HEADER_SIZE ∨ recvBuffer.length < frameSize recvBuffer) :
      nextFrame recvBuffer = .wait := by
    rw [nextFrame]
    split
    · next msg hparse =>
      obtain ⟨hlength, -, hwhole⟩ := frameSize_le_of_deserialize hparse
      omega
    · exact if_neg h
  change extractMessage recvBuffer = match nextFrame recvBuffer with
    | .item msg rest => (.message msg, rest)
    | .wait => (.incomplete, recvBuffer)
    | .refuse => (.closed, recvBuffer)
  have hsound : ¬ readU32BE recvBuffer ≠ Message.MAGIC_NUMBER →
      ¬ (readU32BE (recvBuffer.drop 5)).toNat > Message.MAX_PAYLOAD_SIZE → ¬ Malformed recvBuffer :=
    fun hmagic hlarge h => h.2.elim hmagic hlarge
  fun_cases extractMessage recvBuffer with
  | case1 hshort => rw [hwait (fun h => absurd h.1 (not_le.mpr hshort)) (.inl hshort)]
  | case2 hlong hmagic =>
    rw [nextFrame_eq_refuse_iff.mpr ⟨not_lt.mp hlong, .inl hmagic⟩]
  | case3 hlong hmagic payloadLen hlarge =>
    rw [nextFrame_eq_refuse_iff.mpr ⟨not_lt.mp hlong, .inr hlarge⟩]
  | case4 hlong hmagic payloadLen hlarge senderLen size hpart =>
    rw [hwait (hsound hmagic hlarge) (.inr hpart)]
  | case5 hlong hmagic payloadLen hlarge senderLen size hwhole hparse =>
    -- The branch of the exception.
    obtain ⟨msg, hmsg⟩ :=
      exists_deserialize_take (not_lt.mp hlong) (hsound hmagic hlarge) (not_lt.mp hwhole)
    exact absurd (hparse.symm.trans hmsg) (Option.some_ne_none msg).symm
  | case6 hlong hmagic payloadLen hlarge senderLen size hwhole msg hparse =>
    rw [nextFrame_eq_item_iff.mpr ⟨hparse, rfl⟩]
    rfl

theorem length_lt_of_extractMessage {recvBuffer rest : Bytes} {msg : Message}
    (h : extractMessage recvBuffer = (.message msg, rest)) : rest.length < recvBuffer.length := by
  rw [extractMessage_eq] at h
  split at h
  · next hnext =>
    obtain ⟨-, rfl⟩ := Prod.mk.inj h
    exact frameParser.length_lt hnext
  · cases h
  · cases h

/-! ### The reads of a peer -/

/-- `nextBufferedMessage` until it stops returning messages: these, the last status, and the
buffer. -/
def bufferedMessages (recvBuffer : Bytes) : List Message × ReceiveStatus × Bytes :=
  match _h : extractMessage recvBuffer with
  | (.message msg, rest) =>
    let (msgs, last) := bufferedMessages rest
    (msg :: msgs, last)
  | (status, rest) => ([], status, rest)
termination_by recvBuffer.length
decreasing_by exact length_lt_of_extractMessage _h

/-- What the reader has in its buffer, the messages that it extracted, and whether it reported the
end of the connection. -/
structure Reader where
  recvBuffer : Bytes := []
  messages : List Message := []
  closed : Bool := false

/-- The messages after a call of `pollReceive`, with the one that it returned. -/
def polledMessages : ReceiveStatus × Bytes → List Message × ReceiveStatus × Bytes
  | (.message msg, rest) =>
    let (msgs, last) := bufferedMessages rest
    (msg :: msgs, last)
  | (status, rest) => ([], status, rest)

/-- One read of the socket, and the messages that it completed. -/
def Reader.read (reader : Reader) (chunk : Bytes) : Reader :=
  let (msgs, status, recvBuffer) := polledMessages (pollReceive reader.recvBuffer chunk)
  ⟨recvBuffer, reader.messages ++ msgs, reader.closed || status = .closed⟩

/-- The reads of a peer from its connection on. -/
def reads (chunks : List Bytes) : Reader := chunks.foldl Reader.read {}

/-- The reads in which a string arrives: each returns 1 to 4096 bytes, and the buffer stays within
the largest frame. After the reader reported the end of the connection nothing is read from it. -/
structure Division (data : Bytes) (chunks : List Bytes) : Prop where
  flatten : chunks.flatten = data
  size : ∀ chunk ∈ chunks, 1 ≤ chunk.length ∧ chunk.length ≤ 4096
  within : ∀ before chunk after, chunks = before ++ chunk :: after →
    (reads before).closed = false →
      (reads before).recvBuffer.length + chunk.length ≤ MAX_FRAME_SIZE

theorem bufferedMessages_eq_polledMessages (recvBuffer : Bytes) :
    bufferedMessages recvBuffer = polledMessages (extractMessage recvBuffer) := by
  rw [bufferedMessages]
  rcases extractMessage recvBuffer with ⟨_ | _ | _, rest⟩
  · rfl
  · rfl
  · rfl

/-- The state of a reader that extracted what a parser found. -/
def readerOf (o : StreamParser.Outcome Message UInt8) : Reader := ⟨o.rest, o.items, o.refused⟩

/-- The messages in a buffer are the ones that the parser finds in it. -/
theorem polledMessages_extractMessage (recvBuffer : Bytes) :
    polledMessages (extractMessage recvBuffer) = ((frameParser.parse recvBuffer).items,
      if (frameParser.parse recvBuffer).refused then .closed else .incomplete,
      (frameParser.parse recvBuffer).rest) := by
  induction recvBuffer using StreamParser.parse.induct frameParser with
  | case1 recvBuffer msg rest h ih =>
    rw [extractMessage_eq, h, StreamParser.parse_of_item h]
    rw [polledMessages, bufferedMessages_eq_polledMessages, ih]
  | case2 recvBuffer h =>
    rw [extractMessage_eq, h, StreamParser.parse_of_wait h]
    rfl
  | case3 recvBuffer h =>
    rw [extractMessage_eq, h, StreamParser.parse_of_refuse h]
    rfl

/-- A read after a string that was parsed. -/
theorem read_readerOf {data chunk : Bytes} (hchunk : chunk ≠ [])
    (hfits : (frameParser.parse data).refused = false →
      (frameParser.parse data).rest.length + chunk.length ≤ MAX_FRAME_SIZE) :
    (readerOf (frameParser.parse data)).read chunk =
      readerOf (frameParser.parse (data ++ chunk)) := by
  cases hrefused : (frameParser.parse data).refused with
  | true =>
    -- The header that was refused is still in front of the buffer.
    have hclosed : pollReceive (frameParser.parse data).rest chunk =
        (.closed, (frameParser.parse data).rest ++ chunk) := by
      have hrefuse := extractMessage_eq ((frameParser.parse data).rest ++ chunk)
      rw [frameParser.refuse_append (StreamParser.next_rest_of_refused hrefused) chunk] at hrefuse
      rw [pollReceive, if_neg hchunk]
      dsimp only at hrefuse ⊢
      rw [hrefuse, ite_self]
    have hstatus : polledMessages (.closed, (frameParser.parse data).rest ++ chunk) =
        ([], .closed, (frameParser.parse data).rest ++ chunk) := rfl
    rw [StreamParser.parse_append_of_refused hrefused, Reader.read, readerOf, readerOf, hclosed,
      hstatus, hrefused]
    dsimp only
    rw [List.append_nil, Bool.true_or]
  | false =>
    have hextract : pollReceive (frameParser.parse data).rest chunk =
        extractMessage ((frameParser.parse data).rest ++ chunk) := by
      rw [pollReceive, if_neg hchunk]
      exact if_neg (not_lt.mpr (List.length_append ▸ hfits hrefused))
    rw [StreamParser.parse_append, StreamParser.feed, Reader.read, readerOf, readerOf, hextract,
      polledMessages_extractMessage, hrefused]
    cases (frameParser.parse ((frameParser.parse data).rest ++ chunk)).refused <;> rfl

/-- **The reads of a string extract what the parser finds in it.** -/
theorem Division.reads_eq {data : Bytes} {chunks : List Bytes} (h : Division data chunks) :
    reads chunks = readerOf (frameParser.parse data) := by
  induction chunks using List.reverseRecOn generalizing data with
  | nil =>
    obtain rfl : data = [] := h.flatten.symm
    have hwait : frameParser.next [] = .wait := rfl
    rw [StreamParser.parse_of_wait hwait]
    rfl
  | append_singleton chunks chunk ih =>
    obtain rfl := h.flatten
    have hbefore : Division chunks.flatten chunks :=
      ⟨rfl, fun c hc => h.size c (List.mem_append_left _ hc), fun before c after hsplit => by
        refine h.within before c (after ++ [chunk]) ?_
        rw [hsplit, List.append_assoc, List.cons_append]⟩
    have hreads := ih hbefore
    have hchunk : chunk ≠ [] := List.ne_nil_of_length_pos
      (h.size chunk (List.mem_append_right _ List.mem_cons_self)).1
    have hfits := h.within chunks chunk [] rfl
    rw [hreads] at hfits
    rw [List.flatten_append, List.flatten_singleton, ← read_readerOf hchunk hfits, ← hreads, reads,
      List.foldl_append]
    rfl

/-- Reads of no more bytes than the largest frame. -/
theorem division_of_length_le {chunks : List Bytes}
    (hsize : ∀ chunk ∈ chunks, 1 ≤ chunk.length ∧ chunk.length ≤ 4096)
    (hlength : chunks.flatten.length ≤ MAX_FRAME_SIZE) : Division chunks.flatten chunks := by
  induction chunks using List.reverseRecOn with
  | nil => exact ⟨rfl, hsize, fun before chunk after h => absurd h (by simp)⟩
  | append_singleton chunks chunk ih =>
    rw [List.flatten_append, List.flatten_singleton, List.length_append] at hlength
    have hbefore := ih (fun c hc => hsize c (List.mem_append_left _ hc)) (by omega)
    refine ⟨rfl, hsize, fun before c after hsplit => ?_⟩
    rcases List.eq_nil_or_concat after with rfl | ⟨after, d, rfl⟩
    · obtain ⟨rfl, hc⟩ := List.append_inj' hsplit rfl
      obtain rfl := (List.cons.inj hc).1
      have hrest : (reads chunks).recvBuffer.length ≤ chunks.flatten.length := by
        rw [hbefore.reads_eq]
        exact StreamParser.length_rest_le _
      exact fun _ => by omega
    · rw [List.concat_eq_append, ← List.cons_append, ← List.append_assoc] at hsplit
      exact hbefore.within before c after (List.append_inj' hsplit rfl).1

/-- **The messages of a stream do not depend on how it is cut into reads.** Any two divisions of a
string lead to the same messages and to the same report of an end, which are the ones of the
consecutive frames of the string. The parser never throws where the reader calls it. -/
theorem reads_independent {data : Bytes} {chunks chunks' : List Bytes}
    (h : Division data chunks) (h' : Division data chunks') :
    (reads chunks).messages = (reads chunks').messages ∧
      (reads chunks).closed = (reads chunks').closed ∧
      (reads chunks).messages = (frameParser.parse data).items ∧
      (reads chunks).closed = (frameParser.parse data).refused ∧
      ∀ recvBuffer, Message.HEADER_SIZE ≤ recvBuffer.length →
        readU32BE recvBuffer = Message.MAGIC_NUMBER →
        (readU32BE (recvBuffer.drop 5)).toNat ≤ Message.MAX_PAYLOAD_SIZE →
        frameSize recvBuffer ≤ recvBuffer.length →
          Message.deserialize (recvBuffer.take (frameSize recvBuffer)) ≠ none := by
  rw [h.reads_eq, h'.reads_eq]
  refine ⟨rfl, rfl, rfl, rfl, fun recvBuffer hlength hmagic hsmall hwhole => ?_⟩
  obtain ⟨msg, hmsg⟩ := exists_deserialize_take hlength
    (fun hbad => hbad.2.elim (fun hne => hne hmagic) (Nat.not_lt.mpr hsmall)) hwhole
  exact hmsg ▸ Option.some_ne_none msg

/-- A frame that arrives at once, and the same frame with a cut in its header. -/
theorem reads_independent_cut :
    (reads [Message.frame ⟨.PING, ascii "x", ascii "n", 0⟩]).messages =
      (reads [(Message.frame ⟨.PING, ascii "x", ascii "n", 0⟩).take 7,
        (Message.frame ⟨.PING, ascii "x", ascii "n", 0⟩).drop 7]).messages :=
  (reads_independent (division_of_length_le (by decide) (by decide))
    (division_of_length_le (by decide) (by decide))).1

end p2p

end BlockchainCrypto
