import BlockchainCrypto.Chain.Histories
import BlockchainCrypto.Network.Frames
import BlockchainCrypto.Network.Serializers

/-!
# Requests for blocks

A peer asks for a range of heights and is sent the blocks in one message, one line for each block
under a line with their number. The encoder of messages does not know the limit on payloads that
both decoding layers enforce, so the reply to a range that is too large closes the connection of
the peer that asked.

## Main definitions

* `p2p.requestedRange`, `p2p.handleGetBlocks`: the reply to a request.
* `p2p.polls`: the results of a sequence of reads.
* `p2p.Readable`: the reader waits for the whole frame and then delivers its payload.

## Main results

* `p2p.readable_iff`: a frame without sender id is readable exactly when its payload is within the
  limit.
* `p2p.blocksReply_readable_iff`: which replies are readable.
-/

namespace BlockchainCrypto

open ByteText

namespace p2p

/-! ### The reply -/

namespace Message

/-- The constructor, which reads the clock; the sender id stays empty. -/
def create (type : MessageType) (payload : Bytes) (now : Int64) : Message :=
  ⟨type, payload, [], now⟩

/-- The request for a range of heights. -/
def createGetBlocks (startHeight endHeight : Int64) (now : Int64) : Message :=
  create .GET_BLOCKS (decimalInt startHeight.toInt ++ [bar] ++ decimalInt endHeight.toInt) now

/-- The answer to a request that cannot be met. -/
def createError (errorMsg : Bytes) (now : Int64) : Message := create .ERROR_MSG errorMsg now

end Message

/-- The two numbers of a request; the second is read into the variable of the first. -/
def readRange : LineReader (Option Int64 × Option Int64) := do
  let token ← getline bar []
  let parsedStart := utils.parseInt64 token
  let token ← getline bar token
  let parsedEnd := utils.parseInt64 token
  pure (parsedStart, parsedEnd)

/-- The first and the last height of a reply, or the text of the error. The size of a vector is
far below `2 ^ 63`, so its cast to `int64_t` is exact. -/
def requestedRange (chainSize : ℕ) (payload : Bytes) : Except Bytes (ℕ × ℕ) :=
  match readRange.run' (some payload) with
  | some (some parsedStart, some parsedEnd) =>
    let startHeight := parsedStart.toInt
    let endHeight := parsedEnd.toInt
    if startHeight < 0 ∨ startHeight ≥ chainSize then .error (ascii "Invalid block range")
    else
      let endHeight :=
        if endHeight < 0 ∨ endHeight ≥ chainSize then (chainSize : ℤ) - 1 else endHeight
      if endHeight < startHeight then .error (ascii "Invalid block range")
      else .ok (startHeight.toNat, endHeight.toNat)
  | _ => .error (ascii "Malformed block range")

/-- The number of blocks, and a line for each block. -/
def blocksPayload (count : ℕ) (blocks : List Block) : Bytes :=
  decimal count ++ blocks.flatMap fun b => newline :: BlockSerializer.serialize b

/-- The blocks from one height to another. -/
def blocksBetween (chain : List Block) (startHeight endHeight : ℕ) : List Block :=
  (chain.drop startHeight).take (endHeight - startHeight + 1)

/-- The message that is sent in reply to a request. -/
def handleGetBlocks (chain : List Block) (payload : Bytes) (now : Int64) : Message :=
  match requestedRange chain.length payload with
  | .error errorMsg => Message.createError errorMsg now
  | .ok (startHeight, endHeight) =>
    Message.create .BLOCKS (blocksPayload (endHeight - startHeight + 1)
      (blocksBetween chain startHeight endHeight)) now

/-! ### Reading a frame -/

/-- The results of a sequence of reads. -/
def polls (recvBuffer : Bytes) : List Bytes → List ReceiveStatus
  | [] => []
  | chunk :: chunks =>
    (pollReceive recvBuffer chunk).1 :: polls (pollReceive recvBuffer chunk).2 chunks

/-- However a frame arrives, alone or with bytes of later frames behind it: the reads before the
last one are waits, and the last one delivers the payload. -/
def Readable (frame payload : Bytes) : Prop :=
  ∀ (chunks : List Bytes) (last rest : Bytes),
    (∀ chunk ∈ chunks ++ [last], 1 ≤ chunk.length ∧ chunk.length ≤ 4096) →
    (chunks ++ [last]).flatten = frame ++ rest → chunks.flatten.length < frame.length →
    ∃ msg, polls [] (chunks ++ [last]) =
      List.replicate chunks.length .incomplete ++ [.message msg] ∧ msg.payload = payload

theorem pollReceive_of_le {recvBuffer chunk : Bytes} (hchunk : chunk ≠ [])
    (hle : (recvBuffer ++ chunk).length ≤ MAX_FRAME_SIZE) :
    pollReceive recvBuffer chunk = extractMessage (recvBuffer ++ chunk) := by
  rw [pollReceive, if_neg hchunk]
  exact if_neg (Nat.not_lt.mpr hle)

/-- A wait keeps the bytes. -/
theorem pollReceive_incomplete {recvBuffer chunk : Bytes}
    (h : (pollReceive recvBuffer chunk).1 = .incomplete) :
    (recvBuffer ++ chunk).length ≤ MAX_FRAME_SIZE ∧
      pollReceive recvBuffer chunk = (.incomplete, recvBuffer ++ chunk) ∧
      (extractMessage (recvBuffer ++ chunk)).1 = .incomplete := by
  unfold pollReceive at h ⊢
  dsimp only at h ⊢
  split_ifs at h ⊢ with hchunk hlarge
  have hbuffer : (extractMessage (recvBuffer ++ chunk)).2 = recvBuffer ++ chunk := by
    revert h
    fun_cases extractMessage (recvBuffer ++ chunk) <;> simp_all
  exact ⟨Nat.not_lt.mp hlarge, Prod.ext h hbuffer, h⟩

section Readable

variable {msg : Message} (h : msg.Framable) (hsender : msg.senderId = [])

include h hsender

/-- A read that starts within the frame does not overfill the buffer: what a sender id may take
up leaves room for the bytes behind the frame. -/
private theorem length_append_le {recvBuffer chunk : Bytes}
    (hlt : recvBuffer.length < msg.frame.length) (hchunk : chunk.length ≤ 4096) :
    (recvBuffer ++ chunk).length ≤ MAX_FRAME_SIZE := by
  have hframe := msg.length_frame
  rw [hsender, List.length_nil, Nat.zero_add] at hframe
  have hpayload := h.payload
  have hroom : Message.HEADER_SIZE + 4096 + Message.MAX_PAYLOAD_SIZE ≤ MAX_FRAME_SIZE := by decide
  rw [List.length_append]
  omega

/-- The reads of a frame from a point within it. -/
theorem polls_frame {recvBuffer : Bytes} {chunks : List Bytes} {last rest : Bytes}
    (hchunks : ∀ chunk ∈ chunks ++ [last], 1 ≤ chunk.length ∧ chunk.length ≤ 4096)
    (hflatten : recvBuffer ++ (chunks ++ [last]).flatten = msg.frame ++ rest)
    (hlt : (recvBuffer ++ chunks.flatten).length < msg.frame.length) :
    polls recvBuffer (chunks ++ [last]) =
      List.replicate chunks.length .incomplete ++ [.message msg] := by
  induction chunks generalizing recvBuffer with
  | nil =>
    obtain ⟨hpos, hle⟩ := hchunks last (by simp)
    have hlt' : recvBuffer.length < msg.frame.length := by simpa using hlt
    have hwhole : recvBuffer ++ last = msg.frame ++ rest := by simpa using hflatten
    rw [List.nil_append, polls, pollReceive_of_le (List.ne_nil_of_length_pos hpos)
      (length_append_le h hsender hlt' hle), hwhole, extractMessage_frame h]
    rfl
  | cons chunk chunks ih =>
    obtain ⟨hpos, hle⟩ := hchunks chunk (by simp)
    rw [List.cons_append, List.flatten_cons, ← List.append_assoc] at hflatten
    rw [List.flatten_cons, ← List.append_assoc] at hlt
    have hshort : (recvBuffer ++ chunk).length < msg.frame.length := by
      rw [List.length_append] at hlt
      omega
    have hpre : recvBuffer ++ chunk <+: msg.frame :=
      List.prefix_of_prefix_length_le ⟨_, hflatten⟩ (List.prefix_append _ _) hshort.le
    have hlt' : recvBuffer.length < msg.frame.length := by
      rw [List.length_append] at hshort
      omega
    rw [List.cons_append, polls, pollReceive_of_le (List.ne_nil_of_length_pos hpos)
      (length_append_le h hsender hlt' hle), extractMessage_of_prefix h hpre hshort,
      ih (fun c hc => hchunks c (List.mem_cons_of_mem _ hc)) hflatten hlt]
    rfl

end Readable

/-- While waiting, the buffer collects what is read. -/
theorem polls_incomplete {recvBuffer : Bytes} {before after : List Bytes} {chunk : Bytes} {n : ℕ}
    {statuses : List ReceiveStatus}
    (h : polls recvBuffer (before ++ chunk :: after) = List.replicate n .incomplete ++ statuses)
    (hn : before.length < n) :
    (recvBuffer ++ before.flatten ++ chunk).length ≤ MAX_FRAME_SIZE ∧
      (extractMessage (recvBuffer ++ before.flatten ++ chunk)).1 = .incomplete := by
  obtain ⟨n, rfl⟩ : ∃ m, n = m + 1 := ⟨n - 1, by omega⟩
  rw [List.replicate_succ] at h
  induction before generalizing recvBuffer n with
  | nil =>
    rw [List.nil_append, polls, List.cons_append] at h
    rw [List.flatten_nil, List.append_nil]
    obtain ⟨hle, -, hextract⟩ := pollReceive_incomplete (List.cons.inj h).1
    exact ⟨hle, hextract⟩
  | cons first before ih =>
    rw [List.cons_append, polls, List.cons_append] at h
    obtain ⟨hfirst, hrest⟩ := List.cons.inj h
    rw [(pollReceive_incomplete hfirst).2.1] at hrest
    obtain ⟨n, rfl⟩ : ∃ m, n = m + 1 := ⟨n - 1, by rw [List.length_cons] at hn; omega⟩
    rw [List.replicate_succ] at hrest
    rw [List.flatten_cons, ← List.append_assoc]
    exact ih n hrest (by rw [List.length_cons] at hn; omega)

private theorem flatten_bytes (s : Bytes) : (s.map fun b => [b]).flatten = s := by
  rw [← List.flatMap_def, List.flatMap_singleton']

/-- Bytes that arrive one by one: a readable frame is waited for until its last byte. -/
theorem Readable.extractMessage_eq_incomplete {frame payload p q : Bytes}
    (h : Readable frame payload) (hframe : frame = p ++ q) (hp : p ≠ []) (hq : q ≠ []) :
    (extractMessage p).1 = .incomplete := by
  obtain ⟨before, x, rfl⟩ : ∃ before x, p = before ++ [x] :=
    ⟨_, _, (List.dropLast_append_getLast hp).symm⟩
  obtain ⟨middle, y, rfl⟩ : ∃ middle y, q = middle ++ [y] :=
    ⟨_, _, (List.dropLast_append_getLast hq).symm⟩
  let bytes (s : Bytes) : List Bytes := s.map fun b => [b]
  have hbytes (s : Bytes) : (bytes s).flatten = s := flatten_bytes s
  have hlengths : ∀ chunk ∈ bytes before ++ [x] :: bytes middle ++ [[y]],
      1 ≤ chunk.length ∧ chunk.length ≤ 4096 := by
    intro chunk hchunk
    have hone : chunk.length = 1 := by
      simp only [bytes, List.mem_append, List.mem_cons, List.mem_map, List.not_mem_nil,
        or_false] at hchunk
      rcases hchunk with (⟨b, -, rfl⟩ | rfl | ⟨b, -, rfl⟩) | rfl
      · rfl
      · rfl
      · rfl
      · rfl
    omega
  obtain ⟨msg, hpolls, -⟩ := h (bytes before ++ [x] :: bytes middle) [y] [] hlengths
    (by simp [hframe, hbytes]) (by
      rw [hframe, List.flatten_append, List.flatten_cons, hbytes, hbytes]
      simp)
  have hcount : (bytes before).length < (bytes before ++ [x] :: bytes middle).length := by
    simp
  rw [List.append_assoc] at hpolls
  have hextract := (polls_incomplete hpolls hcount).2
  rwa [List.nil_append, hbytes] at hextract

/-- A frame without sender id is readable exactly when its payload is within the limit. A longer
payload is refused at its header, or cut off where its length wraps around. -/
theorem readable_iff {msg : Message} (hsender : msg.senderId = []) :
    Readable msg.frame msg.payload ↔ msg.payload.length ≤ Message.MAX_PAYLOAD_SIZE := by
  constructor
  · intro h
    by_contra hlarge
    let len := UInt32.ofNat msg.payload.length
    have hframe : msg.frame = Message.header msg.type len msg.timestamp 0 ++ msg.payload := by
      rw [Message.frame, hsender]
      rfl
    have hheader : Message.header msg.type len msg.timestamp 0 ≠ [] :=
      List.ne_nil_of_length_pos (by rw [Message.length_header]; decide)
    by_cases hlen : len.toNat > Message.MAX_PAYLOAD_SIZE
    · have hpayload : msg.payload ≠ [] := List.ne_nil_of_length_pos (by omega)
      have hwait := h.extractMessage_eq_incomplete hframe hheader hpayload
      rw [← List.append_nil (Message.header msg.type len msg.timestamp 0), extractMessage_header,
        if_pos hlen] at hwait
      cases hwait
    · have hshort : (msg.payload.take len.toNat).length = len.toNat := by
        rw [List.length_take]
        omega
      have hrest : msg.payload.drop len.toNat ≠ [] :=
        List.ne_nil_of_length_pos (by rw [List.length_drop]; omega)
      have hwait := h.extractMessage_eq_incomplete
        (p := Message.header msg.type len msg.timestamp 0 ++ msg.payload.take len.toNat)
        (by rw [hframe, List.append_assoc, List.take_append_drop]) (by simp [hheader]) hrest
      rw [extractMessage_header, if_neg hlen, hshort, if_neg (by simp)] at hwait
      cases hwait
  · intro hle chunks last rest hchunks hflatten hlt
    have hframable : msg.Framable := ⟨by simp [hsender], hle⟩
    exact ⟨msg, polls_frame hframable hsender hchunks hflatten hlt, rfl⟩

/-- The length of a reply: the digits of the number of blocks, and the lines of the blocks. -/
theorem length_blocksPayload (count : ℕ) (blocks : List Block) :
    (blocksPayload count blocks).length = (decimal count).length +
      (blocks.map fun b => 1 + (BlockSerializer.serialize b).length).sum := by
  rw [blocksPayload, List.length_append, List.length_flatMap]
  simp [Nat.add_comm]

/-- A reply with blocks is readable exactly when the number of blocks and the lines of the blocks
together are within the limit on payloads. -/
theorem blocksReply_readable_iff {chain : List Block} {payload : Bytes} {startHeight endHeight : ℕ}
    (h : requestedRange chain.length payload = .ok (startHeight, endHeight)) (now : Int64) :
    ∃ frame, (handleGetBlocks chain payload now).serialize = some frame ∧
      (Readable frame (handleGetBlocks chain payload now).payload ↔
        (decimal (endHeight - startHeight + 1)).length +
          ((blocksBetween chain startHeight endHeight).map fun b =>
            1 + (BlockSerializer.serialize b).length).sum ≤ Message.MAX_PAYLOAD_SIZE) := by
  have hreply : handleGetBlocks chain payload now =
      Message.create .BLOCKS (blocksPayload (endHeight - startHeight + 1)
        (blocksBetween chain startHeight endHeight)) now := by
    rw [handleGetBlocks, h]
  rw [hreply, ← length_blocksPayload]
  exact ⟨_, Message.serialize_eq_some (Nat.zero_le _), readable_iff rfl⟩

/-- A chain of one small block is sent readably. -/
theorem blocksReply_readable_small :
    let chain : List Block := [⟨0, 0, [], ascii "0", ascii "1", 0, 1, ascii "2"⟩]
    ∃ frame, (handleGetBlocks chain (ascii "0|-1") 0).serialize = some frame ∧
      Readable frame (handleGetBlocks chain (ascii "0|-1") 0).payload := by
  intro chain
  have hrange : requestedRange chain.length (ascii "0|-1") = .ok (0, 0) := by decide
  obtain ⟨frame, hframe, hiff⟩ := blocksReply_readable_iff hrange 0
  exact ⟨frame, hframe, hiff.mpr (by decide)⟩

/-! ### A reply that is too long -/

private theorem length_le_intercalate {sep f : Bytes} {fs : List Bytes} (h : f ∈ fs) :
    f.length ≤ (List.intercalate sep fs).length := by
  induction fs with
  | nil => cases h
  | cons g fs ih =>
    rcases eq_or_ne fs [] with rfl | hne
    · simp [List.mem_singleton.mp h]
    · rw [List.intercalate_cons_of_ne_nil hne, List.length_append, List.length_append]
      rcases List.mem_cons.mp h with rfl | h
      · omega
      · have := ih h
        omega

/-- A block takes up at least the bytes of the addresses it pays. -/
theorem length_receiver_le_serialize {b : Block} {tx : Transaction} (h : tx ∈ b.transactions) :
    tx.receiver.length ≤ (BlockSerializer.serialize b).length := by
  have hrecord : tx.receiver.length ≤ (BlockSerializer.record tx).length :=
    length_le_intercalate (by simp [transactionFields])
  refine hrecord.trans (length_le_intercalate ?_)
  exact List.mem_append_right _ (List.mem_map_of_mem h)

theorem long_address_unreadable {address : Bytes}
    (hlength : address.length = Message.MAX_PAYLOAD_SIZE) :
    (Blockchain.node 0 (money.coins 50)).Reachable Blockchain.NoLoad
        (Blockchain.firstMined address 0 0) ∧
      ∃ frame,
        (handleGetBlocks (Blockchain.firstMined address 0 0).chain (ascii "1|1") 0).serialize =
          some frame ∧
        ¬ Readable frame
          (handleGetBlocks (Blockchain.firstMined address 0 0).chain (ascii "1|1") 0).payload := by
  have hreward : (Blockchain.rewardTo address 0).isValid = true := by
    have hamount : money.isValidAmount (Blockchain.rewardTo address 0).amount = true := by
      change money.isValidAmount (money.coins 50) = true
      decide
    refine (Transaction.isValid_system_iff rfl).mpr ⟨fun h => ?_, hamount, fun h => ?_⟩
    · rw [show address = [] from h] at hlength
      exact absurd hlength (by decide)
    · rw [show address = Transaction.system from h] at hlength
      exact absurd hlength (by decide)
  have hrange : requestedRange (Blockchain.firstMined address 0 0).chain.length (ascii "1|1") =
      .ok (1, 1) := by
    change requestedRange 2 (ascii "1|1") = _
    decide
  have hreply : handleGetBlocks (Blockchain.firstMined address 0 0).chain (ascii "1|1") 0 =
      Message.create .BLOCKS (blocksPayload 1
        (blocksBetween (Blockchain.firstMined address 0 0).chain 1 1)) 0 := by
    rw [handleGetBlocks, hrange]
  rw [hreply]
  refine ⟨Blockchain.reachable_firstMined trivial hreward, _,
    Message.serialize_eq_some (Nat.zero_le _), fun hreadable => ?_⟩
  have hle := (readable_iff rfl).mp hreadable
  have hreceiver := length_receiver_le_serialize
    (b := Blockchain.assemble (Blockchain.fresh (money.coins 50) 0).chain 0
      [Blockchain.rewardTo address 0]) (List.mem_singleton_self _)
  have hpayload := length_blocksPayload 1 [Blockchain.assemble
    (Blockchain.fresh (money.coins 50) 0).chain 0 [Blockchain.rewardTo address 0]]
  change address.length ≤ _ at hreceiver
  change (blocksPayload 1 [Blockchain.assemble (Blockchain.fresh (money.coins 50) 0).chain 0
    [Blockchain.rewardTo address 0]]).length ≤ _ at hle
  rw [List.map_singleton, List.sum_singleton] at hpayload
  omega

/-- A node whose first reward went to an address of ten mebibytes sends the block of that reward in
a message that cannot be read. -/
theorem large_reply_unreadable :
    let s := Blockchain.firstMined (List.replicate Message.MAX_PAYLOAD_SIZE 97) 0 0
    (Blockchain.node 0 (money.coins 50)).Reachable Blockchain.NoLoad s ∧
      ∃ frame, (handleGetBlocks s.chain (ascii "1|1") 0).serialize = some frame ∧
        ¬ Readable frame (handleGetBlocks s.chain (ascii "1|1") 0).payload :=
  long_address_unreadable List.length_replicate

end p2p

end BlockchainCrypto
