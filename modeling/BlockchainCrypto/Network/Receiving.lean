import BlockchainCrypto.Network.Frames
import Mathlib.Data.List.Infix

/-!
# Receiving from one peer

One round of the loop in `receiveMessages` makes one read of a peer's socket and then hands over
the messages it finds in the buffer, at most 32 of them. The thirty-third is taken from the buffer
before the loop notices that its rounds are up, and goes nowhere.

## Main definitions

* `p2p.Peer`: the reader of a peer, with the logs of what it took from its buffer and of what it
  handed over.
* `p2p.receiveRound`, `p2p.receiveMessages`: one round and a run.
* `p2p.wholeFrames`: how many frames lie within a number of bytes of the stream.

## Main results

* `p2p.drain_of_le`, `p2p.drain_of_lt`: what the loop does with the frames in the buffer.
* `p2p.receives_all_iff`: nothing is lost exactly when no read completes more than 32 frames.
-/

namespace BlockchainCrypto

open ByteText

namespace p2p

/-! ### The loop over the sockets -/

/-- The messages of one peer that a round of the receiver takes. -/
def MAX_MESSAGES_PER_ROUND : ℕ := 32

/-- A peer as its reader sees it. A peer whose socket is closed is not connected. -/
structure Peer where
  recvBuffer : Bytes := []
  connected : Bool := true
  /-- the messages that `extractMessage` took from the buffer -/
  removed : List Message := []
  /-- the messages that were passed to `handleMessage` -/
  handled : List Message := []

/-- The message that a step of the reader stores in its argument. -/
def ReceiveStatus.messages : ReceiveStatus → List Message
  | message msg => [msg]
  | incomplete => []
  | closed => []

namespace Peer

/-- A step of the reader, with its message logged. -/
def extract (peer : Peer) (result : ReceiveStatus × Bytes) : ReceiveStatus × Peer :=
  (result.1, { peer with recvBuffer := result.2, removed := peer.removed ++ result.1.messages })

/-- A read, and the first message that the buffer then holds. -/
def pollReceive (peer : Peer) (chunk : Bytes) : ReceiveStatus × Peer :=
  if peer.connected then peer.extract (p2p.pollReceive peer.recvBuffer chunk) else (.closed, peer)

/-- The next message of the buffer. -/
def nextBufferedMessage (peer : Peer) : ReceiveStatus × Peer :=
  if peer.connected then peer.extract (extractMessage peer.recvBuffer) else (.closed, peer)

/-- A handler that neither throws nor removes the peer. -/
def handleMessage (peer : Peer) (msg : Message) : Peer :=
  { peer with handled := peer.handled ++ [msg] }

end Peer

/-- The loop over the messages that one read made available, with the number of rounds that are
left to it. -/
def drain : ℕ → ReceiveStatus × Peer → ReceiveStatus × Peer
  | rounds + 1, (.message msg, peer) => drain rounds (peer.handleMessage msg).nextBufferedMessage
  | _, result => result

/-- The part of `receiveMessages` for one readable peer. -/
def receiveRound (peer : Peer) (chunk : Bytes) : Peer :=
  if peer.connected then
    let (status, peer) := drain MAX_MESSAGES_PER_ROUND (peer.pollReceive chunk)
    if status = .closed then { peer with connected := false } else peer
  else peer

/-- The rounds for the reads of one peer. -/
def receiveMessages (chunks : List Bytes) : Peer := chunks.foldl receiveRound {}

/-! ### The stream -/

/-- The bytes of a list of messages. -/
def stream (sent : List Message) : Bytes := sent.flatMap Message.frame

/-- How many of the frames lie within the first `n` bytes of the stream. -/
def wholeFrames : List Message → ℕ → ℕ
  | [], _ => 0
  | msg :: sent, n =>
    if msg.frame.length ≤ n then wholeFrames sent (n - msg.frame.length) + 1 else 0

/-- The bytes of these frames. -/
def consumed (sent : List Message) (n : ℕ) : ℕ := (stream (sent.take (wholeFrames sent n))).length

@[simp] theorem stream_nil : stream [] = [] := rfl

@[simp] theorem stream_cons (msg : Message) (sent : List Message) :
    stream (msg :: sent) = msg.frame ++ stream sent := rfl

theorem stream_take_append_drop (sent : List Message) (k : ℕ) :
    stream (sent.take k) ++ stream (sent.drop k) = stream sent := by
  rw [stream, stream, ← List.flatMap_append, List.take_append_drop, stream]

theorem wholeFrames_cons_of_le {msg : Message} {n : ℕ} (h : msg.frame.length ≤ n)
    (sent : List Message) :
    wholeFrames (msg :: sent) n = wholeFrames sent (n - msg.frame.length) + 1 := if_pos h

theorem wholeFrames_cons_of_lt {msg : Message} {n : ℕ} (h : n < msg.frame.length)
    (sent : List Message) : wholeFrames (msg :: sent) n = 0 := if_neg (Nat.not_le.mpr h)

theorem consumed_cons_of_le {msg : Message} {n : ℕ} (h : msg.frame.length ≤ n)
    (sent : List Message) :
    consumed (msg :: sent) n = msg.frame.length + consumed sent (n - msg.frame.length) := by
  rw [consumed, wholeFrames_cons_of_le h, List.take_succ_cons, stream_cons, List.length_append,
    consumed]

theorem consumed_cons_of_lt {msg : Message} {n : ℕ} (h : n < msg.frame.length)
    (sent : List Message) : consumed (msg :: sent) n = 0 := by
  rw [consumed, wholeFrames_cons_of_lt h, List.take_zero, stream_nil, List.length_nil]

theorem consumed_le (sent : List Message) (n : ℕ) : consumed sent n ≤ n := by
  induction sent generalizing n with
  | nil => exact Nat.zero_le n
  | cons msg sent ih =>
    rcases Nat.lt_or_ge n msg.frame.length with h | h
    · rw [consumed_cons_of_lt h]
      exact Nat.zero_le n
    · have hsent := ih (n - msg.frame.length)
      rw [consumed_cons_of_le h]
      omega

theorem wholeFrames_le (sent : List Message) (n : ℕ) : wholeFrames sent n ≤ sent.length := by
  induction sent generalizing n with
  | nil => exact le_rfl
  | cons msg sent ih =>
    rcases Nat.lt_or_ge n msg.frame.length with h | h
    · rw [wholeFrames_cons_of_lt h]
      exact Nat.zero_le _
    · rw [wholeFrames_cons_of_le h]
      exact Nat.succ_le_succ (ih _)

/-- The frames within more bytes are those within fewer and those among the rest. -/
theorem wholeFrames_of_le (sent : List Message) {n n' : ℕ} (h : n ≤ n') :
    wholeFrames sent n' = wholeFrames sent n +
      wholeFrames (sent.drop (wholeFrames sent n)) (n' - consumed sent n) := by
  induction sent generalizing n n' with
  | nil => rfl
  | cons msg sent ih =>
    rcases Nat.lt_or_ge n msg.frame.length with hn | hn
    · rw [consumed_cons_of_lt hn, wholeFrames_cons_of_lt hn, List.drop_zero, Nat.zero_add,
        Nat.sub_zero]
    · rw [consumed_cons_of_le hn, wholeFrames_cons_of_le hn, wholeFrames_cons_of_le (hn.trans h),
        List.drop_succ_cons, ih (Nat.sub_le_sub_right h _), Nat.sub_sub, Nat.add_right_comm]

/-- The bytes of the frames within more bytes, likewise. -/
theorem consumed_of_le (sent : List Message) {n n' : ℕ} (h : n ≤ n') :
    consumed sent n' = consumed sent n +
      consumed (sent.drop (wholeFrames sent n)) (n' - consumed sent n) := by
  induction sent generalizing n n' with
  | nil => rfl
  | cons msg sent ih =>
    rcases Nat.lt_or_ge n msg.frame.length with hn | hn
    · rw [consumed_cons_of_lt hn, wholeFrames_cons_of_lt hn, List.drop_zero, Nat.zero_add,
        Nat.sub_zero]
    · rw [consumed_cons_of_le hn, wholeFrames_cons_of_le hn, consumed_cons_of_le (hn.trans h),
        List.drop_succ_cons, ih (Nat.sub_le_sub_right h _), Nat.sub_sub, Nat.add_assoc]

/-! ### One round -/

namespace Peer

variable {peer : Peer} (hpeer : peer.connected = true) {sent : List Message}
  (hsent : ∀ msg ∈ sent, msg.Framable)

include hpeer

theorem pollReceive_of_le {chunk : Bytes} (hchunk : chunk ≠ [])
    (hle : (peer.recvBuffer ++ chunk).length ≤ MAX_FRAME_SIZE) :
    peer.pollReceive chunk =
      nextBufferedMessage { peer with recvBuffer := peer.recvBuffer ++ chunk } := by
  rw [pollReceive, nextBufferedMessage, if_pos hpeer, if_pos hpeer, p2p.pollReceive, if_neg hchunk]
  simp only [if_neg (Nat.not_lt.mpr hle)]
  rfl

/-- A read that overfills the buffer closes the connection. -/
theorem pollReceive_of_lt {chunk : Bytes} (hchunk : chunk ≠ [])
    (hlt : MAX_FRAME_SIZE < (peer.recvBuffer ++ chunk).length) :
    peer.pollReceive chunk = (.closed, { peer with recvBuffer := peer.recvBuffer ++ chunk }) := by
  rw [pollReceive, if_pos hpeer, p2p.pollReceive, if_neg hchunk]
  simp only [if_pos hlt, extract, ReceiveStatus.messages, List.append_nil]

theorem nextBufferedMessage_frame {msg : Message} (h : msg.Framable) {rest : Bytes}
    (hbuffer : peer.recvBuffer = msg.frame ++ rest) :
    peer.nextBufferedMessage =
      (.message msg, { peer with recvBuffer := rest, removed := peer.removed ++ [msg] }) := by
  rw [nextBufferedMessage, if_pos hpeer, hbuffer, extractMessage_frame h, extract]
  rfl

include hsent

/-- Without a whole frame in front, the loop ends at once. -/
theorem nextBufferedMessage_of_wholeFrames_eq_zero (hbuffer : peer.recvBuffer <+: stream sent)
    (hzero : wholeFrames sent peer.recvBuffer.length = 0) :
    peer.nextBufferedMessage = (.incomplete, peer) := by
  have hextract : extractMessage peer.recvBuffer = (.incomplete, peer.recvBuffer) := by
    cases sent with
    | nil => rw [List.prefix_nil.mp hbuffer]; rfl
    | cons msg sent =>
      have hlt : peer.recvBuffer.length < msg.frame.length := by
        by_contra hge
        rw [wholeFrames_cons_of_le (Nat.not_lt.mp hge)] at hzero
        exact Nat.succ_ne_zero _ hzero
      exact extractMessage_of_prefix (hsent msg List.mem_cons_self)
        (List.prefix_of_prefix_length_le hbuffer (List.prefix_append _ _) hlt.le) hlt
  rw [nextBufferedMessage, if_pos hpeer, hextract]
  simp [extract, ReceiveStatus.messages]

end Peer

section Drain

variable {peer : Peer} (hpeer : peer.connected = true) {sent : List Message}
  (hsent : ∀ msg ∈ sent, msg.Framable) (hbuffer : peer.recvBuffer <+: stream sent) (rounds : ℕ)

/-- A buffer with a whole frame in front. -/
private theorem eq_frame_append {recvBuffer : Bytes} {msg : Message} {sent : List Message}
    (hbuffer : recvBuffer <+: stream (msg :: sent)) (hle : msg.frame.length ≤ recvBuffer.length) :
    ∃ rest, recvBuffer = msg.frame ++ rest ∧ rest <+: stream sent ∧
      rest.length = recvBuffer.length - msg.frame.length := by
  obtain ⟨rest, rfl⟩ := List.prefix_of_prefix_length_le (List.prefix_append _ _) hbuffer hle
  refine ⟨rest, rfl, (List.prefix_append_right_inj _).mp hbuffer, ?_⟩
  rw [List.length_append, Nat.add_sub_cancel_left]

include hpeer hsent hbuffer

/-- With rounds for all frames in the buffer, every frame that is taken is handed over. -/
theorem drain_of_le (hle : wholeFrames sent peer.recvBuffer.length ≤ rounds) :
    drain rounds peer.nextBufferedMessage =
      (.incomplete,
        { peer with
          recvBuffer := peer.recvBuffer.drop (consumed sent peer.recvBuffer.length)
          removed := peer.removed ++ sent.take (wholeFrames sent peer.recvBuffer.length)
          handled := peer.handled ++ sent.take (wholeFrames sent peer.recvBuffer.length) }) := by
  induction sent generalizing peer rounds with
  | nil =>
    rw [peer.nextBufferedMessage_of_wholeFrames_eq_zero hpeer hsent hbuffer rfl]
    simp [drain, consumed, wholeFrames]
  | cons msg sent ih =>
    rcases Nat.lt_or_ge peer.recvBuffer.length msg.frame.length with hlt | hge
    · have hzero := wholeFrames_cons_of_lt hlt sent
      rw [peer.nextBufferedMessage_of_wholeFrames_eq_zero hpeer hsent hbuffer hzero, hzero,
        consumed_cons_of_lt hlt]
      simp [drain]
    · obtain ⟨rest, hrest, hpre, hlength⟩ := eq_frame_append hbuffer hge
      have hcount := wholeFrames_cons_of_le hge sent
      rw [hcount] at hle ⊢
      obtain ⟨rounds, rfl⟩ : ∃ left, rounds = left + 1 := ⟨rounds - 1, by omega⟩
      have hrun := @ih (Peer.handleMessage
          { peer with recvBuffer := rest, removed := peer.removed ++ [msg] } msg) hpeer
        (fun m hm => hsent m (List.mem_cons_of_mem _ hm)) hpre rounds
        (by simpa [Peer.handleMessage, hlength] using hle)
      rw [peer.nextBufferedMessage_frame hpeer (hsent msg List.mem_cons_self) hrest, drain, hrun,
        consumed_cons_of_le hge]
      simp only [Peer.handleMessage, hlength, hrest, List.drop_length_add_append,
        List.take_succ_cons, List.append_assoc, List.singleton_append]

/-- With fewer rounds, one frame is taken that is not handed over. -/
theorem drain_of_lt (hlt : rounds < wholeFrames sent peer.recvBuffer.length) :
    (drain rounds peer.nextBufferedMessage).2.handled = peer.handled ++ sent.take rounds ∧
      (drain rounds peer.nextBufferedMessage).2.removed =
        peer.removed ++ sent.take (rounds + 1) := by
  induction sent generalizing peer rounds with
  | nil => exact absurd hlt (Nat.not_lt_zero _)
  | cons msg sent ih =>
    have hge : msg.frame.length ≤ peer.recvBuffer.length := by
      by_contra hshort
      rw [wholeFrames_cons_of_lt (Nat.not_le.mp hshort)] at hlt
      exact Nat.not_lt_zero _ hlt
    obtain ⟨rest, hrest, hpre, hlength⟩ := eq_frame_append hbuffer hge
    rw [wholeFrames_cons_of_le hge] at hlt
    rw [peer.nextBufferedMessage_frame hpeer (hsent msg List.mem_cons_self) hrest]
    cases rounds with
    | zero => simp [drain]
    | succ rounds =>
      obtain ⟨hhandled, hremoved⟩ := @ih (Peer.handleMessage
          { peer with recvBuffer := rest, removed := peer.removed ++ [msg] } msg) hpeer
        (fun m hm => hsent m (List.mem_cons_of_mem _ hm)) hpre rounds
        (by simpa [Peer.handleMessage, hlength] using hlt)
      rw [drain, hhandled, hremoved]
      simp [Peer.handleMessage]

end Drain

/-- The logs after a round are those after its loop. -/
theorem receiveRound_logs {peer : Peer} (hpeer : peer.connected = true) (chunk : Bytes) :
    (receiveRound peer chunk).handled =
        (drain MAX_MESSAGES_PER_ROUND (peer.pollReceive chunk)).2.handled ∧
      (receiveRound peer chunk).removed =
        (drain MAX_MESSAGES_PER_ROUND (peer.pollReceive chunk)).2.removed := by
  rw [receiveRound, if_pos hpeer]
  dsimp only
  split_ifs
  · exact ⟨rfl, rfl⟩
  · exact ⟨rfl, rfl⟩

/-- The reader after `n` bytes of the stream, when nothing has been lost so far. -/
structure Peer.UpTo (sent : List Message) (n : ℕ) (peer : Peer) : Prop where
  connected : peer.connected = true
  recvBuffer : peer.recvBuffer = ((stream sent).take n).drop (consumed sent n)
  removed : peer.removed = sent.take (wholeFrames sent n)
  handled : peer.handled = sent.take (wholeFrames sent n)

theorem Peer.upTo_zero {sent : List Message} (hsent : ∀ msg ∈ sent, msg.Framable) :
    Peer.UpTo sent 0 {} := by
  have hzero : wholeFrames sent 0 = 0 := by
    cases sent with
    | nil => rfl
    | cons msg sent =>
      refine wholeFrames_cons_of_lt ?_ sent
      rw [Message.length_frame, Message.HEADER_SIZE]
      omega
  constructor <;> simp [hzero]

section Round

variable {sent : List Message} {n : ℕ} {peer : Peer} (h : peer.UpTo sent n)
  {chunk : Bytes} (hchunk : chunk ≠ [])
  (hstream : (stream sent).take n ++ chunk = (stream sent).take (n + chunk.length))
  (hlength : n + chunk.length ≤ (stream sent).length)

include h hstream hlength

/-- The buffer after the read: the started frame and the bytes that came after it. -/
private theorem Peer.UpTo.append :
    peer.recvBuffer ++ chunk =
        ((stream sent).take (n + chunk.length)).drop (consumed sent n) ∧
      peer.recvBuffer ++ chunk <+: stream (sent.drop (wholeFrames sent n)) ∧
      (peer.recvBuffer ++ chunk).length = n + chunk.length - consumed sent n := by
  have hle := consumed_le sent n
  have hbuffer : peer.recvBuffer ++ chunk =
      ((stream sent).take (n + chunk.length)).drop (consumed sent n) := by
    rw [h.recvBuffer, ← hstream, List.drop_append_of_le_length]
    rw [List.length_take]
    omega
  have hrest : (stream sent).drop (consumed sent n) =
      stream (sent.drop (wholeFrames sent n)) := by
    rw [← stream_take_append_drop sent (wholeFrames sent n), consumed, List.drop_left]
  refine ⟨hbuffer, ?_, ?_⟩
  · rw [hbuffer, ← hrest]
    exact List.IsPrefix.drop (List.take_prefix _ _) _
  · rw [hbuffer, List.length_drop, List.length_take_of_le hlength]

variable (hsent : ∀ msg ∈ sent, msg.Framable)

include hchunk

/-- A read that overfills the buffer ends the connection and takes nothing. -/
theorem receiveRound_of_overfull
    (hlarge : consumed sent n + MAX_FRAME_SIZE < n + chunk.length) :
    (receiveRound peer chunk).connected = false ∧
      (receiveRound peer chunk).removed = peer.removed ∧
      (receiveRound peer chunk).handled = peer.handled := by
  have hover : MAX_FRAME_SIZE < (peer.recvBuffer ++ chunk).length := by
    rw [(h.append hstream hlength).2.2]
    omega
  rw [receiveRound, if_pos h.connected, Peer.pollReceive_of_lt h.connected hchunk hover]
  exact ⟨rfl, rfl, rfl⟩

include hsent

variable (hfits : n + chunk.length ≤ consumed sent n + MAX_FRAME_SIZE)

include hfits

/-- A read that completes at most 32 frames. -/
theorem receiveRound_of_le
    (hfew : wholeFrames sent (n + chunk.length) ≤ wholeFrames sent n + MAX_MESSAGES_PER_ROUND) :
    (receiveRound peer chunk).UpTo sent (n + chunk.length) := by
  obtain ⟨hbuffer, hpre, hsize⟩ := h.append hstream hlength
  have hrest : ∀ msg ∈ sent.drop (wholeFrames sent n), msg.Framable :=
    fun msg hmsg => hsent msg (List.mem_of_mem_drop hmsg)
  have hcount := wholeFrames_of_le sent (Nat.le_add_right n chunk.length)
  have hconnected : { peer with recvBuffer := peer.recvBuffer ++ chunk }.connected = true :=
    h.connected
  have hdrain := drain_of_le hconnected hrest hpre MAX_MESSAGES_PER_ROUND (by rw [hsize]; omega)
  rw [receiveRound, if_pos h.connected, Peer.pollReceive_of_le h.connected hchunk (by omega),
    hdrain, hsize]
  refine ⟨h.connected, ?_, ?_, ?_⟩
  · rw [consumed_of_le sent (Nat.le_add_right n chunk.length), ← List.drop_drop, ← hbuffer]
    rfl
  · rw [hcount, List.take_add, ← h.removed]
    rfl
  · rw [hcount, List.take_add, ← h.handled]
    rfl

/-- A read that completes more: the frame after the first 32 is taken and not handed over. -/
theorem receiveRound_of_lt
    (hmany : wholeFrames sent n + MAX_MESSAGES_PER_ROUND < wholeFrames sent (n + chunk.length)) :
    (receiveRound peer chunk).handled =
        sent.take (wholeFrames sent n + MAX_MESSAGES_PER_ROUND) ∧
      (receiveRound peer chunk).removed =
        sent.take (wholeFrames sent n + (MAX_MESSAGES_PER_ROUND + 1)) := by
  obtain ⟨-, hpre, hsize⟩ := h.append hstream hlength
  have hrest : ∀ msg ∈ sent.drop (wholeFrames sent n), msg.Framable :=
    fun msg hmsg => hsent msg (List.mem_of_mem_drop hmsg)
  have hcount := wholeFrames_of_le sent (Nat.le_add_right n chunk.length)
  have hconnected : { peer with recvBuffer := peer.recvBuffer ++ chunk }.connected = true :=
    h.connected
  have hdrain := drain_of_lt hconnected hrest hpre MAX_MESSAGES_PER_ROUND (by rw [hsize]; omega)
  rw [← Peer.pollReceive_of_le h.connected hchunk (by omega)] at hdrain
  obtain ⟨hhandled, hremoved⟩ := receiveRound_logs h.connected chunk
  rw [hhandled, hremoved, hdrain.1, hdrain.2, h.handled, h.removed, ← List.take_add,
    ← List.take_add]
  exact ⟨rfl, rfl⟩

end Round

/-! ### Runs -/

section Run

variable {sent : List Message} (hsent : ∀ msg ∈ sent, msg.Framable) {chunks : List Bytes}

/-- The number of bytes that the first `i` reads return. -/
def arrived (chunks : List Bytes) (i : ℕ) : ℕ := (chunks.take i).flatten.length

/-- Every message taken from the buffer has been handed over, in the order in which they were
sent. -/
def NothingLost (sent : List Message) (peer : Peer) : Prop :=
  peer.handled = peer.removed ∧ peer.handled <+: sent

/-- The reads up to the `i`-th leave no more than a frame of the largest size in the buffer. -/
def Fits (sent : List Message) (chunks : List Bytes) (i : ℕ) : Prop :=
  arrived chunks (i + 1) ≤ consumed sent (arrived chunks i) + MAX_FRAME_SIZE

/-- The `i`-th read completes no more frames than one round hands over. -/
def Drains (sent : List Message) (chunks : List Bytes) (i : ℕ) : Prop :=
  wholeFrames sent (arrived chunks (i + 1)) ≤
    wholeFrames sent (arrived chunks i) + MAX_MESSAGES_PER_ROUND

theorem receiveMessages_take_succ {i : ℕ} (hi : i < chunks.length) :
    receiveMessages (chunks.take (i + 1)) =
      receiveRound (receiveMessages (chunks.take i)) chunks[i] := by
  rw [receiveMessages, List.take_succ_eq_append_getElem hi, List.foldl_append]
  rfl

theorem arrived_succ {i : ℕ} (hi : i < chunks.length) :
    arrived chunks (i + 1) = arrived chunks i + chunks[i].length := by
  rw [arrived, List.take_succ_eq_append_getElem hi, List.flatten_append, List.flatten_singleton,
    List.length_append, arrived]

variable (hchunks : ∀ chunk ∈ chunks, 1 ≤ chunk.length ∧ chunk.length ≤ 4096)
  (hstream : chunks.flatten <+: stream sent)

include hstream in
/-- A read continues the stream. -/
private theorem take_append_chunk {i : ℕ} (hi : i < chunks.length) :
    (stream sent).take (arrived chunks i) ++ chunks[i] =
        (stream sent).take (arrived chunks i + chunks[i].length) ∧
      arrived chunks i + chunks[i].length ≤ (stream sent).length := by
  have hpre (k : ℕ) : (chunks.take k).flatten <+: stream sent :=
    (List.IsPrefix.flatten (List.take_prefix k chunks)).trans hstream
  have htake (k : ℕ) : (stream sent).take (arrived chunks k) = (chunks.take k).flatten :=
    (List.prefix_iff_eq_take.mp (hpre k)).symm
  have hlength := (hpre (i + 1)).length_le
  rw [← arrived_succ hi]
  refine ⟨?_, hlength⟩
  rw [htake, htake, List.take_succ_eq_append_getElem hi, List.flatten_append,
    List.flatten_singleton]

theorem Peer.UpTo.nothingLost {n : ℕ} {peer : Peer} (h : peer.UpTo sent n) :
    NothingLost sent peer := by
  refine ⟨h.handled.trans h.removed.symm, ?_⟩
  rw [h.handled]
  exact List.take_prefix _ _

include hsent hchunks hstream

/-- As long as the reads fit and drain, the reader keeps up with the stream. -/
theorem receiveMessages_upTo {i : ℕ} (hi : i ≤ chunks.length)
    (hgood : ∀ j < i, Fits sent chunks j ∧ Drains sent chunks j) :
    (receiveMessages (chunks.take i)).UpTo sent (arrived chunks i) := by
  induction i with
  | zero => exact Peer.upTo_zero hsent
  | succ i ih =>
    have hprev := ih (by omega) (fun j hj => hgood j (by omega))
    obtain ⟨hfits, hdrains⟩ := hgood i (Nat.lt_succ_self i)
    obtain ⟨hcontinue, hlength⟩ := take_append_chunk hstream hi
    rw [Fits, arrived_succ hi] at hfits
    rw [Drains, arrived_succ hi] at hdrains
    rw [receiveMessages_take_succ hi, arrived_succ hi]
    exact receiveRound_of_le hprev
      (List.ne_nil_of_length_pos (hchunks _ (List.getElem_mem hi)).1) hcontinue hlength hsent hfits
      hdrains

/-- Reads that never complete more than 32 frames at once lose nothing; a read that overfills the
buffer ends the connection, and later rounds leave the peer as it is. -/
theorem receiveMessages_nothingLost
    (hdrains : ∀ i < chunks.length, (∀ j ≤ i, Fits sent chunks j) → Drains sent chunks i) {i : ℕ}
    (hi : i ≤ chunks.length) :
    NothingLost sent (receiveMessages (chunks.take i)) ∧
      ((receiveMessages (chunks.take i)).connected = true → ∀ j < i, Fits sent chunks j) := by
  induction i with
  | zero => exact ⟨(Peer.upTo_zero hsent).nothingLost, fun _ j hj => absurd hj (Nat.not_lt_zero j)⟩
  | succ i ih =>
    obtain ⟨hprev, hfits⟩ := ih (by omega)
    rw [receiveMessages_take_succ hi]
    cases hconnected : (receiveMessages (chunks.take i)).connected with
    | false =>
      have hsame : receiveRound (receiveMessages (chunks.take i)) chunks[i] =
          receiveMessages (chunks.take i) := by
        rw [receiveRound, hconnected]
        rfl
      rw [hsame, hconnected]
      exact ⟨hprev, fun h => absurd h Bool.false_ne_true⟩
    | true =>
      have hupTo := receiveMessages_upTo hsent hchunks hstream (i := i) (by omega) fun j hj =>
        ⟨hfits hconnected j hj,
          hdrains j (by omega) fun k hk => hfits hconnected k (by omega)⟩
      obtain ⟨hcontinue, hlength⟩ := take_append_chunk hstream hi
      have hnonempty := List.ne_nil_of_length_pos (hchunks _ (List.getElem_mem hi)).1
      by_cases hfit : Fits sent chunks i
      · have hall : ∀ j ≤ i, Fits sent chunks j := fun j hj =>
          (Nat.lt_or_eq_of_le hj).elim (hfits hconnected j) fun h => h ▸ hfit
        have hnext := receiveMessages_upTo hsent hchunks hstream hi fun j hj =>
          ⟨hall j (by omega), hdrains j (by omega) fun k hk => hall k (by omega)⟩
        rw [receiveMessages_take_succ hi] at hnext
        exact ⟨hnext.nothingLost, fun _ j hj => hall j (by omega)⟩
      · rw [Fits, arrived_succ hi, Nat.not_le] at hfit
        obtain ⟨hclosed, hremoved, hhandled⟩ :=
          receiveRound_of_overfull hupTo hnonempty hcontinue hlength hfit
        rw [NothingLost, hclosed, hremoved, hhandled]
        exact ⟨hprev, fun h => absurd h Bool.false_ne_true⟩

/-- The reader of a peer hands over every message it takes from its buffer, in the order in which
they were sent, exactly when no read completes more than 32 frames, up to the read (if any) that
overfills the buffer. -/
theorem receives_all_iff :
    (∀ i, NothingLost sent (receiveMessages (chunks.take i))) ↔
      ∀ i < chunks.length, (∀ j ≤ i, Fits sent chunks j) → Drains sent chunks i := by
  constructor
  · intro hall i
    induction i using Nat.strong_induction_on with
    | _ i ih =>
      intro hi hfits
      by_contra hmany
      have hupTo := receiveMessages_upTo hsent hchunks hstream (i := i) (by omega) fun j hj =>
        ⟨hfits j (by omega), ih j hj (by omega) fun k hk => hfits k (by omega)⟩
      obtain ⟨hcontinue, hlength⟩ := take_append_chunk hstream hi
      have hfit := hfits i le_rfl
      rw [Fits, arrived_succ hi] at hfit
      rw [Drains, arrived_succ hi, Nat.not_le] at hmany
      obtain ⟨hhandled, hremoved⟩ := receiveRound_of_lt hupTo
        (List.ne_nil_of_length_pos (hchunks _ (List.getElem_mem hi)).1) hcontinue hlength hsent hfit
        hmany
      have hsame := (hall (i + 1)).1
      rw [receiveMessages_take_succ hi, hhandled, hremoved] at hsame
      have hcount := wholeFrames_le sent (arrived chunks i + chunks[i].length)
      have hlengths := congrArg List.length hsame
      rw [List.length_take, List.length_take] at hlengths
      omega
  · intro hdrains i
    rcases Nat.le_total i chunks.length with hi | hi
    · exact (receiveMessages_nothingLost hsent hchunks hstream hdrains hi).1
    · rw [List.take_of_length_le hi, ← List.take_length (l := chunks)]
      exact (receiveMessages_nothingLost hsent hchunks hstream hdrains le_rfl).1

end Run

/-- A ping that arrives in two reads. -/
theorem receives_all_split :
    let ping : Message := ⟨MessageType.PING, [97], [], 0⟩
    ∀ i, NothingLost [ping] (receiveMessages ([ping.frame.take 7, ping.frame.drop 7].take i)) := by
  intro ping
  refine (receives_all_iff ?_ ?_ ?_).mpr ?_
  · intro msg hmsg
    rw [List.mem_singleton.mp hmsg]
    exact ⟨by decide, by decide⟩
  · decide
  · decide
  · intro i hi _
    exact (wholeFrames_le [ping] _).trans
      ((by decide : 1 ≤ MAX_MESSAGES_PER_ROUND).trans (Nat.le_add_left _ _))

/-- Thirty-four pings in one read and a thirty-fifth in the next: the thirty-third is taken from the
buffer and never handed over, and the two after it are. -/
theorem ping_lost :
    let ping (n : ℕ) : Message := ⟨MessageType.PING, [97], [], Int64.ofNat n⟩
    let sent := (List.range 35).map ping
    let chunks := [stream (sent.take 34), stream (sent.drop 34)]
    let peer := receiveMessages chunks
    (∀ msg ∈ sent, msg.senderId.length ≤ Message.MAX_SENDER_ID_SIZE ∧
        msg.payload.length ≤ Message.MAX_PAYLOAD_SIZE) ∧
      (∀ chunk ∈ chunks, 1 ≤ chunk.length ∧ chunk.length ≤ 4096) ∧
      chunks.flatten = stream sent ∧ ping 32 ∈ peer.removed ∧ ping 32 ∉ peer.handled ∧
      ping 33 ∈ peer.handled ∧ ¬ peer.handled <+: sent := by
  decide +kernel

end p2p

end BlockchainCrypto
