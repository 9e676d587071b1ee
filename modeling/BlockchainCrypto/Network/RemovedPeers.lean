import BlockchainCrypto.Network.P2PNode
import BlockchainCrypto.Network.Receiving

/-!
# Removed peers

The receive loop keeps its own pointer to a peer. After a handler has removed the peer from the
map, the loop goes on with the messages that arrived in the same read: its guard asks whether the
socket is valid, and the socket of an object is valid as long as there is a pointer to it.

## Main definitions

* `p2p.P2PNode.drain`, `p2p.P2PNode.receiveRound`: the loop, with the handlers.
* `p2p.P2PNode.Silent`: no message is passed to a handler after one that removed the peer.
* `p2p.P2PNode.RemovesSender`: the messages that remove their sender.

## Main results

* `p2p.P2PNode.listed_handleMessage_iff`: no other message removes its sender.
* `p2p.P2PNode.calls_drain`: the loop passes the messages to the handlers one after the other.
* `p2p.P2PNode.silent_receiveRound_iff`: which reads end with the removal.
-/

namespace BlockchainCrypto

open ByteText

namespace p2p

namespace P2PNode

/-! ### The loop -/

/-- The state of the loop for one readable peer. -/
structure Round where
  recvBuffer : Bytes
  node : P2PNode
  /-- the messages that were passed to a handler, each with the node at that time -/
  calls : List (P2PNode × Message) := []

variable (n : P2PNode) (env : Surroundings) (i : ℕ)

/-- A step of the reader, which notes the time of a whole message. -/
def Round.extract (round : Round) (result : ReceiveStatus × Bytes) : ReceiveStatus × Round :=
  match result.1 with
  | .message msg =>
    (.message msg,
      { round with recvBuffer := result.2, node := round.node.updateLastSeen env i })
  | status => (status, { round with recvBuffer := result.2 })

/-- The socket of an object is valid, so the reader looks at the buffer. -/
def Round.nextBufferedMessage (round : Round) : ReceiveStatus × Round :=
  round.extract env i (extractMessage round.recvBuffer)

/-- The round after a message, which is kept in the list of calls. -/
def Round.handleMessage (round : Round) (msg : Message) : Round :=
  { round with
    node := round.node.handleMessage env i msg
    calls := round.calls ++ [(round.node, msg)] }

/-- The loop over the messages that one read made available, with the number of rounds that are
left to it. -/
def drain : ℕ → ReceiveStatus × Round → ReceiveStatus × Round
  | rounds + 1, (.message msg, round) =>
    drain rounds ((round.handleMessage env i msg).nextBufferedMessage env i)
  | _, result => result

/-- The part of `receiveMessages` for one readable peer, which stands in the map at this address. -/
def receiveRound (address recvBuffer chunk : Bytes) : Round :=
  let start : Round := ⟨recvBuffer, n, []⟩
  let (status, round) :=
    drain env i MAX_MESSAGES_PER_ROUND (start.extract env i (pollReceive recvBuffer chunk))
  if status = .closed then { round with node := round.node.removePeer address } else round

/-- After a call that removed the peer from the map there are no further calls. -/
def Silent (calls : List (P2PNode × Message)) : Prop :=
  ∀ before call after, calls = before ++ call :: after →
    ¬ (call.1.handleMessage env i call.2).table.Listed i → after = []

/-! ### Messages that remove their sender -/

/-- The line makes the node dial this address and enter the new connection into its map. -/
def Dials (n : P2PNode) (line address : Bytes) : Prop :=
  ∃ info, PeerInfo.deserialize line = some info ∧ addressOf info.ip info.port = address ∧
    info.nodeId ≠ n.nodeId ∧ n.table.hasPeerAt (addressOf info.ip info.port) = false ∧
    n.table.getPeerCount < n.config.maxPeers ∧ n.running = true ∧
    n.table.size < n.config.maxPeers ∧ env.dialled info.ip info.port = true

/-- One of the lines makes the node dial this address. -/
def DialsOneOf (address : Bytes) : P2PNode → List Bytes → Prop
  | _, [] => False
  | n, line :: lines =>
    Dials env n line address ∨ DialsOneOf address (n.handlePeerInfo env line) lines

/-- The message ends the connection, is a handshake that is refused, or makes the node dial the
address of the sender, so that the new connection takes its place in the map. -/
def RemovesSender (address : Bytes) (msg : Message) : Prop :=
  msg.type = .DISCONNECT ∨
    (msg.type = .HANDSHAKE ∨ msg.type = .HANDSHAKE_ACK) ∧ n.acceptedHandshake i msg.payload = none ∨
    msg.type = .PEERS ∧
      DialsOneOf env address n ((msg.payload.splitOn newline).filter (· ≠ []))

/-- No message but the last one removes its sender, each taken in its turn. -/
def OnlyLastRemoves (address : Bytes) : P2PNode → List Message → Prop
  | _, [] => True
  | _, [_] => True
  | n, msg :: next :: rest =>
    ¬ RemovesSender (n.updateLastSeen env i) env i address msg ∧
      OnlyLastRemoves address ((n.updateLastSeen env i).handleMessage env i msg) (next :: rest)

variable {n env i} {address : Bytes}

/-! ### Which messages remove their sender -/

/-- An object is not in the map after the entry of its address has been removed. -/
theorem not_listed_removePeer (h : n.table.Holds i address) :
    ¬ (n.removePeer address).table.Listed i := by
  rw [(h.of_changes (changes_removePeer address)).listed_iff, removePeer]
  split
  · rename_i hnone
    rw [hnone]
    simp
  · exact fun hlookup => (PeerTable.lookup_erase_iff.mp hlookup).1 rfl

/-- A line leads to a new entry or to none. -/
theorem table_handlePeerInfo (line : Bytes) :
    (∃ new : PeerObject, (n.handlePeerInfo env line).table = n.table.insert new ∧
        ∀ address, Dials env n line address ↔ new.getAddress = address) ∨
      (n.handlePeerInfo env line).table = n.table ∧ ∀ address, ¬ Dials env n line address := by
  rw [handlePeerInfo]
  simp only [Dials]
  cases PeerInfo.deserialize line with
  | none =>
    refine .inr ⟨rfl, ?_⟩
    rintro address ⟨info, hnone, -⟩
    cases hnone
  | some info =>
    simp only [Option.some.injEq, exists_eq_left', connectToPeer]
    split_ifs with hself hpeer hcount hrunning hsize hdialled
    · exact .inr ⟨rfl, fun address h => h.2.1 hself⟩
    · exact .inr ⟨rfl, fun address h => by simp [hpeer] at h⟩
    · exact .inr ⟨rfl, fun address h => by simp_all⟩
    · exact .inr ⟨rfl, fun address h => absurd h.2.2.2.2.2.1 (Nat.not_lt.mpr hsize)⟩
    · refine .inl ⟨_, rfl, fun address => ⟨And.left, fun h => ⟨h, ?_⟩⟩⟩
      simp_all
    · exact .inr ⟨rfl, fun address h => hdialled h.2.2.2.2.2.2⟩
    · exact .inr ⟨rfl, fun address h => hcount h.2.2.2.1⟩

/-- A line displaces a peer exactly when it makes the node dial its address. -/
theorem listed_handlePeerInfo_iff (h : n.table.Holds i address) (line : Bytes) :
    (n.handlePeerInfo env line).table.Listed i ↔
      n.table.Listed i ∧ ¬ Dials env n line address := by
  rcases @table_handlePeerInfo n env line with
    ⟨new, htable, hdials⟩ | ⟨htable, hdials⟩
  · rw [htable, h.listed_insert_iff, hdials]
  · rw [htable, and_iff_left (hdials address)]

theorem listed_foldl_handlePeerInfo_iff (h : n.table.Holds i address) (lines : List Bytes) :
    (lines.foldl (handlePeerInfo env) n).table.Listed i ↔
      n.table.Listed i ∧ ¬ DialsOneOf env address n lines := by
  induction lines generalizing n with
  | nil => simp [DialsOneOf]
  | cons line lines ih =>
    rw [List.foldl_cons, ih (h.of_changes (changes_handlePeerInfo line)),
      listed_handlePeerInfo_iff h, DialsOneOf, not_or, and_assoc]

theorem not_removesSender {msg : Message}
    (hhandshake : ¬ (msg.type = .HANDSHAKE ∨ msg.type = .HANDSHAKE_ACK))
    (hpeers : msg.type ≠ .PEERS) (hdisconnect : msg.type ≠ .DISCONNECT) :
    ¬ RemovesSender n env i address msg := by
  rintro (h | h | h)
  · exact hdisconnect h
  · exact hhandshake h.1
  · exact hpeers h.1

/-- A peer in the map stays there unless its message removes it. -/
theorem listed_handleMessage_iff (h : n.table.Holds i address) (hlisted : n.table.Listed i)
    (msg : Message) :
    (n.handleMessage env i msg).table.Listed i ↔ ¬ RemovesSender n env i address msg := by
  obtain ⟨peer, hpeer, rfl⟩ := id h
  rw [handleMessage, hpeer]
  dsimp only
  by_cases hhandshake : msg.type = .HANDSHAKE ∨ msg.type = .HANDSHAKE_ACK
  · have hother : msg.type ≠ .DISCONNECT ∧ msg.type ≠ .PEERS := by
      rcases hhandshake with htype | htype <;> rw [htype] <;> decide
    rw [if_pos hhandshake, handleHandshake, RemovesSender]
    cases haccepted : n.acceptedHandshake i msg.payload with
    | none =>
      exact iff_of_false (not_listed_removePeer h) fun hnot => hnot (.inr (.inl ⟨hhandshake, rfl⟩))
    | some hs =>
      rw [table_syncIfHigher]
      refine iff_of_true hlisted ?_
      rintro (htype | ⟨-, hnone⟩ | ⟨htype, -⟩)
      · exact hother.1 htype
      · cases hnone
      · exact hother.2 htype
  rw [if_neg hhandshake]
  by_cases hpeers : msg.type = .PEERS
  · have hpong : msg.type ≠ .PONG := by rw [hpeers]; decide
    have hdisconnect : msg.type ≠ .DISCONNECT := by rw [hpeers]; decide
    rw [if_neg hpong, if_pos hpeers, handlePeers, listed_foldl_handlePeerInfo_iff h, RemovesSender,
      and_iff_right hlisted]
    refine not_congr ⟨fun hdials => .inr (.inr ⟨hpeers, hdials⟩), ?_⟩
    rintro (htype | ⟨htype, -⟩ | ⟨-, hdials⟩)
    · exact absurd htype hdisconnect
    · exact absurd htype hhandshake
    · exact hdials
  by_cases hdisconnect : msg.type = .DISCONNECT
  · rw [hdisconnect]
    exact iff_of_false (not_listed_removePeer h) fun hnot => hnot (.inl hdisconnect)
  rw [if_neg hpeers, if_neg hdisconnect]
  refine iff_of_true ?_ (not_removesSender hhandshake hpeers hdisconnect)
  split_ifs
  · exact hlisted
  · exact hlisted
  · rw [handleBlockHeight]
    split
    · exact hlisted
    · split_ifs
      · exact hlisted
      · rw [table_syncIfHigher]
        exact hlisted
  · exact hlisted
  · exact hlisted
  · exact hlisted
  · exact hlisted

/-! ### Which messages are handled -/

/-- The node after it has taken a message from the buffer and handled it. -/
def receiveMessage (n : P2PNode) (env : Surroundings) (i : ℕ) (msg : Message) : P2PNode :=
  (n.updateLastSeen env i).handleMessage env i msg

/-- The calls of the handlers for some messages. -/
def callsFor (env : Surroundings) (i : ℕ) : P2PNode → List Message → List (P2PNode × Message)
  | _, [] => []
  | n, msg :: msgs =>
    (n.updateLastSeen env i, msg) :: callsFor env i (n.receiveMessage env i msg) msgs

/-- With whole frames in front of an unfinished one, the loop hands over the messages until its
rounds are up. -/
theorem calls_drain (msgs : List Message) (hmsgs : ∀ msg ∈ msgs, msg.Framable) {rest : Bytes}
    (hrest : (extractMessage rest).1 = .incomplete) (rounds : ℕ) (round : Round)
    (hbuffer : round.recvBuffer = stream msgs ++ rest) :
    (drain env i rounds (round.nextBufferedMessage env i)).2.calls =
      round.calls ++ callsFor env i round.node (msgs.take rounds) := by
  induction msgs generalizing rounds round with
  | nil =>
    rw [stream_nil, List.nil_append] at hbuffer
    have hnext : (round.nextBufferedMessage env i).1 = .incomplete ∧
        (round.nextBufferedMessage env i).2.calls = round.calls := by
      rw [Round.nextBufferedMessage, Round.extract, hbuffer, hrest]
      exact ⟨rfl, rfl⟩
    generalize round.nextBufferedMessage env i = next at hnext
    obtain ⟨status, round'⟩ := next
    obtain ⟨rfl, hcalls⟩ := hnext
    rw [List.take_nil, callsFor, List.append_nil, ← hcalls]
    cases rounds <;> rfl
  | cons msg msgs ih =>
    have hextract : round.nextBufferedMessage env i =
        (.message msg,
          ⟨stream msgs ++ rest, round.node.updateLastSeen env i, round.calls⟩) := by
      rw [Round.nextBufferedMessage, Round.extract, hbuffer, stream_cons, List.append_assoc,
        extractMessage_frame (hmsgs msg List.mem_cons_self)]
    rw [hextract]
    cases rounds with
    | zero => simp [drain, callsFor]
    | succ rounds =>
      rw [drain, ih (fun m hm => hmsgs m (List.mem_cons_of_mem _ hm)) rounds _ rfl,
        List.take_succ_cons, callsFor]
      simp [Round.handleMessage, receiveMessage]

theorem silent_cons_iff {call : P2PNode × Message} {calls : List (P2PNode × Message)} :
    Silent env i (call :: calls) ↔
      (¬ (call.1.handleMessage env i call.2).table.Listed i → calls = []) ∧
        Silent env i calls := by
  constructor
  · intro h
    refine ⟨h [] call calls rfl, fun before call' after hcalls => ?_⟩
    exact h (call :: before) call' after (congrArg (call :: ·) hcalls)
  · rintro ⟨hfirst, hrest⟩ before call' after hcalls
    cases before with
    | nil =>
      obtain ⟨rfl, rfl⟩ := List.cons.inj hcalls
      exact hfirst
    | cons first before => exact hrest before call' after (List.cons.inj hcalls).2

/-- The calls for some messages are silent when none of them but the last removes the peer. -/
theorem silent_callsFor_iff (h : n.table.Holds i address) (hlisted : n.table.Listed i)
    (msgs : List Message) :
    Silent env i (callsFor env i n msgs) ↔ OnlyLastRemoves env i address n msgs := by
  induction msgs generalizing n with
  | nil =>
    refine iff_of_true ?_ trivial
    intro before call after hnil
    simp [callsFor] at hnil
  | cons msg msgs ih =>
    have hseen : (n.updateLastSeen env i).table.Holds i address :=
      h.of_changes (changes_updateLastSeen i)
    have hafter : (n.receiveMessage env i msg).table.Listed i ↔
        ¬ RemovesSender (n.updateLastSeen env i) env i address msg :=
      listed_handleMessage_iff hseen hlisted msg
    rw [callsFor, silent_cons_iff]
    cases msgs with
    | nil =>
      refine iff_of_true ⟨fun _ => rfl, ?_⟩ trivial
      intro before call after hnil
      simp [callsFor] at hnil
    | cons next msgs =>
      have hnonempty : callsFor env i (n.receiveMessage env i msg) (next :: msgs) ≠ [] :=
        List.cons_ne_nil _ _
      rw [OnlyLastRemoves, ← hafter, imp_iff_not hnonempty, not_not]
      exact and_congr_right fun hstays => ih (hseen.of_changes (changes_handleMessage i msg)) hstays

/-- The first step of a round looks at the buffer with the new bytes, unless there are too many. -/
theorem extract_pollReceive {recvBuffer chunk : Bytes} (hchunk : chunk ≠ [])
    (hfits : ¬ MAX_FRAME_SIZE < (recvBuffer ++ chunk).length) :
    (Round.mk recvBuffer n []).extract env i (pollReceive recvBuffer chunk) =
      (Round.mk (recvBuffer ++ chunk) n []).nextBufferedMessage env i := by
  rw [pollReceive, if_neg hchunk]
  dsimp only
  rw [if_neg hfits]
  rfl

theorem calls_receiveRound (recvBuffer chunk : Bytes) :
    (n.receiveRound env i address recvBuffer chunk).calls =
      (drain env i MAX_MESSAGES_PER_ROUND
        ((Round.mk recvBuffer n []).extract env i (pollReceive recvBuffer chunk))).2.calls := by
  rw [receiveRound]
  dsimp only
  split_ifs <;> rfl

/-- A round is silent exactly when the read closes the connection at once, or none of the first 32
messages but the last one removes the peer. -/
theorem silent_receiveRound_iff (h : n.table.Holds i address) (hlisted : n.table.Listed i)
    {msgs : List Message} (hmsgs : ∀ msg ∈ msgs, msg.Framable) {recvBuffer chunk rest : Bytes}
    (hchunk : chunk ≠ []) (hread : recvBuffer ++ chunk = stream msgs ++ rest)
    (hrest : (extractMessage rest).1 = .incomplete) :
    Silent env i (n.receiveRound env i address recvBuffer chunk).calls ↔
      MAX_FRAME_SIZE < (recvBuffer ++ chunk).length ∨
        OnlyLastRemoves env i address n (msgs.take MAX_MESSAGES_PER_ROUND) := by
  rw [calls_receiveRound]
  by_cases hlarge : MAX_FRAME_SIZE < (recvBuffer ++ chunk).length
  · refine iff_of_true ?_ (.inl hlarge)
    rw [pollReceive, if_neg hchunk]
    dsimp only
    rw [if_pos hlarge]
    intro before call after hnil
    simp [Round.extract, drain] at hnil
  · rw [extract_pollReceive hchunk hlarge, calls_drain msgs hmsgs hrest _ _ hread, List.nil_append,
      silent_callsFor_iff h hlisted, or_iff_right hlarge]

section Examples

private def listener : P2PNode := started (ascii "b") {} ⟨Blockchain.fresh 50 0, [], []⟩

private def inTouch : Surroundings := ⟨0, true, fun _ _ => false⟩

/-- A node that has accepted a connection. -/
private def accepted : P2PNode := listener.acceptConnection inTouch (ascii "10.0.0.2") 50000

private theorem holds_accepted : accepted.table.Holds 0 (ascii "10.0.0.2:50000") :=
  ⟨PeerObject.create (ascii "10.0.0.2") 50000 0 0, rfl, by decide⟩

private theorem listed_accepted : accepted.table.Listed 0 := ⟨ascii "10.0.0.2:50000", by decide⟩

private theorem framable_pair {msg msg' : Message} (h : msg.Framable) (h' : msg'.Framable) :
    ∀ m ∈ [msg, msg'], m.Framable := by
  intro m hm
  rcases List.mem_pair.mp hm with rfl | rfl
  · exact h
  · exact h'

/-- A ping and the end of the connection. -/
theorem silent_ping_disconnect :
    let msgs : List Message := [⟨.PING, [], [], 0⟩, ⟨.DISCONNECT, [], [], 0⟩]
    Silent inTouch 0
      (accepted.receiveRound inTouch 0 (ascii "10.0.0.2:50000") [] (stream msgs)).calls := by
  intro msgs
  have hmsgs := framable_pair (⟨by decide, by decide⟩ : Message.Framable ⟨.PING, [], [], 0⟩)
    (⟨by decide, by decide⟩ : Message.Framable ⟨.DISCONNECT, [], [], 0⟩)
  have hchunk : stream msgs ≠ [] := by decide
  refine (silent_receiveRound_iff holds_accepted listed_accepted hmsgs hchunk
    (List.append_nil _).symm rfl).mpr (.inr ⟨?_, trivial⟩)
  exact not_removesSender (by decide) (by decide) (by decide)

/-- The end of the connection and a height: the height is handled, and starts a sync. -/
theorem not_silent_disconnect_height :
    let msgs : List Message := [⟨.DISCONNECT, [], [], 0⟩, ⟨.BLOCK_HEIGHT, ascii "5", [], 0⟩]
    let round := accepted.receiveRound inTouch 0 (ascii "10.0.0.2:50000") [] (stream msgs)
    Blockchain.construct 0 50 0 = some listener.node.blockchain ∧
      ¬ Silent inTouch 0 round.calls ∧ accepted.sync.syncing = false ∧
      round.node.sync.syncing = true ∧
      round.node.table.peers.lookup (ascii "10.0.0.2:50000") = none := by
  intro msgs round
  refine ⟨Blockchain.construct_zero 50 0, fun h => ?_, rfl, by decide +kernel, by decide +kernel⟩
  have hmsgs := framable_pair (⟨by decide, by decide⟩ : Message.Framable ⟨.DISCONNECT, [], [], 0⟩)
    (⟨by decide, by decide⟩ : Message.Framable ⟨.BLOCK_HEIGHT, ascii "5", [], 0⟩)
  have hchunk : stream msgs ≠ [] := by decide
  rw [calls_receiveRound, extract_pollReceive hchunk (by decide),
    calls_drain msgs hmsgs (rfl : (extractMessage []).1 = .incomplete) _ _
      (List.append_nil _).symm,
    List.nil_append, silent_callsFor_iff holds_accepted listed_accepted] at h
  exact h.1 (.inl rfl)

end Examples

end P2PNode

end p2p

end BlockchainCrypto
