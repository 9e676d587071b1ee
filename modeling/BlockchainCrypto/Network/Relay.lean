import BlockchainCrypto.Network.BlockRequests
import BlockchainCrypto.Network.KnownBlocks
import Mathlib.Data.Multiset.MapFold
import Mathlib.Logic.Function.Basic

/-!
# Relaying

A node answers requests for blocks and for its height, and passes on to its other peers the blocks
and transactions that it had not heard of. A network consists of nodes and of the messages in
flight between them. Messages overtake each other, get lost, and come from other programs as well;
who is connected to whom may be different at every step.

## Main definitions

* `p2p.Node.reply`, `p2p.Node.forward`: what a node sends when it handles a message.
* `p2p.Node.broadcastTransaction`, `p2p.Node.announceBlock`, `p2p.Node.announceTransaction`.
* `p2p.Net`, `p2p.Net.Action`, `p2p.network`: the runs of a network.

## Main results

* `p2p.Net.Action.Step.node_cases`: what a step does to a node.
* `p2p.Net.Action.Step.inFlight_cases`: where a message in flight comes from.
-/

namespace BlockchainCrypto

open ByteText

namespace p2p

/-! ### Messages that a node sends -/

/-- The request for the height of a chain. -/
def MessageType.GET_BLOCK_HEIGHT : MessageType := 0x22

namespace Message

/-- The message with the height of the own chain. -/
def createBlockHeight (height : Int64) (now : Int64) : Message :=
  create .BLOCK_HEIGHT (decimalInt height.toInt) now

/-- The announcement of a block. -/
def createNewBlock (serializedBlock : Bytes) (now : Int64) : Message :=
  create .NEW_BLOCK serializedBlock now

/-- The announcement of a transaction. -/
def createNewTransaction (serializedTx : Bytes) (now : Int64) : Message :=
  create .NEW_TRANSACTION serializedTx now

end Message

namespace Node

/-- The answer to the peer that a message comes from. The size of a vector is far below `2 ^ 63`, so
its cast to `int64_t` is exact. -/
def reply (n : Node) (msg : Message) (now : Int64) : Option Message :=
  if msg.type = .GET_BLOCKS then some (handleGetBlocks n.blockchain.chain msg.payload now)
  else if msg.type = .GET_BLOCK_HEIGHT then
    some (Message.createBlockHeight (Int64.ofNat n.blockchain.chain.length) now)
  else none

/-- What `handleNewBlock` and `handleNewTransaction` pass on to the other peers: the payload as it
was received, whatever the blockchain made of it. -/
def forward (n : Node) (msg : Message) (now : Int64) : Option Message :=
  if msg.type = .NEW_BLOCK then
    match BlockSerializer.deserialize msg.payload with
    | none => none
    | some block =>
      if n.knownBlocks.contains block.hash then none
      else some (Message.createNewBlock msg.payload now)
  else if msg.type = .NEW_TRANSACTION then
    match TransactionSerializer.deserialize msg.payload with
    | none => none
    | some tx =>
      if n.knownTxs.contains tx.calculateHash then none
      else some (Message.createNewTransaction msg.payload now)
  else none

/-- What `broadcastBlock` sends to all peers. -/
def announceBlock (n : Node) (block : Block) (now : Int64) : Option Message :=
  if n.knownBlocks.contains block.hash then none
  else some (Message.createNewBlock (BlockSerializer.serialize block) now)

/-- What is known after a transaction has been broadcast, where the hash set with the new hash is
iterated in the order given. -/
def broadcastTransaction (n : Node) (tx : Transaction) (order : List Bytes) : Node :=
  if n.knownTxs.contains tx.calculateHash then n
  else
    let inserted := tx.calculateHash :: n.knownTxs
    if inserted.toFinset.card > 50000 then
      { n with knownTxs := inserted.filter fun hash => !(order.take 25000).contains hash }
    else { n with knownTxs := inserted }

/-- What `broadcastTransaction` sends to all peers. -/
def announceTransaction (n : Node) (tx : Transaction) (now : Int64) : Option Message :=
  if n.knownTxs.contains tx.calculateHash then none
  else some (Message.createNewTransaction (TransactionSerializer.serialize tx) now)

end Node

/-! ### Networks -/

/-- A message on its way. -/
structure Envelope (V : Type*) where
  sender : V
  receiver : V
  message : Message

/-- The envelopes with a message of `v` to each of the peers, if there is a message. -/
def broadcast {V : Type*} (v : V) (msg : Option Message) (peers : Finset V) :
    Multiset (Envelope V) :=
  match msg with
  | none => 0
  | some msg => peers.val.map fun w => ⟨v, w, msg⟩

theorem mem_broadcast {V : Type*} {v : V} {msg : Option Message} {peers : Finset V}
    {envelope : Envelope V} : envelope ∈ broadcast v msg peers ↔
      msg = some envelope.message ∧ envelope.sender = v ∧ envelope.receiver ∈ peers := by
  cases msg with
  | none => simp [broadcast]
  | some msg =>
    simp only [broadcast, Multiset.mem_map, Finset.mem_val, Option.some.injEq]
    constructor
    · rintro ⟨w, hw, rfl⟩
      exact ⟨rfl, rfl, hw⟩
    · rintro ⟨rfl, rfl, hw⟩
      exact ⟨envelope.receiver, hw, rfl⟩

/-- The nodes of a network and the messages in flight. -/
structure Net (V : Type*) where
  node : V → Node
  inFlight : Multiset (Envelope V)

/-- What happens in a network, with the peers that the node in question is connected to. An envelope
that is sent on other grounds may come from any part of the program, or from another program. -/
inductive Net.Action (V : Type*) where
  | operate (v : V) (op : Blockchain.Operation)
  | broadcastBlock (v : V) (block : Block) (order : List Bytes) (peers : Finset V) (now : Int64)
  | broadcastTransaction (v : V) (tx : Transaction) (order : List Bytes) (peers : Finset V)
      (now : Int64)
  | send (envelope : Envelope V)
  | deliver (envelope : Envelope V) (peers : Finset V) (now : Int64)
  | lose (envelope : Envelope V)

section Networks

variable {V : Type*} [DecidableEq V]

/-- The network after a node has changed and envelopes have been sent. -/
def Net.update (t : Net V) (v : V) (n : Node) (inFlight : Multiset (Envelope V)) : Net V :=
  ⟨Function.update t.node v n, inFlight⟩

@[simp]
theorem Net.node_update_self (t : Net V) (v : V) (n : Node) (inFlight : Multiset (Envelope V)) :
    (t.update v n inFlight).node v = n := Function.update_self _ _ _

theorem Net.node_update_of_ne (t : Net V) {v w : V} (h : w ≠ v) (n : Node)
    (inFlight : Multiset (Envelope V)) : (t.update v n inFlight).node w = t.node w :=
  Function.update_of_ne h _ _

/-- The envelopes that a node sends when it handles an envelope. -/
def Node.sends (n : Node) (envelope : Envelope V) (peers : Finset V) (now : Int64) :
    Multiset (Envelope V) :=
  broadcast envelope.receiver (n.reply envelope.message now) {envelope.sender} +
    broadcast envelope.receiver (n.forward envelope.message now) (peers.erase envelope.sender)

/-- What an action does to a network. Only messages that fit into a frame arrive: a reader closes
the connection at any other one, which is then lost. -/
def Net.Action.Step (t : Net V) : Net.Action V → Net V → Prop
  | operate v op, t' => ∃ s, op.run (t.node v).blockchain = some s ∧
      t' = t.update v { t.node v with blockchain := s } t.inFlight
  | broadcastBlock v block order peers now, t' =>
    Pruning.Enumerates order (insert block.hash (t.node v).known) ∧
      t' = t.update v ((t.node v).broadcastBlock block order)
        (t.inFlight + broadcast v ((t.node v).announceBlock block now) peers)
  | broadcastTransaction v tx order peers now, t' =>
    Pruning.Enumerates order (insert tx.calculateHash (t.node v).knownTxs.toFinset) ∧
      t' = t.update v ((t.node v).broadcastTransaction tx order)
        (t.inFlight + broadcast v ((t.node v).announceTransaction tx now) peers)
  | send envelope, t' => t' = ⟨t.node, envelope ::ₘ t.inFlight⟩
  | deliver envelope peers now, t' => envelope.message.Framable ∧
      ∃ rest, t.inFlight = envelope ::ₘ rest ∧
        t' = t.update envelope.receiver
          ((t.node envelope.receiver).handleMessage envelope.message)
          (rest + (t.node envelope.receiver).sends envelope peers now)
  | lose envelope, t' => ∃ rest, t.inFlight = envelope ::ₘ rest ∧ t' = ⟨t.node, rest⟩

/-- The runs of a network of nodes that start with blockchains of difficulty `d` and reward `r`,
constructed at any time. -/
def network (V : Type*) [DecidableEq V] (d : Int32) (r : money.Amount) :
    Runs.System (Net V) (Net.Action V) where
  init t := t.inFlight = 0 ∧
    ∀ v, ∃ now s, Blockchain.construct d r now = some s ∧ t.node v = ⟨s, [], []⟩
  step t a t' := a.Step t t'

/-! ### Steps -/

@[simp]
theorem blockchain_broadcastBlock (n : Node) (block : Block) (order : List Bytes) :
    (n.broadcastBlock block order).blockchain = n.blockchain := by
  unfold Node.broadcastBlock
  dsimp only
  split_ifs <;> rfl

@[simp]
theorem blockchain_broadcastTransaction (n : Node) (tx : Transaction) (order : List Bytes) :
    (n.broadcastTransaction tx order).blockchain = n.blockchain := by
  unfold Node.broadcastTransaction
  dsimp only
  split_ifs <;> rfl

variable {t t' : Net V} {a : Net.Action V}

/-- A step leaves the blockchain of a node alone, or is an operation of its user, or delivers a
message to it. -/
theorem Net.Action.Step.node_cases (h : a.Step t t') (v : V) :
    (t'.node v).blockchain = (t.node v).blockchain ∨
      (∃ op, a = .operate v op ∧ op.run (t.node v).blockchain = some (t'.node v).blockchain) ∨
      ∃ envelope peers now, a = .deliver envelope peers now ∧ envelope ∈ t.inFlight ∧
        envelope.receiver = v ∧ t'.node v = (t.node v).handleMessage envelope.message := by
  cases a with
  | operate w op =>
    obtain ⟨s, hrun, rfl⟩ := h
    rcases eq_or_ne w v with rfl | hne
    · rw [Net.node_update_self]
      exact .inr (.inl ⟨op, rfl, hrun⟩)
    · rw [t.node_update_of_ne hne.symm]
      exact .inl rfl
  | broadcastBlock w block order peers now =>
    obtain ⟨-, rfl⟩ := h
    rcases eq_or_ne w v with rfl | hne
    · rw [Net.node_update_self]
      exact .inl (blockchain_broadcastBlock _ _ _)
    · rw [t.node_update_of_ne hne.symm]
      exact .inl rfl
  | broadcastTransaction w tx order peers now =>
    obtain ⟨-, rfl⟩ := h
    rcases eq_or_ne w v with rfl | hne
    · rw [Net.node_update_self]
      exact .inl (blockchain_broadcastTransaction _ _ _)
    · rw [t.node_update_of_ne hne.symm]
      exact .inl rfl
  | send envelope =>
    obtain rfl := h
    exact .inl rfl
  | deliver envelope peers now =>
    obtain ⟨-, rest, hrest, rfl⟩ := h
    have hmem : envelope ∈ t.inFlight := hrest ▸ Multiset.mem_cons_self _ _
    rcases eq_or_ne envelope.receiver v with rfl | hne
    · rw [Net.node_update_self]
      exact .inr (.inr ⟨envelope, peers, now, rfl, hmem, rfl, rfl⟩)
    · rw [t.node_update_of_ne hne.symm]
      exact .inl rfl
  | lose envelope =>
    obtain ⟨rest, -, rfl⟩ := h
    exact .inl rfl

/-- An envelope in flight was in flight before, or is sent by the action. -/
theorem Net.Action.Step.inFlight_cases (h : a.Step t t') {envelope : Envelope V}
    (henvelope : envelope ∈ t'.inFlight) :
    envelope ∈ t.inFlight ∨ a = .send envelope ∨
      (∃ v block order peers now, a = .broadcastBlock v block order peers now ∧
        (t.node v).announceBlock block now = some envelope.message) ∨
      (∃ v tx order peers now, a = .broadcastTransaction v tx order peers now ∧
        (t.node v).announceTransaction tx now = some envelope.message) ∨
      ∃ received peers now, a = .deliver received peers now ∧ received ∈ t.inFlight ∧
        ((t.node received.receiver).reply received.message now = some envelope.message ∨
          (t.node received.receiver).forward received.message now = some envelope.message) := by
  cases a with
  | operate v op =>
    obtain ⟨s, -, rfl⟩ := h
    exact .inl henvelope
  | broadcastBlock v block order peers now =>
    obtain ⟨-, rfl⟩ := h
    rcases Multiset.mem_add.mp henvelope with hold | hnew
    · exact .inl hold
    · exact .inr (.inr (.inl ⟨v, block, order, peers, now, rfl, (mem_broadcast.mp hnew).1⟩))
  | broadcastTransaction v tx order peers now =>
    obtain ⟨-, rfl⟩ := h
    rcases Multiset.mem_add.mp henvelope with hold | hnew
    · exact .inl hold
    · exact .inr (.inr (.inr (.inl ⟨v, tx, order, peers, now, rfl, (mem_broadcast.mp hnew).1⟩)))
  | send sent =>
    obtain rfl := h
    rcases Multiset.mem_cons.mp henvelope with rfl | hold
    · exact .inr (.inl rfl)
    · exact .inl hold
  | deliver received peers now =>
    obtain ⟨-, rest, hrest, rfl⟩ := h
    have hmem : received ∈ t.inFlight := hrest ▸ Multiset.mem_cons_self _ _
    rcases Multiset.mem_add.mp henvelope with hold | hnew
    · exact .inl (hrest ▸ Multiset.mem_cons_of_mem hold)
    · refine .inr (.inr (.inr (.inr ⟨received, peers, now, rfl, hmem, ?_⟩)))
      exact (Multiset.mem_add.mp hnew).imp (fun h => (mem_broadcast.mp h).1)
        fun h => (mem_broadcast.mp h).1
  | lose lost =>
    obtain ⟨rest, hrest, rfl⟩ := h
    exact .inl (hrest ▸ Multiset.mem_cons_of_mem henvelope)

/-- Two nodes that have just started. -/
def freshNet : Net Bool := ⟨fun _ => freshNode, 0⟩

theorem init_freshNet : (network Bool 0 (money.coins 50)).init freshNet :=
  ⟨rfl, fun _ => ⟨0, _, Blockchain.construct_zero _ _, rfl⟩⟩

/-- One of them has mined a block. -/
def minedNet : Net Bool :=
  freshNet.update true { freshNode with blockchain := Blockchain.firstMined (ascii "bob") 5 6 } 0

theorem step_minedNet :
    (Net.Action.operate true (.minePendingTransactions (ascii "bob") 5 6 1)).Step
      freshNet minedNet := by
  have hmine : (Blockchain.fresh (money.coins 50) 0).minePendingTransactions (ascii "bob") 5 6 1 =
      some (Blockchain.firstMined (ascii "bob") 5 6) := Blockchain.mine_fresh (by decide)
  exact ⟨_, hmine, rfl⟩

end Networks

end p2p

end BlockchainCrypto
