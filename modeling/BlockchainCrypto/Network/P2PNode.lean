import BlockchainCrypto.Network.Gossip
import BlockchainCrypto.Network.Handshake
import BlockchainCrypto.Network.PeerTable
import BlockchainCrypto.Network.SyncState

/-!
# A node and its peers

The operations of a node, one at a time: connections that come and go, the handlers of the messages
of its peers, and the syncs. A handler gets a pointer to the peer that sent the message, and nothing
ensures that the peer is still in the map. Of what is sent to peers only a request for blocks is
part of a node here, since one that cannot be sent ends its sync; the messages themselves are in
`Network.Relay`, `Network.PeerLists` and `Network.BlockRequests`.

## Main definitions

* `p2p.P2PNode`, with `connectToPeer`, `acceptConnection`, `disconnectPeer`, `removePeer`,
  `checkPeerTimeouts`, `requestSync`, `stop` and `handleMessage`.
* `p2p.P2PNode.acceptedHandshake`: the handshakes that do not remove the peer.
* `p2p.P2PNode.Operation`, `p2p.P2PNode.runAll`: the operations, and several of them in a row.

## Main results

* `p2p.P2PNode.changes_run`: what the operations do to the table of peers.
-/

namespace BlockchainCrypto

open ByteText

namespace p2p

/-! ### Lists of peers -/

/-- What separates the fields of a peer. -/
def colon : UInt8 := 58

/-- A line of a message of peers. -/
structure PeerInfo where
  ip : Bytes
  port : UInt16
  nodeId : Bytes
  lastSeen : Int64
  deriving DecidableEq

/-- The fields of a line; there are none when the port or the time is rejected. -/
def readPeerInfo : LineReader (Option PeerInfo) := do
  let ip ← getline colon []
  let token ← getline colon []
  match utils.parseInt token with
  | none => pure none
  | some port =>
    if port ≤ 0 ∨ port > 65535 then pure none
    else
      let nodeId ← getline colon []
      let token ← getline colon token
      match utils.parseInt64 token with
      | none => pure none
      | some lastSeen => pure (some ⟨ip, port.toInt.toNat.toUInt16, nodeId, lastSeen⟩)

/-- The peer of a line. -/
def PeerInfo.deserialize (data : Bytes) : Option PeerInfo := (readPeerInfo.run' (some data)).join

/-! ### Nodes -/

/-- The settings of a node that matter here. -/
structure P2PConfig where
  maxPeers : ℕ := 25
  peerTimeout : Int64 := 90000
  syncTimeout : Int64 := 30000

/-- A running node: its chain, its peers and its sync. -/
structure P2PNode where
  nodeId : Bytes
  config : P2PConfig
  running : Bool
  node : Node
  table : PeerTable
  sync : SyncState

/-- What an operation finds outside of the node: the clock in milliseconds, whether a request for
blocks can be sent, and which addresses can be dialled and sent a handshake. -/
structure Surroundings where
  now : Int64
  sent : Bool
  dialled : Bytes → UInt16 → Bool

/-- The address of a peer. -/
def PeerObject.address (peer : PeerObject) : PeerAddress :=
  ⟨peer.getAddress, peer.ip, peer.port, rfl⟩

/-- The peer with the height that it has told. -/
def PeerObject.setBlockHeight (height : Int64) (peer : PeerObject) : PeerObject :=
  { peer with blockHeight := height }

/-- The peer, just heard of. -/
def PeerObject.updateLastSeen (now : Int64) (peer : PeerObject) : PeerObject :=
  { peer with lastSeen := now }

/-- The data of a peer after a handshake that is not refused. -/
def PeerObject.connect (hs : Handshake) (peer : PeerObject) : PeerObject :=
  { peer with
    listenPort := hs.listenPort
    nodeId := hs.nodeId
    blockHeight := hs.blockHeight
    version := hs.version
    state := .CONNECTED }

theorem PeerObject.getAddress_connect (hs : Handshake) (peer : PeerObject) :
    (peer.connect hs).getAddress = peer.getAddress := rfl

namespace P2PNode

variable (n : P2PNode) (env : Surroundings)

/-- The height of the own chain. -/
def getChainSize : Int64 := Int64.ofNat n.node.blockchain.chain.length

/-! ### Connections -/

/-- A peer is dialled, unless there is a connection to it already or no place for it. -/
def connectToPeer (ip : Bytes) (port : UInt16) : P2PNode :=
  if !n.running then n
  else if n.table.hasPeerAt (addressOf ip port) then n
  else if n.table.size ≥ n.config.maxPeers then n
  else if env.dialled ip port then
    { n with table := n.table.insert (PeerObject.create ip port port env.now) }
  else n

/-- A round of the loop in `acceptConnections`. -/
def acceptConnection (ip : Bytes) (port : UInt16) : P2PNode :=
  if !n.running then n
  else if n.table.size ≥ n.config.maxPeers then n
  else { n with table := n.table.insert (PeerObject.create ip port 0 env.now) }

/-- A peer is taken from the map; a sync with it stays. -/
def disconnectPeer (address : Bytes) : P2PNode :=
  match n.table.peers.lookup address with
  | none => n
  | some _ => { n with table := n.table.erase address }

/-- A peer is taken from the map, and a sync with it ends. -/
def removePeer (address : Bytes) : P2PNode :=
  match n.table.peers.lookup address with
  | none => n
  | some _ =>
    { n with table := n.table.erase address, sync := n.sync.cancelSyncIfPeer address }

/-- The connected peers that have been silent for too long are removed. -/
def checkPeerTimeouts : P2PNode :=
  let timedOut := n.table.listed.filter fun peer =>
    peer.state = .CONNECTED ∧ env.now - peer.lastSeen > n.config.peerTimeout
  (timedOut.map PeerObject.getAddress).foldl removePeer n

/-- The node ends, and its map is cleared. -/
def stop : P2PNode :=
  if !n.running then n else { n with running := false, table := n.table.clear }

/-! ### Syncs -/

/-- A sync with a peer starts, if there is none. -/
def syncWithPeer (peer : PeerObject) : P2PNode :=
  { n with sync := n.sync.syncWithPeer n.config.syncTimeout env.now env.sent peer.address }

/-- A peer that has told its height, at the end of a handler. -/
def syncIfHigher (peer : PeerObject) (height : Int64) : P2PNode :=
  if height > n.getChainSize then n.syncWithPeer env peer else n

/-- The loop body of `findBestPeerForSync`, with the best peer so far and its height. -/
def betterPeer (best : Option PeerObject × Int64) (peer : PeerObject) : Option PeerObject × Int64 :=
  if peer.state = .CONNECTED ∧ peer.blockHeight > best.2 then (some peer, peer.blockHeight)
  else best

/-- The map is unordered, and its entries are gone through in some order. -/
def findBestPeerForSync (order : List Bytes) : Option PeerObject :=
  let peers := order.filterMap fun address =>
    (n.table.peers.lookup address).bind fun i => n.table.objects[i]?
  (peers.foldl betterPeer (none, n.getChainSize)).1

/-- A sync with the best peer starts, if there is one. -/
def requestSync (order : List Bytes) : P2PNode :=
  if n.sync.syncing then n
  else
    match n.findBestPeerForSync order with
    | none => n
    | some peer => n.syncWithPeer env peer

/-! ### Handlers -/

/-- The handshake, unless it is malformed, comes from the node itself, or has the id of another
peer. -/
def acceptedHandshake (i : ℕ) (payload : Bytes) : Option Handshake :=
  match readHandshake.run' (some payload) with
  | some (some hs) =>
    if hs.nodeId = n.nodeId then none
    else if n.table.hasPeerWithNodeId hs.nodeId i then none
    else some hs
  | _ => none

/-- A handshake connects the peer, or ends the connection. -/
def handleHandshake (i : ℕ) (peer : PeerObject) (payload : Bytes) : P2PNode :=
  match n.acceptedHandshake i payload with
  | none => n.removePeer peer.getAddress
  | some hs =>
    let table := n.table.modify i (PeerObject.connect hs) (PeerObject.getAddress_connect hs)
    { n with table := table }.syncIfHigher env peer hs.blockHeight

/-- A refusal ends the sync with the peer. -/
def handleError (peer : PeerObject) : P2PNode :=
  { n with sync := n.sync.cancelSyncIfPeer peer.getAddress }

/-- The peer has just been heard of. -/
def updateLastSeen (i : ℕ) : P2PNode :=
  { n with table := n.table.modify i (PeerObject.updateLastSeen env.now) fun _ => rfl }

/-- The loop body of `handlePeers`. -/
def handlePeerInfo (n : P2PNode) (line : Bytes) : P2PNode :=
  match PeerInfo.deserialize line with
  | none => n
  | some info =>
    if info.nodeId = n.nodeId then n
    else if n.table.hasPeerAt (addressOf info.ip info.port) then n
    else if n.table.getPeerCount < n.config.maxPeers then n.connectToPeer env info.ip info.port
    else n

/-- The peers of a list are dialled, one after the other. -/
def handlePeers (payload : Bytes) : P2PNode :=
  ((payload.splitOn newline).filter (· ≠ [])).foldl (handlePeerInfo env) n

/-- The blocks of a reply are handed on, and the sync with the peer ends. -/
def handleBlocks (peer : PeerObject) (payload : Bytes) : P2PNode :=
  { n with
    node := n.node.handleBlocks payload
    sync := n.sync.cancelSyncIfPeer peer.getAddress }

/-- The height of a peer, which may start a sync. -/
def handleBlockHeight (i : ℕ) (peer : PeerObject) (payload : Bytes) : P2PNode :=
  match utils.parseInt64 payload with
  | none => n
  | some height =>
    if height < 0 then n
    else
      let table := n.table.modify i (PeerObject.setBlockHeight height) fun _ => rfl
      { n with table := table }.syncIfHigher env peer height

/-- The peer is removed. -/
def handleDisconnect (peer : PeerObject) : P2PNode := n.removePeer peer.getAddress

/-- The messages of the other types are answered, or ignored. -/
def handleMessage (i : ℕ) (msg : Message) : P2PNode :=
  match n.table.objects[i]? with
  | none => n
  | some peer =>
    if msg.type = .HANDSHAKE ∨ msg.type = .HANDSHAKE_ACK then
      n.handleHandshake env i peer msg.payload
    else if msg.type = .PONG then n.updateLastSeen env i
    else if msg.type = .PEERS then n.handlePeers env msg.payload
    else if msg.type = .BLOCKS then n.handleBlocks peer msg.payload
    else if msg.type = .BLOCK_HEIGHT then n.handleBlockHeight env i peer msg.payload
    else if msg.type = .NEW_BLOCK then { n with node := n.node.handleNewBlock msg.payload }
    else if msg.type = .NEW_TRANSACTION then
      { n with node := n.node.handleNewTransaction msg.payload }
    else if msg.type = .ERROR_MSG then n.handleError peer
    else if msg.type = .DISCONNECT then n.handleDisconnect peer
    else n

/-! ### Operations -/

/-- What the threads of a node and its user do. -/
inductive Operation where
  | acceptConnection (ip : Bytes) (port : UInt16)
  | connectToPeer (ip : Bytes) (port : UInt16)
  | disconnectPeer (address : Bytes)
  | removePeer (address : Bytes)
  | checkPeerTimeouts
  | requestSync (order : List Bytes)
  | cancelStalledSync
  | stop
  | updateLastSeen (i : ℕ)
  | handleMessage (i : ℕ) (msg : Message)
  | blockchain (op : Blockchain.Operation)

/-- The node after an operation. An operation of the blockchain that does not return has no
effect. -/
def Operation.run : Operation → P2PNode
  | acceptConnection ip port => n.acceptConnection env ip port
  | connectToPeer ip port => n.connectToPeer env ip port
  | disconnectPeer address => n.disconnectPeer address
  | removePeer address => n.removePeer address
  | checkPeerTimeouts => n.checkPeerTimeouts env
  | requestSync order => n.requestSync env order
  | cancelStalledSync => { n with sync := n.sync.cancelStalledSync env.now }
  | stop => n.stop
  | updateLastSeen i => n.updateLastSeen env i
  | handleMessage i msg => n.handleMessage env i msg
  | blockchain op =>
    match op.run n.node.blockchain with
    | none => n
    | some s => { n with node := { n.node with blockchain := s } }

/-- The node when its threads start. -/
def started (nodeId : Bytes) (config : P2PConfig) (node : Node) : P2PNode :=
  ⟨nodeId, config, true, node, .empty, {}⟩

/-- The node after several operations, each in its surroundings. -/
def runAll (ops : List (Surroundings × Operation)) : P2PNode :=
  ops.foldl (fun n op => op.2.run n op.1) n

/-! ### Changes of the table -/

section Changes

open PeerTable

variable {n : P2PNode} {env : Surroundings}

/-- A sync does not touch the table. -/
theorem table_syncIfHigher (peer : PeerObject) (height : Int64) :
    (n.syncIfHigher env peer height).table = n.table := by
  rw [syncIfHigher]
  split_ifs <;> rfl

theorem table_requestSync (order : List Bytes) : (n.requestSync env order).table = n.table := by
  rw [requestSync]
  split_ifs
  · rfl
  · split <;> rfl

/-- A change of data other than the id. -/
theorem changes_modify (i : ℕ) (f : PeerObject → PeerObject)
    (hf : ∀ peer, (f peer).getAddress = peer.getAddress)
    (hid : ∀ peer, (f peer).nodeId = peer.nodeId) : n.table.Changes (n.table.modify i f hf) :=
  .single (.modify i f hf fun peer => .inl (hid peer))

/-- Both branches. -/
theorem changes_ite {p : Prop} [Decidable p] {m m' : P2PNode} (h : n.table.Changes m.table)
    (h' : n.table.Changes m'.table) : n.table.Changes (if p then m else m').table := by
  split_ifs
  · exact h
  · exact h'

theorem changes_removePeer (address : Bytes) :
    n.table.Changes (n.removePeer address).table := by
  rw [removePeer]
  split
  · exact .refl
  · exact .single (.erase address)

theorem changes_connectToPeer (ip : Bytes) (port : UInt16) :
    n.table.Changes (n.connectToPeer env ip port).table :=
  changes_ite .refl (changes_ite .refl (changes_ite .refl
    (changes_ite (.single (.insert _ rfl)) .refl)))

theorem changes_acceptConnection (ip : Bytes) (port : UInt16) :
    n.table.Changes (n.acceptConnection env ip port).table :=
  changes_ite .refl (changes_ite .refl (.single (.insert _ rfl)))

theorem changes_checkPeerTimeouts : n.table.Changes (n.checkPeerTimeouts env).table := by
  rw [checkPeerTimeouts]
  generalize (n.table.listed.filter _).map PeerObject.getAddress = timedOut
  induction timedOut generalizing n with
  | nil => exact .refl
  | cons address timedOut ih => exact (changes_removePeer address).trans ih

theorem changes_handlePeerInfo (line : Bytes) :
    n.table.Changes (n.handlePeerInfo env line).table := by
  rw [handlePeerInfo]
  split
  · exact .refl
  · exact changes_ite .refl (changes_ite .refl (changes_ite (changes_connectToPeer _ _) .refl))

theorem changes_foldl_handlePeerInfo (lines : List Bytes) :
    n.table.Changes (lines.foldl (handlePeerInfo env) n).table := by
  induction lines generalizing n with
  | nil => exact .refl
  | cons line lines ih => exact (changes_handlePeerInfo line).trans ih

/-- What an accepted handshake requires of its id. -/
theorem hasPeerWithNodeId_of_acceptedHandshake {i : ℕ} {payload : Bytes} {hs : Handshake}
    (h : n.acceptedHandshake i payload = some hs) :
    n.table.hasPeerWithNodeId hs.nodeId i = false := by
  rw [acceptedHandshake] at h
  split at h
  · split_ifs at h with hself hother
    obtain rfl := Option.some.inj h
    exact Bool.not_eq_true _ ▸ hother
  · cases h

theorem changes_handleHandshake (i : ℕ) (peer : PeerObject) (payload : Bytes) :
    n.table.Changes (n.handleHandshake env i peer payload).table := by
  rw [handleHandshake]
  split
  · exact changes_removePeer _
  · rename_i hs haccepted
    rw [table_syncIfHigher]
    exact .single (.modify i (PeerObject.connect hs) (PeerObject.getAddress_connect hs) fun _ =>
      .inr (hasPeerWithNodeId_of_acceptedHandshake haccepted))

theorem changes_updateLastSeen (i : ℕ) : n.table.Changes (n.updateLastSeen env i).table :=
  changes_modify i (PeerObject.updateLastSeen env.now) (fun _ => rfl) fun _ => rfl

theorem changes_handleBlockHeight (i : ℕ) (peer : PeerObject) (payload : Bytes) :
    n.table.Changes (n.handleBlockHeight env i peer payload).table := by
  rw [handleBlockHeight]
  split
  · exact .refl
  · split_ifs
    · exact .refl
    · rw [table_syncIfHigher]
      exact changes_modify i (PeerObject.setBlockHeight _) (fun _ => rfl) fun _ => rfl

theorem changes_handleMessage (i : ℕ) (msg : Message) :
    n.table.Changes (n.handleMessage env i msg).table := by
  rw [handleMessage]
  split
  · exact .refl
  · refine changes_ite (changes_handleHandshake i _ _) ?_
    refine changes_ite (changes_updateLastSeen i) ?_
    refine changes_ite (changes_foldl_handlePeerInfo _) ?_
    refine changes_ite .refl ?_
    refine changes_ite (changes_handleBlockHeight i _ _) ?_
    exact changes_ite .refl (changes_ite .refl (changes_ite .refl
      (changes_ite (changes_removePeer _) .refl)))

/-- What an operation does to the table. -/
theorem changes_run (op : Operation) : n.table.Changes (op.run n env).table := by
  cases op with
  | acceptConnection ip port => exact changes_acceptConnection ip port
  | connectToPeer ip port => exact changes_connectToPeer ip port
  | disconnectPeer address =>
    rw [Operation.run, disconnectPeer]
    split
    · exact .refl
    · exact .single (.erase address)
  | removePeer address => exact changes_removePeer address
  | checkPeerTimeouts => exact changes_checkPeerTimeouts
  | requestSync order =>
    rw [Operation.run, table_requestSync]
  | cancelStalledSync => exact .refl
  | stop =>
    rw [Operation.run, stop]
    split_ifs
    · exact .refl
    · exact .single .clear
  | updateLastSeen i => exact changes_updateLastSeen i
  | handleMessage i msg => exact changes_handleMessage i msg
  | blockchain op =>
    rw [Operation.run]
    split
    · exact .refl
    · exact .refl

/-- Nor does a run do anything else. -/
theorem changes_runAll (ops : List (Surroundings × Operation)) :
    n.table.Changes (n.runAll ops).table := by
  induction ops generalizing n with
  | nil => exact .refl
  | cons op ops ih => exact (changes_run op.2).trans ih

end Changes

end P2PNode

end p2p

end BlockchainCrypto
