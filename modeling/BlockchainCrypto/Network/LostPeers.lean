import BlockchainCrypto.Network.P2PNode

/-!
# Syncs with lost peers

A sync ends when its peer is removed, but not in every way in which a peer can leave the map: the
user who disconnects a peer and the end of the node leave the sync alone. And a handler that still
has a pointer to a peer that has left starts a sync with it. All other operations keep the peer of
the sync in the map.

## Main definitions

* `p2p.P2PNode.SyncPeerListed`: the peer that the node syncs with is in its map.
* `p2p.P2PNode.KeepsSyncPeer`: the operations that keep it there.

## Main results

* `p2p.P2PNode.syncPeerListed_run_iff`: one operation.
* `p2p.P2PNode.syncPeerListed_iff`: the runs of which every state has the peer in the map.
-/

namespace BlockchainCrypto

open ByteText

namespace p2p

namespace P2PNode

/-- The peer that the node syncs with, if any, is in its map. -/
def SyncPeerListed (n : P2PNode) : Prop := n.sync.syncing = true → n.sync.syncPeer ∈ n.table.peers

/-- The height that a message tells of its sender. -/
def announcedHeight (n : P2PNode) (i : ℕ) (msg : Message) : Option Int64 :=
  if msg.type = .HANDSHAKE ∨ msg.type = .HANDSHAKE_ACK then
    (n.acceptedHandshake i msg.payload).map Handshake.blockHeight
  else if msg.type = .BLOCK_HEIGHT then (utils.parseInt64 msg.payload).filter fun h => ¬ h < 0
  else none

variable (n : P2PNode) (env : Surroundings)

/-- The operation does not drop the peer that the node syncs with, and does not start a sync with a
peer that is not in the map. -/
def KeepsSyncPeer : Operation → Prop
  | .disconnectPeer address => n.sync.syncing = true → n.sync.syncPeer ≠ address
  | .stop => n.running = true → n.sync.syncing = false
  | .handleMessage i msg =>
    ∀ peer, n.table.objects[i]? = some peer → ∀ height, n.announcedHeight i msg = some height →
      height > n.getChainSize → n.sync.syncing = false → env.sent = true →
      peer.getAddress ∈ n.table.peers
  | _ => True

variable {n env}

theorem mem_erase_peers {address other : Bytes} :
    other ∈ (n.table.erase address).peers ↔ other ≠ address ∧ other ∈ n.table.peers :=
  AList.mem_erase

theorem mem_insert_peers {other : Bytes} (peer : PeerObject) (h : other ∈ n.table.peers) :
    other ∈ (n.table.insert peer).peers := AList.mem_insert _ |>.mpr (.inr h)

/-! ### Peers that leave -/

theorem SyncPeerListed.cancelSyncIfPeer (h : n.SyncPeerListed) (address : Bytes) :
    ({ n with sync := n.sync.cancelSyncIfPeer address } : P2PNode).SyncPeerListed := by
  intro hsyncing
  dsimp only at hsyncing ⊢
  unfold SyncState.cancelSyncIfPeer at hsyncing ⊢
  split_ifs at hsyncing ⊢ with hpeer
  · exact h hsyncing
  · exact absurd hsyncing Bool.false_ne_true

theorem SyncPeerListed.removePeer (h : n.SyncPeerListed) (address : Bytes) :
    (n.removePeer address).SyncPeerListed := by
  rw [P2PNode.removePeer]
  cases n.table.peers.lookup address with
  | none => exact h
  | some i =>
    intro hsyncing
    dsimp only at hsyncing ⊢
    unfold SyncState.cancelSyncIfPeer at hsyncing ⊢
    split_ifs at hsyncing ⊢ with hpeer
    · exact mem_erase_peers.mpr ⟨hpeer, h hsyncing⟩
    · exact absurd hsyncing Bool.false_ne_true

theorem SyncPeerListed.checkPeerTimeouts (h : n.SyncPeerListed) :
    (n.checkPeerTimeouts env).SyncPeerListed := by
  rw [P2PNode.checkPeerTimeouts]
  generalize (n.table.listed.filter _).map PeerObject.getAddress = timedOut
  induction timedOut generalizing n with
  | nil => exact h
  | cons address timedOut ih => exact ih (h.removePeer address)

/-- Without `cancelSyncIfPeer`, the sync with the peer goes on. -/
theorem syncPeerListed_disconnectPeer_iff (h : n.SyncPeerListed) (address : Bytes) :
    (n.disconnectPeer address).SyncPeerListed ↔
      (n.sync.syncing = true → n.sync.syncPeer ≠ address) := by
  rw [P2PNode.disconnectPeer]
  cases hlookup : n.table.peers.lookup address with
  | none =>
    refine iff_of_true h fun hsyncing heq => ?_
    exact AList.lookup_eq_none.mp hlookup (heq ▸ h hsyncing)
  | some i =>
    refine forall_congr' fun hsyncing => ?_
    exact mem_erase_peers.trans (and_iff_left (h hsyncing))

theorem syncPeerListed_stop_iff (h : n.SyncPeerListed) :
    n.stop.SyncPeerListed ↔ (n.running = true → n.sync.syncing = false) := by
  rw [P2PNode.stop]
  cases hrunning : n.running with
  | false => exact iff_of_true h fun hfalse => absurd hfalse Bool.false_ne_true
  | true =>
    refine ⟨fun hstop _ => Bool.eq_false_iff.mpr fun hsyncing => ?_, fun hidle hsyncing => ?_⟩
    · exact AList.notMem_empty _ (hstop hsyncing)
    · exact absurd (hsyncing.symm.trans (hidle rfl)) Bool.noConfusion

/-! ### Peers that come -/

theorem SyncPeerListed.connectToPeer (h : n.SyncPeerListed) (ip : Bytes) (port : UInt16) :
    (n.connectToPeer env ip port).SyncPeerListed := by
  rw [P2PNode.connectToPeer]
  split_ifs
  · exact h
  · exact h
  · exact h
  · exact fun hsyncing => mem_insert_peers _ (h hsyncing)
  · exact h

theorem SyncPeerListed.acceptConnection (h : n.SyncPeerListed) (ip : Bytes) (port : UInt16) :
    (n.acceptConnection env ip port).SyncPeerListed := by
  rw [P2PNode.acceptConnection]
  split_ifs
  · exact h
  · exact h
  · exact fun hsyncing => mem_insert_peers _ (h hsyncing)

theorem SyncPeerListed.handlePeers (h : n.SyncPeerListed) (payload : Bytes) :
    (n.handlePeers env payload).SyncPeerListed := by
  rw [P2PNode.handlePeers]
  generalize (payload.splitOn newline).filter _ = lines
  induction lines generalizing n with
  | nil => exact h
  | cons line lines ih =>
    refine ih ?_
    unfold handlePeerInfo
    split
    · exact h
    · split_ifs
      · exact h
      · exact h
      · exact h.connectToPeer _ _
      · exact h

/-! ### Syncs that start -/

/-- A sync that starts is with a peer of the map exactly when its address is there. -/
theorem syncPeerListed_syncWithPeer_iff (h : n.SyncPeerListed) (peer : PeerObject) :
    (n.syncWithPeer env peer).SyncPeerListed ↔
      (n.sync.syncing = false → env.sent = true → peer.getAddress ∈ n.table.peers) := by
  rw [P2PNode.syncWithPeer, SyncPeerListed, SyncState.syncWithPeer]
  dsimp only
  split_ifs with hsyncing hsent
  · exact iff_of_true h fun hidle => absurd (hsyncing.symm.trans hidle) Bool.noConfusion
  · simp [hsyncing, hsent, PeerObject.address]
  · simp [SyncState.cancelSync, hsent]

/-- The best peer is one of those that were visited. -/
theorem eq_or_mem_of_foldl_betterPeer {peers : List PeerObject} {best : Option PeerObject × Int64}
    {peer : PeerObject} (h : (peers.foldl betterPeer best).1 = some peer) :
    best.1 = some peer ∨ peer ∈ peers := by
  induction peers generalizing best with
  | nil => exact .inl h
  | cons first peers ih =>
    rcases ih h with hbest | hmem
    · rw [betterPeer] at hbest
      split_ifs at hbest
      · exact .inr (Option.some.inj hbest ▸ List.mem_cons_self)
      · exact .inl hbest
    · exact .inr (List.mem_cons_of_mem _ hmem)

/-- The best peer is in the map. -/
theorem mem_peers_of_findBestPeerForSync {order : List Bytes} {peer : PeerObject}
    (h : n.findBestPeerForSync order = some peer) : peer.getAddress ∈ n.table.peers := by
  rcases eq_or_mem_of_foldl_betterPeer h with hnone | hmem
  · cases hnone
  · obtain ⟨address, -, hlookup⟩ := List.mem_filterMap.mp hmem
    obtain ⟨i, hi, hpeer⟩ := Option.bind_eq_some_iff.mp hlookup
    rw [← PeerTable.eq_getAddress_of_lookup hi hpeer, ← AList.lookup_isSome, hi]
    rfl

theorem SyncPeerListed.requestSync (h : n.SyncPeerListed) (order : List Bytes) :
    (n.requestSync env order).SyncPeerListed := by
  rw [P2PNode.requestSync]
  split_ifs
  · exact h
  · split
    · exact h
    · rename_i peer hbest
      exact (syncPeerListed_syncWithPeer_iff h peer).mpr fun _ _ =>
        mem_peers_of_findBestPeerForSync hbest

theorem syncPeerListed_syncIfHigher_iff (h : n.SyncPeerListed) (peer : PeerObject)
    (height : Int64) :
    (n.syncIfHigher env peer height).SyncPeerListed ↔
      (height > n.getChainSize → n.sync.syncing = false → env.sent = true →
        peer.getAddress ∈ n.table.peers) := by
  rw [syncIfHigher]
  split_ifs with hheight
  · rw [syncPeerListed_syncWithPeer_iff h peer, forall_prop_of_true hheight]
  · exact iff_of_true h fun hhigh => absurd hhigh hheight

theorem SyncPeerListed.cancelStalledSync (h : n.SyncPeerListed) :
    ({ n with sync := n.sync.cancelStalledSync env.now } : P2PNode).SyncPeerListed := by
  intro hsyncing
  dsimp only at hsyncing ⊢
  unfold SyncState.cancelStalledSync at hsyncing ⊢
  split_ifs at hsyncing ⊢
  · exact h hsyncing
  · exact h hsyncing
  · exact absurd hsyncing Bool.false_ne_true

/-! ### Operations -/

theorem announcedHeight_eq_none {i : ℕ} {msg : Message}
    (hhandshake : ¬ (msg.type = .HANDSHAKE ∨ msg.type = .HANDSHAKE_ACK))
    (hheight : msg.type ≠ .BLOCK_HEIGHT) : n.announcedHeight i msg = none := by
  rw [announcedHeight, if_neg hhandshake, if_neg hheight]

theorem syncPeerListed_handleHandshake_iff (h : n.SyncPeerListed) (i : ℕ) (peer : PeerObject)
    (payload : Bytes) :
    (n.handleHandshake env i peer payload).SyncPeerListed ↔
      ∀ hs, n.acceptedHandshake i payload = some hs → hs.blockHeight > n.getChainSize →
        n.sync.syncing = false → env.sent = true → peer.getAddress ∈ n.table.peers := by
  rw [handleHandshake]
  cases n.acceptedHandshake i payload with
  | none => exact iff_of_true (h.removePeer _) fun hs hnone => by cases hnone
  | some hs =>
    simp only [Option.some.injEq, forall_eq']
    exact syncPeerListed_syncIfHigher_iff (n := { n with table := n.table.modify i _ _ }) h peer _

theorem syncPeerListed_handleBlockHeight_iff (h : n.SyncPeerListed) (i : ℕ) (peer : PeerObject)
    (payload : Bytes) :
    (n.handleBlockHeight env i peer payload).SyncPeerListed ↔
      ∀ height, utils.parseInt64 payload = some height → ¬ height < 0 → height > n.getChainSize →
        n.sync.syncing = false → env.sent = true → peer.getAddress ∈ n.table.peers := by
  rw [handleBlockHeight]
  cases utils.parseInt64 payload with
  | none => exact iff_of_true h fun height hnone => by cases hnone
  | some height =>
    simp only [Option.some.injEq, forall_eq']
    split_ifs with hnegative
    · exact iff_of_true h fun hnot => absurd hnegative hnot
    · rw [forall_prop_of_true hnegative]
      exact syncPeerListed_syncIfHigher_iff (n := { n with table := n.table.modify i _ _ }) h peer _

/-- A message keeps the sync with a peer of the map, unless it starts one with a peer that is not
in the map. -/
theorem syncPeerListed_handleMessage_iff (h : n.SyncPeerListed) (i : ℕ) (msg : Message) :
    (n.handleMessage env i msg).SyncPeerListed ↔ n.KeepsSyncPeer env (.handleMessage i msg) := by
  rw [KeepsSyncPeer, handleMessage]
  cases hpeer : n.table.objects[i]? with
  | none => exact iff_of_true h fun peer hnone => by cases hnone
  | some peer =>
    simp only [Option.some.injEq, forall_eq']
    by_cases hhandshake : msg.type = .HANDSHAKE ∨ msg.type = .HANDSHAKE_ACK
    · rw [if_pos hhandshake, syncPeerListed_handleHandshake_iff h, announcedHeight,
        if_pos hhandshake]
      simp only [Option.map_eq_some_iff, forall_exists_index, and_imp, forall_apply_eq_imp_iff₂]
    rw [if_neg hhandshake]
    by_cases hheight : msg.type = .BLOCK_HEIGHT
    · have hother : ¬ (msg.type = .PONG) ∧ ¬ (msg.type = .PEERS) ∧ ¬ (msg.type = .BLOCKS) := by
        rw [hheight]
        decide
      rw [if_neg hother.1, if_neg hother.2.1, if_neg hother.2.2, if_pos hheight,
        syncPeerListed_handleBlockHeight_iff h, announcedHeight, if_neg hhandshake, if_pos hheight]
      simp only [Option.filter_eq_some_iff, and_imp, decide_not, Bool.not_eq_true',
        decide_eq_false_iff_not]
    · rw [announcedHeight_eq_none hhandshake hheight, if_neg hheight]
      refine iff_of_true ?_ fun height hnone => by cases hnone
      split_ifs
      · exact h
      · exact h.handlePeers _
      · exact h.cancelSyncIfPeer _
      · exact h
      · exact h
      · exact h.cancelSyncIfPeer _
      · exact h.removePeer _
      · exact h

/-- Which operations keep the sync with a peer of the map. -/
theorem syncPeerListed_run_iff (h : n.SyncPeerListed) (op : Operation) :
    (op.run n env).SyncPeerListed ↔ n.KeepsSyncPeer env op := by
  cases op with
  | acceptConnection ip port => exact iff_of_true (h.acceptConnection ip port) trivial
  | connectToPeer ip port => exact iff_of_true (h.connectToPeer ip port) trivial
  | disconnectPeer address => exact syncPeerListed_disconnectPeer_iff h address
  | removePeer address => exact iff_of_true (h.removePeer address) trivial
  | checkPeerTimeouts => exact iff_of_true h.checkPeerTimeouts trivial
  | requestSync order => exact iff_of_true (h.requestSync order) trivial
  | cancelStalledSync => exact iff_of_true h.cancelStalledSync trivial
  | stop => exact syncPeerListed_stop_iff h
  | updateLastSeen i => exact iff_of_true h trivial
  | handleMessage i msg => exact syncPeerListed_handleMessage_iff h i msg
  | blockchain op =>
    refine iff_of_true ?_ trivial
    rw [Operation.run]
    split
    · exact h
    · exact h

theorem runAll_take_succ {ops : List (Surroundings × Operation)} {k : ℕ} (hk : k < ops.length) :
    n.runAll (ops.take (k + 1)) = ops[k].2.run (n.runAll (ops.take k)) ops[k].1 := by
  rw [runAll, List.take_succ_eq_append_getElem hk, List.foldl_append]
  rfl

/-- The peer that the node syncs with is in its map all the time exactly when every operation keeps
it there: the user does not disconnect it, the node is not stopped during a sync, and no message of
a peer that is not in the map starts a sync. -/
theorem syncPeerListed_iff (nodeId : Bytes) (config : P2PConfig) (node : Node)
    (ops : List (Surroundings × Operation)) :
    (∀ k ≤ ops.length, ((started nodeId config node).runAll (ops.take k)).SyncPeerListed) ↔
      ∀ k (hk : k < ops.length),
        ((started nodeId config node).runAll (ops.take k)).KeepsSyncPeer ops[k].1 ops[k].2 := by
  constructor
  · intro h k hk
    have hnext := h (k + 1) hk
    rw [runAll_take_succ hk] at hnext
    exact (syncPeerListed_run_iff (h k hk.le) _).mp hnext
  · intro h k hk
    induction k with
    | zero => exact fun hsyncing => absurd hsyncing Bool.false_ne_true
    | succ k ih =>
      rw [runAll_take_succ hk]
      exact (syncPeerListed_run_iff (ih (Nat.le_of_succ_le hk)) _).mpr (h k hk)

/-- The user disconnects the peer that the node syncs with. -/
theorem disconnectPeer_keeps_sync :
    let node : Node := ⟨Blockchain.fresh 50 0, [], []⟩
    let env : Surroundings := ⟨0, true, fun _ _ => false⟩
    let ops : List (Surroundings × Operation) :=
      [(env, .acceptConnection (ascii "10.0.0.2") 50000),
        (env, .handleMessage 0 ⟨.HANDSHAKE, ascii "a|8333|5", [], 0⟩),
        (env, .disconnectPeer (ascii "10.0.0.2:50000"))]
    Blockchain.construct 0 50 0 = some node.blockchain ∧
      ¬ ((started (ascii "b") {} node).runAll ops).SyncPeerListed := by
  intro node env ops
  refine ⟨Blockchain.construct_zero 50 0, fun h => ?_⟩
  have hsync : ((started (ascii "b") {} node).runAll ops).sync.syncing = true := by decide +kernel
  exact absurd (h hsync) (by decide +kernel)

end P2PNode

end p2p

end BlockchainCrypto
