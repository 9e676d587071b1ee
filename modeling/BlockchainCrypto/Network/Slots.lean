import BlockchainCrypto.Network.LostPeers
import BlockchainCrypto.Network.RemovedPeers

/-!
# Connections that stay silent

The rounds of maintenance remove the peers from which nothing has come for too long, but they look
only at the peers that have completed their handshake. So a connection on which nothing ever arrives
keeps its place in the map for as long as it stays open. When such connections fill the map, no
other peer gets in, and the node has nobody to tell about its blocks.

## Main definitions

* `p2p.P2PNode.LeavesAlone`: operations that bring no news of a peer.
* `p2p.P2PNode.Ignores`: operations that bring no news of any peer in the map.

## Main results

* `p2p.P2PNode.lookup_checkPeerTimeouts_iff`: what a round of maintenance removes.
* `p2p.P2PNode.listed_runAll_iff`: which silent peers are still in the map after a run.
* `p2p.P2PNode.locked_out`: a map that is full of unfinished handshakes stays as it is.
-/

namespace BlockchainCrypto

open ByteText

namespace p2p

namespace PeerTable

variable {t u : PeerTable} {address : Bytes} {i j : ℕ} {peer : PeerObject}

theorem mem_listed_iff :
    peer ∈ t.listed ↔ ∃ i, t.peers.lookup peer.getAddress = some i ∧ t.objects[i]? = some peer := by
  rw [listed, List.mem_filterMap]
  constructor
  · rintro ⟨e, he, hpeer⟩
    have hlookup := (mem_entries_iff e).mp he
    exact ⟨e.2, eq_getAddress_of_lookup hlookup hpeer ▸ hlookup, hpeer⟩
  · rintro ⟨i, hi, hpeer⟩
    exact ⟨⟨peer.getAddress, i⟩, (mem_entries_iff ⟨_, _⟩).mpr hi, hpeer⟩

/-- An object that has left the map does not come back. -/
theorem not_listed_of_changes (hi : i < t.objects.length) (hnot : ¬ t.Listed i)
    (h : t.Changes u) : i < u.objects.length ∧ ¬ u.Listed i := by
  induction h with
  | refl => exact ⟨hi, hnot⟩
  | @tail u _ _ hchange ih =>
    obtain ⟨hi, hnot⟩ := ih
    cases hchange with
    | insert new hnew =>
      constructor
      · rw [insert, List.length_append]
        exact Nat.lt_add_right _ hi
      · rintro ⟨address, hlookup⟩
        rcases lookup_insert_iff.mp hlookup with ⟨-, heq⟩ | ⟨-, hold⟩
        · exact absurd heq hi.ne
        · exact hnot ⟨address, hold⟩
    | erase other =>
      refine ⟨hi, ?_⟩
      rintro ⟨address, hlookup⟩
      exact hnot ⟨address, (lookup_erase_iff.mp hlookup).2⟩
    | clear =>
      refine ⟨hi, ?_⟩
      rintro ⟨address, hlookup⟩
      simp [clear] at hlookup
    | modify j f hf hid =>
      refine ⟨?_, hnot⟩
      rw [modify, List.length_modify]
      exact hi

/-- The data of the object are the same. -/
def Keeps (i : ℕ) (t u : PeerTable) : Prop :=
  ∀ peer, t.objects[i]? = some peer → u.objects[i]? = some peer

theorem keeps_insert (new : PeerObject) : Keeps i t (t.insert new) := fun _ hpeer =>
  (List.getElem?_append_left (List.getElem?_eq_some_iff.mp hpeer).1).trans hpeer

theorem keeps_modify (f : PeerObject → PeerObject)
    (hf : ∀ peer, (f peer).getAddress = peer.getAddress) (h : j ≠ i) :
    Keeps i t (t.modify j f hf) := fun peer hpeer => by
  rw [modify, List.getElem?_modify, hpeer]
  simp [h]

end PeerTable

namespace P2PNode

open PeerTable

variable (n : P2PNode) (env : Surroundings)

/-- The map has no place for another peer. -/
def Full : Prop := n.config.maxPeers ≤ n.table.size

instance : Decidable n.Full := inferInstanceAs (Decidable (_ ≤ _))

/-- A peer that has completed its handshake has been silent for longer than the timeout. -/
def TimedOut (now : Int64) (peer : PeerObject) : Prop :=
  peer.state = .CONNECTED ∧ now - peer.lastSeen > n.config.peerTimeout

instance (now : Int64) (peer : PeerObject) : Decidable (n.TimedOut now peer) :=
  inferInstanceAs (Decidable (_ ∧ _))

/-- The operation brings no news of the object: nothing arrives on its connection, nobody ends it,
and no new connection takes its address. -/
def LeavesAlone (i : ℕ) (address : Bytes) : Operation → Prop
  | .acceptConnection ip port => addressOf ip port = address → n.Full
  | .connectToPeer ip port =>
    addressOf ip port = address → n.Full ∨ env.dialled ip port = false
  | .disconnectPeer other | .removePeer other => other ≠ address
  | .stop => n.running = false
  | .updateLastSeen j => j ≠ i
  | .handleMessage j msg =>
    ∀ sender, n.table.objects[j]? = some sender → sender.getAddress ≠ address ∧
      ¬ DialsOneOf env address n ((msg.payload.splitOn newline).filter (· ≠ []))
  | _ => True

/-- The operation brings no news of the objects in the map. -/
def Ignores : Operation → Prop
  | .disconnectPeer address | .removePeer address => address ∉ n.table.peers
  | .stop => n.running = false
  | .updateLastSeen j | .handleMessage j _ =>
    ∀ sender, n.table.objects[j]? = some sender → sender.getAddress ∉ n.table.peers
  | _ => True

variable {n env} {i : ℕ} {address : Bytes} {peer : PeerObject}

/-! ### Maintenance -/

theorem lookup_removePeer_iff {other : Bytes} :
    (n.removePeer address).table.peers.lookup other = some i ↔
      other ≠ address ∧ n.table.peers.lookup other = some i := by
  rw [removePeer]
  cases hlookup : n.table.peers.lookup address with
  | none =>
    refine ⟨fun h => ⟨?_, h⟩, And.right⟩
    rintro rfl
    rw [hlookup] at h
    cases h
  | some j => exact lookup_erase_iff

theorem objects_removePeer (address : Bytes) :
    (n.removePeer address).table.objects = n.table.objects := by
  rw [removePeer]
  split <;> rfl

theorem lookup_foldl_removePeer_iff {addresses : List Bytes} :
    (addresses.foldl removePeer n).table.peers.lookup address = some i ↔
      address ∉ addresses ∧ n.table.peers.lookup address = some i := by
  induction addresses generalizing n with
  | nil => simp
  | cons other addresses ih =>
    rw [List.foldl_cons, ih, lookup_removePeer_iff, List.mem_cons, not_or, ← and_assoc,
      and_comm (a := address ∉ addresses)]

/-- A round of maintenance removes the peers that have timed out, and no others. -/
theorem lookup_checkPeerTimeouts_iff (hpeer : n.table.objects[i]? = some peer) :
    (n.checkPeerTimeouts env).table.peers.lookup address = some i ↔
      n.table.peers.lookup address = some i ∧ ¬ n.TimedOut env.now peer := by
  rw [checkPeerTimeouts, lookup_foldl_removePeer_iff, and_comm]
  refine and_congr_right fun hlookup => not_congr ?_
  obtain rfl := eq_getAddress_of_lookup hlookup hpeer
  rw [List.mem_map]
  constructor
  · rintro ⟨other, hother, haddress⟩
    obtain ⟨hlisted, htimedOut⟩ := List.mem_filter.mp hother
    obtain ⟨j, hj, hobject⟩ := mem_listed_iff.mp hlisted
    rw [haddress, hlookup] at hj
    obtain rfl := Option.some.inj hj
    rw [hpeer] at hobject
    exact Option.some.inj hobject ▸ of_decide_eq_true htimedOut
  · exact fun htimedOut => ⟨peer, List.mem_filter.mpr
      ⟨mem_listed_iff.mpr ⟨i, hlookup, hpeer⟩, decide_eq_true htimedOut⟩, rfl⟩

theorem objects_checkPeerTimeouts : (n.checkPeerTimeouts env).table.objects = n.table.objects := by
  rw [checkPeerTimeouts]
  generalize (n.table.listed.filter _).map PeerObject.getAddress = timedOut
  induction timedOut generalizing n with
  | nil => rfl
  | cons address timedOut ih => exact ih.trans (objects_removePeer address)

/-! ### One operation -/

theorem config_removePeer (address : Bytes) : (n.removePeer address).config = n.config := by
  rw [removePeer]
  split <;> rfl

theorem config_connectToPeer (ip : Bytes) (port : UInt16) :
    (n.connectToPeer env ip port).config = n.config := by
  rw [connectToPeer]
  split_ifs <;> rfl

theorem config_syncIfHigher (peer : PeerObject) (height : Int64) :
    (n.syncIfHigher env peer height).config = n.config := by
  rw [syncIfHigher]
  split_ifs <;> rfl

theorem config_handlePeerInfo (line : Bytes) :
    (n.handlePeerInfo env line).config = n.config := by
  rw [handlePeerInfo]
  split
  · rfl
  · split_ifs
    · rfl
    · rfl
    · exact config_connectToPeer _ _
    · rfl

theorem config_foldl_handlePeerInfo (lines : List Bytes) :
    (lines.foldl (handlePeerInfo env) n).config = n.config := by
  induction lines generalizing n with
  | nil => rfl
  | cons line lines ih => exact ih.trans (config_handlePeerInfo line)

theorem config_foldl_removePeer (addresses : List Bytes) :
    (addresses.foldl removePeer n).config = n.config := by
  induction addresses generalizing n with
  | nil => rfl
  | cons address addresses ih => exact ih.trans (config_removePeer address)

/-- No operation changes the settings. -/
theorem config_run (op : Operation) : (op.run n env).config = n.config := by
  cases op with
  | acceptConnection ip port =>
    rw [Operation.run, acceptConnection]
    split_ifs <;> rfl
  | connectToPeer ip port => exact config_connectToPeer ip port
  | disconnectPeer address =>
    rw [Operation.run, disconnectPeer]
    split <;> rfl
  | removePeer address => exact config_removePeer address
  | checkPeerTimeouts => exact config_foldl_removePeer _
  | requestSync order =>
    rw [Operation.run, requestSync]
    split_ifs
    · rfl
    · split <;> rfl
  | cancelStalledSync => rfl
  | stop =>
    rw [Operation.run, stop]
    split_ifs <;> rfl
  | updateLastSeen i => rfl
  | handleMessage i msg =>
    rw [Operation.run, handleMessage]
    split
    · rfl
    · split_ifs
      · rw [handleHandshake]
        split
        · exact config_removePeer _
        · exact config_syncIfHigher _ _
      · rfl
      · exact config_foldl_handlePeerInfo _
      · rfl
      · rw [handleBlockHeight]
        split
        · rfl
        · split_ifs
          · rfl
          · exact config_syncIfHigher _ _
      · rfl
      · rfl
      · rfl
      · exact config_removePeer _
      · rfl
  | blockchain op =>
    rw [Operation.run]
    split <;> rfl

theorem keeps_connectToPeer (ip : Bytes) (port : UInt16) :
    Keeps i n.table (n.connectToPeer env ip port).table := by
  rw [connectToPeer]
  split_ifs
  · exact fun _ h => h
  · exact fun _ h => h
  · exact fun _ h => h
  · exact keeps_insert _
  · exact fun _ h => h

theorem keeps_foldl_handlePeerInfo (lines : List Bytes) :
    Keeps i n.table (lines.foldl (handlePeerInfo env) n).table := by
  induction lines generalizing n with
  | nil => exact fun _ h => h
  | cons line lines ih =>
    refine fun peer hpeer => ih peer ?_
    rcases @table_handlePeerInfo n env line with ⟨new, htable, -⟩ | ⟨htable, -⟩
    · rw [htable]
      exact keeps_insert new peer hpeer
    · rw [htable]
      exact hpeer

theorem keeps_removePeer (address : Bytes) : Keeps i n.table (n.removePeer address).table :=
  fun _ hpeer => by rwa [objects_removePeer]

/-- A message changes the data of its sender alone. -/
theorem keeps_handleMessage {j : ℕ} (h : j ≠ i) (msg : Message) :
    Keeps i n.table (n.handleMessage env j msg).table := by
  rw [handleMessage]
  split
  · exact fun _ h => h
  · split_ifs
    · rw [handleHandshake]
      split
      · exact keeps_removePeer _
      · rw [table_syncIfHigher]
        exact keeps_modify _ (PeerObject.getAddress_connect _) h
    · exact keeps_modify (PeerObject.updateLastSeen env.now) (fun _ => rfl) h
    · exact keeps_foldl_handlePeerInfo _
    · exact fun _ h => h
    · rw [handleBlockHeight]
      split
      · exact fun _ h => h
      · split_ifs
        · exact fun _ h => h
        · rw [table_syncIfHigher]
          exact keeps_modify (PeerObject.setBlockHeight _) (fun _ => rfl) h
    · exact fun _ h => h
    · exact fun _ h => h
    · exact fun _ h => h
    · exact keeps_removePeer _
    · exact fun _ h => h

/-- The data of a peer stay the same without news of it. -/
theorem keeps_run {op : Operation} (hpeer : n.table.objects[i]? = some peer)
    (hop : n.LeavesAlone env i peer.getAddress op) :
    (op.run n env).table.objects[i]? = some peer := by
  cases op with
  | acceptConnection ip port =>
    rw [Operation.run, acceptConnection]
    split_ifs
    · exact hpeer
    · exact hpeer
    · exact keeps_insert _ peer hpeer
  | connectToPeer ip port => exact keeps_connectToPeer ip port peer hpeer
  | disconnectPeer address =>
    rw [Operation.run, disconnectPeer]
    split <;> exact hpeer
  | removePeer address => exact keeps_removePeer address peer hpeer
  | checkPeerTimeouts =>
    rw [Operation.run, objects_checkPeerTimeouts]
    exact hpeer
  | requestSync order =>
    rw [Operation.run, table_requestSync]
    exact hpeer
  | cancelStalledSync => exact hpeer
  | stop =>
    rw [Operation.run, stop]
    split_ifs <;> exact hpeer
  | updateLastSeen j => 
    exact keeps_modify (PeerObject.updateLastSeen env.now) (fun _ => rfl) hop peer hpeer
  | handleMessage j msg =>
    rcases eq_or_ne j i with rfl | hne
    · exact absurd rfl (hop peer hpeer).1
    · exact keeps_handleMessage hne msg peer hpeer
  | blockchain op =>
    rw [Operation.run]
    split <;> exact hpeer

/-- A message of another address leaves the entry alone, unless it makes the node dial there. -/
theorem lookup_handleMessage {j : ℕ} {msg : Message} (hpeer : n.table.objects[i]? = some peer)
    (hlookup : n.table.peers.lookup peer.getAddress = some i)
    (hop : n.LeavesAlone env i peer.getAddress (.handleMessage j msg)) :
    (n.handleMessage env j msg).table.peers.lookup peer.getAddress = some i := by
  have hholds : n.table.Holds i peer.getAddress := ⟨peer, hpeer, rfl⟩
  rw [handleMessage]
  split
  · exact hlookup
  · rename_i sender hsender
    obtain ⟨hne, hdials⟩ := hop sender hsender
    have hremoved : (n.removePeer sender.getAddress).table.peers.lookup peer.getAddress = some i :=
      lookup_removePeer_iff.mpr ⟨hne.symm, hlookup⟩
    split_ifs
    · rw [handleHandshake]
      split
      · exact hremoved
      · rw [table_syncIfHigher]
        exact hlookup
    · exact hlookup
    · rw [handlePeers, ← (hholds.of_changes (changes_foldl_handlePeerInfo _)).listed_iff,
        listed_foldl_handlePeerInfo_iff hholds]
      exact ⟨⟨_, hlookup⟩, hdials⟩
    · exact hlookup
    · rw [handleBlockHeight]
      split
      · exact hlookup
      · split_ifs
        · exact hlookup
        · rw [table_syncIfHigher]
          exact hlookup
    · exact hlookup
    · exact hlookup
    · exact hlookup
    · exact hremoved
    · exact hlookup

/-- A silent peer leaves the map only in a round of maintenance in which it has timed out. -/
theorem listed_run_iff {op : Operation} (hpeer : n.table.objects[i]? = some peer)
    (hlisted : n.table.Listed i) (hop : n.LeavesAlone env i peer.getAddress op) :
    (op.run n env).table.Listed i ↔ ¬ (op = .checkPeerTimeouts ∧ n.TimedOut env.now peer) := by
  have hholds : n.table.Holds i peer.getAddress := ⟨peer, hpeer, rfl⟩
  have hlookup := hholds.listed_iff.mp hlisted
  rw [(hholds.of_changes (changes_run op)).listed_iff]
  have hinsert (new : PeerObject) (hne : new.getAddress ≠ peer.getAddress) :
      (n.table.insert new).peers.lookup peer.getAddress = some i :=
    lookup_insert_iff.mpr (.inr ⟨hne.symm, hlookup⟩)
  have hother {op : Operation} (hne : op ≠ .checkPeerTimeouts) :
      ¬ (op = .checkPeerTimeouts ∧ n.TimedOut env.now peer) := fun h => hne h.1
  cases op with
  | checkPeerTimeouts =>
    rw [Operation.run, lookup_checkPeerTimeouts_iff hpeer, and_iff_right hlookup, and_iff_right rfl]
  | acceptConnection ip port =>
    refine iff_of_true ?_ (hother (by rintro ⟨⟩))
    rw [Operation.run, acceptConnection]
    split_ifs with hrunning hsize
    · exact hlookup
    · exact hlookup
    · exact hinsert _ fun heq => hsize (hop heq)
  | connectToPeer ip port =>
    refine iff_of_true ?_ (hother (by rintro ⟨⟩))
    rw [Operation.run, connectToPeer]
    split_ifs with hrunning hknown hsize hdialled
    · exact hlookup
    · exact hlookup
    · exact hlookup
    · refine hinsert _ fun heq => (hop heq).elim hsize fun hfailed => ?_
      rw [hdialled] at hfailed
      cases hfailed
    · exact hlookup
  | disconnectPeer address =>
    refine iff_of_true ?_ (hother (by rintro ⟨⟩))
    rw [Operation.run, disconnectPeer]
    split
    · exact hlookup
    · exact lookup_erase_iff.mpr ⟨Ne.symm hop, hlookup⟩
  | removePeer address =>
    exact iff_of_true (lookup_removePeer_iff.mpr ⟨Ne.symm hop, hlookup⟩) (hother (by rintro ⟨⟩))
  | requestSync order =>
    refine iff_of_true ?_ (hother (by rintro ⟨⟩))
    rw [Operation.run, table_requestSync]
    exact hlookup
  | cancelStalledSync => exact iff_of_true hlookup (hother (by rintro ⟨⟩))
  | stop =>
    refine iff_of_true ?_ (hother (by rintro ⟨⟩))
    have hstopped : n.running = false := hop
    rw [Operation.run, stop, hstopped]
    exact hlookup
  | updateLastSeen j => exact iff_of_true hlookup (hother (by rintro ⟨⟩))
  | handleMessage j msg =>
    exact iff_of_true (lookup_handleMessage hpeer hlookup hop) (hother (by rintro ⟨⟩))
  | blockchain op =>
    refine iff_of_true ?_ (hother (by rintro ⟨⟩))
    rw [Operation.run]
    split <;> exact hlookup

/-! ### Runs -/

variable {ops : List (Surroundings × Operation)}

theorem Full.not_dials (h : n.Full) (line : Bytes) : ¬ Dials env n line address := by
  rintro ⟨info, -, -, -, -, -, -, hsize, -⟩
  exact Nat.not_le.mpr hsize h

/-- Which peers without news of them are in the map after a run: those that have not completed their
handshake, and those that no round of maintenance has found timed out. -/
theorem listed_runAll_iff (hpeer : n.table.objects[i]? = some peer) (hlisted : n.table.Listed i)
    (hquiet : ∀ k (hk : k < ops.length),
      (n.runAll (ops.take k)).LeavesAlone ops[k].1 i peer.getAddress ops[k].2) :
    (n.runAll ops).table.Listed i ↔
      ¬ (peer.state = .CONNECTED ∧ ∃ env, (env, .checkPeerTimeouts) ∈ ops ∧
        env.now - peer.lastSeen > n.config.peerTimeout) := by
  induction ops generalizing n with
  | nil => simp [runAll, hlisted]
  | cons op ops ih =>
    obtain ⟨env, op⟩ := op
    have hfirst : n.LeavesAlone env i peer.getAddress op := hquiet 0 (Nat.succ_pos _)
    have hrun : n.runAll ((env, op) :: ops) = (op.run n env).runAll ops := rfl
    have hiff := listed_run_iff hpeer hlisted hfirst
    rw [hrun]
    by_cases htimedOut : op = .checkPeerTimeouts ∧ n.TimedOut env.now peer
    · obtain ⟨rfl, hconnected, hlate⟩ := id htimedOut
      refine iff_of_false ?_ fun h => h ⟨hconnected, env, List.mem_cons_self, hlate⟩
      have hgone := fun hlisted => hiff.mp hlisted htimedOut
      have hlt := (List.getElem?_eq_some_iff.mp (keeps_run hpeer hfirst)).1
      exact (not_listed_of_changes hlt hgone (changes_runAll ops)).2
    · rw [ih (keeps_run hpeer hfirst) (hiff.mpr htimedOut) fun k hk =>
        hquiet (k + 1) (Nat.succ_lt_succ hk), config_run]
      refine not_congr (and_congr_right fun hconnected => exists_congr fun env' => ?_)
      rw [List.mem_cons, Prod.mk.injEq]
      constructor
      · exact fun h => ⟨.inr h.1, h.2⟩
      · rintro ⟨⟨rfl, hop⟩ | hmem, hlate⟩
        · exact absurd ⟨hop.symm, hconnected, hlate⟩ htimedOut
        · exact ⟨hmem, hlate⟩

/-- A node that is told of nothing but one connection. -/
def oneConnection (config : P2PConfig) : P2PNode :=
  (started (ascii "b") config ⟨Blockchain.fresh 50 0, [], []⟩).acceptConnection
    ⟨0, true, fun _ _ => false⟩ (ascii "10.0.0.2") 50000

/-- After its handshake, the peer is silent for more than 90 seconds. -/
theorem listed_runAll_iff_timedOut :
    let n := (oneConnection {}).handleMessage ⟨0, true, fun _ _ => false⟩ 0
      ⟨.HANDSHAKE, ascii "a|8333|0", [], 0⟩
    ¬ (n.runAll [(⟨50000, true, fun _ _ => false⟩, .checkPeerTimeouts),
      (⟨100000, true, fun _ _ => false⟩, .checkPeerTimeouts)]).table.Listed 0 := by
  intro n hlisted
  have hpeer : n.table.objects[0]? = some
      ⟨⟨ascii "10.0.0.2", 50000, 8333, .CONNECTED, ascii "a", 0, []⟩, 0⟩ := by decide +kernel
  refine (listed_runAll_iff hpeer ⟨ascii "10.0.0.2:50000", by decide +kernel⟩ fun k hk => ?_).mp
    hlisted ⟨rfl, _, List.mem_cons_of_mem _ List.mem_cons_self, by decide⟩
  rcases Nat.lt_succ_iff_lt_or_eq.mp hk with hk | rfl
  · obtain rfl := Nat.lt_one_iff.mp hk
    trivial
  · trivial

/-! ### A full map -/

theorem peers_foldl_handlePeerInfo (h : n.Full) (lines : List Bytes) :
    lines.foldl (handlePeerInfo env) n = n := by
  induction lines generalizing n with
  | nil => rfl
  | cons line lines ih =>
    have hfirst : n.handlePeerInfo env line = n := by
      rw [handlePeerInfo]
      split
      · rfl
      · rw [connectToPeer, if_pos (show n.table.size ≥ n.config.maxPeers from h)]
        split_ifs <;> rfl
    rw [List.foldl_cons, hfirst]
    exact ih h

/-- Without news of its peers, a map that is full of unfinished handshakes stays as it is. -/
theorem peers_run {op : Operation} (hfull : n.Full)
    (hunfinished : ∀ peer ∈ n.table.listed, peer.state ≠ .CONNECTED) (hop : n.Ignores op) :
    (op.run n env).table.peers = n.table.peers := by
  have hremoved {address : Bytes} (hnot : address ∉ n.table.peers) :
      (n.removePeer address).table.peers = n.table.peers := by
    rw [removePeer, AList.lookup_eq_none.mpr hnot]
  cases op with
  | acceptConnection ip port =>
    rw [Operation.run, acceptConnection, if_pos (show n.table.size ≥ n.config.maxPeers from hfull)]
    split_ifs <;> rfl
  | connectToPeer ip port =>
    rw [Operation.run, connectToPeer, if_pos (show n.table.size ≥ n.config.maxPeers from hfull)]
    split_ifs <;> rfl
  | disconnectPeer address =>
    rw [Operation.run, disconnectPeer, AList.lookup_eq_none.mpr hop]
  | removePeer address => exact hremoved hop
  | checkPeerTimeouts =>
    have hnone : (n.table.listed.filter fun peer =>
        peer.state = .CONNECTED ∧ env.now - peer.lastSeen > n.config.peerTimeout) = [] :=
      List.filter_eq_nil_iff.mpr fun peer hpeer htimedOut =>
        hunfinished peer hpeer (of_decide_eq_true htimedOut).1
    rw [Operation.run, checkPeerTimeouts, hnone]
    rfl
  | requestSync order => rw [Operation.run, table_requestSync]
  | cancelStalledSync => rfl
  | stop =>
    have hstopped : n.running = false := hop
    rw [Operation.run, stop, hstopped]
    rfl
  | updateLastSeen j => rfl
  | handleMessage j msg =>
    rw [Operation.run, handleMessage]
    split
    · rfl
    · rename_i sender hsender
      have hsender := hremoved (hop sender hsender)
      split_ifs
      · rw [handleHandshake]
        split
        · exact hsender
        · rw [table_syncIfHigher]
          rfl
      · rfl
      · rw [handlePeers, peers_foldl_handlePeerInfo hfull]
      · rfl
      · rw [handleBlockHeight]
        split
        · rfl
        · split_ifs
          · rfl
          · rw [table_syncIfHigher]
            rfl
      · rfl
      · rfl
      · rfl
      · exact hsender
      · rfl
  | blockchain op =>
    rw [Operation.run]
    split <;> rfl

/-- In a full map, what is no news of any peer is no news of a given one. -/
theorem Ignores.leavesAlone {op : Operation} (h : n.Ignores op) (hfull : n.Full)
    (hpeer : n.table.objects[i]? = some peer) (hlisted : n.table.Listed i) :
    n.LeavesAlone env i peer.getAddress op := by
  have hlookup := PeerTable.Holds.listed_iff (t := n.table) ⟨peer, hpeer, rfl⟩ |>.mp hlisted
  have hmem : peer.getAddress ∈ n.table.peers := AList.lookup_isSome.mp (by rw [hlookup]; rfl)
  have hne {other : Bytes} (hnot : other ∉ n.table.peers) : other ≠ peer.getAddress := fun heq =>
    hnot (heq ▸ hmem)
  cases op with
  | acceptConnection ip port => exact fun _ => hfull
  | connectToPeer ip port => exact fun _ => .inl hfull
  | disconnectPeer address => exact hne h
  | removePeer address => exact hne h
  | stop => exact h
  | updateLastSeen j =>
    rintro rfl
    exact h peer hpeer hmem
  | handleMessage j msg =>
    refine fun sender hsender => ⟨hne (h sender hsender), ?_⟩
    generalize (msg.payload.splitOn newline).filter _ = lines
    induction lines with
    | nil => exact id
    | cons line lines ih =>
      rintro (hdials | hdials)
      · exact hfull.not_dials line hdials
      · rw [show n.handlePeerInfo env line = n from
          peers_foldl_handlePeerInfo hfull [line]] at hdials
        exact ih hdials
  | _ => trivial

/-- When as many connections as the node allows have not completed their handshake, and nothing
arrives on them and nobody ends them, then whatever else happens they keep their places: no other
peer gets in, and nobody counts as connected. -/
theorem locked_out (hfull : n.Full) (hunfinished : ∀ peer ∈ n.table.listed, peer.state ≠ .CONNECTED)
    (hsilent : ∀ k (hk : k < ops.length), (n.runAll (ops.take k)).Ignores ops[k].2) :
    (n.runAll ops).table.peers = n.table.peers ∧ (n.runAll ops).table.getPeerCount = 0 := by
  have hcount : n.table.getPeerCount = 0 :=
    List.countP_eq_zero.mpr fun peer hpeer hconnected =>
      hunfinished peer hpeer (of_decide_eq_true hconnected)
  induction ops generalizing n with
  | nil => exact ⟨rfl, hcount⟩
  | cons op ops ih =>
    obtain ⟨env, op⟩ := op
    have hfirst : n.Ignores op := hsilent 0 (Nat.succ_pos _)
    have hpeers : (op.run n env).table.peers = n.table.peers := peers_run hfull hunfinished hfirst
    have hfull' : (op.run n env).Full := by
      rw [Full, config_run, PeerTable.size, hpeers]
      exact hfull
    have hunfinished' : ∀ peer ∈ (op.run n env).table.listed, peer.state ≠ .CONNECTED := by
      intro peer hpeer
      obtain ⟨i, hlookup, hobject⟩ := mem_listed_iff.mp hpeer
      rw [hpeers] at hlookup
      obtain ⟨old, hold, -⟩ := n.table.keyed _ _ hlookup
      have haddress := eq_getAddress_of_lookup hlookup hold
      have halone : n.LeavesAlone env i old.getAddress op :=
        hfirst.leavesAlone hfull hold ⟨_, hlookup⟩
      have hkept := keeps_run hold halone
      rw [hobject] at hkept
      obtain rfl := Option.some.inj hkept
      exact hunfinished _ (mem_listed_iff.mpr ⟨i, hlookup, hold⟩)
    have hcount' : (op.run n env).table.getPeerCount = 0 :=
      List.countP_eq_zero.mpr fun peer hpeer hconnected =>
        hunfinished' peer hpeer (of_decide_eq_true hconnected)
    have hrun := ih hfull' hunfinished' (fun k hk => hsilent (k + 1) (Nat.succ_lt_succ hk)) hcount'
    exact ⟨hrun.1.trans hpeers, hrun.2⟩

/-- One connection locks out the peers of a node that takes one peer. -/
theorem locked_out_oneConnection :
    ((oneConnection { maxPeers := 1 }).runAll
        [(⟨1000000, true, fun _ _ => true⟩, .checkPeerTimeouts),
          (⟨1000000, true, fun _ _ => true⟩,
            .acceptConnection (ascii "10.0.0.3") 50000)]).table.peers =
      (oneConnection { maxPeers := 1 }).table.peers := by
  have hlisted : (oneConnection { maxPeers := 1 }).table.listed =
      [PeerObject.create (ascii "10.0.0.2") 50000 0 0] := by decide +kernel
  refine (locked_out (by decide +kernel) (fun peer hpeer => ?_) fun k hk => ?_).1
  · rw [hlisted] at hpeer
    rw [List.mem_singleton.mp hpeer]
    decide
  · rcases Nat.lt_succ_iff_lt_or_eq.mp hk with hk | rfl
    · obtain rfl := Nat.lt_one_iff.mp hk
      trivial
    · trivial

end P2PNode

end p2p

end BlockchainCrypto
