import BlockchainCrypto.Network.P2PNode

/-!
# One connection for each node id

A handshake is refused when another peer in the map has the id that it claims. So no two peers in
the map have the same id, whatever text the handshakes consist of, unless this id is empty: the
search does not look for an empty id, and a peer that claims it is connected.

## Main definitions

* `p2p.PeerTable.NodeIdsDiffer`: two peers in the map have different ids, but for empty ones.
* `p2p.P2PNode.ConnectedOnce`: the same of the peers that are connected.

## Main results

* `p2p.PeerTable.NodeIdsDiffer.of_changes`: the changes of a table keep the ids different.
* `p2p.P2PNode.connectedOnce_runAll`: the ids of the connected peers in every run.
-/

namespace BlockchainCrypto

open ByteText

namespace p2p

namespace PeerTable

/-- Entries with the same id that is not empty point to the same object. -/
def NodeIdsDiffer (t : PeerTable) : Prop :=
  ∀ address other i j peer peer', t.peers.lookup address = some i → t.peers.lookup other = some j →
    t.objects[i]? = some peer → t.objects[j]? = some peer' → peer.nodeId = peer'.nodeId →
    peer.nodeId ≠ [] → i = j

variable {t : PeerTable}

theorem nodeIdsDiffer_empty : empty.NodeIdsDiffer := by
  intro address other i j peer peer' h
  cases h

theorem NodeIdsDiffer.erase (h : t.NodeIdsDiffer) (address : Bytes) :
    (t.erase address).NodeIdsDiffer := by
  intro a b i j peer peer' ha hb hi hj heq hne
  exact h a b i j peer peer' (lookup_erase_iff.mp ha).2 (lookup_erase_iff.mp hb).2 hi hj heq hne

theorem nodeIdsDiffer_clear (t : PeerTable) : t.clear.NodeIdsDiffer := by
  intro address other i j peer peer' h
  cases h

/-- An entry after an insertion is the new one or an old one. -/
theorem lookup_insert_cases {new : PeerObject} {address : Bytes} {i : ℕ} {peer : PeerObject}
    (h : (t.insert new).peers.lookup address = some i)
    (hpeer : (t.insert new).objects[i]? = some peer) :
    peer = new ∨ t.peers.lookup address = some i ∧ t.objects[i]? = some peer := by
  rcases lookup_insert_iff.mp h with ⟨-, rfl⟩ | ⟨-, hold⟩
  · exact .inl (Option.some.inj (hpeer.symm.trans List.getElem?_concat_length))
  · exact .inr ⟨hold, (List.getElem?_append_left (lt_of_lookup hold)).symm.trans hpeer⟩

/-- A new peer has no id yet. -/
theorem NodeIdsDiffer.insert (h : t.NodeIdsDiffer) {new : PeerObject} (hnew : new.nodeId = []) :
    (t.insert new).NodeIdsDiffer := by
  intro a b i j peer peer' ha hb hi hj heq hne
  rcases lookup_insert_cases ha hi with rfl | ⟨hla, hia⟩
  · exact absurd hnew hne
  · rcases lookup_insert_cases hb hj with rfl | ⟨hlb, hjb⟩
    · exact absurd (heq.trans hnew) hne
    · exact h a b i j peer peer' hla hlb hia hjb heq hne

/-- An object after a change of one of them. -/
theorem getElem?_modify_cases {i j : ℕ} {f : PeerObject → PeerObject}
    {hf : ∀ peer, (f peer).getAddress = peer.getAddress} {peer : PeerObject}
    (h : (t.modify j f hf).objects[i]? = some peer) :
    (i = j ∧ ∃ old, t.objects[i]? = some old ∧ peer = f old) ∨
      (i ≠ j ∧ t.objects[i]? = some peer) := by
  rw [modify, List.getElem?_modify] at h
  obtain ⟨old, hold, heq⟩ := Option.map_eq_some_iff.mp h
  rcases eq_or_ne j i with rfl | hne
  · rw [if_pos rfl] at heq
    exact .inl ⟨rfl, old, hold, heq.symm⟩
  · rw [if_neg hne] at heq
    exact .inr ⟨hne.symm, heq ▸ hold⟩

/-- An object takes no id that another object in the map has. -/
theorem NodeIdsDiffer.modify (h : t.NodeIdsDiffer) {i : ℕ} {f : PeerObject → PeerObject}
    (hf : ∀ peer, (f peer).getAddress = peer.getAddress)
    (hid : ∀ peer, (f peer).nodeId = peer.nodeId ∨
      t.hasPeerWithNodeId (f peer).nodeId i = false) : (t.modify i f hf).NodeIdsDiffer := by
  -- the changed object and another one
  have hdiffer {a b : Bytes} {j : ℕ} {old peer : PeerObject} (ha : t.peers.lookup a = some i)
      (hb : t.peers.lookup b = some j) (hi : t.objects[i]? = some old)
      (hj : t.objects[j]? = some peer) (hji : j ≠ i) (heq : (f old).nodeId = peer.nodeId) :
      peer.nodeId = [] := by
    by_contra hne
    rcases hid old with hsame | hother
    · exact hji.symm (h a b i j old peer ha hb hi hj (hsame.symm.trans heq)
        fun hnil => hne (heq.symm.trans (hsame.trans hnil)))
    · have hnone := (hasPeerWithNodeId_eq_false_iff.mp hother).resolve_left (heq ▸ hne)
      exact hnone b j peer hb hji hj heq.symm
  intro a b k j peer peer' ha hb hk hj heq hne
  rcases getElem?_modify_cases hk with ⟨rfl, old, hold, rfl⟩ | ⟨hki, hpeer⟩
  · rcases getElem?_modify_cases hj with ⟨rfl, -, -, -⟩ | ⟨hji, hpeer'⟩
    · rfl
    · exact absurd (heq.trans (hdiffer ha hb hold hpeer' hji heq)) hne
  · rcases getElem?_modify_cases hj with ⟨rfl, old, hold, rfl⟩ | ⟨hji, hpeer'⟩
    · exact absurd (hdiffer hb ha hold hpeer hki heq.symm) hne
    · exact h a b k j peer peer' ha hb hpeer hpeer' heq hne

/-- The changes of a table keep the ids different. -/
theorem NodeIdsDiffer.of_changes {u : PeerTable} (h : t.NodeIdsDiffer) (hchanges : t.Changes u) :
    u.NodeIdsDiffer := by
  induction hchanges with
  | refl => exact h
  | tail _ hchange ih =>
    cases hchange with
    | insert new hnew => exact ih.insert hnew
    | erase address => exact ih.erase address
    | clear => exact nodeIdsDiffer_clear _
    | modify i f hf hid => exact ih.modify hf hid

end PeerTable

namespace P2PNode

/-- No two connected peers in the map have the same id, but for empty ids. -/
def ConnectedOnce (n : P2PNode) : Prop :=
  ∀ address other i j peer peer', n.table.peers.lookup address = some i →
    n.table.peers.lookup other = some j → n.table.objects[i]? = some peer →
    n.table.objects[j]? = some peer' → peer.state = .CONNECTED → peer'.state = .CONNECTED →
    peer.nodeId = peer'.nodeId → peer.nodeId ≠ [] → address = other

/-- Whatever connections are made and whatever handshakes arrive on them, no two connected peers in
the map have the same id, but for empty ids. -/
theorem connectedOnce_runAll (nodeId : Bytes) (config : P2PConfig) (node : Node)
    (ops : List (Surroundings × Operation)) :
    ((started nodeId config node).runAll ops).ConnectedOnce := by
  rintro address other i j peer peer' ha hb hi hj - - heq hne
  have hdiffer := PeerTable.nodeIdsDiffer_empty.of_changes
    (changes_runAll (n := started nodeId config node) ops)
  obtain rfl := hdiffer address other i j peer peer' ha hb hi hj heq hne
  obtain rfl := Option.some.inj (hi.symm.trans hj)
  rw [PeerTable.eq_getAddress_of_lookup ha hi, PeerTable.eq_getAddress_of_lookup hb hj]

/-- Two peers whose handshakes claim an empty id are both connected. -/
theorem connected_twice :
    let node : Node := ⟨Blockchain.fresh 50 0, [], []⟩
    let env : Surroundings := ⟨0, true, fun _ _ => false⟩
    let hello : Message := ⟨.HANDSHAKE, ascii "|8333|0", [], 0⟩
    let ops : List (Surroundings × Operation) :=
      [(env, .acceptConnection (ascii "10.0.0.2") 50000),
        (env, .acceptConnection (ascii "10.0.0.3") 50000),
        (env, .handleMessage 0 hello), (env, .handleMessage 1 hello)]
    let n := (started (ascii "b") {} node).runAll ops
    Blockchain.construct 0 50 0 = some node.blockchain ∧
      n.table.peers.lookup (ascii "10.0.0.2:50000") = some 0 ∧
      n.table.peers.lookup (ascii "10.0.0.3:50000") = some 1 ∧
      n.table.objects.map (fun peer => (peer.state, peer.nodeId)) =
        [(.CONNECTED, []), (.CONNECTED, [])] := by
  intro node env hello ops n
  exact ⟨Blockchain.construct_zero 50 0, by decide +kernel, by decide +kernel, by decide +kernel⟩

end P2PNode

end p2p

end BlockchainCrypto
