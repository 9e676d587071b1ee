import BlockchainCrypto.Network.Dialling
import Mathlib.Data.List.AList
import Mathlib.Logic.Relation

/-!
# The table of peers

A node keeps its peers in a map from addresses to shared pointers. A peer object outlives its entry
as long as the receive loop holds a pointer to it, and an entry may come to point to another object
of the same address. So the objects are numbered here in the order of their creation, and the map
holds their numbers. The ip and the port of an object never change, and its entry, if it has one,
is that of its address.

## Main definitions

* `p2p.PeerObject`, `p2p.PeerTable`.
* `p2p.PeerTable.insert`, `erase`, `modify`: what the node does with its table.
* `p2p.PeerTable.hasPeerAt`, `hasPeerWithNodeId`: the searches.
* `p2p.PeerTable.Changes`: what these do to a table, one after the other.

## Main results

* `p2p.PeerTable.lookup_insert_iff`, `lookup_erase_iff`: the entries after a change.
* `p2p.PeerTable.hasPeerWithNodeId_eq_false_iff`: when the search for an id fails.
* `p2p.PeerTable.Holds.of_changes`: an object keeps its number and its address.
-/

namespace BlockchainCrypto

open ByteText

namespace p2p

/-- A peer with the time of its last message. Its receive buffer is the business of the receive
loop. -/
structure PeerObject extends RemotePeer where
  lastSeen : Int64
  deriving DecidableEq

/-- The key of a peer in the map. -/
def PeerObject.getAddress (peer : PeerObject) : Bytes := addressOf peer.ip peer.port

/-- The peer of a connection that has just been made, without a handshake. -/
def PeerObject.create (ip : Bytes) (port listenPort : UInt16) (now : Int64) : PeerObject where
  ip := ip
  port := port
  listenPort := listenPort
  state := .HANDSHAKING
  nodeId := []
  blockHeight := 0
  version := []
  lastSeen := now

/-- The peer objects by number, and the map. -/
structure PeerTable where
  objects : List PeerObject
  peers : AList fun _ : Bytes => ℕ
  keyed : ∀ address i, peers.lookup address = some i →
    ∃ peer, objects[i]? = some peer ∧ peer.getAddress = address

namespace PeerTable

/-- The object with this number has this address. -/
def Holds (t : PeerTable) (i : ℕ) (address : Bytes) : Prop :=
  ∃ peer, t.objects[i]? = some peer ∧ peer.getAddress = address

/-! ### Operations -/

/-- No peers. -/
def empty : PeerTable where
  objects := []
  peers := ∅
  keyed _ _ h := absurd h (by simp)

/-- Some entry points to the object. -/
def Listed (t : PeerTable) (i : ℕ) : Prop := ∃ address, t.peers.lookup address = some i

/-- The number of entries in the map. -/
def size (t : PeerTable) : ℕ := t.peers.keys.length

/-- A new object, with its entry. -/
def insert (t : PeerTable) (peer : PeerObject) : PeerTable where
  objects := t.objects ++ [peer]
  peers := t.peers.insert peer.getAddress t.objects.length
  keyed address i h := by
    rcases eq_or_ne address peer.getAddress with rfl | hne
    · rw [AList.lookup_insert] at h
      obtain rfl := Option.some.inj h
      exact ⟨peer, List.getElem?_concat_length, rfl⟩
    · rw [AList.lookup_insert_ne hne] at h
      obtain ⟨old, hold, haddress⟩ := t.keyed address i h
      have hlt := (List.getElem?_eq_some_iff.mp hold).1
      exact ⟨old, (List.getElem?_append_left hlt).trans hold, haddress⟩

/-- The object of the entry stays where it is. -/
def erase (t : PeerTable) (address : Bytes) : PeerTable where
  objects := t.objects
  peers := t.peers.erase address
  keyed other i h := by
    rcases eq_or_ne other address with rfl | hne
    · rw [AList.lookup_erase] at h
      cases h
    · rw [AList.lookup_erase_ne hne] at h
      exact t.keyed other i h

/-- The map without entries; the objects stay where threads still hold them. -/
def clear (t : PeerTable) : PeerTable where
  objects := t.objects
  peers := ∅
  keyed _ _ h := absurd h (by simp)

/-- Other data of an object. -/
def modify (t : PeerTable) (i : ℕ) (f : PeerObject → PeerObject)
    (hf : ∀ peer, (f peer).getAddress = peer.getAddress) : PeerTable where
  objects := t.objects.modify i f
  peers := t.peers
  keyed address j h := by
    obtain ⟨peer, hpeer, haddress⟩ := t.keyed address j h
    rw [List.getElem?_modify, hpeer]
    rcases eq_or_ne i j with rfl | hne
    · exact ⟨f peer, by simp, (hf peer).trans haddress⟩
    · exact ⟨peer, by simp [hne], haddress⟩

/-- The objects that entries point to. -/
def listed (t : PeerTable) : List PeerObject :=
  t.peers.entries.filterMap fun entry => t.objects[entry.2]?

/-- The objects that entries point to, but for one object. -/
def listedExcept (t : PeerTable) (i : ℕ) : List PeerObject :=
  (t.peers.entries.filter fun entry => entry.2 ≠ i).filterMap fun entry => t.objects[entry.2]?

/-- A peer in the map advertises the address. -/
def hasPeerAt (t : PeerTable) (advertisedAddress : Bytes) : Bool :=
  p2p.hasPeerAt (t.listed.map PeerObject.toRemotePeer) advertisedAddress

/-- Another peer in the map has the node id. -/
def hasPeerWithNodeId (t : PeerTable) (peerNodeId : Bytes) (i : ℕ) : Bool :=
  p2p.hasPeerWithNodeId ((t.listedExcept i).map PeerObject.toRemotePeer) peerNodeId

/-- The number of connected peers. -/
def getPeerCount (t : PeerTable) : ℕ :=
  t.listed.countP fun peer => peer.state = .CONNECTED

/-- One change of a table. A new object has no id yet, and an object takes an id that no other
object in the map has. -/
inductive Change (t : PeerTable) : PeerTable → Prop
  | insert (new : PeerObject) (hnew : new.nodeId = []) : Change t (t.insert new)
  | erase (address : Bytes) : Change t (t.erase address)
  | clear : Change t t.clear
  | modify (i : ℕ) (f : PeerObject → PeerObject)
      (hf : ∀ peer, (f peer).getAddress = peer.getAddress)
      (hid : ∀ peer, (f peer).nodeId = peer.nodeId ∨
        t.hasPeerWithNodeId (f peer).nodeId i = false) : Change t (t.modify i f hf)

/-- Any number of changes. -/
abbrev Changes : PeerTable → PeerTable → Prop := Relation.ReflTransGen Change

/-! ### Entries -/

variable {t : PeerTable} {address : Bytes} {i j : ℕ} {peer : PeerObject}

theorem lookup_insert_iff :
    (t.insert peer).peers.lookup address = some i ↔
      (address = peer.getAddress ∧ i = t.objects.length) ∨
        (address ≠ peer.getAddress ∧ t.peers.lookup address = some i) := by
  rw [insert]
  rcases eq_or_ne address peer.getAddress with rfl | hne
  · simp [AList.lookup_insert, eq_comm]
  · simp [AList.lookup_insert_ne hne, hne]

theorem lookup_erase_iff {other : Bytes} :
    (t.erase address).peers.lookup other = some i ↔
      other ≠ address ∧ t.peers.lookup other = some i := by
  rw [erase]
  rcases eq_or_ne other address with rfl | hne
  · simp [AList.lookup_erase]
  · simp [AList.lookup_erase_ne hne, hne]

/-- An entry points to an object that exists. -/
theorem lt_of_lookup (h : t.peers.lookup address = some i) : i < t.objects.length := by
  obtain ⟨peer, hpeer, -⟩ := t.keyed address i h
  exact (List.getElem?_eq_some_iff.mp hpeer).1

/-- The entry of an object is that of its address. -/
theorem eq_getAddress_of_lookup (h : t.peers.lookup address = some i)
    (hpeer : t.objects[i]? = some peer) : address = peer.getAddress := by
  obtain ⟨other, hother, haddress⟩ := t.keyed address i h
  rw [hpeer] at hother
  rw [← haddress, Option.some.inj hother]

theorem Holds.lt_length (h : t.Holds i address) : i < t.objects.length := by
  obtain ⟨peer, hpeer, -⟩ := h
  exact (List.getElem?_eq_some_iff.mp hpeer).1

theorem Holds.listed_iff (h : t.Holds i address) :
    t.Listed i ↔ t.peers.lookup address = some i := by
  obtain ⟨peer, hpeer, rfl⟩ := h
  constructor
  · rintro ⟨address, h⟩
    rwa [← eq_getAddress_of_lookup h hpeer]
  · exact fun h => ⟨_, h⟩

/-- An object keeps its number and its address. -/
theorem Holds.insert (h : t.Holds i address) (new : PeerObject) :
    (t.insert new).Holds i address := by
  obtain ⟨peer, hpeer, haddress⟩ := h
  have hlt := (List.getElem?_eq_some_iff.mp hpeer).1
  exact ⟨peer, (List.getElem?_append_left hlt).trans hpeer, haddress⟩

theorem Holds.modify (h : t.Holds i address) (f : PeerObject → PeerObject)
    (hf : ∀ peer, (f peer).getAddress = peer.getAddress) :
    (t.modify j f hf).Holds i address := by
  obtain ⟨peer, hpeer, haddress⟩ := h
  rw [Holds, PeerTable.modify, List.getElem?_modify, hpeer]
  rcases eq_or_ne j i with rfl | hne
  · exact ⟨f peer, by simp, (hf peer).trans haddress⟩
  · exact ⟨peer, by simp [hne], haddress⟩

/-- Nor do other changes touch the numbers and the addresses. -/
theorem Holds.of_changes {u : PeerTable} (h : t.Holds i address) (hchanges : t.Changes u) :
    u.Holds i address := by
  induction hchanges with
  | refl => exact h
  | tail _ hchange ih =>
    cases hchange with
    | insert new hnew => exact ih.insert new
    | erase other => exact ih
    | clear => exact ih
    | modify j f hf hid => exact ih.modify f hf

/-- A new entry displaces the object of the same address. -/
theorem Holds.listed_insert_iff (h : t.Holds i address) (new : PeerObject) :
    (t.insert new).Listed i ↔ t.Listed i ∧ new.getAddress ≠ address := by
  rw [(h.insert new).listed_iff, h.listed_iff, lookup_insert_iff]
  have hne := h.lt_length.ne
  constructor
  · rintro (⟨-, hi⟩ | ⟨haddress, hlookup⟩)
    · exact absurd hi hne
    · exact ⟨hlookup, haddress.symm⟩
  · exact fun ⟨hlookup, haddress⟩ => .inr ⟨haddress.symm, hlookup⟩

theorem mem_entries_iff (e : Σ _ : Bytes, ℕ) :
    e ∈ t.peers.entries ↔ t.peers.lookup e.1 = some e.2 := (AList.mem_lookup_iff).symm

theorem mem_listedExcept_iff :
    peer ∈ t.listedExcept i ↔
      ∃ address j, t.peers.lookup address = some j ∧ j ≠ i ∧ t.objects[j]? = some peer := by
  rw [listedExcept, List.mem_filterMap]
  constructor
  · rintro ⟨e, he, hpeer⟩
    obtain ⟨hmem, hne⟩ := List.mem_filter.mp he
    exact ⟨e.1, e.2, (mem_entries_iff e).mp hmem, of_decide_eq_true hne, hpeer⟩
  · rintro ⟨address, j, hj, hne, hpeer⟩
    have hmem := (mem_entries_iff ⟨address, j⟩).mpr hj
    exact ⟨⟨address, j⟩, List.mem_filter.mpr ⟨hmem, decide_eq_true hne⟩, hpeer⟩

/-- The search for an id fails when the id is empty or no other object in the map has it. -/
theorem hasPeerWithNodeId_eq_false_iff {peerNodeId : Bytes} :
    t.hasPeerWithNodeId peerNodeId i = false ↔ peerNodeId = [] ∨
      ∀ address j peer, t.peers.lookup address = some j → j ≠ i → t.objects[j]? = some peer →
        peer.nodeId ≠ peerNodeId := by
  rw [hasPeerWithNodeId, p2p.hasPeerWithNodeId]
  split_ifs with hid
  · simp [hid]
  · simp only [List.any_map, List.any_eq_false, mem_listedExcept_iff, Function.comp_apply,
      beq_iff_eq, hid, false_or]
    constructor
    · intro h address j peer hj hne hpeer
      exact h peer ⟨address, j, hj, hne, hpeer⟩
    · rintro h peer ⟨address, j, hj, hne, hpeer⟩
      exact h address j peer hj hne hpeer

end PeerTable

end p2p

end BlockchainCrypto
