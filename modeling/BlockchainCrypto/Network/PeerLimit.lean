import BlockchainCrypto.Network.P2PNode
import BlockchainCrypto.Theory.Threads
import Mathlib.Data.Finset.Union
import Mathlib.Data.Fintype.Basic

/-!
# The limit on peers

The listener thread accepts connections, and the receiver thread and the CLI thread make them. Each
compares the size of the map with the limit in one section under the mutex and inserts the new peer
in a later one. The sections are the steps here, and the threads take them in any order; between
them, connections are made or fail, and peers are removed.

A call that has passed the comparison has a place reserved for it that no other call knows of. The
limit holds as long as the comparisons are only passed when the reserved places fit in as well.

## Main definitions

* `p2p.NodeThread`, `p2p.ConnectPlace`, `p2p.connectStep`: the threads and their steps.
* `p2p.connecting`: the interleavings.
* `p2p.reserved`: the addresses in the map and those of the calls that will insert a peer.
* `p2p.ReservesPlace`: a comparison is passed only when the reserved places fit in.

## Main results

* `p2p.size_le_of_reservesPlace`: the limit holds if the comparisons reserve places.
* `p2p.exists_lt_size`: otherwise some run goes beyond the limit.
-/

namespace BlockchainCrypto

open ByteText

namespace p2p

/-! ### Steps -/

/-- The threads that insert or remove peers. -/
inductive NodeThread where
  | listener
  | receiver
  | ping
  | cli
  deriving DecidableEq

instance : Fintype NodeThread where
  elems := {.listener, .receiver, .ping, .cli}
  complete t := by cases t <;> decide

/-- Where a thread is: outside of the calls, or before the section or the attempt of this name. The
first two are those of `acceptConnections`, the others those of `connectToPeer`. -/
inductive ConnectPlace where
  | idle
  | compareAccepted (ip : Bytes) (port : UInt16)
  | insertAccepted (ip : Bytes) (port : UInt16)
  | findPeer (ip : Bytes) (port : UInt16)
  | compareDialled (ip : Bytes) (port : UInt16)
  | dial (ip : Bytes) (port : UInt16)
  | insertDialled (ip : Bytes) (port : UInt16)
  deriving DecidableEq

/-- A step within a call, with the clock and whether the address can be dialled. -/
def ConnectPlace.next (maxPeers : ℕ) (now : Int64) (dialled : Bool) (t : PeerTable) :
    ConnectPlace → PeerTable × ConnectPlace
  | idle => (t, idle)
  -- acceptConnections
  | compareAccepted ip port => (t, if t.size ≥ maxPeers then idle else insertAccepted ip port)
  | insertAccepted ip port => (t.insert (PeerObject.create ip port 0 now), idle)
  -- connectToPeer
  | findPeer ip port =>
    (t, if t.hasPeerAt (addressOf ip port) then idle else compareDialled ip port)
  | compareDialled ip port => (t, if t.size ≥ maxPeers then idle else dial ip port)
  | dial ip port => (t, if dialled then insertDialled ip port else idle)
  | insertDialled ip port => (t.insert (PeerObject.create ip port port now), idle)

/-- What a thread does: it enters one of the two calls, takes a step of it, or does something else
with the table, which is to remove peers and to accept handshakes. -/
inductive ConnectInput where
  | accepted (ip : Bytes) (port : UInt16)
  | connectToPeer (ip : Bytes) (port : UInt16)
  | next (now : Int64) (dialled : Bool)
  | erase (address : Bytes)
  | clear
  | handshake (i : ℕ) (hs : Handshake)
  deriving DecidableEq

/-- A thread enters a call, or takes the next step of its own. -/
def connectStep (maxPeers : ℕ) (thread : NodeThread) (t : PeerTable) (place : ConnectPlace) :
    ConnectInput → Option (PeerTable × ConnectPlace)
  | .next now dialled =>
    if place = .idle then none else some (place.next maxPeers now dialled t)
  | .accepted ip port =>
    if place = .idle ∧ thread = .listener then some (t, .compareAccepted ip port) else none
  | .connectToPeer ip port =>
    if place = .idle ∧ (thread = .receiver ∨ thread = .cli) then some (t, .findPeer ip port)
    else none
  | .erase address => if place = .idle then some (t.erase address, .idle) else none
  | .clear => if place = .idle then some (t.clear, .idle) else none
  | .handshake i hs =>
    if place = .idle then
      some (t.modify i (PeerObject.connect hs) (PeerObject.getAddress_connect hs), .idle)
    else none

/-- The threads of a node without peers. -/
def connecting (maxPeers : ℕ) : Threads.Program PeerTable NodeThread ConnectPlace ConnectInput where
  init := .empty
  idle := .idle
  step := connectStep maxPeers

/-! ### Reserved places -/

/-- The map and the places of the threads. -/
abbrev ConnectConfig := Threads.Config PeerTable NodeThread ConnectPlace

/-- The address that the call will insert, after its comparison. -/
def ConnectPlace.pending : ConnectPlace → Option Bytes
  | insertAccepted ip port | dial ip port | insertDialled ip port => some (addressOf ip port)
  | _ => none

/-- The address of a call before its comparison. -/
def ConnectPlace.compares : ConnectPlace → Option Bytes
  | compareAccepted ip port | compareDialled ip port => some (addressOf ip port)
  | _ => none

/-- The addresses in the map and those of the calls that have passed their comparison. -/
def reserved (c : ConnectConfig) : Finset Bytes :=
  c.shared.peers.keys.toFinset ∪ Finset.univ.biUnion fun t => (c.place t).pending.toFinset

/-- A comparison with the limit is passed only when the reserved places and the new one are within
the limit. -/
def ReservesPlace (maxPeers : ℕ) (c : ConnectConfig) (a : NodeThread × ConnectInput) : Prop :=
  ∀ address, (c.place a.1).compares = some address → c.shared.size < maxPeers →
    (insert address (reserved c)).card ≤ maxPeers

variable {maxPeers : ℕ} {c c' : ConnectConfig}

theorem mem_reserved_iff {address : Bytes} :
    address ∈ reserved c ↔
      address ∈ c.shared.peers ∨ ∃ t, (c.place t).pending = some address := by
  simp [reserved, AList.mem_keys]

/-- The entries are among the reserved places. -/
theorem size_le_card_reserved (c : ConnectConfig) : c.shared.size ≤ (reserved c).card := by
  rw [PeerTable.size, ← List.toFinset_card_of_nodup c.shared.peers.keys_nodup]
  exact Finset.card_le_card Finset.subset_union_left

/-- A step adds at most the address of its call to the map, and reserves a place for this address
alone, after a comparison. -/
theorem connectStep_spec {thread : NodeThread} {t : PeerTable} {place : ConnectPlace}
    {input : ConnectInput} {r : PeerTable × ConnectPlace}
    (h : connectStep maxPeers thread t place input = some r) :
    (∀ address ∈ r.1.peers, address ∈ t.peers ∨ place.pending = some address) ∧
      ∀ address, r.2.pending = some address →
        place.pending = some address ∨ place.compares = some address ∧ t.size < maxPeers := by
  have hinsert {new : PeerObject} {address : Bytes} (hmem : address ∈ (t.insert new).peers) :
      address ∈ t.peers ∨ some new.getAddress = some address :=
    ((AList.mem_insert _).mp hmem).symm.imp_right fun heq => congrArg some heq.symm
  cases input with
  | next now dialled =>
    obtain ⟨-, h⟩ := Option.ite_none_left_eq_some.mp h
    obtain rfl := Option.some.inj h
    cases place with
    | idle => exact ⟨fun _ => .inl, fun address h => by cases h⟩
    | compareAccepted ip port =>
      refine ⟨fun _ => .inl, fun address h => ?_⟩
      simp only [ConnectPlace.next] at h
      split_ifs at h with hsize
      · cases h
      · exact .inr ⟨h, Nat.not_le.mp hsize⟩
    | insertAccepted ip port => exact ⟨fun _ => hinsert, fun address h => by cases h⟩
    | findPeer ip port =>
      refine ⟨fun _ => .inl, fun address h => ?_⟩
      simp only [ConnectPlace.next] at h
      split_ifs at h <;> cases h
    | compareDialled ip port =>
      refine ⟨fun _ => .inl, fun address h => ?_⟩
      simp only [ConnectPlace.next] at h
      split_ifs at h with hsize
      · cases h
      · exact .inr ⟨h, Nat.not_le.mp hsize⟩
    | dial ip port =>
      refine ⟨fun _ => .inl, fun address h => ?_⟩
      simp only [ConnectPlace.next] at h
      split_ifs at h
      · exact .inl h
      · cases h
    | insertDialled ip port => exact ⟨fun _ => hinsert, fun address h => by cases h⟩
  | accepted ip port =>
    obtain ⟨-, h⟩ := Option.ite_none_right_eq_some.mp h
    obtain rfl := Option.some.inj h
    exact ⟨fun _ => .inl, fun address h => by cases h⟩
  | connectToPeer ip port =>
    obtain ⟨-, h⟩ := Option.ite_none_right_eq_some.mp h
    obtain rfl := Option.some.inj h
    exact ⟨fun _ => .inl, fun address h => by cases h⟩
  | erase other =>
    obtain ⟨-, h⟩ := Option.ite_none_right_eq_some.mp h
    obtain rfl := Option.some.inj h
    exact ⟨fun address hmem => .inl (AList.mem_erase.mp hmem).2, fun address h => by cases h⟩
  | clear =>
    obtain ⟨-, h⟩ := Option.ite_none_right_eq_some.mp h
    obtain rfl := Option.some.inj h
    exact ⟨fun address hmem => absurd hmem (AList.notMem_empty address),
      fun address h => by cases h⟩
  | handshake i hs =>
    obtain ⟨-, h⟩ := Option.ite_none_right_eq_some.mp h
    obtain rfl := Option.some.inj h
    exact ⟨fun _ => .inl, fun address h => by cases h⟩

/-- The reserved places after a step are among the earlier ones and that of a comparison which is
passed. -/
theorem mem_reserved_of_step {a : NodeThread × ConnectInput}
    (h : (connecting maxPeers).advance c a = some c') {address : Bytes}
    (hmem : address ∈ reserved c') :
    address ∈ reserved c ∨
      (c.place a.1).compares = some address ∧ c.shared.size < maxPeers := by
  obtain ⟨r, hr, rfl⟩ := Threads.Program.advance_eq_some_iff.mp h
  obtain ⟨hpeers, hpending⟩ := connectStep_spec hr
  rcases mem_reserved_iff.mp hmem with hlisted | hplace
  · left
    rcases hpeers address hlisted with hold | hpend
    · exact mem_reserved_iff.mpr (.inl hold)
    · exact mem_reserved_iff.mpr (.inr ⟨a.1, hpend⟩)
  · rcases (Threads.Program.exists_place_move (Q := fun p : ConnectPlace =>
      p.pending = some address)).mp hplace with hown | ⟨u, -, hu⟩
    · exact (hpending address hown).imp_left fun h => mem_reserved_iff.mpr (.inr ⟨a.1, h⟩)
    · exact .inl (mem_reserved_iff.mpr (.inr ⟨u, hu⟩))

/-- When comparisons are only passed if the reserved places fit in, the number of peers stays within
the limit. -/
theorem size_le_of_reservesPlace
    (h : (connecting maxPeers).interleavings.Reachable (ReservesPlace maxPeers) c) :
    c.shared.size ≤ maxPeers := by
  have hreserved : (reserved c).card ≤ maxPeers := by
    refine h.invariant (fun c => (reserved c).card ≤ maxPeers) ?_ ?_
    · rintro c rfl
      have hempty : reserved (connecting maxPeers).start = ∅ := by
        refine Finset.eq_empty_of_forall_notMem fun address hmem => ?_
        rcases mem_reserved_iff.mp hmem with hlisted | ⟨t, ht⟩
        · exact AList.notMem_empty address hlisted
        · cases ht
      rw [hempty, Finset.card_empty]
      exact Nat.zero_le _
    · intro c a c' _ hcard hok hstep
      by_cases hpass : ∃ address,
          (c.place a.1).compares = some address ∧ c.shared.size < maxPeers
      · obtain ⟨address, hcompares, hsize⟩ := hpass
        refine (Finset.card_le_card fun other hother => ?_).trans (hok address hcompares hsize)
        rcases mem_reserved_of_step hstep hother with hold | ⟨hnew, -⟩
        · exact Finset.mem_insert_of_mem hold
        · rw [hcompares] at hnew
          exact Option.some.inj hnew ▸ Finset.mem_insert_self address _
      · refine (Finset.card_le_card fun other hother => ?_).trans hcard
        exact (mem_reserved_of_step hstep hother).resolve_right fun hnew => hpass ⟨other, hnew⟩
  exact (size_le_card_reserved c).trans hreserved

/-! ### Beyond the limit -/

/-- A thread that has passed its comparison can go on to insert its peer. -/
theorem exists_runThread_insert (thread : NodeThread) (t : PeerTable) (place : ConnectPlace) :
    ∃ inputs r, (connecting maxPeers).runThread thread (t, place) inputs = some r ∧
      (∀ address ∈ t.peers, address ∈ r.1.peers) ∧
      ∀ address, place.pending = some address → address ∈ r.1.peers := by
  have hold (new : PeerObject) (address : Bytes) (h : address ∈ t.peers) :
      address ∈ (t.insert new).peers := (AList.mem_insert _).mpr (.inr h)
  have hnew (new : PeerObject) (address : Bytes) (h : some new.getAddress = some address) :
      address ∈ (t.insert new).peers := (AList.mem_insert _).mpr (.inl (Option.some.inj h).symm)
  cases place with
  | insertAccepted ip port =>
    exact ⟨[.next 0 true], _, rfl, hold _, hnew (PeerObject.create ip port 0 0)⟩
  | insertDialled ip port =>
    exact ⟨[.next 0 true], _, rfl, hold _, hnew (PeerObject.create ip port port 0)⟩
  | dial ip port =>
    exact ⟨[.next 0 true, .next 0 true], _, rfl, hold _, hnew (PeerObject.create ip port port 0)⟩
  | _ => exact ⟨[], _, rfl, fun _ h => h, fun address h => by cases h⟩

theorem exists_run_insert (c : ConnectConfig) (t : NodeThread) :
    ∃ as c', (connecting maxPeers).run c as = some c' ∧
      (∀ address ∈ c.shared.peers, address ∈ c'.shared.peers) ∧
      (∀ address, (c.place t).pending = some address → address ∈ c'.shared.peers) ∧
      ∀ u, u ≠ t → c'.place u = c.place u := by
  obtain ⟨inputs, r, hrun, hold, hnew⟩ :=
    @exists_runThread_insert maxPeers t c.shared (c.place t)
  refine ⟨inputs.map (Prod.mk t), Threads.Program.move c t r, ?_, hold, hnew, fun u hu =>
    Threads.Program.move_place_of_ne c hu r⟩
  have hmap := Threads.Program.run_map_thread (p := connecting maxPeers) c t (c.shared, c.place t)
    inputs
  rwa [Threads.Program.move_self, hrun] at hmap

/-- All of these threads can. -/
theorem exists_run_insert_all (c : ConnectConfig) (ts : List NodeThread) :
    ∃ as c', (connecting maxPeers).run c as = some c' ∧
      (∀ address ∈ c.shared.peers, address ∈ c'.shared.peers) ∧
      ∀ t ∈ ts, ∀ address, (c.place t).pending = some address → address ∈ c'.shared.peers := by
  induction ts generalizing c with
  | nil => exact ⟨[], c, rfl, fun _ h => h, fun t h => absurd h List.not_mem_nil⟩
  | cons t ts ih =>
    obtain ⟨as, c₁, hrun, hold, hnew, hothers⟩ := @exists_run_insert maxPeers c t
    obtain ⟨bs, c₂, hrun₂, hold₂, hnew₂⟩ := ih c₁
    refine ⟨as ++ bs, c₂, ?_, fun address h => hold₂ address (hold address h), ?_⟩
    · rw [Threads.Program.run_append, hrun]
      exact hrun₂
    · intro u hu address hpending
      rcases eq_or_ne u t with rfl | hne
      · exact hold₂ address (hnew address hpending)
      · have hmem := (List.mem_cons.mp hu).resolve_left hne
        exact hnew₂ u hmem address (hothers u hne ▸ hpending)

/-- When a comparison is passed and the reserved places do not fit in with the new one, the threads
may go on to more peers than the limit. -/
theorem exists_lt_size {t : NodeThread} {address : Bytes}
    (hcompares : (c.place t).compares = some address) (hsize : c.shared.size < maxPeers)
    (hlarge : maxPeers < (insert address (reserved c)).card) :
    ∃ as c', (connecting maxPeers).run c ((t, .next 0 true) :: as) = some c' ∧
      maxPeers < c'.shared.size := by
  have hfirst : ∃ r, connectStep maxPeers t c.shared (c.place t) (.next 0 true) = some r ∧
      r.1 = c.shared ∧ r.2.pending = some address ∧ (c.place t).pending = none := by
    cases hplace : c.place t with
    | compareAccepted ip port =>
      rw [hplace] at hcompares
      refine ⟨(c.shared, .insertAccepted ip port), ?_, rfl, hcompares, rfl⟩
      simp [connectStep, ConnectPlace.next, hsize]
    | compareDialled ip port =>
      rw [hplace] at hcompares
      refine ⟨(c.shared, .dial ip port), ?_, rfl, hcompares, rfl⟩
      simp [connectStep, ConnectPlace.next, hsize]
    | _ => rw [hplace] at hcompares; cases hcompares
  obtain ⟨r, hr, htable, hpending, hnone⟩ := hfirst
  obtain ⟨as, c', hrun, hold, hnew⟩ := @exists_run_insert_all maxPeers
    (Threads.Program.move c t r) [.listener, .receiver, .ping, .cli]
  refine ⟨as, c', ?_, ?_⟩
  · rw [Threads.Program.run, Threads.Program.advance]
    exact Option.bind_eq_some_iff.mpr ⟨_, Option.map_eq_some_iff.mpr ⟨r, hr, rfl⟩, hrun⟩
  · have hsub : insert address (reserved c) ⊆ c'.shared.peers.keys.toFinset := by
      intro other hother
      rw [List.mem_toFinset, ← AList.mem_keys]
      rcases Finset.mem_insert.mp hother with rfl | hmem
      · exact hnew t (by cases t <;> decide) other (by simpa using hpending)
      · rcases mem_reserved_iff.mp hmem with hlisted | ⟨u, hu⟩
        · exact hold other (by simpa [htable] using hlisted)
        · have hne : u ≠ t := by
            rintro rfl
            rw [hnone] at hu
            cases hu
          refine hnew u (by cases u <;> decide) other ?_
          rwa [Threads.Program.move_place_of_ne c hne]
    have hcard := Finset.card_le_card hsub
    rw [List.toFinset_card_of_nodup c'.shared.peers.keys_nodup] at hcard
    exact hlarge.trans_le hcard

section Examples

/-- Accepted connections, one after the other. -/
private def accepts (ports : List ℕ) : List (NodeThread × ConnectInput) :=
  ports.flatMap fun port =>
    [(.listener, .accepted (ascii "10.0.0.2") port.toUInt16), (.listener, .next 0 true),
      (.listener, .next 0 true)]

/-- A connection to a node that takes one peer. -/
theorem size_le_of_accepted :
    ∃ c, (connecting 1).run (connecting 1).start (accepts [50000]) = some c ∧
      c.shared.size ≤ 1 := by
  refine ⟨_, rfl, size_le_of_reservesPlace ?_⟩
  have hquiet {c : ConnectConfig} {a : NodeThread × ConnectInput}
      (h : (c.place a.1).compares = none) : ReservesPlace 1 c a := fun address hsome => by
    rw [h] at hsome
    cases hsome
  refine .step (a := (.listener, .next 0 true)) (.step (a := (.listener, .next 0 true))
    (.step (a := (.listener, .accepted (ascii "10.0.0.2") 50000)) (.init rfl) (hquiet rfl) rfl)
    ?_ rfl) (hquiet rfl) rfl
  intro address hcompares _
  obtain rfl := Option.some.inj hcompares
  decide

/-- The node has one peer less than its limit when a connection is accepted and another one is made.
Both calls compare the size with the limit before either of them inserts its peer. -/
theorem size_of_overtaken :
    ∃ c, (connecting ({} : P2PConfig).maxPeers).interleavings.Reachable (fun _ _ => True) c ∧
      ({} : P2PConfig).maxPeers < c.shared.size := by
  let as : List (NodeThread × ConnectInput) := accepts ((List.range 24).map (· + 1)) ++
    [(.listener, .accepted (ascii "10.0.0.3") 50000), (.listener, .next 0 true),
      (.cli, .connectToPeer (ascii "10.0.0.4") 8333), (.cli, .next 0 true), (.cli, .next 0 true),
      (.cli, .next 0 true), (.cli, .next 0 true), (.listener, .next 0 true)]
  have hrun : ((connecting 25).run (connecting 25).start as).map (·.shared.size) = some 26 := by
    decide +kernel
  obtain ⟨c, hc, hsize⟩ := Option.map_eq_some_iff.mp hrun
  refine ⟨c, Threads.Program.reachable_run (.init rfl) (fun _ _ _ => trivial) hc, ?_⟩
  rw [hsize]
  decide

end Examples

end p2p

end BlockchainCrypto
