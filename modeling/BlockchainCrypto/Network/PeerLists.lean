import BlockchainCrypto.Network.P2PNode
import BlockchainCrypto.Network.Payloads

/-!
# Lists of peers

A node answers a request for peers with the peers it is connected to, one line each, and dials what
it reads of the lines that are sent to it. The fields of a line are not escaped, and a peer is free
in the choice of its node id: a handshake carries every id without a bar. The list is read as it was
written exactly when no id of a peer in it has a colon or a line break.

## Main definitions

* `p2p.PeerInfo.serialize`, `p2p.Message.createPeers`, `p2p.P2PNode.handleGetPeers`.
* `p2p.readPeers`: what `handlePeers` reads of a payload.
* `p2p.PeerObject.Admitted`: the peers that a handshake connects.

## Main results

* `p2p.P2PNode.handlePeers_eq`: the handler goes through the peers that are read.
* `p2p.exists_handshake_iff`: the ids and ports that a handshake carries.
* `p2p.P2PNode.readPeers_handleGetPeers_iff`: when a list of peers is read as it was written.
-/

namespace BlockchainCrypto

open ByteText

namespace p2p

/-! ### Writing and reading -/

/-- The line of a peer in a list. -/
def PeerInfo.serialize (info : PeerInfo) : Bytes :=
  List.intercalate [colon]
    [info.ip, decimal info.port.toNat, info.nodeId, decimalInt info.lastSeen.toInt]

/-- What a list says of a peer. -/
def PeerObject.toPeerInfo (peer : PeerObject) : PeerInfo :=
  ⟨peer.ip, peer.getAdvertisedPort, peer.nodeId, peer.lastSeen⟩

/-- The message with a list of peers. -/
def Message.createPeers (peersList : List PeerInfo) (now : Int64) : Message :=
  create .PEERS (List.intercalate [newline] (peersList.map PeerInfo.serialize)) now

/-- The peers of a payload: the lines that are not empty and not malformed. -/
def readPeers (payload : Bytes) : List PeerInfo :=
  ((payload.splitOn newline).filter (· ≠ [])).filterMap PeerInfo.deserialize

namespace P2PNode

variable (n : P2PNode) (env : Surroundings)

/-- The connected peers but for the one that asks, with the entries of the unordered map gone
through in some order. -/
def connectedPeers (i : ℕ) (order : List Bytes) : List PeerObject :=
  order.filterMap fun address =>
    ((n.table.peers.lookup address).filter (· ≠ i)).bind fun j =>
      (n.table.objects[j]?).filter (·.state = .CONNECTED)

/-- The answer to peer `i`. -/
def handleGetPeers (i : ℕ) (order : List Bytes) (now : Int64) : Message :=
  Message.createPeers ((n.connectedPeers i order).map PeerObject.toPeerInfo) now

/-- What `handlePeers` does with a line that is not malformed. -/
def dialPeer (n : P2PNode) (info : PeerInfo) : P2PNode :=
  if info.nodeId = n.nodeId then n
  else if n.table.hasPeerAt (addressOf info.ip info.port) then n
  else if n.table.getPeerCount < n.config.maxPeers then n.connectToPeer env info.ip info.port
  else n

theorem handlePeers_eq (payload : Bytes) :
    n.handlePeers env payload = (readPeers payload).foldl (dialPeer env) n := by
  rw [handlePeers, readPeers]
  generalize (payload.splitOn newline).filter _ = lines
  induction lines generalizing n with
  | nil => rfl
  | cons line lines ih =>
    rw [List.foldl_cons, ih, List.filterMap_cons, handlePeerInfo]
    cases PeerInfo.deserialize line with
    | none => rfl
    | some info => rfl

end P2PNode

/-! ### Admitted peers -/

/-- The text of an IPv4 address. -/
def IsIPv4 (ip : Bytes) : Prop :=
  ∃ a b c d : UInt8, ip = List.intercalate (ascii ".") ([a, b, c, d].map fun x => decimal x.toNat)

/-- A peer as a handshake that is read leaves it. -/
structure PeerObject.Admitted (peer : PeerObject) : Prop where
  ip : IsIPv4 peer.ip
  handshake : ∃ payload hs, readHandshake.run' (some payload) = some (some hs) ∧
    peer.listenPort = hs.listenPort ∧ peer.nodeId = hs.nodeId

theorem listenPort_of_handshakeOf {nodeId port : Bytes} {rest : List Bytes} {hs : Handshake}
    (h : handshakeOf nodeId port rest = some hs) : hs.listenPort ≠ 0 := by
  rw [handshakeOf] at h
  split at h
  · cases h
  rename_i advertisedPort _
  split_ifs at h with hrange
  split at h
  · cases h
  split_ifs at h
  rw [← Option.some.inj h]
  have hmax : (65535 : Int32).toInt = 65535 := rfl
  rw [not_or, gt_iff_lt, Int32.le_iff_toInt_le, Int32.lt_iff_toInt_lt, hmax, Int32.toInt_zero]
    at hrange
  intro hzero
  have hvalue := congrArg UInt16.toNat hzero
  rw [Nat.toUInt16_eq, UInt16.toNat_ofNat', UInt16.toNat_zero] at hvalue
  omega

/-- A handshake carries every port but zero and every id without a bar. -/
theorem exists_handshake_iff {port : UInt16} {nodeId : Bytes} :
    (∃ payload hs, readHandshake.run' (some payload) = some (some hs) ∧
      port = hs.listenPort ∧ nodeId = hs.nodeId) ↔ port ≠ 0 ∧ bar ∉ nodeId := by
  constructor
  · rintro ⟨payload, hs, hread, rfl, rfl⟩
    rw [readHandshake_eq] at hread
    have hs_eq := Option.some.inj hread
    refine ⟨listenPort_of_handshakeOf hs_eq, ?_⟩
    obtain ⟨field, fields, hfields⟩ :=
      List.exists_cons_of_ne_nil (List.splitOn_ne_nil bar payload)
    rw [nodeId_of_handshakeOf hs_eq, hfields]
    exact not_mem_of_mem_splitOn (hfields ▸ List.mem_cons_self)
  · rintro ⟨hport, hid⟩
    have hread := readHandshake_handshakePayload hid port 0
    rw [if_neg (not_or.mpr ⟨hport, by decide⟩)] at hread
    exact ⟨_, _, hread, rfl, rfl⟩

/-! ### Lines -/

theorem isSeparator_colon : IsSeparator colon := ⟨rfl, by decide⟩

/-- Addresses consist of digits and points. -/
theorem IsIPv4.not_mem {ip : Bytes} (h : IsIPv4 ip) {c : UInt8} (hc : IsSeparator c)
    (hpoint : c ≠ 46) : c ∉ ip := by
  obtain ⟨a, b, c', d, rfl⟩ := h
  intro hmem
  rcases mem_of_mem_intercalate hmem with rfl | ⟨f, hf, hcf⟩
  · exact hpoint rfl
  · obtain ⟨x, -, rfl⟩ := List.mem_map.mp hf
    exact hc.not_mem x.toNat hcf

/-- A line is read as it was written when its address and its id have no colon and its port is not
zero. -/
theorem PeerInfo.deserialize_serialize {info : PeerInfo} (hip : colon ∉ info.ip)
    (hid : colon ∉ info.nodeId) (hport : info.port ≠ 0) :
    PeerInfo.deserialize info.serialize = some info := by
  have hsplit : info.serialize.splitOn colon =
      [info.ip, decimal info.port.toNat, info.nodeId, decimalInt info.lastSeen.toInt] := by
    refine List.splitOn_intercalate colon (fun f hf => ?_) (List.cons_ne_nil _ _)
    simp only [List.mem_cons, List.not_mem_nil, or_false] at hf
    rcases hf with rfl | rfl | rfl | rfl
    · exact hip
    · exact isSeparator_colon.not_mem info.port.toNat
    · exact hid
    · exact isSeparator_colon.not_mem _
  have hlt := info.port.toNat_lt
  have hparse : utils.parseInt (decimal info.port.toNat) = some (Int32.ofNat info.port.toNat) := by
    rw [utils.parseInt_decimal_eq, if_pos (by omega)]
  have hvalue : (Int32.ofNat info.port.toNat).toInt.toNat.toUInt16 = info.port := by
    rw [Int32.toInt_ofNat_of_lt (by omega), Int.toNat_natCast]
    exact UInt16.ofNat_toNat
  have htakes : Takes colon readPeerInfo
      [info.ip, decimal info.port.toNat, info.nodeId, decimalInt info.lastSeen.toInt]
      (some info) := by
    rw [readPeerInfo]
    refine (takes_getline [] info.ip).bind ((takes_getline [] (decimal info.port.toNat)).bind ?_)
    rw [hparse]
    dsimp only
    rw [if_neg (mt (port_rejected_iff info.port).mp hport)]
    refine (takes_getline [] info.nodeId).bind
      ((takes_getline _ (decimalInt info.lastSeen.toInt)).bind (?_ : Takes colon _ [] _))
    rw [utils.parseInt64_decimalInt]
    dsimp only
    rw [hvalue]
    exact takes_pure _
  rw [PeerInfo.deserialize, htakes.run'_of_splitOn (hsplit.trans (List.append_nil _).symm)]
  rfl

/-- No id that is read has a colon, or another byte that the line does not have. -/
theorem not_mem_nodeId_of_deserialize {data avoid : Bytes} (havoid : ∀ c ∈ avoid, c ∉ data)
    {info : PeerInfo} (h : PeerInfo.deserialize data = some info) :
    ∀ c ∈ colon :: avoid, c ∉ info.nodeId := by
  have hensures : Ensures (Without avoid) readPeerInfo fun o =>
      ∀ info, o = some info → ∀ c ∈ colon :: avoid, c ∉ info.nodeId := by
    have hnone : ∀ info, (none : Option PeerInfo) = some info →
        ∀ c ∈ colon :: avoid, c ∉ info.nodeId := by
      intro info hinfo
      cases hinfo
    refine (ensures_getline_nil colon avoid).bind fun ip _ => ?_
    refine (ensures_getline_nil colon avoid).bind fun token _ => ?_
    cases utils.parseInt token with
    | none => exact ensures_pure hnone
    | some port =>
      dsimp only
      split_ifs
      · exact ensures_pure hnone
      · refine (ensures_getline_nil colon avoid).bind fun nodeId hid => ?_
        refine (ensures_getline colon avoid token).bind fun token _ => ?_
        cases utils.parseInt64 token with
        | none => exact ensures_pure hnone
        | some lastSeen =>
          refine ensures_pure fun info hinfo => ?_
          rw [← Option.some.inj hinfo]
          exact hid
  have hstream : Without avoid (some data) := by
    intro left hleft
    rw [← Option.some.inj hleft]
    exact havoid
  exact hensures.of_run' hstream (Option.join_eq_some_iff.mp h) info rfl

/-- Lines that are read as they were written make up a list that is. -/
theorem readPeers_createPeers {infos : List PeerInfo} (now : Int64)
    (h : ∀ info ∈ infos, newline ∉ info.serialize ∧
      PeerInfo.deserialize info.serialize = some info) :
    readPeers (Message.createPeers infos now).payload = infos := by
  rcases eq_or_ne infos [] with rfl | hne
  · exact (by decide : readPeers [] = [])
  have hlines : (Message.createPeers infos now).payload.splitOn newline =
      infos.map PeerInfo.serialize := by
    refine List.splitOn_intercalate newline (fun line hline => ?_) (mt List.map_eq_nil_iff.mp hne)
    obtain ⟨info, hinfo, rfl⟩ := List.mem_map.mp hline
    exact (h info hinfo).1
  have hnonempty : ∀ line ∈ infos.map PeerInfo.serialize, decide (line ≠ []) = true := by
    intro line hline
    obtain ⟨info, hinfo, rfl⟩ := List.mem_map.mp hline
    rw [decide_eq_true_eq]
    intro hnil
    have hread := (h info hinfo).2
    rw [hnil, show PeerInfo.deserialize [] = none by decide] at hread
    cases hread
  rw [readPeers, hlines, List.filter_eq_self.mpr hnonempty, List.filterMap_map]
  have hread : infos.filterMap (PeerInfo.deserialize ∘ PeerInfo.serialize) =
      infos.filterMap some := List.filterMap_congr fun info hinfo => (h info hinfo).2
  rw [hread, List.filterMap_some]

/-- The ids that are read have neither colons nor line breaks. -/
theorem not_mem_nodeId_of_mem_readPeers {payload : Bytes} {info : PeerInfo}
    (h : info ∈ readPeers payload) : colon ∉ info.nodeId ∧ newline ∉ info.nodeId := by
  obtain ⟨line, hline, hread⟩ := List.mem_filterMap.mp h
  have hfree := not_mem_of_mem_splitOn (List.mem_filter.mp hline).1
  have hid := @not_mem_nodeId_of_deserialize line [newline]
    (by simpa only [List.mem_singleton, forall_eq] using hfree) _ hread
  exact ⟨hid colon List.mem_cons_self, hid newline (List.mem_cons_of_mem _ List.mem_cons_self)⟩

/-! ### Gossip -/

namespace P2PNode

variable {n : P2PNode} {i : ℕ} {order : List Bytes}

/-- The port of an admitted peer is the one of its handshake. -/
theorem admitted_spec {peer : PeerObject} (h : peer.Admitted) :
    peer.getAdvertisedPort ≠ 0 ∧ bar ∉ peer.nodeId := by
  obtain ⟨hport, hid⟩ := exists_handshake_iff.mp h.handshake
  refine ⟨?_, hid⟩
  rw [RemotePeer.getAdvertisedPort, if_pos hport]
  exact hport

/-- The peers that a node tells of are read as they were written exactly when no id among them has a
colon or a line break. -/
theorem readPeers_handleGetPeers_iff (now : Int64)
    (h : ∀ peer ∈ n.connectedPeers i order, peer.Admitted) :
    readPeers (n.handleGetPeers i order now).payload =
        (n.connectedPeers i order).map PeerObject.toPeerInfo ↔
      ∀ peer ∈ n.connectedPeers i order, colon ∉ peer.nodeId ∧ newline ∉ peer.nodeId := by
  constructor
  · intro heq peer hpeer
    have hmem : peer.toPeerInfo ∈ readPeers (n.handleGetPeers i order now).payload := by
      rw [heq]
      exact List.mem_map_of_mem hpeer
    exact not_mem_nodeId_of_mem_readPeers hmem
  · intro hfree
    refine readPeers_createPeers now fun info hinfo => ?_
    obtain ⟨peer, hpeer, rfl⟩ := List.mem_map.mp hinfo
    obtain ⟨hcolon, hnewline⟩ := hfree peer hpeer
    have hadmitted := h peer hpeer
    refine ⟨fun hmem => ?_, PeerInfo.deserialize_serialize
      (hadmitted.ip.not_mem isSeparator_colon (by decide)) hcolon (admitted_spec hadmitted).1⟩
    rcases mem_of_mem_intercalate hmem with hline | ⟨f, hf, hmem⟩
    · exact absurd hline (by decide)
    simp only [List.mem_cons, List.not_mem_nil, or_false] at hf
    rcases hf with rfl | rfl | rfl | rfl
    · exact hadmitted.ip.not_mem isSeparator_newline (by decide) hmem
    · exact isSeparator_newline.not_mem peer.getAdvertisedPort.toNat hmem
    · exact hnewline hmem
    · exact isSeparator_newline.not_mem _ hmem

section Examples

private def attentive : Surroundings := ⟨0, true, fun _ _ => false⟩

private def twoAddresses : List Bytes := [ascii "10.0.0.3:50000", ascii "10.0.0.2:50000"]

/-- A node with two connections, one of which has sent a handshake with this id. -/
private def acquainted (nodeId : Bytes) : P2PNode :=
  (started (ascii "b") {} ⟨Blockchain.fresh 50 0, [], []⟩).runAll
    [(attentive, .acceptConnection (ascii "10.0.0.2") 50000),
      (attentive, .acceptConnection (ascii "10.0.0.3") 50000),
      (attentive, .handleMessage 0
        ⟨.HANDSHAKE,
          List.intercalate [bar] [nodeId, ascii "8333", ascii "0", ascii "1.0.0"], [], 0⟩)]

private def acquaintance (nodeId : Bytes) : PeerObject :=
  (PeerObject.create (ascii "10.0.0.2") 50000 0 0).connect ⟨nodeId, 8333, 0, ascii "1.0.0"⟩

private theorem admitted_acquaintance {nodeId : Bytes} (h : bar ∉ nodeId) :
    (acquaintance nodeId).Admitted where
  ip := by
    have htext : ascii "10.0.0.2" = List.intercalate (ascii ".")
        (([10, 0, 0, 2] : List UInt8).map fun x => decimal x.toNat) := by decide
    exact ⟨10, 0, 0, 2, htext⟩
  handshake := exists_handshake_iff.mpr ⟨(by decide : (8333 : UInt16) ≠ 0), h⟩

/-- A peer with an ordinary id. -/
theorem readPeers_handleGetPeers_ordinary :
    readPeers ((acquainted (ascii "nodeid123")).handleGetPeers 1 twoAddresses 0).payload =
      [⟨ascii "10.0.0.2", 8333, ascii "nodeid123", 0⟩] := by
  have hpeers : (acquainted (ascii "nodeid123")).connectedPeers 1 twoAddresses =
      [acquaintance (ascii "nodeid123")] := by decide +kernel
  have hread := (@readPeers_handleGetPeers_iff (acquainted (ascii "nodeid123")) 1 twoAddresses 0
    (by
      rw [hpeers, List.forall_mem_singleton]
      exact admitted_acquaintance (by decide))).mpr (by
      rw [hpeers, List.forall_mem_singleton]
      exact ⟨by decide, by decide⟩)
  rw [hread, hpeers]
  rfl

/-- A peer whose id has a colon is lost: what follows the colon is not a time. -/
theorem readPeers_handleGetPeers_colon :
    Blockchain.construct 0 50 0 = some (acquainted (ascii "a:b")).node.blockchain ∧
      (∀ peer ∈ (acquainted (ascii "a:b")).connectedPeers 1 twoAddresses, peer.Admitted) ∧
      ((acquainted (ascii "a:b")).connectedPeers 1 twoAddresses).map PeerObject.toPeerInfo =
        [⟨ascii "10.0.0.2", 8333, ascii "a:b", 0⟩] ∧
      readPeers ((acquainted (ascii "a:b")).handleGetPeers 1 twoAddresses 0).payload = [] := by
  have hpeers : (acquainted (ascii "a:b")).connectedPeers 1 twoAddresses =
      [acquaintance (ascii "a:b")] := by decide +kernel
  refine ⟨Blockchain.construct_zero 50 0, ?_, ?_, by decide +kernel⟩
  · rw [hpeers, List.forall_mem_singleton]
    exact admitted_acquaintance (by decide)
  · rw [hpeers]
    rfl

end Examples

end P2PNode

end p2p

end BlockchainCrypto
