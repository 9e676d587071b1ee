import BlockchainCrypto.Network.BlockRequests
import BlockchainCrypto.Network.RemovedPeers

/-!
# Incomplete payloads

The handlers of handshakes and of requests for blocks read the fields of a payload one after the
other into the same variable. `std::getline` leaves the variable alone once the input is at its end,
so the last field of a payload is read again for the one that is missing: a port serves as the
height, and the start of a range as its end. Nor is the node id of a handshake looked at; it may be
empty.

## Main definitions

* `p2p.CompleteHandshake`, `p2p.CompleteRange`: payloads with all fields.
* `p2p.P2PNode.TakesIncomplete`: the incomplete handshakes that are accepted.
* `p2p.TakesOneNumber`: the incomplete requests that are answered.

## Main results

* `p2p.readHandshake_eq`, `p2p.readRange_eq`: what is read of the fields.
* `p2p.P2PNode.exists_acceptedHandshake_iff`: which handshakes are accepted.
* `p2p.refuses_incomplete_iff`: which incomplete payloads are refused.
-/

namespace BlockchainCrypto

open ByteText

namespace p2p

/-! ### Fields -/

/-- A port in the range of the check. -/
def IsPort (text : Bytes) : Prop :=
  ∃ port, utils.parseInt text = some port ∧ ¬ (port ≤ 0 ∨ port > 65535)

/-- A height that is not negative. -/
def IsHeight (text : Bytes) : Prop := ∃ height, utils.parseInt64 text = some height ∧ ¬ height < 0

/-- The payload has a node id, a port and a height. -/
def CompleteHandshake (payload : Bytes) : Prop :=
  ∃ nodeId port height rest, payload.splitOn bar = nodeId :: port :: height :: rest ∧
    nodeId ≠ [] ∧ IsPort port ∧ IsHeight height

/-- The payload has two numbers. -/
def CompleteRange (payload : Bytes) : Prop :=
  ∃ first last rest, payload.splitOn bar = first :: last :: rest ∧
    (utils.parseInt64 first).isSome ∧ (utils.parseInt64 last).isSome

/-- The handshake that the handler reads of some fields; a port stands in for a missing height. -/
def handshakeOf (nodeId port : Bytes) (rest : List Bytes) : Option Handshake :=
  match utils.parseInt port with
  | none => none
  | some advertisedPort =>
    if advertisedPort ≤ 0 ∨ advertisedPort > 65535 then none
    else
      match utils.parseInt64 (rest.headD port) with
      | none => none
      | some parsedHeight =>
        if parsedHeight < 0 then none
        else some ⟨nodeId, advertisedPort.toInt.toNat.toUInt16, parsedHeight, rest.tail.headD []⟩

/-- The numbers that are read of a request; the second one stands in for a missing one. -/
theorem readRange_eq (payload : Bytes) :
    readRange.run' (some payload) =
      some (utils.parseInt64 ((payload.splitOn bar).headD []),
        utils.parseInt64 ((payload.splitOn bar).tail.headD ((payload.splitOn bar).headD []))) := by
  rw [readRange]
  obtain ⟨st₁, hst₁, hrun⟩ := run'_getline_bind bar [] _ (some payload)
  change fieldsOf bar st₁ = (payload.splitOn bar).tail at hst₁
  rw [hrun]
  obtain ⟨st₂, -, hrun⟩ := run'_getline_bind bar ((payload.splitOn bar).headD []) _ st₁
  exact hrun.trans (by rw [hst₁]; rfl)

/-- What is read of the fields of a handshake. -/
theorem readHandshake_eq (payload : Bytes) :
    readHandshake.run' (some payload) =
      some (handshakeOf ((payload.splitOn bar).headD []) ((payload.splitOn bar).tail.headD [])
        (payload.splitOn bar).tail.tail) := by
  rw [readHandshake]
  obtain ⟨st₁, hst₁, hrun⟩ := run'_getline_bind bar [] _ (some payload)
  change fieldsOf bar st₁ = (payload.splitOn bar).tail at hst₁
  rw [hrun]
  obtain ⟨st₂, hst₂, hrun⟩ := run'_getline_bind bar [] _ st₁
  rw [hst₁] at hst₂
  rw [hrun, hst₁, handshakeOf]
  have hid : (fieldsOf bar (some payload)).headD [] = (payload.splitOn bar).headD [] := rfl
  simp only [hid]
  generalize (payload.splitOn bar).tail.headD [] = port
  cases utils.parseInt port with
  | none => rfl
  | some advertisedPort =>
    dsimp only
    split_ifs with hport
    · rfl
    · obtain ⟨st₃, hst₃, hrun⟩ := run'_getline_bind bar port _ st₂
      rw [hst₂] at hst₃
      rw [hrun, hst₂]
      cases utils.parseInt64 ((payload.splitOn bar).tail.tail.headD port) with
      | none => rfl
      | some parsedHeight =>
        dsimp only
        split_ifs with hheight
        · rfl
        · obtain ⟨st₄, -, hrun⟩ := run'_getline_bind bar [] _ st₃
          rw [hrun, hst₃]
          rfl

/-- A number that passes as a port passes as a height. -/
theorem IsPort.isHeight {text : Bytes} (h : IsPort text) : IsHeight text := by
  obtain ⟨port, hport, hrange⟩ := h
  obtain ⟨v, hv, rfl⟩ := Option.map_eq_some_iff.mp hport
  obtain ⟨hlo, hhi⟩ := utils.parseWhole_bounds hv
  have hpos : 0 ≤ v := by
    rw [not_or, Int32.le_iff_toInt_le, Int32.toInt_ofInt_of_le hlo (by omega), not_le] at hrange
    exact hrange.1.le
  refine ⟨Int64.ofInt v, ?_, ?_⟩
  · rw [utils.parseInt64, utils.parseWhole_of_le (by omega) (by omega) hv, Option.map_some]
  · rw [Int64.lt_iff_toInt_lt, Int64.toInt_ofInt_of_le (by omega) (by omega), not_lt]
    exact hpos

/-- A handshake is read when its port and its height are acceptable. -/
theorem exists_handshakeOf_iff {nodeId port : Bytes} {rest : List Bytes} :
    (∃ hs, handshakeOf nodeId port rest = some hs) ↔ IsPort port ∧ IsHeight (rest.headD port) := by
  rw [handshakeOf, IsPort, IsHeight]
  cases utils.parseInt port with
  | none => simp
  | some advertisedPort =>
    cases utils.parseInt64 (rest.headD port) with
    | none => simp
    | some parsedHeight =>
      simp only [Option.some.injEq, exists_eq_left']
      split_ifs with hport hheight
      · exact iff_of_false (by simp) fun h => h.1 hport
      · exact iff_of_false (by simp) fun h => h.2 hheight
      · exact iff_of_true ⟨_, rfl⟩ ⟨hport, hheight⟩

theorem nodeId_of_handshakeOf {nodeId port : Bytes} {rest : List Bytes} {hs : Handshake}
    (h : handshakeOf nodeId port rest = some hs) : hs.nodeId = nodeId := by
  rw [handshakeOf] at h
  split at h
  · cases h
  · split_ifs at h
    split at h
    · cases h
    · split_ifs at h
      rw [← Option.some.inj h]

/-! ### Handshakes -/

namespace P2PNode

variable (n : P2PNode) (env : Surroundings) (i : ℕ)

/-- The handshakes that are accepted with a missing height, or with an empty node id. -/
def TakesIncomplete (payload : Bytes) : Prop :=
  ∃ nodeId port rest, payload.splitOn bar = nodeId :: port :: rest ∧
    (rest = [] ∨ nodeId = [] ∧ IsHeight (rest.headD [])) ∧ IsPort port ∧ nodeId ≠ n.nodeId ∧
      n.table.hasPeerWithNodeId nodeId i = false

/-- The peer is not in the map afterwards, and its data are the same. -/
def RefusesHandshake (peer : PeerObject) (payload : Bytes) : Prop :=
  ¬ (n.handleHandshake env i peer payload).table.Listed i ∧
    (n.handleHandshake env i peer payload).table.objects = n.table.objects

variable {n env i}

theorem exists_acceptedHandshake_iff {payload : Bytes} :
    (∃ hs, n.acceptedHandshake i payload = some hs) ↔
      ∃ nodeId port rest, payload.splitOn bar = nodeId :: port :: rest ∧
        (IsPort port ∧ IsHeight (rest.headD port)) ∧ nodeId ≠ n.nodeId ∧
          n.table.hasPeerWithNodeId nodeId i = false := by
  rw [acceptedHandshake, readHandshake_eq]
  rcases hsplit : payload.splitOn bar with _ | ⟨nodeId, _ | ⟨port, rest⟩⟩
  · exact absurd hsplit (List.splitOn_ne_nil _ _)
  · simp [handshakeOf, show utils.parseInt [] = none from rfl]
  · constructor
    · rintro ⟨hs, haccepted⟩
      dsimp only [List.headD_cons, List.tail_cons] at haccepted
      split at haccepted
      · rename_i hs' hread
        have hs'_eq := Option.some.inj hread
        split_ifs at haccepted with hself hother
        rw [← nodeId_of_handshakeOf hs'_eq]
        exact ⟨_, port, rest, by rw [nodeId_of_handshakeOf hs'_eq],
          exists_handshakeOf_iff.mp ⟨hs', hs'_eq⟩, hself, Bool.eq_false_of_not_eq_true hother⟩
      · cases haccepted
    · rintro ⟨_, _, _, heq, hfields, hself, hother⟩
      obtain ⟨rfl, htail⟩ := List.cons.inj heq
      obtain ⟨rfl, rfl⟩ := List.cons.inj htail
      obtain ⟨hs, hhs⟩ : ∃ hs, handshakeOf nodeId port rest = some hs :=
        exists_handshakeOf_iff.mpr hfields
      have hid := nodeId_of_handshakeOf hhs
      dsimp only [List.headD_cons, List.tail_cons]
      rw [hhs]
      refine ⟨hs, ?_⟩
      dsimp only
      rw [hid, if_neg hself, if_neg (by rw [hother]; decide)]

/-- A handshake is refused unless it is accepted. -/
theorem refusesHandshake_iff {peer : PeerObject} (hpeer : n.table.objects[i]? = some peer)
    (hlisted : n.table.Listed i) (payload : Bytes) :
    n.RefusesHandshake env i peer payload ↔ ¬ ∃ hs, n.acceptedHandshake i payload = some hs := by
  have hholds : n.table.Holds i peer.getAddress := ⟨peer, hpeer, rfl⟩
  rw [RefusesHandshake, handleHandshake]
  cases haccepted : n.acceptedHandshake i payload with
  | none =>
    refine iff_of_true ⟨not_listed_removePeer hholds, ?_⟩ (by simp)
    dsimp only
    rw [removePeer]
    split <;> rfl
  | some hs =>
    refine iff_of_false (fun h => h.1 ?_) (by simp)
    dsimp only
    rw [table_syncIfHigher]
    exact hlisted

/-- The accepted handshakes that are not complete. -/
theorem takesIncomplete_iff {payload : Bytes} :
    n.TakesIncomplete i payload ↔
      ¬ CompleteHandshake payload ∧ ∃ hs, n.acceptedHandshake i payload = some hs := by
  rw [exists_acceptedHandshake_iff, CompleteHandshake, TakesIncomplete]
  constructor
  · rintro ⟨nodeId, port, rest, hsplit, hmissing, hport, hpeer⟩
    constructor
    · rintro ⟨nodeId', port', height, rest', hsplit', hid, -⟩
      rw [hsplit] at hsplit'
      obtain ⟨rfl, htail⟩ := List.cons.inj hsplit'
      obtain ⟨-, rfl⟩ := List.cons.inj htail
      rcases hmissing with hrest | ⟨rfl, -⟩
      · cases hrest
      · exact hid rfl
    · refine ⟨nodeId, port, rest, hsplit, ⟨hport, ?_⟩, hpeer⟩
      cases rest with
      | nil => exact hport.isHeight
      | cons height rest => exact (hmissing.resolve_left (List.cons_ne_nil _ _)).2
  · rintro ⟨hincomplete, nodeId, port, rest, hsplit, ⟨hport, hheight⟩, hpeer⟩
    refine ⟨nodeId, port, rest, hsplit, ?_, hport, hpeer⟩
    cases rest with
    | nil => exact .inl rfl
    | cons height rest =>
      refine .inr ⟨by_contra fun hid => hincomplete ?_, hheight⟩
      exact ⟨nodeId, port, height, rest, hsplit, hid, hport, hheight⟩

end P2PNode

/-! ### Requests -/

/-- The requests with a single number that are answered. -/
def TakesOneNumber (chainSize : ℕ) (payload : Bytes) : Prop :=
  bar ∉ payload ∧
    ∃ height, utils.parseInt64 payload = some height ∧ 0 ≤ height.toInt ∧ height.toInt < chainSize

/-- The answer is an error, which carries no blocks. -/
def RefusesRange (chain : List Block) (payload : Bytes) (now : Int64) : Prop :=
  ∃ errorMsg, handleGetBlocks chain payload now = Message.createError errorMsg now

theorem refusesRange_iff {chain : List Block} {payload : Bytes} {now : Int64} :
    RefusesRange chain payload now ↔
      ∃ errorMsg, requestedRange chain.length payload = .error errorMsg := by
  rw [RefusesRange, handleGetBlocks]
  cases requestedRange chain.length payload with
  | error errorMsg => exact iff_of_true ⟨errorMsg, rfl⟩ ⟨errorMsg, rfl⟩
  | ok heights =>
    apply iff_of_false
    · rintro ⟨errorMsg, h⟩
      exact absurd (congrArg Message.type h) (by decide : MessageType.BLOCKS ≠ .ERROR_MSG)
    · rintro ⟨errorMsg, h⟩
      cases h

/-- A request with a single number is answered when the number is a height of the chain. -/
theorem requestedRange_of_splitOn {chainSize : ℕ} {payload : Bytes}
    (h : payload.splitOn bar = [payload]) :
    (∃ errorMsg, requestedRange chainSize payload = .error errorMsg) ↔
      ¬ ∃ height, utils.parseInt64 payload = some height ∧ 0 ≤ height.toInt ∧
        height.toInt < chainSize := by
  rw [requestedRange, readRange_eq, h]
  dsimp only [List.headD_cons, List.headD_nil, List.tail_cons]
  cases utils.parseInt64 payload with
  | none => simp
  | some height =>
    simp only [Option.some.injEq, exists_eq_left']
    split_ifs <;> simp <;> omega

/-- A request with two fields is refused when one of them is not a number. -/
theorem requestedRange_eq_error {chainSize : ℕ} {payload : Bytes} (hbar : bar ∈ payload)
    (hincomplete : ¬ CompleteRange payload) :
    ∃ errorMsg, requestedRange chainSize payload = .error errorMsg := by
  obtain ⟨first, others, rfl, hfirst⟩ := List.eq_append_cons_of_mem hbar
  obtain ⟨last, rest, hrest⟩ :=
    List.exists_cons_of_ne_nil (List.splitOn_ne_nil bar others)
  have hsplit : (first ++ bar :: others).splitOn bar = first :: last :: rest := by
    rw [List.splitOn_append_cons_self_of_not_mem hfirst, hrest]
  rw [requestedRange, readRange_eq, hsplit]
  dsimp only [List.headD_cons, List.tail_cons]
  cases hparse₁ : utils.parseInt64 first with
  | none => exact ⟨_, rfl⟩
  | some startHeight =>
    cases hparse₂ : utils.parseInt64 last with
    | none => exact ⟨_, rfl⟩
    | some endHeight =>
      exact absurd ⟨first, last, rest, hsplit, by rw [hparse₁]; rfl, by rw [hparse₂]; rfl⟩
        hincomplete

/-- An incomplete request is refused, unless it is a height of the chain. -/
theorem refusesRange_iff_not_takesOneNumber (chain : List Block) (payload : Bytes) (now : Int64) :
    (¬ CompleteRange payload → RefusesRange chain payload now) ↔
      ¬ TakesOneNumber chain.length payload := by
  rw [refusesRange_iff, TakesOneNumber]
  by_cases hbar : bar ∈ payload
  · exact iff_of_true (requestedRange_eq_error hbar) fun h => h.1 hbar
  · have hsplit : payload.splitOn bar = [payload] := List.splitOn_eq_singleton hbar
    have hincomplete : ¬ CompleteRange payload := by
      rintro ⟨first, last, rest, h, -⟩
      rw [hsplit] at h
      cases (List.cons.inj h).2
    rw [requestedRange_of_splitOn hsplit, imp_iff_right hincomplete, and_iff_right hbar]

/-- Which incomplete payloads are refused: all handshakes but those that take their port for the
height or come without a node id, and all requests but those for a single height of the chain. -/
theorem refuses_incomplete_iff {n : P2PNode} {env : Surroundings} {i : ℕ} {peer : PeerObject}
    (hpeer : n.table.objects[i]? = some peer) (hlisted : n.table.Listed i)
    (handshake request : Bytes) :
    ((¬ CompleteHandshake handshake → n.RefusesHandshake env i peer handshake) ↔
        ¬ n.TakesIncomplete i handshake) ∧
      ((¬ CompleteRange request → RefusesRange n.node.blockchain.chain request env.now) ↔
        ¬ TakesOneNumber n.node.blockchain.chain.length request) := by
  refine ⟨?_, refusesRange_iff_not_takesOneNumber _ _ _⟩
  rw [P2PNode.refusesHandshake_iff hpeer hlisted, P2PNode.takesIncomplete_iff, not_and]

section Examples

open P2PNode

private def newPeer : PeerObject := .create (ascii "10.0.0.2") 50000 0 0

private def quiet : Surroundings := ⟨0, true, fun _ _ => false⟩

/-- A node whose peer has not sent a handshake. -/
private def waiting : P2PNode :=
  (started (ascii "b") {} ⟨Blockchain.fresh 50 0, [], []⟩).acceptConnection quiet
    (ascii "10.0.0.2") 50000

private theorem listed_waiting : waiting.table.Listed 0 := ⟨ascii "10.0.0.2:50000", by decide⟩

/-- A node id alone, and a range without numbers. -/
theorem refuses_nodeId_alone :
    waiting.RefusesHandshake quiet 0 newPeer (ascii "a") ∧
      RefusesRange waiting.node.blockchain.chain (ascii "|") 0 := by
  have hiff := @refuses_incomplete_iff waiting quiet 0 newPeer rfl listed_waiting (ascii "a")
    (ascii "|")
  have hsplit : (ascii "a").splitOn bar = [ascii "a"] := by decide
  have hbar : (ascii "|").splitOn bar = [[], []] := by decide
  constructor
  · refine hiff.1.mpr ?_ ?_
    · rintro ⟨nodeId, port, rest, h, -⟩
      rw [hsplit] at h
      cases h
    · rintro ⟨nodeId, port, height, rest, h, -⟩
      rw [hsplit] at h
      cases h
  · refine hiff.2.mpr (fun h => h.1 (by decide)) ?_
    rintro ⟨first, last, rest, h, hfirst, -⟩
    rw [hbar] at h
    obtain ⟨rfl, -⟩ := List.cons.inj h
    cases hfirst

/-- A handshake without a height connects the peer, at the height 8333, and the request for block 0
without an end is answered with the block. -/
theorem not_refuses_port_as_height :
    Blockchain.construct 0 50 0 = some waiting.node.blockchain ∧ waiting.table.Listed 0 ∧
      ¬ CompleteHandshake (ascii "a|8333") ∧
      ¬ waiting.RefusesHandshake quiet 0 newPeer (ascii "a|8333") ∧
      (waiting.handleHandshake quiet 0 newPeer (ascii "a|8333")).table.objects =
        [newPeer.connect ⟨ascii "a", 8333, 8333, []⟩] ∧
      ¬ CompleteRange (ascii "0") ∧
      ¬ RefusesRange waiting.node.blockchain.chain (ascii "0") 0 ∧
      (handleGetBlocks waiting.node.blockchain.chain (ascii "0") 0).type = .BLOCKS := by
  refine ⟨Blockchain.construct_zero 50 0, listed_waiting, ?_, fun h => h.1 ?_, by decide +kernel,
    ?_, ?_, by decide +kernel⟩
  · rintro ⟨nodeId, port, height, rest, h, -⟩
    rw [show (ascii "a|8333").splitOn bar = [ascii "a", ascii "8333"] by decide] at h
    cases h
  · exact ⟨ascii "10.0.0.2:50000", by decide +kernel⟩
  · rintro ⟨first, last, rest, h, -⟩
    rw [show (ascii "0").splitOn bar = [ascii "0"] by decide] at h
    cases h
  · rintro ⟨errorMsg, h⟩
    have htype : (handleGetBlocks waiting.node.blockchain.chain (ascii "0") 0).type = .BLOCKS := by
      decide +kernel
    rw [h] at htype
    cases htype

end Examples

end p2p

end BlockchainCrypto
