import BlockchainCrypto.Network.Frames
import BlockchainCrypto.Network.Serializers

/-!
# Handshakes

Both sides of a connection tell each other their node id, the port they listen on, the size of
their chain and a version, as one text with bars. Node ids are random hexadecimal strings.

## Main definitions

* `p2p.generateNodeId`: the node id made of two random numbers.
* `p2p.handshakePayload`: the text of a handshake.
* `p2p.readHandshake`: the fields of a handshake, if port and size are acceptable.

## Main results

* `p2p.readHandshake_handshakePayload`: what is read of a handshake that a node has sent.
-/

namespace BlockchainCrypto

open ByteText

namespace p2p

/-- Sixteen hexadecimal digits, `{:016x}`. -/
def hexWord (v : UInt64) : Bytes :=
  [56, 48, 40, 32, 24, 16, 8, 0].flatMap fun i : UInt64 => hexByte (v >>> i).toUInt8

/-- The node id, from two random numbers. -/
def generateNodeId (first second : UInt64) : Bytes := hexWord first ++ hexWord second

/-- What a handshake tells about the peer that sent it. -/
structure Handshake where
  nodeId : Bytes
  listenPort : UInt16
  blockHeight : Int64
  version : Bytes
  deriving DecidableEq

/-- The payload of `createHandshake`. -/
def handshakePayload (nodeId : Bytes) (port : UInt16) (blockHeight : Int64) : Bytes :=
  List.intercalate [bar]
    [nodeId, decimal port.toNat, decimalInt blockHeight.toInt, ascii "1.0.0"]

/-- The fields of a handshake; there are none when the port or the height is rejected. -/
def readHandshake : LineReader (Option Handshake) := do
  let peerNodeId ← getline bar []
  let token ← getline bar []
  match utils.parseInt token with
  | none => pure none
  | some advertisedPort =>
    if advertisedPort ≤ 0 ∨ advertisedPort > 65535 then pure none
    else
      let token ← getline bar token
      match utils.parseInt64 token with
      | none => pure none
      | some parsedHeight =>
        if parsedHeight < 0 then pure none
        else
          let version ← getline bar []
          pure (some ⟨peerNodeId, advertisedPort.toInt.toNat.toUInt16, parsedHeight, version⟩)

theorem bar_not_mem_generateNodeId (first second : UInt64) :
    bar ∉ generateNodeId first second := by
  have hword (v : UInt64) : bar ∉ hexWord v := fun hmem => by
    obtain ⟨i, -, hi⟩ := List.mem_flatMap.mp hmem
    exact absurd (isHexDigit_of_mem_hexByte hi) (by decide)
  exact fun hmem => (List.mem_append.mp hmem).elim (hword first) (hword second)

/-- The bounds on the advertised port exclude zero alone. -/
theorem port_rejected_iff (port : UInt16) :
    (Int32.ofNat port.toNat ≤ 0 ∨ Int32.ofNat port.toNat > 65535) ↔ port = 0 := by
  have hlt := port.toNat_lt
  have hvalue : (Int32.ofNat port.toNat).toInt = port.toNat := Int32.toInt_ofNat_of_lt (by omega)
  have hzero : port = 0 ↔ port.toNat = 0 := UInt16.toNat_inj.symm
  have h0 : (0 : Int32).toInt = 0 := rfl
  have hmax : (65535 : Int32).toInt = 65535 := rfl
  rw [gt_iff_lt, Int32.le_iff_toInt_le, Int32.lt_iff_toInt_lt, hvalue, hzero, h0, hmax]
  omega

/-- A handshake of a node is read as it was sent, if its port is not zero and its height not
negative. -/
theorem readHandshake_handshakePayload {nodeId : Bytes} (hid : bar ∉ nodeId) (port : UInt16)
    (blockHeight : Int64) :
    readHandshake.run' (some (handshakePayload nodeId port blockHeight)) =
      some (if port = 0 ∨ blockHeight < 0 then none
        else some ⟨nodeId, port, blockHeight, ascii "1.0.0"⟩) := by
  have hsplit : (handshakePayload nodeId port blockHeight).splitOn bar =
      [nodeId, decimal port.toNat, decimalInt blockHeight.toInt, ascii "1.0.0"] := by
    refine List.splitOn_intercalate bar (fun f hf => ?_) (List.cons_ne_nil _ _)
    simp only [List.mem_cons, List.not_mem_nil, or_false] at hf
    rcases hf with rfl | rfl | rfl | rfl
    · exact hid
    · exact isSeparator_bar.not_mem port.toNat
    · exact isSeparator_bar.not_mem _
    · decide
  have hport : utils.parseInt (decimal port.toNat) = some (Int32.ofNat port.toNat) := by
    have hlt := port.toNat_lt
    rw [utils.parseInt_decimal_eq, if_pos (by omega)]
  have hvalue : (Int32.ofNat port.toNat).toInt.toNat.toUInt16 = port := by
    have hlt := port.toNat_lt
    rw [Int32.toInt_ofNat_of_lt (by omega), Int.toNat_natCast]
    exact UInt16.ofNat_toNat
  by_cases hzero : port = 0
  · have htakes : Takes bar readHandshake [nodeId, decimal port.toNat] none := by
      rw [readHandshake]
      refine (takes_getline [] nodeId).bind ((takes_getline [] (decimal port.toNat)).bind ?_)
      rw [hport]
      dsimp only
      rw [if_pos ((port_rejected_iff port).mpr hzero)]
      exact takes_pure none
    rw [if_pos (.inl hzero), htakes.run'_of_splitOn hsplit]
  · by_cases hnegative : blockHeight < 0
    · have htakes : Takes bar readHandshake
          [nodeId, decimal port.toNat, decimalInt blockHeight.toInt] none := by
        rw [readHandshake]
        refine (takes_getline [] nodeId).bind ((takes_getline [] (decimal port.toNat)).bind ?_)
        rw [hport]
        dsimp only
        rw [if_neg (mt (port_rejected_iff port).mp hzero)]
        refine (takes_getline _ (decimalInt blockHeight.toInt)).bind (?_ : Takes bar _ [] none)
        rw [utils.parseInt64_decimalInt]
        dsimp only
        rw [if_pos hnegative]
        exact takes_pure none
      rw [if_pos (.inr hnegative), htakes.run'_of_splitOn hsplit]
    · have htakes : Takes bar readHandshake
          [nodeId, decimal port.toNat, decimalInt blockHeight.toInt, ascii "1.0.0"]
          (some ⟨nodeId, port, blockHeight, ascii "1.0.0"⟩) := by
        rw [readHandshake]
        refine (takes_getline [] nodeId).bind ((takes_getline [] (decimal port.toNat)).bind ?_)
        rw [hport]
        dsimp only
        rw [if_neg (mt (port_rejected_iff port).mp hzero)]
        refine (takes_getline _ (decimalInt blockHeight.toInt)).bind ?_
        rw [utils.parseInt64_decimalInt]
        dsimp only
        rw [if_neg hnegative, hvalue]
        exact (takes_getline [] (ascii "1.0.0")).bind (takes_pure _)
      rw [if_neg (not_or.mpr ⟨hzero, hnegative⟩),
        htakes.run'_of_splitOn (hsplit.trans (List.append_nil _).symm)]

end p2p

end BlockchainCrypto
