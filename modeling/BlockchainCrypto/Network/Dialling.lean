import BlockchainCrypto.Network.Handshake
import BlockchainCrypto.Theory.Runs
import Mathlib.Logic.Function.Basic

/-!
# Two nodes that dial each other

Two nodes call `connectToPeer` on each other, while their listener and receiver threads accept the
connection of the other and handle its handshakes, in any order. A node that already knows a
connection to the sender of a handshake removes the connection on which the handshake came.

The two connections are named after the node that dials them. The address of the remote end is
different for both, so the map of a node is listed by connection. Bytes arrive in the order in
which they were sent, and the end of a connection arrives after them.

## Main definitions

* `p2p.Endpoint`: the data of a running node that matter here.
* `p2p.handleHandshake`, `p2p.Connection.run`: what the threads do.
* `p2p.dialling`: the interleavings.
* `p2p.NoCrossing`: no dialled connection is read while an end of the other one is on its way.
* `p2p.Phase`: the states that a connection goes through.

## Main results

* `p2p.run_eq_next`: the threads move connections from phase to phase.
-/

namespace BlockchainCrypto

open ByteText

namespace p2p

/-! ### Peers -/

/-- The states of a peer. -/
inductive PeerState where
  | CONNECTING
  | HANDSHAKING
  | CONNECTED
  | DISCONNECTING
  | DISCONNECTED
  deriving DecidableEq

/-- The text of an address. -/
def addressOf (ip : Bytes) (port : UInt16) : Bytes := ip ++ ascii ":" ++ decimal port.toNat

/-- An entry of the map of peers. -/
structure RemotePeer where
  ip : Bytes
  port : UInt16
  listenPort : UInt16
  state : PeerState
  nodeId : Bytes
  blockHeight : Int64
  version : Bytes
  deriving DecidableEq

namespace RemotePeer

/-- The port on which a peer listens, as far as it has told. -/
def getAdvertisedPort (peer : RemotePeer) : UInt16 :=
  if peer.listenPort ≠ 0 then peer.listenPort else peer.port

/-- The address at which a peer can be dialled. -/
def getAdvertisedAddress (peer : RemotePeer) : Bytes := addressOf peer.ip peer.getAdvertisedPort

end RemotePeer

/-- One of the peers advertises the address. -/
def hasPeerAt (peers : List RemotePeer) (advertisedAddress : Bytes) : Bool :=
  peers.any fun peer => peer.getAdvertisedAddress == advertisedAddress

/-- Here `others` are the peers without the one that is excepted. -/
def hasPeerWithNodeId (others : List RemotePeer) (peerNodeId : Bytes) : Bool :=
  if peerNodeId = [] then false else others.any fun peer => peer.nodeId == peerNodeId

/-- A running node: its address, the port it listens on, the source port of the connection it
dials, its id and the size of its chain. -/
structure Endpoint where
  ip : Bytes
  listenPort : UInt16
  ephemeralPort : UInt16
  nodeId : Bytes
  chainSize : Int64
  listenPort_ne : listenPort ≠ 0
  ephemeralPort_ne : ephemeralPort ≠ listenPort
  nodeId_eq : ∃ first second, nodeId = generateNodeId first second
  chainSize_nonneg : ¬ chainSize < 0

/-! ### Handlers -/

/-- What travels on a connection. -/
inductive Packet where
  | message (type : MessageType) (payload : Bytes)
  | close
  deriving DecidableEq

/-- The payload of both messages of a handshake. -/
def Endpoint.hello (self : Endpoint) : Bytes :=
  handshakePayload self.nodeId self.listenPort self.chainSize

/-- The peer after a handshake, if it has not been removed, and what is sent to it. -/
def handleHandshake (self : Endpoint) (others : List RemotePeer) (peer : RemotePeer)
    (type : MessageType) (payload : Bytes) : Option RemotePeer × List Packet :=
  match readHandshake.run' (some payload) with
  | some (some hs) =>
    if hs.nodeId = self.nodeId then (none, [.close])
    else if hasPeerWithNodeId others hs.nodeId then (none, [.close])
    else
      (some { peer with
        listenPort := hs.listenPort
        nodeId := hs.nodeId
        blockHeight := hs.blockHeight
        version := hs.version
        state := .CONNECTED },
      if type = .HANDSHAKE then [.message .HANDSHAKE_ACK self.hello] else [])
  | _ => (none, [.close])

/-- The receiver thread: the end of a connection removes the peer. -/
def handlePacket (self : Endpoint) (others : List RemotePeer) (peer : RemotePeer) :
    Packet → Option RemotePeer × List Packet
  | .message type payload => handleHandshake self others peer type payload
  | .close => (none, [])

/-! ### Interleavings -/

/-- The two nodes. -/
inductive Side where
  | A
  | B
  deriving DecidableEq

namespace Side

/-- The other node. -/
def other : Side → Side
  | A => B
  | B => A

@[simp] theorem other_ne (x : Side) : x.other ≠ x := by cases x <;> decide

@[simp] theorem other_other (x : Side) : x.other.other = x := by cases x <;> rfl

end Side

/-- How far a call of `connectToPeer` has come: to the test for an existing connection, to the
connection and the handshake on it, to the entry in the map. -/
inductive DialStage where
  | called
  | checked
  | sent
  | returned
  deriving DecidableEq

/-- A connection with its entries in the maps of both nodes and what is in flight on it. -/
structure Connection where
  stage : DialStage := .called
  /-- whether it waits to be accepted -/
  backlog : Bool := false
  diallerPeer : Option RemotePeer := none
  acceptorPeer : Option RemotePeer := none
  toAcceptor : List Packet := []
  toDialler : List Packet := []
  deriving DecidableEq

/-- The connection that each side dials. -/
abbrev World := Side → Connection

/-- The threads of both nodes take turns in these steps. -/
inductive Action where
  | check
  | connect
  | insert
  | accept
  | toAcceptor
  | toDialler
  deriving DecidableEq

section Threads

variable (setup : Side → Endpoint)

/-- A step on the connection that `x` dials, next to the one that it accepts; there is none when the
step is not possible. -/
def Connection.run (x : Side) (c accepted : Connection) : Action → Option Connection
  | .check =>
    if c.stage = .called then
      some { c with
        stage :=
          if hasPeerAt (c.diallerPeer.toList ++ accepted.acceptorPeer.toList)
            (addressOf (setup x.other).ip (setup x.other).listenPort) then .returned
          else .checked }
    else none
  | .connect =>
    if c.stage = .checked then
      some { c with
        stage := .sent
        backlog := true
        toAcceptor := [.message .HANDSHAKE (setup x).hello] }
    else none
  | .insert =>
    if c.stage = .sent then
      some { c with
        stage := .returned
        diallerPeer := some ⟨(setup x.other).ip, (setup x.other).listenPort,
          (setup x.other).listenPort, .HANDSHAKING, [], 0, []⟩ }
    else none
  | .accept =>
    if c.backlog then
      some { c with
        backlog := false
        acceptorPeer := some ⟨(setup x).ip, (setup x).ephemeralPort, 0, .HANDSHAKING, [], 0, []⟩ }
    else none
  | .toAcceptor =>
    match c.acceptorPeer, c.toAcceptor with
    | some peer, packet :: rest =>
      let (acceptorPeer, sent) :=
        handlePacket (setup x.other) accepted.diallerPeer.toList peer packet
      some { c with acceptorPeer, toAcceptor := rest, toDialler := c.toDialler ++ sent }
    | _, _ => none
  | .toDialler =>
    match c.diallerPeer, c.toDialler with
    | some peer, packet :: rest =>
      let (diallerPeer, sent) :=
        handlePacket (setup x) accepted.acceptorPeer.toList peer packet
      some { c with diallerPeer, toDialler := rest, toAcceptor := c.toAcceptor ++ sent }
    | _, _ => none

/-- The interleavings of two calls of `connectToPeer`. -/
def dialling : Runs.System World (Side × Action) where
  init w := w = fun _ => {}
  step w a w' := ∃ c, Connection.run setup a.1 (w a.1) (w a.1.other) a.2 = some c ∧
    w' = Function.update w a.1 c

/-- Nothing is left to do and nothing is in flight. -/
def Terminal (w : World) : Prop := ∀ x act, Connection.run setup x (w x) (w x.other) act = none

end Threads

/-- The connection is in the maps of both nodes. -/
def Connection.Live (c : Connection) : Prop := c.diallerPeer.isSome ∧ c.acceptorPeer.isSome

/-- No node reads from the connection it dialled while the end of the connection it accepted is on
its way. -/
def NoCrossing (w : World) (a : Side × Action) : Prop :=
  a.2 = .toDialler → Packet.close ∉ (w a.1.other).toAcceptor

/-! ### Phases -/

/-- The states that a connection goes through: the handshake is offered, and the acceptor answers
it or refuses it. A refused connection is dropped by the dialler; an answered one is established,
or withdrawn by the dialler and then gone. The flags say whether the dialler has made its entry and
whether the acceptor has made its own. -/
inductive Phase where
  | called
  | checked
  | skipped
  | offered (inserted accepted : Bool)
  | answered (inserted : Bool)
  | refused (inserted : Bool)
  | dropped
  | established
  | withdrawn
  | gone
  deriving DecidableEq

namespace Phase

/-- The acceptor knows the node at the other end. -/
def acceptorKnows : Phase → Bool
  | answered _ | established | withdrawn => true
  | _ => false

/-- The phase after a step, next to a connection in phase `q`. -/
def next (p q : Phase) (act : Action) : Option Phase :=
  match p, act with
  | called, .check => some (if q.acceptorKnows then skipped else checked)
  | checked, .connect => some (offered false false)
  | offered false accepted, .insert => some (offered true accepted)
  | answered false, .insert => some (answered true)
  | refused false, .insert => some (refused true)
  | offered inserted false, .accept => some (offered inserted true)
  | offered inserted true, .toAcceptor =>
    some (if q = established then refused inserted else answered inserted)
  | answered true, .toDialler => some (if q.acceptorKnows then withdrawn else established)
  | refused true, .toDialler => some dropped
  | withdrawn, .toAcceptor => some gone
  | _, _ => none

end Phase

/-- The entry of a node at the other end, before its handshake. -/
def Endpoint.entry (remote : Endpoint) (port listenPort : UInt16) : RemotePeer :=
  ⟨remote.ip, port, listenPort, .HANDSHAKING, [], 0, []⟩

/-- The entry of a node at the other end, after its handshake. -/
def Endpoint.known (remote : Endpoint) (port : UInt16) : RemotePeer :=
  ⟨remote.ip, port, remote.listenPort, .CONNECTED, remote.nodeId, remote.chainSize, ascii "1.0.0"⟩

section Phases

variable (setup : Side → Endpoint) (x : Side)

/-- The entry that the dialler has made by then. -/
def insertedEntry (inserted : Bool) : Option RemotePeer :=
  if inserted then
    some ((setup x.other).entry (setup x.other).listenPort (setup x.other).listenPort)
  else none

/-- The stage of the call before and after the dialler has made its entry. -/
def insertedStage (inserted : Bool) : DialStage := if inserted then .returned else .sent

/-- The connection in a phase. -/
def Phase.conn : Phase → Connection
  | called => {}
  | checked => { stage := .checked }
  | skipped => { stage := .returned }
  | offered inserted accepted =>
    { stage := insertedStage inserted
      backlog := !accepted
      diallerPeer := insertedEntry setup x inserted
      acceptorPeer := if accepted then some ((setup x).entry (setup x).ephemeralPort 0) else none
      toAcceptor := [.message .HANDSHAKE (setup x).hello] }
  | answered inserted =>
    { stage := insertedStage inserted
      diallerPeer := insertedEntry setup x inserted
      acceptorPeer := some ((setup x).known (setup x).ephemeralPort)
      toDialler := [.message .HANDSHAKE_ACK (setup x.other).hello] }
  | refused inserted =>
    { stage := insertedStage inserted
      diallerPeer := insertedEntry setup x inserted
      toDialler := [.close] }
  | dropped => { stage := .returned }
  | established =>
    { stage := .returned
      diallerPeer := some ((setup x.other).known (setup x.other).listenPort)
      acceptorPeer := some ((setup x).known (setup x).ephemeralPort) }
  | withdrawn =>
    { stage := .returned
      acceptorPeer := some ((setup x).known (setup x).ephemeralPort)
      toAcceptor := [.close] }
  | gone => { stage := .returned }

/-- The two connections in their phases. -/
def worldOf (p : Side → Phase) : World := fun x => (p x).conn setup x

end Phases

/-! ### The handlers in each phase -/

theorem Endpoint.nodeId_ne_nil (e : Endpoint) : e.nodeId ≠ [] := by
  obtain ⟨first, second, h⟩ := e.nodeId_eq
  rw [h, generateNodeId, hexWord, List.flatMap_cons, hexByte]
  simp

/-- The handshake of a node is read as it was sent. -/
theorem Endpoint.readHandshake_hello (e : Endpoint) :
    readHandshake.run' (some e.hello) =
      some (some ⟨e.nodeId, e.listenPort, e.chainSize, ascii "1.0.0"⟩) := by
  obtain ⟨first, second, h⟩ := e.nodeId_eq
  rw [Endpoint.hello, readHandshake_handshakePayload (h ▸ bar_not_mem_generateNodeId first second),
    if_neg (not_or.mpr ⟨e.listenPort_ne, e.chainSize_nonneg⟩)]

/-- A handshake of another node is accepted unless one of the other peers has its id. -/
theorem handleHandshake_hello {self remote : Endpoint} (hne : remote.nodeId ≠ self.nodeId)
    (others : List RemotePeer) (port listenPort : UInt16) (type : MessageType) :
    handleHandshake self others (remote.entry port listenPort) type remote.hello =
      if hasPeerWithNodeId others remote.nodeId then (none, [.close])
      else (some (remote.known port),
        if type = .HANDSHAKE then [.message .HANDSHAKE_ACK self.hello] else []) := by
  rw [handleHandshake, remote.readHandshake_hello]
  exact if_neg hne

/-- Addresses with one ip have different texts for different ports. -/
theorem addressOf_inj {ip : Bytes} {port port' : UInt16}
    (h : addressOf ip port = addressOf ip port') : port = port' := by
  have hdecimal := List.append_cancel_left h
  have hvalue := congrArg digitsValue hdecimal
  rw [digitsValue_decimal, digitsValue_decimal] at hvalue
  exact UInt16.toNat_inj.mp hvalue

section Known

variable (setup : Side → Endpoint) (x : Side) (q : Phase)

/-- Among the accepted connections, a node finds the address of the other node when it knows the
other end. -/
theorem hasPeerAt_acceptorPeer :
    hasPeerAt (q.conn setup x).acceptorPeer.toList
      (addressOf (setup x).ip (setup x).listenPort) = q.acceptorKnows := by
  have hknown : ((setup x).known (setup x).ephemeralPort).getAdvertisedAddress =
      addressOf (setup x).ip (setup x).listenPort := by
    rw [RemotePeer.getAdvertisedAddress, RemotePeer.getAdvertisedPort]
    exact congrArg (addressOf _) (if_pos (setup x).listenPort_ne)
  have hentry : ((setup x).entry (setup x).ephemeralPort 0).getAdvertisedAddress ≠
      addressOf (setup x).ip (setup x).listenPort := fun h =>
    (setup x).ephemeralPort_ne (addressOf_inj h)
  cases q with
  | offered inserted accepted =>
    cases accepted with
    | true => simp [Phase.conn, hasPeerAt, Phase.acceptorKnows, hentry]
    | false => rfl
  | answered inserted => simp [Phase.conn, hasPeerAt, Phase.acceptorKnows, hknown]
  | established => simp [Phase.conn, hasPeerAt, Phase.acceptorKnows, hknown]
  | withdrawn => simp [Phase.conn, hasPeerAt, Phase.acceptorKnows, hknown]
  | _ => rfl

/-- Among the accepted connections, a node finds the id of the other node when it knows the other
end. -/
theorem hasPeerWithNodeId_acceptorPeer :
    hasPeerWithNodeId (q.conn setup x).acceptorPeer.toList (setup x).nodeId =
      q.acceptorKnows := by
  have hid := (setup x).nodeId_ne_nil
  rw [hasPeerWithNodeId, if_neg hid]
  cases q with
  | offered inserted accepted =>
    cases accepted with
    | true => simp [Phase.conn, Phase.acceptorKnows, Endpoint.entry, hid]
    | false => rfl
  | answered inserted => simp [Phase.conn, Phase.acceptorKnows, Endpoint.known]
  | established => simp [Phase.conn, Phase.acceptorKnows, Endpoint.known]
  | withdrawn => simp [Phase.conn, Phase.acceptorKnows, Endpoint.known]
  | _ => rfl

/-- Among the dialled connections, a node finds the id of the other node when the connection is
established. -/
theorem hasPeerWithNodeId_diallerPeer :
    hasPeerWithNodeId (q.conn setup x).diallerPeer.toList (setup x.other).nodeId =
      decide (q = .established) := by
  have hid := (setup x.other).nodeId_ne_nil
  rw [hasPeerWithNodeId, if_neg hid]
  have hentry (inserted : Bool) : ((insertedEntry setup x inserted).toList.any
      fun peer => peer.nodeId == (setup x.other).nodeId) = false := by
    cases inserted with
    | true => simp [insertedEntry, Endpoint.entry, hid]
    | false => rfl
  cases q with
  | offered inserted accepted => exact hentry inserted
  | answered inserted => exact hentry inserted
  | refused inserted => exact hentry inserted
  | established => simp [Phase.conn, Endpoint.known]
  | _ => rfl

end Known

/-! ### Steps move connections from phase to phase -/

section Steps

variable {setup : Side → Endpoint} (hid : (setup .A).nodeId ≠ (setup .B).nodeId)

include hid in
theorem nodeId_ne (x : Side) : (setup x).nodeId ≠ (setup x.other).nodeId := by
  cases x with
  | A => exact hid
  | B => exact hid.symm

variable (x : Side) (p q : Phase)

/-- The test of `connectToPeer` finds the accepted connection when the other end is known. -/
theorem run_check :
    Connection.run setup x (p.conn setup x) (q.conn setup x.other) .check =
      (p.next q .check).map (Phase.conn setup x) := by
  cases p with
  | called =>
    have hfind := hasPeerAt_acceptorPeer setup x.other q
    generalize q.conn setup x.other = other at hfind ⊢
    simp only [Connection.run, Phase.conn, ↓reduceIte, Option.toList_none, List.nil_append, hfind,
      Phase.next]
    cases q.acceptorKnows <;> rfl
  | offered inserted accepted => cases inserted <;> cases accepted <;> rfl
  | answered inserted => cases inserted <;> rfl
  | refused inserted => cases inserted <;> rfl
  | _ => rfl

theorem run_connect :
    Connection.run setup x (p.conn setup x) (q.conn setup x.other) .connect =
      (p.next q .connect).map (Phase.conn setup x) := by
  cases p with
  | offered inserted accepted => cases inserted <;> cases accepted <;> rfl
  | answered inserted => cases inserted <;> rfl
  | refused inserted => cases inserted <;> rfl
  | _ => rfl

theorem run_insert :
    Connection.run setup x (p.conn setup x) (q.conn setup x.other) .insert =
      (p.next q .insert).map (Phase.conn setup x) := by
  cases p with
  | offered inserted accepted => cases inserted <;> cases accepted <;> rfl
  | answered inserted => cases inserted <;> rfl
  | refused inserted => cases inserted <;> rfl
  | _ => rfl

theorem run_accept :
    Connection.run setup x (p.conn setup x) (q.conn setup x.other) .accept =
      (p.next q .accept).map (Phase.conn setup x) := by
  cases p with
  | offered inserted accepted => cases inserted <;> cases accepted <;> rfl
  | answered inserted => cases inserted <;> rfl
  | refused inserted => cases inserted <;> rfl
  | _ => rfl

include hid in
/-- The acceptor refuses a handshake when the connection it dialled is established. -/
theorem run_toAcceptor :
    Connection.run setup x (p.conn setup x) (q.conn setup x.other) .toAcceptor =
      (p.next q .toAcceptor).map (Phase.conn setup x) := by
  cases p with
  | offered inserted accepted =>
    cases accepted with
    | false => cases inserted <;> rfl
    | true =>
      have hfind := hasPeerWithNodeId_diallerPeer setup x.other q
      rw [Side.other_other] at hfind
      generalize q.conn setup x.other = other at hfind ⊢
      simp only [Connection.run, Phase.conn, ↓reduceIte, handlePacket,
        handleHandshake_hello (nodeId_ne hid x), hfind, Phase.next]
      by_cases hq : q = .established
      · simp [hq, Phase.conn]
      · simp [hq, Phase.conn]
  | answered inserted => cases inserted <;> rfl
  | refused inserted => cases inserted <;> rfl
  | _ => rfl

include hid in
/-- The dialler withdraws a connection that was answered when it knows the other end of the
connection it accepted. -/
theorem run_toDialler :
    Connection.run setup x (p.conn setup x) (q.conn setup x.other) .toDialler =
      (p.next q .toDialler).map (Phase.conn setup x) := by
  cases p with
  | offered inserted accepted => cases inserted <;> cases accepted <;> rfl
  | answered inserted =>
    cases inserted with
    | false => rfl
    | true =>
      have hfind := hasPeerWithNodeId_acceptorPeer setup x.other q
      generalize q.conn setup x.other = other at hfind ⊢
      simp only [Connection.run, Phase.conn, insertedEntry, ↓reduceIte, handlePacket,
        handleHandshake_hello (nodeId_ne hid x).symm, hfind, Phase.next]
      cases q.acceptorKnows <;> rfl
  | refused inserted => cases inserted <;> rfl
  | _ => rfl

include hid in
/-- The threads move connections from phase to phase. -/
theorem run_eq_next (act : Action) :
    Connection.run setup x (p.conn setup x) (q.conn setup x.other) act =
      (p.next q act).map (Phase.conn setup x) := by
  cases act with
  | check => exact run_check x p q
  | connect => exact run_connect x p q
  | insert => exact run_insert x p q
  | accept => exact run_accept x p q
  | toAcceptor => exact run_toAcceptor hid x p q
  | toDialler => exact run_toDialler hid x p q

end Steps

end p2p

end BlockchainCrypto
