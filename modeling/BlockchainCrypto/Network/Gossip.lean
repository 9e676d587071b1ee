import BlockchainCrypto.Chain.Histories
import BlockchainCrypto.Network.Frames
import BlockchainCrypto.Network.WireText

/-!
# Gossip

A node takes blocks and transactions from its peers and hands them to its blockchain, through the
callbacks that `main.cpp` sets up. It remembers the hash that a block claims, and the hash of a
transaction, before the blockchain has decided on it, and it hands over no second block or
transaction with the same hash. What it sends, and `broadcastTransaction`, are in `Network.Relay`;
what `broadcastBlock` does to the known hashes is in `Network.KnownBlocks`. No part of the program
calls these two.

## Main definitions

* `p2p.Node`, with `handleBlocks`, `handleNewBlock`, `handleNewTransaction` and `handleMessage`.
* `p2p.Event`: the messages of peers and the operations of the local user.
* `p2p.gossip`: the runs of a node, each state with the events before it.
* `p2p.Event.blocks`, `p2p.Event.transactions`: what an event delivers.

## Main results

* `p2p.known_of_reachable`: the remembered hashes are those of everything delivered before.
* `p2p.delivery_iff`: a block or transaction that the blockchain would take is taken exactly when
  nothing of the same hash was delivered before.
-/

namespace BlockchainCrypto

open ByteText

namespace p2p

/-! ### Handlers -/

/-- A node, as far as blocks and transactions are concerned. -/
structure Node where
  blockchain : Blockchain
  knownBlocks : List Bytes
  knownTxs : List Bytes

namespace Node

/-- The callback of the program for a block. -/
def onNewBlock (n : Node) (block : Block) : Node :=
  { n with blockchain := (n.blockchain.addBlock (some block)).1 }

/-- The callback of the program for a transaction. -/
def onNewTransaction (n : Node) (tx : Transaction) : Node :=
  { n with blockchain := n.blockchain.addTransaction tx }

/-- The loop body of `handleBlocks` for one line; a line that is not a block is skipped. -/
def handleLine (n : Node) (line : Bytes) : Node :=
  if line = [] then n
  else
    match BlockSerializer.deserialize line with
    | none => n
    | some block => { n with knownBlocks := block.hash :: n.knownBlocks }.onNewBlock block

/-- The lines of a message of blocks behind the number of blocks, which has to be a number and is
not used otherwise. -/
def blockLines (payload : Bytes) : List Bytes :=
  match payload.splitOn newline with
  | [] => []
  | line :: lines =>
    match utils.parseInt line with
    | none => []
    | some blockCount => if blockCount < 0 then [] else lines

/-- The lines of a reply, one block after the other. -/
def handleBlocks (n : Node) (payload : Bytes) : Node := (blockLines payload).foldl handleLine n

/-- An announced block is handed on, unless its hash is known. -/
def handleNewBlock (n : Node) (payload : Bytes) : Node :=
  match BlockSerializer.deserialize payload with
  | none => n
  | some block =>
    if block.hash ∈ n.knownBlocks then n
    else { n with knownBlocks := block.hash :: n.knownBlocks }.onNewBlock block

/-- An announced transaction is handed on, unless its hash is known. -/
def handleNewTransaction (n : Node) (payload : Bytes) : Node :=
  match TransactionSerializer.deserialize payload with
  | none => n
  | some tx =>
    if tx.calculateHash ∈ n.knownTxs then n
    else { n with knownTxs := tx.calculateHash :: n.knownTxs }.onNewTransaction tx

/-- The messages of other types change neither the blockchain nor what is known. -/
def handleMessage (n : Node) (msg : Message) : Node :=
  if msg.type = .BLOCKS then n.handleBlocks msg.payload
  else if msg.type = .NEW_BLOCK then n.handleNewBlock msg.payload
  else if msg.type = .NEW_TRANSACTION then n.handleNewTransaction msg.payload
  else n

end Node

/-! ### Runs -/

/-- What happens to a node: a message of some peer, or an operation of the local user. -/
inductive Event where
  | message (msg : Message)
  | operation (op : Blockchain.Operation)

/-- The node after an event; there is none when an operation does not return. -/
def Event.run (n : Node) : Event → Option Node
  | message msg => some (n.handleMessage msg)
  | operation op => (op.run n.blockchain).map fun s => { n with blockchain := s }

/-- A node with the events that led to it. -/
structure Trace where
  history : List Event
  node : Node

/-- The runs of a node that starts with a blockchain of difficulty `d` and reward `r`. -/
def gossip (d : Int32) (r : money.Amount) : Runs.System Trace Event where
  init t := ∃ now s, Blockchain.construct d r now = some s ∧ t = ⟨[], ⟨s, [], []⟩⟩
  step t e t' := t'.history = t.history ++ [e] ∧ e.run t.node = some t'.node

/-- The blocks that an event delivers. -/
def Event.blocks : Event → List Block
  | message msg =>
    if msg.type = .BLOCKS then
      ((Node.blockLines msg.payload).filter (· ≠ [])).filterMap BlockSerializer.deserialize
    else if msg.type = .NEW_BLOCK then (BlockSerializer.deserialize msg.payload).toList
    else []
  | operation _ => []

/-- The transactions that an event delivers. -/
def Event.transactions : Event → List Transaction
  | message msg =>
    if msg.type = .NEW_TRANSACTION then (TransactionSerializer.deserialize msg.payload).toList
    else []
  | operation _ => []

/-- A block with this hash is among those that the events deliver. -/
def BlockDelivered (history : List Event) (hash : Bytes) : Prop :=
  ∃ e ∈ history, ∃ b ∈ e.blocks, b.hash = hash

/-- A transaction with this hash is among those that the events deliver. -/
def TransactionDelivered (history : List Event) (hash : Bytes) : Prop :=
  ∃ e ∈ history, ∃ tx ∈ e.transactions, tx.calculateHash = hash

/-! ### What is known -/

/-- The loop over the lines remembers the hashes of the blocks. -/
theorem mem_knownBlocks_foldl_handleLine (lines : List Bytes) (n : Node) (hash : Bytes) :
    hash ∈ (lines.foldl Node.handleLine n).knownBlocks ↔ hash ∈ n.knownBlocks ∨
      ∃ b ∈ (lines.filter (· ≠ [])).filterMap BlockSerializer.deserialize, b.hash = hash := by
  induction lines generalizing n with
  | nil => simp
  | cons line lines ih =>
    rw [List.foldl_cons, ih, Node.handleLine]
    by_cases hline : line = []
    · simp [hline]
    · rw [if_neg hline, List.filter_cons_of_pos (by simpa using hline)]
      cases hblock : BlockSerializer.deserialize line with
      | none => rw [List.filterMap_cons_none hblock]
      | some block =>
        rw [List.filterMap_cons_some hblock, List.exists_mem_cons_iff]
        simp only [Node.onNewBlock, List.mem_cons]
        tauto

theorem knownTxs_foldl_handleLine (lines : List Bytes) (n : Node) :
    (lines.foldl Node.handleLine n).knownTxs = n.knownTxs := by
  induction lines generalizing n with
  | nil => rfl
  | cons line lines ih =>
    rw [List.foldl_cons, ih, Node.handleLine]
    split_ifs
    · rfl
    · split <;> rfl

/-- An event adds to the known blocks what it delivers. -/
theorem mem_knownBlocks_run {n n' : Node} {e : Event} (h : e.run n = some n') (hash : Bytes) :
    hash ∈ n'.knownBlocks ↔ hash ∈ n.knownBlocks ∨ ∃ b ∈ e.blocks, b.hash = hash := by
  cases e with
  | operation op =>
    obtain ⟨s, -, rfl⟩ := Option.map_eq_some_iff.mp h
    simp [Event.blocks]
  | message msg =>
    obtain rfl := Option.some.inj h
    unfold Node.handleMessage Event.blocks
    dsimp only
    split_ifs with hblocks hblock htx
    · exact mem_knownBlocks_foldl_handleLine _ n hash
    · rw [Node.handleNewBlock]
      cases BlockSerializer.deserialize msg.payload with
      | none => simp
      | some block =>
        by_cases hknown : block.hash ∈ n.knownBlocks
        · simp only [hknown, ↓reduceIte, Option.toList_some, List.mem_singleton, exists_eq_left]
          exact ⟨.inl, fun h => h.elim id fun heq => heq ▸ hknown⟩
        · simp [hknown, Node.onNewBlock, or_comm, eq_comm]
    · rw [Node.handleNewTransaction]
      split
      · simp
      · split_ifs <;> simp [Node.onNewTransaction]
    · simp

/-- An event adds to the known transactions what it delivers. -/
theorem mem_knownTxs_run {n n' : Node} {e : Event} (h : e.run n = some n') (hash : Bytes) :
    hash ∈ n'.knownTxs ↔ hash ∈ n.knownTxs ∨ ∃ tx ∈ e.transactions, tx.calculateHash = hash := by
  cases e with
  | operation op =>
    obtain ⟨s, -, rfl⟩ := Option.map_eq_some_iff.mp h
    simp [Event.transactions]
  | message msg =>
    obtain rfl := Option.some.inj h
    unfold Node.handleMessage Event.transactions
    dsimp only
    by_cases htx : msg.type = .NEW_TRANSACTION
    · rw [if_neg (by rw [htx]; decide), if_neg (by rw [htx]; decide), if_pos htx, if_pos htx]
      rw [Node.handleNewTransaction]
      cases TransactionSerializer.deserialize msg.payload with
      | none => simp
      | some tx =>
        by_cases hknown : tx.calculateHash ∈ n.knownTxs
        · simp only [hknown, ↓reduceIte, Option.toList_some, List.mem_singleton, exists_eq_left]
          exact ⟨.inl, fun h => h.elim id fun heq => heq ▸ hknown⟩
        · simp [hknown, Node.onNewTransaction, or_comm, eq_comm]
    · rw [if_neg htx, if_neg htx]
      split_ifs
      · rw [Node.handleBlocks, knownTxs_foldl_handleLine]
        simp
      · rw [Node.handleNewBlock]
        split
        · simp
        · split_ifs <;> simp [Node.onNewBlock]
      · simp

section Reachable

variable {d : Int32} {r : money.Amount} {ok : Trace → Event → Prop} {t : Trace}

/-- The remembered hashes are those of everything delivered before. -/
theorem known_of_reachable (h : (gossip d r).Reachable ok t) :
    (∀ hash, hash ∈ t.node.knownBlocks ↔ BlockDelivered t.history hash) ∧
      ∀ hash, hash ∈ t.node.knownTxs ↔ TransactionDelivered t.history hash := by
  refine h.invariant (fun t => (∀ hash, hash ∈ t.node.knownBlocks ↔ BlockDelivered t.history hash) ∧
    ∀ hash, hash ∈ t.node.knownTxs ↔ TransactionDelivered t.history hash) ?_ ?_
  · rintro t ⟨now, s, -, rfl⟩
    simp [BlockDelivered, TransactionDelivered]
  · rintro t e t' - ⟨hblocks, htxs⟩ - ⟨hhistory, hrun⟩
    refine ⟨fun hash => ?_, fun hash => ?_⟩
    · rw [mem_knownBlocks_run hrun, hblocks, hhistory]
      simp [BlockDelivered, or_and_right, exists_or]
    · rw [mem_knownTxs_run hrun, htxs, hhistory]
      simp [TransactionDelivered, or_and_right, exists_or]

theorem run_newBlock (n : Node) (payload senderId : Bytes) (timestamp : Int64) :
    (Event.message ⟨.NEW_BLOCK, payload, senderId, timestamp⟩).run n =
      some (n.handleNewBlock payload) := rfl

section Announced

variable {n : Node} {payload : Bytes} {b : Block}
  (hpayload : BlockSerializer.deserialize payload = some b)

include hpayload

/-- Of a block whose claimed hash is known nothing more is heard. -/
theorem handleNewBlock_of_known (hknown : b.hash ∈ n.knownBlocks) :
    n.handleNewBlock payload = n := by
  rw [Node.handleNewBlock, hpayload]
  exact if_pos hknown

/-- A block of another hash is handed over, and its claimed hash is known from then on. -/
theorem handleNewBlock_of_unknown (hknown : b.hash ∉ n.knownBlocks) :
    n.handleNewBlock payload =
      ⟨(n.blockchain.addBlock (some b)).1, b.hash :: n.knownBlocks, n.knownTxs⟩ := by
  rw [Node.handleNewBlock, hpayload]
  exact if_neg hknown

end Announced

/-- A block that the blockchain would take is taken exactly when its claimed hash is unknown. -/
theorem handleNewBlock_takes_iff {n : Node} {payload : Bytes} {b : Block}
    (hpayload : BlockSerializer.deserialize payload = some b)
    (haccept : (n.blockchain.addBlock (some b)).2 = true) :
    (n.handleNewBlock payload).blockchain.chain = n.blockchain.chain ++ [b] ↔
      b.hash ∉ n.knownBlocks := by
  obtain ⟨hfits, hpool⟩ := Blockchain.addBlock_accepts_iff.mp haccept
  by_cases hknown : b.hash ∈ n.knownBlocks
  · rw [handleNewBlock_of_known hpayload hknown]
    simp [hknown]
  · rw [handleNewBlock_of_unknown hpayload hknown, Blockchain.addBlock_of_fits hfits hpool]
    exact iff_of_true rfl hknown

/-- A transaction that the pool would admit is not in the pool yet. -/
theorem not_mem_of_admitted {s : Blockchain} {tx : Transaction}
    (h : (s.addTransaction tx).pendingTransactions = s.pendingTransactions ++ [tx]) :
    tx ∉ s.pendingTransactions := by
  intro hmem
  have hexists : s.transactionExists tx = true :=
    Blockchain.transactionExists_iff.mpr (.inr ⟨tx, hmem, rfl⟩)
  have hsame : s.addTransaction tx = s := by
    rw [Blockchain.addTransaction, hexists, if_pos rfl, ite_self]
  rw [hsame] at h
  simp at h

/-- A transaction that the pool would admit is admitted exactly when its hash is unknown. -/
theorem handleNewTransaction_takes_iff {n : Node} {payload : Bytes} {tx : Transaction}
    (hpayload : TransactionSerializer.deserialize payload = some tx)
    (hpooled : (n.blockchain.addTransaction tx).pendingTransactions =
      n.blockchain.pendingTransactions ++ [tx]) :
    tx ∈ (n.handleNewTransaction payload).blockchain.pendingTransactions ↔
      tx.calculateHash ∉ n.knownTxs := by
  rw [Node.handleNewTransaction, hpayload]
  dsimp only
  split_ifs with hknown
  · simp [hknown, not_mem_of_admitted hpooled]
  · simp [hknown, Node.onNewTransaction, hpooled]

/-- In every run, a block that the blockchain would take is taken exactly when no block of the same
claimed hash was delivered before, and a transaction that the pool would admit is admitted exactly
when no transaction of the same hash was delivered before. -/
theorem delivery_iff (h : (gossip d r).Reachable ok t) :
    (∀ payload b, BlockSerializer.deserialize payload = some b →
      (t.node.blockchain.addBlock (some b)).2 = true →
      ((t.node.handleNewBlock payload).blockchain.chain = t.node.blockchain.chain ++ [b] ↔
        ¬ BlockDelivered t.history b.hash)) ∧
    ∀ payload tx, TransactionSerializer.deserialize payload = some tx →
      (t.node.blockchain.addTransaction tx).pendingTransactions =
        t.node.blockchain.pendingTransactions ++ [tx] →
      (tx ∈ (t.node.handleNewTransaction payload).blockchain.pendingTransactions ↔
        ¬ TransactionDelivered t.history tx.calculateHash) := by
  obtain ⟨hblocks, htxs⟩ := known_of_reachable h
  refine ⟨fun payload b hpayload haccept => ?_, fun payload tx hpayload hpooled => ?_⟩
  · rw [← hblocks]
    exact handleNewBlock_takes_iff hpayload haccept
  · rw [← htxs]
    exact handleNewTransaction_takes_iff hpayload hpooled

end Reachable

/-! ### A forged announcement -/

/-- A node that has just started. -/
def freshNode : Node := ⟨Blockchain.fresh (money.coins 50) 0, [], []⟩

/-- The first block of another miner. -/
def firstBlock : Block :=
  Blockchain.assemble freshNode.blockchain.chain 0 [Blockchain.rewardTo (ascii "bob") 0]

theorem reachable_freshNode (ok : Trace → Event → Prop) :
    (gossip 0 (money.coins 50)).Reachable ok ⟨[], freshNode⟩ :=
  .init ⟨0, _, Blockchain.construct_zero _ _, rfl⟩

theorem addBlock_firstBlock : (freshNode.blockchain.addBlock (some firstBlock)).2 = true := by
  have hreward : ∀ tx ∈ [Blockchain.rewardTo (ascii "bob") 0], tx.isValid = true := by decide
  exact congrArg Prod.snd (Blockchain.addBlock_of_fits
    (Blockchain.fits_assemble_fresh (money.coins 50) 0 0 hreward (by decide) ⟨_, rfl, rfl⟩)
    (Blockchain.not_paymentPending_nil _))

/-- The block, also under another index, survives the wire text. -/
theorem deserialize_firstBlock {b : Block} (htxs : b.transactions = firstBlock.transactions)
    (hroot : b.merkleRoot = firstBlock.merkleRoot)
    (hprevious : b.previousHash = firstBlock.previousHash) (hhash : b.hash = firstBlock.hash) :
    BlockSerializer.deserialize (BlockSerializer.serialize b) = some b := by
  have hfree (input : Bytes) : bar ∉ utils.sha256 input :=
    not_mem_of_isHexDigit isDelimiter_bar (utils.isHexWord_sha256 input).2
  refine deserialize_serialize ?_ (hprevious ▸ hfree _) (hhash ▸ hfree _) ?_ ?_
  · rw [hroot, htxs]
    rfl
  · rw [htxs]
    exact List.forall_mem_singleton.mpr
      ⟨by decide +kernel, by decide +kernel, by decide +kernel, by decide +kernel⟩
  · rw [htxs]
    exact (by decide : 1 ≤ maxTransactions)

/-- The first block is taken by a node that has not heard of it. -/
theorem delivery_firstBlock :
    (freshNode.handleNewBlock (BlockSerializer.serialize firstBlock)).blockchain.chain =
      freshNode.blockchain.chain ++ [firstBlock] := by
  have hdelivery := (delivery_iff (reachable_freshNode fun _ _ => True)).1
  have hfirst := hdelivery (BlockSerializer.serialize firstBlock) firstBlock
    (deserialize_firstBlock rfl rfl rfl rfl) addBlock_firstBlock
  dsimp only at hfirst
  exact hfirst.mpr fun ⟨_, he, _⟩ => List.not_mem_nil he

/-- A block with a wrong index that claims the hash of the first block keeps the first block out. -/
theorem forged_block_suppresses :
    let forged : Block := { firstBlock with index := 7 }
    let event := Event.message ⟨.NEW_BLOCK, BlockSerializer.serialize forged, [], 0⟩
    ∃ n, (gossip 0 (money.coins 50)).Reachable (fun _ _ => True) ⟨[event], n⟩ ∧
      (n.blockchain.addBlock (some firstBlock)).2 = true ∧
      BlockSerializer.deserialize (BlockSerializer.serialize firstBlock) = some firstBlock ∧
      (n.handleNewBlock (BlockSerializer.serialize firstBlock)).blockchain.getLatestBlock ≠
        firstBlock := by
  intro forged event
  have hforged : BlockSerializer.deserialize (BlockSerializer.serialize forged) = some forged :=
    deserialize_firstBlock rfl rfl rfl rfl
  have hfirst : BlockSerializer.deserialize (BlockSerializer.serialize firstBlock) =
      some firstBlock := deserialize_firstBlock rfl rfl rfl rfl
  have hreject : freshNode.blockchain.addBlock (some forged) = (freshNode.blockchain, false) :=
    Blockchain.addBlock_of_not_fits fun h => absurd h.1.index_eq (by decide)
  have hrun : event.run freshNode = some ⟨freshNode.blockchain, [firstBlock.hash], []⟩ := by
    rw [run_newBlock, handleNewBlock_of_unknown hforged List.not_mem_nil, hreject]
    rfl
  refine ⟨⟨freshNode.blockchain, [firstBlock.hash], []⟩,
    .step (a := event) (reachable_freshNode _) trivial ⟨rfl, hrun⟩, addBlock_firstBlock, hfirst, ?_⟩
  rw [handleNewBlock_of_known hfirst (List.mem_singleton_self _)]
  exact fun h => absurd (congrArg Block.index h) (by decide)

end p2p

end BlockchainCrypto
