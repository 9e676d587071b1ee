import BlockchainCrypto.Network.Relay
import BlockchainCrypto.Network.Sync
import BlockchainCrypto.Theory.LogCopies

/-!
# Replication

A node puts the blocks of a message on its chain one by one, each of them at the position that it
tells and on the tip that it names. So the chains of a network in which only one node mines are
copies of the chain of that node, whatever happens to the messages. They may start from genesis
blocks of their own, but a node whose genesis block has another hash stays there.

## Main definitions

* `p2p.Receives`: the blockchain takes a block from a source.
* `p2p.Legible`: a block that can be read back from its line.
* `p2p.Net.OneProducer`: only one node mines, and no blocks are made up.

## Main results

* `p2p.hears_handleMessage`: what a message does to the blockchain.
* `p2p.Net.follows_producer`: every chain is a copy of the producer's.
* `p2p.Net.forks_are_permanent`: chains that differ never agree again.
-/

namespace BlockchainCrypto

open ByteText

namespace p2p

/-! ### Receiving blocks -/

/-- The blockchain takes a block of the source. -/
def Receives (source : Set Block) (s s' : Blockchain) : Prop :=
  ∃ b ∈ source, Blockchain.Fits s.chain s.difficulty s.miningReward b ∧
    ¬ Blockchain.PaymentPending s.pendingTransactions b ∧
    s' = s.pushBlock b (Blockchain.purgePending s.pendingTransactions b)

theorem Receives.mono {source source' : Set Block} {s s' : Blockchain}
    (hsource : ∀ b ∈ source, b ∈ source') (h : Receives source s s') : Receives source' s s' := by
  obtain ⟨b, hb, hfits, hpool, rfl⟩ := h
  exact ⟨b, hsource b hb, hfits, hpool, rfl⟩

theorem reflTransGen_receives_addBlock {source : Set Block} {b : Block} (hb : b ∈ source)
    (s : Blockchain) : Relation.ReflTransGen (Receives source) s (s.addBlock (some b)).1 := by
  rcases s.addBlock_cases (some b) with h | ⟨b', hb', hfits, hpool, h⟩
  · rw [h]
  · obtain rfl := Option.some.inj hb'
    rw [h]
    exact .single ⟨_, hb, hfits, hpool, rfl⟩

/-- The lines of a message are handed over one after the other. -/
theorem reflTransGen_receives_handleLines {source : Set Block} (lines : List Bytes) (n : Node)
    (hsource : ∀ b ∈ (lines.filter (· ≠ [])).filterMap BlockSerializer.deserialize, b ∈ source) :
    Relation.ReflTransGen (Receives source) n.blockchain
      (lines.foldl Node.handleLine n).blockchain := by
  induction lines generalizing n with
  | nil => exact .refl
  | cons line lines ih =>
    rw [List.foldl_cons]
    by_cases hline : line = []
    · rw [Node.handleLine, if_pos hline]
      refine ih n fun b hb => hsource b ?_
      rwa [List.filter_cons_of_neg (by simpa using hline)]
    · rw [List.filter_cons_of_pos (by simpa using hline)] at hsource
      rw [Node.handleLine, if_neg hline]
      cases hblock : BlockSerializer.deserialize line with
      | none =>
        rw [List.filterMap_cons_none hblock] at hsource
        exact ih n hsource
      | some block =>
        rw [List.filterMap_cons_some hblock, List.forall_mem_cons] at hsource
        let known := { n with knownBlocks := block.hash :: n.knownBlocks }
        exact (reflTransGen_receives_addBlock hsource.1 _).trans
          (ih (known.onNewBlock block) hsource.2)

/-- The blockchain takes blocks of the source one after the other, or is handed a transaction. -/
def Hears (source : Set Block) (s s' : Blockchain) : Prop :=
  Relation.ReflTransGen (Receives source) s s' ∨ ∃ tx, s' = s.addTransaction tx

theorem Hears.mono {source source' : Set Block} {s s' : Blockchain}
    (hsource : ∀ b ∈ source, b ∈ source') (h : Hears source s s') : Hears source' s s' :=
  h.imp_left (Relation.ReflTransGen.mono (fun _ _ => Receives.mono hsource) _ _)

/-- A message that announces no transaction hands over the blocks that it delivers. -/
theorem reflTransGen_receives_handleMessage (n : Node) {msg : Message}
    (htx : msg.type ≠ .NEW_TRANSACTION) :
    Relation.ReflTransGen (Receives {b | b ∈ (Event.message msg).blocks}) n.blockchain
      (n.handleMessage msg).blockchain := by
  unfold Node.handleMessage Event.blocks
  dsimp only
  rw [if_neg htx]
  split_ifs with hblocks hblock
  · exact reflTransGen_receives_handleLines _ n fun b hb => hb
  · unfold Node.handleNewBlock
    split
    · exact .refl
    · rename_i block heq
      split_ifs
      · exact .refl
      · exact reflTransGen_receives_addBlock (by simp [heq]) _
  · exact .refl

/-- A message makes the blockchain hear of what it delivers. -/
theorem hears_handleMessage (n : Node) (msg : Message) :
    Hears {b | b ∈ (Event.message msg).blocks} n.blockchain (n.handleMessage msg).blockchain := by
  by_cases htx : msg.type = .NEW_TRANSACTION
  · rw [Node.handleMessage, if_neg (by rw [htx]; decide), if_neg (by rw [htx]; decide),
      if_pos htx]
    unfold Node.handleNewTransaction
    split
    · exact .inl .refl
    · rename_i tx _
      split_ifs
      · exact .inl .refl
      · exact .inr ⟨tx, rfl⟩
  · exact .inl (reflTransGen_receives_handleMessage n htx)

/-- What the blocks of a chain tell. -/
def blockLabels : LogCopies.Labels Block Int32 Bytes :=
  ⟨Block.index, Int32.ofNat, Block.previousHash, Block.hash⟩

/-- The heights of a chain shorter than `2 ^ 32` have different indices. -/
theorem ofNat_inj_of_le {n i j : ℕ} (hn : n < 2 ^ 32) (hi : i ≤ n) (hj : j ≤ n)
    (h : Int32.ofNat i = Int32.ofNat j) : i = j := by
  have htoNat := congrArg (fun x : Int32 => x.toUInt32.toNat) h
  simp only [Int32.toUInt32_ofNat', UInt32.toNat_ofNat'] at htoNat
  omega

theorem getLast?_chain (s : Blockchain) :
    s.chain.getLast? = some (Blockchain.blockAt s.chain (s.chain.length - 1)) := by
  rw [Blockchain.blockAt_length_sub_one s.chain_ne_nil, List.getLast?_eq_some_getLast]

theorem Receives.takes {source : Set Block} {s s' : Blockchain} (h : Receives source s s') :
    blockLabels.Takes source s.chain s'.chain := by
  obtain ⟨b, hb, hfits, -, rfl⟩ := h
  refine ⟨b, hb, hfits.index_eq, ?_, rfl⟩
  rw [getLast?_chain]
  exact congrArg some hfits.extends_chain.linked.symm

@[simp]
theorem chain_addTransaction (s : Blockchain) (tx : Transaction) :
    (s.addTransaction tx).chain = s.chain := by
  unfold Blockchain.addTransaction
  split_ifs <;> rfl

theorem Hears.takes {source : Set Block} {s s' : Blockchain} (h : Hears source s s') :
    Relation.ReflTransGen (blockLabels.Takes source) s.chain s'.chain := by
  rcases h with h | ⟨tx, rfl⟩
  · exact h.lift Blockchain.chain fun _ _ => Receives.takes
  · rw [chain_addTransaction]

/-! ### Legible blocks -/

/-- The block can be read back from its line. -/
structure Legible (b : Block) : Prop where
  decoded : BlockSerializer.deserialize (BlockSerializer.serialize b) = some b
  oneLine : newline ∉ BlockSerializer.serialize b

/-- A valid block is legible when no delimiter occurs in its link and in its transactions. -/
theorem legible_of_isValid {b : Block} (hvalid : b.isValid = true)
    (hprevious : DelimiterFree b.previousHash)
    (htxs : ∀ tx ∈ b.transactions, tx.Without [comma, bar, newline])
    (hcount : b.transactions.length ≤ maxTransactions) : Legible b := by
  have hroot := (Block.isValid_iff.mp hvalid).2.2.2
  have hhash := isHexDigit_hash_of_isValid hvalid
  have hfewer {avoid : Bytes} (h : ∀ c ∈ avoid, c ∈ [comma, bar, newline]) :
      ∀ tx ∈ b.transactions, tx.Without avoid := fun tx htx =>
    ⟨fun c hc => (htxs tx htx).sender c (h c hc), fun c hc => (htxs tx htx).receiver c (h c hc),
      fun c hc => (htxs tx htx).signature c (h c hc),
      fun c hc => (htxs tx htx).senderPubkey c (h c hc)⟩
  refine ⟨deserialize_serialize hroot hprevious.bar
    (not_mem_of_isHexDigit isDelimiter_bar hhash) (hfewer (by simp)) hcount,
    newline_not_mem_serialize hprevious.newline (not_mem_of_isHexDigit isDelimiter_newline hhash)
      ?_ (hfewer (by simp))⟩
  rw [hroot, Block.merkleRootOf_eq]
  exact not_mem_of_isHexDigit isDelimiter_newline (utils.isHexWord_calculateMerkleRoot _).2

theorem delimiterFree_of_isHexDigit {s : Bytes} (h : ∀ c ∈ s, isHexDigit c = true) :
    DelimiterFree s :=
  ⟨not_mem_of_isHexDigit isDelimiter_bar h, not_mem_of_isHexDigit isDelimiter_comma h,
    not_mem_of_isHexDigit isDelimiter_newline h⟩

/-- A reply to a request carries blocks of the chain only, when these are legible. -/
theorem mem_chain_of_mem_blocks_handleGetBlocks {chain : List Block}
    (hchain : ∀ b ∈ chain, Legible b) {payload : Bytes} {now : Int64} {b : Block}
    (hb : b ∈ (Event.message (handleGetBlocks chain payload now)).blocks) : b ∈ chain := by
  rw [handleGetBlocks] at hb
  split at hb
  · exact absurd hb List.not_mem_nil
  · rename_i startHeight endHeight _
    have hbetween : ∀ b ∈ blocksBetween chain startHeight endHeight, b ∈ chain := fun b hb =>
      List.mem_of_mem_drop (List.mem_of_mem_take hb)
    change b ∈ ((Node.blockLines (blocksPayload _ _)).filter (· ≠ [])).filterMap _ at hb
    rw [blockLines_blocksPayload _ fun b hb => (hchain b (hbetween b hb)).oneLine] at hb
    split_ifs at hb
    · obtain ⟨line, hline, hdecoded⟩ := List.mem_filterMap.mp hb
      obtain ⟨b', hb', rfl⟩ := List.mem_map.mp (List.mem_of_mem_filter hline)
      rw [(hchain b' (hbetween b' hb')).decoded] at hdecoded
      exact Option.some.inj hdecoded ▸ hbetween b' hb'
    · exact absurd hb List.not_mem_nil

/-- The genesis block of a constructed blockchain. -/
theorem exists_genesis {d : Int32} {r : money.Amount} {now : Int64} {s : Blockchain}
    (h : Blockchain.construct d r now = some s) :
    ∃ g, s.chain = [g] ∧ g.index = 0 ∧ Legible g ∧ ∀ c ∈ g.hash, isHexDigit c = true := by
  obtain ⟨nonce, hash, hchain, hvalid, -⟩ := Blockchain.construct_eq_some h
  have hgrown := Blockchain.isChainValid_iff.mp hvalid
  rw [hchain] at hgrown
  have hgenesis := AppendLog.grown_singleton_iff.mp hgrown
  have hg := (Block.isValidWithDifficulty_iff.mp hgenesis).2
  refine ⟨_, hchain, rfl, legible_of_isValid hg ?_ ?_ (Nat.zero_le _),
    isHexDigit_hash_of_isValid hg⟩
  · exact ⟨(by decide : bar ∉ ascii "0"), (by decide : comma ∉ ascii "0"),
      (by decide : newline ∉ ascii "0")⟩
  · exact fun tx htx => absurd htx List.not_mem_nil

/-! ### One producer -/

/-- The blocks that a message in flight delivers. -/
def Envelope.blocks {V : Type*} (e : Envelope V) : List Block := (Event.message e.message).blocks

namespace Net

section Producer

variable {V : Type*} [DecidableEq V]

/-- The chain of a node. -/
def chain (t : Net V) (v : V) : List Block := (t.node v).blockchain.chain

/-- The pool and the address of a mining step have no delimiters, and the length of the chain stays
below `2 ^ 32`. -/
structure MinesLegibly (s : Blockchain) (rewardAddress : Bytes) : Prop where
  address : DelimiterFree rewardAddress
  pool : ∀ tx ∈ s.pendingTransactions, tx.Without [comma, bar, newline]
  count : s.pendingTransactions.length < maxTransactions
  short : s.chain.length + 1 < 2 ^ 32

/-- A block that is mined legibly is legible. -/
theorem legible_of_minedOn {s : Blockchain}
    (htip : ∀ c ∈ s.getLatestBlock.hash, isHexDigit c = true)
    {rewardAddress : Bytes} {blockTime txTime : Int64} {txNonce : UInt64} {b : Block}
    (hmines : MinesLegibly s rewardAddress)
    (hb : s.MinedOn (s.rewardTransaction rewardAddress txTime txNonce) blockTime b) :
    Legible b := by
  refine legible_of_isValid hb.valid (delimiterFree_of_isHexDigit ?_) ?_ ?_
  · rw [hb.previousHash_eq]
    exact htip
  · rw [hb.transactions_eq]
    refine List.forall_mem_append.mpr ⟨fun tx htx => hmines.pool tx (List.mem_of_mem_filter htx),
      List.forall_mem_singleton.mpr ⟨?_, ?_, fun _ _ => List.not_mem_nil,
        fun _ _ => List.not_mem_nil⟩⟩
    · exact (by decide +kernel : ∀ c ∈ [comma, bar, newline], c ∉ Transaction.system)
    · exact List.forall_mem_cons.mpr ⟨hmines.address.comma, List.forall_mem_cons.mpr
        ⟨hmines.address.bar, List.forall_mem_singleton.mpr hmines.address.newline⟩⟩
  · rw [hb.transactions_eq, List.length_append, List.length_singleton]
    exact (Nat.succ_le_succ (List.length_filter_le _ _)).trans hmines.count

/-- Only `p` mines, with `MinesLegibly` each time, nobody loads a file, and nobody makes blocks up:
what users hand over or broadcast and what other programs send are blocks that are on a chain
already. -/
def OneProducer (p : V) (t : Net V) : Action V → Prop
  | .operate v (.minePendingTransactions rewardAddress _ _ _) =>
    v = p ∧ MinesLegibly (t.node p).blockchain rewardAddress
  | .operate _ (.addBlock block) => ∀ b ∈ block, ∃ v, b ∈ t.chain v
  | .operate _ (.addTransaction _) => True
  | .operate _ (.loadFromFile _) => False
  | .broadcastBlock _ block _ _ _ => ∃ v, block ∈ t.chain v
  | .broadcastTransaction _ _ _ _ _ => True
  | .send envelope => ∀ b ∈ envelope.blocks, ∃ v, b ∈ t.chain v
  | .deliver _ _ _ => True
  | .lose _ => True

/-- What holds in a network in which only `p` mines. -/
structure Replicated (p : V) (t : Net V) : Prop where
  labelled : blockLabels.Labelled (t.chain p)
  legible : ∀ v, ∀ b ∈ t.chain v, Legible b
  hash : ∀ b ∈ t.chain p, ∀ c ∈ b.hash, isHexDigit c = true
  genesis : ∀ v, ∀ g ∈ (t.chain v).head?, g.index = 0
  inFlight : ∀ e ∈ t.inFlight, ∀ b ∈ e.blocks, b.index = 0 ∨ b ∈ (t.chain p).tail
  follows : ∀ v, blockLabels.Follows (t.chain v) (t.chain p)

variable {d : Int32} {r : money.Amount} {p : V} {t t' : Net V} {a : Action V}

theorem Replicated.init (h : (network V d r).init t) (p : V) : Replicated p t := by
  have hgenesis (v : V) :
      ∃ g, t.chain v = [g] ∧ g.index = 0 ∧ Legible g ∧ ∀ c ∈ g.hash, isHexDigit c = true := by
    obtain ⟨now, s, hs, hnode⟩ := h.2 v
    rw [chain, hnode]
    exact exists_genesis hs
  obtain ⟨g, hchain, hindex, -, hhash⟩ := hgenesis p
  refine ⟨?_, fun v => ?_, ?_, fun v => ?_, ?_, fun v => ?_⟩
  · rw [hchain]
    refine ⟨List.cons_ne_nil _ _, fun i hi => ?_, fun i hi => ?_,
      fun i j => ofNat_inj_of_le (by simp)⟩
    · obtain rfl : i = 0 := by simpa using hi
      exact hindex
    · simp at hi
  · obtain ⟨g, hchain, -, hlegible, -⟩ := hgenesis v
    rw [hchain]
    exact List.forall_mem_singleton.mpr hlegible
  · rw [hchain]
    exact List.forall_mem_singleton.mpr hhash
  · obtain ⟨g, hchain, hindex, -⟩ := hgenesis v
    rw [hchain]
    rintro _ ⟨⟩
    exact hindex
  · rw [h.1]
    exact fun e he => absurd he (Multiset.notMem_zero _)
  · obtain ⟨g, hchain, -⟩ := hgenesis v
    rw [hchain]
    exact LogCopies.Labels.follows_singleton g _

omit [DecidableEq V] in
/-- A block on a chain is a genesis block, or a block of the producer. -/
theorem Replicated.mem_chain (h : Replicated p t) {v : V} {b : Block} (hb : b ∈ t.chain v) :
    b.index = 0 ∨ b ∈ (t.chain p).tail := by
  obtain ⟨g, blocks, hchain⟩ := List.exists_cons_of_ne_nil (h.follows v).ne_nil
  have hgenesis := h.genesis v
  have htail := (h.follows v).tail
  rw [hchain] at hb hgenesis htail
  rcases List.mem_cons.mp hb with rfl | hb
  · exact .inl (hgenesis _ rfl)
  · exact .inr (htail.subset hb)

/-- A step is a mining step of the producer, or nodes hear of blocks that are on chains already. -/
theorem Replicated.step_cases (h : Replicated p t) (hok : OneProducer p t a) (hstep : a.Step t t') :
    (∃ rewardAddress blockTime txTime txNonce b,
      a = .operate p (.minePendingTransactions rewardAddress blockTime txTime txNonce) ∧
      MinesLegibly (t.node p).blockchain rewardAddress ∧
      (t.node p).blockchain.MinedOn
        ((t.node p).blockchain.rewardTransaction rewardAddress txTime txNonce) blockTime b ∧
      (t'.node p).blockchain = (t.node p).blockchain.pushBlock b [] ∧
      (∀ v, v ≠ p → (t'.node v).blockchain = (t.node v).blockchain) ∧
      t'.inFlight = t.inFlight) ∨
    ∀ v, Hears {b | b.index = 0 ∨ b ∈ (t.chain p).tail} (t.node v).blockchain
      (t'.node v).blockchain := by
  by_cases hmine : ∃ v rewardAddress blockTime txTime txNonce,
      a = .operate v (.minePendingTransactions rewardAddress blockTime txTime txNonce)
  · obtain ⟨v, rewardAddress, blockTime, txTime, txNonce, rfl⟩ := hmine
    obtain ⟨rfl, hmines⟩ := hok
    obtain ⟨s, hrun, rfl⟩ := hstep
    have hother (w : V) (hw : w ≠ v) :
        ((t.update v { t.node v with blockchain := s } t.inFlight).node w).blockchain =
          (t.node w).blockchain := congrArg Node.blockchain (t.node_update_of_ne hw _ _)
    rcases Blockchain.mine_cases hrun with ⟨-, rfl⟩ | ⟨-, b, hb, rfl⟩
    · refine .inr fun w => ?_
      rcases eq_or_ne w v with rfl | hw
      · rw [node_update_self]
        exact .inl .refl
      · rw [hother w hw]
        exact .inl .refl
    · refine .inl ⟨rewardAddress, blockTime, txTime, txNonce, b, rfl, hmines, hb, ?_, hother, rfl⟩
      rw [node_update_self]
  · refine .inr fun v => ?_
    rcases hstep.node_cases v with heq | ⟨op, rfl, hrun⟩ | ⟨e, peers, now, rfl, he, rfl, hnode⟩
    · rw [heq]
      exact .inl .refl
    · cases op with
      | minePendingTransactions rewardAddress blockTime txTime txNonce =>
        exact absurd ⟨v, rewardAddress, blockTime, txTime, txNonce, rfl⟩ hmine
      | loadFromFile file => exact hok.elim
      | addTransaction tx => exact .inr ⟨tx, (Option.some.inj hrun).symm⟩
      | addBlock block =>
        rw [← Option.some.inj hrun]
        cases block with
        | none => exact .inl .refl
        | some b =>
          obtain ⟨w, hw⟩ := hok b rfl
          exact .inl (reflTransGen_receives_addBlock (h.mem_chain hw) _)
    · rw [hnode]
      exact (hears_handleMessage _ _).mono (h.inFlight e he)

/-- The messages in flight after a step deliver blocks that were in flight or on a chain. -/
theorem Replicated.blocks_inFlight (h : Replicated p t) (hok : OneProducer p t a)
    (hstep : a.Step t t') {e : Envelope V} (he : e ∈ t'.inFlight) {b : Block} (hb : b ∈ e.blocks) :
    b.index = 0 ∨ b ∈ (t.chain p).tail := by
  have hannounced {v : V} {block : Block} {now : Int64} (hlegible : Legible block)
      (hmsg : (t.node v).announceBlock block now = some e.message) : b = block := by
    rw [Node.announceBlock] at hmsg
    split_ifs at hmsg
    rw [Envelope.blocks, ← Option.some.inj hmsg] at hb
    change b ∈ (BlockSerializer.deserialize (BlockSerializer.serialize block)).toList at hb
    rw [hlegible.decoded] at hb
    exact List.mem_singleton.mp hb
  rcases hstep.inFlight_cases he with hold | rfl | ⟨v, block, order, peers, now, rfl, hmsg⟩ |
    ⟨v, tx, order, peers, now, rfl, hmsg⟩ | ⟨received, peers, now, rfl, hreceived, hmsg | hmsg⟩
  · exact h.inFlight e hold b hb
  · obtain ⟨v, hv⟩ := hok b hb
    exact h.mem_chain hv
  · obtain ⟨w, hw⟩ := hok
    rw [hannounced (h.legible w block hw) hmsg]
    exact h.mem_chain hw
  · rw [Node.announceTransaction] at hmsg
    split_ifs at hmsg
    rw [Envelope.blocks, ← Option.some.inj hmsg] at hb
    exact absurd hb List.not_mem_nil
  · rw [Node.reply] at hmsg
    split_ifs at hmsg
    · rw [Envelope.blocks, ← Option.some.inj hmsg] at hb
      exact h.mem_chain
        (mem_chain_of_mem_blocks_handleGetBlocks (h.legible received.receiver) hb)
    · rw [Envelope.blocks, ← Option.some.inj hmsg] at hb
      exact absurd hb List.not_mem_nil
  · refine h.inFlight received hreceived b ?_
    rw [Node.forward] at hmsg
    split_ifs at hmsg with hblock htx
    · split at hmsg
      · cases hmsg
      · split_ifs at hmsg
        rw [Envelope.blocks, ← Option.some.inj hmsg] at hb
        rw [Envelope.blocks, Event.blocks, if_neg (by rw [hblock]; decide), if_pos hblock]
        exact hb
    · split at hmsg
      · cases hmsg
      · split_ifs at hmsg
        rw [Envelope.blocks, ← Option.some.inj hmsg] at hb
        exact absurd hb List.not_mem_nil

omit [DecidableEq V] in
/-- The producer puts a mined block on its chain. -/
theorem Replicated.mines (h : Replicated p t) {b : Block} (hlegible : Legible b)
    (hhash : ∀ c ∈ b.hash, isHexDigit c = true) (hindex : b.index = Int32.ofNat (t.chain p).length)
    (hprevious : b.previousHash = (t.node p).blockchain.getLatestBlock.hash)
    (hshort : (t.chain p).length + 1 < 2 ^ 32) (hchain : t'.chain p = t.chain p ++ [b])
    (hother : ∀ v, v ≠ p → t'.chain v = t.chain v)
    (hflight : ∀ e ∈ t'.inFlight, ∀ b ∈ e.blocks, b.index = 0 ∨ b ∈ (t.chain p).tail) :
    Replicated p t' := by
  have hne := h.labelled.ne_nil
  have hfollows (v : V) : blockLabels.Follows (t'.chain v) (t'.chain p) := by
    rcases eq_or_ne v p with rfl | hv
    · exact LogCopies.Labels.follows_self (t'.node v).blockchain.chain_ne_nil
    · rw [hother v hv, hchain]
      exact (h.follows v).mono hne (List.prefix_append _ _)
  refine ⟨?_, fun v => ?_, ?_, fun v => ?_, fun e he b' hb' => ?_, hfollows⟩
  · rw [hchain]
    refine h.labelled.concat (fun i j => ofNat_inj_of_le hshort) hindex ?_
    rw [chain, getLast?_chain, ← Blockchain.getLatestBlock_eq]
    exact congrArg some hprevious.symm
  · rcases eq_or_ne v p with rfl | hv
    · rw [hchain]
      exact List.forall_mem_append.mpr ⟨h.legible v, List.forall_mem_singleton.mpr hlegible⟩
    · rw [hother v hv]
      exact h.legible v
  · rw [hchain]
    exact List.forall_mem_append.mpr ⟨h.hash, List.forall_mem_singleton.mpr hhash⟩
  · rcases eq_or_ne v p with rfl | hv
    · rw [hchain, List.head?_append_of_ne_nil _ hne]
      exact h.genesis v
    · rw [hother v hv]
      exact h.genesis v
  · rw [hchain, List.tail_append_of_ne_nil hne, List.mem_append]
    exact (hflight e he b' hb').imp_right .inl

omit [DecidableEq V] in
/-- When nodes hear of blocks that are on chains already, the producer's chain stays as it is, and
the others follow it. -/
theorem Replicated.hears (h : Replicated p t)
    (hhears : ∀ v, Hears {b | b.index = 0 ∨ b ∈ (t.chain p).tail} (t.node v).blockchain
      (t'.node v).blockchain)
    (hflight : ∀ e ∈ t'.inFlight, ∀ b ∈ e.blocks, b.index = 0 ∨ b ∈ (t.chain p).tail) :
    t'.chain p = t.chain p ∧ Replicated p t' := by
  have htakes (v : V) := (hhears v).takes
  have hfollows (v : V) : blockLabels.Follows (t'.chain v) (t.chain p) :=
    (h.follows v).of_takes h.labelled (fun b hb => hb) (htakes v)
  have hgrows (v : V) : t.chain v <+: t'.chain v := LogCopies.Labels.prefix_of_takes (htakes v)
  have hproducer : t'.chain p = t.chain p := (hfollows p).eq_of_extends h.labelled.ne_nil (hgrows p)
  have hhead (v : V) : (t'.chain v).head? = (t.chain v).head? := by
    obtain ⟨rest, hrest⟩ := hgrows v
    rw [← hrest, List.head?_append_of_ne_nil _ (h.follows v).ne_nil]
  refine ⟨hproducer, ?_, fun v b hb => ?_, ?_, fun v => ?_, ?_, ?_⟩
  · rw [hproducer]
    exact h.labelled
  · obtain ⟨g, blocks, hchain⟩ := List.exists_cons_of_ne_nil (hfollows v).ne_nil
    have htail := (hfollows v).tail
    have hroot := hhead v
    rw [hchain] at hb htail hroot
    rcases List.mem_cons.mp hb with rfl | hb
    · exact h.legible v b (List.mem_of_mem_head? hroot.symm)
    · exact h.legible p b (List.mem_of_mem_tail (htail.subset hb))
  · rw [hproducer]
    exact h.hash
  · rw [hhead v]
    exact h.genesis v
  · rw [hproducer]
    exact hflight
  · rw [hproducer]
    exact hfollows

/-- A step keeps the chains copies of the producer's. -/
theorem Replicated.step (h : Replicated p t) (hok : OneProducer p t a) (hstep : a.Step t t') :
    Replicated p t' := by
  have hflight (e : Envelope V) (he : e ∈ t'.inFlight) (b : Block) (hb : b ∈ e.blocks) :=
    h.blocks_inFlight hok hstep he hb
  rcases h.step_cases hok hstep with
    ⟨rewardAddress, blockTime, txTime, txNonce, b, -, hmines, hb, hpush, hrest, -⟩ | hhears
  · have htip := h.hash _ (List.getLast_mem (t.node p).blockchain.chain_ne_nil)
    exact h.mines (legible_of_minedOn htip hmines hb) (isHexDigit_hash_of_isValid hb.valid)
      hb.index_eq hb.previousHash_eq hmines.short (congrArg Blockchain.chain hpush)
      (fun v hv => congrArg Blockchain.chain (hrest v hv)) hflight
  · exact (h.hears hhears hflight).2

theorem replicated_of_reachable (h : (network V d r).Reachable (OneProducer p) t) :
    Replicated p t :=
  h.invariant (Replicated p) (fun _ ht => Replicated.init ht p)
    fun _ _ _ _ ih hok hstep => ih.step hok hstep

/-- In a network in which only one node mines, and in which no blocks are made up, every chain is a
copy of the producer's: above the genesis block it is a prefix of it, and it has blocks there only
when its genesis block has the hash of the producer's. So of any two chains one continues the
other. -/
theorem follows_producer (h : (network V d r).Reachable (OneProducer p) t) :
    (∀ v, blockLabels.Follows (t.chain v) (t.chain p)) ∧
      ∀ v w, (t.chain v).tail <+: (t.chain w).tail ∨ (t.chain w).tail <+: (t.chain v).tail := by
  have hreplicated := replicated_of_reachable h
  exact ⟨hreplicated.follows, fun v w => (hreplicated.follows v).comparable (hreplicated.follows w)⟩

/-! ### Forks -/

/-- An operation that does not load a file keeps the blocks of the chain. -/
theorem prefix_chain_of_run {s s' : Blockchain} {op : Blockchain.Operation}
    (hop : Blockchain.NoLoad s op) (h : op.run s = some s') : s.chain <+: s'.chain := by
  cases Blockchain.effect_of_run h with
  | unchanged => exact List.prefix_rfl
  | admitted htx => exact List.prefix_rfl
  | mined hreward hb => exact List.prefix_append _ _
  | received hfits hpool => exact List.prefix_append _ _
  | refused => exact List.prefix_rfl
  | adopted hread hvalid => exact hop.elim

/-- Whatever happens in a network without loading, the chains only grow. -/
theorem prefix_chain_of_continues {ok : Net V → Action V → Prop}
    (hok : ∀ t v file, ¬ ok t (.operate v (.loadFromFile file)))
    (h : (network V d r).Continues ok t t') (v : V) : t.chain v <+: t'.chain v := by
  induction h with
  | refl => exact List.prefix_rfl
  | @tail t₁ t₂ _ hlast ih =>
    obtain ⟨a, hallowed, hstep⟩ := hlast
    refine ih.trans ?_
    rcases Action.Step.node_cases hstep v with
      heq | ⟨op, rfl, hrun⟩ | ⟨e, peers, now, -, -, -, hnode⟩
    · have hchain : t₂.chain v = t₁.chain v := congrArg Blockchain.chain heq
      rw [hchain]
    · refine prefix_chain_of_run ?_ hrun
      cases op with
      | loadFromFile file => exact absurd hallowed (hok t₁ v file)
      | addTransaction tx => trivial
      | minePendingTransactions rewardAddress blockTime txTime txNonce => trivial
      | addBlock block => trivial
    · have hgrows := LogCopies.Labels.prefix_of_takes
        (hears_handleMessage (t₁.node v) e.message).takes
      rw [← hnode] at hgrows
      exact hgrows

/-- Whatever nodes do and whatever messages they get from whom, as long as nobody loads a file: no
chain ever loses or replaces a block, so two chains that have forked never agree again. -/
theorem forks_are_permanent {ok : Net V → Action V → Prop}
    (hok : ∀ t v file, ¬ ok t (.operate v (.loadFromFile file)))
    (h : (network V d r).Continues ok t t') {v w : V}
    (hfork : ¬ t.chain v <+: t.chain w ∧ ¬ t.chain w <+: t.chain v) :
    (∀ u, t.chain u <+: t'.chain u) ∧
      ¬ t'.chain v <+: t'.chain w ∧ ¬ t'.chain w <+: t'.chain v := by
  have hgrows := prefix_chain_of_continues hok h
  refine ⟨hgrows, fun hpre => ?_, fun hpre => ?_⟩
  · rcases List.prefix_or_prefix_of_prefix ((hgrows v).trans hpre) (hgrows w) with hvw | hwv
    · exact hfork.1 hvw
    · exact hfork.2 hwv
  · rcases List.prefix_or_prefix_of_prefix ((hgrows w).trans hpre) (hgrows v) with hwv | hvw
    · exact hfork.2 hwv
    · exact hfork.1 hvw

end Producer

/-- Mining on one of two fresh nodes is the work of one producer. -/
theorem oneProducer_minedNet : OneProducer true freshNet
    (.operate true (.minePendingTransactions (ascii "bob") 5 6 1)) := by
  have hfree : DelimiterFree (ascii "bob") := ⟨by decide, by decide, by decide⟩
  exact ⟨rfl, hfree, fun tx htx => absurd htx List.not_mem_nil, by decide, by decide⟩

theorem follows_producer_minedNet :
    blockLabels.Follows (minedNet.chain false) (minedNet.chain true) :=
  (follows_producer (.step (.init init_freshNet) oneProducer_minedNet step_minedNet)).1 false

/-- Both nodes have mined a block. -/
def forkedNet : Net Bool :=
  minedNet.update false { freshNode with blockchain := Blockchain.firstMined (ascii "alice") 5 6 } 0

theorem forked_forkedNet : ¬ forkedNet.chain true <+: forkedNet.chain false ∧
    ¬ forkedNet.chain false <+: forkedNet.chain true := by
  let receivers (chain : List Block) : List (List Bytes) :=
    chain.map fun b => b.transactions.map Transaction.receiver
  have hbob : receivers (forkedNet.chain true) = [[], [ascii "bob"]] := rfl
  have halice : receivers (forkedNet.chain false) = [[], [ascii "alice"]] := rfl
  have hne : forkedNet.chain true ≠ forkedNet.chain false := by
    intro heq
    rw [heq, halice] at hbob
    exact absurd hbob (by decide)
  exact ⟨fun h => hne (h.eq_of_length rfl), fun h => hne.symm (h.eq_of_length rfl)⟩

/-- One of them has told the other one of its block. -/
def toldNet : Net Bool :=
  ⟨forkedNet.node,
    {⟨true, false, Message.createNewBlock (BlockSerializer.serialize firstBlock) 0⟩}⟩

/-- When the other one hears of it, their chains differ still. -/
theorem forks_are_permanent_toldNet :
    ∃ t : Net Bool, (network Bool 0 (money.coins 50)).Continues
        (fun _ a => ∀ v file, a ≠ .operate v (.loadFromFile file)) forkedNet t ∧
      ¬ t.chain true <+: t.chain false ∧ ¬ t.chain false <+: t.chain true := by
  let announcement : Envelope Bool :=
    ⟨true, false, Message.createNewBlock (BlockSerializer.serialize firstBlock) 0⟩
  have hsend : (network Bool 0 (money.coins 50)).step forkedNet (.send announcement) toldNet := rfl
  have hdeliver : (network Bool 0 (money.coins 50)).step toldNet (.deliver announcement ∅ 0)
      (toldNet.update false ((toldNet.node false).handleMessage announcement.message)
        (0 + (toldNet.node false).sends announcement ∅ 0)) :=
    ⟨⟨by decide, by decide +kernel⟩, 0, rfl, rfl⟩
  have hcontinues : (network Bool 0 (money.coins 50)).Continues
      (fun _ a => ∀ v file, a ≠ .operate v (.loadFromFile file)) forkedNet _ :=
    (Runs.System.Continues.step .refl (fun _ _ heq => by cases heq) hsend).step
      (fun _ _ heq => by cases heq) hdeliver
  exact ⟨_, hcontinues, (forks_are_permanent (fun _ v file h => h v file rfl) hcontinues
    forked_forkedNet).2⟩

end Net

end p2p

end BlockchainCrypto
