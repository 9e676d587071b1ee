import BlockchainCrypto.Chain.Agreement
import BlockchainCrypto.Network.BlockRequests
import BlockchainCrypto.Network.Gossip
import BlockchainCrypto.Network.Handshake
import Mathlib.Logic.Relation

/-!
# Synchronisation

A node that learns from a handshake that its peer has the longer chain asks for the blocks above
its own and hands each of them to `addBlock`. A fresh node asks for everything but the genesis
block, so the exchange reaches the chain of the peer only when both have made the same genesis
block, that is, read the same clock. Beyond that, every block that the peer has mined is accepted
as long as its clock did not go back, and as long as the number of blocks is an `int`.

## Main definitions

* `p2p.Handshake.syncRequest`, `p2p.Node.syncWith`: the exchange, from the handshake on.
* `p2p.MinesTo`: a mining step whose address has no delimiters.
* `p2p.Sendable`: what a mined block satisfies on top of the blocks below it.

## Main results

* `p2p.chain_handleLines_iff`: when all lines of a message are accepted.
* `p2p.sync_iff`: when a fresh node reaches the chain of its peer.
-/

namespace BlockchainCrypto

open ByteText

namespace p2p

/-! ### The exchange -/

/-- The request that `handleHandshake` and `syncWithPeer` send to a peer with a longer chain. -/
def Handshake.syncRequest (hs : Handshake) (chainSize : ℕ) (now : Int64) : Option Message :=
  let ourHeight := Int64.ofNat chainSize
  if hs.blockHeight > ourHeight then
    some (Message.createGetBlocks ourHeight (hs.blockHeight - 1) now)
  else none

/-- The node after it has sent its request to a peer and handled the reply. -/
def Node.syncWith (n : Node) (hs : Handshake) (peerChain : List Block)
    (requestTime replyTime : Int64) : Node :=
  match hs.syncRequest n.blockchain.chain.length requestTime with
  | none => n
  | some request => n.handleMessage (handleGetBlocks peerChain request.payload replyTime)

/-- None of the delimiters of the wire texts occurs in the address. -/
structure DelimiterFree (address : Bytes) : Prop where
  bar : bar ∉ address
  comma : comma ∉ address
  newline : newline ∉ address

/-- A mining step with a reward to an address without delimiters. -/
def MinesTo (s s' : Blockchain) : Prop :=
  ∃ rewardAddress blockTime txTime txNonce, DelimiterFree rewardAddress ∧
    s.minePendingTransactions rewardAddress blockTime txTime txNonce = some s'

/-! ### The request -/

theorem takes_readRange (x y : Int64) :
    Takes bar readRange [decimalInt x.toInt, decimalInt y.toInt] (some x, some y) := by
  rw [readRange]
  refine (takes_getline [] (decimalInt x.toInt)).bind ?_
  refine (takes_getline _ (decimalInt y.toInt)).bind ?_
  rw [utils.parseInt64_decimalInt, utils.parseInt64_decimalInt]
  exact takes_pure _

/-- The blocks from one height of the chain to another are asked for and answered. -/
theorem requestedRange_createGetBlocks_of_le {start last chainSize : ℕ} (hle : start ≤ last)
    (hlast : last < chainSize) (hlt : chainSize ≤ 2 ^ 31) (now : Int64) :
    requestedRange chainSize
      (Message.createGetBlocks (Int64.ofNat start) (Int64.ofNat last) now).payload =
        .ok (start, last) := by
  have hstartInt : (Int64.ofNat start).toInt = start := Int64.toInt_ofNat_of_lt (by omega)
  have hend : (Int64.ofNat last).toInt = last := Int64.toInt_ofNat_of_lt (by omega)
  have hsplit :
      (Message.createGetBlocks (Int64.ofNat start) (Int64.ofNat last) now).payload.splitOn bar =
        [decimalInt (Int64.ofNat start).toInt, decimalInt (Int64.ofNat last).toInt] := by
    have hpayload : (Message.createGetBlocks (Int64.ofNat start) (Int64.ofNat last) now).payload =
        List.intercalate [bar] [decimalInt (Int64.ofNat start).toInt,
          decimalInt (Int64.ofNat last).toInt] := by
      simp [Message.createGetBlocks, Message.create, List.intercalate_cons_of_ne_nil]
    rw [hpayload]
    refine List.splitOn_intercalate bar (fun f hf => ?_) (List.cons_ne_nil _ _)
    simp only [List.mem_cons, List.not_mem_nil, or_false] at hf
    rcases hf with rfl | rfl
    · exact isSeparator_bar.not_mem _
    · exact isSeparator_bar.not_mem _
  rw [requestedRange, (takes_readRange _ _).run'_of_splitOn (hsplit.trans (List.append_nil _).symm)]
  simp only [hstartInt, hend]
  rw [if_neg (by omega), if_neg (by omega), if_neg (by omega)]
  rfl

/-- The blocks from some height on are asked for and answered. -/
theorem requestedRange_createGetBlocks_of_lt {start chainSize : ℕ} (hstart : start < chainSize)
    (hlt : chainSize ≤ 2 ^ 31) (now : Int64) :
    requestedRange chainSize
      (Message.createGetBlocks (Int64.ofNat start) (Int64.ofNat chainSize - 1) now).payload =
        .ok (start, chainSize - 1) := by
  have hlast : Int64.ofNat chainSize - 1 = Int64.ofNat (chainSize - 1) := by
    have hone : (1 : Int64).toInt = 1 := rfl
    rw [← Int64.toInt_inj, Int64.toInt_sub, Int64.toInt_ofNat_of_lt (by omega), hone,
      Int64.toInt_ofNat_of_lt (by omega)]
    exact (Int.bmod_eq_of_le (by omega) (by omega)).trans (by omega)
  rw [hlast]
  exact requestedRange_createGetBlocks_of_le (by omega) (by omega) hlt now

/-! ### The lines of the reply -/

theorem isDelimiter_newline : IsDelimiter newline := ⟨isSeparator_newline, by decide, by decide⟩

/-- A block whose text fields have no line breaks is written on one line. -/
theorem newline_not_mem_serialize {b : Block} (hprevious : newline ∉ b.previousHash)
    (hhash : newline ∉ b.hash) (hroot : newline ∉ b.merkleRoot)
    (htxs : ∀ tx ∈ b.transactions, tx.Without [newline]) :
    newline ∉ BlockSerializer.serialize b := by
  intro hmem
  have hnumber := isSeparator_newline.not_mem
  rcases mem_of_mem_intercalate hmem with h | ⟨f, hf, hmem⟩
  · exact absurd h (by decide)
  rcases List.mem_append.mp hf with hf | hf
  · simp only [BlockSerializer.headerFields, List.mem_cons, List.not_mem_nil, or_false] at hf
    rcases hf with rfl | rfl | rfl | rfl | rfl | rfl | rfl | rfl
    · exact hnumber _ hmem
    · exact hnumber _ hmem
    · exact hprevious hmem
    · exact hhash hmem
    · exact hroot hmem
    · exact hnumber _ hmem
    · exact hnumber _ hmem
    · exact hnumber b.transactions.length hmem
  · obtain ⟨tx, htx, rfl⟩ := List.mem_map.mp hf
    rcases mem_of_mem_intercalate hmem with h | ⟨g, hg, hmem⟩
    · exact absurd h (by decide)
    · exact not_mem_of_mem_transactionFields (htxs tx htx) (List.mem_singleton_self newline)
        isSeparator_newline hg hmem

/-- The lines of a reply are the texts of its blocks, when their number is an `int`. -/
theorem blockLines_blocksPayload {blocks : List Block} (count : ℕ)
    (h : ∀ b ∈ blocks, newline ∉ BlockSerializer.serialize b) :
    Node.blockLines (blocksPayload count blocks) =
      if count < 2 ^ 31 then blocks.map BlockSerializer.serialize else [] := by
  have hpayload : blocksPayload count blocks =
      List.intercalate [newline] (decimal count :: blocks.map BlockSerializer.serialize) := by
    rw [blocksPayload]
    generalize decimal count = first
    induction blocks generalizing first with
    | nil => simp
    | cons b blocks ih =>
      rw [List.map_cons, List.intercalate_cons_of_ne_nil (List.cons_ne_nil _ _), List.flatMap_cons,
        ← ih (fun b hb => h b (List.mem_cons_of_mem _ hb)) (BlockSerializer.serialize b)]
      simp
  have hsplit : (blocksPayload count blocks).splitOn newline =
      decimal count :: blocks.map BlockSerializer.serialize := by
    rw [hpayload]
    refine List.splitOn_intercalate newline (List.forall_mem_cons.mpr ⟨?_, fun f hf => ?_⟩)
      (List.cons_ne_nil _ _)
    · exact isSeparator_newline.not_mem count
    · obtain ⟨b, hb, rfl⟩ := List.mem_map.mp hf
      exact h b hb
  rw [Node.blockLines, hsplit]
  dsimp only
  rw [utils.parseInt_decimal_eq]
  by_cases hcount : count < 2 ^ 31
  · have hnonneg : ¬ Int32.ofNat count < 0 := by
      have hzero : (0 : Int32).toInt = 0 := rfl
      rw [Int32.lt_iff_toInt_lt, Int32.toInt_ofNat_of_lt hcount, hzero]
      omega
    simp only [hcount, ↓reduceIte, hnonneg]
  · simp only [hcount, ↓reduceIte]

/-- A line adds at most one block to the chain. -/
theorem chain_handleLine_cases (n : Node) (line : Bytes) :
    (n.handleLine line).blockchain.chain = n.blockchain.chain ∨
      ∃ b, (n.handleLine line).blockchain.chain = n.blockchain.chain ++ [b] := by
  rw [Node.handleLine]
  split_ifs
  · exact .inl rfl
  · split
    · exact .inl rfl
    · rename_i block _
      rcases n.blockchain.addBlock_cases (some block) with h | ⟨b, -, -, -, h⟩
      · exact .inl (by simp [Node.onNewBlock, h])
      · exact .inr ⟨b, by simp [Node.onNewBlock, h, Blockchain.pushBlock]⟩

/-- The lines of a message extend the chain by at most their number. -/
theorem chain_prefix_handleLines (lines : List Bytes) (n : Node) :
    n.blockchain.chain <+: (lines.foldl Node.handleLine n).blockchain.chain ∧
      (lines.foldl Node.handleLine n).blockchain.chain.length ≤
        n.blockchain.chain.length + lines.length := by
  induction lines generalizing n with
  | nil => exact ⟨List.prefix_rfl, le_rfl⟩
  | cons line lines ih =>
    obtain ⟨hpre, hlength⟩ := ih (n.handleLine line)
    rw [List.foldl_cons, List.length_cons]
    rcases chain_handleLine_cases n line with h | ⟨b, h⟩
    · rw [h] at hpre hlength
      exact ⟨hpre, by omega⟩
    · rw [h] at hpre hlength
      refine ⟨(List.prefix_append _ _).trans hpre, ?_⟩
      rw [List.length_append, List.length_singleton] at hlength
      omega

section Lines

variable {d : Int32} {r : money.Amount}

/-- A line with a block hands the block to the chain. -/
theorem blockchain_handleLine {n : Node} {b : Block}
    (hdecoded : BlockSerializer.deserialize (BlockSerializer.serialize b) = some b) :
    (n.handleLine (BlockSerializer.serialize b)).blockchain =
      (n.blockchain.addBlock (some b)).1 := by
  have hne : BlockSerializer.serialize b ≠ [] := by
    intro hnil
    have hempty : BlockSerializer.deserialize [] = none := by decide
    rw [hnil, hempty] at hdecoded
    cases hdecoded
  rw [Node.handleLine, if_neg hne, hdecoded]
  rfl

/-- From an empty pool, the blocks of a reply end up on the chain exactly when each of them fits on
the blocks in front of it. -/
theorem chain_handleLines_iff {n : Node} {below blocks : List Block}
    (hchain : n.blockchain.chain = below) (hdifficulty : n.blockchain.difficulty = d)
    (hreward : n.blockchain.miningReward = r) (hpool : n.blockchain.pendingTransactions = [])
    (hdecoded : ∀ b ∈ blocks,
      BlockSerializer.deserialize (BlockSerializer.serialize b) = some b) :
    ((blocks.map BlockSerializer.serialize).foldl Node.handleLine n).blockchain.chain =
        below ++ blocks ↔
      ∀ i (hi : i < blocks.length), Blockchain.Fits (below ++ blocks.take i) d r blocks[i] := by
  induction blocks generalizing n below with
  | nil => simp [hchain]
  | cons b blocks ih =>
    obtain ⟨hb, hblocks⟩ := List.forall_mem_cons.mp hdecoded
    have hline := blockchain_handleLine (n := n) hb
    rw [List.map_cons, List.foldl_cons]
    by_cases hfits : Blockchain.Fits below d r b
    · have hadd : n.blockchain.addBlock (some b) = (n.blockchain.pushBlock b [], true) := by
        have := Blockchain.addBlock_of_fits (s := n.blockchain) (b := b)
          (by rwa [hchain, hdifficulty, hreward]) (hpool ▸ Blockchain.not_paymentPending_nil b)
        rw [hpool] at this
        exact this
      rw [hadd] at hline
      have hrest := @ih (n.handleLine (BlockSerializer.serialize b)) (below ++ [b])
        (by rw [hline, ← hchain]; rfl) (by rw [hline]; exact hdifficulty)
        (by rw [hline]; exact hreward) (by rw [hline]; rfl) hblocks
      rw [List.append_assoc, List.singleton_append] at hrest
      rw [hrest]
      constructor
      · intro h i hi
        cases i with
        | zero => simpa using hfits
        | succ i => simpa using h i (by simpa using hi)
      · intro h i hi
        rw [List.append_assoc]
        exact h (i + 1) (Nat.succ_lt_succ hi)
    · have hfirst (h : ∀ i (hi : i < (b :: blocks).length),
          Blockchain.Fits (below ++ (b :: blocks).take i) d r (b :: blocks)[i]) : False := by
        have h0 := h 0 (Nat.succ_pos _)
        rw [List.take_zero, List.append_nil] at h0
        exact hfits h0
      refine iff_of_false (fun h => ?_) hfirst
      have hreject : n.blockchain.addBlock (some b) = (n.blockchain, false) := by
        rw [← hchain, ← hdifficulty, ← hreward] at hfits
        exact Blockchain.addBlock_of_not_fits fun h => hfits h.1
      rw [hreject] at hline
      have hlength := (chain_prefix_handleLines (blocks.map BlockSerializer.serialize)
        (n.handleLine (BlockSerializer.serialize b))).2
      rw [hline, h, hchain, List.length_append, List.length_map, List.length_cons] at hlength
      omega

end Lines

/-! ### The blocks of a miner -/

/-- What a block satisfies that was mined on top of `below` with an empty pool: it fits unless it is
older than the tip, and it survives the text of the reply. -/
structure Sendable (d : Int32) (r : money.Amount) (below : List Block) (b : Block) : Prop where
  fits_iff : Blockchain.Fits below d r b ↔
    (Blockchain.blockAt below (below.length - 1)).timestamp ≤ b.timestamp
  hash : ∀ c ∈ b.hash, isHexDigit c = true
  decoded : BlockSerializer.deserialize (BlockSerializer.serialize b) = some b
  oneLine : newline ∉ BlockSerializer.serialize b

/-- A node that started from the genesis block `g` and has only mined. -/
structure Miner (d : Int32) (r : money.Amount) (g : Block) (s : Blockchain) : Prop where
  difficulty : s.difficulty = d
  miningReward : s.miningReward = r
  pool : s.pendingTransactions = []
  balances : s.balances = Blockchain.updateBalances s.chain
  chain : AppendLog.Grown (· = g) (Sendable d r) s.chain
  hash : ∀ b ∈ s.chain, ∀ c ∈ b.hash, isHexDigit c = true
  oneLine : ∀ b ∈ s.chain, newline ∉ BlockSerializer.serialize b

theorem isHexDigit_hash_of_isValid {b : Block} (h : b.isValid = true) :
    ∀ c ∈ b.hash, isHexDigit c = true := by
  rw [(Block.isValid_iff.mp h).1]
  exact (utils.isHexWord_sha256 _).2

section Mining

variable {d : Int32} {r : money.Amount} {g : Block} {s s' : Blockchain}

/-- A mined block is sendable. -/
theorem Miner.sendable (hs : Miner d r g s) {rewardAddress : Bytes} {blockTime txTime : Int64}
    {txNonce : UInt64} (haddress : DelimiterFree rewardAddress) {b : Block}
    (hb : s.MinedOn (s.rewardTransaction rewardAddress txTime txNonce) blockTime b) :
    Sendable d r s.chain b := by
  have hcoherent : s.Coherent := Blockchain.coherent_of_pool_nil hs.pool hs.balances
  have htxs : b.transactions = [s.rewardTransaction rewardAddress txTime txNonce] := by
    rw [hb.transactions_eq_pool hcoherent, hs.pool, List.nil_append]
  have hroot := (Block.isValid_iff.mp hb.valid).2.2.2
  have hhash := isHexDigit_hash_of_isValid hb.valid
  have hprevious : ∀ c ∈ b.previousHash, isHexDigit c = true := by
    rw [hb.previousHash_eq]
    exact hs.hash _ (List.getLast_mem s.chain_ne_nil)
  have hwithout {avoid : Bytes} (havoid : ∀ c ∈ avoid, IsDelimiter c)
      (hreceiver : ∀ c ∈ avoid, c ∉ rewardAddress) : ∀ tx ∈ b.transactions, tx.Without avoid := by
    rw [htxs]
    exact List.forall_mem_singleton.mpr ⟨fun c hc => (havoid c hc).not_mem_system, hreceiver,
      fun _ _ => List.not_mem_nil, fun _ _ => List.not_mem_nil⟩
  refine ⟨?_, hhash, ?_, ?_⟩
  · have hfits := hb.fits_iff hcoherent rfl rfl
    rw [hs.difficulty, hs.miningReward, Blockchain.getLatestBlock_eq, ← hb.timestamp_eq] at hfits
    refine ⟨fun h => h.extends_chain.ordered, fun h => (hfits h).mpr ?_⟩
    rw [hs.pool]
    exact fun tx htx => absurd htx List.not_mem_nil
  · refine deserialize_serialize hroot (not_mem_of_isHexDigit isDelimiter_bar hprevious)
      (not_mem_of_isHexDigit isDelimiter_bar hhash) (hwithout ?_ ?_) ?_
    · exact List.forall_mem_cons.mpr
        ⟨isDelimiter_comma, List.forall_mem_singleton.mpr isDelimiter_bar⟩
    · exact List.forall_mem_cons.mpr ⟨haddress.comma, List.forall_mem_singleton.mpr haddress.bar⟩
    · rw [htxs]
      exact (by decide : 1 ≤ maxTransactions)
  · refine newline_not_mem_serialize (not_mem_of_isHexDigit isDelimiter_newline hprevious)
      (not_mem_of_isHexDigit isDelimiter_newline hhash) ?_ (hwithout ?_ ?_)
    · rw [hroot, Block.merkleRootOf_eq]
      exact not_mem_of_isHexDigit isDelimiter_newline (utils.isHexWord_calculateMerkleRoot _).2
    · exact List.forall_mem_singleton.mpr isDelimiter_newline
    · exact List.forall_mem_singleton.mpr haddress.newline

/-- Mining keeps a miner a miner. -/
theorem Miner.mines (hs : Miner d r g s) (h : MinesTo s s') : Miner d r g s' := by
  obtain ⟨rewardAddress, blockTime, txTime, txNonce, haddress, hmine⟩ := h
  rcases Blockchain.mine_cases hmine with ⟨-, rfl⟩ | ⟨-, b, hb, rfl⟩
  · exact hs
  · have hsendable := hs.sendable haddress hb
    refine ⟨hs.difficulty, hs.miningReward, rfl, rfl, hs.chain.concat hsendable, ?_, ?_⟩
    · exact List.forall_mem_append.mpr ⟨hs.hash, List.forall_mem_singleton.mpr hsendable.hash⟩
    · exact List.forall_mem_append.mpr ⟨hs.oneLine, List.forall_mem_singleton.mpr hsendable.oneLine⟩

/-- A constructed node that has mined some blocks. -/
theorem miner_of_reflTransGen {now : Int64} {s₀ : Blockchain}
    (hs₀ : Blockchain.construct d r now = some s₀) (h : Relation.ReflTransGen MinesTo s₀ s) :
    ∃ g, s₀.chain = [g] ∧ g.timestamp = now ∧ Miner d r g s := by
  obtain ⟨nonce, hash, hchain, hvalid, hpool, hd, hr, hbalances⟩ :=
    Blockchain.construct_eq_some hs₀
  refine ⟨_, hchain, rfl, ?_⟩
  have hgrown := Blockchain.isChainValid_iff.mp hvalid
  rw [hchain] at hgrown
  have hgenesis := AppendLog.grown_singleton_iff.mp hgrown
  have hvalid := (Block.isValidWithDifficulty_iff.mp hgenesis).2
  have hstart : Miner d r ((Block.create 0 (ascii "0") d now).setMinedState nonce hash) s₀ := by
    have hhash := isHexDigit_hash_of_isValid hvalid
    refine ⟨hd, hr, hpool, hbalances, ?_, ?_, ?_⟩
    · rw [hchain]
      exact .single rfl
    · rw [hchain]
      exact List.forall_mem_singleton.mpr hhash
    · rw [hchain]
      refine List.forall_mem_singleton.mpr (newline_not_mem_serialize ?_
        (not_mem_of_isHexDigit isDelimiter_newline hhash) ?_ ?_)
      · exact (by decide : newline ∉ ascii "0")
      · exact not_mem_of_isHexDigit isDelimiter_newline (utils.isHexWord_sha256 []).2
      · exact fun tx htx => absurd htx List.not_mem_nil
  induction h with
  | refl => exact hstart
  | tail _ hmine ih => exact ih.mines hmine

end Mining

/-! ### The chain of the peer -/

/-- The timestamps do not go back along the chain. -/
def TimeOrdered (chain : List Block) : Prop :=
  ∀ i (hi : i + 1 < chain.length), chain[i].timestamp ≤ chain[i + 1].timestamp

section Exchange

variable {d : Int32} {r : money.Amount} {g : Block} {peer : Blockchain} {n : Node}

/-- The blocks above the first fit one after the other exactly when no timestamp goes back. -/
theorem Miner.fits_iff_timeOrdered {blocks : List Block} (hpeer : Miner d r g peer)
    (hchain : peer.chain = g :: blocks) :
    (∀ i (hi : i < blocks.length), Blockchain.Fits ([g] ++ blocks.take i) d r blocks[i]) ↔
      TimeOrdered peer.chain := by
  have hgrown := (AppendLog.grown_iff.mp hpeer.chain).2
  simp only [hchain] at hgrown
  have hfits (i : ℕ) (hi : i < blocks.length) (hi' : i < (g :: blocks).length) :
      Blockchain.Fits ([g] ++ blocks.take i) d r blocks[i] ↔
        (g :: blocks)[i].timestamp ≤ blocks[i].timestamp := by
    have hsendable := (hgrown (i + 1) (Nat.succ_lt_succ hi) (Nat.succ_pos i)).fits_iff
    have hlength : ((g :: blocks).take (i + 1)).length = i + 1 := by
      rw [List.length_take, List.length_cons]
      omega
    rw [hlength, Nat.add_sub_cancel, Blockchain.blockAt_take (Nat.lt_succ_self i),
      Blockchain.blockAt_eq_getElem hi'] at hsendable
    exact hsendable
  simp only [TimeOrdered, hchain]
  constructor
  · intro h i hi
    exact (hfits i (Nat.lt_of_succ_lt_succ hi) _).mp (h i (Nat.lt_of_succ_lt_succ hi))
  · intro h i hi
    exact (hfits i hi _).mpr (h i (Nat.succ_lt_succ hi))

/-- The blocks of a miner above the first survive the text of the reply. -/
theorem Miner.decoded {blocks : List Block} (hpeer : Miner d r g peer)
    (hchain : peer.chain = g :: blocks) {b : Block} (hb : b ∈ blocks) :
    BlockSerializer.deserialize (BlockSerializer.serialize b) = some b := by
  have hgrown := (AppendLog.grown_iff.mp hpeer.chain).2
  simp only [hchain] at hgrown
  obtain ⟨i, hi, rfl⟩ := List.getElem_of_mem hb
  exact (hgrown (i + 1) (Nat.succ_lt_succ hi) (Nat.succ_pos i)).decoded

variable {hs : Handshake} {requestTime replyTime : Int64}

/-- Whatever is asked for, the reply has fewer than `2 ^ 31` lines that are read. -/
theorem Node.syncWith_eq_foldl {chain : List Block}
    (hlines : ∀ b ∈ chain, newline ∉ BlockSerializer.serialize b) :
    ∃ lines : List Bytes, lines.length < 2 ^ 31 ∧
      n.syncWith hs chain requestTime replyTime = lines.foldl Node.handleLine n := by
  rw [Node.syncWith]
  split
  · exact ⟨[], by decide, rfl⟩
  · rename_i request _
    rw [handleGetBlocks]
    split
    · exact ⟨[], by decide, rfl⟩
    · rename_i startHeight endHeight _
      have hblocks : ∀ b ∈ blocksBetween chain startHeight endHeight,
          newline ∉ BlockSerializer.serialize b := fun b hb =>
        hlines b (List.mem_of_mem_drop (List.mem_of_mem_take hb))
      refine ⟨_, ?_, rfl⟩
      rw [Message.create, blockLines_blocksPayload _ hblocks]
      split_ifs with hcount
      · rw [List.length_map]
        exact lt_of_le_of_lt (List.length_take_le _ _) hcount
      · decide

/-- The blocks from some height on are answered, and handled in order. -/
theorem Node.handleMessage_handleGetBlocks {below blocks : List Block}
    (hlines : ∀ b ∈ below ++ blocks, newline ∉ BlockSerializer.serialize b) (hbelow : below ≠ [])
    (hblocks : blocks ≠ []) (hlt : (below ++ blocks).length ≤ 2 ^ 31) :
    n.handleMessage (handleGetBlocks (below ++ blocks)
      (Message.createGetBlocks (Int64.ofNat below.length)
        (Int64.ofNat (below ++ blocks).length - 1) requestTime).payload replyTime) =
      (blocks.map BlockSerializer.serialize).foldl Node.handleLine n := by
  have hpos := List.length_pos_iff.mpr hbelow
  have hpos' := List.length_pos_iff.mpr hblocks
  have hlength : (below ++ blocks).length = below.length + blocks.length := List.length_append
  have hsize : below.length < (below ++ blocks).length := by omega
  have hcount : (below ++ blocks).length - 1 - below.length + 1 = blocks.length := by omega
  have hbetween : blocksBetween (below ++ blocks) below.length ((below ++ blocks).length - 1) =
      blocks := by
    rw [blocksBetween, hcount, List.drop_left, List.take_length]
  have hshort : blocks.length < 2 ^ 31 := by omega
  rw [handleGetBlocks, requestedRange_createGetBlocks_of_lt hsize hlt]
  dsimp only
  rw [hbetween, hcount, Node.handleMessage, Message.create, if_pos rfl, Node.handleBlocks,
    blockLines_blocksPayload _ (fun b hb => hlines b (List.mem_append_right below hb)),
    if_pos hshort]

/-- A node asks for all blocks above its own height, and handles them in order. -/
theorem Node.syncWith_eq_handleLines (below : List Block) {blocks : List Block}
    (hbelow : below ≠ []) (hlength : n.blockchain.chain.length = below.length)
    (hlines : ∀ b ∈ below ++ blocks, newline ∉ BlockSerializer.serialize b)
    (hheight : hs.blockHeight = Int64.ofNat (below ++ blocks).length) (hblocks : blocks ≠ [])
    (hlt : (below ++ blocks).length ≤ 2 ^ 31) :
    n.syncWith hs (below ++ blocks) requestTime replyTime =
      (blocks.map BlockSerializer.serialize).foldl Node.handleLine n := by
  have hrequest : hs.syncRequest below.length requestTime = some (Message.createGetBlocks
      (Int64.ofNat below.length) (Int64.ofNat (below ++ blocks).length - 1) requestTime) := by
    have hpos := List.length_pos_iff.mpr hblocks
    rw [Handshake.syncRequest, hheight]
    refine if_pos ?_
    rw [List.length_append] at hlt
    rw [gt_iff_lt, Int64.lt_iff_toInt_lt, List.length_append,
      Int64.toInt_ofNat_of_lt (n := below.length) (by omega),
      Int64.toInt_ofNat_of_lt (n := below.length + blocks.length) (by omega)]
    omega
  rw [Node.syncWith, hlength, hrequest]
  exact Node.handleMessage_handleGetBlocks hlines hbelow hblocks hlt

/-- A fresh node asks for all blocks above the first, and handles them in order. -/
theorem Node.syncWith_eq_of_lt {g : Block} {blocks : List Block} {gn : Block}
    (hchain : n.blockchain.chain = [gn])
    (hlines : ∀ b ∈ g :: blocks, newline ∉ BlockSerializer.serialize b)
    (hheight : hs.blockHeight = Int64.ofNat (g :: blocks).length) (hblocks : blocks ≠ [])
    (hlt : (g :: blocks).length ≤ 2 ^ 31) :
    n.syncWith hs (g :: blocks) requestTime replyTime =
      (blocks.map BlockSerializer.serialize).foldl Node.handleLine n :=
  Node.syncWith_eq_handleLines [g] (List.cons_ne_nil g []) (by rw [hchain]; rfl) hlines hheight
    hblocks hlt

/-- A fresh node reaches the chain of a miner exactly when both have the same genesis block, the
miner's timestamps do not go back, and the number of blocks is an `int`. -/
theorem Miner.chain_syncWith_iff {gn : Block} (hpeer : Miner d r g peer)
    (hchain : n.blockchain.chain = [gn]) (hdifficulty : n.blockchain.difficulty = d)
    (hreward : n.blockchain.miningReward = r) (hpool : n.blockchain.pendingTransactions = [])
    (hheight : hs.blockHeight = Int64.ofNat peer.chain.length) :
    (n.syncWith hs peer.chain requestTime replyTime).blockchain.chain = peer.chain ↔
      gn = g ∧ TimeOrdered peer.chain ∧ peer.chain.length ≤ 2 ^ 31 := by
  obtain ⟨blocks, hblocks⟩ : ∃ blocks, peer.chain = g :: blocks := by
    obtain ⟨⟨a, ha, rfl⟩, -⟩ := AppendLog.grown_iff.mp hpeer.chain
    exact ⟨_, (List.cons_head?_tail ha).symm⟩
  obtain ⟨lines, hcount, hlines⟩ :
      ∃ lines, _ ∧ n.syncWith hs peer.chain requestTime replyTime = _ :=
    Node.syncWith_eq_foldl hpeer.oneLine
  obtain ⟨hpre, hlength⟩ := chain_prefix_handleLines lines n
  rw [← hlines, hchain] at hpre hlength
  have hfits := hpeer.fits_iff_timeOrdered hblocks
  by_cases hshort : peer.chain.length ≤ 2 ^ 31
  · by_cases hsame : gn = g
    · rw [and_iff_right hsame, and_iff_left hshort]
      subst hsame
      rcases eq_or_ne blocks [] with rfl | hne
      · have hnone : hs.syncRequest 1 requestTime = none := by
          rw [Handshake.syncRequest, hheight, hblocks, List.length_singleton]
          exact if_neg Int64.lt_irrefl
        rw [Node.syncWith, hchain, List.length_singleton, hnone, ← hfits]
        exact iff_of_true (hchain.trans hblocks.symm) (by simp)
      · rw [hblocks] at hheight hshort
        have heq : n.syncWith hs _ requestTime replyTime = _ := Node.syncWith_eq_of_lt
          hchain (hblocks ▸ hpeer.oneLine) hheight hne hshort
        have hiff := chain_handleLines_iff hchain hdifficulty hreward hpool fun b hb =>
          hpeer.decoded hblocks hb
        rw [← heq, ← hblocks, List.singleton_append, ← hblocks] at hiff
        rw [hiff, hfits]
    · refine iff_of_false (fun h => hsame ?_) fun h => hsame h.1
      rw [h, hblocks] at hpre
      exact (List.cons_prefix_cons.mp hpre).1
  · refine iff_of_false (fun h => hshort ?_) fun h => hshort h.2.2
    rw [h, List.length_singleton] at hlength
    omega

/-- After the exchange, a node that has done nothing has the chain of a peer that has only mined
exactly when both were constructed at the same clock reading, the peer's timestamps do not go back
along its chain, and its chain has at most `2 ^ 31` blocks. -/
theorem sync_iff {nowA nowB : Int64} {a b₀ b : Blockchain}
    (ha : Blockchain.construct d r nowA = some a) (hb₀ : Blockchain.construct d r nowB = some b₀)
    (hb : Relation.ReflTransGen MinesTo b₀ b) {first second : UInt64} {port : UInt16}
    (hshake : readHandshake.run' (some (handshakePayload (generateNodeId first second) port
      (Int64.ofNat b.chain.length))) = some (some hs)) (hn : n.blockchain = a) :
    (n.syncWith hs b.chain requestTime replyTime).blockchain.chain = b.chain ↔
      nowA = nowB ∧ TimeOrdered b.chain ∧ b.chain.length ≤ 2 ^ 31 := by
  obtain ⟨gn, hchain, htime, hfresh⟩ := miner_of_reflTransGen ha .refl
  obtain ⟨g, hgenesis, hgtime, hpeer⟩ := miner_of_reflTransGen hb₀ hb
  have hheight : hs.blockHeight = Int64.ofNat b.chain.length := by
    rw [readHandshake_handshakePayload (bar_not_mem_generateNodeId first second)] at hshake
    split_ifs at hshake
    · cases hshake
    · rw [← Option.some.inj (Option.some.inj hshake)]
  have hclock : gn = g ↔ nowA = nowB := by
    refine ⟨fun h => by rw [← htime, ← hgtime, h], fun h => ?_⟩
    rw [h, hb₀] at ha
    rw [Option.some.inj ha, hchain] at hgenesis
    exact (List.cons.inj hgenesis).1
  subst hn
  rw [hpeer.chain_syncWith_iff hchain hfresh.difficulty hfresh.miningReward hfresh.pool hheight,
    hclock]

end Exchange

/-! ### Two fresh nodes -/

/-- The handshake of a peer with two blocks. -/
def twoBlockHandshake : Handshake := ⟨generateNodeId 1 2, 8333, 2, ascii "1.0.0"⟩

theorem readHandshake_twoBlocks (reward : Bytes) :
    readHandshake.run' (some (handshakePayload (generateNodeId 1 2) 8333
      (Int64.ofNat (Blockchain.firstMined reward 5 6).chain.length))) =
        some (some twoBlockHandshake) := by
  rw [readHandshake_handshakePayload (bar_not_mem_generateNodeId 1 2)]
  rfl

theorem minesTo_firstMined :
    MinesTo (Blockchain.fresh (money.coins 50) 0) (Blockchain.firstMined (ascii "bob") 5 6) :=
  ⟨ascii "bob", 5, 6, 1, ⟨by decide, by decide, by decide⟩, Blockchain.mine_fresh (by decide)⟩

/-- A peer that was constructed at the same clock reading and has mined one block is caught up
with. -/
theorem sync_sameClock :
    (freshNode.syncWith twoBlockHandshake (Blockchain.firstMined (ascii "bob") 5 6).chain 7
      8).blockchain.chain = (Blockchain.firstMined (ascii "bob") 5 6).chain := by
  refine (sync_iff (Blockchain.construct_zero (money.coins 50) 0)
    (Blockchain.construct_zero (money.coins 50) 0) (.single minesTo_firstMined)
    (readHandshake_twoBlocks (ascii "bob")) rfl).mpr ⟨rfl, fun i hi => ?_, by decide⟩
  obtain rfl : i = 0 := by
    have hlength : (Blockchain.firstMined (ascii "bob") 5 6).chain.length = 2 := rfl
    omega
  exact (by decide : (0 : Int64) ≤ 5)

/-- A peer that was constructed one second earlier is not. -/
theorem sync_otherClock :
    ∃ a b₀ b : Blockchain, Blockchain.construct 0 (money.coins 50) 1 = some a ∧
      Blockchain.construct 0 (money.coins 50) 0 = some b₀ ∧ MinesTo b₀ b ∧
      readHandshake.run' (some (handshakePayload (generateNodeId 1 2) 8333
        (Int64.ofNat b.chain.length))) = some (some twoBlockHandshake) ∧
      (Node.syncWith ⟨a, [], []⟩ twoBlockHandshake b.chain 7 8).blockchain.chain ≠ b.chain := by
  have hminer := miner_of_reflTransGen (Blockchain.construct_zero (money.coins 50) 0)
    (.single minesTo_firstMined)
  obtain ⟨g, -, htime, hpeer⟩ := hminer
  refine ⟨_, _, Blockchain.firstMined (ascii "bob") 5 6, Blockchain.construct_zero _ _,
    Blockchain.construct_zero _ _, minesTo_firstMined, readHandshake_twoBlocks _, fun h => ?_⟩
  have hsame := ((hpeer.chain_syncWith_iff rfl rfl rfl rfl rfl).mp h).1
  exact absurd ((congrArg Block.timestamp hsame).trans htime) (by decide)

end p2p

end BlockchainCrypto
