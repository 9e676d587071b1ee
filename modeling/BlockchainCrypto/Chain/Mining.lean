import BlockchainCrypto.Chain.Acceptance

/-!
# Mining

`minePendingTransactions` either leaves the state alone, when the reward transaction is invalid,
or appends one block: the valid transactions of the pool in order, followed by the reward. The
block satisfies every check of `addBlock` on the chain it was mined on except for three that
depend on the state: the clock, the replay of a pending payment, and the number of rewards.

## Main definitions

* `Blockchain.MinedOn`: what is known of a mined block.
* `Blockchain.firstMined`: a fresh node with one mined block.

## Main results

* `Blockchain.isValid_rewardTransaction_iff`: when a mining step has a valid reward.
* `Blockchain.mine_cases`: the two outcomes of a mining step.
* `Blockchain.mine_of_difficulty_zero`: mining where no difficulty is required.
-/

namespace BlockchainCrypto

open ByteText

namespace Blockchain

/-- What is known of a block that was mined on `s` with the reward `rewardTx`. -/
structure MinedOn (s : Blockchain) (rewardTx : Transaction) (blockTime : Int64) (b : Block) :
    Prop where
  index_eq : b.index = Int32.ofNat s.chain.length
  timestamp_eq : b.timestamp = blockTime
  transactions_eq :
    b.transactions = s.pendingTransactions.filter Transaction.isValid ++ [rewardTx]
  previousHash_eq : b.previousHash = s.getLatestBlock.hash
  difficulty_eq : b.difficulty = s.calculateRequiredDifficulty
  valid : b.isValid = true

/-- The reward of a mining step is valid when its address is neither empty nor the mint and its
amount is one that a transaction may carry. -/
theorem isValid_rewardTransaction_iff {s : Blockchain} {rewardAddress : Bytes} {txTime : Int64}
    {txNonce : UInt64} : (s.rewardTransaction rewardAddress txTime txNonce).isValid = true ↔
      rewardAddress ≠ [] ∧ money.isValidAmount s.miningReward = true ∧
        rewardAddress ≠ Transaction.system :=
  Transaction.isValid_system_iff rfl

/-- The block that is handed to the search for a nonce. -/
theorem packPending_addTransaction (s : Blockchain) (blockTime : Int64) {rewardTx : Transaction}
    (h : rewardTx.isValid = true) :
    (s.packPending blockTime).addTransaction rewardTx =
      ((Block.create (Int32.ofNat s.chain.length) s.getLatestBlock.hash
        s.calculateRequiredDifficulty blockTime).setTransactions
          (s.pendingTransactions.filter Transaction.isValid ++ [rewardTx]), true) := by
  rw [Block.addTransaction_of_valid _ h, packPending, Block.addTransactions_eq _ rfl]
  rfl

/-- A mining step changes nothing when the reward is invalid, and else appends a mined block and
empties the pool. -/
theorem mine_cases {s s' : Blockchain} {rewardAddress : Bytes} {blockTime txTime : Int64}
    {txNonce : UInt64}
    (h : s.minePendingTransactions rewardAddress blockTime txTime txNonce = some s') :
    (s.rewardTransaction rewardAddress txTime txNonce).isValid = false ∧ s' = s ∨
      (s.rewardTransaction rewardAddress txTime txNonce).isValid = true ∧
      ∃ b, s.MinedOn (s.rewardTransaction rewardAddress txTime txNonce) blockTime b ∧
        s' = s.pushBlock b [] := by
  unfold minePendingTransactions at h
  generalize s.rewardTransaction rewardAddress txTime txNonce = rewardTx at h ⊢
  cases hvalid : rewardTx.isValid with
  | false =>
    rw [Block.addTransaction_of_not_valid _ hvalid] at h
    exact .inl ⟨rfl, (Option.some.inj h).symm⟩
  | true =>
    refine .inr ⟨rfl, ?_⟩
    rw [packPending_addTransaction s blockTime hvalid] at h
    simp only [Bool.not_true, Bool.false_eq_true, ↓reduceIte] at h
    obtain ⟨b, hmine, h⟩ := Option.bind_eq_some_iff.mp h
    obtain ⟨⟨nonce, hash, hb⟩, hvalid'⟩ := Block.mineBlock_spec hmine
    have hmined : s.MinedOn rewardTx blockTime b := by
      refine ⟨by rw [hb]; rfl, by rw [hb]; rfl, by rw [hb]; rfl, by rw [hb]; rfl, by rw [hb]; rfl,
        hvalid' ⟨rfl, fun tx htx => ?_⟩⟩
      rcases List.mem_append.mp htx with htx | htx
      · exact (List.mem_filter.mp htx).2
      · rwa [List.mem_singleton.mp htx]
    have hdifficulty : s.validateBlockDifficulty b = true := by
      rw [validateBlockDifficulty, hmined.difficulty_eq, hmined.index_eq]
      exact beq_self_eq_true _
    rw [hdifficulty] at h
    exact ⟨b, hmined, (Option.some.inj h).symm⟩

/-- When no difficulty is required, mining with a valid reward appends the block that the first
nonce gives. -/
theorem mine_of_difficulty_zero {s : Blockchain} {rewardAddress : Bytes} {blockTime txTime : Int64}
    {txNonce : UInt64} (hzero : s.calculateRequiredDifficulty = 0)
    (hpool : ∀ tx ∈ s.pendingTransactions, tx.isValid = true)
    (hreward : (s.rewardTransaction rewardAddress txTime txNonce).isValid = true) :
    s.minePendingTransactions rewardAddress blockTime txTime txNonce =
      some (s.pushBlock (assemble s.chain blockTime
        (s.pendingTransactions ++ [s.rewardTransaction rewardAddress txTime txNonce])) []) := by
  have hdifficulty : s.validateBlockDifficulty (assemble s.chain blockTime
      (s.pendingTransactions ++ [s.rewardTransaction rewardAddress txTime txNonce])) = true := by
    have : (0 : Int32) = s.calculateRequiredDifficulty := hzero.symm
    exact beq_iff_eq.mpr this
  rw [minePendingTransactions, packPending_addTransaction s blockTime hreward, hzero,
    List.filter_eq_self.mpr hpool, getLatestBlock_eq]
  simp only [Bool.not_true, Bool.false_eq_true, ↓reduceIte]
  rw [Block.mineBlock_of_difficulty_zero rfl]
  change (if !s.validateBlockDifficulty (assemble _ _ _) then pure s else _) = _
  rw [hdifficulty]
  rfl

/-- A fresh node with one block on top, which brings the first reward. -/
def firstMined (rewardAddress : Bytes) (blockTime txTime : Int64) : Blockchain :=
  (fresh (money.coins 50) 0).pushBlock
    (assemble (fresh (money.coins 50) 0).chain blockTime [rewardTo rewardAddress txTime]) []

theorem mine_fresh {rewardAddress : Bytes} {blockTime txTime : Int64}
    (hreward : (rewardTo rewardAddress txTime).isValid = true) :
    (fresh (money.coins 50) 0).minePendingTransactions rewardAddress blockTime txTime 1 =
      some (firstMined rewardAddress blockTime txTime) :=
  mine_of_difficulty_zero rfl (by simp [fresh]) hreward

theorem isChainValid_firstMined {rewardAddress : Bytes} {blockTime txTime : Int64}
    (hreward : (rewardTo rewardAddress txTime).isValid = true) (htime : 0 ≤ blockTime) :
    isChainValid (firstMined rewardAddress blockTime txTime).chain 0 = true := by
  refine (isChainValid_concat_iff (fresh (money.coins 50) 0).chain_ne_nil).mpr
    ⟨isChainValid_fresh _ _, extends_assemble (by simp [fresh]) ?_ htime⟩
  simpa using hreward

end Blockchain

end BlockchainCrypto
