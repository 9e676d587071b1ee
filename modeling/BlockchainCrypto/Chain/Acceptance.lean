import BlockchainCrypto.Chain.Validity
import BlockchainCrypto.Core.SignedPayment

/-!
# Acceptance of a block

`addBlock` either changes nothing or appends the block, drops its transactions from the pool and
replays the balances. Its checks fall into two parts: whether the block fits the chain, which
every node with the same chain answers alike, and whether the local pool already holds one of its
payments.

## Main definitions

* `Blockchain.Fits`: the block passes every check that does not look at the pool.
* `Blockchain.PaymentPending`: the pool holds a payment of the block.

## Main results

* `Blockchain.addBlock_accepts_iff`, `Blockchain.addBlock_cases`: the verdict and the outcomes.
* `Blockchain.addBlock_sound_and_atomic`: acceptance keeps the chain valid, rejection changes
  nothing.
* `Blockchain.addBlock_pool_independent_iff`: when the verdict is the same for two pools.
-/

namespace BlockchainCrypto

open ByteText

namespace Blockchain

/-! ### The reward rule -/

/-- Exactly one system transaction, of the expected amount. -/
def RewardedOnce (miningReward : money.Amount) (txs : List Transaction) : Prop :=
  ∃ tx, txs.filter (·.isSystem) = [tx] ∧ tx.amount = miningReward

theorem countRewards_eq_some_iff {miningReward : money.Amount} {n m : ℕ} {txs : List Transaction} :
    countRewards miningReward n txs = some m ↔
      (∀ tx ∈ txs.filter (·.isSystem), tx.amount = miningReward) ∧
        n + (txs.filter (·.isSystem)).length = m := by
  fun_induction countRewards miningReward n txs with
  | case1 n => simp
  | case2 n tx txs hsys hamount =>
    simp [hsys, hamount]
  | case3 n tx txs hsys hamount ih =>
    rw [ih, List.filter_cons_of_pos (by simpa using hsys), List.length_cons]
    simp only [List.forall_mem_cons, not_not.mp hamount, true_and]
    rw [Nat.add_assoc, Nat.add_comm 1]
  | case4 n tx txs hsys ih =>
    rw [ih, List.filter_cons_of_neg (by simpa using hsys)]

/-- The reward loop lets exactly the lists with one full reward pass. -/
theorem countRewards_eq_one_iff {miningReward : money.Amount} {txs : List Transaction} :
    countRewards miningReward 0 txs = some 1 ↔ RewardedOnce miningReward txs := by
  rw [countRewards_eq_some_iff, Nat.zero_add, List.length_eq_one_iff]
  refine ⟨fun ⟨hamount, tx, htx⟩ => ⟨tx, htx, hamount tx (by simp [htx])⟩, ?_⟩
  rintro ⟨tx, htx, hamount⟩
  exact ⟨by simpa [htx] using hamount, tx, htx⟩

/-! ### The checks -/

/-- The chain holds no payment of the block, by hash. -/
def Unmined (chain : List Block) (b : Block) : Prop :=
  ∀ tx ∈ b.transactions, ¬ tx.isSystem →
    ∀ mined ∈ chain, ∀ existing ∈ mined.transactions, existing.calculateHash ≠ tx.calculateHash

/-- The block passes every check of `addBlock` that does not look at the pool. -/
structure Fits (chain : List Block) (difficulty : Int32) (miningReward : money.Amount)
    (b : Block) : Prop where
  index_eq : b.index = Int32.ofNat chain.length
  extends_chain : Extends difficulty chain b
  unmined : Unmined chain b
  rewarded : RewardedOnce miningReward b.transactions

/-- The pool holds a payment of the block, by hash. -/
def PaymentPending (pool : List Transaction) (b : Block) : Prop :=
  ∃ tx ∈ b.transactions, ¬ tx.isSystem ∧
    ∃ pending ∈ pool, pending.calculateHash = tx.calculateHash

theorem not_paymentPending_nil (b : Block) : ¬ PaymentPending [] b := by
  simp [PaymentPending]

theorem transactionExists_iff {s : Blockchain} {tx : Transaction} :
    s.transactionExists tx = true ↔
      (∃ b ∈ s.chain, ∃ existing ∈ b.transactions, existing.calculateHash = tx.calculateHash) ∨
        ∃ pending ∈ s.pendingTransactions, pending.calculateHash = tx.calculateHash := by
  simp [transactionExists]

theorem any_transactionExists_iff {s : Blockchain} {b : Block} :
    (b.transactions.any fun tx => !tx.isSystem && s.transactionExists tx) = true ↔
      ¬ Unmined s.chain b ∨ PaymentPending s.pendingTransactions b := by
  simp only [List.any_eq_true, Bool.and_eq_true, transactionExists_iff, Unmined, PaymentPending]
  push Not
  constructor
  · rintro ⟨tx, htx, hsys, h | h⟩
    · obtain ⟨mined, hmined, existing, hexisting, heq⟩ := h
      exact .inl ⟨tx, htx, by simpa using hsys, mined, hmined, existing, hexisting, heq⟩
    · exact .inr ⟨tx, htx, by simpa using hsys, h⟩
  · rintro (⟨tx, htx, hsys, mined, hmined, existing, hexisting, heq⟩ | ⟨tx, htx, hsys, h⟩)
    · exact ⟨tx, htx, by simpa using hsys, .inl ⟨mined, hmined, existing, hexisting, heq⟩⟩
    · exact ⟨tx, htx, by simpa using hsys, .inr h⟩

theorem getLatestBlock_eq (s : Blockchain) :
    s.getLatestBlock = blockAt s.chain (s.chain.length - 1) :=
  (blockAt_length_sub_one s.chain_ne_nil).symm

/-- The pool keeps the transactions whose hash is not in the block. -/
theorem purgePending_eq (pool : List Transaction) (b : Block) :
    purgePending pool b = pool.filter fun tx =>
      decide (∀ included ∈ b.transactions, included.calculateHash ≠ tx.calculateHash) := by
  unfold purgePending
  split_ifs with h
  · simp [h]
  · refine List.filter_congr fun tx _ => ?_
    rw [Bool.eq_iff_iff]
    simp

theorem mem_purgePending {pool : List Transaction} {b : Block} {tx : Transaction} :
    tx ∈ purgePending pool b ↔
      tx ∈ pool ∧ ∀ included ∈ b.transactions, included.calculateHash ≠ tx.calculateHash := by
  rw [purgePending_eq, List.mem_filter, decide_eq_true_eq]

/-- A block that passes every check is appended. -/
theorem addBlock_of_fits {s : Blockchain} {b : Block}
    (hfits : Fits s.chain s.difficulty s.miningReward b)
    (hpool : ¬ PaymentPending s.pendingTransactions b) :
    s.addBlock (some b) = (s.pushBlock b (purgePending s.pendingTransactions b), true) := by
  obtain ⟨hindex, ⟨hvalid, hlinked, hordered⟩, hunmined, hrewarded⟩ := hfits
  have hnew : ¬ (b.transactions.any fun tx => !tx.isSystem && s.transactionExists tx) = true := by
    rw [any_transactionExists_iff]
    tauto
  rw [← getLatestBlock_eq] at hlinked hordered
  rw [← hindex] at hvalid
  simp only [addBlock, hindex, ne_eq, not_true_eq_false, ↓reduceIte, hlinked]
  rw [if_neg (Int64.not_lt.mpr hordered), ← hindex, hvalid, if_neg (by simp), if_neg hnew,
    if_neg (not_not.mpr (countRewards_eq_one_iff.mpr hrewarded))]

/-- A block that fails a check leaves the state alone. -/
theorem addBlock_of_not_fits {s : Blockchain} {b : Block}
    (h : ¬ (Fits s.chain s.difficulty s.miningReward b ∧
      ¬ PaymentPending s.pendingTransactions b)) :
    s.addBlock (some b) = (s, false) := by
  unfold addBlock
  dsimp only
  split_ifs with hindex hlinked hordered hvalid hnew hrewarded
  · rfl
  · rfl
  · rfl
  · rfl
  · rfl
  · rfl
  · rw [not_not] at hindex hlinked hrewarded
    rw [any_transactionExists_iff, not_or, not_not] at hnew
    rw [getLatestBlock_eq] at hlinked hordered
    refine absurd ⟨⟨hindex, ⟨?_, hlinked, Int64.not_lt.mp hordered⟩, hnew.1,
      countRewards_eq_one_iff.mp hrewarded⟩, hnew.2⟩ h
    rw [← hindex]
    simpa using hvalid

theorem addBlock_accepts_iff {s : Blockchain} {b : Block} :
    (s.addBlock (some b)).2 = true ↔
      Fits s.chain s.difficulty s.miningReward b ∧
        ¬ PaymentPending s.pendingTransactions b := by
  by_cases h : Fits s.chain s.difficulty s.miningReward b ∧
      ¬ PaymentPending s.pendingTransactions b
  · simp [addBlock_of_fits h.1 h.2, h]
  · simp [addBlock_of_not_fits h, h]

/-- The two outcomes of `addBlock`. -/
theorem addBlock_cases (s : Blockchain) (block : Option Block) :
    s.addBlock block = (s, false) ∨
      ∃ b, block = some b ∧ Fits s.chain s.difficulty s.miningReward b ∧
        ¬ PaymentPending s.pendingTransactions b ∧
        s.addBlock block = (s.pushBlock b (purgePending s.pendingTransactions b), true) := by
  cases block with
  | none => exact .inl rfl
  | some b =>
    by_cases h : Fits s.chain s.difficulty s.miningReward b ∧
        ¬ PaymentPending s.pendingTransactions b
    · exact .inr ⟨b, rfl, h.1, h.2, addBlock_of_fits h.1 h.2⟩
    · exact .inl (addBlock_of_not_fits h)

/-! ### Blocks at difficulty zero

At difficulty zero every hash will do, so chains can be built without a search. -/

/-- A block of difficulty zero on top of a chain, with the first nonce. -/
def assemble (chain : List Block) (timestamp : Int64) (txs : List Transaction) : Block :=
  ((Block.create (Int32.ofNat chain.length) (blockAt chain (chain.length - 1)).hash 0
    timestamp).setTransactions txs).firstNonce

/-- A reward of 50 coins. -/
def rewardTo (address : Bytes) (timestamp : Int64) : Transaction :=
  Transaction.create Transaction.system address (money.coins 50) timestamp 1

/-- The state that the constructor reaches at difficulty zero. -/
def fresh (initialReward : money.Amount) (now : Int64) : Blockchain :=
  let genesis := (Block.create 0 (ascii "0") 0 now).firstNonce
  ⟨[genesis], [], 0, initialReward, updateBalances [genesis], by simp⟩

theorem construct_zero (initialReward : money.Amount) (now : Int64) :
    construct 0 initialReward now = some (fresh initialReward now) := by
  have hmine := Block.mineBlock_of_difficulty_zero (b := Block.create 0 (ascii "0") 0 now) rfl
  rw [construct, createGenesisBlock, hmine]
  rfl

theorem isValidWithDifficulty_firstNonce {b : Block} (hd : b.difficulty = 0) (hb : b.Unmined) :
    b.firstNonce.isValidWithDifficulty 0 = true :=
  Block.isValidWithDifficulty_iff.mpr
    ⟨hd, (Block.mineBlock_spec (Block.mineBlock_of_difficulty_zero hd)).2 hb⟩

theorem isChainValid_fresh (initialReward : money.Amount) (now : Int64) :
    isChainValid (fresh initialReward now).chain 0 = true :=
  isChainValid_iff.mpr (.single
    (isValidWithDifficulty_firstNonce rfl (Block.unmined_create 0 (ascii "0") 0 now)))

/-- Below the first adjustment the initial difficulty is required. -/
theorem calculateRequiredDifficultyAtHeight_of_lt {n : ℕ} (h : n < 10) (chain : List Block)
    (difficulty : Int32) :
    calculateRequiredDifficultyAtHeight chain difficulty (Int32.ofNat n) = difficulty := by
  refine if_pos ?_
  have hle := toInt_ofNat_le n
  rw [Int32.lt_iff_toInt_lt, show DIFFICULTY_ADJUSTMENT_INTERVAL.toInt = 10 from rfl]
  omega

theorem extends_assemble_of_required {chain : List Block} {timestamp : Int64}
    {txs : List Transaction}
    (hrequired : calculateRequiredDifficultyAtHeight chain 0 (Int32.ofNat chain.length) = 0)
    (hvalid : ∀ tx ∈ txs, tx.isValid = true)
    (htime : (blockAt chain (chain.length - 1)).timestamp ≤ timestamp) :
    Extends 0 chain (assemble chain timestamp txs) := by
  refine ⟨?_, rfl, htime⟩
  rw [hrequired]
  exact isValidWithDifficulty_firstNonce rfl ⟨rfl, hvalid⟩

theorem extends_assemble {chain : List Block} {timestamp : Int64} {txs : List Transaction}
    (hlow : chain.length < 10) (hvalid : ∀ tx ∈ txs, tx.isValid = true)
    (htime : (blockAt chain (chain.length - 1)).timestamp ≤ timestamp) :
    Extends 0 chain (assemble chain timestamp txs) :=
  extends_assemble_of_required (calculateRequiredDifficultyAtHeight_of_lt hlow chain 0) hvalid htime

/-- A block of valid transactions with one reward fits a fresh chain. -/
theorem fits_assemble_fresh (initialReward : money.Amount) (now timestamp : Int64)
    {txs : List Transaction} (hvalid : ∀ tx ∈ txs, tx.isValid = true) (htime : now ≤ timestamp)
    (hreward : RewardedOnce initialReward txs) :
    Fits (fresh initialReward now).chain 0 initialReward
      (assemble (fresh initialReward now).chain timestamp txs) where
  index_eq := rfl
  extends_chain := extends_assemble (by simp [fresh]) hvalid htime
  unmined := by simp [Unmined, fresh, Block.firstNonce, Block.create, Block.calculateMerkleRoot]
  rewarded := hreward

/-! ### Soundness and atomicity -/

/-- Acceptance appends the block to a chain that stays valid and drops its transactions from the
pool; rejection changes nothing. -/
theorem addBlock_sound_and_atomic (s : Blockchain) (block : Option Block)
    (hvalid : isChainValid s.chain s.difficulty = true) :
    ((s.addBlock block).2 = true → ∃ b, block = some b ∧
      (s.addBlock block).1.chain = s.chain ++ [b] ∧
      isChainValid (s.addBlock block).1.chain (s.addBlock block).1.difficulty = true ∧
      (s.addBlock block).1.pendingTransactions = s.pendingTransactions.filter fun tx =>
        decide (∀ included ∈ b.transactions, included.calculateHash ≠ tx.calculateHash)) ∧
    ((s.addBlock block).2 = false → (s.addBlock block).1 = s) := by
  rcases s.addBlock_cases block with h | ⟨b, rfl, hfits, hpool, h⟩
  · rw [h]
    exact ⟨fun h => (Bool.false_ne_true h).elim, fun _ => rfl⟩
  · rw [h]
    refine ⟨fun _ => ⟨b, rfl, rfl, ?_, ?_⟩, fun h => (Bool.false_ne_true h.symm).elim⟩
    · exact (isChainValid_concat_iff s.chain_ne_nil).mpr ⟨hvalid, hfits.extends_chain⟩
    · exact purgePending_eq s.pendingTransactions b

/-- The first block on a fresh chain is accepted, so the chain with it is valid. -/
theorem addBlock_sound_and_atomic_first : isChainValid
    ((fresh (money.coins 50) 0).addBlock
      (some (assemble (fresh (money.coins 50) 0).chain 0 [rewardTo (ascii "bob") 0]))).1.chain 0 =
    true := by
  have hreward : ∀ tx ∈ [rewardTo (ascii "bob") 0], tx.isValid = true := by decide
  have hfits := fits_assemble_fresh (money.coins 50) 0 0 hreward (by decide) ⟨_, rfl, rfl⟩
  have haccept := addBlock_of_fits hfits (not_paymentPending_nil _)
  obtain ⟨_, _, _, hvalid, _⟩ := (addBlock_sound_and_atomic (fresh (money.coins 50) 0) _
    (isChainValid_fresh _ _)).1 (congrArg Prod.snd haccept)
  rw [haccept] at hvalid ⊢
  exact hvalid

/-! ### Two pools -/

/-- The state with another pool. -/
def withPool (s : Blockchain) (pool : List Transaction) : Blockchain :=
  { s with pendingTransactions := pool }

/-- `addBlock` treats the pools `p` and `q` alike, and leaves no transaction of an accepted block
behind in either. -/
def PoolIndependent (s : Blockchain) (p q : List Transaction) (b : Block) : Prop :=
  ((s.withPool p).addBlock (some b)).2 = ((s.withPool q).addBlock (some b)).2 ∧
  ((s.withPool p).addBlock (some b)).1.chain = ((s.withPool q).addBlock (some b)).1.chain ∧
  ((s.withPool p).addBlock (some b)).1.balances = ((s.withPool q).addBlock (some b)).1.balances ∧
  ∀ pool ∈ [p, q], ((s.withPool pool).addBlock (some b)).2 = true →
    ∀ tx ∈ b.transactions,
      ∀ pending ∈ ((s.withPool pool).addBlock (some b)).1.pendingTransactions,
        tx.calculateHash ≠ pending.calculateHash

section Pools

variable {s : Blockchain} {pool : List Transaction} {b : Block}

theorem addBlock_withPool_of_fits (hfits : Fits s.chain s.difficulty s.miningReward b)
    (hpool : ¬ PaymentPending pool b) :
    (s.withPool pool).addBlock (some b) = (s.pushBlock b (purgePending pool b), true) :=
  addBlock_of_fits (s := s.withPool pool) hfits hpool

theorem addBlock_withPool_of_not_fits
    (h : ¬ (Fits s.chain s.difficulty s.miningReward b ∧ ¬ PaymentPending pool b)) :
    (s.withPool pool).addBlock (some b) = (s.withPool pool, false) :=
  addBlock_of_not_fits (s := s.withPool pool) h

theorem addBlock_withPool_accepts_iff : ((s.withPool pool).addBlock (some b)).2 = true ↔
    Fits s.chain s.difficulty s.miningReward b ∧ ¬ PaymentPending pool b :=
  addBlock_accepts_iff (s := s.withPool pool)

/-- An accepted block leaves none of its transactions behind, whatever the pool. -/
theorem addBlock_withPool_purges (haccept : ((s.withPool pool).addBlock (some b)).2 = true) :
    ∀ tx ∈ b.transactions,
      ∀ pending ∈ ((s.withPool pool).addBlock (some b)).1.pendingTransactions,
        tx.calculateHash ≠ pending.calculateHash := by
  intro tx htx pending hpending
  obtain ⟨hfits, hpool⟩ := addBlock_withPool_accepts_iff.mp haccept
  rw [addBlock_withPool_of_fits hfits hpool] at hpending
  exact (mem_purgePending.mp hpending).2 tx htx

end Pools

/-- Two pools are treated alike exactly when the block does not fit the chain anyway or both hold
a payment of it or neither does. -/
theorem addBlock_pool_independent_iff (s : Blockchain) (p q : List Transaction) (b : Block) :
    PoolIndependent s p q b ↔
      (Fits s.chain s.difficulty s.miningReward b → (PaymentPending p b ↔ PaymentPending q b)) := by
  constructor
  · rintro ⟨hsame, -⟩ hfits
    have hverdict (pool : List Transaction) :
        ((s.withPool pool).addBlock (some b)).2 = true ↔
          Fits s.chain s.difficulty s.miningReward b ∧ ¬ PaymentPending pool b :=
      addBlock_withPool_accepts_iff
    have hp := hverdict p
    rw [hsame, hverdict q] at hp
    tauto
  · intro h
    by_cases hacc : Fits s.chain s.difficulty s.miningReward b ∧ ¬ PaymentPending p b
    · have hp := addBlock_withPool_of_fits hacc.1 hacc.2
      have hq := addBlock_withPool_of_fits hacc.1 (mt (h hacc.1).mpr hacc.2)
      refine ⟨?_, ?_, ?_, fun pool _ => addBlock_withPool_purges⟩
      · rw [hp, hq]
      · rw [hp, hq]
        rfl
      · rw [hp, hq]
        rfl
    · have hp := addBlock_withPool_of_not_fits hacc
      have hq : (s.withPool q).addBlock (some b) = (s.withPool q, false) :=
        addBlock_withPool_of_not_fits (by tauto)
      refine ⟨?_, ?_, ?_, fun pool _ => addBlock_withPool_purges⟩
      · rw [hp, hq]
      · rw [hp, hq]
        rfl
      · rw [hp, hq]
        rfl

/-- A block with a payment is accepted by a fresh node but not by one whose pool holds the
payment. -/
theorem addBlock_depends_on_pool : ¬ PoolIndependent (fresh (money.coins 50) 0) [paymentToBob] []
    (assemble (fresh (money.coins 50) 0).chain 1
      [paymentToBob, rewardTo (ascii "miner") 1]) := by
  rintro ⟨hsame, -⟩
  have hvalid : ∀ tx ∈ [paymentToBob, rewardTo (ascii "miner") 1], tx.isValid = true := by
    simp only [List.forall_mem_cons, isValid_paymentToBob]
    decide
  have hfits := fits_assemble_fresh (money.coins 50) 0 1 hvalid (by decide) ⟨_, rfl, rfl⟩
  have hpending : PaymentPending [paymentToBob]
      (assemble (fresh (money.coins 50) 0).chain 1 [paymentToBob, rewardTo (ascii "miner") 1]) :=
    ⟨paymentToBob, List.mem_cons_self, by decide, paymentToBob, List.mem_cons_self, rfl⟩
  have haccept := addBlock_withPool_of_fits hfits (not_paymentPending_nil _)
  have hreject := addBlock_withPool_of_not_fits (s := fresh (money.coins 50) 0)
    fun h => h.2 hpending
  rw [haccept, hreject] at hsame
  cases hsame

end Blockchain

end BlockchainCrypto
