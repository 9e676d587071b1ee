import BlockchainCrypto.Core.Block
import BlockchainCrypto.Theory.Accounts

/-!
# The blockchain

The state of `Blockchain.cpp` and its operations. The clock, the salt of a new transaction and the
arguments of a caller are parameters. Balances are exact integers, and transactions are values:
what another owner of a shared pointer does to a pending transaction is not modelled.

Functions of the source that the loader runs on a chain it has not adopted yet take the chain and
the difficulty instead of the whole state.

## Main definitions

* `Blockchain`: chain, pool, parameters and balance cache; the chain is never empty.
* `Blockchain.calculateRequiredDifficultyAtHeight`, `Blockchain.isChainValid`.
* `Blockchain.construct`, `Blockchain.addTransaction`, `Blockchain.minePendingTransactions`,
  `Blockchain.addBlock`: the operations.
-/

namespace BlockchainCrypto

open ByteText

/-- A chain with its pool, its parameters and the balances that it caches. The constructor and every
operation leave at least one block in it. -/
@[ext]
structure Blockchain where
  chain : List Block
  pendingTransactions : List Transaction
  difficulty : Int32
  miningReward : money.Amount
  balances : Accounts.Book Bytes
  chain_ne_nil : chain ≠ []

namespace Blockchain

/-- The blocks over which the time for an adjustment of the difficulty is taken. -/
def DIFFICULTY_ADJUSTMENT_INTERVAL : Int32 := 10

/-- In seconds. -/
def TARGET_BLOCK_TIME : Int64 := 30

/-- The default difficulty of the constructor. -/
def INITIAL_DIFFICULTY : Int32 := 2

/-- The default reward of the constructor. -/
def INITIAL_MINING_REWARD : money.Amount := money.coins 50

/-! ### Difficulty -/

/-- The block at a position; the default stands for a read out of bounds, which no caller makes. -/
def blockAt (chain : List Block) (i : ℕ) : Block := chain.getD i (Block.create 0 [] 0 0)

/-- The difficulty required at `height`, from the timing of the blocks below it. -/
def calculateRequiredDifficultyAtHeight (chain : List Block) (difficulty height : Int32) : Int32 :=
  if height < DIFFICULTY_ADJUSTMENT_INTERVAL then difficulty
  else
    let intervalStart := blockAt chain (height - DIFFICULTY_ADJUSTMENT_INTERVAL).toInt.toNat
    let previous := blockAt chain (height - 1).toInt.toNat
    let expected := TARGET_BLOCK_TIME * DIFFICULTY_ADJUSTMENT_INTERVAL.toInt64
    let actual := previous.timestamp - intervalStart.timestamp
    let current := previous.difficulty
    if actual < expected / 2 then current + 1
    else if actual > expected * 2 then max 1 (current - 1)
    else current

/-- The difficulty that the next block must have. -/
def calculateRequiredDifficulty (s : Blockchain) : Int32 :=
  calculateRequiredDifficultyAtHeight s.chain s.difficulty (Int32.ofNat s.chain.length)

/-- The block has the difficulty that is required at its height. -/
def validateBlockDifficulty (s : Blockchain) (block : Block) : Bool :=
  block.difficulty == calculateRequiredDifficultyAtHeight s.chain s.difficulty block.index

/-! ### Validation of a whole chain -/

/-- The loop body of `isChainValid` at position `i`. -/
def isLinkValid (chain : List Block) (difficulty : Int32) (i : ℕ) : Bool :=
  let currentBlock := blockAt chain i
  let previousBlock := blockAt chain (i - 1)
  let requiredDifficulty := calculateRequiredDifficultyAtHeight chain difficulty (Int32.ofNat i)
  if !currentBlock.isValidWithDifficulty requiredDifficulty then false
  else if currentBlock.previousHash ≠ previousBlock.hash then false
  else if currentBlock.timestamp < previousBlock.timestamp then false
  else true

/-- The first block is valid at the given difficulty, and each further one is linked to the one
before it. -/
def isChainValid (chain : List Block) (difficulty : Int32) : Bool :=
  if chain.length < 1 then false
  else if !(blockAt chain 0).isValidWithDifficulty difficulty then false
  else (List.range' 1 (chain.length - 1)).all (isLinkValid chain difficulty)

/-! ### Balances -/

/-- The loop body of `updateBalances`: credit the receiver, and debit the sender unless it is the
mint. -/
def applyTransaction (balances : Accounts.Book Bytes) (tx : Transaction) : Accounts.Book Bytes :=
  let balances := balances.post tx.receiver tx.amount.toInt
  if tx.isSystem then balances else balances.post tx.sender (-tx.amount.toInt)

/-- The balances of a chain, replayed from the start. -/
def updateBalances (chain : List Block) : Accounts.Book Bytes :=
  chain.foldl (fun balances block => block.transactions.foldl applyTransaction balances) ∅

/-- The cached balance, zero for an address that is not in the cache. -/
def getBalance (s : Blockchain) (address : Bytes) : ℤ := s.balances.balance address

/-- What the pooled transactions of a sender add up to. -/
def pendingOutflow (s : Blockchain) (address : Bytes) : ℤ :=
  s.pendingTransactions.foldl
    (fun outflow tx => if tx.sender = address then outflow + tx.amount.toInt else outflow) 0

/-! ### Operations -/

/-- The tip of the chain. -/
def getLatestBlock (s : Blockchain) : Block := s.chain.getLast s.chain_ne_nil

/-- Whether the chain or the pool holds a transaction of the same hash. -/
def transactionExists (s : Blockchain) (tx : Transaction) : Bool :=
  let txHash := tx.calculateHash
  (s.chain.any fun block => block.transactions.any fun existing =>
    existing.calculateHash == txHash) ||
  s.pendingTransactions.any fun pending => pending.calculateHash == txHash

/-- The first block, which is mined without transactions. -/
def createGenesisBlock (difficulty : Int32) (now : Int64) : Option Block :=
  (Block.create 0 (ascii "0") difficulty now).mineBlock

/-- The constructor; there is no result when the search for the genesis nonce does not end. -/
def construct (initialDifficulty : Int32) (initialReward : money.Amount) (now : Int64) :
    Option Blockchain := do
  let genesis ← createGenesisBlock initialDifficulty now
  pure ⟨[genesis], [], initialDifficulty, initialReward, updateBalances [genesis], by simp⟩

/-- The default constructor. -/
def constructDefault (now : Int64) : Option Blockchain :=
  construct INITIAL_DIFFICULTY INITIAL_MINING_REWARD now

/-- The reward of the blocks that are mined from now on; any number is taken. -/
def setMiningReward (s : Blockchain) (reward : money.Amount) : Blockchain :=
  { s with miningReward := reward }

/-- A transaction joins the pool when it is valid, new, and covered by what its sender has free;
system transactions need no cover. -/
def addTransaction (s : Blockchain) (tx : Transaction) : Blockchain :=
  if !tx.isValid then s
  else if s.transactionExists tx then s
  else if ¬ tx.isSystem ∧
      s.getBalance tx.sender - s.pendingOutflow tx.sender < tx.amount.toInt then s
  else { s with pendingTransactions := s.pendingTransactions ++ [tx] }

/-- `chain.push_back` with the balances brought up to date. -/
def pushBlock (s : Blockchain) (block : Block) (pool : List Transaction) : Blockchain where
  chain := s.chain ++ [block]
  pendingTransactions := pool
  difficulty := s.difficulty
  miningReward := s.miningReward
  balances := updateBalances (s.chain ++ [block])
  chain_ne_nil := by simp

/-- The block that `minePendingTransactions` starts from, with the pool packed into it. -/
def packPending (s : Blockchain) (blockTime : Int64) : Block :=
  (Block.create (Int32.ofNat s.chain.length) s.getLatestBlock.hash s.calculateRequiredDifficulty
    blockTime).addTransactions s.pendingTransactions

/-- The reward transaction of a mining step. -/
def rewardTransaction (s : Blockchain) (rewardAddress : Bytes) (txTime : Int64)
    (txNonce : UInt64) : Transaction :=
  Transaction.create Transaction.system rewardAddress s.miningReward txTime txNonce

/-- Mining reads the clock for the block and again for the reward, and draws the salt of the
reward. There is no result when the search for a nonce does not end. -/
def minePendingTransactions (s : Blockchain) (rewardAddress : Bytes) (blockTime txTime : Int64)
    (txNonce : UInt64) : Option Blockchain :=
  let (newBlock, appended) :=
    (s.packPending blockTime).addTransaction (s.rewardTransaction rewardAddress txTime txNonce)
  if !appended then some s
  else do
    let newBlock ← newBlock.mineBlock
    if !s.validateBlockDifficulty newBlock then pure s else pure (s.pushBlock newBlock [])

/-- The reward loop of `addBlock` from a count on: the number of system transactions, or nothing
when one of them has the wrong amount. -/
def countRewards (miningReward : money.Amount) : ℕ → List Transaction → Option ℕ
  | systemTxCount, [] => some systemTxCount
  | systemTxCount, tx :: txs =>
    if tx.isSystem then
      if tx.amount ≠ miningReward then none else countRewards miningReward (systemTxCount + 1) txs
    else countRewards miningReward systemTxCount txs

/-- The pool without the transactions of an accepted block. -/
def purgePending (pool : List Transaction) (block : Block) : List Transaction :=
  if pool = [] then pool
  else
    let included := block.transactions.map Transaction.calculateHash
    pool.filter fun tx => !included.contains tx.calculateHash

/-- The new state, and whether the block was accepted; `none` is the null pointer. -/
def addBlock (s : Blockchain) : Option Block → Blockchain × Bool
  | none => (s, false)
  | some block =>
    let tip := s.getLatestBlock
    if block.index ≠ Int32.ofNat s.chain.length then (s, false)
    else if block.previousHash ≠ tip.hash then (s, false)
    else if block.timestamp < tip.timestamp then (s, false)
    else if !block.isValidWithDifficulty
        (calculateRequiredDifficultyAtHeight s.chain s.difficulty block.index) then (s, false)
    else if block.transactions.any fun tx => !tx.isSystem && s.transactionExists tx then (s, false)
    else if countRewards s.miningReward 0 block.transactions ≠ some 1 then (s, false)
    else (s.pushBlock block (purgePending s.pendingTransactions block), true)

end Blockchain

end BlockchainCrypto
