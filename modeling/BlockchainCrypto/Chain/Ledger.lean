import BlockchainCrypto.Chain.Supply

/-!
# Pool, chain and ledger

Transactions enter the pool when they are admitted, and leave it when they are mined, received in a
block, or dropped with a load. In every history, changes of the mining reward included, the pool has
no two transactions of one hash and none that is in the chain, and the balance cache is the ledger
of the chain: what an address has received less what it has sent, where the mint does not pay.

## Main definitions

* `Blockchain.Command`: the operations and `setMiningReward`.
* `Blockchain.commanded`: the histories of a node under commands.
* `Blockchain.ledger`: the balances that the transactions of a chain amount to.

## Main results

* `Blockchain.pool_distinct_and_unmined`: pool and chain stay disjoint.
* `Blockchain.getBalance_eq_ledger`: the cache is the ledger, and its total is what was minted.
-/

namespace BlockchainCrypto

open ByteText Accounts

namespace Blockchain

/-! ### Commands -/

/-- One of the operations, or a new mining reward. -/
inductive Command where
  | operation (op : Operation)
  | setMiningReward (reward : money.Amount)

/-- The state after a command; there is none when the operation does not return. -/
def Command.run (s : Blockchain) : Command → Option Blockchain
  | operation op => op.run s
  | setMiningReward reward => some (s.setMiningReward reward)

/-- The histories of a node constructed with difficulty `d` and reward `r`. -/
def commanded (d : Int32) (r : money.Amount) : Runs.System Blockchain Command where
  init s := ∃ now, construct d r now = some s
  step s command s' := command.run s = some s'

section Reachable

variable {d : Int32} {r : money.Amount} {ok : Blockchain → Command → Prop} {s : Blockchain}

/-- One more command. -/
theorem commanded_of_run {s' : Blockchain} (hs : (commanded d r).Reachable ok s)
    (command : Command) (hok : ok s command) (h : command.run s = some s') :
    (commanded d r).Reachable ok s' := .step hs hok h

/-- The invariants do not look at the reward. -/
theorem Coherent.setMiningReward (h : Coherent s) (reward : money.Amount) :
    Coherent (s.setMiningReward reward) :=
  ⟨h.pool_valid, h.pool_nodup, h.pool_unmined, h.balances_eq⟩

theorem coherent_of_commanded (h : (commanded d r).Reachable ok s) : Coherent s := by
  refine h.invariant Coherent ?_ fun s command s' _ hs _ hstep => ?_
  · rintro s ⟨now, hs⟩
    exact coherent_of_construct hs
  · cases command with
    | operation op => exact hs.of_effect (effect_of_run hstep)
    | setMiningReward reward =>
      obtain rfl := Option.some.inj hstep
      exact hs.setMiningReward reward

end Reachable

/-! ### Pool and chain -/

/-- In every history the hashes of the pending transactions differ, and none of them is the hash of
a transaction in the chain. -/
theorem pool_distinct_and_unmined {d : Int32} {r : money.Amount} {s : Blockchain}
    (h : (commanded d r).Reachable (fun _ _ => True) s) :
    s.pendingTransactions.Pairwise (fun tx tx' => tx.calculateHash ≠ tx'.calculateHash) ∧
      ∀ tx ∈ s.pendingTransactions, ∀ b ∈ s.chain, ∀ mined ∈ b.transactions,
        mined.calculateHash ≠ tx.calculateHash := by
  have hs := coherent_of_commanded h
  exact ⟨List.pairwise_map.mp hs.pool_nodup, hs.pool_unmined⟩

/-- A reward is pending, after a change of the mining reward. -/
theorem pool_distinct_and_unmined_stray :
    let s := ((fresh (money.coins 50) 0).setMiningReward 7).addTransaction
      (rewardTo (ascii "alice") 0)
    s.pendingTransactions.Pairwise (fun tx tx' => tx.calculateHash ≠ tx'.calculateHash) ∧
      ∀ tx ∈ s.pendingTransactions, ∀ b ∈ s.chain, ∀ mined ∈ b.transactions,
        mined.calculateHash ≠ tx.calculateHash := by
  have hset : (commanded 0 (money.coins 50)).Reachable (fun _ _ => True)
      ((fresh (money.coins 50) 0).setMiningReward 7) :=
    commanded_of_run (.init ⟨0, construct_zero _ _⟩) (.setMiningReward 7) trivial rfl
  exact pool_distinct_and_unmined
    (commanded_of_run hset (.operation (.addTransaction (rewardTo (ascii "alice") 0))) trivial rfl)

/-! ### The ledger -/

/-- The transactions of a chain, in order. -/
def transactions (chain : List Block) : List Transaction := chain.flatMap Block.transactions

/-- What an address has received less what it has sent; nothing is subtracted for the mint. -/
def ledger (chain : List Block) (a : Bytes) : ℤ :=
  inflow (transactions chain) a -
    if a = Transaction.system then 0 else outflow (transactions chain) a

/-- The mint is posted what it receives. -/
theorem posted_postings_system (txs : List Transaction) :
    posted (txs.flatMap Transaction.postings) Transaction.system =
      inflow txs Transaction.system := by
  induction txs with
  | nil => rfl
  | cons tx txs ih =>
    have hone : posted tx.postings Transaction.system =
        if tx.receiver = Transaction.system then tx.amount.toInt else 0 := by
      by_cases hs : tx.isSystem
      · rw [Transaction.postings, if_pos hs, posted_cons, posted_nil, add_zero]
      · have hne : tx.sender ≠ Transaction.system := hs
        rw [Transaction.postings, if_neg hs, posted_cons, posted_cons, posted_nil, if_neg hne,
          add_zero, add_zero]
    rw [List.flatMap_cons, posted_append, ih, hone]
    simp only [inflow, List.map_cons, List.sum_cons]

theorem flatMap_postings (chain : List Block) :
    chain.flatMap Block.postings = (transactions chain).flatMap Transaction.postings := by
  rw [transactions, List.flatMap_assoc]
  rfl

/-- The replay of a chain is its ledger. -/
theorem balance_updateBalances (chain : List Block) (a : Bytes) :
    (updateBalances chain).balance a = ledger chain a := by
  rw [updateBalances_eq, Book.balance_postAll, Book.balance_empty, zero_add, flatMap_postings,
    ledger]
  split_ifs with ha
  · rw [ha, posted_postings_system, sub_zero]
  · exact posted_postings ha _

theorem total_updateBalances (chain : List Block) :
    (updateBalances chain).total = mintedBy (transactions chain) := by
  rw [updateBalances_eq, Book.total_postAll, Book.total_empty, zero_add, flatMap_postings,
    sum_postings]

/-- In every history the balance of an address is what the transactions of the chain have paid to it
less what it has paid, and all balances together are the coins that the mint has paid. -/
theorem getBalance_eq_ledger {d : Int32} {r : money.Amount} {s : Blockchain}
    (h : (commanded d r).Reachable (fun _ _ => True) s) :
    (∀ a, s.getBalance a = ledger s.chain a) ∧
      ∑ᶠ a, s.getBalance a = mintedBy (transactions s.chain) := by
  have hbalances := (coherent_of_commanded h).balances_eq
  constructor
  · intro a
    rw [getBalance, hbalances, balance_updateBalances]
  · simp only [getBalance]
    rw [Book.finsum_balance, hbalances, total_updateBalances]

/-- The ledger after the first mined block. -/
theorem getBalance_eq_ledger_first :
    (∀ a, (firstMined (ascii "miner") 5 6).getBalance a =
        ledger (firstMined (ascii "miner") 5 6).chain a) ∧
      ∑ᶠ a, (firstMined (ascii "miner") 5 6).getBalance a =
        mintedBy (transactions (firstMined (ascii "miner") 5 6).chain) :=
  getBalance_eq_ledger (commanded_of_run (.init ⟨0, construct_zero _ _⟩)
    (.operation (.minePendingTransactions (ascii "miner") 5 6 1)) trivial (mine_fresh (by decide)))

end Blockchain

end BlockchainCrypto
