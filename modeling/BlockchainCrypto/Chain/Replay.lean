import BlockchainCrypto.Chain.RoundTrip

/-!
# Receiving a loaded chain block by block

A chain that `loadFromFile` adopts has passed the rescan of `isChainValid`. A node that starts
from its genesis block and receives the other blocks through `addBlock` checks more: the index of
each block, its single reward, and that it replays no payment of the blocks below.

## Main definitions

* `Blockchain.genesisOnly`: the node that holds the genesis block alone.
* `Blockchain.receiveAll`: receiving blocks in order until one is rejected.

## Main results

* `Blockchain.receiveAll_accepts_iff`: all blocks are accepted when each fits the chain below it.
* `Blockchain.receiveAll_loaded_iff`: which adopted files are accepted block by block.
-/

namespace BlockchainCrypto

open ByteText

namespace Blockchain

/-- The node that holds only the genesis block of a chain, with the same parameters and an empty
pool. -/
def genesisOnly (s : Blockchain) : Blockchain :=
  let genesis := s.chain.head s.chain_ne_nil
  ⟨[genesis], [], s.difficulty, s.miningReward, updateBalances [genesis], by simp⟩

/-- Receive blocks in order, up to the first one that is rejected. -/
def receiveAll : Blockchain → List Block → Blockchain × Bool
  | s, [] => (s, true)
  | s, b :: bs =>
    match s.addBlock (some b) with
    | (s', true) => receiveAll s' bs
    | (s', false) => (s', false)

/-- With an empty pool every block is accepted when each fits the chain below it. -/
theorem receiveAll_accepts_iff {s : Blockchain} (hpool : s.pendingTransactions = [])
    (bs : List Block) :
    (s.receiveAll bs).2 = true ↔ ∀ i (hi : i < bs.length),
      Fits (s.chain ++ bs.take i) s.difficulty s.miningReward bs[i] := by
  induction bs generalizing s with
  | nil => simp [receiveAll]
  | cons b bs ih =>
    have hpending : ¬ PaymentPending s.pendingTransactions b := by
      rw [hpool]
      exact not_paymentPending_nil b
    rw [receiveAll]
    by_cases hfits : Fits s.chain s.difficulty s.miningReward b
    · have hpurged : (s.pushBlock b (purgePending s.pendingTransactions b)).pendingTransactions =
          [] := by
        rw [hpool]
        rfl
      rw [addBlock_of_fits hfits hpending]
      dsimp only
      rw [ih hpurged]
      refine ⟨fun h i hi => ?_, fun h i hi => ?_⟩
      · cases i with
        | zero => simpa using hfits
        | succ i => simpa [pushBlock] using h i (by simpa using hi)
      · have hnext : Fits (s.chain ++ (b :: bs).take (i + 1)) s.difficulty s.miningReward bs[i] :=
          h (i + 1) (by simpa using hi)
        simpa [pushBlock] using hnext
    · rw [addBlock_of_not_fits fun h => hfits h.1]
      refine ⟨fun h => (Bool.false_ne_true h).elim, fun h => ?_⟩
      have hfirst : Fits (s.chain ++ []) s.difficulty s.miningReward b := h 0 (by simp)
      exact absurd (by simpa using hfirst) hfits

/-- What `addBlock` checks of a block beyond the rescan of the chain. -/
structure ReceiptRules (chain : List Block) (miningReward : money.Amount) (b : Block) : Prop where
  index_eq : b.index = Int32.ofNat chain.length
  unmined : Unmined chain b
  rewarded : RewardedOnce miningReward b.transactions

theorem fits_iff {chain : List Block} {difficulty : Int32} {miningReward : money.Amount}
    {b : Block} : Fits chain difficulty miningReward b ↔
      Extends difficulty chain b ∧ ReceiptRules chain miningReward b :=
  ⟨fun h => ⟨h.extends_chain, h.index_eq, h.unmined, h.rewarded⟩,
    fun h => ⟨h.2.index_eq, h.1, h.2.unmined, h.2.rewarded⟩⟩

/-- A valid chain is accepted block by block when every block above genesis keeps the rules of
receipt. -/
theorem receiveAll_genesisOnly_iff {s : Blockchain}
    (hvalid : isChainValid s.chain s.difficulty = true) :
    (s.genesisOnly.receiveAll s.chain.tail).2 = true ↔ ∀ i (hi : i < s.chain.length), 0 < i →
      ReceiptRules (s.chain.take i) s.miningReward s.chain[i] := by
  have hgrown := (AppendLog.grown_iff.mp (isChainValid_iff.mp hvalid)).2
  rw [receiveAll_accepts_iff rfl]
  have hbelow (i : ℕ) : s.genesisOnly.chain ++ s.chain.tail.take i = s.chain.take (i + 1) := by
    obtain ⟨g, rest, hchain⟩ := List.exists_cons_of_ne_nil s.chain_ne_nil
    simp [genesisOnly, hchain]
  have hlength : s.chain.tail.length + 1 = s.chain.length := by
    have := List.length_pos_iff.mpr s.chain_ne_nil
    rw [List.length_tail]
    omega
  refine ⟨fun h i hi h0 => ?_, fun h i hi => ?_⟩
  · obtain ⟨i, rfl⟩ : ∃ j, i = j + 1 := ⟨i - 1, by omega⟩
    have hfits := h i (by omega)
    rw [hbelow, List.getElem_tail] at hfits
    exact (fits_iff.mp hfits).2
  · rw [hbelow, List.getElem_tail]
    exact fits_iff.mpr ⟨hgrown (i + 1) (by omega) (by omega), h (i + 1) (by omega) (by omega)⟩

theorem isChainValid_of_load {s : Blockchain} {file : Option Bytes}
    (haccept : (s.loadFromFile file).2 = true) :
    isChainValid (s.loadFromFile file).1.chain (s.loadFromFile file).1.difficulty = true := by
  obtain ⟨d, r, parsed, rest, -, hvalid, hload⟩ := loadFromFile_accepts haccept
  rw [hload]
  exact hvalid

/-- The blocks of an adopted file are accepted in order by a node that holds its genesis block
exactly when each keeps the rules of receipt: its index, its single reward, and no replayed
payment. -/
theorem receiveAll_loaded_iff (s : Blockchain) (file : Option Bytes)
    (haccept : (s.loadFromFile file).2 = true) :
    ((s.loadFromFile file).1.genesisOnly.receiveAll (s.loadFromFile file).1.chain.tail).2 = true ↔
      ∀ i (hi : i < (s.loadFromFile file).1.chain.length), 0 < i →
        ReceiptRules ((s.loadFromFile file).1.chain.take i) (s.loadFromFile file).1.miningReward
          (s.loadFromFile file).1.chain[i] :=
  receiveAll_genesisOnly_iff (isChainValid_of_load haccept)

/-- The file of a chain with one rewarded block is adopted, and the block is accepted on
receipt. -/
theorem receiveAll_loaded_first :
    (((fresh (money.coins 50) 0).loadFromFile
        (some (firstMined (ascii "miner") 5 6).saveToFile)).1.genesisOnly.receiveAll
      ((fresh (money.coins 50) 0).loadFromFile
        (some (firstMined (ascii "miner") 5 6).saveToFile)).1.chain.tail).2 = true := by
  have hload : (fresh (money.coins 50) 0).loadFromFile
      (some (firstMined (ascii "miner") 5 6).saveToFile) =
      ((firstMined (ascii "miner") 5 6).reloaded, true) :=
    loadFromFile_saveToFile _ (by decide)
      (safeFields_first (by decide)
        (List.forall_mem_singleton.mpr (safeFields_rewardTo (by decide))))
      (isChainValid_firstMined (by decide) (by decide))
  refine (receiveAll_loaded_iff _ _ (congrArg Prod.snd hload)).mpr ?_
  rw [hload]
  intro i hi h0
  obtain rfl : i = 1 := by
    have hlength : i < 2 := hi
    omega
  refine ⟨rfl, ?_, _, rfl, rfl⟩
  intro tx _ _ mined hmined existing hexisting
  rw [List.mem_singleton.mp hmined] at hexisting
  cases hexisting

/-- A fresh node with a block on top that brings no reward. -/
def unrewarded : Blockchain :=
  (fresh (money.coins 50) 0).pushBlock (assemble (fresh (money.coins 50) 0).chain 1 []) []

/-- The file of such a chain is adopted, but its block is rejected on receipt. -/
theorem unrewarded_block_loaded :
    ((fresh (money.coins 50) 0).loadFromFile (some unrewarded.saveToFile)).2 = true ∧
    (((fresh (money.coins 50) 0).loadFromFile (some unrewarded.saveToFile)).1.genesisOnly.receiveAll
      ((fresh (money.coins 50) 0).loadFromFile (some unrewarded.saveToFile)).1.chain.tail).2 =
    false := by
  have hvalid : isChainValid unrewarded.chain 0 = true :=
    (isChainValid_concat_iff (fresh (money.coins 50) 0).chain_ne_nil).mpr
      ⟨isChainValid_fresh _ _, extends_assemble (by simp [fresh]) (by simp) (by decide)⟩
  have hload : (fresh (money.coins 50) 0).loadFromFile (some unrewarded.saveToFile) =
      (unrewarded.reloaded, true) :=
    loadFromFile_saveToFile _ (by decide) (safeFields_first (by decide) (by simp)) hvalid
  rw [hload]
  refine ⟨rfl, ?_⟩
  rw [← Bool.not_eq_true]
  intro haccept
  have hrules := (receiveAll_genesisOnly_iff (s := unrewarded.reloaded) hvalid).mp haccept 1
    (by decide) (by decide)
  obtain ⟨tx, htx, -⟩ := hrules.rewarded
  cases htx

end Blockchain

end BlockchainCrypto
