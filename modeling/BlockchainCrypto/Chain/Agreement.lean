import BlockchainCrypto.Chain.Histories

/-!
# Mining against validation

A mined block is built by other code than the checks it has to pass. It passes the rescan of the
miner's own chain exactly when the clock has reached the timestamp of the tip, and it passes
`addBlock` on a peer with the same chain exactly when, in addition, no reward was waiting in the
pool.

## Main definitions

* `Blockchain.clockedNode`: histories over a clock that does not go back.
* `Blockchain.ClockReached`: mining does not start before the timestamp of the tip.

## Main results

* `Blockchain.MinedOn.extends_iff`, `Blockchain.MinedOn.fits_iff`.
* `Blockchain.mined_block_accepted_iff`: when a peer accepts a mined block.
* `Blockchain.isChainValid_of_clockReached`: the live chain stays valid.
-/

namespace BlockchainCrypto

open ByteText

namespace Blockchain

/-! ### Mined blocks -/

section Mined

variable {s : Blockchain} {rewardTx : Transaction} {blockTime : Int64} {b : Block}

/-- A mined block extends the chain exactly when it is not older than the tip. -/
theorem MinedOn.extends_iff (hb : s.MinedOn rewardTx blockTime b) :
    Extends s.difficulty s.chain b ↔ s.getLatestBlock.timestamp ≤ blockTime := by
  rw [getLatestBlock_eq]
  refine ⟨fun h => hb.timestamp_eq ▸ h.ordered, fun h => ⟨?_, ?_, ?_⟩⟩
  · exact Block.isValidWithDifficulty_iff.mpr ⟨hb.difficulty_eq, hb.valid⟩
  · rw [hb.previousHash_eq, getLatestBlock_eq]
  · rw [hb.timestamp_eq]
    exact h

/-- The transactions of a block that a node in a coherent state has mined. -/
theorem MinedOn.transactions_eq_pool (hb : s.MinedOn rewardTx blockTime b) (hs : Coherent s) :
    b.transactions = s.pendingTransactions ++ [rewardTx] := by
  rw [hb.transactions_eq, List.filter_eq_self.mpr hs.pool_valid]

theorem MinedOn.unmined (hb : s.MinedOn rewardTx blockTime b) (hs : Coherent s)
    (hsystem : rewardTx.isSystem) : Unmined s.chain b := by
  intro tx htx hpayment mined hmined existing hexisting
  rw [hb.transactions_eq_pool hs] at htx
  rcases List.mem_append.mp htx with htx | htx
  · exact hs.pool_unmined tx htx mined hmined existing hexisting
  · rw [List.mem_singleton.mp htx] at hpayment
    exact absurd hsystem hpayment

/-- A mined block carries a single reward exactly when none was waiting in the pool. -/
theorem MinedOn.rewarded_iff (hb : s.MinedOn rewardTx blockTime b) (hs : Coherent s)
    (hsystem : rewardTx.isSystem) (hamount : rewardTx.amount = s.miningReward) :
    RewardedOnce s.miningReward b.transactions ↔ ∀ tx ∈ s.pendingTransactions, ¬ tx.isSystem := by
  have hfilter : b.transactions.filter (·.isSystem) =
      s.pendingTransactions.filter (·.isSystem) ++ [rewardTx] := by
    rw [hb.transactions_eq_pool hs, List.filter_append, List.filter_cons_of_pos (by simpa)]
    rfl
  have hnil : (∀ tx ∈ s.pendingTransactions, ¬ tx.isSystem) ↔
      s.pendingTransactions.filter (·.isSystem) = [] := by
    rw [List.filter_eq_nil_iff]
    simp
  rw [hnil, RewardedOnce, hfilter]
  refine ⟨fun ⟨tx, htx, _⟩ => ?_, fun h => ⟨rewardTx, by rw [h, List.nil_append], hamount⟩⟩
  have hlength := congrArg List.length htx
  simp only [List.length_append, List.length_singleton] at hlength
  exact List.length_eq_zero_iff.mp (by omega)

theorem MinedOn.fits_iff (hb : s.MinedOn rewardTx blockTime b) (hs : Coherent s)
    (hsystem : rewardTx.isSystem) (hamount : rewardTx.amount = s.miningReward)
    (hclock : s.getLatestBlock.timestamp ≤ blockTime) :
    Fits s.chain s.difficulty s.miningReward b ↔
      ∀ tx ∈ s.pendingTransactions, ¬ tx.isSystem := by
  rw [← hb.rewarded_iff hs hsystem hamount]
  exact ⟨fun h => h.rewarded, fun h =>
    ⟨hb.index_eq, hb.extends_iff.mpr hclock, hb.unmined hs hsystem, h⟩⟩

end Mined

theorem pushBlock_chain_inj {s : Blockchain} {b b' : Block} {pool : List Transaction}
    (h : (s.pushBlock b pool).chain = s.chain ++ [b']) : b = b' := by
  simpa [pushBlock] using h

/-! ### Agreement with a peer -/

/-- A block that a node mined in any history without loading, at a clock that has reached the
tip, is accepted by a peer with the same chain and parameters and an empty pool exactly when the
pool held no system transaction. -/
theorem mined_block_accepted_iff {d : Int32} {r : money.Amount} {s s' peer : Blockchain}
    {rewardAddress : Bytes} {blockTime txTime : Int64} {txNonce : UInt64} {b : Block}
    (hs : (node d r).Reachable NoLoad s) (hclock : s.getLatestBlock.timestamp ≤ blockTime)
    (hmine : s.minePendingTransactions rewardAddress blockTime txTime txNonce = some s')
    (happend : s'.chain = s.chain ++ [b]) (hchain : peer.chain = s.chain)
    (hdifficulty : peer.difficulty = s.difficulty) (hreward : peer.miningReward = s.miningReward)
    (hpool : peer.pendingTransactions = []) :
    (peer.addBlock (some b)).2 = true ↔ ∀ tx ∈ s.pendingTransactions, ¬ tx.isSystem := by
  rcases mine_cases hmine with ⟨-, rfl⟩ | ⟨-, b', hb, rfl⟩
  · exact absurd happend (by simp)
  · obtain rfl := pushBlock_chain_inj happend
    rw [addBlock_accepts_iff, hchain, hdifficulty, hreward, hpool,
      and_iff_left (not_paymentPending_nil b')]
    exact hb.fits_iff (coherent_of_reachable hs) rfl rfl hclock

/-- The first block that a fresh node mines is accepted. -/
theorem mined_block_accepted_first :
    ((fresh (money.coins 50) 0).addBlock
      (some (assemble (fresh (money.coins 50) 0).chain 5 [rewardTo (ascii "miner") 6]))).2 =
    true :=
  (mined_block_accepted_iff (reachable_fresh (money.coins 50) 0 NoLoad) (by decide)
    (mine_fresh (by decide)) rfl rfl rfl rfl rfl).mpr (by simp [fresh])

/-- A fresh node to which a reward was submitted as if it were a payment. -/
def withStrayReward : Blockchain :=
  (fresh (money.coins 50) 0).addTransaction (rewardTo (ascii "alice") 0)

theorem withStrayReward_eq : withStrayReward =
    (fresh (money.coins 50) 0).withPool [rewardTo (ascii "alice") 0] := by
  have hvalid : (rewardTo (ascii "alice") 0).isValid = true := by decide
  have hunknown : (fresh (money.coins 50) 0).transactionExists (rewardTo (ascii "alice") 0) =
      false := rfl
  unfold withStrayReward addTransaction
  rw [hvalid, hunknown]
  simp only [Bool.not_true, Bool.false_eq_true, ↓reduceIte]
  exact if_neg fun h => h.1 rfl

theorem reachable_withStrayReward :
    (node 0 (money.coins 50)).Reachable NoLoad withStrayReward :=
  reachable_of_run (reachable_fresh (money.coins 50) 0 NoLoad)
    (.addTransaction (rewardTo (ascii "alice") 0)) trivial rfl

theorem mine_withStrayReward :
    withStrayReward.minePendingTransactions (ascii "miner") 5 6 1 = some
      (withStrayReward.pushBlock (assemble withStrayReward.chain 5
        [rewardTo (ascii "alice") 0, rewardTo (ascii "miner") 6]) []) := by
  rw [withStrayReward_eq]
  exact mine_of_difficulty_zero rfl (by decide) (by decide)

/-- The block that is mined from a pool with a stray reward is rejected by the peer. -/
theorem mined_block_rejected :
    (node 0 (money.coins 50)).Reachable NoLoad withStrayReward ∧
      withStrayReward.getLatestBlock.timestamp ≤ 5 ∧
      ∃ s' b, withStrayReward.minePendingTransactions (ascii "miner") 5 6 1 = some s' ∧
        s'.chain = withStrayReward.chain ++ [b] ∧
        ((withStrayReward.withPool []).addBlock (some b)).2 = false := by
  refine ⟨reachable_withStrayReward, ?_, _, _, mine_withStrayReward, rfl, ?_⟩
  · rw [withStrayReward_eq]
    decide
  · rw [addBlock_withPool_of_not_fits]
    rintro ⟨hfits, -⟩
    obtain ⟨tx, htx, -⟩ := hfits.rewarded
    have hlength : _ = 1 := congrArg List.length htx
    exact absurd hlength (by decide)

/-! ### The live chain -/

/-- Histories over a clock that does not go back: mining reads it twice, and time may pass between
operations. -/
def clockedNode (d : Int32) (r : money.Amount) :
    Runs.System (Blockchain × Int64) Operation where
  init p := construct d r p.2 = some p.1
  step p op p' := op.run p.1 = some p'.1 ∧
    match op with
    | .minePendingTransactions _ blockTime txTime _ =>
      p.2 ≤ blockTime ∧ blockTime ≤ txTime ∧ txTime ≤ p'.2
    | _ => p.2 ≤ p'.2

/-- A mining step that appends a block finds the clock at or after the timestamp of the tip. -/
def ClockReached (p : Blockchain × Int64) : Operation → Prop
  | .minePendingTransactions rewardAddress blockTime txTime txNonce =>
    (p.1.rewardTransaction rewardAddress txTime txNonce).isValid = true →
      p.1.getLatestBlock.timestamp ≤ blockTime
  | _ => True

/-- Every effect keeps the chain valid, given the clock. -/
theorem isChainValid_of_effect {s s' : Blockchain} {op : Operation} {now : Int64}
    (hs : isChainValid s.chain s.difficulty = true) (hclock : ClockReached (s, now) op)
    (h : Effect s op s') : isChainValid s'.chain s'.difficulty = true := by
  cases h with
  | unchanged => exact hs
  | admitted htx => exact hs
  | mined hreward hb =>
    exact (isChainValid_concat_iff s.chain_ne_nil).mpr ⟨hs, hb.extends_iff.mpr (hclock hreward)⟩
  | received hfits hpool =>
    exact (isChainValid_concat_iff s.chain_ne_nil).mpr ⟨hs, hfits.extends_chain⟩
  | refused => exact hs
  | adopted hread hvalid => exact hvalid

/-- In every history in which mining waits for the timestamp of the tip, the live chain is
valid. -/
theorem isChainValid_of_clockReached {d : Int32} {r : money.Amount} {p : Blockchain × Int64}
    (h : (clockedNode d r).Reachable ClockReached p) :
    isChainValid p.1.chain p.1.difficulty = true := by
  refine h.invariant (fun p => isChainValid p.1.chain p.1.difficulty = true) ?_ ?_
  · rintro ⟨s, now⟩ hs
    obtain ⟨_, _, -, hvalid, -, hd, -, -⟩ := construct_eq_some hs
    rw [hd]
    exact hvalid
  · rintro ⟨s, now⟩ op ⟨s', now'⟩ _ hs hclock ⟨hrun, -⟩
    exact isChainValid_of_effect hs hclock (effect_of_run hrun)

/-- A fresh node that mines a block at a later time has a valid chain. -/
theorem isChainValid_of_clockReached_first :
    isChainValid (firstMined (ascii "miner") 5 6).chain 0 = true := by
  have hstart : (clockedNode 0 (money.coins 50)).Reachable ClockReached
      (fresh (money.coins 50) 0, 0) := .init (construct_zero (money.coins 50) 0)
  have hmine : (fresh (money.coins 50) 0).minePendingTransactions (ascii "miner") 5 6 1 =
      some (firstMined (ascii "miner") 5 6) := mine_fresh (by decide)
  have hstep : (clockedNode 0 (money.coins 50)).step (fresh (money.coins 50) 0, 0)
      (.minePendingTransactions (ascii "miner") 5 6 1) (firstMined (ascii "miner") 5 6, 6) :=
    ⟨hmine, by decide, by decide, by decide⟩
  have hclock : ClockReached (fresh (money.coins 50) 0, 0)
      (.minePendingTransactions (ascii "miner") 5 6 1) := fun _ => by decide
  have hvalid := isChainValid_of_clockReached (hstart.step hclock hstep)
  exact hvalid

/-- A node that has accepted a block from the future, of timestamp 1000. -/
def aheadOfClock : Blockchain := firstMined (ascii "peer") 1000 1000

/-- Mining on a block from the future, at a clock that has not gone back, makes the chain
invalid. -/
theorem mining_before_tip :
    (clockedNode 0 (money.coins 50)).Reachable (fun _ _ => True)
      (aheadOfClock.pushBlock
        (assemble aheadOfClock.chain 1 [rewardTo (ascii "miner") 1]) [], 1) ∧
    isChainValid (aheadOfClock.pushBlock
      (assemble aheadOfClock.chain 1 [rewardTo (ascii "miner") 1]) []).chain 0 = false := by
  have hreceive : ((fresh (money.coins 50) 0).addBlock (some (assemble
      (fresh (money.coins 50) 0).chain 1000 [rewardTo (ascii "peer") 1000]))).1 =
      aheadOfClock := by
    rw [addBlock_of_fits (fits_assemble_fresh (money.coins 50) 0 1000 (by decide) (by decide)
      ⟨_, rfl, rfl⟩) (not_paymentPending_nil _)]
    rfl
  have hmine : aheadOfClock.minePendingTransactions (ascii "miner") 1 1 1 = some
      (aheadOfClock.pushBlock (assemble aheadOfClock.chain 1 [rewardTo (ascii "miner") 1]) []) :=
    mine_of_difficulty_zero (calculateRequiredDifficultyAtHeight_of_lt (by decide) _ _)
      (by simp [aheadOfClock, firstMined, pushBlock]) (by decide)
  have hstart : (clockedNode 0 (money.coins 50)).Reachable (fun _ _ => True)
      (fresh (money.coins 50) 0, 0) := .init (construct_zero (money.coins 50) 0)
  have hfirst : (clockedNode 0 (money.coins 50)).step (fresh (money.coins 50) 0, 0)
      (.addBlock (some (assemble (fresh (money.coins 50) 0).chain 1000
        [rewardTo (ascii "peer") 1000]))) (aheadOfClock, 0) :=
    ⟨congrArg some hreceive, by decide⟩
  have hsecond : (clockedNode 0 (money.coins 50)).step (aheadOfClock, 0)
      (.minePendingTransactions (ascii "miner") 1 1 1)
      (aheadOfClock.pushBlock
        (assemble aheadOfClock.chain 1 [rewardTo (ascii "miner") 1]) [], 1) :=
    ⟨hmine, by decide, by decide, by decide⟩
  refine ⟨(hstart.step trivial hfirst).step trivial hsecond, ?_⟩
  rw [← Bool.not_eq_true]
  intro hvalid
  have hordered := ((isChainValid_concat_iff aheadOfClock.chain_ne_nil).mp hvalid).2.ordered
  exact absurd hordered (by decide)

end Blockchain

end BlockchainCrypto
