import BlockchainCrypto.Chain.Agreement

/-!
# Balances over histories

The balance cache is a book to which every transaction of the chain is posted: a payment moves its
amount from sender to receiver, and a reward brings new coins. So the total of the book grows by
the rewards of a block, and the balance of an address by what the block pays it less what the
address spends in it.

## Main definitions

* `Transaction.postings`, `Block.postings`: what is posted to the book.
* `mintedBy`: the coins that the transactions of a block bring.
* `Blockchain.outflow`, `Blockchain.inflow`: what an address spends and receives.
* `Blockchain.SingleReward`, `Blockchain.NetOutflowAvailable`: conditions on steps.

## Main results

* `Blockchain.updateBalances_eq`: the replay of a chain as postings.
* `Blockchain.total_of_singleReward`: coins come only from block rewards.
* `Blockchain.solvent_of_netOutflowAvailable`: what is pending is covered.
-/

namespace BlockchainCrypto

open ByteText Accounts

/-- What a transaction posts: a credit, and a debit unless it is a reward. -/
def Transaction.postings (tx : Transaction) : List (Bytes × ℤ) :=
  (tx.receiver, tx.amount.toInt) :: if tx.isSystem then [] else [(tx.sender, -tx.amount.toInt)]

/-- The postings of all transactions of a block. -/
def Block.postings (b : Block) : List (Bytes × ℤ) := b.transactions.flatMap Transaction.postings

/-- The coins that a list of transactions brings. -/
def mintedBy (txs : List Transaction) : ℤ :=
  ((txs.filter (·.isSystem)).map fun tx => tx.amount.toInt).sum

namespace Blockchain

/-! ### The replay as postings -/

theorem applyTransaction_eq (m : Book Bytes) (tx : Transaction) :
    applyTransaction m tx = m.postAll tx.postings := by
  unfold applyTransaction Transaction.postings
  split_ifs <;> rfl

/-- The balances of a chain are the postings of its transactions, in order. -/
theorem updateBalances_eq (chain : List Block) :
    updateBalances chain = (∅ : Book Bytes).postAll (chain.flatMap Block.postings) := by
  unfold updateBalances Book.postAll Block.postings
  rw [List.foldl_flatMap]
  congr 1
  funext m b
  rw [List.foldl_flatMap]
  congr 1
  funext m tx
  exact applyTransaction_eq m tx

theorem balance_updateBalances_concat (chain : List Block) (b : Block) (a : Bytes) :
    (updateBalances (chain ++ [b])).balance a =
      (updateBalances chain).balance a + posted b.postings a := by
  simp [updateBalances_eq, Book.balance_postAll]

theorem sum_postings (txs : List Transaction) :
    ((txs.flatMap Transaction.postings).map Prod.snd).sum = mintedBy txs := by
  induction txs with
  | nil => rfl
  | cons tx txs ih =>
    rw [List.flatMap_cons, List.map_append, List.sum_append, ih]
    by_cases h : tx.isSystem
    · rw [Transaction.postings, if_pos h, mintedBy, mintedBy,
        List.filter_cons_of_pos (by simpa using h)]
      simp
    · rw [Transaction.postings, if_neg h, mintedBy, mintedBy,
        List.filter_cons_of_neg (by simpa using h)]
      simp

/-- The total grows by what the appended block mints. -/
theorem total_updateBalances_concat (chain : List Block) (b : Block) :
    (updateBalances (chain ++ [b])).total =
      (updateBalances chain).total + mintedBy b.transactions := by
  rw [updateBalances_eq, updateBalances_eq, Book.total_postAll, Book.total_postAll,
    List.flatMap_append, List.map_append, List.sum_append, ← sum_postings]
  simp [Block.postings]

/-! ### Supply -/

theorem mintedBy_of_rewardedOnce {r : money.Amount} {txs : List Transaction}
    (h : RewardedOnce r txs) : mintedBy txs = r.toInt := by
  obtain ⟨tx, htx, hamount⟩ := h
  simp [mintedBy, htx, hamount]

/-- A mining step that appends a block finds no system transaction in the pool. -/
def SingleReward (s : Blockchain) : Operation → Prop
  | .minePendingTransactions rewardAddress _ txTime txNonce =>
    (s.rewardTransaction rewardAddress txTime txNonce).isValid = true →
      ∀ tx ∈ s.pendingTransactions, ¬ tx.isSystem
  | _ => True

/-- The supply after a step in which mining finds no stray reward. -/
theorem total_of_effect {s s' : Blockchain} {op : Operation} (hs : Coherent s)
    (htotal : (updateBalances s.chain).total = s.miningReward.toInt * (s.chain.length - 1))
    (hnoload : NoLoad s op) (hsingle : SingleReward s op) (h : Effect s op s') :
    (updateBalances s'.chain).total = s'.miningReward.toInt * (s'.chain.length - 1) := by
  have happend (b : Block) (pool : List Transaction)
      (hreward : RewardedOnce s.miningReward b.transactions) :
      (updateBalances (s.pushBlock b pool).chain).total =
        s.miningReward.toInt * ((s.pushBlock b pool).chain.length - 1) := by
    have hlength : ((s.chain ++ [b]).length : ℤ) = s.chain.length + 1 := by simp
    change (updateBalances (s.chain ++ [b])).total =
      s.miningReward.toInt * ((s.chain ++ [b]).length - 1)
    rw [total_updateBalances_concat, htotal, mintedBy_of_rewardedOnce hreward, hlength]
    ring
  cases h with
  | unchanged => exact htotal
  | admitted htx => exact htotal
  | mined hreward hb => exact happend _ _ ((hb.rewarded_iff hs rfl rfl).mpr (hsingle hreward))
  | received hfits hpool => exact happend _ _ hfits.rewarded
  | refused => exact hnoload.elim
  | adopted hread hvalid => exact hnoload.elim

/-- In every history without loading in which mining finds no stray reward, the balances sum up to
one reward for each block above genesis. -/
theorem total_of_singleReward {d : Int32} {r : money.Amount} {s : Blockchain}
    (h : (node d r).Reachable (fun s op => NoLoad s op ∧ SingleReward s op) s) :
    s.balances.total = r.toInt * (s.chain.length - 1) := by
  rw [(coherent_of_reachable h).balances_eq, ← (parameters_of_reachable h fun _ _ h => h.1).2]
  refine h.invariant
    (fun s => (updateBalances s.chain).total = s.miningReward.toInt * (s.chain.length - 1)) ?_ ?_
  · rintro s ⟨now, hs⟩
    obtain ⟨_, _, hchain, -⟩ := construct_eq_some hs
    rw [hchain]
    simp [updateBalances, Block.create, Block.calculateMerkleRoot, Block.setMinedState]
  · intro s op s' hreach hs hop hstep
    exact total_of_effect (coherent_of_reachable hreach) hs hop.1 hop.2 (effect_of_run hstep)

/-- One reward after the first mined block. -/
theorem total_of_singleReward_first :
    (firstMined (ascii "miner") 5 6).balances.total = (money.coins 50).toInt * (2 - 1) :=
  total_of_singleReward
    (reachable_firstMined ⟨trivial, fun _ => by simp [fresh]⟩ (by decide))

/-- A stray reward is mined together with the reward of the miner, and the only block above
genesis brings 100 coins. -/
theorem stray_reward_minted :
    (node 0 (money.coins 50)).Reachable NoLoad (withStrayReward.pushBlock
      (assemble withStrayReward.chain 5
        [rewardTo (ascii "alice") 0, rewardTo (ascii "miner") 6]) []) ∧
    (withStrayReward.pushBlock (assemble withStrayReward.chain 5
        [rewardTo (ascii "alice") 0, rewardTo (ascii "miner") 6]) []).balances.total ≠
      (money.coins 50).toInt * ((withStrayReward.pushBlock (assemble withStrayReward.chain 5
        [rewardTo (ascii "alice") 0, rewardTo (ascii "miner") 6]) []).chain.length - 1) := by
  refine ⟨reachable_of_run reachable_withStrayReward
    (.minePendingTransactions (ascii "miner") 5 6 1) trivial mine_withStrayReward, ?_⟩
  change (updateBalances (withStrayReward.chain ++ [_])).total ≠
    (money.coins 50).toInt * ((withStrayReward.chain ++ [_]).length - 1)
  rw [total_updateBalances_concat, withStrayReward_eq]
  decide

/-! ### Solvency -/

/-- What the address `a` spends in a list of transactions. -/
def outflow (txs : List Transaction) (a : Bytes) : ℤ :=
  (txs.map fun tx => if tx.sender = a then tx.amount.toInt else 0).sum

/-- What the address `a` receives in a list of transactions. -/
def inflow (txs : List Transaction) (a : Bytes) : ℤ :=
  (txs.map fun tx => if tx.receiver = a then tx.amount.toInt else 0).sum

theorem pendingOutflow_eq (s : Blockchain) (a : Bytes) :
    s.pendingOutflow a = outflow s.pendingTransactions a := by
  have hfold (txs : List Transaction) (x : ℤ) :
      txs.foldl (fun x tx => if tx.sender = a then x + tx.amount.toInt else x) x =
        x + outflow txs a := by
    induction txs generalizing x with
    | nil => simp [outflow]
    | cons tx txs ih =>
      rw [List.foldl_cons, ih, outflow, outflow, List.map_cons, List.sum_cons]
      split_ifs <;> ring
  rw [pendingOutflow, hfold, zero_add]

theorem outflow_append (txs txs' : List Transaction) (a : Bytes) :
    outflow (txs ++ txs') a = outflow txs a + outflow txs' a := by
  simp [outflow]

theorem outflow_singleton (tx : Transaction) (a : Bytes) :
    outflow [tx] a = if tx.sender = a then tx.amount.toInt else 0 := by
  simp [outflow]

/-- A reward takes nothing from any address but the mint. -/
theorem outflow_reward {tx : Transaction} (hsystem : tx.isSystem) {a : Bytes}
    (ha : a ≠ Transaction.system) : outflow [tx] a = 0 := by
  have hne : tx.sender ≠ a := fun heq => ha (heq.symm.trans hsystem)
  rw [outflow_singleton, if_neg hne]

/-- What valid transactions contribute, each one or not, is never negative. -/
theorem contribution_nonneg {txs : List Transaction} (h : ∀ tx ∈ txs, tx.isValid = true)
    (p : Transaction → Prop) [DecidablePred p] :
    ∀ x ∈ txs.map fun tx => if p tx then tx.amount.toInt else 0, 0 ≤ x := by
  intro x hx
  obtain ⟨tx, htx, rfl⟩ := List.mem_map.mp hx
  have hpos := Transaction.amount_pos (h tx htx)
  split_ifs <;> omega

theorem outflow_nonneg {txs : List Transaction} (h : ∀ tx ∈ txs, tx.isValid = true) (a : Bytes) :
    0 ≤ outflow txs a := List.sum_nonneg (contribution_nonneg h fun tx => tx.sender = a)

theorem inflow_nonneg {txs : List Transaction} (h : ∀ tx ∈ txs, tx.isValid = true) (a : Bytes) :
    0 ≤ inflow txs a := List.sum_nonneg (contribution_nonneg h fun tx => tx.receiver = a)

/-- Dropping transactions from the pool does not raise what is pending. -/
theorem outflow_le_of_sublist {txs txs' : List Transaction} (hsub : List.Sublist txs' txs)
    (h : ∀ tx ∈ txs, tx.isValid = true) (a : Bytes) : outflow txs' a ≤ outflow txs a :=
  List.Sublist.sum_le_sum (hsub.map _) (contribution_nonneg h fun tx => tx.sender = a)

/-- Every address but the mint is posted what it receives less what it spends. -/
theorem posted_postings {a : Bytes} (ha : a ≠ Transaction.system) (txs : List Transaction) :
    posted (txs.flatMap Transaction.postings) a = inflow txs a - outflow txs a := by
  induction txs with
  | nil => rfl
  | cons tx txs ih =>
    have hone : posted tx.postings a =
        (if tx.receiver = a then tx.amount.toInt else 0) -
          if tx.sender = a then tx.amount.toInt else 0 := by
      by_cases hs : tx.isSystem
      · have hne : tx.sender ≠ a := fun h => ha (h.symm.trans hs)
        rw [Transaction.postings, if_pos hs, if_neg hne]
        simp
      · rw [Transaction.postings, if_neg hs]
        simp only [posted_cons, posted_nil]
        split_ifs <;> ring
    rw [List.flatMap_cons, posted_append, ih, hone]
    simp only [inflow, outflow, List.map_cons, List.sum_cons]
    ring

/-- The balance after a block, for every address but the mint. -/
theorem balance_concat {a : Bytes} (ha : a ≠ Transaction.system) (chain : List Block) (b : Block) :
    (updateBalances (chain ++ [b])).balance a =
      (updateBalances chain).balance a + (inflow b.transactions a - outflow b.transactions a) := by
  rw [balance_updateBalances_concat, Block.postings, posted_postings ha]

/-- What every address but the mint has pending is covered by its balance. -/
def Solvent (s : Blockchain) : Prop :=
  ∀ a, a ≠ Transaction.system → 0 ≤ s.pendingOutflow a ∧ s.pendingOutflow a ≤ s.getBalance a

/-- No block that `addBlock` would accept takes more from an address than what the address has
available beside its pending payments. -/
def NetOutflowAvailable (s : Blockchain) : Operation → Prop
  | .addBlock (some b) => Fits s.chain s.difficulty s.miningReward b →
      ¬ PaymentPending s.pendingTransactions b → ∀ a, a ≠ Transaction.system →
        outflow b.transactions a - inflow b.transactions a ≤ s.getBalance a - s.pendingOutflow a
  | _ => True

/-- The balance after an appended block, for every address but the mint. -/
theorem getBalance_pushBlock {s : Blockchain} (hs : Coherent s) {a : Bytes}
    (ha : a ≠ Transaction.system) (b : Block) (pool : List Transaction) :
    (s.pushBlock b pool).getBalance a =
      s.getBalance a + (inflow b.transactions a - outflow b.transactions a) := by
  rw [getBalance, getBalance, hs.balances_eq]
  exact balance_concat ha s.chain b

theorem solvent_of_effect {s s' : Blockchain} {op : Operation} (hs : Coherent s)
    (hsolvent : Solvent s) (hnoload : NoLoad s op) (havailable : NetOutflowAvailable s op)
    (h : Effect s op s') : Solvent s' := by
  intro a ha
  obtain ⟨hnonneg, hcovered⟩ := hsolvent a ha
  rw [pendingOutflow_eq] at hnonneg hcovered ⊢
  cases h with
  | unchanged => exact ⟨hnonneg, hcovered⟩
  | @admitted tx htx =>
    have hpos := Transaction.amount_pos htx.valid
    have hbalance : getBalance { s with pendingTransactions := s.pendingTransactions ++ [tx] } a =
        s.getBalance a := rfl
    dsimp only
    rw [hbalance, outflow_append, outflow_singleton]
    split_ifs with hsender
    · have hfunded := htx.funded fun h => ha (hsender.symm.trans h)
      rw [hsender, pendingOutflow_eq] at hfunded
      omega
    · omega
  | @mined rewardAddress blockTime txTime txNonce b hreward hb =>
    -- the block spends what was pending and nothing else
    have hspent : outflow b.transactions a = outflow s.pendingTransactions a := by
      rw [hb.transactions_eq_pool hs, outflow_append, outflow_reward rfl ha, add_zero]
    have hreceived := inflow_nonneg (Block.isValid_iff.mp hb.valid).2.2.1 a
    rw [getBalance_pushBlock hs ha, hspent]
    refine ⟨le_rfl, ?_⟩
    change 0 ≤ _
    omega
  | @received b hfits hpool =>
    have hnet := havailable hfits hpool a ha
    rw [pendingOutflow_eq] at hnet
    have hsub : List.Sublist (purgePending s.pendingTransactions b) s.pendingTransactions := by
      rw [purgePending_eq]
      exact List.filter_sublist
    have hless := outflow_le_of_sublist hsub hs.pool_valid a
    rw [getBalance_pushBlock hs ha]
    change 0 ≤ outflow (purgePending s.pendingTransactions b) a ∧
      outflow (purgePending s.pendingTransactions b) a ≤ _
    exact ⟨outflow_nonneg (fun tx htx => hs.pool_valid tx (hsub.mem htx)) a, by omega⟩
  | refused => exact hnoload.elim
  | adopted hread hvalid => exact hnoload.elim

theorem solvent_of_reachable {d : Int32} {r : money.Amount} {s : Blockchain}
    (h : (node d r).Reachable (fun s op => NoLoad s op ∧ NetOutflowAvailable s op) s) :
    Solvent s := by
  refine h.invariant Solvent ?_ ?_
  · rintro s ⟨now, hs⟩ a -
    obtain ⟨_, _, hchain, -, hpool, -, -, hbalances⟩ := construct_eq_some hs
    rw [pendingOutflow_eq, hpool, getBalance, hbalances, hchain]
    exact ⟨le_rfl, le_rfl⟩
  · intro s op s' hreach hs hop hstep
    exact solvent_of_effect (coherent_of_reachable hreach) hs hop.1 hop.2 (effect_of_run hstep)

/-- In every history without loading in which accepted blocks take no more from an address than it
has available, what is pending is covered, and mining the pool leaves no debt. -/
theorem solvent_of_netOutflowAvailable {d : Int32} {r : money.Amount} {s : Blockchain}
    (h : (node d r).Reachable (fun s op => NoLoad s op ∧ NetOutflowAvailable s op) s) :
    ∀ a, a ≠ Transaction.system →
      (s.getBalance a ≥ s.pendingOutflow a ∧ s.pendingOutflow a ≥ 0) ∧
      ∀ rewardAddress blockTime txTime txNonce s',
        s.minePendingTransactions rewardAddress blockTime txTime txNonce = some s' →
          0 ≤ s'.getBalance a := by
  intro a ha
  refine ⟨(solvent_of_reachable h a ha).symm, ?_⟩
  intro rewardAddress blockTime txTime txNonce s' hmine
  have hnext := reachable_of_run h
    (.minePendingTransactions rewardAddress blockTime txTime txNonce) ⟨trivial, trivial⟩ hmine
  obtain ⟨hnonneg, hcovered⟩ := solvent_of_reachable hnext a ha
  exact hnonneg.trans hcovered

theorem getBalance_funded (a : Bytes) :
    funded.getBalance a = if payer = a then 5000000000 else 0 := by
  have hpostings : funded.chain.flatMap Block.postings = [(payer, 5000000000)] := rfl
  change (updateBalances funded.chain).balance a = _
  rw [updateBalances_eq, Book.balance_postAll, hpostings]
  simp

/-- The block takes 40 coins from the payer, brings 50, and leaves what is pending covered. -/
theorem netOutflowAvailable_payingBlock :
    NetOutflowAvailable (funded.withPool [paymentToBob]) (.addBlock (some payingBlock)) := by
  intro _ _ a ha
  have hspent : outflow payingBlock.transactions a = if payer = a then 4000000000 else 0 := by
    change outflow ([paymentToCarol] ++ [rewardTo payer 1]) a = _
    have hreward : outflow [rewardTo payer 1] a = 0 := outflow_reward rfl ha
    rw [outflow_append, hreward, add_zero, outflow_singleton]
    rfl
  have hvalid : ∀ tx ∈ [paymentToCarol], tx.isValid = true :=
    List.forall_mem_singleton.mpr isValid_paymentToCarol
  have hreceived : (if payer = a then 5000000000 else 0) ≤ inflow payingBlock.transactions a := by
    have hcarol := inflow_nonneg hvalid a
    have hreward : inflow [rewardTo payer 1] a = if payer = a then 5000000000 else 0 := by
      rw [inflow, List.map_singleton, List.sum_singleton]
      rfl
    have hsplit : inflow payingBlock.transactions a =
        inflow [paymentToCarol] a + inflow [rewardTo payer 1] a := by
      change inflow ([paymentToCarol] ++ [rewardTo payer 1]) a = _
      rw [inflow, List.map_append, List.sum_append]
      rfl
    rw [hsplit, hreward]
    omega
  have hpending : (funded.withPool [paymentToBob]).pendingOutflow a =
      if payer = a then 4000000000 else 0 := by
    rw [pendingOutflow_eq]
    exact outflow_singleton paymentToBob a
  have hbalance : (funded.withPool [paymentToBob]).getBalance a = _ := getBalance_funded a
  rw [hspent, hpending, hbalance]
  split_ifs at hreceived ⊢ <;> omega

/-- What the payer has pending to Bob stays covered when a block of his brings the payment to
Carol. -/
theorem solvent_of_netOutflowAvailable_paid :
    paid.getBalance payer ≥ paid.pendingOutflow payer ∧ paid.pendingOutflow payer ≥ 0 :=
  (solvent_of_netOutflowAvailable (reachable_paid ⟨trivial, trivial⟩ ⟨trivial, trivial⟩
    ⟨trivial, netOutflowAvailable_payingBlock⟩) payer (by decide)).1

/-! ### A payment overtaken by a block -/

/-- A received block leaves no address with a debt. -/
def LeavesNoDebt (s : Blockchain) : Operation → Prop
  | .addBlock block => ∀ a, 0 ≤ (s.addBlock block).1.getBalance a
  | _ => True

/-- A block in which the payer spends the reward on Carol. -/
def overtakingBlock : Block :=
  assemble funded.chain 1 [paymentToCarol, rewardTo (ascii "miner") 1]

theorem addBlock_overtakingBlock :
    (funded.withPool [paymentToBob]).addBlock (some overtakingBlock) =
      (funded.pushBlock overtakingBlock [paymentToBob], true) :=
  addBlock_paymentToCarol (by decide) hashes_ne.2.2.2.1

/-- After the block the payer has 10 coins, and 40 coins are still pending. -/
theorem pending_payment_overtaken :
    (node 0 (money.coins 50)).Reachable (fun s op => NoLoad s op ∧ LeavesNoDebt s op)
      (funded.pushBlock overtakingBlock [paymentToBob]) ∧ payer ≠ Transaction.system ∧
    (funded.pushBlock overtakingBlock [paymentToBob]).getBalance payer <
      (funded.pushBlock overtakingBlock [paymentToBob]).pendingOutflow payer := by
  refine ⟨?_, by decide, by decide⟩
  refine reachable_of_run (reachable_pending ⟨trivial, trivial⟩ ⟨trivial, trivial⟩)
    (.addBlock (some overtakingBlock)) ⟨trivial, fun a => ?_⟩
    (congrArg (some ∘ Prod.fst) addBlock_overtakingBlock)
  have hpostings : (funded.chain ++ [overtakingBlock]).flatMap Block.postings =
      [(payer, 5000000000), (ascii "carol", 4000000000), (payer, -4000000000),
        (ascii "miner", 5000000000)] := rfl
  rw [addBlock_overtakingBlock]
  change 0 ≤ (updateBalances (funded.chain ++ [overtakingBlock])).balance a
  rw [updateBalances_eq, Book.balance_postAll, hpostings]
  simp only [posted_cons, posted_nil, Book.balance_empty]
  split_ifs <;> omega

end Blockchain

end BlockchainCrypto
