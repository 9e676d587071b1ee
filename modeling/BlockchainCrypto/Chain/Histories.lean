import BlockchainCrypto.Chain.Mining
import BlockchainCrypto.Chain.Persistence
import BlockchainCrypto.Theory.Runs

/-!
# Histories of a node

A node is constructed once and then runs the public operations in any order and with any
arguments. Whatever the history, the pool holds valid transactions with pairwise different hashes
none of which is in the chain, and the balance cache is the replay of the chain.

## Main definitions

* `Blockchain.Operation`: the operations that change the state, with their arguments.
* `Blockchain.node`: the histories of a node constructed with a given difficulty and reward.
* `Blockchain.Effect`: what an operation can do to the state.
* `Blockchain.Coherent`: the invariants of pool and cache.

## Main results

* `Blockchain.effect_of_run`: every operation has one of the listed effects.
* `Blockchain.coherent_of_reachable`: the invariants hold in every history.
* `Blockchain.parameters_of_reachable`: without loading, difficulty and reward stay as constructed.
-/

namespace BlockchainCrypto

open ByteText

namespace Blockchain

/-- The operations that change the state. -/
inductive Operation where
  | addTransaction (tx : Transaction)
  | minePendingTransactions (rewardAddress : Bytes) (blockTime txTime : Int64) (txNonce : UInt64)
  | addBlock (block : Option Block)
  | loadFromFile (file : Option Bytes)

/-- The state after an operation; there is none when the operation does not return. -/
def Operation.run (s : Blockchain) : Operation → Option Blockchain
  | addTransaction tx => some (s.addTransaction tx)
  | minePendingTransactions rewardAddress blockTime txTime txNonce =>
    s.minePendingTransactions rewardAddress blockTime txTime txNonce
  | addBlock block => some (s.addBlock block).1
  | loadFromFile file => some (s.loadFromFile file).1

/-- The histories of a node constructed with difficulty `d` and reward `r`. -/
def node (d : Int32) (r : money.Amount) : Runs.System Blockchain Operation where
  init s := ∃ now, construct d r now = some s
  step s op s' := op.run s = some s'

/-- The operation does not load a file. -/
def NoLoad (_ : Blockchain) : Operation → Prop
  | .loadFromFile _ => False
  | _ => True

/-! ### Effects -/

/-- A transaction that `addTransaction` admits. -/
structure Admissible (s : Blockchain) (tx : Transaction) : Prop where
  valid : tx.isValid = true
  unknown : s.transactionExists tx = false
  funded : ¬ tx.isSystem → tx.amount.toInt ≤ s.getBalance tx.sender - s.pendingOutflow tx.sender

theorem addTransaction_of_admissible {s : Blockchain} {tx : Transaction} (h : s.Admissible tx) :
    s.addTransaction tx = { s with pendingTransactions := s.pendingTransactions ++ [tx] } := by
  have hfunded : ¬(¬ tx.isSystem ∧
      s.getBalance tx.sender - s.pendingOutflow tx.sender < tx.amount.toInt) :=
    fun hshort => absurd (h.funded hshort.1) (not_le.mpr hshort.2)
  unfold addTransaction
  rw [h.valid, h.unknown, if_neg hfunded]
  rfl

theorem addTransaction_of_not_admissible {s : Blockchain} {tx : Transaction}
    (h : ¬ s.Admissible tx) : s.addTransaction tx = s := by
  unfold addTransaction
  split_ifs with hvalid hexists hshort
  · rfl
  · rfl
  · rfl
  · refine absurd ⟨by simpa using hvalid, by simpa using hexists, fun hpayment => ?_⟩ h
    exact not_lt.mp (not_and.mp hshort hpayment)

/-- What an operation can do to the state. -/
inductive Effect (s : Blockchain) : Operation → Blockchain → Prop
  | unchanged {op : Operation} : Effect s op s
  | admitted {tx : Transaction} (htx : s.Admissible tx) :
      Effect s (.addTransaction tx)
        { s with pendingTransactions := s.pendingTransactions ++ [tx] }
  | mined {rewardAddress : Bytes} {blockTime txTime : Int64} {txNonce : UInt64} {b : Block}
      (hreward : (s.rewardTransaction rewardAddress txTime txNonce).isValid = true)
      (hb : s.MinedOn (s.rewardTransaction rewardAddress txTime txNonce) blockTime b) :
      Effect s (.minePendingTransactions rewardAddress blockTime txTime txNonce) (s.pushBlock b [])
  | received {b : Block} (hfits : Fits s.chain s.difficulty s.miningReward b)
      (hpool : ¬ PaymentPending s.pendingTransactions b) :
      Effect s (.addBlock (some b)) (s.pushBlock b (purgePending s.pendingTransactions b))
  | refused {file : Option Bytes} :
      Effect s (.loadFromFile file)
        { s with miningReward := Int64.ofInt (toDouble s.miningReward) }
  | adopted {file : Option Bytes} {d : Int32} {r : money.Amount} {parsed : List Block}
      {rest : Bytes} (hread : file.bind readFile.run = some ((d, r, parsed), rest))
      (hvalid : isChainValid parsed d = true) :
      Effect s (.loadFromFile file)
        ⟨parsed, [], d, r, updateBalances parsed, ne_nil_of_isChainValid hvalid⟩

/-- Every operation has one of the listed effects. -/
theorem effect_of_run {s s' : Blockchain} {op : Operation} (h : op.run s = some s') :
    Effect s op s' := by
  cases op with
  | addTransaction tx =>
    obtain rfl := Option.some.inj h
    by_cases htx : s.Admissible tx
    · rw [addTransaction_of_admissible htx]
      exact .admitted htx
    · rw [addTransaction_of_not_admissible htx]
      exact .unchanged
  | minePendingTransactions rewardAddress blockTime txTime txNonce =>
    rcases mine_cases h with ⟨-, rfl⟩ | ⟨hreward, b, hb, rfl⟩
    · exact .unchanged
    · exact .mined hreward hb
  | addBlock block =>
    obtain rfl := Option.some.inj h
    rcases s.addBlock_cases block with h | ⟨b, rfl, hfits, hpool, h⟩
    · rw [h]
      exact .unchanged
    · rw [h]
      exact .received hfits hpool
  | loadFromFile file =>
    obtain rfl := Option.some.inj h
    rcases s.loadFromFile_cases file with ⟨-, h⟩ | ⟨d, r, parsed, rest, hread, ⟨-, h⟩ | ⟨hvalid, h⟩⟩
    · rw [h]
      exact .unchanged
    · rw [h]
      exact .refused
    · rw [h]
      exact .adopted hread hvalid

/-! ### Invariants of pool and cache -/

/-- The pool holds valid transactions of pairwise different hashes, none of them in the chain, and
the cache is the replay of the chain. -/
structure Coherent (s : Blockchain) : Prop where
  pool_valid : ∀ tx ∈ s.pendingTransactions, tx.isValid = true
  pool_nodup : (s.pendingTransactions.map Transaction.calculateHash).Nodup
  pool_unmined : ∀ tx ∈ s.pendingTransactions, ∀ b ∈ s.chain, ∀ existing ∈ b.transactions,
    existing.calculateHash ≠ tx.calculateHash
  balances_eq : s.balances = updateBalances s.chain

theorem construct_eq_some {d : Int32} {r : money.Amount} {now : Int64} {s : Blockchain}
    (h : construct d r now = some s) :
    ∃ nonce hash, s.chain = [(Block.create 0 (ascii "0") d now).setMinedState nonce hash] ∧
      isChainValid s.chain d = true ∧ s.pendingTransactions = [] ∧ s.difficulty = d ∧
      s.miningReward = r ∧ s.balances = updateBalances s.chain := by
  obtain ⟨g, hg, h⟩ := Option.bind_eq_some_iff.mp h
  obtain rfl := Option.some.inj h
  obtain ⟨⟨nonce, hash, hgenesis⟩, hvalid⟩ := Block.mineBlock_spec hg
  refine ⟨nonce, hash, congrArg (fun b => [b]) hgenesis, ?_, rfl, rfl, rfl, rfl⟩
  refine isChainValid_iff.mpr (.single (Block.isValidWithDifficulty_iff.mpr ⟨?_, hvalid ?_⟩))
  · rw [hgenesis]
    rfl
  · exact Block.unmined_create 0 (ascii "0") d now

theorem coherent_of_pool_nil {s : Blockchain} (hpool : s.pendingTransactions = [])
    (hbalances : s.balances = updateBalances s.chain) : Coherent s := by
  refine ⟨?_, ?_, ?_, hbalances⟩ <;> simp [hpool]

theorem coherent_of_construct {d : Int32} {r : money.Amount} {now : Int64} {s : Blockchain}
    (h : construct d r now = some s) : Coherent s := by
  obtain ⟨_, _, -, -, hpool, -, -, hbalances⟩ := construct_eq_some h
  exact coherent_of_pool_nil hpool hbalances

/-- Every effect keeps the invariants of pool and cache. -/
theorem Coherent.of_effect {s s' : Blockchain} {op : Operation} (hs : Coherent s)
    (h : Effect s op s') : Coherent s' := by
  obtain ⟨hvalid, hnodup, hunmined, hbalances⟩ := hs
  cases h with
  | unchanged => exact ⟨hvalid, hnodup, hunmined, hbalances⟩
  | @admitted tx htx =>
    have hunknown := htx.unknown
    rw [← Bool.not_eq_true, transactionExists_iff, not_or] at hunknown
    push Not at hunknown
    refine ⟨?_, ?_, ?_, hbalances⟩
    · simp only [List.forall_mem_append, List.forall_mem_singleton]
      exact ⟨hvalid, htx.valid⟩
    · simp only [List.map_append, List.map_cons, List.map_nil]
      refine List.nodup_append.mpr ⟨hnodup, List.nodup_singleton _, ?_⟩
      rintro h hh h' hh' rfl
      obtain ⟨pending, hpending, rfl⟩ := List.mem_map.mp hh
      exact hunknown.2 pending hpending (List.mem_singleton.mp hh')
    · simp only [List.forall_mem_append, List.forall_mem_singleton]
      exact ⟨hunmined, hunknown.1⟩
  | mined hreward hb => exact coherent_of_pool_nil rfl rfl
  | @received b hfits hpool =>
    have hsub : List.Sublist (purgePending s.pendingTransactions b) s.pendingTransactions := by
      rw [purgePending_eq]
      exact List.filter_sublist
    refine ⟨fun tx htx => hvalid tx (hsub.mem htx), hnodup.sublist (hsub.map _), ?_, rfl⟩
    intro tx htx mined hmined existing hexisting
    obtain ⟨htx, hnew⟩ := mem_purgePending.mp htx
    rcases List.mem_append.mp hmined with hmined | hmined
    · exact hunmined tx htx mined hmined existing hexisting
    · obtain rfl := List.mem_singleton.mp hmined
      exact hnew existing hexisting
  | refused => exact ⟨hvalid, hnodup, hunmined, hbalances⟩
  | adopted hread hvalid => exact coherent_of_pool_nil rfl rfl

section Reachable

variable {d : Int32} {r : money.Amount} {ok : Blockchain → Operation → Prop} {s : Blockchain}

/-- One more operation. -/
theorem reachable_of_run {s' : Blockchain} (hs : (node d r).Reachable ok s) (op : Operation)
    (hop : ok s op) (h : op.run s = some s') : (node d r).Reachable ok s' := .step hs hop h

/-- The invariants of pool and cache hold in every history. -/
theorem coherent_of_reachable (h : (node d r).Reachable ok s) : Coherent s := by
  refine h.invariant Coherent ?_ fun s op s' _ hs _ hstep => hs.of_effect (effect_of_run hstep)
  rintro s ⟨now, hs⟩
  exact coherent_of_construct hs

/-- Without loading, difficulty and reward stay as constructed. -/
theorem parameters_of_reachable (h : (node d r).Reachable ok s)
    (hok : ∀ s op, ok s op → NoLoad s op) : s.difficulty = d ∧ s.miningReward = r := by
  refine h.invariant (fun s => s.difficulty = d ∧ s.miningReward = r) ?_ ?_
  · rintro s ⟨now, hs⟩
    obtain ⟨_, _, -, -, -, hd, hr, -⟩ := construct_eq_some hs
    exact ⟨hd, hr⟩
  · intro s op s' _ hs hop hstep
    have hnoload := hok s op hop
    cases effect_of_run hstep with
    | unchanged => exact hs
    | admitted htx => exact hs
    | mined hreward hb => exact hs
    | received hfits hpool => exact hs
    | refused => exact hnoload.elim
    | adopted hread hvalid => exact hnoload.elim

theorem reachable_fresh (r : money.Amount) (now : Int64) (ok : Blockchain → Operation → Prop) :
    (node 0 r).Reachable ok (fresh r now) := .init ⟨now, construct_zero r now⟩

theorem reachable_firstMined {rewardAddress : Bytes} {blockTime txTime : Int64}
    (hok : ok (fresh (money.coins 50) 0)
      (.minePendingTransactions rewardAddress blockTime txTime 1))
    (hreward : (rewardTo rewardAddress txTime).isValid = true) :
    (node 0 (money.coins 50)).Reachable ok (firstMined rewardAddress blockTime txTime) :=
  reachable_of_run (reachable_fresh (money.coins 50) 0 ok) _ hok (mine_fresh hreward)

end Reachable

/-! ### A history with payments -/

/-- A node whose payer has mined one reward. -/
def funded : Blockchain := firstMined payer 0 0

theorem nodup_hashes :
    ([paymentToBob, paymentToCarol, rewardTo payer 0, rewardTo (ascii "miner") 1,
      rewardTo payer 1].map Transaction.calculateHash).Nodup := by
  decide +kernel

theorem hashes_ne : paymentToBob.calculateHash ≠ paymentToCarol.calculateHash ∧
    (rewardTo payer 0).calculateHash ≠ paymentToBob.calculateHash ∧
    (rewardTo payer 0).calculateHash ≠ paymentToCarol.calculateHash ∧
    (rewardTo (ascii "miner") 1).calculateHash ≠ paymentToBob.calculateHash ∧
    (rewardTo payer 1).calculateHash ≠ paymentToBob.calculateHash := by
  have h := nodup_hashes
  simp only [List.map_cons, List.map_nil, List.nodup_cons, List.mem_cons, not_or] at h
  exact ⟨h.1.1, Ne.symm h.1.2.1, Ne.symm h.2.1.1, Ne.symm h.1.2.2.1, Ne.symm h.1.2.2.2.1⟩

theorem eq_of_mem_funded {b : Block} {tx : Transaction} (hb : b ∈ funded.chain)
    (htx : tx ∈ b.transactions) : tx = rewardTo payer 0 := by
  have hchain : funded.chain.flatMap Block.transactions = [rewardTo payer 0] := rfl
  have hmem : tx ∈ funded.chain.flatMap Block.transactions := List.mem_flatMap.mpr ⟨b, hb, htx⟩
  rwa [hchain, List.mem_singleton] at hmem

theorem funded_addTransaction :
    funded.addTransaction paymentToBob = funded.withPool [paymentToBob] := by
  have hunknown : funded.transactionExists paymentToBob = false := by
    rw [← Bool.not_eq_true, transactionExists_iff]
    rintro (⟨b, hb, existing, hexisting, heq⟩ | ⟨pending, hpending, -⟩)
    · rw [eq_of_mem_funded hb hexisting] at heq
      exact hashes_ne.2.1 heq
    · cases hpending
  exact addTransaction_of_admissible ⟨isValid_paymentToBob, hunknown, fun _ => by decide⟩

section PaymentToCarol

variable {address : Bytes}

/-- The payer has spent the reward on Carol, and somebody has mined the payment. -/
theorem fits_paymentToCarol (hreward : (rewardTo address 1).isValid = true) :
    Fits funded.chain 0 (money.coins 50)
      (assemble funded.chain 1 [paymentToCarol, rewardTo address 1]) where
  index_eq := rfl
  extends_chain := by
    refine extends_assemble (by decide) ?_ (by decide)
    simp only [List.forall_mem_cons, isValid_paymentToCarol, hreward]
    exact ⟨trivial, trivial, fun tx htx => absurd htx List.not_mem_nil⟩
  unmined := by
    intro tx htx hpayment b hb existing hexisting
    rw [eq_of_mem_funded hb hexisting]
    rcases List.mem_cons.mp htx with rfl | htx
    · exact hashes_ne.2.2.1
    · rw [List.mem_singleton.mp htx] at hpayment
      exact absurd rfl hpayment
  rewarded := ⟨_, rfl, rfl⟩

theorem addBlock_paymentToCarol (hreward : (rewardTo address 1).isValid = true)
    (hne : (rewardTo address 1).calculateHash ≠ paymentToBob.calculateHash) :
    (funded.withPool [paymentToBob]).addBlock
        (some (assemble funded.chain 1 [paymentToCarol, rewardTo address 1])) =
      (funded.pushBlock (assemble funded.chain 1 [paymentToCarol, rewardTo address 1])
        [paymentToBob], true) := by
  have hpending : ¬ PaymentPending [paymentToBob]
      (assemble funded.chain 1 [paymentToCarol, rewardTo address 1]) := by
    rintro ⟨tx, htx, hpayment, pending, hpending, heq⟩
    rw [List.mem_singleton.mp hpending] at heq
    rcases List.mem_cons.mp htx with rfl | htx
    · exact hashes_ne.1 heq
    · rw [List.mem_singleton.mp htx] at hpayment
      exact hpayment rfl
  have hkept : purgePending [paymentToBob]
      (assemble funded.chain 1 [paymentToCarol, rewardTo address 1]) = [paymentToBob] := by
    rw [purgePending_eq, List.filter_eq_self]
    intro tx htx
    rw [List.mem_singleton.mp htx, decide_eq_true_eq]
    intro included hincluded
    rcases List.mem_cons.mp hincluded with rfl | hincluded
    · exact hashes_ne.1.symm
    · rw [List.mem_singleton.mp hincluded]
      exact hne
  rw [addBlock_withPool_of_fits (fits_paymentToCarol hreward) hpending, hkept]

end PaymentToCarol

/-- A block of the payer with the payment to Carol. -/
def payingBlock : Block := assemble funded.chain 1 [paymentToCarol, rewardTo payer 1]

/-- The block has come in while the payment to Bob was pending. -/
def paid : Blockchain := funded.pushBlock payingBlock [paymentToBob]

section Payments

variable {ok : Blockchain → Operation → Prop}

theorem reachable_pending
    (hmine : ok (fresh (money.coins 50) 0) (.minePendingTransactions payer 0 0 1))
    (hpending : ok funded (.addTransaction paymentToBob)) :
    (node 0 (money.coins 50)).Reachable ok (funded.withPool [paymentToBob]) :=
  reachable_of_run (reachable_firstMined hmine (by decide)) (.addTransaction paymentToBob) hpending
    (congrArg some funded_addTransaction)

theorem reachable_paid
    (hmine : ok (fresh (money.coins 50) 0) (.minePendingTransactions payer 0 0 1))
    (hpending : ok funded (.addTransaction paymentToBob))
    (hblock : ok (funded.withPool [paymentToBob]) (.addBlock (some payingBlock))) :
    (node 0 (money.coins 50)).Reachable ok paid :=
  reachable_of_run (reachable_pending hmine hpending) (.addBlock (some payingBlock)) hblock
    (congrArg (some ∘ Prod.fst) (addBlock_paymentToCarol (by decide) hashes_ne.2.2.2.2))

end Payments

end Blockchain

end BlockchainCrypto
