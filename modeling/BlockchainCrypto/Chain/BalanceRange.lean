import BlockchainCrypto.Chain.Ledger
import BlockchainCrypto.Chain.RoundTrip
import BlockchainCrypto.Theory.CheckedLoops

/-!
# Balances and the range of amounts

Amounts are signed 64-bit integers. A single amount is capped, but the number of transactions is
not, and neither a received block nor a file is checked against the balances. What can leave the
range is a credit of a transaction that comes into the chain, a debit of one that came in a block or
a file, and what is pending of the mint, whose transactions are admitted without a look at a
balance. What any other address has pending always fits, and what is available fits unless a
received block leaves an address with a debt.

## Main definitions

* `Blockchain.amountRange`: the values of an amount.
* `Blockchain.SumsInRange`: no sum over the state leaves the range.
* `Blockchain.CreditsFit`, `Blockchain.DebitsFit`: what is asked of a list of transactions.
* `Blockchain.AmountsFit`: what is asked of a step.

## Main results

* `Blockchain.staysIn_postings_iff`: credits and debits decide about a whole replay.
* `Blockchain.sumsInRange_of_amountsFit`: the histories in which no sum leaves the range.
* `Blockchain.sumsInRange_of_length_le`: with at most 4392 transactions no sum leaves the range.
-/

namespace BlockchainCrypto

open ByteText Accounts

namespace Blockchain

/-- The values of `money::Amount`, a signed 64-bit integer. -/
def amountRange : Set ℤ := {x | -2 ^ 63 ≤ x ∧ x ≤ 2 ^ 63 - 1}

theorem mem_amountRange_iff {x : ℤ} : x ∈ amountRange ↔ -2 ^ 63 ≤ x ∧ x ≤ 2 ^ 63 - 1 := Iff.rfl

/-- No entry leaves the range while the balances are replayed, and for no address does a partial sum
of what is pending, or what is available. -/
structure SumsInRange (s : Blockchain) : Prop where
  replay : (∅ : Book Bytes).StaysIn amountRange (s.chain.flatMap Block.postings)
  pending : ∀ txs, txs <+: s.pendingTransactions → ∀ a,
    (s.withPool txs).pendingOutflow a ∈ amountRange
  available : ∀ a, s.getBalance a - s.pendingOutflow a ∈ amountRange

/-! ### Credits and debits -/

/-- What an address receives in a list of transactions less what it spends, where the mint spends
nothing. -/
def net (txs : List Transaction) (a : Bytes) : ℤ :=
  inflow txs a - if a = Transaction.system then 0 else outflow txs a

theorem posted_eq_net (txs : List Transaction) (a : Bytes) :
    posted (txs.flatMap Transaction.postings) a = net txs a := by
  unfold net
  split_ifs with ha
  · rw [ha, posted_postings_system, sub_zero]
  · exact posted_postings ha txs

@[simp] theorem net_nil (a : Bytes) : net [] a = 0 := by
  simp [net, inflow, outflow]

theorem net_cons (tx : Transaction) (txs : List Transaction) (a : Bytes) :
    net (tx :: txs) a = net [tx] a + net txs a := by
  simp only [← posted_eq_net, List.flatMap_cons, List.flatMap_nil, posted_append, posted_nil]
  ring

theorem net_of_ne_system {a : Bytes} (ha : a ≠ Transaction.system) (txs : List Transaction) :
    net txs a = inflow txs a - outflow txs a := by
  rw [net, if_neg ha]

/-- From the balances on, no transaction of the list brings its receiver above the range. -/
def CreditsFit (balance : Bytes → ℤ) (txs : List Transaction) : Prop :=
  ∀ before tx, before ++ [tx] <+: txs →
    balance tx.receiver + net before tx.receiver + tx.amount.toInt ≤ 2 ^ 63 - 1

/-- From the balances on, no payment of the list brings its sender below the range. -/
def DebitsFit (balance : Bytes → ℤ) (txs : List Transaction) : Prop :=
  ∀ before tx, before ++ [tx] <+: txs → ¬ tx.isSystem →
    -2 ^ 63 ≤ balance tx.sender + net (before ++ [tx]) tx.sender

theorem creditsFit_cons_iff {balance : Bytes → ℤ} {tx : Transaction} {txs : List Transaction} :
    CreditsFit balance (tx :: txs) ↔
      balance tx.receiver + tx.amount.toInt ≤ 2 ^ 63 - 1 ∧
        CreditsFit (fun a => balance a + net [tx] a) txs := by
  have htail (before : List Transaction) (y : Transaction) :
      balance y.receiver + net (tx :: before) y.receiver + y.amount.toInt =
        balance y.receiver + net [tx] y.receiver + net before y.receiver + y.amount.toInt := by
    rw [net_cons]
    ring
  rw [CreditsFit, CheckedLoops.forall_concat_prefix_cons_iff]
  simp only [net_nil, add_zero, htail]
  rfl

theorem debitsFit_cons_iff {balance : Bytes → ℤ} {tx : Transaction} {txs : List Transaction} :
    DebitsFit balance (tx :: txs) ↔
      (¬ tx.isSystem → -2 ^ 63 ≤ balance tx.sender + net [tx] tx.sender) ∧
        DebitsFit (fun a => balance a + net [tx] a) txs := by
  have htail (before : List Transaction) (y : Transaction) :
      balance y.sender + net (tx :: before ++ [y]) y.sender =
        balance y.sender + net [tx] y.sender + net (before ++ [y]) y.sender := by
    rw [List.cons_append, net_cons, add_assoc]
  rw [DebitsFit, CheckedLoops.forall_concat_prefix_cons_iff]
  simp only [List.nil_append, htail]
  rfl

theorem balance_postAll_postings (m : Book Bytes) (txs : List Transaction) (a : Bytes) :
    (m.postAll (txs.flatMap Transaction.postings)).balance a = m.balance a + net txs a := by
  rw [Book.balance_postAll, posted_eq_net]

/-- One transaction: its credit may only be too large and its debit only too small. -/
theorem staysIn_transaction_iff {m : Book Bytes} (hm : ∀ a, m.balance a ∈ amountRange)
    {tx : Transaction} (hpos : 0 < tx.amount.toInt) :
    m.StaysIn amountRange tx.postings ↔
      m.balance tx.receiver + tx.amount.toInt ≤ 2 ^ 63 - 1 ∧
        (¬ tx.isSystem → -2 ^ 63 ≤ m.balance tx.sender + net [tx] tx.sender) := by
  have hcredit : (∀ a, (m.post tx.receiver tx.amount.toInt).balance a ∈ amountRange) ↔
      m.balance tx.receiver + tx.amount.toInt ≤ 2 ^ 63 - 1 := by
    have hlow := (hm tx.receiver).1
    rw [Book.forall_balance_post_iff hm, mem_amountRange_iff]
    omega
  by_cases hs : tx.isSystem
  · have hpostings : tx.postings = [(tx.receiver, tx.amount.toInt)] := by
      rw [Transaction.postings, if_pos hs]
    rw [hpostings, Book.staysIn_cons_iff, Book.staysIn_nil_iff, hcredit,
      and_iff_right hm, and_iff_left fun h => absurd hs h]
  · have hpostings : tx.postings =
        [(tx.receiver, tx.amount.toInt), (tx.sender, -tx.amount.toInt)] := by
      rw [Transaction.postings, if_neg hs]
    rw [hpostings, Book.staysIn_cons_iff, Book.staysIn_cons_iff, Book.staysIn_nil_iff, hcredit,
      and_iff_right hm]
    refine and_congr_right fun hfits => ?_
    have hcredited := hcredit.mpr hfits
    have hupper := (hcredited tx.sender).2
    have hnet := balance_postAll_postings m [tx] tx.sender
    rw [List.flatMap_singleton, hpostings] at hnet
    change ((m.post tx.receiver tx.amount.toInt).post tx.sender (-tx.amount.toInt)).balance
      tx.sender = _ at hnet
    rw [Book.balance_post, if_pos rfl] at hnet
    rw [Book.forall_balance_post_iff hcredited, mem_amountRange_iff, hnet]
    constructor
    · intro h _
      exact h.1
    · intro h
      exact ⟨h hs, by omega⟩

/-- Transactions of positive amounts keep all balances in the range exactly when their credits and
debits fit. -/
theorem staysIn_postings_iff {m : Book Bytes} (hm : ∀ a, m.balance a ∈ amountRange)
    {txs : List Transaction} (hpos : ∀ tx ∈ txs, 0 < tx.amount.toInt) :
    m.StaysIn amountRange (txs.flatMap Transaction.postings) ↔
      CreditsFit m.balance txs ∧ DebitsFit m.balance txs := by
  induction txs generalizing m with
  | nil =>
    rw [List.flatMap_nil, Book.staysIn_nil_iff]
    simp [hm, CreditsFit, DebitsFit]
  | cons tx txs ih =>
    rw [List.forall_mem_cons] at hpos
    have hbalance : (m.postAll tx.postings).balance = fun a => m.balance a + net [tx] a := by
      funext a
      rw [← balance_postAll_postings, List.flatMap_singleton]
    have htail (hhead : m.StaysIn amountRange tx.postings) :
        (m.postAll tx.postings).StaysIn amountRange (txs.flatMap Transaction.postings) ↔
          CreditsFit (fun a => m.balance a + net [tx] a) txs ∧
            DebitsFit (fun a => m.balance a + net [tx] a) txs := by
      rw [ih hhead.balance_mem hpos.2, hbalance]
    rw [List.flatMap_cons, Book.staysIn_append_iff, and_congr_right htail,
      staysIn_transaction_iff hm hpos.1, creditsFit_cons_iff, debitsFit_cons_iff]
    tauto

/-! ### One state -/

section State

variable {s : Blockchain}

theorem getBalance_mem_amountRange (hs : Coherent s)
    (hreplay : (∅ : Book Bytes).StaysIn amountRange (s.chain.flatMap Block.postings))
    (a : Bytes) : s.getBalance a ∈ amountRange := by
  rw [getBalance, hs.balances_eq, updateBalances_eq]
  exact hreplay.balance_mem a

/-- Valid transactions never bring the mint below zero. -/
theorem getBalance_system_nonneg (hs : Coherent s)
    (hchain : ∀ tx ∈ transactions s.chain, tx.isValid = true) :
    0 ≤ s.getBalance Transaction.system := by
  rw [getBalance, hs.balances_eq, balance_updateBalances, ledger, if_pos rfl, sub_zero]
  exact inflow_nonneg hchain Transaction.system

/-- Partial sums of a valid pool only grow, so the whole sums decide. -/
theorem sumsInRange_iff (hs : Coherent s)
    (hchain : ∀ tx ∈ transactions s.chain, tx.isValid = true) :
    SumsInRange s ↔
      (∅ : Book Bytes).StaysIn amountRange (s.chain.flatMap Block.postings) ∧
        (∀ a, outflow s.pendingTransactions a ≤ 2 ^ 63 - 1) ∧
          ∀ a, a ≠ Transaction.system →
            outflow s.pendingTransactions a ≤ s.getBalance a + 2 ^ 63 := by
  constructor
  · intro h
    refine ⟨h.replay, fun a => ?_, fun a _ => ?_⟩
    · have hpending := (h.pending s.pendingTransactions List.prefix_rfl a).2
      rwa [pendingOutflow_eq] at hpending
    · have havailable := (h.available a).1
      rw [pendingOutflow_eq] at havailable
      omega
  · rintro ⟨hreplay, hpool, hcovered⟩
    refine ⟨hreplay, fun txs htxs a => ?_, fun a => ?_⟩
    · have hvalid : ∀ tx ∈ txs, tx.isValid = true := fun tx htx => hs.pool_valid tx (htxs.mem htx)
      have hnonneg := outflow_nonneg hvalid a
      have hle := outflow_le_of_sublist htxs.sublist hs.pool_valid a
      have hupper := hpool a
      rw [pendingOutflow_eq, mem_amountRange_iff]
      change _ ≤ outflow txs a ∧ outflow txs a ≤ _
      omega
    · have hnonneg := outflow_nonneg hs.pool_valid a
      have hbalance := (getBalance_mem_amountRange hs hreplay a).2
      have hupper := hpool a
      rw [pendingOutflow_eq, mem_amountRange_iff]
      rcases eq_or_ne a Transaction.system with rfl | ha
      · have hmint := getBalance_system_nonneg hs hchain
        omega
      · have hlower := hcovered a ha
        omega

/-- With an empty pool only the replay matters. -/
theorem sumsInRange_iff_of_pool_nil (hpool : s.pendingTransactions = [])
    (hbalances : s.balances = updateBalances s.chain) :
    SumsInRange s ↔
      (∅ : Book Bytes).StaysIn amountRange (s.chain.flatMap Block.postings) := by
  have hs := coherent_of_pool_nil hpool hbalances
  refine ⟨SumsInRange.replay, fun hreplay => ⟨hreplay, fun txs htxs a => ?_, fun a => ?_⟩⟩
  · rw [hpool] at htxs
    obtain rfl := List.prefix_nil.mp htxs
    rw [pendingOutflow_eq, mem_amountRange_iff]
    simp [withPool, outflow]
  · have hnil : outflow s.pendingTransactions a = 0 := by simp [hpool, outflow]
    rw [pendingOutflow_eq, hnil, sub_zero]
    exact getBalance_mem_amountRange hs hreplay a

theorem transactions_pushBlock (s : Blockchain) (b : Block) (pool : List Transaction) :
    transactions (s.pushBlock b pool).chain = transactions s.chain ++ b.transactions := by
  simp [transactions, pushBlock]

theorem staysIn_pushBlock_iff (hs : Coherent s) (h : SumsInRange s) {b : Block}
    {pool : List Transaction} (hvalid : ∀ tx ∈ b.transactions, tx.isValid = true) :
    (∅ : Book Bytes).StaysIn amountRange ((s.pushBlock b pool).chain.flatMap Block.postings) ↔
      CreditsFit s.getBalance b.transactions ∧ DebitsFit s.getBalance b.transactions := by
  have hbalance : ((∅ : Book Bytes).postAll (s.chain.flatMap Block.postings)).balance =
      s.getBalance := by
    funext a
    rw [getBalance, hs.balances_eq, updateBalances_eq]
  have hchain : (s.pushBlock b pool).chain.flatMap Block.postings =
      s.chain.flatMap Block.postings ++ b.transactions.flatMap Transaction.postings := by
    simp [pushBlock, Block.postings]
  rw [hchain, Book.staysIn_append_iff, and_iff_right h.replay, ← hbalance]
  exact staysIn_postings_iff h.replay.balance_mem
    fun tx htx => Transaction.amount_pos (hvalid tx htx)

theorem getBalance_pushBlock_eq_net (hs : Coherent s) (b : Block) (pool : List Transaction)
    (a : Bytes) : (s.pushBlock b pool).getBalance a = s.getBalance a + net b.transactions a := by
  rw [getBalance, getBalance, hs.balances_eq, ← posted_eq_net]
  exact balance_updateBalances_concat s.chain b a

end State

/-! ### Steps -/

/-- What is asked of the transactions that a step brings in: mined ones have credits that fit, and
those of a received block or a file credits and debits that fit. After a received block, what is
still pending of an address exceeds its new balance by at most `2 ^ 63`. A transaction of the mint
that is admitted to the pool fits on top of what is pending of the mint. -/
def AmountsFit (s : Blockchain) : Operation → Prop
  | .addTransaction tx => s.Admissible tx → tx.isSystem →
    s.pendingOutflow Transaction.system + tx.amount.toInt ≤ 2 ^ 63 - 1
  | .minePendingTransactions rewardAddress _ txTime txNonce =>
    (s.rewardTransaction rewardAddress txTime txNonce).isValid = true →
      CreditsFit s.getBalance
        (s.pendingTransactions ++ [s.rewardTransaction rewardAddress txTime txNonce])
  | .addBlock none => True
  | .addBlock (some b) =>
    Fits s.chain s.difficulty s.miningReward b → ¬ PaymentPending s.pendingTransactions b →
      (CreditsFit s.getBalance b.transactions ∧ DebitsFit s.getBalance b.transactions) ∧
        ∀ a, a ≠ Transaction.system →
          outflow (purgePending s.pendingTransactions b) a ≤
            s.getBalance a + net b.transactions a + 2 ^ 63
  | .loadFromFile file =>
    ∀ d r parsed rest, file.bind readFile.run = some ((d, r, parsed), rest) →
      isChainValid parsed d = true →
        CreditsFit (fun _ => 0) (transactions parsed) ∧ DebitsFit (fun _ => 0) (transactions parsed)

section Steps

variable {s s' : Blockchain}

/-- An admitted payment is covered by what is available, so what is pending stays below the
balance; only the mint spends without a cover. -/
theorem sumsInRange_addTransaction_iff (hs : Coherent s)
    (hchain : ∀ tx ∈ transactions s.chain, tx.isValid = true) (h : SumsInRange s)
    (tx : Transaction) :
    SumsInRange (s.addTransaction tx) ↔ AmountsFit s (.addTransaction tx) := by
  by_cases htx : s.Admissible tx
  · obtain ⟨hreplay, hpool, hcovered⟩ := (sumsInRange_iff hs hchain).mp h
    have hbelow (a : Bytes) (hsender : tx.sender = a) (ha : a ≠ Transaction.system) :
        outflow s.pendingTransactions a + tx.amount.toInt ≤ s.getBalance a := by
      have hfunded := htx.funded fun hsystem => ha (hsender.symm.trans hsystem)
      rw [hsender, pendingOutflow_eq] at hfunded
      omega
    rw [addTransaction_of_admissible htx, sumsInRange_iff (hs.of_effect (.admitted htx)) hchain]
    simp only [outflow_append, outflow_singleton, AmountsFit, pendingOutflow_eq]
    constructor
    · rintro ⟨-, hpool', -⟩ _ hsystem
      have hmint := hpool' Transaction.system
      rwa [if_pos hsystem] at hmint
    · intro hfit
      refine ⟨hreplay, fun a => ?_, fun a ha => ?_⟩
      · have hupper := hpool a
        have hbalance := (getBalance_mem_amountRange hs hreplay a).2
        split_ifs with hsender
        · rcases eq_or_ne a Transaction.system with rfl | ha
          · exact hfit htx hsender
          · exact (hbelow a hsender ha).trans hbalance
        · omega
      · change _ ≤ s.getBalance a + _
        have hlower := hcovered a ha
        split_ifs with hsender
        · have hfunded := hbelow a hsender ha
          omega
        · omega
  · rw [addTransaction_of_not_admissible htx]
    exact iff_of_true h fun hadmissible => absurd hadmissible htx

/-- The payments of the pool do not bring their senders below the range, since what is available
is in it. -/
theorem SumsInRange.debitsFit_pool (hs : Coherent s) (h : SumsInRange s) {rewardTx : Transaction}
    (hsystem : rewardTx.isSystem) (hvalid : rewardTx.isValid = true) :
    DebitsFit s.getBalance (s.pendingTransactions ++ [rewardTx]) := by
  intro before tx hbefore hpayment
  have ha : tx.sender ≠ Transaction.system := hpayment
  have hall : ∀ tx ∈ s.pendingTransactions ++ [rewardTx], tx.isValid = true := by
    rw [List.forall_mem_append, List.forall_mem_singleton]
    exact ⟨hs.pool_valid, hvalid⟩
  have hspent := outflow_le_of_sublist hbefore.sublist hall tx.sender
  rw [outflow_append s.pendingTransactions, outflow_reward hsystem ha, add_zero] at hspent
  have hreceived := inflow_nonneg (fun t ht => hall t (hbefore.mem ht)) tx.sender
  have havailable := (h.available tx.sender).1
  rw [pendingOutflow_eq] at havailable
  rw [net_of_ne_system ha]
  omega

theorem sumsInRange_mine_iff (hs : Coherent s) (h : SumsInRange s) {rewardAddress : Bytes}
    {blockTime txTime : Int64} {txNonce : UInt64}
    (hmine : s.minePendingTransactions rewardAddress blockTime txTime txNonce = some s') :
    SumsInRange s' ↔
      AmountsFit s (.minePendingTransactions rewardAddress blockTime txTime txNonce) := by
  rcases mine_cases hmine with ⟨hinvalid, rfl⟩ | ⟨hvalid, b, hb, rfl⟩
  · refine iff_of_true h fun hvalid => ?_
    rw [hinvalid] at hvalid
    cases hvalid
  · have hall := (Block.isValid_iff.mp hb.valid).2.2.1
    rw [sumsInRange_iff_of_pool_nil rfl rfl, staysIn_pushBlock_iff hs h hall,
      hb.transactions_eq_pool hs, and_iff_left (h.debitsFit_pool hs rfl hvalid)]
    exact ⟨fun hcredits _ => hcredits, fun hfit => hfit hvalid⟩

theorem sumsInRange_addBlock_iff (hs : Coherent s)
    (hchain : ∀ tx ∈ transactions s.chain, tx.isValid = true) (h : SumsInRange s)
    (block : Option Block) :
    SumsInRange (s.addBlock block).1 ↔ AmountsFit s (.addBlock block) := by
  cases block with
  | none => exact iff_of_true h trivial
  | some b =>
    by_cases haccept : Fits s.chain s.difficulty s.miningReward b ∧
        ¬ PaymentPending s.pendingTransactions b
    · obtain ⟨hfits, hpool⟩ := haccept
      have hall := (Block.isValid_iff.mp
        (Block.isValidWithDifficulty_iff.mp hfits.extends_chain.valid).2).2.2.1
      have hsub : List.Sublist (purgePending s.pendingTransactions b) s.pendingTransactions := by
        rw [purgePending_eq]
        exact List.filter_sublist
      have hpending := ((sumsInRange_iff hs hchain).mp h).2.1
      have hkept (a : Bytes) : outflow (purgePending s.pendingTransactions b) a ≤ 2 ^ 63 - 1 :=
        (outflow_le_of_sublist hsub hs.pool_valid a).trans (hpending a)
      have hchain' : ∀ tx ∈ transactions
          (s.pushBlock b (purgePending s.pendingTransactions b)).chain, tx.isValid = true := by
        rw [transactions_pushBlock, List.forall_mem_append]
        exact ⟨hchain, hall⟩
      rw [addBlock_of_fits hfits hpool,
        sumsInRange_iff (hs.of_effect (.received hfits hpool)) hchain',
        staysIn_pushBlock_iff hs h hall]
      simp only [getBalance_pushBlock_eq_net hs]
      constructor
      · rintro ⟨hfit, hrest⟩ _ _
        exact ⟨hfit, hrest.2⟩
      · intro hfit
        obtain ⟨hboth, hrest⟩ := hfit hfits hpool
        exact ⟨hboth, hkept, hrest⟩
    · rw [addBlock_of_not_fits haccept]
      exact iff_of_true h fun hfits hpool => absurd ⟨hfits, hpool⟩ haccept

/-- Every transaction of a valid chain is valid. -/
theorem isValid_of_validChain {difficulty : Int32} {chain : List Block}
    (h : ValidChain difficulty chain) : ∀ tx ∈ transactions chain, tx.isValid = true := by
  have hblock {b : Block} {required : Int32} (hb : b.isValidWithDifficulty required = true) :
      ∀ tx ∈ b.transactions, tx.isValid = true :=
    (Block.isValid_iff.mp (Block.isValidWithDifficulty_iff.mp hb).2).2.2.1
  induction h with
  | single hg => simpa [transactions] using hblock hg
  | @concat below b hbelow hb ih =>
    rw [transactions, List.flatMap_append, List.forall_mem_append]
    exact ⟨ih, by simpa using hblock hb.valid⟩

/-- The replay of valid transactions, from no balances. -/
theorem staysIn_flatMap_iff {chain : List Block}
    (hvalid : ∀ tx ∈ transactions chain, tx.isValid = true) :
    (∅ : Book Bytes).StaysIn amountRange (chain.flatMap Block.postings) ↔
      CreditsFit (fun _ => 0) (transactions chain) ∧
        DebitsFit (fun _ => 0) (transactions chain) := by
  have hempty (a : Bytes) : (∅ : Book Bytes).balance a ∈ amountRange := by
    rw [Book.balance_empty, mem_amountRange_iff]
    omega
  rw [flatMap_postings]
  exact staysIn_postings_iff hempty fun tx htx => Transaction.amount_pos (hvalid tx htx)

theorem sumsInRange_loadFromFile_iff (h : SumsInRange s) (file : Option Bytes) :
    SumsInRange (s.loadFromFile file).1 ↔ AmountsFit s (.loadFromFile file) := by
  rcases s.loadFromFile_cases file with
    ⟨hread, hload⟩ | ⟨d, r, parsed, rest, hread, ⟨hinvalid, hload⟩ | ⟨hvalid, hload⟩⟩
  · rw [hload]
    refine iff_of_true h fun d r parsed rest hread' => ?_
    rw [hread] at hread'
    cases hread'
  · rw [hload]
    refine iff_of_true ⟨h.replay, h.pending, h.available⟩ fun d' r' parsed' rest' hread' => ?_
    rw [hread] at hread'
    cases hread'
    rw [hinvalid]
    exact Bool.false_ne_true.elim
  · rw [hload, sumsInRange_iff_of_pool_nil rfl rfl,
      staysIn_flatMap_iff (isValid_of_validChain (isChainValid_iff.mp hvalid))]
    constructor
    · intro hfit d' r' parsed' rest' hread' _
      rw [hread] at hread'
      cases hread'
      exact hfit
    · intro hfit
      exact hfit d r parsed rest hread hvalid

/-- From a state in which no sum leaves the range, a step leads to such a state exactly when the
amounts that it brings fit. -/
theorem sumsInRange_step_iff (hs : Coherent s)
    (hchain : ∀ tx ∈ transactions s.chain, tx.isValid = true) (h : SumsInRange s)
    {op : Operation} (hrun : op.run s = some s') : SumsInRange s' ↔ AmountsFit s op := by
  cases op with
  | addTransaction tx =>
    obtain rfl := Option.some.inj hrun
    exact sumsInRange_addTransaction_iff hs hchain h tx
  | minePendingTransactions rewardAddress blockTime txTime txNonce =>
    exact sumsInRange_mine_iff hs h hrun
  | addBlock block =>
    obtain rfl := Option.some.inj hrun
    exact sumsInRange_addBlock_iff hs hchain h block
  | loadFromFile file =>
    obtain rfl := Option.some.inj hrun
    exact sumsInRange_loadFromFile_iff h file

end Steps

/-! ### Histories -/

theorem sumsInRange_of_construct {d : Int32} {r : money.Amount} {now : Int64} {s : Blockchain}
    (h : construct d r now = some s) : SumsInRange s := by
  obtain ⟨_, _, hchain, -, hpool, -, -, hbalances⟩ := construct_eq_some h
  rw [sumsInRange_iff_of_pool_nil hpool hbalances, hchain]
  change (∅ : Book Bytes).StaysIn amountRange []
  rw [Book.staysIn_nil_iff]
  intro a
  rw [Book.balance_empty, mem_amountRange_iff]
  omega

/-- In every history the chain holds valid transactions. -/
theorem isValid_of_reachable {d : Int32} {r : money.Amount} {ok : Blockchain → Operation → Prop}
    {s : Blockchain} (h : (node d r).Reachable ok s) :
    ∀ tx ∈ transactions s.chain, tx.isValid = true := by
  refine h.invariant (fun s => ∀ tx ∈ transactions s.chain, tx.isValid = true) ?_ ?_
  · rintro s ⟨now, hs⟩
    obtain ⟨_, _, -, hvalid, -⟩ := construct_eq_some hs
    exact isValid_of_validChain (isChainValid_iff.mp hvalid)
  · intro s op s' _ hs _ hrun
    have happend {b : Block} (hb : b.isValid = true) (pool : List Transaction) :
        ∀ tx ∈ transactions (s.pushBlock b pool).chain, tx.isValid = true := by
      rw [transactions_pushBlock, List.forall_mem_append]
      exact ⟨hs, (Block.isValid_iff.mp hb).2.2.1⟩
    cases effect_of_run hrun with
    | unchanged => exact hs
    | admitted htx => exact hs
    | mined hreward hb => exact happend hb.valid []
    | received hfits hpool =>
      exact happend (Block.isValidWithDifficulty_iff.mp hfits.extends_chain.valid).2 _
    | refused => exact hs
    | adopted hread hvalid => exact isValid_of_validChain (isChainValid_iff.mp hvalid)

theorem sumsInRange_of_reachable {d : Int32} {r : money.Amount} {s : Blockchain}
    (h : (node d r).Reachable AmountsFit s) : SumsInRange s := by
  refine h.invariant SumsInRange ?_ ?_
  · rintro s ⟨now, hs⟩
    exact sumsInRange_of_construct hs
  · intro s op s' hreach hs hop hrun
    exact (sumsInRange_step_iff (coherent_of_reachable hreach) (isValid_of_reachable hreach) hs
      hrun).mpr hop

/-- In every history in which the amounts brought in by the steps fit, no sum leaves the range;
and the first step whose amounts do not fit leads to a state where one does. -/
theorem sumsInRange_of_amountsFit {d : Int32} {r : money.Amount} {s : Blockchain}
    (h : (node d r).Reachable AmountsFit s) :
    SumsInRange s ∧ ∀ op s', op.run s = some s' → (SumsInRange s' ↔ AmountsFit s op) := by
  have hs := sumsInRange_of_reachable h
  exact ⟨hs, fun op s' hrun =>
    sumsInRange_step_iff (coherent_of_reachable h) (isValid_of_reachable h) hs hrun⟩

theorem net_payingBlock (a : Bytes) : net payingBlock.transactions a =
    (if ascii "carol" = a then 4000000000 else 0) - (if payer = a then 4000000000 else 0) +
      if payer = a then 5000000000 else 0 := by
  have hpostings : payingBlock.transactions.flatMap Transaction.postings =
      [(ascii "carol", 4000000000), (payer, -4000000000), (payer, 5000000000)] := rfl
  rw [← posted_eq_net, hpostings]
  simp only [posted_cons, posted_nil]
  split_ifs <;> ring

/-- The payer mines, has a payment to Bob pending, and gets a block with the payment to Carol. -/
theorem sumsInRange_of_amountsFit_paid : SumsInRange paid := by
  have hmine : AmountsFit (fresh (money.coins 50) 0) (.minePendingTransactions payer 0 0 1) := by
    intro _
    change CreditsFit _ [rewardTo payer 0]
    rw [creditsFit_cons_iff]
    exact ⟨by decide, by simp [CreditsFit]⟩
  have hpending : AmountsFit funded (.addTransaction paymentToBob) :=
    fun _ hsystem => absurd hsystem (by decide)
  have hblock : AmountsFit (funded.withPool [paymentToBob]) (.addBlock (some payingBlock)) := by
    intro _ _
    have hbalance (a : Bytes) : (funded.withPool [paymentToBob]).getBalance a = _ :=
      getBalance_funded a
    refine ⟨⟨?_, ?_⟩, fun a ha => ?_⟩
    · change CreditsFit _ [paymentToCarol, rewardTo payer 1]
      rw [creditsFit_cons_iff, creditsFit_cons_iff]
      exact ⟨by decide, by decide, by simp [CreditsFit]⟩
    · change DebitsFit _ [paymentToCarol, rewardTo payer 1]
      rw [debitsFit_cons_iff, debitsFit_cons_iff]
      exact ⟨fun _ => by decide, fun _ => by decide, by simp [DebitsFit]⟩
    · have hsub : List.Sublist (purgePending [paymentToBob] payingBlock) [paymentToBob] := by
        rw [purgePending_eq]
        exact List.filter_sublist
      have hpending := outflow_le_of_sublist hsub
        (List.forall_mem_singleton.mpr isValid_paymentToBob) a
      have hbob : outflow [paymentToBob] a ≤ 4000000000 := by
        rw [outflow_singleton]
        split_ifs <;> decide
      rw [hbalance, net_payingBlock]
      change outflow (purgePending [paymentToBob] payingBlock) a ≤ _
      split_ifs <;> omega
  exact (sumsInRange_of_amountsFit (reachable_paid hmine hpending hblock)).1

/-! ### Too many rewards -/

/-- Rewards of the largest amount to Alice, with different salts. -/
def largestRewards (n : ℕ) : List Transaction :=
  (List.range n).map fun i =>
    Transaction.create Transaction.system (ascii "alice") money.MAX_MONEY 0 (UInt64.ofNat i)

theorem forall_mem_largestRewards {p : Transaction → Prop} {n : ℕ}
    (h : ∀ txNonce, p (Transaction.create Transaction.system (ascii "alice") money.MAX_MONEY 0
      txNonce)) : ∀ tx ∈ largestRewards n, p tx := by
  intro tx htx
  obtain ⟨i, -, rfl⟩ := List.mem_map.mp htx
  exact h _

theorem isValid_of_mem_largestRewards {n : ℕ} : ∀ tx ∈ largestRewards n, tx.isValid = true := by
  have halice : ascii "alice" ≠ [] ∧ money.isValidAmount money.MAX_MONEY = true ∧
      ascii "alice" ≠ Transaction.system := by decide
  exact forall_mem_largestRewards fun _ => (Transaction.isValid_system_iff rfl).mpr halice

theorem safeFields_of_mem_largestRewards {n : ℕ} : ∀ tx ∈ largestRewards n, tx.SafeFields := by
  have halice : IsWord (ascii "alice") := by decide
  have hempty : (∀ c ∈ ([] : Bytes), isSpace c = false) ∧ [] ≠ dash := ⟨by simp, by decide⟩
  exact forall_mem_largestRewards fun _ => ⟨Transaction.isWord_system, halice, hempty, hempty⟩

theorem net_largestRewards (n : ℕ) :
    net (largestRewards n) (ascii "alice") = n * money.MAX_MONEY.toInt := by
  have halice : ascii "alice" ≠ Transaction.system := by decide
  have hreceived : inflow (largestRewards n) (ascii "alice") = n * money.MAX_MONEY.toInt := by
    simp [inflow, largestRewards, Function.comp_def, Transaction.create]
  have hspent : outflow (largestRewards n) (ascii "alice") = 0 := by
    simp [outflow, largestRewards, Function.comp_def, Transaction.create, halice.symm]
  rw [net_of_ne_system halice, hreceived, hspent, sub_zero]

/-- A chain with one block of such rewards. -/
def overpaid (n : ℕ) : Blockchain :=
  (fresh (money.coins 50) 0).pushBlock
    (assemble (fresh (money.coins 50) 0).chain 0 (largestRewards n)) []

/-- The file of the chain is accepted. -/
theorem loadFromFile_overpaid (t : Blockchain) {n : ℕ} (h : n < UInt64.size) :
    t.loadFromFile (some (overpaid n).saveToFile) = ((overpaid n).reloaded, true) := by
  have hsize : (largestRewards n).length < UInt64.size := by
    rwa [largestRewards, List.length_map, List.length_range]
  have hreward : money.isValidAmount (money.coins 50) = true := by decide
  have hextends : Extends 0 (fresh (money.coins 50) 0).chain
      (assemble (fresh (money.coins 50) 0).chain 0 (largestRewards n)) :=
    extends_assemble (by simp [fresh]) isValid_of_mem_largestRewards (by decide)
  refine loadFromFile_saveToFile t hreward
    (safeFields_first hsize safeFields_of_mem_largestRewards) ?_
  exact (isChainValid_concat_iff (fresh (money.coins 50) 0).chain_ne_nil).mpr
    ⟨isChainValid_fresh _ _, hextends⟩

theorem getBalance_overpaid (n : ℕ) :
    (overpaid n).reloaded.getBalance (ascii "alice") = n * money.MAX_MONEY.toInt := by
  change (updateBalances ((fresh (money.coins 50) 0).chain ++ [_])).balance (ascii "alice") = _
  rw [balance_updateBalances_concat, Block.postings, posted_eq_net]
  exact (zero_add _).trans (net_largestRewards n)

/-- With 4393 rewards of 21 million coins the balance of Alice leaves the range. -/
theorem sums_overflow :
    ((fresh (money.coins 50) 0).loadFromFile (some (overpaid 4393).saveToFile)).2 = true ∧
    (node 0 (money.coins 50)).Reachable (fun _ _ => True)
      ((fresh (money.coins 50) 0).loadFromFile (some (overpaid 4393).saveToFile)).1 ∧
    ¬ SumsInRange
      ((fresh (money.coins 50) 0).loadFromFile (some (overpaid 4393).saveToFile)).1 := by
  have hreach := reachable_of_run
    (reachable_fresh (money.coins 50) 0 fun _ _ => True)
    (.loadFromFile (some (overpaid 4393).saveToFile)) trivial rfl
  refine ⟨?_, hreach, fun h => ?_⟩
  · rw [loadFromFile_overpaid _ (by decide)]
  · have hbalance := getBalance_mem_amountRange (coherent_of_reachable hreach) h.replay
      (ascii "alice")
    rw [loadFromFile_overpaid _ (by decide), getBalance_overpaid] at hbalance
    have hcap : money.MAX_MONEY.toInt = 2100000000000000 := rfl
    have hupper := hbalance.2
    rw [hcap] at hupper
    omega

/-! ### Few transactions -/

/-- What valid transactions contribute is within the cap for each of them. -/
theorem contribution_le {txs : List Transaction} (h : ∀ tx ∈ txs, tx.isValid = true)
    (p : Transaction → Prop) [DecidablePred p] :
    (txs.map fun tx => if p tx then tx.amount.toInt else 0).sum ≤
      txs.length * money.MAX_MONEY.toInt := by
  have hcap : money.MAX_MONEY.toInt = 2100000000000000 := rfl
  induction txs with
  | nil => simp
  | cons tx txs ih =>
    rw [List.forall_mem_cons] at h
    have hhead := (money.isValidAmount_iff.mp (Transaction.isValid_parts h.1).2.2.1).2
    have htail := ih h.2
    rw [List.map_cons, List.sum_cons, List.length_cons]
    rw [hcap] at htail ⊢
    push_cast
    split_ifs <;> omega

theorem outflow_le {txs : List Transaction} (h : ∀ tx ∈ txs, tx.isValid = true) (a : Bytes) :
    outflow txs a ≤ txs.length * money.MAX_MONEY.toInt :=
  contribution_le h fun tx => tx.sender = a

theorem inflow_le {txs : List Transaction} (h : ∀ tx ∈ txs, tx.isValid = true) (a : Bytes) :
    inflow txs a ≤ txs.length * money.MAX_MONEY.toInt :=
  contribution_le h fun tx => tx.receiver = a

/-- The net amount of valid transactions is within the cap for each of them. -/
theorem abs_net_le {txs : List Transaction} (h : ∀ tx ∈ txs, tx.isValid = true) (a : Bytes) :
    |net txs a| ≤ txs.length * money.MAX_MONEY.toInt := by
  have hreceived := inflow_nonneg h a
  have hspent := outflow_nonneg h a
  have hreceived_le := inflow_le h a
  have hspent_le := outflow_le h a
  rw [abs_le, net]
  split_ifs <;> omega

theorem creditsFit_of_length_le {txs : List Transaction} (h : ∀ tx ∈ txs, tx.isValid = true)
    (hlength : txs.length ≤ 4392) : CreditsFit (fun _ => 0) txs := by
  intro before tx hbefore
  have hcap : money.MAX_MONEY.toInt = 2100000000000000 := rfl
  have hmem : tx ∈ txs := hbefore.mem (by simp)
  have hsub : ∀ t ∈ before, t.isValid = true := fun t ht => h t (hbefore.mem (by simp [ht]))
  have hnet := (abs_le.mp (abs_net_le hsub tx.receiver)).2
  have hamount := (money.isValidAmount_iff.mp (Transaction.isValid_parts (h tx hmem)).2.2.1).2
  have hle := hbefore.length_le
  rw [List.length_append, List.length_singleton] at hle
  rw [hcap] at hnet
  change 0 + net before tx.receiver + tx.amount.toInt ≤ _
  omega

theorem debitsFit_of_length_le {txs : List Transaction} (h : ∀ tx ∈ txs, tx.isValid = true)
    (hlength : txs.length ≤ 4392) : DebitsFit (fun _ => 0) txs := by
  intro before tx hbefore _
  have hcap : money.MAX_MONEY.toInt = 2100000000000000 := rfl
  have hsub : ∀ t ∈ before ++ [tx], t.isValid = true := fun t ht => h t (hbefore.mem ht)
  have hnet := (abs_le.mp (abs_net_le hsub tx.sender)).1
  have hle := hbefore.length_le
  rw [hcap] at hnet
  change _ ≤ 0 + net (before ++ [tx]) tx.sender
  omega

/-- In every history, as long as chain and pool hold at most 4392 transactions, no sum leaves the
range. -/
theorem sumsInRange_of_length_le {d : Int32} {r : money.Amount}
    {ok : Blockchain → Operation → Prop} {s : Blockchain} (h : (node d r).Reachable ok s)
    (hlength : (transactions s.chain).length + s.pendingTransactions.length ≤ 4392) :
    SumsInRange s := by
  have hcap : money.MAX_MONEY.toInt = 2100000000000000 := rfl
  have hs := coherent_of_reachable h
  have hvalid := isValid_of_reachable h
  have hreplay : (∅ : Book Bytes).StaysIn amountRange (s.chain.flatMap Block.postings) :=
    (staysIn_flatMap_iff hvalid).mpr ⟨creditsFit_of_length_le hvalid (by omega),
      debitsFit_of_length_le hvalid (by omega)⟩
  have hpending (a : Bytes) := outflow_le hs.pool_valid a
  simp only [hcap] at hpending
  refine (sumsInRange_iff hs hvalid).mpr ⟨hreplay, fun a => ?_, fun a _ => ?_⟩
  · have hupper := hpending a
    omega
  · have hbalance : s.getBalance a = net (transactions s.chain) a := by
      rw [getBalance, hs.balances_eq, balance_updateBalances]
      rfl
    have hnet := (abs_le.mp (abs_net_le hvalid a)).1
    have hupper := hpending a
    rw [hcap] at hnet
    rw [hbalance]
    omega

end Blockchain

end BlockchainCrypto
