import BlockchainCrypto.Chain.Agreement

/-!
# Saving and loading a live chain

A valid chain of a node that has not loaded a file survives `saveToFile` and `loadFromFile`
exactly when its transactions survive the text format. Everything that validation rests on does:
hashes and Merkle roots are hexadecimal, senders are addresses or the mint, and the genesis block
links to `0`. Left over are the fields that validation does not constrain: the receiver, the
signature, and the key of a reward.

## Main definitions

* `Transaction.PlainFields`: no white space in the free fields, and no stand-in for an empty one.
* `Blockchain.RoundTrips`: the file of a state is loaded with the same content.

## Main results

* `Blockchain.safeFields_of_validChain`: what a valid chain gives for free.
* `Blockchain.roundTrips_iff`: when a live chain survives.
-/

namespace BlockchainCrypto

open ByteText

/-- The receiver, the signature and the key of a reward have no white space, and neither signature
nor key is the stand-in for an empty field. -/
structure Transaction.PlainFields (tx : Transaction) : Prop where
  receiver : ∀ c ∈ tx.receiver, isSpace c = false
  signature : (∀ c ∈ tx.signature, isSpace c = false) ∧ tx.signature ≠ dash
  senderPubkey : tx.isSystem →
    (∀ c ∈ tx.senderPubkey, isSpace c = false) ∧ tx.senderPubkey ≠ dash

/-- The key of a valid payment has 66 digits, so it survives the text format. -/
theorem Transaction.safe_senderPubkey {tx : Transaction} (h : tx.isValid = true)
    (hpayment : ¬ tx.isSystem) :
    (∀ c ∈ tx.senderPubkey, isSpace c = false) ∧ tx.senderPubkey ≠ dash := by
  obtain ⟨hword, hlength⟩ := isWord_senderPubkey h hpayment
  refine ⟨hword.2, fun hdash => ?_⟩
  rw [hdash] at hlength
  exact absurd hlength (by decide)

theorem Transaction.safeFields_iff {tx : Transaction} (h : tx.isValid = true) :
    tx.SafeFields ↔ tx.PlainFields := by
  refine ⟨fun hs => ⟨hs.receiver.2, hs.signature, fun _ => hs.senderPubkey⟩, fun hp => ?_⟩
  refine ⟨isWord_sender h, ⟨(isValid_parts h).2.1, hp.receiver⟩, hp.signature, ?_⟩
  by_cases hs : tx.isSystem
  · exact hp.senderPubkey hs
  · exact safe_senderPubkey h hs

namespace Blockchain

/-- The header fields of the block survive the text format. -/
def SafeHeader (b : Block) : Prop :=
  IsWord b.previousHash ∧ IsWord b.hash ∧ b.merkleRoot = Block.merkleRootOf b.transactions

theorem safeHeader_of_valid {b : Block} (h : b.isValid = true) (hprevious : IsWord b.previousHash) :
    SafeHeader b := by
  obtain ⟨hhash, -, -, hroot⟩ := Block.isValid_iff.mp h
  exact ⟨hprevious, hhash ▸ utils.isWord_sha256 _, hroot⟩

/-- In a valid chain that starts from a link of its own, every header survives and every
transaction is valid. -/
theorem safeHeader_of_validChain {difficulty : Int32} {chain : List Block}
    (h : ValidChain difficulty chain)
    (hgenesis : ∀ g, chain.head? = some g → IsWord g.previousHash) :
    ∀ b ∈ chain, SafeHeader b ∧ ∀ tx ∈ b.transactions, tx.isValid = true := by
  induction h with
  | @single g hg =>
    have hvalid := (Block.isValidWithDifficulty_iff.mp hg).2
    simp only [List.forall_mem_singleton]
    exact ⟨safeHeader_of_valid hvalid (hgenesis g rfl), (Block.isValid_iff.mp hvalid).2.2.1⟩
  | @concat below b hbelow hb ih =>
    have hne := hbelow.ne_nil
    have hold := ih fun g hg => hgenesis g (by rw [List.head?_append_of_ne_nil _ hne]; exact hg)
    have hvalid := (Block.isValidWithDifficulty_iff.mp hb.valid).2
    simp only [List.forall_mem_append, List.forall_mem_singleton]
    refine ⟨hold, safeHeader_of_valid hvalid ?_, (Block.isValid_iff.mp hvalid).2.2.1⟩
    rw [hb.linked, blockAt_length_sub_one hne]
    exact (hold _ (List.getLast_mem hne)).1.2.1

/-- The sizes of the chain and of its blocks are values of `size_t`. -/
def Sized (chain : List Block) : Prop :=
  chain.length < UInt64.size ∧ ∀ b ∈ chain, b.transactions.length < UInt64.size

/-- A valid chain survives the text format exactly when its transactions have plain fields. -/
theorem safeFields_of_validChain {difficulty : Int32} {chain : List Block}
    (h : ValidChain difficulty chain)
    (hgenesis : ∀ g, chain.head? = some g → IsWord g.previousHash) :
    SafeFields chain ↔ Sized chain ∧ ∀ b ∈ chain, ∀ tx ∈ b.transactions, tx.PlainFields := by
  have hheader := safeHeader_of_validChain h hgenesis
  refine ⟨fun hs => ⟨⟨hs.size, fun b hb => (hs.blocks b hb).size⟩, fun b hb tx htx => ?_⟩,
    fun ⟨⟨hsize, hsizes⟩, hplain⟩ => ⟨hsize, fun b hb => ?_⟩⟩
  · exact (Transaction.safeFields_iff ((hheader b hb).2 tx htx)).mp
      ((hs.blocks b hb).transactions tx htx)
  · obtain ⟨⟨hprevious, hhash, hroot⟩, hvalid⟩ := hheader b hb
    exact ⟨hprevious, hhash, hroot, hsizes b hb, fun tx htx =>
      (Transaction.safeFields_iff (hvalid tx htx)).mpr (hplain b hb tx htx)⟩

/-- Without loading, the chain starts from a genesis block that links to `0`. -/
theorem genesis_of_reachable {d : Int32} {r : money.Amount} {s : Blockchain}
    (h : (node d r).Reachable NoLoad s) :
    ∀ g, s.chain.head? = some g → IsWord g.previousHash := by
  refine h.invariant (fun s => ∀ g, s.chain.head? = some g → IsWord g.previousHash) ?_ ?_
  · rintro s ⟨now, hs⟩ g hg
    obtain ⟨nonce, hash, hchain, -⟩ := construct_eq_some hs
    rw [hchain] at hg
    obtain rfl := Option.some.inj hg
    change IsWord (ascii "0")
    decide
  · intro s op s' _ hs hop hstep
    have happend (b : Block) (pool : List Transaction) :
        ∀ g, (s.pushBlock b pool).chain.head? = some g → IsWord g.previousHash := by
      intro g hg
      refine hs g ?_
      rwa [pushBlock, List.head?_append_of_ne_nil _ s.chain_ne_nil] at hg
    cases effect_of_run hstep with
    | unchanged => exact hs
    | admitted htx => exact hs
    | mined hreward hb => exact happend _ _
    | received hfits hpool => exact happend _ _
    | refused => exact hop.elim
    | adopted hread hvalid => exact hop.elim

/-- Wherever the file of the state is loaded, it is adopted with the same content. -/
def RoundTrips (s : Blockchain) : Prop :=
  ∀ t : Blockchain, (t.loadFromFile (some s.saveToFile)).2 = true ∧
    (t.loadFromFile (some s.saveToFile)).1.difficulty = s.difficulty ∧
    (t.loadFromFile (some s.saveToFile)).1.miningReward = s.miningReward ∧
    (t.loadFromFile (some s.saveToFile)).1.chain = s.chain ∧
    (t.loadFromFile (some s.saveToFile)).1.balances = s.balances

theorem safeFields_of_roundTrips {s : Blockchain} (h : RoundTrips s) : SafeFields s.chain := by
  obtain ⟨haccept, -, -, hchain, -⟩ := h s
  obtain ⟨d, r, parsed, rest, hread, hvalid, hload⟩ := loadFromFile_accepts haccept
  rw [hload] at hchain
  have hparsed := (safeFields_of_readFile hread).2
  rwa [show parsed = s.chain from hchain] at hparsed

/-- A valid chain of any history without loading, with a valid mining reward, survives exactly
when its transactions have plain fields. -/
theorem roundTrips_iff {d : Int32} {r : money.Amount} {s : Blockchain}
    (hs : (node d r).Reachable NoLoad s) (hvalid : isChainValid s.chain s.difficulty = true)
    (hreward : money.isValidAmount s.miningReward = true) :
    RoundTrips s ↔
      Sized s.chain ∧ ∀ b ∈ s.chain, ∀ tx ∈ b.transactions, tx.PlainFields := by
  rw [← safeFields_of_validChain (isChainValid_iff.mp hvalid) (genesis_of_reachable hs)]
  refine ⟨safeFields_of_roundTrips, fun hsafe t => ?_⟩
  rw [loadFromFile_saveToFile t hreward hsafe hvalid]
  exact ⟨rfl, rfl, rfl, rfl, (coherent_of_reachable hs).balances_eq.symm⟩

/-- The first block on a fresh chain survives with its transactions. -/
theorem safeFields_first {txs : List Transaction} {timestamp : Int64}
    (hsize : txs.length < UInt64.size) (hsafe : ∀ tx ∈ txs, tx.SafeFields) :
    SafeFields ((fresh (money.coins 50) 0).chain ++
      [assemble (fresh (money.coins 50) 0).chain timestamp txs]) := by
  refine ⟨(by decide : 2 < UInt64.size), ?_⟩
  rw [List.forall_mem_append]
  refine ⟨List.forall_mem_singleton.mpr ⟨?_, utils.isWord_sha256 _, rfl, ?_, ?_⟩,
    List.forall_mem_singleton.mpr ⟨utils.isWord_sha256 _, utils.isWord_sha256 _, rfl, hsize, hsafe⟩⟩
  · change IsWord (ascii "0")
    decide
  · exact (by decide : 0 < UInt64.size)
  · exact fun tx htx => absurd htx List.not_mem_nil

theorem safeFields_rewardTo {rewardAddress : Bytes} {txTime : Int64}
    (h : IsWord rewardAddress) : (rewardTo rewardAddress txTime).SafeFields := by
  have hempty : (∀ c ∈ ([] : Bytes), isSpace c = false) ∧ [] ≠ dash :=
    ⟨by simp, by decide⟩
  exact ⟨Transaction.isWord_system, h, hempty, hempty⟩

/-- A chain with one reward survives. -/
theorem roundTrips_firstMined : RoundTrips (firstMined (ascii "miner") 5 6) := by
  have hreach : (node 0 (money.coins 50)).Reachable NoLoad (firstMined (ascii "miner") 5 6) :=
    reachable_firstMined trivial (by decide)
  have hvalid : isChainValid (firstMined (ascii "miner") 5 6).chain 0 = true :=
    isChainValid_firstMined (by decide) (by decide)
  have hsafe : SafeFields (firstMined (ascii "miner") 5 6).chain :=
    safeFields_first (by decide)
      (List.forall_mem_singleton.mpr (safeFields_rewardTo (by decide)))
  exact (roundTrips_iff hreach hvalid (by decide)).mpr
    ((safeFields_of_validChain (isChainValid_iff.mp hvalid) (genesis_of_reachable hreach)).mp hsafe)

/-- The reward of a mining step to an address with a space does not survive. -/
theorem spaced_address_lost :
    (node 0 (money.coins 50)).Reachable NoLoad (firstMined (ascii "a b") 5 6) ∧
      isChainValid (firstMined (ascii "a b") 5 6).chain 0 = true ∧
      money.isValidAmount (firstMined (ascii "a b") 5 6).miningReward = true ∧
      ¬ RoundTrips (firstMined (ascii "a b") 5 6) := by
  refine ⟨reachable_firstMined trivial (by decide), isChainValid_firstMined (by decide) (by decide),
    by decide, fun h => ?_⟩
  have hsafe := (safeFields_of_roundTrips h).blocks _
    (List.mem_append_right _ (List.mem_singleton_self _))
  have hreward := hsafe.transactions (rewardTo (ascii "a b") 6) (List.mem_singleton_self _)
  exact absurd hreward.receiver (by decide)

end Blockchain

end BlockchainCrypto
