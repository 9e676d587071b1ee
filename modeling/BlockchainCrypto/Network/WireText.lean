import BlockchainCrypto.Chain.Acceptance
import BlockchainCrypto.Network.Serializers

/-!
# Round trips of the wire text

A valid transaction or block survives the wire text exactly when the separators do not occur in
its text fields. Validity takes care of the fields that are hexadecimal; the receiver, the
signature, the key of a reward and the link of a block to its predecessor remain. In the other
direction a decoder accepts more than the encoder writes: what it accepts is the text of the
decoded value exactly when it splits into the right number of fields with all numbers rendered as
the encoder renders them.

## Main definitions

* `Transaction.Separated`: the separators do not occur in the fields that validity leaves free.
* `p2p.TransactionSerializer.WellFormed`, `p2p.BlockSerializer.WellFormed`: the texts that the
  encoders write, field by field.

## Main results

* `p2p.without_iff_separated`: what validity rules out.
* `p2p.wire_roundTrips_iff`: when a valid transaction or block survives.
* `p2p.wire_faithful_iff`: when an accepted text is the text of the decoded value.
-/

namespace BlockchainCrypto

open ByteText ECCrypto

/-- The bytes in `avoid` do not occur in the receiver, the signature and the key of a reward. -/
structure Transaction.Separated (avoid : Bytes) (tx : Transaction) : Prop where
  receiver : ∀ c ∈ avoid, c ∉ tx.receiver
  signature : ∀ c ∈ avoid, c ∉ tx.signature
  senderPubkey : tx.isSystem → ∀ c ∈ avoid, c ∉ tx.senderPubkey

namespace p2p

/-- A separator that occurs neither in hexadecimal text nor in the name of the mint. -/
structure IsDelimiter (c : UInt8) : Prop where
  separator : IsSeparator c
  not_isHexDigit : isHexDigit c = false
  not_mem_system : c ∉ Transaction.system

theorem isDelimiter_bar : IsDelimiter bar := ⟨isSeparator_bar, by decide, by decide⟩

theorem isDelimiter_comma : IsDelimiter comma := ⟨isSeparator_comma, by decide, by decide⟩

theorem not_mem_of_isHexDigit {c : UInt8} (hc : IsDelimiter c) {s : Bytes}
    (hs : ∀ b ∈ s, isHexDigit b = true) : c ∉ s := fun hmem => by
  simpa [hc.not_isHexDigit] using hs c hmem

/-- Validity keeps delimiters out of the sender and out of the key of a payment. -/
theorem without_iff_separated {tx : Transaction} (h : tx.isValid = true) {avoid : Bytes}
    (havoid : ∀ c ∈ avoid, IsDelimiter c) : tx.Without avoid ↔ tx.Separated avoid := by
  refine ⟨fun hw => ⟨hw.receiver, hw.signature, fun _ => hw.senderPubkey⟩, fun hs => ?_⟩
  refine ⟨fun c hc => ?_, hs.receiver, hs.signature, fun c hc => ?_⟩
  · by_cases hsystem : tx.isSystem
    · have hsystem : tx.sender = Transaction.system := hsystem
      rw [hsystem]
      exact (havoid c hc).not_mem_system
    · exact not_mem_of_isHexDigit (havoid c hc) (Transaction.isHexDigit_sender h hsystem)
  · by_cases hsystem : tx.isSystem
    · exact hs.senderPubkey hsystem c hc
    · exact not_mem_of_isHexDigit (havoid c hc) (Transaction.isHexDigit_senderPubkey h hsystem)

theorem transactionSerializer_roundTrips_iff {tx : Transaction} (h : tx.isValid = true) :
    TransactionSerializer.deserialize (TransactionSerializer.serialize tx) = some tx ↔
      tx.Separated [bar] := by
  rw [← without_iff_separated h (List.forall_mem_singleton.mpr isDelimiter_bar)]
  refine ⟨TransactionSerializer.without_of_deserialize, fun hw => ?_⟩
  exact TransactionSerializer.deserialize_of_splitOn
    ((TransactionSerializer.serialize_eq_iff hw).mp rfl)

/-- A block with a current Merkle root and without separators in its text fields survives. -/
theorem deserialize_serialize {b : Block} (hroot : b.merkleRoot = Block.merkleRootOf b.transactions)
    (hprevious : bar ∉ b.previousHash) (hhash : bar ∉ b.hash)
    (htxs : ∀ tx ∈ b.transactions, tx.Without [comma, bar])
    (hcount : b.transactions.length ≤ maxTransactions) :
    BlockSerializer.deserialize (BlockSerializer.serialize b) = some b := by
  have hfree : bar ∉ b.merkleRoot := by
    rw [hroot, Block.merkleRootOf_eq]
    exact not_mem_of_isHexDigit isDelimiter_bar (utils.isHexWord_calculateMerkleRoot _).2
  rw [BlockSerializer.deserialize_of_splitOn (BlockSerializer.records_map_record htxs) hcount
    (BlockSerializer.splitOn_serialize hprevious hhash hfree htxs), ← hroot]

/-- The hash of a valid block is hexadecimal. -/
theorem not_mem_hash_of_valid {b : Block} (h : b.isValid = true) {c : UInt8} (hc : IsDelimiter c) :
    c ∉ b.hash := by
  rw [(Block.isValid_iff.mp h).1]
  exact not_mem_of_isHexDigit hc (utils.isHexWord_sha256 _).2

theorem blockSerializer_roundTrips_iff {b : Block} (h : b.isValid = true) :
    BlockSerializer.deserialize (BlockSerializer.serialize b) = some b ↔
      bar ∉ b.previousHash ∧ (∀ tx ∈ b.transactions, tx.Separated [comma, bar]) ∧
        b.transactions.length ≤ maxTransactions := by
  obtain ⟨-, -, hvalid, hroot⟩ := Block.isValid_iff.mp h
  have hsep : ∀ c ∈ [comma, bar], IsDelimiter c :=
    List.forall_mem_cons.mpr ⟨isDelimiter_comma, List.forall_mem_singleton.mpr isDelimiter_bar⟩
  constructor
  · intro hb
    obtain ⟨hprevious, -, -, hcount, htxs⟩ := BlockSerializer.deserialize_spec hb
    exact ⟨hprevious, fun tx htx => (without_iff_separated (hvalid tx htx) hsep).mp (htxs tx htx),
      hcount⟩
  · rintro ⟨hprevious, htxs, hcount⟩
    have hwithout : ∀ tx ∈ b.transactions, tx.Without [comma, bar] := fun tx htx =>
      (without_iff_separated (hvalid tx htx) hsep).mpr (htxs tx htx)
    exact deserialize_serialize hroot hprevious (not_mem_hash_of_valid h isDelimiter_bar) hwithout
      hcount

/-- A valid transaction survives exactly when the bar does not occur in the fields that validity
leaves free, and a valid block exactly when the bar does not occur in its link and neither
separator in the free fields of its transactions. -/
theorem wire_roundTrips_iff (tx : Transaction) (b : Block) :
    (tx.isValid = true →
      (TransactionSerializer.deserialize (TransactionSerializer.serialize tx) = some tx ↔
        tx.Separated [bar])) ∧
    (b.isValid = true →
      (BlockSerializer.deserialize (BlockSerializer.serialize b) = some b ↔
        bar ∉ b.previousHash ∧ (∀ tx ∈ b.transactions, tx.Separated [comma, bar]) ∧
          b.transactions.length ≤ maxTransactions)) :=
  ⟨transactionSerializer_roundTrips_iff, blockSerializer_roundTrips_iff⟩

/-- A reward and the first block that carries it survive. -/
theorem wire_roundTrips_first :
    TransactionSerializer.deserialize (TransactionSerializer.serialize
      (Blockchain.rewardTo (ascii "bob") 1)) = some (Blockchain.rewardTo (ascii "bob") 1) ∧
    BlockSerializer.deserialize (BlockSerializer.serialize
      (Blockchain.assemble (Blockchain.fresh 1 0).chain 1 [Blockchain.rewardTo (ascii "bob") 1])) =
      some (Blockchain.assemble (Blockchain.fresh 1 0).chain 1
        [Blockchain.rewardTo (ascii "bob") 1]) := by
  have hreward : (Blockchain.rewardTo (ascii "bob") 1).isValid = true := by decide
  have htxs : ∀ tx ∈ [Blockchain.rewardTo (ascii "bob") 1], tx.isValid = true :=
    List.forall_mem_singleton.mpr hreward
  have hblock : (Blockchain.assemble (Blockchain.fresh 1 0).chain 1
      [Blockchain.rewardTo (ascii "bob") 1]).isValid = true :=
    (Block.isValidWithDifficulty_iff.mp
      (Blockchain.isValidWithDifficulty_firstNonce rfl ⟨rfl, htxs⟩)).2
  have hfree : (Blockchain.rewardTo (ascii "bob") 1).Separated [bar] :=
    ⟨by decide +kernel, by decide +kernel, by decide +kernel⟩
  have hfree' : (Blockchain.rewardTo (ascii "bob") 1).Separated [comma, bar] :=
    ⟨by decide +kernel, by decide +kernel, by decide +kernel⟩
  obtain ⟨htx, hb⟩ := wire_roundTrips_iff (Blockchain.rewardTo (ascii "bob") 1)
    (Blockchain.assemble (Blockchain.fresh 1 0).chain 1 [Blockchain.rewardTo (ascii "bob") 1])
  refine ⟨(htx hreward).mpr hfree, (hb hblock).mpr ⟨?_, List.forall_mem_singleton.mpr hfree',
    (by decide : 1 ≤ maxTransactions)⟩⟩
  exact not_mem_of_isHexDigit isDelimiter_bar (utils.isHexWord_sha256 _).2

/-- A reward to an address with a bar is valid and does not survive. -/
theorem barred_address_lost : ¬
    ((∀ tx : Transaction, tx.isValid = true →
      TransactionSerializer.deserialize (TransactionSerializer.serialize tx) = some tx) ∧
    ∀ b : Block, b.isValid = true →
      BlockSerializer.deserialize (BlockSerializer.serialize b) = some b) := by
  intro h
  exact absurd (h.1 (Blockchain.rewardTo (ascii "a|b") 1) (by decide)) (by decide)

/-! ### Accepted texts -/

/-- A text of seven fields between bars, with the amount, the timestamp and the nonce rendered as
the encoder renders them. -/
def TransactionSerializer.WellFormed (s : Bytes) : Prop :=
  ∃ tx, s.splitOn bar = transactionFields tx

/-- A text of eight header fields and as many records as the last of these says, between bars,
where each record has seven fields between commas, all numbers are rendered as the encoder renders
them, and the Merkle root is the one of the transactions in the records. -/
def BlockSerializer.WellFormed (s : Bytes) : Prop :=
  ∃ (b : Block) (records : List Bytes), s.splitOn bar = headerFields b ++ records ∧
    Records records b.transactions ∧ b.transactions.length ≤ maxTransactions ∧
      b.merkleRoot = Block.merkleRootOf b.transactions

/-- An accepted text of a transaction is the text of what is decoded exactly when it is
well-formed. -/
theorem transactionSerializer_faithful_iff {tx : Transaction} {s : Bytes}
    (h : TransactionSerializer.deserialize s = some tx) :
    TransactionSerializer.serialize tx = s ↔ TransactionSerializer.WellFormed s := by
  rw [TransactionSerializer.serialize_eq_iff (TransactionSerializer.without_of_deserialize h)]
  refine ⟨fun hs => ⟨tx, hs⟩, fun ⟨tx', hs⟩ => ?_⟩
  have htx := (TransactionSerializer.deserialize_of_splitOn hs).symm.trans h
  rwa [Option.some.inj htx] at hs

/-- An accepted text of a block is the text of what is decoded, with no more transactions than
records, exactly when it is well-formed. -/
theorem blockSerializer_faithful_iff {b : Block} {s : Bytes}
    (h : BlockSerializer.deserialize s = some b) :
    (BlockSerializer.serialize b = s ∧ b.transactions.length ≤ (s.splitOn bar).length - 8) ↔
      BlockSerializer.WellFormed s := by
  obtain ⟨hprevious, hhash, hroot, hcount, htxs⟩ := BlockSerializer.deserialize_spec h
  constructor
  · rintro ⟨rfl, -⟩
    have hfree : bar ∉ b.merkleRoot := by
      rw [hroot, Block.merkleRootOf_eq]
      exact not_mem_of_isHexDigit isDelimiter_bar (utils.isHexWord_calculateMerkleRoot _).2
    exact ⟨b, _, BlockSerializer.splitOn_serialize hprevious hhash hfree htxs,
      BlockSerializer.records_map_record htxs, hcount, hroot⟩
  · rintro ⟨b', records, hs, hrecords, hcount', hroot'⟩
    have hb := (BlockSerializer.deserialize_of_splitOn hrecords hcount' hs).symm.trans h
    rw [← hroot'] at hb
    obtain rfl : b' = b := Option.some.inj hb
    refine ⟨?_, ?_⟩
    · rw [BlockSerializer.serialize, ← hrecords.eq_map_record, ← hs, List.intercalate_splitOn]
    · rw [hs, List.length_append, ← hrecords.length_eq]
      exact Nat.le_sub_of_add_le (Nat.add_comm _ _).le

/-- An accepted text is the text of what is decoded exactly when it is well-formed. -/
theorem wire_faithful_iff (s : Bytes) :
    (∀ tx, TransactionSerializer.deserialize s = some tx →
      (TransactionSerializer.serialize tx = s ↔ TransactionSerializer.WellFormed s)) ∧
    ∀ b, BlockSerializer.deserialize s = some b →
      (BlockSerializer.serialize b = s ∧ b.transactions.length ≤ (s.splitOn bar).length - 8 ↔
        BlockSerializer.WellFormed s) :=
  ⟨fun _ h => transactionSerializer_faithful_iff h, fun _ h => blockSerializer_faithful_iff h⟩

/-- A text with a leading zero is accepted and is not the text of what is decoded. -/
theorem wire_faithful_leadingZero :
    ¬ TransactionSerializer.WellFormed (ascii "a|b|01|2|||3") := by
  have haccept : TransactionSerializer.deserialize (ascii "a|b|01|2|||3") =
      some ⟨ascii "a", ascii "b", 1, 2, 3, [], []⟩ := by decide
  exact fun h => absurd (((wire_faithful_iff _).1 _ haccept).mpr h) (by decide)

/-- A block header that announces one transaction is accepted without any record: the transaction
is made of the number that announces it. -/
theorem truncated_block_accepted : ¬
    ((∀ s tx, TransactionSerializer.deserialize s = some tx →
      TransactionSerializer.serialize tx = s) ∧
    ∀ s b, BlockSerializer.deserialize s = some b →
      BlockSerializer.serialize b = s ∧ b.transactions.length ≤ (s.splitOn bar).length - 8) := by
  rintro ⟨-, h⟩
  have haccept : (BlockSerializer.deserialize (ascii "0|0|a|b|c|0|0|1")).map
      (·.transactions) = some [⟨[], [], 1, 1, 1, [], []⟩] := by decide
  obtain ⟨b, hb, htxs⟩ := Option.map_eq_some_iff.mp haccept
  have hcount := (h _ b hb).2
  rw [htxs] at hcount
  exact absurd hcount (by decide)

end p2p

end BlockchainCrypto
