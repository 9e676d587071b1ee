import BlockchainCrypto.Core.Block
import BlockchainCrypto.Text.Delimited

/-!
# The wire text of blocks and transactions

`P2PMessage.h` sends a transaction as seven fields between bars, and a block as eight header
fields and one record for every transaction, all between bars, where the fields of a record are
separated by commas. Nothing is escaped. The decoders read field by field; a numeric field is
stored in a variable that is used again for the next one, so that a text that ends early is read
with the numbers already seen.

## Main definitions

* `p2p.TransactionSerializer`, `p2p.BlockSerializer`: `serialize` and `deserialize`.
* `p2p.readTransaction`: the decoding of seven fields, which both decoders share.
* `Transaction.Without`: no text field of the transaction contains one of the given bytes.

## Main results

* `p2p.takes_readTransaction`, `p2p.ensures_readTransaction`: what a transaction is read from and
  what is read.
* `p2p.BlockSerializer.deserialize_of_splitOn`: the block that a well-formed text stands for.
* `p2p.BlockSerializer.deserialize_spec`: what every decoded block satisfies.
-/

namespace BlockchainCrypto

open ByteText

/-- None of the bytes in `avoid` occurs in a text field of the transaction. -/
structure Transaction.Without (avoid : Bytes) (tx : Transaction) : Prop where
  sender : ∀ c ∈ avoid, c ∉ tx.sender
  receiver : ∀ c ∈ avoid, c ∉ tx.receiver
  signature : ∀ c ∈ avoid, c ∉ tx.signature
  senderPubkey : ∀ c ∈ avoid, c ∉ tx.senderPubkey

namespace p2p

/-- The separator of fields and records. -/
abbrev bar : UInt8 := 124

/-- The separator within a record. -/
abbrev comma : UInt8 := 44

/-- `max_size` of a vector of shared pointers, above which `reserve` throws. -/
def maxTransactions : ℕ := 2 ^ 59 - 1

/-- The fields of a transaction in wire order. -/
def transactionFields (tx : Transaction) : List Bytes :=
  [tx.sender, tx.receiver, decimalInt tx.amount.toInt, decimalInt tx.timestamp.toInt,
    tx.signature, tx.senderPubkey, decimal tx.nonce.toNat]

/-- The decoding of seven fields, with the value that `token` has before and after it. -/
def readTransaction (delim : UInt8) (token : Bytes) : LineReader (Transaction × Bytes) := do
  let sender ← getline delim []
  let receiver ← getline delim []
  let token ← getline delim token
  let amount ← stoll token
  let token ← getline delim token
  let timestamp ← stoll token
  let sig ← getline delim []
  let pubkey ← getline delim []
  let token ← getline delim token
  let nonce ← stoull token
  pure (⟨sender, receiver, amount, timestamp, nonce, sig, pubkey⟩, token)

namespace TransactionSerializer

/-- The wire form of a transaction. -/
def serialize (tx : Transaction) : Bytes := List.intercalate [bar] (transactionFields tx)

/-- The transaction of a wire form, or none. -/
def deserialize (data : Bytes) : Option Transaction :=
  ((readTransaction bar []).run' (some data)).map Prod.fst

end TransactionSerializer

namespace BlockSerializer

/-- The header fields in wire order, with the number of transactions. -/
def headerFields (block : Block) : List Bytes :=
  [decimalInt block.index.toInt, decimalInt block.timestamp.toInt, block.previousHash, block.hash,
    block.merkleRoot, decimalInt block.difficulty.toInt, decimalInt block.nonce.toInt,
    decimal block.transactions.length]

/-- The record of a transaction. -/
def record (tx : Transaction) : Bytes := List.intercalate [comma] (transactionFields tx)

/-- The wire form of a block: the fields of the header and a record for each transaction. -/
def serialize (block : Block) : Bytes :=
  List.intercalate [bar] (headerFields block ++ block.transactions.map record)

/-- The loop over the transaction records. -/
def readTransactions : ℕ → Bytes → LineReader (List Transaction)
  | 0, _ => pure []
  | n + 1, token => do
    let txData ← getline bar []
    let (tx, token) ← (readTransaction comma token).run' (some txData)
    let txs ← readTransactions n token
    pure (tx :: txs)

/-- The decoding of a block. The Merkle root of the text is read and dropped: the block computes
its own. -/
def read : LineReader Block := do
  let token ← getline bar []
  let index ← stoi token
  let token ← getline bar token
  let timestamp ← stoll token
  let prevHash ← getline bar []
  let hash ← getline bar []
  let _merkleRoot ← getline bar []
  let token ← getline bar token
  let difficulty ← stoi token
  let token ← getline bar token
  let nonce ← stoi token
  let token ← getline bar token
  let txCount ← stoull token
  let block := Block.create index prevHash difficulty timestamp
  if txCount.toNat > maxTransactions then fun _ => none
  else do
    let txs ← readTransactions txCount.toNat token
    pure ((block.setTransactions txs).setMinedState nonce hash)

/-- The block of a wire form, or none. -/
def deserialize (data : Bytes) : Option Block := read.run' (some data)

end BlockSerializer

/-! ### Transactions -/

/-- From the seven fields of a transaction the transaction is read. -/
theorem takes_readTransaction (delim : UInt8) (token : Bytes) (tx : Transaction) :
    Takes delim (readTransaction delim token) (transactionFields tx)
      (tx, decimal tx.nonce.toNat) := by
  rw [readTransaction]
  refine (takes_getline [] tx.sender).bind ?_
  refine (takes_getline [] tx.receiver).bind ?_
  refine (takes_getline _ (decimalInt tx.amount.toInt)).bind ?_
  refine (takes_lift (stoll_decimalInt tx.amount)).bind ?_
  refine (takes_getline _ (decimalInt tx.timestamp.toInt)).bind ?_
  refine (takes_lift (stoll_decimalInt tx.timestamp)).bind ?_
  refine (takes_getline [] tx.signature).bind ?_
  refine (takes_getline [] tx.senderPubkey).bind ?_
  refine (takes_getline _ (decimal tx.nonce.toNat)).bind ?_
  exact (takes_lift (stoull_decimal tx.nonce)).bind (takes_pure _)

/-- The text fields of a transaction that is read contain neither the delimiter nor any byte that
the stream does not contain. -/
theorem ensures_readTransaction (delim : UInt8) (avoid token : Bytes) :
    Ensures (Without avoid) (readTransaction delim token) fun p =>
      p.1.Without (delim :: avoid) := by
  have hfield := ensures_getline_nil delim avoid
  have htoken (t : Bytes) : Ensures (Without avoid) (getline delim t) fun _ => True :=
    (ensures_getline delim avoid t).mono fun _ _ => trivial
  have hlift {α : Type} (o : Option α) : Ensures (Without avoid) (liftM o) fun _ => True :=
    ensures_lift fun _ _ => trivial
  rw [readTransaction]
  refine hfield.bind fun sender hsender => ?_
  refine hfield.bind fun receiver hreceiver => ?_
  refine (htoken _).bind fun _ _ => (hlift _).bind fun amount _ => ?_
  refine (htoken _).bind fun _ _ => (hlift _).bind fun timestamp _ => ?_
  refine hfield.bind fun sig hsig => ?_
  refine hfield.bind fun pubkey hpubkey => ?_
  refine (htoken _).bind fun _ _ => (hlift _).bind fun nonce _ => ?_
  exact ensures_pure ⟨hsender, hreceiver, hsig, hpubkey⟩

/-- A byte that does not occur in renderings of numbers. -/
def IsSeparator (c : UInt8) : Prop := isDigit c = false ∧ c ≠ 45

theorem isSeparator_bar : IsSeparator bar := ⟨rfl, by decide⟩

theorem isSeparator_comma : IsSeparator comma := ⟨rfl, by decide⟩

theorem isSeparator_newline : IsSeparator newline := ⟨rfl, by decide⟩

theorem IsSeparator.not_mem {c : UInt8} (hc : IsSeparator c) (z : ℤ) : c ∉ decimalInt z :=
  not_mem_decimalInt hc.1 hc.2 z

/-- A separator that does not occur in the text fields of a transaction occurs in no field. -/
theorem not_mem_of_mem_transactionFields {tx : Transaction} {avoid f : Bytes} {c : UInt8}
    (htx : tx.Without avoid) (hc : c ∈ avoid) (hsep : IsSeparator c)
    (hf : f ∈ transactionFields tx) : c ∉ f := by
  simp only [transactionFields, List.mem_cons, List.not_mem_nil, or_false] at hf
  rcases hf with rfl | rfl | rfl | rfl | rfl | rfl | rfl
  · exact htx.sender c hc
  · exact htx.receiver c hc
  · exact hsep.not_mem _
  · exact hsep.not_mem _
  · exact htx.signature c hc
  · exact htx.senderPubkey c hc
  · exact hsep.not_mem tx.nonce.toNat

namespace TransactionSerializer

/-- The text of a transaction without bars splits into its fields, and no other text does. -/
theorem serialize_eq_iff {tx : Transaction} {s : Bytes} (htx : tx.Without [bar]) :
    serialize tx = s ↔ s.splitOn bar = transactionFields tx := by
  refine ⟨?_, fun h => ?_⟩
  · rintro rfl
    exact List.splitOn_intercalate bar (fun f hf => not_mem_of_mem_transactionFields htx
      (List.mem_singleton_self bar) isSeparator_bar hf) (List.cons_ne_nil _ _)
  · rw [serialize, ← h, List.intercalate_splitOn]

/-- A text with the fields of a transaction is decoded to the transaction. -/
theorem deserialize_of_splitOn {tx : Transaction} {s : Bytes}
    (h : s.splitOn bar = transactionFields tx) : deserialize s = some tx := by
  have htakes := takes_readTransaction bar [] tx
  rw [← h] at htakes
  rw [deserialize, htakes.run'_eq]
  rfl

/-- No text field of a decoded transaction contains a bar. -/
theorem without_of_deserialize {tx : Transaction} {s : Bytes} (h : deserialize s = some tx) :
    tx.Without [bar] := by
  obtain ⟨⟨tx', token⟩, hread, rfl⟩ := Option.map_eq_some_iff.mp h
  exact (ensures_readTransaction bar [] []).of_run' (fun _ _ _ hc => by cases hc) hread

end TransactionSerializer

/-! ### Blocks -/

namespace BlockSerializer

/-- The records stand for the transactions: each splits into the fields of its transaction. -/
abbrev Records : List Bytes → List Transaction → Prop :=
  List.Forall₂ fun r tx => r.splitOn comma = transactionFields tx

theorem takes_readTransactions {records : List Bytes} {txs : List Transaction}
    (h : Records records txs) (token : Bytes) :
    Takes bar (readTransactions txs.length token) records txs := by
  induction h generalizing token with
  | nil => exact takes_pure []
  | @cons r tx records txs hr _ ih =>
    have hread := takes_readTransaction comma token tx
    rw [← hr] at hread
    have htx : Takes bar _ [] _ := takes_lift hread.run'_eq
    rw [List.length_cons, readTransactions]
    refine (takes_getline [] r).bind (htx.bind ?_)
    rw [← List.append_nil records]
    exact (ih _).bind (takes_pure _)

/-- From its header fields and records a block is read, with the Merkle root that it computes. -/
theorem takes_read {b : Block} {records : List Bytes} (h : Records records b.transactions)
    (hcount : b.transactions.length ≤ maxTransactions) :
    Takes bar read (headerFields b ++ records)
      { b with merkleRoot := Block.merkleRootOf b.transactions } := by
  have hsize : b.transactions.length < UInt64.size :=
    lt_of_le_of_lt hcount (by decide)
  have hcount' : (UInt64.ofNat b.transactions.length).toNat = b.transactions.length :=
    UInt64.toNat_ofNat_of_lt' hsize
  have hstoull : stoull (decimal b.transactions.length) =
      some (UInt64.ofNat b.transactions.length) := by
    rw [stoull_decimal_eq, if_pos hsize]
  rw [read]
  refine (takes_getline _ (decimalInt b.index.toInt)).bind ?_
  refine (takes_lift (stoi_decimalInt b.index)).bind ?_
  refine (takes_getline _ (decimalInt b.timestamp.toInt)).bind ?_
  refine (takes_lift (stoll_decimalInt b.timestamp)).bind ?_
  refine (takes_getline [] b.previousHash).bind ?_
  refine (takes_getline [] b.hash).bind ?_
  refine (takes_getline [] b.merkleRoot).bind ?_
  refine (takes_getline _ (decimalInt b.difficulty.toInt)).bind ?_
  refine (takes_lift (stoi_decimalInt b.difficulty)).bind ?_
  refine (takes_getline _ (decimalInt b.nonce.toInt)).bind ?_
  refine (takes_lift (stoi_decimalInt b.nonce)).bind ?_
  refine (takes_getline _ (decimal b.transactions.length)).bind ?_
  refine (takes_lift hstoull).bind ?_
  rw [hcount', if_neg (by omega), ← List.append_nil records]
  exact (takes_readTransactions h _).bind (takes_pure _)

/-- A text with the header fields and the records of a block is decoded to the block. -/
theorem deserialize_of_splitOn {b : Block} {s : Bytes} {records : List Bytes}
    (h : Records records b.transactions) (hcount : b.transactions.length ≤ maxTransactions)
    (hs : s.splitOn bar = headerFields b ++ records) :
    deserialize s = some { b with merkleRoot := Block.merkleRootOf b.transactions } := by
  have htakes := takes_read h hcount
  rw [← hs] at htakes
  exact htakes.run'_eq

/-- The records of transactions without separators stand for them. -/
theorem records_map_record {txs : List Transaction} (h : ∀ tx ∈ txs, tx.Without [comma, bar]) :
    Records (txs.map record) txs := by
  induction txs with
  | nil => exact .nil
  | cons tx txs ih =>
    obtain ⟨htx, htxs⟩ := List.forall_mem_cons.mp h
    refine .cons (List.splitOn_intercalate comma (fun f hf => ?_) (List.cons_ne_nil _ _)) (ih htxs)
    exact not_mem_of_mem_transactionFields htx List.mem_cons_self isSeparator_comma hf

/-- Records that stand for transactions are the records of these. -/
theorem Records.eq_map_record {records : List Bytes} {txs : List Transaction}
    (h : Records records txs) : records = txs.map record := by
  induction h with
  | nil => rfl
  | @cons r tx records txs hr _ ih =>
    rw [List.map_cons, ← ih, record, ← hr, List.intercalate_splitOn]

/-- What every decoded block satisfies. -/
structure Decoded (b : Block) : Prop where
  previousHash : bar ∉ b.previousHash
  hash : bar ∉ b.hash
  merkleRoot_eq : b.merkleRoot = Block.merkleRootOf b.transactions
  count : b.transactions.length ≤ maxTransactions
  transactions : ∀ tx ∈ b.transactions, tx.Without [comma, bar]

theorem ensures_readTransactions (n : ℕ) (token : Bytes) :
    Ensures (Without []) (readTransactions n token) fun txs =>
      txs.length = n ∧ ∀ tx ∈ txs, tx.Without [comma, bar] := by
  induction n generalizing token with
  | zero => exact ensures_pure ⟨rfl, by simp⟩
  | succ n ih =>
    rw [readTransactions]
    refine (ensures_getline_nil bar []).bind fun txData htxData => ?_
    refine Ensures.bind (P := fun p => p.1.Without [comma, bar]) (ensures_lift fun p hp => ?_)
      fun p hp => ?_
    · refine (ensures_readTransaction comma [bar] token).of_run' (fun s hs => ?_) hp
      obtain rfl := Option.some.inj hs
      exact htxData
    · refine (ih p.2).bind fun txs htxs => ensures_pure ⟨?_, ?_⟩
      · rw [List.length_cons, htxs.1]
      · exact List.forall_mem_cons.mpr ⟨hp, htxs.2⟩

theorem ensures_read : Ensures (Without []) read Decoded := by
  have hfield := ensures_getline_nil bar []
  have htoken (t : Bytes) : Ensures (Without []) (getline bar t) fun _ => True :=
    (ensures_getline bar [] t).mono fun _ _ => trivial
  have hlift {α : Type} (o : Option α) : Ensures (Without []) (liftM o) fun _ => True :=
    ensures_lift fun _ _ => trivial
  rw [read]
  refine (htoken _).bind fun _ _ => (hlift _).bind fun index _ => ?_
  refine (htoken _).bind fun _ _ => (hlift _).bind fun timestamp _ => ?_
  refine hfield.bind fun prevHash hprevHash => ?_
  refine hfield.bind fun hash hhash => ?_
  refine hfield.bind fun _ _ => ?_
  refine (htoken _).bind fun _ _ => (hlift _).bind fun difficulty _ => ?_
  refine (htoken _).bind fun _ _ => (hlift _).bind fun nonce _ => ?_
  refine (htoken _).bind fun _ _ => (hlift _).bind fun txCount _ => ?_
  dsimp only
  split_ifs with hcount
  · intro st hst b st' hrun
    cases hrun
  · refine (ensures_readTransactions _ _).bind fun txs htxs => ensures_pure ?_
    exact ⟨hprevHash bar (List.mem_singleton_self bar), hhash bar (List.mem_singleton_self bar),
      rfl, by change txs.length ≤ _; omega, htxs.2⟩

/-- The text of a block whose text fields contain no separators splits into its header fields and
records. -/
theorem splitOn_serialize {b : Block} (hprevious : bar ∉ b.previousHash) (hhash : bar ∉ b.hash)
    (hroot : bar ∉ b.merkleRoot) (htxs : ∀ tx ∈ b.transactions, tx.Without [comma, bar]) :
    (serialize b).splitOn bar = headerFields b ++ b.transactions.map record := by
  have hnumber := isSeparator_bar.not_mem
  refine List.splitOn_intercalate bar (fun f hf => ?_) (by simp [headerFields])
  rcases List.mem_append.mp hf with hf | hf
  · simp only [headerFields, List.mem_cons, List.not_mem_nil, or_false] at hf
    rcases hf with rfl | rfl | rfl | rfl | rfl | rfl | rfl | rfl
    · exact hnumber _
    · exact hnumber _
    · exact hprevious
    · exact hhash
    · exact hroot
    · exact hnumber _
    · exact hnumber _
    · exact hnumber b.transactions.length
  · obtain ⟨tx, htx, rfl⟩ := List.mem_map.mp hf
    intro hbar
    rcases mem_of_mem_intercalate hbar with hbar | ⟨g, hg, hbar⟩
    · exact absurd hbar (by decide)
    · exact not_mem_of_mem_transactionFields (htxs tx htx)
        (List.mem_cons_of_mem comma (List.mem_singleton_self bar)) isSeparator_bar hg hbar

theorem deserialize_spec {b : Block} {s : Bytes} (h : deserialize s = some b) : Decoded b :=
  ensures_read.of_run' (fun _ _ _ hc => by cases hc) h

end BlockSerializer

end p2p

end BlockchainCrypto
