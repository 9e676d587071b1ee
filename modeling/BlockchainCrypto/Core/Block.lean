import BlockchainCrypto.Core.Transaction

/-!
# Blocks

`Block.cpp`: the Merkle root is kept up to date by every change of the transaction list, the hash
covers the header and all transaction hashes, and mining searches for a nonce.

## Main definitions

* `Block`, with `create`, `addTransaction`, `setTransactions`, `setMinedState`, `calculateHash`,
  `mineBlock`, `isValid` and `isValidWithDifficulty`.
* `Block.addTransactions`: the loop that packs a list of transactions.
* `Block.Unmined`: a block whose Merkle root is current and whose transactions are valid.

## Main results

* `Block.mineBlock_spec`: mining changes the nonce and the hash only, and the result is valid.
* `Block.mineBlock_of_difficulty_zero`: at difficulty zero the first nonce will do.
-/

namespace BlockchainCrypto

open ByteText

/-- The header of a block and its transactions. -/
structure Block where
  index : Int32
  timestamp : Int64
  transactions : List Transaction
  previousHash : Bytes
  merkleRoot : Bytes
  difficulty : Int32
  nonce : Int32
  hash : Bytes
  deriving DecidableEq

namespace Block

/-- The Merkle root of a transaction list. -/
def merkleRootOf (transactions : List Transaction) : Bytes :=
  if transactions = [] then utils.sha256 []
  else utils.calculateMerkleRoot (transactions.map Transaction.calculateHash)

/-- The block with the root of its own transactions. -/
def calculateMerkleRoot (b : Block) : Block :=
  { b with merkleRoot := merkleRootOf b.transactions }

/-- The constructor, with the timestamp that the short form takes from the clock. -/
def create (idx : Int32) (prevHash : Bytes) (blockDifficulty : Int32) (blockTimestamp : Int64) :
    Block :=
  calculateMerkleRoot ⟨idx, blockTimestamp, [], prevHash, [], blockDifficulty, 0, []⟩

/-- The block with the nonce and the hash that a search has found. -/
def setMinedState (b : Block) (minedNonce : Int32) (minedHash : Bytes) : Block :=
  { b with nonce := minedNonce, hash := minedHash }

/-- The block, and whether the transaction was appended. -/
def addTransaction (b : Block) (tx : Transaction) : Block × Bool :=
  if !tx.isValid then (b, false)
  else (calculateMerkleRoot { b with transactions := b.transactions ++ [tx] }, true)

/-- The block with other transactions and their root. -/
def setTransactions (b : Block) (txs : List Transaction) : Block :=
  calculateMerkleRoot { b with transactions := txs }

/-- The hash of the header fields, written one after the other without separators, and of the hashes
of the transactions. -/
def calculateHash (b : Block) : Bytes :=
  utils.sha256 (decimalInt b.index.toInt ++ decimalInt b.timestamp.toInt ++ b.previousHash ++
    b.merkleRoot ++ decimalInt b.difficulty.toInt ++ decimalInt b.nonce.toInt ++
    b.transactions.flatMap Transaction.calculateHash)

/-- The `do` loop of `mineBlock`, for at most `fuel` rounds. -/
def mineLoop : ℕ → Block → Option Block
  | 0, _ => none
  | fuel + 1, b =>
    let b := { b with nonce := b.nonce + 1 }
    let b := { b with hash := b.calculateHash }
    if !utils.checkProofOfWork b.hash b.difficulty then mineLoop fuel b else some b

/-- The search for a nonce, which does not return when no positive `int` will do. -/
def mineBlock (b : Block) : Option Block := mineLoop (2 ^ 31 - 1) { b with nonce := 0 }

/-- The hash is that of the block and meets its difficulty, the transactions are valid, and the root
is theirs. -/
def isValid (b : Block) : Bool :=
  if b.hash ≠ b.calculateHash then false
  else if !utils.checkProofOfWork b.hash b.difficulty then false
  else if !b.transactions.all Transaction.isValid then false
  else b.merkleRoot == utils.calculateMerkleRoot (b.transactions.map Transaction.calculateHash)

/-- A valid block of the required difficulty. -/
def isValidWithDifficulty (b : Block) (requiredDifficulty : Int32) : Bool :=
  if b.difficulty ≠ requiredDifficulty then false else b.isValid

/-- The loop of `minePendingTransactions`: rejected transactions are left out. -/
def addTransactions (b : Block) (txs : List Transaction) : Block :=
  txs.foldl (fun b tx => (b.addTransaction tx).1) b

/-! ### Merkle roots -/

/-- The empty list has the same root in the constructor as in validation. -/
theorem merkleRootOf_eq (txs : List Transaction) :
    merkleRootOf txs = utils.calculateMerkleRoot (txs.map Transaction.calculateHash) := by
  unfold merkleRootOf
  split_ifs with h
  · rw [h]
    rfl
  · rfl

/-! ### Validity -/

theorem isValid_iff {b : Block} : b.isValid = true ↔
    b.hash = b.calculateHash ∧ utils.checkProofOfWork b.hash b.difficulty = true ∧
      (∀ tx ∈ b.transactions, tx.isValid = true) ∧ b.merkleRoot = merkleRootOf b.transactions := by
  rw [merkleRootOf_eq, ← List.all_eq_true]
  unfold isValid
  split_ifs with h1 h2 h3
  · simp [h1]
  · simp_all
  · simp_all
  · simp_all

theorem isValidWithDifficulty_iff {b : Block} {d : Int32} :
    b.isValidWithDifficulty d = true ↔ b.difficulty = d ∧ b.isValid = true := by
  unfold isValidWithDifficulty
  split_ifs with h
  · simp [h]
  · simp [not_not.mp h]

/-! ### Assembly and mining -/

/-- A block under construction: its Merkle root is current and its transactions are valid. -/
structure Unmined (b : Block) : Prop where
  merkleRoot_eq : b.merkleRoot = merkleRootOf b.transactions
  valid : ∀ tx ∈ b.transactions, tx.isValid = true

theorem unmined_create (idx : Int32) (prevHash : Bytes) (d : Int32) (t : Int64) :
    (create idx prevHash d t).Unmined := ⟨rfl, by simp [create, calculateMerkleRoot]⟩

theorem addTransaction_of_valid (b : Block) {tx : Transaction} (h : tx.isValid = true) :
    b.addTransaction tx = (b.setTransactions (b.transactions ++ [tx]), true) := by
  simp [addTransaction, h, setTransactions]

theorem addTransaction_of_not_valid (b : Block) {tx : Transaction} (h : tx.isValid = false) :
    b.addTransaction tx = (b, false) := by
  simp [addTransaction, h]

/-- The packing loop appends the valid transactions in order. -/
theorem addTransactions_eq (b : Block) (h : b.merkleRoot = merkleRootOf b.transactions)
    (txs : List Transaction) :
    b.addTransactions txs =
      b.setTransactions (b.transactions ++ txs.filter Transaction.isValid) := by
  induction txs generalizing b with
  | nil => simp [addTransactions, setTransactions, calculateMerkleRoot, ← h]
  | cons tx txs ih =>
    rw [addTransactions, List.foldl_cons, ← addTransactions]
    cases htx : tx.isValid with
    | true =>
      rw [addTransaction_of_valid b htx, ih _ rfl]
      simp [setTransactions, calculateMerkleRoot, htx]
    | false =>
      rw [addTransaction_of_not_valid b htx, ih b h]
      simp [htx]

/-- What a successful search returns. -/
theorem mineLoop_eq_some {fuel : ℕ} {b b' : Block} (h : mineLoop fuel b = some b') :
    ∃ n hash, b' = b.setMinedState n hash ∧ hash = b'.calculateHash ∧
      utils.checkProofOfWork hash b.difficulty = true := by
  induction fuel generalizing b with
  | zero => cases h
  | succ fuel ih =>
    rw [mineLoop] at h
    dsimp only at h
    split_ifs at h with hwork
    · obtain ⟨n, hash, rfl, hhash, hok⟩ := ih h
      exact ⟨n, hash, rfl, hhash, hok⟩
    · obtain rfl := Option.some.inj h
      exact ⟨b.nonce + 1, _, rfl, rfl, by simpa using hwork⟩

/-- Mining changes the nonce and the hash only, and turns a block under construction into a valid
one. -/
theorem mineBlock_spec {b b' : Block} (h : b.mineBlock = some b') :
    (∃ n hash, b' = b.setMinedState n hash) ∧ (b.Unmined → b'.isValid = true) := by
  obtain ⟨n, hash, rfl, hhash, hok⟩ := mineLoop_eq_some h
  refine ⟨⟨n, hash, rfl⟩, fun hb => ?_⟩
  exact isValid_iff.mpr ⟨hhash, hok, hb.valid, hb.merkleRoot_eq⟩

/-- The block that the first round of the search leaves. -/
def firstNonce (b : Block) : Block :=
  { b with nonce := 1, hash := calculateHash { b with nonce := 1 } }

/-- At difficulty zero the first nonce will do. -/
theorem mineBlock_of_difficulty_zero {b : Block} (h : b.difficulty = 0) :
    b.mineBlock = some b.firstNonce := by
  have hwork : ∀ hash, utils.checkProofOfWork hash b.difficulty = true := by
    rw [h]
    exact utils.checkProofOfWork_zero
  rw [mineBlock, Nat.pow_succ', show 2 * 2 ^ 30 - 1 = 2147483646 + 1 by decide, mineLoop]
  simp [hwork, firstNonce]

end Block

end BlockchainCrypto
