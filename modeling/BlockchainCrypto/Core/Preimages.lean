import BlockchainCrypto.Core.Block

/-!
# What the hashes of transactions and blocks determine

The fields of a transaction are joined by `:`. The receiver may contain any characters, but the
sender of a valid transaction has no `:`, and neither have the three numbers, so the text splits in
one way only. The fields of a block header follow each other without a separator, and a digit may
move from one number to the next.

## Main definitions

* `Block.hashInput`: the string that `calculateHash` hashes.
* `Block.SameHeader`, `Block.SameWidths`: equal fields, and numbers with equally many characters.

## Main results

* `Transaction.getTransactionData_inj`: the pre-image of valid transactions determines the payment.
* `Block.sameHeader_iff_sameWidths`: what the hashed string of a block determines.
* `Block.hashInput_ambiguous`: two headers with the same hashed string.
-/

namespace BlockchainCrypto

open ByteText

namespace Transaction

/-! ### Payments -/

/-- The pre-image with the separators in place. -/
theorem getTransactionData_eq (tx : Transaction) : tx.getTransactionData =
    (tx.sender ++ 58 :: (tx.receiver ++ 58 :: decimalInt tx.amount.toInt) ++
      58 :: decimalInt tx.timestamp.toInt) ++ 58 :: decimal tx.nonce.toNat := by
  simp [getTransactionData, List.intercalate, List.intersperse, ascii, charByte]

theorem colon_not_mem_decimalInt (z : ℤ) : (58 : UInt8) ∉ decimalInt z :=
  not_mem_decimalInt rfl (by decide) z

/-- The sender of a valid transaction is `system` or an address. -/
theorem colon_not_mem_sender {tx : Transaction} (h : tx.isValid = true) :
    (58 : UInt8) ∉ tx.sender := by
  by_cases hs : tx.isSystem
  · have hsender : tx.sender = system := hs
    rw [hsender]
    decide
  · exact fun hmem => absurd (isHexDigit_sender h hs _ hmem) (by decide)

/-- **The signed text is unambiguous.** Valid transactions with the same pre-image agree in every
field that it covers. -/
theorem getTransactionData_inj {tx tx' : Transaction} (h : tx.isValid = true)
    (h' : tx'.isValid = true) (heq : tx.getTransactionData = tx'.getTransactionData) :
    tx.sender = tx'.sender ∧ tx.receiver = tx'.receiver ∧ tx.amount = tx'.amount ∧
      tx.timestamp = tx'.timestamp ∧ tx.nonce = tx'.nonce := by
  rw [getTransactionData_eq, getTransactionData_eq] at heq
  obtain ⟨heq, hnonce⟩ := append_cons_inj_right (colon_not_mem_decimalInt tx.nonce.toNat)
    (colon_not_mem_decimalInt tx'.nonce.toNat) heq
  obtain ⟨heq, htimestamp⟩ := append_cons_inj_right (colon_not_mem_decimalInt _)
    (colon_not_mem_decimalInt _) heq
  obtain ⟨hsender, heq⟩ := append_cons_inj_left (colon_not_mem_sender h)
    (colon_not_mem_sender h') heq
  obtain ⟨hreceiver, hamount⟩ := append_cons_inj_right (colon_not_mem_decimalInt _)
    (colon_not_mem_decimalInt _) heq
  exact ⟨hsender, hreceiver, Int64.toInt_inj.mp (decimalInt_inj hamount),
    Int64.toInt_inj.mp (decimalInt_inj htimestamp), UInt64.toNat_inj.mp (decimal_inj hnonce)⟩

/-- A reward for a receiver whose name looks like further fields. -/
theorem getTransactionData_inj_reward :
    let tx : Transaction := ⟨system, ascii "a:1:2", 5, 7, 9, [], []⟩
    let tx' : Transaction := ⟨system, ascii "a:1:2", 5, 7, 9, ascii "00", ascii "02"⟩
    tx ≠ tx' ∧ tx.sender = tx'.sender ∧ tx.receiver = tx'.receiver ∧ tx.amount = tx'.amount ∧
      tx.timestamp = tx'.timestamp ∧ tx.nonce = tx'.nonce :=
  ⟨by decide, getTransactionData_inj (by decide) (by decide) rfl⟩

end Transaction

namespace Block

/-! ### Headers -/

/-- The string that `calculateHash` hashes. -/
def hashInput (b : Block) : Bytes :=
  decimalInt b.index.toInt ++ decimalInt b.timestamp.toInt ++ b.previousHash ++ b.merkleRoot ++
    decimalInt b.difficulty.toInt ++ decimalInt b.nonce.toInt ++
    b.transactions.flatMap Transaction.calculateHash

theorem calculateHash_eq (b : Block) : b.calculateHash = utils.sha256 b.hashInput := rfl

/-- 64 hexadecimal characters. -/
def IsDigestText (text : Bytes) : Prop := text.length = 64 ∧ ∀ c ∈ text, isHexDigit c = true

/-- The two hashes in the header are digests. -/
structure HasDigests (b : Block) : Prop where
  previousHash : IsDigestText b.previousHash
  merkleRoot : IsDigestText b.merkleRoot

/-- The same header, with the same transaction hashes. -/
structure SameHeader (b b' : Block) : Prop where
  index : b.index = b'.index
  timestamp : b.timestamp = b'.timestamp
  previousHash : b.previousHash = b'.previousHash
  merkleRoot : b.merkleRoot = b'.merkleRoot
  difficulty : b.difficulty = b'.difficulty
  nonce : b.nonce = b'.nonce
  transactionHashes :
    b.transactions.map Transaction.calculateHash = b'.transactions.map Transaction.calculateHash

/-- Index, timestamp and difficulty are written with equally many characters in both blocks. -/
structure SameWidths (b b' : Block) : Prop where
  index : (decimalInt b.index.toInt).length = (decimalInt b'.index.toInt).length
  timestamp : (decimalInt b.timestamp.toInt).length = (decimalInt b'.timestamp.toInt).length
  difficulty : (decimalInt b.difficulty.toInt).length = (decimalInt b'.difficulty.toInt).length

theorem isDigestText_sha256 (input : Bytes) : IsDigestText (utils.sha256 input) :=
  ⟨SHA256.length_hash input, fun _ hc => SHA256.isHexDigit_of_mem_hash hc⟩

/-- An `int` is written with at most eleven characters. -/
theorem length_decimalInt_le (v : Int32) : (decimalInt v.toInt).length ≤ 11 := by
  have hlt := v.toInt_lt
  have hle := v.minValue_le_toInt
  have hdigits (n : ℕ) (hn : n < 10 ^ 10) : (decimal n).length ≤ 10 := by
    rw [decimal, List.length_map]
    exact (Nat.length_toDigits_le_iff (by decide) (by decide)).mpr hn
  cases hv : v.toInt with
  | ofNat n =>
    have h := hdigits n (by simp only [hv, Int.ofNat_eq_natCast] at hlt; omega)
    rw [decimalInt]
    omega
  | negSucc n =>
    have h := hdigits (n + 1) (by
      have hmin : Int32.minValue.toInt = -2147483648 := rfl
      simp only [hv, hmin, Int.negSucc_eq] at hle
      omega)
    rw [decimalInt, List.length_cons]
    omega

theorem length_calculateHash (tx : Transaction) : tx.calculateHash.length = 64 :=
  SHA256.length_hash _

theorem length_flatMap_calculateHash (txs : List Transaction) :
    (txs.flatMap Transaction.calculateHash).length = 64 * txs.length := by
  induction txs with
  | nil => rfl
  | cons tx txs ih =>
    rw [List.flatMap_cons, List.length_append, length_calculateHash, ih, List.length_cons]
    omega

/-- The hashes of the transactions are told apart by their concatenation. -/
theorem map_calculateHash_inj {txs txs' : List Transaction}
    (h : txs.flatMap Transaction.calculateHash = txs'.flatMap Transaction.calculateHash) :
    txs.map Transaction.calculateHash = txs'.map Transaction.calculateHash := by
  have hlength (txs : List Transaction) : ∀ w ∈ txs.map Transaction.calculateHash,
      w.length = 64 := fun w hw => by
    obtain ⟨tx, -, rfl⟩ := List.mem_map.mp hw
    exact length_calculateHash tx
  exact flatten_inj (by decide) (hlength txs) (hlength txs') h

variable {b b' : Block}

theorem SameHeader.sameWidths (h : SameHeader b b') : SameWidths b b' where
  index := by rw [h.index]
  timestamp := by rw [h.timestamp]
  difficulty := by rw [h.difficulty]

/-- Where the numbers end at the same positions, the hashed string has one reading. -/
theorem SameWidths.sameHeader (hb : b.HasDigests) (hb' : b'.HasDigests)
    (heq : b.hashInput = b'.hashInput) (hwidths : SameWidths b b') : SameHeader b b' := by
  simp only [hashInput, List.append_assoc] at heq
  obtain ⟨hindex, heq⟩ := List.append_inj heq hwidths.index
  obtain ⟨htimestamp, heq⟩ := List.append_inj heq hwidths.timestamp
  obtain ⟨hprevious, heq⟩ :=
    List.append_inj heq (hb.previousHash.1.trans hb'.previousHash.1.symm)
  obtain ⟨hmerkle, heq⟩ := List.append_inj heq (hb.merkleRoot.1.trans hb'.merkleRoot.1.symm)
  obtain ⟨hdifficulty, heq⟩ := List.append_inj heq hwidths.difficulty
  -- The transaction hashes take up a multiple of 64, and the nonce is shorter than that.
  have hlength := congrArg List.length heq
  rw [List.length_append, List.length_append, length_flatMap_calculateHash,
    length_flatMap_calculateHash] at hlength
  have hle := length_decimalInt_le b.nonce
  have hle' := length_decimalInt_le b'.nonce
  obtain ⟨hnonce, htransactions⟩ := List.append_inj heq (by omega)
  exact ⟨Int32.toInt_inj.mp (decimalInt_inj hindex), Int64.toInt_inj.mp (decimalInt_inj htimestamp),
    hprevious, hmerkle, Int32.toInt_inj.mp (decimalInt_inj hdifficulty),
    Int32.toInt_inj.mp (decimalInt_inj hnonce), map_calculateHash_inj htransactions⟩

/-- **When the hashed string determines the header.** Two blocks that hash the same string have the
same header if and only if index, timestamp and difficulty have the same widths in both. -/
theorem sameHeader_iff_sameWidths (hb : b.HasDigests) (hb' : b'.HasDigests)
    (heq : b.hashInput = b'.hashInput) : SameHeader b b' ↔ SameWidths b b' :=
  ⟨SameHeader.sameWidths, SameWidths.sameHeader hb hb' heq⟩

theorem hasDigests_create (idx : Int32) (d : Int32) (t : Int64) :
    (create idx (List.replicate 64 48) d t).HasDigests where
  previousHash := ⟨List.length_replicate, fun c hc => by rw [List.eq_of_mem_replicate hc]; rfl⟩
  merkleRoot := isDigestText_sha256 []

theorem sameHeader_iff_sameWidths_first :
    let b := create 1 (List.replicate 64 48) 2 23
    let b' := setMinedState b 0 (ascii "00")
    SameHeader b b' ↔ SameWidths b b' :=
  sameHeader_iff_sameWidths (hasDigests_create 1 2 23)
    (⟨(hasDigests_create 1 2 23).1, (hasDigests_create 1 2 23).2⟩) rfl

/-- Block 1 of time 23 and block 12 of time 3 hash the same string. -/
theorem hashInput_ambiguous :
    let b := create 1 (List.replicate 64 48) 2 23
    let b' := create 12 (List.replicate 64 48) 2 3
    b.HasDigests ∧ b'.HasDigests ∧ b.hashInput = b'.hashInput ∧ ¬ SameHeader b b' := by
  refine ⟨hasDigests_create 1 2 23, hasDigests_create 12 2 3, ?_, fun h => ?_⟩
  · have hdigits : decimalInt (1 : Int32).toInt ++ decimalInt (23 : Int64).toInt =
        decimalInt (12 : Int32).toInt ++ decimalInt (3 : Int64).toInt := by decide
    simp only [hashInput, create, calculateMerkleRoot, hdigits]
  · exact absurd h.index (by decide)

end Block

end BlockchainCrypto
