import BlockchainCrypto.Chain.Acceptance
import BlockchainCrypto.Text.Extraction
import BlockchainCrypto.Theory.Significand

/-!
# Saving and loading a chain

`saveToFile` writes one field per line, with `-` for an empty signature or key, and `loadFromFile`
extracts the fields separated by white space, rebuilds every block, and adopts the chain when it
validates. A rejected chain is taken back field by field; the mining reward goes through a
`double`, which keeps 53 significant bits.

## Main definitions

* `Blockchain.saveToFile`: the text of a chain.
* `Blockchain.readFile`: the extraction of a whole file, with the checks made on the way.
* `Blockchain.loadFromFile`: the new state and the verdict.
* `Transaction.SafeFields`, `Block.SafeFields`: what survives the text format.

## Main results

* `Blockchain.reads_file`: the text of a chain with safe fields is read back.
* `Blockchain.safeFields_of_readFile`: whatever is read has safe fields.
* `Blockchain.loadFromFile_unchanged_iff`: when a failed load leaves the state alone.
* `Blockchain.loadFromFile_unchanged_of_isValidAmount`: it does whenever the reward is valid.
-/

namespace BlockchainCrypto

open ByteText Significand

/-! ### Extraction of fixed-width integers -/

/-- `in >> value` for an `int`. -/
def readInt : Extractor Int32 := do
  let v ← integer (-2147483648) 2147483647
  pure (Int32.ofInt v)

/-- `in >> value` for a `long long`. -/
def readLongLong : Extractor Int64 := do
  let v ← integer (-9223372036854775808) 9223372036854775807
  pure (Int64.ofInt v)

/-- `in >> value` for a `uint64_t`. -/
def readUInt64 : Extractor UInt64 := do
  let v ← unsigned UInt64.size
  pure (UInt64.ofNat v)

/-- `in >> value` for a `size_t`. -/
def readSize : Extractor ℕ := unsigned UInt64.size

theorem reads_int (v : Int32) : Reads readInt (line (decimalInt v.toInt)) v :=
  (reads_integer (by simpa using v.minValue_le_toInt) (by have := v.toInt_lt; omega)).bind_pure
    (by rw [Int32.ofInt_toInt])

theorem reads_longLong (v : Int64) : Reads readLongLong (line (decimalInt v.toInt)) v :=
  (reads_integer (by simpa using v.minValue_le_toInt) (by have := v.toInt_lt; omega)).bind_pure
    (by rw [Int64.ofInt_toInt])

theorem reads_uint64 (v : UInt64) : Reads readUInt64 (line (decimal v.toNat)) v :=
  (reads_unsigned v.toNat_lt).bind_pure (by rw [UInt64.ofNat_toNat])

/-! ### Transactions -/

/-- The stand-in for an empty field. -/
def dash : Bytes := ascii "-"

/-- A field that may be empty, as it is written. -/
def orDash (field : Bytes) : Bytes := if field = [] then dash else field

/-- The field that a word of the file stands for. -/
def undash (field : Bytes) : Bytes := if field = dash then [] else field

namespace Transaction

/-- The lines of a transaction in a file. -/
def text (tx : Transaction) : Bytes :=
  line tx.sender ++ line tx.receiver ++ line (decimalInt tx.amount.toInt) ++
    line (decimalInt tx.timestamp.toInt) ++ line (orDash tx.signature) ++
    line (orDash tx.senderPubkey) ++ line (decimal tx.nonce.toNat)

/-- The extractions of one transaction in a file. -/
def read : Extractor Transaction := do
  let sender ← word
  let receiver ← word
  let amount ← readLongLong
  let timestamp ← readLongLong
  let signature ← word
  let pubkey ← word
  let nonce ← readUInt64
  pure ⟨sender, receiver, amount, timestamp, nonce, undash signature, undash pubkey⟩

/-- The string fields survive the text format: addresses are words, and signature and key have no
white space and are not the stand-in for an empty field. -/
structure SafeFields (tx : Transaction) : Prop where
  sender : IsWord tx.sender
  receiver : IsWord tx.receiver
  signature : (∀ c ∈ tx.signature, isSpace c = false) ∧ tx.signature ≠ dash
  senderPubkey : (∀ c ∈ tx.senderPubkey, isSpace c = false) ∧ tx.senderPubkey ≠ dash

end Transaction

theorem isWord_orDash {field : Bytes} (h : ∀ c ∈ field, isSpace c = false) :
    IsWord (orDash field) := by
  unfold orDash
  split_ifs with hnil
  · decide
  · exact ⟨hnil, h⟩

theorem undash_orDash {field : Bytes} (h : field ≠ dash) : undash (orDash field) = field := by
  unfold orDash undash
  split_ifs with hnil hdash
  · exact hnil.symm
  · exact absurd rfl hdash
  · rfl

theorem safe_undash {w : Bytes} (h : IsWord w) :
    (∀ c ∈ undash w, isSpace c = false) ∧ undash w ≠ dash := by
  unfold undash
  split_ifs with hdash
  · exact ⟨by simp, by decide⟩
  · exact ⟨h.2, hdash⟩

/-- A transaction with safe fields is read back. -/
theorem Transaction.reads {tx : Transaction} (h : tx.SafeFields) :
    Reads Transaction.read tx.text tx := by
  obtain ⟨hsender, hreceiver, hsignature, hkey⟩ := h
  simp only [Transaction.text, List.append_assoc]
  refine (reads_word hsender).bind ?_
  refine (reads_word hreceiver).bind ?_
  refine (reads_longLong tx.amount).bind ?_
  refine (reads_longLong tx.timestamp).bind ?_
  refine (reads_word (isWord_orDash hsignature.1)).bind ?_
  refine (reads_word (isWord_orDash hkey.1)).bind ?_
  refine (reads_uint64 tx.nonce).bind_pure ?_
  rw [undash_orDash hsignature.2, undash_orDash hkey.2]

/-- Whatever is read as a transaction has safe fields. -/
theorem Transaction.safeFields_of_read {input rest : Bytes} {tx : Transaction}
    (h : Transaction.read.run input = some (tx, rest)) : tx.SafeFields := by
  obtain ⟨⟨sender, s₁⟩, hsender, h⟩ := Option.bind_eq_some_iff.mp h
  obtain ⟨⟨receiver, s₂⟩, hreceiver, h⟩ := Option.bind_eq_some_iff.mp h
  obtain ⟨⟨amount, s₃⟩, -, h⟩ := Option.bind_eq_some_iff.mp h
  obtain ⟨⟨timestamp, s₄⟩, -, h⟩ := Option.bind_eq_some_iff.mp h
  obtain ⟨⟨signature, s₅⟩, hsignature, h⟩ := Option.bind_eq_some_iff.mp h
  obtain ⟨⟨pubkey, s₆⟩, hkey, h⟩ := Option.bind_eq_some_iff.mp h
  obtain ⟨⟨nonce, s₇⟩, -, h⟩ := Option.bind_eq_some_iff.mp h
  obtain ⟨rfl, -⟩ := Prod.mk.inj (Option.some.inj h)
  exact ⟨word_eq_some hsender, word_eq_some hreceiver, safe_undash (word_eq_some hsignature),
    safe_undash (word_eq_some hkey)⟩

/-! ### Blocks -/

namespace Block

/-- The lines of a block in a file, and those of its transactions. -/
def text (b : Block) : Bytes :=
  line (decimalInt b.index.toInt) ++ line (decimalInt b.timestamp.toInt) ++ line b.previousHash ++
    line b.hash ++ line b.merkleRoot ++ line (decimalInt b.difficulty.toInt) ++
    line (decimalInt b.nonce.toInt) ++ line (decimal b.transactions.length) ++
    b.transactions.flatMap Transaction.text

/-- The extractions of one block in a file; the rebuilt block must have the Merkle root that the
file states. -/
def read : Extractor Block := do
  let index ← readInt
  let timestamp ← readLongLong
  let prevHash ← word
  let hash ← word
  let merkleRoot ← word
  let blockDifficulty ← readInt
  let nonce ← readInt
  let txCount ← readSize
  let txs ← times Transaction.read txCount
  let block := ((create index prevHash blockDifficulty timestamp).setTransactions txs).setMinedState
    nonce hash
  if block.merkleRoot ≠ merkleRoot then fun _ => none else pure block

/-- The fields of the block survive the text format. -/
structure SafeFields (b : Block) : Prop where
  previousHash : IsWord b.previousHash
  hash : IsWord b.hash
  merkleRoot : b.merkleRoot = merkleRootOf b.transactions
  size : b.transactions.length < UInt64.size
  transactions : ∀ tx ∈ b.transactions, tx.SafeFields

theorem isWord_merkleRootOf (txs : List Transaction) : IsWord (merkleRootOf txs) := by
  rw [merkleRootOf_eq]
  exact (utils.isHexWord_calculateMerkleRoot _).isWord

/-- A block with safe fields is read back. -/
theorem reads {b : Block} (h : b.SafeFields) : Reads Block.read b.text b := by
  obtain ⟨hprevious, hhash, hroot, hsize, htxs⟩ := h
  simp only [Block.text, List.append_assoc]
  refine (reads_int b.index).bind ?_
  refine (reads_longLong b.timestamp).bind ?_
  refine (reads_word hprevious).bind ?_
  refine (reads_word hhash).bind ?_
  refine (reads_word (hroot ▸ isWord_merkleRootOf _)).bind ?_
  refine (reads_int b.difficulty).bind ?_
  refine (reads_int b.nonce).bind ?_
  refine (reads_unsigned hsize).bind ?_
  refine (Reads.times b.transactions fun tx htx => Transaction.reads (htxs tx htx)).bind_pure ?_
  have hrebuilt : ((create b.index b.previousHash b.difficulty b.timestamp).setTransactions
      b.transactions).setMinedState b.nonce b.hash = b := by
    cases b
    simp_all [create, setTransactions, calculateMerkleRoot, setMinedState]
  rw [hrebuilt, if_neg (not_not.mpr rfl)]

/-- Whatever is read as a block has safe fields. -/
theorem safeFields_of_read {input rest : Bytes} {b : Block}
    (h : Block.read.run input = some (b, rest)) : b.SafeFields := by
  obtain ⟨⟨index, s₁⟩, -, h⟩ := Option.bind_eq_some_iff.mp h
  obtain ⟨⟨timestamp, s₂⟩, -, h⟩ := Option.bind_eq_some_iff.mp h
  obtain ⟨⟨prevHash, s₃⟩, hprevious, h⟩ := Option.bind_eq_some_iff.mp h
  obtain ⟨⟨hash, s₄⟩, hhash, h⟩ := Option.bind_eq_some_iff.mp h
  obtain ⟨⟨merkleRoot, s₅⟩, -, h⟩ := Option.bind_eq_some_iff.mp h
  obtain ⟨⟨blockDifficulty, s₆⟩, -, h⟩ := Option.bind_eq_some_iff.mp h
  obtain ⟨⟨nonce, s₇⟩, -, h⟩ := Option.bind_eq_some_iff.mp h
  obtain ⟨⟨txCount, s₈⟩, hcount, h⟩ := Option.bind_eq_some_iff.mp h
  obtain ⟨⟨txs, s₉⟩, htxs, h⟩ := Option.bind_eq_some_iff.mp h
  dsimp only at h
  split_ifs at h with hroot
  obtain ⟨rfl, -⟩ := Prod.mk.inj (Option.some.inj h)
  obtain ⟨hlength, hsafe⟩ := times_eq_some Transaction.safeFields_of_read htxs
  have hsize : txs.length < UInt64.size := hlength ▸ unsigned_eq_some hcount
  exact ⟨word_eq_some hprevious, word_eq_some hhash, rfl, hsize, hsafe⟩

end Block

/-! ### Files -/

namespace Blockchain

/-- The text that `saveToFile` writes. -/
def saveToFile (s : Blockchain) : Bytes :=
  line (decimalInt s.difficulty.toInt) ++ line (decimalInt s.miningReward.toInt) ++
    line (decimal s.chain.length) ++ s.chain.flatMap Block.text

/-- The extractions of `loadFromFile`: difficulty, mining reward and blocks. -/
def readFile : Extractor (Int32 × money.Amount × List Block) := do
  let fileDifficulty ← readInt
  let fileReward ← readLongLong
  if !money.isValidAmount fileReward then fun _ => none
  else do
    let chainSize ← readSize
    let parsed ← times Block.read chainSize
    pure (fileDifficulty, fileReward, parsed)

theorem ne_nil_of_isChainValid {chain : List Block} {difficulty : Int32}
    (h : isChainValid chain difficulty = true) : chain ≠ [] := (isChainValid_iff.mp h).ne_nil

/-- An amount as a `double`. -/
def toDouble (amount : money.Amount) : ℤ := roundInt 53 amount.toInt

/-- The new state and the verdict, for the content of the file or for none when it does not open. A
chain that does not validate is replaced by the previous one again, and with it the difficulty and
the reward, which was kept in a `double`. -/
def loadFromFile (s : Blockchain) (file : Option Bytes) : Blockchain × Bool :=
  match file.bind readFile.run with
  | none => (s, false)
  | some ((fileDifficulty, fileReward, parsed), _) =>
    let previousReward := toDouble s.miningReward
    if h : isChainValid parsed fileDifficulty = true then
      (⟨parsed, [], fileDifficulty, fileReward, updateBalances parsed,
        ne_nil_of_isChainValid h⟩, true)
    else ({ s with miningReward := Int64.ofInt previousReward }, false)

/-- The chain survives the text format. -/
structure SafeFields (chain : List Block) : Prop where
  size : chain.length < UInt64.size
  blocks : ∀ b ∈ chain, b.SafeFields

/-- The text of a chain with safe fields is read back. -/
theorem reads_file {s : Blockchain} (hreward : money.isValidAmount s.miningReward = true)
    (h : SafeFields s.chain) :
    Reads readFile s.saveToFile (s.difficulty, s.miningReward, s.chain) := by
  simp only [saveToFile, List.append_assoc]
  refine (reads_int s.difficulty).bind ?_
  refine (reads_longLong s.miningReward).bind ?_
  rw [hreward]
  refine (reads_unsigned h.size).bind ?_
  exact (Reads.times s.chain fun b hb => Block.reads (h.blocks b hb)).bind_pure rfl

/-- Whatever is read as a file has a valid reward and a chain with safe fields. -/
theorem safeFields_of_readFile {input rest : Bytes} {d : Int32} {r : money.Amount}
    {chain : List Block} (h : readFile.run input = some ((d, r, chain), rest)) :
    money.isValidAmount r = true ∧ SafeFields chain := by
  obtain ⟨⟨fileDifficulty, s₁⟩, -, h⟩ := Option.bind_eq_some_iff.mp h
  obtain ⟨⟨fileReward, s₂⟩, -, h⟩ := Option.bind_eq_some_iff.mp h
  dsimp only at h
  split_ifs at h with hreward
  obtain ⟨⟨chainSize, s₃⟩, hcount, h⟩ := Option.bind_eq_some_iff.mp h
  obtain ⟨⟨parsed, s₄⟩, hparsed, h⟩ := Option.bind_eq_some_iff.mp h
  obtain ⟨-, rfl, rfl⟩ : fileDifficulty = d ∧ fileReward = r ∧ parsed = chain := by
    simpa only [Prod.mk.injEq] using (Prod.mk.inj (Option.some.inj h)).1
  obtain ⟨hlength, hsafe⟩ := times_eq_some Block.safeFields_of_read hparsed
  have hsize : parsed.length < UInt64.size := hlength ▸ unsigned_eq_some hcount
  exact ⟨by simpa using hreward, hsize, hsafe⟩

/-! ### Outcomes of a load -/

/-- The three outcomes of a load: a file that is not read in full, a chain that is taken back, and
a chain that is adopted. -/
theorem loadFromFile_cases (s : Blockchain) (file : Option Bytes) :
    file.bind readFile.run = none ∧ s.loadFromFile file = (s, false) ∨
    ∃ d r parsed rest, file.bind readFile.run = some ((d, r, parsed), rest) ∧
      (isChainValid parsed d = false ∧ s.loadFromFile file =
          ({ s with miningReward := Int64.ofInt (toDouble s.miningReward) }, false) ∨
        ∃ h : isChainValid parsed d = true, s.loadFromFile file =
          (⟨parsed, [], d, r, updateBalances parsed, ne_nil_of_isChainValid h⟩, true)) := by
  unfold loadFromFile
  cases hread : file.bind readFile.run with
  | none => exact .inl ⟨rfl, rfl⟩
  | some result =>
    obtain ⟨⟨d, r, parsed⟩, rest⟩ := result
    refine .inr ⟨d, r, parsed, rest, rfl, ?_⟩
    dsimp only
    split_ifs with hvalid
    · exact .inr ⟨hvalid, rfl⟩
    · exact .inl ⟨by simpa using hvalid, rfl⟩

/-- An accepted file was read in full, and its chain is valid. -/
theorem loadFromFile_accepts {s : Blockchain} {file : Option Bytes}
    (h : (s.loadFromFile file).2 = true) :
    ∃ d r parsed rest, file.bind readFile.run = some ((d, r, parsed), rest) ∧
      ∃ hvalid : isChainValid parsed d = true, s.loadFromFile file =
        (⟨parsed, [], d, r, updateBalances parsed, ne_nil_of_isChainValid hvalid⟩, true) := by
  rcases s.loadFromFile_cases file with
    ⟨-, hload⟩ | ⟨d, r, parsed, rest, hread, ⟨-, hload⟩ | ⟨hvalid, hload⟩⟩
  · rw [hload] at h
    cases h
  · rw [hload] at h
    cases h
  · exact ⟨d, r, parsed, rest, hread, hvalid, hload⟩

/-- The state that holds the same chain and parameters, an empty pool and replayed balances. -/
def reloaded (s : Blockchain) : Blockchain :=
  { s with pendingTransactions := [], balances := updateBalances s.chain }

/-- What is read back from the text of a state, wherever it is loaded. -/
theorem loadFromFile_of_reads {s : Blockchain} (t : Blockchain) {file rest : Bytes}
    (h : readFile.run file = some ((s.difficulty, s.miningReward, s.chain), rest))
    (hvalid : isChainValid s.chain s.difficulty = true) :
    t.loadFromFile (some file) = (s.reloaded, true) := by
  have hread : (some file).bind readFile.run =
      some ((s.difficulty, s.miningReward, s.chain), rest) := h
  unfold loadFromFile
  rw [hread]
  exact dif_pos hvalid

/-- A valid chain with safe fields and a valid reward is loaded as it was saved. -/
theorem loadFromFile_saveToFile {s : Blockchain} (t : Blockchain)
    (hreward : money.isValidAmount s.miningReward = true) (hsafe : SafeFields s.chain)
    (hvalid : isChainValid s.chain s.difficulty = true) :
    t.loadFromFile (some s.saveToFile) = (s.reloaded, true) := by
  obtain ⟨rest, hread⟩ := (reads_file hreward hsafe).run_eq
  exact loadFromFile_of_reads t hread hvalid

/-- An amount survives the detour through a `double` exactly when it has at most 53 significant
bits. -/
theorem ofInt_toDouble_eq_iff {amount : money.Amount} :
    Int64.ofInt (toDouble amount) = amount ↔
      spacing 53 amount.toInt.natAbs ∣ amount.toInt.natAbs := by
  rw [← roundInt_eq_self_iff, ← Int64.toInt_inj, Int64.toInt_ofInt, toDouble]
  have hlo := amount.le_toInt
  have hhi := amount.toInt_lt
  refine ⟨fun h => eq_of_bmod_roundInt_eq (by decide) (w := 64) (by omega) h, fun h => ?_⟩
  rw [h]
  exact Int.bmod_eq_of_le (by simpa using hlo) (by simpa using hhi)

/-- A failed load leaves the state alone, unless the file is read in full, its chain does not
validate, and the mining reward of the state has more than 53 significant bits. -/
theorem loadFromFile_unchanged_iff (s : Blockchain) (file : Option Bytes) :
    ((s.loadFromFile file).2 = false → (s.loadFromFile file).1 = s) ↔
      ∀ d r parsed rest, file.bind readFile.run = some ((d, r, parsed), rest) →
        isChainValid parsed d = false →
          spacing 53 s.miningReward.toInt.natAbs ∣ s.miningReward.toInt.natAbs := by
  rcases s.loadFromFile_cases file with ⟨hread, h⟩ | ⟨d, r, parsed, rest, hread, hcases⟩
  · simp [hread, h]
  · rw [← ofInt_toDouble_eq_iff]
    rcases hcases with ⟨hinvalid, h⟩ | ⟨hvalid, h⟩
    · rw [h]
      refine ⟨fun hsame _ _ _ _ _ _ => ?_, fun hexact _ => ?_⟩
      · exact congrArg Blockchain.miningReward (hsame rfl)
      · rw [hexact d r parsed rest hread hinvalid]
    · rw [h]
      refine ⟨fun _ d' r' parsed' rest' hread' hinvalid => ?_, fun _ h => by cases h⟩
      rw [hread] at hread'
      obtain ⟨⟨rfl, rfl, rfl⟩, rfl⟩ : (d = d' ∧ r = r' ∧ parsed = parsed') ∧ rest = rest' := by
        simpa only [Option.some.injEq, Prod.mk.injEq] using hread'
      rw [hvalid] at hinvalid
      cases hinvalid

/-- With a valid mining reward a failed load leaves the state alone, whatever the file. -/
theorem loadFromFile_unchanged_of_isValidAmount {s : Blockchain} {file : Option Bytes}
    (hreward : money.isValidAmount s.miningReward = true)
    (hfail : (s.loadFromFile file).2 = false) : (s.loadFromFile file).1 = s := by
  have hexact : Int64.ofInt (toDouble s.miningReward) = s.miningReward := by
    obtain ⟨hpos, hcap⟩ := money.isValidAmount_iff.mp hreward
    have hsmall : s.miningReward.toInt.natAbs < 2 ^ 53 := by omega
    rw [toDouble, roundInt_eq_self_of_natAbs_lt hsmall, Int64.ofInt_toInt]
  rcases s.loadFromFile_cases file with ⟨-, h⟩ | ⟨d, r, parsed, rest, -, ⟨-, h⟩ | ⟨hvalid, h⟩⟩
  · rw [h]
  · rw [h, hexact]
  · rw [h] at hfail
    cases hfail

/-- A file without blocks is refused after the detour, and a reward of `2 ^ 53 + 1` units comes
back as `2 ^ 53`. -/
theorem loadFromFile_changes_reward :
    ¬ (((fresh (2 ^ 53 + 1) 0).loadFromFile (some (ascii "0 1 0"))).2 = false →
      ((fresh (2 ^ 53 + 1) 0).loadFromFile (some (ascii "0 1 0"))).1 = fresh (2 ^ 53 + 1) 0) := by
  have hread : (some (ascii "0 1 0")).bind readFile.run = some ((0, 1, []), []) := by
    decide +kernel
  rcases (fresh (2 ^ 53 + 1) 0).loadFromFile_cases (some (ascii "0 1 0")) with
    ⟨hnone, -⟩ | ⟨d, r, parsed, rest, hsome, hcases⟩
  · rw [hread] at hnone
    cases hnone
  · rw [hread] at hsome
    obtain ⟨⟨rfl, rfl, rfl⟩, rfl⟩ : (0 = d ∧ 1 = r ∧ [] = parsed) ∧ [] = rest := by
      simpa only [Option.some.injEq, Prod.mk.injEq] using hsome
    rcases hcases with ⟨-, h⟩ | ⟨hvalid, -⟩
    · rw [h]
      intro hsame
      have hreward := congrArg Blockchain.miningReward (hsame rfl)
      exact absurd hreward (by decide +kernel)
    · exact absurd rfl (ne_nil_of_isChainValid hvalid)

end Blockchain

end BlockchainCrypto
