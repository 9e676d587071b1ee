import BlockchainCrypto.Chain.RoundTrip
import BlockchainCrypto.Core.MerkleBinding
import BlockchainCrypto.Core.Preimages
import BlockchainCrypto.Text.Torn

/-!
# Files that were not written to their end

`saveToFile` overwrites the old file line by line, so a program that dies on the way leaves the
first part of the text. Read back, such a part is used up early, except where the cut is in the
last line: the nonce of the last transaction may then be a shorter number. The Merkle root of its
block, which comes before it in the file, does not fit that number, unless SHA-256 collides.

## Main definitions

* `Block.rootTexts`: the strings that are hashed for the Merkle root of a block.
* `Blockchain.RootCollision`: two of them with the same digest.

## Main results

* `Transaction.torn_read`, `Block.torn_read`, `Blockchain.torn_readFile`: what is read from a part.
* `Blockchain.load_torn`: which part of a file is loaded.
-/

namespace BlockchainCrypto

open ByteText

/-! ### Transactions -/

theorem torn_readInt (v : Int32) : Torn readInt (line (decimalInt v.toInt)) fun _ _ => True :=
  (torn_integer _ _ v.toInt).map fun _ _ _ => trivial

theorem torn_readLongLong (v : Int64) :
    Torn readLongLong (line (decimalInt v.toInt)) fun _ _ => True :=
  (torn_integer _ _ v.toInt).map fun _ _ _ => trivial

/-- A nonce that lost digits is another one. -/
theorem torn_readUInt64 (v : UInt64) : Torn readUInt64 (line (decimal v.toNat)) fun missing w =>
    w = v → missing = [newline] := by
  refine (torn_unsigned UInt64.size v.toNat).map fun missing m hm hw => hm.2.2 ?_
  rw [← hw, UInt64.toNat_ofNat_of_lt' (lt_of_le_of_lt hm.1 v.toNat_lt)]

/-- Only the nonce can be another one, in what is read from a part of a transaction. -/
theorem Transaction.torn_read {tx : Transaction} (h : tx.SafeFields) :
    Torn Transaction.read tx.text fun missing tx' =>
      ∃ nonce, tx' = { tx with nonce := nonce } ∧ (nonce = tx.nonce → missing = [newline]) := by
  obtain ⟨hsender, hreceiver, hsignature, hkey⟩ := h
  have hsignature' := isWord_orDash hsignature.1
  have hkey' := isWord_orDash hkey.1
  simp only [Transaction.text, List.append_assoc]
  refine (torn_word hsender).bind (reads_word hsender) (fun _ _ _ => rfl) ?_
  refine (torn_word hreceiver).bind (reads_word hreceiver) (fun _ _ _ => rfl) ?_
  refine (torn_readLongLong tx.amount).bind (reads_longLong tx.amount) (fun _ _ _ => rfl) ?_
  refine (torn_readLongLong tx.timestamp).bind (reads_longLong tx.timestamp) (fun _ _ _ => rfl) ?_
  refine (torn_word hsignature').bind (reads_word hsignature') (fun _ _ _ => rfl) ?_
  refine (torn_word hkey').bind (reads_word hkey') (fun _ _ _ => rfl) ?_
  refine (torn_readUInt64 tx.nonce).map fun missing nonce hnonce => ⟨nonce, ?_, hnonce⟩
  rw [undash_orDash hsignature.2, undash_orDash hkey.2]

/-! ### Blocks -/

namespace Block

/-- The transactions are as they were and the line end is missing, or the last one has another
nonce. -/
def LastNonce (missing : Bytes) (txs txs' : List Transaction) : Prop :=
  txs' = txs ∧ missing = [newline] ∨
    ∃ firsts tx nonce, txs = firsts ++ [tx] ∧ nonce ≠ tx.nonce ∧
      txs' = firsts ++ [{ tx with nonce := nonce }]

/-- What is read from a part of a block has its Merkle root, and at most another last nonce. -/
theorem torn_read {b : Block} (h : b.SafeFields) :
    Torn Block.read b.text fun missing b' =>
      ∃ txs, b' = { b with transactions := txs } ∧
        merkleRootOf txs = merkleRootOf b.transactions ∧ LastNonce missing b.transactions txs := by
  obtain ⟨hprevious, hhash, hroot, hsize, htxs⟩ := h
  have hroot' : IsWord b.merkleRoot := hroot ▸ isWord_merkleRootOf _
  simp only [Block.text, List.append_assoc]
  refine (torn_readInt b.index).bind (reads_int b.index) (fun _ _ _ => rfl) ?_
  refine (torn_readLongLong b.timestamp).bind (reads_longLong b.timestamp)
    (fun _ _ _ => rfl) ?_
  refine (torn_word hprevious).bind (reads_word hprevious) (fun _ _ _ => rfl) ?_
  refine (torn_word hhash).bind (reads_word hhash) (fun _ _ _ => rfl) ?_
  refine (torn_word hroot').bind (reads_word hroot') (fun _ _ _ => rfl) ?_
  refine (torn_readInt b.difficulty).bind (reads_int b.difficulty) (fun _ _ _ => rfl) ?_
  refine (torn_readInt b.nonce).bind (reads_int b.nonce) (fun _ _ _ => rfl) ?_
  -- The check of the Merkle root comes after the last line and consumes nothing.
  have hcheck (txs : List Transaction) {b' : Block} {rest : Bytes}
      (hrun : (if merkleRootOf txs ≠ b.merkleRoot then fun _ => none
        else pure { b with transactions := txs, merkleRoot := merkleRootOf txs } :
          Extractor Block).run [] = some (b', rest)) :
      rest = [] ∧ b' = { b with transactions := txs } ∧
        merkleRootOf txs = merkleRootOf b.transactions := by
    rw [ite_not] at hrun
    obtain ⟨hsame, rfl, rfl⟩ := of_guard_run hrun
    exact ⟨rfl, by rw [hsame], hsame.trans hroot⟩
  by_cases hnil : b.transactions = []
  · rw [hnil, List.flatMap_nil, List.append_nil]
    refine (torn_unsigned UInt64.size _).bind_last fun missing n b' rest hn hrun => ?_
    obtain rfl : n = 0 := Nat.le_zero.mp hn.1
    obtain ⟨hrest, hb', hsame⟩ := hcheck [] hrun
    exact ⟨hrest, [], hb', by rw [hsame, hnil], .inl ⟨rfl, hn.2.2 rfl⟩⟩
  · refine (torn_unsigned UInt64.size _).bind (reads_unsigned hsize) (fun _ n hn => ?_) ?_
    · have hpos : n ≠ 0 := fun h => hnil (List.length_eq_zero_iff.mp (hn.2.1 h))
      exact run_bind_eq_none (times_run_nil rfl hpos)
    · have htorn := Torn.times (r := Transaction.read) rfl b.transactions
        (fun tx htx => Transaction.reads (htxs tx htx)) fun tx htx =>
          Transaction.torn_read (htxs tx htx)
      refine htorn.bind_last fun missing txs b' rest hlast hrun => ?_
      obtain ⟨hrest, hb', hsame⟩ := hcheck txs hrun
      refine ⟨hrest, txs, hb', hsame, ?_⟩
      obtain ⟨firsts, tx, tx', htxs', rfl, nonce, rfl, hnonce⟩ := hlast
      by_cases heq : nonce = tx.nonce
      · exact .inl ⟨by rw [htxs', heq], hnonce heq⟩
      · exact .inr ⟨firsts, tx, nonce, htxs', heq, rfl⟩

/-- The strings that are hashed for the Merkle root of a block: its transactions, and the levels of
the tree over their hashes. -/
def rootTexts (b : Block) : List Bytes :=
  b.transactions.map Transaction.getTransactionData ++
    utils.merkleInputs (b.transactions.map Transaction.calculateHash)

/-- Lists with the same Merkle root have the same transaction hashes, or two of the strings that are
hashed for the roots collide. -/
theorem hashes_eq_of_merkleRootOf_eq {b b' : Block} (hne : b.transactions ≠ [])
    (hne' : b'.transactions ≠ [])
    (h : merkleRootOf b.transactions = merkleRootOf b'.transactions) :
    b.transactions.map Transaction.calculateHash = b'.transactions.map Transaction.calculateHash ∨
      ∃ m ∈ b.rootTexts, ∃ m' ∈ b'.rootTexts, m ≠ m' ∧ SHA256.hashRaw m = SHA256.hashRaw m' := by
  rw [merkleRootOf_eq, merkleRootOf_eq] at h
  obtain ⟨tree, hleaves, hdigest, hinputs⟩ := utils.exists_merkleTree
    (mt List.map_eq_nil_iff.mp hne : b.transactions.map Transaction.calculateHash ≠ [])
  obtain ⟨tree', hleaves', hdigest', hinputs'⟩ := utils.exists_merkleTree
    (mt List.map_eq_nil_iff.mp hne' : b'.transactions.map Transaction.calculateHash ≠ [])
  have heq : utils.merkleScheme.digest tree = utils.merkleScheme.digest tree' :=
    Vector.toList_inj.mp (ECCrypto.flatMap_hexByte_inj (hdigest.symm.trans (h.trans hdigest')))
  rcases HashTree.Scheme.eq_or_collision heq with rfl | ⟨m, hm, m', hm', hcollision⟩
  · exact .inl (hleaves.symm.trans hleaves')
  · exact .inr ⟨m, List.mem_append_right _ (hinputs hm), m',
      List.mem_append_right _ (hinputs' hm'), hcollision⟩

/-- Another nonce shows in the Merkle root, or else in a collision. -/
theorem collision_of_lastNonce {b : Block} {firsts : List Transaction} {tx : Transaction}
    {nonce : UInt64} (htxs : b.transactions = firsts ++ [tx]) (hnonce : nonce ≠ tx.nonce)
    (h : merkleRootOf (firsts ++ [{ tx with nonce := nonce }]) = merkleRootOf b.transactions) :
    ∃ m ∈ b.rootTexts, ∃ m' ∈ ({ b with transactions := firsts ++ [{ tx with nonce := nonce }] } :
      Block).rootTexts, m ≠ m' ∧ SHA256.hashRaw m = SHA256.hashRaw m' := by
  set b' : Block := { b with transactions := firsts ++ [{ tx with nonce := nonce }] } with hb'
  have hne : b.transactions ≠ [] := by simp [htxs]
  have hne' : b'.transactions ≠ [] := by simp [hb']
  rcases hashes_eq_of_merkleRootOf_eq hne hne' h.symm with hhashes | hcollision
  · -- the two transactions have one hash, and their texts differ in the nonce
    rw [htxs, hb', List.map_append, List.map_append] at hhashes
    have hlast := List.append_cancel_left hhashes
    have hhash : tx.calculateHash = ({ tx with nonce := nonce } : Transaction).calculateHash :=
      (List.cons.inj hlast).1
    refine ⟨tx.getTransactionData, ?_,
      ({ tx with nonce := nonce } : Transaction).getTransactionData, ?_, fun htext => hnonce ?_, ?_⟩
    · exact List.mem_append_left _ (List.mem_map_of_mem (by simp [htxs]))
    · exact List.mem_append_left _ (List.mem_map_of_mem (by simp [hb']))
    · rw [Transaction.getTransactionData_eq, Transaction.getTransactionData_eq] at htext
      have hdecimal := (List.cons.inj (List.append_cancel_left htext)).2
      exact (UInt64.toNat_inj.mp (decimal_inj hdecimal)).symm
    · exact Vector.toList_inj.mp (ECCrypto.flatMap_hexByte_inj hhash)
  · exact hcollision

end Block

/-! ### Files -/

namespace Blockchain

/-- Two distinct strings that are hashed for the Merkle roots of the two chains have the same
digest. -/
def RootCollision (chain chain' : List Block) : Prop :=
  ∃ m ∈ chain.flatMap Block.rootTexts, ∃ m' ∈ chain'.flatMap Block.rootTexts,
    m ≠ m' ∧ SHA256.hashRaw m = SHA256.hashRaw m'

/-- What is read from a part of a file is all of it, or collides with it. -/
theorem torn_readFile {s : Blockchain} (hreward : money.isValidAmount s.miningReward = true)
    (h : SafeFields s.chain) :
    Torn readFile s.saveToFile fun missing content =>
      content = (s.difficulty, s.miningReward, s.chain) ∧ missing = [newline] ∨
        RootCollision s.chain content.2.2 := by
  have hne : s.chain.length ≠ 0 := mt List.length_eq_zero_iff.mp s.chain_ne_nil
  simp only [saveToFile, List.append_assoc]
  refine (torn_readInt s.difficulty).bind (reads_int s.difficulty) (fun _ _ _ => rfl) ?_
  refine (torn_readLongLong s.miningReward).bind (reads_longLong s.miningReward)
    (fun _ _ _ => ?_) ?_
  · split_ifs <;> rfl
  rw [hreward]
  refine (torn_unsigned UInt64.size _).bind (reads_unsigned h.size) (fun _ n hn => ?_) ?_
  · exact run_bind_eq_none (times_run_nil rfl fun hzero => hne (hn.2.1 hzero))
  refine (Torn.times rfl s.chain (fun b hb => Block.reads (h.blocks b hb)) fun b hb =>
    Block.torn_read (h.blocks b hb)).map fun missing blocks hblocks => ?_
  obtain ⟨firsts, b, b', hchain, rfl, txs, rfl, hroot, hlast⟩ := hblocks
  rcases hlast with ⟨rfl, hmissing⟩ | ⟨firstTxs, tx, nonce, htxs, hnonce, rfl⟩
  · exact .inl ⟨by rw [hchain], hmissing⟩
  · obtain ⟨m, hm, m', hm', hcollision⟩ := Block.collision_of_lastNonce htxs hnonce hroot
    refine .inr ⟨m, ?_, m', ?_, hcollision⟩
    · exact List.mem_flatMap.mpr ⟨b, by simp [hchain], hm⟩
    · exact List.mem_flatMap.mpr ⟨_, List.mem_append_right _ (List.mem_singleton_self _), hm'⟩

/-! ### The last line end -/

theorem ignoresEnd_readInt : IgnoresEnd readInt :=
  (ignoresEnd_integer _ _).bind fun _ => ignoresEnd_pure _

theorem ignoresEnd_readLongLong : IgnoresEnd readLongLong :=
  (ignoresEnd_integer _ _).bind fun _ => ignoresEnd_pure _

theorem ignoresEnd_readTransaction : IgnoresEnd Transaction.read := by
  refine ignoresEnd_word.bind fun _ => ignoresEnd_word.bind fun _ => ?_
  refine ignoresEnd_readLongLong.bind fun _ => ignoresEnd_readLongLong.bind fun _ => ?_
  refine ignoresEnd_word.bind fun _ => ignoresEnd_word.bind fun _ => ?_
  exact ((ignoresEnd_unsigned _).bind fun _ => ignoresEnd_pure _).bind fun _ => ignoresEnd_pure _

theorem ignoresEnd_readBlock : IgnoresEnd Block.read := by
  refine ignoresEnd_readInt.bind fun _ => ignoresEnd_readLongLong.bind fun _ => ?_
  refine ignoresEnd_word.bind fun _ => ignoresEnd_word.bind fun _ => ?_
  refine ignoresEnd_word.bind fun _ => ?_
  refine ignoresEnd_readInt.bind fun _ => ignoresEnd_readInt.bind fun _ => ?_
  refine (ignoresEnd_unsigned _).bind fun _ => (ignoresEnd_readTransaction.times _).bind fun _ => ?_
  exact ignoresEnd_fail.ite (ignoresEnd_pure _)

theorem ignoresEnd_readFile : IgnoresEnd readFile := by
  refine ignoresEnd_readInt.bind fun _ => ignoresEnd_readLongLong.bind fun _ => ?_
  refine ignoresEnd_fail.ite ((ignoresEnd_unsigned _).bind fun _ => ?_)
  exact (ignoresEnd_readBlock.times _).bind fun _ => ignoresEnd_pure _

/-- What it takes for a file to be loaded with the same content. -/
theorem readable_of_roundTrips {s : Blockchain} (h : RoundTrips s) :
    money.isValidAmount s.miningReward = true ∧ SafeFields s.chain ∧
      isChainValid s.chain s.difficulty = true := by
  obtain ⟨haccept, hdifficulty, hreward, hchain, -⟩ := h s
  obtain ⟨d, r, parsed, rest, hread, hvalid, hload⟩ := loadFromFile_accepts haccept
  rw [hload] at hdifficulty hreward hchain
  obtain ⟨hamount, hsafe⟩ := safeFields_of_readFile hread
  obtain rfl : parsed = s.chain := hchain
  obtain rfl : d = s.difficulty := hdifficulty
  obtain rfl : r = s.miningReward := hreward
  exact ⟨hamount, hsafe, hvalid⟩

/-- **A file that was not written to its end.** Where the whole file would be loaded, a part of it
is loaded as the whole if only the last line end is missing; otherwise it is refused and leaves the
node as it was, or SHA-256 collides on the strings of the chain and of what is read. -/
theorem load_torn {s t : Blockchain} {kept missing : Bytes} (h : RoundTrips s)
    (hcut : kept ++ missing = s.saveToFile) (hmissing : missing ≠ []) :
    missing = [newline] ∧ t.loadFromFile (some kept) = (s.reloaded, true) ∨
      missing ≠ [newline] ∧ (t.loadFromFile (some kept) = (t, false) ∨
        ∃ d r parsed rest, readFile.run kept = some ((d, r, parsed), rest) ∧
          RootCollision s.chain parsed) := by
  obtain ⟨hreward, hsafe, hvalid⟩ := readable_of_roundTrips h
  by_cases hline : missing = [newline]
  · refine .inl ⟨hline, ?_⟩
    obtain ⟨rest, hwhole⟩ := (reads_file hreward hsafe).run_eq
    rw [← hcut, hline] at hwhole
    obtain ⟨rest', hread⟩ := ignoresEnd_readFile.run_of_line hwhole
    exact loadFromFile_of_reads t hread hvalid
  · refine .inr ⟨hline, ?_⟩
    cases hread : readFile.run kept with
    | none =>
      have hbind : (some kept).bind readFile.run = none := hread
      refine .inl ?_
      unfold loadFromFile
      rw [hbind]
    | some result =>
      obtain ⟨⟨d, r, parsed⟩, rest⟩ := result
      obtain ⟨-, ⟨-, hlast⟩ | hcollision⟩ := torn_readFile hreward hsafe [] kept missing _ rest
        (by simp [Blank]) hcut hmissing hread
      · exact absurd hlast hline
      · exact .inr ⟨d, r, parsed, rest, rfl, hcollision⟩

/-- The program died behind the first line of a chain with one reward. -/
theorem load_torn_firstLine :
    let s := firstMined (ascii "miner") 5 6
    let kept := line (decimalInt s.difficulty.toInt)
    let missing := line (decimalInt s.miningReward.toInt) ++ (line (decimal s.chain.length) ++
      s.chain.flatMap Block.text)
    missing = [newline] ∧ s.loadFromFile (some kept) = (s.reloaded, true) ∨
      missing ≠ [newline] ∧ (s.loadFromFile (some kept) = (s, false) ∨
        ∃ d r parsed rest, readFile.run kept = some ((d, r, parsed), rest) ∧
          RootCollision s.chain parsed) := by
  intro s kept missing
  have hreach : (node 0 (money.coins 50)).Reachable NoLoad s :=
    reachable_firstMined trivial (by decide)
  have hvalid : isChainValid s.chain s.difficulty = true :=
    isChainValid_firstMined (by decide) (by decide)
  have hsafe : SafeFields s.chain := safeFields_first (by decide)
    (List.forall_mem_singleton.mpr (safeFields_rewardTo (by decide)))
  have hround : RoundTrips s := fun t => by
    rw [loadFromFile_saveToFile t (by decide) hsafe hvalid]
    exact ⟨rfl, rfl, rfl, rfl, (coherent_of_reachable hreach).balances_eq.symm⟩
  refine load_torn hround ?_ (List.append_ne_nil_of_left_ne_nil (by decide) _)
  simp only [kept, missing, saveToFile, List.append_assoc]

end Blockchain

end BlockchainCrypto
