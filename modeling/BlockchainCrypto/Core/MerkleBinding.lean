import BlockchainCrypto.Core.Utils
import BlockchainCrypto.Crypto.Encoding
import BlockchainCrypto.Theory.HashTree

/-!
# Merkle roots bind the transaction list

The levels that `calculateMerkleRoot` goes through are those of a tree of hashes over the list,
and the prefix bytes tell leaves and nodes apart. Equal roots therefore come from equal lists or
from a collision of SHA-256 among the strings that were hashed.

## Main definitions

* `utils.merkleInputs`: the strings hashed for a root.
* `utils.merkleScheme`: leaves and nodes as messages of one hash function.

## Main results

* `utils.merkleLevels_map_digest`: the levels are those of the tree.
* `utils.calculateMerkleRoot_binding`: equal roots come from equal lists or from a collision.
-/

namespace BlockchainCrypto

open ByteText

namespace utils

/-! ### What is hashed -/

/-- What is hashed for a leaf. -/
def merkleLeafInput (transactionHash : Bytes) : Bytes := MERKLE_LEAF_PREFIX :: transactionHash

/-- What is hashed for an inner node. -/
def merkleNodeInput (left right : SHA256.Digest) : Bytes :=
  MERKLE_NODE_PREFIX :: (left.toList ++ right.toList)

/-- The strings hashed in one pass over a level. -/
def levelInputs : List SHA256.Digest → List Bytes
  | left :: right :: rest => merkleNodeInput left right :: levelInputs rest
  | _ => []

/-- The strings hashed above a level. -/
def levelsInputs (level : List SHA256.Digest) : List Bytes :=
  if level.length > 1 then levelInputs level ++ levelsInputs (nextLevel level) else []
termination_by level.length
decreasing_by
  rw [length_nextLevel]
  omega

/-- The strings hashed by `calculateMerkleRoot`. -/
def merkleInputs (transactions : List Bytes) : List Bytes :=
  if transactions = [] then [[]]
  else transactions.map merkleLeafInput ++ levelsInputs (transactions.map merkleLeaf)

/-! ### The tree over the list -/

/-- The prefix byte separates leaves from nodes, and digests have one length. -/
def merkleScheme : HashTree.Scheme Bytes Bytes SHA256.Digest where
  hash := SHA256.hashRaw
  leafInput := merkleLeafInput
  nodeInput := merkleNodeInput
  leafInput_inj h := (List.cons.inj h).2
  nodeInput_inj h := by
    obtain ⟨hl, hr⟩ := List.append_inj (List.cons.inj h).2 (by simp)
    exact ⟨Vector.toList_inj.mp hl, Vector.toList_inj.mp hr⟩
  leafInput_ne_nodeInput _ _ _ h := absurd (List.cons.inj h).1 (by decide)

theorem nextLevel_eq_pairUp (level : List SHA256.Digest) :
    nextLevel level = HashTree.pairUp merkleNode level := by
  fun_induction nextLevel level with
  | case1 left right rest ih => rw [HashTree.pairUp, ih]
  | case2 level hshort =>
    rcases level with _ | ⟨left, _ | ⟨right, rest⟩⟩
    · rfl
    · rfl
    · exact (hshort left right rest rfl).elim

theorem merkleLevels_eq_reduce (level : List SHA256.Digest) :
    merkleLevels level = HashTree.reduce merkleNode level := by
  fun_induction merkleLevels level with
  | case1 level hlong ih => rw [ih, nextLevel_eq_pairUp, ← HashTree.reduce_of_length_gt hlong]
  | case2 level hshort => rw [HashTree.reduce_of_length_le (by omega)]

/-- The levels of the code are the digests of the levels of the tree. -/
theorem merkleLevels_map_digest (level : List (HashTree Bytes)) :
    merkleLevels (level.map merkleScheme.digest) =
      (HashTree.reduce .node level).map merkleScheme.digest := by
  rw [merkleLevels_eq_reduce]
  exact (HashTree.map_reduce (fun _ _ => rfl) level).symm

theorem inputs_pairUp_subset (level : List (HashTree Bytes)) :
    (HashTree.pairUp .node level).flatMap merkleScheme.inputs ⊆
      level.flatMap merkleScheme.inputs ++ levelInputs (level.map merkleScheme.digest) := by
  fun_induction HashTree.pairUp (@HashTree.node Bytes) level with
  | case1 left right rest ih =>
    simp only [List.flatMap_cons, HashTree.Scheme.inputs, List.map_cons, levelInputs]
    intro m hm
    simp only [List.mem_append, List.mem_cons] at hm ⊢
    rcases hm with (hroot | hleft | hright) | hrest
    · exact .inr (.inl hroot)
    · exact .inl (.inl hleft)
    · exact .inl (.inr (.inl hright))
    · rcases List.mem_append.mp (ih hrest) with h | h
      · exact .inl (.inr (.inr h))
      · exact .inr (.inr h)
  | case2 => exact List.subset_append_left _ _

/-- What the tree hashes is hashed by the code. -/
theorem inputs_reduce_subset (level : List (HashTree Bytes)) :
    (HashTree.reduce .node level).flatMap merkleScheme.inputs ⊆
      level.flatMap merkleScheme.inputs ++ levelsInputs (level.map merkleScheme.digest) := by
  fun_induction HashTree.reduce (@HashTree.node Bytes) level with
  | case1 level hlong ih =>
    have hnext : nextLevel (level.map merkleScheme.digest) =
        (HashTree.pairUp .node level).map merkleScheme.digest := by
      rw [nextLevel_eq_pairUp]
      exact (HashTree.map_pairUp (fun _ _ => rfl) level).symm
    rw [levelsInputs, if_pos (by rwa [List.length_map]), hnext, ← List.append_assoc]
    refine List.Subset.trans ih (List.append_subset.mpr ⟨?_, List.subset_append_right _ _⟩)
    exact List.Subset.trans (inputs_pairUp_subset level) (List.subset_append_left _ _)
  | case2 => exact List.subset_append_left _ _

/-- The tree that a list is hashed by. -/
theorem exists_merkleTree {transactions : List Bytes} (hne : transactions ≠ []) :
    ∃ tree : HashTree Bytes, tree.leaves = transactions ∧
      calculateMerkleRoot transactions = bytesToHex (merkleScheme.digest tree).toList ∧
      merkleScheme.inputs tree ⊆ merkleInputs transactions := by
  have hleaves : (transactions.map HashTree.leaf).map merkleScheme.digest =
      transactions.map merkleLeaf := List.map_map
  have hlevel : transactions.map HashTree.leaf ≠ [] := by simpa using hne
  obtain ⟨tree, htree⟩ := HashTree.exists_reduce_eq HashTree.node hlevel
  refine ⟨tree, ?_, ?_, ?_⟩
  · have h := HashTree.flatMap_leaves_reduce (transactions.map HashTree.leaf)
    rw [htree, List.flatMap_singleton, List.flatMap_map] at h
    exact h.trans (List.flatMap_singleton' transactions)
  · have h := merkleLevels_map_digest (transactions.map HashTree.leaf)
    rw [hleaves, htree] at h
    rw [calculateMerkleRoot, if_neg hne, h]
    rfl
  · have h := inputs_reduce_subset (transactions.map HashTree.leaf)
    rw [hleaves, htree, List.flatMap_singleton, List.flatMap_map] at h
    rw [merkleInputs, if_neg hne, ← List.flatMap_singleton' (transactions.map merkleLeafInput),
      List.flatMap_map]
    exact h

/-- **Equal roots bind the list.** Two lists with the same root are equal, or two distinct strings
among those hashed for the two roots have the same SHA-256 digest. -/
theorem calculateMerkleRoot_binding {transactions transactions' : List Bytes}
    (h : calculateMerkleRoot transactions = calculateMerkleRoot transactions') :
    transactions = transactions' ∨
      ∃ m ∈ merkleInputs transactions, ∃ m' ∈ merkleInputs transactions',
        m ≠ m' ∧ SHA256.hashRaw m = SHA256.hashRaw m' := by
  -- The root of a list with elements is never that of the empty string, unless two inputs collide.
  have hempty {txs : List Bytes} (hne : txs ≠ [])
      (hroot : calculateMerkleRoot txs = calculateMerkleRoot []) :
      ∃ m ∈ merkleInputs txs, m ≠ [] ∧ SHA256.hashRaw m = SHA256.hashRaw [] := by
    obtain ⟨tree, -, hdigest, hinputs⟩ := exists_merkleTree hne
    refine ⟨_, hinputs (merkleScheme.rootInput_mem tree), ?_, ?_⟩
    · cases tree <;> exact List.cons_ne_nil _ _
    · have heq := ECCrypto.flatMap_hexByte_inj (hdigest.symm.trans hroot)
      exact (merkleScheme.hash_rootInput tree).trans (Vector.toList_inj.mp heq)
  have hnil : ([] : Bytes) ∈ merkleInputs [] := List.mem_singleton_self _
  rcases eq_or_ne transactions [] with rfl | hne
  · rcases eq_or_ne transactions' [] with rfl | hne'
    · exact .inl rfl
    · obtain ⟨m, hm, hm_ne, heq⟩ := hempty hne' h.symm
      exact .inr ⟨[], hnil, m, hm, hm_ne.symm, heq.symm⟩
  rcases eq_or_ne transactions' [] with rfl | hne'
  · obtain ⟨m, hm, hm_ne, heq⟩ := hempty hne h
    exact .inr ⟨m, hm, [], hnil, hm_ne, heq⟩
  obtain ⟨tree, hleaves, hdigest, hinputs⟩ := exists_merkleTree hne
  obtain ⟨tree', hleaves', hdigest', hinputs'⟩ := exists_merkleTree hne'
  have heq : merkleScheme.digest tree = merkleScheme.digest tree' :=
    Vector.toList_inj.mp (ECCrypto.flatMap_hexByte_inj (hdigest.symm.trans (h.trans hdigest')))
  rcases HashTree.Scheme.eq_or_collision heq with rfl | hcol
  · exact .inl (hleaves.symm.trans hleaves')
  · exact .inr (hcol.mono hinputs hinputs')

theorem calculateMerkleRoot_binding_three :
    [ascii "a", ascii "b", ascii "c"] = [ascii "a", ascii "b", ascii "c"] ∨
      ∃ m ∈ merkleInputs [ascii "a", ascii "b", ascii "c"],
        ∃ m' ∈ merkleInputs [ascii "a", ascii "b", ascii "c"],
          m ≠ m' ∧ SHA256.hashRaw m = SHA256.hashRaw m' :=
  calculateMerkleRoot_binding rfl

end utils

end BlockchainCrypto
