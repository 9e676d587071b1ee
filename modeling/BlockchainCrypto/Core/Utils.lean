import BlockchainCrypto.Crypto.Sha256
import BlockchainCrypto.Text.Extraction
import Mathlib.Algebra.Group.Nat.Defs
import Mathlib.Data.List.DropRight

/-!
# Utilities

`utils.cpp`: Merkle roots with separate prefixes for leaves and nodes, the proof-of-work test, and
the parsing of whole numbers.

## Main definitions

* `utils.calculateMerkleRoot`: the root of a list of transaction hashes, in hexadecimal.
* `utils.checkProofOfWork`: enough leading `0` digits.
* `utils.parseInt`, `utils.parseInt64`: a whole string as a number.

## Main results

* `utils.isHexWord_sha256`, `utils.isHexWord_calculateMerkleRoot`: both are hexadecimal.
* `utils.checkProofOfWork_zero`: difficulty zero asks for nothing.
* `utils.parseInt64_decimalInt`, `utils.parseInt_decimal_eq`: parsing of a rendered number.
-/

namespace BlockchainCrypto

open ByteText

namespace utils

/-- The hexadecimal digest. -/
def sha256 (input : Bytes) : Bytes := SHA256.hash input

/-- Two hexadecimal digits for each byte. -/
def bytesToHex (data : Bytes) : Bytes := data.flatMap hexByte

/-! ### Merkle roots -/

/-- Leaves and inner nodes are hashed with different first bytes. -/
def MERKLE_LEAF_PREFIX : UInt8 := 0x00

/-- The first byte for an inner node. -/
def MERKLE_NODE_PREFIX : UInt8 := 0x01

/-- The digest of a leaf. -/
def merkleLeaf (transactionHash : Bytes) : SHA256.Digest :=
  SHA256.hashRaw (MERKLE_LEAF_PREFIX :: transactionHash)

/-- The digest of an inner node. -/
def merkleNode (left right : SHA256.Digest) : SHA256.Digest :=
  SHA256.hashRaw (MERKLE_NODE_PREFIX :: (left.toList ++ right.toList))

/-- One pass of the `while` loop: neighbours are paired and an odd last digest is promoted. -/
def nextLevel : List SHA256.Digest → List SHA256.Digest
  | left :: right :: rest => merkleNode left right :: nextLevel rest
  | level => level

theorem length_nextLevel (level : List SHA256.Digest) :
    (nextLevel level).length = (level.length + 1) / 2 := by
  fun_induction nextLevel level with
  | case1 left right rest ih =>
    simp only [List.length_cons, ih]
    omega
  | case2 level hshort =>
    match level with
    | [] => rfl
    | [_] => simp
    | left :: right :: rest => exact (hshort left right rest rfl).elim

/-- The `while` loop over the levels of the tree. -/
def merkleLevels (level : List SHA256.Digest) : List SHA256.Digest :=
  if level.length > 1 then merkleLevels (nextLevel level) else level
termination_by level.length
decreasing_by
  rw [length_nextLevel]
  omega

/-- The root over the hashes of transactions; without any it is the digest of the empty string. -/
def calculateMerkleRoot (transactions : List Bytes) : Bytes :=
  if transactions = [] then sha256 []
  else
    bytesToHex ((merkleLevels (transactions.map merkleLeaf)).headD (Vector.replicate 32 0)).toList

/-! ### Proof of work -/

/-- At least `difficulty` leading `0` digits; a negative difficulty and one beyond the length of
the hash are never met. -/
def checkProofOfWork (hash : Bytes) (difficulty : Int32) : Bool :=
  if difficulty < 0 then false
  else
    let required := difficulty.toInt.toNat
    if required > hash.length then false else (hash.take required).all (· == 48)

theorem checkProofOfWork_zero (hash : Bytes) : checkProofOfWork hash 0 = true := by
  simp [checkProofOfWork]

/-! ### Hexadecimal words -/

/-- A non-empty run of hexadecimal digits. -/
def IsHexWord (w : Bytes) : Prop := w ≠ [] ∧ ∀ c ∈ w, isHexDigit c = true

theorem IsHexWord.isWord {w : Bytes} (h : IsHexWord w) : IsWord w :=
  ⟨h.1, fun c hc => isSpace_eq_false_of_isHexDigit (h.2 c hc)⟩

theorem isHexWord_flatMap_hexByte {data : Bytes} (h : data ≠ []) :
    IsHexWord (data.flatMap hexByte) := by
  refine ⟨fun hnil => h ?_, fun c hc => ?_⟩
  · have hlen := length_flatMap_hexByte data
    rw [hnil, List.length_nil] at hlen
    exact List.length_eq_zero_iff.mp (by omega)
  · obtain ⟨b, -, hc⟩ := List.mem_flatMap.mp hc
    exact isHexDigit_of_mem_hexByte hc

theorem isHexWord_digest (d : SHA256.Digest) : IsHexWord (d.toList.flatMap hexByte) := by
  refine isHexWord_flatMap_hexByte (List.ne_nil_of_length_pos ?_)
  rw [Vector.length_toList]
  decide

theorem isHexWord_sha256 (input : Bytes) : IsHexWord (sha256 input) := isHexWord_digest _

theorem isHexWord_calculateMerkleRoot (transactions : List Bytes) :
    IsHexWord (calculateMerkleRoot transactions) := by
  unfold calculateMerkleRoot
  split_ifs
  · exact isHexWord_sha256 []
  · exact isHexWord_digest _

theorem isWord_sha256 (input : Bytes) : IsWord (sha256 input) := (isHexWord_sha256 input).isWord

/-! ### Whole numbers -/

/-- The string without the white space around it. -/
def trim (text : Bytes) : Bytes := (text.dropWhile isSpace).rdropWhile isSpace

/-- The minus sign that `std::from_chars` accepts; it knows no plus sign. -/
def splitMinus : Bytes → Bool × Bytes
  | 45 :: t => (true, t)
  | t => (false, t)

/-- `parseWhole` at a signed type with values from `lo` to `hi`. -/
def parseWhole (lo hi : ℤ) (text : Bytes) : Option ℤ :=
  let text := trim text
  if text = [] then none
  else
    let (negative, ds) := splitMinus text
    let v : ℤ := if negative then -digitsValue ds else digitsValue ds
    if ds = [] ∨ ¬ ds.all isDigit then none
    else if lo ≤ v ∧ v ≤ hi then some v else none

/-- A whole line as an `int`. -/
def parseInt (text : Bytes) : Option Int32 :=
  (parseWhole (-2147483648) 2147483647 text).map Int32.ofInt

/-- A whole line as an `int64_t`. -/
def parseInt64 (text : Bytes) : Option Int64 :=
  (parseWhole (-9223372036854775808) 9223372036854775807 text).map Int64.ofInt

theorem trim_of_isWord {w : Bytes} (h : IsWord w) : trim w = w := by
  have hfront : w.dropWhile isSpace = w := List.dropWhile_eq_self_iff.mpr fun hpos => by
    simp [h.2 _ (List.getElem_mem hpos)]
  rw [trim, hfront, List.rdropWhile_eq_self_iff]
  intro hne
  simp [h.2 _ (List.getLast_mem hne)]

/-- A wider range accepts the same numbers. -/
theorem parseWhole_of_le {lo hi lo' hi' v : ℤ} {text : Bytes} (hlo : lo' ≤ lo) (hhi : hi ≤ hi')
    (h : parseWhole lo hi text = some v) : parseWhole lo' hi' text = some v := by
  unfold parseWhole at h ⊢
  dsimp only at h ⊢
  split_ifs at h ⊢
  · exact h
  · omega
  · exact h
  · omega

/-- A parsed number is in the range. -/
theorem parseWhole_bounds {lo hi v : ℤ} {text : Bytes}
    (h : parseWhole lo hi text = some v) : lo ≤ v ∧ v ≤ hi := by
  unfold parseWhole at h
  dsimp only at h
  split_ifs at h with _ _ _ hrange hrange
  · exact Option.some.inj h ▸ hrange
  · exact Option.some.inj h ▸ hrange

/-- A rendered integer is parsed when it is in range; another one is rejected. -/
theorem parseWhole_decimalInt (lo hi z : ℤ) :
    parseWhole lo hi (decimalInt z) = if lo ≤ z ∧ z ≤ hi then some z else none := by
  have hall (n : ℕ) : ¬ (decimal n = [] ∨ ¬ (decimal n).all isDigit = true) := by
    rw [not_or, not_not, List.all_eq_true]
    exact ⟨decimal_ne_nil n, fun b hb => isDigit_of_mem_decimal hb⟩
  rw [parseWhole, trim_of_isWord (isWord_decimalInt z)]
  simp only [(isWord_decimalInt z).1, ↓reduceIte]
  cases z with
  | ofNat n =>
    have hsign : splitMinus (decimal n) = (false, decimal n) := by
      cases hd : decimal n with
      | nil => exact absurd hd (decimal_ne_nil n)
      | cons b ds =>
        rw [splitMinus]
        rintro t ht
        obtain ⟨rfl, -⟩ := List.cons.inj ht
        have hminus : (45 : UInt8) ∈ decimal n := hd ▸ List.mem_cons_self
        exact absurd (isDigit_of_mem_decimal hminus) (by decide)
    simp only [decimalInt, hsign, Bool.false_eq_true, hall n, ↓reduceIte, digitsValue_decimal]
    rfl
  | negSucc n =>
    simp only [decimalInt, splitMinus, hall (n + 1), ↓reduceIte, digitsValue_decimal]
    rfl

theorem parseInt64_decimalInt (v : Int64) : parseInt64 (decimalInt v.toInt) = some v := by
  have hlt := v.toInt_lt
  have hle := v.minValue_le_toInt
  rw [parseInt64, parseWhole_decimalInt, if_pos ⟨by simpa using hle, by omega⟩, Option.map_some,
    Int64.ofInt_toInt]

/-- A count is parsed as an `int` below `2 ^ 31`. -/
theorem parseInt_decimal_eq (n : ℕ) :
    parseInt (decimal n) = if n < 2 ^ 31 then some (Int32.ofNat n) else none := by
  have hn : decimal n = decimalInt n := rfl
  rw [parseInt, hn, parseWhole_decimalInt]
  split_ifs with h h' h'
  · exact congrArg some Int32.ofInt_eq_ofNat
  · omega
  · omega
  · rfl

example : parseInt64 (ascii " -7 ") = some (-7) := by decide

end utils

end BlockchainCrypto
