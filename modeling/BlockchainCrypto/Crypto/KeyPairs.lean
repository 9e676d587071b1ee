import BlockchainCrypto.Crypto.Schnorr
import BlockchainCrypto.Text.Extraction

/-!
# Key pairs

The scalars of key pairs and the strings that their constructor derives from them: the padded
hexadecimal digits of the private key, the compressed public key and the address. A scalar in
`[1, N - 1]` comes out of its digits again, and its public key is valid; other scalars are taken
modulo the order for the public key only.

## Main definitions

* `ECCrypto.randomScalar`, `ECCrypto.generateKeyPair`, over the draws of the system's generator.
* `ECCrypto.KeyPair`, `ECCrypto.keyPairFromPrivateKey`, `ECCrypto.keyPairFromPrivateKeyHex`.
* `ECCrypto.isValidPrivateKey`.

## Main results

* `ECCrypto.randomScalar_spec`: a scalar that was drawn is in range.
* `ECCrypto.hexToBytes_privateKeyHex`, `ECCrypto.hexToBytes_privateKeyHex_of_le`: which scalars fit
  into 32 bytes.
* `ECCrypto.isValidPublicKey_compressPublicKey`: keys of scalars in range are valid.
-/

namespace BlockchainCrypto

open ByteText

namespace ECCrypto

open secp256k1

/-- The bytes of a private key. -/
abbrev PRIVATE_KEY_SIZE : ℕ := 32

/-- The 32 bytes of a scalar. -/
abbrev PrivateKey := Vector UInt8 PRIVATE_KEY_SIZE

/-- The scalar is positive and below the order. -/
def isValidPrivateKey (privateKey : PrivateKey) : Bool :=
  let key := bytes32ToBigInt privateKey.toList
  decide (key > 0 ∧ key < N)

/-! ### Integers from text -/

/-- `BigInt::digitValue`; the source returns `-1` for any other character. -/
def digitValue (c : UInt8) : Option ℕ :=
  if 48 ≤ c ∧ c ≤ 57 then some (c.toNat - 48)
  else if 97 ≤ c ∧ c ≤ 122 then some (c.toNat - 97 + 10)
  else if 65 ≤ c ∧ c ≤ 90 then some (c.toNat - 65 + 10)
  else none

/-- One more digit, below the base. -/
def appendDigit (base value : ℕ) (c : UInt8) : Option ℕ := do
  let d ← digitValue c
  if d ≥ base then none else pure (value * base + d)

/-- `BigInt(const std::string&, int)` as an integer; none stands for the exceptions. -/
def ofString (num : Bytes) (base : ℕ) : Option ℤ := do
  let (neg, digits) := splitSign num
  if digits = [] then none
  else
    let value ← digits.foldlM (appendDigit base) 0
    pure (if neg then -(value : ℤ) else value)

/-! ### Scalars and key pairs -/

/-- The draws of `randomScalar` from number `i` on; a draw is none when the generator throws. -/
def randomScalarFrom (draws : ℕ → Option PrivateKey) : ℕ → ℕ → Option ℤ
  | 0, _ => none
  | attempts + 1, i => do
    let bytes ← draws i
    let candidate := bytes32ToBigInt bytes.toList
    if candidate > 0 ∧ candidate < N then pure candidate
    else randomScalarFrom draws attempts (i + 1)

/-- `randomScalar`, which gives up after 128 draws. -/
def randomScalar (draws : ℕ → Option PrivateKey) : Option ℤ := randomScalarFrom draws 128 0

/-- A key pair and the strings that its constructor derives. -/
structure KeyPair where
  privateKey : ℤ
  publicKey : ECPoint
  privateKeyHex : Bytes
  publicKeyHex : Bytes
  address : Bytes

/-- The constructor of key pairs; a negative private key has no digits. -/
def KeyPair.create (privKey : ℤ) (pubKey : ECPoint) : KeyPair :=
  let digits := hexDigits privKey
  let compressed := compressPublicKey pubKey
  ⟨privKey, pubKey, List.replicate (64 - digits.length) 48 ++ digits,
    bytesToHex compressed.toList, deriveAddress compressed⟩

/-- The key pair of a scalar. -/
def keyPairFromPrivateKey (privKey : ℤ) : KeyPair := .create privKey (G.mul (privKey % N))

/-- The key pair of a scalar in hexadecimal. -/
def keyPairFromPrivateKeyHex (privKeyHex : Bytes) : Option KeyPair :=
  (ofString privKeyHex 16).map keyPairFromPrivateKey

/-- The key pair of a random scalar. -/
def generateKeyPair (draws : ℕ → Option PrivateKey) : Option KeyPair :=
  (randomScalar draws).map keyPairFromPrivateKey

/-! ### Scalars in range -/

theorem isValidPrivateKey_iff {privateKey : PrivateKey} : isValidPrivateKey privateKey = true ↔
    0 < bytes32ToBigInt privateKey.toList ∧ bytes32ToBigInt privateKey.toList < N :=
  decide_eq_true_iff

theorem randomScalarFrom_spec {draws : ℕ → Option PrivateKey} {attempts i : ℕ} {x : ℤ}
    (h : randomScalarFrom draws attempts i = some x) : 0 < x ∧ x < N := by
  induction attempts generalizing i with
  | zero => cases h
  | succ attempts ih =>
    obtain ⟨bytes, -, h⟩ := Option.bind_eq_some_iff.mp h
    dsimp only at h
    split_ifs at h with hrange
    · obtain rfl := Option.some.inj h
      exact hrange
    · exact ih h

/-- A scalar that was drawn is in range. -/
theorem randomScalar_spec {draws : ℕ → Option PrivateKey} {x : ℤ}
    (h : randomScalar draws = some x) : 0 < x ∧ x < N := randomScalarFrom_spec h

theorem N_lt : N < 2 ^ 256 := by decide

/-- The key of 32 bytes that a scalar is stored as. -/
def privateKeyOf (x : ℤ) : PrivateKey :=
  ⟨(bigIntToBytes32 x).toArray, by simp [length_bigIntToBytes32]⟩

theorem toList_privateKeyOf (x : ℤ) : (privateKeyOf x).toList = bigIntToBytes32 x := rfl

/-- Scalars below `2 ^ 256` fit into 32 bytes. -/
theorem hexToBytes_privateKeyHex {x : ℤ} (h : x < 2 ^ 256) (Q : ECPoint) (output : PrivateKey) :
    hexToBytes (KeyPair.create x Q).privateKeyHex output = (PRIVATE_KEY_SIZE, privateKeyOf x) := by
  have hround := hexToBytes_bytesToHex (privateKeyOf x) output
  rwa [toList_privateKeyOf, bytesToHex_bigIntToBytes32 h] at hround

/-- Larger ones are refused. -/
theorem hexToBytes_privateKeyHex_of_le {x : ℤ} (h : 2 ^ 256 ≤ x) (Q : ECPoint)
    (output : PrivateKey) : (hexToBytes (KeyPair.create x Q).privateKeyHex output).1 = 0 := by
  have hlong : 64 < (hexDigits x).length := by
    lift x to ℕ using by omega
    rw [hexDigits, if_pos (Int.natCast_nonneg x), Int.toNat_natCast, List.length_map]
    by_contra hle
    rw [not_lt, Nat.length_toDigits_le_iff (by decide) (by decide)] at hle
    have hpow : (16 : ℕ) ^ 64 = 2 ^ 256 := by norm_num
    rw [hpow] at hle
    have hge : 2 ^ 256 ≤ x := by exact_mod_cast h
    omega
  have hlength : (KeyPair.create x Q).privateKeyHex.length = (hexDigits x).length := by
    rw [KeyPair.create, List.length_append, List.length_replicate]
    omega
  have hsize : PRIVATE_KEY_SIZE = 32 := rfl
  rw [hexToBytes, hlength]
  split_ifs with hodd hfits
  · rfl
  · rfl
  · omega

theorem bytes32ToBigInt_privateKeyOf {x : ℤ} (h : 0 < x ∧ x < N) :
    bytes32ToBigInt (privateKeyOf x).toList = x :=
  bytes32ToBigInt_bigIntToBytes32 h.1.le (h.2.trans N_lt)

/-- Keys of scalars in range are valid. -/
theorem isValidPublicKey_compressPublicKey {x : ℤ} (h : 0 < x ∧ x < N) :
    isValidPublicKey (compressPublicKey (G.mul x)) = true := by
  obtain ⟨hcurve, -, hfinite⟩ := mul_G_spec h
  obtain ⟨hdecode, -⟩ := decompressPublicKey_eq_iff.mpr ⟨hcurve, hfinite, rfl⟩
  have hhead := compressPublicKey_parity hfinite
  rw [isValidPublicKey, hdecode, hfinite]
  split_ifs with hprefix
  · split_ifs at hhead with heven
    · exact absurd hhead hprefix.1
    · exact absurd hhead hprefix.2
  · rfl

end ECCrypto

end BlockchainCrypto
