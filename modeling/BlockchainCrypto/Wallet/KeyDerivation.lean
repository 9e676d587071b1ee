import BlockchainCrypto.Theory.KeyedHash
import BlockchainCrypto.Wallet.Keystore

/-!
# Key derivation

`hmacSha256` and `pbkdf2Sha256` against their standards, over any hash function with 32 bytes. The
loop of PBKDF2 keeps the last iterate and the exclusive or of all so far; its block counter is a
32-bit word that starts at one, and the last block is cut.

## Main results

* `keystore.toList_hmacSha256`: the keyed hash.
* `keystore.toList_stretch`: what the inner loop adds.
* `keystore.pbkdf2Blocks_eq`: the blocks from any counter on.
* `keystore.keyDerivation_rfc`: both against the standards.
-/

namespace BlockchainCrypto

open KeyedHash

namespace keystore

variable (sha256Of : Bytes → Mac)

/-- The hash function on octet strings. -/
def octets (message : Bytes) : Bytes := (sha256Of message).toList

/-- The pseudorandom function of the key derivation. -/
def prf (password message : Bytes) : Bytes := (hmacSha256 sha256Of password message).toList

theorem toList_hmacSha256 (key data : Bytes) :
    (hmacSha256 sha256Of key data).toList = hmac (octets sha256Of) BLOCK_SIZE key data := by
  have hlength {k : Bytes} (h : k.length ≤ BLOCK_SIZE) :
      (k ++ List.replicate (BLOCK_SIZE - k.length) 0).length ≤ BLOCK_SIZE := by
    rw [List.length_append, List.length_replicate]
    omega
  by_cases hlong : BLOCK_SIZE < key.length
  · have hpadded := hlength (k := (sha256Of key).toList) (by rw [Vector.length_toList]; decide)
    rw [hmacSha256, hmac, if_pos hlong, if_pos hlong]
    dsimp only [octets]
    rw [xorOctets_replicate hpadded, xorOctets_replicate hpadded]
  · have hpadded := hlength (not_lt.mp hlong)
    rw [hmacSha256, hmac, if_neg hlong, if_neg hlong]
    dsimp only [octets]
    rw [xorOctets_replicate hpadded, xorOctets_replicate hpadded]

theorem length_prf (password message : Bytes) : (prf sha256Of password message).length = 32 :=
  Vector.length_toList

variable {sha256Of}

/-- The inner loop adds the iterates behind the one it starts from. -/
theorem toList_stretch (password salt : Bytes) (i k n : ℕ) {u accumulator : Mac}
    (hu : u.toList = U (prf sha256Of) password salt i k) :
    (stretch sha256Of password n u accumulator).toList =
      ((List.range' (k + 1) n).map (U (prf sha256Of) password salt i)).foldl xorOctets
        accumulator.toList := by
  induction n generalizing k u accumulator with
  | zero => rfl
  | succ n ih =>
    have hnext : (hmacSha256 sha256Of password u.toList).toList =
        U (prf sha256Of) password salt i (k + 1) := by
      rw [U_succ, ← hu]
      rfl
    rw [stretch, ih (k + 1) hnext, List.range'_succ, List.map_cons, List.foldl_cons, ← hnext,
      Vector.toList_zipWith]
    rfl

theorem appendU32BE_eq (value : UInt32) : appendU32BE value = INT value.toNat := by
  have hbyte (n k : ℕ) (hn : n < 32) (hk : 2 ^ n = 256 ^ k) :
      (value >>> UInt32.ofNat n).toUInt8 = UInt8.ofNat (value.toNat / 256 ^ k) := by
    rw [ECCrypto.toUInt8_shiftRight value hn, Nat.shiftRight_eq_div_pow, hk]
  have h24 := hbyte 24 3 (by decide) (by norm_num)
  have h16 := hbyte 16 2 (by decide) (by norm_num)
  have h8 := hbyte 8 1 (by decide) (by norm_num)
  have h0 := hbyte 0 0 (by decide) (by norm_num)
  exact List.cons_eq_cons.mpr ⟨h24, List.cons_eq_cons.mpr ⟨h16, List.cons_eq_cons.mpr
    ⟨h8, List.cons_eq_cons.mpr ⟨h0, rfl⟩⟩⟩⟩

/-- One block, with at least one iteration. -/
theorem toList_block (password salt : Bytes) {iterations block : UInt32} {i : ℕ}
    (hiter : 1 ≤ iterations.toNat) (hblock : block.toNat = i % 2 ^ 32) :
    (stretch sha256Of password (iterations.toNat - 1)
      (hmacSha256 sha256Of password (salt ++ appendU32BE block))
      (hmacSha256 sha256Of password (salt ++ appendU32BE block))).toList =
        F (prf sha256Of) 32 password salt iterations.toNat i := by
  have hfirst : (hmacSha256 sha256Of password (salt ++ appendU32BE block)).toList =
      U (prf sha256Of) password salt i 1 := by
    rw [appendU32BE_eq, hblock, INT_mod]
    rfl
  obtain ⟨n, hn⟩ := Nat.exists_eq_add_of_le' hiter
  rw [toList_stretch password salt i 1 _ hfirst, hfirst, F, hn, Nat.add_sub_cancel,
    List.range'_succ, List.map_cons, List.foldl_cons]
  congr 1
  have hlength : (U (prf sha256Of) password salt i 1).length = 32 := length_prf sha256Of _ _
  rw [← hlength, zero_xorOctets]

/-- The blocks from a counter on, cut to what is missing. -/
theorem pbkdf2Blocks_eq (password salt : Bytes) {iterations block : UInt32} {i : ℕ}
    (hiter : 1 ≤ iterations.toNat) (hblock : block.toNat = i % 2 ^ 32) (missing : ℕ) :
    pbkdf2Blocks sha256Of password salt iterations block missing =
      ((List.range' i ((missing + 31) / 32)).flatMap
        (F (prf sha256Of) 32 password salt iterations.toNat)).take missing := by
  induction missing using Nat.strong_induction_on generalizing i block with
  | _ missing ih =>
    rw [pbkdf2Blocks]
    split_ifs with hzero
    · rw [hzero, List.take_zero]
    · have hcount : (missing + 31) / 32 = (missing - 32 + 31) / 32 + 1 := by omega
      have hnext : (block + 1).toNat = (i + 1) % 2 ^ 32 := by
        rw [UInt32.toNat_add, hblock, show (1 : UInt32).toNat = 1 from rfl]
        omega
      dsimp only
      rw [toList_block password salt hiter hblock, ih (missing - 32) (by omega) hnext, hcount,
        List.range'_succ, List.flatMap_cons, List.take_append, length_F (length_prf sha256Of)]

theorem pbkdf2Sha256_eq (password salt : Bytes) {iterations : UInt32}
    (hiter : 1 ≤ iterations.toNat) (outputLength : ℕ) :
    pbkdf2Sha256 sha256Of password salt iterations outputLength =
      ((List.range' 1 ((outputLength + 31) / 32)).flatMap
        (F (prf sha256Of) 32 password salt iterations.toNat)).take outputLength :=
  pbkdf2Blocks_eq password salt hiter rfl outputLength

/-- A shorter key is the front of a longer one. -/
theorem pbkdf2Sha256_prefix (password salt : Bytes) {iterations : UInt32}
    (hiter : 1 ≤ iterations.toNat) {outputLength longer : ℕ} (h : outputLength ≤ longer) :
    pbkdf2Sha256 sha256Of password salt iterations outputLength <+:
      pbkdf2Sha256 sha256Of password salt iterations longer := by
  rw [pbkdf2Sha256_eq password salt hiter, pbkdf2Sha256_eq password salt hiter,
    ← take_flatMap_range' (fun i => length_F (length_prf sha256Of) _ i)
      (show outputLength ≤ (outputLength + 31) / 32 * 32 by omega)
      (show (outputLength + 31) / 32 ≤ (longer + 31) / 32 by omega)]
  exact List.take_prefix_take_left h

variable (sha256Of) in
/-- Over any hash function with 32 bytes, `hmacSha256` is HMAC with blocks of 64 bytes, and
`pbkdf2Sha256` is PBKDF2 with this function: the key has the length that is asked for and is the
front of every longer key. -/
theorem keyDerivation_rfc :
    (∀ key data, (hmacSha256 sha256Of key data).toList = hmac (octets sha256Of) 64 key data) ∧
    ∀ (password salt : Bytes) (iterations : UInt32) (outputLength : ℕ), 1 ≤ iterations.toNat →
      outputLength < 32 * (2 ^ 32 - 1) →
        pbkdf2 (hmac (octets sha256Of) 64) 32 password salt iterations.toNat outputLength =
          some (pbkdf2Sha256 sha256Of password salt iterations outputLength) ∧
        (pbkdf2Sha256 sha256Of password salt iterations outputLength).length = outputLength ∧
        ∀ longer, outputLength ≤ longer →
          pbkdf2Sha256 sha256Of password salt iterations outputLength <+:
            pbkdf2Sha256 sha256Of password salt iterations longer := by
  have hprf : hmac (octets sha256Of) 64 = prf sha256Of :=
    funext fun key => funext fun data => (toList_hmacSha256 sha256Of key data).symm
  refine ⟨toList_hmacSha256 sha256Of, fun password salt iterations outputLength hiter hlong =>
    ⟨?_, ?_, fun longer => pbkdf2Sha256_prefix password salt hiter⟩⟩
  · rw [hprf, pbkdf2_eq_take (length_prf sha256Of) (by decide) _ _ _ (by omega),
      pbkdf2Sha256_eq password salt hiter]
    rfl
  · rw [pbkdf2Sha256_eq password salt hiter, List.length_take,
      length_flatMap_range' fun i => length_F (length_prf sha256Of) _ i]
    omega

/-- A key of 40 bytes from two iterations, with SHA-256. -/
theorem keyDerivation_rfc_forty :
    (pbkdf2Sha256 SHA256.hashRaw (ByteText.ascii "password") (ByteText.ascii "salt") 2
      40).length = 40 :=
  ((keyDerivation_rfc SHA256.hashRaw).2 _ _ 2 40 (by decide) (by decide)).2.1

end keystore

end BlockchainCrypto
