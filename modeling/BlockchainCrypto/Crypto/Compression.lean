import BlockchainCrypto.Crypto.PublicKeys

/-!
# The strings that are public keys

A string of 33 bytes is accepted when its prefix is one of the two and its `x` is a reduced
coordinate of a point. Such strings and the finite points of the curve correspond to each other
under compression and decompression. That the field prime is prime is a theorem here
(`ECCrypto.fieldPrime_prime`), not an assumption.

## Main definitions

* `ECCrypto.xOf`: the coordinate that a key carries.

## Main results

* `ECCrypto.isValidPublicKey_eq`: a key is valid when it decompresses to a finite point.
* `ECCrypto.exists_compressPublicKey_eq`: a prefix and a coordinate that make up a key.
* `ECCrypto.compression_correspondence`: keys and points.
-/

namespace BlockchainCrypto

open ByteText WeierstrassCurve.Affine

namespace ECCrypto

open secp256k1

/-- The coordinate in the last 32 bytes of a key. -/
def xOf (key : PublicKey) : ℤ := bytes32ToBigInt (key.toList.drop 1)

variable {key : PublicKey} {Q : ECPoint}

theorem xOf_compressPublicKey (hQ : Q.OnCurve) (h : Q.isInfinity = false) :
    xOf (compressPublicKey Q) = Q.x := bytes32ToBigInt_compressPublicKey hQ h

/-- Decompression checks the prefix as well, so that the check in front of it decides nothing. -/
theorem isValidPublicKey_eq (key : PublicKey) :
    isValidPublicKey key = !(decompressPublicKey key).isInfinity := by
  rw [isValidPublicKey]
  split_ifs with hhead
  · rw [decompressPublicKey, if_pos hhead]
    rfl
  · rfl

theorem decompressPublicKey_compressPublicKey (hQ : Q.OnCurve) (h : Q.isInfinity = false) :
    decompressPublicKey (compressPublicKey Q) = Q :=
  (decompressPublicKey_eq_iff.mpr ⟨hQ, h, rfl⟩).1

/-- What a valid key decompresses to. -/
theorem decompressPublicKey_of_valid (h : isValidPublicKey key = true) :
    (decompressPublicKey key).isInfinity = false ∧ (decompressPublicKey key).OnCurve ∧
      compressPublicKey (decompressPublicKey key) = key := by
  rw [isValidPublicKey_eq, Bool.not_eq_true'] at h
  exact (decompressPublicKey_spec key).resolve_left fun hinf => by simp [h] at hinf

/-- The prefix of a compressed key is the parity of the point. -/
theorem compressPublicKey_even_iff (h : Q.isInfinity = false) :
    (compressPublicKey Q)[0] = COMPRESSED_EVEN_PREFIX ↔ Q.y % 2 = 0 := by
  rw [compressPublicKey_parity h]
  split_ifs with heven
  · exact iff_of_true rfl heven
  · exact iff_of_false (by decide) heven

theorem compressPublicKey_prefix (h : Q.isInfinity = false) :
    (compressPublicKey Q)[0] = COMPRESSED_EVEN_PREFIX ∨
      (compressPublicKey Q)[0] = COMPRESSED_ODD_PREFIX := by
  rw [compressPublicKey_parity h]
  split_ifs with heven
  · exact .inl rfl
  · exact .inr rfl

/-- A prefix and a reduced coordinate with a root of `x³ + 7` make up the key of a point: one of
the two roots has the parity of the prefix, as neither is zero. -/
theorem exists_compressPublicKey_eq
    (hhead : key[0] = COMPRESSED_EVEN_PREFIX ∨ key[0] = COMPRESSED_ODD_PREFIX)
    (hx : xOf key < P) {y : ℤ} (hy : y ^ 2 ≡ xOf key ^ 3 + 7 [ZMOD P]) :
    ∃ Q : ECPoint, Q.OnCurve ∧ Q.isInfinity = false ∧ compressPublicKey Q = key := by
  have hcast : (y : Fp) ^ 2 = (xOf key : Fp) ^ 3 + 7 := by
    have h := (ZMod.intCast_eq_intCast_iff _ _ fieldPrime).mpr hy
    simpa using h
  obtain ⟨hnonneg, hlt⟩ : 0 ≤ y % P ∧ y % P < P := ECPoint.emod_P_reduced y
  have hpos : 0 < y % P := by
    have hne := (cast_eq_zero_iff ⟨hnonneg, hlt⟩).not.mp (by
      rw [ECPoint.cast_emod_P]
      exact y_ne_zero (nonsingular_iff.mpr hcast))
    omega
  obtain ⟨root, -, hrootPos, hroot, hparity⟩ :=
    parity_spec ⟨hpos, hlt⟩ (decide (key[0] = COMPRESSED_EVEN_PREFIX))
  have heven : root % 2 = 0 ↔ key[0] = COMPRESSED_EVEN_PREFIX := by
    rw [← decide_eq_decide, hparity]
  refine ⟨⟨xOf key, root, P, A, B, false⟩, ?_, rfl, compressPublicKey_eq rfl ?_ ?_⟩
  · refine ⟨⟨rfl, rfl, rfl⟩, fun h => absurd h Bool.false_ne_true,
      ⟨bytes32ToBigInt_nonneg _, hx⟩, ⟨hrootPos.1.le, hrootPos.2⟩, fun _ => ?_⟩
    rw [P_eq, ← ZMod.intCast_eq_intCast_iff']
    push_cast [B]
    rw [hroot, ECPoint.cast_emod_P, hcast]
  · dsimp only
    split_ifs with hdigit
    · exact heven.mp hdigit
    · exact hhead.resolve_left fun h => hdigit (heven.mpr h)
  · exact (bigIntToBytes32_bytes32ToBigInt (by simp)).symm

/-- The valid keys, by their prefix and their coordinate. -/
theorem isValidPublicKey_iff (key : PublicKey) : isValidPublicKey key = true ↔
    (key[0] = COMPRESSED_EVEN_PREFIX ∨ key[0] = COMPRESSED_ODD_PREFIX) ∧ xOf key < P ∧
      ∃ y : ℤ, y ^ 2 ≡ xOf key ^ 3 + 7 [ZMOD P] := by
  constructor
  · intro hvalid
    obtain ⟨hfinite, hcurve, hkey⟩ := decompressPublicKey_of_valid hvalid
    have hx := xOf_compressPublicKey hcurve hfinite
    have hhead := compressPublicKey_prefix hfinite
    have heq := hcurve.equation hfinite
    rw [hkey] at hx hhead
    refine ⟨hhead, hx ▸ hcurve.x_reduced.2, (decompressPublicKey key).y, ?_⟩
    rw [hx]
    exact heq
  · rintro ⟨hhead, hx, y, hy⟩
    obtain ⟨Q, hQ, hfinite, rfl⟩ := exists_compressPublicKey_eq hhead hx hy
    rw [isValidPublicKey_eq, decompressPublicKey_compressPublicKey hQ hfinite, hfinite]
    rfl

/-- Compression is a correspondence between the finite points of the curve and the strings with one
of the two prefixes, a reduced `x` and a square `x³ + 7`, and decompression is its inverse. -/
theorem compression_correspondence :
    (∀ Q : ECPoint, Q.OnCurve → Q.isInfinity = false →
      decompressPublicKey (compressPublicKey Q) = Q) ∧
    ∀ key : PublicKey,
      (isValidPublicKey key = true ↔
        (key[0] = COMPRESSED_EVEN_PREFIX ∨ key[0] = COMPRESSED_ODD_PREFIX) ∧ xOf key < P ∧
          ∃ y : ℤ, y ^ 2 ≡ xOf key ^ 3 + 7 [ZMOD P]) ∧
      (isValidPublicKey key = true → ∃ Q : ECPoint, decompressPublicKey key = Q ∧
        Q.isInfinity = false ∧ Q.OnCurve ∧ Q.x = xOf key ∧
          (Q.y % 2 = 0 ↔ key[0] = COMPRESSED_EVEN_PREFIX) ∧ compressPublicKey Q = key) := by
  refine ⟨fun Q hQ hfinite => decompressPublicKey_compressPublicKey hQ hfinite,
    fun key => ⟨isValidPublicKey_iff key, fun hvalid => ?_⟩⟩
  obtain ⟨hfinite, hcurve, hkey⟩ := decompressPublicKey_of_valid hvalid
  have hx := xOf_compressPublicKey hcurve hfinite
  have heven := compressPublicKey_even_iff hfinite
  rw [hkey] at hx heven
  exact ⟨_, rfl, hfinite, hcurve, hx.symm, heven.symm, hkey⟩

/-- The base point and its key. -/
theorem compression_correspondence_G : decompressPublicKey (compressPublicKey G) = G ∧
    isValidPublicKey (compressPublicKey G) = true := by
  have hG := compression_correspondence.1 G onCurve_G rfl
  refine ⟨hG, ?_⟩
  rw [isValidPublicKey_eq, hG]
  rfl

end ECCrypto

end BlockchainCrypto
