import BlockchainCrypto.Crypto.Schnorr

/-!
# Signatures with the same first half

The first half of a signature is the `x`-coordinate of a multiple of the base point, and
verification does not look at the other coordinate. So a second signature with that first half, of
the same text or of another one, is accepted exactly when its response fits the same multiple or the
opposite one. Two such signatures with different challenges give the private key away.

## Main results

* `ECCrypto.verifySignatureWith_smul_iff`: verification in terms of one multiple of the base point.
* `ECCrypto.verifySignatureWith_same_R_iff`: which second signatures are accepted.
* `ECCrypto.private_key_of_same_R`: the private key, from two accepted signatures.
-/

namespace BlockchainCrypto

open ByteText WeierstrassCurve.Affine

namespace ECCrypto

open secp256k1

/-! ### The two halves -/

namespace Signature

/-- The first half of a signature, as `verifySignature` reads it. -/
def claimedX (signature : Signature) : ℤ := bytes32ToBigInt signature.toList

/-- The second number of a signature. -/
def response (signature : Signature) : ℤ := bytes32ToBigInt (signature.toList.drop 32)

end Signature

/-! ### Multiples of the base point -/

theorem smul_G_eq_zero_iff (k : ℤ) : k • G.toPoint = 0 ↔ N ∣ k := by
  rw [← addOrderOf_dvd_iff_zsmul_eq_zero, addOrderOf_eq_prime order_nsmul_G toPoint_G_ne_zero, N_eq]

theorem smul_G_eq_iff (a b : ℤ) : a • G.toPoint = b • G.toPoint ↔ N ∣ a - b := by
  rw [← smul_G_eq_zero_iff, sub_smul, sub_eq_zero]

theorem smul_G_eq_neg_iff (a b : ℤ) : a • G.toPoint = -(b • G.toPoint) ↔ N ∣ a + b := by
  rw [← smul_G_eq_zero_iff, add_zsmul, add_eq_zero_iff_eq_neg]

/-- Numbers below the order that are congruent are equal. -/
theorem dvd_sub_iff_eq {a b : ℤ} (ha : 0 ≤ a ∧ a < N) (hb : 0 ≤ b ∧ b < N) :
    N ∣ a - b ↔ a = b := by
  rw [Int.dvd_iff_emod_eq_zero, ← Int.emod_eq_emod_iff_emod_sub_eq_zero,
    Int.emod_eq_of_lt ha.1 ha.2, Int.emod_eq_of_lt hb.1 hb.2]

theorem prime_N : Prime N := by
  rw [N_eq]
  exact Nat.prime_iff_prime_int.mp order_prime

theorem not_dvd_of_lt {d : ℤ} (hd : 0 < d ∧ d < N) : ¬ N ∣ d := fun hdvd =>
  absurd (Int.le_of_dvd hd.1 hdvd) (not_le.mpr hd.2)

/-- The points with the `x`-coordinate of a given one are that one and its mirror image. -/
theorem exists_some_iff {x y : Fp} (h : curve.toAffine.Nonsingular x y)
    (T : curve.toAffine.Point) :
    (∃ (y' : Fp) (h' : curve.toAffine.Nonsingular x y'), T = .some _ _ h') ↔
      T = .some _ _ h ∨ T = -.some _ _ h := by
  constructor
  · rintro ⟨y', h', rfl⟩
    rcases Y_eq_of_X_eq h'.1 h.1 rfl with rfl | hneg
    · exact .inl rfl
    · refine .inr ?_
      subst hneg
      rw [Point.neg_some]
  · rintro (rfl | rfl)
    · exact ⟨y, h, rfl⟩
    · exact ⟨_, (nonsingular_neg _ _).mpr h, Point.neg_some h⟩

/-! ### Accepted signatures -/

section Accepted

variable {sha : Bytes → Hash} {hash hash' : Hash} {signature signature' : Signature} {d : ℤ}

/-- The scalar whose multiple of the base point the response commits to, under the private key. -/
def committed (sha : Bytes → Hash) (hash : Hash) (signature : Signature) (d : ℤ) : ℤ :=
  signature.response - challengeWith sha signature.claimedX (G.mul d).x hash * d

/-- Verification under the key of `d`. -/
theorem verifySignatureWith_smul_iff (hd : 0 < d ∧ d < N) :
    verifySignatureWith sha hash signature (compressPublicKey (G.mul d)) = true ↔
      (0 < signature.claimedX ∧ signature.claimedX < P) ∧
      (0 < signature.response ∧ signature.response < N) ∧
      ∃ (y : Fp) (h : curve.toAffine.Nonsingular (signature.claimedX : Fp) y),
        committed sha hash signature d • G.toPoint = .some _ _ h := by
  obtain ⟨hQ, hQvalue, hQf⟩ := mul_G_spec hd
  have hdecode := (decompressPublicKey_eq_iff.mpr ⟨hQ, hQf, rfl⟩).1
  have hcommitted : committed sha hash signature d • G.toPoint = signature.response • G.toPoint -
      challengeWith sha signature.claimedX (G.mul d).x hash • (G.mul d).toPoint := by
    rw [committed, sub_smul, mul_smul, hQvalue]
  rw [verifySignatureWith_iff, SchnorrEquation, hcommitted]
  constructor
  · rintro ⟨Q, hQ', -, -, hx, hs, hpoint⟩
    obtain rfl := hdecode.symm.trans hQ'
    exact ⟨hx, hs, hpoint⟩
  · rintro ⟨hx, hs, hpoint⟩
    exact ⟨_, hdecode, hQf, hQ, hx, hs, hpoint⟩

/-- Next to an accepted signature, another one with the same first half is accepted exactly when its
response commits to the same multiple of the base point or the opposite one. -/
theorem verifySignatureWith_iff_of_claimedX (hd : 0 < d ∧ d < N)
    (h : verifySignatureWith sha hash signature (compressPublicKey (G.mul d)) = true)
    (hR : signature'.claimedX = signature.claimedX) :
    verifySignatureWith sha hash' signature' (compressPublicKey (G.mul d)) = true ↔
      (0 < signature'.response ∧ signature'.response < N) ∧
      (N ∣ committed sha hash' signature' d - committed sha hash signature d ∨
        N ∣ committed sha hash' signature' d + committed sha hash signature d) := by
  obtain ⟨hx, -, y, hns, hpoint⟩ := (verifySignatureWith_smul_iff hd).mp h
  rw [verifySignatureWith_smul_iff hd, hR, and_iff_right hx, exists_some_iff hns, ← hpoint,
    smul_G_eq_iff, smul_G_eq_neg_iff]

/-- For a given text and first half there are at most two accepted responses, and an accepted
signature is accepted for another text exactly when the challenges agree or add up to what the
private key makes of the response. -/
theorem same_R_signatures (hd : 0 < d ∧ d < N)
    (h : verifySignatureWith sha hash signature (compressPublicKey (G.mul d)) = true) :
    (∀ signature' : Signature, signature'.claimedX = signature.claimedX →
      (verifySignatureWith sha hash signature' (compressPublicKey (G.mul d)) = true ↔
        (0 < signature'.response ∧ signature'.response < N) ∧
        (signature'.response = signature.response ∨
          N ∣ signature'.response + signature.response -
            2 * (challengeWith sha signature.claimedX (G.mul d).x hash * d)))) ∧
    ∀ hash' : Hash,
      verifySignatureWith sha hash' signature (compressPublicKey (G.mul d)) = true ↔
        challengeWith sha signature.claimedX (G.mul d).x hash' =
            challengeWith sha signature.claimedX (G.mul d).x hash ∨
          N ∣ 2 * signature.response - (challengeWith sha signature.claimedX (G.mul d).x hash +
            challengeWith sha signature.claimedX (G.mul d).x hash') * d := by
  obtain ⟨-, hs, -⟩ := (verifySignatureWith_smul_iff hd).mp h
  constructor
  · intro signature' hR
    rw [verifySignatureWith_iff_of_claimedX hd h hR]
    refine and_congr_right fun hs' => or_congr ?_ ?_
    · rw [committed, committed, hR, sub_sub_sub_cancel_right]
      exact dvd_sub_iff_eq ⟨hs'.1.le, hs'.2⟩ ⟨hs.1.le, hs.2⟩
    · rw [committed, committed, hR]
      refine iff_of_eq (congrArg (N ∣ ·) ?_)
      ring
  · intro hash'
    rw [verifySignatureWith_iff_of_claimedX hd h rfl, and_iff_right hs]
    have hreduced (z : Hash) : 0 ≤ challengeWith sha signature.claimedX (G.mul d).x z ∧
        challengeWith sha signature.claimedX (G.mul d).x z < N := emod_N_reduced _
    refine or_congr ?_ (iff_of_eq (congrArg (N ∣ ·) ?_))
    · rw [committed, committed, sub_sub_sub_cancel_left, ← sub_mul, prime_N.dvd_mul,
        or_iff_left (not_dvd_of_lt hd), dvd_sub_iff_eq (hreduced hash) (hreduced hash')]
      exact eq_comm
    · rw [committed, committed]
      ring

/-- A number times the inverse of its factor gives the other factor. -/
theorem eq_mul_inverse {d x y : ℤ} (hd : 0 < d ∧ d < N) (hx : ¬ N ∣ x) (h : N ∣ y - x * d) :
    d = y * inverse x N % N := by
  have hgcd : Int.gcd N x = 1 := Int.isCoprime_iff_gcd_eq_one.mp
    ((prime_N.coprime_iff_not_dvd).mpr hx)
  obtain ⟨u, hu⟩ := dvd_inverse_mul_sub_one (by decide) hgcd
  obtain ⟨v, hv⟩ := h
  rw [← Int.emod_eq_of_lt hd.1.le hd.2]
  refine (Int.emod_eq_emod_iff_emod_sub_eq_zero.mpr (Int.emod_eq_zero_of_dvd
    ⟨-(v * inverse x N + u * d), ?_⟩))
  linear_combination -inverse x N * hv - d * hu

/-- Two accepted signatures with the same first half, of whichever texts, give away the private key
when their challenges are neither equal nor opposite. Two signatures that were made with one nonce
give it away when their challenges differ. -/
theorem private_key_of_same_R (hd : 0 < d ∧ d < N) :
    (∀ hash hash' (signature signature' : Signature) e e',
      verifySignatureWith sha hash signature (compressPublicKey (G.mul d)) = true →
      verifySignatureWith sha hash' signature' (compressPublicKey (G.mul d)) = true →
      signature'.claimedX = signature.claimedX →
      e = challengeWith sha signature.claimedX (G.mul d).x hash →
      e' = challengeWith sha signature.claimedX (G.mul d).x hash' →
      ¬ N ∣ e - e' → ¬ N ∣ e + e' →
        d = (signature.response - signature'.response) * inverse (e - e') N % N ∨
        d = (signature.response + signature'.response) * inverse (e + e') N % N) ∧
    ∀ hash hash' k e e', 0 < k ∧ k < N →
      e = challengeWith sha (G.mul k).x (G.mul d).x hash →
      e' = challengeWith sha (G.mul k).x (G.mul d).x hash' → e ≠ e' →
        d = ((signHash sha hash d k).response - (signHash sha hash' d k).response) *
          inverse (e - e') N % N := by
  constructor
  · rintro hash hash' signature signature' e e' h h' hR rfl rfl hdiff hsum
    rcases ((verifySignatureWith_iff_of_claimedX hd h hR).mp h').2 with hsame | hopposite
    · refine .inl (eq_mul_inverse hd hdiff ?_)
      rw [committed, committed, hR, dvd_sub_comm] at hsame
      refine hsame.trans (dvd_of_eq ?_)
      ring
    · refine .inr (eq_mul_inverse hd hsum ?_)
      rw [committed, committed, hR] at hopposite
      refine hopposite.trans (dvd_of_eq ?_)
      ring
  · rintro hash hash' k e e' hk rfl rfl hne
    refine eq_mul_inverse hd (fun hdvd => hne ?_) ?_
    · exact (dvd_sub_iff_eq (emod_N_reduced _) (emod_N_reduced _)).mp hdvd
    · rw [Signature.response, Signature.response, (signHash_spec sha hash hd hk).2,
        (signHash_spec sha hash' hd hk).2]
      have hdiff (a b : ℤ) : N ∣ a % N - b % N - (a - b) :=
        Int.dvd_iff_emod_eq_zero.mpr (by rw [← Int.emod_eq_emod_iff_emod_sub_eq_zero]; simp)
      rw [sub_mul, ← add_sub_add_left_eq_sub (_ * d) (_ * d) k]
      exact hdiff _ _

/-- The key `3`, with the nonce `5` and the opposite one. -/
theorem same_R_signatures_three :
    let signature := signHash sha256Hash (sha256Hash []) 3 5
    let signature' := signHash sha256Hash (sha256Hash []) 3 (N - 5)
    verifySignatureWith sha256Hash (sha256Hash []) signature' (compressPublicKey (G.mul 3)) = true ↔
      (0 < signature'.response ∧ signature'.response < N) ∧
      (signature'.response = signature.response ∨
        N ∣ signature'.response + signature.response -
          2 * (challengeWith sha256Hash signature.claimedX (G.mul 3).x (sha256Hash []) * 3)) := by
  intro signature signature'
  have haccepted : verifySignatureWith sha256Hash (sha256Hash []) signature
      (compressPublicKey (G.mul 3)) = true :=
    verifySignatureWith_iff.mpr
      (schnorrEquation_signHash (by decide) (by decide) response_three_ne_zero)
  refine (same_R_signatures (by decide) haccepted).1 signature' ?_
  rw [Signature.claimedX, Signature.claimedX, (signHash_spec _ _ (by decide) (by decide)).1,
    (signHash_spec _ _ (by decide) (by decide)).1, mul_eq_evalMul]
  decide +kernel

/-- The key `3` signs two texts with the nonce `5`. -/
theorem private_key_of_same_R_three :
    let e := challengeWith sha256Hash (G.mul 5).x (G.mul 3).x (sha256Hash [])
    let e' := challengeWith sha256Hash (G.mul 5).x (G.mul 3).x (sha256Hash [0])
    3 = ((signHash sha256Hash (sha256Hash []) 3 5).response -
      (signHash sha256Hash (sha256Hash [0]) 3 5).response) * inverse (e - e') N % N := by
  intro e e'
  refine (private_key_of_same_R (d := 3) (by decide)).2 (sha256Hash []) (sha256Hash [0]) 5 e e'
    (by decide) rfl rfl ?_
  have hne : ¬ (challengeWith sha256Hash (G.mul 5).x (G.mul 3).x (sha256Hash []) =
      challengeWith sha256Hash (G.mul 5).x (G.mul 3).x (sha256Hash [0])) := by
    rw [mul_eq_evalMul]
    decide +kernel
  exact hne

end Accepted

end ECCrypto

end BlockchainCrypto
