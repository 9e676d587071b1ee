import BlockchainCrypto.Crypto.PublicKeys

/-!
# Schnorr signatures

`signHash` and `verifySignature` with the hash function and the nonce as parameters. A signature
verifies exactly when its key is that of a point `Q`, both its numbers are in range, and
`s • G - e • Q` is a finite point with the claimed `x`-coordinate; signatures of a key verify under
the key, whatever the nonce.

## Main definitions

* `ECCrypto.signHash`, `ECCrypto.verifySignatureWith`.
* `ECCrypto.SchnorrEquation`: the equation of a signature, in the group of the curve.

## Main results

* `ECCrypto.order_smul_G`, `ECCrypto.smul_G_ne_zero`: the order of the base point.
* `ECCrypto.verifySignatureWith_iff`, `ECCrypto.schnorrEquation_signHash`.
* `ECCrypto.schnorr_signatures`: completeness, and what verification means.
-/

namespace BlockchainCrypto

open ByteText WeierstrassCurve.Affine

namespace ECCrypto

open secp256k1

section Definitions

variable (sha : Bytes → Hash)

/-- The challenge `sha(R.x || P.x || hash)` as a scalar. -/
def challengeWith (rx px : ℤ) (hash : Hash) : ℤ :=
  bytes32ToBigInt (sha (bigIntToBytes32 rx ++ bigIntToBytes32 px ++ hash.toList)).toList % N

/-- `signHash` for a given public key, with the nonce `k` that `randomScalar` returned. -/
def signHashFor (hash : Hash) (privateKey : ℤ) (publicKey : ECPoint) (k : ℤ) : Signature :=
  let result : Signature := Vector.replicate SIGNATURE_SIZE 0
  if privateKey ≤ 0 ∨ privateKey ≥ N then result
  else if publicKey.isInfinity then result
  else
    let R := G.mul k
    let e := challengeWith sha R.x publicKey.x hash
    let s := (k + e * privateKey) % N
    let s := if s < 0 then s + N else s
    ⟨(bigIntToBytes32 R.x ++ bigIntToBytes32 s).toArray, by simp [length_bigIntToBytes32]⟩

/-- `signHash` with the nonce `k`. -/
def signHash (hash : Hash) (privateKey k : ℤ) : Signature :=
  if privateKey ≤ 0 ∨ privateKey ≥ N then Vector.replicate SIGNATURE_SIZE 0
  else signHashFor sha hash privateKey (G.mul privateKey) k

/-- `verifySignature` with a given hash function. -/
def verifySignatureWith (hash : Hash) (signature : Signature) (publicKey : PublicKey) : Bool :=
  let rx := bytes32ToBigInt signature.toList
  let s := bytes32ToBigInt (signature.toList.drop 32)
  if s ≤ 0 ∨ s ≥ N then false
  else if rx ≤ 0 ∨ rx ≥ P then false
  else
    let Q := decompressPublicKey publicKey
    if Q.isInfinity then false
    else
      let e := challengeWith sha rx Q.x hash
      let sG := G.mul s
      let eP := Q.mul e
      let negEP := if !eP.isInfinity then ⟨eP.x, P - eP.y, P, A, B, false⟩ else eP
      let computedR := sG.add negEP
      if computedR.isInfinity then false else computedR.x = rx

/-- The key is that of a point `Q`, and `s • G - e • Q` is a point with `x`-coordinate `R.x`. -/
def SchnorrEquation (hash : Hash) (signature : Signature) (publicKey : PublicKey) : Prop :=
  let rx := bytes32ToBigInt signature.toList
  let s := bytes32ToBigInt (signature.toList.drop 32)
  ∃ Q : ECPoint, decompressPublicKey publicKey = Q ∧ Q.isInfinity = false ∧ Q.OnCurve ∧
    (0 < rx ∧ rx < P) ∧ (0 < s ∧ s < N) ∧
    ∃ (y : Fp) (h : curve.toAffine.Nonsingular (rx : Fp) y),
      s • G.toPoint - challengeWith sha rx Q.x hash • Q.toPoint = .some _ _ h

end Definitions

/-- Validation uses SHA-256. -/
theorem verifySignatureWith_sha256Hash : verifySignatureWith sha256Hash = verifySignature := rfl

/-! ### The order of the base point -/

/-- The last multiple of the base point before infinity is its mirror image. -/
theorem mul_order_sub_one : G.mul (N - 1) = ⟨GX, P - GY, P, A, B, false⟩ := by
  rw [mul_eq_evalMul]
  decide +kernel

theorem add_mul_order_sub_one : G.add (G.mul (N - 1)) = G.pointAtInfinity := by
  rw [mul_order_sub_one]
  decide

theorem toPoint_G_ne_zero : G.toPoint ≠ 0 := by
  rw [ECPoint.toPoint_eq_some rfl (onCurve_G.nonsingular rfl)]
  exact Point.some_ne_zero _

theorem order_nsmul_G : order • G.toPoint = 0 := by
  obtain ⟨hcurve, hvalue⟩ := ECPoint.mul_spec onCurve_G (order - 1)
  have hpred : ((order - 1 : ℕ) : ℤ) = N - 1 := by decide
  have hsum := (ECPoint.add_spec onCurve_G hcurve).2
  rw [hvalue, hpred, add_mul_order_sub_one, ECPoint.toPoint_pointAtInfinity] at hsum
  have hsucc : order = 1 + (order - 1) := by decide
  rw [hsucc, add_nsmul, one_nsmul]
  exact hsum.symm

theorem order_smul_G : N • G.toPoint = 0 := by
  rw [N_eq, natCast_zsmul]
  exact order_nsmul_G

/-- Scalars below the order do not annihilate the base point, since the order is prime. -/
theorem smul_G_ne_zero {k : ℤ} (hk : 0 < k ∧ k < N) : k • G.toPoint ≠ 0 := by
  intro hzero
  have horder := addOrderOf_eq_prime order_nsmul_G toPoint_G_ne_zero
  have hdvd := addOrderOf_dvd_iff_zsmul_eq_zero.mpr hzero
  rw [horder, ← N_eq] at hdvd
  exact absurd (Int.le_of_dvd hk.1 hdvd) (not_le.mpr hk.2)

namespace ECPoint

variable {Q R : ECPoint}

/-- Multiples by the non-negative scalars of the source. -/
theorem zsmul_spec (hQ : Q.OnCurve) {k : ℤ} (hk : 0 ≤ k) :
    (Q.mul k).OnCurve ∧ (Q.mul k).toPoint = k • Q.toPoint := by
  lift k to ℕ using hk
  rw [natCast_zsmul]
  exact mul_spec hQ k

theorem isInfinity_iff (hQ : Q.OnCurve) : Q.isInfinity = true ↔ Q.toPoint = 0 := by
  refine ⟨toPoint_of_infinity, fun h => ?_⟩
  by_contra hne
  rw [Bool.not_eq_true] at hne
  rw [toPoint_eq_some hne (hQ.nonsingular hne)] at h
  exact Point.some_ne_zero _ h

/-- The mirror image that `verifySignature` builds. -/
theorem neg_spec (hQ : Q.OnCurve) :
    OnCurve (if !Q.isInfinity then ⟨Q.x, P - Q.y, P, A, B, false⟩ else Q) ∧
      toPoint (if !Q.isInfinity then ⟨Q.x, P - Q.y, P, A, B, false⟩ else Q) = -Q.toPoint := by
  rcases hQf : Q.isInfinity with _ | _
  · have hns := hQ.nonsingular hQf
    have hypos := hQ.y_pos hQf
    have hy := hQ.y_reduced
    have hneg : curve.toAffine.Nonsingular (Q.x : Fp) (curve.toAffine.negY Q.x Q.y) :=
      (nonsingular_neg _ _).mpr hns
    have hspec := finite_spec hneg rfl (by rw [cast_P_sub, curve_negY] : ((P - Q.y : ℤ) : Fp) = _)
    rw [Int.emod_eq_of_lt hQ.x_reduced.1 hQ.x_reduced.2,
      Int.emod_eq_of_lt (by omega) (by omega)] at hspec
    rw [toPoint_eq_some hQf hns, Point.neg_some]
    exact hspec
  · rw [toPoint_of_infinity hQf, neg_zero]
    exact ⟨hQ, toPoint_of_infinity hQf⟩

/-- The `x`-coordinate of a finite point. -/
theorem x_eq_iff (hR : R.OnCurve) {rx : ℤ} (hrx : 0 ≤ rx ∧ rx < P) :
    R.isInfinity = false ∧ R.x = rx ↔
      ∃ (y : Fp) (h : curve.toAffine.Nonsingular (rx : Fp) y), R.toPoint = .some _ _ h := by
  constructor
  · rintro ⟨hRf, rfl⟩
    exact ⟨R.y, hR.nonsingular hRf, toPoint_eq_some hRf _⟩
  · rintro ⟨y, h, hpoint⟩
    have hRf : R.isInfinity = false := by
      by_contra hne
      rw [Bool.not_eq_false] at hne
      rw [toPoint_of_infinity hne] at hpoint
      exact Point.some_ne_zero h hpoint.symm
    rw [toPoint_eq_some hRf (hR.nonsingular hRf), Point.some.injEq] at hpoint
    exact ⟨hRf, eq_of_cast_eq hR.x_reduced hrx hpoint.1⟩

end ECPoint

/-! ### Verification -/

variable {sha : Bytes → Hash} {hash : Hash}

theorem emod_N_reduced (z : ℤ) : 0 ≤ z % N ∧ z % N < N :=
  ⟨Int.emod_nonneg z (by decide), Int.emod_lt_of_pos z (by decide)⟩

theorem challengeWith_nonneg (sha : Bytes → Hash) (hash : Hash) (rx px : ℤ) :
    0 ≤ challengeWith sha rx px hash := (emod_N_reduced _).1

/-- The point that `verifySignature` computes. -/
theorem computedR_spec {Q : ECPoint} (hQ : Q.OnCurve) {s e : ℤ} (hs : 0 ≤ s) (he : 0 ≤ e) :
    ∃ R, (G.mul s).add (if !(Q.mul e).isInfinity then
        ⟨(Q.mul e).x, P - (Q.mul e).y, P, A, B, false⟩ else Q.mul e) = R ∧
      R.OnCurve ∧ R.toPoint = s • G.toPoint - e • Q.toPoint := by
  obtain ⟨hsG, hsGvalue⟩ := ECPoint.zsmul_spec onCurve_G hs
  obtain ⟨heP, hePvalue⟩ := ECPoint.zsmul_spec hQ he
  obtain ⟨hneg, hnegvalue⟩ := ECPoint.neg_spec heP
  obtain ⟨hsum, hsumvalue⟩ := ECPoint.add_spec hsG hneg
  refine ⟨_, rfl, hsum, ?_⟩
  rw [hsumvalue, hnegvalue, hsGvalue, hePvalue, sub_eq_add_neg]

/-- Verification means the Schnorr equation. -/
theorem verifySignatureWith_iff {signature : Signature} {publicKey : PublicKey} :
    verifySignatureWith sha hash signature publicKey = true ↔
      SchnorrEquation sha hash signature publicKey := by
  unfold verifySignatureWith SchnorrEquation
  generalize bytes32ToBigInt signature.toList = rx
  generalize bytes32ToBigInt (signature.toList.drop 32) = s
  dsimp only
  by_cases hs : 0 < s ∧ s < N
  swap
  · rw [if_pos (by omega)]
    simp [hs]
  by_cases hrx : 0 < rx ∧ rx < P
  swap
  · rw [if_neg (by omega), if_pos (by omega)]
    simp [hrx]
  rw [if_neg (by omega), if_neg (by omega)]
  have hdecode := decompressPublicKey_spec publicKey
  generalize decompressPublicKey publicKey = Q at hdecode
  obtain ⟨hinf, -⟩ | ⟨hQf, hQ, -⟩ := hdecode
  · simp [hinf]
  · obtain ⟨R, hReq, hR, hvalue⟩ := computedR_spec hQ hs.1.le
      (challengeWith_nonneg sha hash rx Q.x)
    have hiff := ECPoint.x_eq_iff hR ⟨hrx.1.le, hrx.2⟩
    have hcheck : (if R.isInfinity then false else decide (R.x = rx)) = true ↔
        R.isInfinity = false ∧ R.x = rx := by
      cases R.isInfinity <;> simp
    rw [hReq, hQf, if_neg Bool.false_ne_true, hcheck, hiff]
    constructor
    · rintro ⟨y, h, hpoint⟩
      exact ⟨Q, rfl, hQf, hQ, hrx, hs, y, h, hvalue.symm.trans hpoint⟩
    · rintro ⟨_, rfl, -, -, -, -, y, h, hpoint⟩
      exact ⟨y, h, hvalue.trans hpoint⟩

/-! ### Signing -/

/-- The response cancels the challenge in every group. -/
theorem response_smul_sub {M : Type*} [AddCommGroup M] {g : M} {n : ℤ} (hn : n • g = 0)
    (k e d : ℤ) : ((k + e * d) % n) • g - e • d • g = k • g := by
  have hmod : ((k + e * d) % n) • g = (k + e * d) • g := by
    conv_rhs => rw [← Int.emod_add_mul_ediv (k + e * d) n]
    rw [add_smul, mul_comm n, mul_smul, hn, smul_zero, add_zero]
  rw [hmod, add_smul, mul_smul, add_sub_cancel_right]

/-- Multiples of the base point by scalars below the order are finite points of the curve. -/
theorem mul_G_spec {k : ℤ} (hk : 0 < k ∧ k < N) :
    (G.mul k).OnCurve ∧ (G.mul k).toPoint = k • G.toPoint ∧ (G.mul k).isInfinity = false := by
  obtain ⟨hcurve, hvalue⟩ := ECPoint.zsmul_spec onCurve_G hk.1.le
  refine ⟨hcurve, hvalue, ?_⟩
  rw [← Bool.not_eq_true, ECPoint.isInfinity_iff hcurve, hvalue]
  exact smul_G_ne_zero hk

/-- The two numbers of a signature. -/
theorem signHash_spec (sha : Bytes → Hash) (hash : Hash) {d k : ℤ} (hd : 0 < d ∧ d < N)
    (hk : 0 < k ∧ k < N) :
    bytes32ToBigInt (signHash sha hash d k).toList = (G.mul k).x ∧
      bytes32ToBigInt ((signHash sha hash d k).toList.drop 32) =
        (k + challengeWith sha (G.mul k).x (G.mul d).x hash * d) % N := by
  obtain ⟨hs0, hsN⟩ :=
    emod_N_reduced (k + challengeWith sha (G.mul k).x (G.mul d).x hash * d)
  have hx := (mul_G_spec hk).1.x_reduced
  have hlen (z : ℤ) := length_bigIntToBytes32 z
  have hlist : (signHash sha hash d k).toList = bigIntToBytes32 (G.mul k).x ++
      bigIntToBytes32 ((k + challengeWith sha (G.mul k).x (G.mul d).x hash * d) % N) := by
    have hrange : ¬ (d ≤ 0 ∨ d ≥ N) := by omega
    rw [signHash, if_neg hrange, signHashFor, if_neg hrange, (mul_G_spec hd).2.2,
      if_neg Bool.false_ne_true]
    simp only [not_lt.mpr hs0, ↓reduceIte, Vector.toList_mk]
  rw [hlist]
  constructor
  · rw [bytes32ToBigInt_append (hlen _)]
    exact bytes32ToBigInt_bigIntToBytes32 hx.1 (hx.2.trans (by decide))
  · rw [List.drop_left' (hlen _)]
    exact bytes32ToBigInt_bigIntToBytes32 hs0 (hsN.trans (by decide))

/-- A signature satisfies the equation under its key. -/
theorem schnorrEquation_signHash {d k : ℤ} (hd : 0 < d ∧ d < N) (hk : 0 < k ∧ k < N)
    (hs : (k + challengeWith sha (G.mul k).x (G.mul d).x hash * d) % N ≠ 0) :
    SchnorrEquation sha hash (signHash sha hash d k) (compressPublicKey (G.mul d)) := by
  obtain ⟨hrx, hresponse⟩ := signHash_spec sha hash hd hk
  obtain ⟨hQ, hQvalue, hQf⟩ := mul_G_spec hd
  obtain ⟨hR, hRvalue, hRf⟩ := mul_G_spec hk
  have hdecode := (decompressPublicKey_eq_iff.mpr ⟨hQ, hQf, rfl⟩).1
  obtain ⟨hs0, hsN⟩ :=
    emod_N_reduced (k + challengeWith sha (G.mul k).x (G.mul d).x hash * d)
  rw [SchnorrEquation]
  rw [hrx, hresponse]
  refine ⟨G.mul d, hdecode, hQf, hQ, ⟨hR.x_pos hRf, hR.x_reduced.2⟩, ⟨by omega, hsN⟩,
    (G.mul k).y, hR.nonsingular hRf, ?_⟩
  rw [hQvalue, response_smul_sub order_smul_G, ← hRvalue]
  exact ECPoint.toPoint_eq_some hRf _

/-- Signatures are complete, and verification means the Schnorr equation, for every hash
function. -/
theorem schnorr_signatures (sha : Bytes → Hash) :
    (∀ (d k : ℤ) (hash : Hash), 0 < d ∧ d < N → 0 < k ∧ k < N →
      (k + challengeWith sha (G.mul k).x (G.mul d).x hash * d) % N ≠ 0 →
        verifySignatureWith sha hash (signHash sha hash d k) (compressPublicKey (G.mul d)) =
          true) ∧
    ∀ (hash : Hash) (signature : Signature) (publicKey : PublicKey),
      verifySignatureWith sha hash signature publicKey = true ↔
        SchnorrEquation sha hash signature publicKey :=
  ⟨fun _ _ _ hd hk hs => verifySignatureWith_iff.mpr (schnorrEquation_signHash hd hk hs),
    fun _ _ _ => verifySignatureWith_iff⟩

theorem response_three_ne_zero :
    (5 + challengeWith sha256Hash (G.mul 5).x (G.mul 3).x (sha256Hash []) * 3) % N ≠ 0 := by
  rw [mul_eq_evalMul]
  decide +kernel

/-- The key `3` with the nonce `5`. -/
theorem schnorr_signatures_three :
    verifySignatureWith sha256Hash (sha256Hash []) (signHash sha256Hash (sha256Hash []) 3 5)
      (compressPublicKey (G.mul 3)) = true :=
  (schnorr_signatures sha256Hash).1 3 5 (sha256Hash []) (by decide) (by decide)
    response_three_ne_zero

end ECCrypto

end BlockchainCrypto
