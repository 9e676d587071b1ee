import BlockchainCrypto.Crypto.CurveGroup
import BlockchainCrypto.Crypto.Encoding
import Mathlib.NumberTheory.LegendreSymbol.Basic

/-!
# Compressed public keys

A compressed key is the parity of `y` and the 32 bytes of `x`. Decompression takes the square root
of `x³ + 7`, by Euler's criterion and a power, since the field prime is 3 modulo 4. The curve has no
point with `x = 0` or `y = 0`, so that the two roots differ in parity, and decompression is the
partial inverse of compression.

## Main definitions

* `ECCrypto.compressPublicKey`.

## Main results

* `ECCrypto.modPow_spec`, `ECCrypto.modSqrt_spec`: powers and square roots of the field.
* `ECCrypto.decompressPublicKey_eq_iff`: the points that decompression finds.
-/

namespace BlockchainCrypto

open ByteText WeierstrassCurve.Affine

namespace ECCrypto

open secp256k1

/-- The parity of `y`, and `x`; all zeros for the point at infinity. -/
def compressPublicKey (point : ECPoint) : PublicKey :=
  if point.isInfinity then Vector.replicate PUBLIC_KEY_SIZE 0
  else
    let yParity := if point.y % 2 = 0 then COMPRESSED_EVEN_PREFIX else COMPRESSED_ODD_PREFIX
    ⟨(yParity :: bigIntToBytes32 point.x).toArray, by simp [length_bigIntToBytes32]⟩

/-! ### Powers and roots -/

theorem modPowLoop_reduced {digits : Bytes} {result b : ℤ} (h : 0 ≤ result ∧ result < P) :
    0 ≤ modPowLoop P digits result b ∧ modPowLoop P digits result b < P := by
  induction digits generalizing result b with
  | nil => exact h
  | cons digit digits ih =>
    rw [modPowLoop]
    apply ih
    split_ifs with hdigit
    · exact ECPoint.emod_P_reduced _
    · exact h

/-- Square and multiply, over the digits from the last one on. -/
theorem modPowLoop_spec {m : ℕ} (hm : 0 < m) (result b : ℤ) :
    (modPowLoop P (toBinaryString m).reverse result b : Fp) = result * (b : Fp) ^ m := by
  induction m using Nat.strong_induction_on generalizing result b with
  | _ m ih =>
    by_cases hone : m = 1
    · subst hone
      have hdigits : (toBinaryString ((1 : ℕ) : ℤ)).reverse = [49] := by decide
      rw [hdigits, modPowLoop, modPowLoop, if_pos rfl, ECPoint.cast_emod_P, pow_one, Int.cast_mul]
    · have happend := ECPoint.toBinaryString_append (m := m / 2) (by omega)
        (Nat.mod_lt m two_pos)
      obtain ⟨rest, hrest⟩ := ECPoint.toBinaryString_eq_cons (m := m / 2) (by omega)
      have hne : (toBinaryString (m / 2 : ℕ)).reverse ≠ [] := by
        rw [hrest]
        simp
      rw [Nat.div_add_mod] at happend
      rw [happend, List.reverse_append, List.reverse_singleton, List.singleton_append, modPowLoop,
        if_neg hne, ih (m / 2) (by omega) (by omega), ECPoint.cast_emod_P, Int.cast_mul, ← sq,
        ← pow_mul]
      obtain heven | hodd := Nat.mod_two_eq_zero_or_one m
      · rw [heven, if_neg (by decide), show 2 * (m / 2) = m by omega]
      · rw [hodd, if_pos (by decide), ECPoint.cast_emod_P, Int.cast_mul, mul_assoc, ← pow_succ',
          show 2 * (m / 2) + 1 = m by omega]

/-- Powers are those of the field. -/
theorem modPow_spec (n : ℤ) (m : ℕ) :
    (0 ≤ modPow n m P ∧ modPow n m P < P) ∧ (modPow n m P : Fp) = (n : Fp) ^ m := by
  have hone : (0 : ℤ) ≤ 1 ∧ 1 < P := by decide
  obtain rfl | hm := Nat.eq_zero_or_pos m
  · rw [Nat.cast_zero, modPow, if_pos rfl, pow_zero, Int.cast_one]
    exact ⟨hone, rfl⟩
  · rw [modPow, if_neg (by omega), modPowLoop_spec hm, ECPoint.cast_emod_P, Int.cast_one, one_mul]
    exact ⟨modPowLoop_reduced hone, rfl⟩

/-- A reduced integer is zero when its residue is. -/
theorem cast_eq_zero_iff {z : ℤ} (hz : 0 ≤ z ∧ z < P) : (z : Fp) = 0 ↔ z = 0 := by
  rw [← Int.cast_zero]
  exact ⟨ECPoint.eq_of_cast_eq hz ⟨le_rfl, ECPoint.P_pos⟩, fun h => h ▸ rfl⟩

/-- Square roots, where there are any. -/
theorem modSqrt_spec {c : ℤ} (hc : 0 ≤ c ∧ c < P) :
    (0 ≤ modSqrt c P ∧ modSqrt c P < P) ∧
      ((modSqrt c P : Fp) ^ 2 = c ∨ modSqrt c P = 0 ∧ ¬ IsSquare (c : Fp)) := by
  have hzero : (0 : ℤ) ≤ 0 ∧ 0 < P := ⟨le_rfl, ECPoint.P_pos⟩
  have hhalf : (P - 1) / 2 = ((fieldPrime / 2 : ℕ) : ℤ) := by decide
  have hquarter : (P + 1) / 4 = (((fieldPrime + 1) / 4 : ℕ) : ℤ) := by decide
  obtain ⟨hcheckReduced, hcheck⟩ := modPow_spec c (fieldPrime / 2)
  obtain ⟨hrootReduced, hroot⟩ := modPow_spec c ((fieldPrime + 1) / 4)
  rw [modSqrt, hhalf, hquarter]
  split_ifs with hc0 hne
  · refine ⟨hzero, .inl ?_⟩
    simp [hc0]
  · refine ⟨hzero, .inr ⟨rfl, fun hsquare => hne ?_⟩⟩
    have hpow := (ZMod.euler_criterion fieldPrime ((cast_eq_zero_iff hc).not.mpr hc0)).mp hsquare
    refine ECPoint.eq_of_cast_eq hcheckReduced (by decide) ?_
    rw [hcheck, hpow, Int.cast_one]
  · rw [not_not] at hne
    rw [hne, Int.cast_one] at hcheck
    refine ⟨hrootReduced, .inl ?_⟩
    have hexp : (fieldPrime + 1) / 4 * 2 = fieldPrime / 2 + 1 := by decide
    rw [hroot, ← pow_mul, hexp, pow_succ, ← hcheck, one_mul]

/-! ### No point on the axes -/

theorem pow_ne_one_of_powMod {a e : ℕ} (he : e < 2 ^ 256)
    (h : Pocklington.powMod fieldPrime 256 a e ≠ 1) : (a : Fp) ^ e ≠ 1 := by
  intro hpow
  have hmod := (ZMod.natCast_eq_natCast_iff' (a ^ e) 1 fieldPrime).mp (by
    rw [Nat.cast_pow, hpow, Nat.cast_one])
  rw [Nat.mod_eq_of_lt fieldPrime_prime.one_lt] at hmod
  exact h ((Pocklington.powMod_eq he).trans hmod)

variable {x y : Fp}

/-- Seven is not a square, by Euler's criterion. -/
theorem x_ne_zero (h : curve.toAffine.Nonsingular x y) : x ≠ 0 := by
  rintro rfl
  have hy : y ^ 2 = (7 : ℕ) := by simpa using nonsingular_iff.mp h
  have hy0 : y ≠ 0 := by
    rintro rfl
    exact cast_ne_zero (m := 7) (by decide) (by simpa using hy.symm)
  refine pow_ne_one_of_powMod (a := 7) (e := fieldPrime / 2) (by decide) (by decide +kernel) ?_
  rw [← hy, ← pow_mul, show 2 * (fieldPrime / 2) = fieldPrime - 1 by decide]
  exact ZMod.pow_card_sub_one_eq_one hy0

/-- Minus seven is not a cube: there is no point of order two. -/
theorem y_ne_zero (h : curve.toAffine.Nonsingular x y) : y ≠ 0 := by
  rintro rfl
  have hx : x ^ 3 = -7 := by
    have h := nonsingular_iff.mp h
    linear_combination -h
  have hx6 : x ^ 6 = (49 : ℕ) := by
    push_cast
    linear_combination (x ^ 3 - 7) * hx
  have hx0 : x ≠ 0 := by
    rintro rfl
    exact cast_ne_zero (m := 49) (by decide) (by simpa using hx6.symm)
  refine pow_ne_one_of_powMod (a := 49) (e := (fieldPrime - 1) / 6) (by decide)
    (by decide +kernel) ?_
  rw [← hx6, ← pow_mul, show 6 * ((fieldPrime - 1) / 6) = fieldPrime - 1 by decide]
  exact ZMod.pow_card_sub_one_eq_one hx0

namespace ECPoint

variable {Q R : ECPoint}

theorem OnCurve.x_pos (hQ : Q.OnCurve) (h : Q.isInfinity = false) : 0 < Q.x := by
  have hne := (cast_eq_zero_iff hQ.x_reduced).not.mp (x_ne_zero (hQ.nonsingular h))
  have hreduced := hQ.x_reduced
  omega

theorem OnCurve.y_pos (hQ : Q.OnCurve) (h : Q.isInfinity = false) : 0 < Q.y := by
  have hne := (cast_eq_zero_iff hQ.y_reduced).not.mp (y_ne_zero (hQ.nonsingular h))
  have hreduced := hQ.y_reduced
  omega

/-- The other root. -/
theorem cast_P_sub (z : ℤ) : ((P - z : ℤ) : Fp) = -z := by
  rw [Int.cast_sub, P_eq, Int.cast_natCast, ZMod.natCast_self, zero_sub]

end ECPoint

/-! ### Compression -/

variable {Q R : ECPoint}

theorem compressPublicKey_parity (h : Q.isInfinity = false) : (compressPublicKey Q)[0] =
    if Q.y % 2 = 0 then COMPRESSED_EVEN_PREFIX else COMPRESSED_ODD_PREFIX := by
  simp [compressPublicKey, h]

theorem toList_compressPublicKey (h : Q.isInfinity = false) :
    (compressPublicKey Q).toList.drop 1 = bigIntToBytes32 Q.x := by
  simp [compressPublicKey, h]

/-- A key is its parity and the bytes of `x`. -/
theorem compressPublicKey_eq {key : PublicKey} (h : Q.isInfinity = false)
    (hhead : key[0] = if Q.y % 2 = 0 then COMPRESSED_EVEN_PREFIX else COMPRESSED_ODD_PREFIX)
    (hx : key.toList.drop 1 = bigIntToBytes32 Q.x) : compressPublicKey Q = key := by
  have hlist (k : PublicKey) : k.toList = k[0] :: k.toList.drop 1 := by
    have hlen : 0 < k.toList.length := by simp
    rw [← List.drop_zero (l := k.toList), List.drop_eq_getElem_cons hlen]
    simp
  rw [← Vector.toList_inj, hlist key, hlist (compressPublicKey Q), compressPublicKey_parity h,
    toList_compressPublicKey h, hhead, hx]

theorem bytes32ToBigInt_compressPublicKey (hQ : Q.OnCurve) (h : Q.isInfinity = false) :
    bytes32ToBigInt ((compressPublicKey Q).toList.drop 1) = Q.x := by
  rw [toList_compressPublicKey h]
  exact bytes32ToBigInt_bigIntToBytes32 hQ.x_reduced.1 (hQ.x_reduced.2.trans (by decide))

/-- The compressed key of a point determines the point. -/
theorem compressPublicKey_inj (hQ : Q.OnCurve) (hR : R.OnCurve) (hQf : Q.isInfinity = false)
    (hRf : R.isInfinity = false) (h : compressPublicKey Q = compressPublicKey R) : Q = R := by
  have hx : Q.x = R.x := by
    rw [← bytes32ToBigInt_compressPublicKey hQ hQf, h, bytes32ToBigInt_compressPublicKey hR hRf]
  have hparity : Q.y % 2 = 0 ↔ R.y % 2 = 0 := by
    have hhead := compressPublicKey_parity hQf
    rw [h, compressPublicKey_parity hRf] at hhead
    split_ifs at hhead with heven heven' heven'
    · exact iff_of_true heven' heven
    · exact absurd hhead (by decide)
    · exact absurd hhead (by decide)
    · exact iff_of_false heven' heven
  have hy : Q.y = R.y := by
    have hQeq := nonsingular_iff.mp (hQ.nonsingular hQf)
    have hReq := nonsingular_iff.mp (hR.nonsingular hRf)
    rw [hx, ← hReq, sq_eq_sq_iff_eq_or_eq_neg] at hQeq
    obtain hsame | hneg := hQeq
    · exact ECPoint.eq_of_cast_eq hQ.y_reduced hR.y_reduced hsame
    · rw [← ECPoint.cast_P_sub] at hneg
      have hpos := hR.y_pos hRf
      have hlt := hR.y_reduced.2
      have hother := ECPoint.eq_of_cast_eq hQ.y_reduced (by omega) hneg
      have hodd : P % 2 = 1 := by decide
      omega
  exact hQ.ext hR (hQf.trans hRf.symm) hx hy

/-- The root with the parity that is asked for. -/
theorem parity_spec {y : ℤ} (hy : 0 < y ∧ y < P) (needEven : Bool) :
    ∃ y', (if decide (y % 2 = 0) ≠ needEven then P - y else y) = y' ∧ (0 < y' ∧ y' < P) ∧
      (y' : Fp) ^ 2 = (y : Fp) ^ 2 ∧ decide (y' % 2 = 0) = needEven := by
  have hodd : P % 2 = 1 := by decide
  have hP : P = 2 * (P / 2) + 1 := by omega
  split_ifs with hparity
  · refine ⟨_, rfl, by omega, by rw [ECPoint.cast_P_sub, neg_sq], ?_⟩
    obtain heven | heven := Int.emod_two_eq_zero_or_one y
    · have hother : (P - y) % 2 = 1 := by omega
      rw [heven] at hparity
      rw [hother]
      cases needEven
      · rfl
      · exact absurd rfl hparity
    · have hother : (P - y) % 2 = 0 := by omega
      rw [heven] at hparity
      rw [hother]
      cases needEven
      · exact absurd rfl hparity
      · rfl
  · exact ⟨_, rfl, hy, rfl, not_not.mp hparity⟩

/-- Decompression finds a point with the given key, and fails only when there is none. -/
theorem decompressPublicKey_spec (key : PublicKey) :
    (decompressPublicKey key).isInfinity = true ∧
        (∀ Q : ECPoint, Q.OnCurve → Q.isInfinity = false → compressPublicKey Q ≠ key) ∨
      (decompressPublicKey key).isInfinity = false ∧ (decompressPublicKey key).OnCurve ∧
        compressPublicKey (decompressPublicKey key) = key := by
  rw [decompressPublicKey]
  split_ifs with hhead
  · refine .inl ⟨rfl, fun Q hQ hQf hkey => ?_⟩
    rw [← hkey, compressPublicKey_parity hQf] at hhead
    split_ifs at hhead with heven
    · exact hhead.1 rfl
    · exact hhead.2 rfl
  extract_lets x xCubed ySquared y yIsEven needEven y'
  have hsquareReduced : 0 ≤ ySquared ∧ ySquared < P := ECPoint.emod_P_reduced _
  have hcast : (ySquared : Fp) = (x : Fp) ^ 3 + 7 := by
    rw [ECPoint.cast_emod_P, Int.cast_add, ECPoint.cast_emod_P]
    push_cast [B]
    ring
  obtain ⟨hreduced, hroot⟩ := modSqrt_spec hsquareReduced
  have hx_eq {Q : ECPoint} (hQ : Q.OnCurve) (hQf : Q.isInfinity = false)
      (hkey : compressPublicKey Q = key) : x = Q.x := by
    rw [← bytes32ToBigInt_compressPublicKey hQ hQf, hkey]
  split_ifs with hx hy
  · refine .inl ⟨rfl, fun Q hQ hQf hkey => ?_⟩
    have hQx := hx_eq hQ hQf hkey
    have hQreduced := hQ.x_reduced
    omega
  · refine .inl ⟨rfl, fun Q hQ hQf hkey => ?_⟩
    have hQx := hx_eq hQ hQf hkey
    obtain hroot | ⟨-, hnot⟩ := hroot
    · refine hy.2 ((cast_eq_zero_iff hsquareReduced).mp ?_)
      rw [← hroot, show modSqrt ySquared P = 0 from hy.1]
      simp
    · refine hnot ⟨(Q.y : Fp), ?_⟩
      rw [hcast, hQx, ← sq, nonsingular_iff.mp (hQ.nonsingular hQf)]
  · have hsquare : (y : Fp) ^ 2 = ySquared := by
      obtain hroot | ⟨hzero, hnot⟩ := hroot
      · exact hroot
      · have hsquareZero : ySquared = 0 := by
          by_contra hne
          exact hy ⟨hzero, hne⟩
        rw [hsquareZero, Int.cast_zero] at hnot
        exact absurd (IsSquare.zero) hnot
    have hypos : 0 < y ∧ y < P := by
      have hne := (cast_eq_zero_iff hreduced).not.mp
        (y_ne_zero (nonsingular_iff.mpr (hsquare.trans hcast)))
      have hreduced : 0 ≤ y ∧ y < P := hreduced
      have hne : y ≠ 0 := hne
      omega
    obtain ⟨root, hrootEq, hrootPos, hrootSquare, hparity⟩ := parity_spec hypos needEven
    rw [show y' = root from hrootEq]
    have hxReduced : 0 ≤ x ∧ x < P := by omega
    have hrootReduced : 0 ≤ root ∧ root < P := ⟨hrootPos.1.le, hrootPos.2⟩
    refine .inr ⟨rfl, ⟨⟨rfl, rfl, rfl⟩, fun h => absurd h Bool.false_ne_true, hxReduced,
      hrootReduced, fun _ => ?_⟩, ?_⟩
    · rw [P_eq, ← ZMod.intCast_eq_intCast_iff']
      push_cast [B]
      rw [hrootSquare, hsquare, hcast]
    · refine compressPublicKey_eq rfl ?_ ?_
      · have heven : root % 2 = 0 ↔ key[0] = COMPRESSED_EVEN_PREFIX := by
          rw [← decide_eq_decide, hparity]
        dsimp only
        split_ifs with hroot
        · exact heven.mp hroot
        · by_contra hne
          exact hhead ⟨fun h => hroot (heven.mpr h), hne⟩
      · exact (bigIntToBytes32_bytes32ToBigInt (by simp)).symm

/-- The points that decompression finds are those whose compressed key it is given. -/
theorem decompressPublicKey_eq_iff {key : PublicKey} {Q : ECPoint} :
    decompressPublicKey key = Q ∧ Q.isInfinity = false ↔
      Q.OnCurve ∧ Q.isInfinity = false ∧ compressPublicKey Q = key := by
  obtain ⟨hinf, hnone⟩ | ⟨hfinite, hcurve, hkey⟩ := decompressPublicKey_spec key
  · constructor
    · rintro ⟨rfl, hfinite⟩
      rw [hinf] at hfinite
      cases hfinite
    · rintro ⟨hQ, hQf, hkey⟩
      exact absurd hkey (hnone Q hQ hQf)
  · constructor
    · rintro ⟨rfl, -⟩
      exact ⟨hcurve, hfinite, hkey⟩
    · rintro ⟨hQ, hQf, rfl⟩
      exact ⟨compressPublicKey_inj hcurve hQ hfinite hQf hkey, hQf⟩

end ECCrypto

end BlockchainCrypto
