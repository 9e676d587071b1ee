import BlockchainCrypto.Crypto.Jacobian
import BlockchainCrypto.Crypto.Secp256k1
import Mathlib.AlgebraicGeometry.EllipticCurve.Affine.Point

/-!
# The group of secp256k1

The points that the arithmetic of `ECCrypto.cpp` works on, which are the point at infinity and the
reduced solutions of the curve equation, are the points of the elliptic curve `y² = x³ + 7` over
the field with `P` elements. Addition, doubling and scalar multiples are those of its group.

## Main definitions

* `ECCrypto.curve`: the elliptic curve.
* `ECCrypto.ECPoint.OnCurve`, `ECCrypto.ECPoint.toPoint`: points of the code as points of the curve.

## Main results

* `ECCrypto.ECPoint.doubledPoint_spec`, `ECCrypto.ECPoint.add_spec`: the group operations.
* `ECCrypto.ECPoint.mul_append`: the last binary digit of a scalar.
* `ECCrypto.ECPoint.mul_spec`: scalar multiples are repeated addition.
* `ECCrypto.ECPoint.toPoint_inj`: points are equal when they mean the same point.
* `ECCrypto.refines_group`: the arithmetic refines the group.
-/

namespace BlockchainCrypto

open ByteText WeierstrassCurve.Affine

namespace ECCrypto

open secp256k1

/-- The field of the coordinates. -/
abbrev Fp := ZMod fieldPrime

/-- The curve `y² = x³ + 7`. -/
def curve : WeierstrassCurve Fp := ⟨0, 0, 0, 0, 7⟩

theorem cast_ne_zero {m : ℕ} (h : ¬ fieldPrime ∣ m) : (m : Fp) ≠ 0 :=
  fun h0 => h ((ZMod.natCast_eq_zero_iff m fieldPrime).mp h0)

theorem curve_discriminant_ne_zero : curve.Δ ≠ 0 := by
  have h : curve.Δ = -((21168 : ℕ) : Fp) := by
    simp only [WeierstrassCurve.Δ, WeierstrassCurve.b₂, WeierstrassCurve.b₄, WeierstrassCurve.b₆,
      WeierstrassCurve.b₈, curve]
    push_cast
    ring
  rw [h]
  exact neg_ne_zero.mpr (cast_ne_zero (by decide))

theorem equation_iff {x y : Fp} : curve.toAffine.Equation x y ↔ y ^ 2 = x ^ 3 + 7 := by
  rw [WeierstrassCurve.Affine.equation_iff]
  simp [curve]

/-- Every solution of the equation is a point of the curve. -/
theorem nonsingular_iff {x y : Fp} : curve.toAffine.Nonsingular x y ↔ y ^ 2 = x ^ 3 + 7 :=
  (equation_iff_nonsingular_of_Δ_ne_zero curve_discriminant_ne_zero).symm.trans equation_iff

theorem curve_negY (x y : Fp) : curve.toAffine.negY x y = -y := by
  simp [curve]

theorem curve_addX (x₁ x₂ ℓ : Fp) : curve.toAffine.addX x₁ x₂ ℓ = ℓ ^ 2 - x₁ - x₂ := by
  simp [curve]

theorem curve_addY (x₁ x₂ y₁ ℓ : Fp) :
    curve.toAffine.addY x₁ x₂ y₁ ℓ = ℓ * (x₁ - (ℓ ^ 2 - x₁ - x₂)) - y₁ := by
  rw [addY, curve_negY, negAddY, curve_addX]
  ring

namespace ECPoint

/-- The point at infinity, or a reduced solution of the curve equation. -/
structure OnCurve (Q : ECPoint) : Prop where
  curve_eq : Q.p = P ∧ Q.a = A ∧ Q.b = B
  infinity : Q.isInfinity = true → Q.x = 0 ∧ Q.y = 0
  x_reduced : 0 ≤ Q.x ∧ Q.x < P
  y_reduced : 0 ≤ Q.y ∧ Q.y < P
  equation : Q.isInfinity = false → Q.y ^ 2 % P = (Q.x ^ 3 + B) % P

open Classical in
/-- The point of the curve that is meant. -/
noncomputable def toPoint (Q : ECPoint) : curve.toAffine.Point :=
  if h : Q.isInfinity = false ∧ curve.toAffine.Nonsingular (Q.x : Fp) (Q.y : Fp) then .some _ _ h.2
  else 0

variable {Q R : ECPoint}

theorem P_pos : 0 < P := by decide

theorem toPoint_of_infinity (h : Q.isInfinity = true) : Q.toPoint = 0 :=
  dif_neg fun hfinite => absurd hfinite.1 (by rw [h]; decide)

theorem toPoint_eq_some (h : Q.isInfinity = false)
    (hns : curve.toAffine.Nonsingular (Q.x : Fp) (Q.y : Fp)) : Q.toPoint = .some _ _ hns :=
  dif_pos ⟨h, hns⟩

theorem OnCurve.nonsingular (hQ : Q.OnCurve) (h : Q.isInfinity = false) :
    curve.toAffine.Nonsingular (Q.x : Fp) (Q.y : Fp) := by
  have heq := (ZMod.intCast_eq_intCast_iff' _ _ fieldPrime).mpr (hQ.equation h)
  rw [nonsingular_iff]
  simpa [B] using heq

theorem onCurve_pointAtInfinity (hQ : Q.OnCurve) : Q.pointAtInfinity.OnCurve where
  curve_eq := hQ.curve_eq
  infinity _ := ⟨rfl, rfl⟩
  x_reduced := ⟨le_rfl, P_pos⟩
  y_reduced := ⟨le_rfl, P_pos⟩
  equation h := by cases h

theorem toPoint_pointAtInfinity (Q : ECPoint) : Q.pointAtInfinity.toPoint = 0 :=
  toPoint_of_infinity rfl

/-- Reduced integers are determined by their residues. -/
theorem eq_of_cast_eq {x y : ℤ} (hx : 0 ≤ x ∧ x < P) (hy : 0 ≤ y ∧ y < P)
    (h : (x : Fp) = y) : x = y := by
  have hmod := (ZMod.intCast_eq_intCast_iff' x y fieldPrime).mp h
  rwa [← P_eq, Int.emod_eq_of_lt hx.1 hx.2, Int.emod_eq_of_lt hy.1 hy.2] at hmod

theorem cast_emod_P (z : ℤ) : ((z % P : ℤ) : Fp) = z := JacobianPoint.cast_emod z

theorem emod_P_reduced (z : ℤ) : 0 ≤ z % P ∧ z % P < P :=
  ⟨Int.emod_nonneg z P_pos.ne', Int.emod_lt_of_pos z P_pos⟩

/-- Points of one curve are determined by their coordinates. -/
theorem OnCurve.ext (hQ : Q.OnCurve) (hR : R.OnCurve) (hinf : Q.isInfinity = R.isInfinity)
    (hx : Q.x = R.x) (hy : Q.y = R.y) : Q = R := by
  obtain ⟨hp, ha, hb⟩ := hQ.curve_eq
  obtain ⟨hp', ha', hb'⟩ := hR.curve_eq
  cases Q
  cases R
  simp_all

/-- A solution with reduced coordinates. -/
theorem finite_spec {x y : ℤ} {x' y' : Fp} (h : curve.toAffine.Nonsingular x' y')
    (hx : (x : Fp) = x') (hy : (y : Fp) = y') :
    OnCurve ⟨x % P, y % P, P, A, B, false⟩ ∧
      toPoint ⟨x % P, y % P, P, A, B, false⟩ = .some x' y' h := by
  subst hx hy
  have hcast : curve.toAffine.Nonsingular ((x % P : ℤ) : Fp) ((y % P : ℤ) : Fp) := by
    rwa [cast_emod_P, cast_emod_P]
  refine ⟨⟨⟨rfl, rfl, rfl⟩, nofun, emod_P_reduced x, emod_P_reduced y, fun _ => ?_⟩, ?_⟩
  · rw [P_eq, ← ZMod.intCast_eq_intCast_iff', ← P_eq]
    simpa [B] using nonsingular_iff.mp hcast
  · rw [toPoint_eq_some rfl hcast]
    simp only [cast_emod_P]

/-! ### Addition -/

/-- The third point of a chord or a tangent, mirrored. -/
theorem chord_spec (hQ : Q.OnCurve) (hR : R.OnCurve) (hQf : Q.isInfinity = false)
    (hRf : R.isInfinity = false) {x y : ℤ}
    (hxy : ¬ ((Q.x : Fp) = R.x ∧ (Q.y : Fp) = curve.toAffine.negY R.x R.y))
    (hx : (x : Fp) = curve.toAffine.addX Q.x R.x (curve.toAffine.slope Q.x R.x Q.y R.y))
    (hy : (y : Fp) = curve.toAffine.addY Q.x R.x Q.y (curve.toAffine.slope Q.x R.x Q.y R.y)) :
    OnCurve ⟨x % P, y % P, P, A, B, false⟩ ∧
      toPoint ⟨x % P, y % P, P, A, B, false⟩ = Q.toPoint + R.toPoint := by
  have hQns := hQ.nonsingular hQf
  have hRns := hR.nonsingular hRf
  rw [toPoint_eq_some hQf hQns, toPoint_eq_some hRf hRns, Point.add_some hxy]
  exact finite_spec (nonsingular_add hQns hRns hxy) hx hy

theorem cast_ne_of_ne {x y : ℤ} (hx : 0 ≤ x ∧ x < P) (hy : 0 ≤ y ∧ y < P) (h : x ≠ y) :
    (x : Fp) ≠ y := fun hcast => h (eq_of_cast_eq hx hy hcast)

/-- The inverse of the source inverts in the field. -/
theorem cast_inverse {z : ℤ} (hz : (z : Fp) ≠ 0) : (inverse z P : Fp) = (z : Fp)⁻¹ :=
  eq_inv_of_mul_eq_one_left
    (JacobianPoint.cast_inverse_mul fieldPrime_prime.one_lt (isUnit_iff_ne_zero.mpr hz))

theorem two_ne_zero : (2 : Fp) ≠ 0 := by
  exact_mod_cast cast_ne_zero (m := 2) (by decide)

/-- Doubling is the double of the group. -/
theorem doubledPoint_spec (hQ : Q.OnCurve) :
    Q.doubledPoint.OnCurve ∧ Q.doubledPoint.toPoint = 2 • Q.toPoint := by
  rw [two_nsmul]
  by_cases hy0 : Q.y = 0
  · rw [doubledPoint, if_pos hy0, toPoint_pointAtInfinity]
    refine ⟨onCurve_pointAtInfinity hQ, ?_⟩
    by_cases hinf : Q.isInfinity = true
    · rw [toPoint_of_infinity hinf, add_zero]
    · have hns := hQ.nonsingular (Bool.not_eq_true _ ▸ hinf)
      rw [toPoint_eq_some (Bool.not_eq_true _ ▸ hinf) hns, Point.add_self_of_Y_eq]
      rw [curve_negY, hy0]
      simp
  · have hinf : Q.isInfinity = false := by
      by_contra h
      exact hy0 (hQ.infinity (Bool.not_eq_false _ ▸ h)).2
    have hy : (Q.y : Fp) ≠ 0 := by
      rw [← Int.cast_zero]
      exact cast_ne_of_ne hQ.y_reduced ⟨le_rfl, P_pos⟩ hy0
    have hneg : (Q.y : Fp) ≠ curve.toAffine.negY Q.x Q.y := by
      intro h
      have hzero : (2 : Fp) * Q.y = 0 := by
        rw [curve_negY] at h
        linear_combination h
      exact (mul_ne_zero two_ne_zero hy) hzero
    obtain ⟨hp, ha, hb⟩ := hQ.curve_eq
    have hslope : (((Q.x * Q.x * 3 + A) * inverse (Q.y * 2) P % P : ℤ) : Fp) =
        curve.toAffine.slope Q.x Q.x Q.y Q.y := by
      have hinv : (inverse (Q.y * 2) P : Fp) = (2 * (Q.y : Fp))⁻¹ := by
        rw [cast_inverse]
        · push_cast
          rw [mul_comm]
        · push_cast
          exact mul_ne_zero hy two_ne_zero
      rw [cast_emod_P, slope_of_Y_ne rfl hneg, div_eq_mul_inv]
      push_cast
      rw [hinv]
      simp [curve, A]
      ring
    rw [doubledPoint, if_neg hy0, hp, ha, hb]
    dsimp only
    generalize (Q.x * Q.x * 3 + A) * inverse (Q.y * 2) P % P = slope at hslope ⊢
    refine chord_spec hQ hQ hinf hinf (fun h => hneg h.2) ?_ ?_
    · rw [curve_addX, ← hslope]
      push_cast
      ring
    · rw [curve_addY, ← hslope]
      push_cast
      rw [cast_emod_P]
      push_cast
      ring

/-- Addition is the sum of the group. -/
theorem add_spec (hQ : Q.OnCurve) (hR : R.OnCurve) :
    (Q.add R).OnCurve ∧ (Q.add R).toPoint = Q.toPoint + R.toPoint := by
  rw [add]
  by_cases hQf : Q.isInfinity = true
  · rw [toPoint_of_infinity hQf, zero_add]
    by_cases hRf : R.isInfinity = true
    · simp only [hQf, hRf, Bool.and_self, ↓reduceIte]
      exact ⟨onCurve_pointAtInfinity hQ,
        (toPoint_pointAtInfinity Q).trans (toPoint_of_infinity hRf).symm⟩
    · simp [hQf, hRf, hR]
  rw [Bool.not_eq_true] at hQf
  by_cases hRf : R.isInfinity = true
  · rw [toPoint_of_infinity hRf, add_zero]
    simp [hQf, hRf, hQ]
  rw [Bool.not_eq_true] at hRf
  simp only [hQf, hRf, Bool.and_self, Bool.not_false, Bool.false_eq_true, Bool.and_false,
    Bool.and_true, ↓reduceIte]
  have hQns := hQ.nonsingular hQf
  have hRns := hR.nonsingular hRf
  by_cases hx : Q.x = R.x
  · by_cases hy : Q.y = R.y
    · have hQR : Q = R := hQ.ext hR (hQf.trans hRf.symm) hx hy
      rw [if_pos ⟨hx, hy⟩, ← hQR, ← two_nsmul]
      exact doubledPoint_spec hQ
    · have hneg : (Q.y : Fp) = curve.toAffine.negY R.x R.y :=
        (Y_eq_of_X_eq hQns.1 hRns.1 (congrArg Int.cast hx)).resolve_left
          (cast_ne_of_ne hQ.y_reduced hR.y_reduced hy)
      rw [if_neg fun h => hy h.2, if_pos ⟨hx, hy⟩, toPoint_pointAtInfinity,
        toPoint_eq_some hQf hQns, toPoint_eq_some hRf hRns,
        Point.add_of_Y_eq (congrArg Int.cast hx) hneg]
      exact ⟨onCurve_pointAtInfinity hQ, rfl⟩
  · have hne := cast_ne_of_ne hQ.x_reduced hR.x_reduced hx
    obtain ⟨hp, ha, hb⟩ := hQ.curve_eq
    have hslope : (((R.y - Q.y) * inverse (R.x - Q.x) P % P : ℤ) : Fp) =
        curve.toAffine.slope Q.x R.x Q.y R.y := by
      have hinv : (inverse (R.x - Q.x) P : Fp) = ((R.x : Fp) - Q.x)⁻¹ := by
        rw [cast_inverse]
        · push_cast
          rfl
        · push_cast
          exact sub_ne_zero.mpr hne.symm
      rw [cast_emod_P, slope_of_X_ne hne, ← neg_sub (R.y : Fp), ← neg_sub (R.x : Fp),
        neg_div_neg_eq, div_eq_mul_inv]
      push_cast
      rw [hinv]
    rw [if_neg fun h => hx h.1, if_neg fun h => hx h.1, hp, ha, hb]
    generalize (R.y - Q.y) * inverse (R.x - Q.x) P % P = slope at hslope ⊢
    refine chord_spec hQ hR hQf hRf (fun h => hne h.1) ?_ ?_
    · rw [curve_addX, ← hslope]
      push_cast
      ring
    · rw [curve_addY, ← hslope]
      push_cast
      rw [cast_emod_P]
      push_cast
      ring

/-! ### Scalar multiples -/

/-- One more binary digit. -/
theorem toBinaryString_append {m : ℕ} (hm : 0 < m) {d : ℕ} (hd : d < 2) :
    toBinaryString ((2 * m + d : ℕ) : ℤ) = toBinaryString m ++ [48 + UInt8.ofNat d] := by
  have hdigit : charByte (Nat.digitChar d) = 48 + UInt8.ofNat d := by
    obtain rfl | rfl : d = 0 ∨ d = 1 := by omega
    · rfl
    · rfl
  have hneg (k : ℕ) : ¬ ((k : ℤ) < 0) := by omega
  rw [toBinaryString, toBinaryString, if_neg (hneg _), if_neg (hneg _), Int.natAbs_natCast,
    Int.natAbs_natCast, Nat.toDigits_of_base_le (by decide) (by omega), List.map_append,
    show (2 * m + d) / 2 = m by omega, show (2 * m + d) % 2 = d by omega]
  simp [hdigit]

/-- The first binary digit of a positive number is a one. -/
theorem toBinaryString_eq_cons {m : ℕ} (hm : 0 < m) : ∃ rest, toBinaryString m = 49 :: rest := by
  induction m using Nat.strong_induction_on with
  | _ m ih =>
    by_cases hone : m = 1
    · subst hone
      exact ⟨[], by decide⟩
    · obtain ⟨rest, hrest⟩ := ih (m / 2) (by omega) (by omega)
      have happend := toBinaryString_append (m := m / 2) (by omega) (Nat.mod_lt m two_pos)
      rw [Nat.div_add_mod, hrest] at happend
      exact ⟨_, happend⟩

/-- The digits that the loop of `operator*` processes. -/
theorem mul_eq_foldl {m : ℕ} (hm : 0 < m) {rest : Bytes} (h : toBinaryString m = 49 :: rest)
    (Q : ECPoint) : Q.mul m = rest.foldl Q.mulStep Q := by
  rw [mul, if_neg (by omega), h]
  simp

theorem mul_one (Q : ECPoint) : Q.mul 1 = Q :=
  mul_eq_foldl Nat.one_pos (by decide : toBinaryString (1 : ℕ) = 49 :: []) Q

/-- The loop ends with the last binary digit of the scalar. -/
theorem mul_append {m : ℕ} (hm : 0 < m) {d : ℕ} (hd : d < 2) (Q : ECPoint) :
    Q.mul (2 * m + d : ℕ) = Q.mulStep (Q.mul m) (48 + UInt8.ofNat d) := by
  obtain ⟨rest, hrest⟩ := toBinaryString_eq_cons hm
  have happend := toBinaryString_append hm hd
  rw [hrest, List.cons_append] at happend
  rw [mul_eq_foldl (by omega) happend, mul_eq_foldl hm hrest, List.foldl_append]
  rfl

/-- A digit doubles, and adds the base for a one. -/
theorem mulStep_spec (hQ : Q.OnCurve) (hR : R.OnCurve) {d : ℕ} (hd : d < 2) :
    (Q.mulStep R (48 + UInt8.ofNat d)).OnCurve ∧
      (Q.mulStep R (48 + UInt8.ofNat d)).toPoint = 2 • R.toPoint + d • Q.toPoint := by
  obtain ⟨hdouble, hvalue⟩ := doubledPoint_spec hR
  obtain rfl | rfl : d = 0 ∨ d = 1 := by omega
  · rw [zero_nsmul, add_zero]
    exact ⟨hdouble, hvalue⟩
  · obtain ⟨hadd, hsum⟩ := add_spec hdouble hQ
    rw [one_nsmul, ← hvalue]
    exact ⟨hadd, hsum⟩

/-- Scalar multiples are repeated addition. -/
theorem mul_spec (hQ : Q.OnCurve) (m : ℕ) :
    (Q.mul m).OnCurve ∧ (Q.mul m).toPoint = m • Q.toPoint := by
  induction m using Nat.strong_induction_on with
  | _ m ih =>
    obtain rfl | rfl | hm : m = 0 ∨ m = 1 ∨ 1 < m := by omega
    · rw [Nat.cast_zero, mul, if_pos rfl, zero_nsmul]
      exact ⟨onCurve_pointAtInfinity hQ, toPoint_pointAtInfinity Q⟩
    · rw [Nat.cast_one, mul_one, one_nsmul]
      exact ⟨hQ, rfl⟩
    · obtain ⟨hcurve, hvalue⟩ := ih (m / 2) (by omega)
      obtain ⟨hstep, hsum⟩ := mulStep_spec hQ hcurve (Nat.mod_lt m two_pos)
      have happend := mul_append (m := m / 2) (by omega) (Nat.mod_lt m two_pos) Q
      rw [Nat.div_add_mod] at happend
      rw [happend]
      refine ⟨hstep, ?_⟩
      rw [hsum, hvalue, smul_smul, ← add_nsmul, Nat.div_add_mod]

/-- Points of the code are determined by the points that are meant. -/
theorem toPoint_inj (hQ : Q.OnCurve) (hR : R.OnCurve) : Q.toPoint = R.toPoint ↔ Q = R := by
  refine ⟨fun h => ?_, fun h => h ▸ rfl⟩
  rcases hQf : Q.isInfinity with _ | _ <;> rcases hRf : R.isInfinity with _ | _
  · rw [toPoint_eq_some hQf (hQ.nonsingular hQf), toPoint_eq_some hRf (hR.nonsingular hRf),
      Point.some.injEq] at h
    exact hQ.ext hR (hQf.trans hRf.symm) (eq_of_cast_eq hQ.x_reduced hR.x_reduced h.1)
      (eq_of_cast_eq hQ.y_reduced hR.y_reduced h.2)
  · rw [toPoint_eq_some hQf (hQ.nonsingular hQf), toPoint_of_infinity hRf] at h
    exact absurd h (Point.some_ne_zero _)
  · rw [toPoint_of_infinity hQf, toPoint_eq_some hRf (hR.nonsingular hRf)] at h
    exact absurd h.symm (Point.some_ne_zero _)
  · obtain ⟨hx, hy⟩ := hQ.infinity hQf
    obtain ⟨hx', hy'⟩ := hR.infinity hRf
    exact hQ.ext hR (hQf.trans hRf.symm) (hx.trans hx'.symm) (hy.trans hy'.symm)

end ECPoint

/-- The point arithmetic refines the group of the curve: its results are the point at infinity or
reduced solutions of the equation again, and they are the sum, the double and the multiple. -/
theorem refines_group :
    (∀ Q R : ECPoint, Q.OnCurve → R.OnCurve →
      (Q.add R).OnCurve ∧ (Q.add R).toPoint = Q.toPoint + R.toPoint) ∧
    (∀ Q : ECPoint, Q.OnCurve →
      Q.doubledPoint.OnCurve ∧ Q.doubledPoint.toPoint = Q.toPoint + Q.toPoint) ∧
    ∀ (Q : ECPoint) (k : ℤ), Q.OnCurve → 0 ≤ k →
      (Q.mul k).OnCurve ∧ (Q.mul k).toPoint = k.toNat • Q.toPoint := by
  refine ⟨fun Q R hQ hR => ECPoint.add_spec hQ hR, fun Q hQ => ?_, fun Q k hQ hk => ?_⟩
  · rw [← two_nsmul]
    exact ECPoint.doubledPoint_spec hQ
  · have hcast : ((k.toNat : ℕ) : ℤ) = k := Int.toNat_of_nonneg hk
    have h := ECPoint.mul_spec hQ k.toNat
    rwa [hcast] at h

theorem onCurve_G : G.OnCurve where
  curve_eq := ⟨rfl, rfl, rfl⟩
  infinity := nofun
  x_reduced := by decide
  y_reduced := by decide
  equation _ := by decide

/-- The base point and its multiples. -/
theorem refines_group_G :
    (G.add G).toPoint = G.toPoint + G.toPoint ∧
      G.doubledPoint.toPoint = G.toPoint + G.toPoint ∧
      (G.mul 1000).toPoint = 1000 • G.toPoint :=
  ⟨(refines_group.1 G G onCurve_G onCurve_G).2, (refines_group.2.1 G onCurve_G).2,
    (refines_group.2.2 G 1000 onCurve_G (by decide)).2⟩

end ECCrypto

end BlockchainCrypto
