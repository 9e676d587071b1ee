import BlockchainCrypto.Crypto.ECPoint
import Mathlib.Data.ZMod.Units
import Mathlib.Tactic.LinearCombination

/-!
# Scalar multiples in Jacobian coordinates

A scalar multiple by `ECPoint.mul` inverts once for every doubling and addition. On a curve
`y² = x³ + b` the same multiple is computed without inversions in Jacobian coordinates, where
`(X : Y : Z)` stands for the affine point `(X / Z², Y / Z³)`, and a single inversion at the end.
The exceptional cases of the affine formulas are those in which some `Z` is not invertible, and
then so is no later one; a final `Z` prime to the modulus therefore certifies the whole chain.

## Main definitions

* `ECCrypto.JacobianPoint`, with `double`, `addAffine` and `toAffine`.
* `ECCrypto.JacobianPoint.Represents`: an affine point and its Jacobian coordinates.
* `ECCrypto.evalMul`: scalar multiples through Jacobian coordinates.

## Main results

* `ECCrypto.JacobianPoint.Represents.double`, `ECCrypto.JacobianPoint.Represents.addAffine`.
* `ECCrypto.mul_eq_evalMul`: `ECPoint.mul` and `evalMul` are the same function.
-/

namespace BlockchainCrypto

open ByteText

namespace ECCrypto

/-- Jacobian coordinates of a point, as residues. -/
structure JacobianPoint where
  X : ℕ
  Y : ℕ
  Z : ℕ

namespace JacobianPoint

/-- Subtraction of residues. -/
def subMod (p a b : ℕ) : ℕ := (a + (p - b % p)) % p

/-- Doubling on a curve without linear term. -/
def double (p : ℕ) (J : JacobianPoint) : JacobianPoint :=
  let YY := J.Y * J.Y % p
  let S := 4 * J.X * YY % p
  let M := 3 * J.X * J.X % p
  let X' := subMod p (M * M) (2 * S)
  ⟨X', subMod p (M * subMod p S X') (8 * YY * YY), 2 * J.Y * J.Z % p⟩

/-- Addition of the affine point `(x, y)`. -/
def addAffine (p x y : ℕ) (J : JacobianPoint) : JacobianPoint :=
  let ZZ := J.Z * J.Z % p
  let H := subMod p (x * ZZ) J.X
  let R := subMod p (y * ZZ * J.Z) J.Y
  let HH := H * H % p
  let HHH := H * HH % p
  let V := J.X * HH % p
  let X' := subMod p (R * R) (HHH + 2 * V)
  ⟨X', subMod p (R * subMod p V X') (J.Y * HHH), J.Z * H % p⟩

/-- One binary digit of a scalar. -/
def step (p x y : ℕ) (J : JacobianPoint) (digit : UInt8) : JacobianPoint :=
  if digit = 49 then (J.double p).addAffine p x y else J.double p

/-- The affine point on `y² = x³ + b`, by one inversion. -/
def toAffine (p : ℕ) (b : ℤ) (J : JacobianPoint) : ECPoint :=
  let zInv := inverse J.Z p
  ⟨J.X * zInv ^ 2 % p, J.Y * zInv ^ 3 % p, p, 0, b, false⟩

/-- `J` holds Jacobian coordinates of the affine point `Q` of `y² = x³ + b` modulo `p`. -/
structure Represents (p : ℕ) (b : ℤ) (J : JacobianPoint) (Q : ECPoint) : Prop where
  curve : Q.p = p ∧ Q.a = 0 ∧ Q.b = b
  finite : Q.isInfinity = false
  x_reduced : Q.x % p = Q.x
  y_reduced : Q.y % p = Q.y
  x_eq : (Q.x : ZMod p) * J.Z ^ 2 = J.X
  y_eq : (Q.y : ZMod p) * J.Z ^ 3 = J.Y

/-! ### Residues -/

section Residues

variable {p : ℕ}

theorem cast_subMod (hp : 0 < p) (a b : ℕ) : (subMod p a b : ZMod p) = a - b := by
  rw [subMod, ZMod.natCast_mod, Nat.cast_add, Nat.cast_sub (Nat.mod_lt b hp).le,
    ZMod.natCast_self, ZMod.natCast_mod, zero_sub, sub_eq_add_neg]

theorem cast_emod (z : ℤ) : ((z % p : ℤ) : ZMod p) = z := ZMod.intCast_mod z p

/-- The loop of `inverse` inverts every unit. -/
theorem cast_inverse_mul (hp : 1 < p) {a : ℤ} (ha : IsUnit (a : ZMod p)) :
    (inverse a p : ZMod p) * a = 1 := by
  have hcop := Int.isCoprime_iff_gcd_eq_one.mp ((ZMod.coe_int_isUnit_iff_isCoprime a p).mp ha)
  have hdvd := (ZMod.intCast_zmod_eq_zero_iff_dvd _ p).mpr
    (dvd_inverse_mul_sub_one (by exact_mod_cast hp) hcop)
  push_cast at hdvd
  linear_combination hdvd

theorem ne_zero_of_isUnit_cast (hp : 1 < p) {z : ℤ} (hz : IsUnit (z : ZMod p)) : z ≠ 0 := by
  rintro rfl
  have : Fact (1 < p) := ⟨hp⟩
  rw [Int.cast_zero] at hz
  exact not_isUnit_zero hz

end Residues

/-! ### Steps -/

section Steps

variable {p : ℕ} {b : ℤ} {J : JacobianPoint} {Q : ECPoint}

theorem cast_double_Z (J : JacobianPoint) : ((J.double p).Z : ZMod p) = 2 * J.Y * J.Z := by
  simp [JacobianPoint.double]

theorem cast_addAffine_Z (hp : 0 < p) (x y : ℕ) (J : JacobianPoint) :
    ((J.addAffine p x y).Z : ZMod p) = J.Z * (x * J.Z ^ 2 - J.X) := by
  simp [JacobianPoint.addAffine, cast_subMod hp, pow_two]

theorem Represents.double (hp : 1 < p) (h : J.Represents p b Q)
    (hZ : IsUnit ((J.double p).Z : ZMod p)) : (J.double p).Represents p b Q.doubledPoint := by
  have hp0 : 0 < p := by omega
  obtain ⟨⟨hQp, hQa, hQb⟩, -, -, -, hx, hy⟩ := h
  have hunit : IsUnit ((Q.y * 2 : ℤ) : ZMod p) := by
    have hZ' : ((J.double p).Z : ZMod p) = ((Q.y * 2 : ℤ) : ZMod p) * (J.Z : ZMod p) ^ 4 := by
      rw [cast_double_Z, ← hy]
      push_cast
      ring
    rw [hZ'] at hZ
    exact isUnit_of_mul_isUnit_left hZ
  have hy0 : Q.y ≠ 0 := by
    have := ne_zero_of_isUnit_cast hp hunit
    omega
  have hslope : (((Q.x * Q.x * 3 + 0) * inverse (Q.y * 2) p : ℤ) : ZMod p) * (2 * Q.y) =
      3 * (Q.x : ZMod p) ^ 2 := by
    have hinv := cast_inverse_mul hp hunit
    push_cast at hinv ⊢
    linear_combination 3 * (Q.x : ZMod p) ^ 2 * hinv
  rw [ECPoint.doubledPoint, if_neg hy0]
  simp only [hQp, hQa, hQb]
  generalize (Q.x * Q.x * 3 + 0) * inverse (Q.y * 2) p = slope at hslope
  refine ⟨⟨rfl, rfl, rfl⟩, rfl, Int.emod_emod _ _, Int.emod_emod _ _, ?_, ?_⟩
  · simp only [JacobianPoint.double, cast_subMod hp0, cast_emod, ZMod.natCast_mod,
      Int.cast_sub, Int.cast_mul, Nat.cast_mul, ← hx, ← hy, Nat.cast_ofNat, Int.cast_ofNat]
    linear_combination (J.Z : ZMod p) ^ 8 * (slope * (2 * Q.y) + 3 * (Q.x : ZMod p) ^ 2) * hslope
  · simp only [JacobianPoint.double, cast_subMod hp0, cast_emod, ZMod.natCast_mod,
      Int.cast_sub, Int.cast_mul, Nat.cast_mul, ← hx, ← hy, Nat.cast_ofNat, Int.cast_ofNat]
    linear_combination (J.Z : ZMod p) ^ 12 * (12 * Q.x * (Q.y : ZMod p) ^ 2 -
      ((slope * (2 * Q.y)) ^ 2 + slope * (2 * Q.y) * (3 * (Q.x : ZMod p) ^ 2) +
        9 * (Q.x : ZMod p) ^ 4)) * hslope

theorem Represents.addAffine (hp : 1 < p) {x y : ℕ} {R : ECPoint} (h : J.Represents p b Q)
    (hRx : R.x = x) (hRy : R.y = y) (hR : R.isInfinity = false)
    (hZ : IsUnit ((J.addAffine p x y).Z : ZMod p)) :
    (J.addAffine p x y).Represents p b (Q.add R) := by
  have hp0 : 0 < p := by omega
  obtain ⟨⟨hQp, hQa, hQb⟩, hQ, -, -, hx, hy⟩ := h
  have hunit : IsUnit ((R.x - Q.x : ℤ) : ZMod p) := by
    have hZ' : ((J.addAffine p x y).Z : ZMod p) =
        ((R.x - Q.x : ℤ) : ZMod p) * (J.Z : ZMod p) ^ 3 := by
      rw [cast_addAffine_Z hp0, ← hx, hRx]
      push_cast
      ring
    rw [hZ'] at hZ
    exact isUnit_of_mul_isUnit_left hZ
  have hne : Q.x ≠ R.x := by
    have := ne_zero_of_isUnit_cast hp hunit
    omega
  have hslope : (((R.y - Q.y) * inverse (R.x - Q.x) p : ℤ) : ZMod p) * (x - Q.x) = y - Q.y := by
    have hinv := cast_inverse_mul hp hunit
    rw [hRx] at hinv ⊢
    rw [hRy]
    push_cast at hinv ⊢
    linear_combination ((y : ZMod p) - Q.y) * hinv
  have hadd : Q.add R =
      let slope := ((R.y - Q.y) * inverse (R.x - Q.x) p) % p
      let newX := (slope * slope - Q.x - R.x) % p
      ⟨newX, (slope * (Q.x - newX) - Q.y) % p, p, 0, b, false⟩ := by
    simp [ECPoint.add, hQ, hR, hne, hQp, hQa, hQb]
  rw [hadd]
  generalize (R.y - Q.y) * inverse (R.x - Q.x) p = slope at hslope
  refine ⟨⟨rfl, rfl, rfl⟩, rfl, Int.emod_emod _ _, Int.emod_emod _ _, ?_, ?_⟩
  · simp only [JacobianPoint.addAffine, cast_subMod hp0, cast_emod, ZMod.natCast_mod,
      Int.cast_sub, Int.cast_mul, Nat.cast_mul, Nat.cast_add, ← hx, ← hy, hRx, Nat.cast_ofNat,
      Int.cast_natCast]
    linear_combination (J.Z : ZMod p) ^ 6 * (slope * (x - Q.x) + (y - Q.y)) * hslope
  · simp only [JacobianPoint.addAffine, cast_subMod hp0, cast_emod, ZMod.natCast_mod,
      Int.cast_sub, Int.cast_mul, Nat.cast_mul, Nat.cast_add, ← hx, ← hy, hRx, Nat.cast_ofNat,
      Int.cast_natCast]
    linear_combination (J.Z : ZMod p) ^ 9 * ((x - Q.x) ^ 2 * (2 * Q.x + x) -
      ((slope * (x - Q.x)) ^ 2 + slope * (x - Q.x) * (y - Q.y) + ((y : ZMod p) - Q.y) ^ 2)) * hslope

end Steps

/-! ### Scalar multiples -/

section Multiples

variable {p : ℕ} {b : ℤ} {J : JacobianPoint} {Q : ECPoint}

/-- A digit keeps the representation, unless it leaves a `Z` that is no unit. -/
theorem represents_step (hp : 1 < p) {x y : ℕ} {R : ECPoint} (hRx : R.x = x) (hRy : R.y = y)
    (hR : R.isInfinity = false) (h : IsUnit (J.Z : ZMod p) → J.Represents p b Q) (digit : UInt8)
    (hZ : IsUnit ((J.step p x y digit).Z : ZMod p)) :
    (J.step p x y digit).Represents p b (R.mulStep Q digit) := by
  have hdouble (hZ : IsUnit ((J.double p).Z : ZMod p)) :
      (J.double p).Represents p b Q.doubledPoint := by
    refine (h ?_).double hp hZ
    rw [cast_double_Z] at hZ
    exact isUnit_of_mul_isUnit_right hZ
  unfold JacobianPoint.step at hZ ⊢
  unfold ECPoint.mulStep
  split_ifs with hdigit
  · rw [if_pos hdigit] at hZ
    refine (hdouble ?_).addAffine hp hRx hRy hR hZ
    rw [cast_addAffine_Z (by omega)] at hZ
    exact isUnit_of_mul_isUnit_left hZ
  · rw [if_neg hdigit] at hZ
    exact hdouble hZ

theorem represents_foldl (hp : 1 < p) {x y : ℕ} {R : ECPoint} (hRx : R.x = x) (hRy : R.y = y)
    (hR : R.isInfinity = false) (digits : Bytes)
    (h : IsUnit (J.Z : ZMod p) → J.Represents p b Q)
    (hZ : IsUnit ((digits.foldl (step p x y) J).Z : ZMod p)) :
    (digits.foldl (step p x y) J).Represents p b (digits.foldl R.mulStep Q) := by
  induction digits generalizing J Q with
  | nil => exact h hZ
  | cons digit digits ih => exact ih (represents_step hp hRx hRy hR h digit) hZ

/-- A represented point is determined by its coordinates when `Z` is a unit. -/
theorem Represents.eq_toAffine (hp : 1 < p) (h : J.Represents p b Q)
    (hZ : IsUnit (J.Z : ZMod p)) : Q = J.toAffine p b := by
  obtain ⟨⟨hQp, hQa, hQb⟩, hQ, hx0, hy0, hx, hy⟩ := h
  have hinv := cast_inverse_mul hp (a := J.Z) (by simpa using hZ)
  rw [Int.cast_natCast] at hinv
  have hQx : Q.x = J.X * inverse J.Z p ^ 2 % p := by
    rw [← hx0, ← ZMod.intCast_eq_intCast_iff']
    push_cast
    rw [← hx]
    linear_combination -(Q.x : ZMod p) * (inverse J.Z p * J.Z + 1) * hinv
  have hQy : Q.y = J.Y * inverse J.Z p ^ 3 % p := by
    rw [← hy0, ← ZMod.intCast_eq_intCast_iff']
    push_cast
    rw [← hy]
    linear_combination -(Q.y : ZMod p) *
      ((inverse J.Z p * J.Z : ZMod p) ^ 2 + inverse J.Z p * J.Z + 1) * hinv
  cases Q
  simp_all [JacobianPoint.toAffine]

end Multiples

end JacobianPoint

/-- The Jacobian coordinates of a multiple, digit by digit. -/
def mulJacobian (p : ℕ) (Q : ECPoint) (scalar : ℤ) : JacobianPoint :=
  (((toBinaryString scalar).dropWhile (· ≠ 49)).drop 1).foldl
    (JacobianPoint.step p Q.x.toNat Q.y.toNat) ⟨Q.x.toNat, Q.y.toNat, 1⟩

/-- A scalar multiple through Jacobian coordinates where these are certified, and by `ECPoint.mul`
otherwise. -/
def evalMul (Q : ECPoint) (scalar : ℤ) : ECPoint :=
  let p := Q.p.toNat
  let J := mulJacobian p Q scalar
  if 1 < Q.p ∧ Q.a = 0 ∧ Q.isInfinity = false ∧ Q.x % Q.p = Q.x ∧ Q.y % Q.p = Q.y ∧ scalar ≠ 0 ∧
      Nat.gcd J.Z p = 1 then
    J.toAffine p Q.b
  else Q.mul scalar

/-- Scalar multiples may be evaluated through Jacobian coordinates. -/
theorem mul_eq_evalMul : ECPoint.mul = evalMul := by
  funext Q scalar
  unfold evalMul
  dsimp only
  split_ifs with h
  · obtain ⟨hp, ha, hQ, hx, hy, hscalar, hgcd⟩ := h
    obtain ⟨p, hQp⟩ : ∃ p : ℕ, Q.p = p := ⟨Q.p.toNat, by omega⟩
    rw [hQp, Int.toNat_natCast] at hgcd ⊢
    rw [hQp] at hp hx hy
    have hp' : 1 < p := by exact_mod_cast hp
    have hx0 : Q.x = Q.x.toNat := by
      have := Int.emod_nonneg Q.x (b := p) (by omega)
      omega
    have hy0 : Q.y = Q.y.toNat := by
      have := Int.emod_nonneg Q.y (b := p) (by omega)
      omega
    have hstart : (⟨Q.x.toNat, Q.y.toNat, 1⟩ : JacobianPoint).Represents p Q.b Q := by
      refine ⟨⟨hQp, ha, rfl⟩, hQ, hx, hy, ?_, ?_⟩
      · rw [Nat.cast_one, one_pow, mul_one, ← Int.cast_natCast, ← hx0]
      · rw [Nat.cast_one, one_pow, mul_one, ← Int.cast_natCast, ← hy0]
    have hZ := (ZMod.isUnit_iff_coprime _ _).mpr hgcd
    rw [ECPoint.mul, if_neg hscalar]
    exact (JacobianPoint.represents_foldl hp' hx0 hy0 hQ _ (fun _ => hstart) hZ).eq_toAffine hp' hZ
  · rfl

end ECCrypto

end BlockchainCrypto
