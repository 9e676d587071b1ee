import BlockchainCrypto.Text.Bytes
import Mathlib.Algebra.Order.Ring.Int
import Mathlib.Algebra.Ring.Divisibility.Basic
import Mathlib.Tactic.Ring

/-!
# Points of secp256k1

The affine point arithmetic of `ECCrypto.cpp` over exact integers: the modular inverse of
`bigint.h`, doubling, addition, and the double-and-add loop over the binary digits of a scalar.
Division and remainder of the source round towards minus infinity; every divisor below is
positive, where this is Lean's `/` and `%` on integers.

## Main definitions

* `inverse`: the extended Euclidean loop.
* `ECCrypto.ECPoint`, with `doubledPoint`, `add` and `mul`.
* `ECCrypto.G`, `ECCrypto.secp256k1`: the base point and the curve constants.

## Main results

* `dvd_inverse_mul_sub_one`: the loop inverts every number that is coprime to the modulus.
-/

namespace BlockchainCrypto

open ByteText

/-- The `while` loop of `inverse`. The fuel bounds the number of rounds by the modulus, which
strictly decreases. -/
def inverseLoop : ℕ → ℤ → ℤ → ℤ → ℤ → ℤ
  | 0, _, _, _, y => y
  | fuel + 1, tempMod, tempA, yPrev, y =>
    if tempA > 1 then inverseLoop fuel tempA (tempMod % tempA) y (yPrev - tempMod / tempA * y)
    else y

/-- The modular inverse by the extended Euclidean algorithm. -/
def inverse (a mod : ℤ) : ℤ := inverseLoop mod.natAbs mod (a % mod) 0 1 % mod

/-- The binary digits of an integer, most significant first, as `BigInt::to_binary_string` prints
them. -/
def toBinaryString (n : ℤ) : Bytes :=
  (if n < 0 then [45] else []) ++ (Nat.toDigits 2 n.natAbs).map charByte

/-! ### Correctness of the inverse -/

/-- A round of Euclid's algorithm keeps both coefficients congruent to their remainders. -/
private theorem dvd_inverseLoop_sub_one {a mod : ℤ} (fuel : ℕ) (tempMod tempA yPrev y : ℤ)
    (hfuel : tempMod ≤ fuel) (hmod : 1 < tempMod) (hnonneg : 0 ≤ tempA) (hlt : tempA < tempMod)
    (hcop : Int.gcd tempMod tempA = 1) (hprev : mod ∣ yPrev * a - tempMod)
    (hy : mod ∣ y * a - tempA) :
    mod ∣ inverseLoop fuel tempMod tempA yPrev y * a - 1 := by
  induction fuel generalizing tempMod tempA yPrev y with
  | zero => omega
  | succ fuel ih =>
    rw [inverseLoop]
    split_ifs with h
    · have hpos : 0 < tempA := by omega
      have hstep : (yPrev - tempMod / tempA * y) * a - tempMod % tempA =
          yPrev * a - tempMod - tempMod / tempA * (y * a - tempA) := by
        rw [Int.emod_def]
        ring
      refine ih _ _ _ _ (by omega) h (Int.emod_nonneg _ hpos.ne') (Int.emod_lt_of_pos _ hpos)
        ?_ hy ?_
      · rw [Int.gcd_comm, Int.gcd_emod]
        exact hcop
      · rw [hstep]
        exact dvd_sub hprev (hy.mul_left _)
    · have hone : tempA = 1 := by
        rcases (by omega : tempA = 0 ∨ tempA = 1) with rfl | h1
        · rw [Int.gcd_zero_right] at hcop
          omega
        · exact h1
      rwa [hone] at hy

/-- The loop inverts every number that is coprime to the modulus. -/
theorem dvd_inverse_mul_sub_one {a mod : ℤ} (hmod : 1 < mod) (hcop : Int.gcd mod a = 1) :
    mod ∣ inverse a mod * a - 1 := by
  have hloop : mod ∣ inverseLoop mod.natAbs mod (a % mod) 0 1 * a - 1 := by
    refine dvd_inverseLoop_sub_one _ _ _ _ _ (by omega) hmod (Int.emod_nonneg a (by omega))
      (Int.emod_lt_of_pos a (by omega)) ?_ ?_ ?_
    · rw [Int.gcd_comm, Int.gcd_emod, Int.gcd_comm]
      exact hcop
    · rw [zero_mul, zero_sub]
      exact Int.dvd_neg.mpr (dvd_refl mod)
    · rw [one_mul]
      exact Int.dvd_self_sub_emod
  have hsplit : inverse a mod * a - 1 =
      inverseLoop mod.natAbs mod (a % mod) 0 1 * a - 1 -
        mod * (inverseLoop mod.natAbs mod (a % mod) 0 1 / mod * a) := by
    rw [inverse, Int.emod_def]
    ring
  rw [hsplit]
  exact dvd_sub hloop (dvd_mul_right _ _)

namespace ECCrypto

namespace secp256k1

/-- The prime of the field. -/
def P : ℤ := 115792089237316195423570985008687907853269984665640564039457584007908834671663

/-- The coefficient of `x`. -/
def A : ℤ := 0

/-- The constant term. -/
def B : ℤ := 7

/-- The abscissa of the base point. -/
def GX : ℤ := 55066263022277343669578718895168534326250603453777594175500187360389116729240

/-- The ordinate of the base point. -/
def GY : ℤ := 32670510020758816978083085130507043184471273380659243275938904335757337482424

/-- The order of the base point. -/
def N : ℤ := 115792089237316195423570985008687907852837564279074904382605163141518161494337

end secp256k1

/-- An affine point, with the parameters of its curve. -/
structure ECPoint where
  x : ℤ
  y : ℤ
  p : ℤ
  a : ℤ
  b : ℤ
  isInfinity : Bool := false
  deriving DecidableEq

/-- The base point. -/
def G : ECPoint := ⟨secp256k1.GX, secp256k1.GY, secp256k1.P, secp256k1.A, secp256k1.B, false⟩

namespace ECPoint

/-- Infinity, with the parameters of a point. -/
def pointAtInfinity (Q : ECPoint) : ECPoint := ⟨0, 0, Q.p, Q.a, Q.b, true⟩

/-- The double of a point by its tangent. -/
def doubledPoint (Q : ECPoint) : ECPoint :=
  if Q.y = 0 then Q.pointAtInfinity
  else
    let slope := ((Q.x * Q.x * 3 + Q.a) * inverse (Q.y * 2) Q.p) % Q.p
    let newX := (slope * slope - Q.x * 2) % Q.p
    let newY := (slope * (Q.x - newX) - Q.y) % Q.p
    ⟨newX, newY, Q.p, Q.a, Q.b, false⟩

/-- `operator+`. -/
def add (Q R : ECPoint) : ECPoint :=
  if Q.isInfinity && R.isInfinity then Q.pointAtInfinity
  else if !Q.isInfinity && R.isInfinity then Q
  else if Q.isInfinity && !R.isInfinity then R
  else if Q.x = R.x ∧ Q.y = R.y then Q.doubledPoint
  else if Q.x = R.x ∧ Q.y ≠ R.y then Q.pointAtInfinity
  else
    let slope := ((R.y - Q.y) * inverse (R.x - Q.x) Q.p) % Q.p
    let newX := (slope * slope - Q.x - R.x) % Q.p
    let newY := (slope * (Q.x - newX) - Q.y) % Q.p
    ⟨newX, newY, Q.p, Q.a, Q.b, false⟩

/-- One binary digit of the loop of `operator*`: double, and add the base for a `1`. -/
def mulStep (Q current : ECPoint) (digit : UInt8) : ECPoint :=
  let doubled := current.doubledPoint
  if digit = 49 then doubled.add Q else doubled

/-- `operator*`: the digits below the leading `1` are processed from the most significant one. -/
def mul (Q : ECPoint) (scalar : ℤ) : ECPoint :=
  if scalar = 0 then Q.pointAtInfinity
  else (((toBinaryString scalar).dropWhile (· ≠ 49)).drop 1).foldl (mulStep Q) Q

end ECPoint

end ECCrypto

end BlockchainCrypto
