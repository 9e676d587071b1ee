import Mathlib.Data.Nat.Size
import Mathlib.Algebra.Order.Ring.Int
import Mathlib.Algebra.GroupWithZero.Basic

/-!
# Rounding an integer to a fixed number of significant bits

A binary floating-point format with a `p`-bit significand holds the integers that are a multiple
of the spacing at their magnitude. Conversion rounds to the nearest such integer, ties going to
the even significand. Exponent range is not modelled: every integer rounded here is far inside it.

## Main definitions

* `Significand.spacing p n`: the distance of neighbouring representable integers at magnitude `n`.
* `Significand.round p n`, `Significand.roundInt p z`: nearest representable integer.

## Main results

* `Significand.roundInt_eq_self_iff`: the integers that rounding leaves alone.
* `Significand.roundInt_eq_self_of_natAbs_lt`: integers of at most `p` bits are exact.
* `Significand.eq_of_bmod_roundInt_eq`: an inexact rounding is not undone by a register.
-/

namespace Significand

/-- The spacing of the representable integers at magnitude `n`. -/
def spacing (p n : ℕ) : ℕ := 2 ^ (Nat.size n - p)

/-- The representable integer nearest to `n`, the one with an even significand in a tie. -/
def round (p n : ℕ) : ℕ :=
  let u := spacing p n
  let q := n / u
  let r := n % u
  if 2 * r < u ∨ 2 * r = u ∧ q % 2 = 0 then q * u else (q + 1) * u

/-- Rounding of a signed integer: the sign is kept. -/
def roundInt (p : ℕ) (z : ℤ) : ℤ := z.sign * round p z.natAbs

theorem spacing_pos (p n : ℕ) : 0 < spacing p n := Nat.two_pow_pos _

theorem spacing_dvd_round (p n : ℕ) : spacing p n ∣ round p n := by
  unfold round
  dsimp only
  split
  · exact Nat.dvd_mul_left _ _
  · exact Nat.dvd_mul_left _ _

/-- Rounding leaves exactly the multiples of the spacing alone. -/
theorem round_eq_self_iff (p n : ℕ) : round p n = n ↔ spacing p n ∣ n := by
  refine ⟨fun h => ?_, fun h => ?_⟩
  · have hdvd := spacing_dvd_round p n
    rwa [h] at hdvd
  · have hr : n % spacing p n = 0 := Nat.mod_eq_zero_of_dvd h
    simp [round, hr, spacing_pos, Nat.div_mul_cancel h]

theorem roundInt_eq_self_iff (p : ℕ) (z : ℤ) :
    roundInt p z = z ↔ spacing p z.natAbs ∣ z.natAbs := by
  rw [← round_eq_self_iff, roundInt]
  rcases eq_or_ne z 0 with rfl | hz
  · simp [round, spacing]
  · have hsign : z.sign ≠ 0 := mt Int.sign_eq_zero_iff_zero.mp hz
    conv_lhs => rhs; rw [← Int.sign_mul_natAbs z]
    rw [mul_right_inj' hsign, Nat.cast_inj]

/-- Integers of at most `p` bits are exact. -/
theorem roundInt_eq_self_of_natAbs_lt {p : ℕ} {z : ℤ} (hz : z.natAbs < 2 ^ p) :
    roundInt p z = z := by
  have hsize : Nat.size z.natAbs - p = 0 := Nat.sub_eq_zero_of_le (Nat.size_le.mpr hz)
  rw [roundInt_eq_self_iff, spacing, hsize, Nat.pow_zero]
  exact Nat.one_dvd _

theorem spacing_le {p n : ℕ} (hp : 0 < p) (hn : 0 < n) : spacing p n ≤ n := by
  have hsize : 0 < Nat.size n := Nat.size_pos.mpr hn
  have hpow : 2 ^ (Nat.size n - 1) ≤ n := Nat.lt_size.mp (by omega)
  exact (Nat.pow_le_pow_right (by decide) (by omega)).trans hpow

/-- Rounding moves an integer by at most its magnitude. -/
theorem round_le_two_mul {p : ℕ} (hp : 0 < p) (n : ℕ) : round p n ≤ 2 * n := by
  rcases Nat.eq_zero_or_pos n with rfl | hn
  · simp [round, spacing]
  · have hspacing := spacing_le hp hn
    have hdiv : n / spacing p n * spacing p n ≤ n := Nat.div_mul_le_self _ _
    unfold round
    dsimp only
    split_ifs
    · omega
    · rw [Nat.add_mul]
      omega

/-- Rounding is read back exactly from a two's complement register of `2 ^ w` values, `w` being
large enough for the integer and its sign, only where it changes nothing. -/
theorem eq_of_bmod_roundInt_eq {p w : ℕ} (hp : 0 < p) {z : ℤ} (hz : z.natAbs < 2 ^ w)
    (h : (roundInt p z).bmod (2 ^ w) = z) : roundInt p z = z := by
  have hround := round_le_two_mul hp z.natAbs
  have hdvd : ((2 ^ w : ℕ) : ℤ) ∣ roundInt p z - z := by
    nth_rewrite 2 [← h]
    exact Int.dvd_self_sub_bmod
  have hlt : (roundInt p z - z).natAbs < 2 ^ w := by
    rw [roundInt]
    rcases lt_trichotomy z 0 with hneg | rfl | hpos
    · rw [Int.sign_eq_neg_one_of_neg hneg]
      omega
    · simp only [Int.sign_zero, zero_mul, sub_self, Int.natAbs_zero]
      exact Nat.two_pow_pos w
    · rw [Int.sign_eq_one_of_pos hpos]
      omega
  have hzero := Int.eq_zero_of_dvd_of_natAbs_lt_natAbs hdvd (by simpa using hlt)
  omega

example : roundInt 53 (2 ^ 53 + 1) = 2 ^ 53 := by decide +kernel

end Significand
