import Mathlib.Data.Nat.Digits.Defs
import Mathlib.Tactic.Linarith
import Mathlib.Tactic.Ring

/-!
# Long division in a radix

A dividend is divided digit by digit from the top: the remainder so far and the next digit make a
window, and the quotient of the window is the next digit of the quotient. The quotient of the
window is found from its leading digits alone. They bound it from above, and they exceed it by at
most one when the leading digits of the divisor are large enough.

## Main definitions

* `Radix.Leads`: the leading digits of a number.
* `Radix.Trial`: a trial digit with its remainder.

## Main results

* `Radix.bring_down_div`, `Radix.bring_down_mod`: one step of the division.
* `Radix.Leads.div_mul_le`: leading digits never give too little.
* `Radix.Leads.le_div_add_one`: they give at most one too much.
* `Radix.Trial.lt_of_exit`: a trial digit is below the base once its remainder has left it.
* `Radix.sub_cases`: what is left after the subtraction.
-/

namespace Radix

variable {B R u v U V q r a d : ℕ}

/-! ### Bringing down a digit -/

theorem bring_down_eq (B a d v : ℕ) : d + B * a = d + B * (a % v) + v * (B * (a / v)) := by
  conv_lhs => rw [← Nat.mod_add_div a v]
  ring

/-- The quotient of the dividend so far, extended by the quotient of the window. -/
theorem bring_down_div (B a d : ℕ) (hv : 0 < v) :
    (d + B * a) / v = (d + B * (a % v)) / v + B * (a / v) := by
  rw [bring_down_eq B a d v, Nat.add_mul_div_left _ _ hv]

/-- The remainder of the window. -/
theorem bring_down_mod (B a d v : ℕ) : (d + B * a) % v = (d + B * (a % v)) % v := by
  rw [bring_down_eq B a d v, Nat.add_mul_mod_self_left]

/-- A remainder with one more digit is below the divisor with one more place. -/
theorem window_lt (hd : d < B) (hr : r < v) : d + B * r < B * v := by
  calc d + B * r < B + B * r := by omega
    _ = B * (r + 1) := by ring
    _ ≤ B * v := Nat.mul_le_mul_left B hr

/-- The quotient of a window is a digit. -/
theorem window_div_lt (hd : d < B) (hr : r < v) : (d + B * r) / v < B :=
  Nat.div_lt_of_lt_mul (mul_comm v B ▸ window_lt hd hr)

/-! ### Leading digits -/

/-- The number `U` is made of the leading digits of `u`, the last of them with weight `R`. -/
structure Leads (R U u : ℕ) : Prop where
  le : R * U ≤ u
  lt : u < R * (U + 1)

theorem leads_of_eq {low : ℕ} (h : u = low + R * U) (hlow : low < R) : Leads R U u where
  le := h ▸ Nat.le_add_left _ low
  lt := by
    rw [h, Nat.mul_succ]
    omega

/-- The quotient fits the leading digits. -/
theorem Leads.div_mul_le (hu : Leads R U u) (hv : Leads R V v) : u / v * V ≤ U := by
  have h : R * (u / v * V) < R * (U + 1) :=
    calc R * (u / v * V) = u / v * (R * V) := by ring
      _ ≤ u / v * v := Nat.mul_le_mul_left _ hv.le
      _ ≤ u := Nat.div_mul_le_self u v
      _ < R * (U + 1) := hu.lt
  exact Nat.lt_succ_iff.mp (Nat.lt_of_mul_lt_mul_left h)

/-- A digit that fits the leading digits is at most one more than the quotient, if it is not much
larger than the leading digits of the divisor. -/
theorem Leads.le_div_add_one (hu : Leads R U u) (hv : Leads R V v) (hv0 : 0 < v)
    (hq : q * V ≤ U) (hqV : q ≤ V + 1) : q ≤ u / v + 1 := by
  obtain _ | p := q
  · exact Nat.zero_le _
  have hp : p * v ≤ u :=
    calc p * v ≤ p * (R * (V + 1)) := Nat.mul_le_mul_left _ hv.lt.le
      _ = R * (p * V + p) := by ring
      _ ≤ R * ((p + 1) * V) := Nat.mul_le_mul_left _ (by rw [Nat.succ_mul]; omega)
      _ ≤ R * U := Nat.mul_le_mul_left _ hq
      _ ≤ u := hu.le
  exact Nat.succ_le_succ ((Nat.le_div_iff_mul_le hv0).mpr hp)

/-- When the quotient is a digit, the digits in front of the dividend are at most those in front of
the divisor. -/
theorem Leads.le_of_lt (hu : Leads (B * R) U u) (hv : Leads R V v) (h : u < B * v) : U ≤ V := by
  have hmul : B * R * U < B * R * (V + 1) :=
    calc B * R * U ≤ u := hu.le
      _ < B * v := h
      _ ≤ B * (R * (V + 1)) := Nat.mul_le_mul_left _ hv.lt.le
      _ = B * R * (V + 1) := by ring
  exact Nat.lt_succ_iff.mp (Nat.lt_of_mul_lt_mul_left hmul)

/-! ### Trial digits -/

/-- A trial digit `q` for the leading digit `v₁` of the divisor and the leading digits `U` of the
window, with its remainder. -/
structure Trial (v₁ U q r : ℕ) : Prop where
  eq : q * v₁ + r = U

/-- A trial digit that is one less leaves one more divisor. -/
theorem Trial.pred {v₁ : ℕ} (h : Trial v₁ U (q + 1) r) : Trial v₁ U q (r + v₁) :=
  ⟨by rw [← h.eq]; ring⟩

/-- Once the remainder has left the base, the trial digit is below the base. -/
theorem Trial.lt_of_exit {v₁ u₂ u₁ : ℕ} (h : Trial v₁ (u₁ + B * u₂) q r) (hu₁ : u₁ < B)
    (hu₂ : u₂ ≤ v₁) (hr : B ≤ r) : q < B := by
  by_contra hq
  have hmul : B * u₂ ≤ q * v₁ := Nat.mul_le_mul (not_lt.mp hq) hu₂
  have heq := h.eq
  omega

/-- The test on the second digit of the divisor compares the trial digit with two leading digits of
the divisor and one more of the window. -/
theorem Trial.mul_le_iff {v₁ v₂ u₀ : ℕ} (h : Trial v₁ U q r) :
    q * (v₂ + B * v₁) ≤ u₀ + B * U ↔ q * v₂ ≤ u₀ + B * r := by
  have hleft : q * (v₂ + B * v₁) = q * v₂ + B * (q * v₁) := by ring
  have hright : u₀ + B * U = u₀ + B * r + B * (q * v₁) := by rw [← h.eq]; ring
  rw [hleft, hright, Nat.add_le_add_iff_right]

/-! ### Subtracting too much -/

/-- A number determines its digits. -/
theorem digits_inj {x y : ℕ} (ha : a < R) (hd : d < R) (h : a + R * x = d + R * y) :
    a = d ∧ x = y := by
  have hlow := congrArg (· % R) h
  simp only [Nat.add_mul_mod_self_left, Nat.mod_eq_of_lt ha, Nat.mod_eq_of_lt hd] at hlow
  refine ⟨hlow, Nat.eq_of_mul_eq_mul_left (Nat.zero_lt_of_lt ha) ?_⟩
  omega

/-- When a multiple of the divisor is subtracted modulo `M` from a window, with `t` as the number of
times that `M` was borrowed, what is left is the remainder, or one divisor less than it. -/
theorem sub_cases {M w t : ℕ} (hv0 : 0 < v) (hv : v < M) (hw : w < M) (hlow : u / v ≤ q)
    (hhigh : q ≤ u / v + 1) (h : u + M * t = w + q * v) :
    (q = u / v ∧ t = 0 ∧ w = u % v) ∨ (q = u / v + 1 ∧ t = 1 ∧ w + v = u % v + M) := by
  have hdiv := Nat.div_add_mod' u v
  have hmod := Nat.mod_lt u hv0
  obtain hq | hq : q = u / v ∨ q = u / v + 1 := by omega
  · have hsum : M * t = w - u % v := by rw [hq] at h; omega
    obtain rfl : t = 0 := by
      by_contra ht
      have := Nat.le_mul_of_pos_right M (Nat.pos_of_ne_zero ht)
      omega
    exact .inl ⟨hq, rfl, by rw [hq] at h; omega⟩
  · have hsum : u % v + M * t = w + v := by rw [hq, Nat.succ_mul] at h; omega
    obtain rfl : t = 1 := by
      obtain _ | _ | t := t
      · omega
      · rfl
      · rw [show M * (t + 1 + 1) = M * t + M + M by ring] at hsum
        omega
    exact .inr ⟨hq, rfl, by omega⟩

end Radix
