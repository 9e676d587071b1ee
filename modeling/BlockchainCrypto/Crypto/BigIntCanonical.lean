import BlockchainCrypto.Crypto.BigIntInverse
import BlockchainCrypto.Crypto.BigIntText

/-!
# The canonical limbs of an integer

Every integer has one canonical form. On canonical forms the operations of `bigint.h` are those of
the integers; stated as equations, they carry a computation on limbs over to the integers by
rewriting.

## Main definitions

* `BigInt.ofInt`: the canonical limbs of an integer.
* `BigInt.toCInt`: `to_int`.

## Main results

* `BigInt.Canonical.eq_ofInt`: a canonical number is the form of its value.
* `BigInt.add_ofInt` and its like for the other operations.
-/

namespace BlockchainCrypto

open ByteText

namespace BigInt

/-- The canonical limbs of an integer. -/
def ofInt (z : ℤ) : BigInt :=
  ⟨(Nat.digits (2 ^ 64) z.natAbs).map UInt64.ofNat, decide (z < 0)⟩

/-- `to_int`. -/
def toCInt (x : BigInt) : Checked Int32 :=
  if x.limbs.length > 1 then .error .outOfRange
  else
    let v := if x.isZero then 0 else x.limbs.headD 0
    if v > 2147483647 + (if x.negative then 1 else 0) then .error .outOfRange
    else if x.negative then pure (Int32.ofInt (-v.toNat)) else pure (Int32.ofInt v.toNat)

/-! ### The form of an integer -/

theorem magnitude_map_digits (n : ℕ) :
    magnitude ((Nat.digits (2 ^ 64) n).map UInt64.ofNat) = n := by
  have hdigits : ((Nat.digits (2 ^ 64) n).map UInt64.ofNat).map UInt64.toNat =
      Nat.digits (2 ^ 64) n := by
    rw [List.map_map]
    refine (List.map_congr_left fun d hd => ?_).trans (List.map_id _)
    rw [Function.comp_apply, UInt64.toNat_ofNat']
    exact Nat.mod_eq_of_lt (Nat.digits_lt_base (by decide) hd)
  rw [magnitude, hdigits, Nat.ofDigits_digits]

theorem canonical_ofInt (z : ℤ) : (ofInt z).Canonical where
  trimmed hne := by
    have hzero : z.natAbs ≠ 0 := by
      intro h
      exact hne (by rw [ofInt, h]; simp)
    have hlast := Nat.getLast_digit_ne_zero (2 ^ 64) hzero
    have hlt := Nat.digits_lt_base (b := 2 ^ 64) (by decide)
      (List.getLast_mem (Nat.digits_ne_nil_iff_ne_zero.mpr hzero))
    intro h
    have hmap : (ofInt z).limbs.getLast hne = UInt64.ofNat _ := List.getLast_map hne
    rw [hmap] at h
    have hnat := congrArg UInt64.toNat h
    rw [UInt64.toNat_ofNat', Nat.mod_eq_of_lt hlt] at hnat
    exact hlast hnat
  sign hnil := by
    have hzero : z.natAbs = 0 := by
      rw [ofInt, List.map_eq_nil_iff] at hnil
      exact Nat.digits_eq_nil_iff_eq_zero.mp hnil
    exact decide_eq_false (by omega)

@[simp]
theorem toInt_ofInt (z : ℤ) : (ofInt z).toInt = z := by
  rw [toInt, ofInt, magnitude_map_digits]
  dsimp only
  simp only [decide_eq_true_eq]
  split_ifs with hneg <;> omega

theorem Canonical.eq_ofInt {x : BigInt} (hx : x.Canonical) {z : ℤ} (h : x.toInt = z) :
    x = ofInt z := hx.ext (canonical_ofInt z) (h.trans (toInt_ofInt z).symm)

/-! ### The operations -/

section Operations

variable (x y : ℤ)

@[simp]
theorem add_ofInt : (ofInt x).add (ofInt y) = .ok (ofInt (x + y)) := by
  obtain ⟨c, hc, hcanonical, hvalue⟩ := add_spec (canonical_ofInt x) (canonical_ofInt y)
  rw [hc, hcanonical.eq_ofInt hvalue, toInt_ofInt, toInt_ofInt]

@[simp]
theorem sub_ofInt : (ofInt x).sub (ofInt y) = .ok (ofInt (x - y)) := by
  obtain ⟨c, hc, hcanonical, hvalue⟩ := sub_spec (canonical_ofInt x) (canonical_ofInt y)
  rw [hc, hcanonical.eq_ofInt hvalue, toInt_ofInt, toInt_ofInt]

@[simp]
theorem mul_ofInt : (ofInt x).mul (ofInt y) = .ok (ofInt (x * y)) := by
  obtain ⟨c, hc, hcanonical, hvalue⟩ := mul_spec (ofInt x) (ofInt y)
  rw [hc, hcanonical.eq_ofInt hvalue, toInt_ofInt, toInt_ofInt]

variable {y}

theorem div_ofInt (hy : 0 < y) : (ofInt x).div (ofInt y) = .ok (ofInt (x / y)) := by
  obtain ⟨q, -, hq, -, hcanonical, -, hvalue, -⟩ :=
    div_mod_of_pos (canonical_ofInt x) (canonical_ofInt y) ((toInt_ofInt y).symm ▸ hy)
  rw [hq, hcanonical.eq_ofInt hvalue, toInt_ofInt, toInt_ofInt]

theorem mod_ofInt (hy : 0 < y) : (ofInt x).mod (ofInt y) = .ok (ofInt (x % y)) := by
  obtain ⟨-, r, -, hr, -, hcanonical, -, hvalue⟩ :=
    div_mod_of_pos (canonical_ofInt x) (canonical_ofInt y) ((toInt_ofInt y).symm ▸ hy)
  rw [hr, hcanonical.eq_ofInt hvalue, toInt_ofInt, toInt_ofInt]

theorem inverse_ofInt (hy : 1 < y) {rounds : ℕ} (hrounds : y.natAbs ≤ rounds) :
    inverse rounds (ofInt x) (ofInt y) = .ok (some (ofInt (BlockchainCrypto.inverse x y))) := by
  obtain ⟨r, hr, hcanonical, -, -, hvalue⟩ :=
    inverse_of_le (canonical_ofInt x) (canonical_ofInt y) ((toInt_ofInt y).symm ▸ hy)
  rw [hr rounds ((toInt_ofInt y).symm ▸ hrounds), hcanonical.eq_ofInt hvalue, toInt_ofInt,
    toInt_ofInt]

variable (y)

theorem compare_ofInt : (ofInt x).compare (ofInt y) = compare x y := by
  rw [compare_eq (canonical_ofInt x) (canonical_ofInt y), toInt_ofInt, toInt_ofInt]

@[simp]
theorem eq_ofInt_iff : (ofInt x).eq (ofInt y) = true ↔ x = y := by
  rw [BigInt.eq, compare_ofInt, beq_iff_eq, Int.compare_eq_eq]

@[simp]
theorem ne_ofInt_iff : (ofInt x).ne (ofInt y) = true ↔ x ≠ y := by
  rw [BigInt.ne, compare_ofInt, bne_iff_ne, ne_eq, Int.compare_eq_eq]

@[simp]
theorem lt_ofInt_iff : (ofInt x).lt (ofInt y) = true ↔ x < y := by
  rw [BigInt.lt, compare_ofInt, beq_iff_eq, Int.compare_eq_lt]

@[simp]
theorem gt_ofInt_iff : (ofInt x).gt (ofInt y) = true ↔ y < x := by
  rw [BigInt.gt, compare_ofInt, beq_iff_eq, Int.compare_eq_gt]

@[simp]
theorem le_ofInt_iff : (ofInt x).le (ofInt y) = true ↔ x ≤ y := by
  rw [BigInt.le, compare_ofInt, bne_iff_ne, Int.compare_ne_gt]

@[simp]
theorem ge_ofInt_iff : (ofInt x).ge (ofInt y) = true ↔ y ≤ x := by
  rw [BigInt.ge, compare_ofInt, bne_iff_ne, Int.compare_ne_lt]

@[simp]
theorem toBinaryString_ofInt : (ofInt x).toBinaryString = BlockchainCrypto.toBinaryString x := by
  rw [toBinaryString_eq (canonical_ofInt x), toInt_ofInt]

end Operations

/-! ### Conversions -/

/-- The magnitude that the constructor computes without overflow. -/
theorem toNat_magnitude (num : Int64) :
    (if num < 0 then 0 - num.toUInt64 else num.toUInt64).toNat = num.toInt.natAbs := by
  have hlt := num.toUInt64.toNat_lt
  have hvalue : num.toInt = if 2 * num.toUInt64.toNat < 2 ^ 64 then (num.toUInt64.toNat : ℤ)
      else num.toUInt64.toNat - (2 ^ 64 : ℕ) := BitVec.toInt_eq_toNat_cond num.toUInt64.toBitVec
  have hneg : num < 0 ↔ num.toInt < 0 := Int64.lt_iff_toInt_lt
  split_ifs with h
  · rw [hneg] at h
    rw [UInt64.toNat_sub, UInt64.toNat_zero]
    split_ifs at hvalue <;> omega
  · rw [hneg] at h
    split_ifs at hvalue <;> omega

/-- The form of a number of 64 bits. -/
theorem ofLongLong_eq (num : Int64) : ofLongLong num = ofInt num.toInt := by
  have hneg : num < 0 ↔ num.toInt < 0 := Int64.lt_iff_toInt_lt
  have hvalue := toNat_magnitude num
  have hform : ofLongLong num = ⟨if (if num < 0 then 0 - num.toUInt64 else num.toUInt64) ≠ 0 then
      [if num < 0 then 0 - num.toUInt64 else num.toUInt64] else [], decide (num < 0)⟩ := by
    rw [ofLongLong]
    simp only [decide_eq_true_eq]
  rw [hform]
  generalize (if num < 0 then 0 - num.toUInt64 else num.toUInt64) = limb at hvalue
  by_cases hlimb : limb = 0
  · rw [hlimb] at hvalue
    have hzero : num.toInt = 0 := Int.natAbs_eq_zero.mp hvalue.symm
    have hsign : ¬num < 0 := by rw [hneg, hzero]; exact lt_irrefl 0
    rw [if_neg (not_not.mpr hlimb), decide_eq_false hsign]
    exact canonical_zero.eq_ofInt hzero.symm
  · rw [if_pos hlimb]
    have hcanonical : Canonical ⟨[limb], decide (num < 0)⟩ := ⟨fun _ => hlimb, fun hnil => by
      cases hnil⟩
    refine hcanonical.eq_ofInt ?_
    have hmagnitude : magnitude [limb] = limb.toNat := by simp [magnitude]
    rw [toInt, hmagnitude, hvalue]
    simp only [decide_eq_true_eq, hneg]
    split_ifs <;> omega

theorem eq_zero_iff (x : ℤ) : (ofInt x).eq (ofLongLong 0) = true ↔ x = 0 := by
  rw [ofLongLong_eq]
  exact eq_ofInt_iff _ _

theorem gt_zero_iff (x : ℤ) : (ofInt x).gt (ofLongLong 0) = true ↔ 0 < x := by
  rw [ofLongLong_eq]
  exact gt_ofInt_iff _ _

theorem mod_ofLongLong (x : ℤ) {num : Int64} (hnum : 0 < num.toInt) :
    (ofInt x).mod (ofLongLong num) = .ok (ofInt (x % num.toInt)) := by
  rw [ofLongLong_eq, mod_ofInt x hnum]

/-- A numeral is read as the form of its value. -/
theorem ofString_eq {base : ℕ} (hlow : 2 ≤ base) (hhigh : base ≤ 36) {num : Bytes} {z : ℤ}
    (hz : IsNumeral base num z) : ofString num base = .ok (ofInt z) := by
  rcases ofString_spec hlow hhigh num with ⟨x, hx, hcanonical, hvalue⟩ | ⟨hno, -⟩
  · rw [hx, hcanonical.eq_ofInt (hvalue.unique hhigh hz)]
  · exact absurd ⟨z, hz⟩ hno

/-- Small numbers are converted exactly. -/
theorem toCInt_ofInt {z : ℤ} (hlow : 0 ≤ z) (hhigh : z < 2 ^ 31) :
    (ofInt z).toCInt = .ok (Int32.ofInt z) := by
  have hnegative : decide (z < 0) = false := decide_eq_false (not_lt.mpr hlow)
  rcases hlow.eq_or_lt with rfl | hpos
  · rfl
  have hlimbs : (ofInt z).limbs = [UInt64.ofNat z.natAbs] := by
    have hdigits := Nat.digits_of_lt (2 ^ 64) z.natAbs (by omega) (by omega)
    rw [ofInt, hdigits]
    rfl
  have hlimb : (UInt64.ofNat z.natAbs).toNat = z.natAbs := by
    rw [UInt64.toNat_ofNat']
    exact Nat.mod_eq_of_lt (by omega)
  have hle : ¬UInt64.ofNat z.natAbs > 2147483647 := by
    rw [gt_iff_lt, UInt64.lt_iff_toNat_lt, hlimb, not_lt]
    exact (by omega : z.natAbs ≤ 2147483647)
  have hsign : (ofInt z).negative = false := hnegative
  rw [toCInt, isZero, hlimbs, hsign]
  simp only [List.length_singleton, List.isEmpty_cons, List.headD_cons, gt_iff_lt,
    lt_irrefl, Bool.false_eq_true, ↓reduceIte, hlimb, Checked.pure_eq]
  rw [UInt64.add_zero, if_neg hle, Int.natAbs_of_nonneg hlow]

end BigInt

end BlockchainCrypto
