import BlockchainCrypto.Crypto.BigInt

/-!
# The ring of the integers of 64-bit limbs

The schoolbook product of `bigint.h` and its signed comparison. The product is accumulated row by
row in a vector that is as long as both factors together; every access to it is checked.

## Main definitions

* `BigInt.mulRow`, `BigInt.ripple`: one row of the product and the carry that it leaves.
* `BigInt.mulMagnitude`, `BigInt.mul`.
* `BigInt.compare` and the comparison operators.

## Main results

* `BigInt.mulMagnitude_spec`: no overflow, no access outside the vector, and the value.
* `BigInt.compare_eq`: the order of the integers.
* `BigInt.faithful_ring`: the operations are those of the integers.
-/

namespace BlockchainCrypto

namespace BigInt

/-! ### The product of magnitudes -/

/-- `for (size_t k = i + b.size(); carry != 0; ++k)`, over the limbs from position `k` on. -/
def ripple (result : List UInt64) (carry : ℕ) : Checked (List UInt64) :=
  if carry ≠ 0 then
    match result with
    | [] => .error .outOfRange
    | r :: result => do
      let cur ← u128 (r.toNat + carry)
      let rest ← ripple result (cur >>> 64)
      pure (UInt64.ofNat cur :: rest)
  else pure result

/-- The row of the limb `x`, over the limbs of the result from the position of `x` on. -/
def mulRow (x : UInt64) : List UInt64 → List UInt64 → ℕ → Checked (List UInt64)
  | y :: ys, r :: result, carry => do
    let product ← u128 (x.toNat * y.toNat)
    let cur ← u128 (product + r.toNat)
    let cur ← u128 (cur + carry)
    let rest ← mulRow x ys result (cur >>> 64)
    pure (UInt64.ofNat cur :: rest)
  | _ :: _, [], _ => .error .outOfRange
  | [], result, carry => ripple result carry

/-- The rows from position `i` on. -/
def mulRows (b : List UInt64) : ℕ → List UInt64 → List UInt64 → Checked (List UInt64)
  | i, x :: xs, result => do
    let row ← mulRow x b (result.drop i) 0
    mulRows b (i + 1) xs (result.take i ++ row)
  | _, [], result => pure result

/-- The product of two magnitudes, row by row. -/
def mulMagnitude (a b : List UInt64) : Checked (List UInt64) :=
  if a.isEmpty || b.isEmpty then pure []
  else mulRows b 0 a (List.replicate (a.length + b.length) 0)

theorem ripple_spec {result : List UInt64} {carry : ℕ} (hcarry : carry < 2 ^ 64)
    (hfits : magnitude result + carry < (2 ^ 64) ^ result.length) :
    ∃ rest, ripple result carry = .ok rest ∧ rest.length = result.length ∧
      magnitude rest = magnitude result + carry := by
  induction result generalizing carry with
  | nil =>
    have hzero : carry = 0 := by simpa using hfits
    exact ⟨[], by rw [hzero]; rfl, rfl, by rw [hzero, magnitude_nil]⟩
  | cons r result ih =>
    by_cases hzero : carry = 0
    · exact ⟨r :: result, by rw [hzero]; rfl, rfl, by rw [hzero, Nat.add_zero]⟩
    have hr := r.toNat_lt
    rw [magnitude_cons, List.length_cons, pow_succ (2 ^ 64)] at hfits
    obtain ⟨rest, hrest, hlength, hvalue⟩ :=
      @ih ((r.toNat + carry) >>> 64) (by omega) (by omega)
    refine ⟨UInt64.ofNat (r.toNat + carry) :: rest, ?_, congrArg Nat.succ hlength, ?_⟩
    · rw [ripple, if_pos hzero]
      simp only [u128_eq (by omega : r.toNat + carry < 2 ^ 128), Checked.ok_bind, hrest,
        Checked.pure_eq]
    · rw [magnitude_cons, magnitude_cons, hvalue, UInt64.toNat_ofNat']
      omega

/-- One step of a row: the product of two limbs, a limb and a carry fit, and so does what is
carried over. -/
theorem mulStep_lt (x y r : UInt64) {carry : ℕ} (hcarry : carry < 2 ^ 64) :
    x.toNat * y.toNat + r.toNat + carry < 2 ^ 128 := by
  have hproduct : x.toNat * y.toNat ≤ (2 ^ 64 - 1) * (2 ^ 64 - 1) :=
    Nat.mul_le_mul (Nat.le_pred_of_lt x.toNat_lt) (Nat.le_pred_of_lt y.toNat_lt)
  have hr := r.toNat_lt
  omega

theorem mulRow_spec (x : UInt64) {b result : List UInt64} {carry : ℕ}
    (hlength : b.length ≤ result.length) (hcarry : carry < 2 ^ 64)
    (hfits : magnitude result + x.toNat * magnitude b + carry < (2 ^ 64) ^ result.length) :
    ∃ row, mulRow x b result carry = .ok row ∧ row.length = result.length ∧
      magnitude row = magnitude result + x.toNat * magnitude b + carry := by
  induction b generalizing result carry with
  | nil =>
    rw [magnitude_nil, Nat.mul_zero, Nat.add_zero] at hfits ⊢
    simpa only [mulRow] using ripple_spec hcarry hfits
  | cons y ys ih =>
    obtain _ | ⟨r, result⟩ := result
    · exact absurd hlength (by simp)
    have hlt := mulStep_lt x y r hcarry
    generalize hcur : x.toNat * y.toNat + r.toNat + carry = cur at hlt
    have hdistrib : x.toNat * magnitude (y :: ys) =
        x.toNat * y.toNat + 2 ^ 64 * (x.toNat * magnitude ys) := by
      rw [magnitude_cons]; ring
    rw [hdistrib, magnitude_cons, List.length_cons, pow_succ (2 ^ 64)] at hfits
    obtain ⟨row, hrow, hrest, hvalue⟩ :=
      @ih result (cur >>> 64) (Nat.le_of_succ_le_succ hlength) (by omega) (by omega)
    refine ⟨UInt64.ofNat cur :: row, ?_, congrArg Nat.succ hrest, ?_⟩
    · simp only [mulRow, u128_eq (by omega : x.toNat * y.toNat < 2 ^ 128), Checked.ok_bind,
        u128_eq (by omega : x.toNat * y.toNat + r.toNat < 2 ^ 128), hcur, u128_eq hlt, hrow,
        Checked.pure_eq]
    · rw [hdistrib, magnitude_cons, magnitude_cons, hvalue, UInt64.toNat_ofNat']
      omega

/-- A limb below a magnitude that is less than `p` and one multiple of a smaller magnitude. -/
theorem add_mul_lt {u v x p : ℕ} (hu : u < p) (hv : v ≤ p) (hx : x < 2 ^ 64) :
    u + x * v < p * 2 ^ 64 :=
  calc u + x * v < p + x * p := Nat.add_lt_add_of_lt_of_le hu (Nat.mul_le_mul_left x hv)
    _ = (x + 1) * p := by ring
    _ ≤ 2 ^ 64 * p := Nat.mul_le_mul_right p hx
    _ = p * 2 ^ 64 := mul_comm _ _

theorem mulRows_spec (b : List UInt64) {i : ℕ} {a result : List UInt64}
    (hlength : i + a.length + b.length = result.length)
    (hlow : magnitude result < (2 ^ 64) ^ (i + b.length)) :
    ∃ product, mulRows b i a result = .ok product ∧
      magnitude product = magnitude result + (2 ^ 64) ^ i * (magnitude a * magnitude b) := by
  induction a generalizing i result with
  | nil => exact ⟨result, rfl, by rw [magnitude_nil, Nat.zero_mul, Nat.mul_zero, Nat.add_zero]⟩
  | cons x xs ih =>
    rw [List.length_cons] at hlength
    have hi : i ≤ result.length := by omega
    have hsplit := magnitude_take_add_drop i result hi
    have hpos : 0 < (2 ^ 64) ^ i := Nat.pow_pos (Nat.two_pow_pos 64)
    -- Nothing is stored beyond the limbs that the next row starts from.
    have hdrop : magnitude (result.drop i) < (2 ^ 64) ^ b.length := by
      rw [pow_add, hsplit] at hlow
      exact Nat.lt_of_mul_lt_mul_left ((Nat.le_add_left _ _).trans_lt hlow)
    have hrow_lt : magnitude (result.drop i) + x.toNat * magnitude b <
        (2 ^ 64) ^ (b.length + 1) := by
      rw [pow_succ (2 ^ 64)]
      exact add_mul_lt hdrop (magnitude_lt b).le x.toNat_lt
    have hroom : (2 ^ 64) ^ (b.length + 1) ≤ (2 ^ 64) ^ (result.drop i).length :=
      Nat.pow_le_pow_right (Nat.two_pow_pos 64) (by rw [List.length_drop]; omega)
    obtain ⟨row, hrow, hrow_length, hvalue⟩ := @mulRow_spec x b (result.drop i) 0
      (by rw [List.length_drop]; omega) (by decide) (hrow_lt.trans_le hroom)
    rw [Nat.add_zero] at hvalue
    have hnext : magnitude (result.take i ++ row) =
        magnitude (result.take i) + (2 ^ 64) ^ i * magnitude row := by
      rw [magnitude_append, List.length_take_of_le hi]
    have hnext_lt : magnitude (result.take i ++ row) < (2 ^ 64) ^ (i + 1 + b.length) := by
      rw [hnext, hvalue, Nat.add_right_comm, Nat.add_assoc, pow_add]
      calc magnitude (result.take i) +
              (2 ^ 64) ^ i * (magnitude (result.drop i) + x.toNat * magnitude b)
          < (2 ^ 64) ^ i +
              (2 ^ 64) ^ i * (magnitude (result.drop i) + x.toNat * magnitude b) :=
            Nat.add_lt_add_right (magnitude_take_lt i result) _
        _ = (2 ^ 64) ^ i * (magnitude (result.drop i) + x.toNat * magnitude b + 1) := by ring
        _ ≤ (2 ^ 64) ^ i * (2 ^ 64) ^ (b.length + 1) := Nat.mul_le_mul_left _ hrow_lt
    obtain ⟨product, hproduct, hfinal⟩ := @ih (i + 1) (result.take i ++ row)
      (by rw [List.length_append, hrow_length, List.length_take_of_le hi, List.length_drop]; omega)
      hnext_lt
    refine ⟨product, ?_, ?_⟩
    · rw [mulRows, hrow, Checked.ok_bind, hproduct]
    · rw [hfinal, hnext, hvalue, hsplit, magnitude_cons, pow_succ (2 ^ 64)]
      ring

theorem magnitude_replicate_zero (n : ℕ) : magnitude (List.replicate n 0) = 0 := by
  induction n with
  | zero => rfl
  | succ n ih => rw [List.replicate_succ, magnitude_cons, ih]; rfl

/-- Magnitudes are multiplied without overflow and within the vector of the result. -/
theorem mulMagnitude_spec (a b : List UInt64) :
    ∃ product, mulMagnitude a b = .ok product ∧
      magnitude product = magnitude a * magnitude b := by
  unfold mulMagnitude
  split_ifs with hempty
  · rw [Bool.or_eq_true, List.isEmpty_iff, List.isEmpty_iff] at hempty
    refine ⟨[], rfl, ?_⟩
    rcases hempty with rfl | rfl
    · rw [magnitude_nil, Nat.zero_mul]
    · rw [magnitude_nil, Nat.mul_zero]
  · have hzero := magnitude_replicate_zero (a.length + b.length)
    obtain ⟨product, hproduct, hvalue⟩ :=
      @mulRows_spec b 0 a (List.replicate (a.length + b.length) 0)
        (by rw [List.length_replicate, Nat.zero_add])
        (by rw [hzero]; exact Nat.pow_pos (Nat.two_pow_pos 64))
    refine ⟨product, hproduct, ?_⟩
    rw [hvalue, hzero, pow_zero, Nat.zero_add, Nat.one_mul]

/-- `operator*`. -/
def mul (a b : BigInt) : Checked BigInt := do
  let limbs ← mulMagnitude a.limbs b.limbs
  pure (normalize ⟨limbs, a.negative != b.negative && !limbs.isEmpty⟩)

/-- Products are canonical and exact. -/
theorem mul_spec (a b : BigInt) :
    ∃ c, a.mul b = .ok c ∧ c.Canonical ∧ c.toInt = a.toInt * b.toInt := by
  obtain ⟨product, hproduct, hvalue⟩ := mulMagnitude_spec a.limbs b.limbs
  refine ⟨normalize ⟨product, a.negative != b.negative && !product.isEmpty⟩, ?_,
    canonical_normalize _, ?_⟩
  · rw [BigInt.mul, hproduct]
    rfl
  · rw [toInt_normalize, toInt_signed, toInt, toInt, hvalue]
    cases a.negative <;> cases b.negative <;> simp

/-! ### Comparison -/

/-- The sign decides first, and turns the order of the magnitudes of negative numbers. -/
protected def compare (a b : BigInt) : Ordering :=
  if a.negative ≠ b.negative then if a.negative then .lt else .gt
  else
    let mag := compareMagnitude a.limbs b.limbs
    if a.negative then mag.swap else mag

/-- `operator==`. -/
protected def eq (a b : BigInt) : Bool := a.compare b == .eq

/-- `operator!=`. -/
protected def ne (a b : BigInt) : Bool := a.compare b != .eq

/-- `operator<`. -/
protected def lt (a b : BigInt) : Bool := a.compare b == .lt

/-- `operator>`. -/
protected def gt (a b : BigInt) : Bool := a.compare b == .gt

/-- `operator<=`. -/
protected def le (a b : BigInt) : Bool := a.compare b != .gt

/-- `operator>=`. -/
protected def ge (a b : BigInt) : Bool := a.compare b != .lt

/-- A canonical number with the sign set is below zero. -/
theorem Canonical.toInt_neg_iff {a : BigInt} (ha : a.Canonical) :
    a.toInt < 0 ↔ a.negative = true := by
  unfold toInt
  cases hsign : a.negative with
  | false => simp
  | true =>
    have hne : a.limbs ≠ [] := fun h => Bool.false_ne_true ((ha.sign h).symm.trans hsign)
    have hpos := ha.trimmed.magnitude_pos hne
    simpa using hpos

/-- Naturals are ordered as integers. -/
theorem compare_natCast (m n : ℕ) : compare (m : ℤ) n = compare m n := by
  rcases hcmp : compare m n with _ | _ | _
  · exact Int.compare_eq_lt.mpr (Int.ofNat_lt.mpr (Nat.compare_eq_lt.mp hcmp))
  · exact Int.compare_eq_eq.mpr (congrArg Int.ofNat (Nat.compare_eq_eq.mp hcmp))
  · exact Int.compare_eq_gt.mpr (Int.ofNat_lt.mpr (Nat.compare_eq_gt.mp hcmp))

/-- Their negatives are ordered the other way. -/
theorem compare_neg_natCast (m n : ℕ) : compare (-m : ℤ) (-n) = (compare m n).swap := by
  rw [Nat.compare_swap, ← compare_natCast]
  rcases hcmp : compare (n : ℤ) m with _ | _ | _
  · exact Int.compare_eq_lt.mpr (neg_lt_neg (Int.compare_eq_lt.mp hcmp))
  · exact Int.compare_eq_eq.mpr (congrArg Neg.neg (Int.compare_eq_eq.mp hcmp).symm)
  · exact Int.compare_eq_gt.mpr (neg_lt_neg (Int.compare_eq_gt.mp hcmp))

theorem compare_eq {a b : BigInt} (ha : a.Canonical) (hb : b.Canonical) :
    a.compare b = compare a.toInt b.toInt := by
  have hsign_a := ha.toInt_neg_iff
  have hsign_b := hb.toInt_neg_iff
  rw [BigInt.compare, compareMagnitude_eq ha.trimmed hb.trimmed]
  by_cases hsign : a.negative = b.negative
  · rw [if_neg (not_not.mpr hsign), toInt, toInt, ← hsign]
    cases a.negative with
    | false => exact (compare_natCast _ _).symm
    | true => exact (compare_neg_natCast _ _).symm
  rw [if_pos hsign]
  cases hneg : a.negative with
  | true =>
    have hlow := hsign_a.mpr hneg
    have hhigh : ¬ b.toInt < 0 := fun h => hsign (hneg.trans (hsign_b.mp h).symm)
    exact (Int.compare_eq_lt.mpr (hlow.trans_le (not_lt.mp hhigh))).symm
  | false =>
    have hother : b.negative = true := Bool.eq_true_of_not_eq_false fun h =>
      hsign (hneg.trans h.symm)
    have hhigh : ¬ a.toInt < 0 := fun h => Bool.false_ne_true (hneg.symm.trans (hsign_a.mp h))
    exact (Int.compare_eq_gt.mpr ((hsign_b.mpr hother).trans_le (not_lt.mp hhigh))).symm

/-! ### The operations and the integers -/

/-- **The limbs are a faithful ring.** On canonical integers the operations overflow nothing,
write nothing outside their vectors and give the canonical form of what the integers give, and the
six comparisons are those of the integers. -/
theorem faithful_ring {a b : BigInt} (ha : a.Canonical) (hb : b.Canonical) :
    (∃ c, a.add b = .ok c ∧ c.Canonical ∧ c.toInt = a.toInt + b.toInt) ∧
    (∃ c, a.sub b = .ok c ∧ c.Canonical ∧ c.toInt = a.toInt - b.toInt) ∧
    (∃ c, a.mul b = .ok c ∧ c.Canonical ∧ c.toInt = a.toInt * b.toInt) ∧
    (a.neg.Canonical ∧ a.neg.toInt = -a.toInt) ∧
    (a.eq b = true ↔ a.toInt = b.toInt) ∧ (a.ne b = true ↔ a.toInt ≠ b.toInt) ∧
    (a.lt b = true ↔ a.toInt < b.toInt) ∧ (a.gt b = true ↔ a.toInt > b.toInt) ∧
    (a.le b = true ↔ a.toInt ≤ b.toInt) ∧ (a.ge b = true ↔ a.toInt ≥ b.toInt) := by
  have hcmp := compare_eq ha hb
  refine ⟨add_spec ha hb, sub_spec ha hb, mul_spec a b, ⟨ha.neg, toInt_neg a⟩, ?_, ?_, ?_, ?_,
    ?_, ?_⟩
  · rw [BigInt.eq, hcmp, beq_iff_eq, Int.compare_eq_eq]
  · rw [BigInt.ne, hcmp, bne_iff_ne, ne_eq, Int.compare_eq_eq]
  · rw [BigInt.lt, hcmp, beq_iff_eq, Int.compare_eq_lt]
  · rw [BigInt.gt, hcmp, beq_iff_eq, Int.compare_eq_gt, gt_iff_lt]
  · rw [BigInt.le, hcmp, bne_iff_ne, Int.compare_ne_gt]
  · rw [BigInt.ge, hcmp, bne_iff_ne, Int.compare_ne_lt, ge_iff_le]

/-- `2 ^ 64 - 1` and `-2 ^ 64`. -/
theorem faithful_ring_carry :
    let a : BigInt := ⟨[0xffffffffffffffff], false⟩
    let b : BigInt := ⟨[0, 1], true⟩
    a.Canonical ∧ b.Canonical ∧ a.lt b = false ∧ (∃ c, a.mul b = .ok c ∧ c.toInt =
      (2 ^ 64 - 1) * -(2 ^ 64)) := by
  have ha : (⟨[0xffffffffffffffff], false⟩ : BigInt).Canonical :=
    ⟨fun _ => show (0xffffffffffffffff : UInt64) ≠ 0 by decide, fun h => absurd h (by decide)⟩
  have hb : (⟨[0, 1], true⟩ : BigInt).Canonical :=
    ⟨fun _ => show (1 : UInt64) ≠ 0 by decide, fun h => absurd h (by decide)⟩
  obtain ⟨-, -, ⟨c, hc, -, hvalue⟩, -⟩ := faithful_ring ha hb
  exact ⟨ha, hb, by decide, c, hc, hvalue.trans (by decide)⟩

end BigInt

end BlockchainCrypto
