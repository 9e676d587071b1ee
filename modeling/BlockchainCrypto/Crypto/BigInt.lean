import Mathlib.Data.List.DropRight
import Mathlib.Data.List.GetD
import Mathlib.Data.Nat.Digits.Defs
import Mathlib.Tactic.Linarith
import Mathlib.Tactic.Ring

/-!
# Integers of 64-bit limbs

The sign-magnitude integers of `bigint.h`: comparison, addition and subtraction of magnitudes, and
the signed operations over them. Every value of the 128-bit types is checked when it is made, so
that a result shows that nothing has overflowed on the way to it.

## Main definitions

* `Checked`: results of the code, with `u128` and `i128`.
* `BigInt`, `BigInt.Canonical`, `BigInt.toInt`.
* `BigInt.compareMagnitude`, `BigInt.addMagnitude`, `BigInt.subMagnitude`.
* `BigInt.neg`, `BigInt.add`, `BigInt.sub`: the signed operations.

## Main results

* `BigInt.compareMagnitude_eq`: the order of canonical magnitudes.
* `BigInt.addMagnitude_spec`, `BigInt.subMagnitude_spec`: no overflow, and the value.
* `BigInt.add_spec`, `BigInt.sub_spec`: canonical results with the value of the integers.
-/

namespace BlockchainCrypto

/-! ### Checked values -/

/-- An exception of the source, a value outside its 128-bit type, or an access outside a vector. -/
inductive Fault where
  | logicError (what : String)
  | overflow
  | outOfRange
  deriving DecidableEq

/-- A result, or the fault that ended the computation. -/
abbrev Checked := Except Fault

/-- A value of `unsigned __int128`. -/
def u128 (x : ℕ) : Checked ℕ := if x < 2 ^ 128 then .ok x else .error .overflow

/-- A value of `__int128`. -/
def i128 (x : ℤ) : Checked ℤ := if -2 ^ 127 ≤ x ∧ x < 2 ^ 127 then .ok x else .error .overflow

namespace Checked

variable {α β : Type}

@[simp] theorem ok_bind (x : α) (f : α → Checked β) : (Except.ok x >>= f) = f x := rfl

@[simp] theorem pure_eq (x : α) : (pure x : Checked α) = .ok x := rfl

end Checked

theorem u128_eq {x : ℕ} (h : x < 2 ^ 128) : u128 x = .ok x := if_pos h

theorem i128_eq {x : ℤ} (hlow : -2 ^ 127 ≤ x) (hhigh : x < 2 ^ 127) : i128 x = .ok x :=
  if_pos ⟨hlow, hhigh⟩

/-- The conversion to 64 bits keeps the value modulo the radix. -/
theorem toNat_ofInt (x : ℤ) : ((UInt64.ofInt x).toNat : ℤ) = x % 2 ^ 64 := by
  rw [UInt64.ofInt, UInt64.toNat_ofNat']
  omega

/-! ### Magnitudes -/

/-- The number of which the limbs are the digits, least significant first. -/
def magnitude (limbs : List UInt64) : ℕ := Nat.ofDigits (2 ^ 64) (limbs.map UInt64.toNat)

@[simp] theorem magnitude_nil : magnitude [] = 0 := rfl

@[simp] theorem magnitude_cons (x : UInt64) (xs : List UInt64) :
    magnitude (x :: xs) = x.toNat + 2 ^ 64 * magnitude xs := by
  simp [magnitude, Nat.ofDigits_cons]

theorem magnitude_append (xs ys : List UInt64) :
    magnitude (xs ++ ys) = magnitude xs + (2 ^ 64) ^ xs.length * magnitude ys := by
  simp [magnitude, Nat.ofDigits_append]

theorem magnitude_lt (xs : List UInt64) : magnitude xs < (2 ^ 64) ^ xs.length := by
  have h := Nat.ofDigits_lt_base_pow_length (b := 2 ^ 64) (l := xs.map UInt64.toNat) (by decide)
    fun x hx => by
      obtain ⟨limb, -, rfl⟩ := List.mem_map.mp hx
      exact limb.toNat_lt
  rwa [List.length_map] at h

theorem magnitude_take_add_drop (n : ℕ) (xs : List UInt64) (hn : n ≤ xs.length) :
    magnitude xs = magnitude (xs.take n) + (2 ^ 64) ^ n * magnitude (xs.drop n) := by
  have h := magnitude_append (xs.take n) (xs.drop n)
  rwa [List.take_append_drop, List.length_take_of_le hn] at h

/-- The limbs beyond the magnitude are zero. -/
theorem magnitude_drop_eq_zero {n : ℕ} {xs : List UInt64} (hn : n ≤ xs.length)
    (h : magnitude xs < (2 ^ 64) ^ n) : magnitude (xs.drop n) = 0 := by
  have hsplit := magnitude_take_add_drop n xs hn
  by_contra hne
  have hle := Nat.le_mul_of_pos_right ((2 ^ 64) ^ n) (Nat.pos_of_ne_zero hne)
  omega

theorem magnitude_take_eq {n : ℕ} {xs : List UInt64} (hn : n ≤ xs.length)
    (h : magnitude (xs.drop n) = 0) : magnitude (xs.take n) = magnitude xs := by
  rw [magnitude_take_add_drop n xs hn, h, Nat.mul_zero, Nat.add_zero]

theorem magnitude_take_lt (n : ℕ) (xs : List UInt64) : magnitude (xs.take n) < (2 ^ 64) ^ n :=
  (magnitude_lt _).trans_le
    (Nat.pow_le_pow_right (Nat.two_pow_pos 64) (List.length_take_le n xs))

/-- The limb at position `n` above those below it. -/
theorem magnitude_take_succ (n : ℕ) (xs : List UInt64) :
    magnitude (xs.take (n + 1)) =
      magnitude (xs.take n) + (2 ^ 64) ^ n * (xs.getD n 0).toNat := by
  by_cases hn : n < xs.length
  · rw [List.take_succ_eq_append_getElem hn, magnitude_append, List.length_take_of_le hn.le,
      List.getD_eq_getElem _ _ hn]
    simp
  · rw [List.take_of_length_le (by omega), List.take_of_length_le (by omega),
      List.getD_eq_default _ _ (by omega)]
    rfl

/-- No high zero limbs. -/
def Trimmed (limbs : List UInt64) : Prop := ∀ h : limbs ≠ [], limbs.getLast h ≠ 0

/-- `while (!v.empty() && v.back() == 0) v.pop_back()`. -/
def trim (limbs : List UInt64) : List UInt64 := limbs.rdropWhile (· == 0)

theorem trimmed_trim (limbs : List UInt64) : Trimmed (trim limbs) := by
  intro h hlast
  exact List.rdropWhile_last_not (· == 0) limbs h (beq_iff_eq.mpr hlast)

@[simp] theorem magnitude_trim (limbs : List UInt64) :
    magnitude (trim limbs) = magnitude limbs := by
  rw [trim]
  induction limbs using List.reverseRecOn with
  | nil => rfl
  | append_singleton xs x ih =>
    by_cases hx : x = 0
    · rw [List.rdropWhile_concat_pos _ _ _ (by simpa using hx), ih, magnitude_append, hx]
      simp
    · rw [List.rdropWhile_concat_neg _ _ _ (by simpa using hx)]

/-- The highest limb of a trimmed list weighs as much as the radix to its position. -/
theorem Trimmed.le_magnitude {limbs : List UInt64} (h : Trimmed limbs) (hne : limbs ≠ []) :
    (2 ^ 64) ^ (limbs.length - 1) ≤ magnitude limbs := by
  have hsplit := List.dropLast_append_getLast hne
  have hpos : 0 < (limbs.getLast hne).toNat :=
    Nat.pos_of_ne_zero fun h0 => h hne (UInt64.toNat_inj.mp h0)
  rw [← hsplit, magnitude_append, List.length_append, List.length_singleton, Nat.add_sub_cancel]
  simp only [magnitude_cons, magnitude_nil, Nat.mul_zero, Nat.add_zero]
  exact le_add_left (Nat.le_mul_of_pos_right _ hpos)

theorem Trimmed.magnitude_pos {limbs : List UInt64} (h : Trimmed limbs) (hne : limbs ≠ []) :
    0 < magnitude limbs := (Nat.pow_pos (Nat.two_pow_pos 64)).trans_le (h.le_magnitude hne)

theorem Trimmed.magnitude_eq_zero_iff {limbs : List UInt64} (h : Trimmed limbs) :
    magnitude limbs = 0 ↔ limbs = [] := by
  refine ⟨fun h0 => ?_, fun hnil => hnil ▸ rfl⟩
  by_contra hne
  exact (h.magnitude_pos hne).ne' h0

namespace BigInt

/-! ### Comparing magnitudes -/

/-- The highest limb that differs decides. -/
def compareLimbs : List UInt64 → List UInt64 → Ordering
  | x :: xs, y :: ys =>
    match compareLimbs xs ys with
    | .eq => if x ≠ y then if x < y then .lt else .gt else .eq
    | decided => decided
  | _, _ => .eq

/-- The comparison of two magnitudes, the number of limbs first. -/
def compareMagnitude (a b : List UInt64) : Ordering :=
  if a.length ≠ b.length then if a.length < b.length then .lt else .gt
  else compareLimbs a b

theorem compareLimbs_eq {a b : List UInt64} (h : a.length = b.length) :
    compareLimbs a b = compare (magnitude a) (magnitude b) := by
  induction a generalizing b with
  | nil => rw [List.length_eq_zero_iff.mp h.symm]; rfl
  | cons x xs ih =>
    obtain _ | ⟨y, ys⟩ := b
    · cases h
    have hx := x.toNat_lt
    have hy := y.toNat_lt
    rw [compareLimbs, ih (Nat.succ_injective h), magnitude_cons, magnitude_cons]
    rcases hcmp : compare (magnitude xs) (magnitude ys) with _ | _ | _
    · have hlt := Nat.compare_eq_lt.mp hcmp
      exact (Nat.compare_eq_lt.mpr (by omega)).symm
    · have heq := Nat.compare_eq_eq.mp hcmp
      dsimp only
      split_ifs with hne hlt
      · have hlt' := UInt64.lt_iff_toNat_lt.mp hlt
        exact (Nat.compare_eq_lt.mpr (by omega)).symm
      · have hne' : x.toNat ≠ y.toNat := fun h => hne (UInt64.toNat_inj.mp h)
        have hle : y.toNat ≤ x.toNat := not_lt.mp fun h => hlt (UInt64.lt_iff_toNat_lt.mpr h)
        exact (Nat.compare_eq_gt.mpr (by omega)).symm
      · rw [not_ne_iff.mp hne, heq]
        exact (Nat.compare_eq_eq.mpr rfl).symm
    · have hgt := Nat.compare_eq_gt.mp hcmp
      exact (Nat.compare_eq_gt.mpr (by omega)).symm

/-- Longer magnitudes without high zero limbs are larger. -/
theorem magnitude_lt_of_length_lt {a b : List UInt64} (hb : Trimmed b) (h : a.length < b.length) :
    magnitude a < magnitude b :=
  calc magnitude a < (2 ^ 64) ^ a.length := magnitude_lt a
    _ ≤ (2 ^ 64) ^ (b.length - 1) := Nat.pow_le_pow_right (Nat.two_pow_pos 64) (by omega)
    _ ≤ magnitude b := hb.le_magnitude (List.ne_nil_of_length_pos (by omega))

theorem compareMagnitude_eq {a b : List UInt64} (ha : Trimmed a) (hb : Trimmed b) :
    compareMagnitude a b = compare (magnitude a) (magnitude b) := by
  rw [compareMagnitude]
  split_ifs with hne hlt
  · exact (Nat.compare_eq_lt.mpr (magnitude_lt_of_length_lt hb hlt)).symm
  · exact (Nat.compare_eq_gt.mpr (magnitude_lt_of_length_lt ha (by omega))).symm
  · exact compareLimbs_eq (not_ne_iff.mp hne)

/-! ### Adding and subtracting magnitudes -/

/-- The loop of `addMagnitude` over `n` positions; a position beyond an operand adds nothing. -/
def addLimbs : ℕ → List UInt64 → List UInt64 → ℕ → Checked (List UInt64)
  | 0, _, _, carry => pure (if carry ≠ 0 then [UInt64.ofNat carry] else [])
  | n + 1, a, b, carry => do
    let sum ← u128 (carry + (a.headD 0).toNat)
    let sum ← u128 (sum + (b.headD 0).toNat)
    let rest ← addLimbs n a.tail b.tail (sum >>> 64)
    pure (UInt64.ofNat sum :: rest)

/-- The sum of two magnitudes. -/
def addMagnitude (a b : List UInt64) : Checked (List UInt64) :=
  addLimbs (max a.length b.length) a b 0

/-- The loop of `subMagnitude` over the limbs of the minuend. -/
def subLimbs : List UInt64 → List UInt64 → ℤ → Checked (List UInt64)
  | [], _, _ => pure []
  | x :: xs, b, borrow => do
    let diff ← i128 (x.toNat - borrow)
    let diff ← i128 (diff - (b.headD 0).toNat)
    if diff < 0 then
      let diff ← i128 (diff + 2 ^ 64)
      let rest ← subLimbs xs b.tail 1
      pure (UInt64.ofInt diff :: rest)
    else
      let rest ← subLimbs xs b.tail 0
      pure (UInt64.ofInt diff :: rest)

/-- The difference of two magnitudes, of which the first is not the smaller one. -/
def subMagnitude (a b : List UInt64) : Checked (List UInt64) := subLimbs a b 0

/-- The lowest limb and the others. -/
theorem magnitude_eq_headD_tail (xs : List UInt64) :
    magnitude xs = (xs.headD 0).toNat + 2 ^ 64 * magnitude xs.tail := by
  cases xs with
  | nil => rfl
  | cons x xs => exact magnitude_cons x xs

theorem addLimbs_spec {n : ℕ} {a b : List UInt64} {carry : ℕ} (ha : a.length ≤ n)
    (hb : b.length ≤ n) (hcarry : carry < 2) :
    ∃ sum, addLimbs n a b carry = .ok sum ∧ magnitude sum = magnitude a + magnitude b + carry := by
  induction n generalizing a b carry with
  | zero =>
    rw [List.length_eq_zero_iff.mp (Nat.le_zero.mp ha),
      List.length_eq_zero_iff.mp (Nat.le_zero.mp hb)]
    refine ⟨_, rfl, ?_⟩
    obtain rfl | rfl : carry = 0 ∨ carry = 1 := by omega
    · rfl
    · rfl
  | succ n ih =>
    have hx := (a.headD 0).toNat_lt
    have hy := (b.headD 0).toNat_lt
    have hta : a.tail.length ≤ n := by rw [List.length_tail]; omega
    have htb : b.tail.length ≤ n := by rw [List.length_tail]; omega
    obtain ⟨rest, hrest, hvalue⟩ :=
      @ih a.tail b.tail ((carry + (a.headD 0).toNat + (b.headD 0).toNat) >>> 64) hta htb (by omega)
    refine ⟨UInt64.ofNat (carry + (a.headD 0).toNat + (b.headD 0).toNat) :: rest, ?_, ?_⟩
    · rw [addLimbs, u128_eq (by omega), Checked.ok_bind, u128_eq (by omega), Checked.ok_bind, hrest]
      rfl
    · rw [magnitude_cons, hvalue, magnitude_eq_headD_tail a, magnitude_eq_headD_tail b,
        UInt64.toNat_ofNat']
      omega

/-- Magnitudes add up without overflow. -/
theorem addMagnitude_spec (a b : List UInt64) :
    ∃ sum, addMagnitude a b = .ok sum ∧ magnitude sum = magnitude a + magnitude b :=
  addLimbs_spec (le_max_left _ _) (le_max_right _ _) (by decide)

theorem subLimbs_spec {a b : List UInt64} {borrow : ℤ} (hborrow : borrow = 0 ∨ borrow = 1)
    (h : (magnitude b : ℤ) + borrow ≤ magnitude a) :
    ∃ diff, subLimbs a b borrow = .ok diff ∧
      (magnitude diff : ℤ) = magnitude a - magnitude b - borrow := by
  induction a generalizing b borrow with
  | nil =>
    refine ⟨[], rfl, ?_⟩
    rw [magnitude_nil] at h ⊢
    omega
  | cons x xs ih =>
    have hx := x.toNat_lt
    have hy := (b.headD 0).toNat_lt
    rw [magnitude_cons, magnitude_eq_headD_tail b] at h
    by_cases hdiff : (x.toNat : ℤ) - borrow - (b.headD 0).toNat < 0
    · obtain ⟨rest, hrest, hvalue⟩ := @ih b.tail 1 (.inr rfl) (by omega)
      refine ⟨UInt64.ofInt (x.toNat - borrow - (b.headD 0).toNat + 2 ^ 64) :: rest, ?_, ?_⟩
      · rw [subLimbs, i128_eq (by omega) (by omega), Checked.ok_bind,
          i128_eq (by omega) (by omega), Checked.ok_bind, if_pos hdiff,
          i128_eq (by omega) (by omega), Checked.ok_bind, hrest]
        rfl
      · have hlimb := toNat_ofInt (x.toNat - borrow - (b.headD 0).toNat + 2 ^ 64)
        rw [magnitude_cons, magnitude_cons, magnitude_eq_headD_tail b]
        omega
    · obtain ⟨rest, hrest, hvalue⟩ := @ih b.tail 0 (.inl rfl) (by omega)
      refine ⟨UInt64.ofInt (x.toNat - borrow - (b.headD 0).toNat) :: rest, ?_, ?_⟩
      · rw [subLimbs, i128_eq (by omega) (by omega), Checked.ok_bind,
          i128_eq (by omega) (by omega), Checked.ok_bind, if_neg hdiff, hrest]
        rfl
      · have hlimb := toNat_ofInt (x.toNat - borrow - (b.headD 0).toNat)
        rw [magnitude_cons, magnitude_cons, magnitude_eq_headD_tail b]
        omega

/-- The smaller magnitude is subtracted without overflow. -/
theorem subMagnitude_spec {a b : List UInt64} (h : magnitude b ≤ magnitude a) :
    ∃ diff, subMagnitude a b = .ok diff ∧ magnitude diff = magnitude a - magnitude b := by
  obtain ⟨diff, hdiff, hvalue⟩ :=
    subLimbs_spec (b := b) (.inl rfl) (by omega : _ ≤ (magnitude a : ℤ))
  exact ⟨diff, hdiff, by omega⟩

end BigInt

/-! ### Signed integers -/

/-- A sign and the limbs of the magnitude, least significant first. -/
structure BigInt where
  limbs : List UInt64 := []
  negative : Bool := false
  deriving DecidableEq

namespace BigInt

/-- No high zero limbs, and zero is not negative. -/
structure Canonical (a : BigInt) : Prop where
  trimmed : Trimmed a.limbs
  sign : a.limbs = [] → a.negative = false

/-- The integer that is represented. -/
def toInt (a : BigInt) : ℤ := if a.negative then -magnitude a.limbs else magnitude a.limbs

/-- Without leading zero limbs, and without a sign on zero. -/
def normalize (a : BigInt) : BigInt :=
  let limbs := trim a.limbs
  ⟨limbs, if limbs = [] then false else a.negative⟩

/-- There are no limbs. -/
def isZero (a : BigInt) : Bool := a.limbs.isEmpty

/-- `BigInt(const long long&)`. -/
def ofLongLong (num : Int64) : BigInt :=
  let negative := decide (num < 0)
  let magnitude := if negative then 0 - num.toUInt64 else num.toUInt64
  ⟨if magnitude ≠ 0 then [magnitude] else [], negative⟩

/-- The unary `operator-`. -/
def neg (a : BigInt) : BigInt := if a.isZero then a else ⟨a.limbs, !a.negative⟩

/-- `operator+`. -/
def add (a b : BigInt) : Checked BigInt :=
  if a.negative = b.negative then do
    let limbs ← addMagnitude a.limbs b.limbs
    pure (normalize ⟨limbs, a.negative⟩)
  else
    match compareMagnitude a.limbs b.limbs with
    | .eq => pure {}
    | .gt => do
      let limbs ← subMagnitude a.limbs b.limbs
      pure (normalize ⟨limbs, a.negative⟩)
    | .lt => do
      let limbs ← subMagnitude b.limbs a.limbs
      pure (normalize ⟨limbs, b.negative⟩)

/-- The binary `operator-`. -/
def sub (a b : BigInt) : Checked BigInt := a.add b.neg

theorem canonical_normalize (a : BigInt) : a.normalize.Canonical where
  trimmed := trimmed_trim a.limbs
  sign h := if_pos h

@[simp] theorem toInt_normalize (a : BigInt) : a.normalize.toInt = a.toInt := by
  unfold normalize toInt
  dsimp only
  rw [magnitude_trim]
  by_cases hnil : trim a.limbs = []
  · have hzero : magnitude a.limbs = 0 := by rw [← magnitude_trim, hnil, magnitude_nil]
    simp [hzero]
  · simp [hnil]

/-- A sign that a zero does not keep. -/
theorem toInt_signed (limbs : List UInt64) (negative : Bool) :
    toInt ⟨limbs, negative && !limbs.isEmpty⟩ =
      if negative then -(magnitude limbs : ℤ) else magnitude limbs := by
  cases limbs with
  | nil => cases negative <;> rfl
  | cons x xs => cases negative <;> rfl

theorem Canonical.neg {a : BigInt} (ha : a.Canonical) : a.neg.Canonical := by
  unfold BigInt.neg isZero
  split_ifs with hzero
  · exact ha
  · exact ⟨ha.trimmed, fun h => absurd (List.isEmpty_iff.mpr h) hzero⟩

theorem toInt_neg (a : BigInt) : a.neg.toInt = -a.toInt := by
  unfold BigInt.neg isZero
  split_ifs with hzero
  · rw [toInt, List.isEmpty_iff.mp hzero]
    simp
  · cases hneg : a.negative <;> simp [toInt, hneg]

/-- Sums are canonical and exact. -/
theorem add_spec {a b : BigInt} (ha : a.Canonical) (hb : b.Canonical) :
    ∃ c, a.add b = .ok c ∧ c.Canonical ∧ c.toInt = a.toInt + b.toInt := by
  rw [BigInt.add]
  by_cases hsign : a.negative = b.negative
  · obtain ⟨sum, hsum, hvalue⟩ := addMagnitude_spec a.limbs b.limbs
    rw [if_pos hsign, hsum]
    refine ⟨_, rfl, canonical_normalize _, ?_⟩
    rw [toInt_normalize, toInt, toInt, toInt, hvalue, ← hsign]
    split_ifs <;> push_cast <;> ring
  rw [if_neg hsign, compareMagnitude_eq ha.trimmed hb.trimmed]
  have hsign' : b.negative = !a.negative := by
    cases ha' : a.negative <;> cases hb' : b.negative <;> simp_all
  rcases hcmp : compare (magnitude a.limbs) (magnitude b.limbs) with _ | _ | _
  · have hlt := Nat.compare_eq_lt.mp hcmp
    obtain ⟨diff, hdiff, hvalue⟩ := subMagnitude_spec hlt.le
    simp only [hdiff, Checked.ok_bind]
    refine ⟨_, rfl, canonical_normalize _, ?_⟩
    rw [toInt_normalize, toInt, toInt, toInt, hvalue, hsign']
    cases a.negative <;> simp <;> omega
  · have heq := Nat.compare_eq_eq.mp hcmp
    refine ⟨_, rfl, ⟨fun h => absurd rfl h, fun _ => rfl⟩, ?_⟩
    rw [toInt, toInt, toInt, heq, hsign']
    cases a.negative <;> simp
  · have hgt := Nat.compare_eq_gt.mp hcmp
    obtain ⟨diff, hdiff, hvalue⟩ := subMagnitude_spec hgt.le
    simp only [hdiff, Checked.ok_bind]
    refine ⟨_, rfl, canonical_normalize _, ?_⟩
    rw [toInt_normalize, toInt, toInt, toInt, hvalue, hsign']
    dsimp only
    cases a.negative <;> simp <;> omega

/-- Differences are canonical and exact. -/
theorem sub_spec {a b : BigInt} (ha : a.Canonical) (hb : b.Canonical) :
    ∃ c, a.sub b = .ok c ∧ c.Canonical ∧ c.toInt = a.toInt - b.toInt := by
  obtain ⟨c, hc, hcanonical, hvalue⟩ := add_spec ha hb.neg
  exact ⟨c, hc, hcanonical, by rw [hvalue, toInt_neg, sub_eq_add_neg]⟩

end BigInt

end BlockchainCrypto
