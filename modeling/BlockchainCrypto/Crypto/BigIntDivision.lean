import BlockchainCrypto.Crypto.BigIntDigit
import Mathlib.Data.Nat.Size
import Mathlib.Data.Rat.Floor

/-!
# Division of integers of 64-bit limbs

The division of magnitudes in `bigint.h`, by one limb and by several, and the signed quotient and
remainder, which round towards minus infinity. The division by several limbs shifts both operands
until the divisor has its top bit set, finds the digits of the quotient from the top, and shifts
the remainder back.

## Main definitions

* `BigInt.divModMagnitude`: quotient and remainder of magnitudes.
* `BigInt.div`, `BigInt.mod`: the signed operations.

## Main results

* `BigInt.divModMagnitude.digits_spec`: the digits of the quotient.
* `BigInt.divModMagnitude_spec`: magnitudes are divided without overflow.
* `BigInt.division_floored`: quotient and remainder are canonical and those of the floor.
-/

namespace BlockchainCrypto

namespace BigInt

/-! ### The code -/

/-- The loop of the division by one limb, from the highest limb down. -/
def divModLimb (d : UInt64) : List UInt64 → Checked (List UInt64 × ℕ)
  | [] => pure ([], 0)
  | x :: xs => do
    let (quotient, rem) ← divModLimb d xs
    let high ← u128 (rem <<< 64)
    let cur := high ||| x.toNat
    pure (UInt64.ofNat (cur / d.toNat) :: quotient, cur % d.toNat)

/-- `std::countl_zero`. -/
def countlZero (x : UInt64) : ℕ := 64 - Nat.size x.toNat

/-- Limbs shifted up, with the bits that leave the limb below. -/
def shiftUp (shift : ℕ) : UInt64 → List UInt64 → List UInt64
  | _, [] => []
  | below, x :: xs =>
    (x <<< UInt64.ofNat shift |||
      if shift ≠ 0 then below >>> UInt64.ofNat (64 - shift) else 0) :: shiftUp shift x xs

/-- Limbs shifted down, with the bits that leave the limb above; the highest limb is only read. -/
def shiftDown (shift : ℕ) : List UInt64 → List UInt64
  | x :: y :: ys =>
    (x >>> UInt64.ofNat shift |||
      if shift ≠ 0 then y <<< UInt64.ofNat (64 - shift) else 0) :: shiftDown shift (y :: ys)
  | _ => []

namespace divModMagnitude

/-- The shift that sets the top bit of the divisor. -/
def shift (b : List UInt64) : ℕ := countlZero (b.getLastD 0)

/-- The divisor, shifted until its highest bit is set. -/
def vn (b : List UInt64) : List UInt64 := shiftUp (shift b) 0 b

/-- The dividend, shifted by as many bits, with one limb more. -/
def un (a b : List UInt64) : List UInt64 :=
  shiftUp (shift b) 0 a ++
    [if shift b ≠ 0 then a.getLastD 0 >>> UInt64.ofNat (64 - shift b) else 0]

/-- The arrays after `k` digits of the quotient, from the highest one down. -/
def digits (a b : List UInt64) : ℕ → Checked Working
  | 0 => pure ⟨un a b, []⟩
  | k + 1 => do
    let w ← digits a b k
    divideDigit (vn b) (a.length - b.length - k) w

end divModMagnitude

open divModMagnitude in
/-- Quotient and remainder of magnitudes. -/
def divModMagnitude (a b : List UInt64) : Checked (List UInt64 × List UInt64) :=
  if compareMagnitude a b = .lt then pure ([], a)
  else if b.length = 1 then do
    let (quotient, rem) ← divModLimb (b.headD 0) a
    pure (trim quotient, if rem ≠ 0 then [UInt64.ofNat rem] else [])
  else do
    let w ← digits a b (a.length - b.length + 1)
    pure (trim w.quotient, trim (shiftDown (shift b) (w.un.take (b.length + 1))))

/-- `operator/`. -/
def div (a b : BigInt) : Checked BigInt := do
  if b.isZero then throw (.logicError "Attempted division by zero")
  let (quotient, remainder) ← divModMagnitude a.limbs b.limbs
  let q : BigInt := ⟨quotient, a.negative != b.negative && !quotient.isEmpty⟩
  if a.negative != b.negative && !remainder.isEmpty then
    let q ← q.sub (ofLongLong 1)
    pure q.normalize
  else pure q.normalize

/-- `operator%`. -/
def mod (a b : BigInt) : Checked BigInt := do
  if b.isZero then throw (.logicError "Attempted division by zero")
  let (_, remainder) ← divModMagnitude a.limbs b.limbs
  let r : BigInt := ⟨remainder, a.negative && !remainder.isEmpty⟩
  if !remainder.isEmpty && r.negative != b.negative then
    let r ← r.add b
    pure r.normalize
  else pure r.normalize

/-! ### Division by one limb -/

theorem divModLimb_spec {d : UInt64} (hd : 0 < d.toNat) (xs : List UInt64) :
    ∃ quotient, divModLimb d xs = .ok (quotient, magnitude xs % d.toNat) ∧
      magnitude quotient = magnitude xs / d.toNat := by
  induction xs with
  | nil => exact ⟨[], by rw [magnitude_nil, Nat.zero_mod]; rfl, (Nat.zero_div _).symm⟩
  | cons x xs ih =>
    obtain ⟨quotient, hok, hquotient⟩ := ih
    have hrem := Nat.mod_lt (magnitude xs) hd
    have hdigit := Radix.window_div_lt x.toNat_lt hrem
    refine ⟨UInt64.ofNat ((x.toNat + 2 ^ 64 * (magnitude xs % d.toNat)) / d.toNat) :: quotient,
      ?_, ?_⟩
    · simp only [divModLimb, hok, Checked.ok_bind, u128_shiftLeft (hrem.trans d.toNat_lt),
        shiftLeft_or]
      rw [magnitude_cons, Radix.bring_down_mod _ (magnitude xs)]
      rfl
    · rw [magnitude_cons, UInt64.toNat_ofNat', Nat.mod_eq_of_lt hdigit, hquotient, magnitude_cons,
        Radix.bring_down_div _ (magnitude xs) _ hd]

namespace divModMagnitude

/-! ### Shifting -/

/-- A limb joined from the upper bits of one limb and the lower bits of the next. -/
theorem toNat_join {p : ℕ} (hp : 0 < p) (hp' : p < 64) (high low : UInt64) :
    (high <<< UInt64.ofNat p ||| low >>> UInt64.ofNat (64 - p)).toNat =
      2 ^ p * (high.toNat % 2 ^ (64 - p)) + low.toNat / 2 ^ (64 - p) := by
  have hshift {q : ℕ} (hq : q < 64) : (UInt64.ofNat q).toNat % 64 = q := by
    rw [UInt64.toNat_ofNat']
    omega
  have hpow : 2 ^ 64 = 2 ^ p * 2 ^ (64 - p) := by rw [← pow_add]; congr 1; omega
  have hlow : low.toNat / 2 ^ (64 - p) < 2 ^ p :=
    Nat.div_lt_of_lt_mul (by rw [mul_comm, ← hpow]; exact low.toNat_lt)
  rw [UInt64.toNat_or, UInt64.toNat_shiftLeft, UInt64.toNat_shiftRight, hshift hp',
    hshift (by omega), Nat.shiftLeft_eq, Nat.shiftRight_eq_div_pow,
    Nat.two_pow_add_eq_or_of_lt hlow, hpow, mul_comm high.toNat, Nat.mul_mod_mul_left]

/-- Shifting up multiplies; the bits of the highest limb that leave it are missing. -/
theorem shiftUp_spec {s : ℕ} (hs : s < 64) (below : UInt64) (xs : List UInt64) :
    magnitude (shiftUp s below xs) +
        (2 ^ 64) ^ xs.length * ((xs.getLastD below).toNat / 2 ^ (64 - s)) =
      2 ^ s * magnitude xs + below.toNat / 2 ^ (64 - s) := by
  induction xs generalizing below with
  | nil => simp [shiftUp]
  | cons x xs ih =>
    have hpow : 2 ^ 64 = 2 ^ s * 2 ^ (64 - s) := by rw [← pow_add]; congr 1; omega
    have hlimb : (x <<< UInt64.ofNat s |||
          if s ≠ 0 then below >>> UInt64.ofNat (64 - s) else 0).toNat +
        2 ^ 64 * (x.toNat / 2 ^ (64 - s)) = 2 ^ s * x.toNat + below.toNat / 2 ^ (64 - s) := by
      split_ifs with hzero
      · rw [toNat_join (Nat.pos_of_ne_zero hzero) hs, hpow]
        have hdiv := Nat.mod_add_div x.toNat (2 ^ (64 - s))
        linear_combination 2 ^ s * hdiv
      · obtain rfl : s = 0 := not_ne_iff.mp hzero
        have hx := x.toNat_lt
        have hbelow := below.toNat_lt
        simp
        omega
    have hlast : (x :: xs).getLastD below = xs.getLastD x := by cases xs <;> rfl
    rw [shiftUp, magnitude_cons, hlast, List.length_cons, magnitude_cons, pow_succ _ xs.length]
    linear_combination 2 ^ 64 * ih x + hlimb

theorem length_shiftUp (s : ℕ) (below : UInt64) (xs : List UInt64) :
    (shiftUp s below xs).length = xs.length := by
  induction xs generalizing below with
  | nil => rfl
  | cons x xs ih => exact congrArg Nat.succ (ih x)

/-- Shifting down divides; the upper bits of the highest limb are missing. -/
theorem shiftDown_spec {s : ℕ} (hs : s < 64) (x : UInt64) (xs : List UInt64) :
    magnitude (x :: xs) = x.toNat % 2 ^ s + 2 ^ s * (magnitude (shiftDown s (x :: xs)) +
      (2 ^ 64) ^ xs.length * ((xs.getLastD x).toNat / 2 ^ s)) := by
  induction xs generalizing x with
  | nil =>
    have hdiv := Nat.mod_add_div x.toNat (2 ^ s)
    simpa [shiftDown] using hdiv.symm
  | cons y ys ih =>
    have hpow : 2 ^ 64 = 2 ^ (64 - s) * 2 ^ s := by rw [← pow_add]; congr 1; omega
    have hlimb : 2 ^ s * (x >>> UInt64.ofNat s |||
          if s ≠ 0 then y <<< UInt64.ofNat (64 - s) else 0).toNat + x.toNat % 2 ^ s =
        x.toNat + 2 ^ 64 * (y.toNat % 2 ^ s) := by
      split_ifs with hzero
      · have hjoin := toNat_join (p := 64 - s) (by omega) (by omega) y x
        rw [show 64 - (64 - s) = s by omega] at hjoin
        have hdiv := Nat.mod_add_div x.toNat (2 ^ s)
        rw [UInt64.or_comm, hjoin, hpow]
        linear_combination hdiv
      · obtain rfl : s = 0 := not_ne_iff.mp hzero
        simp
        omega
    have hlast : (y :: ys).getLastD x = ys.getLastD y := by cases ys <;> rfl
    rw [magnitude_cons, ih y, shiftDown, magnitude_cons, hlast, List.length_cons,
      pow_succ _ ys.length]
    zify at hlimb ⊢
    linear_combination -hlimb

theorem magnitude_shiftDown {s n r : ℕ} (hs : s < 64) {xs : List UInt64}
    (hlength : xs.length = n + 1) (h : magnitude xs = 2 ^ s * r) (hr : r < (2 ^ 64) ^ n) :
    magnitude (shiftDown s xs) = r := by
  obtain _ | ⟨x, xs⟩ := xs
  · cases hlength
  rw [shiftDown_spec hs] at h
  have hr' := (Radix.digits_inj (Nat.mod_lt _ (Nat.two_pow_pos s)) (Nat.two_pow_pos s)
    (h.trans (Nat.zero_add _).symm)).2
  rw [Nat.succ_injective hlength] at hr'
  generalize (xs.getLastD x).toNat / 2 ^ s = bits at hr'
  obtain _ | bits := bits
  · exact hr'
  · rw [Nat.mul_succ] at hr'
    omega

/-! ### All digits -/

section Digits

variable {a b : List UInt64} (hb : Trimmed b) (hb2 : 2 ≤ b.length) (hab : b.length ≤ a.length)

/-- The top bit of the divisor is found. -/
theorem shift_lt (hb0 : b.getLastD 0 ≠ 0) :
    shift b < 64 ∧ (b.getLastD 0).toNat / 2 ^ (64 - shift b) = 0 := by
  have hsize : Nat.size (b.getLastD 0).toNat ≤ 64 := Nat.size_le.mpr (b.getLastD 0).toNat_lt
  have hpos : 0 < Nat.size (b.getLastD 0).toNat :=
    Nat.size_pos.mpr (Nat.pos_of_ne_zero fun h0 => hb0 (UInt64.toNat_inj.mp h0))
  refine ⟨by unfold shift countlZero; omega, Nat.div_eq_of_lt ?_⟩
  rw [shift, countlZero, Nat.sub_sub_self hsize]
  exact Nat.lt_size_self _

include hb hb2 in
theorem getLastD_ne_zero : b.getLastD 0 ≠ 0 := by
  have hne : b ≠ [] := List.ne_nil_of_length_pos (by omega)
  rw [List.getLastD_eq_getLast?, List.getLast?_eq_some_getLast hne]
  exact hb hne

include hb hb2 in
theorem magnitude_vn : magnitude (vn b) = 2 ^ shift b * magnitude b := by
  obtain ⟨hs, htop⟩ := shift_lt (getLastD_ne_zero hb hb2)
  have h := shiftUp_spec hs 0 b
  rwa [htop, Nat.mul_zero, Nat.add_zero, show (0 : UInt64).toNat = 0 from rfl, Nat.zero_div,
    Nat.add_zero] at h

/-- The bits that leave the highest limb. -/
theorem toNat_shiftedOut {s : ℕ} (hs : s < 64) (x : UInt64) :
    (if s ≠ 0 then x >>> UInt64.ofNat (64 - s) else 0).toNat = x.toNat / 2 ^ (64 - s) := by
  split_ifs with hzero
  · rw [UInt64.toNat_shiftRight, UInt64.toNat_ofNat', Nat.shiftRight_eq_div_pow,
      show (64 - s) % 2 ^ 64 % 64 = 64 - s by omega]
  · obtain rfl : s = 0 := not_ne_iff.mp hzero
    exact (Nat.div_eq_of_lt x.toNat_lt).symm

include hb hb2 in
theorem magnitude_un (a : List UInt64) : magnitude (un a b) = 2 ^ shift b * magnitude a := by
  obtain ⟨hs, -⟩ := shift_lt (getLastD_ne_zero hb hb2)
  have h := shiftUp_spec hs 0 a
  rw [un, magnitude_append, length_shiftUp, magnitude_cons, magnitude_nil, Nat.mul_zero,
    Nat.add_zero, toNat_shiftedOut hs, h, show (0 : UInt64).toNat = 0 from rfl, Nat.zero_div,
    Nat.add_zero]

theorem length_vn (b : List UInt64) : (vn b).length = b.length := length_shiftUp _ _ _

theorem length_un (a b : List UInt64) : (un a b).length = a.length + 1 := by
  rw [un, List.length_append, length_shiftUp, List.length_singleton]

include hb hb2 in
theorem magnitude_vn_pos : 0 < magnitude (vn b) := by
  rw [magnitude_vn hb hb2]
  exact Nat.mul_pos (Nat.two_pow_pos _)
    (hb.magnitude_pos (List.ne_nil_of_length_pos (by omega)))

include hb hb2 in
/-- The divisor keeps its top limb. -/
theorem getD_vn_ne_zero {k : ℕ} (hk : b.length = k + 2) : (vn b).getD (k + 1) 0 ≠ 0 := by
  intro hzero
  have hlength : (vn b).length = k + 2 := (length_vn b).trans hk
  have hlt := magnitude_take_succ (k + 1) (vn b)
  rw [hzero, List.take_of_length_le hlength.le] at hlt
  have hle := hb.le_magnitude (List.ne_nil_of_length_pos (by omega))
  rw [hk, show k + 2 - 1 = k + 1 from rfl] at hle
  have hshift : magnitude b ≤ magnitude (vn b) := by
    rw [magnitude_vn hb hb2]
    exact Nat.le_mul_of_pos_left _ (Nat.two_pow_pos _)
  have htake := magnitude_take_lt (k + 1) (vn b)
  rw [show (0 : UInt64).toNat = 0 from rfl, Nat.mul_zero, Nat.add_zero] at hlt
  omega

include hb hb2 hab in
/-- The limbs above the first window are below the divisor. -/
theorem magnitude_drop_un_lt :
    magnitude ((un a b).drop (a.length - b.length + 1)) < magnitude (vn b) := by
  have hsplit := magnitude_take_add_drop (a.length - b.length + 1) (un a b)
    (by rw [length_un]; omega)
  have hle := hb.le_magnitude (List.ne_nil_of_length_pos (by omega))
  have hpow : (2 ^ 64) ^ a.length =
      (2 ^ 64) ^ (a.length - b.length + 1) * (2 ^ 64) ^ (b.length - 1) := by
    rw [← pow_add]
    congr 1
    omega
  refine Nat.lt_of_mul_lt_mul_left (a := (2 ^ 64) ^ (a.length - b.length + 1)) ?_
  calc (2 ^ 64) ^ (a.length - b.length + 1) *
        magnitude ((un a b).drop (a.length - b.length + 1))
      ≤ magnitude (un a b) := by rw [hsplit]; exact Nat.le_add_left _ _
    _ = 2 ^ shift b * magnitude a := magnitude_un hb hb2 a
    _ < 2 ^ shift b * (2 ^ 64) ^ a.length :=
      Nat.mul_lt_mul_of_pos_left (magnitude_lt a) (Nat.two_pow_pos _)
    _ = (2 ^ 64) ^ (a.length - b.length + 1) * (2 ^ shift b * (2 ^ 64) ^ (b.length - 1)) := by
      rw [hpow]
      ring
    _ ≤ (2 ^ 64) ^ (a.length - b.length + 1) * magnitude (vn b) := by
      rw [magnitude_vn hb hb2]
      exact Nat.mul_le_mul_left _ (Nat.mul_le_mul_left _ hle)

/-- The limb that is brought down. -/
theorem magnitude_drop (j : ℕ) (xs : List UInt64) :
    magnitude (xs.drop j) = (xs.getD j 0).toNat + 2 ^ 64 * magnitude (xs.drop (j + 1)) := by
  rw [magnitude_eq_headD_tail, List.tail_drop, List.headD_eq_head?_getD, List.head?_drop,
    List.getD_eq_getElem?_getD]

theorem getD_eq_of_take_eq {j : ℕ} {xs ys : List UInt64}
    (h : xs.take (j + 1) = ys.take (j + 1)) : xs.getD j 0 = ys.getD j 0 := by
  have hget := congrArg (fun zs => zs[j]?) h
  simp only [List.getElem?_take, Nat.lt_succ_self, ↓reduceIte] at hget
  rw [List.getD_eq_getElem?_getD, List.getD_eq_getElem?_getD, hget]

include hb hb2 hab in
/-- After some digits the arrays hold the remainder and the quotient of the limbs that have been
brought down. -/
theorem digits_spec {k : ℕ} (hk : k ≤ a.length - b.length + 1) :
    ∃ w, digits a b k = .ok w ∧ w.un.length = a.length + 1 ∧
      w.un.take (a.length - b.length + 1 - k) =
        (un a b).take (a.length - b.length + 1 - k) ∧
      magnitude (w.un.drop (a.length - b.length + 1 - k)) =
        magnitude ((un a b).drop (a.length - b.length + 1 - k)) % magnitude (vn b) ∧
      magnitude w.quotient =
        magnitude ((un a b).drop (a.length - b.length + 1 - k)) / magnitude (vn b) := by
  induction k with
  | zero =>
    have hlt := magnitude_drop_un_lt hb hb2 hab
    exact ⟨⟨un a b, []⟩, rfl, length_un a b, rfl, (Nat.mod_eq_of_lt hlt).symm,
      (Nat.div_eq_of_lt hlt).symm⟩
  | succ k ih =>
    obtain ⟨w, hok, hlength, htake, hrem, hquotient⟩ := ih (by omega)
    obtain ⟨j, hj⟩ : ∃ j, j = a.length - b.length - k := ⟨_, rfl⟩
    rw [show a.length - b.length + 1 - k = j + 1 by omega] at htake hrem hquotient
    rw [show a.length - b.length + 1 - (k + 1) = j by omega]
    obtain ⟨n, hn⟩ := Nat.exists_eq_add_of_le' hb2
    have hpos := magnitude_vn_pos hb hb2
    obtain ⟨us, hdivide, hus, hvalue⟩ := divideDigit_spec (w := w) (j := j)
      ((length_vn b).trans hn) (getD_vn_ne_zero hb hb2 hn) (by omega)
      (hrem ▸ Nat.mod_lt _ hpos)
    have hdown : magnitude (w.un.drop j) = ((un a b).getD j 0).toNat +
        2 ^ 64 * (magnitude ((un a b).drop (j + 1)) % magnitude (vn b)) := by
      rw [magnitude_drop, getD_eq_of_take_eq htake, hrem]
    have hdigit : magnitude (w.un.drop j) / magnitude (vn b) < 2 ^ 64 :=
      hdown ▸ Radix.window_div_lt (UInt64.toNat_lt _) (Nat.mod_lt _ hpos)
    have hjlength : (w.un.take j).length = j := List.length_take_of_le (by omega)
    refine ⟨_, by rw [digits, hok, Checked.ok_bind, ← hj, hdivide], ?_, ?_, ?_, ?_⟩
    · rw [List.length_append, hjlength, hus]
      omega
    · rw [List.take_append_of_le_length hjlength.ge, List.take_take, min_self]
      simpa [List.take_take] using congrArg (List.take j) htake
    · rw [List.drop_append_of_le_length hjlength.ge, List.drop_of_length_le hjlength.le,
        List.nil_append, hvalue, hdown, magnitude_drop j (un a b),
        Radix.bring_down_mod _ (magnitude _)]
    · rw [magnitude_cons, UInt64.toNat_ofNat', Nat.mod_eq_of_lt hdigit, hquotient, hdown,
        magnitude_drop j (un a b), Radix.bring_down_div _ (magnitude _) _ hpos]

include hb hb2 hab in
/-- The shifted operands have the quotient and the remainder of the operands. -/
theorem digits_result :
    ∃ w, digits a b (a.length - b.length + 1) = .ok w ∧
      magnitude w.quotient = magnitude a / magnitude b ∧
      magnitude (shiftDown (shift b) (w.un.take (b.length + 1))) = magnitude a % magnitude b := by
  obtain ⟨w, hok, hlength, -, hrem, hquotient⟩ := digits_spec hb hb2 hab le_rfl
  rw [Nat.sub_self, List.drop_zero, magnitude_un hb hb2, magnitude_vn hb hb2] at hquotient
  rw [Nat.sub_self, List.drop_zero, List.drop_zero, magnitude_un hb hb2, magnitude_vn hb hb2,
    Nat.mul_mod_mul_left] at hrem
  refine ⟨w, hok, ?_, ?_⟩
  · rw [hquotient, Nat.mul_div_mul_left _ _ (Nat.two_pow_pos _)]
  obtain ⟨hs, -⟩ := shift_lt (getLastD_ne_zero hb hb2)
  have hpos := hb.magnitude_pos (List.ne_nil_of_length_pos (by omega))
  have hlt : magnitude w.un < (2 ^ 64) ^ (b.length + 1) := by
    have hvn := magnitude_lt (vn b)
    rw [length_vn, magnitude_vn hb hb2] at hvn
    exact hrem ▸ ((Nat.mul_le_mul_left _ (Nat.mod_lt _ hpos).le).trans_lt hvn).trans_le
      (Nat.pow_le_pow_right (Nat.two_pow_pos 64) (Nat.le_succ _))
  have hzero := magnitude_drop_eq_zero (by omega) hlt
  exact magnitude_shiftDown hs (List.length_take_of_le (by omega))
    ((magnitude_take_eq (by omega) hzero).trans hrem)
    ((Nat.mod_lt _ hpos).trans (magnitude_lt b))

end Digits

end divModMagnitude

open divModMagnitude

/-- The remainder of the division by one limb. -/
theorem singleLimb_spec {rem : ℕ} (h : rem < 2 ^ 64) :
    Trimmed (if rem ≠ 0 then [UInt64.ofNat rem] else []) ∧
      magnitude (if rem ≠ 0 then [UInt64.ofNat rem] else []) = rem := by
  have hvalue : (UInt64.ofNat rem).toNat = rem := by
    rw [UInt64.toNat_ofNat', Nat.mod_eq_of_lt h]
  by_cases hrem : rem = 0
  · rw [if_neg (not_not.mpr hrem)]
    exact ⟨fun hne => absurd rfl hne, hrem.symm⟩
  · rw [if_pos hrem]
    refine ⟨fun _ hlast => hrem (hvalue ▸ congrArg UInt64.toNat hlast), ?_⟩
    rw [magnitude_cons, hvalue]
    rfl

/-- Magnitudes are divided without overflow, and the results have no high zero limbs. -/
theorem divModMagnitude_spec {a b : List UInt64} (ha : Trimmed a) (hb : Trimmed b) (hb0 : b ≠ []) :
    ∃ quotient remainder, divModMagnitude a b = .ok (quotient, remainder) ∧ Trimmed quotient ∧
      Trimmed remainder ∧ magnitude quotient = magnitude a / magnitude b ∧
      magnitude remainder = magnitude a % magnitude b := by
  rw [divModMagnitude]
  rw [compareMagnitude_eq ha hb]
  by_cases hlt : magnitude a < magnitude b
  · rw [if_pos (Nat.compare_eq_lt.mpr hlt)]
    exact ⟨[], a, rfl, fun h => absurd rfl h, ha, (Nat.div_eq_of_lt hlt).symm,
      (Nat.mod_eq_of_lt hlt).symm⟩
  rw [if_neg fun h => hlt (Nat.compare_eq_lt.mp h)]
  by_cases hone : b.length = 1
  · obtain ⟨d, rfl⟩ := List.length_eq_one_iff.mp hone
    have hd : 0 < d.toNat := Nat.pos_of_ne_zero fun h0 =>
      hb hb0 (UInt64.toNat_inj.mp h0)
    obtain ⟨quotient, hok, hquotient⟩ := divModLimb_spec hd a
    have hrem := (Nat.mod_lt (magnitude a) hd).trans d.toNat_lt
    rw [if_pos hone, List.headD_cons, hok, Checked.ok_bind]
    obtain ⟨htrimmed, hvalue⟩ := singleLimb_spec hrem
    refine ⟨trim quotient, _, rfl, trimmed_trim _, ?_, ?_, ?_⟩
    · exact htrimmed
    · rw [magnitude_trim, hquotient]
      simp
    · rw [hvalue]
      simp
  · have hab : b.length ≤ a.length := by
      by_contra hlength
      exact hlt (magnitude_lt_of_length_lt hb (not_le.mp hlength))
    have hpos := List.length_pos_of_ne_nil hb0
    obtain ⟨w, hok, hquotient, hrem⟩ := digits_result hb (by omega) hab
    rw [if_neg hone, hok, Checked.ok_bind]
    exact ⟨_, _, rfl, trimmed_trim _, trimmed_trim _, by rw [magnitude_trim, hquotient],
      by rw [magnitude_trim, hrem]⟩

/-! ### Quotient and remainder -/

theorem canonical_signed {limbs : List UInt64} (h : Trimmed limbs) (negative : Bool) :
    Canonical ⟨limbs, negative && !limbs.isEmpty⟩ := by
  refine ⟨h, ?_⟩
  rintro rfl
  simp

theorem ofLongLong_one : ofLongLong 1 = ⟨[1], false⟩ := by decide

theorem canonical_one : (ofLongLong 1).Canonical := by
  rw [ofLongLong_one]
  exact ⟨fun _ => by simp, fun h => by cases h⟩

theorem toInt_one : (ofLongLong 1).toInt = 1 := by decide

section Signed

variable {a b : BigInt} (ha : a.Canonical) (hb : b.Canonical) (hb0 : b.limbs ≠ [])

include ha hb hb0 in
/-- The quotient of the magnitudes with its sign, and one less when the signs differ and there is a
remainder. -/
theorem div_spec :
    ∃ q, a.div b = .ok q ∧ q.Canonical ∧ q.toInt =
      (if a.negative != b.negative then -((magnitude a.limbs / magnitude b.limbs : ℕ) : ℤ)
        else (magnitude a.limbs / magnitude b.limbs : ℕ)) -
      if (a.negative != b.negative) = true ∧ magnitude a.limbs % magnitude b.limbs ≠ 0 then 1
        else 0 := by
  obtain ⟨quotient, remainder, hok, hquotient, hremainder, hqvalue, hrvalue⟩ :=
    divModMagnitude_spec ha.trimmed hb.trimmed hb0
  have hzero : b.isZero = false := by simpa [isZero] using hb0
  have hrem : remainder.isEmpty = false ↔ magnitude a.limbs % magnitude b.limbs ≠ 0 := by
    rw [← hrvalue, Ne, hremainder.magnitude_eq_zero_iff, ← List.isEmpty_iff,
      Bool.not_eq_true]
  have hq := canonical_signed hquotient (a.negative != b.negative)
  have hqInt := toInt_signed quotient (a.negative != b.negative)
  obtain ⟨q', hsub, hq', hqInt'⟩ := sub_spec hq canonical_one
  rw [hqvalue] at hqInt
  rw [toInt_one, hqInt] at hqInt'
  have hdiv : a.div b = if (a.negative != b.negative && !remainder.isEmpty) = true then
      .ok q'.normalize
      else .ok (normalize ⟨quotient, a.negative != b.negative && !quotient.isEmpty⟩) := by
    simp only [div, hzero, Bool.false_eq_true, ↓reduceIte, Checked.pure_eq, Checked.ok_bind, hok,
      hsub]
  have hround : (a.negative != b.negative && !remainder.isEmpty) = true ↔
      (a.negative != b.negative) = true ∧ magnitude a.limbs % magnitude b.limbs ≠ 0 := by
    rw [Bool.and_eq_true, Bool.not_eq_true', hrem]
  rw [hdiv]
  by_cases h : (a.negative != b.negative) = true ∧ magnitude a.limbs % magnitude b.limbs ≠ 0
  · refine ⟨q'.normalize, if_pos (hround.mpr h), canonical_normalize _, ?_⟩
    rw [toInt_normalize, hqInt', if_pos h]
  · refine ⟨_, if_neg (mt hround.mp h), canonical_normalize _, ?_⟩
    rw [toInt_normalize, hqInt, if_neg h, sub_zero]

include ha hb hb0 in
/-- The remainder of the magnitudes with the sign of the dividend, and one divisor more when the
signs differ and it is not zero. -/
theorem mod_spec :
    ∃ r, a.mod b = .ok r ∧ r.Canonical ∧ r.toInt =
      (if a.negative then -((magnitude a.limbs % magnitude b.limbs : ℕ) : ℤ)
        else (magnitude a.limbs % magnitude b.limbs : ℕ)) +
      if (a.negative != b.negative) = true ∧ magnitude a.limbs % magnitude b.limbs ≠ 0 then b.toInt
        else 0 := by
  obtain ⟨quotient, remainder, hok, -, hremainder, -, hrvalue⟩ :=
    divModMagnitude_spec ha.trimmed hb.trimmed hb0
  have hzero : b.isZero = false := by simpa [isZero] using hb0
  have hrem : remainder.isEmpty = false ↔ magnitude a.limbs % magnitude b.limbs ≠ 0 := by
    rw [← hrvalue, Ne, hremainder.magnitude_eq_zero_iff, ← List.isEmpty_iff,
      Bool.not_eq_true]
  have hr := canonical_signed hremainder a.negative
  have hrInt := toInt_signed remainder a.negative
  obtain ⟨r', hadd, hr', hrInt'⟩ := add_spec hr hb
  rw [hrvalue] at hrInt
  rw [hrInt] at hrInt'
  have hmod : a.mod b =
      if (!remainder.isEmpty && (a.negative && !remainder.isEmpty) != b.negative) = true then
        .ok r'.normalize
      else .ok (normalize ⟨remainder, a.negative && !remainder.isEmpty⟩) := by
    simp only [mod, hzero, Bool.false_eq_true, ↓reduceIte, Checked.pure_eq, Checked.ok_bind, hok,
      hadd]
  have hround : (!remainder.isEmpty && (a.negative && !remainder.isEmpty) != b.negative) = true ↔
      (a.negative != b.negative) = true ∧ magnitude a.limbs % magnitude b.limbs ≠ 0 := by
    rw [← hrem]
    cases remainder.isEmpty <;> simp
  rw [hmod]
  by_cases h : (a.negative != b.negative) = true ∧ magnitude a.limbs % magnitude b.limbs ≠ 0
  · refine ⟨r'.normalize, if_pos (hround.mpr h), canonical_normalize _, ?_⟩
    rw [toInt_normalize, hrInt', if_pos h]
  · refine ⟨_, if_neg (mt hround.mp h), canonical_normalize _, ?_⟩
    rw [toInt_normalize, hrInt, if_neg h, add_zero]

end Signed

/-- A quotient with a remainder on the side of the divisor is the floor. -/
theorem floor_div_eq {a b q r : ℤ} (h : a = b * q + r) (hpos : 0 < b → 0 ≤ r ∧ r < b)
    (hneg : b < 0 → b < r ∧ r ≤ 0) (hb : b ≠ 0) : ⌊(a / b : ℚ)⌋ = q := by
  have hb' : (b : ℚ) ≠ 0 := Int.cast_ne_zero.mpr hb
  have hdiv : (a / b : ℚ) = q + r / b := by
    rw [h]
    push_cast
    field_simp
  rw [hdiv, Int.floor_intCast_add, add_eq_left, Int.floor_eq_zero_iff, Set.mem_Ico]
  obtain hlt | hgt := lt_or_gt_of_ne hb
  · have hbq : (b : ℚ) < 0 := Int.cast_lt_zero.mpr hlt
    exact ⟨div_nonneg_of_nonpos (Int.cast_nonpos.mpr (hneg hlt).2) hbq.le,
      (div_lt_one_of_neg hbq).mpr (Int.cast_lt.mpr (hneg hlt).1)⟩
  · have hbq : (0 : ℚ) < b := Int.cast_pos.mpr hgt
    exact ⟨div_nonneg (by exact_mod_cast (hpos hgt).1) hbq.le,
      (div_lt_one hbq).mpr (Int.cast_lt.mpr (hpos hgt).2)⟩

/-- The quotient and the remainder of the signed operations fit together. -/
theorem div_mod_spec {a b : BigInt} (ha : a.Canonical) (hb : b.Canonical) (hb0 : b.limbs ≠ []) :
    ∃ q r, a.div b = .ok q ∧ a.mod b = .ok r ∧ q.Canonical ∧ r.Canonical ∧
      a.toInt = b.toInt * q.toInt + r.toInt ∧ (0 < b.toInt → 0 ≤ r.toInt ∧ r.toInt < b.toInt) ∧
      (b.toInt < 0 → b.toInt < r.toInt ∧ r.toInt ≤ 0) := by
  obtain ⟨q, hq, hqCanonical, hqInt⟩ := div_spec ha hb hb0
  obtain ⟨r, hr, hrCanonical, hrInt⟩ := mod_spec ha hb hb0
  have hpos := hb.trimmed.magnitude_pos hb0
  have hdiv : (magnitude b.limbs : ℤ) * (magnitude a.limbs / magnitude b.limbs : ℕ) +
      (magnitude a.limbs % magnitude b.limbs : ℕ) = magnitude a.limbs := by
    exact_mod_cast Nat.div_add_mod _ _
  have hmod := Nat.mod_lt (magnitude a.limbs) hpos
  generalize (magnitude a.limbs / magnitude b.limbs : ℕ) = quotient at hqInt hdiv
  generalize (magnitude a.limbs % magnitude b.limbs : ℕ) = remainder at hqInt hrInt hdiv hmod
  refine ⟨q, r, hq, hr, hqCanonical, hrCanonical, ?_⟩
  rw [hqInt, hrInt, toInt, toInt, ← hdiv]
  by_cases hzero : remainder = 0
  · subst hzero
    cases a.negative <;> cases b.negative <;> simp
  · have hrem : 0 < remainder := Nat.pos_of_ne_zero hzero
    -- with one divisor more, the quotient is one less
    cases a.negative <;> cases b.negative <;> simp [hzero, hmod, hmod.le, hrem] <;> ring

/-- What the body of the loop does at position `j`: the corrected trial digit fits a limb and is
the digit of the quotient or one more, so that one divisor is added back at most, and the remainder
of the window is left. -/
structure ExactDigit (vn : List UInt64) (j qhat : ℕ) (w w' : Working) : Prop where
  trial : trialDigit vn (w.un.drop j) = .ok qhat
  fits : qhat < 2 ^ 64
  not_below : magnitude (w.un.drop j) / magnitude vn ≤ qhat
  one_above : qhat ≤ magnitude (w.un.drop j) / magnitude vn + 1
  step : divideDigit vn j w = .ok w'
  exact : magnitude (w'.un.drop j) = magnitude (w.un.drop j) % magnitude vn

theorem exactDigit_of_digits {a b : List UInt64} (hb : Trimmed b) (hb2 : 2 ≤ b.length) {k : ℕ}
    (hk : k + b.length ≤ a.length) {w : Working} (h : digits a b k = .ok w) :
    ∃ qhat w', ExactDigit (vn b) (a.length - b.length - k) qhat w w' := by
  have hab : b.length ≤ a.length := by omega
  obtain ⟨w₀, hok, hlength, -, hrem, -⟩ := digits_spec hb hb2 hab (k := k) (by omega)
  obtain rfl : w = w₀ := Except.ok.inj (h.symm.trans hok)
  rw [show a.length - b.length + 1 - k = a.length - b.length - k + 1 by omega] at hrem
  obtain ⟨n, hn⟩ := Nat.exists_eq_add_of_le' hb2
  have hvn := (length_vn b).trans hn
  have htop := getD_vn_ne_zero hb hb2 hn
  have hwindow : a.length - b.length - k + (n + 3) ≤ w.un.length := by omega
  have hhigh : magnitude (w.un.drop (a.length - b.length - k + 1)) < magnitude (vn b) :=
    hrem ▸ Nat.mod_lt _ (magnitude_vn_pos hb hb2)
  obtain ⟨-, -, qhat, htrial, hfits, hlow, hup⟩ := trialDigit_window hvn htop hwindow hhigh
  obtain ⟨us, hstep, -, hvalue⟩ := divideDigit_spec hvn htop hwindow hhigh
  refine ⟨qhat, _, htrial, hfits, hlow, hup, hstep, ?_⟩
  have hj : (w.un.take (a.length - b.length - k)).length = a.length - b.length - k :=
    List.length_take_of_le (by omega)
  rw [List.drop_append_of_le_length hj.ge, List.drop_of_length_le hj.le, List.nil_append, hvalue]

/-- Quotient and remainder are canonical, and they are those of the floor, without any overflow of
a 128-bit value. Every digit of a division by several limbs is exact. -/
theorem division_floored (a b : BigInt) (ha : a.Canonical) (hb : b.Canonical) (hb0 : b.toInt ≠ 0) :
    (∃ q r, a.div b = .ok q ∧ a.mod b = .ok r ∧ q.Canonical ∧ r.Canonical ∧
      q.toInt = ⌊(a.toInt / b.toInt : ℚ)⌋ ∧
      r.toInt = a.toInt - b.toInt * ⌊(a.toInt / b.toInt : ℚ)⌋ ∧
      |r.toInt| < |b.toInt| ∧ (0 < b.toInt → 0 ≤ r.toInt) ∧ (b.toInt < 0 → r.toInt ≤ 0)) ∧
    ∀ k w, 2 ≤ b.limbs.length → k + b.limbs.length ≤ a.limbs.length →
      digits a.limbs b.limbs k = .ok w →
      ∃ qhat w', ExactDigit (vn b.limbs) (a.limbs.length - b.limbs.length - k) qhat w w' := by
  have hlimbs : b.limbs ≠ [] := by
    intro hnil
    rw [toInt, hnil] at hb0
    simp at hb0
  refine ⟨?_, fun k w hb2 hk h => exactDigit_of_digits hb.trimmed hb2 hk h⟩
  obtain ⟨q, r, hq, hr, hqCanonical, hrCanonical, hsum, hpos, hneg⟩ := div_mod_spec ha hb hlimbs
  have hfloor := floor_div_eq hsum hpos hneg hb0
  refine ⟨q, r, hq, hr, hqCanonical, hrCanonical, hfloor.symm, ?_, ?_, fun h => (hpos h).1,
    fun h => (hneg h).2⟩
  · rw [hfloor, hsum]
    ring
  · obtain h | h := lt_or_gt_of_ne hb0
    · rw [abs_of_neg h, abs_of_nonpos (hneg h).2]
      exact neg_lt_neg (hneg h).1
    · rw [abs_of_pos h, abs_of_nonneg (hpos h).1]
      exact (hpos h).2

/-- A negative dividend of three limbs and a divisor of two. -/
theorem division_floored_negative :
    ∃ q r, div ⟨[5, 7, 9], true⟩ ⟨[3, 1], false⟩ = .ok q ∧
      mod ⟨[5, 7, 9], true⟩ ⟨[3, 1], false⟩ = .ok r ∧ q.Canonical ∧ r.Canonical := by
  have hdividend : Canonical ⟨[5, 7, 9], true⟩ := ⟨fun _ => by simp, fun h => by cases h⟩
  have hdivisor : Canonical ⟨[3, 1], false⟩ := ⟨fun _ => by simp, fun h => by cases h⟩
  obtain ⟨q, r, hq, hr, hqCanonical, hrCanonical, -⟩ :=
    (division_floored _ _ hdividend hdivisor (by simp [toInt])).1
  exact ⟨q, r, hq, hr, hqCanonical, hrCanonical⟩

end BigInt

end BlockchainCrypto
