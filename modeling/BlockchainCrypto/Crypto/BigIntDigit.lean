import BlockchainCrypto.Crypto.BigInt
import BlockchainCrypto.Theory.LongDivision
import Mathlib.Tactic.LinearCombination
import Mathlib.Tactic.Zify

/-!
# One digit of a division

The body of the loop over the digits in `divModMagnitude`: a trial digit from the leading limbs of
dividend and divisor, a correction loop that makes it at most one too large, the subtraction of the
multiple of the divisor, and the addition of the divisor when the subtraction has borrowed.

## Main definitions

* `BigInt.divModMagnitude.trialDigit`: the corrected trial digit.
* `BigInt.divModMagnitude.divideDigit`: the body of the loop.

## Main results

* `BigInt.divModMagnitude.trialDigit_spec`: the corrected trial digit fits a limb and is at most one
  too large.
* `BigInt.divModMagnitude.divideDigit_spec`: one digit of the division.
-/

namespace BlockchainCrypto

namespace BigInt

namespace divModMagnitude

/-! ### The code -/

/-- The condition of the correction loop. -/
def tooLarge (v₂ u₀ : UInt64) (qhat rhat : ℕ) : Checked Bool :=
  if 2 ^ 64 ≤ qhat then pure true
  else do
    let product ← u128 (qhat * v₂.toNat)
    let high ← u128 (rhat <<< 64)
    pure (decide (high ||| u₀.toNat < product))

/-- The correction loop; it decrements `qhat` and stops at zero at the latest, where the condition
is false. -/
def correct (v₁ v₂ u₀ : UInt64) : ℕ → ℕ → Checked ℕ
  | 0, rhat => do
    let _ ← tooLarge v₂ u₀ 0 rhat
    pure 0
  | qhat + 1, rhat => do
    if ← tooLarge v₂ u₀ (qhat + 1) rhat then
      let rhat ← u128 (rhat + v₁.toNat)
      if 2 ^ 64 ≤ rhat then pure qhat else correct v₁ v₂ u₀ qhat rhat
    else pure (qhat + 1)

/-- The corrected trial digit for the limbs `us` of the dividend from position `j` on. -/
def trialDigit (vn us : List UInt64) : Checked ℕ := do
  let n := vn.length
  let high ← u128 ((us.getD n 0).toNat <<< 64)
  let numerator := high ||| (us.getD (n - 1) 0).toNat
  let v₁ := vn.getD (n - 1) 0
  correct v₁ (vn.getD (n - 2) 0) (us.getD (n - 2) 0) (numerator / v₁.toNat) (numerator % v₁.toNat)

/-- The loop that subtracts `qhat` times the divisor, with its carry and borrow. -/
def mulSub (qhat : ℕ) : List UInt64 → List UInt64 → ℕ → ℤ → Checked (List UInt64 × ℕ × ℤ)
  | v :: vs, u :: us, mulCarry, borrow => do
    let scaled ← u128 (qhat * v.toNat)
    let product ← u128 (scaled + mulCarry)
    let diff ← i128 (u.toNat - (UInt64.ofNat product).toNat)
    let diff ← i128 (diff - borrow)
    let (rest, mulCarry, borrow) ← mulSub qhat vs us (product >>> 64) (if diff < 0 then 1 else 0)
    pure (UInt64.ofInt diff :: rest, mulCarry, borrow)
  | _, _, mulCarry, borrow => pure ([], mulCarry, borrow)

/-- The decrement of an `unsigned __int128`. -/
def decrement : ℕ → Checked ℕ
  | 0 => .error .overflow
  | x + 1 => .ok x

/-- The loop that adds the divisor back, with its carry. -/
def addBack : List UInt64 → List UInt64 → ℕ → Checked (List UInt64 × ℕ)
  | v :: vs, u :: us, carry => do
    let sum ← u128 (u.toNat + v.toNat)
    let sum ← u128 (sum + carry)
    let (rest, carry) ← addBack vs us (sum >>> 64)
    pure (UInt64.ofNat sum :: rest, carry)
  | _, _, carry => pure ([], carry)

/-- The arrays of the division: the dividend, which becomes the remainder, and the digits of the
quotient so far, least significant first. -/
structure Working where
  un : List UInt64
  quotient : List UInt64

/-- The body of the loop over the digits, at position `j`. -/
def divideDigit (vn : List UInt64) (j : ℕ) (w : Working) : Checked Working := do
  let n := vn.length
  let us := w.un.drop j
  let qhat ← trialDigit vn us
  let (window, mulCarry, borrow) ← mulSub qhat vn us 0 0
  let top ← i128 ((us.getD n 0).toNat - mulCarry)
  let top ← i128 (top - borrow)
  if top < 0 then
    let qhat ← decrement qhat
    let (window, carry) ← addBack vn window 0
    let sum ← u128 ((UInt64.ofInt top).toNat + carry)
    pure ⟨w.un.take j ++ (window ++ UInt64.ofNat sum :: us.drop (n + 1)),
      UInt64.ofNat qhat :: w.quotient⟩
  else
    pure ⟨w.un.take j ++ (window ++ UInt64.ofInt top :: us.drop (n + 1)),
      UInt64.ofNat qhat :: w.quotient⟩

end divModMagnitude

/-! ### Double limbs -/

/-- A limb below the digits of a number. -/
theorem shiftLeft_or (high : ℕ) (x : UInt64) :
    high <<< 64 ||| x.toNat = x.toNat + 2 ^ 64 * high := by
  rw [← Nat.shiftLeft_add_eq_or_of_lt x.toNat_lt, Nat.shiftLeft_eq]
  ring

theorem u128_shiftLeft {rem : ℕ} (h : rem < 2 ^ 64) : u128 (rem <<< 64) = .ok (rem <<< 64) :=
  u128_eq (by rw [Nat.shiftLeft_eq]; omega)

namespace divModMagnitude

/-! ### The trial digit -/

theorem tooLarge_eq (v₂ u₀ : UInt64) (qhat : ℕ) {rhat : ℕ} (hrhat : rhat < 2 ^ 64) :
    tooLarge v₂ u₀ qhat rhat =
      .ok (decide (2 ^ 64 ≤ qhat ∨ u₀.toNat + 2 ^ 64 * rhat < qhat * v₂.toNat)) := by
  rw [tooLarge]
  split_ifs with hbase
  · exact congrArg Except.ok (decide_eq_true (.inl hbase)).symm
  · have hproduct : qhat * v₂.toNat < 2 ^ 64 * 2 ^ 64 :=
      Nat.mul_lt_mul_of_lt_of_le (not_le.mp hbase) v₂.toNat_lt.le (Nat.two_pow_pos 64)
    rw [u128_eq hproduct, Checked.ok_bind, u128_shiftLeft hrhat, Checked.ok_bind, shiftLeft_or]
    exact congrArg Except.ok (decide_eq_decide.mpr (or_iff_right hbase).symm)

/-- The correction keeps the trial digit above the quotient digit `q` and leaves it below the base
and fitting the leading limbs. -/
theorem correct_spec {v₁ v₂ u₂ u₁ u₀ : UInt64} {q : ℕ} (hu₂ : u₂.toNat ≤ v₁.toNat)
    (hq : q < 2 ^ 64)
    (hfits : q * (v₂.toNat + 2 ^ 64 * v₁.toNat) ≤
      u₀.toNat + 2 ^ 64 * (u₁.toNat + 2 ^ 64 * u₂.toNat))
    {qhat rhat : ℕ} (htrial : Radix.Trial v₁.toNat (u₁.toNat + 2 ^ 64 * u₂.toNat) qhat rhat)
    (hrhat : rhat < 2 ^ 64) (hle : q ≤ qhat) :
    ∃ d, correct v₁ v₂ u₀ qhat rhat = .ok d ∧ d < 2 ^ 64 ∧ q ≤ d ∧
      d * (v₂.toNat + 2 ^ 64 * v₁.toNat) ≤
        u₀.toNat + 2 ^ 64 * (u₁.toNat + 2 ^ 64 * u₂.toNat) := by
  induction qhat generalizing rhat with
  | zero =>
    refine ⟨0, ?_, Nat.two_pow_pos 64, hle, by rw [Nat.zero_mul]; exact Nat.zero_le _⟩
    rw [correct, tooLarge_eq _ _ _ hrhat, Checked.ok_bind]
    rfl
  | succ qhat ih =>
    rw [correct, tooLarge_eq _ _ _ hrhat, Checked.ok_bind]
    by_cases hlarge : 2 ^ 64 ≤ qhat + 1 ∨ u₀.toNat + 2 ^ 64 * rhat < (qhat + 1) * v₂.toNat
    · have hv₁ := v₁.toNat_lt
      -- the quotient digit itself passes the test
      have hle' : q ≤ qhat := by
        by_contra hgt
        obtain rfl : q = qhat + 1 := by omega
        have hnot := htrial.mul_le_iff.mp hfits
        omega
      rw [if_pos (decide_eq_true hlarge), u128_eq (by omega), Checked.ok_bind]
      by_cases hexit : 2 ^ 64 ≤ rhat + v₁.toNat
      · have hlt := htrial.pred.lt_of_exit u₁.toNat_lt hu₂ hexit
        refine ⟨qhat, by rw [if_pos hexit]; rfl, hlt, hle', htrial.pred.mul_le_iff.mpr ?_⟩
        calc qhat * v₂.toNat ≤ 2 ^ 64 * 2 ^ 64 := Nat.mul_le_mul hlt.le v₂.toNat_lt.le
          _ ≤ 2 ^ 64 * (rhat + v₁.toNat) := Nat.mul_le_mul_left _ hexit
          _ ≤ u₀.toNat + 2 ^ 64 * (rhat + v₁.toNat) := Nat.le_add_left _ _
      · rw [if_neg hexit]
        exact ih htrial.pred (not_le.mp hexit) hle'
    · obtain ⟨hlt, hsmall⟩ := not_or.mp hlarge
      refine ⟨qhat + 1, ?_, not_le.mp hlt, hle, htrial.mul_le_iff.mpr (not_lt.mp hsmall)⟩
      rw [decide_eq_false hlarge]
      rfl

theorem leads_one (k : ℕ) (xs : List UInt64) :
    Radix.Leads ((2 ^ 64) ^ k) (xs.getD k 0).toNat (magnitude (xs.take (k + 1))) :=
  Radix.leads_of_eq (magnitude_take_succ k xs) (magnitude_take_lt k xs)

theorem leads_two (k : ℕ) (xs : List UInt64) :
    Radix.Leads ((2 ^ 64) ^ k) ((xs.getD k 0).toNat + 2 ^ 64 * (xs.getD (k + 1) 0).toNat)
      (magnitude (xs.take (k + 2))) := by
  refine Radix.leads_of_eq ?_ (magnitude_take_lt k xs)
  rw [magnitude_take_succ (k + 1), magnitude_take_succ k]
  ring

theorem leads_three (k : ℕ) (xs : List UInt64) :
    Radix.Leads ((2 ^ 64) ^ k) ((xs.getD k 0).toNat +
        2 ^ 64 * ((xs.getD (k + 1) 0).toNat + 2 ^ 64 * (xs.getD (k + 2) 0).toNat))
      (magnitude (xs.take (k + 3))) := by
  refine Radix.leads_of_eq ?_ (magnitude_take_lt k xs)
  rw [magnitude_take_succ (k + 2), magnitude_take_succ (k + 1), magnitude_take_succ k]
  ring

/-- The corrected trial digit fits a limb, and it is the digit of the quotient or one more. -/
theorem trialDigit_spec {k : ℕ} {vn us : List UInt64} (hk : vn.length = k + 2)
    (htop : vn.getD (k + 1) 0 ≠ 0)
    (hlt : magnitude (us.take (k + 3)) < 2 ^ 64 * magnitude vn) :
    ∃ qhat, trialDigit vn us = .ok qhat ∧ qhat < 2 ^ 64 ∧
      magnitude (us.take (k + 3)) / magnitude vn ≤ qhat ∧
      qhat ≤ magnitude (us.take (k + 3)) / magnitude vn + 1 := by
  have hvn : magnitude vn = magnitude (vn.take (k + 2)) := by rw [← hk, List.take_length]
  rw [hvn] at hlt ⊢
  have hv₁ := leads_one (k + 1) vn
  have hv₂ := leads_two k vn
  have hu₃ := leads_three k us
  have hpos : 0 < (vn.getD (k + 1) 0).toNat :=
    Nat.pos_of_ne_zero fun h0 => htop (UInt64.toNat_inj.mp h0)
  have hvpos : 0 < magnitude (vn.take (k + 2)) :=
    (Nat.mul_pos (Nat.pow_pos (Nat.two_pow_pos 64)) hpos).trans_le hv₁.le
  have hq : magnitude (us.take (k + 3)) / magnitude (vn.take (k + 2)) < 2 ^ 64 :=
    Nat.div_lt_of_lt_mul (mul_comm (2 ^ 64) _ ▸ hlt)
  have htop_le : (us.getD (k + 2) 0).toNat ≤ (vn.getD (k + 1) 0).toNat :=
    (pow_succ' (2 ^ 64) (k + 1) ▸ leads_one (k + 2) us).le_of_lt hv₁ hlt
  -- the quotient fits two leading limbs over one, and three over two
  have hfirst := (Nat.le_div_iff_mul_le hpos).mpr ((leads_two (k + 1) us).div_mul_le hv₁)
  obtain ⟨d, hd, hd64, hqd, hfits⟩ := correct_spec htop_le hq (hu₃.div_mul_le hv₂)
    ⟨Nat.div_add_mod' _ _⟩ ((Nat.mod_lt _ hpos).trans (vn.getD (k + 1) 0).toNat_lt) hfirst
  refine ⟨d, ?_, hd64, hqd, hu₃.le_div_add_one hv₂ hvpos hfits (by omega)⟩
  rw [trialDigit, hk, u128_shiftLeft (us.getD (k + 2) 0).toNat_lt, Checked.ok_bind, shiftLeft_or]
  exact hd

/-! ### Subtracting and adding back -/

/-- A multiple of the divisor is subtracted, up to what the carry and the borrow still take away
above the window. -/
theorem mulSub_spec {qhat : ℕ} (hqhat : qhat < 2 ^ 64) {vs us : List UInt64} {mulCarry : ℕ}
    {borrow : ℤ} (hlength : vs.length ≤ us.length) (hcarry : mulCarry < 2 ^ 64)
    (hborrow : borrow = 0 ∨ borrow = 1) :
    ∃ window mulCarry' borrow', mulSub qhat vs us mulCarry borrow =
        .ok (window, mulCarry', borrow') ∧
      window.length = vs.length ∧ mulCarry' < 2 ^ 64 ∧ (borrow' = 0 ∨ borrow' = 1) ∧
      (magnitude (us.take vs.length) : ℤ) + (2 ^ 64) ^ vs.length * (mulCarry' + borrow') =
        magnitude window + qhat * magnitude vs + mulCarry + borrow := by
  induction vs generalizing us mulCarry borrow with
  | nil => exact ⟨[], mulCarry, borrow, rfl, rfl, hcarry, hborrow, by simp⟩
  | cons v vs ih =>
    obtain _ | ⟨u, us⟩ := us
    · cases hlength
    have hu := u.toNat_lt
    have hscaled : qhat * v.toNat ≤ (2 ^ 64 - 1) * (2 ^ 64 - 1) :=
      Nat.mul_le_mul (Nat.le_pred_of_lt hqhat) (Nat.le_pred_of_lt v.toNat_lt)
    generalize hproduct : qhat * v.toNat + mulCarry = product
    generalize hdiff : (u.toNat : ℤ) - (UInt64.ofNat product).toNat - borrow = diff
    have hlow : (UInt64.ofNat product).toNat = product % 2 ^ 64 := UInt64.toNat_ofNat'
    have hlimb := toNat_ofInt diff
    obtain ⟨window, mulCarry', borrow', hok, hwindow, hcarry', hborrow', hvalue⟩ :=
      @ih us (product >>> 64) (if diff < 0 then 1 else 0)
        (Nat.le_of_succ_le_succ hlength) (by omega) (by split_ifs <;> simp)
    refine ⟨UInt64.ofInt diff :: window, mulCarry', borrow', ?_,
      congrArg Nat.succ hwindow, hcarry', hborrow', ?_⟩
    · simp only [mulSub, u128_eq (by omega : qhat * v.toNat < 2 ^ 128), Checked.ok_bind, hproduct,
        u128_eq (by omega : product < 2 ^ 128),
        i128_eq (by omega : -2 ^ 127 ≤ (u.toNat : ℤ) - (UInt64.ofNat product).toNat) (by omega),
        hdiff, i128_eq (by omega : -2 ^ 127 ≤ diff) (by omega), hok]
      rfl
    · have hstep : (u.toNat : ℤ) + 2 ^ 64 * ((product >>> 64 : ℕ) + if diff < 0 then 1 else 0) =
          (UInt64.ofInt diff).toNat + product + borrow := by
        split_ifs <;> omega
      have hproduct' : (product : ℤ) = qhat * v.toNat + mulCarry := by
        rw [← hproduct]
        push_cast
        rfl
      rw [List.length_cons, List.take_succ_cons, magnitude_cons, magnitude_cons, magnitude_cons,
        pow_succ _ vs.length]
      push_cast
      linear_combination 2 ^ 64 * hvalue + hstep + hproduct'

/-- The divisor is added to the window. -/
theorem addBack_spec {vs us : List UInt64} {carry : ℕ} (hlength : vs.length ≤ us.length)
    (hcarry : carry < 2) :
    ∃ window carry', addBack vs us carry = .ok (window, carry') ∧
      window.length = vs.length ∧ carry' < 2 ∧
      magnitude window + (2 ^ 64) ^ vs.length * carry' =
        magnitude (us.take vs.length) + magnitude vs + carry := by
  induction vs generalizing us carry with
  | nil => exact ⟨[], carry, rfl, rfl, hcarry, by simp⟩
  | cons v vs ih =>
    obtain _ | ⟨u, us⟩ := us
    · cases hlength
    have hu := u.toNat_lt
    have hv := v.toNat_lt
    generalize hsum : u.toNat + v.toNat + carry = sum
    have hlimb : (UInt64.ofNat sum).toNat = sum % 2 ^ 64 := UInt64.toNat_ofNat'
    obtain ⟨window, carry', hok, hwindow, hcarry', hvalue⟩ :=
      @ih us (sum >>> 64) (Nat.le_of_succ_le_succ hlength) (by omega)
    refine ⟨UInt64.ofNat sum :: window, carry', ?_, congrArg Nat.succ hwindow, hcarry', ?_⟩
    · simp only [addBack, u128_eq (by omega : u.toNat + v.toNat < 2 ^ 128), Checked.ok_bind, hsum,
        u128_eq (by omega : sum < 2 ^ 128), hok]
      rfl
    · have hstep : u.toNat + v.toNat + carry =
          (UInt64.ofNat sum).toNat + 2 ^ 64 * (sum >>> 64) := by omega
      rw [List.length_cons, List.take_succ_cons, magnitude_cons, magnitude_cons, magnitude_cons,
        pow_succ _ vs.length]
      zify at hvalue hstep ⊢
      linear_combination 2 ^ 64 * hvalue - hstep

/-! ### One digit -/

/-- The limbs above the window are zero. -/
theorem magnitude_take_window {k : ℕ} {us : List UInt64} (hlength : k + 3 ≤ us.length)
    (hhigh : magnitude (us.drop 1) < (2 ^ 64) ^ (k + 2)) :
    magnitude (us.drop (k + 3)) = 0 ∧ magnitude us = magnitude (us.take (k + 3)) := by
  have hzero := magnitude_drop_eq_zero (by rw [List.length_drop]; omega) hhigh
  rw [List.drop_drop, show 1 + (k + 2) = k + 3 by omega] at hzero
  exact ⟨hzero, (magnitude_take_eq hlength hzero).symm⟩

/-- A negative limb is stored with the radix added. -/
theorem toNat_ofInt_of_borrow {t : ℤ} (hlow : -2 ^ 64 ≤ t) (hhigh : t < 2 ^ 64) :
    ((UInt64.ofInt t).toNat : ℤ) = t + 2 ^ 64 * if t < 0 then 1 else 0 := by
  rw [toNat_ofInt]
  split_ifs <;> omega

/-- The window at position `j`, and its corrected trial digit. -/
theorem trialDigit_window {k j : ℕ} {vn : List UInt64} {w : Working} (hk : vn.length = k + 2)
    (htop : vn.getD (k + 1) 0 ≠ 0) (hlength : j + (k + 3) ≤ w.un.length)
    (hhigh : magnitude (w.un.drop (j + 1)) < magnitude vn) :
    magnitude (w.un.drop (j + (k + 3))) = 0 ∧
      magnitude (w.un.drop j) = magnitude ((w.un.drop j).take (k + 3)) ∧
      ∃ qhat, trialDigit vn (w.un.drop j) = .ok qhat ∧ qhat < 2 ^ 64 ∧
        magnitude (w.un.drop j) / magnitude vn ≤ qhat ∧
        qhat ≤ magnitude (w.un.drop j) / magnitude vn + 1 := by
  have husLength : k + 3 ≤ (w.un.drop j).length := by rw [List.length_drop]; omega
  have hvn : magnitude vn < (2 ^ 64) ^ (k + 2) := hk ▸ magnitude_lt vn
  have hdrop : (w.un.drop j).drop 1 = w.un.drop (j + 1) := by rw [List.drop_drop]
  obtain ⟨hzero, hmagnitude⟩ := magnitude_take_window husLength (hdrop ▸ hhigh.trans hvn)
  have hlt : magnitude (w.un.drop j) < 2 ^ 64 * magnitude vn := by
    rw [magnitude_eq_headD_tail (w.un.drop j), ← List.drop_one, hdrop]
    exact Radix.window_lt (UInt64.toNat_lt _) hhigh
  rw [List.drop_drop] at hzero
  have htrial := trialDigit_spec hk htop (hmagnitude ▸ hlt)
  rw [← hmagnitude] at htrial
  exact ⟨hzero, hmagnitude, htrial⟩

/-- The trial multiple is subtracted from a window, whose highest limb is stored with the radix
added when it is negative. -/
theorem mulSub_window {k qhat : ℕ} (hqhat : qhat < 2 ^ 64) {vn us : List UInt64}
    (hk : vn.length = k + 2) (hlength : k + 3 ≤ us.length)
    (hmagnitude : magnitude us = magnitude (us.take (k + 3))) :
    ∃ window mulCarry borrow, mulSub qhat vn us 0 0 = .ok (window, mulCarry, borrow) ∧
      window.length = k + 2 ∧ mulCarry < 2 ^ 64 ∧ (borrow = 0 ∨ borrow = 1) ∧
      ∀ t, ((us.getD (k + 2) 0).toNat : ℤ) - mulCarry - borrow = t →
        magnitude us + (2 ^ 64) ^ (k + 3) * (if t < 0 then 1 else 0) =
          magnitude window + (2 ^ 64) ^ (k + 2) * (UInt64.ofInt t).toNat +
            qhat * magnitude vn := by
  obtain ⟨window, mulCarry, borrow, hmulSub, hwindow, hcarry, hborrow, hvalue⟩ :=
    @mulSub_spec qhat hqhat vn us 0 0 (by omega) (by decide) (.inl rfl)
  rw [hk] at hvalue hwindow
  refine ⟨window, mulCarry, borrow, hmulSub, hwindow, hcarry, hborrow, fun t ht => ?_⟩
  have hu := (us.getD (k + 2) 0).toNat_lt
  have hlimb := toNat_ofInt_of_borrow (t := t) (by omega) (by omega)
  rw [hmagnitude, magnitude_take_succ (k + 2) us, pow_succ _ (k + 2)]
  zify
  rw [hlimb, ← ht]
  push_cast
  linear_combination hvalue

/-- The carry of the addition cancels a borrow. -/
theorem addBack_window {k limb r : ℕ} {vn window : List UInt64} (hk : vn.length = k + 2)
    (hwindow : window.length = k + 2) (hr : r < magnitude vn)
    (h : magnitude window + (2 ^ 64) ^ (k + 2) * limb + magnitude vn = r + (2 ^ 64) ^ (k + 3)) :
    ∃ window' carry, addBack vn window 0 = .ok (window', carry) ∧ window'.length = k + 2 ∧
      magnitude window' = r ∧ limb + carry = 2 ^ 64 := by
  obtain ⟨window', carry, haddBack, hwindow', -, hsum⟩ :=
    @addBack_spec vn window 0 (by omega) (by decide)
  rw [hk, List.take_of_length_le hwindow.le, Nat.add_zero] at hsum
  rw [hk] at hwindow'
  have hvn : magnitude vn < (2 ^ 64) ^ (k + 2) := hk ▸ magnitude_lt vn
  have hwindowLt : magnitude window' < (2 ^ 64) ^ (k + 2) := hwindow' ▸ magnitude_lt window'
  have hdigits : magnitude window' + (2 ^ 64) ^ (k + 2) * (limb + carry) =
      r + (2 ^ 64) ^ (k + 2) * 2 ^ 64 := by
    rw [← pow_succ]
    linear_combination hsum + h
  obtain ⟨hmagnitude, hcarry⟩ := Radix.digits_inj hwindowLt (hr.trans hvn) hdigits
  exact ⟨window', carry, haddBack, hwindow', hmagnitude, hcarry⟩

/-- The digit of the quotient is appended, and the window becomes its remainder. -/
theorem divideDigit_spec {k j : ℕ} {vn : List UInt64} {w : Working} (hk : vn.length = k + 2)
    (htop : vn.getD (k + 1) 0 ≠ 0) (hlength : j + (k + 3) ≤ w.un.length)
    (hhigh : magnitude (w.un.drop (j + 1)) < magnitude vn) :
    ∃ us, divideDigit vn j w = .ok ⟨w.un.take j ++ us,
        UInt64.ofNat (magnitude (w.un.drop j) / magnitude vn) :: w.quotient⟩ ∧
      us.length = w.un.length - j ∧
      magnitude us = magnitude (w.un.drop j) % magnitude vn := by
  obtain ⟨hzero, hmagnitude, qhat, htrial, hqhat, hlow, hhigh'⟩ :=
    trialDigit_window hk htop hlength hhigh
  rw [← List.drop_drop] at hzero
  have hvn : magnitude vn < (2 ^ 64) ^ (k + 2) := hk ▸ magnitude_lt vn
  have husLength : k + 3 ≤ (w.un.drop j).length := by rw [List.length_drop]; omega
  generalize hus : w.un.drop j = us at *
  obtain ⟨window, mulCarry, borrow, hmulSub, hwindow, hcarry, hborrow, hvalue⟩ :=
    mulSub_window hqhat hk husLength hmagnitude
  have hu := (us.getD (k + 2) 0).toNat_lt
  generalize ht : ((us.getD (k + 2) 0).toNat : ℤ) - mulCarry - borrow = t
  have hsub := hvalue t ht
  have hstored : magnitude window + (2 ^ 64) ^ (k + 2) * (UInt64.ofInt t).toNat <
      (2 ^ 64) ^ (k + 3) := by
    have h := magnitude_lt (window ++ [UInt64.ofInt t])
    rwa [magnitude_append, hwindow, List.length_append, hwindow, magnitude_cons, magnitude_nil,
      Nat.mul_zero, Nat.add_zero] at h
  have hvn' : magnitude vn < (2 ^ 64) ^ (k + 3) :=
    hvn.trans_le (Nat.pow_le_pow_right (Nat.two_pow_pos 64) (Nat.le_succ _))
  have hmod := Nat.mod_lt (magnitude us) (Nat.zero_lt_of_lt hhigh)
  have hbody := Radix.sub_cases (Nat.zero_lt_of_lt hhigh) hvn' hstored hlow hhigh' hsub
  have hlengths : (window ++ UInt64.ofInt t :: us.drop (k + 3)).length = w.un.length - j := by
    rw [List.length_append, hwindow, List.length_cons, List.length_drop, ← hus, List.length_drop]
    omega
  have hdivide : divideDigit vn j w = if t < 0 then do
        let qhat ← decrement qhat
        let (window, carry) ← addBack vn window 0
        let sum ← u128 ((UInt64.ofInt t).toNat + carry)
        pure ⟨w.un.take j ++ (window ++ UInt64.ofNat sum :: us.drop (k + 3)),
          UInt64.ofNat qhat :: w.quotient⟩
      else pure ⟨w.un.take j ++ (window ++ UInt64.ofInt t :: us.drop (k + 3)),
        UInt64.ofNat qhat :: w.quotient⟩ := by
    simp only [divideDigit, hus, hk, htrial, Checked.ok_bind, hmulSub,
      i128_eq (by omega : -2 ^ 127 ≤ ((us.getD (k + 2) 0).toNat : ℤ) - mulCarry) (by omega), ht,
      i128_eq (by omega : -2 ^ 127 ≤ t) (by omega)]
  by_cases hneg : t < 0
  · -- the trial digit was one too large, and the carry of the addition cancels the borrow
    rw [if_pos hneg] at hbody
    obtain ⟨-, h, -⟩ | ⟨hq, -, hrem⟩ := hbody
    · cases h
    obtain ⟨window', carry, haddBack, hwindow', hmagnitude', hzero'⟩ :=
      addBack_window hk hwindow hmod hrem
    refine ⟨window' ++ UInt64.ofNat ((UInt64.ofInt t).toNat + carry) :: us.drop (k + 3), ?_, ?_, ?_⟩
    · rw [hdivide, if_pos hneg, hq, decrement, Checked.ok_bind, haddBack, Checked.ok_bind]
      simp only [u128_eq (by omega : (UInt64.ofInt t).toNat + carry < 2 ^ 128)]
      rfl
    · rw [← hlengths, List.length_append, List.length_append, hwindow', hwindow]
      rfl
    · rw [magnitude_append, magnitude_cons, hzero, hzero', hmagnitude']
      simp
  · rw [if_neg hneg] at hbody
    obtain ⟨hq, -, hrem⟩ | ⟨-, h, -⟩ := hbody
    · refine ⟨window ++ UInt64.ofInt t :: us.drop (k + 3), ?_, hlengths, ?_⟩
      · rw [hdivide, if_neg hneg, hq]
        rfl
      · rw [magnitude_append, magnitude_cons, hzero, hwindow, Nat.mul_zero, ← hrem]
        rfl
    · cases h

end divModMagnitude

end BigInt

end BlockchainCrypto
