import Mathlib.Data.Int.Basic

/-!
# Amounts of money

`money.h`: an amount is a signed 64-bit count of the smallest unit, and a transaction may carry
the positive amounts up to the supply cap.

## Main definitions

* `money.Amount`, `money.COIN`, `money.MAX_MONEY`, `money.coins`.
* `money.isValidAmount`: what a transaction amount may be.

## Main results

* `money.isValidAmount_iff`: the same in exact integers.
-/

namespace BlockchainCrypto

namespace money

/-- A number of units; `COIN` of them are a coin. -/
abbrev Amount := Int64

/-- The number of units in a coin. -/
def COIN : Amount := 100000000

/-- The supply cap. -/
def MAX_MONEY : Amount := 21000000 * COIN

/-- A whole number of coins. -/
def coins (whole : Int64) : Amount := whole * COIN

/-- Strictly positive and within the cap. -/
def isValidAmount (amount : Amount) : Bool := amount > 0 && amount ≤ MAX_MONEY

theorem isValidAmount_iff {amount : Amount} :
    isValidAmount amount = true ↔ 0 < amount.toInt ∧ amount.toInt ≤ 2100000000000000 := by
  have hmax : MAX_MONEY.toInt = 2100000000000000 := by decide
  simp only [isValidAmount, Bool.and_eq_true, decide_eq_true_eq, gt_iff_lt, Int64.lt_iff_toInt_lt,
    Int64.le_iff_toInt_le, hmax, Int64.toInt_zero]

end money

end BlockchainCrypto
