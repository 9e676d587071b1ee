import BlockchainCrypto.Crypto.BigIntDivision
import BlockchainCrypto.Crypto.BigIntRing
import BlockchainCrypto.Crypto.ECPoint
import Mathlib.Data.Int.ModEq

/-!
# Modular inversion of integers of 64-bit limbs

The `while` loop of `inverse`, on limbs. The loop is run for at most a given number of rounds, and
reports when it has not come to an end. A round decreases the modulus, so that every loop with a
modulus above one ends, and then it has done what the loop on integers does.

## Main definitions

* `BigInt.InverseState`, `BigInt.inverseRound`: the variables of the loop and its body.
* `BigInt.inverse`.

## Main results

* `BigInt.inverseRound_spec`: one round, on the integers.
* `BigInt.inverseRounds_spec`: the loop ends, with the value that the loop on integers finds.
* `BigInt.inverse_of_le`, `BigInt.inverse_spec`: `inverse` as a function of integers.
* `BigInt.inverse_correct`: the inverse of every number that is coprime to the modulus.
-/

namespace BlockchainCrypto

namespace BigInt

/-! ### The code -/

/-- The variables of `inverse`. -/
structure InverseState where
  tempMod : BigInt
  tempA : BigInt
  yPrev : BigInt
  y : BigInt

/-- The body of the loop. -/
def inverseRound (s : InverseState) : Checked InverseState := do
  let q ← s.tempMod.div s.tempA
  let product ← q.mul s.y
  let yNext ← s.yPrev.sub product
  let r ← s.tempMod.mod s.tempA
  pure ⟨s.tempA, r, s.y, yNext⟩

/-- The loop, for at most so many tests of its condition; nothing when that is not enough. -/
def inverseRounds : ℕ → InverseState → Checked (Option BigInt)
  | 0, _ => pure none
  | rounds + 1, s =>
    if s.tempA.gt (ofLongLong 1) then do
      let next ← inverseRound s
      inverseRounds rounds next
    else pure (some s.y)

/-- The inverse modulo `mod`, or none where the loop takes more than the given rounds. -/
def inverse (rounds : ℕ) (a mod : BigInt) : Checked (Option BigInt) := do
  let tempA ← a.mod mod
  let y ← inverseRounds rounds ⟨mod, tempA, ofLongLong 0, ofLongLong 1⟩
  match y with
  | none => pure none
  | some y => do
    let r ← y.mod mod
    pure (some r)

/-! ### Operations on the integers -/

theorem gt_iff {a b : BigInt} (ha : a.Canonical) (hb : b.Canonical) :
    a.gt b = true ↔ b.toInt < a.toInt := by
  rw [BigInt.gt, compare_eq ha hb, beq_iff_eq, Int.compare_eq_gt]

/-- Division by a positive number. -/
theorem div_mod_of_pos {a b : BigInt} (ha : a.Canonical) (hb : b.Canonical) (hpos : 0 < b.toInt) :
    ∃ q r, a.div b = .ok q ∧ a.mod b = .ok r ∧ q.Canonical ∧ r.Canonical ∧
      q.toInt = a.toInt / b.toInt ∧ r.toInt = a.toInt % b.toInt := by
  have hlimbs : b.limbs ≠ [] := by
    intro hnil
    rw [toInt, hnil] at hpos
    simp at hpos
  obtain ⟨q, r, hq, hr, hqCanonical, hrCanonical, hsum, hrange, -⟩ := div_mod_spec ha hb hlimbs
  obtain ⟨hdiv, hmod⟩ := (Int.ediv_emod_unique hpos).mpr
    ⟨(add_comm _ _).trans hsum.symm, hrange hpos⟩
  exact ⟨q, r, hq, hr, hqCanonical, hrCanonical, hdiv.symm, hmod.symm⟩

theorem canonical_zero : (ofLongLong 0).Canonical :=
  ⟨fun h => absurd rfl h, fun _ => rfl⟩

/-- All variables are canonical. -/
structure InverseState.Canonical (s : InverseState) : Prop where
  tempMod : s.tempMod.Canonical
  tempA : s.tempA.Canonical
  yPrev : s.yPrev.Canonical
  y : s.y.Canonical

/-! ### The loop -/

theorem inverseRound_spec {s : InverseState} (hs : s.Canonical) (hpos : 0 < s.tempA.toInt) :
    ∃ next, inverseRound s = .ok next ∧ next.Canonical ∧ next.tempMod.toInt = s.tempA.toInt ∧
      next.tempA.toInt = s.tempMod.toInt % s.tempA.toInt ∧ next.yPrev.toInt = s.y.toInt ∧
      next.y.toInt = s.yPrev.toInt - s.tempMod.toInt / s.tempA.toInt * s.y.toInt := by
  obtain ⟨q, r, hq, hr, hqCanonical, hrCanonical, hqInt, hrInt⟩ :=
    div_mod_of_pos hs.tempMod hs.tempA hpos
  obtain ⟨product, hproduct, hpCanonical, hpInt⟩ := mul_spec q s.y
  obtain ⟨yNext, hyNext, hyCanonical, hyInt⟩ := sub_spec hs.yPrev hpCanonical
  refine ⟨⟨s.tempA, r, s.y, yNext⟩, ?_, ⟨hs.tempA, hrCanonical, hs.y, hyCanonical⟩, rfl, hrInt, rfl,
    ?_⟩
  · simp only [inverseRound, hq, hproduct, hyNext, hr, Checked.ok_bind, Checked.pure_eq]
  · rw [hyInt, hpInt, hqInt]

/-- With as many rounds as the modulus says the loop ends, and it has found what the loop on
integers finds. -/
theorem inverseRounds_spec {rounds : ℕ} {s : InverseState} (hs : s.Canonical)
    (hrounds : s.tempMod.toInt ≤ rounds) (hpos : 0 < s.tempMod.toInt) (hnonneg : 0 ≤ s.tempA.toInt)
    (hlt : s.tempA.toInt < s.tempMod.toInt) :
    ∃ y, inverseRounds rounds s = .ok (some y) ∧ y.Canonical ∧
      y.toInt = inverseLoop rounds s.tempMod.toInt s.tempA.toInt s.yPrev.toInt s.y.toInt := by
  induction rounds generalizing s with
  | zero => exact absurd hrounds (by omega)
  | succ rounds ih =>
    have hgt := gt_iff hs.tempA canonical_one
    rw [toInt_one] at hgt
    rw [inverseRounds, inverseLoop]
    by_cases h : 1 < s.tempA.toInt
    · obtain ⟨next, hnext, hcanonical, hmod, ha, hyPrev, hy⟩ := inverseRound_spec hs (by omega)
      have hpos' : 0 < s.tempA.toInt := by omega
      obtain ⟨y, hrun, hyCanonical, hyInt⟩ := @ih next hcanonical (by omega) (by omega)
        (by rw [ha]; exact Int.emod_nonneg _ hpos'.ne')
        (by rw [ha, hmod]; exact Int.emod_lt_of_pos _ hpos')
      refine ⟨y, ?_, hyCanonical, ?_⟩
      · rw [if_pos (hgt.mpr h), hnext, Checked.ok_bind, hrun]
      · rw [hyInt, if_pos h, hmod, ha, hyPrev, hy]
    · exact ⟨s.y, if_neg (hgt.not.mpr h), hs.y, (if_neg h).symm⟩

/-- More rounds do not change what was found. -/
theorem inverseRounds_mono {rounds rounds' : ℕ} (h : rounds ≤ rounds') {s : InverseState}
    {y : BigInt} (hrun : inverseRounds rounds s = .ok (some y)) :
    inverseRounds rounds' s = .ok (some y) := by
  induction rounds generalizing rounds' s with
  | zero => cases hrun
  | succ rounds ih =>
    obtain ⟨rounds', rfl⟩ := Nat.exists_eq_add_of_le' (show 1 ≤ rounds' by omega)
    rw [inverseRounds] at hrun ⊢
    split_ifs at hrun ⊢ with hgt
    · cases hnext : inverseRound s with
      | error e =>
        rw [hnext] at hrun
        cases hrun
      | ok next =>
        rw [hnext, Checked.ok_bind] at hrun
        exact ih (by omega) hrun
    · exact hrun

/-- For every modulus above one the loop ends within as many rounds as the modulus says, with the
result of the loop on integers. -/
theorem inverse_of_le {a mod : BigInt} (ha : a.Canonical) (hmod : mod.Canonical)
    (hone : 1 < mod.toInt) :
    ∃ r, (∀ rounds, mod.toInt.natAbs ≤ rounds → inverse rounds a mod = .ok (some r)) ∧
      r.Canonical ∧ 0 ≤ r.toInt ∧ r.toInt < mod.toInt ∧
        r.toInt = BlockchainCrypto.inverse a.toInt mod.toInt := by
  have hpos : 0 < mod.toInt := by omega
  obtain ⟨-, tempA, -, htempA, -, hcanonical, -, htempAInt⟩ := div_mod_of_pos ha hmod hpos
  have hrange : 0 ≤ tempA.toInt ∧ tempA.toInt < mod.toInt := by
    rw [htempAInt]
    exact ⟨Int.emod_nonneg _ hpos.ne', Int.emod_lt_of_pos _ hpos⟩
  obtain ⟨y, hrun, hyCanonical, hyInt⟩ :=
    @inverseRounds_spec mod.toInt.natAbs ⟨mod, tempA, ofLongLong 0, ofLongLong 1⟩
      ⟨hmod, hcanonical, canonical_zero, canonical_one⟩ (by dsimp only; omega) hpos hrange.1
      hrange.2
  obtain ⟨-, r, -, hr, -, hrCanonical, -, hrInt⟩ := div_mod_of_pos hyCanonical hmod hpos
  refine ⟨r, fun rounds hrounds => ?_, hrCanonical, ?_, ?_, ?_⟩
  · simp only [inverse, htempA, Checked.ok_bind, inverseRounds_mono hrounds hrun, hr,
      Checked.pure_eq]
  · rw [hrInt]
    exact Int.emod_nonneg _ hpos.ne'
  · rw [hrInt]
    exact Int.emod_lt_of_pos _ hpos
  · rw [hrInt, hyInt, BlockchainCrypto.inverse, htempAInt, toInt_one]
    rfl

/-- For every modulus above one the loop ends, with the result of the loop on integers. -/
theorem inverse_spec {a mod : BigInt} (ha : a.Canonical) (hmod : mod.Canonical)
    (hone : 1 < mod.toInt) :
    ∃ r enough, (∀ rounds, enough ≤ rounds → inverse rounds a mod = .ok (some r)) ∧ r.Canonical ∧
      0 ≤ r.toInt ∧ r.toInt < mod.toInt ∧
        r.toInt = BlockchainCrypto.inverse a.toInt mod.toInt := by
  obtain ⟨r, h⟩ := inverse_of_le ha hmod hone
  exact ⟨r, mod.toInt.natAbs, h⟩

/-- **Inversion terminates and inverts.** For every modulus above one and every number that is
coprime to it, of either sign and any size, the loop ends, no 128-bit value overflows, and the
result is the inverse in the range of the modulus. -/
theorem inverse_correct {a mod : BigInt} (ha : a.Canonical) (hmod : mod.Canonical)
    (hone : 1 < mod.toInt) (hcoprime : Int.gcd a.toInt mod.toInt = 1) :
    ∃ r enough, (∀ rounds, enough ≤ rounds → inverse rounds a mod = .ok (some r)) ∧ r.Canonical ∧
      0 ≤ r.toInt ∧ r.toInt < mod.toInt ∧ a.toInt * r.toInt ≡ 1 [ZMOD mod.toInt] := by
  obtain ⟨r, enough, hrun, hcanonical, hnonneg, hlt, hvalue⟩ := inverse_spec ha hmod hone
  refine ⟨r, enough, hrun, hcanonical, hnonneg, hlt, ?_⟩
  have hdvd := dvd_inverse_mul_sub_one hone (Int.gcd_comm _ _ ▸ hcoprime)
  rw [← hvalue, mul_comm] at hdvd
  exact (Int.modEq_iff_dvd.mpr hdvd).symm

/-- A negative number that is larger than the modulus. -/
theorem inverse_correct_negative : ∃ r enough,
    (∀ rounds, enough ≤ rounds → inverse rounds ⟨[10, 1], true⟩ ⟨[7], false⟩ = .ok (some r)) ∧
      0 ≤ r.toInt ∧ r.toInt < 7 := by
  have ha : Canonical ⟨[10, 1], true⟩ := ⟨fun _ => by simp, fun h => by cases h⟩
  have hmod : Canonical ⟨[7], false⟩ := ⟨fun _ => by simp, fun h => by cases h⟩
  obtain ⟨r, enough, hrun, -, hnonneg, hlt, -⟩ :=
    inverse_correct ha hmod (by decide) (by decide +kernel)
  exact ⟨r, enough, hrun, hnonneg, hlt⟩

end BigInt

end BlockchainCrypto
