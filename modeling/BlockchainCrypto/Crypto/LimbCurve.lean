import BlockchainCrypto.Crypto.BigIntCanonical

/-!
# Points of limbs

The point arithmetic of `ECCrypto.cpp` as it runs, on integers of 64-bit limbs. Every operation may
throw or overflow, and loops are given a number of rounds. On points with canonical coordinates over
a modulus above one none of this happens, and the result is the canonical form of what the
arithmetic on integers gives.

## Main definitions

* `Exec`: results of code on limbs.
* `ECCrypto.LimbPoint`, with `doubledPoint`, `add` and `mul`.
* `ECCrypto.ECPoint.toLimbs`: the canonical form of a point.

## Main results

* `ECCrypto.LimbPoint.add_toLimbs`, `ECCrypto.LimbPoint.mul_toLimbs`.
-/

namespace BlockchainCrypto

open ByteText BigInt

/-! ### Results -/

/-- Why code on limbs stops: an exception, a fault, or a loop that is not given enough rounds. -/
inductive Stop where
  | fault (fault : TextFault)
  | rounds
  deriving DecidableEq

/-- A result, or the reason for which the computation stopped. -/
abbrev Exec := Except Stop

namespace Exec

instance : MonadLift Checked Exec := ⟨fun x => x.mapError fun f => .fault (.arithmetic f)⟩

instance : MonadLift (Except TextFault) Exec := ⟨fun x => x.mapError .fault⟩

variable {α β : Type}

@[simp] theorem ok_bind (x : α) (f : α → Exec β) : (Except.ok x >>= f) = f x := rfl

@[simp] theorem pure_eq (x : α) : (pure x : Exec α) = .ok x := rfl

@[simp] theorem lift_ok (x : α) : (liftM (Except.ok x : Checked α) : Exec α) = .ok x := rfl

@[simp] theorem lift_text (x : α) :
    (liftM (Except.ok x : Except TextFault α) : Exec α) = .ok x := rfl

end Exec

namespace ECCrypto

section Code

variable (rounds : ℕ)

/-- `inverse`. -/
def limbInverse (a mod : BigInt) : Exec BigInt := do
  let r ← BigInt.inverse rounds a mod
  r.elim (.error .rounds) pure

/-- The square. -/
def squared (base : BigInt) : Checked BigInt := base.mul base

/-- An affine point of limbs, with the parameters of its curve. -/
structure LimbPoint where
  x : BigInt
  y : BigInt
  p : BigInt
  a : BigInt
  b : BigInt
  isInfinity : Bool := false

namespace LimbPoint

/-- Infinity, with the parameters of a point. -/
def pointAtInfinity (Q : LimbPoint) : LimbPoint := ⟨ofLongLong 0, ofLongLong 0, Q.p, Q.a, Q.b, true⟩

/-- The double of a finite point. -/
def doubledPoint (Q : LimbPoint) : Exec LimbPoint :=
  if Q.y.eq (ofLongLong 0) then pure Q.pointAtInfinity
  else do
    let numerator ← (← (← squared Q.x).mul (ofLongLong 3)).add Q.a
    let denominator ← Q.y.mul (ofLongLong 2)
    let slope ← (← numerator.mul (← limbInverse rounds denominator Q.p)).mod Q.p
    let newX ← (← (← squared slope).sub (← Q.x.mul (ofLongLong 2))).mod Q.p
    let newY ← (← (← slope.mul (← Q.x.sub newX)).sub Q.y).mod Q.p
    pure ⟨newX, newY, Q.p, Q.a, Q.b, false⟩

/-- `operator+`. -/
def add (Q R : LimbPoint) : Exec LimbPoint :=
  if Q.isInfinity && R.isInfinity then pure Q.pointAtInfinity
  else if !Q.isInfinity && R.isInfinity then pure Q
  else if Q.isInfinity && !R.isInfinity then pure R
  else if Q.x.eq R.x && Q.y.eq R.y then Q.doubledPoint rounds
  else if Q.x.eq R.x && Q.y.ne R.y then pure Q.pointAtInfinity
  else do
    let numerator ← R.y.sub Q.y
    let denominator ← R.x.sub Q.x
    let slope ← (← numerator.mul (← limbInverse rounds denominator Q.p)).mod Q.p
    let newX ← (← (← (← squared slope).sub Q.x).sub R.x).mod Q.p
    let newY ← (← (← slope.mul (← Q.x.sub newX)).sub Q.y).mod Q.p
    pure ⟨newX, newY, Q.p, Q.a, Q.b, false⟩

/-- One binary digit of the loop of `operator*`. -/
def mulStep (Q current : LimbPoint) (digit : UInt8) : Exec LimbPoint := do
  let doubled ← current.doubledPoint rounds
  if digit = 49 then doubled.add rounds Q else pure doubled

/-- `operator*`. -/
def mul (Q : LimbPoint) (scalar : BigInt) : Exec LimbPoint :=
  if scalar.eq (ofLongLong 0) then pure Q.pointAtInfinity
  else ((scalar.toBinaryString.dropWhile (· ≠ 49)).drop 1).foldlM (mulStep rounds Q) Q

end LimbPoint

end Code

/-! ### Canonical points -/

/-- The point with canonical coordinates. -/
def ECPoint.toLimbs (Q : ECPoint) : LimbPoint :=
  ⟨ofInt Q.x, ofInt Q.y, ofInt Q.p, ofInt Q.a, ofInt Q.b, Q.isInfinity⟩

variable {rounds : ℕ}

theorem limbInverse_ofInt (a : ℤ) {m : ℤ} (hm : 1 < m) (hrounds : m.natAbs ≤ rounds) :
    limbInverse rounds (ofInt a) (ofInt m) = .ok (ofInt (inverse a m)) := by
  rw [limbInverse, inverse_ofInt a hm hrounds]
  rfl

@[simp]
theorem squared_ofInt (a : ℤ) : squared (ofInt a) = .ok (ofInt (a * a)) := mul_ofInt a a

/-- The modulus is above one, and the rounds suffice for its inverses. -/
structure ECPoint.Modulus (rounds : ℕ) (Q : ECPoint) : Prop where
  one_lt : 1 < Q.p
  le_rounds : Q.p.natAbs ≤ rounds

namespace LimbPoint

variable {Q R : ECPoint}

theorem pointAtInfinity_toLimbs (Q : ECPoint) :
    Q.toLimbs.pointAtInfinity = Q.pointAtInfinity.toLimbs := by
  rw [pointAtInfinity, ofLongLong_eq]
  rfl

theorem doubledPoint_toLimbs (h : Q.Modulus rounds) :
    Q.toLimbs.doubledPoint rounds = .ok Q.doubledPoint.toLimbs := by
  have hpos : 0 < Q.p := zero_lt_one.trans h.one_lt
  have hzero : Q.toLimbs.y.eq (ofLongLong 0) = true ↔ Q.y = 0 := eq_zero_iff Q.y
  rw [doubledPoint, ECPoint.doubledPoint, pointAtInfinity_toLimbs]
  by_cases hy : Q.y = 0
  · rw [if_pos (hzero.mpr hy), if_pos hy]
    rfl
  · rw [if_neg (hzero.not.mpr hy), if_neg hy]
    simp [ECPoint.toLimbs, ofLongLong_eq, limbInverse_ofInt _ h.one_lt h.le_rounds,
      mod_ofInt _ hpos]

theorem add_toLimbs (h : Q.Modulus rounds) :
    Q.toLimbs.add rounds R.toLimbs = .ok (Q.add R).toLimbs := by
  have hpos : 0 < Q.p := zero_lt_one.trans h.one_lt
  have hequal : ((ofInt Q.x).eq (ofInt R.x) && (ofInt Q.y).eq (ofInt R.y)) = true ↔
      Q.x = R.x ∧ Q.y = R.y := by simp
  have hopposite : ((ofInt Q.x).eq (ofInt R.x) && (ofInt Q.y).ne (ofInt R.y)) = true ↔
      Q.x = R.x ∧ Q.y ≠ R.y := by simp
  rw [add, ECPoint.add, pointAtInfinity_toLimbs, doubledPoint_toLimbs h]
  dsimp only [ECPoint.toLimbs]
  simp only [hequal, hopposite]
  split_ifs with hboth hleft hright
  · rfl
  · rfl
  · rfl
  · rfl
  · rfl
  · simp [limbInverse_ofInt _ h.one_lt h.le_rounds, mod_ofInt _ hpos]

/-! ### Multiples -/

theorem p_doubledPoint (Q : ECPoint) : Q.doubledPoint.p = Q.p := by
  unfold ECPoint.doubledPoint
  split_ifs <;> rfl

theorem p_add (h : Q.p = R.p) : (Q.add R).p = Q.p := by
  unfold ECPoint.add
  split_ifs
  · rfl
  · rfl
  · exact h.symm
  · exact p_doubledPoint Q
  · rfl
  · rfl

theorem p_mulStep (h : R.p = Q.p) (digit : UInt8) : (Q.mulStep R digit).p = Q.p := by
  have hdoubled := (p_doubledPoint R).trans h
  unfold ECPoint.mulStep
  dsimp only
  split_ifs
  · exact (p_add hdoubled).trans hdoubled
  · exact hdoubled

theorem mulStep_toLimbs (h : Q.Modulus rounds) (hR : R.p = Q.p) (digit : UInt8) :
    Q.toLimbs.mulStep rounds R.toLimbs digit = .ok (Q.mulStep R digit).toLimbs := by
  have hmodulus : R.Modulus rounds := ⟨hR ▸ h.one_lt, hR ▸ h.le_rounds⟩
  have hdoubled : R.doubledPoint.Modulus rounds :=
    ⟨p_doubledPoint R ▸ hmodulus.one_lt, p_doubledPoint R ▸ hmodulus.le_rounds⟩
  rw [mulStep, doubledPoint_toLimbs hmodulus, Exec.ok_bind, ECPoint.mulStep]
  split_ifs
  · exact add_toLimbs hdoubled
  · rfl

theorem foldlM_toLimbs (h : Q.Modulus rounds) (hR : R.p = Q.p) (digits : Bytes) :
    digits.foldlM (Q.toLimbs.mulStep rounds) R.toLimbs =
      .ok (digits.foldl Q.mulStep R).toLimbs := by
  induction digits generalizing R with
  | nil => rfl
  | cons digit digits ih =>
    rw [List.foldlM_cons, mulStep_toLimbs h hR, Exec.ok_bind, List.foldl_cons]
    exact ih (p_mulStep hR digit)

theorem mul_toLimbs (h : Q.Modulus rounds) (k : ℤ) :
    Q.toLimbs.mul rounds (ofInt k) = .ok (Q.mul k).toLimbs := by
  rw [mul, ECPoint.mul, pointAtInfinity_toLimbs, toBinaryString_ofInt, foldlM_toLimbs h rfl]
  by_cases hk : k = 0
  · rw [if_pos ((eq_zero_iff k).mpr hk), if_pos hk]
    rfl
  · rw [if_neg ((eq_zero_iff k).not.mpr hk), if_neg hk]

end LimbPoint

end ECCrypto

end BlockchainCrypto
