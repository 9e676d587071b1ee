import BlockchainCrypto.Chain.Acceptance

/-!
# The difficulty schedule

The difficulty required at a height from the first adjustment on is that of the block below, moved
by one step when the last ten blocks took less than half or more than twice the time they should.
The rule does not look at the height again: it moves the difficulty at every height, not only at
the multiples of the adjustment interval.

## Main definitions

* `Blockchain.windowTime`: the time that is compared.
* `Blockchain.adjusted`: the rule in integers.
* `Blockchain.OnInterval`: the schedule moves at multiples of the interval, by one step.
* `Blockchain.InTime`: the window asks for no move.

## Main results

* `Blockchain.difficulty_bounds`: the difficulties of a valid chain.
* `Blockchain.toInt_calculateRequiredDifficultyAtHeight`: the code follows the rule.
* `Blockchain.onInterval_iff`: when the schedule moves at a multiple of the interval only.
* `Blockchain.abs_difficulty_succ_sub_le`: one step from block to block.
-/

namespace BlockchainCrypto

open ByteText

namespace Blockchain

/-! ### Difficulties of a valid chain -/

theorem bounds_of_checkProofOfWork {hash : Bytes} {difficulty : Int32}
    (h : utils.checkProofOfWork hash difficulty = true) :
    0 ≤ difficulty.toInt ∧ difficulty.toInt ≤ hash.length := by
  have hzero : (0 : Int32).toInt = 0 := rfl
  unfold utils.checkProofOfWork at h
  dsimp only at h
  split_ifs at h with hneg hlong
  rw [Int32.not_lt, Int32.le_iff_toInt_le] at hneg
  omega

/-- The proof of work bounds the difficulty of a valid block by the length of a hash. -/
theorem bounds_of_isValid {b : Block} (h : b.isValid = true) :
    0 ≤ b.difficulty.toInt ∧ b.difficulty.toInt ≤ 64 := by
  obtain ⟨hhash, hwork, -⟩ := Block.isValid_iff.mp h
  have hlength : b.hash.length = 64 := by
    rw [hhash]
    exact SHA256.length_hash _
  have hbounds := bounds_of_checkProofOfWork hwork
  omega

section Valid

variable {chain : List Block} {difficulty : Int32}

/-- A block of a valid chain has the difficulty that is required at its height. -/
theorem difficulty_eq_required (hvalid : isChainValid chain difficulty = true) {i : ℕ}
    (hi : i < chain.length) : (blockAt chain i).isValid = true ∧
      (blockAt chain i).difficulty =
        calculateRequiredDifficultyAtHeight chain difficulty (Int32.ofNat i) := by
  obtain ⟨⟨g, hhead, hgenesis⟩, hlinks⟩ := AppendLog.grown_iff.mp (isChainValid_iff.mp hvalid)
  rw [and_comm, ← Block.isValidWithDifficulty_iff]
  rcases Nat.eq_zero_or_pos i with rfl | hpos
  · have hblock : blockAt chain 0 = g := by
      rw [blockAt, List.getD_eq_getElem?_getD, ← List.head?_eq_getElem?, hhead, Option.getD_some]
    rw [hblock, calculateRequiredDifficultyAtHeight_of_lt (by omega)]
    exact hgenesis
  · have hlength : (chain.take i).length = i := by
      rw [List.length_take, Nat.min_eq_left hi.le]
    have hext := (hlinks i hi hpos).valid
    rwa [hlength, calculateRequiredDifficultyAtHeight_take, ← blockAt_eq_getElem hi] at hext

theorem difficulty_bounds (hvalid : isChainValid chain difficulty = true) {i : ℕ}
    (hi : i < chain.length) :
    0 ≤ (blockAt chain i).difficulty.toInt ∧ (blockAt chain i).difficulty.toInt ≤ 64 :=
  bounds_of_isValid (difficulty_eq_required hvalid hi).1

/-- Below the first adjustment a valid chain has the initial difficulty. -/
theorem difficulty_of_lt (hvalid : isChainValid chain difficulty = true) {i : ℕ}
    (hi : i < chain.length) (hlow : i < 10) : (blockAt chain i).difficulty = difficulty := by
  rw [(difficulty_eq_required hvalid hi).2, calculateRequiredDifficultyAtHeight_of_lt hlow]

end Valid

/-! ### The rule -/

/-- The time that ten blocks should take. -/
def expectedTime : ℤ := TARGET_BLOCK_TIME.toInt * DIFFICULTY_ADJUSTMENT_INTERVAL.toInt

/-- One step up when the blocks came too fast, and one step down, but not below one, when they came
too slowly. -/
def adjusted (current actual : ℤ) : ℤ :=
  if actual < expectedTime / 2 then current + 1
  else if actual > expectedTime * 2 then max 1 (current - 1)
  else current

/-- One step does not leave the neighbourhood of a difficulty that is not negative. -/
theorem abs_adjusted_sub_le {current : ℤ} (h : 0 ≤ current) (actual : ℤ) :
    |adjusted current actual - current| ≤ 1 := by
  rw [adjusted, abs_le]
  split_ifs <;> omega

theorem adjusted_eq_iff (current actual : ℤ) :
    adjusted current actual = current ↔
      expectedTime / 2 ≤ actual ∧ (actual ≤ expectedTime * 2 ∨ current = 1) := by
  have hexpected : expectedTime = 300 := rfl
  rw [adjusted, hexpected]
  split_ifs <;> omega

/-- The time from the tenth block below a height to the block below it. -/
def windowTime (chain : List Block) (height : Int32) : Int64 :=
  (blockAt chain (height.toInt - 1).toNat).timestamp -
    (blockAt chain (height.toInt - 10).toNat).timestamp

/-- From the first adjustment on, the code applies the rule to the block below. -/
theorem toInt_calculateRequiredDifficultyAtHeight {chain : List Block} {difficulty height : Int32}
    (hheight : 10 ≤ height.toInt)
    (hbounds : 0 ≤ (blockAt chain (height.toInt - 1).toNat).difficulty.toInt ∧
      (blockAt chain (height.toInt - 1).toNat).difficulty.toInt ≤ 64) :
    (calculateRequiredDifficultyAtHeight chain difficulty height).toInt =
      adjusted (blockAt chain (height.toInt - 1).toNat).difficulty.toInt
        (windowTime chain height).toInt := by
  have h10 : DIFFICULTY_ADJUSTMENT_INTERVAL.toInt = 10 := rfl
  have h1 : (1 : Int32).toInt = 1 := rfl
  have hlow : ¬ height < DIFFICULTY_ADJUSTMENT_INTERVAL := by
    rw [Int32.lt_iff_toInt_lt]
    omega
  have hstart : (height - DIFFICULTY_ADJUSTMENT_INTERVAL).toInt = height.toInt - 10 :=
    toInt_sub_of_le (by omega) (by omega)
  have hprevious : (height - 1).toInt = height.toInt - 1 := toInt_sub_of_le (by omega) (by omega)
  rw [calculateRequiredDifficultyAtHeight, if_neg hlow]
  dsimp only
  rw [hstart, hprevious, adjusted, windowTime]
  generalize (blockAt chain (height.toInt - 1).toNat).difficulty = current at hbounds ⊢
  generalize (blockAt chain (height.toInt - 1).toNat).timestamp -
    (blockAt chain (height.toInt - 10).toNat).timestamp = actual
  have hfast : actual < TARGET_BLOCK_TIME * DIFFICULTY_ADJUSTMENT_INTERVAL.toInt64 / 2 ↔
      actual.toInt < expectedTime / 2 := Int64.lt_iff_toInt_lt
  have hslow : actual > TARGET_BLOCK_TIME * DIFFICULTY_ADJUSTMENT_INTERVAL.toInt64 * 2 ↔
      actual.toInt > expectedTime * 2 := Int64.lt_iff_toInt_lt
  simp only [hfast, hslow]
  have hup : (current + 1).toInt = current.toInt + 1 := by
    rw [Int32.toInt_add, h1]
    exact Int.bmod_eq_of_le (by omega) (by omega)
  have hdown : (current - 1).toInt = current.toInt - 1 := by
    rw [Int32.toInt_sub, h1]
    exact Int.bmod_eq_of_le (by omega) (by omega)
  have hmax : (max 1 (current - 1)).toInt = max 1 (current.toInt - 1) := by
    have hmax : max 1 (current - 1) = if 1 ≤ current - 1 then current - 1 else 1 := rfl
    rw [hmax]
    split_ifs with hle
    · rw [Int32.le_iff_toInt_le, h1, hdown] at hle
      omega
    · rw [Int32.le_iff_toInt_le, h1, hdown] at hle
      omega
  split_ifs
  · exact hup
  · exact hmax
  · rfl

/-! ### The interval -/

/-- The difficulty required at a height differs from that of the block below only at multiples of
the interval, and there by at most one step. -/
def OnInterval (chain : List Block) (difficulty height : Int32) : Prop :=
  let required := calculateRequiredDifficultyAtHeight chain difficulty height
  let previous := blockAt chain (height.toInt - 1).toNat
  (¬ DIFFICULTY_ADJUSTMENT_INTERVAL.toInt ∣ height.toInt → required = previous.difficulty) ∧
    |required.toInt - previous.difficulty.toInt| ≤ 1

/-- The last ten blocks were neither too fast, nor so slow that the difficulty can go down. -/
def InTime (chain : List Block) (height : Int32) : Prop :=
  expectedTime / 2 ≤ (windowTime chain height).toInt ∧
    ((windowTime chain height).toInt ≤ expectedTime * 2 ∨
      (blockAt chain (height.toInt - 1).toNat).difficulty = 1)

section Heights

variable {chain : List Block} {difficulty height : Int32}

/-- The requirement at a height moves by at most one step. -/
theorem abs_required_sub_le (hvalid : isChainValid chain difficulty = true)
    (hpos : 1 ≤ height.toInt) (hle : height.toInt ≤ chain.length) :
    |(calculateRequiredDifficultyAtHeight chain difficulty height).toInt -
      (blockAt chain (height.toInt - 1).toNat).difficulty.toInt| ≤ 1 := by
  have hi : (height.toInt - 1).toNat < chain.length := by omega
  have hbounds := difficulty_bounds hvalid hi
  rcases lt_or_ge height.toInt 10 with hlow | hhigh
  · have hrequired : calculateRequiredDifficultyAtHeight chain difficulty height = difficulty :=
      if_pos (Int32.lt_iff_toInt_lt.mpr hlow)
    rw [hrequired, difficulty_of_lt hvalid hi (by omega), sub_self, abs_zero]
    exact zero_le_one
  · rw [toInt_calculateRequiredDifficultyAtHeight hhigh hbounds]
    exact abs_adjusted_sub_le hbounds.1 _

/-- When it does not move. -/
theorem required_eq_iff (hvalid : isChainValid chain difficulty = true)
    (hpos : 1 ≤ height.toInt) (hle : height.toInt ≤ chain.length) :
    calculateRequiredDifficultyAtHeight chain difficulty height =
        (blockAt chain (height.toInt - 1).toNat).difficulty ↔
      height.toInt < 10 ∨ InTime chain height := by
  have hi : (height.toInt - 1).toNat < chain.length := by omega
  rcases lt_or_ge height.toInt 10 with hlow | hhigh
  · have hrequired : calculateRequiredDifficultyAtHeight chain difficulty height = difficulty :=
      if_pos (Int32.lt_iff_toInt_lt.mpr hlow)
    rw [hrequired, difficulty_of_lt hvalid hi (by omega)]
    exact iff_of_true rfl (.inl hlow)
  · have hone : (blockAt chain (height.toInt - 1).toNat).difficulty = 1 ↔
        (blockAt chain (height.toInt - 1).toNat).difficulty.toInt = 1 := Int32.toInt_inj.symm
    rw [← Int32.toInt_inj,
      toInt_calculateRequiredDifficultyAtHeight hhigh (difficulty_bounds hvalid hi),
      adjusted_eq_iff, InTime, hone, or_iff_right (not_lt.mpr hhigh)]

/-- The schedule moves on the interval at a height exactly when the height is below the first
adjustment or a multiple of the interval, or when the window asks for no move. -/
theorem onInterval_iff (hvalid : isChainValid chain difficulty = true)
    (hpos : 1 ≤ height.toInt) (hle : height.toInt ≤ chain.length) :
    OnInterval chain difficulty height ↔
      height.toInt < 10 ∨ DIFFICULTY_ADJUSTMENT_INTERVAL.toInt ∣ height.toInt ∨
        InTime chain height := by
  rw [OnInterval, and_iff_left (abs_required_sub_le hvalid hpos hle),
    required_eq_iff hvalid hpos hle, imp_iff_not_or, not_not, or_left_comm]

/-- From block to block of a valid chain the difficulty moves by at most one step. -/
theorem abs_difficulty_succ_sub_le (hvalid : isChainValid chain difficulty = true) {i : ℕ}
    (hi : i + 1 < chain.length) (hsize : i + 1 < 2 ^ 31) :
    |(blockAt chain (i + 1)).difficulty.toInt - (blockAt chain i).difficulty.toInt| ≤ 1 := by
  have hheight : (Int32.ofNat (i + 1)).toInt = i + 1 := Int32.toInt_ofNat_of_lt hsize
  have hstep := @abs_required_sub_le chain difficulty (Int32.ofNat (i + 1)) hvalid (by omega)
    (by omega)
  rwa [hheight, add_sub_cancel_right, Int.toNat_natCast, ← (difficulty_eq_required hvalid hi).2]
    at hstep

end Heights

/-! ### Chains of empty blocks -/

/-- Some empty blocks of difficulty zero on top of a chain, all with the same timestamp. -/
def stack (chain : List Block) (timestamp : Int64) : ℕ → List Block
  | 0 => chain
  | n + 1 => stack chain timestamp n ++ [assemble (stack chain timestamp n) timestamp []]

/-- The blocks fit as long as no difficulty is required. -/
theorem isChainValid_stack {chain : List Block} {timestamp : Int64}
    (hvalid : isChainValid chain 0 = true)
    (htime : (blockAt chain (chain.length - 1)).timestamp ≤ timestamp) (n : ℕ)
    (hrequired : ∀ k < n, calculateRequiredDifficultyAtHeight (stack chain timestamp k) 0
      (Int32.ofNat (stack chain timestamp k).length) = 0) :
    isChainValid (stack chain timestamp n) 0 = true := by
  suffices isChainValid (stack chain timestamp n) 0 = true ∧
      (blockAt (stack chain timestamp n) ((stack chain timestamp n).length - 1)).timestamp ≤
        timestamp from this.1
  induction n with
  | zero => exact ⟨hvalid, htime⟩
  | succ n ih =>
    obtain ⟨hbelow, hlast⟩ := ih fun k hk => hrequired k (by omega)
    have hne := (isChainValid_iff.mp hbelow).ne_nil
    rw [stack]
    constructor
    · exact (isChainValid_concat_iff hne).mpr ⟨hbelow,
        extends_assemble_of_required (hrequired n (by omega)) (fun tx htx => nomatch htx) hlast⟩
    · rw [blockAt_length_sub_one (by simp), List.getLast_concat]
      exact Int64.le_refl _

section Examples

/-- A genesis block, and nine blocks 200 seconds later. -/
private def nineBlocks : List Block := stack (fresh (money.coins 50) 0).chain 200 9

private theorem isChainValid_nineBlocks : isChainValid nineBlocks 0 = true :=
  isChainValid_stack (isChainValid_fresh _ _) (by decide) 9 (by decide +kernel)

/-- With the next block after another 200 seconds the difficulty stays. -/
theorem onInterval_in_time : OnInterval (stack nineBlocks 400 1) 0 11 :=
  (onInterval_iff (isChainValid_stack isChainValid_nineBlocks (by decide +kernel) 1
    (by decide +kernel)) (by decide) (by decide +kernel)).mpr (.inr (.inr ⟨by decide +kernel,
      .inl (by decide +kernel)⟩))

/-- With the next block in the same second the difficulty goes up at height 11. -/
theorem not_onInterval_too_fast :
    isChainValid (stack nineBlocks 200 1) 0 = true ∧ (stack nineBlocks 200 1).length = 11 ∧
      ¬ OnInterval (stack nineBlocks 200 1) 0 11 ∧
      (blockAt (stack nineBlocks 200 1) 10).difficulty = 0 ∧
      calculateRequiredDifficultyAtHeight (stack nineBlocks 200 1) 0 11 = 1 := by
  refine ⟨?_, rfl, fun h => ?_, rfl, by decide +kernel⟩
  · exact isChainValid_stack isChainValid_nineBlocks (by decide +kernel) 1 (by decide +kernel)
  · exact absurd (h.1 (by decide)) (by decide +kernel)

end Examples

end Blockchain

end BlockchainCrypto
