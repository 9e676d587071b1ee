import BlockchainCrypto.Chain.Blockchain
import BlockchainCrypto.Theory.AppendLog

/-!
# Valid chains

`isChainValid` rescans the whole chain, while `addBlock` and mining look only at the block they
append. Both agree because the difficulty required at a height is a function of the blocks below
it: a valid chain is a log that grows by blocks each of which extends the blocks below.

## Main definitions

* `Blockchain.Extends`: what a block must satisfy on top of the blocks below it.
* `Blockchain.ValidChain`: the chains grown by such blocks from a valid genesis block.

## Main results

* `Blockchain.calculateRequiredDifficultyAtHeight_take`: dependence on the prefix alone.
* `Blockchain.isChainValid_iff`: the rescan accepts exactly the valid chains.
* `Blockchain.isChainValid_concat_iff`: one appended block.
-/

namespace BlockchainCrypto

namespace Blockchain

/-! ### Reading below a height -/

section Reads

variable {chain : List Block} {n i : ℕ}

theorem blockAt_eq_getElem (h : i < chain.length) : blockAt chain i = chain[i] := by
  simp [blockAt, h]

theorem blockAt_take (h : i < n) : blockAt (chain.take n) i = blockAt chain i := by
  simp [blockAt, h]

theorem blockAt_length_sub_one (h : chain ≠ []) :
    blockAt chain (chain.length - 1) = chain.getLast h := by
  have hlt : chain.length - 1 < chain.length := by
    have := List.length_pos_iff.mpr h
    omega
  rw [blockAt_eq_getElem hlt, List.getLast_eq_getElem]

theorem toInt_ofNat_le (n : ℕ) : (Int32.ofNat n).toInt ≤ n := by
  have hsize : ((Int32.size : ℕ) : ℤ) = 4294967296 := rfl
  rw [Int32.toInt_ofNat', Int.bmod_def, hsize]
  split_ifs <;> omega

/-- Subtraction does not overflow below a non-negative minuend. -/
theorem toInt_sub_of_le {x k : Int32} (hk : 0 ≤ k.toInt) (h : k.toInt ≤ x.toInt) :
    (x - k).toInt = x.toInt - k.toInt := by
  have hx := x.toInt_lt
  rw [Int32.toInt_sub]
  exact Int.bmod_eq_of_le (by omega) (by omega)

/-- The difficulty required at a height depends only on the blocks below it, also where the height
has wrapped around. -/
theorem calculateRequiredDifficultyAtHeight_take (chain : List Block) (difficulty : Int32) (n : ℕ) :
    calculateRequiredDifficultyAtHeight (chain.take n) difficulty (Int32.ofNat n) =
      calculateRequiredDifficultyAtHeight chain difficulty (Int32.ofNat n) := by
  unfold calculateRequiredDifficultyAtHeight
  split_ifs with hlow
  · rfl
  · have hge : 10 ≤ (Int32.ofNat n).toInt := by
      have h := Int32.le_iff_toInt_le.mp (Int32.not_lt.mp hlow)
      exact h
    have hle := toInt_ofNat_le n
    have hfirst : (Int32.ofNat n - DIFFICULTY_ADJUSTMENT_INTERVAL).toInt.toNat < n := by
      have h10 : DIFFICULTY_ADJUSTMENT_INTERVAL.toInt = 10 := rfl
      rw [toInt_sub_of_le (by omega) (by omega)]
      omega
    have hlast : (Int32.ofNat n - 1).toInt.toNat < n := by
      have h1 : (1 : Int32).toInt = 1 := rfl
      rw [toInt_sub_of_le (by omega) (by omega)]
      omega
    simp only [blockAt_take hfirst, blockAt_take hlast]

end Reads

/-! ### Chains that grow -/

/-- What a block must satisfy on top of the blocks below it: the required difficulty and a valid
body, the link to the block in front, and a timestamp that does not go back. -/
structure Extends (difficulty : Int32) (below : List Block) (b : Block) : Prop where
  valid : b.isValidWithDifficulty
    (calculateRequiredDifficultyAtHeight below difficulty (Int32.ofNat below.length)) = true
  linked : b.previousHash = (blockAt below (below.length - 1)).hash
  ordered : (blockAt below (below.length - 1)).timestamp ≤ b.timestamp

/-- The chains that grow from a valid genesis block by blocks that extend what is below. -/
abbrev ValidChain (difficulty : Int32) (chain : List Block) : Prop :=
  AppendLog.Grown (fun g : Block => g.isValidWithDifficulty difficulty = true) (Extends difficulty)
    chain

/-- The loop body of the rescan judges a block against the prefix below it. -/
theorem isLinkValid_iff {chain : List Block} {difficulty : Int32} {i : ℕ} (hi : i < chain.length)
    (h0 : 0 < i) :
    isLinkValid chain difficulty i = true ↔ Extends difficulty (chain.take i) chain[i] := by
  have hlen : (chain.take i).length = i := by
    rw [List.length_take, Nat.min_eq_left hi.le]
  have hprev : blockAt (chain.take i) (i - 1) = blockAt chain (i - 1) := blockAt_take (by omega)
  have hext : Extends difficulty (chain.take i) chain[i] ↔
      chain[i].isValidWithDifficulty
          (calculateRequiredDifficultyAtHeight chain difficulty (Int32.ofNat i)) = true ∧
        chain[i].previousHash = (blockAt chain (i - 1)).hash ∧
        (blockAt chain (i - 1)).timestamp ≤ chain[i].timestamp := by
    rw [← calculateRequiredDifficultyAtHeight_take, ← hprev]
    refine ⟨fun h => ?_, fun h => ⟨?_, ?_, ?_⟩⟩
    · obtain ⟨h1, h2, h3⟩ := h
      rw [hlen] at h1 h2 h3
      exact ⟨h1, h2, h3⟩
    · rw [hlen]
      exact h.1
    · rw [hlen]
      exact h.2.1
    · rw [hlen]
      exact h.2.2
  rw [hext]
  unfold isLinkValid
  rw [blockAt_eq_getElem hi]
  dsimp only
  split_ifs with h1 h2 h3
  · simp_all
  · simp [h2]
  · simp [Int64.not_le.mpr h3]
  · simp_all [Int64.not_lt]

/-- The rescan accepts exactly the chains that grow by blocks extending what is below. -/
theorem isChainValid_iff {chain : List Block} {difficulty : Int32} :
    isChainValid chain difficulty = true ↔ ValidChain difficulty chain := by
  cases chain with
  | nil => exact ⟨fun h => by simp [isChainValid] at h, fun h => absurd rfl h.ne_nil⟩
  | cons g rest =>
    have hscan : isChainValid (g :: rest) difficulty = true ↔
        g.isValidWithDifficulty difficulty = true ∧
          ∀ i, 1 ≤ i → i < (g :: rest).length → isLinkValid (g :: rest) difficulty i = true := by
      have hg : blockAt (g :: rest) 0 = g := rfl
      have hpos : ¬ (g :: rest).length < 1 := by simp
      have hrange : 1 + ((g :: rest).length - 1) = (g :: rest).length := by
        simp only [List.length_cons]
        omega
      rw [isChainValid, if_neg hpos, hg]
      split_ifs with hvalid
      · simp_all
      · rw [List.all_eq_true]
        simp only [List.mem_range'_1, hrange, and_imp]
        simp_all
    rw [hscan, ValidChain, AppendLog.grown_iff]
    refine and_congr (by simp) ⟨fun h i hi h0 => ?_, fun h i h0 hi => ?_⟩
    · exact (isLinkValid_iff hi h0).mp (h i h0 hi)
    · exact (isLinkValid_iff hi h0).mpr (h i hi h0)

/-- An appended block is judged against the old chain alone. -/
theorem isChainValid_concat_iff {chain : List Block} {difficulty : Int32} {b : Block}
    (hne : chain ≠ []) :
    isChainValid (chain ++ [b]) difficulty = true ↔
      isChainValid chain difficulty = true ∧ Extends difficulty chain b := by
  rw [isChainValid_iff, isChainValid_iff]
  exact AppendLog.grown_concat_iff hne

end Blockchain

end BlockchainCrypto
