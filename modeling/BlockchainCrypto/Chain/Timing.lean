import BlockchainCrypto.Chain.Difficulty
import BlockchainCrypto.Chain.Persistence
import BlockchainCrypto.Core.MoneyText
import BlockchainCrypto.Theory.CheckedLoops

/-!
# The timing arithmetic of validation

`calculateRequiredDifficultyAtHeight` reads two blocks of the chain and subtracts their timestamps.
Here both indices and the difference are checked, and so is everything in `loadFromFile` and
`addBlock` that asks for a difficulty. The indices are always in bounds, also where a height has
wrapped around. The difference of two timestamps of a chain in order is not negative, but nothing
keeps it below `2 ^ 63`: timestamps are read from files and messages over their whole range.

## Main definitions

* `Blockchain.checkedRequiredDifficulty`, `Blockchain.checkedIsChainValid`,
  `Blockchain.checkedLoadFromFile`, `Blockchain.checkedAddBlock`: the functions with checks.
* `Blockchain.WindowFits`: the difference at one height is a signed 64-bit integer.
* `Blockchain.FileWindowsFit`, `Blockchain.TipWindowFits`: the inputs without a fault.

## Main results

* `Blockchain.checkedRequiredDifficulty_of_le`: the only fault is an overflow.
* `Blockchain.timestamp_le_of_isChainValid`: the timestamps of a valid chain are in order.
* `Blockchain.checkedIsChainValid_eq_iff`: the chains that are validated without a fault.
* `Blockchain.windowsFit_of_nonneg`: only dates before the epoch lead to a fault.
* `Blockchain.timing_exact_iff`: when the timing arithmetic is exact.
-/

namespace BlockchainCrypto

open ByteText

namespace Blockchain

/-! ### The functions with checks -/

/-- `chain[i]`. -/
def readBlock (chain : List Block) (i : Int32) : Checked Block :=
  if i < 0 then .error .outOfRange
  else
    match chain[i.toInt.toNat]? with
    | none => .error .outOfRange
    | some block => .ok block

/-- `calculateRequiredDifficultyAtHeight`, with both indices and the difference checked. -/
def checkedRequiredDifficulty (chain : List Block) (difficulty height : Int32) : Checked Int32 :=
  if height < DIFFICULTY_ADJUSTMENT_INTERVAL then pure difficulty
  else do
    let intervalStart ← readBlock chain (height - DIFFICULTY_ADJUSTMENT_INTERVAL)
    let previous ← readBlock chain (height - 1)
    let expected := TARGET_BLOCK_TIME * DIFFICULTY_ADJUSTMENT_INTERVAL.toInt64
    let actual ← money.i64 (previous.timestamp.toInt - intervalStart.timestamp.toInt)
    let current := previous.difficulty
    if actual < expected / 2 then pure (current + 1)
    else if actual > expected * 2 then pure (max 1 (current - 1))
    else pure current

/-- The loop body of `isChainValid`. -/
def checkedIsLinkValid (chain : List Block) (difficulty : Int32) (i : ℕ) : Checked Bool := do
  let currentBlock := blockAt chain i
  let previousBlock := blockAt chain (i - 1)
  let requiredDifficulty ← checkedRequiredDifficulty chain difficulty (Int32.ofNat i)
  if !currentBlock.isValidWithDifficulty requiredDifficulty then pure false
  else if currentBlock.previousHash ≠ previousBlock.hash then pure false
  else if currentBlock.timestamp < previousBlock.timestamp then pure false
  else pure true

/-- `isChainValid`, which asks for a difficulty at every position up to the first that fails. -/
def checkedIsChainValid (chain : List Block) (difficulty : Int32) : Checked Bool :=
  if chain.length < 1 then pure false
  else if !(blockAt chain 0).isValidWithDifficulty difficulty then pure false
  else (List.range' 1 (chain.length - 1)).allM (checkedIsLinkValid chain difficulty)

/-- `loadFromFile`, where only the validation asks for difficulties. -/
def checkedLoadFromFile (s : Blockchain) (file : Option Bytes) : Checked (Blockchain × Bool) :=
  match file.bind readFile.run with
  | none => pure (s.loadFromFile file)
  | some ((d, _, parsed), _) => do
    let _ ← checkedIsChainValid parsed d
    pure (s.loadFromFile file)

/-- `addBlock`, which asks for a difficulty when index, link and order are right. -/
def checkedAddBlock (s : Blockchain) : Option Block → Checked (Blockchain × Bool)
  | none => pure (s, false)
  | some block =>
    let tip := s.getLatestBlock
    if block.index ≠ Int32.ofNat s.chain.length then pure (s, false)
    else if block.previousHash ≠ tip.hash then pure (s, false)
    else if block.timestamp < tip.timestamp then pure (s, false)
    else do
      let required ← checkedRequiredDifficulty s.chain s.difficulty block.index
      if !block.isValidWithDifficulty required then pure (s, false)
      else if block.transactions.any fun tx => !tx.isSystem && s.transactionExists tx then
        pure (s, false)
      else if countRewards s.miningReward 0 block.transactions ≠ some 1 then pure (s, false)
      else pure (s.pushBlock block (purgePending s.pendingTransactions block), true)

/-! ### One height -/

/-- The time from the tenth block below a height to the block below it, as an integer. -/
def exactWindowTime (chain : List Block) (height : ℕ) : ℤ :=
  (blockAt chain (height - 1)).timestamp.toInt - (blockAt chain (height - 10)).timestamp.toInt

/-- Where the retarget looks at ten blocks, the time between them is a signed 64-bit integer. -/
def WindowFits (chain : List Block) (height : Int32) : Prop :=
  10 ≤ height.toInt →
    -2 ^ 63 ≤ exactWindowTime chain height.toInt.toNat ∧
      exactWindowTime chain height.toInt.toNat < 2 ^ 63

instance (chain : List Block) (height : Int32) : Decidable (WindowFits chain height) :=
  inferInstanceAs (Decidable (_ → _))

section Height

variable {chain : List Block} {difficulty height : Int32}

theorem readBlock_eq {i : Int32} (hlow : 0 ≤ i.toInt) (hhigh : i.toInt < chain.length) :
    readBlock chain i = .ok (blockAt chain i.toInt.toNat) := by
  have hlt : i.toInt.toNat < chain.length := by omega
  have hneg : ¬ i < 0 := Int32.not_lt.mpr (Int32.le_iff_toInt_le.mpr hlow)
  rw [readBlock, if_neg hneg, List.getElem?_eq_getElem hlt, blockAt_eq_getElem hlt]

theorem checkedRequiredDifficulty_of_lt (h : height.toInt < 10) :
    checkedRequiredDifficulty chain difficulty height =
      .ok (calculateRequiredDifficultyAtHeight chain difficulty height) := by
  have hlow : height < DIFFICULTY_ADJUSTMENT_INTERVAL := Int32.lt_iff_toInt_lt.mpr h
  rw [checkedRequiredDifficulty, if_pos hlow, calculateRequiredDifficultyAtHeight, if_pos hlow]
  rfl

/-- Over a chain that is long enough the only possible fault is an overflow. -/
theorem checkedRequiredDifficulty_of_le (hle : height.toInt ≤ chain.length) :
    checkedRequiredDifficulty chain difficulty height =
      if WindowFits chain height then
        .ok (calculateRequiredDifficultyAtHeight chain difficulty height)
      else .error .overflow := by
  rcases lt_or_ge height.toInt 10 with hlt | hlow
  · have hfits : WindowFits chain height := fun h => absurd hlt (by omega)
    rw [checkedRequiredDifficulty_of_lt hlt, if_pos hfits]
  have h10 : DIFFICULTY_ADJUSTMENT_INTERVAL.toInt = 10 := rfl
  have h1 : (1 : Int32).toInt = 1 := rfl
  have hnot : ¬ height < DIFFICULTY_ADJUSTMENT_INTERVAL := by
    rw [Int32.lt_iff_toInt_lt]
    omega
  have hstart : (height - DIFFICULTY_ADJUSTMENT_INTERVAL).toInt = height.toInt - 10 :=
    toInt_sub_of_le (by omega) (by omega)
  have hprevious : (height - 1).toInt = height.toInt - 1 := toInt_sub_of_le (by omega) (by omega)
  rw [checkedRequiredDifficulty, if_neg hnot, readBlock_eq (by omega) (by omega),
    readBlock_eq (by omega) (by omega), Checked.ok_bind, Checked.ok_bind,
    calculateRequiredDifficultyAtHeight, if_neg hnot]
  dsimp only
  have hstartNat : (height.toInt - 10).toNat = height.toInt.toNat - 10 := by omega
  have hpreviousNat : (height.toInt - 1).toNat = height.toInt.toNat - 1 := by omega
  rw [hstart, hprevious, hstartNat, hpreviousNat, money.i64]
  change (if -2 ^ 63 ≤ exactWindowTime chain height.toInt.toNat ∧
    exactWindowTime chain height.toInt.toNat < 2 ^ 63 then _ else _) >>= _ = _
  by_cases hfits : -2 ^ 63 ≤ exactWindowTime chain height.toInt.toNat ∧
      exactWindowTime chain height.toInt.toNat < 2 ^ 63
  · have hwindow : WindowFits chain height := fun _ => hfits
    rw [if_pos hfits, if_pos hwindow, Checked.ok_bind, Int64.ofInt_sub, Int64.ofInt_toInt,
      Int64.ofInt_toInt]
    split_ifs <;> rfl
  · have hwindow : ¬ WindowFits chain height := fun h => hfits (h hlow)
    rw [if_neg hfits, if_neg hwindow]
    rfl

end Height

/-! ### Validation of a chain -/

section Chain

variable {chain : List Block} {difficulty : Int32}

theorem isLinkValid_take {n i : ℕ} (hi : i < n) :
    isLinkValid (chain.take n) difficulty i = isLinkValid chain difficulty i := by
  have hrequired : calculateRequiredDifficultyAtHeight (chain.take n) difficulty (Int32.ofNat i) =
      calculateRequiredDifficultyAtHeight chain difficulty (Int32.ofNat i) := by
    rw [← calculateRequiredDifficultyAtHeight_take (chain.take n), List.take_take,
      Nat.min_eq_left hi.le, calculateRequiredDifficultyAtHeight_take]
  have hprevious : i - 1 < n := by omega
  unfold isLinkValid
  rw [hrequired, blockAt_take hi, blockAt_take hprevious]

/-- The blocks below a position are valid when the scan has come to the position. -/
theorem isChainValid_take_iff {i : ℕ} (hpos : 0 < i) (hle : i ≤ chain.length) :
    isChainValid (chain.take i) difficulty = true ↔
      (blockAt chain 0).isValidWithDifficulty difficulty = true ∧
        ∀ j ∈ List.range' 1 (i - 1), isLinkValid chain difficulty j = true := by
  have hlength : (chain.take i).length = i := by
    rw [List.length_take, Nat.min_eq_left hle]
  have hlinks : (∀ j ∈ List.range' 1 (i - 1), isLinkValid (chain.take i) difficulty j = true) ↔
      ∀ j ∈ List.range' 1 (i - 1), isLinkValid chain difficulty j = true := by
    refine forall₂_congr fun j hj => ?_
    rw [List.mem_range'_1] at hj
    rw [isLinkValid_take (by omega)]
  rw [isChainValid, hlength, if_neg (by omega), blockAt_take hpos, ← hlinks]
  split_ifs with hgenesis
  · simp_all
  · rw [List.all_eq_true]
    simp_all

theorem isChainValid_take_of_le {i j : ℕ} (hpos : 0 < j) (hji : j ≤ i)
    (h : isChainValid (chain.take i) difficulty = true) :
    isChainValid (chain.take j) difficulty = true := by
  have htake := AppendLog.Grown.take (isChainValid_iff.mp h) hpos
  rw [List.take_take, Nat.min_eq_left hji] at htake
  exact isChainValid_iff.mpr htake

/-- The timestamps of a valid chain are in order. -/
theorem timestamp_le_of_isChainValid (h : isChainValid chain difficulty = true) {i j : ℕ}
    (hij : i ≤ j) (hj : j < chain.length) :
    (blockAt chain i).timestamp ≤ (blockAt chain j).timestamp := by
  induction j, hij using Nat.le_induction with
  | base => exact Int64.le_refl _
  | succ j hij ih =>
    have hlength : (chain.take (j + 1)).length = j + 1 := by
      rw [List.length_take, Nat.min_eq_left hj.le]
    have hordered := ((AppendLog.grown_iff.mp (isChainValid_iff.mp h)).2 (j + 1) hj
      (Nat.succ_pos j)).ordered
    rw [hlength, Nat.add_sub_cancel, blockAt_take (Nat.lt_succ_self j),
      ← blockAt_eq_getElem hj] at hordered
    exact Int64.le_trans (ih (by omega)) hordered

/-- The loop body with checks is the loop body, or an overflow. -/
theorem checkedIsLinkValid_eq {i : ℕ} (hi : i ≤ chain.length) :
    checkedIsLinkValid chain difficulty i =
      if WindowFits chain (Int32.ofNat i) then .ok (isLinkValid chain difficulty i)
      else .error .overflow := by
  have hle := toInt_ofNat_le i
  rw [checkedIsLinkValid, checkedRequiredDifficulty_of_le (by omega)]
  by_cases hfits : WindowFits chain (Int32.ofNat i)
  · rw [if_pos hfits, if_pos hfits, Checked.ok_bind, isLinkValid]
    split_ifs <;> rfl
  · rw [if_neg hfits, if_neg hfits]
    rfl

/-- Where ten blocks are followed by another and everything up to the last of them is valid, the
last is dated less than `2 ^ 63` seconds after the first. -/
def WindowsFit (chain : List Block) (difficulty : Int32) : Prop :=
  ∀ i, 10 ≤ i → i < 2 ^ 31 → i < chain.length → isChainValid (chain.take i) difficulty = true →
    (blockAt chain (i - 1)).timestamp.toInt < (blockAt chain (i - 10)).timestamp.toInt + 2 ^ 63

/-- Below a valid prefix the order of the timestamps leaves only the upper bound. -/
theorem windowFits_iff_of_isChainValid {height : Int32} {i : ℕ} (hi : height.toInt = i)
    (h10 : 10 ≤ i) (hle : i ≤ chain.length)
    (hvalid : isChainValid (chain.take i) difficulty = true) :
    WindowFits chain height ↔
      (blockAt chain (i - 1)).timestamp.toInt <
        (blockAt chain (i - 10)).timestamp.toInt + 2 ^ 63 := by
  have hlength : (chain.take i).length = i := by
    rw [List.length_take, Nat.min_eq_left hle]
  have horder : (blockAt chain (i - 10)).timestamp ≤ (blockAt chain (i - 1)).timestamp := by
    have h := timestamp_le_of_isChainValid hvalid (i := i - 10) (j := i - 1) (by omega) (by omega)
    rwa [blockAt_take (by omega), blockAt_take (by omega)] at h
  rw [Int64.le_iff_toInt_le] at horder
  rw [WindowFits, hi, Int.toNat_natCast, exactWindowTime]
  omega

theorem checkedIsLinkValid_eq_or :
    ∀ i ∈ List.range' 1 (chain.length - 1),
      checkedIsLinkValid chain difficulty i = .ok (isLinkValid chain difficulty i) ∨
        checkedIsLinkValid chain difficulty i = .error .overflow := by
  intro i hi
  rw [List.mem_range'_1] at hi
  rw [checkedIsLinkValid_eq (by omega)]
  split_ifs with hfits
  · exact .inl rfl
  · exact .inr rfl

/-- The only fault while a chain is validated is an overflow. -/
theorem checkedIsChainValid_eq_or :
    checkedIsChainValid chain difficulty = .ok (isChainValid chain difficulty) ∨
      checkedIsChainValid chain difficulty = .error .overflow := by
  rw [checkedIsChainValid, isChainValid]
  split_ifs
  · exact .inl rfl
  · exact .inl rfl
  · exact CheckedLoops.allM_eq_ok_or_error checkedIsLinkValid_eq_or

/-- A chain is validated without a fault exactly when its windows fit. -/
theorem checkedIsChainValid_eq_iff :
    checkedIsChainValid chain difficulty = .ok (isChainValid chain difficulty) ↔
      WindowsFit chain difficulty := by
  rw [checkedIsChainValid, isChainValid]
  split_ifs with hempty hgenesis
  · exact iff_of_true rfl fun i h10 _ hlt => by omega
  · refine iff_of_true rfl fun i h10 _ hlt hvalid => ?_
    rw [isChainValid_take_iff (by omega) hlt.le] at hvalid
    simp [hvalid.1] at hgenesis
  have hgenesis' : (blockAt chain 0).isValidWithDifficulty difficulty = true := by
    simpa using hgenesis
  have hlink {i : ℕ} (hi : i ≤ chain.length) :
      checkedIsLinkValid chain difficulty i = .ok (isLinkValid chain difficulty i) ↔
        WindowFits chain (Int32.ofNat i) := by
    rw [checkedIsLinkValid_eq hi]
    split_ifs with hfits <;> simp [hfits]
  rw [CheckedLoops.allM_eq_ok_iff checkedIsLinkValid_eq_or]
  constructor
  · intro h i h10 hi hlt hvalid
    have hchecked := h (List.range' 1 (i - 1)) i
      (CheckedLoops.concat_prefix_range'_iff.mpr ⟨by omega, by omega, rfl⟩)
      ((isChainValid_take_iff (by omega) hlt.le).mp hvalid).2
    rw [hlink hlt.le, windowFits_iff_of_isChainValid (Int32.toInt_ofNat_of_lt hi) h10 hlt.le hvalid]
      at hchecked
    exact hchecked
  · intro h front i hprefix hfront
    obtain ⟨hlow, hhigh, rfl⟩ := CheckedLoops.concat_prefix_range'_iff.mp hprefix
    rw [hlink (by omega)]
    have hvalid := (isChainValid_take_iff (by omega) (by omega)).mpr ⟨hgenesis', hfront⟩
    -- A height that has wrapped around is the height of an earlier position.
    have hle := toInt_ofNat_le i
    have hlt := Int32.toInt_lt (Int32.ofNat i)
    intro h10
    obtain ⟨n, hn⟩ := Int.eq_ofNat_of_zero_le (by omega : 0 ≤ (Int32.ofNat i).toInt)
    have hprefix := isChainValid_take_of_le (by omega) (by omega : n ≤ i) hvalid
    exact (windowFits_iff_of_isChainValid hn (by omega) (by omega) hprefix).mpr
      (h n (by omega) (by omega) (by omega) hprefix) h10

/-- Without a date before the epoch every window fits. -/
theorem windowFits_of_nonneg (h : ∀ b ∈ chain, 0 ≤ b.timestamp.toInt) (height : Int32) :
    WindowFits chain height := by
  have hnonneg (i : ℕ) : 0 ≤ (blockAt chain i).timestamp.toInt := by
    rcases lt_or_ge i chain.length with hi | hi
    · rw [blockAt_eq_getElem hi]
      exact h _ (List.getElem_mem hi)
    · rw [blockAt, List.getD_eq_default _ _ hi]
      decide
  have hlast := hnonneg (height.toInt.toNat - 1)
  have hfirst := hnonneg (height.toInt.toNat - 10)
  have hlastUpper := (blockAt chain (height.toInt.toNat - 1)).timestamp.toInt_lt
  have hfirstUpper := (blockAt chain (height.toInt.toNat - 10)).timestamp.toInt_lt
  intro _
  rw [exactWindowTime]
  omega

theorem windowsFit_of_nonneg (h : ∀ b ∈ chain, 0 ≤ b.timestamp.toInt) :
    WindowsFit chain difficulty := by
  intro i h10 hi hlt hvalid
  have hheight : (Int32.ofNat i).toInt = i := Int32.toInt_ofNat_of_lt hi
  exact (windowFits_iff_of_isChainValid hheight h10 hlt.le hvalid).mp (windowFits_of_nonneg h _)

end Chain

/-! ### Loading a file and adding a block -/

/-- The windows of the chain in the file fit, when a chain is read from it. -/
def FileWindowsFit (file : Option Bytes) : Prop :=
  ∀ d r parsed rest, file.bind readFile.run = some ((d, r, parsed), rest) → WindowsFit parsed d

/-- When index, link and order of the block are right, the window below it fits. -/
def TipWindowFits (s : Blockchain) : Option Block → Prop
  | none => True
  | some block =>
    block.index = Int32.ofNat s.chain.length → block.previousHash = s.getLatestBlock.hash →
      s.getLatestBlock.timestamp ≤ block.timestamp → WindowFits s.chain block.index

theorem checkedLoadFromFile_eq_ok_iff (s : Blockchain) (file : Option Bytes) :
    checkedLoadFromFile s file = .ok (s.loadFromFile file) ↔ FileWindowsFit file := by
  unfold checkedLoadFromFile FileWindowsFit
  cases hread : file.bind readFile.run with
  | none => exact iff_of_true rfl fun d r parsed rest h => by cases h
  | some result =>
    obtain ⟨⟨d, r, parsed⟩, rest⟩ := result
    dsimp only
    have hfits : (∀ d' r' parsed' rest', some ((d, r, parsed), rest) =
        some ((d', r', parsed'), rest') → WindowsFit parsed' d') ↔ WindowsFit parsed d := by
      constructor
      · intro h
        exact h d r parsed rest rfl
      · rintro h _ _ _ _ ⟨⟩
        exact h
    rw [hfits, ← checkedIsChainValid_eq_iff]
    rcases @checkedIsChainValid_eq_or parsed d with hok | herror
    · rw [hok, Checked.ok_bind]
      exact iff_of_true rfl rfl
    · rw [herror]
      exact iff_of_false (fun h => by cases h) (fun h => by cases h)

/-- A chain that is saved and read back has the windows of the file. -/
theorem windowsFit_of_saveToFile {s : Blockchain}
    (hreward : money.isValidAmount s.miningReward = true) (hsafe : SafeFields s.chain)
    (h : FileWindowsFit (some s.saveToFile)) : WindowsFit s.chain s.difficulty := by
  obtain ⟨rest, hread⟩ := (reads_file hreward hsafe).run_eq
  exact h s.difficulty s.miningReward s.chain rest hread

theorem checkedLoadFromFile_eq_or (s : Blockchain) (file : Option Bytes) :
    checkedLoadFromFile s file = .ok (s.loadFromFile file) ∨
      checkedLoadFromFile s file = .error .overflow := by
  unfold checkedLoadFromFile
  cases file.bind readFile.run with
  | none => exact .inl rfl
  | some result =>
    obtain ⟨⟨d, r, parsed⟩, rest⟩ := result
    dsimp only
    rcases @checkedIsChainValid_eq_or parsed d with hok | herror
    · rw [hok]
      exact .inl rfl
    · rw [herror]
      exact .inr rfl

/-- A block is added without a fault exactly when the window below it fits, and the only fault is
an overflow. -/
theorem checkedAddBlock_cases (s : Blockchain) (block : Option Block) :
    TipWindowFits s block ∧ checkedAddBlock s block = .ok (s.addBlock block) ∨
      ¬ TipWindowFits s block ∧ checkedAddBlock s block = .error .overflow := by
  cases block with
  | none => exact .inl ⟨trivial, rfl⟩
  | some block =>
    unfold TipWindowFits checkedAddBlock addBlock
    dsimp only
    by_cases hindex : block.index = Int32.ofNat s.chain.length
    swap
    · rw [if_pos hindex, if_pos hindex]
      exact .inl ⟨fun h => absurd h hindex, rfl⟩
    rw [if_neg (not_not.mpr hindex), if_neg (not_not.mpr hindex)]
    by_cases hlink : block.previousHash = s.getLatestBlock.hash
    swap
    · rw [if_pos hlink, if_pos hlink]
      exact .inl ⟨fun _ h => absurd h hlink, rfl⟩
    rw [if_neg (not_not.mpr hlink), if_neg (not_not.mpr hlink)]
    by_cases horder : block.timestamp < s.getLatestBlock.timestamp
    · rw [if_pos horder, if_pos horder]
      exact .inl ⟨fun _ _ h => absurd horder (Int64.not_lt.mpr h), rfl⟩
    have hle : block.index.toInt ≤ s.chain.length := by
      rw [hindex]
      exact toInt_ofNat_le _
    rw [if_neg horder, if_neg horder, checkedRequiredDifficulty_of_le hle]
    by_cases hfits : WindowFits s.chain block.index
    · rw [if_pos hfits, Checked.ok_bind]
      refine .inl ⟨fun _ _ _ => hfits, ?_⟩
      split_ifs <;> rfl
    · rw [if_neg hfits]
      exact .inr ⟨fun h => hfits (h hindex hlink (Int64.not_lt.mp horder)), rfl⟩

/-- The timing arithmetic of a load is exact for the files whose windows fit, and that of an added
block when the window below it fits; nothing else goes wrong. -/
theorem timing_exact_iff (s : Blockchain) :
    (∀ file, (checkedLoadFromFile s file = .ok (s.loadFromFile file) ↔ FileWindowsFit file) ∧
      checkedLoadFromFile s file ≠ .error .outOfRange) ∧
    ∀ block, (checkedAddBlock s block = .ok (s.addBlock block) ↔ TipWindowFits s block) ∧
      checkedAddBlock s block ≠ .error .outOfRange := by
  refine ⟨fun file => ⟨checkedLoadFromFile_eq_ok_iff s file, ?_⟩, fun block => ?_⟩
  · rcases checkedLoadFromFile_eq_or s file with h | h <;> rw [h] <;> simp
  · rcases checkedAddBlock_cases s block with ⟨hfits, h⟩ | ⟨hfits, h⟩ <;> rw [h] <;> simp [hfits]

/-! ### A chain that spans the whole range -/

theorem stack_ne_nil {chain : List Block} {timestamp : Int64} (hne : chain ≠ []) (n : ℕ) :
    stack chain timestamp n ≠ [] := by
  cases n with
  | zero => exact hne
  | succ n => simp [stack]

theorem safeFields_stack {chain : List Block} {timestamp : Int64} (hne : chain ≠ [])
    (h : ∀ b ∈ chain, b.SafeFields) (n : ℕ) : ∀ b ∈ stack chain timestamp n, b.SafeFields := by
  induction n with
  | zero => exact h
  | succ n ih =>
    rw [stack, List.forall_mem_append, List.forall_mem_singleton]
    refine ⟨ih, ?_, utils.isWord_sha256 _, rfl, (by decide : 0 < UInt64.size),
      fun tx htx => by cases htx⟩
    change IsWord (blockAt (stack chain timestamp n) _).hash
    rw [blockAt_length_sub_one (stack_ne_nil hne n)]
    exact (ih _ (List.getLast_mem _)).hash

/-- A genesis block of the earliest date, and empty blocks of the latest. -/
def wholeRange (n : ℕ) : Blockchain :=
  { fresh (money.coins 50) Int64.minValue with
    chain := stack (fresh (money.coins 50) Int64.minValue).chain Int64.maxValue n
    chain_ne_nil := stack_ne_nil (by simp [fresh]) n }

theorem safeFields_wholeRange : SafeFields (wholeRange 10).chain := by
  refine ⟨by decide, safeFields_stack (by simp [fresh]) ?_ 10⟩
  refine List.forall_mem_singleton.mpr ⟨?_, utils.isWord_sha256 _, rfl,
    (by decide : 0 < UInt64.size), fun tx htx => by cases htx⟩
  change IsWord (ascii "0")
  decide

/-- The first ten blocks are valid, so that the timestamps of the first and the tenth are
subtracted. -/
theorem not_windowsFit_wholeRange : ¬ WindowsFit (wholeRange 10).chain 0 := by
  intro h
  have htake : (wholeRange 10).chain.take 10 = (wholeRange 9).chain := List.take_left' rfl
  have hvalid : isChainValid (wholeRange 9).chain 0 = true :=
    isChainValid_stack (isChainValid_fresh _ _) (by decide) 9 (by decide +kernel)
  have hfits := h 10 (by decide) (by decide) (by decide) (by rw [htake]; exact hvalid)
  exact absurd hfits (by decide +kernel)

theorem not_tipWindowFits_wholeRange :
    ¬ TipWindowFits (wholeRange 9) (some (assemble (wholeRange 9).chain Int64.maxValue [])) := by
  intro h
  have hhash : (assemble (wholeRange 9).chain Int64.maxValue []).previousHash =
      (wholeRange 9).getLatestBlock.hash := by
    rw [getLatestBlock_eq]
    rfl
  exact absurd (h rfl hhash (by decide +kernel)) (by decide +kernel)

/-- The file with eleven such blocks is read and its validation overflows. So does the validation of
the eleventh block on top of the others. -/
theorem whole_range_overflows :
    checkedLoadFromFile (fresh (money.coins 50) 0) (some (wholeRange 10).saveToFile) =
        .error .overflow ∧
      checkedAddBlock (wholeRange 9) (some (assemble (wholeRange 9).chain Int64.maxValue [])) =
        .error .overflow := by
  constructor
  · refine (checkedLoadFromFile_eq_or _ _).resolve_left fun hok => not_windowsFit_wholeRange ?_
    rw [checkedLoadFromFile_eq_ok_iff] at hok
    exact windowsFit_of_saveToFile (by decide) safeFields_wholeRange hok
  · rcases checkedAddBlock_cases (wholeRange 9)
        (some (assemble (wholeRange 9).chain Int64.maxValue [])) with ⟨hfits, -⟩ | ⟨-, h⟩
    · exact absurd hfits not_tipWindowFits_wholeRange
    · exact h

end Blockchain

end BlockchainCrypto
