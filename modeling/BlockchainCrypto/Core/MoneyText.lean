import Mathlib.Algebra.Order.Field.Rat
import Mathlib.Tactic.FieldSimp
import BlockchainCrypto.Core.Money
import BlockchainCrypto.Core.Utils
import BlockchainCrypto.Crypto.BigInt
import BlockchainCrypto.Text.FixedWidth

/-!
# Amounts of money as text

`money.cpp`: amounts are written as coin figures with eight decimals, and coin figures with up to
eight decimals are read as amounts. Every value of the 64-bit types is checked when it is made, so
that a result shows that nothing has wrapped around on the way to it.

## Main definitions

* `money.format`, `money.parse`, over `money.fromChars`.
* `money.IsFigure`: the texts that are coin figures, with their exact value.

## Main results

* `money.format_eq`: the rendering, without overflow.
* `money.parse_of_isFigure`, `money.parse_of_not_isFigure`: what is read, without overflow.
* `money.text_round_trip`: renderings are exact and are read back.
* `money.parse_exact_iff`: the contract of the parser, which a figure of value zero breaks.
-/

namespace BlockchainCrypto

open ByteText

namespace money

/-- The digits behind the point. -/
abbrev DECIMALS : ℕ := 8

/-- A value of `std::uint64_t`. -/
def u64 (x : ℕ) : Checked UInt64 :=
  if x < 2 ^ 64 then .ok (UInt64.ofNat x) else .error .overflow

/-- A value of `std::int64_t`. -/
def i64 (x : ℤ) : Checked Int64 :=
  if -2 ^ 63 ≤ x ∧ x < 2 ^ 63 then .ok (Int64.ofInt x) else .error .overflow

/-- The same function as in `utils.cpp`. -/
def trim (text : Bytes) : Bytes := utils.trim text

/-- A string of digits that is not empty. -/
def allDigits (text : Bytes) : Bool := !text.isEmpty && text.all isDigit

/-- The absolute value of an amount; the smallest one has none in its own type. -/
def magnitudeOf (amount : Amount) : Checked UInt64 :=
  if amount < 0 then do
    let above ← i64 (amount.toInt + 1)
    let negated ← i64 (-above.toInt)
    u64 (negated.toUInt64.toNat + 1)
  else pure amount.toUInt64

/-- The coin figure of an amount, with all eight decimals. -/
def format (amount : Amount) : Checked Bytes := do
  let magnitude ← magnitudeOf amount
  let whole := magnitude / COIN.toUInt64
  let fraction := magnitude % COIN.toUInt64
  pure ((if amount < 0 then ascii "-" else []) ++ decimal whole.toNat ++ ascii "." ++
    zeroPadded 8 fraction.toNat)

/-- `std::from_chars` at an unsigned type: the value of the digits in front and what follows them;
none without a digit, and for a value that is too large. -/
def fromChars (text : Bytes) : Option (UInt64 × Bytes) :=
  let ds := text.takeWhile isDigit
  if ds = [] ∨ 2 ^ 64 ≤ digitsValue ds then none
  else some (UInt64.ofNat (digitsValue ds), text.dropWhile isDigit)

/-- The power of ten for the digits that are not given. -/
def scaleLoop : ℕ → UInt64 → Checked UInt64
  | 0, scale => pure scale
  | n + 1, scale => do
    let scale ← u64 (scale.toNat * 10)
    scaleLoop n scale

/-- The digits behind the point, in units; there may be none. -/
def parseFraction (fractionText : Bytes) : Checked (Option UInt64) :=
  if fractionText = [] then pure (some 0)
  else do
    let scale ← scaleLoop (DECIMALS - fractionText.length) 1
    match fromChars fractionText with
    | none => pure none
    | some (digits, rest) =>
      if rest ≠ [] then pure none
      else do
        let fraction ← u64 (digits.toNat * scale.toNat)
        pure (some fraction)

/-- The whole coins and the units behind the point, up to the cap. -/
def joinParts (whole fraction : UInt64) : Checked (Option Amount) := do
  let product ← u64 (whole.toNat * COIN.toUInt64.toNat)
  let total ← u64 (product.toNat + fraction.toNat)
  if total > MAX_MONEY.toUInt64 then pure none else pure (some total.toInt64)

/-- The amount of a coin figure, or none; a figure of value zero is read as zero. -/
def parse (text : Bytes) : Checked (Option Amount) :=
  let text := trim text
  if text = [] then pure none
  else
    let wholeText := text.takeWhile (· != 46)
    let fractionText := (text.dropWhile (· != 46)).drop 1
    if !allDigits wholeText then pure none
    else if text.contains 46 && !allDigits fractionText then pure none
    else if fractionText.length > DECIMALS then pure none
    else
      match fromChars wholeText with
      | none => pure none
      | some (whole, rest) =>
        if rest ≠ [] then pure none
        else if whole > (MAX_MONEY / COIN).toUInt64 then pure none
        else do
          match ← parseFraction fractionText with
          | none => pure none
          | some fraction => joinParts whole fraction

/-! ### Coin figures -/

/-- A run of at least one digit. -/
def IsDigits (ds : Bytes) : Prop := ds ≠ [] ∧ ∀ c ∈ ds, isDigit c = true

/-- The exact value of the digits in front of the point and behind it. -/
def coinValue (whole fraction : Bytes) : ℚ :=
  digitsValue whole + digitsValue fraction / 10 ^ fraction.length

/-- The texts that are coin figures between white space, with their exact value in coins. -/
inductive IsFigure : Bytes → ℚ → Prop
  | whole {ws ws' whole} (hws : Blank ws) (hws' : Blank ws') (hwhole : IsDigits whole) :
      IsFigure (ws ++ whole ++ ws') (coinValue whole [])
  | decimals {ws ws' whole fraction} (hws : Blank ws) (hws' : Blank ws') (hwhole : IsDigits whole)
      (hfraction : IsDigits fraction) (hlength : fraction.length ≤ 8) :
      IsFigure (ws ++ (whole ++ ascii "." ++ fraction) ++ ws') (coinValue whole fraction)

theorem u64_eq {x : ℕ} (h : x < 2 ^ 64) : u64 x = .ok (UInt64.ofNat x) := if_pos h

theorem i64_eq {x : ℤ} (hlow : -2 ^ 63 ≤ x) (hhigh : x < 2 ^ 63) : i64 x = .ok (Int64.ofInt x) :=
  if_pos ⟨hlow, hhigh⟩

theorem toNat_toUInt64 (a : Int64) : (a.toUInt64.toNat : ℤ) = a.toInt % 2 ^ 64 := by
  have h := BitVec.toInt_eq_toNat_bmod a.toBitVec
  have hlt := a.toUInt64.toNat_lt
  rw [Int64.toInt_toBitVec, Int64.toNat_toBitVec] at h
  have hmod : ((a.toUInt64.toNat : ℤ).bmod (2 ^ 64)) % (2 ^ 64 : ℕ) =
      a.toUInt64.toNat % (2 ^ 64 : ℕ) := Int.bmod_emod
  rw [← h] at hmod
  omega

/-! ### Writing -/

/-- The absolute value is computed without overflow. -/
theorem magnitudeOf_eq (amount : Amount) :
    magnitudeOf amount = .ok (UInt64.ofNat amount.toInt.natAbs) := by
  have hlow := Int64.le_toInt amount
  have hhigh := Int64.toInt_lt amount
  unfold magnitudeOf
  split_ifs with hneg
  · have hneg' : amount.toInt < 0 := Int64.lt_iff_toInt_lt.mp hneg
    rw [i64_eq (by omega) (by omega), Checked.ok_bind,
      Int64.toInt_ofInt_of_le (by omega) (by omega), i64_eq (by omega) (by omega), Checked.ok_bind]
    have hvalue := toNat_toUInt64 (Int64.ofInt (-(amount.toInt + 1)))
    rw [Int64.toInt_ofInt_of_le (by omega) (by omega)] at hvalue
    have hnat : (Int64.ofInt (-(amount.toInt + 1))).toUInt64.toNat + 1 = amount.toInt.natAbs := by
      omega
    rw [hnat, u64_eq (by omega)]
  · have hneg' : ¬amount.toInt < 0 := fun h => hneg (Int64.lt_iff_toInt_lt.mpr h)
    have hvalue := toNat_toUInt64 amount
    rw [Checked.pure_eq, ← UInt64.ofNat_toNat (x := amount.toUInt64)]
    congr 2
    omega

/-- The rendering of an amount: its sign, its whole coins and eight decimals. -/
theorem format_eq (amount : Amount) : format amount =
    .ok ((if amount.toInt < 0 then ascii "-" else []) ++ decimal (amount.toInt.natAbs / 10 ^ 8) ++
      ascii "." ++ zeroPadded 8 (amount.toInt.natAbs % 10 ^ 8)) := by
  have hlow := Int64.le_toInt amount
  have hhigh := Int64.toInt_lt amount
  have hcoin : COIN.toUInt64.toNat = 10 ^ 8 := by decide
  have hmagnitude : (UInt64.ofNat amount.toInt.natAbs).toNat = amount.toInt.natAbs :=
    UInt64.toNat_ofNat_of_lt' (by omega : amount.toInt.natAbs < 2 ^ 64)
  have hsign : amount < 0 ↔ amount.toInt < 0 := Int64.lt_iff_toInt_lt
  rw [format, magnitudeOf_eq, Checked.ok_bind]
  simp only [UInt64.toNat_div, UInt64.toNat_mod, hmagnitude, hcoin, hsign]
  rfl

/-! ### Reading -/

theorem allDigits_iff {text : Bytes} : allDigits text = true ↔ IsDigits text := by
  rw [allDigits, Bool.and_eq_true, Bool.not_eq_true', List.isEmpty_eq_false_iff, List.all_eq_true]
  rfl

theorem fromChars_of_isDigits {ds : Bytes} (hds : IsDigits ds) : fromChars ds =
    if 2 ^ 64 ≤ digitsValue ds then none else some (UInt64.ofNat (digitsValue ds), []) := by
  have htake : ds.takeWhile isDigit = ds := List.takeWhile_eq_self_iff.mpr hds.2
  have hdrop : ds.dropWhile isDigit = [] := List.dropWhile_eq_nil_iff.mpr hds.2
  rw [fromChars, htake, hdrop]
  simp only [hds.1, false_or]

theorem scaleLoop_eq {n : ℕ} {scale : UInt64} (h : scale.toNat * 10 ^ n < 2 ^ 64) :
    scaleLoop n scale = .ok (UInt64.ofNat (scale.toNat * 10 ^ n)) := by
  induction n generalizing scale with
  | zero => rw [Nat.pow_zero, Nat.mul_one, UInt64.ofNat_toNat]; rfl
  | succ n ih =>
    have hsplit : scale.toNat * 10 ^ (n + 1) = scale.toNat * 10 * 10 ^ n := by ring
    have hpow : 0 < 10 ^ n := Nat.pow_pos (by decide)
    have hstep : scale.toNat * 10 < 2 ^ 64 := by
      rw [hsplit] at h
      exact (Nat.le_mul_of_pos_right _ hpow).trans_lt h
    have hvalue : (UInt64.ofNat (scale.toNat * 10)).toNat = scale.toNat * 10 :=
      UInt64.toNat_ofNat_of_lt' hstep
    rw [scaleLoop, u64_eq hstep, Checked.ok_bind, ih (by rwa [hvalue, ← hsplit]), hvalue, hsplit]

/-- Up to eight digits behind the point are fewer units than a coin has. -/
theorem scaled_lt {fraction : Bytes} (hdigits : ∀ c ∈ fraction, isDigit c = true)
    (hlength : fraction.length ≤ 8) :
    digitsValue fraction * 10 ^ (8 - fraction.length) < 10 ^ 8 := by
  calc digitsValue fraction * 10 ^ (8 - fraction.length)
      < 10 ^ fraction.length * 10 ^ (8 - fraction.length) :=
        Nat.mul_lt_mul_of_pos_right (digitsValue_lt hdigits) (Nat.pow_pos (by decide))
    _ = 10 ^ 8 := by rw [← Nat.pow_add, Nat.add_sub_cancel' hlength]

theorem parseFraction_eq {fraction : Bytes} (hdigits : fraction = [] ∨ IsDigits fraction)
    (hlength : fraction.length ≤ 8) : parseFraction fraction =
      .ok (some (UInt64.ofNat (digitsValue fraction * 10 ^ (8 - fraction.length)))) := by
  rcases hdigits with rfl | hdigits
  · rfl
  have hscaled := scaled_lt hdigits.2 hlength
  have hpow : 10 ^ (8 - fraction.length) ≤ 10 ^ 8 := Nat.pow_le_pow_right (by decide) (by omega)
  have hvalue : digitsValue fraction < 2 ^ 64 :=
    (digitsValue_lt hdigits.2).trans_le
      ((Nat.pow_le_pow_right (by decide) hlength).trans (by decide))
  have hscale : scaleLoop (DECIMALS - fraction.length) 1 =
      .ok (UInt64.ofNat (10 ^ (8 - fraction.length))) := by
    have hfits : (1 : UInt64).toNat * 10 ^ (8 - fraction.length) < 2 ^ 64 := by
      rw [UInt64.toNat_one, Nat.one_mul]
      omega
    have h := scaleLoop_eq hfits
    rwa [UInt64.toNat_one, Nat.one_mul] at h
  rw [parseFraction, if_neg hdigits.1, hscale, Checked.ok_bind, fromChars_of_isDigits hdigits,
    if_neg (by omega)]
  simp only [ne_eq, not_true_eq_false, ↓reduceIte, UInt64.toNat_ofNat']
  rw [Nat.mod_eq_of_lt hvalue, Nat.mod_eq_of_lt (by omega), u64_eq (by omega)]
  rfl

/-- White space around a string without any. -/
theorem trim_surrounded {ws ws' figure : Bytes} (hws : Blank ws) (hws' : Blank ws')
    (hfigure : IsWord figure) : trim (ws ++ figure ++ ws') = figure := by
  have hblank : Blank ws'.reverse := fun c hc => hws' c (List.mem_reverse.mp hc)
  have hword : IsWord figure.reverse :=
    ⟨fun h => hfigure.1 (List.reverse_eq_nil_iff.mp h), fun c hc =>
      hfigure.2 c (List.mem_reverse.mp hc)⟩
  have hback := @dropWhile_blank _ _ [] hblank hword
  rw [List.append_nil, ← List.reverse_append] at hback
  rw [trim, utils.trim, List.append_assoc, dropWhile_blank hws hfigure, List.rdropWhile, hback,
    List.reverse_reverse]

theorem exists_surrounded (text : Bytes) : ∃ ws ws', Blank ws ∧ Blank ws' ∧
    text = ws ++ trim text ++ ws' := by
  refine ⟨text.takeWhile isSpace, (text.dropWhile isSpace).rtakeWhile isSpace, ?_, ?_, ?_⟩
  · exact fun c hc => List.mem_takeWhile_imp hc
  · exact fun c hc => List.mem_rtakeWhile_imp hc
  · rw [trim, utils.trim, List.append_assoc, List.rdropWhile_append_rtakeWhile,
      List.takeWhile_append_dropWhile]

/-- The digits in front of the point, and what is behind it. -/
theorem split_point {whole tail : Bytes} (hwhole : IsDigits whole)
    (htail : tail = [] ∨ tail.head? = some 46) :
    (whole ++ tail).takeWhile (· != 46) = whole ∧ (whole ++ tail).dropWhile (· != 46) = tail := by
  have hpoint : ∀ c ∈ whole, (c != 46) = true := by
    intro c hc
    rw [bne_iff_ne]
    rintro rfl
    exact absurd (hwhole.2 _ hc) (by decide)
  rw [List.takeWhile_append_of_pos hpoint, List.dropWhile_append_of_pos hpoint]
  rcases htail with rfl | htail
  · exact ⟨List.append_nil whole, rfl⟩
  · obtain ⟨rest, rfl⟩ := List.head?_eq_some_iff.mp htail
    rw [List.takeWhile_cons_of_neg (by decide), List.dropWhile_cons_of_neg (by decide)]
    exact ⟨List.append_nil whole, rfl⟩

theorem joinParts_eq {whole fraction : ℕ} (hwhole : whole ≤ 21000000)
    (hfraction : fraction < 10 ^ 8) :
    joinParts (UInt64.ofNat whole) (UInt64.ofNat fraction) =
      .ok (if whole * 10 ^ 8 + fraction ≤ 2100000000000000
        then some (Int64.ofNat (whole * 10 ^ 8 + fraction)) else none) := by
  have hvalue {n : ℕ} (hn : n < 2 ^ 64) : (UInt64.ofNat n).toNat = n :=
    UInt64.toNat_ofNat_of_lt' hn
  have hcoin : COIN.toUInt64.toNat = 10 ^ 8 := by decide
  have hmax : MAX_MONEY.toUInt64.toNat = 2100000000000000 := by decide
  have htotal : UInt64.ofNat (whole * 10 ^ 8 + fraction) > MAX_MONEY.toUInt64 ↔
      ¬whole * 10 ^ 8 + fraction ≤ 2100000000000000 := by
    rw [gt_iff_lt, UInt64.lt_iff_toNat_lt, hmax, hvalue (by omega), not_le]
  rw [joinParts, hcoin, hvalue (by omega), u64_eq (by omega), Checked.ok_bind, hvalue (by omega),
    hvalue (by omega), u64_eq (by omega), Checked.ok_bind, Checked.pure_eq, Checked.pure_eq]
  split_ifs with hover hle hle
  · exact absurd hle (htotal.mp hover)
  · rfl
  · rfl
  · exact absurd (htotal.mpr hle) hover

/-- A figure is read as its number of units, when the cap allows it. -/
theorem parse_of_trim {text whole fraction tail : Bytes} (htrim : trim text = whole ++ tail)
    (hwhole : IsDigits whole)
    (htail : tail = [] ∧ fraction = [] ∨ tail = 46 :: fraction ∧ IsDigits fraction)
    (hlength : fraction.length ≤ 8) {units : ℕ}
    (hunits : units = digitsValue whole * 10 ^ 8 +
      digitsValue fraction * 10 ^ (8 - fraction.length)) :
    parse text = .ok (if units ≤ 2100000000000000 then some (Int64.ofNat units) else none) := by
  have hdigits : fraction = [] ∨ IsDigits fraction := htail.imp And.right And.right
  have hscaled : digitsValue fraction * 10 ^ (8 - fraction.length) < 10 ^ 8 := by
    refine scaled_lt ?_ hlength
    rcases hdigits with rfl | h
    · simp
    · exact h.2
  have hpoint : tail = [] ∨ tail.head? = some 46 := by
    rcases htail with ⟨h, -⟩ | ⟨h, -⟩
    · exact .inl h
    · exact .inr (h ▸ rfl)
  obtain ⟨htake, hdrop⟩ := split_point hwhole hpoint
  have hbehind : tail.drop 1 = fraction := by
    rcases htail with ⟨rfl, rfl⟩ | ⟨rfl, -⟩
    · rfl
    · rfl
  have hnonempty : whole ++ tail ≠ [] := List.append_ne_nil_of_left_ne_nil hwhole.1 tail
  have hfraction : ((whole ++ tail).contains 46 && !allDigits fraction) = false := by
    rcases htail with ⟨rfl, -⟩ | ⟨-, hfraction⟩
    · have hpoint : (46 : UInt8) ∉ whole := fun h => absurd (hwhole.2 _ h) (by decide)
      rw [List.append_nil, Bool.and_eq_false_iff]
      exact .inl (Bool.eq_false_iff.mpr fun h => hpoint (List.contains_iff_mem.mp h))
    · rw [allDigits_iff.mpr hfraction, Bool.not_true, Bool.and_false]
  have hcap : (MAX_MONEY / COIN).toUInt64.toNat = 21000000 := by decide
  rw [parse]
  simp only [htrim, hnonempty, ↓reduceIte, htake, hdrop, hbehind, allDigits_iff.mpr hwhole,
    Bool.not_true, Bool.false_eq_true, hfraction, fromChars_of_isDigits hwhole,
    parseFraction_eq hdigits hlength, not_lt.mpr hlength]
  by_cases hwide : 2 ^ 64 ≤ digitsValue whole
  · -- the whole coins do not fit into 64 bits
    rw [if_pos hwide, if_neg (by omega)]
    rfl
  have hover : UInt64.ofNat (digitsValue whole) > (MAX_MONEY / COIN).toUInt64 ↔
      21000000 < digitsValue whole := by
    rw [gt_iff_lt, UInt64.lt_iff_toNat_lt, hcap, UInt64.toNat_ofNat', Nat.mod_eq_of_lt (by omega)]
  rw [if_neg hwide]
  by_cases hwholeCap : 21000000 < digitsValue whole
  · simp only [ne_eq, not_true_eq_false, ↓reduceIte, hover.mpr hwholeCap]
    rw [if_neg (by omega)]
    rfl
  · simp only [ne_eq, not_true_eq_false, ↓reduceIte, mt hover.mp hwholeCap]
    rw [Checked.ok_bind, hunits]
    exact joinParts_eq (not_lt.mp hwholeCap) hscaled

theorem coinValue_mul {whole fraction : Bytes} (hlength : fraction.length ≤ 8) :
    coinValue whole fraction * 10 ^ 8 = ((digitsValue whole * 10 ^ 8 +
      digitsValue fraction * 10 ^ (8 - fraction.length) : ℕ) : ℚ) := by
  have hpow : (10 : ℚ) ^ 8 = 10 ^ fraction.length * 10 ^ (8 - fraction.length) := by
    rw [← pow_add, Nat.add_sub_cancel' hlength]
  have hne : (10 : ℚ) ^ fraction.length ≠ 0 := pow_ne_zero _ (by norm_num)
  rw [coinValue, Nat.cast_add, Nat.cast_mul, Nat.cast_mul, Nat.cast_pow, Nat.cast_pow,
    Nat.cast_ofNat, add_mul]
  congr 1
  rw [hpow]
  field_simp

theorem IsDigits.append_point {whole fraction : Bytes} (hwhole : IsDigits whole)
    (hfraction : IsDigits fraction) : IsWord (whole ++ ascii "." ++ fraction) := by
  refine ⟨?_, ?_⟩
  · rw [List.append_assoc]
    exact List.append_ne_nil_of_left_ne_nil hwhole.1 _
  · intro c hc
    rcases List.mem_append.mp hc with hc | hc
    · rcases List.mem_append.mp hc with hc | hc
      · exact isSpace_eq_false_of_isDigit (hwhole.2 c hc)
      · obtain rfl := List.mem_singleton.mp hc
        rfl
    · exact isSpace_eq_false_of_isDigit (hfraction.2 c hc)

/-- A coin figure is read as its exact number of units, up to the cap. -/
theorem parse_of_isFigure {text : Bytes} {x : ℚ} (h : IsFigure text x) : ∃ units : ℕ,
    x * 10 ^ 8 = units ∧
      parse text = .ok (if units ≤ 2100000000000000 then some (Int64.ofNat units) else none) := by
  rcases h with @⟨ws, ws', whole, hws, hws', hwhole⟩ |
    @⟨ws, ws', whole, fraction, hws, hws', hwhole, hfraction, hlength⟩
  · have htrim : trim (ws ++ whole ++ ws') = whole ++ [] := by
      rw [List.append_nil, trim_surrounded hws hws'
        ⟨hwhole.1, fun c hc => isSpace_eq_false_of_isDigit (hwhole.2 c hc)⟩]
    exact ⟨_, coinValue_mul (Nat.zero_le 8),
      parse_of_trim htrim hwhole (.inl ⟨rfl, rfl⟩) (Nat.zero_le 8) rfl⟩
  · have htrim :
        trim (ws ++ (whole ++ ascii "." ++ fraction) ++ ws') = whole ++ 46 :: fraction := by
      rw [trim_surrounded hws hws' (hwhole.append_point hfraction), List.append_assoc]
      rfl
    exact ⟨_, coinValue_mul hlength,
      parse_of_trim htrim hwhole (.inr ⟨rfl, hfraction⟩) hlength rfl⟩

/-- Every other text is refused. -/
theorem parse_of_not_isFigure {text : Bytes} (h : ¬∃ x, IsFigure text x) :
    parse text = .ok none := by
  obtain ⟨ws, ws', hws, hws', htext⟩ := exists_surrounded text
  have hsplit := @List.takeWhile_append_dropWhile _ (· != (46 : UInt8)) (trim text)
  rw [parse]
  dsimp only
  split_ifs with hempty hwhole hpoint hlength
  · rfl
  · rfl
  · rfl
  · rfl
  -- the remaining texts are figures
  exfalso
  have hdigits : IsDigits ((trim text).takeWhile (· != 46)) := by
    rw [← allDigits_iff]
    simpa using hwhole
  apply h
  rcases hbehind : (trim text).dropWhile (· != 46) with _ | ⟨c, fraction⟩
  · have hfigure := IsFigure.whole hws hws' hdigits
    rw [hbehind, List.append_nil] at hsplit
    rw [hsplit, ← htext] at hfigure
    exact ⟨_, hfigure⟩
  · have hc : c = 46 := by
      have hhead := List.head?_dropWhile_not (· != (46 : UInt8)) (trim text)
      rw [hbehind] at hhead
      simpa using hhead
    subst hc
    rw [hbehind] at hsplit hpoint hlength
    have hcontains : (trim text).contains 46 = true := by
      rw [List.contains_iff_mem, ← hsplit]
      exact List.mem_append_right _ List.mem_cons_self
    have hfraction : IsDigits fraction := by
      rw [← allDigits_iff]
      rw [hcontains] at hpoint
      simpa using hpoint
    have hfigure := IsFigure.decimals hws hws' hdigits hfraction (not_lt.mp hlength)
    have hpointed : (trim text).takeWhile (· != 46) ++ ascii "." ++ fraction = trim text := by
      rw [List.append_assoc]
      exact hsplit
    rw [hpointed, ← htext] at hfigure
    exact ⟨_, hfigure⟩

/-! ### Round trips -/

/-- What the rendering of an amount is made of. -/
theorem format_isDigits (amount : Amount) : IsDigits (decimal (amount.toInt.natAbs / 10 ^ 8)) ∧
    IsDigits (zeroPadded 8 (amount.toInt.natAbs % 10 ^ 8)) ∧
      (zeroPadded 8 (amount.toInt.natAbs % 10 ^ 8)).length = 8 := by
  have hlength := @length_zeroPadded 8 (amount.toInt.natAbs % 10 ^ 8) (by decide)
    (Nat.mod_lt _ (by decide))
  refine ⟨⟨decimal_ne_nil _, fun c => isDigit_of_mem_decimal⟩,
    ⟨?_, fun c => isDigit_of_mem_zeroPadded⟩, hlength⟩
  intro hnil
  rw [hnil] at hlength
  cases hlength

/-- The value that is written is the amount. -/
theorem coinValue_format (amount : Amount) :
    coinValue (decimal (amount.toInt.natAbs / 10 ^ 8))
      (zeroPadded 8 (amount.toInt.natAbs % 10 ^ 8)) * 10 ^ 8 = (amount.toInt.natAbs : ℚ) := by
  obtain ⟨-, -, hlength⟩ := format_isDigits amount
  rw [coinValue_mul hlength.le, hlength, digitsValue_decimal, digitsValue_zeroPadded, Nat.sub_self,
    Nat.pow_zero, Nat.mul_one, Nat.div_add_mod']

theorem parse_surrounded_format {amount : Amount} (hlow : 0 ≤ amount.toInt)
    (hhigh : amount ≤ MAX_MONEY) {text : Bytes} (htext : format amount = .ok text) {ws ws' : Bytes}
    (hws : Blank ws) (hws' : Blank ws') : parse (ws ++ text ++ ws') = .ok (some amount) := by
  have hmax : MAX_MONEY.toInt = 2100000000000000 := by decide
  have hhigh' := Int64.le_iff_toInt_le.mp hhigh
  obtain ⟨hwhole, hfraction, hlength⟩ := format_isDigits amount
  obtain ⟨units, hunits, hparse⟩ :=
    parse_of_isFigure (.decimals hws hws' hwhole hfraction hlength.le)
  rw [coinValue_format, Nat.cast_inj] at hunits
  rw [format_eq, if_neg (not_lt.mpr hlow), List.nil_append] at htext
  rw [← Except.ok.inj htext, hparse, if_pos (by omega), ← hunits]
  have hamount : Int64.ofNat amount.toInt.natAbs = amount := by
    rw [← Int64.toInt_inj, Int64.toInt_ofNat_of_lt (by omega)]
    omega
  rw [hamount]

/-- A numeral does not begin with a minus sign. -/
theorem decimal_append_ne_minus (n : ℕ) (rest rest' : Bytes) : decimal n ++ rest ≠ 45 :: rest' := by
  intro h
  obtain ⟨c, ds, hds⟩ := List.exists_cons_of_ne_nil (decimal_ne_nil n)
  rw [hds] at h
  obtain rfl := (List.cons.inj h).1
  have hdigit := isDigit_of_mem_decimal (hds ▸ List.mem_cons_self : (45 : UInt8) ∈ decimal n)
  cases hdigit

theorem coins_inj {m n : ℕ}
    (h : decimal (m / 10 ^ 8) ++ ascii "." ++ zeroPadded 8 (m % 10 ^ 8) =
      decimal (n / 10 ^ 8) ++ ascii "." ++ zeroPadded 8 (n % 10 ^ 8)) : m = n := by
  have hpoint (k : ℕ) : (46 : UInt8) ∉ decimal k := fun hmem =>
    absurd (isDigit_of_mem_decimal hmem) (by decide)
  rw [List.append_assoc, List.append_assoc] at h
  obtain ⟨hwhole, hfraction⟩ := append_cons_inj_left (hpoint _) (hpoint _) h
  have hfraction' : digitsValue (zeroPadded 8 (m % 10 ^ 8)) =
      digitsValue (zeroPadded 8 (n % 10 ^ 8)) := congrArg digitsValue hfraction
  rw [digitsValue_zeroPadded, digitsValue_zeroPadded] at hfraction'
  rw [← Nat.div_add_mod' m (10 ^ 8), decimal_inj hwhole, hfraction', Nat.div_add_mod']

/-- Two amounts are not rendered alike. -/
theorem format_injective : Function.Injective format := by
  intro a b h
  rw [format_eq, format_eq] at h
  have htext := Except.ok.inj h
  simp only [List.append_assoc] at htext
  rw [← Int64.toInt_inj]
  split_ifs at htext with ha hb hb
  · have hvalue := coins_inj (m := a.toInt.natAbs) (n := b.toInt.natAbs) (by
      simpa only [List.append_assoc] using List.append_cancel_left htext)
    omega
  · exact absurd htext.symm (decimal_append_ne_minus _ _ _)
  · exact absurd htext (decimal_append_ne_minus _ _ _)
  · have hvalue := coins_inj (m := a.toInt.natAbs) (n := b.toInt.natAbs) (by
      simpa only [List.append_assoc, List.nil_append] using htext)
    omega

/-- An amount in the range of the cap is read back from its rendering, also between white space;
and all amounts of 64 bits are rendered without overflow, differently, and with their exact value
in coins. -/
theorem text_round_trip :
    (∀ amount : Amount, 0 ≤ amount → amount ≤ MAX_MONEY → ∃ text, format amount = .ok text ∧
      parse text = .ok (some amount) ∧
        ∀ ws ws', Blank ws → Blank ws' → parse (ws ++ text ++ ws') = .ok (some amount)) ∧
    (∀ a b text, format a = .ok text → format b = .ok text → a = b) ∧
    ∀ amount : Amount, ∃ whole fraction,
      format amount =
        .ok ((if amount < 0 then ascii "-" else []) ++ whole ++ ascii "." ++ fraction) ∧
      IsDigits whole ∧ IsDigits fraction ∧ fraction.length = 8 ∧
        (amount.toInt : ℚ) / 10 ^ 8 =
          if amount < 0 then -coinValue whole fraction else coinValue whole fraction := by
  refine ⟨fun amount hlow hhigh => ?_, fun a b text ha hb => ?_, fun amount => ?_⟩
  · have hlow' : 0 ≤ amount.toInt := Int64.le_iff_toInt_le.mp hlow
    have hround := @parse_surrounded_format amount hlow' hhigh _ (format_eq amount)
    have hblank : Blank [] := fun c hc => absurd hc List.not_mem_nil
    refine ⟨_, format_eq amount, ?_, fun ws ws' => hround⟩
    simpa only [List.nil_append, List.append_nil] using hround hblank hblank
  · exact format_injective (ha.trans hb.symm)
  · obtain ⟨hwhole, hfraction, hlength⟩ := format_isDigits amount
    have hsign : amount < 0 ↔ amount.toInt < 0 := Int64.lt_iff_toInt_lt
    refine ⟨_, _, ?_, hwhole, hfraction, hlength, ?_⟩
    · rw [format_eq]
      simp only [hsign]
    · have hvalue := coinValue_format amount
      have hne : (10 : ℚ) ^ 8 ≠ 0 := by norm_num
      rw [div_eq_iff hne]
      simp only [hsign]
      split_ifs with hneg
      · rw [neg_mul, hvalue, ← Int.cast_natCast amount.toInt.natAbs, ← Int.cast_neg, Int.cast_inj]
        omega
      · rw [hvalue, ← Int.cast_natCast amount.toInt.natAbs, Int.cast_inj]
        omega

/-! ### The contract of the parser -/

/-- The contract of `parse` for one text: it is read as an amount exactly if it is a coin figure of
this positive number of units within the cap, and nothing wraps around. -/
def ParsesExactly (text : Bytes) : Prop := ∃ result, parse text = .ok result ∧
  ∀ v : Amount, result = some v ↔
    ∃ x, IsFigure text x ∧ x * 10 ^ 8 = v.toInt ∧ 1 ≤ v.toInt ∧ v ≤ MAX_MONEY

/-- The contract is kept but for the figures of value zero. -/
theorem parse_exact_iff (text : Bytes) : ParsesExactly text ↔ ¬IsFigure text 0 := by
  have hmax : MAX_MONEY.toInt = 2100000000000000 := by decide
  constructor
  · rintro ⟨result, hresult, hexact⟩ hzero
    obtain ⟨units, hunits, hparse⟩ := parse_of_isFigure hzero
    rw [zero_mul, eq_comm, Nat.cast_eq_zero] at hunits
    subst hunits
    obtain ⟨x, -, -, hpositive, -⟩ := (hexact 0).mp (Except.ok.inj (hresult.symm.trans hparse))
    exact absurd hpositive (by decide)
  · intro hzero
    by_cases hfigure : ∃ x, IsFigure text x
    · obtain ⟨x, hx⟩ := hfigure
      obtain ⟨units, hunits, hparse⟩ := parse_of_isFigure hx
      refine ⟨_, hparse, fun v => ⟨fun hv => ?_, ?_⟩⟩
      · split_ifs at hv with hcap
        have hv' : v.toInt = units := by
          rw [← Option.some.inj hv]
          exact Int64.toInt_ofNat_of_lt (by omega)
        have hpositive : units ≠ 0 := by
          rintro rfl
          rw [Nat.cast_zero, mul_eq_zero, or_iff_left (by norm_num)] at hunits
          exact hzero (hunits ▸ hx)
        refine ⟨x, hx, ?_, by omega, Int64.le_iff_toInt_le.mpr (by omega)⟩
        rw [hunits, hv', Int.cast_natCast]
      · rintro ⟨y, hy, hvalue, hpositive, hcap⟩
        obtain ⟨units', hunits', hparse'⟩ := parse_of_isFigure hy
        have hv : v.toInt = units' := by exact_mod_cast hvalue.symm.trans hunits'
        have hcap' := Int64.le_iff_toInt_le.mp hcap
        rw [← Except.ok.inj (hparse'.symm.trans hparse), if_pos (by omega), Option.some_inj,
          ← Int64.toInt_inj, hv]
        exact Int64.toInt_ofNat_of_lt (by omega)
    · refine ⟨none, parse_of_not_isFigure hfigure, fun v => ⟨fun hv => ?_, ?_⟩⟩
      · cases hv
      · rintro ⟨x, hx, -⟩
        exact absurd ⟨x, hx⟩ hfigure

/-- The contract is broken by a single zero. -/
theorem parse_accepts_zero :
    parse (ascii "0") = .ok (some 0) ∧ ¬ ParsesExactly (ascii "0") := by
  have hzero : parse (ascii "0") = .ok (some 0) := by decide +kernel
  refine ⟨hzero, ?_⟩
  rintro ⟨result, hresult, hexact⟩
  obtain ⟨x, -, -, hpositive, -⟩ := (hexact 0).mp (Except.ok.inj (hresult.symm.trans hzero))
  exact absurd hpositive (by decide)

end money

end BlockchainCrypto
