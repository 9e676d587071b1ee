import BlockchainCrypto.Crypto.BigIntDivision
import BlockchainCrypto.Crypto.BigIntRing
import BlockchainCrypto.Crypto.KeyPairs
import BlockchainCrypto.Text.FixedWidth

/-!
# Text of integers of limbs

The conversions between text and the integers of `bigint.h`. The constructor reads as many digits
at a time as surely fit into a limb, after a first piece that may be shorter; `to_string` takes off
nineteen decimal digits at a time and pads all pieces but the highest with zeros, and
`to_binary_string` writes the bits of the limbs. In every base the constructor accepts exactly the
signed strings of digits, and the two renderings are read back as the integer they come from.

## Main definitions

* `BigInt.ofString`, over `BigInt.chunkLength`, `BigInt.readChunk` and `BigInt.readChunks`.
* `BigInt.toString`, over `BigInt.peelChunks`; `BigInt.toBinaryString`.
* `BigInt.IsNumeral`: the strings that denote an integer in a base.

## Main results

* `BigInt.ofString_spec`: the strings that are read, and what the others do.
* `BigInt.toString_eq`, `BigInt.toBinaryString_eq`: the numerals of the integer.
* `BigInt.conversion_exact`: reading is exact, and undoes both renderings.
-/

namespace BlockchainCrypto

open ByteText

namespace BigInt

/-- An exception of a conversion, or a fault of the arithmetic under it. -/
inductive TextFault where
  | invalidArgument (what : Bytes)
  | arithmetic (fault : Fault)
  deriving DecidableEq

/-! ### Reading -/

/-- `while (carry != 0)`: a carry of 128 bits has at most two limbs. -/
def carryLimbs : ℕ → ℕ → List UInt64
  | 0, _ => []
  | rounds + 1, carry =>
    if carry ≠ 0 then UInt64.ofNat carry :: carryLimbs rounds (carry >>> 64) else []

/-- The loop of `mulAddInPlace` over the limbs. -/
def mulAddLimbs (multiplier : UInt64) : List UInt64 → ℕ → Checked (List UInt64)
  | [], carry => pure (carryLimbs 2 carry)
  | limb :: limbs, carry => do
    let cur ← u128 (limb.toNat * multiplier.toNat)
    let cur ← u128 (cur + carry)
    let rest ← mulAddLimbs multiplier limbs (cur >>> 64)
    pure (UInt64.ofNat cur :: rest)

/-- The limbs times a multiplier, plus an addend. -/
def mulAddInPlace (limbs : List UInt64) (multiplier addend : UInt64) : Checked (List UInt64) :=
  mulAddLimbs multiplier limbs addend.toNat

/-- `while (chunk_cap <= max / ubase)`. The capacity at least doubles, so 64 rounds suffice. -/
def chunkLoop (ubase : UInt64) : ℕ → UInt64 → ℕ → UInt64 × ℕ
  | 0, chunkCap, chunkLen => (chunkCap, chunkLen)
  | rounds + 1, chunkCap, chunkLen =>
    if chunkCap ≤ 18446744073709551615 / ubase then
      chunkLoop ubase rounds (chunkCap * ubase) (chunkLen + 1)
    else (chunkCap, chunkLen)

/-- The number of digits that fit in one limb. -/
def chunkLength (ubase : UInt64) : ℕ := (chunkLoop ubase 64 1 0).2

/-- The digits of one chunk; `num` is the whole text, for the message. -/
def readChunk (num : Bytes) (base : ℕ) (ubase : UInt64) :
    Bytes → UInt64 → UInt64 → Except TextFault (UInt64 × UInt64)
  | [], chunkValue, chunkMult => .ok (chunkValue, chunkMult)
  | c :: rest, chunkValue, chunkMult =>
    match ECCrypto.digitValue c with
    | none => .error (.invalidArgument (ascii "BigInt: invalid digit in: " ++ num))
    | some d =>
      if d ≥ base then .error (.invalidArgument (ascii "BigInt: invalid digit in: " ++ num))
      else readChunk num base ubase rest (chunkValue * ubase + UInt64.ofNat d) (chunkMult * ubase)

/-- `while (pos < num.size())`, over the characters from `pos` on; a round reads at least one. -/
def readChunks (num : Bytes) (base : ℕ) (ubase : UInt64) (chunkLen : ℕ) :
    ℕ → ℕ → Bytes → List UInt64 → Except TextFault (List UInt64)
  | 0, _, _, limbs => .ok limbs
  | rounds + 1, take, digits, limbs =>
    if digits = [] then .ok limbs
    else do
      let (chunkValue, chunkMult) ← readChunk num base ubase (digits.take take) 0 1
      let limbs ← (mulAddInPlace limbs chunkMult chunkValue).mapError .arithmetic
      readChunks num base ubase chunkLen rounds chunkLen (digits.drop take) limbs

/-- The length of the first chunk, which takes what the others leave. -/
def firstTake (size chunkLen : ℕ) : ℕ :=
  let take := size % chunkLen
  if take = 0 then chunkLen else take

/-- The magnitude that was read, with its sign; zero has none. -/
def ofLimbs (neg : Bool) (limbs : List UInt64) : BigInt :=
  let result := normalize ⟨limbs, false⟩
  ⟨result.limbs, neg && !result.limbs.isEmpty⟩

/-- `BigInt(const std::string&, int)`. -/
def ofString (num : Bytes) (base : ℤ) : Except TextFault BigInt :=
  if base < 2 ∨ base > 36 then
    .error (.invalidArgument (ascii "BigInt: base must be between 2 and 36"))
  else
    let (neg, digits) := splitSign num
    if digits = [] then
      .error (.invalidArgument (ascii "BigInt: expected an integer, got: " ++ num))
    else
      let ubase := UInt64.ofInt base
      let chunkLen := chunkLength ubase
      (readChunks num base.toNat ubase chunkLen digits.length (firstTake digits.length chunkLen)
        digits []).map (ofLimbs neg)

/-! ### Writing -/

/-- The pieces of nineteen decimal digits, lowest first. A limb has twenty digits at most, so that
two rounds for each limb suffice. -/
def peelChunks : ℕ → List UInt64 → Checked (List UInt64)
  | 0, _ => pure []
  | rounds + 1, mag =>
    if mag = [] then pure []
    else do
      let (mag, rem) ← divModLimb 10000000000000000000 mag
      let rest ← peelChunks rounds (trim mag)
      pure (UInt64.ofNat rem :: rest)

/-- The text of the highest piece, then that of the others. -/
def joinChunks (first other : UInt64 → Bytes) (chunks : List UInt64) : Bytes :=
  match chunks.reverse with
  | [] => []
  | top :: rest => first top ++ rest.flatMap other

/-- `to_string`. -/
def toString (x : BigInt) : Checked Bytes :=
  if x.isZero then pure (ascii "0")
  else do
    let chunks ← peelChunks (2 * x.limbs.length) x.limbs
    let out := joinChunks (decimal ·.toNat) (zeroPadded 19 ·.toNat) chunks
    pure (if x.negative then 45 :: out else out)

/-- The bits of a limb below bit `n`, highest first. -/
def bitsBelow (n : ℕ) (limb : UInt64) : Bytes :=
  (List.range n).reverse.map fun bit =>
    if (limb >>> UInt64.ofNat bit) &&& 1 ≠ 0 then 49 else 48

/-- `to_binary_string`. -/
def toBinaryString (x : BigInt) : Bytes :=
  if x.isZero then ascii "0"
  else
    let out := joinChunks (fun top => bitsBelow (64 - countlZero top) top) (bitsBelow 64) x.limbs
    if x.negative then 45 :: out else out

/-! ### Numerals -/

/-- A character that stands for a digit of the base, in either letter case. -/
def IsDigit (base : ℕ) (c : UInt8) (d : ℕ) : Prop :=
  d < base ∧ (d < 10 ∧ c.toNat = 48 + d ∨ 10 ≤ d ∧ (c.toNat = 87 + d ∨ c.toNat = 55 + d))

/-- The strings of an optional sign and at least one digit, with the integer that is read off the
digits. -/
inductive IsNumeral (base : ℕ) : Bytes → ℤ → Prop
  | unsigned {digits ds} (hne : digits ≠ []) (h : List.Forall₂ (IsDigit base) digits ds) :
      IsNumeral base digits (Nat.ofDigits base ds.reverse : ℕ)
  | plus {digits ds} (hne : digits ≠ []) (h : List.Forall₂ (IsDigit base) digits ds) :
      IsNumeral base (43 :: digits) (Nat.ofDigits base ds.reverse : ℕ)
  | minus {digits ds} (hne : digits ≠ []) (h : List.Forall₂ (IsDigit base) digits ds) :
      IsNumeral base (45 :: digits) (-(Nat.ofDigits base ds.reverse : ℕ))

/-- The digits of a text do not begin with a zero, unless it is the only one. -/
def NoLeadingZeros (text : Bytes) : Prop :=
  ∀ digits, text = digits ∨ text = 45 :: digits → digits.head? = some 48 → digits = [48]

theorem isDigit_iff {base : ℕ} (hbase : base ≤ 36) {c : UInt8} {d : ℕ} :
    IsDigit base c d ↔ ECCrypto.digitValue c = some d ∧ d < base := by
  have h48 : (48 : UInt8).toNat = 48 := rfl
  have h57 : (57 : UInt8).toNat = 57 := rfl
  have h65 : (65 : UInt8).toNat = 65 := rfl
  have h90 : (90 : UInt8).toNat = 90 := rfl
  have h97 : (97 : UInt8).toNat = 97 := rfl
  have h122 : (122 : UInt8).toNat = 122 := rfl
  unfold IsDigit ECCrypto.digitValue
  simp only [UInt8.le_iff_toNat_le]
  split_ifs with hnumeral hlower hupper
  · rw [Option.some_inj]
    omega
  · rw [Option.some_inj]
    omega
  · rw [Option.some_inj]
    omega
  · simp only [false_and, iff_false]
    omega

/-! ### Chunks of digits -/

/-- The capacity of a chunk: its digits fit into a limb, and one more need not. -/
theorem chunkLength_spec {base : ℕ} (hlow : 2 ≤ base) (hhigh : base ≤ 36) :
    0 < chunkLength (UInt64.ofNat base) ∧ base ^ chunkLength (UInt64.ofNat base) < 2 ^ 64 ∧
      2 ^ 64 ≤ base ^ (chunkLength (UInt64.ofNat base) + 1) := by
  have hall : ∀ base < 37, 2 ≤ base →
      0 < chunkLength (UInt64.ofNat base) ∧ base ^ chunkLength (UInt64.ofNat base) < 2 ^ 64 ∧
        2 ^ 64 ≤ base ^ (chunkLength (UInt64.ofNat base) + 1) := by decide +kernel
  exact hall base (Nat.lt_succ_of_le hhigh) hlow

theorem magnitude_carryLimbs {carry : ℕ} (hcarry : carry < 2 ^ 128) :
    magnitude (carryLimbs 2 carry) = carry := by
  rw [carryLimbs]
  split_ifs with hlow
  · rw [magnitude_cons, carryLimbs, UInt64.toNat_ofNat']
    split_ifs with hhigh
    · rw [carryLimbs, magnitude_cons, magnitude_nil, UInt64.toNat_ofNat']
      omega
    · rw [magnitude_nil]
      omega
  · exact (not_ne_iff.mp hlow).symm

/-- A limb times the multiplier and a carry fit into 128 bits, and so does what is carried over. -/
theorem mulAddLimbs_spec (multiplier : UInt64) {limbs : List UInt64} {carry : ℕ}
    (hcarry : carry < 2 ^ 64) :
    ∃ result, mulAddLimbs multiplier limbs carry = .ok result ∧
      magnitude result = magnitude limbs * multiplier.toNat + carry := by
  induction limbs generalizing carry with
  | nil =>
    refine ⟨_, rfl, ?_⟩
    rw [magnitude_carryLimbs (by omega), magnitude_nil, Nat.zero_mul, Nat.zero_add]
  | cons limb limbs ih =>
    have hfits := mulStep_lt limb multiplier 0 hcarry
    rw [UInt64.toNat_zero, Nat.add_zero] at hfits
    obtain ⟨rest, hrest, hvalue⟩ :=
      @ih ((limb.toNat * multiplier.toNat + carry) >>> 64) (by omega)
    refine ⟨UInt64.ofNat (limb.toNat * multiplier.toNat + carry) :: rest, ?_, ?_⟩
    · rw [mulAddLimbs, u128_eq (by omega), Checked.ok_bind, u128_eq hfits, Checked.ok_bind, hrest]
      rfl
    · have hsplit : (limb.toNat * multiplier.toNat + carry) % 2 ^ 64 +
          2 ^ 64 * ((limb.toNat * multiplier.toNat + carry) >>> 64) =
            limb.toNat * multiplier.toNat + carry := by omega
      rw [magnitude_cons, magnitude_cons, hvalue, UInt64.toNat_ofNat']
      calc _ = (limb.toNat * multiplier.toNat + carry) % 2 ^ 64 +
            2 ^ 64 * ((limb.toNat * multiplier.toNat + carry) >>> 64) +
            2 ^ 64 * (magnitude limbs * multiplier.toNat) := by ring
        _ = _ := by rw [hsplit]; ring

theorem mulAddInPlace_spec (limbs : List UInt64) (multiplier addend : UInt64) :
    ∃ result, mulAddInPlace limbs multiplier addend = .ok result ∧
      magnitude result = magnitude limbs * multiplier.toNat + addend.toNat :=
  mulAddLimbs_spec multiplier addend.toNat_lt

/-- A chunk that fits into a limb is put behind the digits that were read before. -/
theorem mulAddInPlace_chunk {base : ℕ} {chunk : Bytes} {ds : List ℕ}
    (hds : List.Forall₂ (IsDigit base) chunk ds) (hfits : base ^ chunk.length < 2 ^ 64)
    (limbs : List UInt64) :
    ∃ result, mulAddInPlace limbs (UInt64.ofNat (base ^ chunk.length))
        (UInt64.ofNat (Numerals.value base ds)) = .ok result ∧
      magnitude result = magnitude limbs * base ^ chunk.length + Numerals.value base ds := by
  have hvalue := Numerals.value_lt fun d hd => by
    obtain ⟨i, hi, rfl⟩ := List.getElem_of_mem hd
    exact ((List.forall₂_iff_get.mp hds).2 i (hds.length_eq ▸ hi) hi).1
  rw [← hds.length_eq] at hvalue
  obtain ⟨result, hresult, hmagnitude⟩ := mulAddInPlace_spec limbs
    (UInt64.ofNat (base ^ chunk.length)) (UInt64.ofNat (Numerals.value base ds))
  rw [UInt64.toNat_ofNat_of_lt' hfits, UInt64.toNat_ofNat_of_lt' (hvalue.trans hfits)]
    at hmagnitude
  exact ⟨result, hresult, hmagnitude⟩

section Chunks

variable {base : ℕ} (hbase : base ≤ 36) (num : Bytes)
include hbase

/-- A chunk of digits is read, one with another character is refused. -/
theorem readChunk_spec (digits : Bytes) (v m : ℕ) :
    (∃ ds, List.Forall₂ (IsDigit base) digits ds ∧
      readChunk num base (UInt64.ofNat base) digits (UInt64.ofNat v) (UInt64.ofNat m) =
        .ok (UInt64.ofNat (v * base ^ digits.length + Numerals.value base ds),
          UInt64.ofNat (m * base ^ digits.length))) ∨
    (¬∃ ds, List.Forall₂ (IsDigit base) digits ds) ∧
      readChunk num base (UInt64.ofNat base) digits (UInt64.ofNat v) (UInt64.ofNat m) =
        .error (.invalidArgument (ascii "BigInt: invalid digit in: " ++ num)) := by
  induction digits generalizing v m with
  | nil => exact .inl ⟨[], .nil, by simp [readChunk]⟩
  | cons c rest ih =>
    have hnone (h : ∀ d, ¬IsDigit base c d) :
        ¬∃ ds, List.Forall₂ (IsDigit base) (c :: rest) ds := by
      rintro ⟨_ | ⟨d, ds⟩, hds⟩
      · cases hds
      · exact h d (List.forall₂_cons.mp hds).1
    rcases hvalue : ECCrypto.digitValue c with _ | d
    · refine .inr ⟨hnone fun d hd => ?_, ?_⟩
      · have h := ((isDigit_iff hbase).mp hd).1
        rw [hvalue] at h
        cases h
      · rw [readChunk, hvalue]
    by_cases hd : d < base
    · have hdigit : IsDigit base c d := (isDigit_iff hbase).mpr ⟨hvalue, hd⟩
      have hstep : readChunk num base (UInt64.ofNat base) (c :: rest) (UInt64.ofNat v)
          (UInt64.ofNat m) = readChunk num base (UInt64.ofNat base) rest
            (UInt64.ofNat (v * base + d)) (UInt64.ofNat (m * base)) := by
        rw [readChunk, hvalue, UInt64.ofNat_add, UInt64.ofNat_mul, UInt64.ofNat_mul]
        exact if_neg (not_le.mpr hd)
      rw [hstep]
      rcases ih (v * base + d) (m * base) with ⟨ds, hds, hok⟩ | ⟨hno, herror⟩
      · refine .inl ⟨d :: ds, .cons hdigit hds, ?_⟩
        rw [hok, List.length_cons, Numerals.value_cons, ← hds.length_eq]
        congr 3
        · ring
        · ring
      · refine .inr ⟨?_, herror⟩
        rintro ⟨_ | ⟨d', ds⟩, hds⟩
        · cases hds
        · exact hno ⟨ds, (List.forall₂_cons.mp hds).2⟩
    · refine .inr ⟨hnone fun d' hd' => ?_, ?_⟩
      · obtain ⟨hd'', hlt⟩ := (isDigit_iff hbase).mp hd'
        obtain rfl := Option.some.inj (hvalue.symm.trans hd'')
        exact hd hlt
      · rw [readChunk, hvalue]
        exact if_pos (not_lt.mp hd)

/-- The digits are read in chunks that fit into a limb, and the chunks are put together. -/
theorem readChunks_spec (hlow : 2 ≤ base) {chunkLen : ℕ} (hlen : 0 < chunkLen)
    (hcap : base ^ chunkLen < 2 ^ 64) {rounds take : ℕ} (htake : 0 < take)
    (hle : take ≤ chunkLen) {digits : Bytes} (hrounds : digits.length ≤ rounds)
    (limbs : List UInt64) :
    (∃ ds result, List.Forall₂ (IsDigit base) digits ds ∧
      readChunks num base (UInt64.ofNat base) chunkLen rounds take digits limbs = .ok result ∧
        magnitude result = magnitude limbs * base ^ digits.length + Numerals.value base ds) ∨
    (¬∃ ds, List.Forall₂ (IsDigit base) digits ds) ∧
      readChunks num base (UInt64.ofNat base) chunkLen rounds take digits limbs =
        .error (.invalidArgument (ascii "BigInt: invalid digit in: " ++ num)) := by
  have hempty {digits : Bytes} (h : digits = []) (limbs : List UInt64) :
      ∃ ds result, List.Forall₂ (IsDigit base) digits ds ∧
        (Except.ok limbs : Except TextFault (List UInt64)) = .ok result ∧
        magnitude result = magnitude limbs * base ^ digits.length + Numerals.value base ds := by
    subst h
    exact ⟨[], limbs, .nil, rfl, by simp⟩
  induction rounds generalizing take digits limbs with
  | zero => exact .inl (hempty (List.length_eq_zero_iff.mp (Nat.le_zero.mp hrounds)) limbs)
  | succ rounds ih =>
    rw [readChunks]
    split_ifs with hnil
    · exact .inl (hempty hnil limbs)
    have hsplit := List.take_append_drop take digits
    have hdrop : (digits.drop take).length ≤ rounds := by
      rw [List.length_drop]
      have := List.length_pos_of_ne_nil hnil
      omega
    rcases readChunk_spec hbase num (digits.take take) 0 1 with ⟨ds, hds, hok⟩ | ⟨hno, herror⟩
    · have hlength : (digits.take take).length ≤ chunkLen := (List.length_take_le _ _).trans hle
      have hfits : base ^ (digits.take take).length < 2 ^ 64 :=
        (Nat.pow_le_pow_right (by omega) hlength).trans_lt hcap
      rw [Nat.zero_mul, Nat.zero_add, Nat.one_mul] at hok
      obtain ⟨limbs', hlimbs', hmagnitude⟩ := mulAddInPlace_chunk hds hfits limbs
      have hround : readChunk num base (UInt64.ofNat base) (digits.take take) 0 1 = _ := hok
      simp only [hround, hlimbs', Except.mapError, bind, Except.bind]
      rcases ih hlen le_rfl hdrop limbs' with
        ⟨es, result, hes, hresult, hsum⟩ | ⟨hno, herror⟩
      · refine .inl ⟨ds ++ es, result, ?_, hresult, ?_⟩
        · rw [← hsplit]
          exact List.rel_append hds hes
        · rw [hsum, hmagnitude, Numerals.value_append, ← hes.length_eq]
          have hpow : base ^ digits.length =
              base ^ (digits.take take).length * base ^ (digits.drop take).length := by
            rw [← Nat.pow_add, ← List.length_append, hsplit]
          rw [hpow]
          ring
      · refine .inr ⟨?_, herror⟩
        rintro ⟨es, hes⟩
        exact hno ⟨es.drop take, List.forall₂_drop take hes⟩
    · refine .inr ⟨?_, ?_⟩
      · rintro ⟨ds, hds⟩
        exact hno ⟨ds.take take, List.forall₂_take take hds⟩
      · have hround : readChunk num base (UInt64.ofNat base) (digits.take take) 0 1 = _ := herror
        rw [hround]
        rfl

end Chunks

/-! ### The constructor -/

theorem firstTake_spec (size : ℕ) {chunkLen : ℕ} (hlen : 0 < chunkLen) :
    0 < firstTake size chunkLen ∧ firstTake size chunkLen ≤ chunkLen := by
  have hlt := Nat.mod_lt size hlen
  unfold firstTake
  dsimp only
  split_ifs with hzero
  · exact ⟨hlen, le_rfl⟩
  · exact ⟨Nat.pos_of_ne_zero hzero, hlt.le⟩

theorem canonical_ofLimbs (neg : Bool) (limbs : List UInt64) : (ofLimbs neg limbs).Canonical :=
  canonical_signed (canonical_normalize ⟨limbs, false⟩).trimmed neg

theorem toInt_ofLimbs (neg : Bool) (limbs : List UInt64) :
    (ofLimbs neg limbs).toInt = if neg then -(magnitude limbs : ℤ) else magnitude limbs := by
  have hmagnitude : magnitude (normalize ⟨limbs, false⟩).limbs = magnitude limbs :=
    magnitude_trim limbs
  rw [ofLimbs, toInt_signed, hmagnitude]

theorem not_isDigit_sign (base : ℕ) {c : UInt8} (hc : c = 43 ∨ c = 45) (d : ℕ) :
    ¬IsDigit base c d := by
  rintro ⟨-, h⟩
  have h43 : (43 : UInt8).toNat = 43 := rfl
  have h45 : (45 : UInt8).toNat = 45 := rfl
  obtain rfl | rfl := hc
  · omega
  · omega

/-- What follows an optional sign are the digits of the numeral. -/
theorem isNumeral_iff {base : ℕ} {num digits : Bytes} {neg : Bool}
    (hsplit : splitSign num = (neg, digits)) (z : ℤ) :
    IsNumeral base num z ↔ digits ≠ [] ∧ ∃ ds, List.Forall₂ (IsDigit base) digits ds ∧
      z = if neg then -((Nat.ofDigits base ds.reverse : ℕ) : ℤ)
        else (Nat.ofDigits base ds.reverse : ℕ) := by
  constructor
  · rintro (⟨hne, h⟩ | ⟨hne, h⟩ | ⟨hne, h⟩)
    · have hplain : splitSign num = (false, num) := by
        unfold splitSign
        split
        · obtain ⟨d, _, hd, -⟩ := List.forall₂_cons_left_iff.mp h
          exact absurd hd (not_isDigit_sign base (.inr rfl) d)
        · obtain ⟨d, _, hd, -⟩ := List.forall₂_cons_left_iff.mp h
          exact absurd hd (not_isDigit_sign base (.inl rfl) d)
        · rfl
      obtain ⟨rfl, rfl⟩ := Prod.mk.inj (hplain.symm.trans hsplit)
      exact ⟨hne, _, h, rfl⟩
    · obtain ⟨rfl, rfl⟩ := Prod.mk.inj hsplit
      exact ⟨hne, _, h, rfl⟩
    · obtain ⟨rfl, rfl⟩ := Prod.mk.inj hsplit
      exact ⟨hne, _, h, rfl⟩
  · rintro ⟨hne, ds, h, rfl⟩
    unfold splitSign at hsplit
    split at hsplit
    · obtain ⟨rfl, rfl⟩ := Prod.mk.inj hsplit
      exact .minus hne h
    · obtain ⟨rfl, rfl⟩ := Prod.mk.inj hsplit
      exact .plus hne h
    · obtain ⟨rfl, rfl⟩ := Prod.mk.inj hsplit
      exact .unsigned hne h

/-- The constructor reads numerals exactly, and throws for every other string. -/
theorem ofString_spec {base : ℕ} (hlow : 2 ≤ base) (hhigh : base ≤ 36) (num : Bytes) :
    (∃ x, ofString num base = .ok x ∧ x.Canonical ∧ IsNumeral base num x.toInt) ∨
    (¬∃ z, IsNumeral base num z) ∧ ∃ what, ofString num base = .error (.invalidArgument what) := by
  obtain ⟨hpos, hcap, -⟩ := chunkLength_spec hlow hhigh
  have hrange : ¬((base : ℤ) < 2 ∨ (base : ℤ) > 36) := by omega
  have hubase : UInt64.ofInt (base : ℤ) = UInt64.ofNat base := by
    have hvalue := toNat_ofInt base
    refine UInt64.toNat_inj.mp ?_
    rw [UInt64.toNat_ofNat']
    omega
  rcases hsplit : splitSign num with ⟨neg, digits⟩
  have heq : ofString num base = if digits = [] then
      .error (.invalidArgument (ascii "BigInt: expected an integer, got: " ++ num))
    else (readChunks num base (UInt64.ofNat base) (chunkLength (UInt64.ofNat base)) digits.length
      (firstTake digits.length (chunkLength (UInt64.ofNat base))) digits []).map (ofLimbs neg) := by
    rw [ofString, if_neg hrange, hsplit, hubase, Int.toNat_natCast]
  rw [heq]
  split_ifs with hnil
  · refine .inr ⟨?_, _, rfl⟩
    rintro ⟨z, hz⟩
    exact ((isNumeral_iff hsplit z).mp hz).1 hnil
  obtain ⟨htake, hle⟩ := firstTake_spec digits.length hpos
  rcases readChunks_spec hhigh num hlow hpos hcap htake hle le_rfl [] with
    ⟨ds, limbs, hds, hok, hvalue⟩ | ⟨hno, herror⟩
  · refine .inl ⟨ofLimbs neg limbs, by rw [hok]; rfl, canonical_ofLimbs neg limbs, ?_⟩
    rw [magnitude_nil, Nat.zero_mul, Nat.zero_add, Numerals.value_eq_ofDigits] at hvalue
    refine (isNumeral_iff hsplit _).mpr ⟨hnil, ds, hds, ?_⟩
    rw [toInt_ofLimbs, hvalue]
  · refine .inr ⟨?_, _, by rw [herror]; rfl⟩
    rintro ⟨z, hz⟩
    obtain ⟨-, ds, hds, -⟩ := (isNumeral_iff hsplit z).mp hz
    exact hno ⟨ds, hds⟩

/-- A string denotes one integer. -/
theorem IsNumeral.unique {base : ℕ} (hbase : base ≤ 36) {num : Bytes} {y z : ℤ}
    (hy : IsNumeral base num y) (hz : IsNumeral base num z) : y = z := by
  have hdigit : Relator.RightUnique (IsDigit base) := by
    intro c d e hd he
    have hvalue := ((isDigit_iff hbase).mp hd).1
    rw [((isDigit_iff hbase).mp he).1] at hvalue
    exact (Option.some.inj hvalue).symm
  rcases hsplit : splitSign num with ⟨neg, digits⟩
  obtain ⟨-, ds, hds, rfl⟩ := (isNumeral_iff hsplit y).mp hy
  obtain ⟨-, es, hes, rfl⟩ := (isNumeral_iff hsplit z).mp hz
  rw [hdigit.forall₂ hds hes]

/-! ### Pieces of a numeral -/

@[simp] theorem joinChunks_singleton (first other : UInt64 → Bytes) (top : UInt64) :
    joinChunks first other [top] = first top := List.append_nil _

/-- The lowest piece stands at the end. -/
theorem joinChunks_cons (first other : UInt64 → Bytes) (chunk : UInt64) {chunks : List UInt64}
    (hne : chunks ≠ []) : joinChunks first other (chunk :: chunks) =
      joinChunks first other chunks ++ other chunk := by
  obtain ⟨top, rest, hreverse⟩ :=
    List.exists_cons_of_ne_nil (mt List.reverse_eq_nil_iff.mp hne)
  simp only [joinChunks, List.reverse_cons, hreverse, List.cons_append, List.flatMap_append,
    List.flatMap_singleton, List.append_assoc]

/-- The pieces of a number put together are its numeral. -/
theorem peelChunks_spec {rounds : ℕ} {mag : List UInt64} (htrimmed : Trimmed mag) (hne : mag ≠ [])
    (hrounds : magnitude mag < (10 ^ 19) ^ rounds) :
    ∃ chunks, peelChunks rounds mag = .ok chunks ∧ chunks ≠ [] ∧
      joinChunks (decimal ·.toNat) (zeroPadded 19 ·.toNat) chunks = decimal (magnitude mag) := by
  have hpos := htrimmed.magnitude_pos hne
  induction rounds generalizing mag with
  | zero =>
    rw [Nat.pow_zero] at hrounds
    omega
  | succ rounds ih =>
    have hchunk : (10000000000000000000 : UInt64).toNat = 10 ^ 19 := rfl
    obtain ⟨quotient, hok, hquotient⟩ :=
      divModLimb_spec (d := 10000000000000000000) (by decide) mag
    rw [hchunk] at hok hquotient
    have hrem : magnitude mag % 10 ^ 19 < 10 ^ 19 := Nat.mod_lt _ (by decide)
    have hlimb : (UInt64.ofNat (magnitude mag % 10 ^ 19)).toNat = magnitude mag % 10 ^ 19 :=
      UInt64.toNat_ofNat_of_lt' (hrem.trans (by decide))
    have hstep : peelChunks (rounds + 1) mag = (do
        let rest ← peelChunks rounds (trim quotient)
        pure (UInt64.ofNat (magnitude mag % 10 ^ 19) :: rest)) := by
      rw [peelChunks, if_neg hne, hok]
      rfl
    have hvalue : magnitude (trim quotient) = magnitude mag / 10 ^ 19 := by
      rw [magnitude_trim, hquotient]
    rw [hstep]
    by_cases hlast : trim quotient = []
    · -- the highest piece
      have hsmall : magnitude mag % 10 ^ 19 = magnitude mag := by
        rw [hlast, magnitude_nil] at hvalue
        omega
      refine ⟨[UInt64.ofNat (magnitude mag % 10 ^ 19)], ?_, List.cons_ne_nil _ _, ?_⟩
      · rw [hlast]
        cases rounds <;> rfl
      · rw [joinChunks_singleton, hlimb, hsmall]
    · have hpos' := (trimmed_trim quotient).magnitude_pos hlast
      have hfits : magnitude (trim quotient) < (10 ^ 19) ^ rounds := by
        rw [hvalue, Nat.div_lt_iff_lt_mul (by decide), ← Nat.pow_succ]
        exact hrounds
      obtain ⟨chunks, hchunks, hchunks0, htext⟩ := ih (trimmed_trim quotient) hlast hfits hpos'
      refine ⟨UInt64.ofNat (magnitude mag % 10 ^ 19) :: chunks, by rw [hchunks]; rfl,
        List.cons_ne_nil _ _, ?_⟩
      rw [joinChunks_cons _ _ _ hchunks0, htext, hlimb,
        ← decimal_mul_add hpos' (by decide) hrem, hvalue, Nat.div_add_mod']

theorem decimalInt_neg {n : ℕ} (hn : 0 < n) : decimalInt (-(n : ℤ)) = 45 :: decimal n := by
  obtain ⟨m, rfl⟩ := Nat.exists_eq_add_one_of_ne_zero hn.ne'
  rfl

/-- `to_string` writes the decimal numeral. -/
theorem toString_eq {x : BigInt} (hx : x.Canonical) : x.toString = .ok (decimalInt x.toInt) := by
  by_cases hnil : x.limbs = []
  · have hvalue : x.toInt = 0 := by
      rw [toInt, hnil, hx.sign hnil]
      rfl
    rw [BigInt.toString, isZero, hnil, hvalue]
    rfl
  have hzero : ¬x.isZero = true := fun h => hnil (List.isEmpty_iff.mp h)
  have hrounds : magnitude x.limbs < (10 ^ 19) ^ (2 * x.limbs.length) := by
    rw [Nat.pow_mul]
    exact (magnitude_lt x.limbs).trans_le (Nat.pow_le_pow_left (by decide) _)
  obtain ⟨chunks, hok, -, htext⟩ := peelChunks_spec hx.trimmed hnil hrounds
  have hpos := hx.trimmed.magnitude_pos hnil
  rw [BigInt.toString, if_neg hzero, hok, Checked.ok_bind, htext, Checked.pure_eq, toInt]
  split_ifs with hneg
  · rw [decimalInt_neg hpos]
  · rfl

/-! ### Bits of limbs -/

theorem bit_ne_zero_iff {limb : UInt64} {bit : ℕ} (hbit : bit < 64) :
    (limb >>> UInt64.ofNat bit) &&& 1 ≠ 0 ↔ limb.toNat.testBit bit = true := by
  have hshift : (UInt64.ofNat bit).toNat = bit := by
    rw [UInt64.toNat_ofNat']
    omega
  rw [ne_eq, ← UInt64.toNat_inj, UInt64.toNat_and, UInt64.toNat_shiftRight, hshift,
    Nat.mod_eq_of_lt hbit, Nat.testBit]
  simp [Nat.and_comm]

/-- The bits of a limb are binary digits. -/
theorem bitsBelow_eq {n : ℕ} (hn : n ≤ 64) (limb : UInt64) :
    bitsBelow n limb = (Numerals.padded 2 n limb.toNat).map charByte := by
  have hbits (m : ℕ) : (List.range n).reverse.map (fun bit =>
      if m.testBit bit = true then (49 : UInt8) else 48) =
        (Numerals.padded 2 n m).map charByte := by
    clear hn
    induction n generalizing m with
    | zero => rfl
    | succ n ih =>
      have hlow : (if m.testBit 0 = true then (49 : UInt8) else 48) =
          charByte (m % 2).digitChar := by
        simp only [Nat.testBit_zero, decide_eq_true_eq]
        rcases Nat.mod_two_eq_zero_or_one m with h | h
        · rw [h]
          rfl
        · rw [h]
          rfl
      rw [Numerals.padded, List.map_append, ← ih, List.range_succ_eq_map, List.reverse_cons,
        List.map_append, List.map_singleton, hlow, ← List.map_reverse, List.map_map]
      simp only [Function.comp_def, Nat.testBit_succ]
      rfl
  rw [← hbits, bitsBelow]
  refine List.map_congr_left fun bit hbit => ?_
  have hlt : bit < 64 := (List.mem_range.mp (List.mem_reverse.mp hbit)).trans_le hn
  simp only [bit_ne_zero_iff hlt]

/-- The bits of the highest limb from its top bit on are its binary numeral. -/
theorem bitsBelow_top {top : UInt64} (htop : top ≠ 0) :
    bitsBelow (64 - countlZero top) top = (Nat.toDigits 2 top.toNat).map charByte := by
  have hpos : 0 < top.toNat := Nat.pos_of_ne_zero fun h => htop (UInt64.toNat_inj.mp h)
  have hsize : 0 < Nat.size top.toNat := Nat.size_pos.mpr hpos
  have hsize' : Nat.size top.toNat ≤ 64 := Nat.size_le.mpr top.toNat_lt
  have hwidth : 64 - countlZero top = Nat.size top.toNat := by
    rw [countlZero]
    omega
  have hlength : Nat.size top.toNat ≤ (Nat.toDigits 2 top.toNat).length := by
    rw [Nat.size_le]
    by_contra hle
    have hlarge := (Nat.length_toDigits_le_iff (b := 2) (k := (Nat.toDigits 2 top.toNat).length)
      (by decide) Nat.length_toDigits_pos).mp le_rfl
    exact hle hlarge
  rw [hwidth, bitsBelow_eq hsize', ← Numerals.replicate_append_toDigits (by decide) hsize
    (Nat.lt_size_self _), Nat.sub_eq_zero_of_le hlength, List.replicate_zero, List.nil_append]

/-- The bits of the limbs are the binary numeral of the magnitude. -/
theorem joinChunks_bits {limbs : List UInt64} (htrimmed : Trimmed limbs) (hne : limbs ≠ []) :
    joinChunks (fun top => bitsBelow (64 - countlZero top) top) (bitsBelow 64) limbs =
      (Nat.toDigits 2 (magnitude limbs)).map charByte := by
  induction limbs with
  | nil => exact absurd rfl hne
  | cons limb limbs ih =>
    by_cases hlast : limbs = []
    · subst hlast
      have htop : limb ≠ 0 := htrimmed hne
      rw [joinChunks_singleton, bitsBelow_top htop, magnitude_cons, magnitude_nil,
        Nat.mul_zero, Nat.add_zero]
    · have hupper : Trimmed limbs := fun h => by
        have hlast' := htrimmed hne
        rwa [List.getLast_cons h] at hlast'
      rw [joinChunks_cons _ _ _ hlast, ih hupper hlast, bitsBelow_eq le_rfl, ← List.map_append,
        ← Numerals.toDigits_mul_add (by decide) (hupper.magnitude_pos hlast) limb.toNat_lt,
        magnitude_cons, Nat.add_comm, Nat.mul_comm]

/-- `to_binary_string` writes the binary numeral. -/
theorem toBinaryString_eq {x : BigInt} (hx : x.Canonical) :
    x.toBinaryString = BlockchainCrypto.toBinaryString x.toInt := by
  by_cases hnil : x.limbs = []
  · have hvalue : x.toInt = 0 := by
      rw [toInt, hnil, hx.sign hnil]
      rfl
    have htext : BlockchainCrypto.toBinaryString 0 = ascii "0" := by decide
    rw [BigInt.toBinaryString, isZero, hnil, hvalue, htext]
    rfl
  have hzero : ¬x.isZero = true := fun h => hnil (List.isEmpty_iff.mp h)
  have hpos := hx.trimmed.magnitude_pos hnil
  rw [BigInt.toBinaryString, if_neg hzero, joinChunks_bits hx.trimmed hnil,
    BlockchainCrypto.toBinaryString, toInt]
  dsimp only
  split_ifs with hneg hsign
  · rw [Int.natAbs_neg]
    rfl
  · omega
  · omega
  · rfl

/-! ### Reading back -/

/-- Magnitudes without high zero limbs are determined by their value. -/
theorem limbs_eq_of_magnitude_eq {a b : List UInt64} (ha : Trimmed a) (hb : Trimmed b)
    (h : magnitude a = magnitude b) : a = b := by
  have hlength : a.length = b.length := by
    rcases lt_trichotomy a.length b.length with hlt | heq | hgt
    · exact absurd h (magnitude_lt_of_length_lt hb hlt).ne
    · exact heq
    · exact absurd h (magnitude_lt_of_length_lt ha hgt).ne'
  have hlimb (xs : List UInt64) : ∀ x ∈ xs.map UInt64.toNat, x < 2 ^ 64 := by
    intro x hx
    obtain ⟨limb, -, rfl⟩ := List.mem_map.mp hx
    exact limb.toNat_lt
  refine List.map_injective_iff.mpr (fun x y => UInt64.toNat_inj.mp)
    (Nat.ofDigits_inj_of_len_eq (b := 2 ^ 64) (by decide) ?_ (hlimb a) (hlimb b) h)
  rw [List.length_map, List.length_map, hlength]

/-- An integer has one canonical representation. -/
theorem Canonical.ext {a b : BigInt} (ha : a.Canonical) (hb : b.Canonical)
    (h : a.toInt = b.toInt) : a = b := by
  have hsign : a.negative = b.negative := by
    rw [Bool.eq_iff_iff, ← ha.toInt_neg_iff, ← hb.toInt_neg_iff, h]
  have hmagnitude : magnitude a.limbs = magnitude b.limbs := by
    unfold toInt at h
    rw [hsign] at h
    split_ifs at h <;> omega
  have hlimbs := limbs_eq_of_magnitude_eq ha.trimmed hb.trimmed hmagnitude
  cases a
  cases b
  simp_all

/-- The digits of an integer in a base up to ten. -/
def signedDigits (base : ℕ) (z : ℤ) : Bytes :=
  (if z < 0 then [45] else []) ++ (Nat.toDigits base z.natAbs).map charByte

theorem decimalInt_eq (z : ℤ) : decimalInt z = signedDigits 10 z := by
  cases z with
  | ofNat n => rfl
  | negSucc n =>
    rw [signedDigits, if_pos (Int.negSucc_lt_zero n)]
    rfl

section Digits

variable {base : ℕ} (hlow : 2 ≤ base) (hhigh : base ≤ 10)
include hlow hhigh

theorem forall₂_toDigits (n : ℕ) : ∃ ds,
    List.Forall₂ (IsDigit base) ((Nat.toDigits base n).map charByte) ds ∧
      Nat.ofDigits base ds.reverse = n := by
  have hdigit {d : ℕ} (hd : d < base) : IsDigit base (charByte d.digitChar) d := by
    have hten : d < 10 := hd.trans_le hhigh
    have hisDigit : d.digitChar.isDigit = true := by
      rw [Nat.isDigit_digitChar, decide_eq_true hten]
    refine ⟨hd, .inl ⟨hten, ?_⟩⟩
    rw [charByte_toNat_of_isDigit hisDigit, Nat.toNat_digitChar_of_lt_ten hten]
  induction n using Nat.strong_induction_on with
  | _ n ih =>
    by_cases hn : n < base
    · refine ⟨[n], ?_, ?_⟩
      · rw [Nat.toDigits_of_lt_base hn]
        exact .cons (hdigit hn) .nil
      · rw [List.reverse_singleton, Nat.ofDigits_singleton]
    · have hle : base ≤ n := not_lt.mp hn
      obtain ⟨ds, hds, hvalue⟩ := ih (n / base) (Nat.div_lt_self (by omega) hlow)
      refine ⟨ds ++ [n % base], ?_, ?_⟩
      · rw [Nat.toDigits_of_base_le hlow hle, List.map_append]
        exact List.rel_append hds (.cons (hdigit (Nat.mod_lt n (by omega))) .nil)
      · rw [List.reverse_append, List.reverse_singleton, List.singleton_append, Nat.ofDigits_cons,
          hvalue, Nat.mod_add_div]

/-- The digits of an integer denote it. -/
theorem isNumeral_signedDigits (z : ℤ) : IsNumeral base (signedDigits base z) z := by
  obtain ⟨ds, hds, hvalue⟩ := forall₂_toDigits hlow hhigh z.natAbs
  have hne : (Nat.toDigits base z.natAbs).map charByte ≠ [] := by
    rw [ne_eq, List.map_eq_nil_iff]
    exact Nat.toDigits_ne_nil
  unfold signedDigits
  split_ifs with hneg
  · have h : IsNumeral base _ _ := .minus hne hds
    rwa [hvalue, show -((z.natAbs : ℕ) : ℤ) = z by omega] at h
  · have h : IsNumeral base _ _ := .unsigned hne hds
    rwa [hvalue, show ((z.natAbs : ℕ) : ℤ) = z by omega] at h

theorem noLeadingZeros_signedDigits (z : ℤ) : NoLeadingZeros (signedDigits base z) := by
  obtain ⟨c, cs, hcs⟩ := List.exists_cons_of_ne_nil (@Nat.toDigits_ne_nil z.natAbs base)
  have hisDigit : c.isDigit = true :=
    Nat.isDigit_of_mem_toDigits (by omega) hhigh (hcs ▸ List.mem_cons_self)
  have hbyte := charByte_toNat_of_isDigit hisDigit
  have hdigits (h : ((Nat.toDigits base z.natAbs).map charByte).head? = some 48) :
      (Nat.toDigits base z.natAbs).map charByte = [48] := by
    by_cases hz : z.natAbs = 0
    · rw [hz, Nat.toDigits_zero]
      rfl
    · have hhead := Numerals.head_toDigits_ne_zero hlow (Nat.pos_of_ne_zero hz)
      rw [hcs] at h hhead
      have h48 : charByte c = 48 := Option.some.inj h
      rw [h48] at hbyte
      exact absurd (congrArg some (Char.toNat_inj.mp hbyte.symm : c = '0')) hhead
  intro digits htext hhead
  unfold signedDigits at htext
  split_ifs at htext with hneg
  · rcases htext with rfl | htext
    · cases hhead
    · obtain rfl := (List.cons.inj htext).2
      exact hdigits hhead
  · rcases htext with rfl | htext
    · exact hdigits hhead
    · rw [hcs] at htext
      have h45 : charByte c = 45 := (List.cons.inj htext).1
      have hminus := isDigit_charByte hisDigit
      rw [h45] at hminus
      cases hminus

end Digits

/-! ### Exactness -/

/-- In every base the constructor reads exactly the signed strings of digits, as the canonical
integer of their value, and throws for every other string; and both renderings are read back as
the integer they come from, and have no leading zeros. -/
theorem conversion_exact :
    (∀ base : ℕ, 2 ≤ base → base ≤ 36 → ∀ num,
      (∀ z, IsNumeral base num z →
        ∃ x, ofString num base = .ok x ∧ x.Canonical ∧ x.toInt = z) ∧
      ((¬∃ z, IsNumeral base num z) →
        ∃ what, ofString num base = .error (.invalidArgument what))) ∧
    ∀ x : BigInt, x.Canonical →
      (∃ text, x.toString = .ok text ∧ ofString text 10 = .ok x ∧ NoLeadingZeros text) ∧
      ofString x.toBinaryString 2 = .ok x ∧ NoLeadingZeros x.toBinaryString := by
  have hread {base : ℕ} (hlow : 2 ≤ base) (hhigh : base ≤ 36) {num : Bytes} {z : ℤ}
      (hz : IsNumeral base num z) : ∃ x, ofString num base = .ok x ∧ x.Canonical ∧ x.toInt = z := by
    rcases ofString_spec hlow hhigh num with ⟨x, hok, hx, hvalue⟩ | ⟨hno, -⟩
    · exact ⟨x, hok, hx, hvalue.unique hhigh hz⟩
    · exact absurd ⟨z, hz⟩ hno
  have hback {base : ℕ} (hlow : 2 ≤ base) (hhigh : base ≤ 10) {x : BigInt} (hx : x.Canonical) :
      ofString (signedDigits base x.toInt) base = .ok x := by
    obtain ⟨y, hok, hy, hvalue⟩ :=
      hread hlow (by omega) (isNumeral_signedDigits hlow hhigh x.toInt)
    rw [hok, hy.ext hx hvalue]
  refine ⟨fun base hlow hhigh num => ⟨fun z => hread hlow hhigh, fun hno => ?_⟩,
    fun x hx => ⟨?_, ?_⟩⟩
  · rcases ofString_spec hlow hhigh num with ⟨x, -, -, hvalue⟩ | ⟨-, herror⟩
    · exact absurd ⟨_, hvalue⟩ hno
    · exact herror
  · refine ⟨_, toString_eq hx, ?_, ?_⟩
    · rw [decimalInt_eq]
      exact hback (by decide) le_rfl hx
    · rw [decimalInt_eq]
      exact noLeadingZeros_signedDigits (by decide) le_rfl x.toInt
  · rw [toBinaryString_eq hx]
    exact ⟨hback le_rfl (by decide) hx, noLeadingZeros_signedDigits le_rfl (by decide) x.toInt⟩

end BigInt

end BlockchainCrypto
