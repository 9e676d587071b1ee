import BlockchainCrypto.Crypto.ECCrypto
import Mathlib.Data.List.Induction
import Mathlib.Tactic.NormNum.Pow

/-!
# Integers as 32 bytes

`bigIntToBytes32` pads the hexadecimal digits of a number to 64 and packs them in pairs, and
`bytes32ToBigInt` reads the hexadecimal digits of the first 32 bytes. The two are inverse to each
other between the numbers below `2 ^ 256` and the strings of 32 bytes.

## Main definitions

* `ECCrypto.toLower`: the digits in lower case.

## Main results

* `ECCrypto.bytes32ToBigInt_eq_bytesValue`, `ECCrypto.bytes32ToBigInt_lt`: the value in base 256.
* `ECCrypto.bytes32ToBigInt_bigIntToBytes32`, `ECCrypto.bigIntToBytes32_bytes32ToBigInt`.
* `ECCrypto.hexByte_of_hexNibble`: a byte is rendered as the digits that it was read from.
-/

namespace BlockchainCrypto

open ByteText

namespace ECCrypto

/-! ### Bytes of a word -/

/-- A byte of a 32-bit word. -/
theorem toUInt8_shiftRight (w : UInt32) {n : ℕ} (hn : n < 32) :
    (w >>> UInt32.ofNat n).toUInt8 = UInt8.ofNat (w.toNat >>> n) := by
  apply UInt8.toNat_inj.mp
  have hmod : n % 2 ^ 32 % 32 = n := by omega
  rw [UInt32.toNat_toUInt8, UInt32.toNat_shiftRight, UInt32.toNat_ofNat', hmod,
    UInt8.toNat_ofNat']

/-! ### Reading -/

/-- One more hexadecimal digit. -/
def digitStep (v : ℤ) (c : UInt8) : ℤ := 16 * v + ((hexNibble c).getD 0).toNat

theorem ofHexDigits_eq_foldl (hex : Bytes) : ofHexDigits hex = hex.foldl digitStep 0 := rfl

/-- The value of a string of bytes, read from the left in base 256. -/
def bytesValue (data : Bytes) : ℕ := data.foldl (fun v b => 256 * v + b.toNat) 0

theorem hexNibble_hexByte (b : UInt8) :
    (hexByte b).map (fun c => ((hexNibble c).getD 0).toNat) = [b.toNat / 16, b.toNat % 16] := by
  revert b
  exact forall_byte (by decide +kernel)

theorem hexByte_inj {a b : UInt8} (h : hexByte a = hexByte b) : a = b := by
  have hdigits := (hexNibble_hexByte a).symm.trans ((congrArg _ h).trans (hexNibble_hexByte b))
  simp only [List.cons.injEq, and_true] at hdigits
  exact UInt8.toNat_inj.mp (by omega)

/-- The hexadecimal rendering tells byte strings apart. -/
theorem flatMap_hexByte_inj {data data' : Bytes}
    (h : data.flatMap hexByte = data'.flatMap hexByte) : data = data' := by
  induction data generalizing data' with
  | nil =>
    cases data' with
    | nil => rfl
    | cons b data' => exact absurd h (by simp [hexByte])
  | cons a data ih =>
    cases data' with
    | nil => exact absurd h (by simp [hexByte])
    | cons b data' =>
      rw [List.flatMap_cons, List.flatMap_cons] at h
      obtain ⟨hbyte, hrest⟩ := List.append_inj h rfl
      rw [hexByte_inj hbyte, ih hrest]

/-- The digits of a byte are decoded to the byte. -/
theorem hexToBytesLoop_hexByte {n : ℕ} (i : ℕ) (b : UInt8) (rest : Bytes)
    (output : Vector UInt8 n) : hexToBytesLoop i (hexByte b ++ rest) output =
      hexToBytesLoop (i + 1) rest (output.setIfInBounds i b) := by
  have hall : ∀ b : UInt8,
      hexNibble (hexByte.hexDigit (b / 16)) = some (b / 16) ∧
      hexNibble (hexByte.hexDigit (b % 16)) = some (b % 16) ∧
      (b / 16) <<< 4 ||| b % 16 = b := forall_byte (by decide +kernel)
  obtain ⟨hhigh, hlow, hpack⟩ := hall b
  rw [hexByte, List.cons_append, List.cons_append, List.nil_append, hexToBytesLoop, hhigh, hlow]
  dsimp only
  rw [hpack]

/-- What the loop leaves in front of its position and behind the digits. -/
theorem hexToBytesLoop_bytesToHex {n i : ℕ} (data : Bytes) (output : Vector UInt8 n)
    (h : i + data.length ≤ n) : ∃ v, hexToBytesLoop i (bytesToHex data) output = (true, v) ∧
      v.toList = output.toList.take i ++ data ++ output.toList.drop (i + data.length) := by
  induction data generalizing i output with
  | nil => exact ⟨output, by simp [bytesToHex, hexToBytesLoop], by simp⟩
  | cons b data ih =>
    rw [List.length_cons] at h
    obtain ⟨v, hv, hlist⟩ := @ih (i + 1) (output.setIfInBounds i b) (by omega)
    refine ⟨v, ?_, ?_⟩
    · rw [bytesToHex, List.flatMap_cons, hexToBytesLoop_hexByte]
      exact hv
    · have hset : (output.setIfInBounds i b).toList = output.toList.set i b := by simp
      have hi : i < output.toList.length := by
        rw [Vector.length_toList]
        omega
      rw [hlist, hset, List.take_succ_eq_append_getElem (by simpa using hi),
        List.take_set_of_le le_rfl, List.getElem_set_self, List.drop_set_of_lt (by omega),
        List.length_cons]
      simp [Nat.add_comm, Nat.add_left_comm]

/-- A rendered buffer is decoded in full. -/
theorem hexToBytes_bytesToHex {n : ℕ} (v output : Vector UInt8 n) :
    hexToBytes (bytesToHex v.toList) output = (n, v) := by
  have hlength : (bytesToHex v.toList).length = 2 * n := by
    rw [bytesToHex, length_flatMap_hexByte, Vector.length_toList]
  obtain ⟨w, hw, hlist⟩ := @hexToBytesLoop_bytesToHex n 0 v.toList output (by simp)
  have hwv : w = v := by
    apply Vector.toList_inj.mp
    rw [hlist]
    simp
  rw [hexToBytes, if_neg (by omega), if_neg (by omega), hw, hwv, hlength]
  simp

/-- The digits of a byte make up the byte. -/
theorem foldl_hexByte (v : ℤ) (b : UInt8) :
    (hexByte b).foldl digitStep v = 256 * v + b.toNat := by
  have h := hexNibble_hexByte b
  simp only [hexByte, List.map_cons, List.map_nil, List.cons.injEq, and_true] at h
  simp only [hexByte, List.foldl_cons, List.foldl_nil, digitStep, h.1, h.2]
  omega

theorem ofHexDigits_bytesToHex (data : Bytes) :
    ofHexDigits (bytesToHex data) = bytesValue data := by
  have hgen (v : ℕ) : (bytesToHex data).foldl digitStep (v : ℤ) =
      (data.foldl (fun v b => 256 * v + b.toNat) v : ℕ) := by
    induction data generalizing v with
    | nil => rfl
    | cons b data ih =>
      rw [bytesToHex, List.flatMap_cons, List.foldl_append, foldl_hexByte, List.foldl_cons, ← ih]
      push_cast
      rfl
  exact hgen 0

theorem bytes32ToBigInt_eq_bytesValue (data : Bytes) :
    bytes32ToBigInt data = bytesValue (data.take 32) := ofHexDigits_bytesToHex _

theorem bytesValue_append (data : Bytes) (b : UInt8) :
    bytesValue (data ++ [b]) = 256 * bytesValue data + b.toNat := by
  simp [bytesValue, List.foldl_append]

theorem bytesValue_lt (data : Bytes) : bytesValue data < 256 ^ data.length := by
  induction data using List.reverseRecOn with
  | nil => decide
  | append_singleton data b ih =>
    have hb := b.toNat_lt
    rw [bytesValue_append, List.length_append, List.length_singleton, pow_succ]
    omega

/-- A string is determined by its length and its value. -/
theorem bytesValue_inj {l l' : Bytes} (hlen : l.length = l'.length)
    (h : bytesValue l = bytesValue l') : l = l' := by
  induction l using List.reverseRecOn generalizing l' with
  | nil => exact (List.length_eq_zero_iff.mp hlen.symm).symm
  | append_singleton l b ih =>
    obtain rfl | ⟨r, c, rfl⟩ := List.eq_nil_or_concat' l'
    · simp at hlen
    · have hb := b.toNat_lt
      have hc := c.toNat_lt
      rw [bytesValue_append, bytesValue_append] at h
      simp only [List.length_append, List.length_singleton, Nat.add_right_cancel_iff] at hlen
      rw [ih hlen (by omega), UInt8.toNat_inj.mp (show b.toNat = c.toNat by omega)]

theorem bytes32ToBigInt_nonneg (data : Bytes) : 0 ≤ bytes32ToBigInt data := by
  rw [bytes32ToBigInt_eq_bytesValue]
  exact Int.natCast_nonneg _

theorem bytes32ToBigInt_lt (data : Bytes) : bytes32ToBigInt data < 2 ^ 256 := by
  have hlt := bytesValue_lt (data.take 32)
  have hle : 256 ^ (data.take 32).length ≤ 256 ^ 32 :=
    Nat.pow_le_pow_right (by decide) (List.length_take_le 32 data)
  have hpow : ((256 ^ 32 : ℕ) : ℤ) = 2 ^ 256 := by norm_num
  rw [bytes32ToBigInt_eq_bytesValue, ← hpow]
  exact_mod_cast hlt.trans_le hle

/-! ### Writing -/

/-- The digit of a value below 16, as `bigIntToBytes32` writes it. -/
def hexChar (d : ℕ) : UInt8 := charByte (Nat.digitChar d)

theorem hexNibble_hexChar {d : ℕ} (hd : d < 16) : ((hexNibble (hexChar d)).getD 0).toNat = d := by
  have hall : ∀ d < 16, ((hexNibble (hexChar d)).getD 0).toNat = d := by decide
  exact hall d hd

/-- Two digits packed into a byte are the digits of the byte. -/
theorem hexByte_pack {d e : ℕ} (hd : d < 16) (he : e < 16) :
    hexByte ((hexNibble (hexChar d)).getD 0 <<< 4 ||| (hexNibble (hexChar e)).getD 0) =
      [hexChar d, hexChar e] := by
  have hall : ∀ d < 16, ∀ e < 16,
      hexByte ((hexNibble (hexChar d)).getD 0 <<< 4 ||| (hexNibble (hexChar e)).getD 0) =
        [hexChar d, hexChar e] := by decide +kernel
  exact hall d hd e he

/-- The bytes that are packed from pairs of digits have these digits. -/
theorem bytesToHex_pack (n : ℕ) (ds : List ℕ) (hlen : ds.length = 2 * n) (hds : ∀ d ∈ ds, d < 16) :
    bytesToHex ((List.range n).map fun i =>
      (hexNibble ((ds.map hexChar).getD (i * 2) 0)).getD 0 <<< 4 |||
        (hexNibble ((ds.map hexChar).getD (i * 2 + 1) 0)).getD 0) = ds.map hexChar := by
  induction n generalizing ds with
  | zero =>
    obtain rfl : ds = [] := List.length_eq_zero_iff.mp hlen
    rfl
  | succ n ih =>
    match ds, hlen with
    | d :: e :: ds, hlen =>
      simp only [List.forall_mem_cons] at hds
      have hrest := ih ds (by simp only [List.length_cons] at hlen; omega) hds.2.2
      have hpair := hexByte_pack hds.1 hds.2.1
      rw [bytesToHex] at hrest ⊢
      rw [List.range_succ_eq_map, List.map_cons, List.flatMap_cons, List.map_map]
      simp only [List.map_cons, Nat.zero_mul, List.getD_cons_zero, Nat.zero_add,
        List.getD_cons_succ]
      rw [hpair]
      simpa [Function.comp_def, Nat.succ_mul] using hrest

theorem ofHexDigits_append (ds : List ℕ) {d : ℕ} (hd : d < 16) :
    ofHexDigits ((ds ++ [d]).map hexChar) = 16 * ofHexDigits (ds.map hexChar) + d := by
  simp only [ofHexDigits_eq_foldl, List.map_append, List.map_cons, List.map_nil,
    List.foldl_append, List.foldl_cons, List.foldl_nil, digitStep, hexNibble_hexChar hd]

theorem ofHexDigits_replicate (k : ℕ) (ds : List ℕ) :
    ofHexDigits ((List.replicate k 0 ++ ds).map hexChar) = ofHexDigits (ds.map hexChar) := by
  have hzero : (List.replicate k (hexChar 0)).foldl digitStep 0 = 0 := by
    induction k with
    | zero => rfl
    | succ k ih => exact ih
  rw [ofHexDigits_eq_foldl, List.map_append, List.map_replicate, List.foldl_append, hzero]
  rfl

/-- The digits that `bigIntToBytes32` collects, as values. -/
theorem hexDigits_eq (m : ℕ) : ∃ ds : List ℕ, hexDigits m = ds.map hexChar ∧ (∀ d ∈ ds, d < 16) ∧
    ofHexDigits (ds.map hexChar) = m := by
  induction m using Nat.strong_induction_on with
  | _ m ih =>
    have hdigits (k : ℕ) : hexDigits k = (Nat.toDigits 16 k).map charByte := by
      rw [hexDigits, if_pos (Int.natCast_nonneg k), Int.toNat_natCast]
    by_cases hm : m < 16
    · refine ⟨[m], ?_, by simpa using hm, ?_⟩
      · rw [hdigits, Nat.toDigits_of_lt_base hm]
        rfl
      · have h := ofHexDigits_append [] hm
        simpa [ofHexDigits] using h
    · obtain ⟨ds, hds, hlt, hvalue⟩ := ih (m / 16) (by omega)
      have hmod : m % 16 < 16 := Nat.mod_lt m (by decide)
      refine ⟨ds ++ [m % 16], ?_, ?_, ?_⟩
      · rw [hdigits] at hds ⊢
        rw [Nat.toDigits_of_base_le (by decide) (by omega), List.map_append, hds, List.map_append]
        rfl
      · simp only [List.mem_append, List.mem_singleton]
        rintro d (hd | rfl)
        · exact hlt d hd
        · exact hmod
      · rw [ofHexDigits_append ds hmod, hvalue]
        omega

theorem length_bigIntToBytes32 (z : ℤ) : (bigIntToBytes32 z).length = 32 := by
  simp [bigIntToBytes32]

theorem length_hexDigits {m : ℕ} (hm : m < 2 ^ 256) : (hexDigits m).length ≤ 64 := by
  rw [hexDigits, if_pos (Int.natCast_nonneg m), Int.toNat_natCast, List.length_map,
    Nat.length_toDigits_le_iff (by decide) (by decide)]
  calc m < 2 ^ 256 := hm
    _ = 16 ^ 64 := by norm_num

/-- The rendering of the 32 bytes is the padded rendering of the number; a negative number leaves
zeros only. -/
theorem bytesToHex_bigIntToBytes32 {z : ℤ} (h : z < 2 ^ 256) :
    bytesToHex (bigIntToBytes32 z) =
      List.replicate (64 - (hexDigits z).length) 48 ++ hexDigits z := by
  obtain ⟨ds, hds, hlt, hlen⟩ :
      ∃ ds : List ℕ, hexDigits z = ds.map hexChar ∧ (∀ d ∈ ds, d < 16) ∧ ds.length ≤ 64 := by
    rcases lt_or_ge z 0 with hneg | h0
    · exact ⟨[], by rw [hexDigits, if_neg (not_le.mpr hneg)]; rfl, by simp, by simp⟩
    · lift z to ℕ using h0
      obtain ⟨ds, hds, hlt, -⟩ := hexDigits_eq z
      have hlen := length_hexDigits (show z < 2 ^ 256 by exact_mod_cast h)
      rw [hds, List.length_map] at hlen
      exact ⟨ds, hds, hlt, hlen⟩
  -- the padded digits, as values
  have hpad : List.replicate (64 - (ds.map hexChar).length) 48 ++ ds.map hexChar =
      (List.replicate (64 - ds.length) 0 ++ ds).map hexChar := by
    rw [List.length_map, List.map_append, List.map_replicate]
    rfl
  have hpack := bytesToHex_pack 32 (List.replicate (64 - ds.length) 0 ++ ds)
    (by rw [List.length_append, List.length_replicate]; omega) (by
      simp only [List.mem_append, List.mem_replicate]
      rintro d (⟨-, rfl⟩ | hd)
      · decide
      · exact hlt d hd)
  rw [← hpad, ← hds] at hpack
  exact hpack

/-- Reading what was written. -/
theorem bytes32ToBigInt_bigIntToBytes32 {z : ℤ} (h0 : 0 ≤ z) (h : z < 2 ^ 256) :
    bytes32ToBigInt (bigIntToBytes32 z) = z := by
  have htake : (bigIntToBytes32 z).take 32 = bigIntToBytes32 z :=
    List.take_of_length_le (length_bigIntToBytes32 z).le
  rw [bytes32ToBigInt, htake, bytesToHex_bigIntToBytes32 h]
  lift z to ℕ using h0
  obtain ⟨ds, hds, -, hvalue⟩ := hexDigits_eq z
  have hzero : (48 : UInt8) = hexChar 0 := rfl
  rw [hds, hzero, ← List.map_replicate, ← List.map_append, ofHexDigits_replicate, hvalue]

/-- Writing what was read. -/
theorem bigIntToBytes32_bytes32ToBigInt {data : Bytes} (h : data.length = 32) :
    bigIntToBytes32 (bytes32ToBigInt data) = data := by
  have hround := bytes32ToBigInt_bigIntToBytes32 (bytes32ToBigInt_nonneg data)
    (bytes32ToBigInt_lt data)
  have hlen := length_bigIntToBytes32 (bytes32ToBigInt data)
  refine bytesValue_inj (hlen.trans h.symm) ?_
  rw [bytes32ToBigInt_eq_bytesValue (bigIntToBytes32 _), bytes32ToBigInt_eq_bytesValue data,
    List.take_of_length_le h.le] at hround
  rw [bytes32ToBigInt_eq_bytesValue data, List.take_of_length_le h.le] at hlen ⊢
  rw [List.take_of_length_le hlen.le] at hround
  exact_mod_cast hround

/-- Only the first 32 bytes are read. -/
theorem bytes32ToBigInt_append {data : Bytes} (h : data.length = 32) (rest : Bytes) :
    bytes32ToBigInt (data ++ rest) = bytes32ToBigInt data := by
  rw [bytes32ToBigInt, bytes32ToBigInt, ← h, List.take_left, List.take_length]

/-! ### Letter case -/

/-- `std::tolower` in the C locale. -/
def toLower (c : UInt8) : UInt8 := if 65 ≤ c ∧ c ≤ 90 then c + 32 else c

/-- Lowering the case leaves the digit 0 to itself. -/
theorem toLower_eq_zero_iff (c : UInt8) : toLower c = 48 ↔ c = 48 := by
  revert c
  exact forall_byte (by decide +kernel)

theorem isHexDigit_toLower (c : UInt8) : isHexDigit (toLower c) = isHexDigit c := by
  revert c
  exact forall_byte (by decide +kernel)

theorem isHexDigit_iff (c : UInt8) : isHexDigit c = true ↔ ∃ v, hexNibble c = some v := by
  have hall : ∀ c : UInt8, isHexDigit c = (hexNibble c).isSome := forall_byte (by decide +kernel)
  rw [hall c, Option.isSome_iff_exists]

/-- A byte is rendered as the lowercase digits that it was read from. -/
theorem hexByte_of_hexNibble {c d v w : UInt8} (hc : hexNibble c = some v)
    (hd : hexNibble d = some w) : hexByte (v <<< 4 ||| w) = [toLower c, toLower d] := by
  have hdigit {c v : UInt8} (hv : hexNibble c = some v) :
      v.toNat < 16 ∧ hexByte.hexDigit v = toLower c := by
    have hall : ∀ c : UInt8, (hexNibble c).all (fun v =>
        decide (v.toNat < 16) && (hexByte.hexDigit v == toLower c)) = true :=
      forall_byte (by decide +kernel)
    have h := hall c
    rw [hv, Option.all_some, Bool.and_eq_true, decide_eq_true_eq, beq_iff_eq] at h
    exact h
  have hpack : ∀ v < 16, ∀ w < 16,
      (UInt8.ofNat v <<< 4 ||| UInt8.ofNat w) / 16 = UInt8.ofNat v ∧
        (UInt8.ofNat v <<< 4 ||| UInt8.ofNat w) % 16 = UInt8.ofNat w := by decide +kernel
  obtain ⟨hv, hcv⟩ := hdigit hc
  obtain ⟨hw, hdw⟩ := hdigit hd
  obtain ⟨hhigh, hlow⟩ := hpack v.toNat hv w.toNat hw
  rw [UInt8.ofNat_toNat, UInt8.ofNat_toNat] at hhigh hlow
  rw [hexByte, hhigh, hlow, hcv, hdw]

end ECCrypto

end BlockchainCrypto
