import BlockchainCrypto.Text.Bytes
import BlockchainCrypto.Theory.Numerals

/-!
# Decimal numerals of a fixed width

Numbers padded with zeros on the left, as `std::format("{:08}")` writes them, and the value of runs
of digits that are read in pieces.

## Main definitions

* `ByteText.zeroPadded`.

## Main results

* `ByteText.decimal_mul_add`: a numeral cut into its upper digits and a padded remainder.
* `ByteText.exists_of_append_eq_decimal`: a numeral without its last digits.
* `ByteText.digitsValue_append`, `ByteText.digitsValue_lt`, `ByteText.digitsValue_zeroPadded`.
-/

namespace ByteText

/-- The decimal digits of a number, with zeros in front up to the width. -/
def zeroPadded (width n : ℕ) : Bytes :=
  List.replicate (width - (decimal n).length) 48 ++ decimal n

theorem length_decimal (n : ℕ) : (decimal n).length = (Nat.toDigits 10 n).length :=
  List.length_map _

theorem zeroPadded_eq {width n : ℕ} (hwidth : 0 < width) (hn : n < 10 ^ width) :
    zeroPadded width n = (Numerals.padded 10 width n).map charByte := by
  rw [← Numerals.replicate_append_toDigits (by decide) hwidth hn, List.map_append,
    List.map_replicate, zeroPadded, length_decimal]
  rfl

theorem length_zeroPadded {width n : ℕ} (hwidth : 0 < width) (hn : n < 10 ^ width) :
    (zeroPadded width n).length = width := by
  have hle := Numerals.length_toDigits_le (by decide) hwidth hn
  rw [zeroPadded, List.length_append, List.length_replicate, length_decimal,
    Nat.sub_add_cancel hle]

theorem isDigit_of_mem_zeroPadded {width n : ℕ} {c : UInt8} (hc : c ∈ zeroPadded width n) :
    isDigit c = true := by
  rcases List.mem_append.mp hc with hzero | hdigit
  · obtain rfl := List.eq_of_mem_replicate hzero
    rfl
  · exact isDigit_of_mem_decimal hdigit

/-- A numeral cut into its upper digits and a padded remainder. -/
theorem decimal_mul_add {q : ℕ} (hq : 0 < q) {width r : ℕ} (hwidth : 0 < width)
    (hr : r < 10 ^ width) : decimal (q * 10 ^ width + r) = decimal q ++ zeroPadded width r := by
  rw [decimal, Numerals.toDigits_mul_add (by decide) hq hr, List.map_append,
    ← zeroPadded_eq hwidth hr]
  rfl

/-- What is left of a numeral that lost some digits at its end is the numeral of a smaller, positive
number. -/
theorem exists_of_append_eq_decimal {ds es : Bytes} {n : ℕ} (h : ds ++ es = decimal n)
    (hds : ds ≠ []) (hes : es ≠ []) : ∃ m, ds = decimal m ∧ 0 < m ∧ m < n := by
  have hlength : 0 < es.length := List.length_pos_iff.mpr hes
  have hlow : n % 10 ^ es.length < 10 ^ es.length := Nat.mod_lt n (by positivity)
  rcases Nat.eq_zero_or_pos (n / 10 ^ es.length) with hzero | hq
  · -- the digits that are lost would have been enough for the whole number
    have hn : n < 10 ^ es.length := (Nat.div_eq_zero_iff_lt (by positivity)).mp hzero
    have hle := Numerals.length_toDigits_le (by decide) hlength hn
    have hsum := congrArg List.length h
    rw [List.length_append, length_decimal] at hsum
    have hpos : 0 < ds.length := List.length_pos_iff.mpr hds
    omega
  · refine ⟨n / 10 ^ es.length, ?_, hq, ?_⟩
    · have hcut := decimal_mul_add hq hlength hlow
      rw [Nat.div_add_mod'] at hcut
      exact (List.append_inj' (h.trans hcut) (length_zeroPadded hlength hlow).symm).1
    · refine Nat.div_lt_self ?_ (Nat.one_lt_pow hlength.ne' (by decide))
      exact Nat.pos_of_ne_zero fun hn => hq.ne' (by rw [hn, Nat.zero_div])

/-! ### Runs of digits -/

/-- The digits of a run. -/
theorem digitsValue_eq (ds : Bytes) :
    digitsValue ds = Numerals.value 10 (ds.map fun c => c.toNat - 48) := by
  rw [digitsValue, Numerals.value, List.foldl_map]
  simp only [Nat.mul_comm]

theorem digitsValue_append (ds es : Bytes) :
    digitsValue (ds ++ es) = digitsValue ds * 10 ^ es.length + digitsValue es := by
  rw [digitsValue_eq, digitsValue_eq, digitsValue_eq, List.map_append, Numerals.value_append,
    List.length_map]

theorem digitsValue_lt {ds : Bytes} (hds : ∀ c ∈ ds, isDigit c = true) :
    digitsValue ds < 10 ^ ds.length := by
  have hdigit : ∀ d ∈ ds.map fun c => c.toNat - 48, d < 10 := by
    intro d hd
    obtain ⟨c, hc, rfl⟩ := List.mem_map.mp hd
    have h := hds c hc
    simp only [isDigit, Bool.and_eq_true, decide_eq_true_eq, UInt8.le_iff_toNat_le] at h
    have h57 : (57 : UInt8).toNat = 57 := rfl
    omega
  have hlt := Numerals.value_lt hdigit
  rwa [← digitsValue_eq, List.length_map] at hlt

@[simp] theorem digitsValue_zeroPadded (width n : ℕ) : digitsValue (zeroPadded width n) = n := by
  have hzero : digitsValue (List.replicate (width - (decimal n).length) 48) = 0 := by
    rw [digitsValue_eq, List.map_replicate]
    exact Numerals.value_replicate_zero _
  rw [zeroPadded, digitsValue_append, hzero, Nat.zero_mul, Nat.zero_add, digitsValue_decimal]

end ByteText
