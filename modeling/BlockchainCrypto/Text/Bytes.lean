import Mathlib.Data.Int.Basic
import Mathlib.Data.List.Basic

/-!
# Byte strings and decimal numerals

A C++ `std::string` is a finite sequence of bytes with no encoding attached, so strings are lists
of bytes here and a literal is read through its ASCII codes. The decimal rendering of an integer
is the one of `operator<<` and of `std::format("{}")`: no leading zeros, a minus sign in front of
a negative value.

## Main definitions

* `ByteText.ascii`: the bytes of a literal.
* `ByteText.isSpace`, `ByteText.isDigit`, `ByteText.isHexDigit`: the classification of the C
  locale.
* `ByteText.decimal`, `ByteText.decimalInt`: decimal renderings.
* `ByteText.digitsValue`: the value of a run of decimal digits.

## Main results

* `ByteText.digitsValue_decimal`: reading a rendering back gives the number.
* `ByteText.isDigit_of_mem_decimal`: a rendering consists of digits.
* `ByteText.decimalInt_inj`: different integers are rendered differently.
* `ByteText.append_cons_inj_left`, `ByteText.append_cons_inj_right`: a separator that one side does
  not contain.
-/

/-- A byte string. -/
abbrev Bytes := List UInt8

namespace ByteText

/-- The byte of an ASCII character. -/
def charByte (c : Char) : UInt8 := UInt8.ofNat c.toNat

/-- The bytes of an ASCII literal. -/
def ascii (s : String) : Bytes := s.toList.map charByte

/-- `isspace` in the C locale: space, and tab to carriage return. -/
def isSpace (b : UInt8) : Bool := b == 32 || (9 ≤ b && b ≤ 13)

/-- `isdigit`. -/
def isDigit (b : UInt8) : Bool := 48 ≤ b && b ≤ 57

/-- `isxdigit`. -/
def isHexDigit (b : UInt8) : Bool := isDigit b || (97 ≤ b && b ≤ 102) || (65 ≤ b && b ≤ 70)

/-- The newline written by `std::endl`. -/
abbrev newline : UInt8 := 10

/-- The decimal digits of a natural number. -/
def decimal (n : ℕ) : Bytes := (Nat.toDigits 10 n).map charByte

/-- The decimal rendering of an integer. -/
def decimalInt : ℤ → Bytes
  | .ofNat n => decimal n
  | .negSucc n => 45 :: decimal (n + 1)

/-- The value of a run of digits, read from the left. -/
def digitsValue (ds : Bytes) : ℕ := ds.foldl (fun v b => 10 * v + (b.toNat - 48)) 0

/-! ### Bytes and characters -/

theorem isSpace_newline : isSpace newline = true := rfl

theorem isSpace_eq_false_of_isDigit {b : UInt8} (hb : isDigit b = true) : isSpace b = false := by
  simp only [isDigit, Bool.and_eq_true, decide_eq_true_eq, UInt8.le_iff_toNat_le] at hb
  simp only [isSpace, Bool.or_eq_false_iff, beq_eq_false_iff_ne, Bool.and_eq_false_iff,
    decide_eq_false_iff_not, UInt8.le_iff_toNat_le, ne_eq, ← UInt8.toNat_inj]
  have h48 : (48 : UInt8).toNat = 48 := rfl
  have h32 : (32 : UInt8).toNat = 32 := rfl
  have h13 : (13 : UInt8).toNat = 13 := rfl
  omega

/-- What holds of the bytes of the numbers below 256 holds of every byte. -/
theorem forall_byte {p : UInt8 → Prop} (h : ∀ n < 256, p (UInt8.ofNat n)) (c : UInt8) : p c := by
  have hc := h c.toNat c.toNat_lt
  rwa [UInt8.ofNat_toNat] at hc

theorem isSpace_eq_false_of_isHexDigit {b : UInt8} (hb : isHexDigit b = true) :
    isSpace b = false := by
  have hall : ∀ b : UInt8, isHexDigit b = true → isSpace b = false :=
    forall_byte (by decide +kernel)
  exact hall b hb

theorem charByte_toNat_of_isDigit {c : Char} (hc : c.isDigit = true) :
    (charByte c).toNat = c.toNat := by
  simp only [Char.isDigit, Bool.and_eq_true, decide_eq_true_eq, UInt32.le_iff_toNat_le] at hc
  have hlt : c.toNat < 256 := lt_of_le_of_lt hc.2 (by decide)
  exact Nat.mod_eq_of_lt hlt

theorem isDigit_charByte {c : Char} (hc : c.isDigit = true) : isDigit (charByte c) = true := by
  have hb := charByte_toNat_of_isDigit hc
  simp only [Char.isDigit, Bool.and_eq_true, decide_eq_true_eq, UInt32.le_iff_toNat_le] at hc
  simp only [isDigit, Bool.and_eq_true, decide_eq_true_eq, UInt8.le_iff_toNat_le, hb]
  exact hc

/-! ### Decimal renderings -/

theorem decimal_ne_nil (n : ℕ) : decimal n ≠ [] := by
  simp [decimal, Nat.toDigits_ne_nil]

theorem isDigit_of_mem_decimal {n : ℕ} {b : UInt8} (hb : b ∈ decimal n) : isDigit b = true := by
  obtain ⟨c, hc, rfl⟩ := List.mem_map.mp hb
  exact isDigit_charByte (Nat.isDigit_of_mem_toDigits (by decide) (by decide) hc)

private theorem foldl_map_charByte (cs : List Char) (hcs : ∀ c ∈ cs, c.isDigit = true) (v : ℕ) :
    (cs.map charByte).foldl (fun v b => 10 * v + (b.toNat - 48)) v = Nat.ofDigitChars 10 cs v := by
  induction cs generalizing v with
  | nil => simp
  | cons c cs ih =>
    have hc := charByte_toNat_of_isDigit (hcs c List.mem_cons_self)
    rw [List.map_cons, List.foldl_cons, Nat.ofDigitChars_cons, hc]
    exact ih (fun d hd => hcs d (List.mem_cons_of_mem c hd)) _

/-- Reading the decimal digits of a number back gives the number. -/
theorem digitsValue_decimal (n : ℕ) : digitsValue (decimal n) = n := by
  have hdigits : ∀ c ∈ Nat.toDigits 10 n, c.isDigit = true := fun c hc =>
    Nat.isDigit_of_mem_toDigits (by decide) (by decide) hc
  rw [digitsValue, decimal, foldl_map_charByte _ hdigits, Nat.ofDigitChars_ten_toDigits]

theorem decimal_inj {m n : ℕ} (h : decimal m = decimal n) : m = n := by
  rw [← digitsValue_decimal m, h, digitsValue_decimal]

/-- Different integers are rendered differently. -/
theorem decimalInt_inj {y z : ℤ} (h : decimalInt y = decimalInt z) : y = z := by
  have hminus (n : ℕ) : (45 : UInt8) ∉ decimal n := fun hmem =>
    absurd (isDigit_of_mem_decimal hmem) (by decide)
  cases y with
  | ofNat m =>
    cases z with
    | ofNat n => exact congrArg Int.ofNat (decimal_inj h)
    | negSucc n =>
      have hsign : decimal m = 45 :: decimal (n + 1) := h
      exact absurd (hsign ▸ List.mem_cons_self) (hminus m)
  | negSucc m =>
    cases z with
    | ofNat n =>
      have hsign : 45 :: decimal (m + 1) = decimal n := h
      exact absurd (hsign ▸ List.mem_cons_self) (hminus n)
    | negSucc n => exact congrArg Int.negSucc (Nat.succ_injective (decimal_inj (List.cons.inj h).2))

/-- A decimal rendering consists of digits and minus signs. -/
theorem not_mem_decimalInt {c : UInt8} (hdigit : isDigit c = false) (hminus : c ≠ 45) (z : ℤ) :
    c ∉ decimalInt z := by
  intro hc
  cases z with
  | ofNat n => exact absurd (isDigit_of_mem_decimal hc) (by simp [hdigit])
  | negSucc n =>
    rcases List.mem_cons.mp hc with rfl | hc
    · exact hminus rfl
    · exact absurd (isDigit_of_mem_decimal hc) (by simp [hdigit])

/-- A decimal rendering has no white space. -/
theorem isSpace_of_mem_decimalInt {z : ℤ} {b : UInt8} (hb : b ∈ decimalInt z) :
    isSpace b = false := by
  cases z with
  | ofNat n => exact isSpace_eq_false_of_isDigit (isDigit_of_mem_decimal hb)
  | negSucc n =>
    rcases List.mem_cons.mp hb with rfl | hb
    · rfl
    · exact isSpace_eq_false_of_isDigit (isDigit_of_mem_decimal hb)

/-! ### Separators -/

/-- The separator that the parts in front of it do not contain. -/
theorem append_cons_inj_left {c : UInt8} {x x' z z' : Bytes} (hx : c ∉ x) (hx' : c ∉ x')
    (h : x ++ c :: z = x' ++ c :: z') : x = x' ∧ z = z' := by
  induction x generalizing x' with
  | nil =>
    cases x' with
    | nil => exact ⟨rfl, (List.cons.inj h).2⟩
    | cons a x' => exact absurd ((List.cons.inj h).1 ▸ List.mem_cons_self) hx'
  | cons a x ih =>
    cases x' with
    | nil => exact absurd ((List.cons.inj h).1.symm ▸ List.mem_cons_self) hx
    | cons b x' =>
      obtain ⟨rfl, hrest⟩ := List.cons.inj h
      obtain ⟨rfl, rfl⟩ := ih (fun hm => hx (List.mem_cons_of_mem _ hm))
        (fun hm => hx' (List.mem_cons_of_mem _ hm)) hrest
      exact ⟨rfl, rfl⟩

/-- The separator that the parts behind it do not contain. -/
theorem append_cons_inj_right {c : UInt8} {x x' z z' : Bytes} (hz : c ∉ z) (hz' : c ∉ z')
    (h : x ++ c :: z = x' ++ c :: z') : x = x' ∧ z = z' := by
  have hreverse : z.reverse ++ c :: x.reverse = z'.reverse ++ c :: x'.reverse := by
    simpa using congrArg List.reverse h
  obtain ⟨hz, hx⟩ := append_cons_inj_left (by simpa using hz) (by simpa using hz') hreverse
  exact ⟨List.reverse_inj.mp hx, List.reverse_inj.mp hz⟩

/-- Texts of one length are told apart by their concatenation. -/
theorem flatten_inj {n : ℕ} (hn : 0 < n) {xs ys : List Bytes} (hxs : ∀ x ∈ xs, x.length = n)
    (hys : ∀ y ∈ ys, y.length = n) (h : xs.flatten = ys.flatten) : xs = ys := by
  induction xs generalizing ys with
  | nil =>
    cases ys with
    | nil => rfl
    | cons y ys =>
      have hlength := congrArg List.length h
      rw [List.flatten_nil, List.flatten_cons, List.length_append, hys y List.mem_cons_self,
        List.length_nil] at hlength
      omega
  | cons x xs ih =>
    have hx := hxs x List.mem_cons_self
    cases ys with
    | nil =>
      have hlength := congrArg List.length h
      rw [List.flatten_nil, List.flatten_cons, List.length_append, hx, List.length_nil] at hlength
      omega
    | cons y ys =>
      rw [List.flatten_cons, List.flatten_cons] at h
      obtain ⟨rfl, hrest⟩ := List.append_inj h (hx.trans (hys y List.mem_cons_self).symm)
      rw [ih (fun z hz => hxs z (List.mem_cons_of_mem _ hz))
        (fun z hz => hys z (List.mem_cons_of_mem _ hz)) hrest]

example : decimalInt (-120) = ascii "-120" := by decide

end ByteText
