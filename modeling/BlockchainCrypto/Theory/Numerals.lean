import Mathlib.Algebra.Order.Group.Nat
import Mathlib.Data.List.Induction
import Mathlib.Data.Nat.Digits.Defs
import Mathlib.Tactic.Ring

/-!
# Positional numerals in pieces

A numeral can be read and written in pieces: the value of two runs of digits one after the other
is the value of the first, moved up by the length of the second, plus the value of the second; and
the numeral of a number is the numeral of its upper part followed by the lower digits at their full
width.

## Main definitions

* `Numerals.value`: the value of a run of digits, read from the left.
* `Numerals.padded`: the lowest digits of a number at a fixed width.

## Main results

* `Numerals.value_append`, `Numerals.value_lt`, `Numerals.value_eq_ofDigits`.
* `Numerals.toDigits_mul_add`: the numeral of a number cut at a digit.
* `Numerals.replicate_append_toDigits`: padding with zeros gives the full width.
* `Numerals.head_toDigits_ne_zero`: no leading zeros.
-/

namespace Numerals

variable {b : ℕ}

/-! ### Reading -/

/-- The value of a run of digits, read from the left. -/
def value (b : ℕ) (ds : List ℕ) : ℕ := ds.foldl (fun v d => v * b + d) 0

@[simp] theorem value_nil : value b [] = 0 := rfl

@[simp] theorem value_singleton (d : ℕ) : value b [d] = d := by
  rw [value, List.foldl_cons, List.foldl_nil, Nat.zero_mul, Nat.zero_add]

theorem value_concat (ds : List ℕ) (d : ℕ) : value b (ds ++ [d]) = value b ds * b + d := by
  rw [value, List.foldl_append]
  rfl

theorem value_append (ds es : List ℕ) :
    value b (ds ++ es) = value b ds * b ^ es.length + value b es := by
  induction es using List.reverseRecOn with
  | nil => rw [List.append_nil, List.length_nil, Nat.pow_zero, Nat.mul_one]; rfl
  | append_singleton es e ih =>
    rw [← List.append_assoc, value_concat, value_concat, ih, List.length_append,
      List.length_singleton]
    ring

theorem value_cons (d : ℕ) (ds : List ℕ) :
    value b (d :: ds) = d * b ^ ds.length + value b ds := by
  rw [← List.singleton_append, value_append, value_singleton]

theorem value_eq_ofDigits (ds : List ℕ) : value b ds = Nat.ofDigits b ds.reverse := by
  induction ds using List.reverseRecOn with
  | nil => rfl
  | append_singleton ds d ih =>
    rw [value_concat, ih, List.reverse_append, List.reverse_singleton, List.singleton_append,
      Nat.ofDigits_cons]
    ring

theorem value_lt {ds : List ℕ} (hds : ∀ d ∈ ds, d < b) : value b ds < b ^ ds.length := by
  induction ds using List.reverseRecOn with
  | nil => exact Nat.one_pos
  | append_singleton ds d ih =>
    have hvalue := ih fun e he => hds e (List.mem_append_left _ he)
    have hd := hds d (List.mem_append_right _ List.mem_cons_self)
    rw [value_concat, List.length_append, List.length_singleton, Nat.pow_succ]
    calc value b ds * b + d < value b ds * b + b := Nat.add_lt_add_left hd _
      _ = (value b ds + 1) * b := by ring
      _ ≤ b ^ ds.length * b := Nat.mul_le_mul_right b hvalue

theorem value_replicate_zero (n : ℕ) : value b (List.replicate n 0) = 0 := by
  induction n with
  | zero => rfl
  | succ n ih => rw [List.replicate_succ', value_concat, ih, Nat.zero_mul]

/-! ### Writing -/

/-- The `k` lowest digits, highest first. -/
def padded (b : ℕ) : ℕ → ℕ → List Char
  | 0, _ => []
  | k + 1, n => padded b k (n / b) ++ [(n % b).digitChar]

theorem toDigits_mul_add_digit (hb : 1 < b) {q d : ℕ} (hq : 0 < q) (hd : d < b) :
    Nat.toDigits b (q * b + d) = Nat.toDigits b q ++ [d.digitChar] := by
  have hle : b ≤ q * b + d := le_add_right (Nat.le_mul_of_pos_left b hq)
  have hpos : 0 < b := Nat.zero_lt_of_lt hb
  rw [Nat.toDigits_of_base_le hb hle, Nat.add_mod, Nat.mul_mod_left, Nat.zero_add, Nat.mod_mod,
    Nat.mod_eq_of_lt hd, Nat.mul_comm, Nat.mul_add_div hpos, Nat.div_eq_of_lt hd, Nat.add_zero]

/-- The numeral of a number, cut `k` digits from its end. -/
theorem toDigits_mul_add (hb : 1 < b) {q : ℕ} (hq : 0 < q) {k r : ℕ} (hr : r < b ^ k) :
    Nat.toDigits b (q * b ^ k + r) = Nat.toDigits b q ++ padded b k r := by
  have hpos : 0 < b := Nat.zero_lt_of_lt hb
  induction k generalizing r with
  | zero =>
    obtain rfl : r = 0 := Nat.lt_one_iff.mp hr
    rw [Nat.pow_zero, Nat.mul_one, Nat.add_zero, padded, List.append_nil]
  | succ k ih =>
    have hupper : r / b < b ^ k := by
      rwa [Nat.div_lt_iff_lt_mul hpos, ← Nat.pow_succ]
    have hcut : q * b ^ (k + 1) + r = (q * b ^ k + r / b) * b + r % b := by
      have hsplit := Nat.div_add_mod' r b
      calc q * b ^ (k + 1) + r = q * b ^ (k + 1) + (r / b * b + r % b) := by rw [hsplit]
        _ = (q * b ^ k + r / b) * b + r % b := by ring
    have hpositive : 0 < q * b ^ k + r / b :=
      Nat.add_pos_left (Nat.mul_pos hq (Nat.pow_pos hpos)) _
    rw [hcut, toDigits_mul_add_digit hb hpositive (Nat.mod_lt r hpos), ih hupper, padded,
      List.append_assoc]

/-- Zeros in front of a numeral fill up its width. -/
theorem replicate_append_toDigits (hb : 1 < b) {k r : ℕ} (hk : 0 < k) (hr : r < b ^ k) :
    List.replicate (k - (Nat.toDigits b r).length) '0' ++ Nat.toDigits b r = padded b k r := by
  have hpos : 0 < b := Nat.zero_lt_of_lt hb
  induction k generalizing r with
  | zero => exact absurd hk (lt_irrefl 0)
  | succ k ih =>
    by_cases hdigit : r < b
    · -- a single digit: the rest of the width is zeros
      have hzeros (n : ℕ) : padded b n 0 = List.replicate n '0' := by
        induction n with
        | zero => rfl
        | succ n ih => rw [padded, Nat.zero_div, ih, Nat.zero_mod, List.replicate_succ']; rfl
      rw [Nat.toDigits_of_lt_base hdigit, padded, Nat.div_eq_of_lt hdigit, hzeros,
        Nat.mod_eq_of_lt hdigit, List.length_singleton, Nat.add_sub_cancel]
    · have hle : b ≤ r := not_lt.mp hdigit
      have hupper : r / b < b ^ k := by
        rwa [Nat.div_lt_iff_lt_mul hpos, ← Nat.pow_succ]
      have hk' : 0 < k := by
        refine Nat.pos_of_ne_zero fun h => hdigit ?_
        rwa [h, Nat.zero_add, Nat.pow_one] at hr
      rw [Nat.toDigits_of_base_le hb hle, List.length_append, List.length_singleton,
        Nat.add_sub_add_right, ← List.append_assoc, ih hk' hupper, padded]

theorem length_toDigits_le (hb : 1 < b) {k r : ℕ} (hk : 0 < k) (hr : r < b ^ k) :
    (Nat.toDigits b r).length ≤ k := (Nat.length_toDigits_le_iff hb hk).mpr hr

/-- A numeral does not begin with a zero unless it is that of zero. -/
theorem head_toDigits_ne_zero (hb : 1 < b) {n : ℕ} (hn : 0 < n) :
    (Nat.toDigits b n).head? ≠ some '0' := by
  induction n using Nat.strong_induction_on with
  | _ n ih =>
    by_cases hdigit : n < b
    · rw [Nat.toDigits_of_lt_base hdigit, List.head?_cons]
      exact fun h => hn.ne' (Nat.digitChar_eq_zero.mp (Option.some.inj h))
    · have hle : b ≤ n := not_lt.mp hdigit
      have hupper := ih (n / b) (Nat.div_lt_self hn hb) (Nat.div_pos hle (Nat.zero_lt_of_lt hb))
      obtain ⟨c, cs, hcs⟩ := List.exists_cons_of_ne_nil (@Nat.toDigits_ne_nil (n / b) b)
      rw [Nat.toDigits_of_base_le hb hle, hcs]
      rwa [hcs] at hupper

end Numerals
