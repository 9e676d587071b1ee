import Mathlib.Data.Nat.Nth
import Mathlib.Data.Nat.Prime.Nth
import Mathlib.Tactic.Ring

/-!
# SHA-256 of FIPS 180-4

The secure hash standard defines SHA-256 on bit strings: a message is padded with a one bit, the
least number of zero bits that reaches 448 modulo 512 and its length in 64 bits, cut into blocks of
sixteen words, and each block updates the hash value through a schedule of 64 words and 64 rounds.
The constants are the first 32 bits of the fractional parts of the cube roots of the first 64
primes, and of the square roots of the first eight.

Strings are lists of bits, leftmost first, and words are bit vectors. The definitions follow the
standard and are not meant to be run. Blocks are numbered from zero.

## Main definitions

* `Fips180.bitsBE`, `Fips180.valueBE`: numbers as bit strings.
* `Fips180.pad`, `Fips180.messageWord`: preprocessing.
* `Fips180.W`, `Fips180.step`, `Fips180.compress`, `Fips180.sha256`: hash computation.

## Main results

* `Fips180.bitsBE_append`, `Fips180.valueBE_bitsBE`: strings of digits put together and read.
* `Fips180.zeros_eq_iff`: the number of zero bits.
* `Fips180.rootBits_eq`, `Fips180.nth_prime`: the constants.
-/

namespace Fips180

/-- A bit string, leftmost bit first. -/
abbrev Bits := List Bool

/-- A word of 32 bits. -/
abbrev Word := BitVec 32

/-! ### Numbers as bit strings -/

/-- The last `n` binary digits of a number, most significant first. -/
def bitsBE : ℕ → ℕ → Bits
  | 0, _ => []
  | n + 1, v => v.testBit n :: bitsBE n v

/-- The number that a bit string writes. -/
def valueBE (bs : Bits) : ℕ := bs.foldl (fun v b => 2 * v + b.toNat) 0

@[simp] theorem length_bitsBE (n v : ℕ) : (bitsBE n v).length = n := by
  induction n with
  | zero => rfl
  | succ n ih => rw [bitsBE, List.length_cons, ih]

theorem bitsBE_append (m n v : ℕ) : bitsBE (m + n) v = bitsBE m (v / 2 ^ n) ++ bitsBE n v := by
  induction m with
  | zero => rw [Nat.zero_add, bitsBE, List.nil_append]
  | succ m ih =>
    rw [Nat.succ_add, bitsBE, ih, bitsBE, Nat.testBit_div_two_pow, Nat.add_comm m n,
      List.cons_append]

/-- Digits further up are not looked at. -/
theorem bitsBE_mod {n k : ℕ} (h : n ≤ k) (v : ℕ) : bitsBE n (v % 2 ^ k) = bitsBE n v := by
  induction n with
  | zero => rfl
  | succ n ih =>
    rw [bitsBE, bitsBE, ih (by omega), Nat.testBit_mod_two_pow]
    simp [show n < k by omega]

theorem bitsBE_zero (n : ℕ) : bitsBE n 0 = List.replicate n false := by
  induction n with
  | zero => rfl
  | succ n ih => rw [bitsBE, ih, Nat.zero_testBit, List.replicate_succ]

theorem valueBE_concat (bs : Bits) (b : Bool) :
    valueBE (bs ++ [b]) = 2 * valueBE bs + b.toNat := by
  rw [valueBE, List.foldl_append]
  rfl

theorem valueBE_append (bs cs : Bits) :
    valueBE (bs ++ cs) = 2 ^ cs.length * valueBE bs + valueBE cs := by
  induction cs using List.reverseRecOn with
  | nil =>
    rw [List.append_nil, List.length_nil, pow_zero, Nat.one_mul]
    rfl
  | append_singleton cs b ih =>
    rw [← List.append_assoc, valueBE_concat, ih, valueBE_concat, List.length_append,
      List.length_singleton, pow_succ]
    ring

theorem valueBE_bitsBE (n v : ℕ) : valueBE (bitsBE n v) = v % 2 ^ n := by
  induction n with
  | zero => rw [pow_zero, Nat.mod_one, bitsBE, valueBE, List.foldl_nil]
  | succ n ih =>
    have hcons : valueBE (v.testBit n :: bitsBE n v) =
        2 ^ n * (v.testBit n).toNat + valueBE (bitsBE n v) := by
      have h := valueBE_append [v.testBit n] (bitsBE n v)
      rw [length_bitsBE] at h
      simpa [valueBE] using h
    rw [bitsBE, hcons, ih, Nat.pow_succ, Nat.mod_mul, Nat.toNat_testBit, Nat.add_comm]

/-! ### Functions and constants -/

/-- Rotation to the right. -/
def ROTR (n : ℕ) (x : Word) : Word := x >>> n ||| x <<< (32 - n)

/-- Shift to the right. -/
def SHR (n : ℕ) (x : Word) : Word := x >>> n

/-- The choice between two words, bit by bit. -/
def Ch (x y z : Word) : Word := (x &&& y) ^^^ (~~~x &&& z)

/-- The majority of three words, bit by bit. -/
def Maj (x y z : Word) : Word := (x &&& y) ^^^ (x &&& z) ^^^ (y &&& z)

/-- The function written with a capital sigma and index 0. -/
def bigSigma0 (x : Word) : Word := ROTR 2 x ^^^ ROTR 13 x ^^^ ROTR 22 x

/-- The function written with a capital sigma and index 1. -/
def bigSigma1 (x : Word) : Word := ROTR 6 x ^^^ ROTR 11 x ^^^ ROTR 25 x

/-- The function written with a small sigma and index 0. -/
def smallSigma0 (x : Word) : Word := ROTR 7 x ^^^ ROTR 18 x ^^^ SHR 3 x

/-- The function written with a small sigma and index 1. -/
def smallSigma1 (x : Word) : Word := ROTR 17 x ^^^ ROTR 19 x ^^^ SHR 10 x

/-- The first 32 bits of the fractional part of the `n`-th root of `p`: the integer part of the
root times `2 ^ 32`, as a word. -/
def rootBits (n p : ℕ) : Word :=
  BitVec.ofNat 32 (Nat.findGreatest (fun k => k ^ n ≤ p * 2 ^ (32 * n)) (p * 2 ^ (32 * n)))

/-- The constants of the rounds. -/
noncomputable def K (t : ℕ) : Word := rootBits 3 (Nat.nth Nat.Prime t)

theorem rootBits_eq {n p k : ℕ} (hn : 0 < n) (hle : k ^ n ≤ p * 2 ^ (32 * n))
    (hlt : p * 2 ^ (32 * n) < (k + 1) ^ n) : rootBits n p = BitVec.ofNat 32 k := by
  rw [rootBits]
  congr 1
  rw [Nat.findGreatest_eq_iff]
  refine ⟨(Nat.le_self_pow hn.ne' k).trans hle, fun _ => hle, fun m hm _ hpow => ?_⟩
  exact absurd (hlt.trans_le (Nat.pow_le_pow_left hm n)) (by omega)

/-- Primality by trial division, for the first primes. -/
def isSmallPrime (n : ℕ) : Bool := decide (2 ≤ n) && (List.range' 2 (n - 2)).all (n % · != 0)

theorem isSmallPrime_iff (n : ℕ) : isSmallPrime n = true ↔ n.Prime := by
  rw [isSmallPrime, Nat.prime_def_lt', Bool.and_eq_true, decide_eq_true_eq, List.all_eq_true]
  refine and_congr_right fun hn => ⟨fun h m hm hlt hdvd => ?_, fun h m hm => ?_⟩
  · have hne := h m (by rw [List.mem_range'_1]; omega)
    rw [bne_iff_ne] at hne
    exact hne (Nat.mod_eq_zero_of_dvd hdvd)
  · rw [List.mem_range'_1] at hm
    rw [bne_iff_ne]
    exact fun hmod => h m hm.1 (by omega) (Nat.dvd_of_mod_eq_zero hmod)

/-- The primes that the constants are made from. -/
def primes : List ℕ := (List.range 312).filter isSmallPrime

/-- They are the first 64. -/
theorem nth_prime {t : ℕ} (ht : t < 64) : Nat.nth Nat.Prime t = primes.getD t 0 := by
  have hall : ∀ t < 64, isSmallPrime (primes.getD t 0) = true ∧
      Nat.count (fun n => isSmallPrime n = true) (primes.getD t 0) = t := by decide +kernel
  obtain ⟨hprime, hcount⟩ := hall t ht
  simp only [isSmallPrime_iff] at hprime hcount
  conv_lhs => rw [← hcount]
  convert Nat.nth_count hprime

/-! ### Preprocessing -/

theorem exists_zeros (l : ℕ) : ∃ k, (l + 1 + k) % 512 = 448 := ⟨(959 - l % 512) % 512, by omega⟩

/-- The least number of zero bits that reaches 448 modulo 512. -/
def zeros (l : ℕ) : ℕ := Nat.find (exists_zeros l)

theorem zeros_eq_iff {l k : ℕ} : zeros l = k ↔ (l + 1 + k) % 512 = 448 ∧ k < 512 := by
  rw [zeros, Nat.find_eq_iff]
  constructor
  · rintro ⟨hk, hmin⟩
    refine ⟨hk, ?_⟩
    by_contra! hge
    exact hmin (k - 512) (by omega) (by omega)
  · rintro ⟨hk, hlt⟩
    exact ⟨hk, fun m hm hmod => by omega⟩

/-- The message, a one bit, the zero bits, and the length of the message. -/
def pad (m : Bits) : Bits :=
  m ++ true :: (List.replicate (zeros m.length) false ++ bitsBE 64 m.length)

/-- The word that a string of 32 bits writes. -/
def wordOfBits (bs : Bits) : Word := BitVec.ofNat 32 (valueBE bs)

/-- Word `j` of block `i`. -/
def messageWord (padded : Bits) (i j : ℕ) : Word :=
  wordOfBits ((padded.drop (512 * i + 32 * j)).take 32)

/-! ### Hash computation -/

/-- The message schedule of a block. -/
def W (M : ℕ → Word) (t : ℕ) : Word :=
  if t < 16 then M t
  else smallSigma1 (W M (t - 2)) + W M (t - 7) + smallSigma0 (W M (t - 15)) + W M (t - 16)

/-- The working variables, and the eight words of a hash value. -/
@[ext] structure Vars where
  a : Word
  b : Word
  c : Word
  d : Word
  e : Word
  f : Word
  g : Word
  h : Word

/-- The initial hash value. -/
noncomputable def H0 : Vars :=
  let H j := rootBits 2 (Nat.nth Nat.Prime j)
  ⟨H 0, H 1, H 2, H 3, H 4, H 5, H 6, H 7⟩

/-- Round `t`. -/
noncomputable def step (W : ℕ → Word) (v : Vars) (t : ℕ) : Vars :=
  let T1 := v.h + bigSigma1 v.e + Ch v.e v.f v.g + K t + W t
  let T2 := bigSigma0 v.a + Maj v.a v.b v.c
  ⟨T1 + T2, v.a, v.b, v.c, v.d + T1, v.e, v.f, v.g⟩

/-- The hash value after a block. -/
noncomputable def compress (H : Vars) (M : ℕ → Word) : Vars :=
  let v := (List.range 64).foldl (step (W M)) H
  ⟨v.a + H.a, v.b + H.b, v.c + H.c, v.d + H.d, v.e + H.e, v.f + H.f, v.g + H.g, v.h + H.h⟩

/-- The words of a hash value one behind the other. -/
def Vars.bits (H : Vars) : Bits :=
  [H.a, H.b, H.c, H.d, H.e, H.f, H.g, H.h].flatMap fun w => bitsBE 32 w.toNat

/-- The digest of a message. -/
noncomputable def sha256 (m : Bits) : Bits :=
  let padded := pad m
  ((List.range (padded.length / 512)).foldl
    (fun H i => compress H (messageWord padded i)) H0).bits

theorem W_of_lt {M : ℕ → Word} {t : ℕ} (h : t < 16) : W M t = M t := by rw [W, if_pos h]

theorem W_add_sixteen (M : ℕ → Word) (t : ℕ) : W M (t + 16) =
    smallSigma1 (W M (t + 14)) + W M (t + 9) + smallSigma0 (W M (t + 1)) + W M t := by
  conv_lhs => rw [W, if_neg (by omega)]
  rfl

/-- Only the sixteen words of the block count. -/
theorem W_congr {M M' : ℕ → Word} (h : ∀ t < 16, M t = M' t) : W M = W M' := by
  funext t
  induction t using Nat.strong_induction_on with
  | _ t ih =>
    obtain ht | ht := lt_or_ge t 16
    · rw [W_of_lt ht, W_of_lt ht, h t ht]
    · obtain ⟨s, rfl⟩ := Nat.exists_eq_add_of_le' ht
      rw [W_add_sixteen, W_add_sixteen, ih (s + 14) (by omega), ih (s + 9) (by omega),
        ih (s + 1) (by omega), ih s (by omega)]

theorem compress_congr {M M' : ℕ → Word} (h : ∀ t < 16, M t = M' t) (H : Vars) :
    compress H M = compress H M' := by
  rw [compress, compress, W_congr h]

end Fips180
