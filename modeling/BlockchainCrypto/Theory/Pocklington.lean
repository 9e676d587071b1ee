import Mathlib.Algebra.BigOperators.Group.List.Lemmas
import Mathlib.Data.Nat.GCD.BigOperators
import Mathlib.FieldTheory.Finite.Basic

/-!
# Primality by partial factorization

A number `n` is prime when some known primes divide `n - 1`, their product is larger than the
square root of `n`, and a base certifies each of them: the power of the base to `n - 1` is one
modulo `n`, and no prime factor of `n` can do with one known prime less. Each prime factor of `n` is
then one more than a multiple of the product. Certificates for the known primes come earlier in a
list, which is checked by evaluation.

## Main definitions

* `Pocklington.powMod`: square and multiply.
* `Pocklington.Certificate`, `Pocklington.check`: certificates and a test of a list of them.

## Main results

* `Pocklington.dvd_sub_one`: known primes divide each prime factor less one.
* `Pocklington.Certificate.prime`: a certified number is prime.
* `Pocklington.prime_of_check`: all numbers of a list that passes the test are prime.
-/

namespace Pocklington

/-! ### Powers -/

/-- The power `a ^ e % m` for an exponent of at most so many bits. -/
def powMod (m : ℕ) : ℕ → ℕ → ℕ → ℕ
  | 0, _, _ => 1 % m
  | bits + 1, a, e =>
    let square := powMod m bits (a * a % m) (e / 2)
    if e % 2 = 0 then square else a * square % m

theorem powMod_eq {m bits a e : ℕ} (h : e < 2 ^ bits) : powMod m bits a e = a ^ e % m := by
  induction bits generalizing a e with
  | zero =>
    obtain rfl : e = 0 := by omega
    rfl
  | succ bits ih =>
    have hhalf : powMod m bits (a * a % m) (e / 2) = (a * a) ^ (e / 2) % m := by
      rw [ih (by omega), ← Nat.pow_mod]
    have hpow : a ^ e = a ^ (e % 2) * (a * a) ^ (e / 2) := by
      rw [← sq, ← pow_mul, ← pow_add, Nat.mod_add_div]
    rw [powMod, hhalf, hpow]
    obtain heven | hodd := Nat.mod_two_eq_zero_or_one e
    · rw [if_pos heven, heven, pow_zero, one_mul]
    · rw [if_neg (by omega), hodd, pow_one, Nat.mul_mod_mod]

/-! ### The criterion -/

variable {n a p q : ℕ}

theorem cast_mod_of_dvd (h : p ∣ n) (x : ℕ) : ((x % n : ℕ) : ZMod p) = x := by
  rw [ZMod.natCast_eq_natCast_iff]
  exact (Nat.mod_modEq x n).of_dvd h

/-- A known prime divides `p - 1` for every prime factor `p`. -/
theorem dvd_sub_one (hn : 0 < n) (hp : p.Prime) (hpn : p ∣ n) (hq : q.Prime) (hqn : q ∣ n - 1)
    (hpow : a ^ (n - 1) % n = 1) (hcop : Nat.Coprime (a ^ ((n - 1) / q) % n + (n - 1)) n) :
    q ∣ p - 1 := by
  have : Fact p.Prime := ⟨hp⟩
  have hone : (a : ZMod p) ^ (n - 1) = 1 := by
    have h := cast_mod_of_dvd hpn (a ^ (n - 1))
    rw [hpow, Nat.cast_one, Nat.cast_pow] at h
    exact h.symm
  have hne : (a : ZMod p) ^ ((n - 1) / q) ≠ 1 := by
    intro h
    have hzero : ((a ^ ((n - 1) / q) % n + (n - 1) : ℕ) : ZMod p) = 0 := by
      rw [Nat.cast_add, cast_mod_of_dvd hpn, Nat.cast_pow, h, Nat.cast_sub hn,
        (ZMod.natCast_eq_zero_iff n p).mpr hpn]
      simp
    exact hp.one_lt.ne' (Nat.eq_one_of_dvd_coprimes hcop
      ((ZMod.natCast_eq_zero_iff _ p).mp hzero) hpn)
  -- the order of the base divides `n - 1`, but not with one `q` less
  have horder : q ∣ orderOf (a : ZMod p) := by
    by_contra hndvd
    have hcoprime := (Nat.Prime.coprime_iff_not_dvd hq).mpr hndvd
    have hdvd := orderOf_dvd_of_pow_eq_one hone
    rw [← Nat.mul_div_cancel' hqn] at hdvd
    exact hne (orderOf_dvd_iff_pow_eq_one.mp (hcoprime.symm.dvd_of_dvd_mul_left hdvd))
  have ha : (a : ZMod p) ≠ 0 := by
    intro h
    rw [h] at hone
    by_cases hexp : n - 1 = 0
    · rw [hexp, Nat.zero_div, pow_zero] at hne
      exact hne rfl
    · rw [zero_pow hexp] at hone
      exact zero_ne_one hone
  exact horder.trans (orderOf_dvd_of_pow_eq_one (ZMod.pow_card_sub_one_eq_one ha))

theorem prod_dvd {qs : List ℕ} {m : ℕ} (hprime : ∀ q ∈ qs, q.Prime) (hnodup : qs.Nodup)
    (hdvd : ∀ q ∈ qs, q ∣ m) : qs.prod ∣ m := by
  induction qs with
  | nil => exact one_dvd m
  | cons q qs ih =>
    rw [List.forall_mem_cons] at hprime hdvd
    rw [List.nodup_cons] at hnodup
    have hcoprime : Nat.Coprime q qs.prod := Nat.coprime_list_prod_right_iff.mpr fun q' hq' =>
      (Nat.coprime_primes hprime.1 (hprime.2 q' hq')).mpr fun h => hnodup.1 (h ▸ hq')
    rw [List.prod_cons]
    exact hcoprime.mul_dvd_of_dvd_of_dvd hdvd.1 (ih hprime.2 hnodup.2 hdvd.2)

/-- The product of the known primes is larger than the square root. -/
theorem prime_of_forall_dvd {m : ℕ} (hn : 1 < n) (hm : n < m ^ 2)
    (h : ∀ p, p.Prime → p ∣ n → m ∣ p - 1) : n.Prime := by
  by_contra hnot
  have hfac := Nat.minFac_prime hn.ne'
  have hle : m ≤ n.minFac - 1 :=
    Nat.le_of_dvd (Nat.sub_pos_of_lt hfac.one_lt) (h _ hfac (Nat.minFac_dvd n))
  have hsq := Nat.minFac_sq_le_self (Nat.zero_lt_of_lt hn) hnot
  have hmono := Nat.pow_le_pow_left (hle.trans (Nat.sub_le _ 1)) 2
  omega

/-! ### Certificates -/

/-- A number, a base, and known primes. -/
structure Certificate where
  n : ℕ
  base : ℕ
  known : List ℕ

/-- The test of one certificate, for numbers of at most so many bits. -/
def Certificate.test (bits : ℕ) (c : Certificate) : Bool :=
  decide (1 < c.n) && decide (c.n ≤ 2 ^ bits) && decide c.known.Nodup &&
    decide (c.n < c.known.prod ^ 2) && powMod c.n bits c.base (c.n - 1) == 1 &&
    c.known.all fun q => decide (q ∣ c.n - 1) &&
      Nat.gcd (powMod c.n bits c.base ((c.n - 1) / q) + (c.n - 1)) c.n == 1

/-- The test of a list, in which the known primes have been certified before. -/
def check (bits : ℕ) (proven : List ℕ) : List Certificate → Bool
  | [] => true
  | c :: cs => c.known.all (fun q => decide (q ∈ proven)) && c.test bits &&
      check bits (c.n :: proven) cs

/-- A certified number is prime. -/
theorem Certificate.prime {bits : ℕ} {c : Certificate} (hknown : ∀ q ∈ c.known, q.Prime)
    (h : c.test bits = true) : c.n.Prime := by
  simp only [Certificate.test, Bool.and_eq_true, decide_eq_true_eq, beq_iff_eq,
    List.all_eq_true] at h
  obtain ⟨⟨⟨⟨⟨hn, hbits⟩, hnodup⟩, hprod⟩, hpow⟩, hall⟩ := h
  rw [powMod_eq (by omega)] at hpow
  refine prime_of_forall_dvd hn hprod fun p hp hpn => prod_dvd hknown hnodup fun q hq => ?_
  obtain ⟨hdvd, hgcd⟩ := hall q hq
  have hlt : (c.n - 1) / q < 2 ^ bits := (Nat.div_le_self _ _).trans_lt (by omega)
  rw [powMod_eq hlt] at hgcd
  exact dvd_sub_one (Nat.zero_lt_of_lt hn) hp hpn (hknown q hq) hdvd hpow hgcd

/-- All numbers of a list that passes the test are prime. -/
theorem prime_of_check {bits : ℕ} {proven : List ℕ} {cs : List Certificate}
    (hproven : ∀ q ∈ proven, q.Prime) (h : check bits proven cs = true) :
    ∀ c ∈ cs, c.n.Prime := by
  induction cs generalizing proven with
  | nil => exact fun c hc => absurd hc List.not_mem_nil
  | cons c cs ih =>
    simp only [check, Bool.and_eq_true, List.all_eq_true, decide_eq_true_eq] at h
    obtain ⟨⟨hmem, htest⟩, hrest⟩ := h
    have hc := Certificate.prime (fun q hq => hproven q (hmem q hq)) htest
    rw [List.forall_mem_cons]
    exact ⟨hc, ih (List.forall_mem_cons.mpr ⟨hc, hproven⟩) hrest⟩

end Pocklington
