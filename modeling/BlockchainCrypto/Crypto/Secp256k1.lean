import BlockchainCrypto.Crypto.ECPoint
import BlockchainCrypto.Theory.Pocklington
import Mathlib.Tactic.NormNum.Prime

/-!
# The constants of secp256k1

The field prime and the group order of `ECCrypto.h` are prime. Both come with a certificate in
which a few primes divide the number less one.

## Main results

* `ECCrypto.secp256k1.fieldPrime_prime`, `ECCrypto.secp256k1.order_prime`.
-/

namespace BlockchainCrypto

namespace ECCrypto

namespace secp256k1

open Pocklington

/-- The field prime. -/
def fieldPrime : ℕ := P.toNat

/-- The order of the base point. -/
def order : ℕ := N.toNat

theorem P_eq : P = fieldPrime := rfl

theorem N_eq : N = order := rfl

/-- Certificates for the primes below the field prime, and for the field prime. -/
def certificatesP : List Certificate :=
  [⟨107590001, 2, [53, 29, 7]⟩,
    ⟨20113, 2, [419]⟩,
    ⟨1206781, 2, [20113]⟩,
    ⟨7240687, 2, [1206781]⟩,
    ⟨96557, 2, [239, 101]⟩,
    ⟨255515944373312847190720520512484175977, 2, [107590001, 7240687, 96557]⟩,
    ⟨205115282021455665897114700593932402728804164701536103180137503955397371, 2,
      [255515944373312847190720520512484175977]⟩,
    ⟨fieldPrime, 2, [205115282021455665897114700593932402728804164701536103180137503955397371]⟩]

/-- Certificates for the primes below the order, and for the order. -/
def certificatesN : List Certificate :=
  [⟨1627771, 2, [1871]⟩,
    ⟨297159362677, 2, [1627771]⟩,
    ⟨28181, 2, [1409]⟩,
    ⟨545358713, 2, [28181]⟩,
    ⟨29047611873442575647497758179, 2, [297159362677, 545358713]⟩,
    ⟨341948486974166000522343609283189, 2, [29047611873442575647497758179]⟩,
    ⟨44706919, 2, [9349]⟩,
    ⟨120233, 2, [113, 19]⟩,
    ⟨174723607534414371449, 2, [44706919, 120233]⟩,
    ⟨order, 2, [341948486974166000522343609283189, 174723607534414371449]⟩]

theorem fieldPrime_prime : fieldPrime.Prime := by
  have hsmall : ∀ q ∈ [7, 29, 53, 101, 239, 419], q.Prime := by norm_num
  exact prime_of_check hsmall (by decide +kernel : check 256 _ certificatesP = true) _
    (List.mem_of_getElem? (i := 7) rfl)

theorem order_prime : order.Prime := by
  have hsmall : ∀ q ∈ [19, 113, 1409, 1871, 9349], q.Prime := by norm_num
  exact prime_of_check hsmall (by decide +kernel : check 256 _ certificatesN = true) _
    (List.mem_of_getElem? (i := 9) rfl)

instance : Fact fieldPrime.Prime := ⟨fieldPrime_prime⟩

instance : Fact order.Prime := ⟨order_prime⟩

end secp256k1

end ECCrypto

end BlockchainCrypto
