import Mathlib.Data.List.Range
import Mathlib.Logic.Function.Iterate
import Mathlib.Tactic.Ring

/-!
# HMAC and PBKDF2

The keyed hash of RFC 2104 over any hash function, and the key derivation of RFC 2898 over any
pseudorandom function, on octet strings. A derived key is cut from a sequence of blocks; each block
is the exclusive or of as many iterates of the function as are asked for, and its number goes into
the first of them.

## Main definitions

* `KeyedHash.hmac`.
* `KeyedHash.U`, `KeyedHash.F`, `KeyedHash.pbkdf2`.

## Main results

* `KeyedHash.take_flatMap_range'`: the front of a sequence of blocks.
* `KeyedHash.pbkdf2_eq_take`: a derived key is such a front.
* `KeyedHash.INT_mod`: block numbers count modulo `2 ^ 32`.
-/

namespace KeyedHash

/-- An octet string. -/
abbrev Octets := List UInt8

/-- The exclusive or, octet by octet. -/
def xorOctets (x y : Octets) : Octets := List.zipWith (· ^^^ ·) x y

/-! ### HMAC -/

/-- The hash value of a text under a key, for a hash function `H` with blocks of `B` octets. -/
def hmac (H : Octets → Octets) (B : ℕ) (K text : Octets) : Octets :=
  let key := if B < K.length then H K else K
  let padded := key ++ List.replicate (B - key.length) 0
  let ipad := List.replicate B 0x36
  let opad := List.replicate B 0x5C
  H (xorOctets padded opad ++ H (xorOctets padded ipad ++ text))

theorem xorOctets_replicate {x : Octets} {n : ℕ} (h : x.length ≤ n) (c : UInt8) :
    xorOctets x (List.replicate n c) = x.map (· ^^^ c) := by
  induction x generalizing n with
  | nil => rfl
  | cons b x ih =>
    obtain ⟨n, rfl⟩ := Nat.exists_eq_succ_of_ne_zero (show n ≠ 0 by
      rw [List.length_cons] at h
      omega)
    rw [List.replicate_succ, xorOctets, List.zipWith_cons_cons, List.map_cons,
      ← ih (by simpa using h)]
    rfl

theorem length_xorOctets {x y : Octets} {n : ℕ} (hx : x.length = n) (hy : y.length = n) :
    (xorOctets x y).length = n := by
  rw [xorOctets, List.length_zipWith, hx, hy, Nat.min_self]

theorem zero_xorOctets (x : Octets) : xorOctets (List.replicate x.length 0) x = x := by
  induction x with
  | nil => rfl
  | cons b x ih =>
    rw [List.length_cons, List.replicate_succ, xorOctets, List.zipWith_cons_cons]
    rw [xorOctets] at ih
    rw [ih, UInt8.zero_xor]

/-! ### PBKDF2 -/

/-- The four-octet encoding of a block number, most significant octet first. -/
def INT (i : ℕ) : Octets := [3, 2, 1, 0].map fun k => UInt8.ofNat (i / 256 ^ k)

/-- Block numbers count modulo `2 ^ 32`. -/
theorem INT_mod (i : ℕ) : INT (i % 2 ^ 32) = INT i := by
  refine List.map_congr_left fun k hk => UInt8.toNat_inj.mp ?_
  rw [UInt8.toNat_ofNat', UInt8.toNat_ofNat']
  obtain rfl | rfl | rfl | rfl : k = 3 ∨ k = 2 ∨ k = 1 ∨ k = 0 := by simpa using hk
  all_goals omega

section Blocks

variable (prf : Octets → Octets → Octets) (hLen : ℕ) (P S : Octets)

/-- The iterates that block `i` is made from; the first is `U 1`. -/
def U (i j : ℕ) : Octets := (prf P)^[j] (S ++ INT i)

/-- Block `i`: the exclusive or of `c` iterates. -/
def F (c i : ℕ) : Octets :=
  ((List.range' 1 c).map (U prf P S i)).foldl xorOctets (List.replicate hLen 0)

/-- The derived key of `dkLen` octets: `l` blocks, of the last only the `r` octets that are
needed. -/
def pbkdf2 (c dkLen : ℕ) : Option Octets :=
  if dkLen > (2 ^ 32 - 1) * hLen then none
  else
    let l := (dkLen + hLen - 1) / hLen
    let r := dkLen - (l - 1) * hLen
    some ((List.range' 1 (l - 1)).flatMap (F prf hLen P S c) ++ (F prf hLen P S c l).take r)

variable {prf hLen P S}

theorem U_succ (i j : ℕ) : U prf P S i (j + 1) = prf P (U prf P S i j) :=
  Function.iterate_succ_apply' _ _ _

theorem length_foldl_xorOctets {xs : List Octets} {x : Octets} (hx : x.length = hLen)
    (hxs : ∀ y ∈ xs, y.length = hLen) : (xs.foldl xorOctets x).length = hLen := by
  induction xs generalizing x with
  | nil => exact hx
  | cons y xs ih =>
    rw [List.forall_mem_cons] at hxs
    exact ih (length_xorOctets hx hxs.1) hxs.2

theorem length_F (hprf : ∀ x y, (prf x y).length = hLen) (c i : ℕ) :
    (F prf hLen P S c i).length = hLen := by
  refine length_foldl_xorOctets List.length_replicate fun y hy => ?_
  obtain ⟨j, hj, rfl⟩ := List.mem_map.mp hy
  obtain ⟨j, rfl⟩ := Nat.exists_eq_add_of_le' (List.mem_range'_1.mp hj).1
  rw [U_succ]
  exact hprf _ _

end Blocks

/-! ### Blocks of one length -/

variable {T : ℕ → Octets} {hLen : ℕ}

theorem length_flatMap_range' (hT : ∀ i, (T i).length = hLen) (s l : ℕ) :
    ((List.range' s l).flatMap T).length = l * hLen := by
  rw [List.length_flatMap]
  simp [hT]

/-- Blocks that are not needed do not change the front. -/
theorem take_flatMap_range' (hT : ∀ i, (T i).length = hLen) {s l l' n : ℕ} (hl : n ≤ l * hLen)
    (hl' : l ≤ l') :
    ((List.range' s l').flatMap T).take n = ((List.range' s l).flatMap T).take n := by
  obtain ⟨k, rfl⟩ := Nat.exists_eq_add_of_le hl'
  rw [← List.range'_append_1, List.flatMap_append]
  exact List.take_append_of_le_length (by rwa [length_flatMap_range' hT])

/-- All blocks but the last in full and the front of the last are the front of all blocks. -/
theorem blocks_eq_take (hT : ∀ i, (T i).length = hLen) {l n : ℕ} (hl : (l - 1) * hLen ≤ n)
    (hn : n ≤ l * hLen) :
    (List.range' 1 (l - 1)).flatMap T ++ (T l).take (n - (l - 1) * hLen) =
      ((List.range' 1 l).flatMap T).take n := by
  obtain rfl | hpos := Nat.eq_zero_or_pos l
  · obtain rfl : n = 0 := by omega
    simp
  · obtain ⟨k, rfl⟩ : ∃ k, l = k + 1 := ⟨l - 1, by omega⟩
    rw [Nat.add_sub_cancel] at hl ⊢
    have hfull : ((List.range' 1 k).flatMap T).take n = (List.range' 1 k).flatMap T :=
      List.take_of_length_le (by rwa [length_flatMap_range' hT])
    rw [List.range'_1_concat, List.flatMap_append, List.flatMap_singleton, List.take_append, hfull,
      length_flatMap_range' hT, Nat.add_comm 1 k]

/-- A derived key is the front of the sequence of its blocks. -/
theorem pbkdf2_eq_take {prf : Octets → Octets → Octets} (hprf : ∀ x y, (prf x y).length = hLen)
    (hpos : 0 < hLen) (P S : Octets) (c : ℕ) {dkLen : ℕ} (h : dkLen ≤ (2 ^ 32 - 1) * hLen) :
    pbkdf2 prf hLen P S c dkLen =
      some (((List.range' 1 ((dkLen + hLen - 1) / hLen)).flatMap (F prf hLen P S c)).take
        dkLen) := by
  rw [pbkdf2, if_neg (by omega)]
  have hmod := Nat.div_add_mod (dkLen + hLen - 1) hLen
  have hlt := Nat.mod_lt (dkLen + hLen - 1) hpos
  rw [Nat.mul_comm] at hmod
  exact congrArg some (blocks_eq_take (fun i => length_F hprf c i)
    (by rw [Nat.sub_mul, Nat.one_mul]; omega) (by omega))

end KeyedHash
