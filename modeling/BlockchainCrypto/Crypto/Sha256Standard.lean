import BlockchainCrypto.Crypto.Encoding
import BlockchainCrypto.Theory.Fips180

/-!
# The hash function is SHA-256

The hash function of `sha.cpp` against the standard: its tables of constants, its schedule and
rounds on 32-bit machine words, the in-place padding of bytes, and the loop over the blocks. The
bits of a byte string are those of its bytes, most significant first.

## Main definitions

* `SHA256.bits`, `SHA256.Words.toVars`: byte strings and words as those of the standard.

## Main results

* `SHA256.K_spec`, `SHA256.H0_spec`: the tables hold the constants.
* `SHA256.bits_paddedMessage`: the buffer is the padded message.
* `SHA256.toVars_processBlock`: one block.
* `SHA256.bits_hashRaw`, `sha256_standard`: the digest.
-/

namespace BlockchainCrypto

open ByteText Fips180

namespace SHA256

/-! ### Constants -/

/-- The integer part of a root, for small radicands. -/
def wholePart (n p : ℕ) : ℕ := (List.range' 1 20).countP fun i => i ^ n ≤ p

/-- A table entry is the fraction of a root when it is the last word of its integer part. -/
theorem rootBits_eq_toBitVec {n p : ℕ} {w : UInt32} (hn : 0 < n)
    (h : (wholePart n p * 2 ^ 32 + w.toNat) ^ n ≤ p * 2 ^ (32 * n) ∧
      p * 2 ^ (32 * n) < (wholePart n p * 2 ^ 32 + w.toNat + 1) ^ n) :
    rootBits n p = w.toBitVec := by
  rw [rootBits_eq hn h.1 h.2]
  apply BitVec.eq_of_toNat_eq
  rw [BitVec.toNat_ofNat, UInt32.toNat_toBitVec, Nat.mul_comm, Nat.mul_add_mod]
  exact Nat.mod_eq_of_lt w.toNat_lt

theorem K_spec {t : ℕ} (ht : t < 64) : (K.getD t 0).toBitVec = Fips180.K t := by
  have hall : ∀ t < 64,
      (wholePart 3 (primes.getD t 0) * 2 ^ 32 + (K.getD t 0).toNat) ^ 3 ≤
          primes.getD t 0 * 2 ^ (32 * 3) ∧
        primes.getD t 0 * 2 ^ (32 * 3) <
          (wholePart 3 (primes.getD t 0) * 2 ^ 32 + (K.getD t 0).toNat + 1) ^ 3 := by
    decide +kernel
  rw [Fips180.K, nth_prime ht]
  exact (rootBits_eq_toBitVec (by decide) (hall t ht)).symm

/-- The words as those of the standard. -/
def Words.toVars (v : Words) : Vars :=
  ⟨v.a.toBitVec, v.b.toBitVec, v.c.toBitVec, v.d.toBitVec, v.e.toBitVec, v.f.toBitVec,
    v.g.toBitVec, v.h.toBitVec⟩

/-- The table `H0`. -/
def H0List : List UInt32 := [H0.a, H0.b, H0.c, H0.d, H0.e, H0.f, H0.g, H0.h]

theorem H0_spec : H0.toVars = Fips180.H0 := by
  have hall : ∀ j < 8,
      (wholePart 2 (primes.getD j 0) * 2 ^ 32 + (H0List.getD j 0).toNat) ^ 2 ≤
          primes.getD j 0 * 2 ^ (32 * 2) ∧
        primes.getD j 0 * 2 ^ (32 * 2) <
          (wholePart 2 (primes.getD j 0) * 2 ^ 32 + (H0List.getD j 0).toNat + 1) ^ 2 := by
    decide +kernel
  have hword {j : ℕ} (hj : j < 8) :
      (H0List.getD j 0).toBitVec = rootBits 2 (Nat.nth Nat.Prime j) := by
    rw [nth_prime (by omega)]
    exact (rootBits_eq_toBitVec (by decide) (hall j hj)).symm
  exact Vars.ext (@hword 0 (by decide)) (@hword 1 (by decide)) (@hword 2 (by decide))
    (@hword 3 (by decide)) (@hword 4 (by decide)) (@hword 5 (by decide)) (@hword 6 (by decide))
    (@hword 7 (by decide))

/-! ### Functions of words -/

theorem toBitVec_sigma0 (x : UInt32) : (sigma0 x).toBitVec = smallSigma0 x.toBitVec := rfl

theorem toBitVec_sigma1 (x : UInt32) : (sigma1 x).toBitVec = smallSigma1 x.toBitVec := rfl

/-- One round. -/
theorem toVars_round {M : ℕ → Word} (v : Words) {t : ℕ} {k w : UInt32}
    (hk : k.toBitVec = Fips180.K t) (hw : w.toBitVec = M t) :
    (round v (k, w)).toVars = step M v.toVars t := by
  rw [step, ← hk, ← hw]
  rfl

/-! ### One block -/

/-- The words that a block starts with. -/
def blockWord (block : Bytes) (t : ℕ) : Word := (bytesToWord (block.drop (t * 4))).toBitVec

theorem getD_reverse_map_range {α : Type} (f : ℕ → α) (d : α) {m j : ℕ} (h : j < m) :
    (((List.range m).map f).reverse).getD j d = f (m - 1 - j) := by
  rw [List.getD_eq_getElem _ _ (by simpa using h)]
  simp [List.getElem_reverse]

/-- The words collected so far, latest first. -/
theorem schedule_prefix (block : Bytes) (n : ℕ) :
    ((List.range' 16 n).foldl
      (fun w _ => (sigma1 (w.getD 1 0) + w.getD 6 0 + sigma0 (w.getD 14 0) + w.getD 15 0) :: w)
      ((List.range 16).map fun i => bytesToWord (block.drop (i * 4))).reverse).map
        UInt32.toBitVec = ((List.range (16 + n)).map (W (blockWord block))).reverse := by
  induction n with
  | zero =>
    rw [List.range'_zero, List.foldl_nil, List.map_reverse, List.map_map, List.reverse_inj]
    refine List.map_congr_left fun t ht => ?_
    rw [W_of_lt (List.mem_range.mp ht)]
    rfl
  | succ n ih =>
    rw [List.range'_1_concat, List.foldl_append, List.foldl_cons, List.foldl_nil]
    generalize (List.range' 16 n).foldl _ _ = w at ih ⊢
    have hword {j : ℕ} (hj : j < 16 + n) :
        (w.getD j 0).toBitVec = W (blockWord block) (16 + n - 1 - j) := by
      rw [← getD_reverse_map_range (W (blockWord block)) 0 hj, ← ih]
      exact (List.getD_map (f := UInt32.toBitVec) ..).symm
    have hlast : W (blockWord block) (16 + n) = smallSigma1 (W (blockWord block) (16 + n - 1 - 1)) +
        W (blockWord block) (16 + n - 1 - 6) + smallSigma0 (W (blockWord block) (16 + n - 1 - 14)) +
          W (blockWord block) (16 + n - 1 - 15) := by
      rw [Nat.add_comm 16 n, W_add_sixteen]
      rfl
    rw [List.map_cons, ih, ← Nat.add_assoc, List.range_succ, List.map_append, List.reverse_append,
      UInt32.toBitVec_add, UInt32.toBitVec_add, UInt32.toBitVec_add, toBitVec_sigma0,
      toBitVec_sigma1, hword (by omega), hword (by omega), hword (by omega), hword (by omega),
      ← hlast]
    rfl

/-- The schedule of a block. -/
theorem map_schedule (block : Bytes) : (schedule block).map UInt32.toBitVec =
    (List.range 64).map (W (blockWord block)) := by
  rw [schedule, List.map_reverse, schedule_prefix, List.reverse_reverse]

theorem length_schedule (block : Bytes) : (schedule block).length = 64 := by
  have h := congrArg List.length (map_schedule block)
  simpa using h

theorem toBitVec_schedule (block : Bytes) {t : ℕ} (ht : t < 64) :
    ((schedule block).getD t 0).toBitVec = W (blockWord block) t := by
  have hword : ((List.range 64).map (W (blockWord block))).getD t 0 = W (blockWord block) t := by
    simp [ht]
  rw [← map_schedule] at hword
  exact (List.getD_map (f := UInt32.toBitVec) ..).symm.trans hword

/-- The rounds. -/
theorem toVars_rounds (block : Bytes) (hash : Words) : ((K.zip (schedule block)).foldl round
    hash).toVars = (List.range 64).foldl (step (W (blockWord block))) hash.toVars := by
  have hzip : K.zip (schedule block) =
      (List.range 64).map fun t => (K.getD t 0, (schedule block).getD t 0) := by
    have hK : K.length = 64 := rfl
    have hlength := length_schedule block
    refine List.ext_getElem (by simp [hK, hlength]) fun t ht ht' => ?_
    rw [List.length_map, List.length_range] at ht'
    rw [List.getElem_zip, List.getElem_map, List.getElem_range,
      List.getD_eq_getElem _ _ (by omega), List.getD_eq_getElem _ _ (by omega)]
  have hrounds (n : ℕ) (hn : n ≤ 64) : ((List.range n).foldl
      (fun v t => round v (K.getD t 0, (schedule block).getD t 0)) hash).toVars =
        (List.range n).foldl (step (W (blockWord block))) hash.toVars := by
    induction n with
    | zero => rfl
    | succ n ih =>
      rw [List.range_succ, List.foldl_append, List.foldl_append, List.foldl_cons, List.foldl_nil,
        List.foldl_cons, List.foldl_nil, ← ih (by omega)]
      exact toVars_round _ (K_spec (by omega)) (toBitVec_schedule block (by omega))
  rw [hzip, List.foldl_map]
  exact hrounds 64 le_rfl

/-- One block changes the hash value as the standard says. -/
theorem toVars_processBlock (hash : Words) (block : Bytes) :
    (processBlock hash block).toVars = compress hash.toVars (blockWord block) := by
  rw [compress, ← toVars_rounds, processBlock]
  ext1 <;> exact BitVec.add_comm _ _

/-! ### Bytes and bits -/

/-- The bits of a byte string. -/
def bits (data : Bytes) : Bits := data.flatMap fun b => bitsBE 8 b.toNat

/-- The last `n` bytes of a number, most significant first. -/
def bytesBE : ℕ → ℕ → Bytes
  | 0, _ => []
  | n + 1, v => UInt8.ofNat (v >>> (8 * n)) :: bytesBE n v

theorem bits_cons (b : UInt8) (data : Bytes) : bits (b :: data) = bitsBE 8 b.toNat ++ bits data :=
  rfl

theorem bits_append (data data' : Bytes) : bits (data ++ data') = bits data ++ bits data' :=
  List.flatMap_append

theorem length_bits (data : Bytes) : (bits data).length = 8 * data.length := by
  induction data with
  | nil => rfl
  | cons b data ih =>
    rw [bits_cons, List.length_append, length_bitsBE, ih, List.length_cons]
    omega

theorem drop_bits (n : ℕ) (data : Bytes) : (bits data).drop (8 * n) = bits (data.drop n) := by
  by_cases h : n ≤ data.length
  · conv_lhs => rw [← List.take_append_drop n data, bits_append]
    exact List.drop_left' (by rw [length_bits, List.length_take, Nat.min_eq_left h])
  · have hlength := length_bits data
    rw [List.drop_eq_nil_of_le (by omega), List.drop_eq_nil_of_le (by omega)]
    rfl

theorem take_bits (n : ℕ) (data : Bytes) : (bits data).take (8 * n) = bits (data.take n) := by
  by_cases h : n ≤ data.length
  · conv_lhs => rw [← List.take_append_drop n data, bits_append]
    exact List.take_left' (by rw [length_bits, List.length_take, Nat.min_eq_left h])
  · have hlength := length_bits data
    rw [List.take_of_length_le (by omega), List.take_of_length_le (by omega)]

theorem bits_replicate_zero (n : ℕ) :
    bits (List.replicate n 0) = List.replicate (8 * n) false := by
  induction n with
  | zero => rfl
  | succ n ih =>
    rw [List.replicate_succ, bits_cons, ih, show (0 : UInt8).toNat = 0 from rfl, bitsBE_zero,
      List.replicate_append_replicate, Nat.mul_succ, Nat.add_comm]

/-- The bits of a number are those of its bytes. -/
theorem bits_bytesBE (n v : ℕ) : bits (bytesBE n v) = bitsBE (8 * n) v := by
  induction n with
  | zero => rfl
  | succ n ih =>
    rw [bytesBE, bits_cons, ih, Nat.mul_succ, Nat.add_comm (8 * n), bitsBE_append,
      UInt8.toNat_ofNat', bitsBE_mod le_rfl, Nat.shiftRight_eq_div_pow]

theorem wordBytes_eq (w : UInt32) : wordBytes w = bytesBE 4 w.toNat := by
  have hlast : w.toUInt8 = UInt8.ofNat (w.toNat >>> 0) := by
    apply UInt8.toNat_inj.mp
    rw [UInt32.toNat_toUInt8, UInt8.toNat_ofNat', Nat.shiftRight_zero]
  have h24 := ECCrypto.toUInt8_shiftRight w (by decide : 24 < 32)
  have h16 := ECCrypto.toUInt8_shiftRight w (by decide : 16 < 32)
  have h8 := ECCrypto.toUInt8_shiftRight w (by decide : 8 < 32)
  exact List.cons_eq_cons.mpr ⟨h24, List.cons_eq_cons.mpr ⟨h16, List.cons_eq_cons.mpr
    ⟨h8, List.cons_eq_cons.mpr ⟨hlast, rfl⟩⟩⟩⟩

theorem valueBE_bits (data : Bytes) : valueBE (bits data) = ECCrypto.bytesValue data := by
  induction data using List.reverseRecOn with
  | nil => rfl
  | append_singleton data b ih =>
    have hlast : bits [b] = bitsBE 8 b.toNat := List.append_nil _
    rw [bits_append, valueBE_append, ih, hlast, valueBE_bitsBE, length_bitsBE,
      ECCrypto.bytesValue_append, Nat.mod_eq_of_lt b.toNat_lt]
    norm_num

/-- Four bytes are put together to the word that their bits write. -/
theorem toBitVec_bytesToWord {bytes : Bytes} (h : 4 ≤ bytes.length) :
    (bytesToWord bytes).toBitVec = wordOfBits (bits (bytes.take 4)) := by
  obtain ⟨a, b, c, d, rest, rfl⟩ : ∃ a b c d rest, bytes = a :: b :: c :: d :: rest := by
    match bytes, h with
    | a :: b :: c :: d :: rest, _ => exact ⟨a, b, c, d, rest, rfl⟩
  have ha := a.toNat_lt
  have hb := b.toNat_lt
  have hc := c.toNat_lt
  have hd := d.toNat_lt
  have hvalue : ECCrypto.bytesValue [a, b, c, d] =
      ((a.toNat * 256 + b.toNat) * 256 + c.toNat) * 256 + d.toNat := by
    simp only [ECCrypto.bytesValue, List.foldl_cons, List.foldl_nil]
    ring
  apply BitVec.eq_of_toNat_eq
  rw [wordOfBits, valueBE_bits, BitVec.toNat_ofNat]
  have htake : (a :: b :: c :: d :: rest).take 4 = [a, b, c, d] := rfl
  have hword : (bytesToWord (a :: b :: c :: d :: rest)).toNat =
      a.toNat <<< 24 % 2 ^ 32 ||| b.toNat <<< 16 % 2 ^ 32 ||| c.toNat <<< 8 % 2 ^ 32 |||
        d.toNat := by
    simp [bytesToWord]
  rw [htake, hvalue, Nat.mod_eq_of_lt (by omega), UInt32.toNat_toBitVec, hword]
  have hmod (x : UInt8) {k : ℕ} (hk : k ≤ 24) : x.toNat <<< k % 2 ^ 32 = x.toNat <<< k := by
    rw [Nat.shiftLeft_eq]
    refine Nat.mod_eq_of_lt ?_
    calc x.toNat * 2 ^ k < 2 ^ 8 * 2 ^ k :=
          Nat.mul_lt_mul_of_pos_right x.toNat_lt (Nat.two_pow_pos k)
      _ = 2 ^ (8 + k) := (pow_add 2 8 k).symm
      _ ≤ 2 ^ 32 := Nat.pow_le_pow_right two_pos (by omega)
  have h8 := Nat.shiftLeft_add_eq_or_of_lt (i := 8) hd c.toNat
  have h16 := @Nat.shiftLeft_add_eq_or_of_lt 16 (c.toNat <<< 8 + d.toNat) (by omega) b.toNat
  have h24 := @Nat.shiftLeft_add_eq_or_of_lt 24 (b.toNat <<< 16 + (c.toNat <<< 8 + d.toNat))
    (by omega) a.toNat
  rw [hmod a le_rfl, hmod b (by decide), hmod c (by decide), Nat.or_assoc, Nat.or_assoc, ← h8,
    ← h16, ← h24]
  omega

/-! ### Padding -/

/-- Writing behind the front of a buffer. -/
theorem foldl_set_append (front back : Bytes) (f : ℕ → UInt8) (is : List ℕ) :
    is.foldl (fun buffer i => buffer.set (front.length + i) (f i)) (front ++ back) =
      front ++ is.foldl (fun buffer i => buffer.set i (f i)) back := by
  induction is generalizing back with
  | nil => rfl
  | cons i is ih =>
    rw [List.foldl_cons, List.foldl_cons, List.set_append_right _ _ (by omega), ih,
      Nat.add_sub_cancel_left]

/-- The number of zero bytes between the separator and the length. -/
def zeroBytes (length : ℕ) : ℕ := totalLength length - length - 9

theorem totalLength_eq (length : ℕ) : totalLength length = length + 1 + zeroBytes length + 8 := by
  rw [zeroBytes, totalLength]
  omega

/-- The buffer consists of the message, the separator, zeros and the length in bits. -/
theorem paddedMessage_eq (data : Bytes) : paddedMessage data =
    data ++ 0x80 :: (List.replicate (zeroBytes data.length) 0 ++ bytesBE 8 (data.length * 8)) := by
  have hset : (data ++ List.replicate (totalLength data.length - data.length) 0).set data.length
      0x80 = (data ++ 0x80 :: List.replicate (zeroBytes data.length) 0) ++ List.replicate 8 0 := by
    have htotal := totalLength_eq data.length
    rw [show totalLength data.length - data.length = zeroBytes data.length + 8 + 1 by omega,
      List.replicate_succ, List.set_append_right _ _ le_rfl, Nat.sub_self, List.set_cons_zero,
      List.replicate_add]
    simp
  have hlength : (data ++ (0x80 : UInt8) :: List.replicate (zeroBytes data.length) 0).length =
      totalLength data.length - 8 := by
    rw [totalLength_eq, List.length_append, List.length_cons, List.length_replicate]
    omega
  rw [paddedMessage, hset, ← hlength, foldl_set_append, List.append_assoc, List.cons_append]
  rfl

theorem length_paddedMessage (data : Bytes) :
    (paddedMessage data).length = totalLength data.length := by
  rw [paddedMessage_eq, totalLength_eq]
  simp [bytesBE]
  omega

/-- The bits of the buffer are the padded message of the standard. -/
theorem bits_paddedMessage (data : Bytes) : bits (paddedMessage data) = pad (bits data) := by
  have hzeros : zeros (bits data).length = 7 + 8 * zeroBytes data.length := by
    rw [zeros_eq_iff, length_bits, zeroBytes, totalLength]
    omega
  have hseparator : bitsBE 8 (0x80 : UInt8).toNat = true :: List.replicate 7 false := by decide
  rw [paddedMessage_eq, pad, hzeros, bits_append, bits_cons, hseparator, bits_append,
    bits_replicate_zero, bits_bytesBE, length_bits, Nat.mul_comm data.length,
    ← List.replicate_append_replicate, List.append_assoc, List.cons_append]

/-! ### The digest -/

theorem bits_bytes (v : Words) : bits v.bytes = v.toVars.bits := by
  have hword (w : UInt32) : bits (wordBytes w) = bitsBE 32 w.toBitVec.toNat := by
    rw [wordBytes_eq, bits_bytesBE, UInt32.toNat_toBitVec]
  rw [Words.bytes, Vars.bits]
  simp only [List.flatMap_cons, List.flatMap_nil, bits_append, hword]
  rfl

/-- The words of a block, in the buffer and in the padded message. -/
theorem blockWord_eq (padded : Bytes) {i t : ℕ} (ht : t < 16) (hi : i * 64 + 64 ≤ padded.length) :
    blockWord ((padded.drop (i * 64)).take 64) t = messageWord (bits padded) i t := by
  have hlength : (((padded.drop (i * 64)).take 64).drop (t * 4)).length = 64 - t * 4 := by
    rw [List.length_drop, List.length_take, List.length_drop]
    omega
  rw [blockWord, toBitVec_bytesToWord (by omega), messageWord,
    show 512 * i + 32 * t = 8 * (i * 64 + t * 4) by omega, drop_bits, show 32 = 8 * 4 from rfl,
    take_bits, List.drop_take, List.take_take, List.drop_drop,
    Nat.min_eq_left (by omega)]

/-- The digest is the one of the standard, on the bits of the message. -/
theorem bits_hashRaw (data : Bytes) : bits (hashRaw data).toList = sha256 (bits data) := by
  have hlength : (paddedMessage data).length / 64 = (pad (bits data)).length / 512 := by
    rw [← bits_paddedMessage, length_bits]
    omega
  have hmod : (paddedMessage data).length % 64 = 0 := by
    rw [length_paddedMessage, totalLength]
    omega
  have hblocks (n : ℕ) (hn : n ≤ (paddedMessage data).length / 64) :
      ((List.range n).foldl (fun hash i =>
        processBlock hash (((paddedMessage data).drop (i * 64)).take 64)) H0).toVars =
        (List.range n).foldl (fun H i => compress H (messageWord (pad (bits data)) i))
          Fips180.H0 := by
    induction n with
    | zero => exact H0_spec
    | succ n ih =>
      rw [List.range_succ, List.foldl_append, List.foldl_append, List.foldl_cons, List.foldl_nil,
        List.foldl_cons, List.foldl_nil, ← ih (by omega), toVars_processBlock]
      refine compress_congr (fun t ht => ?_) _
      rw [← bits_paddedMessage]
      exact blockWord_eq _ ht (by omega)
  rw [sha256, ← hlength, ← hblocks _ le_rfl, ← bits_bytes]
  rfl

end SHA256

/-- The digest of the program is the digest of the standard, and the detour through the hexadecimal
rendering gives the same 32 bytes. The standard speaks of messages of fewer than `2 ^ 61` bytes. -/
theorem sha256_standard (data : Bytes) :
    SHA256.bits (SHA256.hashRaw data).toList = sha256 (SHA256.bits data) ∧
      ECCrypto.sha256Hash data = SHA256.hashRaw data := by
  refine ⟨SHA256.bits_hashRaw data, ?_⟩
  have h := ECCrypto.hexToBytes_bytesToHex (SHA256.hashRaw data)
    (Vector.replicate ECCrypto.HASH_SIZE 0)
  exact congrArg Prod.snd h

end BlockchainCrypto
