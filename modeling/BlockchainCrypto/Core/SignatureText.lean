import BlockchainCrypto.Core.SignedPayment
import BlockchainCrypto.Crypto.Encoding

/-!
# Signature strings

`signatureFromHex` looks at the length of a string and then ignores whether `hexToBytes` succeeded.
Since `hexToBytes` writes as it reads, a string of the right length that is no hexadecimal leaves
the bytes in front of its first bad digit in the signature, with zeros behind them. Such a string is
not rejected as the zero signature is, and where a signature ends in zero bytes it even stands for
that signature: the last digits of a signed payment can be replaced by any other characters.

## Main definitions

* `ECCrypto.signatureToHex`.
* `ECCrypto.hexPairs`: the bytes that `hexToBytes` writes.
* `ECCrypto.IsSignatureHex`, `ECCrypto.KeepsRest`: the strings to accept, and the other strings of
  which something is kept.

## Main results

* `ECCrypto.toList_hexToBytesLoop`: what is left in the buffer.
* `ECCrypto.signatureFromHex_strict_iff`: the strings that are decoded strictly, and the signed
  transactions with one signature string up to letter case.
-/

namespace BlockchainCrypto

open ByteText ECCrypto

namespace ECCrypto

/-- The 128 hexadecimal digits of a signature. -/
def signatureToHex (signature : Signature) : Bytes := bytesToHex signature.toList

/-! ### What is written -/

/-- The bytes of the pairs of digits in front of the first pair that is none. -/
def hexPairs : Bytes → Bytes
  | hi :: lo :: rest =>
    match hexNibble hi, hexNibble lo with
    | some h, some l => (h <<< 4 ||| l) :: hexPairs rest
    | _, _ => []
  | _ => []

theorem length_hexPairs_le (hex : Bytes) : (hexPairs hex).length ≤ hex.length / 2 := by
  fun_induction hexPairs hex with
  | case1 hi lo rest a b hb ha ih =>
    simp only [List.length_cons]
    omega
  | case2 => exact Nat.zero_le _
  | case3 => exact Nat.zero_le _

/-- The loop writes the pairs one behind the other and leaves the rest of the buffer. -/
theorem toList_hexToBytesLoop {n : ℕ} (i : ℕ) (hex : Bytes) (output : Vector UInt8 n)
    (h : i + hex.length / 2 ≤ n) : (hexToBytesLoop i hex output).2.toList =
      output.toList.take i ++ hexPairs hex ++ output.toList.drop (i + (hexPairs hex).length) := by
  fun_induction hexToBytesLoop i hex output with
  | case1 i hi lo rest output a b hb ha ih =>
    simp only [List.length_cons] at h
    have hset : (output.setIfInBounds i (a <<< 4 ||| b)).toList =
        output.toList.set i (a <<< 4 ||| b) := by simp
    have hi : i < output.toList.length := by
      rw [Vector.length_toList]
      omega
    rw [ih (by omega), hset, hexPairs, ha, hb, List.take_succ_eq_append_getElem (by simpa using hi),
      List.take_set_of_le le_rfl, List.getElem_set_self, List.drop_set_of_lt (by omega)]
    simp only [List.length_cons, List.append_assoc, List.cons_append, List.nil_append,
      Nat.add_assoc, Nat.add_comm 1]
  | case2 i hi lo rest output hbad =>
    have hpairs : hexPairs (hi :: lo :: rest) = [] := by
      rw [hexPairs]
      split
      · next a b ha hb => exact (hbad a b ha hb).elim
      · rfl
    simp [hpairs]
  | case3 hex i output hshort =>
    have hpairs : hexPairs hex = [] := by
      unfold hexPairs
      split
      · next hi lo rest => exact (hshort hi lo rest rfl).elim
      · rfl
    simp [hpairs]

/-- A string of the right length leaves its pairs, and zeros behind them. -/
theorem toList_signatureFromHex {hex : Bytes} (h : hex.length = SIGNATURE_SIZE * 2) :
    (signatureFromHex hex).toList =
      hexPairs hex ++ List.replicate (SIGNATURE_SIZE - (hexPairs hex).length) 0 := by
  have hloop := toList_hexToBytesLoop 0 hex (Vector.replicate SIGNATURE_SIZE 0) (by
    rw [h, Nat.mul_div_cancel _ two_pos, zero_add])
  rw [signatureFromHex, if_neg (not_not.mpr h), hexToBytes, if_neg (by rw [h]; decide),
    if_neg (by rw [h]; decide), hloop, List.take_zero, List.nil_append, zero_add,
    Vector.toList_replicate, List.drop_replicate]

theorem signatureFromHex_of_length_ne {hex : Bytes} (h : hex.length ≠ SIGNATURE_SIZE * 2) :
    signatureFromHex hex = Vector.replicate SIGNATURE_SIZE 0 := if_pos h

/-! ### Pairs and digits -/

/-- The digits of whole pairs in front of the first character that is no digit. -/
def leadingPairs (hex : Bytes) : Bytes :=
  let digits := hex.takeWhile isHexDigit
  digits.take (digits.length / 2 * 2)

theorem leadingPairs_cons_cons (c d : UInt8) (rest : Bytes) : leadingPairs (c :: d :: rest) =
    if isHexDigit c = true ∧ isHexDigit d = true then c :: d :: leadingPairs rest else [] := by
  by_cases hc : isHexDigit c = true
  · by_cases hd : isHexDigit d = true
    · have hlen : ((rest.takeWhile isHexDigit).length + 1 + 1) / 2 * 2 =
          (rest.takeWhile isHexDigit).length / 2 * 2 + 1 + 1 := by omega
      rw [if_pos ⟨hc, hd⟩, leadingPairs, List.takeWhile_cons_of_pos hc,
        List.takeWhile_cons_of_pos hd]
      simp only [List.length_cons, hlen, List.take_succ_cons]
      rfl
    · rw [if_neg fun h => hd h.2, leadingPairs, List.takeWhile_cons_of_pos hc,
        List.takeWhile_cons_of_neg hd, List.length_singleton]
      rfl
  · rw [if_neg fun h => hc h.1, leadingPairs, List.takeWhile_cons_of_neg hc]
    rfl

/-- What is written is what the leading pairs say. -/
theorem bytesToHex_hexPairs (hex : Bytes) :
    bytesToHex (hexPairs hex) = (leadingPairs hex).map toLower := by
  fun_induction hexPairs hex with
  | case1 c d rest v w hd hc ih =>
    rw [leadingPairs_cons_cons, if_pos ⟨(isHexDigit_iff c).mpr ⟨v, hc⟩,
      (isHexDigit_iff d).mpr ⟨w, hd⟩⟩, bytesToHex, List.flatMap_cons, hexByte_of_hexNibble hc hd]
    rw [bytesToHex] at ih
    rw [ih]
    rfl
  | case2 c d rest hbad =>
    rw [leadingPairs_cons_cons, if_neg]
    · rfl
    · rintro ⟨hc, hd⟩
      obtain ⟨v, hv⟩ := (isHexDigit_iff c).mp hc
      obtain ⟨w, hw⟩ := (isHexDigit_iff d).mp hd
      exact hbad v w hv hw
  | case3 hex hshort =>
    rcases hex with _ | ⟨c, _ | ⟨d, rest⟩⟩
    · rfl
    · have hlen := (List.takeWhile_prefix (l := [c]) isHexDigit).length_le
      rw [List.length_singleton] at hlen
      rw [leadingPairs, Nat.div_eq_of_lt (by omega)]
      rfl
    · exact (hshort c d rest rfl).elim

theorem leadingPairs_of_digits {hex : Bytes} (heven : hex.length % 2 = 0)
    (h : ∀ c ∈ hex, isHexDigit c = true) : leadingPairs hex = hex := by
  rw [leadingPairs, List.takeWhile_eq_self_iff.mpr h]
  exact List.take_of_length_le (by omega)

/-- A pair with another character stops the reading before it. -/
theorem leadingPairs_append {hex : Bytes} (heven : hex.length % 2 = 0)
    (h : ∀ c ∈ hex, isHexDigit c = true) {c : UInt8} (hc : isHexDigit c = false) (rest : Bytes) :
    leadingPairs (hex ++ c :: rest) = hex := by
  rw [leadingPairs, List.takeWhile_append_of_pos h, List.takeWhile_cons_of_neg (by simp [hc]),
    List.append_nil]
  exact List.take_of_length_le (by omega)

theorem length_bytesToHex (data : Bytes) : (bytesToHex data).length = 2 * data.length :=
  length_flatMap_hexByte data

theorem length_leadingPairs (hex : Bytes) :
    (leadingPairs hex).length = 2 * (hexPairs hex).length := by
  rw [← List.length_map toLower, ← bytesToHex_hexPairs, length_bytesToHex]

theorem bytesToHex_replicate_zero (n : ℕ) :
    bytesToHex (List.replicate n 0) = List.replicate (2 * n) 48 := by
  induction n with
  | zero => rfl
  | succ n ih =>
    rw [bytesToHex] at ih
    rw [List.replicate_succ, bytesToHex, List.flatMap_cons, ih]
    rfl

/-- The bytes are zero when the digits are. -/
theorem hexPairs_eq_replicate_iff (hex : Bytes) :
    hexPairs hex = List.replicate (hexPairs hex).length 0 ↔ ∀ c ∈ leadingPairs hex, c = 48 := by
  have hmap : (∀ c ∈ leadingPairs hex, c = 48) ↔
      (leadingPairs hex).map toLower = List.replicate (2 * (hexPairs hex).length) 48 := by
    rw [List.eq_replicate_iff, List.length_map, length_leadingPairs]
    simp [toLower_eq_zero_iff]
  rw [hmap, ← bytesToHex_hexPairs, ← bytesToHex_replicate_zero]
  exact ⟨fun h => congrArg bytesToHex h, fun h => flatMap_hexByte_inj h⟩

/-! ### Strict decoding -/

/-- The strings that a signature is written as, in either case. -/
def IsSignatureHex (hex : Bytes) : Prop :=
  hex.length = SIGNATURE_SIZE * 2 ∧ ∀ c ∈ hex, isHexDigit c = true

/-- What strict decoding makes of a string: a signature that is written as this string, or the zero
signature. -/
def DecodedStrictly (hex : Bytes) : Prop :=
  (IsSignatureHex hex → signatureToHex (signatureFromHex hex) = hex.map toLower) ∧
    (¬ IsSignatureHex hex → signatureFromHex hex = Vector.replicate SIGNATURE_SIZE 0)

/-- The string has the right length and a character that is no digit, and of the pairs of digits in
front of that character one is not `00`. -/
def KeepsRest (hex : Bytes) : Prop :=
  hex.length = SIGNATURE_SIZE * 2 ∧ (∃ c ∈ hex, isHexDigit c = false) ∧
    ∃ c ∈ leadingPairs hex, c ≠ 48

theorem signatureToHex_signatureFromHex {hex : Bytes} (h : IsSignatureHex hex) :
    signatureToHex (signatureFromHex hex) = hex.map toLower := by
  have hpairs := leadingPairs_of_digits (by rw [h.1]; decide) h.2
  have hlength := length_leadingPairs hex
  rw [hpairs, h.1] at hlength
  rw [signatureToHex, toList_signatureFromHex h.1, Nat.sub_eq_zero_of_le (by omega),
    List.replicate_zero, List.append_nil, bytesToHex_hexPairs, hpairs]

theorem signatureFromHex_signatureToHex (signature : Signature) :
    signatureFromHex (signatureToHex signature) = signature := by
  have hlength : (signatureToHex signature).length = SIGNATURE_SIZE * 2 := by
    rw [signatureToHex, length_bytesToHex, Vector.length_toList, Nat.mul_comm]
  rw [signatureFromHex, if_neg (not_not.mpr hlength), signatureToHex, hexToBytes_bytesToHex]

/-- The zero signature is what a string of the right length leaves when its leading pairs are
zero. -/
theorem signatureFromHex_eq_zero_iff {hex : Bytes} (h : hex.length = SIGNATURE_SIZE * 2) :
    signatureFromHex hex = Vector.replicate SIGNATURE_SIZE 0 ↔
      ∀ c ∈ leadingPairs hex, c = 48 := by
  have hle := length_hexPairs_le hex
  rw [h] at hle
  rw [← hexPairs_eq_replicate_iff, ← Vector.toList_inj, toList_signatureFromHex h,
    Vector.toList_replicate]
  constructor
  · intro hzero
    have htake := congrArg (List.take (hexPairs hex).length) hzero
    rwa [List.take_left, List.take_replicate, Nat.min_eq_left (by omega)] at htake
  · intro hzero
    rw [hzero, List.length_replicate, List.replicate_append_replicate]
    exact congrArg (List.replicate · 0) (by omega)

theorem decodedStrictly_iff (hex : Bytes) : DecodedStrictly hex ↔ ¬ KeepsRest hex := by
  constructor
  · rintro hstrict ⟨hlength, ⟨c, hc, hbad⟩, d, hd, hne⟩
    have hzero := hstrict.2 fun h => by simp [h.2 c hc] at hbad
    exact hne ((signatureFromHex_eq_zero_iff hlength).mp hzero d hd)
  · refine fun hkeeps => ⟨signatureToHex_signatureFromHex, fun hno => ?_⟩
    by_cases hlength : hex.length = SIGNATURE_SIZE * 2
    · rw [signatureFromHex_eq_zero_iff hlength]
      by_contra! hne
      refine hkeeps ⟨hlength, ?_, hne⟩
      by_contra! hdigits
      exact hno ⟨hlength, fun c hc => by simpa using hdigits c hc⟩
    · exact signatureFromHex_of_length_ne hlength

/-- The zero signature is rejected. -/
theorem verifySignature_zero (hash : Hash) (publicKey : PublicKey) :
    verifySignature hash (Vector.replicate SIGNATURE_SIZE 0) publicKey = false := by
  have hs : bytes32ToBigInt ((Vector.replicate SIGNATURE_SIZE (0 : UInt8)).toList.drop 32) ≤ 0 := by
    decide +kernel
  unfold verifySignature verifySignatureBy
  exact if_pos (.inl hs)

end ECCrypto

/-! ### Signature strings of a transaction -/

namespace Transaction

variable {tx : Transaction} {publicKeyHex hex hex' : Bytes}

/-- The signature string of a transaction counts through what it decodes to. -/
theorem verifySignature_iff : tx.verifySignature publicKeyHex = true ↔ tx.signature ≠ [] ∧
    ∃ publicKey, parsePublicKey publicKeyHex = some publicKey ∧ isValidPublicKey publicKey = true ∧
      verifyMessageSignature tx.getTransactionData (signatureFromHex tx.signature) publicKey =
        true := by
  rw [verifySignature]
  cases parsePublicKey publicKeyHex with
  | none => simp
  | some publicKey => simp [verifySignatureWithKey]

theorem signatureFromHex_ne_zero (h : tx.verifySignature publicKeyHex = true) :
    signatureFromHex tx.signature ≠ Vector.replicate SIGNATURE_SIZE 0 := by
  obtain ⟨-, publicKey, -, -, hverify⟩ := verifySignature_iff.mp h
  rintro hzero
  rw [hzero, verifyMessageSignature, verifySignature_zero] at hverify
  cases hverify

theorem signature_length (h : tx.verifySignature publicKeyHex = true) :
    tx.signature.length = SIGNATURE_SIZE * 2 := by
  by_contra hlength
  exact signatureFromHex_ne_zero h (signatureFromHex_of_length_ne hlength)

/-- Another string for the same signature. -/
theorem verifySignature_of_signatureFromHex (h : tx.verifySignature publicKeyHex = true)
    (hsame : signatureFromHex hex = signatureFromHex tx.signature) :
    ({ tx with signature := hex } : Transaction).verifySignature publicKeyHex = true := by
  have hne := signatureFromHex_ne_zero h
  obtain ⟨-, publicKey, hkey, hvalid, hverify⟩ := verifySignature_iff.mp h
  refine verifySignature_iff.mpr ⟨?_, publicKey, hkey, hvalid, ?_⟩
  · rintro rfl
    exact hne (hsame.symm.trans (signatureFromHex_of_length_ne (by decide)))
  · rw [hsame]
    exact hverify

end Transaction

namespace ECCrypto

/-- A string that leaves its last byte unwritten stands for a signature that ends in a zero byte. -/
theorem suffix_of_not_isSignatureHex {hex : Bytes} (h : hex.length = SIGNATURE_SIZE * 2)
    (hno : ¬ IsSignatureHex hex) : [48, 48] <:+ signatureToHex (signatureFromHex hex) := by
  have hlt : (hexPairs hex).length < SIGNATURE_SIZE := by
    by_contra! hge
    have hprefix : leadingPairs hex <+: hex :=
      (List.take_prefix ..).trans (List.takeWhile_prefix _)
    have heq := hprefix.eq_of_length_le (by rw [length_leadingPairs, h]; omega)
    refine hno ⟨h, fun c hc => ?_⟩
    rw [← heq] at hc
    exact List.mem_takeWhile_imp (List.mem_of_mem_take hc)
  obtain ⟨k, hk⟩ := Nat.exists_eq_add_of_lt hlt
  rw [signatureToHex, toList_signatureFromHex h, show SIGNATURE_SIZE - (hexPairs hex).length = k + 1
    by omega, List.replicate_succ', bytesToHex, ← List.append_assoc, List.flatMap_append]
  exact List.suffix_append _ _

/-- A string of digits that ends in a zero byte can be ended otherwise. -/
theorem signatureFromHex_append_bad {hex : Bytes} (h : IsSignatureHex (hex ++ [48, 48])) :
    signatureFromHex (hex ++ [122, 122]) = signatureFromHex (hex ++ [48, 48]) := by
  have hlength : hex.length + 2 = SIGNATURE_SIZE * 2 := by simpa using h.1
  have hdigits : ∀ c ∈ hex, isHexDigit c = true := fun c hc => h.2 c (List.mem_append_left _ hc)
  have hlow := leadingPairs_append (by omega) hdigits (c := 122) (by decide) [122]
  have hpairs := leadingPairs_of_digits (by rw [h.1]; decide) h.2
  have hbytes := bytesToHex_hexPairs (hex ++ [48, 48])
  have hrest := bytesToHex_hexPairs (hex ++ [122, 122])
  rw [hlow] at hrest
  rw [hpairs, List.map_append, ← hrest] at hbytes
  have hzero : hexPairs (hex ++ [48, 48]) = hexPairs (hex ++ [122, 122]) ++ [0] := by
    refine flatMap_hexByte_inj (hbytes.trans ?_)
    rw [List.flatMap_append]
    rfl
  have hcount := length_leadingPairs (hex ++ [122, 122])
  rw [hlow] at hcount
  rw [← Vector.toList_inj, toList_signatureFromHex (by simpa using hlength),
    toList_signatureFromHex h.1, hzero, List.length_append, List.length_singleton,
    List.append_assoc, List.singleton_append, ← List.replicate_succ]
  exact congrArg (fun n => _ ++ List.replicate n 0) (by omega)

/-- A strictly decoded signature string is the only one up to letter case when it does not end in a
zero byte: another string of the signature would have to leave a byte unwritten. -/
theorem toLower_eq_of_signatureFromHex_eq {hex hex' : Bytes} (h : IsSignatureHex hex)
    (hne : signatureFromHex hex ≠ Vector.replicate SIGNATURE_SIZE 0) (hend : ¬ [48, 48] <:+ hex)
    (hsame : signatureFromHex hex' = signatureFromHex hex) :
    hex'.map toLower = hex.map toLower := by
  have hlower := signatureToHex_signatureFromHex h
  by_cases h' : IsSignatureHex hex'
  · rw [← hlower, ← hsame, signatureToHex_signatureFromHex h']
  · have hlength : hex'.length = SIGNATURE_SIZE * 2 := by
      by_contra hlength
      exact hne (hsame.symm.trans (signatureFromHex_of_length_ne hlength))
    have hsuffix := suffix_of_not_isSignatureHex hlength h'
    rw [hsame, hlower] at hsuffix
    obtain ⟨front, hfront⟩ := hsuffix
    obtain ⟨l, r, rfl, -, hr⟩ := List.append_eq_map_iff.mp hfront
    refine absurd ⟨l, ?_⟩ hend
    obtain ⟨c, r, rfl, hc, hr⟩ := List.map_eq_cons_iff.mp hr
    obtain ⟨d, r, rfl, hd, hr⟩ := List.map_eq_cons_iff.mp hr
    rw [(toLower_eq_zero_iff c).mp hc, (toLower_eq_zero_iff d).mp hd, List.map_eq_nil_iff.mp hr]

end ECCrypto

/-- The signed transactions that have one signature string up to letter case: the string is decoded
strictly and does not end in a zero byte. -/
theorem Transaction.one_signature_iff {tx : Transaction} {publicKeyHex : Bytes}
    (h : tx.verifySignature publicKeyHex = true) :
    (∀ hex, ({ tx with signature := hex } : Transaction).verifySignature publicKeyHex = true →
      signatureFromHex hex = signatureFromHex tx.signature →
        hex.map toLower = tx.signature.map toLower) ↔
      ¬ KeepsRest tx.signature ∧ ¬ [48, 48] <:+ tx.signature := by
  have hne := signatureFromHex_ne_zero h
  constructor
  · intro hone
    have hall {hex : Bytes} (hsame : signatureFromHex hex = signatureFromHex tx.signature) :=
      hone hex (verifySignature_of_signatureFromHex h hsame) hsame
    -- the rendering of the signature consists of digits
    have hdigits : IsSignatureHex tx.signature := by
      have hlower := hall (signatureFromHex_signatureToHex _)
      refine ⟨signature_length h, fun c hc => ?_⟩
      have hmem := List.mem_map_of_mem (f := toLower) hc
      rw [← hlower, List.mem_map] at hmem
      obtain ⟨d, hd, heq⟩ := hmem
      rw [← isHexDigit_toLower, ← heq, isHexDigit_toLower]
      exact isHexDigit_of_mem_bytesToHex hd
    constructor
    · rintro ⟨-, ⟨c, hc, hbad⟩, -⟩
      simp [hdigits.2 c hc] at hbad
    · rintro ⟨front, hfront⟩
      rw [← hfront] at hdigits
      have hlower := hall ((signatureFromHex_append_bad hdigits).trans (by rw [hfront]))
      rw [← hfront, List.map_append, List.map_append, List.append_cancel_left_eq] at hlower
      exact absurd hlower (by decide)
  · rintro ⟨hkeeps, hend⟩ hex - hsame
    have hdigits : IsSignatureHex tx.signature := by
      by_contra hno
      exact hne (((decodedStrictly_iff _).mpr hkeeps).2 hno)
    exact toLower_eq_of_signatureFromHex_eq hdigits hne hend hsame

/-- Which strings are decoded strictly, with the zero signature rejected, and which transactions
have one signature string up to letter case. -/
theorem signatureFromHex_strict_iff (hex : Bytes) :
    (DecodedStrictly hex ↔ ¬ KeepsRest hex) ∧
    (∀ hash publicKey,
      verifySignature hash (Vector.replicate SIGNATURE_SIZE 0) publicKey = false) ∧
    ∀ (tx : Transaction) (publicKeyHex : Bytes), tx.signature = hex →
      tx.verifySignature publicKeyHex = true →
      ((∀ hex', ({ tx with signature := hex' } : Transaction).verifySignature publicKeyHex = true →
          signatureFromHex hex' = signatureFromHex hex →
            hex'.map toLower = hex.map toLower) ↔
        ¬ KeepsRest hex ∧ ¬ [48, 48] <:+ hex) := by
  refine ⟨decodedStrictly_iff hex, verifySignature_zero, ?_⟩
  rintro tx publicKeyHex rfl hverify
  exact Transaction.one_signature_iff hverify

/-! ### A payment with two signature strings -/

/-- A signature whose last byte is zero, without this byte. -/
def shortSignature : Bytes :=
  [0xea, 0xa2, 0x97, 0x24, 0x74, 0x06, 0xf8, 0x24, 0x8e, 0x79, 0xcf, 0x65, 0xce, 0xd4, 0x9d, 0x39,
   0x54, 0x16, 0x34, 0x1e, 0xc1, 0xbc, 0x46, 0xa7, 0x0b, 0x71, 0xd4, 0x22, 0x1f, 0x4f, 0xd3, 0x9f,
   0x82, 0xbf, 0x59, 0xdf, 0x16, 0x88, 0xd8, 0xa3, 0x08, 0x3d, 0x98, 0x50, 0x3f, 0x6d, 0x5e, 0x8e,
   0xfc, 0x3b, 0x01, 0x5d, 0x30, 0xd3, 0x19, 0x9b, 0x3c, 0xaa, 0xf2, 0xf9, 0x6d, 0x6b, 0xf6]

/-- A payment to Bob with this signature, whose last two characters are given. -/
def paymentEndingIn (last : String) : Transaction :=
  payment (ascii "bob") 1 (bytesToHex shortSignature ++ ascii last)

/-- The payment is signed with its last byte written as zeros. -/
theorem signed_paymentEndingIn_zero : (paymentEndingIn "00").Signed payerKey
    (signatureFromHex (bytesToHex shortSignature ++ ascii "00")) where
  key_eq := signed_paymentToBob.key_eq
  address_eq := signed_paymentToBob.address_eq
  key_valid := signed_paymentToBob.key_valid
  length_eq := by decide +kernel
  signature_eq := rfl
  verifies := by decide +kernel

/-- And with two characters that are no digits in their place. -/
theorem signed_paymentEndingIn_junk : (paymentEndingIn "zz").Signed payerKey
    (signatureFromHex (bytesToHex shortSignature ++ ascii "00")) where
  key_eq := signed_paymentToBob.key_eq
  address_eq := signed_paymentToBob.address_eq
  key_valid := signed_paymentToBob.key_valid
  length_eq := by decide +kernel
  signature_eq := by decide +kernel
  verifies := signed_paymentEndingIn_zero.verifies

/-- A string that is no hexadecimal but stands for a signature that is not zero, and a valid payment
that stays valid with the last two digits of its signature replaced by other characters. -/
theorem signatureFromHex_keeps_rest :
    ¬ DecodedStrictly (ascii "01" ++ List.replicate 126 122) ∧
    (paymentEndingIn "00").isValid = true ∧ (paymentEndingIn "zz").isValid = true ∧
      (paymentEndingIn "zz").signature.map toLower ≠
        (paymentEndingIn "00").signature.map toLower := by
  refine ⟨?_, ?_, ?_, ?_⟩
  · rw [decodedStrictly_iff, not_not]
    exact ⟨by decide +kernel, ⟨122, by decide +kernel, by decide⟩, 49, by decide +kernel, by decide⟩
  · exact Transaction.isValid_of_signed (by decide) (by decide) (by decide) (by decide)
      signed_paymentEndingIn_zero
  · exact Transaction.isValid_of_signed (by decide) (by decide) (by decide) (by decide)
      signed_paymentEndingIn_junk
  · decide +kernel

end BlockchainCrypto
