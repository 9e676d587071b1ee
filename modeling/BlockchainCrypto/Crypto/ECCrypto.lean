import BlockchainCrypto.Crypto.ECPoint
import BlockchainCrypto.Crypto.Sha256

/-!
# Keys and signatures

The parts of `ECCrypto.cpp` that validation rests on: strict hexadecimal decoding into a fixed
buffer, the 32-byte encoding of integers, compressed public keys with the square root modulo the
field prime, addresses, and the verification equation of signatures.

Arrays of the source are vectors of the same length. `hexToBytes` writes into a buffer and may
stop half way, so it returns the buffer together with the count.

## Main definitions

* `ECCrypto.hexToBytes`, `ECCrypto.bytesToHex`.
* `ECCrypto.bigIntToBytes32`, `ECCrypto.bytes32ToBigInt`.
* `ECCrypto.decompressPublicKey`, `ECCrypto.isValidPublicKey`, `ECCrypto.deriveAddress`.
* `ECCrypto.verifySignature`, `ECCrypto.verifyMessageSignature`.

## Main results

* `ECCrypto.isHexDigit_of_mem_deriveAddress`: an address consists of hexadecimal digits.
* `ECCrypto.isHexDigit_of_hexToBytes`: so does a string that decodes in full.
-/

namespace BlockchainCrypto

open ByteText

namespace ECCrypto

/-- The bytes of a compressed point. -/
abbrev PUBLIC_KEY_SIZE : ℕ := 33

/-- The bytes of a signature, two numbers of 32. -/
abbrev SIGNATURE_SIZE : ℕ := 64

/-- The bytes of a digest. -/
abbrev HASH_SIZE : ℕ := 32

/-- A digest. -/
abbrev Hash := Vector UInt8 HASH_SIZE

/-- The numbers `R.x` and `s`, 32 bytes each. -/
abbrev Signature := Vector UInt8 SIGNATURE_SIZE

/-- A compressed point. -/
abbrev PublicKey := Vector UInt8 PUBLIC_KEY_SIZE

/-- The first byte of a point with an even ordinate. -/
def COMPRESSED_EVEN_PREFIX : UInt8 := 0x02

/-- The first byte of a point with an odd ordinate. -/
def COMPRESSED_ODD_PREFIX : UInt8 := 0x03

/-! ### Hexadecimal text -/

/-- Two hexadecimal digits for each byte. -/
def bytesToHex (data : Bytes) : Bytes := data.flatMap hexByte

/-- The value of a hexadecimal digit; the source returns `-1` for any other character. -/
def hexNibble (c : UInt8) : Option UInt8 :=
  if 48 ≤ c ∧ c ≤ 57 then some (c - 48)
  else if 97 ≤ c ∧ c ≤ 102 then some (c - 97 + 10)
  else if 65 ≤ c ∧ c ≤ 70 then some (c - 65 + 10)
  else none

/-- The loop of `hexToBytes` from output position `i` on: whether it reached the end, and the
buffer. A bad digit leaves what was already written in the buffer. -/
def hexToBytesLoop {n : ℕ} : ℕ → Bytes → Vector UInt8 n → Bool × Vector UInt8 n
  | i, hi :: lo :: rest, output =>
    match hexNibble hi, hexNibble lo with
    | some h, some l => hexToBytesLoop (i + 1) rest (output.setIfInBounds i (h <<< 4 ||| l))
    | _, _ => (false, output)
  | _, _, output => (true, output)

/-- The number of bytes decoded, zero for a failure, and the buffer. -/
def hexToBytes {maxSize : ℕ} (hex : Bytes) (output : Vector UInt8 maxSize) :
    ℕ × Vector UInt8 maxSize :=
  if hex.length % 2 ≠ 0 then (0, output)
  else if hex.length / 2 > maxSize then (0, output)
  else
    let (ok, output) := hexToBytesLoop 0 hex output
    (if ok then hex.length / 2 else 0, output)

/-- The digest, decoded from its hexadecimal digits. -/
def sha256Hash (message : Bytes) : Hash :=
  (hexToBytes (SHA256.hash message) (Vector.replicate HASH_SIZE 0)).2

/-! ### Integers as 32 bytes -/

/-- The hexadecimal digits that `bigIntToBytes32` collects; none for a negative number. -/
def hexDigits (num : ℤ) : Bytes :=
  if 0 ≤ num then (Nat.toDigits 16 num.toNat).map charByte else []

/-- The 32 bytes of a number, the highest first. -/
def bigIntToBytes32 (num : ℤ) : Bytes :=
  let hex := hexDigits num
  let padded := List.replicate (64 - hex.length) 48 ++ hex
  (List.range 32).map fun i =>
    (hexNibble (padded.getD (i * 2) 0)).getD 0 <<< 4 |||
      (hexNibble (padded.getD (i * 2 + 1) 0)).getD 0

/-- The value of a string of hexadecimal digits. -/
def ofHexDigits (hex : Bytes) : ℤ :=
  hex.foldl (fun v c => 16 * v + ((hexNibble c).getD 0).toNat) 0

/-- The number of the first 32 bytes. -/
def bytes32ToBigInt (data : Bytes) : ℤ := ofHexDigits (bytesToHex (data.take 32))

/-! ### Public keys -/

/-- The loop of `modPow` over the binary digits of the exponent, least significant first. -/
def modPowLoop (mod : ℤ) : Bytes → ℤ → ℤ → ℤ
  | [], result, _ => result
  | digit :: digits, result, b =>
    modPowLoop mod digits (if digit = 49 then result * b % mod else result)
      (if digits = [] then b else b * b % mod)

/-- The power modulo `mod`, by squaring. -/
def modPow (base exp mod : ℤ) : ℤ :=
  if exp = 0 then 1 else modPowLoop mod (toBinaryString exp).reverse 1 (base % mod)

/-- The square root modulo a prime that is 3 modulo 4, zero when there is none. -/
def modSqrt (n p : ℤ) : ℤ :=
  if n = 0 then 0
  else if modPow n ((p - 1) / 2) p ≠ 1 then 0
  else modPow n ((p + 1) / 4) p

/-- The point of a compressed key, or infinity where there is none. -/
def decompressPublicKey (compressedKey : PublicKey) : ECPoint :=
  if compressedKey[0] ≠ COMPRESSED_EVEN_PREFIX ∧ compressedKey[0] ≠ COMPRESSED_ODD_PREFIX then
    G.pointAtInfinity
  else
    let x := bytes32ToBigInt (compressedKey.toList.drop 1)
    if x < 0 ∨ x ≥ secp256k1.P then G.pointAtInfinity
    else
      let xCubed := x * x * x % secp256k1.P
      let ySquared := (xCubed + secp256k1.B) % secp256k1.P
      let y := modSqrt ySquared secp256k1.P
      if y = 0 ∧ ySquared ≠ 0 then G.pointAtInfinity
      else
        let yIsEven := decide (y % 2 = 0)
        let needEven := decide (compressedKey[0] = COMPRESSED_EVEN_PREFIX)
        let y := if yIsEven ≠ needEven then secp256k1.P - y else y
        ⟨x, y, secp256k1.P, secp256k1.A, secp256k1.B, false⟩

/-- The key is that of a point. -/
def isValidPublicKey (publicKey : PublicKey) : Bool :=
  if publicKey[0] ≠ COMPRESSED_EVEN_PREFIX ∧ publicKey[0] ≠ COMPRESSED_ODD_PREFIX then false
  else !(decompressPublicKey publicKey).isInfinity

/-- The first 20 bytes of the SHA-256 of the public key, in hexadecimal. -/
def deriveAddress (publicKey : PublicKey) : Bytes :=
  bytesToHex ((sha256Hash publicKey.toList).toList.take 20)

/-! ### Signatures -/

/-- An all-zero signature unless the length is right; a bad digit leaves the bytes in front of it
in place. -/
def signatureFromHex (hex : Bytes) : Signature :=
  let result : Signature := Vector.replicate SIGNATURE_SIZE 0
  if hex.length ≠ SIGNATURE_SIZE * 2 then result else (hexToBytes hex result).2

/-- The challenge `SHA256(R.x || P.x || hash)` as a scalar. -/
def challenge (rx px : ℤ) (hash : Hash) : ℤ :=
  bytes32ToBigInt (sha256Hash (bigIntToBytes32 rx ++ bigIntToBytes32 px ++ hash.toList)).toList %
    secp256k1.N

/-- `verifySignature`, with scalar multiples by a given function. -/
def verifySignatureBy (mul : ECPoint → ℤ → ECPoint) (hash : Hash) (signature : Signature)
    (publicKey : PublicKey) : Bool :=
  let rx := bytes32ToBigInt signature.toList
  let s := bytes32ToBigInt (signature.toList.drop 32)
  if s ≤ 0 ∨ s ≥ secp256k1.N then false
  else if rx ≤ 0 ∨ rx ≥ secp256k1.P then false
  else
    let Q := decompressPublicKey publicKey
    if Q.isInfinity then false
    else
      let e := challenge rx Q.x hash
      let sG := mul G s
      let eP := mul Q e
      let negEP :=
        if !eP.isInfinity then
          ⟨eP.x, secp256k1.P - eP.y, secp256k1.P, secp256k1.A, secp256k1.B, false⟩
        else eP
      let computedR := sG.add negEP
      if computedR.isInfinity then false else computedR.x = rx

/-- The verdict on a signature of a digest. -/
def verifySignature (hash : Hash) (signature : Signature) (publicKey : PublicKey) : Bool :=
  verifySignatureBy ECPoint.mul hash signature publicKey

/-- The verdict on a signature of a message. -/
def verifyMessageSignature (message : Bytes) (signature : Signature) (publicKey : PublicKey) :
    Bool :=
  verifySignature (sha256Hash message) signature publicKey

/-! ### Hexadecimal digits -/

theorem isHexDigit_of_mem_bytesToHex {data : Bytes} {c : UInt8} (hc : c ∈ bytesToHex data) :
    isHexDigit c = true := by
  obtain ⟨b, -, hc⟩ := List.mem_flatMap.mp hc
  exact isHexDigit_of_mem_hexByte hc

theorem isHexDigit_of_mem_deriveAddress {publicKey : PublicKey} {c : UInt8}
    (hc : c ∈ deriveAddress publicKey) : isHexDigit c = true :=
  isHexDigit_of_mem_bytesToHex hc

theorem isHexDigit_of_hexNibble {c v : UInt8} (h : hexNibble c = some v) : isHexDigit c = true := by
  rw [hexNibble] at h
  simp only [isHexDigit, isDigit, Bool.or_eq_true, Bool.and_eq_true, decide_eq_true_eq]
  split_ifs at h with h1 h2 h3
  · exact .inl (.inl h1)
  · exact .inl (.inr h2)
  · exact .inr h3

private theorem isHexDigit_of_hexToBytesLoop {n : ℕ} (i : ℕ) (hex : Bytes) (output : Vector UInt8 n)
    (heven : hex.length % 2 = 0) (h : (hexToBytesLoop i hex output).1 = true) :
    ∀ c ∈ hex, isHexDigit c = true := by
  fun_induction hexToBytesLoop i hex output with
  | case1 i hi lo rest output a b hb ha ih =>
    have hrest := ih (by simp only [List.length_cons] at heven; omega) h
    simp only [List.mem_cons]
    rintro c (rfl | rfl | hc)
    · exact isHexDigit_of_hexNibble ha
    · exact isHexDigit_of_hexNibble hb
    · exact hrest c hc
  | case2 => cases h
  | case3 hex i output hshort =>
    match hex with
    | [] => simp
    | [c] => simp at heven
    | a :: b :: rest => exact (hshort a b rest rfl).elim

/-- A string that decodes in full consists of hexadecimal digits. -/
theorem isHexDigit_of_hexToBytes {n : ℕ} {hex : Bytes} {output : Vector UInt8 n} (hn : 0 < n)
    (h : (hexToBytes hex output).1 = n) : ∀ c ∈ hex, isHexDigit c = true := by
  unfold hexToBytes at h
  split_ifs at h with hodd hlong
  · omega
  · omega
  · dsimp only at h
    split_ifs at h with hok
    · exact isHexDigit_of_hexToBytesLoop 0 hex output (by omega) hok
    · omega

end ECCrypto

end BlockchainCrypto
