import BlockchainCrypto.Text.Bytes

/-!
# SHA-256

The hash function of `sha.cpp`, word by word: the message schedule and the 64 rounds of
`processBlock`, the padding and the block loop of `hashRaw`, and the lowercase hexadecimal
rendering of `hash`. The message is padded in place: a zeroed buffer receives the message, the
separator byte and the eight length bytes.

## Main definitions

* `SHA256.processBlock`: the compression of one 64-byte block.
* `SHA256.hashRaw`: the digest as 32 bytes.
* `SHA256.hash`: the digest in hexadecimal.

## Main results

* `SHA256.length_hash`, `SHA256.isHexDigit_of_mem_hash`: a rendered digest has 64 hexadecimal
  digits.
-/

namespace BlockchainCrypto

open ByteText

/-- The two lowercase hexadecimal digits of a byte. -/
def hexByte (b : UInt8) : Bytes := [hexDigit (b / 16), hexDigit (b % 16)]
where
  /-- The digit of a value below 16. -/
  hexDigit (v : UInt8) : UInt8 := if v < 10 then 48 + v else 87 + v

theorem length_flatMap_hexByte (bs : Bytes) : (bs.flatMap hexByte).length = 2 * bs.length := by
  induction bs with
  | nil => rfl
  | cons b bs ih => simp only [List.flatMap_cons, List.length_append, ih, hexByte,
      List.length_cons, List.length_nil]; omega

theorem isHexDigit_of_mem_hexByte {b c : UInt8} (hc : c ∈ hexByte b) : isHexDigit c = true := by
  have hall : ∀ b : UInt8, (hexByte b).all isHexDigit = true := forall_byte (by decide +kernel)
  exact List.all_eq_true.mp (hall b) c hc

namespace SHA256

/-- A digest of 32 bytes. -/
abbrev Digest := Vector UInt8 32

/-- Rotation to the right. -/
def rotr (x : UInt32) (n : UInt32) : UInt32 := (x >>> n) ||| (x <<< (32 - n))

/-- The round constants. -/
def K : List UInt32 := [
  0x428a2f98, 0x71374491, 0xb5c0fbcf, 0xe9b5dba5, 0x3956c25b, 0x59f111f1, 0x923f82a4, 0xab1c5ed5,
  0xd807aa98, 0x12835b01, 0x243185be, 0x550c7dc3, 0x72be5d74, 0x80deb1fe, 0x9bdc06a7, 0xc19bf174,
  0xe49b69c1, 0xefbe4786, 0x0fc19dc6, 0x240ca1cc, 0x2de92c6f, 0x4a7484aa, 0x5cb0a9dc, 0x76f988da,
  0x983e5152, 0xa831c66d, 0xb00327c8, 0xbf597fc7, 0xc6e00bf3, 0xd5a79147, 0x06ca6351, 0x14292967,
  0x27b70a85, 0x2e1b2138, 0x4d2c6dfc, 0x53380d13, 0x650a7354, 0x766a0abb, 0x81c2c92e, 0x92722c85,
  0xa2bfe8a1, 0xa81a664b, 0xc24b8b70, 0xc76c51a3, 0xd192e819, 0xd6990624, 0xf40e3585, 0x106aa070,
  0x19a4c116, 0x1e376c08, 0x2748774c, 0x34b0bcb5, 0x391c0cb3, 0x4ed8aa4a, 0x5b9cca4f, 0x682e6ff3,
  0x748f82ee, 0x78a5636f, 0x84c87814, 0x8cc70208, 0x90befffa, 0xa4506ceb, 0xbef9a3f7, 0xc67178f2]

/-- Eight words: the chaining value `hash[0..7]`, and the variables `a` to `h` of a round. -/
structure Words where
  a : UInt32
  b : UInt32
  c : UInt32
  d : UInt32
  e : UInt32
  f : UInt32
  g : UInt32
  h : UInt32

/-- The initial chaining value. -/
def H0 : Words :=
  ⟨0x6a09e667, 0xbb67ae85, 0x3c6ef372, 0xa54ff53a, 0x510e527f, 0x9b05688c, 0x1f83d9ab, 0x5be0cd19⟩

/-- The choice between two words, bit by bit. -/
def ch (x y z : UInt32) : UInt32 := (x &&& y) ^^^ (~~~x &&& z)

/-- The majority of three words, bit by bit. -/
def maj (x y z : UInt32) : UInt32 := (x &&& y) ^^^ (x &&& z) ^^^ (y &&& z)

/-- Three rotations of the working variable `a`. -/
def sig0 (x : UInt32) : UInt32 := rotr x 2 ^^^ rotr x 13 ^^^ rotr x 22

/-- Three rotations of the working variable `e`. -/
def sig1 (x : UInt32) : UInt32 := rotr x 6 ^^^ rotr x 11 ^^^ rotr x 25

/-- The first function of the message schedule. -/
def sigma0 (x : UInt32) : UInt32 := rotr x 7 ^^^ rotr x 18 ^^^ (x >>> 3)

/-- The second function of the message schedule. -/
def sigma1 (x : UInt32) : UInt32 := rotr x 17 ^^^ rotr x 19 ^^^ (x >>> 10)

/-- The big-endian word at the front of a byte sequence. -/
def bytesToWord (bytes : Bytes) : UInt32 :=
  (bytes.getD 0 0).toUInt32 <<< 24 ||| (bytes.getD 1 0).toUInt32 <<< 16 |||
    (bytes.getD 2 0).toUInt32 <<< 8 ||| (bytes.getD 3 0).toUInt32

/-- The message schedule `w[0..63]` of a block. The words are collected latest first, so that
`w[i - 2]` is at position 1. -/
def schedule (block : Bytes) : List UInt32 :=
  let w := ((List.range 16).map fun i => bytesToWord (block.drop (i * 4))).reverse
  ((List.range' 16 48).foldl
    (fun w _ => (sigma1 (w.getD 1 0) + w.getD 6 0 + sigma0 (w.getD 14 0) + w.getD 15 0) :: w)
    w).reverse

/-- One round, with its constant and its schedule word. -/
def round (v : Words) (kw : UInt32 × UInt32) : Words :=
  let t1 := v.h + sig1 v.e + ch v.e v.f v.g + kw.1 + kw.2
  let t2 := sig0 v.a + maj v.a v.b v.c
  ⟨t1 + t2, v.a, v.b, v.c, v.d + t1, v.e, v.f, v.g⟩

/-- The hash words after a block of 64 bytes. -/
def processBlock (hash : Words) (block : Bytes) : Words :=
  let v := (K.zip (schedule block)).foldl round hash
  ⟨hash.a + v.a, hash.b + v.b, hash.c + v.c, hash.d + v.d, hash.e + v.e, hash.f + v.f,
    hash.g + v.g, hash.h + v.h⟩

/-- The padded size: message, separator byte and length field, rounded up to whole blocks. -/
def totalLength (length : ℕ) : ℕ := (length + 1 + 8 + 63) / 64 * 64

/-- The buffer `paddedMessage`, written in the order of the source. -/
def paddedMessage (data : Bytes) : Bytes :=
  let total := totalLength data.length
  let copied := data ++ List.replicate (total - data.length) 0
  let separated := copied.set data.length 0x80
  (List.range 8).foldl
    (fun buffer i =>
      buffer.set (total - 8 + i) (UInt8.ofNat ((data.length * 8) >>> (56 - i * 8))))
    separated

/-- The bytes of a word, most significant first. -/
def wordBytes (w : UInt32) : Bytes :=
  [(w >>> 24).toUInt8, (w >>> 16).toUInt8, (w >>> 8).toUInt8, w.toUInt8]

/-- The bytes of a chaining value. -/
def Words.bytes (v : Words) : Bytes :=
  [v.a, v.b, v.c, v.d, v.e, v.f, v.g, v.h].flatMap wordBytes

/-- The digest of a message. -/
def hashRaw (data : Bytes) : Digest :=
  let padded := paddedMessage data
  let words := (List.range (padded.length / 64)).foldl
    (fun hash i => processBlock hash ((padded.drop (i * 64)).take 64)) H0
  ⟨words.bytes.toArray, by simp [Words.bytes, wordBytes]⟩

/-- The digest in hexadecimal. -/
def hash (data : Bytes) : Bytes := (hashRaw data).toList.flatMap hexByte

theorem length_hash (data : Bytes) : (hash data).length = 64 := by
  rw [hash, length_flatMap_hexByte, Vector.length_toList]

theorem isHexDigit_of_mem_hash {data : Bytes} {c : UInt8} (hc : c ∈ hash data) :
    isHexDigit c = true := by
  obtain ⟨b, -, hc⟩ := List.mem_flatMap.mp hc
  exact isHexDigit_of_mem_hexByte hc

example : hash (ascii "abc") =
    ascii "ba7816bf8f01cfea414140de5dae2223b00361a396177a9cb410ff61f20015ad" := by
  decide +kernel

end SHA256

end BlockchainCrypto
