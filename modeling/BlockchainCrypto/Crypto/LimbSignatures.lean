import BlockchainCrypto.Crypto.LimbCurve

/-!
# Keys and signatures on limbs

The rest of `ECCrypto.cpp` as it runs on integers of 64-bit limbs: powers and square roots, the
32-byte encoding, public keys, key pairs, signing and verification. For every input it neither
throws nor overflows, ends within `2 ^ 256` rounds of each loop, and computes what the model on
integers computes.

## Main definitions

* `ECCrypto.limbModPow`, `ECCrypto.limbModSqrt`.
* `ECCrypto.limbBigIntToBytes32`, `ECCrypto.limbBytes32ToBigInt`.
* `ECCrypto.limbCompressPublicKey`, `ECCrypto.limbDecompressPublicKey`.
* `ECCrypto.limbSignHash`, `ECCrypto.limbVerifySignature`.
* `ECCrypto.LimbKeyPair`, `ECCrypto.limbKeyPairFromPrivateKey`.

## Main results

* `ECCrypto.limbVerifySignature_eq`, `ECCrypto.limbSignHash_eq`,
  `ECCrypto.limbKeyPairFromPrivateKey_eq`.
* `ECCrypto.limbs_refine`: the same of the three, and of what they rest on.
-/

namespace BlockchainCrypto

open ByteText BigInt

namespace ECCrypto

/-! ### The code -/

/-- `(a * b) % mod`. -/
def limbMulMod (a b mod : BigInt) : Checked BigInt := do
  let product ← a.mul b
  product.mod mod

/-- The loop of `modPow` over the binary digits of the exponent, least significant first. -/
def limbModPowLoop (mod : BigInt) : Bytes → BigInt → BigInt → Checked BigInt
  | [], result, _ => pure result
  | digit :: digits, result, b => do
    let result ← if digit = 49 then limbMulMod result b mod else pure result
    let b ← if digits = [] then pure b else limbMulMod b b mod
    limbModPowLoop mod digits result b

/-- `modPow` on limbs. -/
def limbModPow (base exp mod : BigInt) : Checked BigInt :=
  if exp.eq (ofLongLong 0) then pure (ofLongLong 1)
  else do
    let b ← base.mod mod
    limbModPowLoop mod exp.toBinaryString.reverse (ofLongLong 1) b

/-- `modSqrt` on limbs. -/
def limbModSqrt (n p : BigInt) : Checked BigInt :=
  if n.eq (ofLongLong 0) then pure (ofLongLong 0)
  else do
    let exp ← (← p.sub (ofLongLong 1)).div (ofLongLong 2)
    let check ← limbModPow n exp p
    if check.ne (ofLongLong 1) then pure (ofLongLong 0)
    else do
      let sqrtExp ← (← p.add (ofLongLong 1)).div (ofLongLong 4)
      limbModPow n sqrtExp p

/-- `BigInt(const std::string&)` of a constant of the header. -/
def limbConstant (num : String) : BigInt := ((BigInt.ofString (ascii num) 10).toOption).getD {}

/-- The prime of the field. -/
def limbP : BigInt :=
  limbConstant "115792089237316195423570985008687907853269984665640564039457584007908834671663"

/-- The coefficient of `x`. -/
def limbA : BigInt := ofLongLong 0

/-- The constant term. -/
def limbB : BigInt := ofLongLong 7

/-- The abscissa of the base point. -/
def limbGX : BigInt :=
  limbConstant "55066263022277343669578718895168534326250603453777594175500187360389116729240"

/-- The ordinate of the base point. -/
def limbGY : BigInt :=
  limbConstant "32670510020758816978083085130507043184471273380659243275938904335757337482424"

/-- The order of the base point. -/
def limbN : BigInt :=
  limbConstant "115792089237316195423570985008687907852837564279074904382605163141518161494337"

/-- The base point. -/
def limbG : LimbPoint := ⟨limbGX, limbGY, limbP, limbA, limbB, false⟩

section Code

variable (rounds : ℕ)

/-- `while (temp > 0)`, which puts the hexadecimal digits of a number in front of what is there. -/
def limbHexLoop : ℕ → BigInt → Bytes → Exec Bytes
  | 0, _, _ => .error .rounds
  | rounds + 1, temp, hex =>
    if temp.gt (ofLongLong 0) then do
      let remainder ← temp.mod (ofLongLong 16)
      let index ← remainder.toCInt
      let c ← ((ascii "0123456789abcdef")[index.toInt.toNat]?).elim
        (.error (.fault (.arithmetic .outOfRange))) pure
      let temp ← temp.div (ofLongLong 16)
      limbHexLoop rounds temp (c :: hex)
    else pure hex

/-- The digits that `bigIntToBytes32` and the constructor of key pairs collect. -/
def limbHexDigits (num : BigInt) : Exec Bytes :=
  if num.eq (ofLongLong 0) then pure (ascii "0") else limbHexLoop rounds num []

/-- The digits, with zeros in front of them up to 64. -/
def limbPaddedHex (num : BigInt) : Exec Bytes := do
  let hex ← limbHexDigits rounds num
  pure (List.replicate (64 - hex.length) 48 ++ hex)

/-- `bigIntToBytes32` on limbs. -/
def limbBigIntToBytes32 (num : BigInt) : Exec (Vector UInt8 32) := do
  let hex ← limbPaddedHex rounds num
  pure (Vector.ofFn fun i => (hexNibble (hex.getD (i * 2) 0)).getD 0 <<< 4 |||
    (hexNibble (hex.getD (i * 2 + 1) 0)).getD 0)

/-- `bytes32ToBigInt` on limbs. -/
def limbBytes32ToBigInt (data : Bytes) : Except TextFault BigInt :=
  BigInt.ofString (bytesToHex (data.take 32)) 16

/-- `compressPublicKey` on limbs. -/
def limbCompressPublicKey (point : LimbPoint) : Exec PublicKey :=
  if point.isInfinity then pure (Vector.replicate PUBLIC_KEY_SIZE 0)
  else do
    let yMod2 ← point.y.mod (ofLongLong 2)
    let bytes ← limbBigIntToBytes32 rounds point.x
    let yParity :=
      if yMod2.eq (ofLongLong 0) then COMPRESSED_EVEN_PREFIX else COMPRESSED_ODD_PREFIX
    pure ⟨(yParity :: bytes.toList).toArray, by simp⟩

/-- `decompressPublicKey` on limbs. -/
def limbDecompressPublicKey (compressedKey : PublicKey) : Exec LimbPoint :=
  if compressedKey.head ≠ COMPRESSED_EVEN_PREFIX ∧
      compressedKey.head ≠ COMPRESSED_ODD_PREFIX then
    pure limbG.pointAtInfinity
  else do
    let x ← limbBytes32ToBigInt (compressedKey.toList.drop 1)
    if x.lt (ofLongLong 0) || x.ge limbP then pure limbG.pointAtInfinity
    else do
      let xCubed ← limbMulMod (← x.mul x) x limbP
      let ySquared ← (← xCubed.add limbB).mod limbP
      let y ← limbModSqrt ySquared limbP
      if y.eq (ofLongLong 0) && ySquared.ne (ofLongLong 0) then pure limbG.pointAtInfinity
      else do
        let yMod2 ← y.mod (ofLongLong 2)
        let yMod2 ← if yMod2.lt (ofLongLong 0) then yMod2.add (ofLongLong 2) else pure yMod2
        let yIsEven := yMod2.eq (ofLongLong 0)
        let needEven := decide (compressedKey.head = COMPRESSED_EVEN_PREFIX)
        let y ← if yIsEven ≠ needEven then limbP.sub y else pure y
        pure ⟨x, y, limbP, limbA, limbB, false⟩

/-- The challenge `SHA256(R.x || P.x || hash)` as a scalar. -/
def limbChallenge (rx px : BigInt) (hash : Hash) : Exec BigInt := do
  let rxBytes ← limbBigIntToBytes32 rounds rx
  let pubxBytes ← limbBigIntToBytes32 rounds px
  let e ← limbBytes32ToBigInt
    (sha256Hash (rxBytes.toList ++ pubxBytes.toList ++ hash.toList)).toList
  e.mod limbN

/-- `signHash` for a given public key, with the nonce `k` that `randomScalar` returned. -/
def limbSignHashFor (hash : Hash) (privateKey : BigInt) (publicKey : LimbPoint) (k : BigInt) :
    Exec Signature :=
  let result : Signature := Vector.replicate SIGNATURE_SIZE 0
  if privateKey.le (ofLongLong 0) || privateKey.ge limbN then pure result
  else if publicKey.isInfinity then pure result
  else do
    let R ← limbG.mul rounds k
    let e ← limbChallenge rounds R.x publicKey.x hash
    let s ← (← k.add (← e.mul privateKey)).mod limbN
    let s ← if s.lt (ofLongLong 0) then s.add limbN else pure s
    let rxBytes ← limbBigIntToBytes32 rounds R.x
    let sBytes ← limbBigIntToBytes32 rounds s
    pure ⟨(rxBytes.toList ++ sBytes.toList).toArray, by simp⟩

/-- `signHash` with the nonce `k`. -/
def limbSignHash (hash : Hash) (privateKey k : BigInt) : Exec Signature :=
  if privateKey.le (ofLongLong 0) || privateKey.ge limbN then
    pure (Vector.replicate SIGNATURE_SIZE 0)
  else do
    let publicKey ← limbG.mul rounds privateKey
    limbSignHashFor rounds hash privateKey publicKey k

/-- The mirror image that `verifySignature` adds. -/
def limbNegEP (eP : LimbPoint) : Checked LimbPoint :=
  if !eP.isInfinity then do
    let negY ← limbP.sub eP.y
    pure ⟨eP.x, negY, limbP, limbA, limbB, false⟩
  else pure eP

/-- `verifySignature` on limbs. -/
def limbVerifySignature (hash : Hash) (signature : Signature) (publicKey : PublicKey) :
    Exec Bool := do
  let rx ← limbBytes32ToBigInt signature.toList
  let s ← limbBytes32ToBigInt (signature.toList.drop 32)
  if s.le (ofLongLong 0) || s.ge limbN then pure false
  else if rx.le (ofLongLong 0) || rx.ge limbP then pure false
  else do
    let Q ← limbDecompressPublicKey publicKey
    if Q.isInfinity then pure false
    else do
      let e ← limbChallenge rounds rx Q.x hash
      let sG ← limbG.mul rounds s
      let eP ← Q.mul rounds e
      let negEP ← limbNegEP eP
      let computedR ← sG.add rounds negEP
      if computedR.isInfinity then pure false else pure (computedR.x.eq rx)

/-- A key pair of limbs and the strings that its constructor derives. -/
structure LimbKeyPair where
  privateKey : BigInt
  publicKey : LimbPoint
  privateKeyHex : Bytes
  publicKeyHex : Bytes
  address : Bytes

/-- The key pair of canonical integers. -/
def KeyPair.toLimbs (keyPair : KeyPair) : LimbKeyPair :=
  ⟨ofInt keyPair.privateKey, keyPair.publicKey.toLimbs, keyPair.privateKeyHex,
    keyPair.publicKeyHex, keyPair.address⟩

/-- `keyPairFromPrivateKey` on limbs. -/
def limbKeyPairFromPrivateKey (privKey : BigInt) : Exec LimbKeyPair := do
  let pubKey ← limbG.mul rounds (← privKey.mod limbN)
  let privateKeyHex ← limbPaddedHex rounds privKey
  let compressed ← limbCompressPublicKey rounds pubKey
  pure ⟨privKey, pubKey, privateKeyHex, bytesToHex compressed.toList, deriveAddress compressed⟩

end Code

/-! ### Powers and roots -/

section Powers

variable {m : ℤ}

theorem limbMulMod_ofInt (a b : ℤ) (hm : 0 < m) :
    limbMulMod (ofInt a) (ofInt b) (ofInt m) = .ok (ofInt (a * b % m)) := by
  rw [limbMulMod, mul_ofInt, Checked.ok_bind, mod_ofInt _ hm]

theorem limbModPowLoop_ofInt (hm : 0 < m) (digits : Bytes) (result b : ℤ) :
    limbModPowLoop (ofInt m) digits (ofInt result) (ofInt b) =
      .ok (ofInt (modPowLoop m digits result b)) := by
  induction digits generalizing result b with
  | nil => rfl
  | cons digit digits ih =>
    rw [limbModPowLoop, modPowLoop, limbMulMod_ofInt _ _ hm, limbMulMod_ofInt _ _ hm]
    split_ifs
    · exact ih _ _
    · exact ih _ _
    · exact ih _ _
    · exact ih _ _

theorem limbModPow_ofInt (base exp : ℤ) (hm : 0 < m) :
    limbModPow (ofInt base) (ofInt exp) (ofInt m) = .ok (ofInt (modPow base exp m)) := by
  rw [limbModPow, modPow, mod_ofInt _ hm, toBinaryString_ofInt]
  by_cases hexp : exp = 0
  · rw [if_pos ((eq_zero_iff exp).mpr hexp), if_pos hexp, ofLongLong_eq]
    rfl
  · rw [if_neg ((eq_zero_iff exp).not.mpr hexp), if_neg hexp, Checked.ok_bind, ofLongLong_eq]
    exact limbModPowLoop_ofInt hm _ _ _

theorem limbModSqrt_ofInt (n : ℤ) (hm : 0 < m) :
    limbModSqrt (ofInt n) (ofInt m) = .ok (ofInt (modSqrt n m)) := by
  have hhalf := div_ofInt (m - 1) (by decide : (0 : ℤ) < 2)
  have hquarter := div_ofInt (m + 1) (by decide : (0 : ℤ) < 4)
  unfold limbModSqrt modSqrt
  by_cases hn : n = 0
  · simp [ofLongLong_eq, hn]
  · by_cases hcheck : modPow n ((m - 1) / 2) m = 1
    · simp [ofLongLong_eq, hn, hcheck, hhalf, hquarter, limbModPow_ofInt _ _ hm]
    · simp [ofLongLong_eq, hn, hcheck, hhalf, limbModPow_ofInt _ _ hm]

end Powers

/-! ### Constants -/

/-- The decimal digits of a constant are read as its value. -/
theorem limbConstant_eq {num : String} {z : ℤ} (h : signedDigits 10 z = ascii num) :
    limbConstant num = ofInt z := by
  have hread := ofString_eq (by decide) (by decide) (isNumeral_signedDigits (by decide) le_rfl z)
  rw [h] at hread
  rw [limbConstant]
  exact congrArg (fun x => (Except.toOption x).getD {}) hread

theorem limbP_eq : limbP = ofInt secp256k1.P := limbConstant_eq (by decide +kernel)

theorem limbN_eq : limbN = ofInt secp256k1.N := limbConstant_eq (by decide +kernel)

theorem limbA_eq : limbA = ofInt secp256k1.A := ofLongLong_eq 0

theorem limbB_eq : limbB = ofInt secp256k1.B := ofLongLong_eq 7

theorem limbG_eq : limbG = G.toLimbs := by
  rw [limbG, limbP_eq, limbA_eq, limbB_eq, limbGX, limbGY,
    limbConstant_eq (by decide +kernel : signedDigits 10 secp256k1.GX = ascii _),
    limbConstant_eq (by decide +kernel : signedDigits 10 secp256k1.GY = ascii _)]
  rfl

/-! ### Encodings -/

section Encodings

variable {rounds : ℕ}

/-- The digit that the source looks up. -/
theorem hexChars_getElem? {d : ℕ} (hd : d < 16) :
    (ascii "0123456789abcdef")[(Int32.ofInt d).toInt.toNat]? = some (hexChar d) := by
  have hall : ∀ d : Fin 16, (ascii "0123456789abcdef")[(Int32.ofInt (d : ℕ)).toInt.toNat]? =
      some (hexChar d) := by decide
  exact hall ⟨d, hd⟩

/-- The digits of a number, none for zero. -/
theorem limbHexLoop_ofInt {n : ℕ} (hn : n < rounds) (hex : Bytes) :
    limbHexLoop rounds (ofInt n) hex =
      .ok ((if n = 0 then [] else (Nat.toDigits 16 n).map charByte) ++ hex) := by
  induction n using Nat.strong_induction_on generalizing rounds hex with
  | _ n ih =>
    obtain ⟨rounds, rfl⟩ := Nat.exists_eq_add_of_lt (Nat.zero_lt_of_lt hn)
    rw [Nat.zero_add, limbHexLoop]
    have hgt : (ofInt n).gt (ofLongLong 0) = true ↔ 0 < n := (gt_zero_iff n).trans Int.natCast_pos
    rcases Nat.eq_zero_or_pos n with hzero | hpos
    · rw [if_neg (hgt.not.mpr (by omega)), if_pos hzero]
      rfl
    have hmod : (ofInt n).mod (ofLongLong 16) = .ok (ofInt ((n % 16 : ℕ) : ℤ)) :=
      mod_ofLongLong n (by decide)
    have hdiv : (ofInt n).div (ofLongLong 16) = .ok (ofInt ((n / 16 : ℕ) : ℤ)) := by
      rw [ofLongLong_eq]
      exact div_ofInt n (by decide)
    have hlt : n % 16 < 16 := Nat.mod_lt n (by decide)
    have hindex := toCInt_ofInt (Int.natCast_nonneg (n % 16)) (by omega)
    rw [if_pos (hgt.mpr hpos), hmod, Exec.lift_ok, Exec.ok_bind, hindex, Exec.lift_ok, Exec.ok_bind,
      hexChars_getElem? hlt, Option.elim_some, Exec.pure_eq, Exec.ok_bind, hdiv, Exec.lift_ok,
      Exec.ok_bind, ih (n / 16) (by omega) (by omega), if_neg hpos.ne']
    by_cases hsmall : n < 16
    · rw [if_pos (Nat.div_eq_of_lt hsmall), Nat.toDigits_of_lt_base hsmall, Nat.mod_eq_of_lt hsmall]
      rfl
    · have hdigits : Nat.toDigits 16 n = Nat.toDigits 16 (n / 16) ++ [(n % 16).digitChar] :=
        Nat.toDigits_of_base_le (by decide) (not_lt.mp hsmall)
      rw [if_neg (by omega), hdigits, List.map_append, List.append_assoc]
      rfl

theorem limbHexDigits_ofInt {z : ℤ} (hz : z.natAbs < rounds) :
    limbHexDigits rounds (ofInt z) = .ok (hexDigits z) := by
  have hzero := eq_zero_iff z
  rw [limbHexDigits, hexDigits]
  rcases lt_trichotomy z 0 with hneg | rfl | hpos
  · obtain ⟨rounds, rfl⟩ := Nat.exists_eq_add_of_lt (Nat.zero_lt_of_lt hz)
    rw [if_neg (hzero.not.mpr hneg.ne), if_neg (not_le.mpr hneg), limbHexLoop,
      if_neg ((gt_zero_iff z).not.mpr hneg.not_gt)]
    rfl
  · rfl
  · lift z to ℕ using hpos.le
    rw [if_neg (hzero.not.mpr hpos.ne'), if_pos hpos.le, limbHexLoop_ofInt (by omega),
      if_neg (by omega), List.append_nil, Int.toNat_natCast]

theorem limbPaddedHex_ofInt {z : ℤ} (hz : z.natAbs < rounds) :
    limbPaddedHex rounds (ofInt z) =
      .ok (List.replicate (64 - (hexDigits z).length) 48 ++ hexDigits z) := by
  rw [limbPaddedHex, limbHexDigits_ofInt hz]
  rfl

theorem limbBigIntToBytes32_ofInt {z : ℤ} (hz : z.natAbs < rounds) :
    limbBigIntToBytes32 rounds (ofInt z) = .ok (privateKeyOf z) := by
  rw [limbBigIntToBytes32, limbPaddedHex_ofInt hz, Exec.ok_bind, Exec.pure_eq]
  refine congrArg Except.ok (Vector.ext fun i hi => ?_)
  rw [Vector.getElem_ofFn]
  simp [privateKeyOf, bigIntToBytes32]

theorem isDigit_of_isHexDigit {c : UInt8} (h : isHexDigit c = true) :
    IsDigit 16 c ((hexNibble c).getD 0).toNat := by
  have hall : ∀ c : UInt8, isHexDigit c = true →
      digitValue c = some ((hexNibble c).getD 0).toNat ∧ ((hexNibble c).getD 0).toNat < 16 :=
    forall_byte (by decide +kernel)
  exact (isDigit_iff (by decide)).mpr (hall c h)

/-- Hexadecimal digits are a numeral in base 16. -/
theorem isNumeral_hex {hex : Bytes} (hne : hex ≠ []) (hhex : ∀ c ∈ hex, isHexDigit c = true) :
    IsNumeral 16 hex (ofHexDigits hex) := by
  have hdigits : List.Forall₂ (IsDigit 16) hex
      (hex.map fun c => ((hexNibble c).getD 0).toNat) := by
    rw [List.forall₂_map_right_iff, List.forall₂_same]
    exact fun c hc => isDigit_of_isHexDigit (hhex c hc)
  have hvalue : ofHexDigits hex =
      (Nat.ofDigits 16 (hex.map fun c => ((hexNibble c).getD 0).toNat).reverse : ℕ) := by
    rw [← Numerals.value_eq_ofDigits, ofHexDigits_eq_foldl]
    clear hne hhex hdigits
    induction hex using List.reverseRecOn with
    | nil => rfl
    | append_singleton hex c ih =>
      rw [List.foldl_concat, List.map_append, List.map_singleton, Numerals.value_concat, ih,
        digitStep]
      push_cast
      ring
  rw [hvalue]
  exact .unsigned hne hdigits

theorem limbBytes32ToBigInt_eq {data : Bytes} (hdata : data ≠ []) :
    limbBytes32ToBigInt data = .ok (ofInt (bytes32ToBigInt data)) := by
  obtain ⟨b, rest, rfl⟩ := List.exists_cons_of_ne_nil hdata
  refine ofString_eq (by decide) (by decide) (isNumeral_hex ?_ fun c hc =>
    isHexDigit_of_mem_bytesToHex hc)
  rw [List.take_succ_cons, bytesToHex, List.flatMap_cons]
  exact List.append_ne_nil_of_left_ne_nil (List.cons_ne_nil _ _) _

end Encodings

/-! ### Keys -/

section Keys

variable {rounds : ℕ} {Q : ECPoint}

theorem limbCompressPublicKey_toLimbs (hx : Q.x.natAbs < rounds) :
    limbCompressPublicKey rounds Q.toLimbs = .ok (compressPublicKey Q) := by
  have hmod : (ofInt Q.y).mod (ofLongLong 2) = .ok (ofInt (Q.y % 2)) :=
    mod_ofLongLong Q.y (by decide)
  unfold limbCompressPublicKey compressPublicKey
  dsimp only [ECPoint.toLimbs]
  rw [hmod, limbBigIntToBytes32_ofInt hx]
  simp only [Exec.lift_ok, Exec.ok_bind, eq_zero_iff]
  split_ifs <;> rfl

theorem limbDecompressPublicKey_eq (key : PublicKey) :
    limbDecompressPublicKey key = .ok (decompressPublicKey key).toLimbs := by
  have hinfinity : limbG.pointAtInfinity = G.pointAtInfinity.toLimbs := by
    rw [limbG_eq, LimbPoint.pointAtInfinity_toLimbs]
  have hread : limbBytes32ToBigInt (key.toList.drop 1) = .ok (ofInt (bytes32ToBigInt
      (key.toList.drop 1))) := by
    refine limbBytes32ToBigInt_eq (List.ne_nil_of_length_pos ?_)
    rw [List.length_drop, Vector.length_toList]
    decide
  have hhead : key.head = key[0] := rfl
  unfold limbDecompressPublicKey decompressPublicKey
  rw [hinfinity, hread, hhead]
  generalize bytes32ToBigInt (key.toList.drop 1) = x
  have hrange : ((ofInt x).lt (ofLongLong 0) || (ofInt x).ge limbP) = true ↔
      x < 0 ∨ x ≥ secp256k1.P := by
    simp [ofLongLong_eq, limbP_eq]
  by_cases hprefix : key[0] ≠ COMPRESSED_EVEN_PREFIX ∧ key[0] ≠ COMPRESSED_ODD_PREFIX
  · rw [if_pos hprefix, if_pos hprefix]
    rfl
  rw [if_neg hprefix, if_neg hprefix, Exec.lift_text, Exec.ok_bind]
  by_cases hx : x < 0 ∨ x ≥ secp256k1.P
  · rw [if_pos (hrange.mpr hx)]
    dsimp only
    rw [if_pos hx]
    rfl
  rw [if_neg (hrange.not.mpr hx)]
  have hcube : limbMulMod (ofInt (x * x)) (ofInt x) limbP =
      .ok (ofInt (x * x * x % secp256k1.P)) := by
    rw [limbP_eq]
    exact limbMulMod_ofInt _ _ (by decide)
  have hsquare (c : ℤ) : (ofInt (c + secp256k1.B)).mod limbP =
      .ok (ofInt ((c + secp256k1.B) % secp256k1.P)) := by
    rw [limbP_eq]
    exact mod_ofInt _ (by decide)
  dsimp only
  rw [if_neg hx, mul_ofInt, Exec.lift_ok, Exec.ok_bind, hcube, Exec.lift_ok, Exec.ok_bind,
    limbB_eq, add_ofInt, Exec.lift_ok, Exec.ok_bind, hsquare, Exec.lift_ok, Exec.ok_bind]
  generalize (x * x * x % secp256k1.P + secp256k1.B) % secp256k1.P = ySquared
  have hroot : limbModSqrt (ofInt ySquared) limbP =
      .ok (ofInt (modSqrt ySquared secp256k1.P)) := by
    rw [limbP_eq]
    exact limbModSqrt_ofInt _ (by decide)
  rw [hroot, Exec.lift_ok, Exec.ok_bind]
  generalize modSqrt ySquared secp256k1.P = y
  have hnone : ((ofInt y).eq (ofLongLong 0) && (ofInt ySquared).ne (ofLongLong 0)) = true ↔
      y = 0 ∧ ySquared ≠ 0 := by
    simp [ofLongLong_eq]
  by_cases hy : y = 0 ∧ ySquared ≠ 0
  · rw [if_pos (hnone.mpr hy), if_pos hy]
    rfl
  have hmod : (ofInt y).mod (ofLongLong 2) = .ok (ofInt (y % 2)) :=
    mod_ofLongLong y (by decide)
  have hlt : ¬(ofInt (y % 2)).lt (ofLongLong 0) = true := by
    rw [ofLongLong_eq, lt_ofInt_iff]
    exact not_lt.mpr (Int.emod_nonneg _ (by decide))
  have heven : (ofInt (y % 2)).eq (ofLongLong 0) = decide (y % 2 = 0) := by
    rw [Bool.eq_iff_iff, eq_zero_iff, decide_eq_true_iff]
  rw [if_neg (hnone.not.mpr hy), if_neg hy, hmod, Exec.lift_ok, Exec.ok_bind, if_neg hlt,
    Exec.pure_eq, Exec.ok_bind, heven, limbP_eq, sub_ofInt, limbA_eq]
  split_ifs <;> rfl

end Keys

/-! ### Signatures -/

section Signatures

open secp256k1

variable {rounds : ℕ}

theorem limbChallenge_ofInt {rx px : ℤ} (hrx : rx.natAbs < rounds) (hpx : px.natAbs < rounds)
    (hash : Hash) : limbChallenge rounds (ofInt rx) (ofInt px) hash =
      .ok (ofInt (challengeWith sha256Hash rx px hash)) := by
  have hread (data : Hash) : limbBytes32ToBigInt data.toList = .ok (ofInt (bytes32ToBigInt
      data.toList)) := by
    refine limbBytes32ToBigInt_eq (List.ne_nil_of_length_pos ?_)
    rw [Vector.length_toList]
    decide
  rw [limbChallenge, limbBigIntToBytes32_ofInt hrx, Exec.ok_bind, limbBigIntToBytes32_ofInt hpx,
    Exec.ok_bind, hread, Exec.lift_text, Exec.ok_bind, limbN_eq, mod_ofInt _ (by decide)]
  rfl

/-- The signature of two numbers. -/
def signatureOf (rx s : ℤ) : Signature :=
  ⟨(bigIntToBytes32 rx ++ bigIntToBytes32 s).toArray, by simp [length_bigIntToBytes32]⟩

theorem signHashFor_eq (hash : Hash) {d : ℤ} (hd : ¬(d ≤ 0 ∨ d ≥ N)) {Q : ECPoint}
    (hQ : ¬Q.isInfinity = true) (k : ℤ) : signHashFor sha256Hash hash d Q k =
      signatureOf (G.mul k).x
        ((k + challengeWith sha256Hash (G.mul k).x Q.x hash * d) % N) := by
  have hs (z : ℤ) : ¬z % N < 0 := not_lt.mpr (emod_N_reduced z).1
  rw [signHashFor, if_neg hd, if_neg hQ]
  dsimp only
  simp only [hs, ↓reduceIte]
  rfl

variable (hrounds : 2 ^ 256 ≤ rounds)
include hrounds

theorem natAbs_lt_of_reduced {z : ℤ} (hz : 0 ≤ z ∧ z < P) : z.natAbs < rounds := by
  have hP : P < 2 ^ 256 := by decide
  omega

theorem modulus_of_onCurve {Q : ECPoint} (hQ : Q.OnCurve) : Q.Modulus rounds := by
  have hp := hQ.curve_eq.1
  have hP : 1 < P ∧ P < 2 ^ 256 := by decide
  exact ⟨by omega, by omega⟩

omit hrounds in
theorem limbNegEP_toLimbs (Q : ECPoint) : limbNegEP Q.toLimbs =
    .ok (if !Q.isInfinity then ⟨Q.x, P - Q.y, P, A, B, false⟩ else Q : ECPoint).toLimbs := by
  have hinf : Q.toLimbs.isInfinity = Q.isInfinity := rfl
  have hy : limbP.sub Q.toLimbs.y = .ok (ofInt (P - Q.y)) := by
    rw [limbP_eq]
    exact sub_ofInt _ _
  rw [limbNegEP, hinf, hy, limbP_eq, limbA_eq, limbB_eq]
  cases Q.isInfinity <;> rfl

theorem limbG_mul_eq {k : ℤ} : limbG.mul rounds (ofInt k) = .ok (G.mul k).toLimbs := by
  rw [limbG_eq]
  exact LimbPoint.mul_toLimbs (modulus_of_onCurve hrounds onCurve_G) k

theorem limbSignHashFor_eq (hash : Hash) (d : ℤ) {Q : ECPoint} (hQ : Q.OnCurve) {k : ℤ}
    (hk : 0 ≤ k) : limbSignHashFor rounds hash (ofInt d) Q.toLimbs (ofInt k) =
      .ok (signHashFor sha256Hash hash d Q k) := by
  have hrange : ((ofInt d).le (ofLongLong 0) || (ofInt d).ge limbN) = true ↔ d ≤ 0 ∨ d ≥ N := by
    simp [ofLongLong_eq, limbN_eq]
  have hinf : Q.toLimbs.isInfinity = Q.isInfinity := rfl
  rw [limbSignHashFor, hinf, limbG_mul_eq hrounds, Exec.ok_bind]
  by_cases hd : d ≤ 0 ∨ d ≥ N
  · rw [if_pos (hrange.mpr hd), signHashFor, if_pos hd]
    rfl
  by_cases hinfinity : Q.isInfinity = true
  · rw [if_neg (hrange.not.mpr hd), if_pos hinfinity, signHashFor, if_neg hd, if_pos hinfinity]
    rfl
  rw [if_neg (hrange.not.mpr hd), if_neg hinfinity, signHashFor_eq hash hd hinfinity]
  -- the point and the challenge as variables, so that no comparison of terms evaluates them
  have hR := (ECPoint.zsmul_spec onCurve_G hk).1
  obtain ⟨R, hRdef⟩ : ∃ R, G.mul k = R := ⟨_, rfl⟩
  rw [hRdef] at hR ⊢
  have hRx : R.x.natAbs < rounds := natAbs_lt_of_reduced hrounds hR.x_reduced
  have he : limbChallenge rounds R.toLimbs.x Q.toLimbs.x hash =
      .ok (ofInt (challengeWith sha256Hash R.x Q.x hash)) :=
    limbChallenge_ofInt hRx (natAbs_lt_of_reduced hrounds hQ.x_reduced) hash
  obtain ⟨e, hedef⟩ : ∃ e, challengeWith sha256Hash R.x Q.x hash = e := ⟨_, rfl⟩
  rw [hedef] at he ⊢
  have hRbytes : limbBigIntToBytes32 rounds R.toLimbs.x = .ok (privateKeyOf R.x) :=
    limbBigIntToBytes32_ofInt hRx
  have hs := emod_N_reduced (k + e * d)
  have hslt : ((k + e * d) % N).natAbs < rounds := by
    have hN : N < 2 ^ 256 := by decide
    omega
  have hnonneg : ¬(ofInt ((k + e * d) % N)).lt (ofLongLong 0) = true := by
    rw [ofLongLong_eq, lt_ofInt_iff]
    exact not_lt.mpr hs.1
  rw [he, Exec.ok_bind, mul_ofInt, Exec.lift_ok, Exec.ok_bind, add_ofInt, Exec.lift_ok,
    Exec.ok_bind, limbN_eq, mod_ofInt _ (by decide), Exec.lift_ok, Exec.ok_bind, if_neg hnonneg,
    Exec.pure_eq, Exec.ok_bind]
  dsimp only
  rw [hRbytes, Exec.ok_bind, limbBigIntToBytes32_ofInt hslt, Exec.ok_bind]
  rfl

theorem limbSignHash_eq (hash : Hash) (d : ℤ) {k : ℤ} (hk : 0 ≤ k) :
    limbSignHash rounds hash (ofInt d) (ofInt k) = .ok (signHash sha256Hash hash d k) := by
  have hrange : ((ofInt d).le (ofLongLong 0) || (ofInt d).ge limbN) = true ↔ d ≤ 0 ∨ d ≥ N := by
    simp [ofLongLong_eq, limbN_eq]
  rw [limbSignHash, signHash]
  by_cases hd : d ≤ 0 ∨ d ≥ N
  · rw [if_pos (hrange.mpr hd), if_pos hd]
    rfl
  · rw [if_neg (hrange.not.mpr hd), if_neg hd, limbG_mul_eq hrounds, Exec.ok_bind]
    exact limbSignHashFor_eq hrounds hash d
      (ECPoint.zsmul_spec onCurve_G (not_le.mp (not_or.mp hd).1).le).1 hk

theorem limbVerifySignature_eq (hash : Hash) (signature : Signature) (publicKey : PublicKey) :
    limbVerifySignature rounds hash signature publicKey =
      .ok (verifySignature hash signature publicKey) := by
  have hread (data : Bytes) (hdata : 0 < data.length) :
      limbBytes32ToBigInt data = .ok (ofInt (bytes32ToBigInt data)) :=
    limbBytes32ToBigInt_eq (List.ne_nil_of_length_pos hdata)
  have hrx : limbBytes32ToBigInt signature.toList =
      .ok (ofInt (bytes32ToBigInt signature.toList)) := by
    refine hread _ ?_
    rw [Vector.length_toList]
    decide
  have hs : limbBytes32ToBigInt (signature.toList.drop 32) =
      .ok (ofInt (bytes32ToBigInt (signature.toList.drop 32))) := by
    refine hread _ ?_
    rw [List.length_drop, Vector.length_toList]
    decide
  have hrange (z : ℤ) {m : BigInt} {m' : ℤ} (hm : m = ofInt m') :
      ((ofInt z).le (ofLongLong 0) || (ofInt z).ge m) = true ↔ z ≤ 0 ∨ z ≥ m' := by
    simp [ofLongLong_eq, hm]
  have hrxlt := bytes32ToBigInt_lt signature.toList
  rw [← verifySignatureWith_sha256Hash, limbVerifySignature, verifySignatureWith, hrx,
    Exec.lift_text, Exec.ok_bind, hs, Exec.lift_text, Exec.ok_bind]
  dsimp only
  generalize bytes32ToBigInt signature.toList = rx at *
  generalize bytes32ToBigInt (signature.toList.drop 32) = s at *
  by_cases hsrange : s ≤ 0 ∨ s ≥ N
  · rw [if_pos ((hrange s limbN_eq).mpr hsrange), if_pos hsrange]
    rfl
  rw [if_neg ((hrange s limbN_eq).not.mpr hsrange), if_neg hsrange]
  by_cases hrxrange : rx ≤ 0 ∨ rx ≥ P
  · rw [if_pos ((hrange rx limbP_eq).mpr hrxrange), if_pos hrxrange]
    rfl
  rw [if_neg ((hrange rx limbP_eq).not.mpr hrxrange), if_neg hrxrange,
    limbDecompressPublicKey_eq, Exec.ok_bind]
  have hspec := decompressPublicKey_spec publicKey
  generalize decompressPublicKey publicKey = Q at *
  have hinf : Q.toLimbs.isInfinity = Q.isInfinity := rfl
  rw [hinf]
  by_cases hinfinity : Q.isInfinity = true
  · rw [if_pos hinfinity, if_pos hinfinity]
    rfl
  obtain ⟨-, hQ, -⟩ := hspec.resolve_left fun h => hinfinity h.1
  have he : limbChallenge rounds (ofInt rx) Q.toLimbs.x hash =
      .ok (ofInt (challengeWith sha256Hash rx Q.x hash)) :=
    limbChallenge_ofInt (by omega) (natAbs_lt_of_reduced hrounds hQ.x_reduced) hash
  have hsG := (ECPoint.zsmul_spec onCurve_G (by omega : 0 ≤ s)).1
  rw [if_neg hinfinity, if_neg hinfinity, he, Exec.ok_bind, limbG_mul_eq hrounds, Exec.ok_bind,
    LimbPoint.mul_toLimbs (modulus_of_onCurve hrounds hQ), Exec.ok_bind, limbNegEP_toLimbs,
    Exec.lift_ok, Exec.ok_bind, LimbPoint.add_toLimbs (modulus_of_onCurve hrounds hsG),
    Exec.ok_bind]
  generalize (G.mul s).add _ = computedR
  have hinf : computedR.toLimbs.isInfinity = computedR.isInfinity := rfl
  have hx : computedR.toLimbs.x.eq (ofInt rx) = decide (computedR.x = rx) := by
    rw [Bool.eq_iff_iff, decide_eq_true_iff]
    exact eq_ofInt_iff _ _
  rw [hinf, hx]
  split_ifs <;> rfl

theorem limbKeyPairFromPrivateKey_eq {d : ℤ} (hd : d.natAbs < rounds) :
    limbKeyPairFromPrivateKey rounds (ofInt d) = .ok (keyPairFromPrivateKey d).toLimbs := by
  have hQ := (ECPoint.zsmul_spec onCurve_G (emod_N_reduced d).1).1
  rw [limbKeyPairFromPrivateKey, limbN_eq, mod_ofInt _ (by decide), Exec.lift_ok, Exec.ok_bind,
    limbG_mul_eq hrounds, Exec.ok_bind, limbPaddedHex_ofInt hd, Exec.ok_bind,
    limbCompressPublicKey_toLimbs (natAbs_lt_of_reduced hrounds hQ.x_reduced)]
  rfl

/-- The code on limbs refines the model on integers: sums and multiples of points, square roots, the
encoding and decoding of points, verification of any bytes, signing with any private key and a nonce
that is not negative, and the key pair of any private key below the bound neither throw nor
overflow, end within the given rounds, and give what the model gives. -/
theorem limbs_refine :
    (∀ hash signature publicKey, limbVerifySignature rounds hash signature publicKey =
      .ok (verifySignature hash signature publicKey)) ∧
    (∀ hash (d k : BigInt), d.Canonical → k.Canonical → 0 ≤ k.toInt →
      limbSignHash rounds hash d k = .ok (signHash sha256Hash hash d.toInt k.toInt)) ∧
    (∀ d : BigInt, d.Canonical → d.toInt.natAbs < rounds →
      limbKeyPairFromPrivateKey rounds d = .ok (keyPairFromPrivateKey d.toInt).toLimbs) ∧
    (∀ Q R : ECPoint, Q.Modulus rounds →
      Q.toLimbs.add rounds R.toLimbs = .ok (Q.add R).toLimbs) ∧
    (∀ (Q : ECPoint) (k : BigInt), Q.Modulus rounds → k.Canonical →
      Q.toLimbs.mul rounds k = .ok (Q.mul k.toInt).toLimbs) ∧
    (∀ n m : BigInt, n.Canonical → m.Canonical → 0 < m.toInt →
      limbModSqrt n m = .ok (ofInt (modSqrt n.toInt m.toInt))) ∧
    (∀ Q : ECPoint, Q.x.natAbs < rounds →
      limbCompressPublicKey rounds Q.toLimbs = .ok (compressPublicKey Q)) ∧
    ∀ key, limbDecompressPublicKey key = .ok (decompressPublicKey key).toLimbs := by
  refine ⟨limbVerifySignature_eq hrounds, fun hash d k hd hk hnonneg => ?_, fun d hd hlt => ?_,
    fun Q R h => LimbPoint.add_toLimbs h, fun Q k h hk => ?_, fun n m hn hm hpos => ?_,
    fun Q hx => limbCompressPublicKey_toLimbs hx, limbDecompressPublicKey_eq⟩
  · rw [hd.eq_ofInt rfl, hk.eq_ofInt rfl, toInt_ofInt, toInt_ofInt]
    exact limbSignHash_eq hrounds hash d.toInt hnonneg
  · rw [hd.eq_ofInt rfl, toInt_ofInt]
    exact limbKeyPairFromPrivateKey_eq hrounds hlt
  · rw [hk.eq_ofInt rfl, toInt_ofInt]
    exact LimbPoint.mul_toLimbs h k.toInt
  · rw [hn.eq_ofInt rfl, hm.eq_ofInt rfl, toInt_ofInt, toInt_ofInt]
    exact limbModSqrt_ofInt n.toInt hpos

end Signatures

/-- The key `3` signs with the nonce `5`, and the signature is accepted. -/
theorem limbs_refine_three :
    ∃ signature, limbSignHash (2 ^ 256) (sha256Hash []) (ofInt 3) (ofInt 5) = .ok signature ∧
      limbVerifySignature (2 ^ 256) (sha256Hash []) signature (compressPublicKey (G.mul 3)) =
        .ok true := by
  have haccepted : verifySignature (sha256Hash []) (signHash sha256Hash (sha256Hash []) 3 5)
      (compressPublicKey (G.mul 3)) = true := by
    rw [← verifySignatureWith_sha256Hash]
    exact verifySignatureWith_iff.mpr
      (schnorrEquation_signHash (by decide) (by decide) response_three_ne_zero)
  obtain ⟨hverify, hsign, -⟩ := limbs_refine (le_refl (2 ^ 256))
  refine ⟨_, hsign (sha256Hash []) (ofInt 3) (ofInt 5) (canonical_ofInt 3) (canonical_ofInt 5)
    ?_, ?_⟩
  · rw [toInt_ofInt]
    decide
  · rw [toInt_ofInt, toInt_ofInt, hverify]
    exact congrArg Except.ok haccepted

end ECCrypto

end BlockchainCrypto
