import BlockchainCrypto.Crypto.Encoding
import BlockchainCrypto.Text.Delimited
import BlockchainCrypto.Text.Lines

/-!
# The keystore

`keystore.cpp`: a text blob of six lines that holds an encrypted string. The key is stretched from
the password by PBKDF2, the string is encrypted by the exclusive or with an HMAC keystream, and a
tag over header and ciphertext is checked before anything is decrypted. The hash function is a
parameter throughout; the program uses SHA-256.

## Main definitions

* `keystore.hmacSha256`, `keystore.pbkdf2Sha256`, `keystore.applyKeystream`.
* `keystore.encrypt`, `keystore.decrypt`.
* `keystore.Blob`, `keystore.readBlob`: what `decrypt` reads from a blob.

## Main results

* `keystore.applyKeystream_applyKeystream`: the keystream cancels itself.
* `keystore.fromHex_toHex`, `keystore.readBlob_armor`: decoding of what was written.
* `keystore.decrypt_encrypt`: decryption undoes encryption.
* `keystore.tag_authenticates`: the tag covers everything that the plaintext depends on.
-/

namespace BlockchainCrypto

open ByteText ECCrypto

namespace keystore

/-- The bytes of a salt. -/
abbrev SALT_SIZE : ℕ := 16

/-- The bytes of a nonce. -/
abbrev NONCE_SIZE : ℕ := 16

/-- The bytes of a key and of a digest. -/
abbrev KEY_SIZE : ℕ := 32

/-- The block of the compression function. -/
def BLOCK_SIZE : ℕ := 64

/-- The rounds of the key derivation, unless a blob says otherwise. -/
def DEFAULT_ITERATIONS : UInt32 := 200000

/-- The first line of a blob. -/
def FORMAT_TAG : Bytes := ascii "KEYSTORE1"

/-- A digest of the hash function. -/
abbrev Mac := Vector UInt8 32

/-- `std::copy` into a zeroed array. -/
def Mac.ofBytes (data : Bytes) : Mac := Vector.ofFn fun i => data.getD i 0

/-- The four bytes of a number, the highest first. -/
def appendU32BE (value : UInt32) : Bytes :=
  [(value >>> 24).toUInt8, (value >>> 16).toUInt8, (value >>> 8).toUInt8, value.toUInt8]

/-- The differences of all bytes are collected before the comparison. -/
def constantTimeEquals (a b : Mac) : Bool :=
  (List.zipWith (· ^^^ ·) a.toList b.toList).foldl (· ||| ·) 0 == 0

/-- The hexadecimal digits of a string. -/
def toHex (data : Bytes) : Bytes := bytesToHex data

/-- The string of an even number of hexadecimal digits; the empty one is allowed. -/
def fromHex (hex : Bytes) : Option Bytes :=
  if hex.length % 2 ≠ 0 then none
  else
    let (count, out) := hexToBytes hex (Vector.replicate (hex.length / 2) 0)
    if hex.length / 2 ≠ 0 ∧ count ≠ hex.length / 2 then none else some out.toList

section Construction

variable (sha256Of : Bytes → Mac)

/-! ### Key derivation -/

/-- HMAC over the given hash function. -/
def hmacSha256 (key data : Bytes) : Mac :=
  let key := if key.length > BLOCK_SIZE then (sha256Of key).toList else key
  let paddedKey := key ++ List.replicate (BLOCK_SIZE - key.length) 0
  let inner := paddedKey.map (· ^^^ 0x36) ++ data
  let innerHash := sha256Of inner
  let outer := paddedKey.map (· ^^^ 0x5C) ++ innerHash.toList
  sha256Of outer

/-- The inner loop of PBKDF2, for `n` further rounds. -/
def stretch (password : Bytes) : ℕ → Mac → Mac → Mac
  | 0, _, accumulator => accumulator
  | n + 1, u, accumulator =>
    let u := hmacSha256 sha256Of password u.toList
    stretch password n u (accumulator.zipWith (· ^^^ ·) u)

/-- The blocks from number `block` on, for an output that lacks `missing` bytes. -/
def pbkdf2Blocks (password salt : Bytes) (iterations block : UInt32) (missing : ℕ) : Bytes :=
  if missing = 0 then []
  else
    let u := hmacSha256 sha256Of password (salt ++ appendU32BE block)
    let accumulator := stretch sha256Of password (iterations.toNat - 1) u u
    accumulator.toList.take missing ++
      pbkdf2Blocks password salt iterations (block + 1) (missing - 32)
termination_by missing

/-- PBKDF2 over this HMAC. -/
def pbkdf2Sha256 (password salt : Bytes) (iterations : UInt32) (outputLength : ℕ) : Bytes :=
  pbkdf2Blocks sha256Of password salt iterations 1 outputLength

/-- One PBKDF2 run, split into the encryption key and the MAC key. -/
def deriveKeys (password salt : Bytes) (iterations : UInt32) : Bytes × Bytes :=
  let derived := pbkdf2Sha256 sha256Of password salt iterations (KEY_SIZE * 2)
  (derived.take KEY_SIZE, derived.drop KEY_SIZE)

/-! ### Encryption -/

/-- The loop of `applyKeystream` from block `i` on. -/
def keystreamFrom (key nonce : Bytes) (i : ℕ) (data : Bytes) : Bytes :=
  if data = [] then []
  else
    let input := nonce ++ appendU32BE (UInt32.ofNat i)
    let block := hmacSha256 sha256Of key input
    List.zipWith (· ^^^ ·) (data.take KEY_SIZE) block.toList ++
      keystreamFrom key nonce (i + 1) (data.drop KEY_SIZE)
termination_by data.length
decreasing_by
  have hpos := List.length_pos_iff.mpr (by assumption : data ≠ [])
  exact List.length_drop ▸ Nat.sub_lt hpos (by decide)

/-- The exclusive or with the keystream of a key and a nonce. -/
def applyKeystream (key nonce data : Bytes) : Bytes := keystreamFrom sha256Of key nonce 0 data

/-- The first four lines of a blob. -/
def header (saltHex iterationsText nonceHex : Bytes) : Bytes :=
  line FORMAT_TAG ++ line saltHex ++ line iterationsText ++ line nonceHex

/-- The blob, for the salt and the nonce that the operating system returns; without entropy and
for a count of zero it is empty. -/
def encrypt (plaintext password : Bytes) (iterations : UInt32)
    (entropy : Option (Vector UInt8 SALT_SIZE × Vector UInt8 NONCE_SIZE)) : Bytes :=
  match entropy with
  | none => []
  | some (salt, nonce) =>
    if iterations = 0 then []
    else
      let (encKey, macKey) := deriveKeys sha256Of password salt.toList iterations
      let ciphertext := applyKeystream sha256Of encKey nonce.toList plaintext
      let headerText :=
        header (toHex salt.toList) (decimal iterations.toNat) (toHex nonce.toList)
      let authenticated := headerText ++ ciphertext
      let tag := hmacSha256 sha256Of macKey authenticated
      headerText ++ line (bytesToHex tag.toList) ++ line (toHex ciphertext)

/-! ### Decryption -/

/-- What `decrypt` reads from a blob: the header lines as they stand, and the values in them. -/
structure Blob where
  saltHex : Bytes
  iterationsText : Bytes
  nonceHex : Bytes
  iterations : UInt32
  salt : Bytes
  nonce : Bytes
  tag : Mac
  ciphertext : Bytes

/-- The part of `decrypt` in front of the key derivation. The last line may be empty, but must be
there; lines behind it are ignored. -/
def readBlob (armored : Bytes) : Option Blob := do
  let (format, rest) ← readLine armored
  if format ≠ FORMAT_TAG then none
  else
    let (saltHex, rest) ← readLine rest
    let (iterationsText, rest) ← readLine rest
    let (nonceHex, rest) ← readLine rest
    let (tagHex, rest) ← readLine rest
    let (ciphertextHex, _) ← readLine rest
    let iterations ← (unsigned UInt32.size).run' iterationsText
    if iterations = 0 then none
    else
      let salt ← fromHex saltHex
      let nonce ← fromHex nonceHex
      let tagBytes ← fromHex tagHex
      let ciphertext ← fromHex ciphertextHex
      if salt.length ≠ SALT_SIZE ∨ nonce.length ≠ NONCE_SIZE ∨ tagBytes.length ≠ KEY_SIZE then none
      else
        pure ⟨saltHex, iterationsText, nonceHex, UInt32.ofNat iterations, salt, nonce,
          Mac.ofBytes tagBytes, ciphertext⟩

namespace Blob

/-- The bytes over which the tag is computed. -/
def authenticated (blob : Blob) : Bytes :=
  header blob.saltHex blob.iterationsText blob.nonceHex ++ blob.ciphertext

/-- The key for the keystream. -/
def encKey (blob : Blob) (password : Bytes) : Bytes :=
  (deriveKeys sha256Of password blob.salt blob.iterations).1

/-- The key for the tag. -/
def macKey (blob : Blob) (password : Bytes) : Bytes :=
  (deriveKeys sha256Of password blob.salt blob.iterations).2

end Blob

/-- The plaintext of a blob whose tag verifies under the password. -/
def decrypt (armored password : Bytes) : Option Bytes := do
  let blob ← readBlob armored
  let expected := hmacSha256 sha256Of (blob.macKey sha256Of password) blob.authenticated
  if !constantTimeEquals expected blob.tag then none
  else pure (applyKeystream sha256Of (blob.encKey sha256Of password) blob.nonce blob.ciphertext)

end Construction

/-! ### Encodings -/

theorem fromHex_toHex (data : Bytes) : fromHex (toHex data) = some data := by
  have hlength : (toHex data).length = 2 * data.length := length_flatMap_hexByte data
  have hhalf : (toHex data).length / 2 = data.length := by omega
  have hdecode := hexToBytes_bytesToHex (⟨data.toArray, by simp [hhalf]⟩ :
    Vector UInt8 ((toHex data).length / 2)) (Vector.replicate _ 0)
  rw [fromHex, if_neg (by omega)]
  have hdata : bytesToHex (Vector.toList (⟨data.toArray, by simp [hhalf]⟩ :
      Vector UInt8 ((toHex data).length / 2))) = toHex data := rfl
  rw [hdata] at hdecode
  simp only [hdecode]
  simp

theorem ofBytes_toList (mac : Mac) : Mac.ofBytes mac.toList = mac := by
  ext i hi
  simp [Mac.ofBytes]

/-- The collected differences vanish when every single one does. -/
theorem foldl_or_eq_zero_iff (differences : Bytes) (start : UInt8) :
    differences.foldl (· ||| ·) start = 0 ↔ start = 0 ∧ ∀ d ∈ differences, d = 0 := by
  induction differences generalizing start with
  | nil => simp
  | cons d differences ih => rw [List.foldl_cons, ih, UInt8.or_eq_zero_iff, List.forall_mem_cons,
      and_assoc]

theorem constantTimeEquals_iff {a b : Mac} : constantTimeEquals a b = true ↔ a = b := by
  rw [constantTimeEquals, beq_iff_eq, foldl_or_eq_zero_iff, ← Vector.toList_inj]
  have hlength : a.toList.length = b.toList.length := by simp
  generalize a.toList = xs at hlength
  generalize b.toList = ys at hlength
  simp only [true_and]
  induction xs generalizing ys with
  | nil => simp [List.length_eq_zero_iff.mp hlength.symm]
  | cons x xs ih =>
    cases ys with
    | nil => cases hlength
    | cons y ys =>
      rw [List.zipWith_cons_cons, List.forall_mem_cons, List.cons.injEq]
      exact and_congr UInt8.xor_eq_zero_iff (ih ys (Nat.succ_injective hlength))

theorem newline_not_mem_bytesToHex (data : Bytes) : newline ∉ bytesToHex data := fun h =>
  absurd (isHexDigit_of_mem_bytesToHex h) (by decide)

theorem newline_not_mem_toHex (data : Bytes) : newline ∉ toHex data :=
  newline_not_mem_bytesToHex data

theorem newline_not_mem_decimal (n : ℕ) : newline ∉ decimal n := fun h =>
  absurd (isDigit_of_mem_decimal h) (by decide)

/-- The count is read back from its line. -/
theorem unsigned_run'_decimal (n : UInt32) :
    (unsigned UInt32.size).run' (decimal n.toNat) = some n.toNat := by
  have hn : decimal n.toNat = decimalInt n.toNat := rfl
  have hmagnitude : signMagnitude n.toNat = (false, n.toNat) := rfl
  have hlt : n.toNat < UInt32.size := n.toNat_lt
  rw [hn]
  change ((numeral (decimalInt n.toNat)).bind fun p => _).map _ = _
  rw [numeral_decimalInt, hmagnitude]
  simp only [Option.bind_some, Bool.false_eq_true, ↓reduceIte, hlt]
  rfl

/-! ### Reading a blob -/

/-- A blob that was written line by line is read back, whatever follows it. -/
theorem readBlob_armor {iterations : UInt32} (hiterations : iterations ≠ 0)
    {salt nonce : Bytes} (hsalt : salt.length = SALT_SIZE) (hnonce : nonce.length = NONCE_SIZE)
    (tag : Mac) (ciphertext rest : Bytes) :
    readBlob (header (toHex salt) (decimal iterations.toNat) (toHex nonce) ++
        line (bytesToHex tag.toList) ++ line (toHex ciphertext) ++ rest) =
      some ⟨toHex salt, decimal iterations.toNat, toHex nonce, iterations, salt, nonce, tag,
        ciphertext⟩ := by
  have hcount : iterations.toNat ≠ 0 := fun h => hiterations (UInt32.toNat_inj.mp h)
  have hlast := readLine_line (newline_not_mem_toHex ciphertext) rest
  have htag : fromHex (bytesToHex tag.toList) = some tag.toList := fromHex_toHex tag.toList
  have hsizes : ¬ (salt.length ≠ SALT_SIZE ∨ nonce.length ≠ NONCE_SIZE ∨
      tag.toList.length ≠ KEY_SIZE) := by simp [hsalt, hnonce]
  have hformat (rest : Bytes) : readLine (line FORMAT_TAG ++ rest) = some (FORMAT_TAG, rest) :=
    readLine_line (by decide) rest
  simp only [header, List.append_assoc, readBlob]
  refine Option.bind_eq_some_iff.mpr ⟨_, hformat _, ?_⟩
  refine (if_neg (not_not.mpr rfl)).trans ?_
  refine Option.bind_eq_some_iff.mpr ⟨_, readLine_line (newline_not_mem_toHex salt) _, ?_⟩
  refine Option.bind_eq_some_iff.mpr ⟨_, readLine_line (newline_not_mem_decimal _) _, ?_⟩
  refine Option.bind_eq_some_iff.mpr ⟨_, readLine_line (newline_not_mem_toHex nonce) _, ?_⟩
  refine Option.bind_eq_some_iff.mpr ⟨_, readLine_line (newline_not_mem_bytesToHex _) _, ?_⟩
  refine Option.bind_eq_some_iff.mpr ⟨_, hlast, ?_⟩
  refine Option.bind_eq_some_iff.mpr ⟨_, unsigned_run'_decimal iterations, ?_⟩
  refine (if_neg hcount).trans ?_
  refine Option.bind_eq_some_iff.mpr ⟨_, fromHex_toHex salt, ?_⟩
  refine Option.bind_eq_some_iff.mpr ⟨_, fromHex_toHex nonce, ?_⟩
  refine Option.bind_eq_some_iff.mpr ⟨_, htag, ?_⟩
  refine Option.bind_eq_some_iff.mpr ⟨_, fromHex_toHex ciphertext, ?_⟩
  refine (if_neg hsizes).trans ?_
  rw [ofBytes_toList, UInt32.ofNat_toNat]
  rfl

/-- What was read: the lines, and the values that they determine. -/
structure Blob.Read (blob : Blob) : Prop where
  saltLine : newline ∉ blob.saltHex
  iterationsLine : newline ∉ blob.iterationsText
  nonceLine : newline ∉ blob.nonceHex
  salt : fromHex blob.saltHex = some blob.salt
  iterations : ((unsigned UInt32.size).run' blob.iterationsText).map UInt32.ofNat =
    some blob.iterations
  nonce : fromHex blob.nonceHex = some blob.nonce

theorem read_of_readBlob {armored : Bytes} {blob : Blob} (h : readBlob armored = some blob) :
    blob.Read := by
  obtain ⟨⟨format, rest⟩, -, h⟩ := Option.bind_eq_some_iff.mp h
  dsimp only at h
  split_ifs at h with hformat
  obtain ⟨⟨saltHex, rest⟩, hsaltHex, h⟩ := Option.bind_eq_some_iff.mp h
  obtain ⟨⟨iterationsText, rest⟩, hiterationsText, h⟩ := Option.bind_eq_some_iff.mp h
  obtain ⟨⟨nonceHex, rest⟩, hnonceHex, h⟩ := Option.bind_eq_some_iff.mp h
  obtain ⟨⟨tagHex, rest⟩, -, h⟩ := Option.bind_eq_some_iff.mp h
  obtain ⟨⟨ciphertextHex, rest⟩, -, h⟩ := Option.bind_eq_some_iff.mp h
  obtain ⟨iterations, hiterations, h⟩ := Option.bind_eq_some_iff.mp h
  dsimp only at h
  split_ifs at h with hzero
  obtain ⟨salt, hsalt, h⟩ := Option.bind_eq_some_iff.mp h
  obtain ⟨nonce, hnonce, h⟩ := Option.bind_eq_some_iff.mp h
  obtain ⟨tagBytes, -, h⟩ := Option.bind_eq_some_iff.mp h
  obtain ⟨ciphertext, -, h⟩ := Option.bind_eq_some_iff.mp h
  split_ifs at h with hsizes
  obtain rfl := Option.some.inj h
  exact ⟨newline_not_mem_of_readLine hsaltHex, newline_not_mem_of_readLine hiterationsText,
    newline_not_mem_of_readLine hnonceHex, hsalt, by rw [hiterations]; rfl, hnonce⟩

/-- The header splits in one way only, and what it says is read from its lines. -/
theorem Blob.Read.eq_of_authenticated_eq {blob blob' : Blob} (h : blob.Read) (h' : blob'.Read)
    (heq : blob.authenticated = blob'.authenticated) :
    blob.salt = blob'.salt ∧ blob.iterations = blob'.iterations ∧ blob.nonce = blob'.nonce ∧
      blob.ciphertext = blob'.ciphertext := by
  simp only [Blob.authenticated, header, line, List.append_assoc, List.cons_append,
    List.nil_append] at heq
  obtain ⟨-, heq⟩ := append_cons_inj_left (by decide) (by decide) heq
  obtain ⟨hsalt, heq⟩ := append_cons_inj_left h.saltLine h'.saltLine heq
  obtain ⟨hiterations, heq⟩ := append_cons_inj_left h.iterationsLine h'.iterationsLine heq
  obtain ⟨hnonce, hciphertext⟩ := append_cons_inj_left h.nonceLine h'.nonceLine heq
  refine ⟨?_, ?_, ?_, hciphertext⟩
  · exact Option.some.inj (h.salt.symm.trans ((congrArg fromHex hsalt).trans h'.salt))
  · have htext := h.iterations
    rw [hiterations, h'.iterations] at htext
    exact (Option.some.inj htext).symm
  · exact Option.some.inj (h.nonce.symm.trans ((congrArg fromHex hnonce).trans h'.nonce))

/-! ### The keystream -/

section Properties

variable (sha256Of : Bytes → Mac)

theorem keystreamFrom_nil (key nonce : Bytes) (i : ℕ) :
    keystreamFrom sha256Of key nonce i [] = [] := by
  rw [keystreamFrom, if_pos rfl]

theorem keystreamFrom_of_ne_nil (key nonce : Bytes) (i : ℕ) {data : Bytes} (h : data ≠ []) :
    keystreamFrom sha256Of key nonce i data =
      List.zipWith (· ^^^ ·) (data.take KEY_SIZE)
          (hmacSha256 sha256Of key (nonce ++ appendU32BE (UInt32.ofNat i))).toList ++
        keystreamFrom sha256Of key nonce (i + 1) (data.drop KEY_SIZE) := by
  rw [keystreamFrom, if_neg h]

/-- A block of the keystream cancels itself. -/
theorem zipWith_xor_zipWith_xor {xs ks : Bytes} (h : xs.length ≤ ks.length) :
    List.zipWith (· ^^^ ·) (List.zipWith (· ^^^ ·) xs ks) ks = xs := by
  induction xs generalizing ks with
  | nil => simp
  | cons x xs ih =>
    cases ks with
    | nil => cases h
    | cons k ks =>
      rw [List.zipWith_cons_cons, List.zipWith_cons_cons, ih (Nat.le_of_succ_le_succ h),
        UInt8.xor_assoc, UInt8.xor_self, UInt8.xor_zero]

theorem keystreamFrom_keystreamFrom (key nonce : Bytes) (i : ℕ) (data : Bytes) :
    keystreamFrom sha256Of key nonce i (keystreamFrom sha256Of key nonce i data) = data := by
  induction hn : data.length using Nat.strong_induction_on generalizing data i with
  | _ n ih =>
    rcases eq_or_ne data [] with rfl | hne
    · rw [keystreamFrom_nil, keystreamFrom_nil]
    have hpos := List.length_pos_iff.mpr hne
    have hsize : KEY_SIZE = 32 := rfl
    rw [keystreamFrom_of_ne_nil sha256Of key nonce i hne]
    generalize hblock :
      (hmacSha256 sha256Of key (nonce ++ appendU32BE (UInt32.ofNat i))).toList = block
    have hlength : block.length = KEY_SIZE := by rw [← hblock, Vector.length_toList]
    have hfirst : (List.zipWith (· ^^^ ·) (data.take KEY_SIZE) block).length =
        min KEY_SIZE data.length := by
      rw [List.length_zipWith, List.length_take, hlength]
      omega
    have hcancel : List.zipWith (· ^^^ ·) (List.zipWith (· ^^^ ·) (data.take KEY_SIZE) block)
        block = data.take KEY_SIZE :=
      zipWith_xor_zipWith_xor (by rw [List.length_take, hlength]; omega)
    generalize List.zipWith (· ^^^ ·) (data.take KEY_SIZE) block = first at hfirst hcancel
    -- Nothing follows a block that is not full.
    have hrest : (first ++ keystreamFrom sha256Of key nonce (i + 1) (data.drop KEY_SIZE)).take
        KEY_SIZE = first ∧
        (first ++ keystreamFrom sha256Of key nonce (i + 1) (data.drop KEY_SIZE)).drop KEY_SIZE =
          keystreamFrom sha256Of key nonce (i + 1) (data.drop KEY_SIZE) := by
      by_cases hfull : KEY_SIZE ≤ data.length
      · have hKEY : first.length = KEY_SIZE := by omega
        exact ⟨List.take_left' hKEY, List.drop_left' hKEY⟩
      · rw [List.drop_of_length_le (by omega), keystreamFrom_nil, List.append_nil]
        exact ⟨List.take_of_length_le (by omega), List.drop_of_length_le (by omega)⟩
    have hne' : first ++ keystreamFrom sha256Of key nonce (i + 1) (data.drop KEY_SIZE) ≠ [] :=
      List.append_ne_nil_of_left_ne_nil (List.ne_nil_of_length_pos (by omega)) _
    rw [keystreamFrom_of_ne_nil sha256Of key nonce i hne', hblock, hrest.1, hrest.2, hcancel,
      ih _ (by rw [List.length_drop]; omega) (i + 1) (data.drop KEY_SIZE) rfl,
      List.take_append_drop]

theorem applyKeystream_applyKeystream (key nonce data : Bytes) :
    applyKeystream sha256Of key nonce (applyKeystream sha256Of key nonce data) = data :=
  keystreamFrom_keystreamFrom sha256Of key nonce 0 data

/-! ### Round trip and authentication -/

/-- The blob that `encrypt` writes, as `decrypt` reads it, whatever follows it. -/
theorem readBlob_encrypt_append (plaintext password : Bytes) {iterations : UInt32}
    (hiterations : iterations ≠ 0) (salt : Vector UInt8 SALT_SIZE)
    (nonce : Vector UInt8 NONCE_SIZE) :
    ∃ blob, (∀ rest, readBlob (encrypt sha256Of plaintext password iterations
        (some (salt, nonce)) ++ rest) = some blob) ∧
      blob.tag = hmacSha256 sha256Of (blob.macKey sha256Of password) blob.authenticated ∧
      applyKeystream sha256Of (blob.encKey sha256Of password) blob.nonce blob.ciphertext =
        plaintext := by
  have hread := @readBlob_armor iterations hiterations salt.toList nonce.toList (by simp) (by simp)
  rw [encrypt]
  dsimp only
  rw [if_neg hiterations]
  exact ⟨_, hread _ _, rfl, applyKeystream_applyKeystream sha256Of _ _ plaintext⟩

theorem readBlob_encrypt (plaintext password : Bytes) {iterations : UInt32}
    (hiterations : iterations ≠ 0) (salt : Vector UInt8 SALT_SIZE)
    (nonce : Vector UInt8 NONCE_SIZE) :
    ∃ blob, readBlob (encrypt sha256Of plaintext password iterations (some (salt, nonce))) =
        some blob ∧
      blob.tag = hmacSha256 sha256Of (blob.macKey sha256Of password) blob.authenticated ∧
      applyKeystream sha256Of (blob.encKey sha256Of password) blob.nonce blob.ciphertext =
        plaintext := by
  obtain ⟨blob, hread, htag, hplaintext⟩ :=
    readBlob_encrypt_append sha256Of plaintext password hiterations salt nonce
  have hread' := hread []
  rw [List.append_nil] at hread'
  exact ⟨blob, hread', htag, hplaintext⟩

theorem decrypt_eq_some_iff {armored password plaintext : Bytes} :
    decrypt sha256Of armored password = some plaintext ↔ ∃ blob, readBlob armored = some blob ∧
      blob.tag = hmacSha256 sha256Of (blob.macKey sha256Of password) blob.authenticated ∧
      applyKeystream sha256Of (blob.encKey sha256Of password) blob.nonce blob.ciphertext =
        plaintext := by
  simp only [decrypt, Option.bind_eq_bind, Option.bind_eq_some_iff]
  refine exists_congr fun blob => and_congr_right fun _ => ?_
  cases hequal : constantTimeEquals
      (hmacSha256 sha256Of (blob.macKey sha256Of password) blob.authenticated) blob.tag with
  | true => simp [(constantTimeEquals_iff.mp hequal).symm]
  | false =>
    have hne := fun h => Bool.false_ne_true (hequal.symm.trans (constantTimeEquals_iff.mpr h))
    exact iff_of_false (by simp) fun h => hne h.1.symm

/-- **Decryption undoes encryption**, for every hash function, plaintext, password, salt and nonce,
and for every count from one on. -/
theorem decrypt_encrypt (plaintext password : Bytes) (iterations : UInt32)
    (hiterations : iterations ≠ 0) (salt : Vector UInt8 SALT_SIZE)
    (nonce : Vector UInt8 NONCE_SIZE) :
    decrypt sha256Of (encrypt sha256Of plaintext password iterations (some (salt, nonce)))
      password = some plaintext :=
  (decrypt_eq_some_iff sha256Of).mpr
    (readBlob_encrypt sha256Of plaintext password hiterations salt nonce)

end Properties

/-- A line of a wallet, with SHA-256. -/
theorem decrypt_encrypt_walletLine :
    decrypt sha256Hash (encrypt sha256Hash (ascii "0BADC0DE 04C0FFEE") (ascii "open sesame")
      DEFAULT_ITERATIONS (some (Vector.replicate 16 7, Vector.replicate 16 9)))
      (ascii "open sesame") = some (ascii "0BADC0DE 04C0FFEE") :=
  decrypt_encrypt sha256Hash _ _ DEFAULT_ITERATIONS (by decide) _ _

/-- **The tag authenticates everything that decryption depends on.** Accepted blobs with the same
authenticated bytes have the same salt, count, nonce, ciphertext and plaintext. An accepted blob
with the tag of an encrypted one decrypts to the same plaintext, or the two show different pairs of
a MAC key and a message with the same HMAC. -/
theorem tag_authenticates (sha256Of : Bytes → Mac) (password : Bytes) :
    (∀ (armored armored' : Bytes) (blob blob' : Blob) (p p' : Bytes),
      readBlob armored = some blob → readBlob armored' = some blob' →
      decrypt sha256Of armored password = some p → decrypt sha256Of armored' password = some p' →
      blob.authenticated = blob'.authenticated →
        blob.salt = blob'.salt ∧ blob.iterations = blob'.iterations ∧ blob.nonce = blob'.nonce ∧
          blob.ciphertext = blob'.ciphertext ∧ p = p') ∧
    ∀ (plaintext : Bytes) (iterations : UInt32)
      (entropy : Option (Vector UInt8 SALT_SIZE × Vector UInt8 NONCE_SIZE)) (armored' : Bytes)
      (blob blob' : Blob) (p' : Bytes),
      readBlob (encrypt sha256Of plaintext password iterations entropy) = some blob →
      readBlob armored' = some blob' → decrypt sha256Of armored' password = some p' →
      blob'.tag = blob.tag →
        p' = plaintext ∨
          ((blob.macKey sha256Of password, blob.authenticated) ≠
              (blob'.macKey sha256Of password, blob'.authenticated) ∧
            hmacSha256 sha256Of (blob.macKey sha256Of password) blob.authenticated =
              hmacSha256 sha256Of (blob'.macKey sha256Of password) blob'.authenticated) := by
  have hfirst (armored armored' : Bytes) (blob blob' : Blob) (p p' : Bytes)
      (hblob : readBlob armored = some blob) (hblob' : readBlob armored' = some blob')
      (hp : decrypt sha256Of armored password = some p)
      (hp' : decrypt sha256Of armored' password = some p')
      (heq : blob.authenticated = blob'.authenticated) :
      blob.salt = blob'.salt ∧ blob.iterations = blob'.iterations ∧ blob.nonce = blob'.nonce ∧
        blob.ciphertext = blob'.ciphertext ∧ p = p' := by
    obtain ⟨hsalt, hiterations, hnonce, hciphertext⟩ :=
      (read_of_readBlob hblob).eq_of_authenticated_eq (read_of_readBlob hblob') heq
    refine ⟨hsalt, hiterations, hnonce, hciphertext, ?_⟩
    obtain ⟨_, hread, -, rfl⟩ := (decrypt_eq_some_iff sha256Of).mp hp
    obtain ⟨_, hread', -, rfl⟩ := (decrypt_eq_some_iff sha256Of).mp hp'
    obtain rfl := Option.some.inj (hblob.symm.trans hread)
    obtain rfl := Option.some.inj (hblob'.symm.trans hread')
    rw [Blob.encKey, Blob.encKey, hsalt, hiterations, hnonce, hciphertext]
  refine ⟨hfirst, ?_⟩
  intro plaintext iterations entropy armored' blob blob' p' hblob hblob' hp' htag
  -- Without entropy or rounds nothing was written, and nothing is read.
  obtain _ | ⟨salt, nonce⟩ := entropy
  · cases hblob
  by_cases hiterations : iterations = 0
  · rw [encrypt, hiterations] at hblob
    cases hblob
  have hencrypted := readBlob_encrypt sha256Of plaintext password hiterations salt nonce
  have hp := (decrypt_eq_some_iff sha256Of).mpr hencrypted
  obtain ⟨_, hread, hmac, -⟩ := hencrypted
  obtain rfl := Option.some.inj (hblob.symm.trans hread)
  obtain ⟨_, hread', hmac', -⟩ := (decrypt_eq_some_iff sha256Of).mp hp'
  obtain rfl := Option.some.inj (hblob'.symm.trans hread')
  by_cases hpair : (blob.macKey sha256Of password, blob.authenticated) =
      (blob'.macKey sha256Of password, blob'.authenticated)
  · have heq := hfirst _ armored' blob blob' plaintext p' hblob hblob' hp hp' (Prod.mk.inj hpair).2
    exact .inl heq.2.2.2.2.symm
  · exact .inr ⟨hpair, hmac.symm.trans (htag.symm.trans hmac')⟩

/-- A hash function that takes all messages to the same bytes. -/
def constantHash (_ : Bytes) : Mac := Vector.replicate 32 0

/-- With SHA-256 a line behind a blob does not change what it decrypts to. Under a hash function
that is constant the blobs of two texts have one tag. -/
theorem tag_authenticates_twoBlobs :
    (∃ p, decrypt sha256Hash (encrypt sha256Hash (ascii "alice") (ascii "open sesame")
        DEFAULT_ITERATIONS (some (Vector.replicate 16 7, Vector.replicate 16 9)))
        (ascii "open sesame") = some p ∧
      decrypt sha256Hash (encrypt sha256Hash (ascii "alice") (ascii "open sesame")
        DEFAULT_ITERATIONS (some (Vector.replicate 16 7, Vector.replicate 16 9)) ++
        line (ascii "bob")) (ascii "open sesame") = some p) ∧
    ∃ blob blob',
      readBlob (encrypt constantHash (ascii "alice") (ascii "open sesame") 1
        (some (Vector.replicate 16 7, Vector.replicate 16 9))) = some blob ∧
      readBlob (encrypt constantHash (ascii "bob") (ascii "open sesame") 1
        (some (Vector.replicate 16 7, Vector.replicate 16 9))) = some blob' ∧
      (blob.macKey constantHash (ascii "open sesame"), blob.authenticated) ≠
        (blob'.macKey constantHash (ascii "open sesame"), blob'.authenticated) ∧
      hmacSha256 constantHash (blob.macKey constantHash (ascii "open sesame"))
          blob.authenticated =
        hmacSha256 constantHash (blob'.macKey constantHash (ascii "open sesame"))
          blob'.authenticated := by
  constructor
  · obtain ⟨blob, hread, htag, -⟩ := readBlob_encrypt_append sha256Hash (ascii "alice")
      (ascii "open sesame") (show DEFAULT_ITERATIONS ≠ 0 by decide)
      (Vector.replicate 16 7) (Vector.replicate 16 9)
    have hread' := hread []
    rw [List.append_nil] at hread'
    have hp := (decrypt_eq_some_iff sha256Hash).mpr ⟨blob, hread', htag, rfl⟩
    have hp' := (decrypt_eq_some_iff sha256Hash).mpr ⟨blob, hread (line (ascii "bob")), htag, rfl⟩
    obtain ⟨-, -, -, -, heq⟩ := (tag_authenticates sha256Hash (ascii "open sesame")).1 _ _ blob
      blob _ _ hread' (hread _) hp hp' rfl
    exact ⟨_, hp, heq ▸ hp'⟩
  · obtain ⟨blob, hread, htag, -⟩ := readBlob_encrypt constantHash (ascii "alice")
      (ascii "open sesame") (show (1 : UInt32) ≠ 0 by decide)
      (Vector.replicate 16 7) (Vector.replicate 16 9)
    obtain ⟨blob', hread', htag', hplaintext'⟩ := readBlob_encrypt constantHash (ascii "bob")
      (ascii "open sesame") (show (1 : UInt32) ≠ 0 by decide)
      (Vector.replicate 16 7) (Vector.replicate 16 9)
    have hp' := (decrypt_eq_some_iff constantHash).mpr ⟨blob', hread', htag', hplaintext'⟩
    have hcollision := (tag_authenticates constantHash (ascii "open sesame")).2 (ascii "alice") 1
      _ _ blob blob' (ascii "bob") hread hread' hp' (htag'.trans htag.symm)
    exact ⟨blob, blob', hread, hread', hcollision.resolve_left (by decide)⟩

end keystore

end BlockchainCrypto
