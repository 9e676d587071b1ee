import BlockchainCrypto.Core.Transaction
import BlockchainCrypto.Crypto.KeyPairs
import BlockchainCrypto.Wallet.Keystore
import Mathlib.Data.Finmap

/-!
# Wallets

`Wallet.cpp`: a map from addresses to key pairs and a default address. Keys come in by generation,
by a private key, by a private and a public key given separately, and from a file. The map is
unordered; a wallet is saved in whatever order its entries are gone through.

## Main definitions

* `wallet.KeyPair`, `wallet.Wallet`.
* `wallet.Wallet.generateNewAddress`, `importKeyPair`, `importPrivateKey`, `setDefaultAddress`,
  `clear`, `signTransaction`, `saveToFile` and `loadFromFile`.
* `Transaction.signTransaction`.

## Main results

* `wallet.Wallet.importPrivateKey_of_lt`, `wallet.Wallet.importPrivateKey_of_le`: the scalars that
  are stored.
* `wallet.decodeKeys_bytesToHex`: what is accepted of two rendered keys.
* `wallet.Wallet.generateNewAddress_cases`: generation stores a key pair of a scalar in range.
-/

namespace BlockchainCrypto

open ByteText ECCrypto

namespace Transaction

/-- `signMessage` with a given public key; none stands for a generator that throws. -/
def signMessage (message : Bytes) (privateKey : ℤ) (publicKey : ECPoint)
    (draws : ℕ → Option PrivateKey) : Option Signature :=
  if privateKey ≤ 0 ∨ privateKey ≥ secp256k1.N then some (Vector.replicate SIGNATURE_SIZE 0)
  else if publicKey.isInfinity then some (Vector.replicate SIGNATURE_SIZE 0)
  else (randomScalar draws).map (signHashFor sha256Hash (sha256Hash message) privateKey publicKey)

/-- The signed transaction, and whether it was signed. -/
def signTransaction (tx : Transaction) (privateKey : PrivateKey)
    (draws : ℕ → Option PrivateKey) : Transaction × Bool :=
  if !isValidPrivateKey privateKey then (tx, false)
  else
    let priv := bytes32ToBigInt privateKey.toList
    let kp := keyPairFromPrivateKey priv
    match signMessage tx.getTransactionData priv kp.publicKey draws with
    | none => (tx, false)
    | some sig =>
      ({ tx with signature := bytesToHex sig.toList, senderPubkey := kp.publicKeyHex }, true)

/-- A rendered key is the key of the transaction. -/
theorem parsePublicKey_bytesToHex (publicKey : PublicKey) :
    parsePublicKey (bytesToHex publicKey.toList) = some publicKey := by
  have hlength : (bytesToHex publicKey.toList).length = PUBLIC_KEY_SIZE * 2 := by
    rw [bytesToHex, length_flatMap_hexByte, Vector.length_toList, Nat.mul_comm]
  simp only [parsePublicKey, hlength, hexToBytes_bytesToHex, ne_self_iff_false, ↓reduceIte]

/-- What a successful signature requires and attaches. -/
theorem signTransaction_eq_true {tx tx' : Transaction} {privateKey : PrivateKey}
    {draws : ℕ → Option PrivateKey} (h : tx.signTransaction privateKey draws = (tx', true)) :
    isValidPrivateKey privateKey = true ∧ tx'.sender = tx.sender ∧ tx'.senderPubkey =
      (keyPairFromPrivateKey (bytes32ToBigInt privateKey.toList)).publicKeyHex := by
  unfold signTransaction at h
  cases hvalid : isValidPrivateKey privateKey with
  | false =>
    rw [hvalid] at h
    cases h
  | true =>
    rw [hvalid, Bool.not_true, if_neg Bool.false_ne_true] at h
    dsimp only at h
    split at h
    · cases h
    · obtain ⟨rfl, -⟩ := Prod.mk.inj h
      exact ⟨rfl, rfl, rfl⟩

end Transaction

namespace wallet

/-- An entry of a wallet. -/
structure KeyPair where
  privateKey : PrivateKey
  publicKey : PublicKey
  address : Bytes
  deriving DecidableEq

/-- The entries by address, and the default address. -/
structure Wallet where
  keyPairs : Finmap fun _ : Bytes => KeyPair := ∅
  defaultAddress : Bytes := []

/-- The entry of a key pair, from its hexadecimal strings. -/
def toEntry (kp : ECCrypto.KeyPair) : Option KeyPair :=
  let (count, privateKey) := hexToBytes kp.privateKeyHex (Vector.replicate PRIVATE_KEY_SIZE 0)
  if count ≠ PRIVATE_KEY_SIZE then none
  else
    let (count, publicKey) := hexToBytes kp.publicKeyHex (Vector.replicate PUBLIC_KEY_SIZE 0)
    if count ≠ PUBLIC_KEY_SIZE then none else some ⟨privateKey, publicKey, kp.address⟩

/-- The checks of `importKeyPair`. The two keys are checked one by one. -/
def decodeKeys (privKeyHex pubKeyHex : Bytes) : Option (PrivateKey × PublicKey) :=
  if privKeyHex.length ≠ PRIVATE_KEY_SIZE * 2 ∨ pubKeyHex.length ≠ PUBLIC_KEY_SIZE * 2 then none
  else
    let (privCount, privKey) := hexToBytes privKeyHex (Vector.replicate PRIVATE_KEY_SIZE 0)
    let (pubCount, pubKey) := hexToBytes pubKeyHex (Vector.replicate PUBLIC_KEY_SIZE 0)
    if privCount ≠ PRIVATE_KEY_SIZE ∨ pubCount ≠ PUBLIC_KEY_SIZE then none
    else if !isValidPrivateKey privKey ∨ !isValidPublicKey pubKey then none
    else some (privKey, pubKey)

namespace Wallet

/-- The end of every import: the entry replaces one with the same address, and the first address
becomes the default. -/
def store (w : Wallet) (kp : KeyPair) : Wallet where
  keyPairs := w.keyPairs.insert kp.address kp
  defaultAddress := if w.defaultAddress = [] then kp.address else w.defaultAddress

/-- The new address, empty for a failure. -/
def generateNewAddress (w : Wallet) (draws : ℕ → Option PrivateKey) : Wallet × Bytes :=
  match generateKeyPair draws with
  | none => (w, [])
  | some eccKeyPair =>
    match toEntry eccKeyPair with
    | none => (w, [])
    | some kp => (w.store kp, kp.address)

/-- A private and a public key are stored under the address of the public key, whether they belong
together or not. -/
def importKeyPair (w : Wallet) (privKeyHex pubKeyHex : Bytes) : Wallet × Bool :=
  match decodeKeys privKeyHex pubKeyHex with
  | none => (w, false)
  | some (privKey, pubKey) => (w.store ⟨privKey, pubKey, deriveAddress pubKey⟩, true)

/-- A private key is stored with the public key that belongs to it. -/
def importPrivateKey (w : Wallet) (privKeyHex : Bytes) : Wallet × Bool :=
  match keyPairFromPrivateKeyHex privKeyHex with
  | none => (w, false)
  | some eccKeyPair =>
    match toEntry eccKeyPair with
    | none => (w, false)
    | some kp => (w.store kp, true)

/-- There is an entry for the address. -/
def hasAddress (w : Wallet) (address : Bytes) : Bool := (w.keyPairs.lookup address).isSome

/-- The private key of an address; all zero without an entry. -/
def getPrivateKey (w : Wallet) (address : Bytes) : PrivateKey :=
  match w.keyPairs.lookup address with
  | some kp => kp.privateKey
  | none => Vector.replicate PRIVATE_KEY_SIZE 0

/-- An address with an entry becomes the default. -/
def setDefaultAddress (w : Wallet) (address : Bytes) : Wallet :=
  if w.hasAddress address then { w with defaultAddress := address } else w

/-- The empty wallet. -/
def clear (_ : Wallet) : Wallet := {}

/-- A transaction of one of the addresses is signed with its private key; others come back as they
are. -/
def signTransaction (w : Wallet) (tx : Transaction) (fromAddress : Bytes)
    (draws : ℕ → Option PrivateKey) : Transaction × Bool :=
  if !w.hasAddress fromAddress then (tx, false)
  else if tx.sender ≠ fromAddress then (tx, false)
  else tx.signTransaction (w.getPrivateKey fromAddress) draws

/-! ### Files -/

/-- What the line with the default address starts with. -/
def DEFAULT_LINE : Bytes := ascii "DEFAULT:"

/-- The line of an entry. -/
def entryText (address : Bytes) (kp : KeyPair) : Bytes :=
  address ++ 58 :: (bytesToHex kp.privateKey.toList ++ 58 :: bytesToHex kp.publicKey.toList)

/-- The cleartext, with the entries in the order in which they are gone through. -/
def body (w : Wallet) (order : AList fun _ : Bytes => KeyPair) : Bytes :=
  line (DEFAULT_LINE ++ w.defaultAddress) ++
    order.entries.flatMap fun entry => line (entryText entry.1 entry.2)

/-- The content of the file that was written, none for a failure. -/
def saveToFile (w : Wallet) (order : AList fun _ : Bytes => KeyPair) (password : Bytes)
    (entropy : Option (Vector UInt8 keystore.SALT_SIZE × Vector UInt8 keystore.NONCE_SIZE))
    (opens : Bool) : Option Bytes :=
  let armored :=
    keystore.encrypt sha256Hash (w.body order) password keystore.DEFAULT_ITERATIONS entropy
  if armored = [] then none else if !opens then none else some armored

/-- The two keys of an entry line, behind the first and the second colon. -/
def splitEntry (text : Bytes) : Option (Bytes × Bytes) :=
  match text.dropWhile (· ≠ 58) with
  | [] => none
  | _ :: rest =>
    match rest.dropWhile (· ≠ 58) with
    | [] => none
    | _ :: pubHex => some (rest.takeWhile (· ≠ 58), pubHex)

/-- One round of the loop over the lines: the scratch wallet and the default address so far. -/
def loadLine (s : Wallet × Bytes) (text : Bytes) : Option (Wallet × Bytes) :=
  if text = [] then some s
  else if DEFAULT_LINE.isPrefixOf text then some (s.1, text.drop 8)
  else
    match splitEntry text with
    | none => none
    | some (privHex, pubHex) =>
      match s.1.importKeyPair privHex pubHex with
      | (_, false) => none
      | (parsed, true) => some (parsed, s.2)

/-- The file is none when it cannot be opened. A failed load leaves the wallet as it was. -/
def loadFromFile (w : Wallet) (file : Option Bytes) (password : Bytes) : Wallet × Bool :=
  match file with
  | none => (w, false)
  | some armored =>
    match keystore.decrypt sha256Hash armored password with
    | none => (w, false)
    | some body =>
      match (lines body).foldlM loadLine ({}, []) with
      | none => (w, false)
      | some (parsed, parsedDefault) =>
        (⟨parsed.keyPairs, if parsedDefault = [] then parsed.defaultAddress else parsedDefault⟩,
          true)

end Wallet

/-! ### What is stored -/

/-- The entry of a scalar. -/
def entryOf (x : ℤ) : KeyPair where
  privateKey := privateKeyOf x
  publicKey := compressPublicKey (G.mul (x % secp256k1.N))
  address := deriveAddress (compressPublicKey (G.mul (x % secp256k1.N)))

theorem toEntry_of_lt {x : ℤ} (h : x < 2 ^ 256) :
    toEntry (keyPairFromPrivateKey x) = some (entryOf x) := by
  have hpublic := hexToBytes_bytesToHex (compressPublicKey (G.mul (x % secp256k1.N)))
    (Vector.replicate PUBLIC_KEY_SIZE 0)
  simp only [toEntry, keyPairFromPrivateKey, hexToBytes_privateKeyHex h, ne_self_iff_false,
    ↓reduceIte]
  simp only [ECCrypto.KeyPair.create, hpublic, ne_self_iff_false, ↓reduceIte]
  rfl

theorem toEntry_of_le {x : ℤ} (h : 2 ^ 256 ≤ x) : toEntry (keyPairFromPrivateKey x) = none := by
  have hcount := hexToBytes_privateKeyHex_of_le h (G.mul (x % secp256k1.N))
    (Vector.replicate PRIVATE_KEY_SIZE 0)
  simp only [toEntry, keyPairFromPrivateKey, hcount]
  rfl

theorem decodeKeys_bytesToHex (privKey : PrivateKey) (pubKey : PublicKey) :
    decodeKeys (bytesToHex privKey.toList) (bytesToHex pubKey.toList) =
      if isValidPrivateKey privKey ∧ isValidPublicKey pubKey then some (privKey, pubKey)
      else none := by
  have hlength {n : ℕ} (v : Vector UInt8 n) : (bytesToHex v.toList).length = n * 2 := by
    rw [bytesToHex, length_flatMap_hexByte, Vector.length_toList, Nat.mul_comm]
  simp only [decodeKeys, hlength, hexToBytes_bytesToHex, ne_self_iff_false, or_self, ↓reduceIte]
  cases isValidPrivateKey privKey <;> cases isValidPublicKey pubKey <;> rfl

theorem valid_of_decodeKeys {privKeyHex pubKeyHex : Bytes} {privKey : PrivateKey}
    {pubKey : PublicKey} (h : decodeKeys privKeyHex pubKeyHex = some (privKey, pubKey)) :
    isValidPrivateKey privKey = true ∧ isValidPublicKey pubKey = true := by
  simp only [decodeKeys] at h
  split_ifs at h with hlength hcount hvalid
  obtain ⟨rfl, rfl⟩ := Prod.mk.inj (Option.some.inj h)
  simpa using hvalid

theorem length_deriveAddress (publicKey : PublicKey) : (deriveAddress publicKey).length = 40 := by
  rw [deriveAddress, bytesToHex, length_flatMap_hexByte, List.length_take, Vector.length_toList]
  decide

theorem deriveAddress_ne_nil (publicKey : PublicKey) : deriveAddress publicKey ≠ [] :=
  List.ne_nil_of_length_pos (by rw [length_deriveAddress]; decide)

namespace Wallet

variable {w : Wallet}

theorem importPrivateKey_of_lt {privKeyHex : Bytes} {x : ℤ} (hx : ofString privKeyHex 16 = some x)
    (h : x < 2 ^ 256) : w.importPrivateKey privKeyHex = (w.store (entryOf x), true) := by
  simp only [importPrivateKey, keyPairFromPrivateKeyHex, hx, Option.map_some, toEntry_of_lt h]

theorem importPrivateKey_of_le {privKeyHex : Bytes} {x : ℤ} (hx : ofString privKeyHex 16 = some x)
    (h : 2 ^ 256 ≤ x) : w.importPrivateKey privKeyHex = (w, false) := by
  simp only [importPrivateKey, keyPairFromPrivateKeyHex, hx, Option.map_some, toEntry_of_le h]

theorem importPrivateKey_of_none {privKeyHex : Bytes} (hx : ofString privKeyHex 16 = none) :
    w.importPrivateKey privKeyHex = (w, false) := by
  simp only [importPrivateKey, keyPairFromPrivateKeyHex, hx, Option.map_none]

/-- Generation fails, or stores the key pair of a scalar in range. -/
theorem generateNewAddress_cases (w : Wallet) (draws : ℕ → Option PrivateKey) :
    w.generateNewAddress draws = (w, []) ∨ ∃ x, (0 < x ∧ x < secp256k1.N) ∧
      w.generateNewAddress draws = (w.store (entryOf x), (entryOf x).address) := by
  rcases hdraw : randomScalar draws with _ | x
  · exact .inl (by simp only [generateNewAddress, generateKeyPair, hdraw, Option.map_none])
  · have hrange := randomScalar_spec hdraw
    refine .inr ⟨x, hrange, ?_⟩
    simp only [generateNewAddress, generateKeyPair, hdraw, Option.map_some,
      toEntry_of_lt (hrange.2.trans N_lt)]

end Wallet

end wallet

end BlockchainCrypto
