import BlockchainCrypto.Core.SignatureText
import BlockchainCrypto.Wallet.KeyControl

/-!
# Payments signed by a wallet

A wallet signs a payment of one of its addresses with the key filed there. When the entries control
their addresses, what comes out passes every check that the chain makes of a signature, but for the
response zero that verification refuses.

## Main definitions

* `Transaction.signedBy`: a payment with the signature and the key of a scalar.
* `Transaction.responseBy`: the second number of this signature.

## Main results

* `Transaction.isValid_signedBy_iff`: when a signed payment is valid.
* `wallet.Wallet.signTransaction_eq`: what a wallet signs, and with which scalar.
* `wallet.Wallet.isPayment_of_signTransaction`: what is signed is no reward.
-/

namespace BlockchainCrypto

open ByteText ECCrypto

namespace Transaction

/-- The payment with the signature of the scalar `d` under the nonce `k`, and the key of `d`. -/
def signedBy (tx : Transaction) (d k : ℤ) : Transaction :=
  { tx with
    signature := signatureToHex (signHash sha256Hash (sha256Hash tx.getTransactionData) d k)
    senderPubkey := bytesToHex (compressPublicKey (G.mul d)).toList }

/-- The second number of the signature. -/
def responseBy (tx : Transaction) (d k : ℤ) : ℤ :=
  (k + challengeWith sha256Hash (G.mul k).x (G.mul d).x (sha256Hash tx.getTransactionData) * d) %
    secp256k1.N

section SignedBy

variable {tx : Transaction} {d k : ℤ}

/-- With a valid key all that signing asks for is a nonce. -/
theorem signTransaction_eq {privateKey : PrivateKey} (draws : ℕ → Option PrivateKey)
    (hvalid : isValidPrivateKey privateKey = true) :
    tx.signTransaction privateKey draws =
      match randomScalar draws with
      | none => (tx, false)
      | some k => (tx.signedBy (bytes32ToBigInt privateKey.toList) k, true) := by
  obtain ⟨hpos, hlt⟩ := isValidPrivateKey_iff.mp hvalid
  have hkey : (keyPairFromPrivateKey (bytes32ToBigInt privateKey.toList)).publicKey =
      G.mul (bytes32ToBigInt privateKey.toList) := by
    rw [keyPairFromPrivateKey, Int.emod_eq_of_lt hpos.le hlt]
    rfl
  have hhex : (keyPairFromPrivateKey (bytes32ToBigInt privateKey.toList)).publicKeyHex =
      bytesToHex (compressPublicKey (G.mul (bytes32ToBigInt privateKey.toList))).toList := by
    rw [keyPairFromPrivateKey, Int.emod_eq_of_lt hpos.le hlt]
    rfl
  have hrange : ¬ (bytes32ToBigInt privateKey.toList ≤ 0 ∨
      bytes32ToBigInt privateKey.toList ≥ secp256k1.N) := by omega
  have hfinite := (mul_G_spec ⟨hpos, hlt⟩).2.2
  unfold signTransaction signMessage
  dsimp only
  rw [hvalid, hkey, hhex, hfinite]
  simp only [Bool.not_true, Bool.false_eq_true, ↓reduceIte, hrange]
  rcases randomScalar draws with _ | k
  · rfl
  · simp only [Option.map_some, signedBy, signatureToHex, signHash, hrange, ↓reduceIte]

theorem length_signature_signedBy : (tx.signedBy d k).signature.length = SIGNATURE_SIZE * 2 := by
  change (signatureToHex _).length = _
  rw [signatureToHex, length_bytesToHex, Vector.length_toList, Nat.mul_comm]

/-- The signature verifies unless its response is zero. -/
theorem verifySignature_signedBy_iff (hd : 0 < d ∧ d < secp256k1.N) (hk : 0 < k ∧ k < secp256k1.N) :
    (tx.signedBy d k).verifySignature (tx.signedBy d k).senderPubkey = true ↔
      tx.responseBy d k ≠ 0 := by
  have hne : (tx.signedBy d k).signature ≠ [] :=
    List.ne_nil_of_length_pos (by rw [length_signature_signedBy]; decide)
  have hkey : parsePublicKey (tx.signedBy d k).senderPubkey = some (compressPublicKey (G.mul d)) :=
    parsePublicKey_bytesToHex _
  have hsignature : signatureFromHex (tx.signedBy d k).signature =
      signHash sha256Hash (sha256Hash tx.getTransactionData) d k :=
    signatureFromHex_signatureToHex _
  rw [verifySignature_iff, hkey, hsignature]
  simp only [Option.some.injEq, exists_eq_left', hne, ne_eq, not_false_eq_true, true_and,
    isValidPublicKey_compressPublicKey hd]
  change verifySignatureWith sha256Hash _ _ _ = true ↔ _
  constructor
  · intro hverify hzero
    obtain ⟨-, -, -, -, -, ⟨hpos, -⟩, -⟩ := verifySignatureWith_iff.mp hverify
    rw [(signHash_spec sha256Hash _ hd hk).2] at hpos
    exact hpos.ne' hzero
  · exact fun hresponse => verifySignatureWith_iff.mpr (schnorrEquation_signHash hd hk hresponse)

/-- **A payment signed with the key of its sender is valid** exactly when its receiver and its
amount are, and the response is not zero. -/
theorem isValid_signedBy_iff (hd : 0 < d ∧ d < secp256k1.N) (hk : 0 < k ∧ k < secp256k1.N)
    (hsender : tx.sender = deriveAddress (compressPublicKey (G.mul d))) :
    (tx.signedBy d k).isValid = true ↔ tx.receiver ≠ [] ∧ money.isValidAmount tx.amount = true ∧
      tx.receiver ≠ tx.sender ∧ tx.responseBy d k ≠ 0 := by
  have hsystem : ¬ (tx.signedBy d k).isSystem := by
    intro h
    have hlength := wallet.length_deriveAddress (compressPublicKey (G.mul d))
    rw [← hsender, show tx.sender = system from h] at hlength
    exact absurd hlength (by decide)
  have hderived : (tx.signedBy d k).derivedAddressFromKey = tx.sender :=
    (derivedAddressFromKey_eq (parsePublicKey_bytesToHex _)).trans hsender.symm
  have hverify : (tx.signedBy d k).verifySignature (tx.signedBy d k).senderPubkey = true ↔
      tx.responseBy d k ≠ 0 := verifySignature_signedBy_iff hd hk
  constructor
  · intro hvalid
    obtain ⟨-, hreceiver, hamount, hne, hpayment⟩ := isValid_parts hvalid
    exact ⟨hreceiver, hamount, Ne.symm hne, hverify.mp (hpayment hsystem).2.2⟩
  · rintro ⟨hreceiver, hamount, hne, hresponse⟩
    have hnil : tx.sender ≠ [] := hsender ▸ wallet.deriveAddress_ne_nil _
    have hsignature : (tx.signedBy d k).signature ≠ [] :=
      List.ne_nil_of_length_pos (by rw [length_signature_signedBy]; decide)
    have hfields : (tx.signedBy d k).sender = tx.sender ∧ (tx.signedBy d k).receiver = tx.receiver ∧
        (tx.signedBy d k).amount = tx.amount := ⟨rfl, rfl, rfl⟩
    unfold isValid
    rw [if_neg hsystem, hderived, hverify.mpr hresponse, length_signature_signedBy, hfields.1,
      hfields.2.1, hfields.2.2, hamount]
    simp [hnil, hreceiver, Ne.symm hne, hsignature]

end SignedBy

end Transaction

namespace wallet

namespace Wallet

variable {w : Wallet}

/-- The keys of a wallet that controls its addresses sign for these addresses, with a scalar whose
key is the one of the address. -/
theorem signTransaction_eq (hw : w.Controlled) (tx : Transaction) (hhas : w.hasAddress tx.sender)
    (draws : ℕ → Option PrivateKey) : ∃ d, (0 < d ∧ d < secp256k1.N) ∧
      tx.sender = deriveAddress (compressPublicKey (G.mul d)) ∧
      w.signTransaction tx tx.sender draws =
        match randomScalar draws with
        | none => (tx, false)
        | some k => (tx.signedBy d k, true) := by
  obtain ⟨kp, hkp⟩ := Option.isSome_iff_exists.mp hhas
  obtain ⟨hcontrols, haddress⟩ := hw.entries tx.sender kp hkp
  have hkey : w.getPrivateKey tx.sender = kp.privateKey := by rw [getPrivateKey, hkp]
  refine ⟨bytes32ToBigInt kp.privateKey.toList, isValidPrivateKey_iff.mp hcontrols.scalar, ?_, ?_⟩
  · rw [← hcontrols.publicKey, ← hcontrols.address, haddress]
  · rw [signTransaction, hhas, hkey, Transaction.signTransaction_eq draws hcontrols.scalar]
    simp only [Bool.not_true, Bool.false_eq_true, ↓reduceIte, ne_eq, not_true_eq_false]

end Wallet

/-! ### Addresses on file -/

/-- Entries are filed under addresses of public keys. -/
def Wallet.Derived (w : Wallet) : Prop :=
  ∀ a, w.hasAddress a = true → ∃ publicKey, a = deriveAddress publicKey

namespace Wallet

variable {w : Wallet}

theorem Derived.store (hw : w.Derived) {kp : KeyPair}
    (hkp : kp.address = deriveAddress kp.publicKey) : (w.store kp).Derived := by
  intro a ha
  rw [hasAddress, lookup_store] at ha
  split_ifs at ha with heq
  · exact ⟨kp.publicKey, heq.trans hkp⟩
  · exact hw a ha

theorem derived_empty : ({} : Wallet).Derived := fun a ha => by cases ha

theorem derived_storeAll (keys : List (PrivateKey × PublicKey)) :
    (({} : Wallet).storeAll keys).Derived := by
  induction keys using List.reverseRecOn with
  | nil => exact derived_empty
  | append_singleton keys pair ih =>
    rw [storeAll, List.foldl_append, List.foldl_cons, List.foldl_nil, ← storeAll]
    exact ih.store rfl

/-- Every operation files its entries under addresses of public keys, whatever it loads. -/
theorem Derived.perform (hw : w.Derived) (action : Action) : (w.perform action).Derived := by
  cases action with
  | generateNewAddress draws =>
    rcases generateNewAddress_cases w draws with h | ⟨x, -, h⟩
    · rw [Wallet.perform, h]
      exact hw
    · rw [Wallet.perform, h]
      exact hw.store rfl
  | importPrivateKey privKeyHex =>
    rw [Wallet.perform]
    rcases hx : ofString privKeyHex 16 with _ | x
    · rw [importPrivateKey_of_none hx]
      exact hw
    rcases lt_or_ge x (2 ^ 256) with hlt | hge
    · rw [importPrivateKey_of_lt hx hlt]
      exact hw.store rfl
    · rw [importPrivateKey_of_le hx hge]
      exact hw
  | importKeyPair privKeyHex pubKeyHex =>
    rw [Wallet.perform, importKeyPair]
    rcases decodeKeys privKeyHex pubKeyHex with _ | ⟨privKey, pubKey⟩
    · exact hw
    · exact hw.store rfl
  | setDefaultAddress address =>
    rw [Wallet.perform, setDefaultAddress]
    split_ifs with hhas
    · exact hw
    · exact hw
  | clear => exact derived_empty
  | loadFromFile file password =>
    rw [Wallet.perform]
    rcases file with _ | armored
    · exact hw
    rcases hbody : keystore.decrypt sha256Hash armored password with _ | body
    · simp only [loadFromFile, hbody]
      exact hw
    rw [loadFromFile_eq w hbody]
    rcases fileKeys (lines body) with _ | keys
    · exact hw
    · exact derived_storeAll keys

/-- What a wallet has signed is its sender's payment, with a signature and a key attached. -/
theorem isPayment_of_signTransaction (hw : w.Derived) {tx signed : Transaction} {address : Bytes}
    {draws : ℕ → Option PrivateKey} (h : w.signTransaction tx address draws = (signed, true)) :
    ¬ signed.isSystem ∧ ∃ (signature : Signature) (senderPubkey : Bytes),
      signed = { tx with signature := signatureToHex signature, senderPubkey := senderPubkey } := by
  unfold signTransaction at h
  split_ifs at h with hhas hsender
  · cases h
  · cases h
  have hshape : ∃ (signature : Signature) (senderPubkey : Bytes),
      signed = { tx with signature := signatureToHex signature, senderPubkey := senderPubkey } := by
    unfold Transaction.signTransaction at h
    dsimp only at h
    split_ifs at h with hvalid
    · cases h
    · split at h
      · cases h
      · exact ⟨_, _, (Prod.mk.inj h).1.symm⟩
  refine ⟨?_, hshape⟩
  obtain ⟨signature, senderPubkey, rfl⟩ := hshape
  obtain ⟨publicKey, hpublicKey⟩ := hw address (by simpa using hhas)
  intro hsystem
  have hlength := length_deriveAddress publicKey
  rw [← hpublicKey, ← not_ne_iff.mp hsender, show tx.sender = Transaction.system from hsystem]
    at hlength
  exact absurd hlength (by decide)

end Wallet

end wallet

end BlockchainCrypto
