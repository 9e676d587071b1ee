import BlockchainCrypto.Core.Transaction
import BlockchainCrypto.Crypto.Jacobian

/-!
# Signed payments

Whether a payment is valid comes down to its key, its address and the verification equation, and
the equation can be computed through Jacobian coordinates. Two payments of one key are evaluated
in this way; each spends 40 coins.

## Main definitions

* `Transaction.Signed`: a payment with a decoded key and signature that verify.
* `paymentToBob`, `paymentToCarol`: two signed payments.

## Main results

* `Transaction.isValid_of_signed`: signed payments are valid.
-/

namespace BlockchainCrypto

open ByteText ECCrypto

namespace Transaction

/-- The key and the signature of the payment decode to `publicKey` and `signature`, the key is the
one of the sender, and the signature verifies. -/
structure Signed (tx : Transaction) (publicKey : PublicKey) (signature : Signature) : Prop where
  key_eq : parsePublicKey tx.senderPubkey = some publicKey
  address_eq : deriveAddress publicKey = tx.sender
  key_valid : isValidPublicKey publicKey = true
  length_eq : tx.signature.length = SIGNATURE_SIZE * 2
  signature_eq : signatureFromHex tx.signature = signature
  verifies : verifySignatureBy evalMul (sha256Hash tx.getTransactionData) signature publicKey = true

/-- A signed payment of a valid amount to another address is valid. -/
theorem isValid_of_signed {tx : Transaction} {publicKey : PublicKey} {signature : Signature}
    (hsender : tx.sender ≠ []) (hreceiver : tx.receiver ≠ [])
    (hamount : money.isValidAmount tx.amount = true) (hne : tx.sender ≠ tx.receiver)
    (h : tx.Signed publicKey signature) : tx.isValid = true := by
  obtain ⟨hkey, haddress, hvalid, hlength, hsignature, hverifies⟩ := h
  have hnil : tx.signature ≠ [] := List.ne_nil_of_length_pos (by rw [hlength]; decide)
  have hderived : tx.derivedAddressFromKey = tx.sender := by
    rw [derivedAddressFromKey_eq hkey, haddress]
  have hverify : tx.verifySignature tx.senderPubkey = true := by
    rw [← mul_eq_evalMul, ← hsignature] at hverifies
    simp only [verifySignature, hkey, verifySignatureWithKey, hnil, ↓reduceIte, hvalid,
      Bool.not_true, Bool.false_eq_true]
    exact hverifies
  unfold isValid
  simp [hsender, hreceiver, hamount, hne, hnil, hlength, hderived, hverify]

end Transaction

/-! ### Two payments of one key -/

/-- The public key of the payer. -/
def payerKey : PublicKey :=
  #v[0x03, 0x37, 0xa4, 0xae, 0xf1, 0xf8, 0x42, 0x3c, 0xa0, 0x76, 0xe4, 0xb7, 0xd9, 0x9a, 0x8c,
     0xab, 0xff, 0x40, 0xdd, 0xb8, 0x23, 0x1f, 0x2a, 0x9f, 0x01, 0x08, 0x1f, 0x15, 0xd7, 0xfa,
     0x65, 0xc1, 0xba]

/-- The address of the payer. -/
def payer : Bytes := ascii "9c44f51e29bc5f8e9723c166cfb18b8ce2065c9c"

/-- A payment of 40 coins by the payer. -/
def payment (receiver : Bytes) (nonce : UInt64) (signature : Bytes) : Transaction :=
  ⟨payer, receiver, money.coins 40, 1, nonce, signature,
    ascii "0337a4aef1f8423ca076e4b7d99a8cabff40ddb8231f2a9f01081f15d7fa65c1ba"⟩

/-- The signature of the first payment. -/
def signatureToBob : Signature :=
  #v[0x75, 0x92, 0xaa, 0xb5, 0xd4, 0x36, 0x18, 0xdd, 0xa1, 0x3f, 0xba, 0x71, 0xe3, 0x99, 0x3c,
     0xd7, 0x51, 0x7a, 0x71, 0x2d, 0x3d, 0xa4, 0x96, 0x64, 0xc0, 0x6e, 0xe1, 0xbd, 0x3d, 0x1f,
     0x70, 0xaf, 0xcd, 0xa7, 0x20, 0x9f, 0xda, 0x5c, 0xf4, 0xa6, 0xdf, 0x70, 0x9a, 0xac, 0xaa,
     0x0d, 0xf9, 0x0d, 0x38, 0x08, 0x26, 0xa3, 0x1c, 0x11, 0x53, 0x8a, 0xbc, 0x20, 0x9a, 0xf9,
     0xf3, 0xaf, 0x1a, 0xa8]

/-- The signature of the second payment. -/
def signatureToCarol : Signature :=
  #v[0xe5, 0x74, 0x0e, 0x63, 0xba, 0xd2, 0x80, 0x81, 0xed, 0x7c, 0xf6, 0x54, 0xdd, 0x6c, 0x19,
     0x02, 0x9c, 0xa0, 0x33, 0x82, 0xfc, 0x05, 0xab, 0x5f, 0x5d, 0xda, 0x81, 0xf2, 0xc5, 0x5b,
     0x84, 0x5b, 0x9a, 0xac, 0xdf, 0xee, 0xc2, 0x56, 0xaf, 0x60, 0xd2, 0x9b, 0xda, 0x86, 0xd9,
     0xd4, 0x04, 0xda, 0x62, 0xa1, 0xc8, 0x1e, 0x4b, 0x7b, 0xdc, 0xdf, 0x9c, 0x2b, 0x36, 0x0a,
     0x87, 0x6f, 0x3b, 0x23]

/-- A payment of one unit, with its signature. -/
def paymentToBob : Transaction :=
  payment (ascii "bob") 1 (bytesToHex signatureToBob.toList)

/-- Another payment from the same sender. -/
def paymentToCarol : Transaction :=
  payment (ascii "carol") 2 (bytesToHex signatureToCarol.toList)

set_option maxRecDepth 4000 in
theorem signed_paymentToBob : paymentToBob.Signed payerKey signatureToBob where
  key_eq := by decide +kernel
  address_eq := by decide +kernel
  key_valid := by decide +kernel
  length_eq := by decide +kernel
  signature_eq := by decide +kernel
  verifies := by decide +kernel

theorem signed_paymentToCarol : paymentToCarol.Signed payerKey signatureToCarol where
  key_eq := signed_paymentToBob.key_eq
  address_eq := signed_paymentToBob.address_eq
  key_valid := signed_paymentToBob.key_valid
  length_eq := by decide +kernel
  signature_eq := by decide +kernel
  verifies := by decide +kernel

theorem isValid_paymentToBob : paymentToBob.isValid = true :=
  Transaction.isValid_of_signed (by decide) (by decide) (by decide) (by decide)
    signed_paymentToBob

theorem isValid_paymentToCarol : paymentToCarol.isValid = true :=
  Transaction.isValid_of_signed (by decide) (by decide) (by decide) (by decide)
    signed_paymentToCarol

end BlockchainCrypto
