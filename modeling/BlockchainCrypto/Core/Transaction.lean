import BlockchainCrypto.Core.Money
import BlockchainCrypto.Core.Utils
import BlockchainCrypto.Crypto.ECCrypto

/-!
# Transactions

`Transaction.cpp`: the signed pre-image, the hash, and validity. Transactions of the reserved
sender `system` are mining rewards and carry no signature.

## Main definitions

* `Transaction`, with `getTransactionData`, `calculateHash`, `derivedAddressFromKey`,
  `verifySignature` and `isValid`.
* `Transaction.isSystem`: the test `getSender() == "system"`.

## Main results

* `Transaction.isValid_system_iff`: what is checked of a reward.
* `Transaction.isWord_sender`: the sender of a valid transaction is a word of an input stream.
* `Transaction.isWord_senderPubkey`: so is the key of a valid payment.
-/

namespace BlockchainCrypto

open ByteText ECCrypto

/-- A transfer from a sender to a receiver, with the signature and the key that authorise it. -/
structure Transaction where
  sender : Bytes
  receiver : Bytes
  amount : money.Amount
  timestamp : Int64
  nonce : UInt64
  signature : Bytes
  senderPubkey : Bytes
  deriving DecidableEq

namespace Transaction

/-- The sender of mining rewards. -/
def system : Bytes := ascii "system"

/-- Whether the transaction is a mining reward. -/
abbrev isSystem (tx : Transaction) : Prop := tx.sender = system

/-- The pre-image of the hash and of the signature. -/
def getTransactionData (tx : Transaction) : Bytes :=
  List.intercalate (ascii ":") [tx.sender, tx.receiver, decimalInt tx.amount.toInt,
    decimalInt tx.timestamp.toInt, decimal tx.nonce.toNat]

/-- The hash by which a transaction is known. -/
def calculateHash (tx : Transaction) : Bytes := utils.sha256 tx.getTransactionData

/-- The key of 33 bytes that a hexadecimal string decodes to. -/
def parsePublicKey (publicKeyHex : Bytes) : Option PublicKey :=
  if publicKeyHex.length ≠ PUBLIC_KEY_SIZE * 2 then none
  else
    let (count, pubKey) := hexToBytes publicKeyHex (Vector.replicate PUBLIC_KEY_SIZE 0)
    if count ≠ PUBLIC_KEY_SIZE then none else some pubKey

/-- The address of the attached key, empty when it does not decode. -/
def derivedAddressFromKey (tx : Transaction) : Bytes :=
  match parsePublicKey tx.senderPubkey with
  | none => []
  | some pubKey => deriveAddress pubKey

/-- `verifySignature` with a decoded key. -/
def verifySignatureWithKey (tx : Transaction) (publicKey : PublicKey) : Bool :=
  if tx.signature = [] then false
  else if !isValidPublicKey publicKey then false
  else verifyMessageSignature tx.getTransactionData (signatureFromHex tx.signature) publicKey

/-- `verifySignature` with a hexadecimal key. -/
def verifySignature (tx : Transaction) (publicKeyHex : Bytes) : Bool :=
  match parsePublicKey publicKeyHex with
  | none => false
  | some pubKey => tx.verifySignatureWithKey pubKey

/-- The fields are in order, and the transaction is a system transaction or carries a signature that
verifies under a key of its sender. -/
def isValid (tx : Transaction) : Bool :=
  if tx.sender = [] ∨ tx.receiver = [] then false
  else if !money.isValidAmount tx.amount then false
  else if tx.sender = tx.receiver then false
  else if tx.isSystem then true
  else if tx.signature = [] then false
  else if tx.signature.length ≠ SIGNATURE_SIZE * 2 then false
  else if tx.derivedAddressFromKey = [] ∨ tx.derivedAddressFromKey ≠ tx.sender then false
  else tx.verifySignature tx.senderPubkey

/-- The constructor for new transactions, which reads the clock and draws a nonce. -/
def create (sender receiver : Bytes) (amount : money.Amount) (now : Int64) (freshNonce : UInt64) :
    Transaction := ⟨sender, receiver, amount, now, freshNonce, [], []⟩

variable {tx : Transaction}

theorem isWord_system : IsWord system := by decide

/-! ### Consequences of validity -/

/-- Only the receiver and the amount of a reward are checked. -/
theorem isValid_system_iff (h : tx.isSystem) :
    tx.isValid = true ↔
      tx.receiver ≠ [] ∧ money.isValidAmount tx.amount = true ∧ tx.receiver ≠ system := by
  have hs : tx.sender = system := h
  unfold isValid
  rw [if_pos h, hs]
  by_cases hr : tx.receiver = []
  · simp [hr]
  · by_cases ha : money.isValidAmount tx.amount = true
    · simp [hr, ha, isWord_system.1, ne_comm]
    · simp [hr, ha]

theorem isValid_parts (h : tx.isValid = true) :
    tx.sender ≠ [] ∧ tx.receiver ≠ [] ∧ money.isValidAmount tx.amount = true ∧
      tx.sender ≠ tx.receiver ∧ (¬ tx.isSystem →
        tx.signature.length = SIGNATURE_SIZE * 2 ∧ tx.derivedAddressFromKey = tx.sender ∧
          tx.verifySignature tx.senderPubkey = true) := by
  unfold isValid at h
  split_ifs at h with h1 h2 h3 h4 h5 h6 h7
  · exact ⟨fun h => h1 (.inl h), fun h => h1 (.inr h), by simpa using h2, h3,
      fun hs => absurd h4 hs⟩
  · exact ⟨fun h => h1 (.inl h), fun h => h1 (.inr h), by simpa using h2, h3,
      fun _ => ⟨by simpa using h6, by
        by_contra hne
        exact h7 (.inr hne), h⟩⟩

theorem amount_pos (h : tx.isValid = true) : 0 < tx.amount.toInt :=
  (money.isValidAmount_iff.mp (isValid_parts h).2.2.1).1

theorem derivedAddressFromKey_eq {pubKey : PublicKey}
    (h : parsePublicKey tx.senderPubkey = some pubKey) :
    tx.derivedAddressFromKey = deriveAddress pubKey := by
  simp [derivedAddressFromKey, h]

/-- The sender of a valid payment is the address of its key. -/
theorem isHexDigit_sender (h : tx.isValid = true) (hs : ¬ tx.isSystem) :
    ∀ c ∈ tx.sender, isHexDigit c = true := by
  obtain ⟨hne, -, -, -, hkey⟩ := isValid_parts h
  have haddr := (hkey hs).2.1
  unfold derivedAddressFromKey at haddr
  split at haddr
  · exact absurd haddr.symm hne
  · rw [← haddr]
    exact fun c hc => isHexDigit_of_mem_deriveAddress hc

/-- The sender of a valid transaction is `system` or an address, so it has no white space. -/
theorem isWord_sender (h : tx.isValid = true) : IsWord tx.sender := by
  refine ⟨(isValid_parts h).1, ?_⟩
  by_cases hs : tx.isSystem
  · have hs : tx.sender = system := hs
    rw [hs]
    exact isWord_system.2
  · exact fun c hc => isSpace_eq_false_of_isHexDigit (isHexDigit_sender h hs c hc)

/-- The key of a valid payment decodes to 33 bytes. -/
theorem hexToBytes_senderPubkey (h : tx.isValid = true) (hs : ¬ tx.isSystem) :
    tx.senderPubkey.length = PUBLIC_KEY_SIZE * 2 ∧
      (hexToBytes tx.senderPubkey (Vector.replicate PUBLIC_KEY_SIZE 0)).1 = PUBLIC_KEY_SIZE := by
  have hverify := ((isValid_parts h).2.2.2.2 hs).2.2
  unfold verifySignature at hverify
  split at hverify
  · cases hverify
  · rename_i pubKey hparse
    unfold parsePublicKey at hparse
    dsimp only at hparse
    split_ifs at hparse with hlen hcount
    · exact ⟨by simpa using hlen, by simpa using hcount⟩

theorem isHexDigit_senderPubkey (h : tx.isValid = true) (hs : ¬ tx.isSystem) :
    ∀ c ∈ tx.senderPubkey, isHexDigit c = true :=
  isHexDigit_of_hexToBytes (by decide) (hexToBytes_senderPubkey h hs).2

/-- The key of a valid payment is a word. -/
theorem isWord_senderPubkey (h : tx.isValid = true) (hs : ¬ tx.isSystem) :
    IsWord tx.senderPubkey ∧ tx.senderPubkey.length = PUBLIC_KEY_SIZE * 2 := by
  have hlen := (hexToBytes_senderPubkey h hs).1
  refine ⟨⟨fun hnil => ?_, fun c hc =>
    isSpace_eq_false_of_isHexDigit (isHexDigit_senderPubkey h hs c hc)⟩, hlen⟩
  rw [hnil] at hlen
  cases hlen

end Transaction

end BlockchainCrypto
