import BlockchainCrypto.Theory.Runs
import BlockchainCrypto.Wallet.Wallet

/-!
# Whether wallet entries control their addresses

An entry controls its address when its private key is a scalar in `[1, N - 1]`, its public key is
the one of that scalar, and the address is derived from the public key. Generated keys do. A
private key that is imported alone is not checked for its range; two keys that are imported
together are not checked against each other; and a file may name a default address that it does not
hold. These are the only ways to lose control.

## Main definitions

* `wallet.KeyPair.Controls`, `wallet.Wallet.Controlled`.
* `wallet.Action`, `wallet.Wallet.perform`, `wallet.system`: the operations and their runs.
* `wallet.Wallet.Sound`: the operations that keep control.

## Main results

* `wallet.Wallet.controlled_perform_iff`: control is kept by sound operations, and by no others.
* `wallet.entries_control_addresses`: control in runs of sound operations.
* `wallet.importPrivateKey_zero_uncontrolled`: two imports that lose control.
-/

namespace BlockchainCrypto

open ByteText ECCrypto

namespace wallet

/-! ### Control -/

/-- The private key is in range, and the other fields follow from it. -/
structure KeyPair.Controls (kp : KeyPair) : Prop where
  scalar : isValidPrivateKey kp.privateKey = true
  publicKey : kp.publicKey = compressPublicKey (G.mul (bytes32ToBigInt kp.privateKey.toList))
  address : kp.address = deriveAddress kp.publicKey

/-- Every entry controls the address that it is filed under, and the default address is one of
these. -/
structure Wallet.Controlled (w : Wallet) : Prop where
  entries : ∀ a kp, w.keyPairs.lookup a = some kp → kp.Controls ∧ kp.address = a
  default : w.defaultAddress = [] ∨ w.defaultAddress ∈ w.keyPairs

/-- The public key is the one of the private key. -/
def KeysMatch (keys : PrivateKey × PublicKey) : Prop :=
  keys.2 = compressPublicKey (G.mul (bytes32ToBigInt keys.1.toList))

/-- The entry of two keys that were imported together. -/
def pairEntry (keys : PrivateKey × PublicKey) : KeyPair :=
  ⟨keys.1, keys.2, deriveAddress keys.2⟩

theorem controls_pairEntry_iff {keys : PrivateKey × PublicKey}
    (h : isValidPrivateKey keys.1 = true) : (pairEntry keys).Controls ↔ KeysMatch keys :=
  ⟨fun hc => hc.publicKey, fun hm => ⟨h, hm, rfl⟩⟩

/-- A negative scalar is stored as zero. -/
theorem bytes32ToBigInt_privateKeyOf_of_neg {x : ℤ} (h : x < 0) :
    bytes32ToBigInt (privateKeyOf x).toList = 0 := by
  have hdigits : hexDigits x = hexDigits (-1) := by
    rw [hexDigits, hexDigits, if_neg (not_le.mpr h), if_neg (by decide)]
  rw [toList_privateKeyOf, bigIntToBytes32, hdigits]
  decide +kernel

/-- The stored scalar is in range exactly when the scalar itself is. -/
theorem isValidPrivateKey_privateKeyOf_iff {x : ℤ} (h : x < 2 ^ 256) :
    isValidPrivateKey (privateKeyOf x) = true ↔ 0 < x ∧ x < secp256k1.N := by
  rw [isValidPrivateKey_iff]
  rcases lt_or_ge x 0 with hneg | h0
  · rw [bytes32ToBigInt_privateKeyOf_of_neg hneg]
    exact iff_of_false (fun hc => lt_irrefl 0 hc.1) fun hc => lt_asymm hneg hc.1
  · rw [toList_privateKeyOf, bytes32ToBigInt_bigIntToBytes32 h0 h]

/-- The entry of a scalar controls its address exactly when the scalar is in range. -/
theorem controls_entryOf_iff {x : ℤ} (h : x < 2 ^ 256) :
    (entryOf x).Controls ↔ 0 < x ∧ x < secp256k1.N := by
  rw [← isValidPrivateKey_privateKeyOf_iff h]
  refine ⟨KeyPair.Controls.scalar, fun hvalid => ⟨hvalid, ?_, rfl⟩⟩
  have hrange := (isValidPrivateKey_privateKeyOf_iff h).mp hvalid
  have hvalue : bytes32ToBigInt (entryOf x).privateKey.toList = x :=
    bytes32ToBigInt_privateKeyOf hrange
  rw [hvalue, entryOf, Int.emod_eq_of_lt hrange.1.le hrange.2]

/-! ### Operations and runs -/

/-- The operations on a wallet, with what the system's generator draws and what a file holds. -/
inductive Action where
  | generateNewAddress (draws : ℕ → Option PrivateKey)
  | importPrivateKey (privKeyHex : Bytes)
  | importKeyPair (privKeyHex pubKeyHex : Bytes)
  | setDefaultAddress (address : Bytes)
  | clear
  | loadFromFile (file : Option Bytes) (password : Bytes)

/-- The wallet after an operation. -/
def Wallet.perform (w : Wallet) : Action → Wallet
  | .generateNewAddress draws => (w.generateNewAddress draws).1
  | .importPrivateKey privKeyHex => (w.importPrivateKey privKeyHex).1
  | .importKeyPair privKeyHex pubKeyHex => (w.importKeyPair privKeyHex pubKeyHex).1
  | .setDefaultAddress address => w.setDefaultAddress address
  | .clear => w.clear
  | .loadFromFile file password => (w.loadFromFile file password).1

/-- Runs start with the empty wallet. -/
def system : Runs.System Wallet Action where
  init w := w = {}
  step w a w' := w' = w.perform a

/-- The keys in the lines of a file, in their order; none when a line is not accepted. -/
def fileKeys : List Bytes → Option (List (PrivateKey × PublicKey))
  | [] => some []
  | text :: texts =>
    if text = [] ∨ Wallet.DEFAULT_LINE.isPrefixOf text then fileKeys texts
    else do
      let (privHex, pubHex) ← Wallet.splitEntry text
      let keys ← decodeKeys privHex pubHex
      let rest ← fileKeys texts
      pure (keys :: rest)

/-- The default address in the last line that gives one. -/
def fileDefault (start : Bytes) (texts : List Bytes) : Bytes :=
  texts.foldl (fun d text => if Wallet.DEFAULT_LINE.isPrefixOf text then text.drop 8 else d) start

/-- The last keys of an address. -/
def lastKeys (keys : List (PrivateKey × PublicKey)) (a : Bytes) :
    Option (PrivateKey × PublicKey) :=
  keys.reverse.find? fun pair => deriveAddress pair.2 == a

/-- The operations that keep control: a private key is in range or too long to be stored, keys that
are accepted together match, and so do those of a file, whose default address is one of its own. -/
def Sound : Action → Prop
  | .importPrivateKey privKeyHex => ∀ x, ofString privKeyHex 16 = some x →
      (0 < x ∧ x < secp256k1.N) ∨ 2 ^ 256 ≤ x
  | .importKeyPair privKeyHex pubKeyHex =>
      ∀ keys, decodeKeys privKeyHex pubKeyHex = some keys → KeysMatch keys
  | .loadFromFile file password => ∀ armored body keys, file = some armored →
      keystore.decrypt sha256Hash armored password = some body →
      fileKeys (lines body) = some keys →
        (∀ a pair, lastKeys keys a = some pair → KeysMatch pair) ∧
          (fileDefault [] (lines body) = [] ∨
            (lastKeys keys (fileDefault [] (lines body))).isSome = true)
  | _ => True

namespace Wallet

variable {w : Wallet}

theorem lookup_store (w : Wallet) (kp : KeyPair) (a : Bytes) :
    (w.store kp).keyPairs.lookup a = if a = kp.address then some kp else w.keyPairs.lookup a := by
  split_ifs with h
  · rw [h, store, Finmap.lookup_insert]
  · rw [store, Finmap.lookup_insert_of_ne _ h]

/-- The default address stays among the stored ones, and a first address becomes the default. -/
theorem default_store (h : w.defaultAddress = [] ∨ w.defaultAddress ∈ w.keyPairs) (kp : KeyPair) :
    (w.store kp).defaultAddress = [] ∨ (w.store kp).defaultAddress ∈ (w.store kp).keyPairs := by
  by_cases hdefault : w.defaultAddress = []
  · rw [store, if_pos hdefault]
    exact .inr (Finmap.mem_insert.mpr (.inl rfl))
  · rw [store, if_neg hdefault]
    exact .inr (Finmap.mem_insert.mpr (.inr (h.resolve_left hdefault)))

/-- A stored entry decides about control. -/
theorem controlled_store_iff (hw : w.Controlled) (kp : KeyPair) :
    (w.store kp).Controlled ↔ kp.Controls := by
  refine ⟨fun h => (h.entries kp.address kp ?_).1,
    fun h => ⟨fun a kp' hlookup => ?_, default_store hw.default kp⟩⟩
  · rw [lookup_store, if_pos rfl]
  · rw [lookup_store] at hlookup
    split_ifs at hlookup with ha
    · obtain rfl := Option.some.inj hlookup
      exact ⟨h, ha.symm⟩
    · exact hw.entries a kp' hlookup

theorem controlled_empty : ({} : Wallet).Controlled where
  entries a kp h := by cases h
  default := .inl rfl

/-! ### Loading -/

/-- The scratch wallet that keys are imported into. -/
def storeAll (w : Wallet) (keys : List (PrivateKey × PublicKey)) : Wallet :=
  keys.foldl (fun w pair => w.store (pairEntry pair)) w

/-- The loop over the lines imports the keys and keeps the last default address. -/
theorem foldlM_loadLine (texts : List Bytes) (parsed : Wallet) (start : Bytes) :
    texts.foldlM loadLine (parsed, start) =
      (fileKeys texts).map fun keys => (parsed.storeAll keys, fileDefault start texts) := by
  induction texts generalizing parsed start with
  | nil => rfl
  | cons text texts ih =>
    rw [List.foldlM_cons, fileKeys]
    by_cases hnil : text = []
    · have hprefix : DEFAULT_LINE.isPrefixOf text = false := by rw [hnil]; rfl
      rw [loadLine, if_pos hnil, if_pos (.inl hnil), fileDefault, List.foldl_cons, hprefix,
        if_neg Bool.false_ne_true]
      exact ih parsed start
    by_cases hprefix : DEFAULT_LINE.isPrefixOf text = true
    · rw [loadLine, if_neg hnil, if_pos hprefix, if_pos (.inr hprefix), fileDefault,
        List.foldl_cons, if_pos hprefix]
      exact ih parsed (text.drop 8)
    rw [loadLine, if_neg hnil, if_neg hprefix, if_neg (not_or.mpr ⟨hnil, hprefix⟩), fileDefault,
      List.foldl_cons, if_neg hprefix, ← fileDefault]
    rcases splitEntry text with _ | ⟨privHex, pubHex⟩
    · rfl
    rcases hkeys : decodeKeys privHex pubHex with _ | keys
    · simp only [importKeyPair, hkeys, Option.bind_eq_bind, Option.bind_none, Option.bind_some,
        Option.map_none]
    · simp only [importKeyPair, hkeys, Option.bind_eq_bind, Option.bind_some]
      rw [ih]
      rcases fileKeys texts with _ | rest
      · rfl
      · rfl

theorem lookup_storeAll (keys : List (PrivateKey × PublicKey)) (a : Bytes) :
    (({} : Wallet).storeAll keys).keyPairs.lookup a = (lastKeys keys a).map pairEntry := by
  induction keys using List.reverseRecOn with
  | nil => rfl
  | append_singleton keys pair ih =>
    have haddress : (pairEntry pair).address = deriveAddress pair.2 := rfl
    rw [storeAll, List.foldl_append, List.foldl_cons, List.foldl_nil, lookup_store, ← storeAll, ih,
      lastKeys, lastKeys, List.reverse_append, List.reverse_singleton, List.singleton_append,
      List.find?_cons, haddress]
    by_cases ha : deriveAddress pair.2 = a
    · rw [if_pos ha.symm, beq_iff_eq.mpr ha]
      rfl
    · rw [if_neg (Ne.symm ha), beq_eq_false_iff_ne.mpr ha]

/-- The default address of a scratch wallet is stored. -/
theorem default_storeAll (keys : List (PrivateKey × PublicKey)) :
    (({} : Wallet).storeAll keys).defaultAddress = [] ∨
      (({} : Wallet).storeAll keys).defaultAddress ∈ (({} : Wallet).storeAll keys).keyPairs := by
  induction keys using List.reverseRecOn with
  | nil => exact .inl rfl
  | append_singleton keys pair ih =>
    rw [storeAll, List.foldl_append, List.foldl_cons, List.foldl_nil, ← storeAll]
    exact default_store ih (pairEntry pair)

theorem valid_of_fileKeys {texts : List Bytes} {keys : List (PrivateKey × PublicKey)}
    (h : fileKeys texts = some keys) :
    ∀ pair ∈ keys, isValidPrivateKey pair.1 = true ∧ isValidPublicKey pair.2 = true := by
  induction texts generalizing keys with
  | nil =>
    obtain rfl := Option.some.inj h
    exact fun pair hpair => absurd hpair List.not_mem_nil
  | cons text texts ih =>
    rw [fileKeys] at h
    split_ifs at h with hskip
    · exact ih h
    · obtain ⟨⟨privHex, pubHex⟩, -, h⟩ := Option.bind_eq_some_iff.mp h
      obtain ⟨⟨privKey, pubKey⟩, hkeys, h⟩ := Option.bind_eq_some_iff.mp h
      obtain ⟨rest, hrest, h⟩ := Option.bind_eq_some_iff.mp h
      obtain rfl := Option.some.inj h
      exact List.forall_mem_cons.mpr ⟨valid_of_decodeKeys hkeys, ih hrest⟩

/-- What a load comes to. -/
theorem loadFromFile_eq (w : Wallet) {armored body password : Bytes}
    (hbody : keystore.decrypt sha256Hash armored password = some body) :
    w.loadFromFile (some armored) password =
      match fileKeys (lines body) with
      | none => (w, false)
      | some keys =>
        (⟨(({} : Wallet).storeAll keys).keyPairs,
          if fileDefault [] (lines body) = [] then (({} : Wallet).storeAll keys).defaultAddress
          else fileDefault [] (lines body)⟩, true) := by
  simp only [loadFromFile, hbody, foldlM_loadLine]
  rcases fileKeys (lines body) with _ | keys
  · rfl
  · rfl

/-- Loaded keys control their addresses exactly when the last keys of each address match. -/
theorem controlled_load_iff {keys : List (PrivateKey × PublicKey)} (default : Bytes)
    (hvalid : ∀ pair ∈ keys, isValidPrivateKey pair.1 = true) :
    (Wallet.mk (({} : Wallet).storeAll keys).keyPairs (if default = [] then
        (({} : Wallet).storeAll keys).defaultAddress else default)).Controlled ↔
      (∀ a pair, lastKeys keys a = some pair → KeysMatch pair) ∧
        (default = [] ∨ (lastKeys keys default).isSome = true) := by
  have hmem (a : Bytes) : a ∈ (({} : Wallet).storeAll keys).keyPairs ↔
      (lastKeys keys a).isSome = true := by
    rw [← Finmap.lookup_isSome, lookup_storeAll, Option.isSome_map]
  have hlast {a : Bytes} {pair : PrivateKey × PublicKey} (h : lastKeys keys a = some pair) :
      isValidPrivateKey pair.1 = true ∧ deriveAddress pair.2 = a :=
    ⟨hvalid pair (List.mem_reverse.mp (List.mem_of_find?_eq_some h)),
      by simpa using List.find?_some h⟩
  constructor
  · intro h
    refine ⟨fun a pair hpair => ?_, ?_⟩
    · have hcontrols := (h.entries a (pairEntry pair) (by rw [lookup_storeAll, hpair]; rfl)).1
      exact (controls_pairEntry_iff (hlast hpair).1).mp hcontrols
    · by_cases hnil : default = []
      · exact .inl hnil
      · have hdefault := h.default
        rw [if_neg hnil] at hdefault
        exact .inr ((hmem default).mp (hdefault.resolve_left hnil))
  · rintro ⟨hmatch, hdefault⟩
    refine ⟨fun a kp hlookup => ?_, ?_⟩
    · rw [lookup_storeAll, Option.map_eq_some_iff] at hlookup
      obtain ⟨pair, hpair, rfl⟩ := hlookup
      exact ⟨(controls_pairEntry_iff (hlast hpair).1).mpr (hmatch a pair hpair), (hlast hpair).2⟩
    · by_cases hnil : default = []
      · rw [if_pos hnil]
        exact default_storeAll keys
      · rw [if_neg hnil]
        exact .inr ((hmem default).mpr (hdefault.resolve_left hnil))

/-! ### Operations -/

/-- Of a file whose keys are read only these keys and the default address matter. -/
theorem sound_loadFromFile_iff {armored password body : Bytes}
    {keys : List (PrivateKey × PublicKey)}
    (hbody : keystore.decrypt sha256Hash armored password = some body)
    (hkeys : fileKeys (lines body) = some keys) :
    Sound (.loadFromFile (some armored) password) ↔
      (∀ a pair, lastKeys keys a = some pair → KeysMatch pair) ∧
        (fileDefault [] (lines body) = [] ∨
          (lastKeys keys (fileDefault [] (lines body))).isSome = true) := by
  constructor
  · intro hsound
    exact hsound armored body keys rfl hbody hkeys
  · rintro hsound _ body' keys' ⟨⟩ h h'
    obtain rfl := Option.some.inj (hbody.symm.trans h)
    obtain rfl := Option.some.inj (hkeys.symm.trans h')
    exact hsound

/-- **Sound operations keep control, and others lose it.** -/
theorem controlled_perform_iff (hw : w.Controlled) (action : Action) :
    (w.perform action).Controlled ↔ Sound action := by
  cases action with
  | generateNewAddress draws =>
    refine iff_of_true ?_ trivial
    rcases generateNewAddress_cases w draws with h | ⟨x, hx, h⟩
    · rw [perform, h]
      exact hw
    · rw [perform, h]
      exact (controlled_store_iff hw _).mpr ((controls_entryOf_iff (hx.2.trans N_lt)).mpr hx)
  | importPrivateKey privKeyHex =>
    rw [perform, Sound]
    rcases hx : ofString privKeyHex 16 with _ | x
    · rw [importPrivateKey_of_none hx]
      exact iff_of_true hw fun x h => absurd h (Option.some_ne_none x).symm
    rcases lt_or_ge x (2 ^ 256) with hlt | hge
    · rw [importPrivateKey_of_lt hx hlt, controlled_store_iff hw, controls_entryOf_iff hlt]
      simp only [Option.some.injEq, forall_eq', not_le.mpr hlt, or_false]
    · rw [importPrivateKey_of_le hx hge]
      simp only [Option.some.injEq, forall_eq', hge, or_true, hw]
  | importKeyPair privKeyHex pubKeyHex =>
    rw [perform, Sound, importKeyPair]
    rcases hkeys : decodeKeys privKeyHex pubKeyHex with _ | ⟨privKey, pubKey⟩
    · exact iff_of_true hw fun keys h => absurd h (Option.some_ne_none keys).symm
    · have hstore := controlled_store_iff hw (pairEntry (privKey, pubKey))
      simp only [Option.some.injEq, forall_eq']
      exact hstore.trans (controls_pairEntry_iff (valid_of_decodeKeys hkeys).1)
  | setDefaultAddress address =>
    refine iff_of_true ?_ trivial
    rw [perform, setDefaultAddress]
    split_ifs with hhas
    · exact ⟨hw.entries, .inr (Finmap.lookup_isSome.mp hhas)⟩
    · exact hw
  | clear => exact iff_of_true controlled_empty trivial
  | loadFromFile file password =>
    rw [perform]
    rcases file with _ | armored
    · exact iff_of_true hw fun armored _ _ h => absurd h (Option.some_ne_none armored).symm
    rcases hbody : keystore.decrypt sha256Hash armored password with _ | body
    · have hfailed : w.loadFromFile (some armored) password = (w, false) := by
        simp only [loadFromFile, hbody]
      rw [hfailed]
      refine iff_of_true hw ?_
      rintro _ body keys ⟨⟩ h
      rw [hbody] at h
      cases h
    rw [loadFromFile_eq w hbody]
    rcases hkeys : fileKeys (lines body) with _ | keys
    · refine iff_of_true hw ?_
      rintro _ body' keys ⟨⟩ h h'
      obtain rfl := Option.some.inj (hbody.symm.trans h)
      rw [hkeys] at h'
      cases h'
    · have hvalid := fun pair hpair => (valid_of_fileKeys hkeys pair hpair).1
      exact (controlled_load_iff _ hvalid).trans (sound_loadFromFile_iff hbody hkeys).symm

/-- A transaction that was signed carries a key of its sender. -/
theorem derivedAddressFromKey_of_signTransaction (hw : w.Controlled) {tx tx' : Transaction}
    {fromAddress : Bytes} {draws : ℕ → Option PrivateKey}
    (h : w.signTransaction tx fromAddress draws = (tx', true)) :
    ¬ (tx'.derivedAddressFromKey = [] ∨ tx'.derivedAddressFromKey ≠ tx'.sender) := by
  unfold signTransaction at h
  split_ifs at h with hhas hsender
  · cases h
  · cases h
  rw [Bool.not_eq_true, Bool.not_eq_false', hasAddress, Option.isSome_iff_exists] at hhas
  obtain ⟨kp, hkp⟩ := hhas
  obtain ⟨hcontrols, haddress⟩ := hw.entries fromAddress kp hkp
  rw [getPrivateKey, hkp] at h
  obtain ⟨hvalid, hsame, hkey⟩ := Transaction.signTransaction_eq_true h
  obtain ⟨hpos, hlt⟩ := isValidPrivateKey_iff.mp hvalid
  have hpublic : tx'.senderPubkey = bytesToHex kp.publicKey.toList := by
    rw [hkey, keyPairFromPrivateKey, Int.emod_eq_of_lt hpos.le hlt, hcontrols.publicKey]
    rfl
  have hderived : tx'.derivedAddressFromKey = deriveAddress kp.publicKey :=
    Transaction.derivedAddressFromKey_eq
      (hpublic ▸ Transaction.parsePublicKey_bytesToHex kp.publicKey)
  rw [hderived, hsame, not_ne_iff.mp hsender, ← haddress, hcontrols.address]
  exact not_or.mpr ⟨deriveAddress_ne_nil _, not_ne_iff.mpr rfl⟩

end Wallet

/-- **Wallet entries control their addresses** in every state that a run of sound operations
reaches, and what is signed there passes the check of the key against the sender. From a state in
which every entry has control, exactly the sound operations lead to such a state. -/
theorem entries_control_addresses (w : Wallet) :
    (system.Reachable (fun _ action => Sound action) w → w.Controlled ∧
      ∀ tx fromAddress draws tx', w.signTransaction tx fromAddress draws = (tx', true) →
        ¬ (tx'.derivedAddressFromKey = [] ∨ tx'.derivedAddressFromKey ≠ tx'.sender)) ∧
    (w.Controlled → ∀ action, (w.perform action).Controlled ↔ Sound action) := by
  refine ⟨fun hreach => ?_, fun hw action => Wallet.controlled_perform_iff hw action⟩
  have hcontrolled : w.Controlled := by
    refine hreach.invariant Wallet.Controlled ?_ ?_
    · rintro w rfl
      exact Wallet.controlled_empty
    · rintro w action w' - hw hsound rfl
      exact (Wallet.controlled_perform_iff hw action).mpr hsound
  exact ⟨hcontrolled, fun tx fromAddress draws tx' h =>
    Wallet.derivedAddressFromKey_of_signTransaction hcontrolled h⟩

/-- The wallet with the private key `1`. -/
theorem entries_control_addresses_one :
    (({} : Wallet).perform (.importPrivateKey (ascii "1"))).Controlled := by
  refine ((entries_control_addresses _).1 (.step (.init rfl) ?_ rfl)).1
  intro x hx
  have hone : ofString (ascii "1") 16 = some 1 := by decide
  obtain rfl := Option.some.inj (hone.symm.trans hx)
  exact .inl (by decide)

/-- The private key `0` is stored when it is imported, and so is the private key `2` with the
public key of `1`. -/
theorem importPrivateKey_zero_uncontrolled :
    (({} : Wallet).importPrivateKey (ascii "0")).2 = true ∧
      ¬ (({} : Wallet).perform (.importPrivateKey (ascii "0"))).Controlled ∧
      (({} : Wallet).importKeyPair (bytesToHex (privateKeyOf 2).toList)
        (bytesToHex (compressPublicKey (G.mul 1)).toList)).2 = true ∧
      ¬ (({} : Wallet).perform (.importKeyPair (bytesToHex (privateKeyOf 2).toList)
        (bytesToHex (compressPublicKey (G.mul 1)).toList))).Controlled := by
  have hzero : ofString (ascii "0") 16 = some 0 := by decide
  have hone : (0 : ℤ) < 1 ∧ 1 < secp256k1.N := by decide
  have htwo : (0 : ℤ) < 2 ∧ 2 < secp256k1.N := by decide
  have hvalue := bytes32ToBigInt_privateKeyOf htwo
  have hkeys := decodeKeys_bytesToHex (privateKeyOf 2) (compressPublicKey (G.mul 1))
  rw [if_pos ⟨isValidPrivateKey_iff.mpr (by rw [hvalue]; exact htwo),
    isValidPublicKey_compressPublicKey hone⟩] at hkeys
  refine ⟨?_, fun h => ?_, ?_, fun h => ?_⟩
  · rw [Wallet.importPrivateKey_of_lt hzero (by decide)]
  · obtain hrange | hlong := (Wallet.controlled_perform_iff Wallet.controlled_empty _).mp h 0 hzero
    · exact lt_irrefl 0 hrange.1
    · exact absurd hlong (by decide)
  · rw [Wallet.importKeyPair, hkeys]
  · have hmatch := (Wallet.controlled_perform_iff Wallet.controlled_empty _).mp h _ hkeys
    rw [KeysMatch, hvalue] at hmatch
    -- The points of different scalars below the order are different.
    obtain ⟨hcurve, hpoint, hfinite⟩ := mul_G_spec hone
    obtain ⟨hcurve', hpoint', hfinite'⟩ := mul_G_spec htwo
    have hsame := compressPublicKey_inj hcurve hcurve' hfinite hfinite' hmatch
    rw [hsame, hpoint', two_zsmul, one_zsmul, add_eq_left] at hpoint
    exact toPoint_G_ne_zero hpoint

end wallet

end BlockchainCrypto
