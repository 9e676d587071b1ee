import BlockchainCrypto.Wallet.KeyControl

/-!
# Whether saved wallets can be loaded

The writer renders every entry that a wallet holds, and the reader checks every entry that it
finds: one that it refuses fails the whole load. Entries that were generated or imported as a pair
passed the same checks before. A private key that was imported alone did not, and when it is out of
range the file cannot be read any more.

## Main definitions

* `wallet.Wallet.Filed`: entries are filed under the addresses of their public keys.
* `wallet.KeyPair.Readable`: the checks of the reader.
* `wallet.Wallet.Reloads`: what was saved comes back, in whatever order it was written.
* `wallet.Readable`: the operations that keep a wallet loadable.

## Main results

* `wallet.Wallet.reloads_iff`: a wallet is loadable exactly when the reader accepts its entries.
* `wallet.saved_wallets_load`: loadable wallets in runs of readable operations.
* `wallet.importPrivateKey_zero_unreadable`: an import after which the file is refused.
-/

namespace BlockchainCrypto

open ByteText ECCrypto

namespace wallet

/-! ### The text of an entry -/

theorem colon_not_mem_bytesToHex (data : Bytes) : 58 ∉ bytesToHex data := fun h =>
  absurd (isHexDigit_of_mem_bytesToHex h) (by decide)

/-- The two keys of a rendered entry. -/
theorem splitEntry_entryText {a : Bytes} (ha : 58 ∉ a) (kp : KeyPair) :
    Wallet.splitEntry (Wallet.entryText a kp) =
      some (bytesToHex kp.privateKey.toList, bytesToHex kp.publicKey.toList) := by
  have hfree {t : Bytes} (ht : 58 ∉ t) : ∀ b ∈ t, (decide <| b ≠ 58) = true := fun b hb =>
    decide_eq_true fun h => ht (h ▸ hb)
  have hpriv := hfree (colon_not_mem_bytesToHex kp.privateKey.toList)
  have hcolon (t : Bytes) : (58 :: t).dropWhile (· ≠ 58) = 58 :: t := by simp
  have hstop (t : Bytes) : (58 :: t).takeWhile (· ≠ 58) = [] := by simp
  simp only [Wallet.splitEntry, Wallet.entryText, List.dropWhile_append_of_pos (hfree ha), hcolon,
    List.dropWhile_append_of_pos hpriv, List.takeWhile_append_of_pos hpriv, hstop,
    List.append_nil]

/-- The line of an entry is neither empty nor the line of the default address. -/
theorem entryText_ne {a : Bytes} {publicKey : PublicKey} (ha : deriveAddress publicKey = a)
    (kp : KeyPair) : ¬ (Wallet.entryText a kp = [] ∨
      Wallet.DEFAULT_LINE.isPrefixOf (Wallet.entryText a kp) = true) := by
  have hlength : Wallet.DEFAULT_LINE.length ≤ a.length := by
    rw [← ha, length_deriveAddress]
    decide
  rintro (h | h)
  · exact deriveAddress_ne_nil publicKey (ha.trans (List.append_eq_nil_iff.mp h).1)
  · have hprefix := List.prefix_of_prefix_length_le (List.isPrefixOf_iff_prefix.mp h)
      (List.prefix_append a _) hlength
    have hcolon : 58 ∈ a := hprefix.subset (by decide)
    exact colon_not_mem_bytesToHex _ (ha ▸ hcolon)

theorem newline_not_mem_deriveAddress (publicKey : PublicKey) :
    newline ∉ deriveAddress publicKey := keystore.newline_not_mem_bytesToHex _

/-- The keys of an entry. -/
def KeyPair.keys (kp : KeyPair) : PrivateKey × PublicKey := (kp.privateKey, kp.publicKey)

/-- The checks of the reader. -/
def KeyPair.Readable (kp : KeyPair) : Prop :=
  isValidPrivateKey kp.privateKey = true ∧ isValidPublicKey kp.publicKey = true

theorem KeyPair.Readable.decodeKeys_eq {kp : KeyPair} (h : kp.Readable) :
    decodeKeys (bytesToHex kp.privateKey.toList) (bytesToHex kp.publicKey.toList) =
      some kp.keys := (decodeKeys_bytesToHex _ _).trans (if_pos h)

theorem decodeKeys_eq_none {kp : KeyPair} (h : ¬ kp.Readable) :
    decodeKeys (bytesToHex kp.privateKey.toList) (bytesToHex kp.publicKey.toList) = none :=
  (decodeKeys_bytesToHex _ _).trans (if_neg h)

/-- The reader accepts the lines of entries exactly when it accepts each of them. -/
theorem fileKeys_entryText_iff {entries : List (Sigma fun _ : Bytes => KeyPair)}
    (hfiled : ∀ e ∈ entries, deriveAddress e.2.publicKey = e.1)
    {keys : List (PrivateKey × PublicKey)} :
    fileKeys (entries.map fun e => Wallet.entryText e.1 e.2) = some keys ↔
      (∀ e ∈ entries, e.2.Readable) ∧ keys = entries.map fun e => e.2.keys := by
  induction entries generalizing keys with
  | nil => simp [fileKeys, eq_comm]
  | cons e entries ih =>
    obtain ⟨he, hrest⟩ := List.forall_mem_cons.mp hfiled
    have hcolon : 58 ∉ e.1 := he ▸ colon_not_mem_bytesToHex _
    rw [List.map_cons, fileKeys, if_neg (entryText_ne he e.2), splitEntry_entryText hcolon,
      List.forall_mem_cons, List.map_cons]
    simp only [Option.bind_eq_bind, Option.bind_some]
    by_cases hreadable : e.2.Readable
    · rw [hreadable.decodeKeys_eq, Option.bind_some, Option.bind_eq_some_iff]
      constructor
      · rintro ⟨rest, hkeys, h⟩
        obtain ⟨hall, rfl⟩ := (ih hrest).mp hkeys
        exact ⟨⟨hreadable, hall⟩, (Option.some.inj h).symm⟩
      · rintro ⟨⟨-, hall⟩, rfl⟩
        exact ⟨_, (ih hrest).mpr ⟨hall, rfl⟩, rfl⟩
    · rw [decodeKeys_eq_none hreadable, Option.bind_none]
      exact iff_of_false (by simp) fun h => hreadable h.1.1

/-- Among entries with different addresses, the last keys of an address are its only ones. -/
theorem lastKeys_map {entries : List (Sigma fun _ : Bytes => KeyPair)} (hnodup : entries.NodupKeys)
    (hfiled : ∀ e ∈ entries, deriveAddress e.2.publicKey = e.1) (a : Bytes) :
    lastKeys (entries.map fun e => e.2.keys) a = (entries.dlookup a).map KeyPair.keys := by
  induction entries with
  | nil => rfl
  | cons e entries ih =>
    obtain ⟨he, hrest⟩ := List.forall_mem_cons.mp hfiled
    have hfirst : (e.2.keys :: []).find? (fun pair => deriveAddress pair.2 == a) =
        if e.1 = a then some e.2.keys else none := by
      rw [List.find?_singleton, KeyPair.keys, he]
      simp only [beq_iff_eq]
    have ih := ih (List.nodupKeys_of_nodupKeys_cons hnodup) hrest
    rw [lastKeys] at ih ⊢
    rw [List.map_cons, List.reverse_cons, List.find?_append, ih, hfirst]
    obtain ⟨b, kp⟩ := e
    by_cases hb : b = a
    · subst hb
      have hnone := List.dlookup_eq_none.mpr (List.notMem_keys_of_nodupKeys_cons hnodup)
      rw [if_pos rfl, hnone, List.dlookup_cons_eq]
      rfl
    · rw [if_neg hb, List.dlookup_cons_ne _ _ (Ne.symm hb), Option.or_none]

/-! ### Filed entries -/

/-- Entries are filed under the addresses of their public keys, and a wallet that is not empty has
one of them as its default. -/
structure Wallet.Filed (w : Wallet) : Prop where
  entries : ∀ a kp, w.keyPairs.lookup a = some kp →
    kp.address = a ∧ deriveAddress kp.publicKey = a
  default : (w.defaultAddress = [] ∧ w.keyPairs = ∅) ∨ w.defaultAddress ∈ w.keyPairs

/-- What was saved comes back, in whatever order it was written, whatever the operating system
returned, and whatever the wallet held that it is loaded into. -/
def Wallet.Reloads (w : Wallet) : Prop :=
  ∀ (order : AList fun _ : Bytes => KeyPair) (password : Bytes)
    (entropy : Option (Vector UInt8 keystore.SALT_SIZE × Vector UInt8 keystore.NONCE_SIZE))
    (opens : Bool) (file : Bytes) (w' : Wallet), order.toFinmap = w.keyPairs →
    w.saveToFile order password entropy opens = some file →
      w'.loadFromFile (some file) password = (w, true)

namespace Wallet

variable {w : Wallet} {order : AList fun _ : Bytes => KeyPair}

theorem Filed.forall_mem_entries (hw : w.Filed) (horder : order.toFinmap = w.keyPairs) :
    ∀ e ∈ order.entries, e.2.address = e.1 ∧ deriveAddress e.2.publicKey = e.1 := by
  rintro ⟨a, kp⟩ he
  refine hw.entries a kp ?_
  rw [← horder, Finmap.lookup_toFinmap]
  exact AList.mem_lookup_iff.mpr he

/-- The lines of the cleartext. -/
theorem Filed.lines_body (hw : w.Filed) (horder : order.toFinmap = w.keyPairs) :
    lines (w.body order) = (DEFAULT_LINE ++ w.defaultAddress) ::
      order.entries.map fun e => entryText e.1 e.2 := by
  have hdefault : newline ∉ w.defaultAddress := by
    obtain ⟨h, -⟩ | h := hw.default
    · rw [h]
      exact List.not_mem_nil
    · obtain ⟨kp, hkp⟩ := Finmap.mem_iff.mp h
      rw [← (hw.entries _ kp hkp).2]
      exact newline_not_mem_deriveAddress kp.publicKey
  have hfirst : newline ∉ DEFAULT_LINE ++ w.defaultAddress :=
    List.not_mem_append (by decide) hdefault
  have hrest : ∀ t ∈ order.entries.map fun e => entryText e.1 e.2, newline ∉ t := by
    intro t ht
    obtain ⟨e, he, rfl⟩ := List.mem_map.mp ht
    rw [← (hw.forall_mem_entries horder e he).2]
    have hpriv := keystore.newline_not_mem_bytesToHex e.2.privateKey.toList
    have hpub := keystore.newline_not_mem_bytesToHex e.2.publicKey.toList
    exact List.not_mem_append (newline_not_mem_deriveAddress e.2.publicKey)
      (List.not_mem_cons_of_ne_of_not_mem (by decide)
        (List.not_mem_append hpriv (List.not_mem_cons_of_ne_of_not_mem (by decide) hpub)))
  rw [body, lines_line_append hfirst, ← List.flatMap_map, lines_flatMap_line hrest]

/-- The scratch wallet of a file that was written. -/
theorem Filed.storeAll_eq (hw : w.Filed) (horder : order.toFinmap = w.keyPairs) :
    (({} : Wallet).storeAll (order.entries.map fun e => e.2.keys)).keyPairs = w.keyPairs := by
  have hfiled := hw.forall_mem_entries horder
  refine Finmap.ext_lookup fun a => ?_
  rw [lookup_storeAll, lastKeys_map order.nodupKeys (fun e he => (hfiled e he).2), ← horder,
    Finmap.lookup_toFinmap, AList.lookup, Option.map_map]
  rcases hkp : order.entries.dlookup a with _ | kp
  · rfl
  · have hmem := hfiled ⟨a, kp⟩ (List.of_mem_dlookup hkp)
    rw [Option.map_some, Function.comp_apply, pairEntry, KeyPair.keys, hmem.2, ← hmem.1]

/-- The first line gives the default address. -/
theorem Filed.fileDefault_eq (hw : w.Filed) (horder : order.toFinmap = w.keyPairs) :
    fileDefault [] ((DEFAULT_LINE ++ w.defaultAddress) ::
      order.entries.map fun e => entryText e.1 e.2) = w.defaultAddress := by
  have hdrop : (DEFAULT_LINE ++ w.defaultAddress).drop 8 = w.defaultAddress :=
    List.drop_left' (by decide)
  have hlater (d : Bytes) : ∀ e ∈ order.entries,
      (if DEFAULT_LINE.isPrefixOf (entryText e.1 e.2) then (entryText e.1 e.2).drop 8 else d) = d :=
    fun e he => if_neg fun h => entryText_ne (hw.forall_mem_entries horder e he).2 e.2 (.inr h)
  have hfirst : DEFAULT_LINE.isPrefixOf (DEFAULT_LINE ++ w.defaultAddress) = true :=
    List.isPrefixOf_iff_prefix.mpr (List.prefix_append _ _)
  rw [fileDefault, List.foldl_cons, if_pos hfirst, hdrop, List.foldl_map,
    List.foldl_ext _ (fun d _ => d) _ fun d e he => hlater d e he, List.foldl_fixed]

/-- A load of what was saved. -/
theorem Filed.loadFromFile_eq (hw : w.Filed) (horder : order.toFinmap = w.keyPairs)
    {password armored : Bytes}
    (hbody : keystore.decrypt sha256Hash armored password = some (w.body order)) (w' : Wallet) :
    w'.loadFromFile (some armored) password =
      match fileKeys (order.entries.map fun e => entryText e.1 e.2) with
      | none => (w', false)
      | some _ => (w, true) := by
  have hskip : DEFAULT_LINE ++ w.defaultAddress = [] ∨
      DEFAULT_LINE.isPrefixOf (DEFAULT_LINE ++ w.defaultAddress) = true :=
    .inr (List.isPrefixOf_iff_prefix.mpr (List.prefix_append _ _))
  have hfiled := hw.forall_mem_entries horder
  rw [Wallet.loadFromFile_eq w' hbody, hw.lines_body horder, hw.fileDefault_eq horder, fileKeys,
    if_pos hskip]
  rcases hkeys : fileKeys (order.entries.map fun e => entryText e.1 e.2) with _ | keys
  · rw [hkeys]
  obtain ⟨-, rfl⟩ := (fileKeys_entryText_iff fun e he => (hfiled e he).2).mp hkeys
  have hmap := hw.storeAll_eq horder
  -- Without a default address the wallet is empty, and so is the scratch wallet.
  have hdefault : (if w.defaultAddress = [] then
      (({} : Wallet).storeAll (order.entries.map fun e => e.2.keys)).defaultAddress
      else w.defaultAddress) = w.defaultAddress := by
    split_ifs with hnil
    · obtain ⟨-, hempty⟩ | hmem := hw.default
      · have hscratch := default_storeAll (order.entries.map fun e => e.2.keys)
        rw [hmap, hempty] at hscratch
        exact (hscratch.resolve_right Finmap.notMem_empty).trans hnil.symm
      · obtain ⟨kp, hkp⟩ := Finmap.mem_iff.mp hmem
        exact absurd ((hw.entries _ kp hkp).2.trans hnil) (deriveAddress_ne_nil kp.publicKey)
    · rfl
  rw [hkeys]
  dsimp only
  rw [hmap, hdefault]

/-- What a save that succeeded wrote. -/
theorem decrypt_of_saveToFile {password file : Bytes} {opens : Bool}
    {entropy : Option (Vector UInt8 keystore.SALT_SIZE × Vector UInt8 keystore.NONCE_SIZE)}
    (h : w.saveToFile order password entropy opens = some file) :
    keystore.decrypt sha256Hash file password = some (w.body order) := by
  rw [saveToFile] at h
  split_ifs at h with hempty hopens
  obtain rfl := Option.some.inj h
  obtain _ | ⟨salt, nonce⟩ := entropy
  · exact absurd rfl hempty
  · exact (keystore.decrypt_eq_some_iff sha256Hash).mpr
      (keystore.readBlob_encrypt sha256Hash (w.body order) password (by decide) salt nonce)

/-- A save succeeds when the operating system has entropy and the file can be opened. -/
theorem saveToFile_eq_some (w : Wallet) (order : AList fun _ : Bytes => KeyPair)
    (password : Bytes) (salt : Vector UInt8 keystore.SALT_SIZE)
    (nonce : Vector UInt8 keystore.NONCE_SIZE) :
    ∃ file, w.saveToFile order password (some (salt, nonce)) true = some file := by
  obtain ⟨blob, hread, -⟩ := keystore.readBlob_encrypt sha256Hash (w.body order) password
    (show keystore.DEFAULT_ITERATIONS ≠ 0 by decide) salt nonce
  have hne : keystore.encrypt sha256Hash (w.body order) password keystore.DEFAULT_ITERATIONS
      (some (salt, nonce)) ≠ [] := by
    intro h
    rw [h] at hread
    cases hread
  refine ⟨keystore.encrypt sha256Hash (w.body order) password keystore.DEFAULT_ITERATIONS
    (some (salt, nonce)), ?_⟩
  rw [saveToFile]
  exact if_neg hne

/-- **A wallet can be loaded again exactly when the reader accepts all its entries.** -/
theorem Filed.reloads_iff (hw : w.Filed) :
    w.Reloads ↔ ∀ a kp, w.keyPairs.lookup a = some kp → kp.Readable := by
  have hforall {order : AList fun _ : Bytes => KeyPair} (horder : order.toFinmap = w.keyPairs) :
      (∀ e ∈ order.entries, e.2.Readable) ↔
        ∀ a kp, w.keyPairs.lookup a = some kp → kp.Readable := by
    rw [← horder]
    simp only [Finmap.lookup_toFinmap, Sigma.forall, ← AList.mem_lookup_iff, Option.mem_def]
  constructor
  · intro h
    obtain ⟨order, horder⟩ : ∃ order : AList fun _ : Bytes => KeyPair,
        order.toFinmap = w.keyPairs := Finmap.induction_on w.keyPairs fun order => ⟨order, rfl⟩
    obtain ⟨file, hfile⟩ := w.saveToFile_eq_some order [] (Vector.replicate _ 0)
      (Vector.replicate _ 0)
    have hload := h order [] _ true file {} horder hfile
    rw [hw.loadFromFile_eq horder (decrypt_of_saveToFile hfile)] at hload
    refine (hforall horder).mp ?_
    rcases hkeys : fileKeys (order.entries.map fun e => entryText e.1 e.2) with _ | keys
    · rw [hkeys] at hload
      cases (Prod.mk.inj hload).2
    · exact ((fileKeys_entryText_iff fun e he =>
        (hw.forall_mem_entries horder e he).2).mp hkeys).1
  · intro h order password entropy opens file w' horder hfile
    have hkeys := (fileKeys_entryText_iff fun e he =>
      (hw.forall_mem_entries horder e he).2).mpr ⟨(hforall horder).mpr h, rfl⟩
    rw [hw.loadFromFile_eq horder (decrypt_of_saveToFile hfile), hkeys]

/-! ### Operations -/

theorem filed_empty : ({} : Wallet).Filed where
  entries a kp h := by cases h
  default := .inl ⟨rfl, rfl⟩

/-- A stored entry is filed under its own address. -/
theorem Filed.store (hw : w.Filed) {kp : KeyPair} (hkp : kp.address = deriveAddress kp.publicKey) :
    (w.store kp).Filed where
  entries a kp' h := by
    rw [lookup_store] at h
    split_ifs at h with ha
    · obtain rfl := Option.some.inj h
      exact ⟨ha.symm, hkp.symm.trans ha.symm⟩
    · exact hw.entries a kp' h
  default := by
    have hold : w.defaultAddress = [] ∨ w.defaultAddress ∈ w.keyPairs :=
      hw.default.imp_left And.left
    refine .inr ((default_store hold kp).resolve_left fun hnil => ?_)
    rw [Wallet.store] at hnil
    split_ifs at hnil with hdefault
    · exact deriveAddress_ne_nil _ (hkp.symm.trans hnil)
    · exact hdefault hnil

/-- A stored entry decides whether a loadable wallet stays loadable. -/
theorem Filed.reloads_store_iff (hw : w.Filed) (hloads : w.Reloads) {kp : KeyPair}
    (hkp : kp.address = deriveAddress kp.publicKey) : (w.store kp).Reloads ↔ kp.Readable := by
  rw [(hw.store hkp).reloads_iff]
  refine ⟨fun h => h kp.address kp (by rw [lookup_store, if_pos rfl]), fun h a kp' hlookup => ?_⟩
  rw [lookup_store] at hlookup
  split_ifs at hlookup with ha
  · exact Option.some.inj hlookup ▸ h
  · exact hw.reloads_iff.mp hloads a kp' hlookup

end Wallet

theorem address_entryOf (x : ℤ) : (entryOf x).address = deriveAddress (entryOf x).publicKey := rfl

/-- The entry of a scalar is readable exactly when the scalar is in range. -/
theorem readable_entryOf_iff {x : ℤ} (h : x < 2 ^ 256) :
    (entryOf x).Readable ↔ 0 < x ∧ x < secp256k1.N := by
  rw [← isValidPrivateKey_privateKeyOf_iff h]
  refine ⟨And.left, fun hvalid => ⟨hvalid, ?_⟩⟩
  have hrange := (isValidPrivateKey_privateKeyOf_iff h).mp hvalid
  rw [entryOf, Int.emod_eq_of_lt hrange.1.le hrange.2]
  exact isValidPublicKey_compressPublicKey hrange

/-- The operations that read a file. -/
def Action.IsLoad : Action → Prop
  | .loadFromFile _ _ => True
  | _ => False

/-- The operations whose keys can be read back: a private key that is imported alone is in range,
or too long to be stored. -/
def Readable : Action → Prop
  | .importPrivateKey privKeyHex => ∀ x, ofString privKeyHex 16 = some x →
      (0 < x ∧ x < secp256k1.N) ∨ 2 ^ 256 ≤ x
  | action => ¬ action.IsLoad

namespace Wallet

variable {w : Wallet}

/-- What an operation that reads no file does: it stores an entry, or it leaves the wallet as it
was, clears it, or chooses another default address. -/
theorem perform_cases (w : Wallet) {action : Action} (haction : ¬ action.IsLoad) :
    (∃ kp : KeyPair, kp.address = deriveAddress kp.publicKey ∧
      (kp.Readable ↔ Readable action) ∧ w.perform action = w.store kp) ∨
    Readable action ∧ (w.perform action = w ∨ w.perform action = {} ∨
      ∃ a ∈ w.keyPairs, w.perform action = { w with defaultAddress := a }) := by
  cases action with
  | generateNewAddress draws =>
    rcases generateNewAddress_cases w draws with h | ⟨x, hx, h⟩
    · exact .inr ⟨haction, .inl (congrArg Prod.fst h)⟩
    · have hreadable := (readable_entryOf_iff (hx.2.trans N_lt)).mpr hx
      exact .inl ⟨entryOf x, rfl, iff_of_true hreadable haction, congrArg Prod.fst h⟩
  | importPrivateKey privKeyHex =>
    rw [perform, Readable]
    rcases hx : ofString privKeyHex 16 with _ | x
    · rw [importPrivateKey_of_none hx]
      exact .inr ⟨fun x h => absurd h (Option.some_ne_none x).symm, .inl rfl⟩
    simp only [Option.some.injEq, forall_eq']
    rcases lt_or_ge x (2 ^ 256) with hlt | hge
    · rw [importPrivateKey_of_lt hx hlt]
      refine .inl ⟨entryOf x, rfl, ?_, rfl⟩
      rw [readable_entryOf_iff hlt, or_iff_left (not_le.mpr hlt)]
    · rw [importPrivateKey_of_le hx hge]
      exact .inr ⟨.inr hge, .inl rfl⟩
  | importKeyPair privKeyHex pubKeyHex =>
    rw [perform, importKeyPair]
    rcases hkeys : decodeKeys privKeyHex pubKeyHex with _ | ⟨privKey, pubKey⟩
    · exact .inr ⟨haction, .inl rfl⟩
    · exact .inl ⟨_, rfl, iff_of_true (valid_of_decodeKeys hkeys) haction, rfl⟩
  | setDefaultAddress address =>
    rw [perform, setDefaultAddress]
    split_ifs with hhas
    · exact .inr ⟨haction, .inr (.inr ⟨address, Finmap.lookup_isSome.mp hhas, rfl⟩)⟩
    · exact .inr ⟨haction, .inl rfl⟩
  | clear => exact .inr ⟨haction, .inr (.inl rfl)⟩
  | loadFromFile file password => exact absurd trivial haction

theorem Filed.perform (hw : w.Filed) {action : Action} (haction : ¬ action.IsLoad) :
    (w.perform action).Filed := by
  obtain ⟨kp, hkp, -, h⟩ | ⟨-, h | h | ⟨a, ha, h⟩⟩ := perform_cases w haction
  · rw [h]
    exact hw.store hkp
  · rw [h]
    exact hw
  · rw [h]
    exact filed_empty
  · rw [h]
    exact ⟨hw.entries, .inr ha⟩

/-- **Readable operations keep a wallet loadable, and among those that read no file the others do
not.** -/
theorem Filed.reloads_perform_iff (hw : w.Filed) (hloads : w.Reloads) {action : Action}
    (haction : ¬ action.IsLoad) : (w.perform action).Reloads ↔ Readable action := by
  have hfiled := hw.perform haction
  obtain ⟨kp, hkp, hreadable, h⟩ | ⟨hreadable, h | h | ⟨a, -, h⟩⟩ := perform_cases w haction
  · rw [h, hw.reloads_store_iff hloads hkp, hreadable]
  · rw [h]
    exact iff_of_true hloads hreadable
  · rw [h] at hfiled ⊢
    exact iff_of_true (hfiled.reloads_iff.mpr fun a kp hkp => by cases hkp) hreadable
  · rw [h] at hfiled ⊢
    exact iff_of_true (hfiled.reloads_iff.mpr (hw.reloads_iff.mp hloads)) hreadable

end Wallet

/-- Readable operations read no file. -/
theorem not_isLoad_of_readable {action : Action} (h : Readable action) : ¬ action.IsLoad := by
  cases action with
  | importPrivateKey privKeyHex => exact not_false
  | generateNewAddress draws => exact h
  | importKeyPair privKeyHex pubKeyHex => exact h
  | setDefaultAddress address => exact h
  | clear => exact h
  | loadFromFile file password => exact h

theorem filed_of_reachable {w : Wallet}
    (h : system.Reachable (fun _ action => ¬ action.IsLoad) w) : w.Filed := by
  refine h.invariant Wallet.Filed ?_ ?_
  · rintro w rfl
    exact Wallet.filed_empty
  · rintro w action w' - hw haction rfl
    exact hw.perform haction

/-- **A saved wallet can be loaded** in every state that a run of readable operations reaches. In
every state that generating, importing, choosing a default and clearing can reach, that is so
exactly when the reader accepts each entry, and where it is so, exactly the readable ones among
these operations keep it. -/
theorem saved_wallets_load (w : Wallet) :
    (system.Reachable (fun _ action => Readable action) w → w.Reloads) ∧
      (system.Reachable (fun _ action => ¬ action.IsLoad) w →
        (w.Reloads ↔ ∀ a kp, w.keyPairs.lookup a = some kp → kp.Readable) ∧
          (w.Reloads → ∀ action : Action, ¬ action.IsLoad →
            ((w.perform action).Reloads ↔ Readable action))) := by
  refine ⟨fun hreach => ?_, fun hreach => ?_⟩
  · have hboth : w.Filed ∧ w.Reloads := by
      refine hreach.invariant (fun w => w.Filed ∧ w.Reloads) ?_ ?_
      · rintro w rfl
        exact ⟨Wallet.filed_empty, Wallet.filed_empty.reloads_iff.mpr fun a kp h => by cases h⟩
      · rintro w action w' - ⟨hw, hloads⟩ hreadable rfl
        have haction := not_isLoad_of_readable hreadable
        exact ⟨hw.perform haction, (hw.reloads_perform_iff hloads haction).mpr hreadable⟩
    exact hboth.2
  · have hw := filed_of_reachable hreach
    exact ⟨hw.reloads_iff, fun hloads action haction => hw.reloads_perform_iff hloads haction⟩

theorem address_entryOf_one_ne_two : (entryOf 1).address ≠ (entryOf 2).address := by
  rw [entryOf, entryOf, mul_eq_evalMul]
  decide +kernel

/-- The wallet with the private keys `1` and `2`, until the private key `0` is imported. -/
theorem saved_wallets_load_two :
    let w := (({} : Wallet).perform (.importPrivateKey (ascii "1"))).perform
      (.importPrivateKey (ascii "2"))
    w.keyPairs.lookup (entryOf 1).address = some (entryOf 1) ∧
      w.keyPairs.lookup (entryOf 2).address = some (entryOf 2) ∧
      (entryOf 1).address ≠ (entryOf 2).address ∧ w.Reloads ∧
      ¬ (w.perform (.importPrivateKey (ascii "0"))).Reloads := by
  have hone : ofString (ascii "1") 16 = some 1 := by decide
  have htwo : ofString (ascii "2") 16 = some 2 := by decide
  have hzero : ofString (ascii "0") 16 = some 0 := by decide
  have hreadable (hex : Bytes) {x : ℤ} (hx : ofString hex 16 = some x)
      (hrange : 0 < x ∧ x < secp256k1.N) : Readable (.importPrivateKey hex) := by
    intro y hy
    obtain rfl := Option.some.inj (hx.symm.trans hy)
    exact .inl hrange
  have hreachable {ok : Wallet → Action → Prop} (hok : ∀ w action, Readable action → ok w action) :
      system.Reachable ok ((({} : Wallet).perform (.importPrivateKey (ascii "1"))).perform
        (.importPrivateKey (ascii "2"))) :=
    .step (.step (.init rfl) (hok _ _ (hreadable _ hone (by decide))) rfl)
      (hok _ _ (hreadable _ htwo (by decide))) rfl
  intro w
  have hstored : w = (({} : Wallet).store (entryOf 1)).store (entryOf 2) := by
    simp only [w, Wallet.perform, Wallet.importPrivateKey_of_lt hone (by decide),
      Wallet.importPrivateKey_of_lt htwo (by decide)]
  have hreloads := (saved_wallets_load w).1 (hreachable fun _ _ h => h)
  have hexact := ((saved_wallets_load w).2
    (hreachable fun _ _ h => not_isLoad_of_readable h)).2 hreloads
  refine ⟨?_, ?_, address_entryOf_one_ne_two, hreloads, fun h => ?_⟩
  · rw [hstored, Wallet.lookup_store, if_neg address_entryOf_one_ne_two, Wallet.lookup_store,
      if_pos rfl]
  · rw [hstored, Wallet.lookup_store, if_pos rfl]
  · rcases (hexact (.importPrivateKey (ascii "0")) id).mp h 0 hzero with hpos | hlarge
    · exact absurd hpos (by decide)
    · exact absurd hlarge (by decide)

/-- The private key `0` is stored when it is imported, and the wallet is saved with it. The file
is refused. -/
theorem importPrivateKey_zero_unreadable :
    (({} : Wallet).importPrivateKey (ascii "0")).2 = true ∧
      ∃ (order : AList fun _ : Bytes => KeyPair) (file : Bytes),
        order.toFinmap = (({} : Wallet).importPrivateKey (ascii "0")).1.keyPairs ∧
        (({} : Wallet).importPrivateKey (ascii "0")).1.saveToFile order []
          (some (Vector.replicate _ 0, Vector.replicate _ 0)) true = some file ∧
        ∀ w' : Wallet, w'.loadFromFile (some file) [] = (w', false) := by
  have hzero : ofString (ascii "0") 16 = some 0 := by decide
  have hlt : (0 : ℤ) < 2 ^ 256 := by positivity
  rw [Wallet.importPrivateKey_of_lt hzero hlt]
  have hfiled : (({} : Wallet).store (entryOf 0)).Filed :=
    Wallet.filed_empty.store (address_entryOf 0)
  have hunreadable : ¬ (entryOf 0).Readable := fun h =>
    lt_irrefl 0 ((readable_entryOf_iff hlt).mp h).1
  let order : AList fun _ : Bytes => KeyPair := .singleton (entryOf 0).address (entryOf 0)
  have horder : order.toFinmap = (({} : Wallet).store (entryOf 0)).keyPairs := rfl
  obtain ⟨file, hfile⟩ := (({} : Wallet).store (entryOf 0)).saveToFile_eq_some order []
    (Vector.replicate _ 0) (Vector.replicate _ 0)
  refine ⟨rfl, order, file, horder, hfile, fun w' => ?_⟩
  rw [hfiled.loadFromFile_eq horder (Wallet.decrypt_of_saveToFile hfile)]
  rcases hkeys : fileKeys (order.entries.map fun e => Wallet.entryText e.1 e.2) with _ | keys
  · rw [hkeys]
  · have haccepted := (fileKeys_entryText_iff fun e he =>
      (hfiled.forall_mem_entries horder e he).2).mp hkeys
    exact absurd (haccepted.1 _ List.mem_cons_self) hunreadable

end wallet

end BlockchainCrypto
