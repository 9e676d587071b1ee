import BlockchainCrypto.Chain.RoundTrip
import BlockchainCrypto.Cli.Payments

/-!
# A program with files of its own

A program that no network reaches, and that finds no files when it starts, loads nothing but what it
has saved itself. Its pool holds payments of its wallet only, so that every block brings one reward;
what is loaded is an earlier state of the same chain, or nothing. So the money adds up through all
commands, saving and loading included, as long as no address holds white space, which the format of
the file cannot carry.

## Main definitions

* `cli.Accounted`: what holds of the blockchain.
* `cli.alone`, `cli.Program.Plain`: the program and its condition.

## Main results

* `cli.Accounted.of_effect`, `cli.Accounted.load`: what the operations and loading keep.
* `cli.money_of_own_files`: supply and solvency in every run.
-/

namespace BlockchainCrypto

open ByteText ECCrypto wallet Blockchain

namespace cli

/-! ### The blockchain of a program alone -/

/-- What holds of the blockchain when `n` lines are left: supply and solvency, and that it survives
a file. -/
structure Accounted (d : Int32) (r : money.Amount) (n : ℕ) (s : Blockchain) : Prop where
  coherent : s.Coherent
  difficulty_eq : s.difficulty = d
  miningReward_eq : s.miningReward = r
  minted : (updateBalances s.chain).total = s.miningReward.toInt * (s.chain.length - 1)
  solvent : s.Solvent
  payments : ∀ tx ∈ s.pendingTransactions, ¬ tx.isSystem ∧ tx.PlainFields
  blocks : ∀ b ∈ s.chain, b.SafeFields
  chain_room : s.chain.length + n < UInt64.size
  pool_room : s.pendingTransactions.length + 1 + n < UInt64.size

/-- The operations of the menu: payments, and mining to an address without white space. -/
def FromMenu : Operation → Prop
  | .addTransaction tx => ¬ tx.isSystem ∧ tx.PlainFields
  | .minePendingTransactions rewardAddress _ _ _ => ∀ c ∈ rewardAddress, isSpace c = false
  | _ => False

namespace Accounted

variable {d : Int32} {r : money.Amount} {n : ℕ} {s s' t : Blockchain}

theorem mono {m : ℕ} (hs : Accounted d r n s) (hm : m ≤ n) : Accounted d r m s :=
  { hs with
    chain_room := lt_of_le_of_lt (Nat.add_le_add_left hm _) hs.chain_room
    pool_room := lt_of_le_of_lt (Nat.add_le_add_left hm _) hs.pool_room }

/-- The reward of a mining step has plain fields when its address has no white space. -/
theorem plainFields_reward {address : Bytes} (h : ∀ c ∈ address, isSpace c = false)
    (s : Blockchain) (txTime : Int64) (txNonce : UInt64) :
    (s.rewardTransaction address txTime txNonce).PlainFields := by
  have hempty : (∀ c ∈ ([] : Bytes), isSpace c = false) ∧ [] ≠ dash :=
    ⟨fun c hc => absurd hc List.not_mem_nil, by decide⟩
  exact ⟨h, hempty, fun _ => hempty⟩

/-- A line is used up by an operation of the menu, which leaves the accounts in order. -/
theorem of_effect (hs : Accounted d r (n + 1) s) (op : Operation) (hop : FromMenu op)
    (h : Effect s op s') : Accounted d r n s' := by
  have hnoload : NoLoad s op := by
    cases op with
    | loadFromFile file => exact hop
    | addTransaction tx => trivial
    | minePendingTransactions rewardAddress blockTime txTime txNonce => trivial
    | addBlock block => trivial
  have havailable : NetOutflowAvailable s op := by
    cases op with
    | addBlock block => exact hop.elim
    | loadFromFile file => trivial
    | addTransaction tx => trivial
    | minePendingTransactions rewardAddress blockTime txTime txNonce => trivial
  have hsingle : SingleReward s op := by
    cases op with
    | minePendingTransactions rewardAddress blockTime txTime txNonce =>
      exact fun _ tx htx => (hs.payments tx htx).1
    | addBlock block => trivial
    | loadFromFile file => trivial
    | addTransaction tx => trivial
  have hcoherent := hs.coherent.of_effect h
  have hminted := total_of_effect hs.coherent hs.minted hnoload hsingle h
  have hsolvent := solvent_of_effect hs.coherent hs.solvent hnoload havailable h
  have hchain := hs.chain_room
  have hpool := hs.pool_room
  cases h with
  | unchanged => exact hs.mono (Nat.le_succ n)
  | @admitted tx htx =>
    refine { hs with
      coherent := hcoherent
      solvent := hsolvent
      payments := List.forall_mem_append.mpr ⟨hs.payments, List.forall_mem_singleton.mpr hop⟩
      chain_room := lt_of_le_of_lt (Nat.add_le_add_left (Nat.le_succ n) _) hchain
      pool_room := ?_ }
    rw [List.length_append, List.length_singleton]
    omega
  | @mined rewardAddress blockTime txTime txNonce b hreward hb =>
    have htxs := hb.transactions_eq_pool hs.coherent
    refine ⟨hcoherent, hs.difficulty_eq, hs.miningReward_eq, hminted, hsolvent, ?_, ?_, ?_, ?_⟩
    · exact fun tx htx => absurd htx List.not_mem_nil
    · refine List.forall_mem_append.mpr ⟨hs.blocks, List.forall_mem_singleton.mpr ?_⟩
      obtain ⟨hhash, -, hvalid, hroot⟩ := Block.isValid_iff.mp hb.valid
      refine ⟨?_, hhash ▸ utils.isWord_sha256 _, hroot, ?_, fun tx htx => ?_⟩
      · rw [hb.previousHash_eq]
        exact (hs.blocks _ (List.getLast_mem s.chain_ne_nil)).hash
      · rw [htxs, List.length_append, List.length_singleton]
        omega
      · refine (Transaction.safeFields_iff (hvalid tx htx)).mpr ?_
        rw [htxs] at htx
        rcases List.mem_append.mp htx with hpending | hmined
        · exact (hs.payments tx hpending).2
        · rw [List.mem_singleton.mp hmined]
          exact plainFields_reward hop s txTime txNonce
    · rw [pushBlock, List.length_append, List.length_singleton]
      omega
    · change 0 + 1 + n < UInt64.size
      omega
  | received hfits hpool => exact hop.elim
  | refused => exact hop.elim
  | adopted hread hvalid => exact hop.elim

/-- The state that a file brings back is in order when the one that was saved was. -/
theorem reloaded (hs : Accounted d r n s) : Accounted d r n s.reloaded where
  coherent := coherent_of_pool_nil rfl rfl
  difficulty_eq := hs.difficulty_eq
  miningReward_eq := hs.miningReward_eq
  minted := hs.minted
  solvent a ha := by
    obtain ⟨hnonneg, hcovered⟩ := hs.solvent a ha
    have hbalance : s.reloaded.getBalance a = s.getBalance a := by
      rw [getBalance, getBalance, hs.coherent.balances_eq]
      rfl
    rw [hbalance]
    exact ⟨le_rfl, hnonneg.trans hcovered⟩
  payments tx htx := absurd htx List.not_mem_nil
  blocks := hs.blocks
  chain_room := hs.chain_room
  pool_room := by
    have hpool := hs.pool_room
    change 0 + 1 + n < UInt64.size
    omega

/-- **A file that was saved is loaded as what was saved, or not at all.** -/
theorem load (hr : money.isValidAmount r = true) (hs : Accounted d r n s)
    (ht : Accounted d r n t) : Accounted d r n (s.loadFromFile (some t.saveToFile)).1 := by
  cases hverdict : (s.loadFromFile (some t.saveToFile)).2 with
  | false =>
    rw [loadFromFile_unchanged_of_isValidAmount (hs.miningReward_eq ▸ hr) hverdict]
    exact hs
  | true =>
    obtain ⟨d', r', parsed, rest, hread, hvalid, hload⟩ := loadFromFile_accepts hverdict
    have hsafe : SafeFields t.chain :=
      ⟨lt_of_le_of_lt (Nat.le_add_right _ n) ht.chain_room, ht.blocks⟩
    obtain ⟨rest', hrun⟩ := (reads_file (ht.miningReward_eq ▸ hr) hsafe).run_eq
    obtain ⟨⟨rfl, rfl, rfl⟩, -⟩ : (t.difficulty = d' ∧ t.miningReward = r' ∧ t.chain = parsed) ∧
        rest' = rest := by
      simpa only [Option.some.injEq, Prod.mk.injEq] using hrun.symm.trans hread
    rw [hload]
    exact ht.reloaded

end Accounted

/-! ### Files -/

/-- A keystore begins with a letter, and is not read as a chain. -/
theorem readFile_of_saveToFile {w : Wallet} {order : AList fun _ : Bytes => wallet.KeyPair}
    {password armored : Bytes} {opens : Bool}
    {entropy : Option (Vector UInt8 keystore.SALT_SIZE × Vector UInt8 keystore.NONCE_SIZE)}
    (h : w.saveToFile order password entropy opens = some armored) :
    readFile.run armored = none := by
  have hletter (rest : Bytes) : numeral.run (75 :: rest) = none := rfl
  have hread (rest : Bytes) : readFile.run (75 :: rest) = none := by
    rw [readFile, readInt, integer, StateT.run_bind, StateT.run_bind, StateT.run_bind, hletter]
    rfl
  rw [Wallet.saveToFile] at h
  split_ifs at h with hempty hopens
  obtain rfl := Option.some.inj h
  obtain _ | ⟨salt, nonce⟩ := entropy
  · exact absurd rfl hempty
  · exact hread _

/-- What the program writes into a file: an accounted chain, or what is not read as one. -/
def OwnFile (d : Int32) (r : money.Amount) (n : ℕ) (content : Bytes) : Prop :=
  (∃ t, Accounted d r n t ∧ content = t.saveToFile) ∨ readFile.run content = none

theorem OwnFile.mono {d : Int32} {r : money.Amount} {m n : ℕ} {content : Bytes}
    (h : OwnFile d r n content) (hm : m ≤ n) : OwnFile d r m content := by
  obtain ⟨t, ht, hcontent⟩ | h := h
  · exact .inl ⟨t, ht.mono hm, hcontent⟩
  · exact .inr h

/-! ### The program alone -/

/-- The runs of a program that no network reaches and that finds no files, on fewer lines than a
`size_t` counts. -/
def alone (d : Int32) (r : money.Amount) : Runs.System Program Surroundings where
  init p := (program d r).init p ∧ p.session.files = (fun _ => none) ∧
    p.input.length + 1 < UInt64.size
  step p env p' := (program d r).step p (.command env) p'

/-- No white space in the lines that are left, and none in the default address. -/
def Program.Plain (p : Program) : Prop :=
  ∀ text, text ∈ p.input ∨ text = p.session.wallet.defaultAddress → ∀ c ∈ text, isSpace c = false

/-- What the commands keep. -/
structure Kept (d : Int32) (r : money.Amount) (n : ℕ) (s : Session) : Prop where
  accounted : Accounted d r n s.blockchain
  derived : s.wallet.Derived
  files : ∀ filename content, s.files filename = some content → OwnFile d r n content

namespace Kept

variable {d : Int32} {r : money.Amount} {n : ℕ} {s s' : Session} {env : Surroundings}
  {input : List Bytes}

theorem mono {m : ℕ} (hs : Kept d r n s) (hm : m ≤ n) : Kept d r m s :=
  ⟨hs.accounted.mono hm, hs.derived,
    fun filename content h => (hs.files filename content h).mono hm⟩

/-- A written file is one of the program's own. -/
theorem write (hs : Kept d r n s) {content : Bytes} (hcontent : OwnFile d r n content)
    (filename : Bytes) :
    Kept d r n { s with files := Function.update s.files filename (some content) } := by
  refine ⟨hs.accounted, hs.derived, fun filename' content' h => ?_⟩
  dsimp only at h
  rw [Function.update_apply] at h
  split_ifs at h with hname
  · obtain rfl := Option.some.inj h
    exact hcontent
  · exact hs.files filename' content' h

/-- A signed payment to an address without white space has plain fields. -/
theorem plainFields_signed {tx signed : Transaction} {signature : Signature} {senderPubkey : Bytes}
    (h : signed =
      { tx with signature := signatureToHex signature, senderPubkey := senderPubkey })
    (hreceiver : ∀ c ∈ tx.receiver, isSpace c = false) (hsystem : ¬ signed.isSystem) :
    signed.PlainFields := by
  subst h
  have hlength : (signatureToHex signature).length = SIGNATURE_SIZE * 2 := by
    rw [signatureToHex, length_bytesToHex, Vector.length_toList, Nat.mul_comm]
  have hne : signature.toList ≠ [] :=
    List.ne_nil_of_length_pos (by rw [Vector.length_toList]; decide)
  refine ⟨hreceiver, ⟨(utils.isHexWord_flatMap_hexByte hne).isWord.2, fun hdash => ?_⟩,
    fun h => absurd h hsystem⟩
  have hone := congrArg List.length hdash
  dsimp only at hone
  rw [hlength] at hone
  exact absurd hone (by decide)

/-- A command on a line keeps all that, and uses the line up. -/
theorem of_effect (hr : money.isValidAmount r = true) (hs : Kept d r (n + 1) s)
    (hplain : ∀ text, text ∈ input ∨ text = s.wallet.defaultAddress →
      ∀ c ∈ text, isSpace c = false) (h : s.Effect env input s') : Kept d r n s' := by
  have hless := hs.mono (Nat.le_succ n)
  cases h with
  | kept running => exact ⟨hless.accounted, hless.derived, hless.files⟩
  | @paid receiver amount signed hreceiver hsigned =>
    obtain ⟨hsystem, signature, senderPubkey, hshape⟩ :=
      Wallet.isPayment_of_signTransaction hs.derived hsigned
    have hfields := plainFields_signed hshape (hplain receiver (.inl hreceiver)) hsystem
    exact ⟨hs.accounted.of_effect (.addTransaction signed) ⟨hsystem, hfields⟩ (effect_of_run rfl),
      hless.derived, hless.files⟩
  | @mined miner blockchain hminer hmine =>
    exact ⟨hs.accounted.of_effect (.minePendingTransactions miner env.blockTime env.txTime
      env.txNonce) (hplain miner hminer) (effect_of_run hmine), hless.derived, hless.files⟩
  | saved filename => exact hless.write (.inl ⟨s.blockchain, hless.accounted, rfl⟩) filename
  | loaded filename =>
    refine ⟨?_, hless.derived, hless.files⟩
    cases hfile : s.files filename with
    | none => exact hless.accounted
    | some content =>
      obtain ⟨t, ht, rfl⟩ | hnone := hless.files filename content hfile
      · exact hless.accounted.load hr ht
      · rcases s.blockchain.loadFromFile_cases (some content) with ⟨-, h⟩ | ⟨_, _, _, _, h, -⟩
        · rw [h]
          exact hless.accounted
        · cases hnone.symm.trans h
  | walletChanged action => exact ⟨hless.accounted, hs.derived.perform action, hless.files⟩
  | walletSaved harmored => exact hless.write (.inr (readFile_of_saveToFile harmored)) _

end Kept

section Alone

variable {d : Int32} {r : money.Amount}

theorem accounted_construct {n : ℕ} {now : Int64} {s : Blockchain}
    (h : construct d r now = some s) (hn : n + 1 < UInt64.size) : Accounted d r n s := by
  obtain ⟨nonce, hash, hchain, hvalid, hpool, hd, hr, hbalances⟩ := construct_eq_some h
  have hgenesis : ∀ g, s.chain.head? = some g → IsWord g.previousHash := by
    intro g hg
    rw [hchain] at hg
    obtain rfl := Option.some.inj hg
    change IsWord (ascii "0")
    decide
  have hheader := safeHeader_of_validChain (isChainValid_iff.mp hvalid) hgenesis
  have hminted : (updateBalances s.chain).total = s.miningReward.toInt * (s.chain.length - 1) := by
    rw [hchain]
    simp [updateBalances, Block.create, Block.calculateMerkleRoot, Block.setMinedState]
  refine ⟨coherent_of_construct h, hd, hr, hminted, fun a _ => ?_, fun tx htx => ?_, ?_, ?_, ?_⟩
  · rw [pendingOutflow_eq, hpool, getBalance, hbalances, hchain]
    exact ⟨le_rfl, le_rfl⟩
  · rw [hpool] at htx
    exact absurd htx List.not_mem_nil
  · intro b hb
    obtain ⟨⟨hprevious, hhash, hroot⟩, -⟩ := hheader b hb
    rw [hchain] at hb
    obtain rfl := List.mem_singleton.mp hb
    exact ⟨hprevious, hhash, hroot, (by decide : 0 < UInt64.size),
      fun tx htx => absurd htx List.not_mem_nil⟩
  · rw [hchain, List.length_singleton]
    omega
  · rw [hpool, List.length_nil]
    omega

/-- In every run on plain lines the program keeps its accounts and its files. -/
theorem kept_of_reachable {p : Program} (hr : money.isValidAmount r = true)
    (h : (alone d r).Reachable (fun p _ => p.Plain) p) : Kept d r p.input.length p.session := by
  refine h.invariant (fun p => Kept d r p.input.length p.session) ?_ ?_
  · rintro p ⟨⟨⟨now, hconstruct⟩, hwallet, -⟩, hfiles, hlength⟩
    refine ⟨accounted_construct hconstruct hlength, ?_, fun filename content hfile => ?_⟩
    · rw [hwallet]
      exact Wallet.derived_empty
    · rw [hfiles] at hfile
      cases hfile
  · rintro p env p' - hs hplain ⟨-, hstep⟩
    rcases Program.effect_of_command hstep with ⟨line, input, hinput, heffect, hrest⟩ | rfl
    · rw [hinput] at hs
      refine (hs.of_effect hr (fun text htext => hplain text ?_) heffect).mono hrest.length_le
      rw [hinput]
      exact htext.imp_left (List.mem_cons_of_mem line)
    · have hless := hs.mono (Nat.zero_le _)
      exact ⟨hless.accounted, hless.derived, hless.files⟩

theorem plain_of_default_nil {p : Program} (hdefault : p.session.wallet.defaultAddress = [])
    (hinput : ∀ line ∈ p.input, ∀ c ∈ line, isSpace c = false) : p.Plain := by
  rintro text (htext | rfl)
  · exact hinput text htext
  · rw [hdefault]
    exact fun c hc => absurd hc List.not_mem_nil

/-- A program that has mined a block, with its chain in a file. -/
def savedChain : Program where
  session := ⟨firstMined (ascii "miner") 5 6, {}, Function.update (fun _ => none) (ascii "f")
    (some (firstMined (ascii "miner") 5 6).saveToFile), false⟩
  input := [ascii "7", ascii "f"]
  ended := false

theorem reachable_savedChain :
    (alone 0 (money.coins 50)).Reachable (fun p _ => p.Plain) savedChain := by
  have htwo : utils.parseInt (ascii "2") = some 2 := by decide
  have hsix : utils.parseInt (ascii "6") = some 6 := by decide
  have hminer : isBlank (ascii "miner") = false := by decide
  have hmine : (fresh (money.coins 50) 0).minePendingTransactions (ascii "miner") 5 6 1 =
      some (firstMined (ascii "miner") 5 6) := mine_fresh (by decide)
  have hmined : (alone 0 (money.coins 50)).Reachable (fun p _ => p.Plain)
      ⟨⟨firstMined (ascii "miner") 5 6, {}, fun _ => none, false⟩,
        [ascii "6", ascii "f", ascii "7", ascii "f"], false⟩ := by
    refine .step (.init (s := ⟨⟨fresh (money.coins 50) 0, {}, fun _ => none, false⟩, [ascii "2",
      ascii "miner", ascii "6", ascii "f", ascii "7", ascii "f"], false⟩)
      ⟨⟨⟨0, construct_zero _ _⟩, rfl, rfl, rfl⟩, rfl, by decide⟩) (a := fixedDraws)
      (plain_of_default_nil rfl (by decide +kernel)) ⟨rfl, ?_⟩
    rw [Program.command_of_line rfl htwo (by decide), Session.perform_two,
      Session.mine_of_line hminer]
    exact congrArg _ (congrArg _ hmine)
  refine .step hmined (a := fixedDraws) (plain_of_default_nil rfl (by decide +kernel)) ⟨rfl, ?_⟩
  rw [Program.command_of_line rfl hsix (by decide)]
  rfl

/-- **The money of a program alone adds up.** In every run on plain lines, with chains and wallets
saved and loaded on the way, the balances sum up to one reward for each block above genesis, what
every address has pending is covered by its balance, and no reward is pending. -/
theorem money_of_own_files {p : Program} (hr : money.isValidAmount r = true)
    (h : (alone d r).Reachable (fun p _ => p.Plain) p) :
    let s := p.session.blockchain
    s.balances.total = r.toInt * (s.chain.length - 1) ∧
      (∀ a, a ≠ Transaction.system → 0 ≤ s.pendingOutflow a ∧ s.pendingOutflow a ≤ s.getBalance a) ∧
      ∀ tx ∈ s.pendingTransactions, ¬ tx.isSystem := by
  intro s
  have haccounted := (kept_of_reachable hr h).accounted
  refine ⟨?_, haccounted.solvent, fun tx htx => (haccounted.payments tx htx).1⟩
  rw [haccounted.coherent.balances_eq, haccounted.minted, haccounted.miningReward_eq]

/-- The chain that was saved is loaded again. -/
theorem money_of_own_files_saved :
    let s := (savedChain.session.blockchain.loadFromFile (savedChain.session.files (ascii "f"))).1
    s.balances.total = (money.coins 50).toInt * (s.chain.length - 1) := by
  intro s
  have hseven : utils.parseInt (ascii "7") = some 7 := by decide
  have hperform (s : Session) (input : List Bytes) :
      s.perform fixedDraws 7 input = some (s.loadBlockchain input) := rfl
  have hloaded : (alone 0 (money.coins 50)).Reachable (fun p _ => p.Plain)
      ⟨{ savedChain.session with blockchain := s }, [], false⟩ := by
    refine .step reachable_savedChain (a := fixedDraws)
      (plain_of_default_nil rfl (by decide +kernel)) ⟨rfl, ?_⟩
    rw [Program.command_of_line rfl hseven (by decide), hperform, Session.loadBlockchain,
      Session.promptText_cons (by decide)]
    rfl
  clear_value s
  exact (money_of_own_files (by decide) hloaded).1

end Alone

end cli

end BlockchainCrypto
