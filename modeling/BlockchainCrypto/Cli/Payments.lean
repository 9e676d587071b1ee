import BlockchainCrypto.Cli.Session
import BlockchainCrypto.Wallet.Signing

/-!
# From the prompt to the chain

A payment that is typed at the menu is signed by the wallet, admitted by the chain, and settled by
the next block that is mined. When the wallet controls its addresses, whether that happens depends
on the amount, the receiver and the funds alone, but for a hash that is known already and for a
signature whose response is zero.

## Main definitions

* `cli.Session.Accepts`: what is asked of a payment.

## Main results

* `cli.Session.addTransaction_of_lines`, `cli.Session.mine_of_line`: the two commands on their
  lines.
* `cli.payment_settles`: a typed payment, and the block that is mined next.
-/

namespace BlockchainCrypto

open ByteText ECCrypto wallet


/-- A node that was constructed with a valid reward has one in every history: a file is only adopted
with a valid one. -/
theorem Blockchain.isValidAmount_of_reachable {d : Int32} {r : money.Amount}
    {ok : Blockchain → Operation → Prop} {s : Blockchain} (hr : money.isValidAmount r = true)
    (h : (node d r).Reachable ok s) : money.isValidAmount s.miningReward = true := by
  refine h.invariant (fun s => money.isValidAmount s.miningReward = true) ?_ ?_
  · rintro s ⟨now, hs⟩
    obtain ⟨_, _, -, -, -, -, hreward, -⟩ := construct_eq_some hs
    rw [hreward]
    exact hr
  · intro s op s' _ hs _ hstep
    cases op with
    | addTransaction tx =>
      cases effect_of_run hstep with
      | unchanged => exact hs
      | admitted htx => exact hs
    | minePendingTransactions rewardAddress blockTime txTime txNonce =>
      cases effect_of_run hstep with
      | unchanged => exact hs
      | mined hreward hb => exact hs
    | addBlock block =>
      cases effect_of_run hstep with
      | unchanged => exact hs
      | received hfits hpool => exact hs
    | loadFromFile file =>
      obtain rfl := Option.some.inj hstep
      cases hverdict : (s.loadFromFile file).2 with
      | true =>
        obtain ⟨d', r', parsed, rest, hread, hvalid, hload⟩ := loadFromFile_accepts hverdict
        obtain ⟨text, -, htext⟩ := Option.bind_eq_some_iff.mp hread
        rw [hload]
        exact (safeFields_of_readFile htext).1
      | false =>
        rw [loadFromFile_unchanged_of_isValidAmount hs hverdict]
        exact hs

/-- A transaction is admitted to the pool or not, and nothing else changes. -/
theorem Blockchain.exists_addTransaction (s : Blockchain)
    (hs : ∀ tx ∈ s.pendingTransactions, tx.isValid = true) (tx : Transaction) :
    ∃ pool, (∀ tx ∈ pool, tx.isValid = true) ∧
      s.addTransaction tx = { s with pendingTransactions := pool } := by
  by_cases htx : s.Admissible tx
  · exact ⟨_, List.forall_mem_append.mpr ⟨hs, List.forall_mem_singleton.mpr htx.valid⟩,
      addTransaction_of_admissible htx⟩
  · exact ⟨s.pendingTransactions, hs, addTransaction_of_not_admissible htx⟩

namespace cli

/-- What the chain asks of a payment that the wallet signs with the scalar `x` under the nonce
`k`. -/
structure Session.Accepts (s : Session) (tx : Transaction) (x k : ℤ) : Prop where
  amount_valid : money.isValidAmount tx.amount = true
  receiver_ne : tx.receiver ≠ tx.sender
  response_ne : tx.responseBy x k ≠ 0
  unknown : s.blockchain.transactionExists tx = false
  funded : tx.amount.toInt ≤
    s.blockchain.getBalance tx.sender - s.blockchain.pendingOutflow tx.sender

namespace Session

variable {s : Session} {env : Surroundings} {x k : ℤ}

/-- A payment signed with a key of its sender is admitted exactly when it is accepted. -/
theorem addTransaction_signedBy (s : Session) (tx : Transaction) (hx : 0 < x ∧ x < secp256k1.N)
    (hk : 0 < k ∧ k < secp256k1.N)
    (hsender : tx.sender = deriveAddress (compressPublicKey (G.mul x)))
    (hreceiver : tx.receiver ≠ []) :
    (s.Accepts tx x k → s.blockchain.addTransaction (tx.signedBy x k) = { s.blockchain with
      pendingTransactions := s.blockchain.pendingTransactions ++ [tx.signedBy x k] }) ∧
    (¬ s.Accepts tx x k → s.blockchain.addTransaction (tx.signedBy x k) = s.blockchain) := by
  have hvalid := Transaction.isValid_signedBy_iff hx hk hsender
  have hsystem : ¬ (tx.signedBy x k).isSystem := by
    intro h
    have hlength := wallet.length_deriveAddress (compressPublicKey (G.mul x))
    rw [← hsender, show tx.sender = Transaction.system from h] at hlength
    exact absurd hlength (by decide)
  have hexists : s.blockchain.transactionExists (tx.signedBy x k) =
      s.blockchain.transactionExists tx := rfl
  constructor
  · rintro ⟨hamount, hne, hresponse, hunknown, hfunded⟩
    unfold Blockchain.addTransaction
    rw [hvalid.mpr ⟨hreceiver, hamount, hne, hresponse⟩, hexists, hunknown]
    simp only [Bool.not_true, Bool.false_eq_true, ↓reduceIte]
    exact if_neg fun h => not_lt.mpr hfunded h.2
  · intro hno
    unfold Blockchain.addTransaction
    split_ifs with h1 h2 h3
    · rfl
    · rfl
    · rfl
    · obtain ⟨-, hamount, hne, hresponse⟩ := hvalid.mp (by simpa using h1)
      have hfunded : ¬ (s.blockchain.getBalance tx.sender - s.blockchain.pendingOutflow tx.sender <
          tx.amount.toInt) := fun hlt => h3 ⟨hsystem, hlt⟩
      exact absurd ⟨hamount, hne, hresponse, by simpa [hexists] using h2, not_lt.mp hfunded⟩ hno

/-! ### The commands on their lines -/

theorem promptUntil_cons {α : Type} {read : Bytes → Option α} {line : Bytes} {value : α}
    (h : read line = some value) (input : List Bytes) :
    promptUntil read (line :: input) = (some value, input) := by
  rw [promptUntil, h]

theorem promptText_cons {line : Bytes} (h : isBlank line = false) (input : List Bytes) :
    promptText (line :: input) = (some line, input) := promptUntil_cons (by rw [h]; rfl) input

theorem ne_nil_of_isBlank {line : Bytes} (h : isBlank line = false) : line ≠ [] := by
  rintro rfl
  cases h

theorem perform_one (input : List Bytes) :
    s.perform env 1 input = some (s.addTransaction env input) := rfl

theorem perform_two (input : List Bytes) : s.perform env 2 input = s.mine env input := rfl

/-- A receiver and an amount make a payment of the default address. -/
theorem addTransaction_of_lines (hw : s.wallet.Controlled)
    (hhas : s.wallet.hasAddress s.wallet.defaultAddress = true) {receiver text : Bytes}
    {amount : money.Amount} (hreceiver : isBlank receiver = false)
    (hamount : parseAmount text = some amount) (hdraw : randomScalar env.draws = some k)
    (rest : List Bytes) : ∃ x, (0 < x ∧ x < secp256k1.N) ∧
      s.wallet.defaultAddress = deriveAddress (compressPublicKey (G.mul x)) ∧
      s.addTransaction env (receiver :: text :: rest) =
        ({ s with
            blockchain := s.blockchain.addTransaction
              ((Transaction.create s.wallet.defaultAddress receiver amount env.txTime
                env.txNonce).signedBy x k) }, rest) := by
  obtain ⟨x, hx, hsender, hsigned⟩ := wallet.Wallet.signTransaction_eq hw
    (Transaction.create s.wallet.defaultAddress receiver amount env.txTime env.txNonce) hhas
    env.draws
  replace hsender : s.wallet.defaultAddress = deriveAddress (compressPublicKey (G.mul x)) := hsender
  replace hsigned : s.wallet.signTransaction (Transaction.create s.wallet.defaultAddress receiver
      amount env.txTime env.txNonce) s.wallet.defaultAddress env.draws = ((Transaction.create
        s.wallet.defaultAddress receiver amount env.txTime env.txNonce).signedBy x k, true) := by
    rw [hdraw] at hsigned
    exact hsigned
  have hne : s.wallet.defaultAddress ≠ [] := hsender ▸ wallet.deriveAddress_ne_nil _
  have hprompt : promptAmount (text :: rest) = (some amount, rest) := promptUntil_cons hamount rest
  refine ⟨x, hx, hsender, ?_⟩
  simp only [addTransaction, if_neg hne, promptText_cons hreceiver, hprompt, hsigned]

/-- A line with an address mines to it. -/
theorem mine_of_line {miner : Bytes} (hminer : isBlank miner = false) (rest : List Bytes) :
    s.mine env (miner :: rest) =
      (s.blockchain.minePendingTransactions miner env.blockTime env.txTime env.txNonce).map
        fun blockchain => ({ s with blockchain := blockchain }, rest) := by
  have hne := ne_nil_of_isBlank hminer
  simp only [mine, promptLine, hminer, Bool.false_eq_true, ↓reduceIte, hne]

end Session

namespace Program

variable {p : Program} {env : Surroundings} {line : Bytes} {input : List Bytes}

/-- A line with a number other than zero is the choice of a command. -/
theorem command_of_line {choice : Int32} (hinput : p.input = line :: input)
    (hline : utils.parseInt line = some choice) (hne : choice ≠ 0) :
    p.command env = (p.session.perform env choice input).map
      fun result => ⟨result.1, result.2, false⟩ := by
  simp only [command, hinput, hline, hne, ↓reduceIte]

end Program

section Settlement

variable {d : Int32} {r : money.Amount} {ok : Program → Event → Prop}

/-- Both rounds return when no difficulty is required. -/
theorem exists_settled {p : Program} {env₁ env₂ : Surroundings}
    {one receiver text two miner : Bytes} {rest : List Bytes} {amount : money.Amount} {k : ℤ}
    (hw : p.session.wallet.Controlled)
    (hhas : p.session.wallet.hasAddress p.session.wallet.defaultAddress = true)
    (hreward : money.isValidAmount p.session.blockchain.miningReward = true)
    (hinput : p.input = one :: receiver :: text :: two :: miner :: rest)
    (hone : utils.parseInt one = some 1) (hreceiver : isBlank receiver = false)
    (hamount : parseAmount text = some amount) (hdraw : randomScalar env₁.draws = some k)
    (htwo : utils.parseInt two = some 2) (hminer : isBlank miner = false)
    (hsystem : miner ≠ Transaction.system)
    (hzero : p.session.blockchain.calculateRequiredDifficulty = 0)
    (hvalid : ∀ tx ∈ p.session.blockchain.pendingTransactions, tx.isValid = true) :
    ∃ p₁ p₂, p.command env₁ = some p₁ ∧ p₁.command env₂ = some p₂ := by
  obtain ⟨x, -, -, hadd⟩ := Session.addTransaction_of_lines hw hhas hreceiver hamount hdraw
    (two :: miner :: rest)
  obtain ⟨pool, hpoolvalid, hpool⟩ := p.session.blockchain.exists_addTransaction hvalid
    ((Transaction.create p.session.wallet.defaultAddress receiver amount env₁.txTime
      env₁.txNonce).signedBy x k)
  rw [hpool] at hadd
  let s : Blockchain := { p.session.blockchain with pendingTransactions := pool }
  obtain ⟨s', hmine⟩ : ∃ s', s.minePendingTransactions miner env₂.blockTime env₂.txTime
      env₂.txNonce = some s' :=
    ⟨_, Blockchain.mine_of_difficulty_zero hzero hpoolvalid
      (Blockchain.isValid_rewardTransaction_iff.mpr
        ⟨Session.ne_nil_of_isBlank hminer, hreward, hsystem⟩)⟩
  refine ⟨⟨{ p.session with blockchain := s }, two :: miner :: rest, false⟩,
    ⟨{ p.session with blockchain := s' }, rest, false⟩, ?_, ?_⟩
  · rw [Program.command_of_line hinput hone (by decide), Session.perform_one, hadd]
    rfl
  · rw [Program.command_of_line rfl htwo (by decide), Session.perform_two,
      Session.mine_of_line hminer, hmine]
    rfl

/-- A first entry is the default. -/
theorem hasAddress_store_empty (kp : wallet.KeyPair) :
    (({} : Wallet).store kp).hasAddress (({} : Wallet).store kp).defaultAddress = true := by
  have hdefault : (({} : Wallet).store kp).defaultAddress = kp.address := by
    rw [Wallet.store, if_pos rfl]
  rw [hdefault, Wallet.hasAddress, Wallet.lookup_store, if_pos rfl]
  rfl

/-- A program that has imported a key, with a payment on its input. -/
def imported : Program where
  session := ⟨Blockchain.fresh (money.coins 50) 0, ({} : Wallet).store (entryOf 1), fun _ => none,
    false⟩
  input := [ascii "1", ascii "bob", ascii "2.5", ascii "2", ascii "miner"]
  ended := false

/-- A generator that returns the scalar `5`. -/
def fixedDraws : Surroundings :=
  ⟨5, 6, 1, fun _ => some (privateKeyOf 5), ∅, none, true, true⟩

theorem randomScalar_fixedDraws : randomScalar fixedDraws.draws = some 5 := by
  have hvalue : bytes32ToBigInt (privateKeyOf 5).toList = 5 :=
    bytes32ToBigInt_privateKeyOf (by decide)
  have hfirst : fixedDraws.draws 0 = some (privateKeyOf 5) := rfl
  change randomScalarFrom fixedDraws.draws (127 + 1) 0 = some 5
  rw [randomScalarFrom, hfirst, Option.bind_eq_bind, Option.bind_some, hvalue]
  exact if_pos (by decide)

theorem reachable_imported :
    (program 0 (money.coins 50)).Reachable (fun _ _ => True) imported := by
  have hone : ofString (ascii "1") 16 = some 1 := by decide
  refine .step (.init (s := { imported with
      session := { imported.session with wallet := {} }
      input := ascii "9" :: ascii "1" :: imported.input })
    ⟨⟨0, Blockchain.construct_zero _ _⟩, rfl, rfl, rfl⟩) (a := .command fixedDraws) trivial
    ⟨rfl, ?_⟩
  have hperform (s : Session) (input : List Bytes) :
      s.perform fixedDraws 9 input = some (s.importPrivateKey input) := rfl
  have hnine : utils.parseInt (ascii "9") = some 9 := by decide
  rw [Program.command_of_line rfl hnine (by decide), hperform,
    Session.importPrivateKey, Session.promptText_cons (by decide)]
  simp only [Wallet.importPrivateKey_of_lt hone (by decide : (1 : ℤ) < 2 ^ 256), Option.map_some]
  rfl

/-- **A typed payment is settled by the next block.** In every run, when the wallet controls its
addresses, a payment that is typed joins the pool exactly when it is accepted; the block that is
mined next holds what was pending and the payment, and moves the balances accordingly. -/
theorem payment_settles {p p₁ p₂ : Program} {env₁ env₂ : Surroundings}
    {one receiver text two miner : Bytes} {rest : List Bytes} {amount : money.Amount} {k : ℤ}
    (hr : money.isValidAmount r = true) (h : (program d r).Reachable ok p)
    (hw : p.session.wallet.Controlled)
    (hhas : p.session.wallet.hasAddress p.session.wallet.defaultAddress = true)
    (hinput : p.input = one :: receiver :: text :: two :: miner :: rest)
    (hone : utils.parseInt one = some 1) (hreceiver : isBlank receiver = false)
    (hamount : parseAmount text = some amount) (hdraw : randomScalar env₁.draws = some k)
    (htwo : utils.parseInt two = some 2) (hminer : isBlank miner = false)
    (hsystem : miner ≠ Transaction.system) (h₁ : p.command env₁ = some p₁)
    (h₂ : p₁.command env₂ = some p₂) :
    let s := p.session.blockchain
    let tx := Transaction.create p.session.wallet.defaultAddress receiver amount env₁.txTime
      env₁.txNonce
    ∃ x, (0 < x ∧ x < secp256k1.N) ∧ tx.sender = deriveAddress (compressPublicKey (G.mul x)) ∧
      ∃ paid : List Transaction,
      (p.session.Accepts tx x k → paid = [tx.signedBy x k]) ∧
      (¬ p.session.Accepts tx x k → paid = []) ∧
      p₁.session.blockchain.pendingTransactions = s.pendingTransactions ++ paid ∧
      ∃ b, p₂.session.blockchain.chain = s.chain ++ [b] ∧
        b.transactions = s.pendingTransactions ++ paid ++
          [s.rewardTransaction miner env₂.txTime env₂.txNonce] ∧
        p₂.session.blockchain.pendingTransactions = [] ∧ ∀ a, a ≠ Transaction.system →
          p₂.session.blockchain.getBalance a = s.getBalance a +
            (Blockchain.inflow b.transactions a - Blockchain.outflow b.transactions a) := by
  intro s tx
  obtain ⟨x, hx, hsender, hadd⟩ := Session.addTransaction_of_lines hw hhas hreceiver hamount hdraw
    (two :: miner :: rest)
  have hreceiver_ne : tx.receiver ≠ [] := Session.ne_nil_of_isBlank hreceiver
  obtain ⟨hyes, hno⟩ := p.session.addTransaction_signedBy tx hx (randomScalar_spec hdraw) hsender
    hreceiver_ne
  -- what the pool is after the payment
  obtain ⟨paid, haccepted, hrefused, hpaid⟩ : ∃ paid : List Transaction,
      (p.session.Accepts tx x k → paid = [tx.signedBy x k]) ∧
      (¬ p.session.Accepts tx x k → paid = []) ∧ s.addTransaction (tx.signedBy x k) =
        { s with pendingTransactions := s.pendingTransactions ++ paid } := by
    by_cases haccepts : p.session.Accepts tx x k
    · exact ⟨_, fun _ => rfl, fun hn => absurd haccepts hn, hyes haccepts⟩
    · refine ⟨[], fun hn => absurd hn haccepts, fun _ => rfl, (hno haccepts).trans ?_⟩
      rw [List.append_nil]
  have hreward := Blockchain.isValidAmount_of_reachable hr (history_of_reachable h).1
  have hcoherent : s.Coherent := Blockchain.coherent_of_reachable (history_of_reachable h).1
  have hnext := hcoherent.of_effect
    (@Blockchain.effect_of_run s _ (.addTransaction (tx.signedBy x k)) rfl)
  rw [hpaid] at hnext
  -- the two rounds of the loop
  rw [Program.command_of_line hinput hone (by decide), Session.perform_one, hadd, hpaid] at h₁
  obtain rfl := Option.some.inj h₁
  rw [Program.command_of_line rfl htwo (by decide), Session.perform_two,
    Session.mine_of_line hminer] at h₂
  obtain ⟨result, hresult, rfl⟩ := Option.map_eq_some_iff.mp h₂
  obtain ⟨blockchain, hmine, rfl⟩ := Option.map_eq_some_iff.mp hresult
  rcases Blockchain.mine_cases hmine with ⟨hinvalid, -⟩ | ⟨-, b, hb, rfl⟩
  · exact absurd (hinvalid.symm.trans (Blockchain.isValid_rewardTransaction_iff.mpr
      ⟨Session.ne_nil_of_isBlank hminer, hreward, hsystem⟩)) Bool.false_ne_true
  · exact ⟨x, hx, hsender, paid, haccepted, hrefused, rfl, b, rfl, hb.transactions_eq_pool hnext,
      rfl, fun a ha => Blockchain.getBalance_pushBlock hnext ha b []⟩

/-- The imported key pays, and a miner settles. -/
theorem payment_settles_imported : ∃ p₁ p₂ : Program, imported.command fixedDraws = some p₁ ∧
    p₁.command fixedDraws = some p₂ ∧ p₂.session.blockchain.pendingTransactions = [] ∧
      p₂.session.blockchain.chain.length = 2 := by
  have hcontrolled : imported.session.wallet.Controlled :=
    (Wallet.controlled_store_iff Wallet.controlled_empty _).mpr
      ((controls_entryOf_iff (by decide : (1 : ℤ) < 2 ^ 256)).mpr (by decide))
  have hhas := hasAddress_store_empty (entryOf 1)
  have hreceiver : isBlank (ascii "bob") = false := by decide
  have hamount : parseAmount (ascii "2.5") = some 250000000 := by
    decide +kernel
  have hminer : isBlank (ascii "miner") = false := by decide
  have hone : utils.parseInt (ascii "1") = some 1 := by decide
  have htwo : utils.parseInt (ascii "2") = some 2 := by decide
  have hreward : money.isValidAmount imported.session.blockchain.miningReward = true := by decide
  obtain ⟨p₁, p₂, h₁, h₂⟩ := exists_settled (p := imported) hcontrolled hhas hreward rfl
    hone hreceiver hamount randomScalar_fixedDraws htwo hminer (by decide) rfl
      fun tx htx => absurd htx List.not_mem_nil
  obtain ⟨x, -, -, paid, -, -, -, b, hchain, -, hpool, -⟩ := payment_settles (by decide)
    reachable_imported hcontrolled hhas rfl hone hreceiver hamount randomScalar_fixedDraws htwo
      hminer (by decide) h₁ h₂
  refine ⟨p₁, p₂, h₁, h₂, hpool, ?_⟩
  rw [hchain]
  rfl

end Settlement

end cli

end BlockchainCrypto
