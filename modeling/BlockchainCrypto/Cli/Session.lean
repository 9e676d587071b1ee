import BlockchainCrypto.Chain.Supply
import BlockchainCrypto.Core.MoneyText
import BlockchainCrypto.Wallet.KeyControl

/-!
# The command line

`main.cpp`: a menu over one blockchain and one wallet. Every prompt takes whole lines of the input
until one of them can be read, and a command whose input ends does nothing more. While a node runs,
the threads of the network hand blocks and transactions to the same blockchain between the commands;
all methods of the blockchain hold its mutex. What the commands print is left out, and of the node
only whether it runs is kept.

## Main definitions

* `cli.promptUntil`, with `promptText`, `promptAmount` and `promptPort`.
* `cli.Session` and its commands, `cli.Session.perform`.
* `cli.Program`, `cli.Program.command`, `cli.program`: the loop of `main` and its runs.

## Main results

* `cli.promptUntil_suffix`, `cli.exists_of_promptUntil`: what a prompt takes of the input.
* `cli.Session.effect_of_perform`: what a command can do.
* `cli.history_of_reachable`: blockchain and wallet run through histories of their own.
-/

namespace BlockchainCrypto

open ByteText ECCrypto wallet

namespace cli

/-! ### Prompts -/

/-- What a prompt has read, if anything, and the lines that are left. -/
abbrev Answer (α : Type) := Option α × List Bytes

/-- A line, or none at the end of the input. -/
def promptLine : List Bytes → Answer Bytes
  | [] => (none, [])
  | line :: input => (some line, input)

/-- The loop of the prompts: lines are skipped until one can be read. -/
def promptUntil {α : Type} (read : Bytes → Option α) : List Bytes → Answer α
  | [] => (none, [])
  | line :: input =>
    match read line with
    | some value => (some value, input)
    | none => promptUntil read input

/-- The line holds nothing but white space. -/
def isBlank (text : Bytes) : Bool := text.all fun c => [32, 9, 13, 10, 12, 11].contains c

/-- The first line that is not blank. -/
def promptText : List Bytes → Answer Bytes :=
  promptUntil fun line => if isBlank line then none else some line

/-- `money::parse`; it never reports an overflow. -/
def parseAmount (text : Bytes) : Option money.Amount :=
  match money.parse text with
  | .ok amount => amount
  | .error _ => none

/-- The first line that is an amount. -/
def promptAmount : List Bytes → Answer money.Amount := promptUntil parseAmount

/-- A port from 1 to 65535. -/
def parsePort (line : Bytes) : Option UInt16 :=
  (utils.parseInt line).bind fun value =>
    if value ≥ 1 ∧ value ≤ 65535 then some value.toInt.toNat.toUInt16 else none

/-- A blank line takes the default when one is offered. -/
def promptPort (defaultPort : Option UInt16) : List Bytes → Answer UInt16 :=
  promptUntil fun line => if isBlank line ∧ defaultPort ≠ none then defaultPort else parsePort line

/-- On a terminal the line is not echoed. -/
def promptPassword : List Bytes → Answer Bytes := promptLine

/-! ### What is taken of the input -/

section Prompts

variable {α : Type} {read : Bytes → Option α} {input : List Bytes}

theorem promptLine_suffix {answer : Option Bytes} {rest : List Bytes}
    (h : promptLine input = (answer, rest)) : rest <:+ input := by
  cases input with
  | nil =>
    obtain ⟨-, rfl⟩ := Prod.mk.inj h
    exact List.suffix_rfl
  | cons line input =>
    obtain ⟨-, rfl⟩ := Prod.mk.inj h
    exact List.suffix_cons line _

/-- What a prompt leaves is the end of the input. -/
theorem promptUntil_suffix {answer : Option α} {rest : List Bytes}
    (h : promptUntil read input = (answer, rest)) : rest <:+ input := by
  induction input with
  | nil =>
    obtain ⟨-, rfl⟩ := Prod.mk.inj h
    exact List.suffix_rfl
  | cons line input ih =>
    rw [promptUntil] at h
    cases hline : read line with
    | some value =>
      rw [hline] at h
      obtain ⟨-, rfl⟩ := Prod.mk.inj h
      exact List.suffix_cons line _
    | none =>
      rw [hline] at h
      exact (ih h).trans (List.suffix_cons line input)

/-- What a prompt has read stood in a line of the input. -/
theorem exists_of_promptUntil {value : α} (h : (promptUntil read input).1 = some value) :
    ∃ line ∈ input, read line = some value := by
  induction input with
  | nil => cases h
  | cons line input ih =>
    rw [promptUntil] at h
    cases hline : read line with
    | some value' =>
      rw [hline] at h
      exact ⟨line, List.mem_cons_self, hline.trans h⟩
    | none =>
      rw [hline] at h
      obtain ⟨line', hmem, hread⟩ := ih h
      exact ⟨line', List.mem_cons_of_mem line hmem, hread⟩

/-- A text that was read is a line of the input, and not a blank one. -/
theorem mem_of_promptText {text : Bytes} (h : (promptText input).1 = some text) :
    text ∈ input ∧ isBlank text = false := by
  obtain ⟨line, hmem, hline⟩ := exists_of_promptUntil h
  split_ifs at hline with hblank
  obtain rfl := Option.some.inj hline
  exact ⟨hmem, Bool.eq_false_iff.mpr hblank⟩

end Prompts

/-! ### Commands -/

/-- What a command finds outside of the program: the clock, random numbers, the order in which the
entries of the wallet are gone through, whether a file can be written, and whether a node can be
started. -/
structure Surroundings where
  blockTime : Int64
  txTime : Int64
  txNonce : UInt64
  draws : ℕ → Option PrivateKey
  order : AList fun _ : Bytes => wallet.KeyPair
  entropy : Option (Vector UInt8 keystore.SALT_SIZE × Vector UInt8 keystore.NONCE_SIZE)
  opens : Bool
  starts : Bool

/-- The blockchain, the wallet, the files by name, and whether a node runs. -/
structure Session where
  blockchain : Blockchain
  wallet : Wallet
  files : Bytes → Option Bytes
  running : Bool

namespace Session

variable (s : Session) (env : Surroundings)

/-- Menu 1: a payment from the default address is signed and handed to the chain. Nothing is asked
without such an address, and nothing happens when signing fails. -/
def addTransaction (input : List Bytes) : Session × List Bytes :=
  let sender := s.wallet.defaultAddress
  if sender = [] then (s, input)
  else
    match promptText input with
    | (none, input) => (s, input)
    | (some receiver, input) =>
      match promptAmount input with
      | (none, input) => (s, input)
      | (some amount, input) =>
        let transaction := Transaction.create sender receiver amount env.txTime env.txNonce
        match s.wallet.signTransaction transaction sender env.draws with
        | (_, false) => (s, input)
        | (signed, true) => ({ s with blockchain := s.blockchain.addTransaction signed }, input)

/-- The case of the menu for mining; there is no result when the search for a nonce does not end. -/
def mine (input : List Bytes) : Option (Session × List Bytes) :=
  let selected := s.wallet.defaultAddress
  match promptLine input with
  | (none, input) => some (s, input)
  | (some line, input) =>
    let miner := if isBlank line then selected else line
    if miner = [] then some (s, input)
    else
      (s.blockchain.minePendingTransactions miner env.blockTime env.txTime env.txNonce).map
        fun blockchain => ({ s with blockchain := blockchain }, input)

/-- Menu 6: the chain is written to the file, if it opens. -/
def saveBlockchain (input : List Bytes) : Session × List Bytes :=
  match promptText input with
  | (none, input) => (s, input)
  | (some filename, input) =>
    if !env.opens then (s, input)
    else
      ({ s with files := Function.update s.files filename (some s.blockchain.saveToFile) }, input)

/-- Menu 7: the chain is replaced by the one in the file, if that is accepted. -/
def loadBlockchain (input : List Bytes) : Session × List Bytes :=
  match promptText input with
  | (none, input) => (s, input)
  | (some filename, input) =>
    ({ s with blockchain := (s.blockchain.loadFromFile (s.files filename)).1 }, input)

/-- Menu 8: a new key pair joins the wallet. -/
def createAddress : Session := { s with wallet := (s.wallet.generateNewAddress env.draws).1 }

/-- Menu 9: a private key joins the wallet, if it is accepted. -/
def importPrivateKey (input : List Bytes) : Session × List Bytes :=
  match promptText input with
  | (none, input) => (s, input)
  | (some privHex, input) => ({ s with wallet := (s.wallet.importPrivateKey privHex).1 }, input)

/-- Menu 11: another address becomes the default, if the wallet holds it. -/
def selectAddress (input : List Bytes) : Session × List Bytes :=
  if s.wallet.keyPairs = ∅ then (s, input)
  else
    match promptText input with
    | (none, input) => (s, input)
    | (some address, input) =>
      if !s.wallet.hasAddress address then (s, input)
      else ({ s with wallet := s.wallet.setDefaultAddress address }, input)

/-- Menu 12: the wallet is written to the file, unless it is empty or the passwords differ. -/
def saveWallet (input : List Bytes) : Session × List Bytes :=
  if s.wallet.keyPairs = ∅ then (s, input)
  else
    match promptText input with
    | (none, input) => (s, input)
    | (some filename, input) =>
      match promptPassword input with
      | (none, input) => (s, input)
      | (some password, input) =>
        match promptPassword input with
        | (none, input) => (s, input)
        | (some confirmation, input) =>
          if password ≠ confirmation then (s, input)
          else
            match s.wallet.saveToFile env.order password env.entropy env.opens with
            | none => (s, input)
            | some armored =>
              ({ s with files := Function.update s.files filename (some armored) }, input)

/-- Menu 13: the wallet is replaced by the one in the file, if it can be decrypted and read. -/
def loadWallet (input : List Bytes) : Session × List Bytes :=
  match promptText input with
  | (none, input) => (s, input)
  | (some filename, input) =>
    match promptPassword input with
    | (none, input) => (s, input)
    | (some password, input) =>
      ({ s with wallet := (s.wallet.loadFromFile (s.files filename) password).1 }, input)

/-- The loop over the seed nodes, behind an answer, for at most so many rounds. The flag tells
whether the input was complete. -/
def readSeeds : ℕ → Bytes → List Bytes → Bool × List Bytes
  | 0, _, input => (false, input)
  | rounds + 1, answer, input =>
    if answer.head? = some 121 ∨ answer.head? = some 89 then
      match promptText input with
      | (none, input) => (false, input)
      | (some _, input) =>
        match promptPort none input with
        | (none, input) => (false, input)
        | (some _, input) =>
          match promptLine input with
          | (none, input) => (false, input)
          | (some answer, input) => readSeeds rounds answer input
    else (true, input)

/-- Every round takes lines of the input, so that there are not more rounds than lines. -/
def startP2PNode (input : List Bytes) : Session × List Bytes :=
  if s.running then (s, input)
  else
    match promptPort (some 8333) input with
    | (none, input) => (s, input)
    | (some _, input) =>
      match promptLine input with
      | (none, input) => (s, input)
      | (some answer, input) =>
        match readSeeds (input.length + 1) answer input with
        | (false, input) => (s, input)
        | (true, input) => ({ s with running := env.starts }, input)

/-- The node does not run any more. -/
def stopP2PNode : Session := { s with running := false }

/-- The dialogue for a peer; what the connection brings is a matter of the network. -/
def connectToPeer (input : List Bytes) : Session × List Bytes :=
  if !s.running then (s, input)
  else
    match promptText input with
    | (none, input) => (s, input)
    | (some _, input) => (s, (promptPort none input).2)

/-- The cases of the menu but for the end of the program. Those that only print do nothing here. -/
def perform (choice : Int32) (input : List Bytes) : Option (Session × List Bytes) :=
  if choice = 1 then some (s.addTransaction env input)
  else if choice = 2 then s.mine env input
  else if choice = 3 then some (s, (promptText input).2)
  else if choice = 6 then some (s.saveBlockchain env input)
  else if choice = 7 then some (s.loadBlockchain input)
  else if choice = 8 then some (s.createAddress env, input)
  else if choice = 9 then some (s.importPrivateKey input)
  else if choice = 11 then some (s.selectAddress input)
  else if choice = 12 then some (s.saveWallet env input)
  else if choice = 13 then some (s.loadWallet input)
  else if choice = 14 then some (s.startP2PNode env input)
  else if choice = 15 then some (s.stopP2PNode, input)
  else if choice = 16 then some (s.connectToPeer input)
  else some (s, input)

/-! ### What a command can do -/

/-- What a command can do to a session. -/
inductive Effect (s : Session) (env : Surroundings) (input : List Bytes) : Session → Prop
  | kept (running : Bool) : Effect s env input { s with running := running }
  | paid {receiver : Bytes} {amount : money.Amount} {signed : Transaction}
      (hreceiver : receiver ∈ input)
      (hsigned : s.wallet.signTransaction (Transaction.create s.wallet.defaultAddress receiver
        amount env.txTime env.txNonce) s.wallet.defaultAddress env.draws = (signed, true)) :
      Effect s env input { s with blockchain := s.blockchain.addTransaction signed }
  | mined {miner : Bytes} {blockchain : Blockchain}
      (hminer : miner ∈ input ∨ miner = s.wallet.defaultAddress)
      (h : s.blockchain.minePendingTransactions miner env.blockTime env.txTime env.txNonce =
        some blockchain) :
      Effect s env input { s with blockchain := blockchain }
  | saved (filename : Bytes) : Effect s env input { s with
      files := Function.update s.files filename (some s.blockchain.saveToFile) }
  | loaded (filename : Bytes) : Effect s env input { s with
      blockchain := (s.blockchain.loadFromFile (s.files filename)).1 }
  | walletChanged (action : Action) : Effect s env input { s with
      wallet := s.wallet.perform action }
  | walletSaved {filename password armored : Bytes}
      (h : s.wallet.saveToFile env.order password env.entropy env.opens = some armored) :
      Effect s env input { s with files := Function.update s.files filename (some armored) }

/-- A command leaves the end of its input, and has one of the effects. -/
def Conducts (input : List Bytes) (result : Session × List Bytes) : Prop :=
  s.Effect env input result.1 ∧ result.2 <:+ input

section Commands

variable {s : Session} {env : Surroundings} {input rest : List Bytes}

theorem Conducts.nothing (h : rest <:+ input) : s.Conducts env input (s, rest) :=
  ⟨.kept s.running, h⟩

theorem conducts_addTransaction : s.Conducts env input (s.addTransaction env input) := by
  unfold addTransaction
  dsimp only
  split_ifs with hsender
  · exact .nothing List.suffix_rfl
  rcases htext : promptText input with ⟨_ | receiver, rest⟩
  · exact .nothing (promptUntil_suffix htext)
  have hreceiver := (mem_of_promptText (congrArg Prod.fst htext)).1
  rcases hamount : promptAmount rest with ⟨_ | amount, rest'⟩
  · simp only [hamount]
    exact .nothing ((promptUntil_suffix hamount).trans (promptUntil_suffix htext))
  have hrest := (promptUntil_suffix hamount).trans (promptUntil_suffix htext)
  simp only [hamount]
  rcases hsigned : s.wallet.signTransaction (Transaction.create s.wallet.defaultAddress receiver
    amount env.txTime env.txNonce) s.wallet.defaultAddress env.draws with ⟨signed, _ | _⟩
  · exact .nothing hrest
  · exact ⟨.paid hreceiver hsigned, hrest⟩

theorem conducts_mine {result : Session × List Bytes} (h : s.mine env input = some result) :
    s.Conducts env input result := by
  unfold mine at h
  dsimp only at h
  rcases hline : promptLine input with ⟨_ | line, rest⟩
  · simp only [hline] at h
    exact Option.some.inj h ▸ .nothing (promptLine_suffix hline)
  simp only [hline] at h
  split_ifs at h with hblank hselected hminer
  · exact Option.some.inj h ▸ .nothing (promptLine_suffix hline)
  · obtain ⟨blockchain, hmine, rfl⟩ := Option.map_eq_some_iff.mp h
    exact ⟨.mined (.inr rfl) hmine, promptLine_suffix hline⟩
  · exact Option.some.inj h ▸ .nothing (promptLine_suffix hline)
  · obtain ⟨blockchain, hmine, rfl⟩ := Option.map_eq_some_iff.mp h
    refine ⟨.mined (.inl ?_) hmine, promptLine_suffix hline⟩
    cases input with
    | nil => cases hline
    | cons first input =>
      obtain ⟨hfirst, -⟩ := Prod.mk.inj hline
      obtain rfl := Option.some.inj hfirst
      exact List.mem_cons_self

theorem conducts_saveBlockchain : s.Conducts env input (s.saveBlockchain env input) := by
  unfold saveBlockchain
  rcases htext : promptText input with ⟨_ | filename, rest⟩
  · exact .nothing (promptUntil_suffix htext)
  dsimp only
  split_ifs with hopens
  · exact .nothing (promptUntil_suffix htext)
  · exact ⟨.saved filename, promptUntil_suffix htext⟩

theorem conducts_loadBlockchain : s.Conducts env input (s.loadBlockchain input) := by
  unfold loadBlockchain
  rcases htext : promptText input with ⟨_ | filename, rest⟩
  · exact .nothing (promptUntil_suffix htext)
  · exact ⟨.loaded filename, promptUntil_suffix htext⟩

theorem conducts_createAddress : s.Conducts env input (s.createAddress env, input) :=
  ⟨.walletChanged (.generateNewAddress env.draws), List.suffix_rfl⟩

theorem conducts_importPrivateKey : s.Conducts env input (s.importPrivateKey input) := by
  unfold importPrivateKey
  rcases htext : promptText input with ⟨_ | privHex, rest⟩
  · exact .nothing (promptUntil_suffix htext)
  · exact ⟨.walletChanged (.importPrivateKey privHex), promptUntil_suffix htext⟩

theorem conducts_selectAddress : s.Conducts env input (s.selectAddress input) := by
  unfold selectAddress
  split_ifs with hempty
  · exact .nothing List.suffix_rfl
  rcases htext : promptText input with ⟨_ | address, rest⟩
  · exact .nothing (promptUntil_suffix htext)
  dsimp only
  split_ifs with hhas
  · exact .nothing (promptUntil_suffix htext)
  · exact ⟨.walletChanged (.setDefaultAddress address), promptUntil_suffix htext⟩

theorem conducts_saveWallet : s.Conducts env input (s.saveWallet env input) := by
  unfold saveWallet
  split_ifs with hempty
  · exact .nothing List.suffix_rfl
  rcases htext : promptText input with ⟨_ | filename, rest⟩
  · exact .nothing (promptUntil_suffix htext)
  have hrest := promptUntil_suffix htext
  rcases hpassword : promptPassword rest with ⟨_ | password, rest⟩
  · simp only [hpassword]
    exact .nothing ((promptLine_suffix hpassword).trans hrest)
  replace hrest := (promptLine_suffix hpassword).trans hrest
  simp only [hpassword]
  rcases hconfirmation : promptPassword rest with ⟨_ | confirmation, rest⟩
  · exact .nothing ((promptLine_suffix hconfirmation).trans hrest)
  replace hrest := (promptLine_suffix hconfirmation).trans hrest
  dsimp only
  split_ifs with hsame
  · exact .nothing hrest
  rcases harmored : s.wallet.saveToFile env.order password env.entropy env.opens with _ | armored
  · exact .nothing hrest
  · exact ⟨.walletSaved harmored, hrest⟩

theorem conducts_loadWallet : s.Conducts env input (s.loadWallet input) := by
  unfold loadWallet
  rcases htext : promptText input with ⟨_ | filename, rest⟩
  · exact .nothing (promptUntil_suffix htext)
  have hrest := promptUntil_suffix htext
  rcases hpassword : promptPassword rest with ⟨_ | password, rest⟩
  · simp only [hpassword]
    exact .nothing ((promptLine_suffix hpassword).trans hrest)
  · simp only [hpassword]
    exact ⟨.walletChanged (.loadFromFile (s.files filename) password),
      (promptLine_suffix hpassword).trans hrest⟩

theorem readSeeds_suffix {rounds : ℕ} {answer : Bytes} {complete : Bool}
    (h : readSeeds rounds answer input = (complete, rest)) : rest <:+ input := by
  induction rounds generalizing answer input with
  | zero =>
    obtain ⟨-, rfl⟩ := Prod.mk.inj h
    exact List.suffix_rfl
  | succ rounds ih =>
    rw [readSeeds] at h
    split_ifs at h with hanswer
    · rcases htext : promptText input with ⟨_ | ip, rest₁⟩
      · simp only [htext] at h
        exact (Prod.mk.inj h).2 ▸ promptUntil_suffix htext
      have hrest := promptUntil_suffix htext
      simp only [htext] at h
      rcases hport : promptPort none rest₁ with ⟨_ | port, rest₂⟩
      · simp only [hport] at h
        exact (Prod.mk.inj h).2 ▸ (promptUntil_suffix hport).trans hrest
      replace hrest := (promptUntil_suffix hport).trans hrest
      simp only [hport] at h
      rcases hline : promptLine rest₂ with ⟨_ | answer', rest₃⟩
      · simp only [hline] at h
        exact (Prod.mk.inj h).2 ▸ (promptLine_suffix hline).trans hrest
      · simp only [hline] at h
        exact (ih h).trans ((promptLine_suffix hline).trans hrest)
    · exact (Prod.mk.inj h).2 ▸ List.suffix_rfl

theorem conducts_startP2PNode : s.Conducts env input (s.startP2PNode env input) := by
  unfold startP2PNode
  split_ifs with hrunning
  · exact .nothing List.suffix_rfl
  rcases hport : promptPort (some 8333) input with ⟨_ | port, rest⟩
  · exact .nothing (promptUntil_suffix hport)
  have hrest := promptUntil_suffix hport
  dsimp only
  rcases hline : promptLine rest with ⟨_ | answer, rest⟩
  · exact .nothing ((promptLine_suffix hline).trans hrest)
  replace hrest := (promptLine_suffix hline).trans hrest
  dsimp only
  rcases hseeds : readSeeds (rest.length + 1) answer rest with ⟨_ | _, rest⟩
  · exact .nothing ((readSeeds_suffix hseeds).trans hrest)
  · exact ⟨.kept env.starts, (readSeeds_suffix hseeds).trans hrest⟩

theorem conducts_connectToPeer : s.Conducts env input (s.connectToPeer input) := by
  unfold connectToPeer
  split_ifs with hrunning
  · exact .nothing List.suffix_rfl
  rcases htext : promptText input with ⟨_ | ip, rest⟩
  · exact .nothing (promptUntil_suffix htext)
  · exact .nothing ((promptUntil_suffix (Prod.eta (promptPort none rest)).symm).trans
      (promptUntil_suffix htext))

/-- **A command has one of the effects**, and goes on with the end of its input. -/
theorem effect_of_perform {choice : Int32} {result : Session × List Bytes}
    (h : s.perform env choice input = some result) : s.Conducts env input result := by
  have hcase {c : Prop} [Decidable c] {x y : Option (Session × List Bytes)}
      (hx : x = some result → s.Conducts env input result)
      (hy : y = some result → s.Conducts env input result) :
      (if c then x else y) = some result → s.Conducts env input result := by
    split_ifs
    · exact hx
    · exact hy
  have hdone {done : Session × List Bytes} (hdone : s.Conducts env input done) :
      some done = some result → s.Conducts env input result := by
    rintro ⟨⟩
    exact hdone
  revert h
  refine hcase (hdone conducts_addTransaction) (hcase conducts_mine (hcase (hdone ?_) ?_))
  · exact .nothing (promptUntil_suffix (Prod.eta (promptText input)).symm)
  refine hcase (hdone conducts_saveBlockchain) (hcase (hdone conducts_loadBlockchain) ?_)
  refine hcase (hdone conducts_createAddress) (hcase (hdone conducts_importPrivateKey) ?_)
  refine hcase (hdone conducts_selectAddress) (hcase (hdone conducts_saveWallet) ?_)
  refine hcase (hdone conducts_loadWallet) (hcase (hdone conducts_startP2PNode) ?_)
  refine hcase (hdone ⟨.kept false, List.suffix_rfl⟩) (hcase (hdone conducts_connectToPeer) ?_)
  exact hdone (.nothing List.suffix_rfl)

end Commands

end Session

/-! ### The program -/

/-- A session, the lines that are left, and whether the program has ended. -/
structure Program where
  session : Session
  input : List Bytes
  ended : Bool

namespace Program

variable (p : Program) (env : Surroundings)

/-- `shutdown`, and the end of `main`. -/
def shutdown (input : List Bytes) : Program := ⟨p.session.stopP2PNode, input, true⟩

/-- A round of the loop in `main`. -/
def command : Option Program :=
  match p.input with
  | [] => some (p.shutdown [])
  | line :: input =>
    match utils.parseInt line with
    | none => some { p with input := input }
    | some choice =>
      if choice = 0 then some (p.shutdown input)
      else
        (p.session.perform env choice input).map fun (session, input) => ⟨session, input, false⟩

/-- A round of the loop is a command on what stands behind its line, or the end of the program. -/
theorem effect_of_command {p p' : Program} {env : Surroundings} (h : p.command env = some p') :
    (∃ line input, p.input = line :: input ∧ p.session.Effect env input p'.session ∧
      p'.input <:+ input) ∨ p' = p.shutdown [] := by
  unfold command at h
  rcases hinput : p.input with _ | ⟨line, input⟩
  · rw [hinput] at h
    exact .inr (Option.some.inj h).symm
  rw [hinput] at h
  dsimp only at h
  refine .inl ⟨line, input, rfl, ?_⟩
  rcases hline : utils.parseInt line with _ | choice
  · simp only [hline] at h
    obtain rfl := Option.some.inj h
    exact ⟨.kept p.session.running, List.suffix_rfl⟩
  simp only [hline] at h
  split_ifs at h with hzero
  · obtain rfl := Option.some.inj h
    exact ⟨.kept false, List.suffix_rfl⟩
  · obtain ⟨⟨session, rest⟩, hperform, rfl⟩ := Option.map_eq_some_iff.mp h
    exact Session.effect_of_perform hperform

end Program

/-- A round of the loop, or a block or a transaction from the network. -/
inductive Event where
  | command (env : Surroundings)
  | onNewBlock (block : Block)
  | onNewTransaction (tx : Transaction)

/-- The runs of the program with difficulty `d` and reward `r`, which are those of the default
constructor of the blockchain. -/
def program (d : Int32) (r : money.Amount) : Runs.System Program Event where
  init p := (∃ now, Blockchain.construct d r now = some p.session.blockchain) ∧
    p.session.wallet = {} ∧ p.session.running = false ∧ p.ended = false
  step p e p' :=
    match e with
    | .command env => p.ended = false ∧ p.command env = some p'
    | .onNewBlock block => p.session.running = true ∧
      p' = { p with session := { p.session with
        blockchain := (p.session.blockchain.addBlock (some block)).1 } }
    | .onNewTransaction tx => p.session.running = true ∧
      p' = { p with session := { p.session with
        blockchain := p.session.blockchain.addTransaction tx } }

/-! ### Histories -/

section Histories

variable {d : Int32} {r : money.Amount}

/-- Every effect of a command is one operation on the blockchain, or on the wallet, or none. -/
theorem Session.Effect.histories {s s' : Session} {env : Surroundings} {input : List Bytes}
    (h : s.Effect env input s')
    (hblockchain : (Blockchain.node d r).Reachable (fun _ _ => True) s.blockchain)
    (hwallet : wallet.system.Reachable (fun _ _ => True) s.wallet) :
    (Blockchain.node d r).Reachable (fun _ _ => True) s'.blockchain ∧
      wallet.system.Reachable (fun _ _ => True) s'.wallet := by
  cases h with
  | kept running => exact ⟨hblockchain, hwallet⟩
  | @paid receiver amount signed hreceiver hsigned =>
    exact ⟨Blockchain.reachable_of_run hblockchain (.addTransaction signed) trivial rfl, hwallet⟩
  | @mined miner blockchain hminer hmine =>
    exact ⟨Blockchain.reachable_of_run hblockchain
      (.minePendingTransactions miner env.blockTime env.txTime env.txNonce) trivial hmine, hwallet⟩
  | saved filename => exact ⟨hblockchain, hwallet⟩
  | loaded filename =>
    exact ⟨Blockchain.reachable_of_run hblockchain (.loadFromFile (s.files filename)) trivial rfl,
      hwallet⟩
  | walletChanged action => exact ⟨hblockchain, .step (a := action) hwallet trivial rfl⟩
  | walletSaved harmored => exact ⟨hblockchain, hwallet⟩

/-- In every run, with blocks and transactions from the network between the commands, the
blockchain has a history of a node and the wallet one of its own. -/
theorem history_of_reachable {p : Program} {ok : Program → Event → Prop}
    (h : (program d r).Reachable ok p) :
    (Blockchain.node d r).Reachable (fun _ _ => True) p.session.blockchain ∧
      wallet.system.Reachable (fun _ _ => True) p.session.wallet := by
  refine h.invariant (fun p =>
    (Blockchain.node d r).Reachable (fun _ _ => True) p.session.blockchain ∧
      wallet.system.Reachable (fun _ _ => True) p.session.wallet) ?_ ?_
  · rintro p ⟨hconstruct, hwallet, -⟩
    exact ⟨.init hconstruct, .init hwallet⟩
  · intro p e p' _ ⟨hblockchain, hwallet⟩ _ hstep
    cases e with
    | command env =>
      rcases Program.effect_of_command hstep.2 with ⟨line, input, -, heffect, -⟩ | rfl
      · exact heffect.histories hblockchain hwallet
      · exact ⟨hblockchain, hwallet⟩
    | onNewBlock block =>
      obtain ⟨-, rfl⟩ := hstep
      exact ⟨Blockchain.reachable_of_run hblockchain (.addBlock (some block)) trivial rfl, hwallet⟩
    | onNewTransaction tx =>
      obtain ⟨-, rfl⟩ := hstep
      exact ⟨Blockchain.reachable_of_run hblockchain (.addTransaction tx) trivial rfl, hwallet⟩

end Histories

end cli

end BlockchainCrypto
