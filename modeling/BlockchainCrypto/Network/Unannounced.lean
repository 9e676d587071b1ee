import BlockchainCrypto.Network.Replication

/-!
# What nobody announces

The menu of the program never calls `broadcastBlock` or `broadcastTransaction`, and a node passes on
only what it was sent. So between programs of this kind no block and no transaction is ever
announced: blocks travel in replies to requests alone, and payments do not travel at all. A payment
stays at the node where it was handed in, and reaches a chain in a block that was mined there.

## Main definitions

* `p2p.Net.Silent`: the steps of such programs.
* `p2p.HomeMade`: a block with payments of one node.

## Main results

* `p2p.Net.Unannounced.step`: what every step keeps.
* `p2p.Net.payments_stay_home`: where payments are in every run.
-/

namespace BlockchainCrypto

open ByteText

namespace p2p

/-- The message announces a block or a transaction. -/
def Message.IsAnnouncement (msg : Message) : Prop :=
  msg.type = .NEW_BLOCK ∨ msg.type = .NEW_TRANSACTION

theorem not_isAnnouncement_create {type : MessageType}
    (h : type ≠ .NEW_BLOCK ∧ type ≠ .NEW_TRANSACTION) (payload : Bytes) (now : Int64) :
    ¬ (Message.create type payload now).IsAnnouncement := not_or.mpr h

/-- No request is answered with an announcement. -/
theorem not_isAnnouncement_reply {n : Node} {msg answer : Message} {now : Int64}
    (h : n.reply msg now = some answer) : ¬ answer.IsAnnouncement := by
  rw [Node.reply] at h
  split_ifs at h with hblocks hheight
  · rw [← Option.some.inj h, handleGetBlocks]
    split
    · exact not_isAnnouncement_create (by decide) _ now
    · exact not_isAnnouncement_create (by decide) _ now
  · rw [← Option.some.inj h]
    exact not_isAnnouncement_create (by decide) _ now

/-- The block is legible, and its payments were all handed in at one node. -/
structure HomeMade {V : Type*} (entered : V → Transaction → Prop) (b : Block) : Prop where
  legible : Legible b
  hash : ∀ c ∈ b.hash, isHexDigit c = true
  payments : ∃ v, ∀ tx ∈ b.transactions, ¬ tx.isSystem → entered v tx

/-- Blocks from a source leave a chain with blocks of the source, and take payments from the pool
only. -/
theorem receives_invariant {source : Set Block} {s s' : Blockchain}
    (h : Relation.ReflTransGen (Receives source) s s') :
    (∀ b ∈ s'.chain, b ∈ s.chain ∨ b ∈ source) ∧
      ∀ tx ∈ s'.pendingTransactions, tx ∈ s.pendingTransactions := by
  induction h with
  | refl => exact ⟨fun b hb => .inl hb, fun tx htx => htx⟩
  | tail _ hlast ih =>
    obtain ⟨b, hb, -, -, rfl⟩ := hlast
    refine ⟨List.forall_mem_append.mpr ⟨ih.1, List.forall_mem_singleton.mpr (.inr hb)⟩, ?_⟩
    exact fun tx htx => ih.2 tx (Blockchain.mem_purgePending.mp htx).1

namespace Net

section Silence

variable {V : Type*} [DecidableEq V]

/-- The steps of programs that announce nothing: their users hand in payments and mine, and other
parts of the program send what is neither an announcement nor a reply with blocks. -/
def Silent (entered : V → Transaction → Prop) (t : Net V) : Action V → Prop
  | .operate v (.addTransaction tx) => entered v tx
  | .operate v (.minePendingTransactions rewardAddress _ _ _) =>
    MinesLegibly (t.node v).blockchain rewardAddress
  | .operate _ (.addBlock _) => False
  | .operate _ (.loadFromFile _) => False
  | .broadcastBlock _ _ _ _ _ => False
  | .broadcastTransaction _ _ _ _ _ => False
  | .send envelope => ¬ envelope.message.IsAnnouncement ∧ envelope.message.type ≠ .BLOCKS
  | .deliver _ _ _ => True
  | .lose _ => True

/-- What holds in a network in which nobody announces anything. -/
structure Unannounced (entered : V → Transaction → Prop) (t : Net V) : Prop where
  chains : ∀ v, ∀ b ∈ t.chain v, HomeMade entered b
  pools : ∀ v, ∀ tx ∈ (t.node v).blockchain.pendingTransactions, entered v tx
  silence : ∀ e ∈ t.inFlight, ¬ e.message.IsAnnouncement
  inFlight : ∀ e ∈ t.inFlight, ∀ b ∈ e.blocks, HomeMade entered b

variable {d : Int32} {r : money.Amount} {t t' : Net V} {a : Action V}
  {entered : V → Transaction → Prop}

/-- The blocks of a network that has just started hold no payments. -/
theorem Unannounced.init (h : (network V d r).init t) : Unannounced entered t := by
  have hnone : ∀ e, e ∉ t.inFlight := fun e he => by
    rw [h.1] at he
    exact Multiset.notMem_zero e he
  refine ⟨fun v b hb => ?_, fun v tx htx => ?_, fun e he => absurd he (hnone e),
    fun e he => absurd he (hnone e)⟩
  · obtain ⟨now, s, hconstruct, hnode⟩ := h.2 v
    obtain ⟨g, hchain, -, hlegible, hhash⟩ := exists_genesis hconstruct
    obtain ⟨_, _, hgenesis, -⟩ := Blockchain.construct_eq_some hconstruct
    rw [chain, hnode] at hb
    refine ⟨?_, ?_, ?_⟩
    · rw [hchain] at hb
      exact List.mem_singleton.mp hb ▸ hlegible
    · rw [hchain] at hb
      exact List.mem_singleton.mp hb ▸ hhash
    · rw [hgenesis] at hb
      rw [List.mem_singleton.mp hb]
      exact ⟨v, fun tx htx => absurd htx List.not_mem_nil⟩
  · obtain ⟨now, s, hconstruct, hnode⟩ := h.2 v
    obtain ⟨_, _, -, -, hpool, -⟩ := Blockchain.construct_eq_some hconstruct
    rw [hnode, hpool] at htx
    exact absurd htx List.not_mem_nil

/-- What a step does to a node: blocks that are in flight, or a payment that is handed in, or a
block mined from its own pool. -/
theorem Unannounced.node (h : Unannounced entered t) (hok : Silent entered t a)
    (hstep : a.Step t t') (v : V) :
    (∀ b ∈ t'.chain v, HomeMade entered b) ∧
      ∀ tx ∈ (t'.node v).blockchain.pendingTransactions, entered v tx := by
  rcases hstep.node_cases v with heq | ⟨op, rfl, hrun⟩ | ⟨e, peers, now, rfl, he, rfl, hnode⟩
  · rw [chain, heq]
    exact ⟨h.chains v, h.pools v⟩
  · cases op with
    | addTransaction tx =>
      rw [chain, ← Option.some.inj hrun, chain_addTransaction]
      refine ⟨h.chains v, fun tx' htx' => ?_⟩
      unfold Blockchain.addTransaction at htx'
      split_ifs at htx'
      · exact h.pools v tx' htx'
      · exact h.pools v tx' htx'
      · exact h.pools v tx' htx'
      · rcases List.mem_append.mp htx' with hold | hnew
        · exact h.pools v tx' hold
        · rw [List.mem_singleton.mp hnew]
          exact hok
    | minePendingTransactions rewardAddress blockTime txTime txNonce =>
      rcases Blockchain.mine_cases hrun with ⟨-, heq⟩ | ⟨-, b, hb, heq⟩
      · rw [chain, heq]
        exact ⟨h.chains v, h.pools v⟩
      · have htip := (h.chains v _ (List.getLast_mem (t.node v).blockchain.chain_ne_nil)).hash
        have hhome : HomeMade entered b := by
          refine ⟨legible_of_minedOn htip hok hb, isHexDigit_hash_of_isValid hb.valid, v, ?_⟩
          rw [hb.transactions_eq]
          refine List.forall_mem_append.mpr ⟨fun tx htx _ => ?_, List.forall_mem_singleton.mpr ?_⟩
          · exact h.pools v tx (List.mem_of_mem_filter htx)
          · exact fun hpayment => absurd rfl hpayment
        rw [chain, heq]
        exact ⟨List.forall_mem_append.mpr ⟨h.chains v, List.forall_mem_singleton.mpr hhome⟩,
          fun tx htx => absurd htx List.not_mem_nil⟩
    | addBlock block => exact hok.elim
    | loadFromFile file => exact hok.elim
  · have htx : e.message.type ≠ .NEW_TRANSACTION := fun htype => h.silence e he (.inr htype)
    obtain ⟨hchain, hpool⟩ :=
      receives_invariant (reflTransGen_receives_handleMessage (t.node e.receiver) htx)
    rw [chain, hnode]
    refine ⟨fun b hb => ?_, fun tx htx => h.pools e.receiver tx (hpool tx htx)⟩
    rcases hchain b hb with hold | hnew
    · exact h.chains e.receiver b hold
    · exact h.inFlight e he b hnew

/-- The messages in flight after a step announce nothing, and deliver blocks of chains. -/
theorem Unannounced.flight (h : Unannounced entered t) (hok : Silent entered t a)
    (hstep : a.Step t t') {e : Envelope V} (he : e ∈ t'.inFlight) :
    ¬ e.message.IsAnnouncement ∧ ∀ b ∈ e.blocks, HomeMade entered b := by
  rcases hstep.inFlight_cases he with hold | rfl | ⟨v, block, order, peers, now, rfl, -⟩ |
    ⟨v, tx, order, peers, now, rfl, -⟩ | ⟨received, peers, now, rfl, hreceived, hmsg | hmsg⟩
  · exact ⟨h.silence e hold, h.inFlight e hold⟩
  · refine ⟨hok.1, fun b hb => ?_⟩
    rw [Envelope.blocks, Event.blocks, if_neg hok.2, if_neg fun htype => hok.1 (.inl htype)] at hb
    exact absurd hb List.not_mem_nil
  · exact hok.elim
  · exact hok.elim
  · refine ⟨not_isAnnouncement_reply hmsg, fun b hb => ?_⟩
    have hlegible (b : Block) (hb : b ∈ t.chain received.receiver) : Legible b :=
      (h.chains received.receiver b hb).legible
    rw [Node.reply] at hmsg
    split_ifs at hmsg
    · rw [Envelope.blocks, ← Option.some.inj hmsg] at hb
      exact h.chains received.receiver b (mem_chain_of_mem_blocks_handleGetBlocks hlegible hb)
    · rw [Envelope.blocks, ← Option.some.inj hmsg] at hb
      exact absurd hb List.not_mem_nil
  · rw [Node.forward, if_neg fun htype => h.silence received hreceived (.inl htype),
      if_neg fun htype => h.silence received hreceived (.inr htype)] at hmsg
    cases hmsg

/-- A step keeps payments at home. -/
theorem Unannounced.step (h : Unannounced entered t) (hok : Silent entered t a)
    (hstep : a.Step t t') : Unannounced entered t' :=
  ⟨fun v => (h.node hok hstep v).1, fun v => (h.node hok hstep v).2,
    fun _ he => (h.flight hok hstep he).1, fun _ he => (h.flight hok hstep he).2⟩

/-- **Payments stay at home.** In every run of programs that announce nothing no announcement is in
flight, what a node has pending was handed in there, and the payments of a block were all handed in
at one node. -/
theorem payments_stay_home (h : (network V d r).Reachable (Silent entered) t) :
    (∀ e ∈ t.inFlight, ¬ e.message.IsAnnouncement) ∧
      (∀ v, ∀ tx ∈ (t.node v).blockchain.pendingTransactions, entered v tx) ∧
      ∀ v, ∀ b ∈ t.chain v, ∃ w, ∀ tx ∈ b.transactions, ¬ tx.isSystem → entered w tx := by
  have hall : Unannounced entered t :=
    h.invariant (Unannounced entered) (fun _ ht => Unannounced.init ht)
      fun _ _ _ _ ih hok hstep => ih.step hok hstep
  exact ⟨hall.silence, hall.pools, fun v b hb => (hall.chains v b hb).payments⟩

end Silence

/-- A network that was handed no payments announces nothing, and the mined block holds none. -/
theorem payments_stay_home_minedNet :
    (∀ e ∈ minedNet.inFlight, ¬ e.message.IsAnnouncement) ∧
      ∀ b ∈ minedNet.chain true, ∀ tx ∈ b.transactions, tx.isSystem := by
  have hsilent : Silent (fun _ _ => False) freshNet
      (.operate true (.minePendingTransactions (ascii "bob") 5 6 1)) := oneProducer_minedNet.2
  have hreach : (network Bool 0 (money.coins 50)).Reachable (Silent fun _ _ => False) minedNet :=
    .step (.init init_freshNet) hsilent step_minedNet
  obtain ⟨hsilence, -, hchains⟩ := payments_stay_home hreach
  refine ⟨hsilence, fun b hb tx htx => ?_⟩
  obtain ⟨w, hw⟩ := hchains true b hb
  by_contra hpayment
  exact hw tx htx hpayment

end Net

end p2p

end BlockchainCrypto
