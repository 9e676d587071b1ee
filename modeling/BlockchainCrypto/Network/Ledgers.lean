import BlockchainCrypto.Chain.Supply
import BlockchainCrypto.Network.CatchUp
import Mathlib.Data.List.TakeDrop

/-!
# The balances of a network

A node computes its balances from its chain. In a network with one producer its chain is a copy of
the producer's, up to a genesis block without transactions, so its balances are those that the
producer had when its own chain was as long.

## Main results

* `p2p.Net.exists_earlier`: the producer has had every chain that is the lower part of its own.
* `p2p.Net.balances_shown_before`: nodes show balances that the producer has shown.
-/

namespace BlockchainCrypto

open ByteText

/-! ### Genesis blocks -/

namespace Blockchain

theorem updateBalances_cons_of_nil {g : Block} (hg : g.transactions = []) (blocks : List Block) :
    updateBalances (g :: blocks) = updateBalances blocks := by
  rw [updateBalances, updateBalances, List.foldl_cons, hg, List.foldl_nil]

/-- In a history without loading the genesis block stays the one without transactions. -/
theorem exists_genesis_of_reachable {d : Int32} {r : money.Amount} {s : Blockchain}
    (h : (node d r).Reachable NoLoad s) :
    ∃ g blocks, s.chain = g :: blocks ∧ g.transactions = [] := by
  refine h.invariant (fun s => ∃ g blocks, s.chain = g :: blocks ∧ g.transactions = []) ?_ ?_
  · rintro s ⟨now, hs⟩
    obtain ⟨nonce, hash, hchain, -⟩ := construct_eq_some hs
    exact ⟨_, [], hchain, rfl⟩
  · rintro s op s' - ⟨g, blocks, hchain, hg⟩ hop hrun
    cases effect_of_run hrun with
    | unchanged => exact ⟨g, blocks, hchain, hg⟩
    | admitted htx => exact ⟨g, blocks, hchain, hg⟩
    | @mined _ _ _ _ b hreward hb =>
      exact ⟨g, blocks ++ [b], congrArg (· ++ [b]) hchain, hg⟩
    | @received b hfits hpool =>
      exact ⟨g, blocks ++ [b], congrArg (· ++ [b]) hchain, hg⟩
    | refused => exact hop.elim
    | adopted hread hvalid => exact hop.elim

end Blockchain

namespace p2p

namespace Net

variable {V : Type*} [DecidableEq V] {d : Int32} {r : money.Amount} {p v w : V} {t t' : Net V}

/-- The balances of a node are those of the blocks above its genesis block. -/
theorem getBalance_eq_tail (h : (network V d r).Reachable (OneProducer p) t) (v : V) (a : Bytes) :
    (t.node v).blockchain.getBalance a =
      (Blockchain.updateBalances (t.chain v).tail).balance a := by
  have hhistory := reachable_blockchain h (fun _ _ _ hok => hok.elim) v
  obtain ⟨g, blocks, hchain, hg⟩ := Blockchain.exists_genesis_of_reachable hhistory
  rw [Blockchain.getBalance, (Blockchain.coherent_of_reachable hhistory).balances_eq, chain, hchain,
    Blockchain.updateBalances_cons_of_nil hg, List.tail_cons]

/-- The producer has had every chain that is the lower part of its own, at an earlier moment of the
run. -/
theorem exists_earlier (h : (network V d r).Reachable (OneProducer p) t) {n : ℕ} (hn : 1 ≤ n)
    (hle : n ≤ (t.chain p).length) :
    ∃ t₀, (network V d r).Reachable (OneProducer p) t₀ ∧
      (network V d r).Continues (OneProducer p) t₀ t ∧ t₀.chain p = (t.chain p).take n := by
  induction h with
  | @init t ht =>
    obtain ⟨now, s, hs, hnode⟩ := ht.2 p
    obtain ⟨g, hg, -⟩ := exists_genesis hs
    have hlength : (t.chain p).length = 1 := by rw [chain, hnode, hg, List.length_singleton]
    exact ⟨t, .init ht, .refl, (List.take_of_length_le (by omega)).symm⟩
  | @step t t' a ht hok hstep ih =>
    have hearlier (hle : n ≤ (t.chain p).length)
        (htake : (t'.chain p).take n = (t.chain p).take n) :
        ∃ t₀, (network V d r).Reachable (OneProducer p) t₀ ∧
          (network V d r).Continues (OneProducer p) t₀ t' ∧ t₀.chain p = (t'.chain p).take n := by
      obtain ⟨t₀, hreachable, hcontinues, hchain⟩ := ih hle
      exact ⟨t₀, hreachable, hcontinues.step hok hstep, hchain.trans htake.symm⟩
    have hreplicated := replicated_of_reachable ht
    rcases hreplicated.step_cases hok hstep with
      ⟨rewardAddress, blockTime, txTime, txNonce, b, -, -, -, hpush, -⟩ | hhears
    · have hchain : t'.chain p = t.chain p ++ [b] := congrArg Blockchain.chain hpush
      rcases Nat.lt_or_ge (t.chain p).length n with hlt | hge
      · rw [hchain, List.length_append, List.length_singleton] at hle
        refine ⟨t', ht.step hok hstep, .refl, (List.take_of_length_le ?_).symm⟩
        rw [hchain, List.length_append, List.length_singleton]
        omega
      · exact hearlier hge (by rw [hchain, List.take_append_of_le_length hge])
    · have hchain := (hreplicated.hears hhears fun e he b hb =>
        hreplicated.blocks_inFlight hok hstep he hb).1
      rw [hchain] at hle
      exact hearlier hle (by rw [hchain])

/-- In every run of a network with one producer, the balances that a node shows are, for all
addresses at once, those that the producer has shown at some moment of the run, and nodes with
chains of the same length show the same balances. -/
theorem balances_shown_before (h : (network V d r).Reachable (OneProducer p) t) :
    (∀ v, ∃ t₀, (network V d r).Reachable (OneProducer p) t₀ ∧
      (network V d r).Continues (OneProducer p) t₀ t ∧
      ∀ a, (t.node v).blockchain.getBalance a = (t₀.node p).blockchain.getBalance a) ∧
    ∀ v w, (t.chain v).length = (t.chain w).length →
      ∀ a, (t.node v).blockchain.getBalance a = (t.node w).blockchain.getBalance a := by
  have hreplicated := replicated_of_reachable h
  constructor
  · intro v
    have htail := (hreplicated.follows v).tail
    have hpositive := List.length_pos_of_ne_nil (hreplicated.follows v).ne_nil
    have hle : (t.chain v).length ≤ (t.chain p).length := by
      have := List.length_pos_of_ne_nil hreplicated.labelled.ne_nil
      have := htail.length_le
      rw [List.length_tail, List.length_tail] at this
      omega
    obtain ⟨t₀, hreachable, hcontinues, hchain⟩ := exists_earlier h hpositive hle
    refine ⟨t₀, hreachable, hcontinues, fun a => ?_⟩
    rw [getBalance_eq_tail h, getBalance_eq_tail hreachable, hchain,
      List.prefix_iff_eq_take.mp htail, List.tail_take_eq_take_tail, List.length_tail]
  · intro v w hlength a
    have htails : (t.chain v).tail = (t.chain w).tail := by
      have hlength' : (t.chain v).tail.length = (t.chain w).tail.length := by
        rw [List.length_tail, List.length_tail, hlength]
      rcases (hreplicated.follows v).comparable (hreplicated.follows w) with hle | hle
      · exact hle.eq_of_length hlength'
      · exact (hle.eq_of_length hlength'.symm).symm
    rw [getBalance_eq_tail h, getBalance_eq_tail h, htails]

/-- When one of two nodes has mined a block, the other one shows balances of the past. -/
theorem balances_shown_before_minedNet :
    ∃ t₀, (network Bool 0 (money.coins 50)).Continues (OneProducer true) t₀ minedNet ∧
      ∀ a, (minedNet.node false).blockchain.getBalance a = (t₀.node true).blockchain.getBalance a :=
  have hrun := (balances_shown_before
    (.step (.init init_freshNet) oneProducer_minedNet step_minedNet)).1 false
  hrun.imp fun _ ht => ht.2

end Net

end p2p

end BlockchainCrypto
