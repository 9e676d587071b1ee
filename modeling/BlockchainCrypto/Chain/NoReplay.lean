import BlockchainCrypto.Chain.Agreement

/-!
# Replayed payments

A payment may be mined once. Mining from the pool keeps this in every history, since pool and
chain never share a hash and the pool holds no hash twice. A received block is compared with the
chain and the pool but not with itself, and a loaded chain is not compared with anything.

## Main definitions

* `Blockchain.NoReplay`: no two positions of the chain hold payments of the same hash.
* `Blockchain.NoDuplicatePayments`: what a received block and a loaded file must not contain.

## Main results

* `Blockchain.noReplay_concat_iff`: one appended block.
* `Blockchain.noReplay_of_noDuplicatePayments`: histories without replayed payments.
-/

namespace BlockchainCrypto

open ByteText

/-- The hashes of the payments in a block, position by position. -/
def Block.paymentHashes (b : Block) : List Bytes :=
  (b.transactions.filter fun tx => !tx.isSystem).map Transaction.calculateHash

namespace Blockchain

/-- The positions of the chain that hold payments have pairwise different hashes. -/
def NoReplay (chain : List Block) : Prop := (chain.flatMap Block.paymentHashes).Nodup

theorem mem_paymentHashes {b : Block} {hash : Bytes} : hash ∈ b.paymentHashes ↔
    ∃ tx ∈ b.transactions, ¬ tx.isSystem ∧ tx.calculateHash = hash := by
  simp [Block.paymentHashes, and_assoc]

/-- An appended block brings no replay when its own payments differ from each other and from those
in the chain. -/
theorem noReplay_concat_iff {chain : List Block} {b : Block} :
    NoReplay (chain ++ [b]) ↔ NoReplay chain ∧ b.paymentHashes.Nodup ∧
      ∀ mined ∈ chain, ∀ hash ∈ mined.paymentHashes, hash ∉ b.paymentHashes := by
  rw [NoReplay, List.flatMap_append, List.nodup_append, ← NoReplay]
  simp only [List.flatMap_cons, List.flatMap_nil, List.append_nil, List.mem_flatMap]
  refine and_congr_right fun _ => and_congr_right fun _ =>
    ⟨fun h mined hmined hash hhash hb => ?_, ?_⟩
  · exact h hash ⟨mined, hmined, hhash⟩ hash hb rfl
  · rintro h hash ⟨mined, hmined, hhash⟩ hash' hb rfl
    exact h mined hmined hash hhash hb

theorem noReplay_concat_of_unmined {chain : List Block} {b : Block} (hchain : NoReplay chain)
    (hunmined : Unmined chain b) (hnodup : b.paymentHashes.Nodup) : NoReplay (chain ++ [b]) := by
  refine noReplay_concat_iff.mpr ⟨hchain, hnodup, fun mined hmined hash hhash hb => ?_⟩
  obtain ⟨existing, hexisting, -, rfl⟩ := mem_paymentHashes.mp hhash
  obtain ⟨tx, htx, hpayment, heq⟩ := mem_paymentHashes.mp hb
  exact hunmined tx htx hpayment mined hmined existing hexisting heq.symm

/-- The payments of a mined block differ from each other. -/
theorem MinedOn.nodup_paymentHashes {s : Blockchain} {rewardTx : Transaction} {blockTime : Int64}
    {b : Block} (hb : s.MinedOn rewardTx blockTime b) (hs : Coherent s)
    (hsystem : rewardTx.isSystem) : b.paymentHashes.Nodup := by
  have hpayments : b.transactions.filter (fun tx => !tx.isSystem) =
      s.pendingTransactions.filter fun tx => !tx.isSystem := by
    rw [hb.transactions_eq_pool hs, List.filter_append, List.filter_cons_of_neg (by simpa)]
    exact List.append_nil _
  rw [Block.paymentHashes, hpayments]
  exact hs.pool_nodup.sublist (List.filter_sublist.map _)

/-- No block that `addBlock` would accept holds two payments of one hash, and no file that
`loadFromFile` would adopt holds a replayed payment. -/
def NoDuplicatePayments (s : Blockchain) : Operation → Prop
  | .addBlock (some b) => Fits s.chain s.difficulty s.miningReward b →
      ¬ PaymentPending s.pendingTransactions b → b.paymentHashes.Nodup
  | .loadFromFile file => ∀ d r parsed rest,
      file.bind readFile.run = some ((d, r, parsed), rest) →
        isChainValid parsed d = true → NoReplay parsed
  | _ => True

theorem noReplay_of_effect {s s' : Blockchain} {op : Operation} (hs : Coherent s)
    (hchain : NoReplay s.chain) (hop : NoDuplicatePayments s op) (h : Effect s op s') :
    NoReplay s'.chain := by
  cases h with
  | unchanged => exact hchain
  | admitted htx => exact hchain
  | mined hreward hb =>
    exact noReplay_concat_of_unmined hchain (hb.unmined hs rfl) (hb.nodup_paymentHashes hs rfl)
  | received hfits hpool =>
    exact noReplay_concat_of_unmined hchain hfits.unmined (hop hfits hpool)
  | refused => exact hchain
  | adopted hread hvalid => exact hop _ _ _ _ hread hvalid

/-- In every history in which no accepted block and no adopted file brings a payment twice, no two
positions of the chain hold the same payment. -/
theorem noReplay_of_noDuplicatePayments {d : Int32} {r : money.Amount} {s : Blockchain}
    (h : (node d r).Reachable NoDuplicatePayments s) : NoReplay s.chain := by
  refine h.invariant (fun s => NoReplay s.chain) ?_ ?_
  · rintro s ⟨now, hs⟩
    obtain ⟨_, _, hchain, -⟩ := construct_eq_some hs
    rw [hchain]
    exact List.nodup_nil
  · intro s op s' hreach hs hop hstep
    exact noReplay_of_effect (coherent_of_reachable hreach) hs hop (effect_of_run hstep)

/-- A block has brought the payment to Carol while the one to Bob was pending. -/
theorem noReplay_paid : NoReplay paid.chain := by
  have hblock : NoDuplicatePayments (funded.withPool [paymentToBob])
      (.addBlock (some payingBlock)) := by
    intro _ _
    have hone : payingBlock.paymentHashes = [paymentToCarol.calculateHash] := rfl
    rw [hone]
    exact List.nodup_singleton _
  exact noReplay_of_noDuplicatePayments (reachable_paid trivial trivial hblock)

/-- A block that pays Bob twice by the same payment. -/
def doublePayment : Block :=
  assemble (fresh (money.coins 50) 0).chain 1
    [paymentToBob, paymentToBob, rewardTo (ascii "miner") 1]

theorem fits_doublePayment :
    Fits (fresh (money.coins 50) 0).chain 0 (money.coins 50) doublePayment := by
  have hvalid : ∀ tx ∈ [paymentToBob, paymentToBob, rewardTo (ascii "miner") 1],
      tx.isValid = true := by
    simp only [List.forall_mem_cons, isValid_paymentToBob]
    decide
  exact fits_assemble_fresh (money.coins 50) 0 1 hvalid (by decide) ⟨_, rfl, rfl⟩

/-- The receipt of such a block is a history with a replayed payment. -/
theorem addBlock_accepts_doublePayment :
    (node 0 (money.coins 50)).Reachable (fun _ _ => True)
      ((fresh (money.coins 50) 0).addBlock (some doublePayment)).1 ∧
    ¬ NoReplay ((fresh (money.coins 50) 0).addBlock (some doublePayment)).1.chain := by
  refine ⟨reachable_of_run (reachable_fresh (money.coins 50) 0 _) (.addBlock (some doublePayment))
    trivial rfl, ?_⟩
  rw [addBlock_of_fits fits_doublePayment (not_paymentPending_nil _)]
  intro hnoReplay
  have hnodup := (noReplay_concat_iff.mp hnoReplay).2.1
  have htwice : doublePayment.paymentHashes =
      [paymentToBob.calculateHash, paymentToBob.calculateHash] := rfl
  rw [htwice] at hnodup
  exact (List.nodup_cons.mp hnodup).1 List.mem_cons_self

end Blockchain

end BlockchainCrypto
