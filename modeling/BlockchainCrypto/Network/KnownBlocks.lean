import BlockchainCrypto.Network.Gossip
import BlockchainCrypto.Theory.Pruning

/-!
# The set of known blocks

A node remembers the hashes of blocks so that it does not process an echo. Both handlers of blocks
add to the set and never take anything away. Only `broadcastBlock` prunes: when the set has come to
more than 10000 hashes it erases the 5000 that the iteration starts with, in an order that the hash
set chooses, and the hash that it has just inserted may be among them.

## Main definitions

* `p2p.Node.known`, `p2p.Node.broadcastBlock`.
* `p2p.Call`, `p2p.knowing`: the runs of a node that also broadcasts blocks, in any iteration order.
* `p2p.Kept`: the set is bounded, and a block that was just announced is remembered.
* `p2p.Room`: the calls that leave room in the set.

## Main results

* `p2p.kept_iff_room_of_card_le`: one call.
* `p2p.kept_iff_room`: the runs in which the set stays bounded and remembers what was announced.
-/

namespace BlockchainCrypto

open ByteText

namespace p2p

/-! ### Broadcasting a block -/

namespace Node

/-- The known hashes as a set. -/
def known (n : Node) : Finset Bytes := n.knownBlocks.toFinset

/-- What is known after a block has been broadcast, where the hash set with the new hash is iterated
in the order given. -/
def broadcastBlock (n : Node) (block : Block) (order : List Bytes) : Node :=
  if n.knownBlocks.contains block.hash then n
  else
    let inserted := block.hash :: n.knownBlocks
    if inserted.toFinset.card > 10000 then
      { n with knownBlocks := inserted.filter fun hash => !(order.take 5000).contains hash }
    else { n with knownBlocks := inserted }

end Node

/-- A call that concerns the known blocks: a block is broadcast, or a message or an operation of the
local user is handled. -/
inductive Call where
  | broadcastBlock (block : Block) (order : List Bytes)
  | event (e : Event)

/-- The node after a call. The iteration order is any order of the set with the new hash. -/
def Call.Step (n : Node) : Call → Node → Prop
  | broadcastBlock block order, n' =>
    Pruning.Enumerates order (insert block.hash n.known) ∧ n' = n.broadcastBlock block order
  | event e, n' => e.run n = some n'

/-- The runs of a node that has heard of no block yet. -/
def knowing : Runs.System Node Call where
  init n := n.knownBlocks = []
  step n c n' := c.Step n n'

/-- The block that a call announces, for the two calls that announce one. -/
def Call.announced : Call → Option Block
  | broadcastBlock block _ => some block
  | event (.message msg) =>
    if msg.type = .NEW_BLOCK then BlockSerializer.deserialize msg.payload else none
  | event (.operation _) => none

/-- After the call there are at most 10000 known hashes. The hash of the block that it announces is
one of them, and an echo of the block is not processed. -/
structure Kept (c : Call) (n : Node) : Prop where
  card_le : n.known.card ≤ 10000
  announced : ∀ b, c.announced = some b → b.hash ∈ n.known ∧
    ∀ payload echo, BlockSerializer.deserialize payload = some echo → echo.hash = b.hash →
      n.handleNewBlock payload = n

/-- The hashes that an event delivers. -/
def Event.hashes (e : Event) : Finset Bytes := (e.blocks.map Block.hash).toFinset

/-- The call leaves room: what a message delivers does not fill the set, and a block that is
broadcast does not come first in the iteration over a full set. -/
def Room (n : Node) : Call → Prop
  | .broadcastBlock block order =>
    block.hash ∈ n.known ∨ n.known.card < 10000 ∨ block.hash ∉ order.take 5000
  | .event e => n.known.card + (e.hashes \ n.known).card ≤ 10000

/-! ### One call -/

section Call

variable {n n' : Node} {block : Block} {order : List Bytes}

theorem mem_known_iff {hash : Bytes} : hash ∈ n.known ↔ hash ∈ n.knownBlocks := List.mem_toFinset

theorem contains_iff {hash : Bytes} : n.knownBlocks.contains hash = true ↔ hash ∈ n.known := by
  rw [List.contains_iff_mem, mem_known_iff]

theorem known_of_cons {hash : Bytes} :
    { n with knownBlocks := hash :: n.knownBlocks : Node }.known = insert hash n.known := by
  rw [Node.known, Node.known, List.toFinset_cons]

theorem card_toFinset_cons {hash : Bytes} (h : hash ∉ n.known) :
    (hash :: n.knownBlocks).toFinset.card = n.known.card + 1 := by
  rw [List.toFinset_cons]
  exact Finset.card_insert_of_notMem h

theorem broadcastBlock_of_known (h : block.hash ∈ n.known) : n.broadcastBlock block order = n :=
  if_pos (contains_iff.mpr h)

theorem known_broadcastBlock_of_lt (h : block.hash ∉ n.known) (hcard : n.known.card < 10000) :
    (n.broadcastBlock block order).known = insert block.hash n.known := by
  have hinserted := card_toFinset_cons h
  rw [Node.broadcastBlock, if_neg (contains_iff.not.mpr h)]
  dsimp only
  rw [if_neg (by omega), known_of_cons]

/-- When the set is full, the hashes that the iteration starts with go. -/
theorem known_broadcastBlock_of_le (h : block.hash ∉ n.known) (hcard : 10000 ≤ n.known.card) :
    (n.broadcastBlock block order).known =
      Pruning.prune (insert block.hash n.known) order 5000 := by
  have hinserted := card_toFinset_cons h
  rw [Node.broadcastBlock, if_neg (contains_iff.not.mpr h)]
  dsimp only
  rw [if_pos (by omega)]
  ext hash
  simp [Node.known, Pruning.prune]

/-- A hash that the iteration over a full set starts with is forgotten at once. -/
theorem not_mem_known_broadcastBlock (h : block.hash ∉ n.known) (hcard : 10000 ≤ n.known.card)
    (order : List Bytes) :
    block.hash ∉ (n.broadcastBlock block (block.hash :: order)).known := by
  rw [known_broadcastBlock_of_le h hcard, Pruning.mem_prune_iff (Finset.mem_insert_self _ _)]
  simp

theorem handleNewBlock_ne_of_unknown {payload : Bytes}
    (hpayload : BlockSerializer.deserialize payload = some block) (h : block.hash ∉ n.known) :
    n.handleNewBlock payload ≠ n := by
  intro heq
  rw [mem_known_iff] at h
  rw [handleNewBlock_of_unknown hpayload h] at heq
  have hlength := congrArg (fun n => n.knownBlocks.length) heq
  simp at hlength

theorem known_run {e : Event} (h : e.run n = some n') : n'.known = n.known ∪ e.hashes := by
  ext hash
  rw [Finset.mem_union, mem_known_iff, mem_knownBlocks_run h, mem_known_iff]
  simp [Event.hashes]

theorem card_known_run {e : Event} (h : e.run n = some n') :
    n'.known.card = n.known.card + (e.hashes \ n.known).card := by
  rw [known_run h, ← Finset.union_sdiff_self_eq_union,
    Finset.card_union_of_disjoint Finset.disjoint_sdiff]

/-- What is remembered is not processed again. -/
theorem kept_iff {c : Call} : Kept c n ↔
    n.known.card ≤ 10000 ∧ ∀ b, c.announced = some b → b.hash ∈ n.known := by
  constructor
  · rintro ⟨hcard, hannounced⟩
    exact ⟨hcard, fun b hb => (hannounced b hb).1⟩
  · rintro ⟨hcard, hannounced⟩
    refine ⟨hcard, fun b hb => ⟨hannounced b hb, fun payload echo hpayload hecho => ?_⟩⟩
    refine handleNewBlock_of_known hpayload (mem_known_iff.mp ?_)
    rw [hecho]
    exact hannounced b hb

/-- The hash of a block that a message announces is among those that it delivers. -/
theorem hash_mem_hashes_of_announced {e : Event} {b : Block}
    (h : (Call.event e).announced = some b) : b.hash ∈ e.hashes := by
  cases e with
  | operation op => cases h
  | message msg =>
    rw [Call.announced] at h
    split_ifs at h with htype
    rw [Event.hashes, Event.blocks, if_neg (by rw [htype]; decide), if_pos htype, h]
    simp

/-- As long as the set is bounded, a call keeps it bounded and what it announces remembered exactly
when it leaves room. -/
theorem kept_iff_room_of_card_le {c : Call} (hcard : n.known.card ≤ 10000) (hstep : c.Step n n') :
    Kept c n' ↔ Room n c := by
  rw [kept_iff]
  cases c with
  | event e =>
    rw [Room, card_known_run hstep, known_run hstep]
    exact and_iff_left fun b hb =>
      Finset.mem_union_right _ (hash_mem_hashes_of_announced hb)
  | broadcastBlock block order =>
    obtain ⟨horder, rfl⟩ := hstep
    have hannounced (s : Finset Bytes) : (∀ b, (Call.broadcastBlock block order).announced =
        some b → b.hash ∈ s) ↔ block.hash ∈ s := by
      simp [Call.announced]
    rw [hannounced, Room]
    by_cases hknown : block.hash ∈ n.known
    · rw [broadcastBlock_of_known hknown]
      exact iff_of_true ⟨hcard, hknown⟩ (.inl hknown)
    rw [or_iff_right hknown]
    rcases Nat.lt_or_ge n.known.card 10000 with hlt | hfull
    · rw [known_broadcastBlock_of_lt hknown hlt, Finset.card_insert_of_notMem hknown]
      exact iff_of_true ⟨hlt, Finset.mem_insert_self _ _⟩ (.inl hlt)
    · have hleft : (n.broadcastBlock block order).known.card ≤ 10000 := by
        rw [known_broadcastBlock_of_le hknown hfull, Pruning.card_prune horder,
          Finset.card_insert_of_notMem hknown]
        omega
      rw [and_iff_right hleft, or_iff_right (by omega), known_broadcastBlock_of_le hknown hfull,
        Pruning.mem_prune_iff (Finset.mem_insert_self _ _)]

end Call

/-! ### Runs -/

section Reachable

variable {n : Node}

theorem card_known_le (h : knowing.Reachable Room n) : n.known.card ≤ 10000 := by
  refine h.invariant (fun n => n.known.card ≤ 10000) ?_ ?_
  · intro n hn
    rw [Node.known, show n.knownBlocks = [] from hn]
    exact Nat.zero_le _
  · intro n c n' _ hcard hroom hstep
    exact ((kept_iff_room_of_card_le hcard hstep).mpr hroom).card_le

/-- In every run whose calls leave room the set of known blocks is bounded, and the next call keeps
it bounded and what it announces remembered exactly when it leaves room too. -/
theorem kept_iff_room (h : knowing.Reachable Room n) :
    n.known.card ≤ 10000 ∧ ∀ c n', c.Step n n' → (Kept c n' ↔ Room n c) :=
  ⟨card_known_le h, fun _ _ hstep => kept_iff_room_of_card_le (card_known_le h) hstep⟩

end Reachable

/-- The first announcement leaves room, and so does a broadcast of the block that it announces. -/
theorem kept_firstBlock :
    let announcement := Event.message ⟨.NEW_BLOCK, BlockSerializer.serialize firstBlock, [], 0⟩
    let n := freshNode.handleNewBlock (BlockSerializer.serialize firstBlock)
    Kept (.event announcement) n ∧ Kept (.broadcastBlock firstBlock [firstBlock.hash]) n := by
  intro announcement n
  have hfirst : BlockSerializer.deserialize (BlockSerializer.serialize firstBlock) =
      some firstBlock := deserialize_firstBlock rfl rfl rfl rfl
  have hfresh : knowing.Reachable Room freshNode := .init rfl
  have hrun : (Call.event announcement).Step freshNode n := run_newBlock _ _ _ _
  have hhashes : announcement.hashes = {firstBlock.hash} := by
    rw [Event.hashes, Event.blocks, if_neg (by decide), if_pos rfl, hfirst]
    rfl
  have hroom : Room freshNode (.event announcement) := by
    rw [Room, hhashes]
    simp [Node.known, freshNode]
  have hknown : n.known = {firstBlock.hash} := by
    rw [known_run hrun, hhashes]
    simp [Node.known, freshNode]
  have hmem : firstBlock.hash ∈ n.known := by
    rw [hknown]
    exact Finset.mem_singleton_self _
  have hbroadcast : (Call.broadcastBlock firstBlock [firstBlock.hash]).Step n n := by
    refine ⟨⟨List.nodup_singleton _, ?_⟩, (broadcastBlock_of_known hmem).symm⟩
    rw [hknown, Finset.insert_eq_of_mem (Finset.mem_singleton_self _)]
    rfl
  exact ⟨((kept_iff_room hfresh).2 _ _ hrun).mpr hroom,
    ((kept_iff_room (hfresh.step hroom hrun)).2 _ _ hbroadcast).mpr (.inl hmem)⟩

/-! ### More than 10000 blocks -/

/-- An empty block that claims a number for its hash. -/
def numberedBlock (i : ℕ) : Block := { Block.create 0 (ascii "0") 0 0 with hash := decimal i }

/-- A node to which so many numbered blocks have been announced. -/
def numbered : ℕ → Node
  | 0 => freshNode
  | k + 1 => (numbered k).handleNewBlock (BlockSerializer.serialize (numberedBlock k))

theorem deserialize_numberedBlock (i : ℕ) :
    BlockSerializer.deserialize (BlockSerializer.serialize (numberedBlock i)) =
      some (numberedBlock i) := by
  have hprevious : bar ∉ ascii "0" := by decide
  have hhash : bar ∉ decimal i := fun h => absurd (isDigit_of_mem_decimal h) (by decide)
  exact deserialize_serialize rfl hprevious hhash (fun tx htx => by cases htx) (Nat.zero_le _)

theorem knownBlocks_numbered (k : ℕ) :
    (numbered k).knownBlocks = ((List.range k).map decimal).reverse := by
  induction k with
  | zero => rfl
  | succ k ih =>
    have hunknown : (numberedBlock k).hash ∉ (numbered k).knownBlocks := by
      rw [ih, List.mem_reverse, List.mem_map]
      rintro ⟨i, hi, heq⟩
      have hik : i = k := decimal_inj heq
      rw [List.mem_range] at hi
      omega
    rw [numbered, handleNewBlock_of_unknown (deserialize_numberedBlock k) hunknown,
      List.range_succ, List.map_append, List.reverse_append, ← ih]
    rfl

theorem enumerates_numbered (k : ℕ) :
    Pruning.Enumerates (numbered k).knownBlocks (numbered k).known := by
  refine ⟨?_, rfl⟩
  rw [knownBlocks_numbered, List.nodup_reverse]
  exact List.nodup_range.map fun i j h => decimal_inj h

theorem card_known_numbered (k : ℕ) : (numbered k).known.card = k := by
  rw [← (enumerates_numbered k).length_eq, knownBlocks_numbered, List.length_reverse,
    List.length_map, List.length_range]

theorem hash_not_mem_known_numbered (k : ℕ) : (numberedBlock k).hash ∉ (numbered k).known := by
  intro h
  have hcard := card_known_numbered (k + 1)
  rw [numbered, handleNewBlock_of_known (deserialize_numberedBlock k) (mem_known_iff.mp h),
    card_known_numbered] at hcard
  omega

theorem reachable_numbered (k : ℕ) : knowing.Reachable (fun _ _ => True) (numbered k) := by
  induction k with
  | zero => exact .init rfl
  | succ k ih => exact ih.step trivial (a := .event (.message
      ⟨.NEW_BLOCK, BlockSerializer.serialize (numberedBlock k), [], 0⟩)) (run_newBlock _ _ _ _)

/-- After 10001 announcements the set holds 10001 hashes. When instead the last of these blocks is
broadcast, and the iteration starts with it, its echo is processed. -/
theorem known_blocks_pile_up :
    (knowing.Reachable (fun _ _ => True) (numbered 10001) ∧ (numbered 10001).known.card = 10001) ∧
      knowing.Reachable (fun _ _ => True) (numbered 10000) ∧
      ∃ order n, (Call.broadcastBlock (numberedBlock 10000) order).Step (numbered 10000) n ∧
        (numberedBlock 10000).hash ∉ n.known ∧
        n.handleNewBlock (BlockSerializer.serialize (numberedBlock 10000)) ≠ n := by
  have hnew := hash_not_mem_known_numbered 10000
  have horder := (enumerates_numbered 10000).cons hnew
  have hforgotten := not_mem_known_broadcastBlock hnew (card_known_numbered 10000).ge
    (numbered 10000).knownBlocks
  exact ⟨⟨reachable_numbered _, card_known_numbered _⟩, reachable_numbered _, _, _, ⟨horder, rfl⟩,
    hforgotten, handleNewBlock_ne_of_unknown (deserialize_numberedBlock _) hforgotten⟩

end p2p

end BlockchainCrypto
