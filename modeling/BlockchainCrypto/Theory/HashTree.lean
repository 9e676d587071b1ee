import Mathlib.Data.List.Basic

/-!
# Trees of hashes

A list is hashed to one digest by hashing its elements, combining neighbours level by level and
promoting an odd last element. When the messages of leaves and of nodes can be told apart, two
trees with the same root digest are equal or show a collision among the messages that were hashed
for them; trees that are equal have the same leaves, whatever the lengths of the two lists.

## Main definitions

* `HashTree`, `HashTree.leaves`.
* `HashTree.Scheme`: a hash function with separated messages of leaves and nodes.
* `HashTree.Scheme.digest`, `HashTree.Scheme.inputs`: the root digest and what is hashed for it.
* `HashTree.pairUp`, `HashTree.reduce`: one level of combining, and all of them.

## Main results

* `HashTree.Scheme.eq_or_collision`: equal digests come from equal trees or from a collision.
* `HashTree.map_reduce`: combining commutes with a homomorphism.
* `HashTree.flatMap_leaves_reduce`: combining keeps the leaves and their order.
-/

/-- A binary tree over its leaves. -/
inductive HashTree (α : Type*)
  | leaf (a : α)
  | node (left right : HashTree α)

namespace HashTree

variable {α β γ M D : Type*}

/-- The data at the leaves, from left to right. -/
def leaves : HashTree α → List α
  | leaf a => [a]
  | node left right => left.leaves ++ right.leaves

/-! ### Digests and collisions -/

/-- A hash function over messages, with the messages of leaves and of nodes told apart. -/
structure Scheme (α M D : Type*) where
  hash : M → D
  leafInput : α → M
  nodeInput : D → D → M
  leafInput_inj : ∀ {a b}, leafInput a = leafInput b → a = b
  nodeInput_inj : ∀ {l r l' r'}, nodeInput l r = nodeInput l' r' → l = l' ∧ r = r'
  leafInput_ne_nodeInput : ∀ a l r, leafInput a ≠ nodeInput l r

namespace Scheme

variable (S : Scheme α M D)

/-- The digest of the root. -/
def digest : HashTree α → D
  | leaf a => S.hash (S.leafInput a)
  | node left right => S.hash (S.nodeInput (digest left) (digest right))

/-- The messages hashed for the digest. -/
def inputs : HashTree α → List M
  | leaf a => [S.leafInput a]
  | node left right => S.nodeInput (S.digest left) (S.digest right) :: (inputs left ++ inputs right)

/-- The message hashed last. -/
def rootInput : HashTree α → M
  | leaf a => S.leafInput a
  | node left right => S.nodeInput (S.digest left) (S.digest right)

theorem hash_rootInput (t : HashTree α) : S.hash (S.rootInput t) = S.digest t := by
  cases t <;> rfl

theorem rootInput_mem (t : HashTree α) : S.rootInput t ∈ S.inputs t := by
  cases t with
  | leaf a => exact List.mem_singleton_self _
  | node left right => exact List.mem_cons_self

/-- A message of each list, distinct and with the same hash. -/
def Collision (ms ms' : List M) : Prop := ∃ m ∈ ms, ∃ m' ∈ ms', m ≠ m' ∧ S.hash m = S.hash m'

variable {S}

theorem Collision.mono {ms ms' ns ns' : List M} (h : S.Collision ms ms') (hms : ms ⊆ ns)
    (hms' : ms' ⊆ ns') : S.Collision ns ns' := by
  obtain ⟨m, hm, m', hm', hne, heq⟩ := h
  exact ⟨m, hms hm, m', hms' hm', hne, heq⟩

/-- Different messages at the roots are a collision. -/
theorem collision_of_rootInput_ne {t t' : HashTree α} (h : S.digest t = S.digest t')
    (hne : S.rootInput t ≠ S.rootInput t') : S.Collision (S.inputs t) (S.inputs t') :=
  ⟨_, S.rootInput_mem t, _, S.rootInput_mem t', hne,
    (S.hash_rootInput t).trans (h.trans (S.hash_rootInput t').symm)⟩

/-- **Roots bind trees.** Trees with the same digest are equal, or two distinct messages among
those hashed for them have the same hash. -/
theorem eq_or_collision {t t' : HashTree α} (h : S.digest t = S.digest t') :
    t = t' ∨ S.Collision (S.inputs t) (S.inputs t') := by
  induction t generalizing t' with
  | leaf a =>
    cases t' with
    | leaf b =>
      by_cases hab : a = b
      · exact .inl (congrArg leaf hab)
      · exact .inr (collision_of_rootInput_ne h fun heq => hab (S.leafInput_inj heq))
    | node left right =>
      exact .inr (collision_of_rootInput_ne h (S.leafInput_ne_nodeInput a _ _))
  | node left right ihleft ihright =>
    cases t' with
    | leaf b =>
      exact .inr (collision_of_rootInput_ne h fun heq => S.leafInput_ne_nodeInput b _ _ heq.symm)
    | node left' right' =>
      by_cases hroot : S.rootInput (node left right) = S.rootInput (node left' right')
      · obtain ⟨hl, hr⟩ := S.nodeInput_inj hroot
        have hsub_left (u v : HashTree α) : S.inputs u ⊆ S.inputs (node u v) :=
          fun m hm => List.mem_cons_of_mem _ (List.mem_append_left _ hm)
        have hsub_right (u v : HashTree α) : S.inputs v ⊆ S.inputs (node u v) :=
          fun m hm => List.mem_cons_of_mem _ (List.mem_append_right _ hm)
        rcases ihleft hl with rfl | hcol
        · rcases ihright hr with rfl | hcol
          · exact .inl rfl
          · exact .inr (hcol.mono (hsub_right _ _) (hsub_right _ _))
        · exact .inr (hcol.mono (hsub_left _ _) (hsub_left _ _))
      · exact .inr (collision_of_rootInput_ne h hroot)

end Scheme

/-! ### Combining level by level -/

/-- Neighbours are combined, and an odd last element is promoted. -/
def pairUp (f : β → β → β) : List β → List β
  | left :: right :: rest => f left right :: pairUp f rest
  | level => level

theorem length_pairUp (f : β → β → β) (level : List β) :
    (pairUp f level).length = (level.length + 1) / 2 := by
  fun_induction pairUp f level with
  | case1 left right rest ih =>
    simp only [List.length_cons, ih]
    omega
  | case2 level hshort =>
    match level with
    | [] => simp
    | [_] => simp
    | left :: right :: rest => exact (hshort left right rest rfl).elim

/-- Levels are combined until at most one element is left. -/
def reduce (f : β → β → β) (level : List β) : List β :=
  if level.length > 1 then reduce f (pairUp f level) else level
termination_by level.length
decreasing_by
  rw [length_pairUp]
  omega

theorem reduce_of_length_le {f : β → β → β} {level : List β} (h : level.length ≤ 1) :
    reduce f level = level := by
  rw [reduce, if_neg (by omega)]

theorem reduce_of_length_gt {f : β → β → β} {level : List β} (h : level.length > 1) :
    reduce f level = reduce f (pairUp f level) := by
  rw [reduce, if_pos h]

/-- One element is left of a list that has any. -/
theorem exists_reduce_eq (f : β → β → β) {level : List β} (h : level ≠ []) :
    ∃ root, reduce f level = [root] := by
  fun_induction reduce f level with
  | case1 level hlong ih =>
    refine ih (List.ne_nil_of_length_pos ?_)
    rw [length_pairUp]
    omega
  | case2 level hshort =>
    have hpos := List.length_pos_iff.mpr h
    exact List.length_eq_one_iff.mp (by omega)

theorem map_pairUp {f : β → β → β} {f' : γ → γ → γ} {g : β → γ}
    (hg : ∀ a b, g (f a b) = f' (g a) (g b)) (level : List β) :
    (pairUp f level).map g = pairUp f' (level.map g) := by
  fun_induction pairUp f level with
  | case1 left right rest ih => rw [List.map_cons, hg, ih, List.map_cons, List.map_cons, pairUp]
  | case2 level hshort =>
    match level with
    | [] => rfl
    | [_] => rfl
    | left :: right :: rest => exact (hshort left right rest rfl).elim

/-- A homomorphism may be applied before the levels are combined. -/
theorem map_reduce {f : β → β → β} {f' : γ → γ → γ} {g : β → γ}
    (hg : ∀ a b, g (f a b) = f' (g a) (g b)) (level : List β) :
    (reduce f level).map g = reduce f' (level.map g) := by
  fun_induction reduce f level with
  | case1 level hlong ih =>
    rw [ih, map_pairUp hg, ← reduce_of_length_gt (by rwa [List.length_map])]
  | case2 level hshort => rw [reduce_of_length_le (by rw [List.length_map]; omega)]

theorem flatMap_leaves_pairUp (level : List (HashTree α)) :
    (pairUp node level).flatMap leaves = level.flatMap leaves := by
  fun_induction pairUp (node : HashTree α → HashTree α → HashTree α) level with
  | case1 left right rest ih =>
    rw [List.flatMap_cons, ih, leaves, List.flatMap_cons, List.flatMap_cons, List.append_assoc]
  | case2 => rfl

/-- The leaves stay, and in their order. -/
theorem flatMap_leaves_reduce (level : List (HashTree α)) :
    (reduce node level).flatMap leaves = level.flatMap leaves := by
  fun_induction reduce (node : HashTree α → HashTree α → HashTree α) level with
  | case1 level hlong ih => rw [ih, flatMap_leaves_pairUp]
  | case2 => rfl

end HashTree
