import Mathlib.Data.Finset.Card
import Mathlib.Data.Finset.Dedup

/-!
# Pruning a set by an enumeration

A set is pruned by erasing the entries that some enumeration of it starts with. How many are left
does not depend on the enumeration, but which ones are left does.

## Main definitions

* `Pruning.Enumerates`: a list runs through a finite set, each entry once.
* `Pruning.prune`: a set without the first entries of a list.

## Main results

* `Pruning.card_prune`: the size of a pruned set.
* `Pruning.mem_prune_iff`: what is left of it.
-/

namespace Pruning

variable {α : Type*} [DecidableEq α]

/-- The list runs through the set, each entry once. -/
structure Enumerates (order : List α) (s : Finset α) : Prop where
  nodup : order.Nodup
  toFinset_eq : order.toFinset = s

/-- The set without the first `k` entries of the list. -/
def prune (s : Finset α) (order : List α) (k : ℕ) : Finset α := s \ (order.take k).toFinset

variable {s : Finset α} {order : List α} {k : ℕ} {x : α}

theorem mem_prune_iff (hx : x ∈ s) : x ∈ prune s order k ↔ x ∉ order.take k := by
  rw [prune, Finset.mem_sdiff, List.mem_toFinset, and_iff_right hx]

theorem Enumerates.length_eq (h : Enumerates order s) : order.length = s.card := by
  rw [← h.toFinset_eq, List.toFinset_card_of_nodup h.nodup]

theorem Enumerates.cons (h : Enumerates order s) (hx : x ∉ s) :
    Enumerates (x :: order) (insert x s) := by
  constructor
  · rw [List.nodup_cons, ← List.mem_toFinset, h.toFinset_eq]
    exact ⟨hx, h.nodup⟩
  · rw [List.toFinset_cons, h.toFinset_eq]

/-- As many entries go as are asked for. -/
theorem card_prune (h : Enumerates order s) : (prune s order k).card = s.card - k := by
  have hsub : (order.take k).toFinset ⊆ s := by
    intro y hy
    rw [← h.toFinset_eq, List.mem_toFinset]
    exact List.mem_of_mem_take (List.mem_toFinset.mp hy)
  have hnodup : (order.take k).Nodup := h.nodup.sublist (List.take_sublist k order)
  rw [prune, Finset.card_sdiff_of_subset hsub, List.toFinset_card_of_nodup hnodup,
    List.length_take, h.length_eq]
  omega

end Pruning
