import Mathlib.Data.List.Basic
import Mathlib.Tactic.Tauto

/-!
# Positions of a list and checked loops

A loop over a list that stops at the first entry which fails a test looks at exactly those entries
in front of which every entry passes. When the test itself may end with a fault, the loop goes
through as the test without faults would exactly when no entry that it looks at raises one.

## Main results

* `CheckedLoops.forall_concat_prefix_cons_iff`: the positions of a list.
* `CheckedLoops.concat_prefix_range'_iff`: the positions of a range.
* `CheckedLoops.allM_eq_ok_or_error`, `CheckedLoops.allM_eq_ok_iff`: a loop with faults against the
  loop without.
-/

namespace CheckedLoops

variable {ε α : Type*}

/-- The positions of a list are its head and the positions of its tail. -/
theorem forall_concat_prefix_cons_iff {P : List α → α → Prop} {x : α} {xs : List α} :
    (∀ before y, before ++ [y] <+: x :: xs → P before y) ↔
      P [] x ∧ ∀ before y, before ++ [y] <+: xs → P (x :: before) y := by
  constructor
  · intro h
    refine ⟨h [] x (by simp), fun before y hy => h (x :: before) y ?_⟩
    rw [List.cons_append]
    exact (List.prefix_cons_inj x).mpr hy
  · rintro ⟨hhead, htail⟩ before y hy
    cases before with
    | nil =>
      obtain rfl : y = x := by simpa using hy
      exact hhead
    | cons z before =>
      rw [List.cons_append, List.cons_prefix_cons] at hy
      obtain ⟨rfl, hy⟩ := hy
      exact htail before y hy

/-- In front of an entry of a range are the entries below it. -/
theorem concat_prefix_range'_iff {front : List ℕ} {s n i : ℕ} :
    front ++ [i] <+: List.range' s n ↔ s ≤ i ∧ i < s + n ∧ front = List.range' s (i - s) := by
  constructor
  · intro h
    have hle := h.length_le
    rw [List.length_append, List.length_singleton, List.length_range'] at hle
    have htake := List.prefix_iff_eq_take.mp h
    rw [List.length_append, List.length_singleton, List.take_range'_of_length_ge hle,
      List.range'_concat] at htake
    obtain ⟨hfront, hi⟩ := List.append_inj' htake rfl
    obtain rfl : i = s + 1 * front.length := by simpa using hi
    refine ⟨by omega, by omega, ?_⟩
    rw [Nat.one_mul, Nat.add_sub_cancel_left]
    exact hfront
  · rintro ⟨hlow, hhigh, rfl⟩
    have hsplit : List.range' s (i - s) ++ [i] = List.range' s (i - s + 1) := by
      rw [List.range'_concat, Nat.one_mul, Nat.add_sub_cancel' hlow]
    have hrange : List.range' s n =
        List.range' s (i - s + 1) ++ List.range' (s + (i - s + 1)) (n - (i - s + 1)) := by
      rw [List.range'_append_1, Nat.add_sub_cancel' (by omega)]
    rw [hsplit, hrange]
    exact List.prefix_append _ _

section Loop

variable {p : α → Except ε Bool} {q : α → Bool} {e : ε} {l : List α}

/-- When a test with faults gives what the test without gives or a certain fault, so do the
loops. -/
theorem allM_eq_ok_or_error (hp : ∀ a ∈ l, p a = .ok (q a) ∨ p a = .error e) :
    l.allM p = .ok (l.all q) ∨ l.allM p = .error e := by
  induction l with
  | nil => exact .inl rfl
  | cons a l ih =>
    rw [List.forall_mem_cons] at hp
    rw [List.allM_cons, List.all_cons]
    rcases hp.1 with hok | herror
    · rw [hok]
      cases q a with
      | false => exact .inl rfl
      | true => exact ih hp.2
    · rw [herror]
      exact .inr rfl

/-- They agree exactly when there is no fault at an entry in front of which everything passes. -/
theorem allM_eq_ok_iff (hp : ∀ a ∈ l, p a = .ok (q a) ∨ p a = .error e) :
    l.allM p = .ok (l.all q) ↔
      ∀ front a, front ++ [a] <+: l → (∀ x ∈ front, q x = true) → p a = .ok (q a) := by
  induction l with
  | nil => simp [pure, Except.pure]
  | cons a l ih =>
    rw [List.forall_mem_cons] at hp
    specialize ih hp.2
    rw [forall_concat_prefix_cons_iff, List.allM_cons, List.all_cons]
    rcases hp.1 with hok | herror
    · rw [hok]
      cases hq : q a with
      | false => simp [bind, Except.bind, pure, Except.pure, hq]
      | true =>
        simp only [bind, Except.bind, Bool.true_and, List.forall_mem_cons, hq, true_and,
          List.not_mem_nil, IsEmpty.forall_iff, implies_true]
        exact ih
    · simp [herror, bind, Except.bind]

end Loop

end CheckedLoops
