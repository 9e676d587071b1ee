import Mathlib.Data.List.Basic
import Mathlib.Data.List.Induction
import Mathlib.Order.Nat

/-!
# Logs grown by appending

A log starts with one admissible entry and grows by entries each of which is admissible after the
entries below it. Since admissibility of an entry looks only at what lies below, a log is grown
exactly when its first entry can start a log and every later entry extends the prefix in front of
it; appending an entry therefore never calls for a second look at the old part.

## Main definitions

* `AppendLog.Grown start ext`: the logs that start with `start` and grow by `ext`.

## Main results

* `AppendLog.grown_concat_iff`: one appended entry.
* `AppendLog.grown_iff`: a grown log, position by position.
* `AppendLog.Grown.take`: a non-empty prefix of a grown log is grown.
-/

namespace AppendLog

variable {α : Type*} {start start' : α → Prop} {ext ext' : List α → α → Prop} {l : List α} {a : α}

/-- Logs whose first entry satisfies `start` and whose every other entry extends what is below. -/
inductive Grown (start : α → Prop) (ext : List α → α → Prop) : List α → Prop
  | single {a : α} (ha : start a) : Grown start ext [a]
  | concat {l : List α} {a : α} (hl : Grown start ext l) (ha : ext l a) : Grown start ext (l ++ [a])

theorem Grown.ne_nil (h : Grown start ext l) : l ≠ [] := by
  cases h <;> simp

/-- An appended entry is judged against the old log alone. -/
theorem grown_concat_iff (hl : l ≠ []) :
    Grown start ext (l ++ [a]) ↔ Grown start ext l ∧ ext l a := by
  refine ⟨fun h => ?_, fun h => h.1.concat h.2⟩
  generalize hm : l ++ [a] = m at h
  cases h with
  | single ha =>
    have : l = [] := by simpa using congrArg List.dropLast hm
    exact absurd this hl
  | concat hl' ha =>
    obtain ⟨rfl, hab⟩ := List.append_inj' hm rfl
    obtain rfl : a = _ := by simpa using hab
    exact ⟨hl', ha⟩

theorem grown_singleton_iff : Grown start ext [a] ↔ start a := by
  refine ⟨fun h => ?_, .single⟩
  generalize hm : [a] = m at h
  cases h with
  | single ha =>
    obtain rfl : a = _ := by simpa using hm
    exact ha
  | @concat l b hl' ha =>
    have hnil : l = [] := by simpa using (congrArg List.dropLast hm).symm
    exact absurd hnil hl'.ne_nil

/-- A log is grown when its first entry starts a log and every later entry extends the prefix in
front of it. -/
theorem grown_iff : Grown start ext l ↔
    (∃ a, l.head? = some a ∧ start a) ∧
      ∀ i (hi : i < l.length), 0 < i → ext (l.take i) l[i] := by
  induction l using List.reverseRecOn with
  | nil => exact ⟨fun h => absurd rfl h.ne_nil, fun h => by simp at h⟩
  | append_singleton l a ih =>
    rcases eq_or_ne l [] with rfl | hl
    · simp [grown_singleton_iff]
    · rw [grown_concat_iff hl, ih, List.head?_append_of_ne_nil _ hl, and_assoc]
      refine and_congr_right fun _ => ⟨fun h i hi h0 => ?_, fun h => ⟨fun i hi h0 => ?_, ?_⟩⟩
      · rcases Nat.lt_or_ge i l.length with hlt | hge
        · rw [List.take_append_of_le_length hlt.le, List.getElem_append_left hlt]
          exact h.1 i hlt h0
        · obtain rfl : i = l.length := by
            simp only [List.length_append, List.length_singleton] at hi
            omega
          simpa using h.2
      · have := h i (by simp only [List.length_append]; omega) h0
        rwa [List.take_append_of_le_length hi.le, List.getElem_append_left hi] at this
      · simpa using h l.length (by simp) (List.length_pos_iff.mpr hl)

/-- A non-empty prefix of a grown log is grown. -/
theorem Grown.take (h : Grown start ext l) {n : ℕ} (hn : 0 < n) : Grown start ext (l.take n) := by
  rw [grown_iff] at h ⊢
  refine ⟨?_, fun i hi h0 => ?_⟩
  · rw [List.head?_take, if_neg hn.ne']
    exact h.1
  · obtain ⟨hin, hil⟩ : i < n ∧ i < l.length := by
      rw [List.length_take] at hi
      omega
    have hext := h.2 i hil h0
    rwa [List.take_take, Nat.min_eq_left hin.le, List.getElem_take]

end AppendLog
