import Mathlib.Data.List.Basic
import Mathlib.Data.List.Infix
import Mathlib.Logic.Relation

/-!
# A log and its copies

The entries of a log tell their positions, and each names the entry in front of it. Such a log can
be copied entry by entry from any stream of its entries, in any order and with repetitions: whoever
takes an entry only at the position that it tells, and behind the entry that it names, holds a
prefix of the log at all times. The first entry is not copied; the copies may start from roots of
their own, and a copy whose root has another name than that of the log stays at its root.

## Main definitions

* `LogCopies.Labels`: what the entries tell.
* `LogCopies.Labels.Takes`: an entry of a source is put at the end, at its position.
* `LogCopies.Labels.Follows`: a copy is a prefix of the log, up to the root.

## Main results

* `LogCopies.Labels.Follows.of_takes`: what is taken from a log follows it.
* `LogCopies.Labels.Follows.comparable`: of two copies one continues the other.
-/

namespace LogCopies

/-- What the entries of a log tell: their position, as a key, and the names of the entry in front
and of the entry itself. -/
structure Labels (α κ η : Type*) where
  /-- the key that an entry carries -/
  place : α → κ
  /-- the key of a position -/
  key : ℕ → κ
  /-- the name of the entry in front, as an entry carries it -/
  link : α → η
  /-- the name of an entry -/
  name : α → η

namespace Labels

variable {α κ η : Type*} (L : Labels α κ η)

/-- An entry of the source is put at the end of the copy, at the position that it tells and behind
the entry that it names. -/
def Takes (source : Set α) (copy copy' : List α) : Prop :=
  ∃ a ∈ source, L.place a = L.key copy.length ∧ copy.getLast?.map L.name = some (L.link a) ∧
    copy' = copy ++ [a]

/-- The entries of the log are labelled as they stand, and the positions have different keys. -/
structure Labelled (log : List α) : Prop where
  ne_nil : log ≠ []
  placed : ∀ i (hi : i < log.length), L.place log[i] = L.key i
  linked : ∀ i (hi : i + 1 < log.length), L.link log[i + 1] = L.name log[i]
  distinct : ∀ i j, i ≤ log.length → j ≤ log.length → L.key i = L.key j → i = j

/-- The copy is a prefix of the log up to the root, and longer than its root only when the root has
the name of the root of the log. -/
structure Follows (copy log : List α) : Prop where
  ne_nil : copy ≠ []
  tail : copy.tail <+: log.tail
  root : copy.tail ≠ [] → copy.head?.map L.name = log.head?.map L.name

variable {L} {log log' copy copy' other : List α} {source source' : Set α} {a : α}

theorem Takes.mono (h : ∀ a ∈ source, a ∈ source') (ht : L.Takes source copy copy') :
    L.Takes source' copy copy' := by
  obtain ⟨a, ha, hplace, hlink, hcopy⟩ := ht
  exact ⟨a, h a ha, hplace, hlink, hcopy⟩

theorem Labelled.concat (h : L.Labelled log)
    (hdistinct : ∀ i j, i ≤ log.length + 1 → j ≤ log.length + 1 → L.key i = L.key j → i = j)
    (hplace : L.place a = L.key log.length)
    (hlink : log.getLast?.map L.name = some (L.link a)) : L.Labelled (log ++ [a]) := by
  have hlength : (log ++ [a]).length = log.length + 1 := List.length_append
  refine ⟨by simp, fun i hi => ?_, fun i hi => ?_, hlength ▸ hdistinct⟩
  · rcases Nat.lt_or_ge i log.length with hlt | hge
    · rw [List.getElem_append_left hlt]
      exact h.placed i hlt
    · obtain rfl : i = log.length := by omega
      rw [List.getElem_concat_length rfl]
      exact hplace
  · rcases Nat.lt_or_ge (i + 1) log.length with hlt | hge
    · rw [List.getElem_append_left hlt, List.getElem_append_left (Nat.lt_of_succ_lt hlt)]
      exact h.linked i hlt
    · have hi' : i + 1 = log.length := by omega
      have hlt : i < log.length := by omega
      have hlast : log.getLast? = some log[i] := by
        rw [List.getLast?_eq_getElem?, ← hi', Nat.add_sub_cancel, List.getElem?_eq_getElem hlt]
      rw [hlast] at hlink
      rw [List.getElem_append_left hlt, List.getElem_concat_length hi']
      exact (Option.some.inj hlink).symm

theorem follows_self (h : log ≠ []) : L.Follows log log := ⟨h, List.prefix_rfl, fun _ => rfl⟩

theorem Follows.mono (h : L.Follows copy log) (hne : log ≠ []) (hpre : log <+: log') :
    L.Follows copy log' := by
  obtain ⟨rest, rfl⟩ := hpre
  cases log with
  | nil => exact absurd rfl hne
  | cons g log => exact ⟨h.ne_nil, h.tail.trans (List.prefix_append _ _), h.root⟩

/-- A root on its own follows every log. -/
theorem follows_singleton (a : α) (log : List α) : L.Follows [a] log :=
  ⟨List.cons_ne_nil _ _, List.nil_prefix, fun h => absurd rfl h⟩

/-- What is taken from the log above its root is its next entry. -/
theorem Follows.takes (h : L.Follows copy log) (hlog : L.Labelled log)
    (hsource : ∀ a ∈ source, L.place a = L.key 0 ∨ a ∈ log.tail)
    (ht : L.Takes source copy copy') : L.Follows copy' log := by
  obtain ⟨a, ha, hplace, hlink, rfl⟩ := ht
  obtain ⟨g, entries, rfl⟩ := List.exists_cons_of_ne_nil hlog.ne_nil
  obtain ⟨g', taken, rfl⟩ := List.exists_cons_of_ne_nil h.ne_nil
  have hpre : taken <+: entries := h.tail
  have hle := hpre.length_le
  rcases hsource a ha with hzero | hmem
  · -- no position but the first has the key of the root
    have := hlog.distinct 0 (taken.length + 1) (Nat.zero_le _) (by simpa using hle)
      (hzero.symm.trans hplace)
    omega
  · obtain ⟨i, hi, rfl⟩ := List.getElem_of_mem (l := entries) hmem
    have hi' : i + 1 < (g :: entries).length := Nat.succ_lt_succ hi
    have hplaced : L.place entries[i] = L.key (i + 1) := hlog.placed (i + 1) hi'
    have heq := hlog.distinct (i + 1) (taken.length + 1) hi'.le (by simpa using hle)
      (hplaced.symm.trans hplace)
    obtain rfl : i = taken.length := by omega
    obtain ⟨rest, rfl⟩ := hpre
    refine ⟨by simp, ?_, fun _ => ?_⟩
    · cases rest with
      | nil => simp at hi
      | cons b rest => simp
    · rcases eq_or_ne taken [] with rfl | hne
      · have hfirst : L.link _ = L.name g := hlog.linked 0 hi'
        simp only [List.getLast?_singleton, Option.map_some, Option.some.injEq] at hlink
        exact congrArg some (hlink.trans hfirst)
      · exact h.root hne

/-- What is taken from the log, step by step, follows it. -/
theorem Follows.of_takes (h : L.Follows copy log) (hlog : L.Labelled log)
    (hsource : ∀ a ∈ source, L.place a = L.key 0 ∨ a ∈ log.tail)
    (ht : Relation.ReflTransGen (L.Takes source) copy copy') : L.Follows copy' log := by
  induction ht with
  | refl => exact h
  | tail _ ht ih => exact ih.takes hlog hsource ht

/-- A copy only grows. -/
theorem prefix_of_takes (ht : Relation.ReflTransGen (L.Takes source) copy copy') :
    copy <+: copy' := by
  induction ht with
  | refl => exact List.prefix_rfl
  | tail _ ht ih =>
    obtain ⟨a, -, -, -, rfl⟩ := ht
    exact ih.trans (List.prefix_append _ _)

/-- A copy that continues the log is the log. -/
theorem Follows.eq_of_extends (h : L.Follows copy log) (hne : log ≠ []) (hpre : log <+: copy) :
    copy = log := by
  obtain ⟨rest, rfl⟩ := hpre
  have hle := h.tail.length_le
  rw [List.tail_append_of_ne_nil hne, List.length_append] at hle
  rw [List.eq_nil_of_length_eq_zero (by omega : rest.length = 0), List.append_nil]

/-- What was put on a copy last is the entry of the log there. -/
theorem Follows.getElem?_of_concat (h : L.Follows (copy ++ [a]) log) (hne : copy ≠ []) :
    log[copy.length]? = some a := by
  obtain ⟨g, taken, rfl⟩ := List.exists_cons_of_ne_nil hne
  obtain ⟨rest, hrest⟩ := h.tail
  cases log with
  | nil => simp at hrest
  | cons g' entries =>
    rw [List.tail_cons, List.cons_append, List.tail_cons] at hrest
    subst hrest
    simp

/-- Of two copies one continues the other. -/
theorem Follows.comparable (h : L.Follows copy log) (h' : L.Follows other log) :
    copy.tail <+: other.tail ∨ other.tail <+: copy.tail :=
  List.prefix_or_prefix_of_prefix h.tail h'.tail

end Labels

end LogCopies
