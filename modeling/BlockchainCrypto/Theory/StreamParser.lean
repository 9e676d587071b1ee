import Mathlib.Tactic.TypeStar

/-!
# Parsers of a stream

A parser looks at what has been received and takes an item from the front of it, waits for more, or
refuses to go on. When neither an item nor a refusal is changed by what arrives later, the result
does not depend on the pieces in which a stream arrives.

## Main definitions

* `StreamParser`: a parser whose items and refusals are final.
* `StreamParser.parse`: all items of a string, with what is left of it.
* `StreamParser.feed`: a further piece after a string that was parsed.

## Main results

* `StreamParser.parse_append`: parsing goes on with what was left.
* `StreamParser.parse_append_of_refused`: a refusal is final.
-/

namespace StreamParser

/-- What a parser finds at the front of a string. -/
inductive Step (α β : Type*) where
  | item (a : α) (rest : List β)
  | wait
  | refuse

/-- The items that were taken, whether the parser refused to go on, and what is left. -/
structure Outcome (α β : Type*) where
  items : List α := []
  refused : Bool := false
  rest : List β := []

end StreamParser

open StreamParser in
/-- A parser whose items and refusals are not changed by what arrives later. -/
structure StreamParser (α β : Type*) where
  /-- what is at the front of a string -/
  next : List β → Step α β
  length_lt {s : List β} {a : α} {rest : List β} (h : next s = .item a rest) :
    rest.length < s.length
  item_append {s : List β} {a : α} {rest : List β} (h : next s = .item a rest) (t : List β) :
    next (s ++ t) = .item a (rest ++ t)
  refuse_append {s : List β} (h : next s = .refuse) (t : List β) : next (s ++ t) = .refuse

namespace StreamParser

variable {α β : Type*} (P : StreamParser α β)

/-- All items of a string. -/
def parse (s : List β) : Outcome α β :=
  match _h : P.next s with
  | .item a rest =>
    let o := parse rest
    ⟨a :: o.items, o.refused, o.rest⟩
  | .wait => ⟨[], false, s⟩
  | .refuse => ⟨[], true, s⟩
termination_by s.length
decreasing_by exact P.length_lt _h

/-- A further piece, behind what was left. -/
def feed (o : Outcome α β) (t : List β) : Outcome α β :=
  let o' := P.parse (o.rest ++ t)
  ⟨o.items ++ o'.items, o'.refused, o'.rest⟩

variable {P} {s : List β}

theorem parse_of_item {a : α} {rest : List β} (h : P.next s = .item a rest) :
    P.parse s = ⟨a :: (P.parse rest).items, (P.parse rest).refused, (P.parse rest).rest⟩ := by
  rw [parse]
  split
  · next a' rest' h' =>
    rw [h] at h'
    cases h'
    rfl
  · next h' => rw [h] at h'; cases h'
  · next h' => rw [h] at h'; cases h'

theorem parse_of_wait (h : P.next s = .wait) : P.parse s = ⟨[], false, s⟩ := by
  rw [parse]
  split
  · next h' => rw [h] at h'; cases h'
  · rfl
  · next h' => rw [h] at h'; cases h'

theorem parse_of_refuse (h : P.next s = .refuse) : P.parse s = ⟨[], true, s⟩ := by
  rw [parse]
  split
  · next h' => rw [h] at h'; cases h'
  · next h' => rw [h] at h'; cases h'
  · rfl

/-- **Parsing goes on with what was left.** -/
theorem parse_append (s t : List β) : P.parse (s ++ t) = P.feed (P.parse s) t := by
  induction s using parse.induct P with
  | case1 s a rest h ih =>
    rw [parse_of_item (P.item_append h t), ih, parse_of_item h]
    rfl
  | case2 s h =>
    rw [parse_of_wait h]
    rfl
  | case3 s h =>
    rw [parse_of_refuse h]
    rfl

/-- What is left of a string that was refused is refused itself. -/
theorem next_rest_of_refused (h : (P.parse s).refused = true) :
    P.next (P.parse s).rest = .refuse := by
  induction s using parse.induct P with
  | case1 s a rest hs ih =>
    rw [parse_of_item hs] at h ⊢
    exact ih h
  | case2 s hs =>
    rw [parse_of_wait hs] at h
    cases h
  | case3 s hs => rw [parse_of_refuse hs, hs]

/-- A refusal is final. -/
theorem parse_append_of_refused (h : (P.parse s).refused = true) (t : List β) :
    P.parse (s ++ t) = ⟨(P.parse s).items, true, (P.parse s).rest ++ t⟩ := by
  rw [parse_append, feed, parse_of_refuse (P.refuse_append (next_rest_of_refused h) t),
    List.append_nil]

/-- What is left is a part of the string. -/
theorem length_rest_le (s : List β) : (P.parse s).rest.length ≤ s.length := by
  induction s using parse.induct P with
  | case1 s a rest h ih =>
    rw [parse_of_item h]
    exact Nat.le_trans ih (Nat.le_of_lt (P.length_lt h))
  | case2 s h => exact Nat.le_of_eq (by rw [parse_of_wait h])
  | case3 s h => exact Nat.le_of_eq (by rw [parse_of_refuse h])

end StreamParser
