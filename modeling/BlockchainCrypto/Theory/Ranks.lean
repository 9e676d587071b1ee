import BlockchainCrypto.Theory.Threads
import Mathlib.Algebra.Order.BigOperators.Group.Finset

/-!
# Runs of threads that end

Each place of the code has a rank, and every step of a thread leads to a place of a lower one. Then
the ranks of all threads together bound the number of the steps that are left, and threads of which
some one can always take a step come to an end.

## Main definitions

* `Threads.Program.LowersRank`: every step keeps an assertion and lowers the rank.

## Main results

* `Threads.Program.LowersRank.length_le`: the number of the steps that are left.
* `Threads.Program.LowersRank.exists_run`: the end of threads that do not get stuck.
-/

namespace Threads

variable {σ T P α : Type*} [DecidableEq T]

/-- The ranks of the places of all threads. -/
def Config.rank [Fintype T] (rank : P → ℕ) (c : Config σ T P) : ℕ := ∑ t, rank (c.place t)

namespace Program

variable {p : Program σ T P α} {I : Config σ T P → Prop} {rank : P → ℕ}
  {c c' : Config σ T P}

/-- A step that starts from the assertion ends in it, and at a place of a lower rank. -/
structure LowersRank (p : Program σ T P α) (I : Config σ T P → Prop) (rank : P → ℕ) : Prop where
  keeps : ∀ c a c', I c → p.advance c a = some c' → I c'
  lowers : ∀ c t a r, I c → p.step t c.shared (c.place t) a = some r → rank r.2 < rank (c.place t)

namespace LowersRank

theorem keeps_run (h : p.LowersRank I rank) (hc : I c) {as : List (T × α)}
    (hrun : p.run c as = some c') : I c' := by
  induction as generalizing c with
  | nil => exact Option.some.inj hrun ▸ hc
  | cons a as ih =>
    obtain ⟨c₁, hstep, hrest⟩ := Option.bind_eq_some_iff.mp hrun
    exact ih (h.keeps _ _ _ hc hstep) hrest

variable [Fintype T]

theorem rank_lt (h : p.LowersRank I rank) (hc : I c) {a : T × α} (hstep : p.advance c a = some c') :
    c'.rank rank < c.rank rank := by
  obtain ⟨r, hr, rfl⟩ := advance_eq_some_iff.mp hstep
  refine Finset.sum_lt_sum (fun u _ => ?_) ⟨a.1, Finset.mem_univ _, ?_⟩
  · rcases eq_or_ne u a.1 with rfl | hne
    · rw [move_place_self]
      exact (h.lowers c _ a.2 r hc hr).le
    · rw [move_place_of_ne c hne]
  · rw [move_place_self]
    exact h.lowers c _ a.2 r hc hr

theorem length_le (h : p.LowersRank I rank) (hc : I c) {as : List (T × α)}
    (hrun : p.run c as = some c') : as.length ≤ c.rank rank := by
  induction as generalizing c with
  | nil => exact Nat.zero_le _
  | cons a as ih =>
    obtain ⟨c₁, hstep, hrest⟩ := Option.bind_eq_some_iff.mp hrun
    exact (Nat.succ_le_succ (ih (h.keeps _ _ _ hc hstep) hrest)).trans (h.rank_lt hc hstep)

/-- Threads of which some one can take an allowed step, as long as the end is not reached, reach the
end by allowed steps. -/
theorem exists_run (h : p.LowersRank I rank) {Q : Config σ T P → Prop} {allowed : α → Prop}
    (hprogress : ∀ c, I c → ¬ Q c → ∃ t a c', allowed a ∧ p.advance c (t, a) = some c')
    (hc : I c) : ∃ as c', p.run c as = some c' ∧ (∀ a ∈ as, allowed a.2) ∧ Q c' := by
  induction hn : c.rank rank using Nat.strong_induction_on generalizing c with
  | _ n ih =>
    by_cases hQ : Q c
    · exact ⟨[], c, rfl, fun a ha => absurd ha List.not_mem_nil, hQ⟩
    · obtain ⟨t, a, c₁, hallowed, hstep⟩ := hprogress c hc hQ
      obtain ⟨as, c', hrun, has, hQ'⟩ :=
        ih _ (hn ▸ h.rank_lt hc hstep) (h.keeps _ _ _ hc hstep) rfl
      refine ⟨(t, a) :: as, c', ?_, List.forall_mem_cons.mpr ⟨hallowed, has⟩, hQ'⟩
      rw [run, hstep]
      exact hrun

end LowersRank

end Program

end Threads
