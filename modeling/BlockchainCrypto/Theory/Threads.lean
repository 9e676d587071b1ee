import BlockchainCrypto.Theory.Runs
import Mathlib.Data.List.Basic
import Mathlib.Logic.Function.Basic

/-!
# Threads over a shared state

A program of threads: each thread is at some place of its code, and a step of one thread reads and
writes the shared state and moves that thread alone. The interleavings are the runs in which the
threads take their steps in any order.

An assertion about the shared state together with assertions about the places of the threads is an
invariant when every step preserves the first, establishes the assertion of the thread that takes
it, and does not interfere with the assertions of the others.

## Main definitions

* `Threads.Config`, `Threads.Program`: configurations and programs.
* `Threads.Program.interleavings`: the runs.
* `Threads.Program.run`, `Threads.Program.runThread`: the run for a given order of steps, and the
  steps of one thread in a row.
* `Threads.Program.Allows`: whether each of the steps is allowed.
* `Threads.Transfer`: what a step may do to a mutex.

## Main results

* `Threads.Program.invariant`: the rule for assertions about places.
* `Threads.Program.reachable_of_allows`, `Threads.Program.reachable_run`: the run for a given order
  reaches its last configuration.
* `Threads.Transfer.holds_iff`: a thread in a section holds the mutex.
-/

namespace Threads

variable {σ T P α : Type*}

/-- A shared state, and the place of each thread. -/
structure Config (σ T P : Type*) where
  shared : σ
  place : T → P

/-- A program: where a run starts, and the steps of each thread. -/
structure Program (σ T P α : Type*) where
  init : σ
  idle : P
  /-- the state and the place after a step, if the thread can take one on this input -/
  step : T → σ → P → α → Option (σ × P)

namespace Program

variable [DecidableEq T] (p : Program σ T P α)

/-- The configuration in which a run starts. -/
def start : Config σ T P := ⟨p.init, fun _ => p.idle⟩

/-- The configuration after a step of the thread `t`. -/
def move (c : Config σ T P) (t : T) (r : σ × P) : Config σ T P :=
  ⟨r.1, Function.update c.place t r.2⟩

/-- A step of a thread on an input. -/
def advance (c : Config σ T P) (a : T × α) : Option (Config σ T P) :=
  (p.step a.1 c.shared (c.place a.1) a.2).map (move c a.1)

/-- The threads take their steps in any order. -/
def interleavings : Runs.System (Config σ T P) (T × α) where
  init c := c = p.start
  step c a c' := p.advance c a = some c'

/-- The steps in a given order. -/
def run (c : Config σ T P) : List (T × α) → Option (Config σ T P)
  | [] => some c
  | a :: as => (p.advance c a).bind fun c' => run c' as

/-- Each of the steps is allowed where the ones before it have led. -/
def Allows (ok : Config σ T P → T × α → Prop) (c : Config σ T P) : List (T × α) → Prop
  | [] => True
  | a :: as => ok c a ∧ ∀ c' ∈ p.advance c a, Allows ok c' as

instance Allows.decidable (ok : Config σ T P → T × α → Prop) [∀ c a, Decidable (ok c a)] :
    ∀ c as, Decidable (p.Allows ok c as)
  | _, [] => .isTrue trivial
  | c, a :: as =>
    have : DecidablePred fun c' => p.Allows ok c' as := fun c' => Allows.decidable ok c' as
    inferInstanceAs (Decidable (ok c a ∧ ∀ c' ∈ p.advance c a, p.Allows ok c' as))

/-- The steps of one thread in a row. -/
def runThread (t : T) (r : σ × P) : List α → Option (σ × P)
  | [] => some r
  | a :: as => (p.step t r.1 r.2 a).bind fun r' => runThread t r' as

variable {p} {ok : Config σ T P → T × α → Prop} {c c' : Config σ T P} {a : T × α}

@[simp] theorem move_shared (c : Config σ T P) (t : T) (r : σ × P) :
    (move c t r).shared = r.1 := rfl

@[simp] theorem move_place_self (c : Config σ T P) (t : T) (r : σ × P) :
    (move c t r).place t = r.2 := Function.update_self ..

theorem move_place_of_ne (c : Config σ T P) {t u : T} (h : u ≠ t) (r : σ × P) :
    (move c t r).place u = c.place u := Function.update_of_ne h ..

@[simp] theorem move_self (c : Config σ T P) (t : T) : move c t (c.shared, c.place t) = c := by
  rw [move, Function.update_eq_self]

@[simp] theorem move_move (c : Config σ T P) (t : T) (r r' : σ × P) :
    move (move c t r) t r' = move c t r' := by
  rw [move, move, Function.update_idem]
  rfl

/-- A step is a step of the program of one thread. -/
theorem advance_eq_some_iff :
    p.advance c a = some c' ↔
      ∃ r, p.step a.1 c.shared (c.place a.1) a.2 = some r ∧ move c a.1 r = c' :=
  Option.map_eq_some_iff

/-- The rule for assertions about places: a step of the thread `t` preserves the assertion about the
shared state, establishes the assertion about its own place, and keeps those of the others. -/
theorem invariant (I : σ → Prop) (J : σ → P → Prop) (h : p.interleavings.Reachable ok c)
    (hinit : I p.init ∧ J p.init p.idle)
    (hown : ∀ (c : Config σ T P) t a r, p.interleavings.Reachable ok c → ok c (t, a) →
      I c.shared → (∀ u, J c.shared (c.place u)) → p.step t c.shared (c.place t) a = some r →
      I r.1 ∧ J r.1 r.2)
    (hothers : ∀ (c : Config σ T P) t a r, p.interleavings.Reachable ok c → ok c (t, a) →
      I c.shared → (∀ u, J c.shared (c.place u)) → p.step t c.shared (c.place t) a = some r →
      ∀ u, u ≠ t → J r.1 (c.place u)) :
    I c.shared ∧ ∀ t, J c.shared (c.place t) := by
  refine h.invariant (fun c => I c.shared ∧ ∀ t, J c.shared (c.place t)) ?_ ?_
  · rintro c rfl
    exact ⟨hinit.1, fun _ => hinit.2⟩
  · rintro c ⟨t, a⟩ c' hreach ⟨hI, hJ⟩ hok hstep
    obtain ⟨r, hr, rfl⟩ := advance_eq_some_iff.mp hstep
    obtain ⟨hI', hJ'⟩ := hown c t a r hreach hok hI hJ hr
    refine ⟨hI', fun u => ?_⟩
    rcases eq_or_ne u t with rfl | hne
    · rw [move_place_self]
      exact hJ'
    · rw [move_place_of_ne c hne]
      exact hothers c t a r hreach hok hI hJ hr u hne

/-- Where some thread is after a step: the thread that took it, or one of the others. -/
theorem exists_place_move {Q : P → Prop} {c : Config σ T P} {t : T} {r : σ × P} :
    (∃ u, Q ((move c t r).place u)) ↔ Q r.2 ∨ ∃ u, u ≠ t ∧ Q (c.place u) :=
  Function.exists_update_iff c.place fun _ => Q

theorem run_append (c : Config σ T P) (as bs : List (T × α)) :
    p.run c (as ++ bs) = (p.run c as).bind fun c' => p.run c' bs := by
  induction as generalizing c with
  | nil => rfl
  | cons a as ih =>
    rw [List.cons_append, run, run, Option.bind_assoc]
    congr 1
    funext c'
    exact ih c'

/-- Allowed steps in a given order are a run. -/
theorem reachable_of_allows {as : List (T × α)} (h : p.interleavings.Reachable ok c)
    (hallows : p.Allows ok c as) (hrun : p.run c as = some c') :
    p.interleavings.Reachable ok c' := by
  induction as generalizing c with
  | nil =>
    obtain rfl := Option.some.inj hrun
    exact h
  | cons a as ih =>
    obtain ⟨c₁, hstep, hrun⟩ := Option.bind_eq_some_iff.mp hrun
    exact ih (.step h hallows.1 hstep) (hallows.2 c₁ hstep) hrun

theorem allows_of_forall {as : List (T × α)} (hok : ∀ c a, a ∈ as → ok c a) (c : Config σ T P) :
    p.Allows ok c as := by
  induction as generalizing c with
  | nil => trivial
  | cons a as ih =>
    exact ⟨hok c a List.mem_cons_self,
      fun c' _ => ih (fun c b hb => hok c b (List.mem_cons_of_mem a hb)) c'⟩

/-- The steps in a given order are a run, where they are allowed everywhere. -/
theorem reachable_run {as : List (T × α)} (h : p.interleavings.Reachable ok c)
    (hok : ∀ c a, a ∈ as → ok c a) (hrun : p.run c as = some c') :
    p.interleavings.Reachable ok c' :=
  reachable_of_allows h (allows_of_forall hok c) hrun

/-- A thread that takes several steps in a row moves alone. -/
theorem run_map_thread (c : Config σ T P) (t : T) (r : σ × P) (as : List α) :
    p.run (move c t r) (as.map (Prod.mk t)) = (p.runThread t r as).map (move c t) := by
  induction as generalizing r with
  | nil => rfl
  | cons a as ih =>
    rw [List.map_cons, run, runThread, advance, move_shared, move_place_self, Option.bind_map,
      Option.map_bind]
    congr 1
    funext r'
    rw [Function.comp_apply, move_move, ih, Function.comp_apply]

end Program

/-! ### Mutexes -/

/-- What a step of the thread `t` may do to a mutex: nothing, take it while it is free, or give it
away. Before and after the step, `held` and `held'` tell whether the thread is in a section. -/
def Transfer (t : T) (m m' : Option T) (held held' : Bool) : Prop :=
  held' = held ∧ m' = m ∨ held' = true ∧ m = none ∧ m' = some t ∨
    held = true ∧ held' = false ∧ m' = none

/-- The threads in sections are those that hold the mutex, also after a step. -/
theorem Transfer.holds_iff [DecidableEq T] {c : Config σ T P} {t : T} {r : σ × P} {m m' : Option T}
    {holds : P → Bool} (htransfer : Transfer t m m' (holds (c.place t)) (holds r.2))
    (h : ∀ u, holds (c.place u) = true ↔ m = some u) (u : T) :
    holds ((Program.move c t r).place u) = true ↔ m' = some u := by
  rcases eq_or_ne u t with rfl | hne
  · rw [Program.move_place_self]
    rcases htransfer with ⟨hholds, rfl⟩ | ⟨hholds, -, rfl⟩ | ⟨-, hholds, rfl⟩
    · rw [hholds]
      exact h u
    · exact iff_of_true hholds rfl
    · simp [hholds]
  · rw [Program.move_place_of_ne c hne, h u]
    rcases htransfer with ⟨-, rfl⟩ | ⟨-, rfl, rfl⟩ | ⟨hheld, -, rfl⟩
    · rfl
    · simp [hne.symm]
    · simp [(h t).mp hheld, hne.symm]

end Threads
