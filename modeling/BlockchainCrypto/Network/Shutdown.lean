import BlockchainCrypto.Theory.Ranks
import Mathlib.Data.Fintype.Basic

/-!
# The end of a node

The four threads of a node sleep on a condition variable between their rounds, and `stop` wakes them
with a notification and waits until they have ended. A thread that has found the node running but is
not yet asleep would miss the notification. It holds `stop_mutex` from the test to the sleep, and
`stop` resets the flag under that mutex, so there is no such thread when the notification comes.

After the notification `stop` closes the listening socket, tells the peers under `peers_mutex`, and
waits for the threads. The listener may be blocked in `accept` by then. Whether closing the socket
wakes it is up to the system: it does on Windows and does not on Linux, where the listener, and
`stop` with it, wait for one more connection.

A wait takes back the mutex when it has been notified, when its time is up, and sometimes for no
reason. A send ends when its time is up at the latest, and is part of a step; so are the sections of
the other mutexes, in which nothing is waited for.

## Main definitions

* `p2p.StopThread`, `p2p.StopPlace`, `p2p.stopStep`: the threads and their steps.
* `p2p.stopping`: the interleavings.
* `p2p.StopPlace.rank`: the steps that a thread has left once the flag is reset.

## Main results

* `p2p.StopInvariant.of_reachable`: who holds the mutexes, who sleeps, and who has ended.
* `p2p.stop_returns`: after the notification all threads end, unless the listener is stuck.
-/

namespace BlockchainCrypto

namespace p2p

open Threads

/-! ### Steps -/

/-- The threads of a node, and the one that calls `stop`. -/
inductive StopThread where
  | listener
  | receiver
  | ping
  | sync
  | cli
  deriving DecidableEq

instance : Fintype StopThread where
  elems := {.listener, .receiver, .ping, .sync, .cli}
  complete t := by cases t <;> decide

/-- Where a thread is: before its loop, or before the test, the call or the section of this name. A
round of work has a number of sections under `peers_mutex`: in `peers` the thread is outside and has
that many left, and in `inPeers` it is in one and has that many behind it. The places from `lock` to
`unlock` are those of a wait on the condition, and the last ones those of `stop`, where `disconnect`
has the number of peers that are still to be told. -/
inductive StopPlace where
  | idle
  | whileTest
  | ifTest
  | accept
  | accepting
  | round
  | peers (left : ℕ)
  | inPeers (left : ℕ)
  | lock
  | evaluate
  | block
  | blocked
  | relock (timedOut : Bool)
  | unlock
  | ended
  | stopTest
  | stopLock
  | store
  | stopUnlock
  | notify
  | closeSocket
  | lockPeers
  | disconnect (left : ℕ)
  | join
  | returned
  deriving DecidableEq

/-- The flag, the listening socket, the mutexes, the threads that sleep on the condition, and those
that have ended. -/
structure StopState where
  running : Bool := true
  listening : Bool := true
  stopMutex : Option StopThread := none
  peersMutex : Option StopThread := none
  waiting : Finset StopThread := ∅
  ended : Finset StopThread := ∅
  deriving DecidableEq

/-- What follows on the test of the loop: the listener calls `accept`, the receiver starts its
round, and the others wait. -/
def StopThread.afterWhile : StopThread → StopPlace
  | listener => .accept
  | receiver => .round
  | _ => .lock

/-- What follows on a wait: the others have another test before their round. -/
def StopThread.afterWait : StopThread → StopPlace
  | listener | receiver => .whileTest
  | _ => .ifTest

/-- The threads for which `stop` waits. -/
def stopJoins : Finset StopThread := {.listener, .receiver, .ping, .sync}

/-- The next step of a thread, if it can take one. A blocked `accept` returns when the socket has
been closed, if closing it wakes the thread (`wakes`). -/
def StopPlace.next (wakes : Bool) (t : StopThread) (s : StopState) :
    StopPlace → Option (StopState × StopPlace)
  | idle => some (s, if t = .cli then stopTest else whileTest)
  | whileTest =>
    if s.running then some (s, t.afterWhile)
    else some ({ s with ended := insert t s.ended }, ended)
  | ifTest =>
    if s.running then some (s, round)
    else some ({ s with ended := insert t s.ended }, ended)
  -- a socket that has been closed is no longer accepted from
  | accept => some (s, if s.listening then accepting else ifTest)
  | accepting => if wakes = true ∧ s.listening = false then some (s, ifTest) else none
  | round => none
  | peers 0 => some (s, whileTest)
  | peers (left + 1) =>
    if s.peersMutex = none then some ({ s with peersMutex := some t }, inPeers left) else none
  | inPeers left => some ({ s with peersMutex := none }, peers left)
  -- wait_for
  | lock =>
    if s.stopMutex = none then some ({ s with stopMutex := some t }, evaluate) else none
  | evaluate => some (s, if s.running then block else unlock)
  | block => some ({ s with stopMutex := none, waiting := insert t s.waiting }, blocked)
  | blocked => if t ∈ s.waiting then none else some (s, relock false)
  | relock timedOut =>
    if s.stopMutex = none then
      some ({ s with stopMutex := some t }, if timedOut then unlock else evaluate)
    else none
  | unlock => some ({ s with stopMutex := none }, t.afterWait)
  | ended => none
  -- stop
  | stopTest => some (s, if s.running then stopLock else returned)
  | stopLock =>
    if s.stopMutex = none then some ({ s with stopMutex := some t }, store) else none
  | store => some ({ s with running := false }, stopUnlock)
  | stopUnlock => some ({ s with stopMutex := none }, notify)
  | notify => some ({ s with waiting := ∅ }, closeSocket)
  | closeSocket => some ({ s with listening := false }, lockPeers)
  | lockPeers => none
  | disconnect 0 => some ({ s with peersMutex := none }, join)
  | disconnect (left + 1) => some (s, disconnect left)
  | join => if stopJoins ⊆ s.ended then some (s, returned) else none
  | returned => none

/-- A thread takes its next step. Or it starts a round with this many sections, or `stop` finds this
many peers. Or `accept` returns with a connection or an error. Or the listener waits because
`accept` has failed, or the receiver because there is no socket to watch. Or a thread wakes up
without a notification, because its time is up or for no reason. -/
inductive StopInput where
  | next
  | sections (n : ℕ)
  | connection
  | wait
  | wake (timedOut : Bool)
  deriving DecidableEq

/-- A step of a thread, where rounds have at most `m` sections and there are at most `m` peers. -/
def stopStep (wakes : Bool) (m : ℕ) (t : StopThread) (s : StopState) (place : StopPlace) :
    StopInput → Option (StopState × StopPlace)
  | .next => place.next wakes t s
  | .sections n =>
    if n ≤ m ∧ place = .round then some (s, .peers n)
    else if n ≤ m ∧ place = .lockPeers ∧ s.peersMutex = none then
      some ({ s with peersMutex := some t }, .disconnect n)
    else none
  | .connection => if place = .accepting then some (s, .ifTest) else none
  | .wait => if (t = .listener ∨ t = .receiver) ∧ place = .peers 0 then some (s, .lock) else none
  | .wake timedOut =>
    if place = .blocked then some ({ s with waiting := s.waiting.erase t }, .relock timedOut)
    else none

/-- The threads of a node that has been started. -/
def stopping (wakes : Bool) (m : ℕ) : Threads.Program StopState StopThread StopPlace StopInput where
  init := {}
  idle := .idle
  step := stopStep wakes m

/-! ### What a step does -/

/-- The thread holds `stop_mutex`. -/
@[simp]
def StopPlace.holds : StopPlace → Bool
  | evaluate | block | unlock | store | stopUnlock => true
  | _ => false

/-- The thread holds `peers_mutex`. -/
@[simp]
def StopPlace.holdsPeers : StopPlace → Bool
  | inPeers _ | disconnect _ => true
  | _ => false

/-- The thread that calls `stop` has closed the listening socket, and has not returned. -/
@[simp]
def StopPlace.closed : StopPlace → Bool
  | lockPeers | disconnect _ | join => true
  | _ => false

/-- The thread that calls `stop` has sent the notification, and has not returned. -/
@[simp]
def StopPlace.notified : StopPlace → Bool
  | closeSocket => true
  | place => place.closed

/-- The thread that calls `stop` has seen to it that the flag is reset. -/
@[simp]
def StopPlace.stored : StopPlace → Bool
  | stopUnlock | notify | returned => true
  | place => place.notified

/-- The place belongs to `stop`. -/
@[simp]
def StopPlace.ofStop : StopPlace → Bool
  | stopTest | stopLock | store => true
  | place => place.stored

/-- The thread is about to accept a connection. -/
@[simp]
def StopPlace.inAccept : StopPlace → Bool
  | accept | accepting => true
  | _ => false

/-- The place is in a loop, outside of the waits and the sections. -/
def StopPlace.inLoop : StopPlace → Bool
  | whileTest | ifTest | accept | accepting | round | peers _ | lock => true
  | _ => false

/-- The sections that are left in a round, or the peers that are left to be told. -/
@[simp]
def StopPlace.left : StopPlace → ℕ
  | peers left | inPeers left | disconnect left => left
  | _ => 0

/-- What a step of a thread may do. -/
structure StopEffect (m : ℕ) (t : StopThread) (s : StopState) (place : StopPlace)
    (r : StopState × StopPlace) : Prop where
  stopMutex : Transfer t s.stopMutex r.1.stopMutex place.holds r.2.holds
  peersMutex : Transfer t s.peersMutex r.1.peersMutex place.holdsPeers r.2.holdsPeers
  running : r.1.running = s.running ∨ place = .store ∧ r.1.running = false
  listening : r.1.listening = s.listening ∨ r.1.listening = false
  closed : r.2.closed = true → place.closed = true ∨ r.1.listening = false
  block : r.2 = .block → r.1.running = true
  accepting : r.2 = .accepting → r.1.listening = true
  inAccept : r.2.inAccept = true → place.inAccept = true ∨ t = .listener
  stored : r.2.stored = true → place.stored = true ∨ r.1.running = false
  waiting : r.1.waiting ⊆ s.waiting ∨ place = .block
  notified : r.2.notified = true → place.notified = true ∨ r.1.waiting = ∅
  ended : place ≠ .ended ∧ (r.2 = .ended ∧ r.1.ended = insert t s.ended ∨
    r.2 ≠ .ended ∧ r.1.ended = s.ended)
  ofStop : r.2.ofStop = true → place.ofStop = true ∨ t = .cli
  left : place.left ≤ m → r.2.left ≤ m

section Steps

variable {wakes : Bool} {m : ℕ} {t : StopThread} {s : StopState} {place : StopPlace}
  {input : StopInput} {r : StopState × StopPlace}

/-- A step on an input from outside starts a round or the sends to the peers, or ends `accept`, or
starts a wait, or ends a sleep. -/
theorem stopStep_cases (h : stopStep wakes m t s place input = some r) :
    input = .next ∧ place.next wakes t s = some r ∨
      (∃ n ≤ m, input = .sections n ∧ (place = .round ∧ r = (s, .peers n) ∨
        place = .lockPeers ∧ s.peersMutex = none ∧
          r = ({ s with peersMutex := some t }, .disconnect n))) ∨
      (input = .connection ∧ place = .accepting ∧ r = (s, .ifTest)) ∨
      (input = .wait ∧ place = .peers 0 ∧ r = (s, .lock)) ∨
      ∃ timedOut, input = .wake timedOut ∧ place = .blocked ∧
        r = ({ s with waiting := s.waiting.erase t }, .relock timedOut) := by
  cases input with
  | next => exact .inl ⟨rfl, h⟩
  | sections n =>
    refine .inr (.inl ?_)
    rw [stopStep] at h
    split_ifs at h with hround hpeers
    · exact ⟨n, hround.1, rfl, .inl ⟨hround.2, (Option.some.inj h).symm⟩⟩
    · exact ⟨n, hpeers.1, rfl, .inr ⟨hpeers.2.1, hpeers.2.2, (Option.some.inj h).symm⟩⟩
  | connection =>
    obtain ⟨hplace, hr⟩ := Option.ite_none_right_eq_some.mp h
    exact .inr (.inr (.inl ⟨rfl, hplace, (Option.some.inj hr).symm⟩))
  | wait =>
    obtain ⟨hplace, hr⟩ := Option.ite_none_right_eq_some.mp h
    exact .inr (.inr (.inr (.inl ⟨rfl, hplace.2, (Option.some.inj hr).symm⟩)))
  | wake timedOut =>
    obtain ⟨hplace, hr⟩ := Option.ite_none_right_eq_some.mp h
    exact .inr (.inr (.inr (.inr ⟨timedOut, rfl, hplace, (Option.some.inj hr).symm⟩)))

theorem StopPlace.of_inLoop (h : place.inLoop = true) :
    place.holds = false ∧ place.holdsPeers = false ∧ place.ofStop = false ∧ place ≠ .ended := by
  cases place <;> first | exact absurd h Bool.false_ne_true | exact ⟨rfl, rfl, rfl, by simp⟩

/-- The places of `stop` after the notification come after the reset, and all belong to `stop`. -/
theorem StopPlace.ofStop_of_stored (h : place.stored = true) : place.ofStop = true := by
  cases place <;> first | exact absurd h Bool.false_ne_true | rfl

theorem StopPlace.stored_of_notified (h : place.notified = true) : place.stored = true := by
  cases place <;> first | exact absurd h Bool.false_ne_true | rfl

theorem StopPlace.notified_of_closed (h : place.closed = true) : place.notified = true := by
  cases place <;> first | exact absurd h Bool.false_ne_true | rfl

/-- A step into the loop that gives the mutexes away, or does not hold them. -/
theorem StopEffect.pass {dest : StopPlace} {stopMutex peersMutex : Option StopThread}
    (hended : place ≠ .ended) (hdest : dest.inLoop = true)
    (haccept : dest.inAccept = true →
      (place.inAccept = true ∨ t = .listener) ∧ (dest = .accepting → s.listening = true))
    (hstop : place.holds = false ∧ stopMutex = s.stopMutex ∨
      place.holds = true ∧ stopMutex = none)
    (hpeers : place.holdsPeers = false ∧ peersMutex = s.peersMutex ∨
      place.holdsPeers = true ∧ peersMutex = none)
    (hleft : place.left ≤ m → dest.left ≤ m) :
    StopEffect m t s place
      ({ s with stopMutex := stopMutex, peersMutex := peersMutex }, dest) := by
  obtain ⟨hholds, hholdsPeers, hofStop, hended'⟩ := StopPlace.of_inLoop hdest
  have hnot {p : Prop} (h : dest.stored = true) : p :=
    absurd (hofStop.symm.trans (StopPlace.ofStop_of_stored h)) Bool.false_ne_true
  refine ⟨?_, ?_, .inl rfl, .inl rfl, ?_, ?_, fun h => (haccept (congrArg _ h)).2 h,
    fun h => (haccept h).1, hnot, .inl (Finset.Subset.refl _), ?_,
    ⟨hended, .inr ⟨hended', rfl⟩⟩, ?_, hleft⟩
  · rcases hstop with ⟨hfree, rfl⟩ | ⟨hheld, rfl⟩
    · exact .inl ⟨hholds.trans hfree.symm, rfl⟩
    · exact .inr (.inr ⟨hheld, hholds, rfl⟩)
  · rcases hpeers with ⟨hfree, rfl⟩ | ⟨hheld, rfl⟩
    · exact .inl ⟨hholdsPeers.trans hfree.symm, rfl⟩
    · exact .inr (.inr ⟨hheld, hholdsPeers, rfl⟩)
  · exact fun h => hnot (StopPlace.stored_of_notified (StopPlace.notified_of_closed h))
  · rintro rfl
    cases hholds
  · exact fun h => hnot (StopPlace.stored_of_notified h)
  · exact fun h => absurd (hofStop.symm.trans h) Bool.false_ne_true

theorem stopEffect_next (h : place.next wakes t s = some r) : StopEffect m t s place r := by
  cases place with
  | idle =>
    obtain rfl := Option.some.inj h
    split_ifs with hcli
    · constructor <;> simp [Transfer, hcli]
    · exact .pass (by simp) rfl (by simp) (.inl ⟨rfl, rfl⟩) (.inl ⟨rfl, rfl⟩) fun _ => Nat.zero_le m
  | whileTest =>
    simp only [StopPlace.next] at h
    split_ifs at h with hrunning <;> obtain rfl := Option.some.inj h
    · exact .pass (by simp) (by cases t <;> rfl) (by cases t <;> simp [StopThread.afterWhile])
        (.inl ⟨rfl, rfl⟩) (.inl ⟨rfl, rfl⟩) (by cases t <;> exact fun _ => Nat.zero_le m)
    · constructor <;> simp [Transfer]
  | ifTest =>
    simp only [StopPlace.next] at h
    split_ifs at h with hrunning <;> obtain rfl := Option.some.inj h
    · exact .pass (by simp) rfl (by simp) (.inl ⟨rfl, rfl⟩) (.inl ⟨rfl, rfl⟩) fun _ => Nat.zero_le m
    · constructor <;> simp [Transfer]
  | accept =>
    obtain rfl := Option.some.inj h
    split_ifs with hlistening
    · exact .pass (by simp) rfl (fun _ => ⟨.inl rfl, fun _ => hlistening⟩) (.inl ⟨rfl, rfl⟩)
        (.inl ⟨rfl, rfl⟩) fun _ => Nat.zero_le m
    · exact .pass (by simp) rfl (by simp) (.inl ⟨rfl, rfl⟩) (.inl ⟨rfl, rfl⟩) fun _ => Nat.zero_le m
  | accepting =>
    obtain ⟨-, h⟩ := Option.ite_none_right_eq_some.mp h
    obtain rfl := Option.some.inj h
    exact .pass (by simp) rfl (by simp) (.inl ⟨rfl, rfl⟩) (.inl ⟨rfl, rfl⟩) fun _ => Nat.zero_le m
  | round => cases h
  | peers left =>
    cases left with
    | zero =>
      obtain rfl := Option.some.inj h
      exact .pass (by simp) rfl (by simp) (.inl ⟨rfl, rfl⟩) (.inl ⟨rfl, rfl⟩) fun _ => Nat.zero_le m
    | succ left =>
      obtain ⟨hmutex, h⟩ := Option.ite_none_right_eq_some.mp h
      obtain rfl := Option.some.inj h
      constructor <;> simp [Transfer, hmutex]
      exact Nat.le_of_succ_le
  | inPeers left =>
    obtain rfl := Option.some.inj h
    exact .pass (by simp) rfl (by simp) (.inl ⟨rfl, rfl⟩) (.inr ⟨rfl, rfl⟩) id
  | lock =>
    obtain ⟨hmutex, h⟩ := Option.ite_none_right_eq_some.mp h
    obtain rfl := Option.some.inj h
    constructor <;> simp [Transfer, hmutex]
  | evaluate =>
    obtain rfl := Option.some.inj h
    split_ifs with hrunning <;>
      constructor <;> simp [Transfer, hrunning]
  | block =>
    obtain rfl := Option.some.inj h
    constructor <;> simp [Transfer]
  | blocked =>
    obtain ⟨-, h⟩ := Option.ite_none_left_eq_some.mp h
    obtain rfl := Option.some.inj h
    constructor <;> simp [Transfer]
  | relock timedOut =>
    obtain ⟨hmutex, h⟩ := Option.ite_none_right_eq_some.mp h
    obtain rfl := Option.some.inj h
    cases timedOut <;>
      constructor <;> simp [Transfer, hmutex]
  | unlock =>
    obtain rfl := Option.some.inj h
    exact .pass (by simp) (by cases t <;> rfl) (by cases t <;> simp [StopThread.afterWait])
      (.inr ⟨rfl, rfl⟩) (.inl ⟨rfl, rfl⟩) (by cases t <;> exact fun _ => Nat.zero_le m)
  | ended => cases h
  | stopTest =>
    obtain rfl := Option.some.inj h
    split_ifs with hrunning <;>
      constructor <;> simp [Transfer, hrunning]
  | stopLock =>
    obtain ⟨hmutex, h⟩ := Option.ite_none_right_eq_some.mp h
    obtain rfl := Option.some.inj h
    constructor <;> simp [Transfer, hmutex]
  | store =>
    obtain rfl := Option.some.inj h
    constructor <;> simp [Transfer]
  | stopUnlock =>
    obtain rfl := Option.some.inj h
    constructor <;> simp [Transfer]
  | notify =>
    obtain rfl := Option.some.inj h
    constructor <;> simp [Transfer]
  | closeSocket =>
    obtain rfl := Option.some.inj h
    constructor <;> simp [Transfer]
  | lockPeers => cases h
  | disconnect left =>
    cases left with
    | zero =>
      obtain rfl := Option.some.inj h
      constructor <;> simp [Transfer]
    | succ left =>
      obtain rfl := Option.some.inj h
      constructor <;> simp [Transfer]
      exact Nat.le_of_succ_le
  | join =>
    obtain ⟨-, h⟩ := Option.ite_none_right_eq_some.mp h
    obtain rfl := Option.some.inj h
    constructor <;> simp [Transfer]
  | returned => cases h

theorem stopEffect_of_step (h : stopStep wakes m t s place input = some r) :
    StopEffect m t s place r := by
  rcases stopStep_cases h with ⟨-, hnext⟩ | ⟨n, hn, -, ⟨rfl, rfl⟩ | ⟨rfl, hfree, rfl⟩⟩ |
    ⟨-, rfl, rfl⟩ | ⟨-, rfl, rfl⟩ | ⟨timedOut, -, rfl, rfl⟩
  · exact stopEffect_next hnext
  · exact .pass (by simp) rfl (by simp) (.inl ⟨rfl, rfl⟩) (.inl ⟨rfl, rfl⟩) fun _ => hn
  · constructor <;> simp [Transfer, hfree, hn]
  · exact .pass (by simp) rfl (by simp) (.inl ⟨rfl, rfl⟩) (.inl ⟨rfl, rfl⟩) fun _ => Nat.zero_le m
  · exact .pass (by simp) rfl (by simp) (.inl ⟨rfl, rfl⟩) (.inl ⟨rfl, rfl⟩) fun _ => Nat.zero_le m
  · constructor <;> simp [Transfer, Finset.erase_subset]

end Steps

/-! ### Runs -/

/-- The state and the places of the threads. -/
abbrev StopConfig := Config StopState StopThread StopPlace

/-- A thread in a section holds its mutex, and the thread that is about to sleep has found the flag
set. Nobody sleeps after the notification, and nobody starts to accept after the socket has been
closed. -/
structure StopInvariant (c : StopConfig) : Prop where
  holds_iff : ∀ t, (c.place t).holds = true ↔ c.shared.stopMutex = some t
  holdsPeers_iff : ∀ t, (c.place t).holdsPeers = true ↔ c.shared.peersMutex = some t
  running_of_block : ∀ t, c.place t = .block → c.shared.running = true
  stopped_of_stored : ∀ t, (c.place t).stored = true → c.shared.running = false
  closed_of_closed : ∀ t, (c.place t).closed = true → c.shared.listening = false
  awake_of_notified : ∀ t, (c.place t).notified = true → c.shared.waiting = ∅
  ended_iff : ∀ t, t ∈ c.shared.ended ↔ c.place t = .ended
  cli_of_ofStop : ∀ t, (c.place t).ofStop = true → t = .cli
  listener_of_inAccept : ∀ t, (c.place t).inAccept = true → t = .listener

variable {wakes : Bool} {m : ℕ} {c c' : StopConfig}

theorem StopInvariant.start : StopInvariant (stopping wakes m).start := by
  constructor <;> simp [stopping, Program.start]

/-- Two threads are not in sections of `stop_mutex` at the same time. -/
theorem StopInvariant.eq_of_holds (h : StopInvariant c) {t u : StopThread}
    (ht : (c.place t).holds = true) (hu : (c.place u).holds = true) : t = u :=
  Option.some.inj (((h.holds_iff t).mp ht).symm.trans ((h.holds_iff u).mp hu))

theorem StopInvariant.step (h : StopInvariant c) {a : StopThread × StopInput}
    (hstep : (stopping wakes m).advance c a = some c') : StopInvariant c' := by
  obtain ⟨t, input⟩ := a
  obtain ⟨r, hr, rfl⟩ := Program.advance_eq_some_iff.mp hstep
  have heffect : StopEffect m t c.shared (c.place t) r := stopEffect_of_step hr
  have hself : (Program.move c t r).place t = r.2 := Program.move_place_self c t r
  have hother (u : StopThread) (hne : u ≠ t) : (Program.move c t r).place u = c.place u :=
    Program.move_place_of_ne c hne r
  have hstays (hstopped : c.shared.running = false) : r.1.running = false := by
    rcases heffect.running with hsame | ⟨-, hreset⟩
    · exact hsame.trans hstopped
    · exact hreset
  have hstaysClosed (hclosed : c.shared.listening = false) : r.1.listening = false := by
    rcases heffect.listening with hsame | hclose
    · exact hsame.trans hclosed
    · exact hclose
  refine ⟨heffect.stopMutex.holds_iff h.holds_iff, heffect.peersMutex.holds_iff h.holdsPeers_iff,
    fun u hu => ?_, fun u hu => ?_, fun u hu => ?_, fun u hu => ?_, fun u => ?_, fun u hu => ?_,
    fun u hu => ?_⟩
  · rcases eq_or_ne u t with rfl | hne
    · exact heffect.block (hself ▸ hu)
    · rw [hother u hne] at hu
      rcases heffect.running with hsame | ⟨hstore, -⟩
      · exact hsame.trans (h.running_of_block u hu)
      · exact absurd (h.eq_of_holds (by rw [hu]; rfl) (by rw [hstore]; rfl)) hne
  · rcases eq_or_ne u t with rfl | hne
    · rcases heffect.stored (hself ▸ hu) with hstored | hstopped
      · exact hstays (h.stopped_of_stored u hstored)
      · exact hstopped
    · exact hstays (h.stopped_of_stored u (hother u hne ▸ hu))
  · rcases eq_or_ne u t with rfl | hne
    · rcases heffect.closed (hself ▸ hu) with hclosed | hclosed
      · exact hstaysClosed (h.closed_of_closed u hclosed)
      · exact hclosed
    · exact hstaysClosed (h.closed_of_closed u (hother u hne ▸ hu))
  · -- nobody begins to sleep when the flag is reset
    have hkeeps (hnotified : (c.place u).notified = true) : r.1.waiting = ∅ := by
      rcases heffect.waiting with hsubset | hblock
      · rw [h.awake_of_notified u hnotified] at hsubset
        exact Finset.subset_empty.mp hsubset
      · have hrunning := h.running_of_block t hblock
        rw [h.stopped_of_stored u (StopPlace.stored_of_notified hnotified)] at hrunning
        cases hrunning
    rcases eq_or_ne u t with rfl | hne
    · exact (heffect.notified (hself ▸ hu)).elim hkeeps id
    · exact hkeeps (hother u hne ▸ hu)
  · rcases eq_or_ne u t with rfl | hne
    · rw [hself]
      rcases heffect.ended.2 with ⟨hended, hinsert⟩ | ⟨hended, hsame⟩
      · exact iff_of_true (hinsert ▸ Finset.mem_insert_self u _) hended
      · rw [Program.move_shared, hsame, h.ended_iff u]
        exact iff_of_false heffect.ended.1 hended
    · rw [hother u hne, ← h.ended_iff u, Program.move_shared]
      rcases heffect.ended.2 with ⟨-, hinsert⟩ | ⟨-, hsame⟩
      · rw [hinsert, Finset.mem_insert]
        exact or_iff_right hne
      · rw [hsame]
  · rcases eq_or_ne u t with rfl | hne
    · exact (heffect.ofStop (hself ▸ hu)).elim (h.cli_of_ofStop u) id
    · exact h.cli_of_ofStop u (hother u hne ▸ hu)
  · rcases eq_or_ne u t with rfl | hne
    · exact (heffect.inAccept (hself ▸ hu)).elim (h.listener_of_inAccept u) id
    · exact h.listener_of_inAccept u (hother u hne ▸ hu)

theorem StopInvariant.of_reachable {ok : StopConfig → StopThread × StopInput → Prop}
    (h : (stopping wakes m).interleavings.Reachable ok c) : StopInvariant c :=
  h.invariant StopInvariant (fun c hc => by rw [hc]; exact .start)
    fun _ _ _ _ ih _ hstep => ih.step hstep

/-! ### The way to the end -/

/-- The steps that a thread takes at most once the flag is reset. -/
def StopPlace.rank (m : ℕ) : StopPlace → ℕ
  | ended | returned | block => 0
  | whileTest | ifTest | stopTest | join => 1
  | idle | unlock | accepting => 2
  | evaluate | accept => 3
  | lock | relock _ => 4
  | blocked => 5
  | peers left => 2 * left + 5
  | inPeers left => 2 * left + 6
  | round => 2 * m + 6
  | disconnect left => left + 2
  | lockPeers => m + 3
  | closeSocket => m + 4
  | notify => m + 5
  | stopUnlock => m + 6
  | store => m + 7
  | stopLock => m + 8

section Steps

variable {t : StopThread} {s : StopState} {place : StopPlace} {input : StopInput}
  {r : StopState × StopPlace}

theorem rank_lt_of_next (hstopped : s.running = false) (hblock : place ≠ .block)
    (h : place.next wakes t s = some r) : r.2.rank m < place.rank m := by
  cases place with
  | block => exact absurd rfl hblock
  | ended | returned | round | lockPeers => cases h
  | lock | stopLock | join | accepting =>
    obtain ⟨-, h⟩ := Option.ite_none_right_eq_some.mp h
    obtain rfl := Option.some.inj h
    simp [StopPlace.rank]
  | blocked =>
    obtain ⟨-, h⟩ := Option.ite_none_left_eq_some.mp h
    obtain rfl := Option.some.inj h
    simp [StopPlace.rank]
  | relock timedOut =>
    obtain ⟨-, h⟩ := Option.ite_none_right_eq_some.mp h
    obtain rfl := Option.some.inj h
    cases timedOut <;> simp [StopPlace.rank]
  | whileTest | ifTest | evaluate | stopTest =>
    simp only [StopPlace.next, hstopped, Bool.false_eq_true, ↓reduceIte] at h
    obtain rfl := Option.some.inj h
    simp [StopPlace.rank]
  | idle | unlock =>
    obtain rfl := Option.some.inj h
    cases t <;> simp [StopPlace.rank, StopThread.afterWait]
  | accept =>
    obtain rfl := Option.some.inj h
    split_ifs <;> simp [StopPlace.rank]
  | peers left =>
    cases left with
    | zero =>
      obtain rfl := Option.some.inj h
      simp [StopPlace.rank]
    | succ left =>
      obtain ⟨-, h⟩ := Option.ite_none_right_eq_some.mp h
      obtain rfl := Option.some.inj h
      simp only [StopPlace.rank]
      omega
  | inPeers left | store | stopUnlock | notify | closeSocket =>
    obtain rfl := Option.some.inj h
    simp [StopPlace.rank]
  | disconnect left =>
    cases left <;>
    · obtain rfl := Option.some.inj h
      simp [StopPlace.rank]

theorem rank_lt_of_step (hstopped : s.running = false) (hblock : place ≠ .block)
    (h : stopStep wakes m t s place input = some r) : r.2.rank m < place.rank m := by
  rcases stopStep_cases h with ⟨-, hnext⟩ | ⟨n, hn, -, ⟨rfl, rfl⟩ | ⟨rfl, -, rfl⟩⟩ |
    ⟨-, rfl, rfl⟩ | ⟨-, rfl, rfl⟩ | ⟨timedOut, -, rfl, rfl⟩
  · exact rank_lt_of_next hstopped hblock hnext
  · simp only [StopPlace.rank]
    omega
  · simp only [StopPlace.rank]
    omega
  · simp [StopPlace.rank]
  · simp [StopPlace.rank]
  · simp [StopPlace.rank]

theorem rank_le (h : place.left ≤ m) : place.rank m ≤ 2 * m + 8 := by
  cases place <;> simp only [StopPlace.rank, StopPlace.left] at h ⊢ <;> omega

/-- A thread in a section is not held up. -/
theorem exists_next_of_holds (h : place.holds = true ∨ place.holdsPeers = true) :
    ∃ r, place.next wakes t s = some r := by
  cases place with
  | disconnect left => cases left <;> exact ⟨_, rfl⟩
  | _ =>
    first
    | exact ⟨_, rfl⟩
    | exact absurd h (by decide)
    | simp at h

/-- The steps that a thread takes without anything from outside. -/
def StopInput.own : StopInput → Bool
  | next | sections _ => true
  | _ => false

/-- Nor is any thread when the mutexes are free, nobody sleeps, and the socket has been closed, but
for a listener that is stuck and a thread that waits for the others. -/
theorem exists_step_of_free (hstop : s.stopMutex = none) (hpeers : s.peersMutex = none)
    (hwaiting : s.waiting = ∅) (hclosed : s.listening = false)
    (hstuck : wakes = true ∨ place ≠ .accepting)
    (hplace : place ≠ .ended ∧ place ≠ .join ∧ place ≠ .returned) :
    ∃ input r, StopInput.own input = true ∧ stopStep wakes m t s place input = some r := by
  have hnext (h : ∃ r, place.next wakes t s = some r) :
      ∃ input r, StopInput.own input = true ∧ stopStep wakes m t s place input = some r := by
    obtain ⟨r, hr⟩ := h
    exact ⟨.next, r, rfl, hr⟩
  cases place with
  | ended => exact absurd rfl hplace.1
  | join => exact absurd rfl hplace.2.1
  | returned => exact absurd rfl hplace.2.2
  | round => exact ⟨.sections 0, (s, .peers 0), rfl, by simp [stopStep]⟩
  | lockPeers =>
    exact ⟨.sections 0, ({ s with peersMutex := some t }, .disconnect 0), rfl,
      by simp [stopStep, hpeers]⟩
  | accepting =>
    exact hnext ⟨_, if_pos ⟨hstuck.resolve_right fun h => h rfl, hclosed⟩⟩
  | whileTest | ifTest =>
    refine hnext ?_
    simp only [StopPlace.next]
    split_ifs <;> exact ⟨_, rfl⟩
  | lock | relock timedOut | stopLock => exact hnext ⟨_, if_pos hstop⟩
  | blocked => exact hnext ⟨_, if_neg (by rw [hwaiting]; exact Finset.notMem_empty t)⟩
  | peers left =>
    cases left with
    | zero => exact hnext ⟨_, rfl⟩
    | succ left => exact hnext ⟨_, if_pos hpeers⟩
  | disconnect left => cases left <;> exact hnext ⟨_, rfl⟩
  | idle | accept | inPeers left | evaluate | block | unlock | stopTest | store | stopUnlock
    | notify | closeSocket => exact hnext ⟨_, rfl⟩

/-- After the notification `stop` goes on until it waits for the threads, and returns when they have
ended. -/
theorem notified_of_step (hnotified : place.notified = true)
    (h : stopStep wakes m t s place input = some r) :
    r.2.notified = true ∨ r = (s, .returned) ∧ stopJoins ⊆ s.ended := by
  rcases stopStep_cases h with ⟨-, hnext⟩ | ⟨n, -, -, ⟨rfl, -⟩ | ⟨-, -, rfl⟩⟩ |
    ⟨-, rfl, -⟩ | ⟨-, rfl, -⟩ | ⟨timedOut, -, rfl, -⟩
  · cases place with
    | closeSocket =>
      obtain rfl := Option.some.inj hnext
      exact .inl rfl
    | lockPeers => cases hnext
    | disconnect left =>
      cases left <;>
      · obtain rfl := Option.some.inj hnext
        exact .inl rfl
    | join =>
      obtain ⟨hended, hnext⟩ := Option.ite_none_right_eq_some.mp hnext
      obtain rfl := Option.some.inj hnext
      exact .inr ⟨rfl, hended⟩
    | _ => cases hnotified
  · cases hnotified
  · exact .inl rfl
  · cases hnotified
  · cases hnotified
  · cases hnotified

end Steps

/-- The notification has been sent and `stop` waits for the others, or they have ended and it has
returned. -/
def Notified (m : ℕ) (c : StopConfig) : Prop :=
  StopInvariant c ∧ (∀ t, (c.place t).left ≤ m) ∧
    ((c.place .cli).notified = true ∨ c.place .cli = .returned ∧ stopJoins ⊆ c.shared.ended)

theorem Notified.stopped (h : Notified m c) : c.shared.running = false := by
  rcases h.2.2 with hnotified | ⟨hreturned, -⟩
  · exact h.1.stopped_of_stored .cli (StopPlace.stored_of_notified hnotified)
  · exact h.1.stopped_of_stored .cli (by rw [hreturned]; rfl)

theorem left_le_of_reachable
    (h : (stopping wakes m).interleavings.Reachable (fun _ _ => True) c) :
    ∀ t, (c.place t).left ≤ m :=
  (Program.invariant (fun _ => True) (fun _ place => place.left ≤ m) h ⟨trivial, Nat.zero_le m⟩
    (fun _ t _ _ _ _ _ hleft hr => ⟨trivial, (stopEffect_of_step hr).left (hleft t)⟩)
    fun _ _ _ _ _ _ _ hleft _ u _ => hleft u).2

theorem lowersRank_notified :
    (stopping wakes m).LowersRank (Notified m) (StopPlace.rank m) where
  keeps := by
    rintro c ⟨t, input⟩ c' h hstep
    obtain ⟨r, hr, rfl⟩ := Program.advance_eq_some_iff.mp hstep
    have heffect : StopEffect m t c.shared (c.place t) r := stopEffect_of_step hr
    refine ⟨h.1.step hstep, fun u => ?_, ?_⟩
    · rcases eq_or_ne u t with rfl | hne
      · rw [Program.move_place_self]
        exact heffect.left (h.2.1 u)
      · rw [Program.move_place_of_ne c hne]
        exact h.2.1 u
    rcases eq_or_ne t .cli with rfl | hne
    · rw [Program.move_place_self, Program.move_shared]
      rcases h.2.2 with hnotified | ⟨hreturned, -⟩
      · rcases notified_of_step hnotified hr with hgoesOn | ⟨rfl, hended⟩
        · exact .inl hgoesOn
        · exact .inr ⟨rfl, hended⟩
      · rw [hreturned] at hr
        rcases stopStep_cases hr with ⟨-, hnext⟩ | ⟨n, -, -, ⟨hplace, -⟩ | ⟨hplace, -⟩⟩ |
          ⟨-, hplace, -⟩ | ⟨-, hplace, -⟩ | ⟨_, -, hplace, -⟩
        · cases hnext
        all_goals cases hplace
    · rw [Program.move_place_of_ne c hne.symm, Program.move_shared]
      refine h.2.2.imp_right fun ⟨hreturned, hended⟩ => ⟨hreturned, hended.trans ?_⟩
      rcases heffect.ended.2 with ⟨-, hinsert⟩ | ⟨-, hsame⟩
      · rw [hinsert]
        exact Finset.subset_insert t _
      · rw [hsame]
  lowers := by
    intro c t input r h hr
    refine rank_lt_of_step h.stopped (fun hblock => ?_) hr
    have hrunning := h.1.running_of_block t hblock
    rw [h.stopped] at hrunning
    cases hrunning

/-- The socket has been closed as well, and the listener is not stuck. -/
def Unstuck (wakes : Bool) (m : ℕ) (c : StopConfig) : Prop :=
  Notified m c ∧ c.shared.listening = false ∧ (wakes = true ∨ c.place .listener ≠ .accepting)

theorem lowersRank_unstuck :
    (stopping wakes m).LowersRank (Unstuck wakes m) (StopPlace.rank m) where
  keeps := by
    rintro c ⟨t, input⟩ c' ⟨h, hclosed, hstuck⟩ hstep
    refine ⟨lowersRank_notified.keeps c _ c' h hstep, ?_⟩
    obtain ⟨r, hr, rfl⟩ := Program.advance_eq_some_iff.mp hstep
    have heffect : StopEffect m t c.shared (c.place t) r := stopEffect_of_step hr
    have hstays : r.1.listening = false := heffect.listening.elim (·.trans hclosed) id
    refine ⟨hstays, hstuck.imp_right fun hplace hmoved => ?_⟩
    rcases eq_or_ne t .listener with rfl | hne
    · rw [Program.move_place_self] at hmoved
      have hlistening := heffect.accepting hmoved
      rw [hstays] at hlistening
      cases hlistening
    · rw [Program.move_place_of_ne c hne.symm] at hmoved
      exact hplace hmoved
  lowers c t input r h hr := lowersRank_notified.lowers c t input r h.1 hr

/-- As long as `stop` has not returned, some thread can go on without anything from outside. -/
theorem Unstuck.exists_step (h : Unstuck wakes m c) (hcli : c.place .cli ≠ .returned) :
    ∃ t input c', StopInput.own input = true ∧
      (stopping wakes m).advance c (t, input) = some c' := by
  obtain ⟨⟨hinv, -, hstop⟩, hclosed, hstuck⟩ := h
  have hnotified := hstop.resolve_right fun hreturned => hcli hreturned.1
  have hadvance {t : StopThread} (hstep : ∃ input r, StopInput.own input = true ∧
      stopStep wakes m t c.shared (c.place t) input = some r) :
      ∃ t input c', StopInput.own input = true ∧
        (stopping wakes m).advance c (t, input) = some c' := by
    obtain ⟨input, r, hown, hr⟩ := hstep
    exact ⟨t, input, _, hown, Program.advance_eq_some_iff.mpr ⟨r, hr, rfl⟩⟩
  have hsection {t : StopThread}
      (hholds : (c.place t).holds = true ∨ (c.place t).holdsPeers = true) :
      ∃ t input c', StopInput.own input = true ∧
        (stopping wakes m).advance c (t, input) = some c' := by
    obtain ⟨r, hr⟩ : ∃ r, (c.place t).next wakes t c.shared = some r := exists_next_of_holds hholds
    exact hadvance ⟨.next, r, rfl, hr⟩
  -- a thread in a section goes on, and without one those that have not ended do
  cases hmutex : c.shared.stopMutex with
  | some u => exact hsection (.inl ((hinv.holds_iff u).mpr hmutex))
  | none =>
    cases hpeers : c.shared.peersMutex with
    | some u => exact hsection (.inr ((hinv.holdsPeers_iff u).mpr hpeers))
    | none =>
      have hawake := hinv.awake_of_notified .cli hnotified
      by_cases hjoin : c.place .cli = .join
      · by_cases hended : stopJoins ⊆ c.shared.ended
        · refine hadvance (t := .cli) ⟨.next, (c.shared, .returned), rfl, ?_⟩
          rw [hjoin]
          exact if_pos hended
        · obtain ⟨t, ht, hnot⟩ := Finset.not_subset.mp hended
          rw [hinv.ended_iff] at hnot
          have hofStop : (c.place t).ofStop ≠ true := fun hofStop => by
            rw [hinv.cli_of_ofStop t hofStop] at ht
            exact absurd ht (by decide)
          refine hadvance (t := t) (exists_step_of_free hmutex hpeers hawake hclosed ?_
            ⟨hnot, fun h => hofStop (by rw [h]; rfl), fun h => hofStop (by rw [h]; rfl)⟩)
          refine hstuck.imp_right fun hlistener haccepting => ?_
          rw [hinv.listener_of_inAccept t (by rw [haccepting]; rfl)] at haccepting
          exact hlistener haccepting
      · refine hadvance (t := .cli) (exists_step_of_free hmutex hpeers hawake hclosed
          (.inr fun h => ?_) ⟨fun h => ?_, hjoin, hcli⟩) <;>
        · rw [h] at hnotified
          cases hnotified

/-- Only a connection or the closed socket takes the listener out of `accept`. -/
theorem accepting_of_step {a : StopThread × StopInput} (haccepting : c.place .listener = .accepting)
    (hnone : a.2 ≠ .connection) (hstep : (stopping false m).advance c a = some c') :
    c'.place .listener = .accepting := by
  obtain ⟨t, input⟩ := a
  obtain ⟨r, hr, rfl⟩ := Program.advance_eq_some_iff.mp hstep
  rcases eq_or_ne t .listener with rfl | hne
  · have hr' : stopStep false m .listener c.shared .accepting input = some r := haccepting ▸ hr
    rcases stopStep_cases hr' with ⟨-, hnext⟩ | ⟨n, -, -, ⟨hplace, -⟩ | ⟨hplace, -⟩⟩ |
      ⟨hconnection, -⟩ | ⟨-, hplace, -⟩ | ⟨_, -, hplace, -⟩
    · cases hnext
    · cases hplace
    · cases hplace
    · exact absurd hconnection hnone
    · cases hplace
    · cases hplace
  · rw [Program.move_place_of_ne c hne.symm]
    exact haccepting

theorem accepting_of_run {as : List (StopThread × StopInput)}
    (haccepting : c.place .listener = .accepting) (hnone : ∀ a ∈ as, a.2 ≠ .connection)
    (hrun : (stopping false m).run c as = some c') : c'.place .listener = .accepting := by
  induction as generalizing c with
  | nil => exact Option.some.inj hrun ▸ haccepting
  | cons a as ih =>
    obtain ⟨c₁, hstep, hrest⟩ := Option.bind_eq_some_iff.mp hrun
    obtain ⟨hnone, hothers⟩ := List.forall_mem_cons.mp hnone
    exact ih (accepting_of_step haccepting hnone hstep) hothers hrest

theorem Unstuck.exists_returned (h : Unstuck wakes m c) :
    ∃ as c', (stopping wakes m).run c as = some c' ∧ (∀ a ∈ as, StopInput.own a.2 = true) ∧
      c'.place .cli = .returned ∧ ∀ t ∈ stopJoins, c'.place t = .ended := by
  obtain ⟨as, c', hrun, hown, hunstuck, hreturned⟩ :=
    lowersRank_unstuck.exists_run
      (Q := fun c => Unstuck wakes m c ∧ c.place .cli = .returned)
      (fun c hc hnot => hc.exists_step fun hreturned => hnot ⟨hc, hreturned⟩) h
  refine ⟨as, c', hrun, hown, hreturned, fun t ht => ?_⟩
  have hended := hunstuck.1.2.2.resolve_left (by rw [hreturned]; decide)
  exact (hunstuck.1.1.ended_iff t).mp (hended.2 ht)

/-- Unless the listener is stuck, the threads end after the notification: `stop` closes the socket
if it has not yet, and then they go on. -/
theorem Notified.exists_returned (h : Notified m c) (hcli : (c.place .cli).notified = true)
    (hstuck : wakes = true ∨ c.place .listener ≠ .accepting) :
    ∃ as c', (stopping wakes m).run c as = some c' ∧ (∀ a ∈ as, StopInput.own a.2 = true) ∧
      c'.place .cli = .returned ∧ ∀ t ∈ stopJoins, c'.place t = .ended := by
  cases hplace : (c.place .cli).closed with
  | true =>
    have hclosed := h.1.closed_of_closed .cli hplace
    exact Unstuck.exists_returned ⟨h, hclosed, hstuck⟩
  | false =>
    have hclose : c.place .cli = .closeSocket := by
      cases hcloses : c.place .cli <;> simp_all
    let r : StopState × StopPlace := ({ c.shared with listening := false }, .lockPeers)
    have hstep : (stopping wakes m).advance c (.cli, .next) = some (Program.move c .cli r) :=
      Program.advance_eq_some_iff.mpr ⟨r, by rw [hclose]; rfl, rfl⟩
    have hunstuck : Unstuck wakes m (Program.move c .cli r) :=
      ⟨lowersRank_notified.keeps c _ _ h hstep, rfl, by
        rwa [Program.move_place_of_ne c (by decide)]⟩
    obtain ⟨as, c', hrun, hown, hreturned⟩ := hunstuck.exists_returned
    refine ⟨(.cli, .next) :: as, c', ?_, List.forall_mem_cons.mpr ⟨rfl, hown⟩, hreturned⟩
    rw [Program.run, hstep]
    exact hrun

/-- The ping thread sleeps and the listener is blocked in `accept` when `stop` notifies. -/
theorem exists_asleep (wakes : Bool) :
    ∃ c : StopConfig, (stopping wakes 1).interleavings.Reachable (fun _ _ => True) c ∧
      c.place .ping = .blocked ∧ c.place .listener = .accepting ∧ c.place .cli = .closeSocket := by
  let as : List (StopThread × StopInput) := List.replicate 5 (.ping, .next) ++
    (List.replicate 3 (.listener, .next) ++ List.replicate 6 (.cli, .next))
  obtain ⟨c, hc⟩ : ∃ c, (stopping wakes 1).run (stopping wakes 1).start as = some c := by
    cases wakes <;> exact ⟨_, rfl⟩
  have hplaces : ((stopping wakes 1).run (stopping wakes 1).start as).map
      (fun c => (c.place .ping, c.place .listener, c.place .cli)) =
      some (.blocked, .accepting, .closeSocket) := by cases wakes <;> decide
  rw [hc, Option.map_some, Option.some.injEq, Prod.mk.injEq, Prod.mk.injEq] at hplaces
  exact ⟨c, Program.reachable_run (.init rfl) (fun _ _ _ => trivial) hc, hplaces⟩

/-- Once `stop` has notified, in whatever order the threads go on, none of them sleeps, and together
they take a bounded number of steps. Where closing the socket wakes the listener, or the listener is
not blocked in `accept`, they can go on, without anything from outside, until all threads of the
node have ended and `stop` has returned. Otherwise `stop` does not return before another
connection. -/
theorem stop_returns (h : (stopping wakes m).interleavings.Reachable (fun _ _ => True) c)
    (hcli : (c.place .cli).notified = true) :
    c.shared.waiting = ∅ ∧
      (∀ as c', (stopping wakes m).run c as = some c' → as.length ≤ 10 * m + 40) ∧
      (wakes = true ∨ c.place .listener ≠ .accepting →
        ∃ as c', (stopping wakes m).run c as = some c' ∧ (∀ a ∈ as, StopInput.own a.2 = true) ∧
          c'.place .cli = .returned ∧ ∀ t ∈ stopJoins, c'.place t = .ended) ∧
      (wakes = false → c.place .listener = .accepting →
        ∀ as c', (∀ a ∈ as, a.2 ≠ .connection) → (stopping wakes m).run c as = some c' →
          c'.place .cli ≠ .returned) := by
  have hnotified : Notified m c := ⟨.of_reachable h, left_le_of_reachable h, .inl hcli⟩
  refine ⟨hnotified.1.awake_of_notified .cli hcli, fun as c' hrun => ?_,
    hnotified.exists_returned hcli, ?_⟩
  · have hrank : c.rank (StopPlace.rank m) ≤ 5 * (2 * m + 8) :=
      Finset.sum_le_card_nsmul Finset.univ _ _ fun t _ => rank_le (hnotified.2.1 t)
    have hlength := lowersRank_notified.length_le hnotified hrun
    omega
  · rintro rfl haccepting as c' hnone hrun hreturned
    have hstuck := accepting_of_run haccepting hnone hrun
    have hended : stopJoins ⊆ c'.shared.ended := by
      have hnotified' := lowersRank_notified.keeps_run hnotified hrun
      exact (hnotified'.2.2.resolve_left (by rw [hreturned]; decide)).2
    have hlistener := (StopInvariant.of_reachable (Program.reachable_run h (fun _ _ _ => trivial)
      hrun)).ended_iff .listener |>.mp (hended (by decide))
    rw [hstuck] at hlistener
    cases hlistener

theorem stop_returns_asleep :
    (∃ c : StopConfig, c.place .ping = .blocked ∧ c.place .listener = .accepting ∧
      c.shared.waiting = ∅ ∧
      ∃ as c', (stopping true 1).run c as = some c' ∧ c'.place .cli = .returned) ∧
    ∃ c : StopConfig, c.place .cli = .closeSocket ∧ c.place .listener = .accepting ∧
      ∀ as c', (∀ a ∈ as, a.2 ≠ .connection) → (stopping false 1).run c as = some c' →
        c'.place .cli ≠ .returned := by
  obtain ⟨c, hreachable, hping, hlistener, hcli⟩ := exists_asleep true
  obtain ⟨d, hreachable', -, hlistener', hcli'⟩ := exists_asleep false
  obtain ⟨hwaiting, -, hreturns, -⟩ := stop_returns hreachable (by rw [hcli]; rfl)
  obtain ⟨-, -, -, hstuck⟩ := stop_returns hreachable' (by rw [hcli']; rfl)
  obtain ⟨as, c', hrun, -, hreturned, -⟩ := hreturns (.inl rfl)
  exact ⟨⟨c, hping, hlistener, hwaiting, as, c', hrun, hreturned⟩,
    d, hcli', hlistener', hstuck rfl hlistener'⟩

end p2p

end BlockchainCrypto
