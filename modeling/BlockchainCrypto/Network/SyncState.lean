import BlockchainCrypto.Network.Dialling
import BlockchainCrypto.Theory.Threads
import Mathlib.Data.Fintype.Basic

/-!
# The outstanding sync

A node has one sync at a time. The flag `syncing` is atomic and is set and reset outside the mutex
that guards `sync_peer` and `sync_deadline`, and the receiver, ping, sync and CLI threads start and
cancel syncs concurrently. Every section under the mutex and every atomic operation is one step
here; any number of threads take them in any order.

The flag is never left set without a deadline. But a call that has decided to cancel a sync, or one
that has set the flag and not yet written the address of its peer, may be overtaken by the end of
this sync and the start of another, and then acts on that one.

## Main definitions

* `p2p.SyncState`, `p2p.SyncCall`, `p2p.SyncPlace`, `p2p.SyncPlace.next`: the data, the calls, and
  the steps.
* `p2p.syncThreads`: the interleavings of the calls.
* `p2p.StartsAlone`, `p2p.StartsFresh`: what is left of earlier calls when a sync starts.
* `p2p.ChangesOnly`: a step leaves the syncs with other peers alone.

## Main results

* `p2p.SyncEffect.of_step`: the effects of the steps.
* `p2p.run_call`: the steps of a call in a row have the effect of the call.
* `p2p.syncDeadline_ne_zero`: without calls in progress, a set flag has a deadline.
* `p2p.settled_of_startsAlone`: and the address of the last sync.
* `p2p.cancelSyncIfPeer_changesOnly`: a call for one peer does not cancel a sync with another.
-/

namespace BlockchainCrypto

open ByteText

namespace p2p

/-! ### Steps -/

/-- The address of a peer, as `getAddress` makes it. -/
structure PeerAddress where
  text : Bytes
  eq_addressOf : ∃ ip port, text = addressOf ip port
  deriving DecidableEq

theorem PeerAddress.text_ne_nil (address : PeerAddress) : address.text ≠ [] := by
  obtain ⟨ip, port, h⟩ := address.eq_addressOf
  simp [h, addressOf, ascii]

/-- The flag, the address of the peer and the deadline of a sync. -/
structure SyncState where
  syncing : Bool := false
  syncPeer : Bytes := []
  syncDeadline : Int64 := 0
  /-- the peer of the last `syncWithPeer` that set the flag; no code reads this -/
  latest : Option PeerAddress := none
  deriving DecidableEq

/-- The calls that read or write the state of a sync. -/
inductive SyncCall where
  | syncWithPeer (address : PeerAddress)
  | cancelSync
  | cancelSyncIfPeer (peerAddress : PeerAddress)
  | cancelStalledSync
  deriving DecidableEq

/-- Where a thread is: outside of the calls, or before the atomic operation or the section of this
name. The last two are those of `cancelSync`, on behalf of a call. -/
inductive SyncPlace where
  | idle
  | compareExchange (address : PeerAddress)
  | writeDeadline (address : PeerAddress)
  | send (address : PeerAddress)
  | comparePeer (peerAddress : PeerAddress)
  | loadSyncing
  | compareDeadline
  | clear (caller : SyncCall)
  | exchange (caller : SyncCall)
  deriving DecidableEq

/-- The first step of a call. -/
def SyncCall.entry : SyncCall → SyncPlace
  | syncWithPeer address => .compareExchange address
  | cancelSync => .clear cancelSync
  | cancelSyncIfPeer peerAddress => .comparePeer peerAddress
  | cancelStalledSync => .loadSyncing

/-- The call that a thread is in. -/
def SyncPlace.call : SyncPlace → Option SyncCall
  | idle => none
  | compareExchange address | writeDeadline address | send address => some (.syncWithPeer address)
  | comparePeer peerAddress => some (.cancelSyncIfPeer peerAddress)
  | loadSyncing | compareDeadline => some .cancelStalledSync
  | clear caller | exchange caller => some caller

/-- A step within a call, with the clock it may read and whether the request it may send goes
out. -/
def SyncPlace.next (syncTimeout now : Int64) (sent : Bool) (s : SyncState) :
    SyncPlace → SyncState × SyncPlace
  | idle => (s, idle)
  -- syncWithPeer
  | compareExchange address =>
    if s.syncing then (s, idle)
    else ({ s with syncing := true, latest := some address }, writeDeadline address)
  | writeDeadline address =>
    ({ s with syncPeer := address.text, syncDeadline := now + syncTimeout }, send address)
  | send address => (s, if sent then idle else clear (.syncWithPeer address))
  -- cancelSyncIfPeer
  | comparePeer peerAddress =>
    (s, if s.syncPeer ≠ peerAddress.text then idle else clear (.cancelSyncIfPeer peerAddress))
  -- cancelStalledSync
  | loadSyncing => (s, if s.syncing then compareDeadline else idle)
  | compareDeadline =>
    (s, if s.syncDeadline = 0 ∨ now < s.syncDeadline then idle else clear .cancelStalledSync)
  -- cancelSync
  | clear caller => ({ s with syncPeer := [], syncDeadline := 0 }, exchange caller)
  | exchange _ => ({ s with syncing := false }, idle)

/-- An idle thread may enter a call; another one takes the next step of its call. -/
inductive SyncInput where
  | call (c : SyncCall)
  | next (now : Int64) (sent : Bool)
  deriving DecidableEq

/-- A step of a thread. -/
def syncStep (syncTimeout : Int64) (s : SyncState) (place : SyncPlace) :
    SyncInput → Option (SyncState × SyncPlace)
  | .call c => if place = .idle then some (s, c.entry) else none
  | .next now sent => if place = .idle then none else some (place.next syncTimeout now sent s)

/-- The threads of a node that has just been constructed. -/
def syncThreads (T : Type*) (syncTimeout : Int64) :
    Threads.Program SyncState T SyncPlace SyncInput where
  init := {}
  idle := .idle
  step _ := syncStep syncTimeout

/-- The thread writes the address of a peer or resets the flag in its next step. -/
def SyncPlace.pending : SyncPlace → Bool
  | writeDeadline _ | exchange _ => true
  | _ => false

/-- What a step does to the state. -/
inductive SyncEffect (syncTimeout : Int64) (input : SyncInput) (s : SyncState) :
    SyncPlace → SyncState → SyncPlace → Prop
  /-- nothing; a thread that goes on to cancel the sync with a peer has found its address -/
  | none {place place' : SyncPlace} (hplace : place.pending = false)
      (hplace' : place'.pending = false)
      (hclear : ∀ peer, place' = .clear (.cancelSyncIfPeer peer) → s.syncPeer = peer.text) :
      SyncEffect syncTimeout input s place s place'
  | start (address : PeerAddress) (hidle : s.syncing = false) :
      SyncEffect syncTimeout input s (.compareExchange address)
        { s with syncing := true, latest := some address } (.writeDeadline address)
  | write (address : PeerAddress) (now : Int64) (sent : Bool) (hinput : input = .next now sent) :
      SyncEffect syncTimeout input s (.writeDeadline address)
        { s with syncPeer := address.text, syncDeadline := now + syncTimeout } (.send address)
  | clear (caller : SyncCall) :
      SyncEffect syncTimeout input s (.clear caller)
        { s with syncPeer := [], syncDeadline := 0 } (.exchange caller)
  | reset (caller : SyncCall) :
      SyncEffect syncTimeout input s (.exchange caller) { s with syncing := false } .idle

theorem SyncEffect.of_step {syncTimeout : Int64} {s : SyncState} {place : SyncPlace}
    {input : SyncInput} {r : SyncState × SyncPlace}
    (h : syncStep syncTimeout s place input = some r) :
    SyncEffect syncTimeout input s place r.1 r.2 := by
  cases input with
  | call c =>
    obtain ⟨rfl, h⟩ := Option.ite_none_right_eq_some.mp h
    obtain rfl := Option.some.inj h
    cases c <;> exact .none rfl rfl (by simp [SyncCall.entry])
  | next now sent =>
    obtain ⟨hbusy, h⟩ := Option.ite_none_left_eq_some.mp h
    obtain rfl := Option.some.inj h
    cases place with
    | idle => exact absurd rfl hbusy
    | compareExchange address =>
      simp only [SyncPlace.next]
      split_ifs with hsyncing
      · exact .none rfl rfl (by simp)
      · exact .start address (Bool.not_eq_true _ ▸ hsyncing)
    | writeDeadline address => exact .write address now sent rfl
    | send address => cases sent <;> exact .none rfl rfl (by simp [SyncPlace.next])
    | comparePeer peerAddress =>
      simp only [SyncPlace.next]
      split_ifs with hpeer
      · exact .none rfl rfl (by simp)
      · refine .none rfl rfl fun peer heq => ?_
        obtain rfl := SyncCall.cancelSyncIfPeer.inj (SyncPlace.clear.inj heq)
        exact not_not.mp hpeer
    | loadSyncing =>
      simp only [SyncPlace.next]
      split_ifs <;> exact .none rfl rfl (by simp)
    | compareDeadline =>
      simp only [SyncPlace.next]
      split_ifs <;> exact .none rfl rfl (by simp)
    | clear caller => exact .clear caller
    | exchange caller => exact .reset caller

/-! ### Calls without interleaving -/

namespace SyncState

variable (s : SyncState)

/-- No sync. -/
def cancelSync : SyncState := { s with syncing := false, syncPeer := [], syncDeadline := 0 }

/-- The end of a sync with the peer. -/
def cancelSyncIfPeer (peerAddress : Bytes) : SyncState :=
  if s.syncPeer ≠ peerAddress then s else s.cancelSync

/-- The end of a sync that has passed its deadline. -/
def cancelStalledSync (now : Int64) : SyncState :=
  if !s.syncing then s
  else if s.syncDeadline = 0 ∨ now < s.syncDeadline then s
  else s.cancelSync

/-- The start of a sync, which ends at once when the request does not go out. -/
def syncWithPeer (syncTimeout now : Int64) (sent : Bool) (address : PeerAddress) : SyncState :=
  if s.syncing then s
  else if sent then ⟨true, address.text, now + syncTimeout, some address⟩
  else cancelSync ⟨true, address.text, now + syncTimeout, some address⟩

end SyncState

/-- The state after a call. -/
def SyncCall.run (syncTimeout now : Int64) (sent : Bool) (s : SyncState) : SyncCall → SyncState
  | syncWithPeer address => s.syncWithPeer syncTimeout now sent address
  | cancelSync => s.cancelSync
  | cancelSyncIfPeer peerAddress => s.cancelSyncIfPeer peerAddress.text
  | cancelStalledSync => s.cancelStalledSync now

section Completes

variable {T : Type*} {syncTimeout now : Int64} {sent : Bool} {t : T}

/-- The steps of a thread in a row, from a place on, end its call with the state `s'`. -/
def Completes (syncTimeout now : Int64) (sent : Bool) (t : T) (s : SyncState) (place : SyncPlace)
    (s' : SyncState) : Prop :=
  ∃ k, (syncThreads T syncTimeout).runThread t (s, place) (List.replicate k (.next now sent)) =
    some (s', .idle)

theorem completes_idle (s : SyncState) : Completes syncTimeout now sent t s .idle s := ⟨0, rfl⟩

theorem completes_of_next {s s' : SyncState} {place : SyncPlace} (hbusy : place ≠ .idle)
    (h : Completes syncTimeout now sent t (place.next syncTimeout now sent s).1
      (place.next syncTimeout now sent s).2 s') :
    Completes syncTimeout now sent t s place s' := by
  obtain ⟨k, hk⟩ := h
  refine ⟨k + 1, ?_⟩
  have hstep : (syncThreads T syncTimeout).step t s place (.next now sent) =
      some (place.next syncTimeout now sent s) := if_neg hbusy
  rw [List.replicate_succ, Threads.Program.runThread, hstep]
  exact hk

/-- The clearing section and the exchange are `cancelSync`. -/
theorem completes_clear (s : SyncState) (caller : SyncCall) :
    Completes syncTimeout now sent t s (.clear caller) s.cancelSync :=
  completes_of_next SyncPlace.noConfusion (completes_of_next SyncPlace.noConfusion
    (completes_idle _))

theorem completes_send (s : SyncState) (address : PeerAddress) :
    Completes syncTimeout now sent t s (.send address) (if sent then s else s.cancelSync) := by
  cases sent with
  | false => exact completes_of_next SyncPlace.noConfusion (completes_clear s _)
  | true => exact completes_of_next SyncPlace.noConfusion (completes_idle s)

theorem completes_syncWithPeer (s : SyncState) (address : PeerAddress) :
    Completes syncTimeout now sent t s (.compareExchange address)
      (s.syncWithPeer syncTimeout now sent address) := by
  have hsend : Completes syncTimeout now sent t
      ⟨true, address.text, now + syncTimeout, some address⟩ (.send address) _ :=
    completes_send _ address
  refine completes_of_next SyncPlace.noConfusion ?_
  rw [SyncPlace.next, SyncState.syncWithPeer]
  split_ifs with hsyncing hsent
  · exact completes_idle s
  · rw [if_pos hsent] at hsend
    exact completes_of_next SyncPlace.noConfusion hsend
  · rw [if_neg hsent] at hsend
    exact completes_of_next SyncPlace.noConfusion hsend

theorem completes_cancelSyncIfPeer (s : SyncState) (peerAddress : PeerAddress) :
    Completes syncTimeout now sent t s (.comparePeer peerAddress)
      (s.cancelSyncIfPeer peerAddress.text) := by
  refine completes_of_next SyncPlace.noConfusion ?_
  rw [SyncPlace.next, SyncState.cancelSyncIfPeer]
  split_ifs
  · exact completes_idle s
  · exact completes_clear s _

theorem completes_compareDeadline (s : SyncState) :
    Completes syncTimeout now sent t s .compareDeadline
      (if s.syncDeadline = 0 ∨ now < s.syncDeadline then s else s.cancelSync) := by
  refine completes_of_next SyncPlace.noConfusion ?_
  rw [SyncPlace.next]
  split_ifs
  · exact completes_idle s
  · exact completes_clear s _

theorem completes_cancelStalledSync (s : SyncState) :
    Completes syncTimeout now sent t s .loadSyncing (s.cancelStalledSync now) := by
  refine completes_of_next SyncPlace.noConfusion ?_
  rw [SyncPlace.next, SyncState.cancelStalledSync]
  cases s.syncing with
  | false => exact completes_idle s
  | true => exact completes_compareDeadline s

/-- The steps of a call in a row have the effect of the call. -/
theorem run_call [DecidableEq T] (syncTimeout now : Int64) (sent : Bool) (call : SyncCall)
    {c : Threads.Config SyncState T SyncPlace} (ht : c.place t = .idle) :
    ∃ k, (syncThreads T syncTimeout).run c
        ((t, .call call) :: List.replicate k (t, .next now sent)) =
      some ⟨call.run syncTimeout now sent c.shared, c.place⟩ := by
  have hcompletes : Completes syncTimeout now sent t c.shared call.entry
      (call.run syncTimeout now sent c.shared) := by
    cases call with
    | syncWithPeer address => exact completes_syncWithPeer _ address
    | cancelSync => exact completes_clear _ _
    | cancelSyncIfPeer peerAddress => exact completes_cancelSyncIfPeer _ peerAddress
    | cancelStalledSync => exact completes_cancelStalledSync _
  obtain ⟨k, hk⟩ := hcompletes
  have hthread : (syncThreads T syncTimeout).runThread t (c.shared, c.place t)
      (.call call :: List.replicate k (.next now sent)) =
        some (call.run syncTimeout now sent c.shared, c.place t) := by
    rw [ht]
    exact hk
  refine ⟨k, ?_⟩
  have hrun := Threads.Program.run_map_thread (p := syncThreads T syncTimeout) c t
    (c.shared, c.place t) (.call call :: List.replicate k (.next now sent))
  rw [Threads.Program.move_self, hthread, List.map_cons, List.map_replicate] at hrun
  rw [hrun]
  simp [Threads.Program.move, Function.update_eq_self]

end Completes

/-! ### Interleavings -/

/-- The state and the places of the threads. -/
abbrev SyncConfig (T : Type*) := Threads.Config SyncState T SyncPlace

section Interleavings

variable {T : Type*} {syncTimeout : Int64} {ok : SyncConfig T → T × SyncInput → Prop}
  {c : SyncConfig T}

/-- The clock and the timeout add up to a positive number. -/
def SyncInput.PositiveDeadline (syncTimeout : Int64) : SyncInput → Prop
  | call _ => True
  | next now _ => 0 < now + syncTimeout

instance : DecidablePred (SyncInput.PositiveDeadline syncTimeout)
  | .call _ => .isTrue trivial
  | .next now _ => inferInstanceAs (Decidable (0 < now + syncTimeout))

/-- The next step of the thread sets the flag. -/
def Starts (c : SyncConfig T) (t : T) (address : PeerAddress) : Prop :=
  c.place t = .compareExchange address ∧ c.shared.syncing = false

/-- The flag is not set while another call, for another peer, is still to write its address. -/
def StartsAlone (c : SyncConfig T) (a : T × SyncInput) : Prop :=
  ∀ address, Starts c a.1 address → ∀ u other, c.place u = .writeDeadline other → other = address

/-- Before the clearing section or the exchange of a call. -/
def SyncPlace.Cancels (place : SyncPlace) (caller : SyncCall) : Prop :=
  place = .clear caller ∨ place = .exchange caller

/-- The peer with which the next step would start a sync. -/
def SyncPlace.starting : SyncPlace → Option PeerAddress
  | compareExchange address => some address
  | _ => none

/-- The peer whose address is to be written in the next step. -/
def SyncPlace.writing : SyncPlace → Option PeerAddress
  | writeDeadline address => some address
  | _ => none

/-- The peer with which `cancelSyncIfPeer` is about to cancel a sync. -/
def SyncPlace.cancelling : SyncPlace → Option PeerAddress
  | clear (.cancelSyncIfPeer peer) | exchange (.cancelSyncIfPeer peer) => some peer
  | _ => none

/-- When the flag is set, nothing that is left of earlier calls concerns another peer: not the
address, not a call that is still to write its address, and not a `cancelSyncIfPeer` that has
compared the address. -/
def StartsFresh (c : SyncConfig T) (a : T × SyncInput) : Prop :=
  ∀ address, Starts c a.1 address →
    (c.shared.syncPeer = [] ∨ c.shared.syncPeer = address.text) ∧
    (∀ u other, c.place u = .writeDeadline other → other = address) ∧
    ∀ u peer, (c.place u).Cancels (.cancelSyncIfPeer peer) → peer = address

theorem SyncPlace.mem_starting {place : SyncPlace} {address : PeerAddress} :
    address ∈ place.starting ↔ place = .compareExchange address := by
  cases place <;> simp [starting]

theorem SyncPlace.mem_writing {place : SyncPlace} {address : PeerAddress} :
    address ∈ place.writing ↔ place = .writeDeadline address := by
  cases place <;> simp [writing]

theorem SyncPlace.mem_cancelling {place : SyncPlace} {peer : PeerAddress} :
    peer ∈ place.cancelling ↔ place.Cancels (.cancelSyncIfPeer peer) := by
  cases place with
  | clear caller | exchange caller => cases caller <;> simp [cancelling, Cancels]
  | _ => simp [cancelling, Cancels]

instance [Fintype T] (c : SyncConfig T) (a : T × SyncInput) : Decidable (StartsAlone c a) :=
  decidable_of_iff (∀ address ∈ (c.place a.1).starting, c.shared.syncing = false →
      ∀ u, ∀ other ∈ (c.place u).writing, other = address) <| by
    simp only [StartsAlone, Starts, SyncPlace.mem_starting, SyncPlace.mem_writing, and_imp]

instance [Fintype T] (c : SyncConfig T) (a : T × SyncInput) : Decidable (StartsFresh c a) :=
  decidable_of_iff (∀ address ∈ (c.place a.1).starting, c.shared.syncing = false →
      (c.shared.syncPeer = [] ∨ c.shared.syncPeer = address.text) ∧
      (∀ u, ∀ other ∈ (c.place u).writing, other = address) ∧
      ∀ u, ∀ peer ∈ (c.place u).cancelling, peer = address) <| by
    simp only [StartsFresh, Starts, SyncPlace.mem_starting, SyncPlace.mem_writing,
      SyncPlace.mem_cancelling, and_imp]

theorem StartsFresh.alone {a : T × SyncInput} (h : StartsFresh c a) : StartsAlone c a :=
  fun address hstarts => (h address hstarts).2.1

/-- No call is in progress. -/
def NoCalls (c : SyncConfig T) : Prop := ∀ t, c.place t = .idle

theorem not_pending_of_noCalls (hcalls : NoCalls c) : ¬ ∃ t, (c.place t).pending = true := by
  rintro ⟨t, ht⟩
  rw [hcalls t] at ht
  exact absurd ht Bool.noConfusion

variable [DecidableEq T]

/-- A call that is still to write its address is the last that set the flag. -/
theorem latest_of_writeDeadline (h : (syncThreads T syncTimeout).interleavings.Reachable ok c)
    (hok : ∀ c a, ok c a → StartsAlone c a) {t : T} {address : PeerAddress}
    (ht : c.place t = .writeDeadline address) : c.shared.latest = some address := by
  refine (Threads.Program.invariant (fun _ => True)
    (fun s place => ∀ address, place = .writeDeadline address → s.latest = some address) h
    ⟨trivial, fun address h => absurd h SyncPlace.noConfusion⟩ ?_ ?_).2 t address ht
  · rintro c t a ⟨s', place'⟩ - - - - hstep
    refine ⟨trivial, ?_⟩
    rintro address rfl
    have heffect := SyncEffect.of_step hstep
    generalize c.place t = place at heffect
    cases heffect with
    | none hplace hplace' hclear => exact absurd hplace' Bool.noConfusion
    | start address hidle => rfl
  · rintro c t a ⟨s', place'⟩ - hstart - hlatest hstep u - address hu
    have heffect := SyncEffect.of_step hstep
    generalize hplace : c.place t = place at heffect
    cases heffect with
    | start other hidle =>
      exact congrArg some (hok c (t, a) hstart other ⟨hplace, hidle⟩ u address hu).symm
    | _ => exact hlatest u address hu

/-- What the section of `syncWithPeer` establishes holds of a set flag, but while some thread is
about to write an address or to reset the flag. -/
theorem settled_of_reachable (Q : SyncState → Prop)
    (h : (syncThreads T syncTimeout).interleavings.Reachable ok c)
    (hwrite : ∀ (c : SyncConfig T) t now sent address,
      (syncThreads T syncTimeout).interleavings.Reachable ok c → ok c (t, .next now sent) →
      c.place t = .writeDeadline address →
      Q { c.shared with syncPeer := address.text, syncDeadline := now + syncTimeout }) :
    c.shared.syncing = true → Q c.shared ∨ ∃ t, (c.place t).pending = true := by
  refine h.invariant
    (fun c => c.shared.syncing = true → Q c.shared ∨ ∃ t, (c.place t).pending = true) ?_ ?_
  · rintro c rfl hsyncing
    exact absurd hsyncing Bool.noConfusion
  · rintro c ⟨t, a⟩ c' hreach hsettled hok hstep hsyncing
    obtain ⟨⟨s', place'⟩, hr, rfl⟩ := Threads.Program.advance_eq_some_iff.mp hstep
    refine Or.imp_right
      (Threads.Program.exists_place_move
        (Q := fun place : SyncPlace => place.pending = true)).mpr ?_
    have heffect := SyncEffect.of_step hr
    generalize hplace : c.place t = place at heffect
    cases heffect with
    | none hnot hnot' hclear =>
      refine (hsettled hsyncing).imp id fun ⟨u, hu⟩ => .inr ⟨u, ?_, hu⟩
      rintro rfl
      rw [hplace, hnot] at hu
      exact absurd hu Bool.noConfusion
    | start address hidle => exact .inr (.inl rfl)
    | write address now sent hinput =>
      subst hinput
      exact .inl (hwrite c t now sent address hreach hok hplace)
    | clear caller => exact .inr (.inl rfl)
    | reset caller => exact absurd hsyncing Bool.noConfusion

/-- Without calls in progress, a set flag has a deadline. -/
theorem syncDeadline_ne_zero (h : (syncThreads T syncTimeout).interleavings.Reachable ok c)
    (hok : ∀ c a, ok c a → a.2.PositiveDeadline syncTimeout) (hcalls : NoCalls c)
    (hsyncing : c.shared.syncing = true) : c.shared.syncDeadline ≠ 0 := by
  refine (settled_of_reachable (fun s => s.syncDeadline ≠ 0) h ?_ hsyncing).resolve_right
    (not_pending_of_noCalls hcalls)
  rintro c t now sent address - hstep -
  exact (Int64.ne_of_lt (hok c _ hstep)).symm

/-- Without calls in progress, a set flag has a deadline and the address of the last peer with which
a sync was started, when no sync is started while another call is still to write its address. -/
theorem settled_of_startsAlone
    (h : (syncThreads T syncTimeout).interleavings.Reachable
      (fun c a => a.2.PositiveDeadline syncTimeout ∧ StartsAlone c a) c)
    (hcalls : NoCalls c) (hsyncing : c.shared.syncing = true) :
    c.shared.syncDeadline ≠ 0 ∧
      ∃ address, c.shared.latest = some address ∧ c.shared.syncPeer = address.text := by
  refine ⟨syncDeadline_ne_zero h (fun _ _ hok => hok.1) hcalls hsyncing, ?_⟩
  refine (settled_of_reachable
    (fun s => ∃ address, s.latest = some address ∧ s.syncPeer = address.text) h ?_
    hsyncing).resolve_right (not_pending_of_noCalls hcalls)
  rintro c t now sent address hreach - ht
  exact ⟨address, latest_of_writeDeadline hreach (fun _ _ hok => hok.2) ht, rfl⟩

end Interleavings

section Examples

/-- A peer at a port of one host. -/
private def peerAt (port : UInt16) : PeerAddress := ⟨addressOf (ascii "10.0.0.1") port, _, _, rfl⟩

/-- A thread starts a sync. -/
private def start {T : Type*} (t : T) (port : UInt16) : T × SyncInput :=
  (t, .call (.syncWithPeer (peerAt port)))

/-- A thread cancels the sync with a peer. -/
private def cancel {T : Type*} (t : T) (port : UInt16) : T × SyncInput :=
  (t, .call (.cancelSyncIfPeer (peerAt port)))

/-- A thread goes on with its call. -/
private def next {T : Type*} (t : T) : T × SyncInput := (t, .next 1000 true)

/-- Two threads start a sync at once, and one of them succeeds. The other cancels that sync and
starts its own. -/
theorem settled_of_startsAlone_two :
    ∃ c, (syncThreads (Fin 2) 30000).run (syncThreads (Fin 2) 30000).start
        [start 0 1, start 1 2, next 0, next 1, next 0, next 0, cancel 1 1, next 1, next 1, next 1,
          start 1 2, next 1, next 1, next 1] = some c ∧
      c.shared.syncDeadline ≠ 0 ∧
      ∃ address, c.shared.latest = some address ∧ c.shared.syncPeer = address.text := by
  let as : List (Fin 2 × SyncInput) :=
    [start 0 1, start 1 2, next 0, next 1, next 0, next 0, cancel 1 1, next 1, next 1, next 1,
      start 1 2, next 1, next 1, next 1]
  have hallows : (syncThreads (Fin 2) 30000).Allows
      (fun c a => a.2.PositiveDeadline 30000 ∧ StartsAlone c a)
      (syncThreads (Fin 2) 30000).start as := by decide
  obtain ⟨c, hc, hcalls, hsyncing⟩ :
      ∃ c, (syncThreads (Fin 2) 30000).run (syncThreads (Fin 2) 30000).start as = some c ∧
        (∀ t, c.place t = .idle) ∧ c.shared.syncing = true := by
    refine ⟨_, rfl, ?_⟩
    decide
  exact ⟨c, hc, settled_of_startsAlone
    (Threads.Program.reachable_of_allows (.init rfl) hallows hc) hcalls hsyncing⟩

/-- Two threads cancel a sync. Between their two resets of the flag a third thread sets it, and
after both of them a fourth one; the third writes its address last. -/
theorem syncPeer_of_overtaken :
    ∃ c, (syncThreads (Fin 4) 30000).interleavings.Reachable
        (fun _ a => a.2.PositiveDeadline 30000) c ∧
      NoCalls c ∧ c.shared.syncing = true ∧
      ¬ (c.shared.syncDeadline ≠ 0 ∧
        ∃ address, c.shared.latest = some address ∧ c.shared.syncPeer = address.text) := by
  let as : List (Fin 4 × SyncInput) :=
    [start 0 1, next 0, next 0, next 0, cancel 0 1, next 0, cancel 1 1, next 1, next 1, next 1,
      start 2 2, next 2, next 0, next 0, start 3 3, next 3, next 3, next 3, next 2, next 2]
  have hok : ∀ a ∈ as, a.2.PositiveDeadline 30000 := by decide
  have hrun : ∃ c, (syncThreads (Fin 4) 30000).run (syncThreads (Fin 4) 30000).start as = some c ∧
      (∀ t, c.place t = .idle) ∧ c.shared.syncing = true ∧
      c.shared.latest = some (peerAt 3) ∧ c.shared.syncPeer ≠ (peerAt 3).text := by
    refine ⟨_, rfl, ?_⟩
    decide
  obtain ⟨c, hc, hcalls, hsyncing, hlatest, hpeer⟩ := hrun
  refine ⟨c, Threads.Program.reachable_run (.init rfl) (fun _ a ha => hok a ha) hc, hcalls,
    hsyncing, ?_⟩
  rintro ⟨-, address, haddress, htext⟩
  rw [hlatest] at haddress
  exact hpeer (Option.some.inj haddress ▸ htext)

end Examples

section Interleavings

variable {T : Type*} [DecidableEq T] {syncTimeout : Int64}
  {ok : SyncConfig T → T × SyncInput → Prop} {c : SyncConfig T}

/-! ### Unrelated peers -/

/-- The step changes the address and the deadline only if the address is that of the peer, and the
flag only if the sync was started with the peer. -/
def ChangesOnly (peer : PeerAddress) (s s' : SyncState) : Prop :=
  (s'.syncPeer ≠ s.syncPeer ∨ s'.syncDeadline ≠ s.syncDeadline → s.syncPeer = peer.text) ∧
    (s'.syncing ≠ s.syncing → s.latest = some peer)

/-- The address is empty, and then there is no deadline, or it is that of the last sync. -/
def SyncState.Owned (s : SyncState) : Prop :=
  (s.syncPeer = [] ∧ s.syncDeadline = 0) ∨ ∃ peer, s.latest = some peer ∧ s.syncPeer = peer.text

theorem PeerAddress.ext_text {p q : PeerAddress} (h : p.text = q.text) : p = q := by
  cases p
  cases q
  cases h
  rfl

/-- When every sync starts fresh, the address and the calls that cancel belong to the last sync. -/
theorem owned_of_startsFresh
    (h : (syncThreads T syncTimeout).interleavings.Reachable StartsFresh c) :
    c.shared.Owned ∧ ∀ t peer, (c.place t).Cancels (.cancelSyncIfPeer peer) →
      c.shared.latest = some peer := by
  refine Threads.Program.invariant SyncState.Owned
    (fun s place => ∀ peer, place.Cancels (.cancelSyncIfPeer peer) → s.latest = some peer) h
    ⟨.inl ⟨rfl, rfl⟩, fun peer h => h.elim SyncPlace.noConfusion SyncPlace.noConfusion⟩ ?_ ?_
  · rintro c t a ⟨s', place'⟩ hreach hfresh howned hcancels hstep
    have heffect := SyncEffect.of_step hstep
    have ht := hcancels t
    generalize hplace : c.place t = place at heffect ht
    cases heffect with
    | none hnot hnot' hclear =>
      refine ⟨howned, fun peer hpeer => ?_⟩
      rcases hpeer with hpeer | hpeer
      · have hsyncPeer := hclear peer hpeer
        rcases howned with ⟨hnil, -⟩ | ⟨other, hlatest, hother⟩
        · exact absurd (hsyncPeer.symm.trans hnil) peer.text_ne_nil
        · rw [hlatest, PeerAddress.ext_text (hother.symm.trans hsyncPeer)]
      · rw [hpeer] at hnot'
        exact absurd hnot' Bool.noConfusion
    | start address hidle =>
      refine ⟨?_, fun peer hpeer => hpeer.elim SyncPlace.noConfusion SyncPlace.noConfusion⟩
      obtain ⟨hsyncPeer, -⟩ := hfresh address ⟨hplace, hidle⟩
      rcases howned with hempty | ⟨other, -, hother⟩
      · exact .inl hempty
      · rcases hsyncPeer with hnil | haddress
        · exact absurd (hother.symm.trans hnil) other.text_ne_nil
        · exact .inr ⟨address, rfl, haddress⟩
    | write address now sent hinput =>
      refine ⟨.inr ⟨address, ?_, rfl⟩,
        fun peer hpeer => hpeer.elim SyncPlace.noConfusion SyncPlace.noConfusion⟩
      exact latest_of_writeDeadline hreach (fun _ _ hok => hok.alone) hplace
    | clear caller =>
      refine ⟨.inl ⟨rfl, rfl⟩, fun peer hpeer => ht peer (.inl ?_)⟩
      rcases hpeer with hpeer | hpeer
      · exact SyncPlace.noConfusion hpeer
      · rw [SyncPlace.exchange.inj hpeer]
    | reset caller =>
      exact ⟨howned, fun peer hpeer => hpeer.elim SyncPlace.noConfusion SyncPlace.noConfusion⟩
  · rintro c t a ⟨s', place'⟩ - hfresh - hcancels hstep u - peer hu
    have heffect := SyncEffect.of_step hstep
    generalize hplace : c.place t = place at heffect
    cases heffect with
    | start address hidle =>
      exact congrArg some ((hfresh address ⟨hplace, hidle⟩).2.2 u peer hu).symm
    | _ => exact hcancels u peer hu

/-- When every sync starts fresh, a call of `cancelSyncIfPeer` changes nothing that belongs to a
sync with another peer. -/
theorem cancelSyncIfPeer_changesOnly {c' : SyncConfig T} {t : T} {a : SyncInput}
    {peer : PeerAddress}
    (h : (syncThreads T syncTimeout).interleavings.Reachable StartsFresh c)
    (hcall : (c.place t).call = some (.cancelSyncIfPeer peer))
    (hstep : (syncThreads T syncTimeout).advance c (t, a) = some c') :
    ChangesOnly peer c.shared c'.shared := by
  obtain ⟨howned, hcancels⟩ := owned_of_startsFresh h
  obtain ⟨⟨s', place'⟩, hr, rfl⟩ := Threads.Program.advance_eq_some_iff.mp hstep
  have heffect := SyncEffect.of_step hr
  have ht := hcancels t peer
  generalize c.place t = place at heffect ht hcall
  cases heffect with
  | none hnot hnot' hclear =>
    exact ⟨fun h => (h.elim (absurd rfl) (absurd rfl)), fun h => absurd rfl h⟩
  | start address hidle => exact absurd (Option.some.inj hcall) SyncCall.noConfusion
  | write address now sent hinput => exact absurd (Option.some.inj hcall) SyncCall.noConfusion
  | clear caller =>
    obtain rfl := Option.some.inj hcall
    refine ⟨fun hchange => ?_, fun h => absurd rfl h⟩
    rcases howned with ⟨hnil, hzero⟩ | ⟨other, hlatest, hother⟩
    · exact absurd hchange (by simp [hnil, hzero])
    · rw [hother, Option.some.inj (hlatest.symm.trans (ht (.inl rfl)))]
  | reset caller =>
    obtain rfl := Option.some.inj hcall
    exact ⟨fun h => (h.elim (absurd rfl) (absurd rfl)), fun _ => ht (.inr rfl)⟩

end Interleavings

section Examples

/-- A thread starts a sync. Another one calls `cancelSyncIfPeer` for a peer without a part in it,
and later for its peer. -/
theorem cancelSyncIfPeer_changesOnly_two :
    (∃ c c', (syncThreads (Fin 2) 30000).run (syncThreads (Fin 2) 30000).start
        [start 0 1, next 0, next 0, cancel 1 2] = some c ∧
      (syncThreads (Fin 2) 30000).advance c (next 1) = some c' ∧
      ChangesOnly (peerAt 2) c.shared c'.shared) ∧
    ∃ c c', (syncThreads (Fin 2) 30000).run (syncThreads (Fin 2) 30000).start
        [start 0 1, next 0, next 0, cancel 1 2, next 1, next 0, cancel 1 1, next 1] = some c ∧
      (syncThreads (Fin 2) 30000).advance c (next 1) = some c' ∧
      c'.shared.syncPeer ≠ c.shared.syncPeer ∧ ChangesOnly (peerAt 1) c.shared c'.shared := by
  have hallows : (syncThreads (Fin 2) 30000).Allows StartsFresh
        (syncThreads (Fin 2) 30000).start [start 0 1, next 0, next 0, cancel 1 2] ∧
      (syncThreads (Fin 2) 30000).Allows StartsFresh (syncThreads (Fin 2) 30000).start
        [start 0 1, next 0, next 0, cancel 1 2, next 1, next 0, cancel 1 1, next 1] := by decide
  refine ⟨⟨_, _, rfl, rfl, cancelSyncIfPeer_changesOnly (t := 1) (a := (next 1).2) ?_ rfl rfl⟩,
    ⟨_, _, rfl, rfl, by decide,
      cancelSyncIfPeer_changesOnly (t := 1) (a := (next 1).2) ?_ rfl rfl⟩⟩
  · exact Threads.Program.reachable_of_allows (.init rfl) hallows.1 rfl
  · exact Threads.Program.reachable_of_allows (.init rfl) hallows.2 rfl

/-- Between the comparison and the clearing section of a thread, another one ends the sync and a
third one starts a sync with another peer, which loses its address and its deadline and then the
flag. -/
theorem cancelSyncIfPeer_overtaken :
    ∃ c c' c'', (syncThreads (Fin 3) 30000).interleavings.Reachable (fun _ _ => True) c ∧
      (c.place 0).call = some (.cancelSyncIfPeer (peerAt 1)) ∧
      (c'.place 0).call = some (.cancelSyncIfPeer (peerAt 1)) ∧
      (syncThreads (Fin 3) 30000).advance c (next 0) = some c' ∧
      (syncThreads (Fin 3) 30000).advance c' (next 0) = some c'' ∧
      c.shared = ⟨true, (peerAt 2).text, 31000, some (peerAt 2)⟩ ∧ c''.shared.syncing = false ∧
      ¬ ChangesOnly (peerAt 1) c.shared c'.shared ∧
      ¬ ChangesOnly (peerAt 1) c'.shared c''.shared := by
  let as : List (Fin 3 × SyncInput) :=
    [start 0 1, next 0, next 0, next 0, cancel 0 1, next 0, cancel 1 1, next 1, next 1, next 1,
      start 2 2, next 2, next 2, next 2]
  refine ⟨_, _, _, Threads.Program.reachable_run (.init rfl) (fun _ _ _ => trivial)
      (rfl : (syncThreads (Fin 3) 30000).run _ as = some _),
    rfl, rfl, rfl, rfl, rfl, rfl, fun h => ?_, fun h => ?_⟩
  · exact absurd (h.1 (.inl (by decide))) (by decide)
  · exact absurd (h.2 (by decide)) (by decide)

end Examples

end p2p

end BlockchainCrypto
