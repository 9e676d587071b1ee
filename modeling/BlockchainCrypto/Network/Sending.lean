import BlockchainCrypto.Network.Framing
import BlockchainCrypto.Network.Receiving
import BlockchainCrypto.Theory.Threads

/-!
# Sending

The receiver, ping, sync and CLI threads all send to the same peer. `Peer::send` writes a frame
under a mutex, in as many pieces as the socket takes, and gives up when the socket reports an error.
So the bytes on the connection are whole frames and at most one frame that has been begun, however
the threads interleave, and the peer on the other side extracts exactly the messages whose sends
have been completed, in their order, when it extracts after each read all that is whole and its
buffer never holds more than the largest frame.

## Main definitions

* `p2p.Wire`, `p2p.SendPlace`, `p2p.sendThreads`: the connection, and the threads that send on it.
* `p2p.SendsFramable`: the messages are within the limits on sender id and payload.
* `p2p.ErrorsLast`: the socket takes nothing more after it has failed within a frame.

## Main results

* `p2p.framed_of_reachable`: whole frames, and the beginning of one.
* `p2p.receives_sent`: what is sent is received.
-/

namespace BlockchainCrypto

open ByteText

namespace p2p

/-! ### Threads that send -/

/-- The sending side of a connection. -/
structure Wire (T : Type*) where
  /-- what the socket has taken -/
  stream : Bytes := []
  sendMutex : Option T := none
  /-- the messages whose sends have returned true; no code reads this -/
  sent : List Message := []
  /-- whether the socket has failed within a frame; no code reads this -/
  broken : Bool := false

/-- Where a thread is: outside of `send`, before the lock, or in the loop, with the number of bytes
that have been sent. -/
inductive SendPlace where
  | idle
  | enter (msg : Message)
  | loop (msg : Message) (data : Bytes) (totalSent : ℕ)

/-- An idle thread may call `send`; another one takes its next step, in the loop with the number of
bytes that the socket takes, or with an error. -/
inductive SendInput where
  | call (msg : Message)
  | next (taken : Option ℕ)

/-- One step of a thread, where `valid` tells whether there is a socket. The exception of
`serialize` and both results release the mutex. -/
def sendStep {T : Type*} (valid : Bool) (t : T) (s : Wire T) :
    SendPlace → SendInput → Option (Wire T × SendPlace)
  | .idle, .call msg => some (s, .enter msg)
  | .enter msg, .next _ =>
    if s.sendMutex.isSome then none
    else if valid = false then some (s, .idle)
    else
      match msg.serialize with
      | none => some (s, .idle)
      | some data => some ({ s with sendMutex := some t }, .loop msg data 0)
  | .loop _ _ totalSent, .next none =>
    some ({ s with sendMutex := none, broken := s.broken || 0 < totalSent }, .idle)
  | .loop msg data totalSent, .next (some taken) =>
    if totalSent + taken < data.length then
      some ({ s with stream := s.stream ++ (data.drop totalSent).take taken },
        .loop msg data (totalSent + taken))
    else if totalSent + taken = data.length then
      some ({ s with
        stream := s.stream ++ (data.drop totalSent).take taken
        sendMutex := none
        sent := s.sent ++ [msg] }, .idle)
    else none
  | _, _ => none

/-- The threads that share a new connection. -/
def sendThreads (T : Type*) (valid : Bool) : Threads.Program (Wire T) T SendPlace SendInput where
  init := {}
  idle := .idle
  step := sendStep valid

variable {T : Type*} [DecidableEq T] {valid : Bool}

/-- The messages are within the limits on sender id and payload. -/
def SendsFramable (a : T × SendInput) : Prop := ∀ msg, a.2 = .call msg → msg.Framable

/-- A socket that has failed within a frame takes nothing more. -/
def ErrorsLast (c : Threads.Config (Wire T) T SendPlace) (a : T × SendInput) : Prop :=
  ∀ taken, a.2 = .next (some taken) → c.shared.broken = true → ∀ msg data totalSent,
    c.place a.1 ≠ .loop msg data totalSent

/-- The messages are within the limits, and errors are last. -/
def SendsCleanly (c : Threads.Config (Wire T) T SendPlace) (a : T × SendInput) : Prop :=
  SendsFramable a ∧ ErrorsLast c a

/-! ### Whole frames -/

theorem stream_concat (sent : List Message) (msg : Message) :
    stream (sent ++ [msg]) = stream sent ++ msg.frame := by
  simp [stream]

/-- The thread that holds the mutex is in the loop, and behind the whole frames there is what it has
sent of its own. -/
structure Framed (c : Threads.Config (Wire T) T SendPlace) : Prop where
  framable : ∀ msg ∈ c.shared.sent, msg.Framable
  enter : ∀ t msg, c.place t = .enter msg → msg.Framable
  loop : ∀ t msg data totalSent, c.place t = .loop msg data totalSent →
    c.shared.sendMutex = some t ∧ msg.Framable ∧ data = msg.frame ∧ totalSent < data.length ∧
      (c.shared.broken = false →
        c.shared.stream = stream c.shared.sent ++ data.take totalSent)
  held : ∀ t, c.shared.sendMutex = some t →
    ∃ msg data totalSent, c.place t = .loop msg data totalSent
  free : c.shared.sendMutex = none → c.shared.broken = false →
    c.shared.stream = stream c.shared.sent
  broken : c.shared.broken = true → ∃ msg n, Message.Framable msg ∧ n < msg.frame.length ∧
    c.shared.stream = stream c.shared.sent ++ msg.frame.take n

/-- The steps of a thread: it calls `send`, gives up before the lock, takes the lock, gives up in
the loop, or has some bytes sent, perhaps the last ones. -/
inductive SendStep (t : T) (s : Wire T) : SendPlace → SendInput → Wire T → SendPlace → Prop
  | call (msg : Message) : SendStep t s .idle (.call msg) s (.enter msg)
  | refuse (msg : Message) (taken : Option ℕ) : SendStep t s (.enter msg) (.next taken) s .idle
  | lock (msg : Message) (taken : Option ℕ) (hfree : s.sendMutex = none) {data : Bytes}
      (hdata : msg.serialize = some data) : SendStep t s (.enter msg) (.next taken)
        { s with sendMutex := some t } (.loop msg data 0)
  | fail (msg : Message) (data : Bytes) (totalSent : ℕ) :
      SendStep t s (.loop msg data totalSent) (.next none)
        { s with sendMutex := none, broken := s.broken || 0 < totalSent } .idle
  | some (msg : Message) (data : Bytes) (totalSent taken : ℕ)
      (hlt : totalSent + taken < data.length) :
      SendStep t s (.loop msg data totalSent) (.next (some taken))
        { s with stream := s.stream ++ (data.drop totalSent).take taken }
        (.loop msg data (totalSent + taken))
  | last (msg : Message) (data : Bytes) (totalSent taken : ℕ)
      (heq : totalSent + taken = data.length) :
      SendStep t s (.loop msg data totalSent) (.next (some taken))
        { s with
          stream := s.stream ++ (data.drop totalSent).take taken
          sendMutex := none
          sent := s.sent ++ [msg] } .idle

omit [DecidableEq T] in
theorem sendStep_cases {t : T} {s s' : Wire T} {place place' : SendPlace} {a : SendInput}
    (h : sendStep valid t s place a = some (s', place')) : SendStep t s place a s' place' := by
  unfold sendStep at h
  split at h
  · obtain ⟨rfl, rfl⟩ := Prod.mk.inj (Option.some.inj h)
    exact .call _
  · split_ifs at h with hlocked
    · obtain ⟨rfl, rfl⟩ := Prod.mk.inj (Option.some.inj h)
      exact .refuse _ _
    · split at h
      · obtain ⟨rfl, rfl⟩ := Prod.mk.inj (Option.some.inj h)
        exact .refuse _ _
      · rename_i data hdata
        obtain ⟨rfl, rfl⟩ := Prod.mk.inj (Option.some.inj h)
        exact .lock _ _ (by simpa using hlocked) hdata
  · obtain ⟨rfl, rfl⟩ := Prod.mk.inj (Option.some.inj h)
    exact .fail _ _ _
  · split_ifs at h with hlt heq
    · obtain ⟨rfl, rfl⟩ := Prod.mk.inj (Option.some.inj h)
      exact .some _ _ _ _ hlt
    · obtain ⟨rfl, rfl⟩ := Prod.mk.inj (Option.some.inj h)
      exact .last _ _ _ _ heq
  · cases h

section Steps

open Threads.Program (move move_place_self move_place_of_ne)

variable {c : Threads.Config (Wire T) T SendPlace} {t : T} {msg : Message} {data : Bytes}
  {totalSent taken : ℕ}

/-- A thread outside of the loop that stays there changes nothing. -/
theorem Framed.outside (h : Framed c) {place' : SendPlace}
    (hplace : ∀ msg data totalSent, c.place t ≠ .loop msg data totalSent)
    (hplace' : ∀ msg data totalSent, place' ≠ .loop msg data totalSent)
    (hmsg : ∀ msg, place' = .enter msg → msg.Framable) :
    Framed (move c t (c.shared, place')) := by
  refine ⟨h.framable, fun u msg hu => ?_, fun u msg data totalSent hu => ?_, fun u hu => ?_,
    h.free, h.broken⟩
  · rcases eq_or_ne u t with rfl | hne
    · rw [move_place_self] at hu
      exact hmsg msg hu
    · rw [move_place_of_ne c hne] at hu
      exact h.enter u msg hu
  · rcases eq_or_ne u t with rfl | hne
    · rw [move_place_self] at hu
      exact absurd hu (hplace' msg data totalSent)
    · rw [move_place_of_ne c hne] at hu
      exact h.loop u msg data totalSent hu
  · obtain ⟨msg, data, totalSent, hloop⟩ := h.held u hu
    have hne : u ≠ t := by
      rintro rfl
      exact hplace msg data totalSent hloop
    exact ⟨msg, data, totalSent, (move_place_of_ne c hne _).trans hloop⟩

omit [DecidableEq T] in
/-- Only the thread that holds the mutex is in the loop. -/
theorem Framed.eq_of_loop (h : Framed c) (hplace : c.place t = .loop msg data totalSent) {u : T}
    {msg' : Message} {data' : Bytes} {totalSent' : ℕ}
    (hu : c.place u = .loop msg' data' totalSent') : u = t :=
  Option.some.inj ((h.loop u msg' data' totalSent' hu).1.symm.trans (h.loop t _ _ _ hplace).1)

/-- A step of the thread that is in the loop, or enters it, keeps the threads outside where they
are. -/
theorem Framed.inside (h : Framed c) {s' : Wire T} {place' : SendPlace}
    (hothers : ∀ u, u ≠ t → ∀ msg data totalSent, c.place u ≠ .loop msg data totalSent)
    (hplace' : ∀ msg, place' ≠ .enter msg) (hframable : ∀ msg ∈ s'.sent, msg.Framable)
    (hloop : ∀ msg data totalSent, place' = .loop msg data totalSent →
      s'.sendMutex = some t ∧ msg.Framable ∧ data = msg.frame ∧ totalSent < data.length ∧
        (s'.broken = false → s'.stream = stream s'.sent ++ data.take totalSent))
    (hheld : ∀ u, s'.sendMutex = some u → u = t ∧ ∃ msg data totalSent,
      place' = .loop msg data totalSent)
    (hfree : s'.sendMutex = none → s'.broken = false → s'.stream = stream s'.sent)
    (hbroken : s'.broken = true → ∃ msg n, Message.Framable msg ∧ n < msg.frame.length ∧
      s'.stream = stream s'.sent ++ msg.frame.take n) :
    Framed (move c t (s', place')) := by
  refine ⟨hframable, fun u msg hu => ?_, fun u msg data totalSent hu => ?_, fun u hu => ?_, hfree,
    hbroken⟩
  · rcases eq_or_ne u t with rfl | hne
    · rw [move_place_self] at hu
      exact absurd hu (hplace' msg)
    · rw [move_place_of_ne c hne] at hu
      exact h.enter u msg hu
  · rcases eq_or_ne u t with rfl | hne
    · rw [move_place_self] at hu
      exact hloop msg data totalSent hu
    · rw [move_place_of_ne c hne] at hu
      exact absurd hu (hothers u hne msg data totalSent)
  · obtain ⟨rfl, hplace⟩ := hheld u hu
    rw [move_place_self]
    exact hplace

omit [DecidableEq T] in
/-- What the thread in the loop has sent, with the bytes that the socket takes next. -/
theorem Framed.stream_append (h : Framed c) (hplace : c.place t = .loop msg data totalSent)
    (hbroken : c.shared.broken = false) :
    c.shared.stream ++ (data.drop totalSent).take taken =
      stream c.shared.sent ++ data.take (totalSent + taken) := by
  rw [(h.loop t _ _ _ hplace).2.2.2.2 hbroken, List.append_assoc, List.take_add]

/-- The steps keep the frames whole. -/
theorem Framed.step (h : Framed c) {a : SendInput} (hok : SendsCleanly c (t, a)) {s' : Wire T}
    {place' : SendPlace} (hstep : SendStep t c.shared (c.place t) a s' place') :
    Framed (move c t (s', place')) := by
  obtain ⟨hcall, herrors⟩ := hok
  generalize hplace : c.place t = place at hstep
  cases hstep with
  | call msg =>
    refine h.outside (fun _ _ _ hloop => ?_) (fun _ _ _ hloop => by cases hloop) fun msg' hmsg => ?_
    · rw [hplace] at hloop
      cases hloop
    · cases hmsg
      exact hcall msg rfl
  | refuse msg taken =>
    refine h.outside (fun _ _ _ hloop => ?_) (fun _ _ _ hloop => by cases hloop)
      fun _ hmsg => by cases hmsg
    rw [hplace] at hloop
    cases hloop
  | @lock msg taken hfree data hdata =>
    have hframable := h.enter t msg hplace
    have hframe := Message.serialize_eq_some hframable.senderId
    rw [hframe] at hdata
    obtain rfl := Option.some.inj hdata
    refine h.inside (fun u _ msg' data' n hu => ?_) (fun _ hmsg => by cases hmsg) h.framable ?_ ?_
      (fun hnone => by cases hnone) h.broken
    · have hheld := (h.loop u msg' data' n hu).1
      rw [hfree] at hheld
      cases hheld
    · rintro _ _ _ ⟨⟩
      refine ⟨rfl, hframable, rfl, ?_, fun hbroken => ?_⟩
      · rw [Message.length_frame]
        exact Nat.add_pos_left (by decide) _
      · rw [List.take_zero, List.append_nil]
        exact h.free hfree hbroken
    · rintro _ ⟨⟩
      exact ⟨rfl, _, _, _, rfl⟩
  | fail msg data totalSent =>
    obtain ⟨-, hframable, rfl, hlt, hstream⟩ := h.loop t _ _ _ hplace
    refine h.inside (fun u hne _ _ _ hu => hne (h.eq_of_loop hplace hu))
      (fun _ hmsg => by cases hmsg) h.framable (fun _ _ _ hloop => by cases hloop)
      (fun _ hheld => by cases hheld)
      (fun _ hbroken => ?_) fun hbroken => ?_
    · obtain ⟨hunbroken, hzero⟩ := Bool.or_eq_false_iff.mp hbroken
      obtain rfl : totalSent = 0 := by simpa using hzero
      simpa using hstream hunbroken
    · cases hunbroken : c.shared.broken with
      | true => exact h.broken hunbroken
      | false => exact ⟨msg, totalSent, hframable, hlt, hstream hunbroken⟩
  | some msg data totalSent taken hlt =>
    have hunbroken : c.shared.broken = false := by
      by_contra hbroken
      exact herrors taken rfl (by simpa using hbroken) _ _ _ hplace
    obtain ⟨hheld, hframable, rfl, -, -⟩ := h.loop t _ _ _ hplace
    refine h.inside (fun u hne _ _ _ hu => hne (h.eq_of_loop hplace hu))
      (fun _ hmsg => by cases hmsg) h.framable ?_ (fun u hu => ?_) (fun hnone => ?_)
      fun hbroken => ?_
    · rintro _ _ _ ⟨⟩
      exact ⟨hheld, hframable, rfl, hlt, fun _ => h.stream_append hplace hunbroken⟩
    · exact ⟨Option.some.inj (hu.symm.trans hheld), _, _, _, rfl⟩
    · exact absurd (hheld.symm.trans hnone) (Option.some_ne_none t)
    · exact absurd (hunbroken.symm.trans hbroken) Bool.false_ne_true
  | last msg data totalSent taken heq =>
    have hunbroken : c.shared.broken = false := by
      by_contra hbroken
      exact herrors taken rfl (by simpa using hbroken) _ _ _ hplace
    obtain ⟨-, hframable, rfl, -, -⟩ := h.loop t _ _ _ hplace
    refine h.inside (fun u hne _ _ _ hu => hne (h.eq_of_loop hplace hu))
      (fun _ hmsg => by cases hmsg)
      (List.forall_mem_append.mpr ⟨h.framable, List.forall_mem_singleton.mpr hframable⟩)
      (fun _ _ _ hloop => by cases hloop) (fun _ hheld => by cases hheld) (fun _ _ => ?_)
      fun hbroken => ?_
    · have hstream : _ ++ (msg.frame.drop totalSent).take taken = _ :=
        h.stream_append hplace hunbroken
      rw [heq, List.take_length] at hstream
      rw [stream_concat]
      exact hstream
    · exact absurd (hunbroken.symm.trans hbroken) Bool.false_ne_true

/-- In every run the connection carries whole frames, and the beginning of at most one. -/
theorem framed_of_reachable (h : (sendThreads T valid).interleavings.Reachable SendsCleanly c) :
    Framed c := by
  refine h.invariant Framed ?_ ?_
  · rintro c rfl
    refine ⟨fun _ hmsg => absurd hmsg List.not_mem_nil, fun _ _ hu => (by cases hu),
      fun _ _ _ _ hu => (by cases hu), fun _ hheld => (by cases hheld), fun _ _ => rfl,
      fun hbroken => (by cases hbroken)⟩
  · rintro c ⟨t, a⟩ c' - ih hok hstep
    obtain ⟨⟨s', place'⟩, hs, rfl⟩ := Threads.Program.advance_eq_some_iff.mp hstep
    exact ih.step hok (sendStep_cases hs)

omit [DecidableEq T] in
/-- Behind the whole frames there is a proper part of a frame. -/
theorem Framed.exists_part (h : Framed c) : ∃ msg n, Message.Framable msg ∧
    n < msg.frame.length ∧ c.shared.stream = stream c.shared.sent ++ msg.frame.take n := by
  cases hbroken : c.shared.broken with
  | true => exact h.broken hbroken
  | false =>
    cases hheld : c.shared.sendMutex with
    | none =>
      refine ⟨⟨.PING, [], [], 0⟩, 0, ⟨Nat.zero_le _, Nat.zero_le _⟩, by decide, ?_⟩
      rw [List.take_zero, List.append_nil]
      exact h.free hheld hbroken
    | some t =>
      obtain ⟨msg, data, n, hplace⟩ := h.held t hheld
      obtain ⟨-, hframable, rfl, hlt, hstream⟩ := h.loop t msg data n hplace
      exact ⟨msg, n, hframable, hlt, hstream hbroken⟩

end Steps

/-! ### The other side -/

theorem next_frame {msg : Message} (h : msg.Framable) (rest : Bytes) :
    frameParser.next (msg.frame ++ rest) = .item msg rest := by
  have hextract := extractMessage_eq (msg.frame ++ rest)
  rw [extractMessage_frame h] at hextract
  split at hextract
  · rename_i hnext
    obtain ⟨hmsg, rfl⟩ := Prod.mk.inj hextract
    obtain rfl := ReceiveStatus.message.inj hmsg
    exact hnext
  · cases hextract
  · cases hextract

theorem next_take_frame {msg : Message} (h : msg.Framable) {n : ℕ} (hn : n < msg.frame.length) :
    frameParser.next (msg.frame.take n) = .wait := by
  have hextract := extractMessage_eq (msg.frame.take n)
  have hshort : (msg.frame.take n).length < msg.frame.length := by
    rw [List.length_take]
    omega
  have hpart := extractMessage_of_prefix h (List.take_prefix n _) hshort
  rw [hpart] at hextract
  split at hextract
  · cases hextract
  · assumption
  · cases hextract

/-- The parser finds the messages of whole frames, and waits for the rest of one more. -/
theorem parse_stream {msgs : List Message} (hmsgs : ∀ msg ∈ msgs, Message.Framable msg)
    {msg : Message} (h : msg.Framable) {n : ℕ} (hn : n < msg.frame.length) :
    frameParser.parse (stream msgs ++ msg.frame.take n) = ⟨msgs, false, msg.frame.take n⟩ := by
  induction msgs with
  | nil => exact StreamParser.parse_of_wait (next_take_frame h hn)
  | cons first msgs ih =>
    obtain ⟨hfirst, hmsgs⟩ := List.forall_mem_cons.mp hmsgs
    rw [stream_cons, List.append_assoc, StreamParser.parse_of_item (next_frame hfirst _), ih hmsgs]

/-- In every interleaving of threads that send messages within the limits, over a socket that takes
nothing more after it has failed within a frame: however the bytes on the connection are cut into
reads that never fill the buffer beyond the largest frame, the other side, when it extracts after
each of them all that is whole, extracts exactly the messages whose sends have returned true, in
their order, and does not close the connection. -/
theorem receives_sent {c : Threads.Config (Wire T) T SendPlace}
    (h : (sendThreads T valid).interleavings.Reachable SendsCleanly c) {chunks : List Bytes}
    (hchunks : Division c.shared.stream chunks) :
    (reads chunks).messages = c.shared.sent ∧ (reads chunks).closed = false := by
  have hframed := framed_of_reachable h
  obtain ⟨msg, n, hframable, hlt, hstream⟩ := hframed.exists_part
  have hreads := hchunks.reads_eq
  rw [hstream, parse_stream hframed.framable hframable hlt] at hreads
  rw [hreads]
  exact ⟨rfl, rfl⟩

/-- A message without payload. -/
def ping : Message := ⟨.PING, [], ascii "n", 0⟩

/-- The answer to it. -/
def pong : Message := ⟨.PONG, [], ascii "n", 0⟩

/-- One thread sends a ping, another one a part of a pong, and then the socket fails. -/
theorem exists_sent_ping : ∃ c : Threads.Config (Wire Bool) Bool SendPlace,
    (sendThreads Bool true).interleavings.Reachable SendsCleanly c ∧
      c.shared.stream = ping.frame ++ pong.frame.take 5 ∧ c.shared.sent = [ping] := by
  have hping : ping.Framable := ⟨by decide, by decide⟩
  have hpong : pong.Framable := ⟨by decide, by decide⟩
  have hnext {c : Threads.Config (Wire Bool) Bool SendPlace} (hsound : c.shared.broken = false)
      (t : Bool) (taken : Option ℕ) : SendsCleanly c (t, .next taken) :=
    ⟨fun _ hcall => (by cases hcall),
      fun _ _ hbroken => absurd (hsound.symm.trans hbroken) Bool.false_ne_true⟩
  have hcall {msg : Message} (hmsg : msg.Framable) (c : Threads.Config (Wire Bool) Bool SendPlace)
      (t : Bool) : SendsCleanly c (t, .call msg) :=
    ⟨fun _ hcall => SendInput.call.inj hcall ▸ hmsg, fun _ htaken => (by cases htaken)⟩
  have hstart : (sendThreads Bool true).interleavings.Reachable SendsCleanly _ := .init rfl
  have hcalled : (sendThreads Bool true).interleavings.Reachable SendsCleanly _ :=
    (hstart.step (hcall hping _ true) rfl).step (hcall hpong _ false) rfl
  have hsent : (sendThreads Bool true).interleavings.Reachable SendsCleanly _ :=
    (hcalled.step (hnext rfl true none) rfl).step (hnext rfl true (some ping.frame.length)) rfl
  have hpart : (sendThreads Bool true).interleavings.Reachable SendsCleanly _ :=
    (hsent.step (hnext rfl false none) rfl).step (hnext rfl false (some 5)) rfl
  exact ⟨_, hpart.step (hnext rfl false none) rfl, by decide, rfl⟩

theorem receives_sent_ping :
    let chunks :=
      [(ping.frame ++ pong.frame.take 5).take 7, (ping.frame ++ pong.frame.take 5).drop 7]
    (reads chunks).messages = [ping] ∧ (reads chunks).closed = false := by
  intro chunks
  obtain ⟨c, hreachable, hstream, hsent⟩ := exists_sent_ping
  have hchunks : Division chunks.flatten chunks := division_of_length_le (by decide) (by decide)
  have hflatten : chunks.flatten = c.shared.stream := hstream ▸ by decide
  rw [← hsent]
  exact receives_sent hreachable (hflatten ▸ hchunks)

end p2p

end BlockchainCrypto
