import BlockchainCrypto.Network.Dialling

/-!
# The connections that are left

Two nodes that dial each other are left with exactly one connection, unless both acceptors have
answered before either dialler has read the answer: then each node may remove the connection it
dialled, and none is left. While no dialled connection is read as the end of the other one arrives,
the phases of the two connections fit together.

## Main definitions

* `p2p.Phase.Step`: the moves between phases.
* `p2p.Phase.Fits`, `p2p.Phase.Lost`: phases that keep a connection, and phases that give it up.

## Main results

* `p2p.fitting_of_reachable`, `p2p.phases_of_reachable`: the phases of the two connections fit
  together until there is a crossing.
* `p2p.one_connection_iff`: when exactly one connection is left.
-/

namespace BlockchainCrypto

open ByteText

namespace p2p

/-! ### Phases that fit together -/

namespace Phase

/-- The steps of a connection next to one in phase `q`. -/
inductive Step (q : Phase) : Phase → Action → Phase → Prop
  | find (h : q.acceptorKnows = true) : Step q called .check skipped
  | miss (h : q.acceptorKnows = false) : Step q called .check checked
  | connect : Step q checked .connect (offered false false)
  | insertOffered (accepted : Bool) :
      Step q (offered false accepted) .insert (offered true accepted)
  | insertAnswered : Step q (answered false) .insert (answered true)
  | insertRefused : Step q (refused false) .insert (refused true)
  | accept (inserted : Bool) : Step q (offered inserted false) .accept (offered inserted true)
  | refuse (inserted : Bool) (h : q = established) :
      Step q (offered inserted true) .toAcceptor (refused inserted)
  | answer (inserted : Bool) (h : q ≠ established) :
      Step q (offered inserted true) .toAcceptor (answered inserted)
  | withdraw (h : q.acceptorKnows = true) : Step q (answered true) .toDialler withdrawn
  | establish (h : q.acceptorKnows = false) : Step q (answered true) .toDialler established
  | drop : Step q (refused true) .toDialler dropped
  | close : Step q withdrawn .toAcceptor gone

variable {p q p' : Phase} {act : Action}

theorem step_of_next (h : p.next q act = some p') : Step q p act p' := by
  unfold next at h
  split at h
  · split_ifs at h with hq <;> cases h
    · exact .find hq
    · exact .miss (Bool.not_eq_true _ ▸ hq)
  · cases h; exact .connect
  · cases h; exact .insertOffered _
  · cases h; exact .insertAnswered
  · cases h; exact .insertRefused
  · cases h; exact .accept _
  · split_ifs at h with hq <;> cases h
    · exact .refuse _ hq
    · exact .answer _ hq
  · split_ifs at h with hq <;> cases h
    · exact .withdraw hq
    · exact .establish (Bool.not_eq_true _ ▸ hq)
  · cases h; exact .drop
  · cases h; exact .close
  · cases h

/-- What a phase says of the phase `q` of the other connection. -/
def Fits (p q : Phase) : Prop :=
  match p with
  | refused _ | dropped => q = established
  | established => q.acceptorKnows = false
  | skipped | withdrawn | gone => (∃ inserted, q = answered inserted) ∨ q = established
  | _ => True

/-- The dialler has withdrawn the connection. -/
def Lost (p : Phase) : Prop := p = withdrawn ∨ p = gone

/-- A step keeps the phases fitting unless both connections are withdrawn. -/
theorem fits_next (hp : p.Fits q) (hq : q.Fits p) (h : p.next q act = some p')
    (hcross : act = .toDialler → q ≠ withdrawn) : p'.Fits q ∧ q.Fits p' := by
  cases step_of_next h with
  -- a connection that was withdrawn before fits with no call that is still at its test
  | find hknows => cases q <;> simp_all [Fits, acceptorKnows]
  | refuse inserted hest => cases hest; exact ⟨rfl, rfl⟩
  | _ => cases q <;> simp_all [Fits, acceptorKnows]

/-- After a step on the crossing both connections are withdrawn. -/
theorem lost_next_of_crossing (hp : p.Fits withdrawn) (h : p.next withdrawn .toDialler = some p') :
    p'.Lost := by
  cases step_of_next h with
  | withdraw hknows => exact .inl rfl
  | establish hknows => cases hknows
  | drop => cases hp

theorem lost_next (hp : p.Lost) (h : p.next q act = some p') : p'.Lost := by
  obtain rfl | rfl := hp
  · cases step_of_next h with
    | close => exact .inr rfl
  · cases step_of_next h

/-- A connection on which nothing can happen any more is either established or in no map. -/
theorem terminal_cases (h : ∀ act, p.next q act = none) :
    p = skipped ∨ p = dropped ∨ p = established ∨ p = gone := by
  cases p with
  | called => exact absurd (h .check) (by simp [next])
  | checked => exact absurd (h .connect) (by simp [next])
  | offered inserted accepted =>
    cases accepted with
    | false => exact absurd (h .accept) (by cases inserted <;> simp [next])
    | true => exact absurd (h .toAcceptor) (by cases inserted <;> simp [next])
  | answered inserted =>
    cases inserted with
    | false => exact absurd (h .insert) (by simp [next])
    | true => exact absurd (h .toDialler) (by simp [next])
  | refused inserted =>
    cases inserted with
    | false => exact absurd (h .insert) (by simp [next])
    | true => exact absurd (h .toDialler) (by simp [next])
  | withdrawn => exact absurd (h .toAcceptor) (by simp [next])
  | skipped => exact .inl rfl
  | dropped => exact .inr (.inl rfl)
  | established => exact .inr (.inr (.inl rfl))
  | gone => exact .inr (.inr (.inr rfl))

theorem not_answered_of_terminal (h : ∀ act, p.next q act = none) :
    ¬ ∃ inserted, p = answered inserted := by
  rintro ⟨inserted, rfl⟩
  simpa using terminal_cases h

/-- When nothing can happen any more, one of two fitting connections is established. -/
theorem established_of_terminal (hp : p.Fits q) (hq : q.Fits p) (hpend : ∀ act, p.next q act = none)
    (hqend : ∀ act, q.next p act = none) :
    (p = established ∧ q ≠ established) ∨ (q = established ∧ p ≠ established) := by
  by_cases hest : p = established
  · subst hest
    refine .inl ⟨rfl, ?_⟩
    rintro rfl
    cases hp
  · refine .inr ⟨?_, hest⟩
    obtain rfl | rfl | rfl | rfl := terminal_cases hpend
    · exact hp.resolve_left (not_answered_of_terminal hqend)
    · exact hp
    · exact absurd rfl hest
    · exact hp.resolve_left (not_answered_of_terminal hqend)

end Phase

/-! ### Runs -/

section Runs

variable {setup : Side → Endpoint}

theorem close_mem_toAcceptor (q : Phase) (x : Side) :
    Packet.close ∈ (q.conn setup x).toAcceptor ↔ q = .withdrawn := by
  cases q <;> simp [Phase.conn]

/-- A step on one connection leaves the other one alone. -/
theorem update_worldOf (p : Side → Phase) (x : Side) (p' : Phase) :
    Function.update (worldOf setup p) x (p'.conn setup x) =
      worldOf setup (Function.update p x p') := by
  funext y
  by_cases h : y = x
  · subst h
    simp [worldOf]
  · simp [worldOf, h]

/-- Phases that fit together. -/
def Fitting (p : Side → Phase) : Prop := ∀ x, (p x).Fits (p x.other)

/-- Both diallers have withdrawn. -/
def BothLost (p : Side → Phase) : Prop := ∀ x, (p x).Lost

variable (hid : (setup .A).nodeId ≠ (setup .B).nodeId) {p : Side → Phase} {x : Side} {w : World}
  {act : Action}

include hid in
/-- A step of the threads is a step of a phase. -/
theorem phase_of_step (h : (dialling setup).step (worldOf setup p) (x, act) w) :
    ∃ p', (p x).next (p x.other) act = some p' ∧ w = worldOf setup (Function.update p x p') := by
  obtain ⟨c, hrun, rfl⟩ := h
  rw [show (worldOf setup p) x = (p x).conn setup x from rfl,
    show (worldOf setup p) x.other = (p x.other).conn setup x.other from rfl,
    run_eq_next hid x (p x) (p x.other) act] at hrun
  obtain ⟨p', hnext, rfl⟩ := Option.map_eq_some_iff.mp hrun
  exact ⟨p', hnext, update_worldOf p x p'⟩

theorem forall_side {P : Side → Prop} (x : Side) (hx : P x) (hother : P x.other) (y : Side) :
    P y := by
  cases x <;> cases y <;> assumption

theorem fitting_update {p' : Phase} (hp : Fitting p) (h : (p x).next (p x.other) act = some p')
    (hcross : act = .toDialler → p x.other ≠ .withdrawn) : Fitting (Function.update p x p') := by
  have hother := hp x.other
  rw [Side.other_other] at hother
  obtain ⟨hfits, hfits'⟩ := Phase.fits_next (hp x) hother h hcross
  refine forall_side x ?_ ?_
  · simpa using hfits
  · simpa using hfits'

theorem bothLost_update {p' : Phase} (hp' : p'.Lost) (hother : (p x.other).Lost) :
    BothLost (Function.update p x p') := by
  refine forall_side x ?_ ?_
  · simpa using hp'
  · simpa using hother

include hid in
/-- In a run without a crossing the phases fit together. -/
theorem fitting_of_reachable (h : (dialling setup).Reachable NoCrossing w) :
    ∃ p, w = worldOf setup p ∧ Fitting p := by
  refine h.invariant (fun w => ∃ p, w = worldOf setup p ∧ Fitting p) ?_ ?_
  · rintro w rfl
    exact ⟨fun _ => .called, rfl, fun _ => trivial⟩
  · rintro w ⟨x, act⟩ w' - ⟨p, rfl, hp⟩ hok hstep
    obtain ⟨p', hnext, rfl⟩ := phase_of_step hid hstep
    refine ⟨_, rfl, fitting_update hp hnext fun hact hwithdrawn => hok hact ?_⟩
    exact (close_mem_toAcceptor _ _).mpr hwithdrawn

include hid in
/-- In every run the phases fit together as long as there was no crossing, and afterwards both
connections are lost. -/
theorem phases_of_reachable (h : (dialling setup).Reachable (fun _ _ => True) w) :
    ((dialling setup).Reachable NoCrossing w) ∨ ∃ p, w = worldOf setup p ∧ BothLost p := by
  refine h.invariant (fun w => (dialling setup).Reachable NoCrossing w ∨
    ∃ p, w = worldOf setup p ∧ BothLost p) (fun w hw => .inl (.init hw)) ?_
  rintro w ⟨x, act⟩ w' - (hreach | ⟨p, rfl, hlost⟩) - hstep
  · by_cases hok : NoCrossing w (x, act)
    · exact .inl (.step hreach hok hstep)
    · obtain ⟨p, rfl, hp⟩ := fitting_of_reachable hid hreach
      obtain ⟨hact, hclose⟩ := Classical.not_imp.mp hok
      obtain rfl : act = .toDialler := hact
      have hwithdrawn : p x.other = .withdrawn := by
        exact (close_mem_toAcceptor _ _).mp (not_not.mp hclose)
      obtain ⟨p', hnext, rfl⟩ := phase_of_step hid hstep
      have hfits := hp x
      rw [hwithdrawn] at hnext hfits
      exact .inr ⟨_, rfl, bothLost_update (Phase.lost_next_of_crossing hfits hnext)
        (.inl hwithdrawn)⟩
  · obtain ⟨p', hnext, rfl⟩ := phase_of_step hid hstep
    exact .inr ⟨_, rfl, bothLost_update (Phase.lost_next (hlost x) hnext) (hlost x.other)⟩

theorem not_live_of_lost {q : Phase} (hq : q.Lost) : ¬ (q.conn setup x).Live := by
  obtain rfl | rfl := hq <;> simp [Connection.Live, Phase.conn]

/-- At the end of a run, the connections in the maps of both nodes are the established ones. -/
theorem live_iff_of_terminal {q q' : Phase} (hend : ∀ act, q.next q' act = none) :
    (q.conn setup x).Live ↔ q = .established := by
  obtain rfl | rfl | rfl | rfl := Phase.terminal_cases hend <;>
    simp [Connection.Live, Phase.conn]

include hid in
theorem next_eq_none_of_terminal (h : Terminal setup (worldOf setup p)) (x : Side) (act : Action) :
    (p x).next (p x.other) act = none := by
  have hrun := h x act
  rw [show (worldOf setup p) x = (p x).conn setup x from rfl,
    show (worldOf setup p) x.other = (p x.other).conn setup x.other from rfl,
    run_eq_next hid x (p x) (p x.other) act] at hrun
  exact Option.map_eq_none_iff.mp hrun

include hid in
/-- At the end of a run without a crossing, one of the connections is established and the other one
is in no map. -/
theorem existsUnique_live (hp : Fitting p) (hend : Terminal setup (worldOf setup p)) :
    ∃! x, (worldOf setup p x).Live := by
  have hnone := next_eq_none_of_terminal hid hend
  have hlive (x : Side) : (worldOf setup p x).Live ↔ p x = .established :=
    live_iff_of_terminal (hnone x)
  simp only [hlive]
  obtain ⟨hA, hB⟩ | ⟨hB, hA⟩ :=
    Phase.established_of_terminal (hp .A) (hp .B) (hnone .A) (hnone .B)
  · exact ⟨.A, hA, forall_side .A (fun _ => rfl) fun h => absurd h hB⟩
  · exact ⟨.B, hB, forall_side .B (fun _ => rfl) fun h => absurd h hA⟩

/-- Of two nodes that dial each other, exactly one connection is left at the end if and only if the
run to it has no crossing. -/
theorem one_connection_iff (setup : Side → Endpoint)
    (hid : (setup .A).nodeId ≠ (setup .B).nodeId) (w : World)
    (h : (dialling setup).Reachable (fun _ _ => True) w) (hend : Terminal setup w) :
    (∃! x, (w x).Live) ↔ (dialling setup).Reachable NoCrossing w := by
  constructor
  · rintro ⟨x, hlive, -⟩
    refine (phases_of_reachable hid h).resolve_right ?_
    rintro ⟨p, rfl, hlost⟩
    exact not_live_of_lost (hlost x) hlive
  · intro hreach
    obtain ⟨p, rfl, hp⟩ := fitting_of_reachable hid hreach
    exact existsUnique_live hid hp hend

end Runs

/-! ### Two runs -/

/-- The phases of the connection that the first node dials and of the one that the second dials. -/
def bothPhases (pA pB : Phase) : Side → Phase
  | .A => pA
  | .B => pB

section BothPhases

variable {setup : Side → Endpoint} (hid : (setup .A).nodeId ≠ (setup .B).nodeId)
  {ok : World → Side × Action → Prop} {pA pB : Phase}

include hid in
theorem reachable_A {pA' : Phase} (act : Action)
    (h : (dialling setup).Reachable ok (worldOf setup (bothPhases pA pB)))
    (hok : ok (worldOf setup (bothPhases pA pB)) (.A, act)) (hnext : pA.next pB act = some pA') :
    (dialling setup).Reachable ok (worldOf setup (bothPhases pA' pB)) := by
  refine .step h hok ⟨pA'.conn setup .A, ?_, ?_⟩
  · exact (run_eq_next hid .A pA pB act).trans (congrArg (Option.map _) hnext)
  · funext y
    cases y <;> rfl

include hid in
theorem reachable_B {pB' : Phase} (act : Action)
    (h : (dialling setup).Reachable ok (worldOf setup (bothPhases pA pB)))
    (hok : ok (worldOf setup (bothPhases pA pB)) (.B, act)) (hnext : pB.next pA act = some pB') :
    (dialling setup).Reachable ok (worldOf setup (bothPhases pA pB')) := by
  refine .step h hok ⟨pB'.conn setup .B, ?_, ?_⟩
  · exact (run_eq_next hid .B pB pA act).trans (congrArg (Option.map _) hnext)
  · funext y
    cases y <;> rfl

include hid in
theorem terminal_bothPhases (hA : ∀ act, pA.next pB act = none)
    (hB : ∀ act, pB.next pA act = none) : Terminal setup (worldOf setup (bothPhases pA pB)) := by
  intro x act
  cases x with
  | A => exact (run_eq_next hid .A pA pB act).trans (congrArg (Option.map _) (hA act))
  | B => exact (run_eq_next hid .B pB pA act).trans (congrArg (Option.map _) (hB act))

theorem reachable_called :
    (dialling setup).Reachable ok (worldOf setup (bothPhases .called .called)) := by
  refine .init (funext fun y => ?_)
  cases y <;> rfl

end BothPhases

/-- Two nodes on one host. -/
def localNodes : Side → Endpoint
  | .A => ⟨ascii "127.0.0.1", 8333, 40000, generateNodeId 1 2, 1, by decide, by decide, ⟨1, 2, rfl⟩,
      by decide⟩
  | .B => ⟨ascii "127.0.0.1", 8334, 40001, generateNodeId 3 4, 1, by decide, by decide, ⟨3, 4, rfl⟩,
      by decide⟩

theorem localNodes_nodeId : (localNodes .A).nodeId ≠ (localNodes .B).nodeId := by decide

/-- Both nodes dial at once. The second one answers, and the first one has read the answer before it
reads the handshake of the second one, which it then refuses. -/
theorem reachable_dropped :
    (dialling localNodes).Reachable NoCrossing
      (worldOf localNodes (bothPhases .established .dropped)) := by
  have hid := localNodes_nodeId
  have h : (dialling localNodes).Reachable NoCrossing _ := reachable_called
  have h := reachable_A hid .check h nofun rfl
  have h := reachable_B hid .check h nofun rfl
  have h := reachable_A hid .connect h nofun rfl
  have h := reachable_B hid .connect h nofun rfl
  have h := reachable_A hid .insert h nofun rfl
  have h := reachable_B hid .insert h nofun rfl
  have h := reachable_A hid .accept h nofun rfl
  have h := reachable_B hid .accept h nofun rfl
  have hanswered := reachable_A hid .toAcceptor h nofun rfl
  have hestablished := reachable_A hid .toDialler hanswered (fun _ => by decide) rfl
  have hrefused := reachable_B hid .toAcceptor hestablished nofun rfl
  exact reachable_B hid .toDialler hrefused (fun _ => by decide) rfl

/-- Exactly one connection is left when both nodes dial and the first one is answered in time. -/
theorem one_connection_bothDial :
    ∃! x, (worldOf localNodes (bothPhases .established .dropped) x).Live :=
  (one_connection_iff localNodes localNodes_nodeId _
    (reachable_dropped.mono fun _ _ _ => trivial)
    (terminal_bothPhases localNodes_nodeId (fun act => by cases act <;> rfl)
      fun act => by cases act <;> rfl)).mpr reachable_dropped

/-- Both nodes answer the handshake of the other one, and then both read the answer to their own:
each finds the connection it has accepted and closes the one it dialled. -/
theorem both_connections_lost :
    ∃ w, (dialling localNodes).Reachable (fun _ _ => True) w ∧ Terminal localNodes w ∧
      ¬ ∃! x, (w x).Live := by
  have hid := localNodes_nodeId
  have h : (dialling localNodes).Reachable (fun _ _ => True) _ := reachable_called
  have h := reachable_A hid .check h trivial rfl
  have h := reachable_B hid .check h trivial rfl
  have h := reachable_A hid .connect h trivial rfl
  have h := reachable_B hid .connect h trivial rfl
  have h := reachable_A hid .insert h trivial rfl
  have h := reachable_B hid .insert h trivial rfl
  have h := reachable_A hid .accept h trivial rfl
  have h := reachable_B hid .accept h trivial rfl
  have hanswered := reachable_A hid .toAcceptor h trivial rfl
  have hanswered' := reachable_B hid .toAcceptor hanswered trivial rfl
  have hwithdrawn := reachable_A hid .toDialler hanswered' trivial rfl
  have hwithdrawn' := reachable_B hid .toDialler hwithdrawn trivial rfl
  have hgone := reachable_A hid .toAcceptor hwithdrawn' trivial rfl
  have hgone' := reachable_B hid .toAcceptor hgone trivial rfl
  refine ⟨_, hgone', terminal_bothPhases hid (fun act => by cases act <;> rfl)
    fun act => by cases act <;> rfl, ?_⟩
  rintro ⟨x, hlive, -⟩
  cases x
  · exact not_live_of_lost (.inr rfl) hlive
  · exact not_live_of_lost (.inr rfl) hlive

end p2p

end BlockchainCrypto
