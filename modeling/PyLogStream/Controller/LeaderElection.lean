import PyLogStream.Lib.Run

/-!
The election among controllers (`_run_election`, `_on_leader_gone` and
`watch_exists`). ZooKeeper holds at most one node at the controller path; it deletes
the node when the session of its owner ends, and fires each watch once on the next
change. A controller that wins sets a flag of its own and holds no watch, so it does
not learn that its session has expired.
-/

namespace PyLogStream
open Lib

/-- Where a controller is in `_run_election`. -/
inductive ElectionPhase where
  /-- The lock is free. -/
  | idle
  /-- `create_ephemeral` is on its way. -/
  | creating
  /-- The node was created. -/
  | won
  /-- The node exists already. -/
  | beaten
  /-- The flag is cleared; the watch comes next. -/
  | following
  deriving DecidableEq, Repr

structure Candidate where
  /-- `start` has been called. -/
  launched : Bool
  /-- `start` has returned. -/
  started : Bool
  stopped : Bool
  isLeader : Bool
  phase : ElectionPhase
  /-- Elections that wait for the lock. -/
  waiting : Nat
  watching : Bool
  /-- Calls of `_on_leader_gone` that are scheduled. -/
  callbacks : Nat
  deriving DecidableEq, Repr

/-- A controller before `start`; the flag is set from the beginning. -/
def Candidate.new : Candidate := ⟨false, false, false, true, .idle, 0, false, 0⟩

structure ElectionState where
  /-- The controller whose session owns the node. -/
  owner : Option Nat
  candidates : Nat → Candidate

inductive ElectionEvent where
  /-- `start` comes to the election. -/
  | launch (i : Nat)
  /-- An election gets the lock. -/
  | lock (i : Nat)
  /-- ZooKeeper executes `create`. -/
  | create (i : Nat)
  /-- The controller learns the outcome. -/
  | decide (i : Nat)
  | watch (i : Nat)
  /-- `_on_leader_gone` runs up to the election. -/
  | gone (i : Nat)
  /-- The session expires; the process goes on. -/
  | expire (i : Nat)
  /-- `close`: the session ends with the process. -/
  | stop (i : Nat)
  deriving DecidableEq, Repr

namespace ElectionState

def new : ElectionState := ⟨none, fun _ => .new⟩

def setCandidate (s : ElectionState) (i : Nat) (c : Candidate) : ElectionState :=
  { s with candidates := Function.update s.candidates i c }

/-- The node changes: every watch fires. -/
def changeNode (s : ElectionState) (owner : Option Nat) : ElectionState :=
  { owner
    candidates := fun i =>
      let c := s.candidates i
      if c.watching then { c with watching := false, callbacks := c.callbacks + 1 } else c }

/-- The session of the controller ends. -/
def endSession (s : ElectionState) (i : Nat) : ElectionState :=
  if s.owner = some i then s.changeNode none else s

def step (s : ElectionState) : ElectionEvent → ElectionState
  | .launch i =>
    let c := s.candidates i
    if c.launched ∨ c.stopped then s
    else s.setCandidate i { c with launched := true, waiting := c.waiting + 1 }
  | .lock i =>
    let c := s.candidates i
    if c.phase = .idle ∧ 0 < c.waiting ∧ ¬ c.stopped then
      s.setCandidate i { c with phase := .creating, waiting := c.waiting - 1 }
    else s
  | .create i =>
    let c := s.candidates i
    if c.phase = .creating then
      match s.owner with
      | none => (s.setCandidate i { c with phase := .won }).changeNode (some i)
      | some _ => s.setCandidate i { c with phase := .beaten }
    else s
  | .decide i =>
    let c := s.candidates i
    match c.phase with
    | .won => s.setCandidate i { c with isLeader := true, phase := .idle, started := true }
    | .beaten => s.setCandidate i { c with isLeader := false, phase := .following }
    | _ => s
  | .watch i =>
    let c := s.candidates i
    if c.phase = .following then
      s.setCandidate i { c with watching := true, phase := .idle, started := true }
    else s
  | .gone i =>
    let c := s.candidates i
    if 0 < c.callbacks ∧ ¬ c.stopped then
      s.setCandidate i
        { c with callbacks := c.callbacks - 1, isLeader := false, waiting := c.waiting + 1 }
    else s
  | .expire i => s.endSession i
  | .stop i =>
    (s.setCandidate i { s.candidates i with stopped := true, phase := .idle }).endSession i

def advance (s : ElectionState) (e : ElectionEvent) : ElectionState × Unit := (s.step e, ())

/-- A started controller whose flag is set. -/
def Leads (s : ElectionState) (i : Nat) : Prop :=
  (s.candidates i).started = true ∧ (s.candidates i).stopped = false ∧
    (s.candidates i).isLeader = true

instance (s : ElectionState) (i : Nat) : Decidable (s.Leads i) :=
  inferInstanceAs (Decidable (_ ∧ _))

/-- A session expires only if its controller neither leads nor is about to. -/
def ExpiresIdle (s : ElectionState) : ElectionEvent → Prop
  | .expire i => ¬ s.Leads i ∧ (s.candidates i).phase ≠ .won
  | _ => True

instance (s : ElectionState) (e : ElectionEvent) : Decidable (s.ExpiresIdle e) :=
  match e with
  | .expire i => inferInstanceAs (Decidable (¬ s.Leads i ∧ (s.candidates i).phase ≠ .won))
  | .launch _ | .lock _ | .create _ | .decide _ | .watch _ | .gone _ | .stop _ => isTrue trivial

/-- Who leads, or has won, owns the node; who follows has cleared its flag. -/
structure LeadersOk (s : ElectionState) : Prop where
  owner : ∀ i, s.Leads i ∨ (s.candidates i).phase = .won → s.owner = some i
  follower : ∀ i, (s.candidates i).phase = .following → (s.candidates i).isLeader = false

section
variable {s : ElectionState}

/-- A controller changes and claims no more than before. -/
theorem LeadersOk.setCandidate (ok : s.LeadersOk) {i : Nat} {c : Candidate}
    (h : (c.started = true ∧ c.stopped = false ∧ c.isLeader = true) ∨ c.phase = .won →
      s.Leads i ∨ (s.candidates i).phase = .won)
    (hfollower : c.phase = .following → c.isLeader = false) : (s.setCandidate i c).LeadersOk := by
  constructor
  · intro j hj
    simp only [Leads, ElectionState.setCandidate, Function.update_apply] at hj
    split at hj
    · next heq => exact heq ▸ ok.owner i (h hj)
    · exact ok.owner j hj
  · intro j
    simp only [ElectionState.setCandidate, Function.update_apply]
    split
    · exact hfollower
    · exact ok.follower j

/-- The watches do not touch the flags. -/
theorem changeNode_flags (owner : Option Nat) (i : Nat) :
    ((s.changeNode owner).Leads i ↔ s.Leads i) ∧
      ((s.changeNode owner).candidates i).phase = (s.candidates i).phase ∧
      ((s.changeNode owner).candidates i).isLeader = (s.candidates i).isLeader := by
  simp only [Leads, changeNode]
  split
  · exact ⟨Iff.rfl, rfl, rfl⟩
  · exact ⟨Iff.rfl, rfl, rfl⟩

theorem LeadersOk.changeNode (ok : s.LeadersOk) {owner : Option Nat}
    (h : ∀ i, s.Leads i ∨ (s.candidates i).phase = .won → owner = some i) :
    (s.changeNode owner).LeadersOk := by
  constructor
  · intro i hi
    rw [(changeNode_flags owner i).1, (changeNode_flags owner i).2.1] at hi
    exact h i hi
  · intro i hi
    rw [(changeNode_flags owner i).2.1] at hi
    rw [(changeNode_flags owner i).2.2]
    exact ok.follower i hi

/-- If nobody owns the node, nobody else claims it, and it may be created. -/
theorem LeadersOk.create (ok : s.LeadersOk) (hfree : s.owner = none) (i : Nat) :
    ((s.setCandidate i { s.candidates i with phase := .won }).changeNode (some i)).LeadersOk := by
  have hnobody : ∀ j, ¬ (s.Leads j ∨ (s.candidates j).phase = .won) := by
    intro j hj
    rw [ok.owner j hj] at hfree
    cases hfree
  constructor
  · intro j hj
    rw [(changeNode_flags _ j).1, (changeNode_flags _ j).2.1] at hj
    by_cases hji : j = i
    · exact congrArg some hji.symm
    · simp only [Leads, ElectionState.setCandidate, Function.update_apply, if_neg hji] at hj
      exact absurd hj (hnobody j)
  · intro j hj
    rw [(changeNode_flags _ j).2.1] at hj
    rw [(changeNode_flags _ j).2.2]
    by_cases hji : j = i
    · simp [ElectionState.setCandidate, hji] at hj
    · simp only [ElectionState.setCandidate, Function.update_apply, if_neg hji] at hj ⊢
      exact ok.follower j hj

theorem LeadersOk.endSession (ok : s.LeadersOk) {i : Nat}
    (h : ¬ s.Leads i ∧ (s.candidates i).phase ≠ .won) : (s.endSession i).LeadersOk := by
  simp only [ElectionState.endSession]
  split
  · next howner =>
      refine ok.changeNode fun j hj => ?_
      have hij : j = i := Option.some.inj ((ok.owner j hj).symm.trans howner)
      subst hij
      exact (hj.elim h.1 h.2).elim
  · exact ok

theorem LeadersOk.step (ok : s.LeadersOk) {e : ElectionEvent} (h : s.ExpiresIdle e) :
    (s.step e).LeadersOk := by
  cases e with
  | launch i =>
      simp only [ElectionState.step]
      split
      · exact ok
      · exact ok.setCandidate id (ok.follower i)
  | lock i =>
      simp only [ElectionState.step]
      split
      · exact ok.setCandidate (fun hc => hc.elim Or.inl (by simp)) (by simp)
      · exact ok
  | create i =>
      simp only [ElectionState.step]
      split
      · split
        · next hfree => exact ok.create hfree i
        · exact ok.setCandidate (fun hc => hc.elim Or.inl (by simp)) (by simp)
      · exact ok
  | decide i =>
      simp only [ElectionState.step]
      split
      · next hwon => exact ok.setCandidate (fun _ => Or.inr hwon) (by simp)
      · exact ok.setCandidate (fun hc => hc.elim
          (fun hleads => absurd hleads.2.2 (by simp)) (by simp)) fun _ => rfl
      · exact ok
  | watch i =>
      simp only [ElectionState.step]
      split
      · next hphase =>
          -- a follower has cleared its flag before it counts as started
          have hflag := ok.follower i hphase
          refine ok.setCandidate (fun hc => hc.elim (fun hleads => ?_) (by simp)) (by simp)
          rw [hleads.2.2] at hflag
          cases hflag
      · exact ok
  | gone i =>
      simp only [ElectionState.step]
      split
      · exact ok.setCandidate (fun hc => hc.elim (fun hleads => absurd hleads.2.2 (by simp)) Or.inr)
          fun _ => rfl
      · exact ok
  | expire i => exact ok.endSession h
  | stop i =>
      have hstopped : (s.setCandidate i
          { s.candidates i with stopped := true, phase := .idle }).LeadersOk :=
        ok.setCandidate (fun hc => hc.elim
          (fun hleads => absurd hleads.2.1 (by simp)) (by simp)) (by simp)
      refine hstopped.endSession ⟨?_, ?_⟩
      · rintro ⟨-, hnot, -⟩
        simp [ElectionState.setCandidate] at hnot
      · simp [ElectionState.setCandidate]

theorem leadersOk_new : new.LeadersOk := by
  constructor
  · intro i hi
    simp [Leads, new, Candidate.new] at hi
  · intro i hi
    simp [new, Candidate.new] at hi

end

/-- If no session of a leading controller expires while it runs, at most one started
controller has its flag set. -/
theorem at_most_one_leads (events : List ElectionEvent)
    (idle : MeetsAll advance ExpiresIdle new events) (i j : Nat)
    (hi : (run advance new events).Leads i) (hj : (run advance new events).Leads j) : i = j := by
  have ok : (run advance new events).LeadersOk :=
    idle.invariant LeadersOk (fun s e ok h => ok.step h) leadersOk_new
  exact Option.some.inj ((ok.owner i (Or.inl hi)).symm.trans (ok.owner j (Or.inl hj)))

/-- One controller wins; another one finds the node and watches it. -/
def leaderAndFollower : List ElectionEvent :=
  [.launch 0, .lock 0, .create 0, .decide 0,
    .launch 1, .lock 1, .create 1, .decide 1, .watch 1]

/-- The watch has fired, and the follower wins the next election. -/
def takeover : List ElectionEvent := [.gone 1, .lock 1, .create 1, .decide 1]

/-- The old leader is closed: only the follower leads. -/
theorem at_most_one_leads_takeover :
    (run advance new (leaderAndFollower ++ .stop 0 :: takeover)).Leads 1 ∧
      ∀ i, (run advance new (leaderAndFollower ++ .stop 0 :: takeover)).Leads i → i = 1 := by
  have hleads : (run advance new (leaderAndFollower ++ .stop 0 :: takeover)).Leads 1 := by
    decide +kernel
  exact ⟨hleads, fun i hi => at_most_one_leads _ (by decide +kernel) i 1 hi hleads⟩

/-- The session of the leader expires: the follower wins, and the old leader goes on. -/
theorem two_leaders :
    (run advance new (leaderAndFollower ++ .expire 0 :: takeover)).Leads 0 ∧
      (run advance new (leaderAndFollower ++ .expire 0 :: takeover)).Leads 1 := by
  decide +kernel

end ElectionState
end PyLogStream
