import PyLogStream.Controller.LeaderElection

/-!
Whether an election can get lost. A running controller has one thing to go on: an election
that waits or runs, a watch, a callback that the watch has scheduled, or the node itself. A
watch that is set when the node is gone already waits for the next node instead, so a
controller that has been beaten is told of the end of the leader only if the leader stays
until the watch is set.
-/

namespace PyLogStream
open Lib
namespace ElectionState

/-- The next step that the controller takes by itself. -/
def own (s : ElectionState) (i : Nat) : ElectionEvent :=
  match (s.candidates i).phase with
  | .idle => if 0 < (s.candidates i).callbacks then .gone i else .lock i
  | .creating => .create i
  | .won | .beaten => .decide i
  | .following => .watch i

def proceed (i : Nat) (s : ElectionState) : ElectionState := s.step (s.own i)

def Running (s : ElectionState) (i : Nat) : Prop :=
  (s.candidates i).launched = true ∧ (s.candidates i).stopped = false

/-- The controller leads, or is about to learn that it does. -/
def Believes (s : ElectionState) (i : Nat) : Prop := s.Leads i ∨ (s.candidates i).phase = .won

def Owns (s : ElectionState) (i : Nat) : Prop := s.Leads i ∧ s.owner = some i

/-- Whoever leads owns the node. When nobody does, every running controller gets it by its
own next steps unless another one is faster. -/
def Electable (s : ElectionState) : Prop :=
  (∀ i, s.Believes i → s.owner = some i) ∧
    (s.owner = none → ∀ i, s.Running i → ∃ n ≤ 4, ((proceed i)^[n] s).Owns i)

/-- No session ends before its process, and no leader is closed while a running controller
has found its node but has not set the watch. -/
def HandsOver (s : ElectionState) : ElectionEvent → Prop
  | .expire j => s.owner ≠ some j
  | .stop j => s.owner = some j → ∀ i, i ≠ j → s.Running i →
      (s.candidates i).phase ≠ .beaten ∧ (s.candidates i).phase ≠ .following
  | _ => True


end ElectionState

/-- What a controller has to go on. -/
def Candidate.tokens (c : Candidate) : Nat :=
  c.waiting + c.callbacks + c.watching.toNat + (if c.phase = .idle then 0 else 1) +
    (c.started && c.isLeader).toNat

structure CandidateOk (c : Candidate) : Prop where
  fresh : c.launched = false → c.tokens = 0 ∧ c.started = false
  running : c.launched = true → c.stopped = false → c.tokens = 1
  follower : c.phase = .following → c.isLeader = false
  stopped : c.stopped = true → c.phase = .idle

/-- A watch that fires becomes a callback. -/
theorem CandidateOk.fire {c : Candidate} (ok : CandidateOk c) (hwatching : c.watching = true) :
    CandidateOk { c with watching := false, callbacks := c.callbacks + 1 } := by
  have hsame : ({ c with watching := false, callbacks := c.callbacks + 1 } : Candidate).tokens =
      c.tokens := by
    simp only [Candidate.tokens, hwatching, Bool.toNat_false, Bool.toNat_true]
    omega
  refine ⟨fun hfresh => ?_, fun hlaunched hlive => ?_, ok.follower, ok.stopped⟩
  · rw [hsame]
    exact ok.fresh hfresh
  · rw [hsame]
    exact ok.running hlaunched hlive

namespace ElectionState

structure TokensOk (s : ElectionState) : Prop where
  candidates : ∀ i, CandidateOk (s.candidates i)
  owner : ∀ i, s.owner = some i → s.Running i ∧ s.Believes i

section
variable {s : ElectionState} {i : Nat}

theorem setCandidate_self (i : Nat) (c : Candidate) : (s.setCandidate i c).candidates i = c :=
  Function.update_self ..

theorem setCandidate_of_ne {j : Nat} (c : Candidate) (h : j ≠ i) :
    (s.setCandidate i c).candidates j = s.candidates j := Function.update_of_ne h ..

theorem proceed_idle (h : (s.candidates i).phase = .idle) (hcallbacks : (s.candidates i).callbacks = 0) :
    proceed i s = s.step (.lock i) := by
  simp [proceed, own, h, hcallbacks]

/-- The node is free, and the controller has nothing left that would bring it on. -/
structure Lost (s : ElectionState) (i : Nat) : Prop where
  owner : s.owner = none
  waiting : (s.candidates i).waiting = 0
  callbacks : (s.candidates i).callbacks = 0
  phase : (s.candidates i).phase = .idle ∧ (s.candidates i).watching = true ∨
    (s.candidates i).phase = .beaten ∨ (s.candidates i).phase = .following

theorem Lost.proceed (lost : s.Lost i) : (proceed i s).Lost i := by
  rcases lost.phase with ⟨hidle, hwatching⟩ | hbeaten | hfollowing
  · rw [proceed_idle hidle lost.callbacks, step, if_neg (by simp [lost.waiting])]
    exact lost
  · simp only [ElectionState.proceed, own, hbeaten, step]
    exact ⟨lost.owner, by simp [setCandidate_self, lost.waiting],
      by simp [setCandidate_self, lost.callbacks], by simp [setCandidate_self]⟩
  · simp only [ElectionState.proceed, own, hfollowing, step, if_pos]
    exact ⟨lost.owner, by simp [setCandidate_self, lost.waiting],
      by simp [setCandidate_self, lost.callbacks], by simp [setCandidate_self]⟩

theorem Lost.not_owns (lost : s.Lost i) (n : Nat) : ¬ ((ElectionState.proceed i)^[n] s).Owns i := by
  induction n generalizing s with
  | zero =>
      rintro ⟨-, howner⟩
      cases lost.owner.symm.trans howner
  | succ n ih =>
      rw [Function.iterate_succ_apply]
      exact ih lost.proceed

/-- A controller whose `create` is on its way gets the free node. -/
theorem creating_owns (hphase : (s.candidates i).phase = .creating)
    (hstopped : (s.candidates i).stopped = false) (howner : s.owner = none) :
    ((proceed i)^[2] s).Owns i := by
  have hcreate : proceed i s =
      (s.setCandidate i { s.candidates i with phase := .won }).changeNode (some i) := by
    simp [proceed, own, hphase, step, howner]
  have hwon : ((proceed i s).candidates i).phase = .won := by
    rw [hcreate, (changeNode_flags _ i).2.1, setCandidate_self]
  have hlive : ((proceed i s).candidates i).stopped = false := by
    rw [hcreate]
    simp only [changeNode, setCandidate_self]
    split <;> exact hstopped
  change (proceed i (proceed i s)).Owns i
  rw [proceed, own, hwon]
  simp only [step, hwon]
  exact ⟨⟨by rw [setCandidate_self], by rw [setCandidate_self]; exact hlive,
    by rw [setCandidate_self]⟩, by rw [hcreate]; rfl⟩

theorem waiting_owns (hphase : (s.candidates i).phase = .idle)
    (hcallbacks : (s.candidates i).callbacks = 0) (hwaiting : 0 < (s.candidates i).waiting)
    (hstopped : (s.candidates i).stopped = false) (howner : s.owner = none) :
    ((proceed i)^[3] s).Owns i := by
  have hlock : proceed i s = s.setCandidate i { s.candidates i with
      phase := .creating, waiting := (s.candidates i).waiting - 1 } := by
    rw [proceed_idle hphase hcallbacks, step]
    exact if_pos ⟨hphase, hwaiting, by simp [hstopped]⟩
  change ((proceed i)^[2] (proceed i s)).Owns i
  rw [hlock]
  exact creating_owns (by rw [setCandidate_self]) (by rw [setCandidate_self]; exact hstopped) howner

theorem called_owns (hphase : (s.candidates i).phase = .idle)
    (hcallbacks : (s.candidates i).callbacks = 1)
    (hstopped : (s.candidates i).stopped = false) (howner : s.owner = none) :
    ((proceed i)^[4] s).Owns i := by
  have hgone : proceed i s = s.setCandidate i { s.candidates i with
      callbacks := (s.candidates i).callbacks - 1, isLeader := false
      waiting := (s.candidates i).waiting + 1 } := by
    simp [proceed, own, hphase, step, hcallbacks, hstopped]
  change ((proceed i)^[3] (proceed i s)).Owns i
  rw [hgone]
  exact waiting_owns (by rw [setCandidate_self]; exact hphase)
    (by rw [setCandidate_self]; simp [hcallbacks]) (by rw [setCandidate_self]; simp)
    (by rw [setCandidate_self]; exact hstopped) howner

/-- Nothing keeps the controller from the free node. -/
def Ready (s : ElectionState) (i : Nat) : Prop :=
  (s.candidates i).watching = false ∧ (s.candidates i).phase ≠ .beaten ∧
    (s.candidates i).phase ≠ .following

theorem TokensOk.owns_iff (ok : s.TokensOk) (howner : s.owner = none) (hrunning : s.Running i)
    (hbelieves : ¬ s.Believes i) : (∃ n ≤ 4, ((proceed i)^[n] s).Owns i) ↔ s.Ready i := by
  have htokens := (ok.candidates i).running hrunning.1 hrunning.2
  have hnot : ((s.candidates i).started && (s.candidates i).isLeader) = false := by
    by_contra h
    rw [Bool.not_eq_false, Bool.and_eq_true] at h
    exact hbelieves (Or.inl ⟨h.1, hrunning.2, h.2⟩)
  rw [Candidate.tokens, hnot, Bool.toNat_false, Nat.add_zero] at htokens
  cases hphase : (s.candidates i).phase with
  | idle =>
      rw [hphase, if_pos rfl, Nat.add_zero] at htokens
      cases hwatching : (s.candidates i).watching with
      | true =>
          rw [hwatching, Bool.toNat_true] at htokens
          have lost : s.Lost i := ⟨howner, by omega, by omega, Or.inl ⟨hphase, hwatching⟩⟩
          refine iff_of_false (fun howns => ?_) fun ready => ?_
          · obtain ⟨n, -, howns⟩ := howns
            exact lost.not_owns n howns
          · cases hwatching.symm.trans ready.1
      | false =>
          rw [hwatching, Bool.toNat_false, Nat.add_zero] at htokens
          refine iff_of_true ?_ ⟨hwatching, by simp [hphase], by simp [hphase]⟩
          by_cases hcallbacks : (s.candidates i).callbacks = 0
          · exact ⟨3, by omega, waiting_owns hphase hcallbacks (by omega) hrunning.2 howner⟩
          · exact ⟨4, by omega, called_owns hphase (by omega) hrunning.2 howner⟩
  | creating =>
      rw [hphase, if_neg (by simp)] at htokens
      have hwatching : (s.candidates i).watching = false := by
        cases h : (s.candidates i).watching with
        | false => rfl
        | true => rw [h, Bool.toNat_true] at htokens; omega
      refine iff_of_true ⟨2, by omega, creating_owns hphase hrunning.2 howner⟩ ?_
      exact ⟨hwatching, by simp [hphase], by simp [hphase]⟩
  | won => exact absurd (Or.inr hphase) hbelieves
  | beaten | following =>
      rw [hphase, if_neg (by simp)] at htokens
      have lost : s.Lost i := ⟨howner, by omega, by omega, by simp [hphase]⟩
      refine iff_of_false (fun howns => ?_) fun ready => ?_
      · obtain ⟨n, -, howns⟩ := howns
        exact lost.not_owns n howns
      · simp [Ready, hphase] at ready

theorem changeNode_ok (ok : ∀ i, CandidateOk (s.candidates i)) (owner : Option Nat) (i : Nat) :
    CandidateOk ((s.changeNode owner).candidates i) := by
  simp only [changeNode]
  split
  · next hwatching => exact (ok i).fire hwatching
  · exact ok i

theorem setCandidate_ok (ok : ∀ i, CandidateOk (s.candidates i)) {c : Candidate}
    (h : CandidateOk c) (j : Nat) : CandidateOk ((s.setCandidate i c).candidates j) := by
  by_cases heq : j = i
  · rw [heq, setCandidate_self]
    exact h
  · rw [setCandidate_of_ne c heq]
    exact ok j

theorem changeNode_running (owner : Option Nat) (i : Nat) :
    (s.changeNode owner).Running i ↔ s.Running i := by
  simp only [Running, changeNode]
  split <;> rfl

theorem changeNode_believes (owner : Option Nat) (i : Nat) :
    (s.changeNode owner).Believes i ↔ s.Believes i := by
  rw [Believes, Believes, (changeNode_flags owner i).1, (changeNode_flags owner i).2.1]

/-- Who believes to lead has nothing else to go on. -/
theorem TokensOk.believes (ok : s.TokensOk) (hrunning : s.Running i) (h : s.Believes i) :
    (s.candidates i).waiting = 0 ∧ (s.candidates i).callbacks = 0 ∧
      (s.candidates i).watching = false ∧
      ((s.candidates i).phase = .idle ∨ (s.candidates i).phase = .won) := by
  have htokens := (ok.candidates i).running hrunning.1 hrunning.2
  have hwatching : ∀ n, n + (s.candidates i).watching.toNat = n → (s.candidates i).watching = false := by
    intro n hn
    cases hw : (s.candidates i).watching with
    | false => rfl
    | true => rw [hw, Bool.toNat_true] at hn; omega
  rw [Candidate.tokens] at htokens
  rcases h with ⟨hstarted, -, hleader⟩ | hwon
  · rw [hstarted, hleader, Bool.and_self, Bool.toNat_true] at htokens
    refine ⟨by omega, by omega, hwatching 0 (by omega), Or.inl ?_⟩
    by_contra hphase
    rw [if_neg hphase] at htokens
    omega
  · rw [hwon, if_neg (by simp)] at htokens
    exact ⟨by omega, by omega, hwatching 0 (by omega), Or.inr hwon⟩

/-- A controller in an election is running. -/
theorem TokensOk.in_election (ok : s.TokensOk) (h : (s.candidates i).phase ≠ .idle) :
    s.Running i := by
  constructor
  · by_contra hnot
    have hzero := ((ok.candidates i).fresh (Bool.not_eq_true _ ▸ hnot)).1
    rw [Candidate.tokens, if_neg h] at hzero
    omega
  · by_contra hnot
    exact h ((ok.candidates i).stopped (Bool.not_eq_false _ ▸ hnot))

/-- The node is as it was and one controller has gone on. -/
theorem TokensOk.setCandidate (ok : s.TokensOk) {c : Candidate} (hc : CandidateOk c)
    (howner : s.owner = some i → s.Running i → s.Believes i →
      (c.launched = true ∧ c.stopped = false) ∧
        ((c.started = true ∧ c.stopped = false ∧ c.isLeader = true) ∨ c.phase = .won)) :
    (s.setCandidate i c).TokensOk := by
  refine ⟨setCandidate_ok ok.candidates hc, fun j hj => ?_⟩
  by_cases heq : j = i
  · subst heq
    obtain ⟨hrunning, hbelieves⟩ := ok.owner j hj
    simp only [Running, Believes, Leads, setCandidate_self]
    exact howner hj hrunning hbelieves
  · simp only [Running, Believes, Leads, setCandidate_of_ne c heq]
    exact ok.owner j hj

theorem TokensOk.changeNode (ok : s.TokensOk) {owner : Option Nat}
    (howner : ∀ j, owner = some j → s.Running j ∧ s.Believes j) : (s.changeNode owner).TokensOk := by
  refine ⟨changeNode_ok ok.candidates owner, fun j hj => ?_⟩
  rw [changeNode_running, changeNode_believes]
  exact howner j hj

theorem TokensOk.launch (ok : s.TokensOk) : (s.step (.launch i)).TokensOk := by
  simp only [step]
  split
  · exact ok
  · next hnot =>
      rw [not_or, Bool.not_eq_true, Bool.not_eq_true] at hnot
      obtain ⟨hzero, hstarted⟩ := (ok.candidates i).fresh hnot.1
      refine ok.setCandidate ⟨by simp, fun _ _ => ?_, (ok.candidates i).follower,
        (ok.candidates i).stopped⟩ fun _ hrunning _ => ?_
      · simp only [Candidate.tokens] at hzero ⊢
        omega
      · cases hnot.1.symm.trans hrunning.1

theorem TokensOk.lock (ok : s.TokensOk) : (s.step (.lock i)).TokensOk := by
  simp only [step]
  split
  · next h =>
      obtain ⟨hidle, hwaiting, hlive⟩ := h
      have hlaunched : (s.candidates i).launched = true := by
        by_contra hnot
        have hzero := ((ok.candidates i).fresh (Bool.not_eq_true _ ▸ hnot)).1
        rw [Candidate.tokens] at hzero
        omega
      have htokens := (ok.candidates i).running hlaunched (Bool.not_eq_true _ ▸ hlive)
      refine ok.setCandidate ⟨fun hfresh => ?_, fun _ _ => ?_, by simp, fun hstopped => ?_⟩
        fun _ hrunning hbelieves => ?_
      · cases hlaunched.symm.trans hfresh
      · simp only [Candidate.tokens, hidle, if_pos] at htokens ⊢
        simp only [reduceCtorEq, if_false]
        omega
      · exact absurd hstopped hlive
      · have := (ok.believes hrunning hbelieves).1
        omega
  · exact ok

theorem TokensOk.create (ok : s.TokensOk) : (s.step (.create i)).TokensOk := by
  simp only [step]
  split
  · next hcreating =>
      have hrunning : s.Running i := ok.in_election (by simp [hcreating])
      have htokens := (ok.candidates i).running hrunning.1 hrunning.2
      have goes : ∀ phase, phase ≠ .idle → phase ≠ .following →
          CandidateOk { s.candidates i with phase } := by
        intro phase hidle hfollowing
        refine ⟨fun hfresh => ?_, fun _ _ => ?_, fun h => absurd h hfollowing, fun hstopped => ?_⟩
        · cases hrunning.1.symm.trans hfresh
        · simpa only [Candidate.tokens, hcreating, reduceCtorEq, if_false, hidle] using htokens
        · cases hrunning.2.symm.trans hstopped
      have hnot : ¬ s.Believes i := fun hbelieves => by
        have := (ok.believes hrunning hbelieves).2.2.2
        simp [hcreating] at this
      split
      · have hset : (s.setCandidate i { s.candidates i with phase := .won }).TokensOk :=
          ok.setCandidate (goes .won (by simp) (by simp)) fun _ _ h => absurd h hnot
        refine hset.changeNode fun j hj => ?_
        obtain rfl := Option.some.inj hj
        simp only [Running, Believes, setCandidate_self]
        exact ⟨hrunning, Or.inr trivial⟩
      · exact ok.setCandidate (goes .beaten (by simp) (by simp)) fun _ _ h => absurd h hnot
  · exact ok

theorem TokensOk.decide (ok : s.TokensOk) : (s.step (.decide i)).TokensOk := by
  simp only [step]
  cases hphase : (s.candidates i).phase with
  | won =>
      have hrunning : s.Running i := ok.in_election (by simp [hphase])
      have htokens := (ok.candidates i).running hrunning.1 hrunning.2
      refine ok.setCandidate ⟨fun hfresh => ?_, fun _ _ => ?_, by simp, fun _ => rfl⟩
        fun _ _ _ => ⟨hrunning, Or.inl ⟨rfl, hrunning.2, rfl⟩⟩
      · cases hrunning.1.symm.trans hfresh
      · simp only [Candidate.tokens, hphase, reduceCtorEq, if_false] at htokens
        simp only [Candidate.tokens, if_true, Bool.and_self, Bool.toNat_true]
        omega
  | beaten =>
      have hrunning : s.Running i := ok.in_election (by simp [hphase])
      have htokens := (ok.candidates i).running hrunning.1 hrunning.2
      refine ok.setCandidate ⟨fun hfresh => ?_, fun _ _ => ?_, fun _ => rfl, fun hstopped => ?_⟩
        fun _ _ hbelieves => ?_
      · cases hrunning.1.symm.trans hfresh
      · simp only [Candidate.tokens, hphase, reduceCtorEq, if_false] at htokens
        simp only [Candidate.tokens, reduceCtorEq, if_false, Bool.and_false, Bool.toNat_false]
        omega
      · cases hrunning.2.symm.trans hstopped
      · have := (ok.believes hrunning hbelieves).2.2.2
        simp [hphase] at this
  | idle | creating | following => exact ok

theorem TokensOk.watch (ok : s.TokensOk) : (s.step (.watch i)).TokensOk := by
  simp only [step]
  split
  · next hphase =>
      have hrunning : s.Running i := ok.in_election (by simp [hphase])
      have htokens := (ok.candidates i).running hrunning.1 hrunning.2
      have hflag := (ok.candidates i).follower hphase
      refine ok.setCandidate ⟨fun hfresh => ?_, fun _ _ => ?_, by simp, fun _ => rfl⟩
        fun _ _ hbelieves => ?_
      · cases hrunning.1.symm.trans hfresh
      · simp only [Candidate.tokens, hphase, reduceCtorEq, if_false] at htokens
        simp only [Candidate.tokens, if_true, hflag, Bool.and_false, Bool.toNat_false, Bool.toNat_true]
        omega
      · have := (ok.believes hrunning hbelieves).2.2.2
        simp [hphase] at this
  · exact ok

theorem TokensOk.gone (ok : s.TokensOk) : (s.step (.gone i)).TokensOk := by
  simp only [step]
  split
  · next h =>
      obtain ⟨hcallbacks, hlive⟩ := h
      have hlaunched : (s.candidates i).launched = true := by
        by_contra hnot
        have hzero := ((ok.candidates i).fresh (Bool.not_eq_true _ ▸ hnot)).1
        rw [Candidate.tokens] at hzero
        omega
      have htokens := (ok.candidates i).running hlaunched (Bool.not_eq_true _ ▸ hlive)
      refine ok.setCandidate ⟨fun hfresh => ?_, fun _ _ => ?_, fun _ => rfl,
        (ok.candidates i).stopped⟩ fun _ hrunning hbelieves => ?_
      · cases hlaunched.symm.trans hfresh
      · simp only [Candidate.tokens] at htokens
        simp only [Candidate.tokens, Bool.and_false, Bool.toNat_false]
        omega
      · have := (ok.believes hrunning hbelieves).2.1
        omega
  · exact ok

theorem TokensOk.endSession (ok : s.TokensOk) (i : Nat) : (s.endSession i).TokensOk := by
  simp only [ElectionState.endSession]
  split
  · exact ok.changeNode fun j hj => by cases hj
  · exact ok

theorem stopped_ok {c : Candidate} (ok : CandidateOk c) :
    CandidateOk { c with stopped := true, phase := .idle } := by
  refine ⟨fun hfresh => ⟨?_, (ok.fresh hfresh).2⟩, fun _ hlive => ?_, by simp, fun _ => rfl⟩
  · have hzero := (ok.fresh hfresh).1
    simp only [Candidate.tokens, if_true] at hzero ⊢
    omega
  · cases hlive

theorem TokensOk.stop (ok : s.TokensOk) : (s.step (.stop i)).TokensOk := by
  have hset : ∀ j, CandidateOk ((s.setCandidate i
      { s.candidates i with stopped := true, phase := .idle }).candidates j) :=
    setCandidate_ok ok.candidates (stopped_ok (ok.candidates i))
  simp only [step, ElectionState.endSession]
  split
  · exact ⟨changeNode_ok hset none, fun j hj => by cases hj⟩
  · next hother =>
      refine ⟨hset, fun j hj => ?_⟩
      have hne : j ≠ i := fun heq => hother (heq ▸ hj)
      simp only [Running, Believes, Leads, setCandidate_of_ne _ hne]
      exact ok.owner j hj

theorem TokensOk.step (ok : s.TokensOk) (e : ElectionEvent) : (s.step e).TokensOk := by
  cases e with
  | launch i => exact ok.launch
  | lock i => exact ok.lock
  | create i => exact ok.create
  | decide i => exact ok.decide
  | watch i => exact ok.watch
  | gone i => exact ok.gone
  | expire i => exact ok.endSession i
  | stop i => exact ok.stop

theorem tokensOk_new : new.TokensOk := by
  refine ⟨fun i => ⟨fun _ => ⟨rfl, rfl⟩, fun h => ?_, fun _ => ?_, fun _ => rfl⟩, fun i h => ?_⟩
  · cases h
  · rename_i h
    cases h
  · cases h

/-- The node is free only while every running controller goes for it. -/
structure Handed (s : ElectionState) : Prop where
  owner : ∀ i, s.Believes i → s.owner = some i
  ready : s.owner = none → ∀ i, s.Running i → s.Ready i

theorem TokensOk.electable_iff_handed (ok : s.TokensOk) : s.Electable ↔ s.Handed := by
  have hfree : (∀ i, s.Believes i → s.owner = some i) → s.owner = none → ∀ i, ¬ s.Believes i :=
    fun howner hnone i hbelieves => by cases hnone.symm.trans (howner i hbelieves)
  constructor
  · rintro ⟨howner, hwins⟩
    exact ⟨howner, fun hnone i hrunning =>
      (ok.owns_iff hnone hrunning (hfree howner hnone i)).mp (hwins hnone i hrunning)⟩
  · rintro ⟨howner, hready⟩
    exact ⟨howner, fun hnone i hrunning =>
      (ok.owns_iff hnone hrunning (hfree howner hnone i)).mpr (hready hnone i hrunning)⟩

/-- A controller goes on, claims no more than before and stays ready. -/
theorem Handed.setCandidate (handed : s.Handed) {c : Candidate}
    (hbelieves : (c.started = true ∧ c.stopped = false ∧ c.isLeader = true) ∨ c.phase = .won →
      s.Believes i)
    (hready : s.owner = none → c.launched = true ∧ c.stopped = false →
      c.watching = false ∧ c.phase ≠ .beaten ∧ c.phase ≠ .following) :
    (s.setCandidate i c).Handed := by
  constructor
  · intro j hj
    by_cases heq : j = i
    · subst heq
      simp only [Believes, Leads, setCandidate_self] at hj
      exact handed.owner j (hbelieves hj)
    · simp only [Believes, Leads, setCandidate_of_ne c heq] at hj
      exact handed.owner j hj
  · intro hnone j hj
    by_cases heq : j = i
    · subst heq
      simp only [Running, Ready, setCandidate_self] at hj ⊢
      exact hready hnone hj
    · simp only [Running, Ready, setCandidate_of_ne c heq] at hj ⊢
      exact handed.ready hnone j hj

/-- While the node is free nobody has been beaten. -/
theorem Handed.not_beaten (handed : s.Handed) (ok : s.TokensOk) (hnone : s.owner = none)
    (h : (s.candidates i).phase = .beaten ∨ (s.candidates i).phase = .following) : False := by
  have hready := handed.ready hnone i (ok.in_election (by rcases h with h | h <;> simp [h]))
  exact h.elim hready.2.1 hready.2.2

theorem Handed.create (handed : s.Handed) : (s.step (.create i)).Handed := by
  simp only [step]
  split
  · split
    · next hnone =>
        refine ⟨fun j hj => ?_, fun h => by cases h⟩
        rw [changeNode_believes] at hj
        by_cases heq : j = i
        · exact congrArg some heq.symm
        · simp only [Believes, Leads, setCandidate_of_ne _ heq] at hj
          cases hnone.symm.trans (handed.owner j hj)
    · next hother =>
        refine handed.setCandidate (fun h => h.elim Or.inl (by simp)) fun hnone => ?_
        rw [hnone] at hother
        cases hother
  · exact handed

/-- A step by which no session ends. -/
theorem Handed.goes_on (handed : s.Handed) (ok : s.TokensOk) {e : ElectionEvent}
    (h : ∀ j, e ≠ .expire j ∧ e ≠ .stop j) : (s.step e).Handed := by
  cases e with
  | launch i =>
      simp only [step]
      split
      · exact handed
      · next hnot =>
          rw [not_or, Bool.not_eq_true, Bool.not_eq_true] at hnot
          have hzero := ((ok.candidates i).fresh hnot.1).1
          refine handed.setCandidate id fun _ _ => ?_
          have hidle : (s.candidates i).phase = .idle := by
            by_contra hphase
            cases hnot.1.symm.trans (ok.in_election hphase).1
          rw [Candidate.tokens] at hzero
          refine ⟨?_, by simp [hidle], by simp [hidle]⟩
          cases hwatching : (s.candidates i).watching with
          | false => rfl
          | true => rw [hwatching, Bool.toNat_true] at hzero; omega
  | lock i =>
      simp only [step]
      split
      · next hlock =>
          refine handed.setCandidate (fun hc => hc.elim Or.inl (by simp)) fun hnone hrunning => ?_
          exact ⟨(handed.ready hnone i hrunning).1, by simp, by simp⟩
      · exact handed
  | create i => exact handed.create
  | decide i =>
      simp only [step]
      cases hphase : (s.candidates i).phase with
      | won =>
          refine handed.setCandidate (fun _ => Or.inr hphase) fun hnone => ?_
          cases hnone.symm.trans (handed.owner i (Or.inr hphase))
      | beaten =>
          exact handed.setCandidate (fun hc => hc.elim (fun h => absurd h.2.2 (by simp)) (by simp))
            fun hnone => (handed.not_beaten ok hnone (Or.inl hphase)).elim
      | idle | creating | following => exact handed
  | watch i =>
      simp only [step]
      split
      · next hphase =>
          have hflag := (ok.candidates i).follower hphase
          refine handed.setCandidate (fun hc => hc.elim (fun h => ?_) (by simp))
            fun hnone => (handed.not_beaten ok hnone (Or.inr hphase)).elim
          rw [h.2.2] at hflag
          cases hflag
      · exact handed
  | gone i =>
      simp only [step]
      split
      · exact handed.setCandidate (fun hc => hc.elim (fun h => absurd h.2.2 (by simp)) Or.inr)
          fun hnone hrunning => handed.ready hnone i hrunning
      · exact handed
  | expire j => exact absurd rfl (h j).1
  | stop j => exact absurd rfl (h j).2

/-- The session of the owner must not end while its process goes on. -/
theorem Handed.expire_iff (handed : s.Handed) (ok : s.TokensOk) (j : Nat) :
    (s.step (.expire j)).Handed ↔ s.owner ≠ some j := by
  simp only [step, ElectionState.endSession]
  split
  · next howner =>
      refine iff_of_false (fun handed' => ?_) fun hne => hne howner
      have hbelieves := (ok.owner j howner).2
      cases handed'.owner j ((changeNode_believes none j).mpr hbelieves)
  · next hother => exact iff_of_true handed hother

/-- When the leader is closed, every running controller is told unless it has been beaten and
has not set its watch. -/
theorem Handed.stop_iff (handed : s.Handed) (j : Nat) :
    (s.step (.stop j)).Handed ↔ (s.owner = some j → ∀ i, i ≠ j → s.Running i →
      (s.candidates i).phase ≠ .beaten ∧ (s.candidates i).phase ≠ .following) := by
  have hset : (s.setCandidate j { s.candidates j with stopped := true, phase := .idle }).Handed :=
    handed.setCandidate (fun hc => hc.elim (fun h => absurd h.2.1 (by simp)) (by simp))
      fun _ hrunning => by cases hrunning.2
  simp only [step, ElectionState.endSession]
  split
  · next howner =>
      have hphase : ∀ i, i ≠ j → (((s.setCandidate j
          { s.candidates j with stopped := true, phase := .idle }).changeNode none).candidates
            i).phase = (s.candidates i).phase := fun i hne => by
        rw [(changeNode_flags none i).2.1, setCandidate_of_ne _ hne]
      constructor
      · intro handed' _ i hne hrunning
        have hready := handed'.ready rfl i (by
          rw [changeNode_running]
          simpa only [Running, setCandidate_of_ne _ hne] using hrunning)
        rw [Ready, hphase i hne] at hready
        exact hready.2
      · intro hbeaten
        refine ⟨fun i hbelieves => ?_, fun _ i hrunning => ?_⟩
        · rw [changeNode_believes] at hbelieves
          by_cases heq : i = j
          · subst heq
            simp [Believes, Leads, setCandidate_self] at hbelieves
          · simp only [Believes, Leads, setCandidate_of_ne _ heq] at hbelieves
            exact absurd (Option.some.inj ((handed.owner i hbelieves).symm.trans howner)) heq
        · rw [changeNode_running] at hrunning
          have hne : i ≠ j := fun heq => by
            subst heq
            simp [Running, setCandidate_self] at hrunning
          rw [Ready, hphase i hne]
          refine ⟨?_, hbeaten howner i hne (by
            simpa only [Running, setCandidate_of_ne _ hne] using hrunning)⟩
          simp only [changeNode]
          split
          · rfl
          · next hwatching => exact Bool.not_eq_true _ ▸ hwatching
  · next hother => exact iff_of_true hset fun howner => absurd howner hother

theorem Handed.step_iff (handed : s.Handed) (ok : s.TokensOk) (e : ElectionEvent) :
    (s.step e).Handed ↔ s.HandsOver e := by
  cases e with
  | expire j => exact handed.expire_iff ok j
  | stop j => exact handed.stop_iff j
  | launch _ | lock _ | create _ | decide _ | watch _ | gone _ =>
      exact iff_of_true (handed.goes_on ok fun j => ⟨by simp, by simp⟩) trivial

theorem handed_new : new.Handed := by
  refine ⟨fun i h => ?_, fun _ i h => ?_⟩
  · simp [Believes, Leads, new, Candidate.new] at h
  · simp [Running, new, Candidate.new] at h

end

/-- In every state of a run whoever leads owns the node and a free node is within reach of
every running controller, exactly if no session ends before its process and no leader is
closed between the failed `create` of a running controller and its watch. -/
theorem electable_iff (events : List ElectionEvent) :
    (∀ early late, events = early ++ late → (run advance new early).Electable) ↔
      MeetsAll advance HandsOver new events := by
  have ok : ∀ early, (run advance new early).TokensOk := fun early =>
    run_keeps TokensOk (fun s e _ ok => ok.step e) tokensOk_new
  simp only [fun early => (ok early).electable_iff_handed]
  exact forall_early_iff_meetsAll TokensOk Handed (fun s e ok => ok.step e)
    (fun s e ok handed => handed.step_iff ok e) tokensOk_new handed_new

/-- The leader is closed after the other controller has been beaten and before it has set its
watch: that controller waits for a node that only itself could create. -/
theorem election_lost :
    let s := run advance new [.launch 0, .lock 0, .create 0, .decide 0, .launch 1, .lock 1,
      .create 1, .stop 0, .decide 1, .watch 1]
    s.owner = none ∧ s.Running 1 ∧ ∀ n, ¬ ((proceed 1)^[n] s).Owns 1 := by
  intro s
  have h : s.owner = none ∧ ((s.candidates 1).launched = true ∧ (s.candidates 1).stopped = false) ∧
      (s.candidates 1).waiting = 0 ∧ (s.candidates 1).callbacks = 0 ∧
      (s.candidates 1).phase = .idle ∧ (s.candidates 1).watching = true := by decide +kernel
  obtain ⟨howner, hrunning, hwaiting, hcallbacks, hphase⟩ := h
  have lost : s.Lost 1 := ⟨howner, hwaiting, hcallbacks, Or.inl hphase⟩
  exact ⟨howner, hrunning, lost.not_owns⟩

end ElectionState
end PyLogStream
