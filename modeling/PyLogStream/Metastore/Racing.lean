import PyLogStream.Lib.Pool
import PyLogStream.Metastore.ZooKeeper

/-!
Registrations of one topic that run concurrently on ZooKeeper. Each looks the topic up,
places it on the ring and creates its node, and no lock keeps the three together. One
registration alone, or any number on a stored topic, answer with what is stored; two that
both find the topic absent cannot both create it, and the second raises.
-/

namespace PyLogStream
open Lib

section
variable (hash : String → Nat) (replicasPerTopic : Int) (topicName : String)

/-- `register_topic` on ZooKeeper. -/
def registering : ZkProg TopicMetadata :=
  (Metastore.registerTopic replicasPerTopic topicName).translate ZkStorage.program

/-- The metadata of a topic that is registered with these replicas. -/
def newTopic (replicas : List String) : TopicMetadata :=
  ⟨topicName, replicas.head?.getD "", replicas, replicas, 1⟩

/-- What is left of a registration when the node comes to be created. -/
def creating (replicas : List String) : ZkProg TopicMetadata :=
  .call (.zk (.create (topicPath topicName) (.topic (newTopic topicName replicas))))
    fun created =>
      if created = true then .pure (newTopic topicName replicas) else .raise (.topicExists topicName)

/-- What is left of it when the topic was not found. -/
def placing : ZkProg TopicMetadata :=
  .call (.ring (.getReplicas topicName replicasPerTopic)) (creating topicName)

def afterLookup : Option ZnodeData → ZkProg TopicMetadata
  | none => placing replicasPerTopic topicName
  | some (.topic t) => .pure t
  | some _ => .raise (.keyError (topicPath topicName))

/-- Any number of registrations of the topic about to run. -/
def registrations (ι : Type) (s : ZkMetastore) :
    Pool ZkMetastore ZkMetastoreCall ZkMetastoreCall.Answer MetastoreError TopicMetadata ι :=
  ⟨s, fun _ => registering replicasPerTopic topicName⟩

/-- After the schedule, all registrations have returned the same metadata, and this is
what is stored, in its first version. -/
def RegistersOnce {ι : Type} [DecidableEq ι] (s : ZkMetastore) (schedule : List ι) : Prop :=
  let final := run (Pool.step (ZkMetastore.handle hash))
    (registrations replicasPerTopic topicName ι s) schedule
  ∃ t, (∀ i, (final.progs i).outcome = some (.ok t)) ∧
    final.state.znodes.get? (topicPath topicName) = some (.topic t) ∧ t.version = 1

/-- A registration that finds no topic can place it and create its node. -/
structure Placeable (s : ZkMetastore) : Prop where
  absent : s.znodes.get? (topicPath topicName) = none
  parent : (s.znodes.get? (parentPath (topicPath topicName))).isSome = true
  replicas : ∃ replicas, s.ring.getReplicas hash topicName replicasPerTopic = .ok replicas

end

section
variable {hash : String → Nat} {replicasPerTopic : Int} {topicName : String} {s : ZkMetastore}

theorem registering_eq : registering replicasPerTopic topicName =
    .call (.zk (.get (topicPath topicName))) (afterLookup replicasPerTopic topicName) := by
  refine congrArg (Prog.call _) (funext fun data => ?_)
  cases data with
  | none =>
      refine congrArg (Prog.call _) (funext fun replicas => ?_)
      refine congrArg (Prog.call _) (funext fun created => ?_)
      cases created <;> rfl
  | some data => cases data <;> rfl

theorem handle_create (hash : String → Nat) (s : ZkMetastore) (path : String) (data : ZnodeData) :
    s.handle hash (.zk (.create path data)) =
      if (s.znodes.get? path).isSome = true then (s, .ok false)
      else if (s.znodes.get? (parentPath path)).isSome = true then
        ({ s with znodes := s.znodes.set path data }, .ok true)
      else (s, .error (.noNode path)) := by
  simp only [ZkMetastore.handle, Znodes.handle]
  split
  · rfl
  · split <;> rfl

variable {ι : Type}

/-- The topic is stored, and every registration returns it or has not begun. -/
structure TopicSettled (replicasPerTopic : Int) (topicName : String) (t : TopicMetadata)
    (pool : Pool ZkMetastore ZkMetastoreCall ZkMetastoreCall.Answer MetastoreError TopicMetadata ι) :
    Prop where
  stored : pool.state.znodes.get? (topicPath topicName) = some (.topic t)
  progs : ∀ i, pool.progs i = registering replicasPerTopic topicName ∨ pool.progs i = .pure t

variable {t : TopicMetadata}
variable {pool : Pool ZkMetastore ZkMetastoreCall ZkMetastoreCall.Answer MetastoreError
  TopicMetadata ι}

theorem TopicSettled.advance (settled : TopicSettled replicasPerTopic topicName t pool) (i : ι) :
    (pool.progs i).advance (ZkMetastore.handle hash) pool.state = (pool.state, .pure t) := by
  cases settled.progs i with
  | inl hnew =>
      rw [hnew, registering_eq]
      simp only [Prog.advance, ZkMetastore.handle, Znodes.handle, settled.stored]
      rfl
  | inr hdone =>
      rw [hdone]
      rfl

section
variable [DecidableEq ι]

/-- Unless a registration can be placed, none of them changes the metastore. -/
theorem registrations_frozen
    (h : (s.znodes.get? (topicPath topicName)).isSome = true ∨
      ¬ Placeable hash replicasPerTopic topicName s) (schedule : List ι) :
    (run (Pool.step (ZkMetastore.handle hash))
      (registrations replicasPerTopic topicName ι s) schedule).state = s := by
  let P : ZkMetastoreCall → Prop := fun c => (s.handle hash c).1 = s
  let A : (c : ZkMetastoreCall) → c.Answer → Prop := fun c r => (s.handle hash c).2 = .ok r
  have keep : ∀ s' c, P c → s' = s →
      (s'.handle hash c).1 = s ∧ ∀ r, (s'.handle hash c).2 = .ok r → A c r := by
    rintro s' c hc rfl
    exact ⟨hc, fun r hr => hr⟩
  refine Pool.guarded_run (Q := fun _ => True) keep (fun i => ?_) rfl schedule
  change (registering replicasPerTopic topicName).Guarded P A _
  rw [registering_eq]
  refine ⟨rfl, fun data _ => ?_⟩
  cases data with
  | some data => cases data <;> trivial
  | none =>
      refine ⟨rfl, fun replicas hreplicas => ⟨?_, fun created _ => ?_⟩⟩
      · have hring : s.ring.getReplicas hash topicName replicasPerTopic = .ok replicas := by
          change Except.mapError _ (s.ring.getReplicas hash topicName replicasPerTopic) = _ at hreplicas
          cases hget : s.ring.getReplicas hash topicName replicasPerTopic with
          | error err => simp [hget, Except.mapError] at hreplicas
          | ok found => simpa [hget, Except.mapError] using hreplicas
        change (s.handle hash (.zk (.create _ _))).1 = s
        rw [handle_create]
        split
        · rfl
        · next hnone =>
            split
            · next hparent =>
                have hplaceable : Placeable hash replicasPerTopic topicName s :=
                  ⟨by simpa using hnone, hparent, replicas, hring⟩
                exact absurd hplaceable (h.resolve_left hnone)
            · rfl
      · cases created <;> trivial

theorem TopicSettled.step (hash : String → Nat)
    (settled : TopicSettled replicasPerTopic topicName t pool) (i : ι) :
    TopicSettled replicasPerTopic topicName t (pool.step (ZkMetastore.handle hash) i).1 ∧
      (pool.step (ZkMetastore.handle hash) i).1.progs i = .pure t := by
  simp only [Pool.step, settled.advance i, Function.update_self, and_true]
  refine ⟨settled.stored, fun j => ?_⟩
  by_cases hj : j = i
  · exact Or.inr (by simp [hj])
  · simpa [hj] using settled.progs j

/-- A registration that has its turn returns what is stored. -/
theorem TopicSettled.run (hash : String → Nat)
    (settled : TopicSettled replicasPerTopic topicName t pool) (schedule : List ι) :
    TopicSettled replicasPerTopic topicName t
        (run (Pool.step (ZkMetastore.handle hash)) pool schedule) ∧
      ∀ i, i ∈ schedule ∨ pool.progs i = .pure t →
        (run (Pool.step (ZkMetastore.handle hash)) pool schedule).progs i = .pure t := by
  induction schedule generalizing pool with
  | nil => exact ⟨settled, fun i h => h.resolve_left List.not_mem_nil⟩
  | cons j schedule ih =>
      obtain ⟨hsettled, hdone⟩ := settled.step hash j
      obtain ⟨hend, hreturned⟩ := ih hsettled
      refine ⟨hend, fun i hi => hreturned i ?_⟩
      by_cases hij : i = j
      · exact Or.inr (hij ▸ hdone)
      · refine hi.imp (fun hmem => (List.mem_cons.mp hmem).resolve_left hij) fun hpure => ?_
        simpa [Pool.step, hij] using hpure

/-- Every registration that begins when the topic is stored returns it. -/
theorem TopicSettled.registersOnce (settled : TopicSettled replicasPerTopic topicName t pool)
    (hversion : t.version = 1) {schedule : List ι}
    (hturn : ∀ i, i ∈ schedule ∨ pool.progs i = .pure t) :
    let final := Lib.run (Pool.step (ZkMetastore.handle hash)) pool schedule
    ∃ t', (∀ i, (final.progs i).outcome = some (.ok t')) ∧
      final.state.znodes.get? (topicPath topicName) = some (.topic t') ∧ t'.version = 1 := by
  obtain ⟨hend, hreturned⟩ := settled.run hash schedule
  exact ⟨t, fun i => by rw [hreturned i (hturn i)]; rfl, hend.stored, hversion⟩

end

/-- The registration has found no topic and has not created it. -/
def Stuck (replicasPerTopic : Int) (topicName : String) (p : ZkProg TopicMetadata) : Prop :=
  p = placing replicasPerTopic topicName ∨ (∃ replicas, p = creating topicName replicas) ∨
    ∃ err, p = .raise err

theorem Stuck.outcome {p : ZkProg TopicMetadata} (h : Stuck replicasPerTopic topicName p) :
    p.outcome ≠ some (.ok t) := by
  obtain rfl | ⟨replicas, rfl⟩ | ⟨err, rfl⟩ := h <;> simp [placing, creating, Prog.outcome]

/-- It stays stuck, unless it comes to create the missing topic. -/
theorem Stuck.advance (hash : String → Nat) (s : ZkMetastore) {p : ZkProg TopicMetadata}
    (h : Stuck replicasPerTopic topicName p) :
    (Stuck replicasPerTopic topicName (p.advance (ZkMetastore.handle hash) s).2 ∧
        (p.advance (ZkMetastore.handle hash) s).1.znodes = s.znodes) ∨
      s.znodes.get? (topicPath topicName) = none ∧
        (p.advance (ZkMetastore.handle hash) s).1.znodes.get? (topicPath topicName) ≠ none ∧
        ∃ t, (p.advance (ZkMetastore.handle hash) s).2 = .pure t := by
  obtain rfl | ⟨replicas, rfl⟩ | ⟨err, rfl⟩ := h
  · rw [placing, Prog.advance_call]
    refine Or.inl ⟨?_, rfl⟩
    cases (s.handle hash (.ring (.getReplicas topicName replicasPerTopic))).2 with
    | ok replicas => exact Or.inr (Or.inl ⟨replicas, rfl⟩)
    | error err => exact Or.inr (Or.inr ⟨err, rfl⟩)
  · rw [creating, Prog.advance_call, handle_create]
    split
    · exact Or.inl ⟨Or.inr (Or.inr ⟨_, rfl⟩), rfl⟩
    · next habsent =>
        split
        · exact Or.inr ⟨by simpa using habsent, by simp, _, rfl⟩
        · exact Or.inl ⟨Or.inr (Or.inr ⟨_, rfl⟩), rfl⟩
  · exact Or.inl ⟨Or.inr (Or.inr ⟨err, rfl⟩), rfl⟩

/-- Where a registration can be. -/
def Phase (replicasPerTopic : Int) (topicName : String) (p : ZkProg TopicMetadata) : Prop :=
  p = registering replicasPerTopic topicName ∨ Stuck replicasPerTopic topicName p ∨ ∃ t, p = .pure t

/-- A registration takes no topic away. -/
theorem Phase.advance (hash : String → Nat) (s : ZkMetastore) {p : ZkProg TopicMetadata}
    (h : Phase replicasPerTopic topicName p) :
    Phase replicasPerTopic topicName (p.advance (ZkMetastore.handle hash) s).2 ∧
      (s.znodes.get? (topicPath topicName) ≠ none →
        (p.advance (ZkMetastore.handle hash) s).1.znodes.get? (topicPath topicName) ≠ none) := by
  obtain rfl | hstuck | ⟨t, rfl⟩ := h
  · rw [registering_eq, Prog.advance_call]
    refine ⟨?_, id⟩
    simp only [ZkMetastore.handle, Znodes.handle]
    cases (s.znodes.get? (topicPath topicName)).filter fun data => decide (data ≠ .empty) with
    | none => exact Or.inr (Or.inl (Or.inl rfl))
    | some data =>
        cases data with
        | topic t => exact Or.inr (Or.inr ⟨t, rfl⟩)
        | empty | node _ => exact Or.inr (Or.inl (Or.inr (Or.inr ⟨_, rfl⟩)))
  · obtain ⟨hafter, hsame⟩ | ⟨-, hpresent, hpure⟩ := hstuck.advance hash s
    · exact ⟨Or.inr (Or.inl hafter), fun h => by rwa [hsame]⟩
    · exact ⟨Or.inr (Or.inr hpure), fun _ => hpresent⟩
  · exact ⟨Or.inr (Or.inr ⟨t, rfl⟩), id⟩

/-- Two registrations that both have found no topic: one of them raises in the end. -/
def Racing (replicasPerTopic : Int) (topicName : String) (i j : ι)
    (pool : Pool ZkMetastore ZkMetastoreCall ZkMetastoreCall.Answer MetastoreError TopicMetadata ι) :
    Prop :=
  let stuck := fun k => Stuck replicasPerTopic topicName (pool.progs k)
  (∀ k, Phase replicasPerTopic topicName (pool.progs k)) ∧
    (pool.state.znodes.get? (topicPath topicName) = none ∧ stuck i ∧ stuck j ∨
      pool.state.znodes.get? (topicPath topicName) ≠ none ∧ (stuck i ∨ stuck j))

/-- One of the two does not return. -/
theorem Racing.not_all_return {i j : ι} (racing : Racing replicasPerTopic topicName i j pool) :
    ¬ ∀ k, (pool.progs k).outcome = some (.ok t) := by
  intro hall
  obtain ⟨-, ⟨-, hi, -⟩ | ⟨-, hi | hj⟩⟩ := racing
  · exact hi.outcome (hall i)
  · exact hi.outcome (hall i)
  · exact hj.outcome (hall j)

section
variable [DecidableEq ι]

/-- Only the registration whose turn it is, and only if it creates the topic, stops
being stuck. -/
theorem Stuck.step (hash : String → Nat) {x : ι}
    (h : Stuck replicasPerTopic topicName (pool.progs x)) (k : ι) :
    Stuck replicasPerTopic topicName ((pool.step (ZkMetastore.handle hash) k).1.progs x) ∨
      k = x ∧ pool.state.znodes.get? (topicPath topicName) = none ∧
        (pool.step (ZkMetastore.handle hash) k).1.state.znodes.get? (topicPath topicName) ≠ none := by
  by_cases hk : k = x
  · subst hk
    simp only [Pool.step, Function.update_self]
    exact (h.advance hash pool.state).imp (fun hstuck => hstuck.1) fun hcreated =>
      ⟨trivial, hcreated.1, hcreated.2.1⟩
  · refine Or.inl ?_
    simpa [Pool.step, Function.update_of_ne (Ne.symm hk)] using h

theorem Racing.step {i j : ι} (hne : i ≠ j) (racing : Racing replicasPerTopic topicName i j pool)
    (k : ι) :
    Racing replicasPerTopic topicName i j (pool.step (ZkMetastore.handle hash) k).1 := by
  obtain ⟨hphase, hrace⟩ := racing
  obtain ⟨hnext, hkeeps⟩ := (hphase k).advance hash pool.state
  refine ⟨fun x => ?_, ?_⟩
  · simp only [Pool.step, Function.update_apply]
    split
    · exact hnext
    · exact hphase x
  · by_cases hafter :
        (pool.step (ZkMetastore.handle hash) k).1.state.znodes.get? (topicPath topicName) = none
    · -- no topic yet, so there was none before, and nobody has created it
      have hstill : ∀ x, Stuck replicasPerTopic topicName (pool.progs x) →
          Stuck replicasPerTopic topicName ((pool.step (ZkMetastore.handle hash) k).1.progs x) :=
        fun x h => (h.step hash k).resolve_right fun hcreated => hcreated.2.2 hafter
      obtain ⟨-, hi, hj⟩ := hrace.resolve_right fun hpresent => hkeeps hpresent.1 hafter
      exact Or.inl ⟨hafter, hstill i hi, hstill j hj⟩
    · refine Or.inr ⟨hafter, ?_⟩
      obtain ⟨-, hi, hj⟩ | ⟨hpresent, hstuck⟩ := hrace
      · -- at most one of the two has just created the topic
        cases hi.step hash k with
        | inl hi' => exact Or.inl hi'
        | inr hcreated =>
            exact Or.inr ((hj.step hash k).resolve_right fun h => hne (hcreated.1.symm.trans h.1))
      · exact hstuck.imp
          (fun hi => (hi.step hash k).resolve_right fun hcreated => hpresent hcreated.2.1)
          fun hj => (hj.step hash k).resolve_right fun hcreated => hpresent hcreated.2.1

theorem Racing.run {i j : ι} (hne : i ≠ j) (racing : Racing replicasPerTopic topicName i j pool)
    (schedule : List ι) :
    Racing replicasPerTopic topicName i j
      (run (Pool.step (ZkMetastore.handle hash)) pool schedule) :=
  run_keeps (Racing replicasPerTopic topicName i j) (fun _ k _ h => h.step hne k) racing

end
section
variable {p : ZkProg TopicMetadata}

theorem Placeable.lookup (ok : Placeable hash replicasPerTopic topicName s) :
    (registering replicasPerTopic topicName).advance (ZkMetastore.handle hash) s =
      (s, placing replicasPerTopic topicName) := by
  rw [registering_eq]
  simp only [Prog.advance, ZkMetastore.handle, Znodes.handle, ok.absent]
  rfl

theorem Placeable.place (ok : Placeable hash replicasPerTopic topicName s) :
    ∃ replicas, (placing replicasPerTopic topicName).advance (ZkMetastore.handle hash) s =
      (s, creating topicName replicas) := by
  obtain ⟨replicas, hreplicas⟩ := ok.replicas
  refine ⟨replicas, ?_⟩
  simp only [placing, Prog.advance, ZkMetastore.handle, ConsistentHashRing.handle, hreplicas]
  rfl

theorem Placeable.create (ok : Placeable hash replicasPerTopic topicName s)
    (replicas : List String) :
    (creating topicName replicas).advance (ZkMetastore.handle hash) s =
      ({ s with znodes := s.znodes.set (topicPath topicName) (.topic (newTopic topicName replicas)) },
        .pure (newTopic topicName replicas)) := by
  have habsent : ¬ (s.znodes.get? (topicPath topicName)).isSome = true := by simp [ok.absent]
  rw [creating, Prog.advance_call, handle_create, if_neg habsent, if_pos ok.parent]
  rfl

end

section
variable [DecidableEq ι]

theorem step_of_advance {p : ZkProg TopicMetadata} {s' : ZkMetastore} {i : ι}
    (h : (pool.progs i).advance (ZkMetastore.handle hash) pool.state = (s', p)) :
    (pool.step (ZkMetastore.handle hash) i).1 = ⟨s', Function.update pool.progs i p⟩ := by
  simp only [Pool.step, h]

/-- The registrations after the first turn. -/
theorem Placeable.first (ok : Placeable hash replicasPerTopic topicName s) (a : ι) :
    ((registrations replicasPerTopic topicName ι s).step (ZkMetastore.handle hash) a).1 =
      ⟨s, Function.update (fun _ => registering replicasPerTopic topicName) a
        (placing replicasPerTopic topicName)⟩ :=
  step_of_advance ok.lookup

theorem Placeable.second (ok : Placeable hash replicasPerTopic topicName s) (a : ι) :
    ∃ replicas, (Pool.step (ZkMetastore.handle hash) ⟨s, Function.update
        (fun _ => registering replicasPerTopic topicName) a (placing replicasPerTopic topicName)⟩
        a).1 =
      ⟨s, Function.update (fun _ => registering replicasPerTopic topicName) a
        (creating topicName replicas)⟩ := by
  obtain ⟨replicas, hplace⟩ := ok.place
  have hturn : (Function.update (fun _ => registering replicasPerTopic topicName) a
      (placing replicasPerTopic topicName) a).advance (ZkMetastore.handle hash) s =
        (s, creating topicName replicas) := by
    simpa using hplace
  exact ⟨replicas, by rw [step_of_advance hturn, Function.update_idem]⟩

theorem Placeable.race (ok : Placeable hash replicasPerTopic topicName s) {a b : ι}
    {p : ZkProg TopicMetadata} (hp : Stuck replicasPerTopic topicName p) (hne : a ≠ b) :
    Racing replicasPerTopic topicName a b
      (Pool.step (ZkMetastore.handle hash)
        ⟨s, Function.update (fun _ => registering replicasPerTopic topicName) a p⟩ b).1 := by
  have hlookup : (Function.update (fun _ => registering replicasPerTopic topicName) a p b).advance
      (ZkMetastore.handle hash) s = (s, placing replicasPerTopic topicName) := by
    simpa [Function.update_of_ne hne.symm] using ok.lookup
  rw [step_of_advance hlookup]
  refine ⟨fun k => ?_, Or.inl ⟨ok.absent, ?_, Or.inl (by simp)⟩⟩
  · simp only [Function.update_apply]
    split
    · exact Or.inr (Or.inl (Or.inl rfl))
    · split
      · exact Or.inr (Or.inl hp)
      · exact Or.inl rfl
  · simpa [Function.update_of_ne hne] using hp

/-- A registration with the first three turns is done before any other begins. -/
theorem Placeable.settled (ok : Placeable hash replicasPerTopic topicName s) (a : ι) :
    ∃ replicas, run (Pool.step (ZkMetastore.handle hash))
        (registrations replicasPerTopic topicName ι s) [a, a, a] =
      ⟨{ s with znodes :=
          s.znodes.set (topicPath topicName) (.topic (newTopic topicName replicas)) },
        Function.update (fun _ => registering replicasPerTopic topicName) a
          (.pure (newTopic topicName replicas))⟩ := by
  obtain ⟨replicas, hsecond⟩ := ok.second a
  refine ⟨replicas, ?_⟩
  simp only [run, ok.first a, hsecond]
  rw [step_of_advance (by simpa using ok.create replicas)]
  simp

theorem three_turns {schedule : List ι} (hne : schedule ≠ [])
    (complete : ∀ i, 3 ≤ schedule.count i) : ∃ a b c rest, schedule = a :: b :: c :: rest := by
  obtain ⟨a, rest, rfl⟩ := List.exists_cons_of_ne_nil hne
  have hlength := (complete a).trans List.count_le_length
  rcases rest with _ | ⟨b, _ | ⟨c, rest⟩⟩
  · simp at hlength
  · simp at hlength
  · exact ⟨a, b, c, rest, rfl⟩

/-- Another turn among the first three is that of a registration that finds no topic
either. -/
theorem Placeable.races (ok : Placeable hash replicasPerTopic topicName s) {a b c : ι}
    (h : ¬ (a = b ∧ b = c)) (rest : List ι) :
    ∃ i j, Racing replicasPerTopic topicName i j (run (Pool.step (ZkMetastore.handle hash))
      (registrations replicasPerTopic topicName ι s) (a :: b :: c :: rest)) := by
  simp only [run, ok.first a]
  by_cases hab : a = b
  · subst hab
    have hac : a ≠ c := fun heq => h ⟨rfl, heq⟩
    obtain ⟨replicas, hsecond⟩ := ok.second a
    rw [hsecond]
    exact ⟨a, c, (ok.race (Or.inr (Or.inl ⟨replicas, rfl⟩)) hac).run hac rest⟩
  · exact ⟨a, b, (ok.race (Or.inl rfl) hab).run hab (c :: rest)⟩

theorem registersOnce_iff_of_placeable (ok : Placeable hash replicasPerTopic topicName s)
    {schedule : List ι} (complete : ∀ i, 3 ≤ schedule.count i) :
    RegistersOnce hash replicasPerTopic topicName s schedule ↔
      ∃ i, schedule.take 3 = [i, i, i] := by
  constructor
  · rintro ⟨t, hreturn, hstored, -⟩
    have hne : schedule ≠ [] := by
      rintro rfl
      have hnone : (some (ZnodeData.topic t)) = none := hstored.symm.trans ok.absent
      cases hnone
    obtain ⟨a, b, c, rest, rfl⟩ := three_turns hne complete
    by_cases hsame : a = b ∧ b = c
    · exact ⟨a, by simp [hsame.1, hsame.2]⟩
    · obtain ⟨i, j, hracing⟩ := ok.races hsame rest
      exact absurd hreturn hracing.not_all_return
  · rintro ⟨i, htake⟩
    obtain ⟨replicas, hsettled⟩ := ok.settled i
    have hsplit : schedule = [i, i, i] ++ schedule.drop 3 := by
      rw [← htake, List.take_append_drop]
    have hstart : TopicSettled replicasPerTopic topicName (newTopic topicName replicas)
        (run (Pool.step (ZkMetastore.handle hash))
          (registrations replicasPerTopic topicName ι s) [i, i, i]) := by
      rw [hsettled]
      refine ⟨by simp, fun j => ?_⟩
      by_cases hj : j = i
      · exact Or.inr (by simp [hj])
      · exact Or.inl (by simp [Function.update_of_ne hj])
    rw [hsplit, RegistersOnce, run_append]
    refine hstart.registersOnce rfl fun j => ?_
    by_cases hj : j = i
    · exact Or.inr (by rw [hsettled, hj]; simp)
    · have hcount := complete j
      rw [hsplit, List.count_append, List.count_eq_zero_of_not_mem (by simp [hj])] at hcount
      exact Or.inl (List.count_pos_iff.mp (by omega))

theorem registersOnce_of_stored (hstored : s.znodes.get? (topicPath topicName) = some (.topic t))
    (hversion : t.version = 1) {schedule : List ι} (complete : ∀ i, 3 ≤ schedule.count i) :
    RegistersOnce hash replicasPerTopic topicName s schedule := by
  have hstart : TopicSettled replicasPerTopic topicName t
      (registrations replicasPerTopic topicName ι s) := ⟨hstored, fun _ => Or.inl rfl⟩
  refine hstart.registersOnce hversion fun i => Or.inl ?_
  have hcount := complete i
  exact List.count_pos_iff.mp (by omega)

end

end

/-- When every registration has had its turns, they have all returned the same metadata,
which is stored in its first version, exactly if the topic was stored so before, or the
registration that begins looks up, places and creates the topic before any other one
begins. -/
theorem register_topic_idempotent_iff {ι : Type} [DecidableEq ι] (hash : String → Nat)
    (replicasPerTopic : Int) (topicName : String) (s : ZkMetastore) (schedule : List ι)
    (complete : ∀ i, 3 ≤ schedule.count i) :
    RegistersOnce hash replicasPerTopic topicName s schedule ↔
      (∃ t, s.znodes.get? (topicPath topicName) = some (.topic t) ∧ t.version = 1) ∨
        Placeable hash replicasPerTopic topicName s ∧ ∃ i, schedule.take 3 = [i, i, i] := by
  constructor
  · intro h
    by_cases hplaceable : Placeable hash replicasPerTopic topicName s
    · exact Or.inr ⟨hplaceable, (registersOnce_iff_of_placeable hplaceable complete).mp h⟩
    · obtain ⟨t, -, hstored, hversion⟩ := h
      rw [registrations_frozen (Or.inr hplaceable)] at hstored
      exact Or.inl ⟨t, hstored, hversion⟩
  · intro h
    cases h with
    | inl hstored =>
        obtain ⟨t, hget, hversion⟩ := hstored
        exact registersOnce_of_stored hget hversion complete
    | inr hplaceable =>
        exact (registersOnce_iff_of_placeable hplaceable.1 complete).mpr hplaceable.2

/-- Of three registrations the second begins when the first has returned. -/
theorem register_topic_idempotent_three :
    RegistersOnce ConsistentHashRing.md5Hash 1 "t" ZkMetastore.new
      ([0, 0, 0, 2, 1, 2, 1, 1, 2] : List (Fin 3)) :=
  (register_topic_idempotent_iff ConsistentHashRing.md5Hash 1 "t" ZkMetastore.new _
    (by decide)).mpr (Or.inr ⟨⟨by decide +kernel, by decide +kernel, [], by decide +kernel⟩, 0, rfl⟩)

/-- Two registrations that take turns: the second finds no topic and cannot create it. -/
theorem register_topic_raises :
    ((run (Pool.step (ZkMetastore.handle ConsistentHashRing.md5Hash))
        (registrations 1 "t" (Fin 2) ZkMetastore.new) [0, 1, 0, 1, 0, 1]).progs 1).outcome =
        some (.error (.topicExists "t")) ∧
      ¬ RegistersOnce ConsistentHashRing.md5Hash 1 "t" ZkMetastore.new
        ([0, 1, 0, 1, 0, 1] : List (Fin 2)) := by
  have hraise : ((run (Pool.step (ZkMetastore.handle ConsistentHashRing.md5Hash))
      (registrations 1 "t" (Fin 2) ZkMetastore.new) [0, 1, 0, 1, 0, 1]).progs 1).outcome =
        some (.error (.topicExists "t")) := by decide +kernel
  refine ⟨hraise, ?_⟩
  rintro ⟨t, hreturn, -⟩
  have hone := hreturn 1
  rw [hraise] at hone
  cases hone

end PyLogStream
