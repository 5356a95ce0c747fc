import PyLogStream.Replication.Watermark

/-!
The watermarks that a leader hands out. Whatever followers claim to have fetched and
whoever is taken for in sync, the leader itself stays in its in-sync set and its own
offset is refreshed before each minimum, so no watermark passes the end of the log; and
the stored watermark is the greatest of all that were returned.
-/

namespace PyLogStream
open Lib

/-- What `get_high_watermark` returns if the event calls it. -/
def LeaderSystem.watermarkCall (s : LeaderSystem) (event : LeaderEvent) : Option Int :=
  let returned : Option Int :=
    match s.leader.getHighWatermark s.log with
    | .ok (_, hw) => some hw
    | .error _ => none
  match event with
  | .getHighWatermark => returned
  | .fetch _ cmd => if cmd.replicaId ∈ s.leader.replicaList then returned else none
  | .resume i =>
    match s.writes[i]? with
    | some ⟨_, .written _⟩ => returned
    | _ => none
  | .log _ | .updateIsr _ | .submit _ | .flush _ _ => none

/-- The values that `get_high_watermark` returns in a run, in their order. -/
def watermarksReturned (s : LeaderSystem) : List LeaderEvent → List Int
  | [] => []
  | event :: events => (s.watermarkCall event).toList ++ watermarksReturned (s.step event).1 events

/-- The leader's topic exists, the stored watermark is inside its log, and the leader is
in sync with itself. -/
structure Bounded (s : LeaderSystem) : Prop where
  shaped : s.log.registry.Shaped
  known : ∃ logEnd, s.log.getLatestOffset s.leader.topic = .ok logEnd ∧
    s.leader.highWatermark ≤ logEnd
  member : s.leader.id ∈ s.leader.inSyncReplica

/-- What a step can do to the leader and its log. -/
structure Steps (s s' : LeaderSystem) (hw : Option Int) : Prop where
  shaped : s'.log.registry.Shaped
  grow : EndsGrow s.log s'.log
  topic : s'.leader.topic = s.leader.topic
  id : s'.leader.id = s.leader.id
  isr : s'.leader.inSyncReplica = s.leader.inSyncReplica ∨
    ∃ now, s'.leader.inSyncReplica = s.leader.newIsr now
  stored : s'.leader.highWatermark = hw.getD s.leader.highWatermark

section
variable {s : LeaderSystem}

theorem Steps.relog {log : LogManager}
    (h : log.registry.Shaped ∧ EndsGrow s.log log) {s' : LeaderSystem} (hlog : s'.log = log)
    (hleader : s'.leader = s.leader) : Steps s s' none := by
  refine ⟨hlog ▸ h.1, hlog ▸ h.2, ?_, ?_, ?_, ?_⟩
  all_goals simp [hleader]

/-- A call of `get_high_watermark` returns in every state with a known topic; it is no
greater than the end of the log and no less than the stored value. -/
theorem Bounded.returns (ok : Bounded s) :
    ∃ logEnd leader hw, s.log.getLatestOffset s.leader.topic = .ok logEnd ∧
      s.leader.getHighWatermark s.log = .ok (leader, hw) ∧
      WatermarkRead s.leader leader logEnd hw ∧ s.leader.highWatermark ≤ hw ∧ hw ≤ logEnd := by
  obtain ⟨logEnd, hlatest, hend⟩ := ok.known
  obtain ⟨leader, hw, hread, wm⟩ := getHighWatermark_spec hlatest
  have hne := List.ne_nil_of_mem ok.member
  refine ⟨logEnd, leader, hw, hlatest, hread, wm, wm.old_le, ?_⟩
  cases wm.bound hne with
  | inl hold => exact hold ▸ hend
  | inr hmin => exact wm.own hne ▸ hmin _ ok.member

/-- A fetch command of a replica stores what `get_high_watermark` returns. -/
theorem handle_highWatermark {leader leader' : ReplicaLeader} {lm : LogManager} {logEnd hw : Int}
    (hlatest : lm.getLatestOffset leader.topic = .ok logEnd)
    (hread : leader.getHighWatermark lm = .ok (leader', hw)) (hstored : leader'.highWatermark = hw)
    (env : CallEnv) (cmd : ReplicaFetchCommand) :
    (leader.handle lm env cmd).1.highWatermark =
      if cmd.replicaId ∈ leader.replicaList then hw else leader.highWatermark := by
  have hend : leader.getLogEndOffset lm = .ok logEnd := hlatest
  by_cases hauth : cmd.replicaId ∈ leader.replicaList
  · simp only [ReplicaLeader.handle, hauth, not_true_eq_false, if_false, if_true, hend, hread]
    rw [← hstored]
    split
    · split <;> split <;> rfl
    · split <;> split <;> rfl
  · simp [ReplicaLeader.handle, hauth]

theorem Bounded.fetch (ok : Bounded s) (env : CallEnv) (cmd : ReplicaFetchCommand) :
    Steps s (s.step (.fetch env cmd)).1 (s.watermarkCall (.fetch env cmd)) := by
  obtain ⟨logEnd, leader, hw, hlatest, hread, wm, -, -⟩ := ok.returns
  obtain ⟨hreg, hcase⟩ := handle_spec hlatest env cmd
  have hlog : (s.step (.fetch env cmd)).1.log.registry = s.log.registry := hreg
  have hsame : (s.leader.handle s.log env cmd).1.topic = s.leader.topic ∧
      (s.leader.handle s.log env cmd).1.id = s.leader.id ∧
      (s.leader.handle s.log env cmd).1.inSyncReplica = s.leader.inSyncReplica := by
    cases hcase with
    | inl heq => rw [heq]; exact ⟨rfl, rfl, rfl⟩
    | inr recorded => exact ⟨recorded.topic, recorded.id, recorded.isr⟩
  refine ⟨hlog ▸ ok.shaped, endsGrow_of_registry hlog, hsame.1, hsame.2.1, Or.inl hsame.2.2, ?_⟩
  refine (handle_highWatermark hlatest hread wm.stored env cmd).trans ?_
  simp only [LeaderSystem.watermarkCall, hread]
  split <;> rfl

theorem Bounded.read (ok : Bounded s) :
    Steps s (s.step .getHighWatermark).1 (s.watermarkCall .getHighWatermark) := by
  obtain ⟨logEnd, leader, hw, hlatest, hread, wm, -, -⟩ := ok.returns
  simp only [LeaderSystem.step, LeaderSystem.watermarkCall, hread]
  exact ⟨ok.shaped, endsGrow_of_registry rfl, wm.topic, wm.id, Or.inl wm.isr, wm.stored⟩

theorem Bounded.resume (ok : Bounded s) (i : Nat) :
    Steps s (s.step (.resume i)).1 (s.watermarkCall (.resume i)) := by
  obtain ⟨logEnd, leader, hw, hlatest, hread, wm, -, -⟩ := ok.returns
  have hstay : Steps s s none := Steps.relog ⟨ok.shaped, endsGrow_of_registry rfl⟩ rfl rfl
  simp only [LeaderSystem.step, LeaderSystem.resume, LeaderSystem.watermarkCall]
  cases hw' : s.writes[i]? with
  | none => exact hstay
  | some w =>
      obtain ⟨payload, phase⟩ := w
      cases phase with
      | submitted | lost | waiting _ | returned _ | raised => exact hstay
      | written offset =>
          have hnext : ∀ s' : LeaderSystem, s'.log = s.log →
              s'.leader.topic = leader.topic → s'.leader.id = leader.id →
              s'.leader.inSyncReplica = leader.inSyncReplica →
              s'.leader.highWatermark = leader.highWatermark → Steps s s' (some hw) := by
            intro s' hlog htopic hid hisr hstored
            exact ⟨hlog ▸ ok.shaped, hlog ▸ endsGrow_of_registry rfl, htopic.trans wm.topic,
              hid.trans wm.id, Or.inl (hisr.trans wm.isr), hstored.trans wm.stored⟩
          simp only [ReplicaLeader.waitForHw, hread]
          by_cases hge : hw ≥ offset
          · rw [if_pos hge]
            exact hnext _ rfl rfl rfl rfl rfl
          · rw [if_neg hge]
            exact hnext _ rfl rfl rfl rfl rfl

theorem Bounded.flush (ok : Bounded s) (i : Nat) (env : CallEnv) :
    Steps s (s.step (.flush i env)).1 (s.watermarkCall (.flush i env)) := by
  simp only [LeaderSystem.step, LeaderSystem.flush, LeaderSystem.watermarkCall]
  split
  · next payload hw =>
      have hgrown := apply_offsets ok.shaped (.append s.leader.topic env payload)
      simp only [LogManager.apply] at hgrown
      split
      all_goals
        next hres =>
          rw [hres] at hgrown
          exact Steps.relog hgrown rfl rfl
  · exact Steps.relog ⟨ok.shaped, endsGrow_of_registry rfl⟩ rfl rfl

/-- What every step does. -/
theorem Bounded.steps (ok : Bounded s) (event : LeaderEvent) :
    Steps s (s.step event).1 (s.watermarkCall event) := by
  cases event with
  | log op => exact Steps.relog (apply_offsets ok.shaped op) rfl rfl
  | fetch env cmd => exact ok.fetch env cmd
  | updateIsr now =>
      have hstay : Steps s s none := Steps.relog ⟨ok.shaped, endsGrow_of_registry rfl⟩ rfl rfl
      simp only [LeaderSystem.step, LeaderSystem.watermarkCall, ReplicaLeader.updateIsr]
      by_cases hlisted : s.leader.id ∈ s.leader.replicaList
      · rw [if_pos hlisted]
        exact ⟨ok.shaped, endsGrow_of_registry rfl, rfl, rfl, Or.inr ⟨now, rfl⟩, rfl⟩
      · rw [if_neg hlisted]
        exact hstay
  | getHighWatermark => exact ok.read
  | submit payload => exact Steps.relog ⟨ok.shaped, endsGrow_of_registry rfl⟩ rfl rfl
  | flush i env => exact ok.flush i env
  | resume i => exact ok.resume i

theorem Steps.bounded {s' : LeaderSystem} (ok : Bounded s) {hw : Option Int} (step : Steps s s' hw)
    (hbound : ∀ w ∈ hw, ∀ logEnd, s.log.getLatestOffset s.leader.topic = .ok logEnd → w ≤ logEnd) :
    Bounded s' := by
  obtain ⟨logEnd, hlatest, hend⟩ := ok.known
  obtain ⟨logEnd', hlatest', hle⟩ := step.grow _ _ hlatest
  refine ⟨step.shaped, ⟨logEnd', by rw [step.topic, hlatest'], ?_⟩, ?_⟩
  · rw [step.stored]
    cases hw with
    | none => exact hend.trans hle
    | some w => exact (hbound w rfl logEnd hlatest).trans hle
  · cases step.isr with
    | inl hsame => rw [step.id, hsame]; exact ok.member
    | inr hnew =>
        obtain ⟨now, hnew⟩ := hnew
        rw [step.id, hnew]
        exact List.mem_cons_self

theorem watermarkCall_read {event : LeaderEvent} {hw : Int} (h : hw ∈ s.watermarkCall event) :
    ∃ leader, s.leader.getHighWatermark s.log = .ok (leader, hw) := by
  cases hread : s.leader.getHighWatermark s.log with
  | error err =>
      have hnone : s.watermarkCall event = none := by
        cases event <;> simp only [LeaderSystem.watermarkCall, hread]
        · split <;> rfl
        · split <;> rfl
      rw [hnone] at h
      cases h
  | ok result =>
      have hvalue : s.watermarkCall event = some result.2 ∨ s.watermarkCall event = none := by
        cases event <;> simp only [LeaderSystem.watermarkCall, hread, or_true, true_or]
        · split <;> simp
        · split <;> simp
      cases hvalue with
      | inl hsome => exact ⟨result.1, by rw [← Option.some.inj (hsome.symm.trans h)]⟩
      | inr hnone => cases hnone.symm.trans h

/-- A value that is returned is not below the stored one, and inside the log. -/
theorem Bounded.call (ok : Bounded s) {event : LeaderEvent} {hw : Int}
    (h : hw ∈ s.watermarkCall event) :
    s.leader.highWatermark ≤ hw ∧
      ∃ logEnd, s.log.getLatestOffset s.leader.topic = .ok logEnd ∧ hw ≤ logEnd := by
  obtain ⟨leader, hread⟩ := watermarkCall_read h
  obtain ⟨logEnd, leader', hw', hlatest, hread', -, hold, hend⟩ := ok.returns
  obtain ⟨-, rfl⟩ := Prod.mk.inj (Except.ok.inj (hread.symm.trans hread'))
  exact ⟨hold, logEnd, hlatest, hend⟩

theorem Bounded.step (ok : Bounded s) (event : LeaderEvent) : Bounded (s.step event).1 := by
  refine (ok.steps event).bounded ok fun hw hmem logEnd hlatest => ?_
  obtain ⟨-, logEnd', hlatest', hle⟩ := ok.call hmem
  rwa [Except.ok.inj (hlatest.symm.trans hlatest')]

theorem Bounded.run (ok : Bounded s) (events : List LeaderEvent) :
    Bounded (Lib.run LeaderSystem.step s events) :=
  run_keeps Bounded (fun _ event _ ok => ok.step event) ok

/-- The values that are returned from a state on are sorted, and not below the stored
watermark. -/
theorem Bounded.returned_sorted (ok : Bounded s) (events : List LeaderEvent) :
    (∀ hw ∈ watermarksReturned s events, s.leader.highWatermark ≤ hw) ∧
      (watermarksReturned s events).Pairwise (· ≤ ·) := by
  induction events generalizing s with
  | nil => exact ⟨by simp [watermarksReturned], List.Pairwise.nil⟩
  | cons event events ih =>
      obtain ⟨hafter, hsorted⟩ := ih (ok.step event)
      rw [(ok.steps event).stored] at hafter
      cases hcall : s.watermarkCall event with
      | none =>
          rw [hcall] at hafter
          simpa [watermarksReturned, hcall] using ⟨hafter, hsorted⟩
      | some hw =>
          have hold := (ok.call hcall).1
          rw [hcall] at hafter
          simp only [watermarksReturned, hcall, Option.toList_some, List.singleton_append,
            List.pairwise_cons, List.forall_mem_cons]
          exact ⟨⟨hold, fun later hlater => hold.trans (hafter later hlater)⟩, hafter, hsorted⟩

end

/-- A new leader's watermark is the end of its log. -/
theorem bounded_new {lm : LogManager} (shaped : lm.registry.Shaped) {topic id : String}
    {replicaList : List String} {minIsrCount maxIsrLagMs : Int} {leader : ReplicaLeader}
    (h : ReplicaLeader.new topic id replicaList lm minIsrCount maxIsrLagMs = .ok leader) :
    Bounded (LeaderSystem.start lm leader) := by
  have ok := watermarkOk_new shaped h
  exact ⟨ok.shaped, ok.known, ok.member⟩

/-- Over any log and in any run, the values that `get_high_watermark` returns never
decrease, a call returns in every state, and each value is at most the end of the log at
the time. -/
theorem high_watermark_monotone (config : LogConfig) (importTime : Time) (ops : List LogOp)
    (topic id : String) (replicaList : List String) (minIsrCount maxIsrLagMs : Int)
    (leader : ReplicaLeader)
    (hnew : ReplicaLeader.new topic id replicaList
      (run LogManager.apply (LogManager.start config importTime) ops) minIsrCount maxIsrLagMs =
        .ok leader) (events : List LeaderEvent) :
    let start := LeaderSystem.start
      (run LogManager.apply (LogManager.start config importTime) ops) leader
    (watermarksReturned start events).Pairwise (· ≤ ·) ∧
      ∀ early late, events = early ++ late →
        let s := run LeaderSystem.step start early
        s.watermarkCall .getHighWatermark ≠ none ∧
          ∀ event hw, s.watermarkCall event = some hw →
            ∃ logEnd, s.log.getLatestOffset s.leader.topic = .ok logEnd ∧ hw ≤ logEnd := by
  have init := bounded_new (shaped_run config importTime ops) hnew
  refine ⟨(init.returned_sorted events).2, fun early late _ => ?_⟩
  have ok := init.run early
  refine ⟨?_, fun event hw hcall => (ok.call hcall).2⟩
  obtain ⟨logEnd, leader', hw, -, hread, -⟩ := ok.returns
  simp [LeaderSystem.watermarkCall, hread]

/-- The follower claims to have fetched more than there is, and then to be back at the
start. -/
theorem high_watermark_monotone_back :
    (watermarksReturned (LeaderSystem.start (logAfter []) (leaderAt 0))
        (catchUp ++ [.getHighWatermark, .fetch ⟨4, .succeed⟩ ⟨"t", -7, 100, "f"⟩,
          .fetch ⟨5, .succeed⟩ ⟨"t", 900, 100, "l"⟩, .getHighWatermark])).Pairwise (· ≤ ·) :=
  (high_watermark_monotone ⟨"data", 0, 1000000, 100, 16, 16, 4⟩ 0 [.createTopic "t"] "t" "l"
    ["l", "f"] 2 10000 (leaderAt 0) (by decide +kernel) _).1

end PyLogStream
