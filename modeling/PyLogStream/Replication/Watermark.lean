import PyLogStream.Replication.System

/-!
High-watermark safety. The watermark never decreases, so it stays below every
in-sync follower only as long as no in-sync follower goes back and no follower
behind the watermark is admitted to the in-sync set.
-/

namespace PyLogStream
open Lib

/-- A `get_high_watermark` call returns a value that every in-sync replica has
acknowledged. -/
def WatermarkSafe (s : LeaderSystem) : Prop :=
  match s.leader.getHighWatermark s.log with
  | .error _ => False
  | .ok (leader, hw) => ∀ r ∈ leader.inSyncReplica, hw ≤ leader.offsetOf r

instance (s : LeaderSystem) : Decidable (WatermarkSafe s) :=
  match h : s.leader.getHighWatermark s.log with
  | .error _ => isFalse (by simp [WatermarkSafe, h])
  | .ok (leader, hw) =>
    decidable_of_iff (∀ r ∈ leader.inSyncReplica, hw ≤ leader.offsetOf r)
      (by simp [WatermarkSafe, h])

/-- A follower that is in sync does not fetch below what it has acknowledged, and a
follower that is admitted has acknowledged the stored watermark. -/
def FollowersAdvance (s : LeaderSystem) : LeaderEvent → Prop
  | .fetch _ cmd => cmd.replicaId ∈ s.leader.inSyncReplica → cmd.replicaId ≠ s.leader.id →
      s.leader.offsetOf cmd.replicaId ≤ cmd.offset
  | .updateIsr now => ∀ r ∈ s.leader.newIsr now, r ∉ s.leader.inSyncReplica → r ≠ s.leader.id →
      s.leader.highWatermark ≤ s.leader.offsetOf r
  | _ => True

instance (s : LeaderSystem) (event : LeaderEvent) : Decidable (FollowersAdvance s event) :=
  match event with
  | .fetch _ cmd => inferInstanceAs (Decidable (cmd.replicaId ∈ s.leader.inSyncReplica →
      cmd.replicaId ≠ s.leader.id → s.leader.offsetOf cmd.replicaId ≤ cmd.offset))
  | .updateIsr now => inferInstanceAs (Decidable (∀ r ∈ s.leader.newIsr now,
      r ∉ s.leader.inSyncReplica → r ≠ s.leader.id →
        s.leader.highWatermark ≤ s.leader.offsetOf r))
  | .log _ => isTrue trivial
  | .getHighWatermark => isTrue trivial
  | .submit _ => isTrue trivial
  | .flush _ _ => isTrue trivial
  | .resume _ => isTrue trivial

/-- The leader's topic exists and the stored watermark is safe. -/
structure WatermarkOk (s : LeaderSystem) : Prop where
  shaped : s.log.registry.Shaped
  known : ∃ logEnd, s.log.getLatestOffset s.leader.topic = .ok logEnd ∧
    s.leader.highWatermark ≤ logEnd
  member : s.leader.id ∈ s.leader.inSyncReplica
  below : ∀ r ∈ s.leader.inSyncReplica, r ≠ s.leader.id →
    s.leader.highWatermark ≤ s.leader.offsetOf r

section
variable {s : LeaderSystem}

theorem WatermarkRead.safe {leader leader' : ReplicaLeader} {logEnd hw : Int}
    (wm : WatermarkRead leader leader' logEnd hw) (member : leader.id ∈ leader.inSyncReplica)
    (hend : leader.highWatermark ≤ logEnd)
    (below : ∀ r ∈ leader.inSyncReplica, r ≠ leader.id → leader.highWatermark ≤ leader.offsetOf r) :
    ∀ r ∈ leader.inSyncReplica, hw ≤ leader'.offsetOf r := by
  have hne := List.ne_nil_of_mem member
  rcases wm.bound hne with hold | hmin
  · intro r hr
    rw [hold]
    by_cases hid : r = leader.id
    · rw [hid, wm.own hne]
      exact hend
    · rw [wm.others r hid]
      exact below r hr hid
  · exact hmin

/-- A watermark read keeps the invariant. -/
theorem WatermarkOk.read (ok : WatermarkOk s) {leader' : ReplicaLeader} {logEnd hw : Int}
    (hlatest : s.log.getLatestOffset s.leader.topic = .ok logEnd)
    (wm : WatermarkRead s.leader leader' logEnd hw) : WatermarkOk { s with leader := leader' } := by
  obtain ⟨logEnd', hlatest', hend⟩ := ok.known
  obtain rfl : logEnd' = logEnd := Except.ok.inj (hlatest'.symm.trans hlatest)
  have safe := wm.safe ok.member hend ok.below
  have hne := List.ne_nil_of_mem ok.member
  refine ⟨ok.shaped, ⟨logEnd', ?_, ?_⟩, ?_, ?_⟩
  · change s.log.getLatestOffset leader'.topic = _
    rw [wm.topic, hlatest]
  · change leader'.highWatermark ≤ logEnd'
    rw [wm.stored, ← wm.own hne]
    exact safe _ ok.member
  · change leader'.id ∈ leader'.inSyncReplica
    rw [wm.id, wm.isr]
    exact ok.member
  · intro r hr _
    change r ∈ leader'.inSyncReplica at hr
    change leader'.highWatermark ≤ leader'.offsetOf r
    rw [wm.stored]
    exact safe r (wm.isr ▸ hr)

theorem WatermarkOk.safe (ok : WatermarkOk s) : WatermarkSafe s := by
  obtain ⟨logEnd, hlatest, hend⟩ := ok.known
  obtain ⟨leader', hw, hread, wm⟩ := getHighWatermark_spec hlatest
  simp only [WatermarkSafe, hread, wm.isr]
  exact wm.safe ok.member hend ok.below

/-- Any change of the log that does not move its end back keeps the invariant. -/
theorem WatermarkOk.replaceLog (ok : WatermarkOk s) {log : LogManager}
    (shaped : log.registry.Shaped) (grow : EndsGrow s.log log) :
    WatermarkOk { s with log := log } := by
  obtain ⟨logEnd, hlatest, hend⟩ := ok.known
  obtain ⟨logEnd', hlatest', hle⟩ := grow _ _ hlatest
  exact ⟨shaped, ⟨logEnd', hlatest', le_trans hend hle⟩, ok.member, ok.below⟩

theorem WatermarkOk.setPhase (ok : WatermarkOk s) (i : Nat) (phase : WritePhase) :
    WatermarkOk (s.setPhase i phase) := ⟨ok.shaped, ok.known, ok.member, ok.below⟩

theorem WatermarkOk.fetch (ok : WatermarkOk s) (env : CallEnv) {cmd : ReplicaFetchCommand}
    (advance : cmd.replicaId ∈ s.leader.inSyncReplica → cmd.replicaId ≠ s.leader.id →
      s.leader.offsetOf cmd.replicaId ≤ cmd.offset) :
    WatermarkOk { s with
      leader := (s.leader.handle s.log env cmd).1
      log := (s.leader.handle s.log env cmd).2.1 } := by
  obtain ⟨logEnd, hlatest, hend⟩ := ok.known
  obtain ⟨hreg, hcase⟩ := handle_spec hlatest env cmd
  have relog : ∀ leader, WatermarkOk { s with leader := leader } →
      WatermarkOk { s with leader := leader, log := (s.leader.handle s.log env cmd).2.1 } := by
    intro leader ok'
    exact ok'.replaceLog (by rw [hreg]; exact ok.shaped) (endsGrow_of_registry hreg)
  apply relog
  rcases hcase with hsame | recorded
  · rw [hsame]
    exact ok
  · obtain ⟨leader₁, wm, hoffset⟩ := recorded.read
    have ok₁ := ok.read hlatest wm
    obtain ⟨logEnd₁, hlatest₁, hend₁⟩ := ok₁.known
    have hstored := wm.stored
    refine ⟨ok.shaped, ⟨logEnd, ?_, ?_⟩, ?_, ?_⟩
    · change s.log.getLatestOffset (s.leader.handle s.log env cmd).1.topic = _
      rw [recorded.topic, hlatest]
    · have : s.log.getLatestOffset leader₁.topic = .ok logEnd₁ := hlatest₁
      rw [wm.topic, hlatest] at this
      obtain rfl := Except.ok.inj this
      change (s.leader.handle s.log env cmd).1.highWatermark ≤ logEnd
      rw [← hstored]
      exact hend₁
    · change (s.leader.handle s.log env cmd).1.id ∈
        (s.leader.handle s.log env cmd).1.inSyncReplica
      rw [recorded.id, recorded.isr]
      exact ok.member
    · intro r hr hid
      change r ∈ (s.leader.handle s.log env cmd).1.inSyncReplica at hr
      change r ≠ (s.leader.handle s.log env cmd).1.id at hid
      change (s.leader.handle s.log env cmd).1.highWatermark ≤
        (s.leader.handle s.log env cmd).1.offsetOf r
      rw [recorded.isr] at hr
      rw [recorded.id] at hid
      have hbelow : (s.leader.handle s.log env cmd).1.highWatermark ≤ leader₁.offsetOf r := by
        rw [← hstored]
        refine ok₁.below r ?_ ?_
        · change r ∈ leader₁.inSyncReplica
          rw [wm.isr]
          exact hr
        · change r ≠ leader₁.id
          rw [wm.id]
          exact hid
      rw [hoffset]
      split
      · next heq =>
          subst heq
          have hadv := advance hr hid
          rw [wm.others _ hid] at hbelow
          omega
      · exact hbelow

theorem WatermarkOk.updateIsr (ok : WatermarkOk s) {now : Time} {leader : ReplicaLeader}
    (h : s.leader.updateIsr now = .ok leader)
    (admitted : ∀ r ∈ s.leader.newIsr now, r ∉ s.leader.inSyncReplica → r ≠ s.leader.id →
      s.leader.highWatermark ≤ s.leader.offsetOf r) : WatermarkOk { s with leader := leader } := by
  unfold ReplicaLeader.updateIsr at h
  split at h
  · obtain rfl := Except.ok.inj h
    refine ⟨ok.shaped, ok.known, List.mem_cons_self, ?_⟩
    intro r hr hid
    by_cases hold : r ∈ s.leader.inSyncReplica
    · exact ok.below r hold hid
    · exact admitted r hr hold hid
  · cases h

theorem WatermarkOk.flush (ok : WatermarkOk s) (i : Nat) (env : CallEnv) :
    WatermarkOk (s.flush i env).1 := by
  unfold LeaderSystem.flush
  split
  · next payload hw =>
      obtain ⟨shaped, grow⟩ := apply_offsets ok.shaped (.append s.leader.topic env payload)
      have ok' := ok.replaceLog shaped grow
      simp only [LogManager.apply] at ok'
      split
      · next hres =>
          rw [hres] at ok'
          exact ok'.setPhase i _
      · next hres =>
          rw [hres] at ok'
          exact ok'.setPhase i _
  · exact ok

theorem WatermarkOk.resume (ok : WatermarkOk s) (i : Nat) : WatermarkOk (s.resume i).1 := by
  obtain ⟨logEnd, hlatest, -⟩ := ok.known
  obtain ⟨leader', hw, hread, wm⟩ := getHighWatermark_spec hlatest
  have ok' := ok.read hlatest wm
  unfold LeaderSystem.resume
  split
  · next payload offset hwrite =>
      simp only [ReplicaLeader.waitForHw, hread]
      split
      · next hres => split at hres <;> cases hres
      · next hres =>
          split at hres
          · obtain ⟨rfl, -⟩ := Prod.mk.inj (Except.ok.inj hres)
            exact ok'.setPhase i _
          · cases hres
      · next hres =>
          split at hres
          · cases hres
          · obtain ⟨rfl, -⟩ := Prod.mk.inj (Except.ok.inj hres)
            exact ⟨ok'.shaped, ok'.known, ok'.member, ok'.below⟩
  · exact ok

theorem WatermarkOk.step (ok : WatermarkOk s) {event : LeaderEvent}
    (advance : FollowersAdvance s event) : WatermarkOk (s.step event).1 := by
  cases event with
  | log op =>
      obtain ⟨shaped, grow⟩ := apply_offsets ok.shaped op
      exact ok.replaceLog shaped grow
  | fetch env cmd => exact ok.fetch env advance
  | updateIsr now =>
      simp only [LeaderSystem.step]
      split
      · exact ok
      · next leader h => exact ok.updateIsr h advance
  | getHighWatermark =>
      obtain ⟨logEnd, hlatest, -⟩ := ok.known
      obtain ⟨leader', hw, hread, wm⟩ := getHighWatermark_spec hlatest
      simp only [LeaderSystem.step, hread]
      exact ok.read hlatest wm
  | submit payload => exact ⟨ok.shaped, ok.known, ok.member, ok.below⟩
  | flush i env => exact ok.flush i env
  | resume i => exact ok.resume i

end

theorem shaped_start (config : LogConfig) (importTime : Time) :
    (LogManager.start config importTime).registry.Shaped := by
  simp [LogManager.start, SegmentRegistry.Shaped]

/-- The registry has its shape after any operations whatsoever. -/
theorem shaped_run (config : LogConfig) (importTime : Time) (ops : List LogOp) :
    (run LogManager.apply (LogManager.start config importTime) ops).registry.Shaped := by
  have meets : ∀ lm, MeetsAll LogManager.apply (fun _ _ => True) lm ops := by
    induction ops with
    | nil => exact fun _ => trivial
    | cons op ops ih => exact fun lm => ⟨trivial, ih _⟩
  exact (meets _).invariant (fun lm => lm.registry.Shaped)
    (fun lm op h _ => (apply_offsets h op).1) (shaped_start config importTime)

/-- A new leader's watermark is the end of the log, and it is alone in sync. -/
theorem watermarkOk_new {lm : LogManager} (shaped : lm.registry.Shaped) {topic id : String}
    {replicaList : List String} {minIsrCount maxIsrLagMs : Int} {leader : ReplicaLeader}
    (h : ReplicaLeader.new topic id replicaList lm minIsrCount maxIsrLagMs = .ok leader) :
    WatermarkOk (LeaderSystem.start lm leader) := by
  unfold ReplicaLeader.new at h
  split at h
  · cases h
  · next logEnd hlatest =>
      simp only [ReplicaLeader.computeHighWatermark, ReplicaLeader.getLogEndOffset, hlatest,
        ReplicaLeader.minOffset, ReplicaLeader.offsetOf, List.foldl_nil, Except.ok.injEq] at h
      subst h
      refine ⟨shaped, ⟨logEnd, hlatest, ?_⟩, List.mem_singleton_self _, ?_⟩
      · simp [LeaderSystem.start]
      · intro r hr hid
        exact absurd (List.mem_singleton.mp hr) hid

/-- Over any log and in any run in which followers advance, every high watermark
the leader hands out has been acknowledged by all in-sync replicas. -/
theorem high_watermark_safe (config : LogConfig) (importTime : Time) (ops : List LogOp)
    (topic id : String) (replicaList : List String) (minIsrCount maxIsrLagMs : Int)
    (leader : ReplicaLeader)
    (hnew : ReplicaLeader.new topic id replicaList
      (run LogManager.apply (LogManager.start config importTime) ops) minIsrCount maxIsrLagMs =
        .ok leader) (events : List LeaderEvent)
    (advance : MeetsAll LeaderSystem.step FollowersAdvance
      (LeaderSystem.start (run LogManager.apply (LogManager.start config importTime) ops) leader)
      events) :
    ∀ early late, events = early ++ late →
      WatermarkSafe (run LeaderSystem.step (LeaderSystem.start
        (run LogManager.apply (LogManager.start config importTime) ops) leader) early) := by
  rintro early late rfl
  have init := watermarkOk_new (shaped_run config importTime ops) hnew
  exact (advance.of_append.1.invariant WatermarkOk (fun s event ok h => ok.step h) init).safe

/-- The log of one topic after some appends, with a leader just created over it. -/
def logAfter (payloads : List Bytes) : LogManager :=
  run LogManager.apply (LogManager.start ⟨"data", 0, 1000000, 100, 16, 16, 4⟩ 0)
    (.createTopic "t" :: payloads.map fun p => .append "t" ⟨0, .succeed⟩ p)

/-- A leader `l` with one follower `f`, created when the log ends at `logEnd`. -/
def leaderAt (logEnd : Int) : ReplicaLeader :=
  { topic := "t"
    id := "l"
    replicaList := ["l", "f"]
    minIsrCount := 2
    maxIsrLagMs := 10000
    inSyncReplica := ["l"]
    replicaOffset := Dict.empty.set "l" logEnd
    hwWaiterQueue := []
    highWatermark := logEnd
    replicaLastCaughtup := Dict.empty }

/-- The follower is admitted at offset zero and fetches one record. -/
def catchUp : List LeaderEvent :=
  [.updateIsr 1, .log (.append "t" ⟨0, .succeed⟩ [7]), .fetch ⟨2, .succeed⟩ ⟨"t", 0, 100, "f"⟩,
    .fetch ⟨3, .succeed⟩ ⟨"t", 5, 100, "f"⟩]

theorem high_watermark_safe_catchUp :
    WatermarkSafe (run LeaderSystem.step (LeaderSystem.start (logAfter []) (leaderAt 0)) catchUp) :=
  high_watermark_safe ⟨"data", 0, 1000000, 100, 16, 16, 4⟩ 0 [.createTopic "t"] "t" "l" ["l", "f"] 2
    10000 (leaderAt 0) (by decide +kernel) catchUp (by decide +kernel) catchUp []
    (by rw [List.append_nil])

/-- A leader elected over a log with one record starts with the watermark at its
end and then admits a follower that has fetched nothing. -/
theorem admitted_follower_behind_watermark :
    ReplicaLeader.new "t" "l" ["l", "f"] (logAfter [[7]]) 2 10000 = .ok (leaderAt 5) ∧
      ¬ WatermarkSafe (run LeaderSystem.step (LeaderSystem.start (logAfter [[7]]) (leaderAt 5))
        [.updateIsr 1]) :=
  ⟨by decide +kernel, by decide +kernel⟩

end PyLogStream
