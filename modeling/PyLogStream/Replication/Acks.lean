import PyLogStream.Replication.Watermark

/-!
What an `acks = -1` acknowledgement promises. The handler compares the watermark
with the offset at which the record starts, so the record is known to be
replicated only when no in-sync follower has stopped inside it and the stored
watermark has not run ahead of an in-sync follower.
-/

namespace PyLogStream
open Lib

/-- Every in-sync replica has fetched the whole record that starts at `offset`. -/
def Replicated (leader : ReplicaLeader) (payload : Bytes) (offset : Int) : Prop :=
  ∀ r ∈ leader.inSyncReplica, offset + 4 + payload.length ≤ leader.offsetOf r

/-- The offset of a write whose handler is about to resume. -/
def WritePhase.writtenAt? : WritePhase → Option Int
  | .written offset => some offset
  | _ => none

/-- When a handler resumes, no in-sync follower stands at the start of the record
or inside it, and none is behind its start while the watermark is not. -/
def FollowersPastRecord (s : LeaderSystem) : LeaderEvent → Prop
  | .resume i =>
    ∀ w ∈ s.writes[i]?, ∀ offset ∈ w.phase.writtenAt?,
      ∀ r ∈ s.leader.inSyncReplica, r ≠ s.leader.id →
        ¬ (offset ≤ s.leader.offsetOf r ∧ s.leader.offsetOf r < offset + 4 + w.payload.length) ∧
          (offset ≤ s.leader.highWatermark → offset ≤ s.leader.offsetOf r)
  | _ => True

instance (s : LeaderSystem) (event : LeaderEvent) : Decidable (FollowersPastRecord s event) :=
  match event with
  | .resume i => inferInstanceAs (Decidable (∀ w ∈ s.writes[i]?, ∀ offset ∈ w.phase.writtenAt?,
      ∀ r ∈ s.leader.inSyncReplica, r ≠ s.leader.id →
        ¬ (offset ≤ s.leader.offsetOf r ∧ s.leader.offsetOf r < offset + 4 + w.payload.length) ∧
          (offset ≤ s.leader.highWatermark → offset ≤ s.leader.offsetOf r)))
  | .log _ => isTrue trivial
  | .fetch _ _ => isTrue trivial
  | .updateIsr _ => isTrue trivial
  | .getHighWatermark => isTrue trivial
  | .submit _ => isTrue trivial
  | .flush _ _ => isTrue trivial

/-- Every written record lies inside the log. -/
structure AcksOk (s : LeaderSystem) : Prop where
  shaped : s.log.registry.Shaped
  known : ∃ logEnd, s.log.getLatestOffset s.leader.topic = .ok logEnd ∧
    ∀ w ∈ s.writes, ∀ offset, w.phase = .written offset → offset + 4 + w.payload.length ≤ logEnd

section
variable {s : LeaderSystem}

theorem AcksOk.replaceLog (ok : AcksOk s) {log : LogManager} (shaped : log.registry.Shaped)
    (grow : EndsGrow s.log log) : AcksOk { s with log := log } := by
  obtain ⟨logEnd, hlatest, hwrites⟩ := ok.known
  obtain ⟨logEnd', hlatest', hle⟩ := grow _ _ hlatest
  exact ⟨shaped, logEnd', hlatest', fun w hw offset hphase =>
    le_trans (hwrites w hw offset hphase) hle⟩

theorem AcksOk.replaceLeader (ok : AcksOk s) {leader : ReplicaLeader}
    (htopic : leader.topic = s.leader.topic) : AcksOk { s with leader := leader } := by
  obtain ⟨logEnd, hlatest, hwrites⟩ := ok.known
  refine ⟨ok.shaped, logEnd, ?_, hwrites⟩
  change s.log.getLatestOffset leader.topic = _
  rw [htopic, hlatest]

/-- A write may enter any phase; if it is written, its record must fit the log. -/
theorem AcksOk.setPhase (ok : AcksOk s) (i : Nat) (phase : WritePhase)
    (hfit : ∀ w offset, s.writes[i]? = some w → phase = .written offset →
      ∀ logEnd, s.log.getLatestOffset s.leader.topic = .ok logEnd →
        offset + 4 + w.payload.length ≤ logEnd) : AcksOk (s.setPhase i phase) := by
  obtain ⟨logEnd, hlatest, hwrites⟩ := ok.known
  refine ⟨ok.shaped, logEnd, hlatest, ?_⟩
  intro w hw offset hphase
  obtain ⟨j, hj⟩ := List.getElem?_of_mem hw
  simp only [LeaderSystem.setPhase, List.getElem?_modify] at hj
  obtain ⟨w₀, hw₀, rfl⟩ := Option.map_eq_some_iff.mp hj
  split at hphase
  · next heq =>
      subst heq
      rw [if_pos rfl]
      exact hfit w₀ offset hw₀ hphase logEnd hlatest
  · next hne =>
      rw [if_neg hne]
      exact hwrites w₀ (List.mem_of_getElem? hw₀) offset hphase

/-- A handler that returns has found the watermark at the start of its record. -/
theorem resume_acknowledged (ok : AcksOk s) {i : Nat} {w : PendingWrite} {offset : Int}
    (h : (s.resume i).2 = .acknowledged w offset)
    (past : FollowersPastRecord s (.resume i)) :
    Replicated (s.resume i).1.leader w.payload offset := by
  obtain ⟨logEnd, hlatest, hwrites⟩ := ok.known
  obtain ⟨leader', hw, hread, wm⟩ := getHighWatermark_spec hlatest
  unfold LeaderSystem.resume at h ⊢
  split at h
  · next payload start hwrite =>
      simp only [ReplicaLeader.waitForHw, hread] at h ⊢
      by_cases hreached : hw ≥ start
      · simp only [if_pos hreached] at h ⊢
        obtain ⟨rfl, rfl⟩ := LeaderResult.acknowledged.inj h
        intro r hr
        change r ∈ leader'.inSyncReplica at hr
        change start + 4 + payload.length ≤ leader'.offsetOf r
        have hr₀ : r ∈ s.leader.inSyncReplica := wm.isr ▸ hr
        have hne := List.ne_nil_of_mem hr₀
        have hfit := hwrites _ (List.mem_of_getElem? hwrite) start rfl
        by_cases hid : r = s.leader.id
        · rw [hid, wm.own hne]
          exact hfit
        · obtain ⟨houtside, hbehind⟩ := past _ hwrite start rfl r hr₀ hid
          rw [wm.others r hid]
          have hstart : start ≤ s.leader.offsetOf r := by
            rcases wm.bound hne with hold | hmin
            · exact hbehind (by omega)
            · have := hmin r hr₀
              rw [wm.others r hid] at this
              omega
          exact not_lt.mp fun hlt => houtside ⟨hstart, hlt⟩
      · simp only [if_neg hreached] at h
        cases h
  · cases h

theorem AcksOk.flush (ok : AcksOk s) (i : Nat) (env : CallEnv) : AcksOk (s.flush i env).1 := by
  unfold LeaderSystem.flush
  split
  · next payload hwrite =>
      obtain ⟨shaped, grow⟩ := apply_offsets ok.shaped (.append s.leader.topic env payload)
      have ok' := ok.replaceLog shaped grow
      simp only [LogManager.apply] at ok'
      split
      · next log err hres =>
          rw [hres] at ok'
          exact ok'.setPhase i _ (by simp)
      · next log offset hres =>
          obtain ⟨n, hn, -, hlatest'⟩ := append_returned ok.shaped (congrArg Prod.snd hres)
          rw [hres] at ok' hlatest'
          refine ok'.setPhase i _ ?_
          intro w offset' hw hphase logEnd hlatest
          obtain rfl : offset = offset' := WritePhase.written.inj hphase
          obtain rfl : w = ⟨payload, .submitted⟩ := Option.some.inj (hw.symm.trans hwrite)
          have hend : log.getLatestOffset s.leader.topic = .ok logEnd := hlatest
          rw [hlatest'] at hend
          have hlogEnd := Except.ok.inj hend
          simp only
          omega
  · exact ok

theorem AcksOk.resume (ok : AcksOk s) (i : Nat) : AcksOk (s.resume i).1 := by
  obtain ⟨logEnd, hlatest, -⟩ := ok.known
  obtain ⟨leader', hw, hread, wm⟩ := getHighWatermark_spec hlatest
  have ok' := ok.replaceLeader wm.topic
  unfold LeaderSystem.resume
  split
  · next payload offset hwrite =>
      simp only [ReplicaLeader.waitForHw, hread]
      by_cases hreached : hw ≥ offset
      · simp only [if_pos hreached]
        exact ok'.setPhase i _ (by simp)
      · simp only [if_neg hreached]
        apply AcksOk.setPhase
        · exact ok'.replaceLeader rfl
        · simp
  · exact ok

theorem AcksOk.step (ok : AcksOk s) (event : LeaderEvent) : AcksOk (s.step event).1 := by
  obtain ⟨logEnd, hlatest, hwrites⟩ := ok.known
  cases event with
  | log op =>
      obtain ⟨shaped, grow⟩ := apply_offsets ok.shaped op
      exact ok.replaceLog shaped grow
  | fetch env cmd =>
      obtain ⟨hreg, hcase⟩ := handle_spec hlatest env cmd
      have htopic : (s.leader.handle s.log env cmd).1.topic = s.leader.topic := by
        rcases hcase with hsame | recorded
        · rw [hsame]
        · exact recorded.topic
      have shaped : (s.leader.handle s.log env cmd).2.1.registry.Shaped := by
        rw [hreg]
        exact ok.shaped
      exact (ok.replaceLeader htopic).replaceLog shaped (endsGrow_of_registry hreg)
  | updateIsr now =>
      simp only [LeaderSystem.step, ReplicaLeader.updateIsr]
      split
      · exact ok
      · next leader h =>
          split at h
          · obtain rfl := Except.ok.inj h
            exact ok.replaceLeader rfl
          · cases h
  | getHighWatermark =>
      obtain ⟨leader', hw, hread, wm⟩ := getHighWatermark_spec hlatest
      simp only [LeaderSystem.step, hread]
      exact ok.replaceLeader wm.topic
  | submit payload =>
      refine ⟨ok.shaped, logEnd, hlatest, ?_⟩
      intro w hw offset hphase
      rcases List.mem_append.mp hw with hold | hnew
      · exact hwrites w hold offset hphase
      · rw [List.mem_singleton.mp hnew] at hphase
        cases hphase
  | flush i env => exact ok.flush i env
  | resume i => exact ok.resume i

/-- Only a resumed handler returns to its producer. -/
theorem step_acknowledged {event : LeaderEvent} {w : PendingWrite} {offset : Int}
    (h : (s.step event).2 = .acknowledged w offset) : ∃ i, event = .resume i := by
  cases event with
  | resume i => exact ⟨i, rfl⟩
  | updateIsr now =>
      simp only [LeaderSystem.step] at h
      split at h <;> cases h
  | getHighWatermark =>
      simp only [LeaderSystem.step] at h
      split at h <;> cases h
  | flush i env =>
      simp only [LeaderSystem.step, LeaderSystem.flush] at h
      split at h
      · split at h <;> cases h
      · cases h
  | _ => cases h

end

/-- In any run in which the followers are past a record whenever its handler
resumes, an `acks = -1` write is acknowledged only once every in-sync replica has
fetched the whole record. -/
theorem acks_all_replicated (config : LogConfig) (importTime : Time) (ops : List LogOp)
    (topic id : String) (replicaList : List String) (minIsrCount maxIsrLagMs : Int)
    (leader : ReplicaLeader)
    (hnew : ReplicaLeader.new topic id replicaList
      (run LogManager.apply (LogManager.start config importTime) ops) minIsrCount maxIsrLagMs =
        .ok leader) (early late : List LeaderEvent) (event : LeaderEvent)
    (past : MeetsAll LeaderSystem.step FollowersPastRecord
      (LeaderSystem.start (run LogManager.apply (LogManager.start config importTime) ops) leader)
      (early ++ event :: late)) (w : PendingWrite) (offset : Int) :
    let s := run LeaderSystem.step (LeaderSystem.start
      (run LogManager.apply (LogManager.start config importTime) ops) leader) early
    (s.step event).2 = .acknowledged w offset →
      Replicated (s.step event).1.leader w.payload offset := by
  intro s hack
  have wmOk := watermarkOk_new (shaped_run config importTime ops) hnew
  obtain ⟨logEnd, hlatest, -⟩ := wmOk.known
  have init : AcksOk (LeaderSystem.start
      (run LogManager.apply (LogManager.start config importTime) ops) leader) :=
    ⟨wmOk.shaped, logEnd, hlatest, by simp [LeaderSystem.start]⟩
  obtain ⟨hearly, hevent, -⟩ := past.of_append
  have ok : AcksOk s := hearly.invariant AcksOk (fun s event ok _ => ok.step event) init
  obtain ⟨i, rfl⟩ := step_acknowledged hack
  exact resume_acknowledged ok hack hevent

/-- The follower is in sync from the start and reads past the record before the
handler resumes. -/
def replicatedWrite : List LeaderEvent :=
  [.updateIsr 1, .submit [7], .flush 0 ⟨0, .succeed⟩, .fetch ⟨2, .succeed⟩ ⟨"t", 0, 100, "f"⟩,
    .fetch ⟨3, .succeed⟩ ⟨"t", 5, 100, "f"⟩]

theorem acks_all_replicated_write :
    let s := run LeaderSystem.step (LeaderSystem.start (logAfter []) (leaderAt 0)) replicatedWrite
    (s.step (.resume 0)).2 = .acknowledged ⟨[7], .written 0⟩ 0 ∧
      Replicated (s.step (.resume 0)).1.leader [7] 0 := by
  have hack : ((run LeaderSystem.step (LeaderSystem.start (logAfter []) (leaderAt 0))
      replicatedWrite).step (.resume 0)).2 = .acknowledged ⟨[7], .written 0⟩ 0 := by decide +kernel
  exact ⟨hack, acks_all_replicated ⟨"data", 0, 1000000, 100, 16, 16, 4⟩ 0 [.createTopic "t"] "t" "l"
    ["l", "f"] 2 10000 (leaderAt 0) (by decide +kernel) replicatedWrite [] (.resume 0)
    (by decide +kernel) ⟨[7], .written 0⟩ 0 hack⟩

/-- With the same follower in sync but not fetching, the first record of a topic is
acknowledged at once: it starts at the watermark. -/
theorem acknowledged_before_replicated :
    let s := run LeaderSystem.step (LeaderSystem.start (logAfter []) (leaderAt 0))
      (replicatedWrite.take 3)
    ReplicaLeader.new "t" "l" ["l", "f"] (logAfter []) 2 10000 = .ok (leaderAt 0) ∧
      (s.step (.resume 0)).2 = .acknowledged ⟨[7], .written 0⟩ 0 ∧
      ¬ Replicated (s.step (.resume 0)).1.leader [7] 0 := by
  refine ⟨by decide +kernel, by decide +kernel, ?_⟩
  unfold Replicated
  decide +kernel

end PyLogStream
