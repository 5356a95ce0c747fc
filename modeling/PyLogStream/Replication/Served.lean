import PyLogStream.Network.Pull
import PyLogStream.Replication.Calls
import PyLogStream.Replication.Fetcher

/-!
How a leader serves a follower. At the start of a record the answer carries the next
whole records, read from the log or from the file that the answer names. At the end of
the log there is no record, the registry finds no segment for the offset, and the fetch
raises: the follower that has everything is the one that is not served.
-/

namespace PyLogStream
open Lib

/-- The follower receives whole records from the offset on, none exactly at the end. -/
def ServedFrom (rest : List Bytes) (offset logEnd : Int) (disk : Disk)
    (answer : Except LeaderError ReplicaResponse) : Prop :=
  ∃ resp payload got, answer = .ok resp ∧ resp.received disk = some payload ∧
    payload = frames got ∧ got <+: rest ∧ (payload = [] ↔ offset = logEnd)

/-- The log can be read at its records, or its files cannot be loaded and it is empty. -/
def LogInOrder (lm : LogManager) : Prop := (LogOk lm ∧ RecordsOk lm) ∨ Stalled lm

namespace LeaderOverLog

/-- Operations on the log are safe, and files of a fetch can be opened. -/
def SafeTurn (s : LeaderOverLog) : LeaderTurn → Prop
  | .log op => SafeStep s.log op
  | .call (.handle env _) => env.ops = .succeed
  | .call _ => True

instance (s : LeaderOverLog) (turn : LeaderTurn) : Decidable (SafeTurn s turn) :=
  match turn with
  | .log op => inferInstanceAs (Decidable (SafeStep s.log op))
  | .call (.handle env _) => inferInstanceAs (Decidable (env.ops = .succeed))
  | .call (.updateIsr _) => isTrue trivial
  | .call .getHighWatermark => isTrue trivial
  | .call (.waitForHw _ _) => isTrue trivial

end LeaderOverLog

section
variable {lm : LogManager} {topic : String}

/-- No segment contains the end of the log. -/
theorem SegmentRegistry.Shaped.getSegment_end {r : SegmentRegistry} (shaped : r.Shaped)
    {logEnd : Int} (h : r.getLatestOffset topic = .ok logEnd) :
    ∃ err, r.getSegment topic logEnd = .error err := by
  cases hget : r.registry.get? topic with
  | none => exact ⟨_, by simp only [getSegment, hget]; rfl⟩
  | some segs =>
      obtain ⟨front, last, start, rfl, hsegs⟩ := shaped topic segs hget
      have hlast : logEnd = last.getEndOffset := by
        rw [getLatestOffset_active hget hsegs, Except.ok.injEq] at h
        rw [← h, SegmentMeta.getEndOffset, hsegs.at_end.base_eq]
        omega
      obtain ⟨hcont, -⟩ := hsegs.run.contiguous hsegs.at_end
      have hends : ∀ m ∈ front ++ [last], m.getEndOffset ≤ logEnd := by
        intro m hm
        rw [hlast]
        rcases List.mem_append.mp hm with hfront | hmem
        · refine (hcont.before_end_le hfront).trans ?_
          rw [SegmentMeta.getEndOffset]
          omega
        · rw [List.mem_singleton.mp hmem]
      have hnot : logEnd ≠ -1 := by
        have := hsegs.at_end.base_eq
        rw [hlast, SegmentMeta.getEndOffset]
        omega
      have hnotBeyond : ¬ last.getEndOffset < logEnd := by omega
      simp only [getSegment, hget, List.getLast?_concat, if_neg hnotBeyond, if_neg hnot]
      split
      · exact ⟨_, rfl⟩
      · split
        · exact ⟨_, rfl⟩
        · next m hm => exact ⟨_, if_pos (hends m (List.mem_of_getElem? hm))⟩

theorem Stalled.payloads_nil (h : Stalled lm) : lm.payloads topic = [] := by
  unfold LogManager.payloads
  cases hget : lm.registry.registry.get? topic with
  | none => rfl
  | some segs =>
      rw [h.fresh topic segs hget]
      simpa using (wholeRecords_empty lm.disk rfl).2

theorem LogInOrder.latestOffset (ok : LogInOrder lm) {logEnd : Int}
    (h : lm.getLatestOffset topic = .ok logEnd) :
    logEnd = (frames (lm.payloads topic)).length := by
  cases hget : lm.registry.registry.get? topic with
  | none => simp [LogManager.getLatestOffset, SegmentRegistry.getLatestOffset, hget] at h
  | some segs =>
      rcases ok with ⟨ok, recs⟩ | stalled
      · exact Except.ok.inj (h.symm.trans (latestOffset_eq ok recs hget))
      · rw [stalled.payloads_nil]
        simp only [LogManager.getLatestOffset, SegmentRegistry.getLatestOffset, hget,
          stalled.fresh topic segs hget] at h
        simpa [SegmentMeta.getEndOffset, SegmentRegistry.newSegment] using h.symm

theorem LogInOrder.apply (ok : LogInOrder lm) (op : LogOp) (safe : SafeStep lm op) :
    LogInOrder (lm.apply op).1 := by
  rcases ok with ⟨ok, recs⟩ | stalled
  · have effect := apply_effect ok safe
    exact Or.inl ⟨effect.ok, effect.records recs⟩
  · exact Or.inr (stalled.apply safe.files).1

end

section
variable {leader : ReplicaLeader} {lm : LogManager} {env : CallEnv} {cmd : ReplicaFetchCommand}

/-- An authorised fetch reads the log as a pull does, and closes a file it has opened. -/
theorem handle_eq_pushMessage (env : CallEnv) {logEnd : Int}
    (h : lm.getLatestOffset leader.topic = .ok logEnd)
    (hne : leader.inSyncReplica ≠ []) (hauth : cmd.replicaId ∈ leader.replicaList) :
    let push := Broker.pushMessage lm env ⟨cmd.topic, cmd.offset, cmd.size⟩
    (∃ err, push.2 = .error err ∧ (leader.handle lm env cmd).2 = (push.1, .error (.log err))) ∨
    (∃ payload hw, push.2 = .ok (.message cmd.topic payload) ∧ (leader.handle lm env cmd).2 =
      (push.1, .ok (.fetchBytes cmd.topic logEnd hw payload.length payload))) ∨
    ∃ path start length hw handle, push.2 = .ok (.file cmd.topic path start length) ∧
      (leader.handle lm env cmd).2 = (push.1.releaseHandle handle,
        .ok (.fetchFile cmd.topic logEnd hw length path start length)) := by
  have hend : leader.getLogEndOffset lm = .ok logEnd := h
  simp only [ReplicaLeader.handle, hauth, not_true_eq_false, if_false, hend,
    ReplicaLeader.getHighWatermark_eq h hne, Broker.pushMessage]
  by_cases hsize : cmd.size ≤ 1024
  · simp only [if_pos hsize]
    cases hres : lm.readBytes env cmd.topic cmd.offset cmd.size with
    | mk lm' result =>
        cases result with
        | error err => exact Or.inl ⟨err, rfl, rfl⟩
        | ok res => exact Or.inr (Or.inl ⟨res.data, _, rfl, rfl⟩)
  · simp only [if_neg hsize]
    cases hres : lm.read env cmd.topic cmd.offset cmd.size with
    | mk lm' result =>
        cases result with
        | error err => exact Or.inl ⟨err, rfl, rfl⟩
        | ok res => exact Or.inr (Or.inr ⟨_, _, _, _, res.handle, rfl, rfl⟩)

theorem safeStep_release (lm : LogManager) (handle : Nat) : SafeStep lm (.release handle) :=
  ⟨trivial, fun topic base h => by simp [LogManager.opened] at h⟩

theorem LogInOrder.pushMessage (ok : LogInOrder lm) (hops : env.ops = .succeed)
    (pull : PullCommand) : LogInOrder (Broker.pushMessage lm env pull).1 := by
  unfold Broker.pushMessage
  split
  · have hstep := ok.apply (.readBytes pull.topic env pull.offset pull.size)
      ⟨hops, fun topic base h => by simp [LogManager.opened] at h⟩
    simp only [LogManager.apply] at hstep
    split <;> next hres => rw [hres] at hstep; exact hstep
  · have hstep := ok.apply (.read pull.topic env pull.offset pull.size)
      ⟨hops, fun topic base h => by simp [LogManager.opened] at h⟩
    simp only [LogManager.apply] at hstep
    split <;> next hres => rw [hres] at hstep; exact hstep

theorem LogInOrder.handle {logEnd : Int} (ok : LogInOrder lm)
    (h : lm.getLatestOffset leader.topic = .ok logEnd) (hne : leader.inSyncReplica ≠ [])
    (hops : env.ops = .succeed) : LogInOrder (leader.handle lm env cmd).2.1 := by
  by_cases hauth : cmd.replicaId ∈ leader.replicaList
  · have hread := ok.pushMessage hops ⟨cmd.topic, cmd.offset, cmd.size⟩
    rcases handle_eq_pushMessage env h hne hauth with
      ⟨err, -, heq⟩ | ⟨payload, hw, -, heq⟩ | ⟨path, start, length, hw, handle, -, heq⟩
    · rw [heq]
      exact hread
    · rw [heq]
      exact hread
    · rw [heq]
      exact hread.apply _ (safeStep_release _ handle)
  · simpa [ReplicaLeader.handle, hauth] using ok

namespace LeaderOverLog

theorem step_inOrder {s : LeaderOverLog} (ok : Grounded s) (log : LogInOrder s.log)
    {turn : LeaderTurn} (safe : SafeTurn s turn) : LogInOrder (s.step turn).1.log := by
  obtain ⟨logEnd, h⟩ := ok.known
  have hne := ok.isr_ne_nil
  cases turn with
  | log op => exact log.apply op safe
  | call c =>
      cases c with
      | handle env cmd => exact log.handle h hne safe
      | updateIsr now =>
          simp only [step, ReplicaLeader.call_updateIsr]
          exact log
      | getHighWatermark =>
          simp only [step, ReplicaLeader.call_getHighWatermark h hne]
          exact log
      | waitForHw offset fut =>
          simp only [step, ReplicaLeader.call_waitForHw h hne]
          exact log

end LeaderOverLog

/-- A file answer announces as many bytes as the records of its batch have. -/
theorem pushMessage_length (ok : LogOk lm) {pull : PullCommand} (hops : env.ops = .succeed)
    {qs rest c₁ c₂ : List Bytes} {m : SegmentMeta} (b : Boundary lm pull.topic qs rest m c₁ c₂)
    (hoffset : pull.offset = (frames qs).length) {topic path : String} {start length : Int}
    (h : (Broker.pushMessage lm env pull).2 = .ok (.file topic path start length)) :
    length = (frames (firstBatch pull.size c₂)).length := by
  have hfound : lm.registry.getSegment pull.topic pull.offset = .ok m := hoffset ▸ b.found
  unfold Broker.pushMessage at h
  split at h
  · split at h <;> cases h
  · obtain ⟨lm', latest, handle, -, hread, -⟩ := read_spec ok hops pull.size hfound
    rw [hread] at h
    obtain ⟨-, -, -, rfl⟩ := PullResponse.file.inj (Except.ok.inj h)
    rw [hoffset]
    exact b.batchSize pull.size

/-- At the start of a record the answer carries whole records from there on. -/
theorem handle_at_record {logEnd : Int} (ok : LogOk lm) (recs : RecordsOk lm)
    (h : lm.getLatestOffset leader.topic = .ok logEnd) (hne : leader.inSyncReplica ≠ [])
    (hauth : cmd.replicaId ∈ leader.replicaList) (hops : env.ops = .succeed)
    {earlier rest : List Bytes} (hlog : lm.payloads cmd.topic = earlier ++ rest) (hrest : rest ≠ [])
    (hoffset : cmd.offset = (frames earlier).length) (after : List LogOp)
    (safe : MeetsAll LogManager.apply SafeStep (leader.handle lm env cmd).2.1 after) :
    ∃ resp got, (leader.handle lm env cmd).2.2 = .ok resp ∧
      resp.received (run LogManager.apply (leader.handle lm env cmd).2.1 after).disk =
        some (frames got) ∧ got <+: rest ∧ got ≠ [] := by
  obtain ⟨m, c₁, c₂, b⟩ := exists_boundary ok recs hlog hrest
  obtain ⟨segs, hget, hm⟩ := SegmentRegistry.getSegment_mem b.found
  have hgot : firstBatch cmd.size c₂ <+: rest := (firstBatch_isPrefix cmd.size c₂).trans b.follows
  have hsome : firstBatch cmd.size c₂ ≠ [] := firstBatch_ne_nil cmd.size b.nonempty
  let pull : PullCommand := ⟨cmd.topic, cmd.offset, cmd.size⟩
  have hfrom : RecordsFrom lm pull.topic pull.offset c₂ := by
    have hb := b.offset
    exact ⟨segs, hget, m, hm, c₁, b.chunk, by simp only [pull]; omega⟩
  rcases handle_eq_pushMessage env h hne hauth with
    ⟨err, hpush, heq⟩ | ⟨payload, hw, hpush, heq⟩ | ⟨path, start, length, hw, handle, hpush, heq⟩
  · obtain ⟨resp, hresp, -⟩ := pushMessage_spec ok recs hops hfrom b.nonempty []
      trivial
    cases hpush.symm.trans hresp
  · rw [heq] at safe ⊢
    obtain ⟨resp, hresp, hsent, -⟩ := pushMessage_spec ok recs hops hfrom b.nonempty
      after safe
    obtain rfl := Except.ok.inj (hpush.symm.trans hresp)
    obtain rfl : payload = _ := Option.some.inj hsent
    exact ⟨_, _, rfl, by simp [ReplicaResponse.received]; rfl, hgot, hsome⟩
  · rw [heq] at safe ⊢
    obtain ⟨resp, hresp, hsent, -⟩ := pushMessage_spec ok recs hops hfrom b.nonempty
      (.release handle :: after) ⟨safeStep_release _ handle, safe⟩
    obtain rfl := Except.ok.inj (hpush.symm.trans hresp)
    have hlength := pushMessage_length ok hops b hoffset hpush
    have hsendfile : (run LogManager.apply (((Broker.pushMessage lm env pull).1).releaseHandle handle)
        after).disk.sendfile path start length = some (frames (firstBatch cmd.size c₂)) := hsent
    refine ⟨_, _, rfl, ?_, hgot, hsome⟩
    rw [ReplicaResponse.received, hsendfile]
    exact if_pos hlength.symm

/-- At the end of the log the fetch raises. -/
theorem handle_at_end (env : CallEnv) {logEnd : Int} (shaped : lm.registry.Shaped)
    (h : lm.getLatestOffset leader.topic = .ok logEnd) (hne : leader.inSyncReplica ≠ [])
    (hauth : cmd.replicaId ∈ leader.replicaList) (htopic : cmd.topic = leader.topic)
    (hoffset : cmd.offset = logEnd) :
    ∃ err, (leader.handle lm env cmd).2.2 = .error (.log err) := by
  obtain ⟨err, herr⟩ := shaped.getSegment_end h
  rw [← htopic, ← hoffset] at herr
  have hend : leader.getLogEndOffset lm = .ok logEnd := h
  refine ⟨err, ?_⟩
  simp only [ReplicaLeader.handle, hauth, not_true_eq_false, if_false, hend,
    ReplicaLeader.getHighWatermark_eq h hne, LogManager.readBytes, LogManager.read, herr]
  split <;> rfl

end

namespace LeaderOverLog

/-- In any safe run, a follower that asks for a record boundary of the leader's topic is
served exactly if the boundary is not the end of the log. -/
theorem fetch_served_iff (config : LogConfig) (importTime : Time) (ops : List LogOp)
    (safeOps : MeetsAll LogManager.apply SafeStep (LogManager.start config importTime) ops)
    (topic id : String) (replicaList : List String) (minIsrCount maxIsrLagMs : Int)
    (leader : ReplicaLeader)
    (hnew : ReplicaLeader.new topic id replicaList
      (run LogManager.apply (LogManager.start config importTime) ops) minIsrCount maxIsrLagMs =
        .ok leader) (turns : List LeaderTurn)
    (safeTurns : MeetsAll step SafeTurn
      ⟨run LogManager.apply (LogManager.start config importTime) ops, leader⟩ turns) :
    let s := run step ⟨run LogManager.apply (LogManager.start config importTime) ops, leader⟩ turns
    ∃ logEnd, s.log.getLatestOffset s.leader.topic = .ok logEnd ∧
      ∀ (env : CallEnv) (cmd : ReplicaFetchCommand) (earlier rest : List Bytes)
          (after : List LogOp), env.ops = .succeed →
        cmd.topic = s.leader.topic → cmd.replicaId ∈ s.leader.replicaList →
        s.log.payloads s.leader.topic = earlier ++ rest → cmd.offset = (frames earlier).length →
        MeetsAll LogManager.apply SafeStep (s.leader.handle s.log env cmd).2.1 after →
        (ServedFrom rest cmd.offset logEnd
            (run LogManager.apply (s.leader.handle s.log env cmd).2.1 after).disk
            (s.leader.handle s.log env cmd).2.2 ↔
          cmd.offset ≠ logEnd) := by
  intro s
  have hstart : LogInOrder (run LogManager.apply (LogManager.start config importTime) ops) := by
    refine safeOps.invariant LogInOrder (fun lm op ok safe => ok.apply op safe) ?_
    rcases Nat.eq_zero_or_pos config.initSegmentSize with hzero | hpos
    · exact Or.inr (stalled_start config importTime hzero)
    · exact Or.inl ⟨logOk_start config importTime hpos, recordsOk_start config importTime⟩
  have inv : Grounded s ∧ LogInOrder s.log :=
    safeTurns.invariant (fun s => Grounded s ∧ LogInOrder s.log)
      (fun s turn inv safe => ⟨inv.1.step turn, step_inOrder inv.1 inv.2 safe⟩)
      ⟨grounded_new (shaped_run config importTime ops) hnew, hstart⟩
  obtain ⟨ok, log⟩ := inv
  obtain ⟨logEnd, h⟩ := ok.known
  refine ⟨logEnd, h, fun env cmd earlier rest after hops htopic hauth hlog hoffset safe => ?_⟩
  have hlength := log.latestOffset h
  rw [hlog, frames_append, List.length_append] at hlength
  cases hrest : rest with
  | nil =>
      have hend : cmd.offset = logEnd := by
        rw [hlength, hrest, hoffset, frames_nil, List.length_nil, Nat.add_zero]
      obtain ⟨err, herr⟩ := handle_at_end env ok.shaped h ok.isr_ne_nil hauth htopic hend
      refine iff_of_false ?_ (not_not_intro hend)
      rintro ⟨resp, payload, got, hresp, -⟩
      cases herr.symm.trans hresp
  | cons p later =>
      have hne : rest ≠ [] := by rw [hrest]; exact List.cons_ne_nil p later
      have hpos : 0 < (frames rest).length := List.length_pos_iff.mpr (frames_ne_nil hne)
      have hbefore : cmd.offset ≠ logEnd := by omega
      refine iff_of_true ?_ hbefore
      rcases log with ⟨logOk, recs⟩ | stalled
      · obtain ⟨resp, got, hresp, hreceived, hgot, hsome⟩ := handle_at_record logOk recs h
          ok.isr_ne_nil hauth hops (htopic ▸ hlog) hne hoffset after safe
        exact ⟨resp, frames got, got, hresp, hreceived, rfl, hrest ▸ hgot,
          iff_of_false (frames_ne_nil hsome) hbefore⟩
      · rw [stalled.payloads_nil] at hlog
        exact absurd (List.append_eq_nil_iff.mp hlog.symm).2 hne

/-- One record is in the log and the follower has nothing yet. -/
theorem fetch_served_iff_first :
    let s := run step ⟨logAfter [], leaderAt 0⟩ [.log (.append "t" ⟨0, .succeed⟩ [7])]
    let answer := s.leader.handle s.log ⟨1, .succeed⟩ ⟨"t", 0, 100, "f"⟩
    ServedFrom [[7]] 0 5 answer.2.1.disk answer.2.2 := by
  intro s answer
  obtain ⟨logEnd, h, hserved⟩ := fetch_served_iff ⟨"data", 0, 1000000, 100, 16, 16, 4⟩ 0
    [.createTopic "t"] (by decide +kernel) "t" "l" ["l", "f"] 2 10000 (leaderAt 0)
    (by decide +kernel) [.log (.append "t" ⟨0, .succeed⟩ [7])] (by decide +kernel)
  have hend : s.log.getLatestOffset "t" = .ok 5 := by decide +kernel
  obtain rfl : logEnd = 5 := Except.ok.inj (h.symm.trans hend)
  exact (hserved ⟨1, .succeed⟩ ⟨"t", 0, 100, "f"⟩ [] [[7]] [] rfl (by decide +kernel)
    (by decide +kernel) (by decide +kernel) rfl trivial).mpr (by decide)

/-- The follower has everything, be it nothing at all or the one record. -/
theorem caught_up_follower_not_served :
    let s := run step ⟨logAfter [], leaderAt 0⟩ [.log (.append "t" ⟨0, .succeed⟩ [7])]
    ReplicaLeader.new "t" "l" ["l", "f"] (logAfter []) 2 10000 = .ok (leaderAt 0) ∧
      (logAfter []).payloads "t" = [] ∧ s.log.payloads "t" = [[7]] ∧
      ((leaderAt 0).handle (logAfter []) ⟨1, .succeed⟩ ⟨"t", 0, 100, "f"⟩).2.2 =
        .error (.log (.offsetNotFound 0 "t")) ∧
      (s.leader.handle s.log ⟨1, .succeed⟩ ⟨"t", 5, 2000, "f"⟩).2.2 =
        .error (.log (.offsetNotFound 5 "t")) := by
  decide +kernel

end LeaderOverLog
end PyLogStream
