import PyLogStream.Replication.Watermark

/-!
The calls that reach a leader, in any order, over a log on which anything else may
happen meanwhile. Each call of `get_high_watermark` leaves the leader settled: its own
offset is the end of the log, and the watermark is the greater of the stored one and
the least offset of an in-sync replica.
-/

namespace PyLogStream
open Lib

inductive LeaderCall where
  | handle (env : CallEnv) (cmd : ReplicaFetchCommand)
  | updateIsr (now : Time)
  | getHighWatermark
  | waitForHw (offset : Int) (fut : Nat)

namespace ReplicaLeader

/-- The leader and the log after a call, which keeps what it has changed if it raises. -/
def call (leader : ReplicaLeader) (lm : LogManager) : LeaderCall → ReplicaLeader × LogManager
  | .handle env cmd => ((leader.handle lm env cmd).1, (leader.handle lm env cmd).2.1)
  | .updateIsr now =>
    match leader.updateIsr now with
    | .error _ => (leader, lm)
    | .ok leader => (leader, lm)
  | .getHighWatermark =>
    match leader.getHighWatermark lm with
    | .error _ => (leader, lm)
    | .ok (leader, _) => (leader, lm)
  | .waitForHw offset fut =>
    match leader.waitForHw lm offset fut with
    | .error _ => (leader, lm)
    | .ok (leader, _) => (leader, lm)

/-- What a call returns or sends as the high watermark, if it asks for it. -/
def watermarkOf (leader : ReplicaLeader) (lm : LogManager) (c : LeaderCall) : Option Int :=
  let returned : Option Int :=
    match leader.getHighWatermark lm with
    | .error _ => none
    | .ok (_, hw) => some hw
  match c with
  | .handle _ cmd => if cmd.replicaId ∈ leader.replicaList then returned else none
  | .updateIsr _ => none
  | .getHighWatermark | .waitForHw _ _ => returned

/-- The offset acknowledged by a replica, the leader counted at the end of the log. -/
def ackedAt (leader : ReplicaLeader) (logEnd : Int) (r : String) : Int :=
  if r = leader.id then logEnd else leader.offsetOf r

/-- The least acknowledged offset of an in-sync replica. -/
def leastAcked (leader : ReplicaLeader) (logEnd : Int) : Int :=
  match leader.inSyncReplica with
  | [] => 0
  | r :: rest => rest.foldl (fun least r => min least (leader.ackedAt logEnd r))
      (leader.ackedAt logEnd r)

/-- The leader that `get_high_watermark` leaves. -/
def settled (leader : ReplicaLeader) (logEnd : Int) : ReplicaLeader :=
  { leader with
    replicaOffset := leader.replicaOffset.set leader.id logEnd
    highWatermark := max leader.highWatermark (leader.leastAcked logEnd) }

/-- The leader that an authorised fetch leaves, whatever becomes of the read. -/
def recorded (leader : ReplicaLeader) (logEnd : Int) (now : Time) (cmd : ReplicaFetchCommand) :
    ReplicaLeader :=
  { leader.settled logEnd with
    replicaOffset := (leader.settled logEnd).replicaOffset.set cmd.replicaId cmd.offset
    replicaLastCaughtup :=
      if cmd.offset = logEnd then leader.replicaLastCaughtup.set cmd.replicaId now
      else leader.replicaLastCaughtup }

section
variable {leader : ReplicaLeader} {lm : LogManager} {logEnd : Int}

theorem foldl_min_lt_iff (offset : String → Int) (rest : List String) (least o : Int) :
    rest.foldl (fun least r => min least (offset r)) least < o ↔
      least < o ∨ ∃ r ∈ rest, offset r < o := by
  induction rest generalizing least with
  | nil => simp
  | cons r rest ih =>
      rw [List.foldl_cons, ih, min_lt_iff]
      simp only [List.mem_cons, exists_eq_or_imp]
      tauto

/-- The least offset is below a bound just if some in-sync replica's is. -/
theorem leastAcked_lt_iff (hne : leader.inSyncReplica ≠ []) (o : Int) :
    leader.leastAcked logEnd < o ↔ ∃ r ∈ leader.inSyncReplica, leader.ackedAt logEnd r < o := by
  obtain ⟨r, rest, hisr⟩ := List.exists_cons_of_ne_nil hne
  simp only [leastAcked, hisr, foldl_min_lt_iff, List.mem_cons, exists_eq_or_imp]

theorem le_leastAcked_iff (hne : leader.inSyncReplica ≠ []) (o : Int) :
    o ≤ leader.leastAcked logEnd ↔ ∀ r ∈ leader.inSyncReplica, o ≤ leader.ackedAt logEnd r := by
  rw [← not_lt, leastAcked_lt_iff hne]
  simp only [not_exists, not_and, not_lt]

theorem offsetOf_settled (r : String) :
    (leader.settled logEnd).offsetOf r = leader.ackedAt logEnd r := by
  simp only [settled, offsetOf, ackedAt, Dict.get?_set]
  split <;> rfl

theorem getHighWatermark_eq (h : lm.getLatestOffset leader.topic = .ok logEnd)
    (hne : leader.inSyncReplica ≠ []) :
    leader.getHighWatermark lm =
      .ok (leader.settled logEnd, (leader.settled logEnd).highWatermark) := by
  have hend : leader.getLogEndOffset lm = .ok logEnd := h
  have hoffset : (offsetOf { leader with
      replicaOffset := leader.replicaOffset.set leader.id logEnd }) = leader.ackedAt logEnd := by
    funext r'
    exact leader.offsetOf_set leader.id r' logEnd
  obtain ⟨r, rest, hisr⟩ := List.exists_cons_of_ne_nil hne
  cases leader
  simp only at hisr
  subst hisr
  simp only [getHighWatermark, computeHighWatermark, hend, minOffset, hoffset, settled,
    leastAcked]

theorem handle_fst (h : lm.getLatestOffset leader.topic = .ok logEnd)
    (hne : leader.inSyncReplica ≠ []) (env : CallEnv) (cmd : ReplicaFetchCommand) :
    (leader.handle lm env cmd).1 =
      if cmd.replicaId ∈ leader.replicaList then leader.recorded logEnd env.now cmd
      else leader := by
  have hend : leader.getLogEndOffset lm = .ok logEnd := h
  by_cases hauth : cmd.replicaId ∈ leader.replicaList
  · simp only [handle, hauth, not_true_eq_false, if_false, if_true, hend,
      getHighWatermark_eq h hne]
    split
    · split
      · split <;> simp_all [recorded, settled]
      · split <;> simp_all [recorded, settled]
    · split
      · split <;> simp_all [recorded, settled]
      · split <;> simp_all [recorded, settled]
  · simp [handle, hauth]

theorem call_handle (h : lm.getLatestOffset leader.topic = .ok logEnd)
    (hne : leader.inSyncReplica ≠ []) (env : CallEnv) (cmd : ReplicaFetchCommand) :
    (leader.call lm (.handle env cmd)).1 =
      if cmd.replicaId ∈ leader.replicaList then leader.recorded logEnd env.now cmd
      else leader :=
  handle_fst h hne env cmd

theorem call_updateIsr (leader : ReplicaLeader) (lm : LogManager) (now : Time) :
    leader.call lm (.updateIsr now) =
      (if leader.id ∈ leader.replicaList then { leader with inSyncReplica := leader.newIsr now }
        else leader, lm) := by
  simp only [call, updateIsr]
  by_cases hlisted : leader.id ∈ leader.replicaList
  · rw [if_pos hlisted, if_pos hlisted]
  · rw [if_neg hlisted, if_neg hlisted]

theorem call_getHighWatermark (h : lm.getLatestOffset leader.topic = .ok logEnd)
    (hne : leader.inSyncReplica ≠ []) :
    leader.call lm .getHighWatermark = (leader.settled logEnd, lm) := by
  simp only [call, getHighWatermark_eq h hne]

theorem call_waitForHw (h : lm.getLatestOffset leader.topic = .ok logEnd)
    (hne : leader.inSyncReplica ≠ []) (offset : Int) (fut : Nat) :
    leader.call lm (.waitForHw offset fut) =
      (if (leader.settled logEnd).highWatermark ≥ offset then leader.settled logEnd
        else { leader.settled logEnd with
          hwWaiterQueue := heappush earlier leader.hwWaiterQueue (offset, fut) }, lm) := by
  simp only [call, waitForHw, getHighWatermark_eq h hne]
  by_cases hge : (leader.settled logEnd).highWatermark ≥ offset
  · rw [if_pos hge, if_pos hge]
  · rw [if_neg hge, if_neg hge]
    rfl

/-- A call keeps the topic, the id and the log's registry. -/
theorem call_kept (h : lm.getLatestOffset leader.topic = .ok logEnd)
    (hne : leader.inSyncReplica ≠ []) (c : LeaderCall) :
    (leader.call lm c).1.topic = leader.topic ∧ (leader.call lm c).1.id = leader.id ∧
      (leader.call lm c).2.registry = lm.registry := by
  cases c with
  | handle env cmd =>
      have hreg : (leader.call lm (.handle env cmd)).2.registry = lm.registry :=
        (handle_spec h env cmd).1
      rw [call_handle h hne, hreg]
      split <;> exact ⟨rfl, rfl, rfl⟩
  | updateIsr now =>
      rw [call_updateIsr]
      split <;> exact ⟨rfl, rfl, rfl⟩
  | getHighWatermark =>
      rw [call_getHighWatermark h hne]
      exact ⟨rfl, rfl, rfl⟩
  | waitForHw offset fut =>
      rw [call_waitForHw h hne]
      split <;> exact ⟨rfl, rfl, rfl⟩

/-- The leader stays in sync with itself. -/
theorem call_member (h : lm.getLatestOffset leader.topic = .ok logEnd)
    (member : leader.id ∈ leader.inSyncReplica) (c : LeaderCall) :
    (leader.call lm c).1.id ∈ (leader.call lm c).1.inSyncReplica := by
  have hne := List.ne_nil_of_mem member
  cases c with
  | handle env cmd =>
      rw [call_handle h hne]
      split <;> exact member
  | updateIsr now =>
      rw [call_updateIsr]
      split
      · exact List.mem_cons_self
      · exact member
  | getHighWatermark =>
      rw [call_getHighWatermark h hne]
      exact member
  | waitForHw offset fut =>
      rw [call_waitForHw h hne]
      split <;> exact member

end
end ReplicaLeader

/-- A leader over its log. -/
structure LeaderOverLog where
  log : LogManager
  leader : ReplicaLeader

inductive LeaderTurn where
  /-- Any operation on the log, among them the appends of the topic. -/
  | log (op : LogOp)
  | call (c : LeaderCall)

namespace LeaderOverLog

def step (s : LeaderOverLog) : LeaderTurn → LeaderOverLog × Unit
  | .log op => ({ s with log := (s.log.apply op).1 }, ())
  | .call c => (⟨(s.leader.call s.log c).2, (s.leader.call s.log c).1⟩, ())

/-- The leader's topic exists and the leader is in sync with itself. -/
structure Grounded (s : LeaderOverLog) : Prop where
  shaped : s.log.registry.Shaped
  known : ∃ logEnd, s.log.getLatestOffset s.leader.topic = .ok logEnd
  member : s.leader.id ∈ s.leader.inSyncReplica

section
variable {s : LeaderOverLog}

theorem Grounded.isr_ne_nil (ok : Grounded s) : s.leader.inSyncReplica ≠ [] :=
  List.ne_nil_of_mem ok.member

theorem Grounded.step (ok : Grounded s) (turn : LeaderTurn) : Grounded (s.step turn).1 := by
  obtain ⟨logEnd, h⟩ := ok.known
  cases turn with
  | log op =>
      obtain ⟨shaped, grow⟩ := apply_offsets ok.shaped op
      obtain ⟨logEnd', h', -⟩ := grow _ _ h
      exact ⟨shaped, ⟨logEnd', h'⟩, ok.member⟩
  | call c =>
      obtain ⟨htopic, -, hlog⟩ := ReplicaLeader.call_kept h ok.isr_ne_nil c
      refine ⟨hlog ▸ ok.shaped, ⟨logEnd, ?_⟩, ReplicaLeader.call_member h ok.member c⟩
      simp only [LeaderOverLog.step, LogManager.getLatestOffset, hlog, htopic]
      exact h

theorem grounded_new {lm : LogManager} (shaped : lm.registry.Shaped) {topic id : String}
    {replicaList : List String} {minIsrCount maxIsrLagMs : Int} {leader : ReplicaLeader}
    (h : ReplicaLeader.new topic id replicaList lm minIsrCount maxIsrLagMs = .ok leader) :
    Grounded ⟨lm, leader⟩ := by
  have ok := watermarkOk_new shaped h
  obtain ⟨logEnd, hlatest, -⟩ := ok.known
  exact ⟨ok.shaped, ⟨logEnd, hlatest⟩, ok.member⟩

theorem new_hwWaiterQueue {lm : LogManager} {topic id : String} {replicaList : List String}
    {minIsrCount maxIsrLagMs : Int} {leader : ReplicaLeader}
    (h : ReplicaLeader.new topic id replicaList lm minIsrCount maxIsrLagMs = .ok leader) :
    leader.hwWaiterQueue = [] := by
  unfold ReplicaLeader.new at h
  split at h
  · cases h
  · next logEnd hlatest =>
      simp only [ReplicaLeader.computeHighWatermark, ReplicaLeader.getLogEndOffset, hlatest,
        Except.ok.injEq] at h
      rw [← h]

theorem Grounded.run (ok : Grounded s) (turns : List LeaderTurn) :
    Grounded (Lib.run LeaderOverLog.step s turns) :=
  run_keeps Grounded (fun _ turn _ ok => ok.step turn) ok

end
end LeaderOverLog
end PyLogStream
