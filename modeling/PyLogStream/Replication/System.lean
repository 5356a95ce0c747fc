import PyLogStream.Lib.Run
import PyLogStream.Log.Offsets
import PyLogStream.Replication.Leader

/-!
A leader at work: its log, the leader object and the `acks = -1` writes in
progress (`Broker._handle_write`, `network/writer.py`). A write is submitted, is
appended by a writer thread, and its handler then resumes and waits for the high
watermark. Other events, and those of other writes, may fall between these steps.
-/

namespace PyLogStream
open Lib

inductive WritePhase where
  | submitted
  /-- The writer has set the future's result. -/
  | written (offset : Int)
  /-- The append raised: the future is never completed. -/
  | lost
  | waiting (offset : Int)
  | returned (offset : Int)
  | raised
  deriving DecidableEq, Repr

structure PendingWrite where
  payload : Bytes
  phase : WritePhase
  deriving DecidableEq, Repr

structure LeaderSystem where
  log : LogManager
  leader : ReplicaLeader
  /-- The writes with `acks = -1`, named by their position. -/
  writes : List PendingWrite

inductive LeaderEvent where
  /-- Any operation on the log, among them the writes with other `acks`. -/
  | log (op : LogOp)
  | fetch (env : CallEnv) (cmd : ReplicaFetchCommand)
  | updateIsr (now : Time)
  | getHighWatermark
  | submit (payload : Bytes)
  | flush (write : Nat) (env : CallEnv)
  | resume (write : Nat)

inductive LeaderResult where
  | log (result : LogResult)
  | response (result : Except LeaderError ReplicaResponse)
  | isr (result : Except LeaderError Unit)
  | watermark (result : Except LogError Int)
  /-- `_handle_write` returns this offset to the producer. -/
  | acknowledged (write : PendingWrite) (offset : Int)
  | none
  deriving DecidableEq

namespace LeaderSystem

def setPhase (s : LeaderSystem) (i : Nat) (phase : WritePhase) : LeaderSystem :=
  { s with writes := s.writes.modify i fun w => { w with phase } }

/-- The handler goes on after the writer has completed its future. -/
def resume (s : LeaderSystem) (i : Nat) : LeaderSystem × LeaderResult :=
  match s.writes[i]? with
  | some ⟨payload, .written offset⟩ =>
    match s.leader.waitForHw s.log offset i with
    | .error _ => (s.setPhase i .raised, .none)
    | .ok (leader, true) =>
      ({ s with leader }.setPhase i (.returned offset),
        .acknowledged ⟨payload, .written offset⟩ offset)
    | .ok (leader, false) => ({ s with leader }.setPhase i (.waiting offset), .none)
  | _ => (s, .none)

/-- A writer thread appends the payload of a submitted write. -/
def flush (s : LeaderSystem) (i : Nat) (env : CallEnv) : LeaderSystem × LeaderResult :=
  match s.writes[i]? with
  | some ⟨payload, .submitted⟩ =>
    match s.log.append env s.leader.topic payload with
    | (log, .error _) => ({ s with log }.setPhase i .lost, .none)
    | (log, .ok offset) => ({ s with log }.setPhase i (.written offset), .none)
  | _ => (s, .none)

def step (s : LeaderSystem) : LeaderEvent → LeaderSystem × LeaderResult
  | .log op =>
    let (log, result) := s.log.apply op
    ({ s with log }, .log result)
  | .fetch env cmd =>
    let (leader, log, result) := s.leader.handle s.log env cmd
    ({ s with leader, log }, .response result)
  | .updateIsr now =>
    match s.leader.updateIsr now with
    | .error err => (s, .isr (.error err))
    | .ok leader => ({ s with leader }, .isr (.ok ()))
  | .getHighWatermark =>
    match s.leader.getHighWatermark s.log with
    | .error err => (s, .watermark (.error err))
    | .ok (leader, hw) => ({ s with leader }, .watermark (.ok hw))
  | .submit payload => ({ s with writes := s.writes ++ [⟨payload, .submitted⟩] }, .none)
  | .flush i env => s.flush i env
  | .resume i => s.resume i

/-- A leader with no write in progress, over the log that some operations have left. -/
def start (log : LogManager) (leader : ReplicaLeader) : LeaderSystem := ⟨log, leader, []⟩

end LeaderSystem

section
variable {leader : ReplicaLeader} {lm : LogManager}

theorem ReplicaLeader.foldl_min_le (offset : String → Int) (rest : List String) (least : Int) :
    rest.foldl (fun least r => min least (offset r)) least ≤ least ∧
      ∀ r ∈ rest, rest.foldl (fun least r => min least (offset r)) least ≤ offset r := by
  induction rest generalizing least with
  | nil => simp
  | cons r rest ih =>
      obtain ⟨hle, hall⟩ := ih (min least (offset r))
      simp only [List.foldl_cons, List.mem_cons]
      refine ⟨by omega, ?_⟩
      rintro r' (rfl | hr')
      · omega
      · exact hall r' hr'

theorem ReplicaLeader.minOffset_le (leader : ReplicaLeader) {r : String} {rest : List String} {r' : String}
    (h : r' ∈ r :: rest) : leader.minOffset r rest ≤ leader.offsetOf r' := by
  obtain ⟨hle, hall⟩ := foldl_min_le leader.offsetOf rest (leader.offsetOf r)
  rcases List.mem_cons.mp h with rfl | hr
  · exact hle
  · exact hall r' hr

theorem ReplicaLeader.offsetOf_set (leader : ReplicaLeader) (r r' : String) (offset : Int) :
    ReplicaLeader.offsetOf { leader with replicaOffset := leader.replicaOffset.set r offset } r' =
      if r' = r then offset else leader.offsetOf r' := by
  simp only [offsetOf, Dict.get?_set]
  split <;> rfl

/-- The watermark returned is the old one or a minimum, and the call changes only
the watermark and the leader's own offset. -/
structure WatermarkRead (leader leader' : ReplicaLeader) (logEnd hw : Int) : Prop where
  topic : leader'.topic = leader.topic
  id : leader'.id = leader.id
  isr : leader'.inSyncReplica = leader.inSyncReplica
  stored : leader'.highWatermark = hw
  own : leader.inSyncReplica ≠ [] → leader'.offsetOf leader.id = logEnd
  others : ∀ r, r ≠ leader.id → leader'.offsetOf r = leader.offsetOf r
  old_le : leader.highWatermark ≤ hw
  bound : leader.inSyncReplica ≠ [] → hw = leader.highWatermark ∨
    ∀ r ∈ leader.inSyncReplica, hw ≤ leader'.offsetOf r
  config : leader'.replicaList = leader.replicaList ∧ leader'.minIsrCount = leader.minIsrCount ∧
    leader'.maxIsrLagMs = leader.maxIsrLagMs ∧
    leader'.replicaLastCaughtup = leader.replicaLastCaughtup

theorem getHighWatermark_spec {logEnd : Int} (h : lm.getLatestOffset leader.topic = .ok logEnd) :
    ∃ leader' hw, leader.getHighWatermark lm = .ok (leader', hw) ∧
      WatermarkRead leader leader' logEnd hw := by
  cases hisr : leader.inSyncReplica with
  | nil =>
      refine ⟨_, _, by simp only [ReplicaLeader.getHighWatermark,
        ReplicaLeader.computeHighWatermark, hisr]; rfl, ?_⟩
      exact ⟨rfl, rfl, by rw [hisr], rfl, by simp [hisr], fun _ _ => rfl, le_max_left _ _,
        by simp [hisr], ⟨rfl, rfl, rfl, rfl⟩⟩
  | cons r rest =>
      let leader₁ := { leader with
        replicaOffset := leader.replicaOffset.set leader.id logEnd }
      refine ⟨{ leader₁ with
        highWatermark := max leader.highWatermark (leader₁.minOffset r rest) },
        max leader.highWatermark (leader₁.minOffset r rest), ?_, ?_⟩
      · simp only [ReplicaLeader.getHighWatermark, ReplicaLeader.computeHighWatermark, hisr,
          ReplicaLeader.getLogEndOffset, h, leader₁]
      · refine ⟨rfl, rfl, rfl, rfl, ?_, ?_, le_max_left _ _, ?_, ⟨rfl, rfl, rfl, rfl⟩⟩
        · intro _
          exact (leader.offsetOf_set leader.id leader.id logEnd).trans (if_pos rfl)
        · intro r' hne
          exact (leader.offsetOf_set leader.id r' logEnd).trans (if_neg hne)
        · intro _
          rcases le_total (leader₁.minOffset r rest) leader.highWatermark with hle | hle
          · exact Or.inl (max_eq_left hle)
          · right
            intro r' hr'
            rw [max_eq_right hle]
            rw [hisr] at hr'
            exact leader₁.minOffset_le hr'

/-- What an authorised fetch leaves behind, whether or not the read succeeds. -/
structure FetchRecorded (leader leader' : ReplicaLeader) (logEnd : Int)
    (cmd : ReplicaFetchCommand) : Prop where
  topic : leader'.topic = leader.topic
  id : leader'.id = leader.id
  isr : leader'.inSyncReplica = leader.inSyncReplica
  read : ∃ leader₁, WatermarkRead leader leader₁ logEnd leader'.highWatermark ∧
    ∀ r, leader'.offsetOf r = if r = cmd.replicaId then cmd.offset else leader₁.offsetOf r

theorem handle_spec {logEnd : Int} (h : lm.getLatestOffset leader.topic = .ok logEnd)
    (env : CallEnv) (cmd : ReplicaFetchCommand) :
    (leader.handle lm env cmd).2.1.registry = lm.registry ∧
      ((leader.handle lm env cmd).1 = leader ∨
        FetchRecorded leader (leader.handle lm env cmd).1 logEnd cmd) := by
  by_cases hauth : cmd.replicaId ∈ leader.replicaList
  · obtain ⟨leader₁, hw, hread, wm⟩ := getHighWatermark_spec h
    let leader₂ : ReplicaLeader :=
      if cmd.offset = logEnd then
        { leader₁ with
          replicaLastCaughtup := leader₁.replicaLastCaughtup.set cmd.replicaId env.now }
      else leader₁
    have hkeep : leader₂.topic = leader₁.topic ∧ leader₂.id = leader₁.id ∧
        leader₂.inSyncReplica = leader₁.inSyncReplica ∧
        leader₂.highWatermark = leader₁.highWatermark ∧
        leader₂.replicaOffset = leader₁.replicaOffset := by
      simp only [leader₂]
      split <;> exact ⟨rfl, rfl, rfl, rfl, rfl⟩
    have recorded : FetchRecorded leader
        { leader₂ with replicaOffset := leader₂.replicaOffset.set cmd.replicaId cmd.offset }
        logEnd cmd := by
      refine ⟨hkeep.1.trans wm.topic, hkeep.2.1.trans wm.id, hkeep.2.2.1.trans wm.isr, leader₁,
        ?_, ?_⟩
      · change WatermarkRead leader leader₁ logEnd leader₂.highWatermark
        rw [hkeep.2.2.2.1, wm.stored]
        exact wm
      · intro r
        rw [ReplicaLeader.offsetOf_set, ReplicaLeader.offsetOf, hkeep.2.2.2.2,
          ← ReplicaLeader.offsetOf]
    have hend : leader.getLogEndOffset lm = .ok logEnd := h
    have hbytes := readBytes_registry lm env cmd.topic cmd.offset cmd.size
    have hfile := read_registry lm env cmd.topic cmd.offset cmd.size
    simp only [ReplicaLeader.handle, hauth, not_true_eq_false, if_false, hend, hread]
    split
    · split
      · next hres => rw [hres] at hbytes; exact ⟨hbytes, Or.inr recorded⟩
      · next hres => rw [hres] at hbytes; exact ⟨hbytes, Or.inr recorded⟩
    · split
      · next hres => rw [hres] at hfile; exact ⟨hfile, Or.inr recorded⟩
      · next hres => rw [hres] at hfile; exact ⟨hfile, Or.inr recorded⟩
  · simp only [ReplicaLeader.handle, hauth, not_false_eq_true, if_true]
    exact ⟨trivial, Or.inl trivial⟩

end
end PyLogStream
