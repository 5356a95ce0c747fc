import PyLogStream.Replication.Calls

/-!
The producers that wait for the watermark. `wait_for_hw` parks a future and nothing
ever takes it out again: `_notify_hw_waiters` has no caller. A call that raises the
watermark therefore leaves behind every waiter that it reaches, and no waiter is left
behind exactly as long as each still waits for some in-sync replica.
-/

namespace PyLogStream
open Lib

namespace LeaderOverLog

/-- No waiting future asks for an offset that the stored watermark has reached. -/
def NoneDue (s : LeaderOverLog) : Prop :=
  ∀ waiter ∈ s.leader.hwWaiterQueue, s.leader.highWatermark < waiter.1

/-- Some in-sync replica has not acknowledged the offset. -/
def StillBehind (s : LeaderOverLog) (offset : Int) : Prop :=
  ∀ logEnd, s.log.getLatestOffset s.leader.topic = .ok logEnd →
    ∃ r ∈ s.leader.inSyncReplica, s.leader.ackedAt logEnd r < offset

/-- A turn that reads the watermark comes while every waiter still waits for someone. -/
def WaitersBehind (s : LeaderOverLog) : LeaderTurn → Prop
  | .call (.handle _ cmd) => cmd.replicaId ∈ s.leader.replicaList →
      ∀ waiter ∈ s.leader.hwWaiterQueue, s.StillBehind waiter.1
  | .call .getHighWatermark | .call (.waitForHw _ _) =>
      ∀ waiter ∈ s.leader.hwWaiterQueue, s.StillBehind waiter.1
  | .call (.updateIsr _) | .log _ => True

instance (s : LeaderOverLog) : Decidable (NoneDue s) :=
  inferInstanceAs (Decidable (∀ waiter ∈ s.leader.hwWaiterQueue, _))

instance (s : LeaderOverLog) (offset : Int) : Decidable (s.StillBehind offset) :=
  match h : s.log.getLatestOffset s.leader.topic with
  | .error _ => isTrue (by simp [StillBehind, h])
  | .ok logEnd =>
    decidable_of_iff (∃ r ∈ s.leader.inSyncReplica, s.leader.ackedAt logEnd r < offset)
      (by simp [StillBehind, h])

instance (s : LeaderOverLog) (turn : LeaderTurn) : Decidable (WaitersBehind s turn) :=
  match turn with
  | .call (.handle _ cmd) => inferInstanceAs (Decidable (cmd.replicaId ∈ s.leader.replicaList →
      ∀ waiter ∈ s.leader.hwWaiterQueue, s.StillBehind waiter.1))
  | .call .getHighWatermark => inferInstanceAs (Decidable
      (∀ waiter ∈ s.leader.hwWaiterQueue, s.StillBehind waiter.1))
  | .call (.waitForHw _ _) => inferInstanceAs (Decidable
      (∀ waiter ∈ s.leader.hwWaiterQueue, s.StillBehind waiter.1))
  | .call (.updateIsr _) => isTrue trivial
  | .log _ => isTrue trivial

section
variable {s : LeaderOverLog}

/-- What a watermark read leaves of the waiters, whoever they are afterwards. -/
theorem settled_lt_iff (ok : Grounded s) (none_due : NoneDue s) {logEnd : Int}
    (h : s.log.getLatestOffset s.leader.topic = .ok logEnd) :
    (∀ waiter ∈ s.leader.hwWaiterQueue, (s.leader.settled logEnd).highWatermark < waiter.1) ↔
      ∀ waiter ∈ s.leader.hwWaiterQueue, s.StillBehind waiter.1 := by
  refine forall₂_congr fun waiter hwaiter => ?_
  rw [ReplicaLeader.settled, max_lt_iff, and_iff_right (none_due waiter hwaiter),
    ReplicaLeader.leastAcked_lt_iff ok.isr_ne_nil]
  constructor
  · intro hbehind logEnd' h'
    rwa [Except.ok.inj (h'.symm.trans h)]
  · exact fun hbehind => hbehind logEnd h

theorem noneDue_step_iff (ok : Grounded s) (none_due : NoneDue s) (turn : LeaderTurn) :
    NoneDue (s.step turn).1 ↔ WaitersBehind s turn := by
  obtain ⟨logEnd, h⟩ := ok.known
  have hne := ok.isr_ne_nil
  have hread := settled_lt_iff ok none_due h
  cases turn with
  | log op => exact iff_of_true none_due trivial
  | call c =>
      cases c with
      | handle env cmd =>
          simp only [NoneDue, step, ReplicaLeader.call_handle h hne, WaitersBehind]
          by_cases hauth : cmd.replicaId ∈ s.leader.replicaList
          · rw [if_pos hauth, forall_prop_of_true hauth]
            exact hread
          · rw [if_neg hauth]
            exact iff_of_true none_due fun h => absurd h hauth
      | updateIsr now =>
          refine iff_of_true ?_ trivial
          simp only [NoneDue, step, ReplicaLeader.call_updateIsr]
          split <;> exact none_due
      | getHighWatermark =>
          simp only [NoneDue, step, ReplicaLeader.call_getHighWatermark h hne, WaitersBehind]
          exact hread
      | waitForHw offset fut =>
          simp only [NoneDue, step, ReplicaLeader.call_waitForHw h hne, WaitersBehind]
          by_cases hge : (s.leader.settled logEnd).highWatermark ≥ offset
          · rw [if_pos hge]
            exact hread
          · rw [if_neg hge, ← hread]
            simp only [mem_heappush, or_imp, forall_and, forall_eq]
            exact and_iff_left (not_le.mp hge)

end

/-- In any interleaving, no waiter is left behind in any state reached exactly if every
watermark read comes while each waiter still waits for an in-sync replica. -/
theorem waiters_released_iff (config : LogConfig) (importTime : Time) (ops : List LogOp)
    (topic id : String) (replicaList : List String) (minIsrCount maxIsrLagMs : Int)
    (leader : ReplicaLeader)
    (hnew : ReplicaLeader.new topic id replicaList
      (run LogManager.apply (LogManager.start config importTime) ops) minIsrCount maxIsrLagMs =
        .ok leader) (turns : List LeaderTurn) :
    let start : LeaderOverLog :=
      ⟨run LogManager.apply (LogManager.start config importTime) ops, leader⟩
    (∀ early late, turns = early ++ late → NoneDue (run step start early)) ↔
      MeetsAll step WaitersBehind start turns := by
  intro start
  have init : Grounded start := grounded_new (shaped_run config importTime ops) hnew
  refine forall_early_iff_meetsAll Grounded NoneDue (fun s turn ok => ok.step turn)
    (fun s turn ok none_due => noneDue_step_iff ok none_due turn) init ?_
  intro waiter hwaiter
  rw [new_hwWaiterQueue hnew] at hwaiter
  exact absurd hwaiter List.not_mem_nil

/-- A producer waits for a record that the follower fetches. -/
def waitsForFollower : List LeaderTurn :=
  [.call (.updateIsr 1), .log (.append "t" ⟨0, .succeed⟩ [7]), .call (.waitForHw 5 0),
    .call (.handle ⟨2, .succeed⟩ ⟨"t", 0, 100, "f"⟩), .call (.handle ⟨3, .succeed⟩ ⟨"t", 5, 100, "f"⟩)]

/-- Until the next read of the watermark, the producer waits for a reason. -/
theorem waiters_released_iff_follower :
    NoneDue (run step ⟨logAfter [], leaderAt 0⟩ waitsForFollower) :=
  (waiters_released_iff ⟨"data", 0, 1000000, 100, 16, 16, 4⟩ 0 [.createTopic "t"] "t" "l" ["l", "f"]
    2 10000 (leaderAt 0) (by decide +kernel) waitsForFollower).mpr (by decide +kernel) _ []
      (List.append_nil _).symm

/-- The follower has acknowledged the record, and the call that sees it does not release
the producer. -/
theorem waiter_left_behind :
    ReplicaLeader.new "t" "l" ["l", "f"] (logAfter []) 2 10000 = .ok (leaderAt 0) ∧
      (run step ⟨logAfter [], leaderAt 0⟩
        (waitsForFollower ++ [.call .getHighWatermark])).leader.highWatermark = 5 ∧
      ¬ NoneDue (run step ⟨logAfter [], leaderAt 0⟩
        (waitsForFollower ++ [.call .getHighWatermark])) :=
  ⟨by decide +kernel, by decide +kernel, by decide +kernel⟩

end LeaderOverLog
end PyLogStream
