import PyLogStream.Controller.Server

/-!
What a task of the controller can do when it is resumed. The case analysis over the
pending work and the input is made here once; an invariant is then checked for each
piece of work.
-/

namespace PyLogStream
open Lib
namespace ControllerServer

/-- A controller with one replica per topic and the default heartbeat timeout. -/
def oneReplica : ControllerConfig := ⟨ConsistentHashRing.md5Hash, 1, 15⟩

/-- A connection sends a command, and its handler is resumed so many times. -/
def handled (conn : Nat) (cmd : ControllerCommand) (resumes : Nat) : List ServerEvent :=
  .run (.handler conn) (.frame cmd) ::
    List.replicate resumes (.run (.handler conn) (.resume false))

section
variable {cfg : ControllerConfig} {s : ControllerServer} {task : TaskId} {input : Input}

@[simp]
theorem setTask_setTask (work work' : List Work) :
    (s.setTask task work).setTask task work' = s.setTask task work' := by
  simp [setTask, Function.update_idem]

@[simp]
theorem setTask_self (work : List Work) : (s.setTask task work).tasks task = work :=
  Function.update_self ..

/-- Every step of a task is one of these. -/
theorem run_cases {P : ControllerServer → Prop} (idle : P s)
    (frame : ∀ conn rest cmd, task = .handler conn → s.tasks task = .serve :: rest →
      input = .frame cmd → P (s.handleFrame cfg conn rest cmd))
    (leave : ∀ conn rest, task = .handler conn → s.tasks task = .serve :: rest →
      P (s.leave cfg conn))
    (fail : ∀ rest, s.tasks task = .drain :: rest → P (s.raise cfg task))
    (next : ∀ w rest, s.tasks task = w :: rest → P (s.setTask task rest))
    (broadcast : ∀ rest, s.tasks task = .broadcast :: rest → P (s.broadcastMetadata task rest))
    (drained : ∀ metaList brokerId conn more disconnected rest failed,
      s.tasks task = .drained metaList brokerId conn more disconnected :: rest →
      P (s.sendNext task rest metaList
        (if failed = true ∧ s.Broken conn then disconnected ++ [(brokerId, .failed conn)]
          else disconnected) more))
    (disconnect : ∀ brokerId cause more rest failed, input = .resume failed →
      s.tasks task = .disconnect ((brokerId, cause) :: more) :: rest →
      P (s.disconnect cfg task rest brokerId more))
    (deregister : ∀ brokerId rest failed, input = .resume failed →
      s.tasks task = .deregister brokerId :: rest →
      let manager := (s.manager.exec cfg.hash
        (Metastore.deregisterBroker cfg.replicasPerTopic brokerId)).1
      P ({ s with manager }.broadcastMetadata task rest) ∧ P ({ s with manager }.raise cfg task))
    (check : ∀ rest, s.tasks task = .checkHeartbeats :: rest →
      P (s.setTask task (.disconnect (s.stale cfg) :: .checkHeartbeats :: rest)))
    (reject : ∀ conn info rest, task = .handler conn → s.tasks task = .reject :: rest →
      P (((s.write conn (notLeaderResponse info)).closeConn cfg conn).setTask task rest))
    (notLeader : ∀ info rest, s.tasks task = .notLeader :: rest →
      P (s.dropBrokers task rest (notLeaderResponse info) s.activeBrokers.keys))
    (drop : ∀ response ids rest, s.tasks task = .dropBrokers response ids :: rest →
      P (s.dropBrokers task rest response ids))
    (dropped : ∀ response conn ids rest, s.tasks task = .dropped response conn ids :: rest →
      P (s.setTask task (.dropBrokers response ids :: rest)) ∧
        P ((s.closeConn cfg conn).setTask task (.dropBrokers response ids :: rest)))
    (elected : ∀ won rest, s.tasks task = .election :: rest →
      P ({ s with isLeader := won }.setTask task rest)) :
    P (s.step cfg (.run task input)) := by
  simp only [step]
  cases htasks : s.tasks task with
  | nil => exact idle
  | cons w rest =>
      cases w with
      | serve =>
          cases input with
          | frame cmd =>
              cases task with
              | handler conn => exact frame conn rest cmd rfl htasks rfl
              | heartbeat | leaderGone n => exact idle
          | malformed | stopped =>
              cases task with
              | handler conn => exact leave conn rest rfl htasks
              | heartbeat | leaderGone n => exact idle
          | resume _ | leader _ | elected _ => exact idle
      | drain =>
          cases input with
          | resume failed =>
              cases task with
              | handler conn =>
                  simp only [resume]
                  split
                  · exact fail rest htasks
                  · exact next _ rest htasks
              | heartbeat | leaderGone n => exact idle
          | frame _ | malformed | stopped | leader _ | elected _ => exact idle
      | broadcast =>
          cases input with
          | resume failed => exact broadcast rest htasks
          | frame _ | malformed | stopped | leader _ | elected _ => exact idle
      | drained metaList brokerId conn more disconnected =>
          cases input with
          | resume failed =>
              exact drained metaList brokerId conn more disconnected rest failed htasks
          | frame _ | malformed | stopped | leader _ | elected _ => exact idle
      | disconnect todo =>
          cases input with
          | resume failed =>
              cases todo with
              | nil => exact next _ rest htasks
              | cons item more => exact disconnect item.1 item.2 more rest failed rfl htasks
          | frame _ | malformed | stopped | leader _ | elected _ => cases todo <;> exact idle
      | deregister brokerId =>
          cases input with
          | resume failed =>
              obtain ⟨hbroadcast, hraise⟩ := deregister brokerId rest failed rfl htasks
              simp only [resume]
              split
              · next manager answer hexec =>
                  rw [hexec] at hbroadcast
                  exact hbroadcast
              · next manager err hexec =>
                  rw [hexec] at hraise
                  exact hraise
          | frame _ | malformed | stopped | leader _ | elected _ => exact idle
      | checkHeartbeats =>
          cases input with
          | resume failed => exact check rest htasks
          | frame _ | malformed | stopped | leader _ | elected _ => exact idle
      | reject =>
          cases input with
          | leader info =>
              cases task with
              | handler conn => exact reject conn info rest rfl htasks
              | heartbeat | leaderGone n => exact idle
          | frame _ | malformed | stopped | resume _ | elected _ => exact idle
      | notLeader =>
          cases input with
          | leader info => exact notLeader info rest htasks
          | frame _ | malformed | stopped | resume _ | elected _ => exact idle
      | dropBrokers response ids =>
          cases input with
          | resume failed => exact drop response ids rest htasks
          | frame _ | malformed | stopped | leader _ | elected _ => exact idle
      | dropped response conn ids =>
          cases input with
          | resume failed =>
              simp only [resume]
              split
              · exact (dropped response conn ids rest htasks).1
              · exact (dropped response conn ids rest htasks).2
          | frame _ | malformed | stopped | leader _ | elected _ => exact idle
      | election =>
          cases input with
          | elected won => exact elected won rest htasks
          | frame _ | malformed | stopped | resume _ | leader _ => exact idle

end
end ControllerServer
end PyLogStream
