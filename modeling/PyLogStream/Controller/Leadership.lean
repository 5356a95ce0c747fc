import PyLogStream.Controller.Steps

/-!
What a controller does after it has lost its leadership. The flag is looked at when a
connection is accepted; the handlers of the connections that are open go on. Frames
that write nothing are harmless, but a broker or a topic is registered and an in-sync
list is changed by a controller that does not lead as by one that does. A handler may also
tear down a broker in the course of a frame: its answer, or the broadcast after it, cannot be
written, or the frame is malformed.
-/

namespace PyLogStream
open Lib
namespace ControllerServer

/-- The command leaves the metastore as it is. -/
def WritesNothing (s : ControllerServer) : ControllerCommand → Prop
  | .brokerRegister _ _ _ => False
  | .registerTopic topic => s.manager.storage.topics.get? topic ≠ none
  | .isrChange topic _ => s.manager.storage.topics.get? topic = none
  | .controllerPing _ | .metadataRequest _ | .other => True

instance (s : ControllerServer) (cmd : ControllerCommand) : Decidable (s.WritesNothing cmd) :=
  match cmd with
  | .brokerRegister _ _ _ => isFalse id
  | .registerTopic topic => inferInstanceAs (Decidable (s.manager.storage.topics.get? topic ≠ none))
  | .isrChange topic _ => inferInstanceAs (Decidable (s.manager.storage.topics.get? topic = none))
  | .controllerPing _ | .metadataRequest _ | .other => isTrue trivial

/-- A handler does not write: the frame that it takes writes nothing, and it does not
deregister a broker. -/
def QuietWork (s : ControllerServer) : Work → Input → Prop
  | .serve, .frame cmd => s.WritesNothing cmd
  | .deregister _, .resume _ => False
  | _, _ => True

instance (s : ControllerServer) (w : Work) (input : Input) : Decidable (s.QuietWork w input) :=
  match w with
  | .serve =>
    match input with
    | .frame cmd => inferInstanceAs (Decidable (s.WritesNothing cmd))
    | .malformed | .stopped | .resume _ | .leader _ | .elected _ => isTrue trivial
  | .deregister _ =>
    match input with
    | .resume _ => isFalse id
    | .frame _ | .malformed | .stopped | .leader _ | .elected _ => isTrue trivial
  | .drain | .broadcast | .drained _ _ _ _ _ | .disconnect _ | .checkHeartbeats | .reject
  | .notLeader | .dropBrokers _ _ | .dropped _ _ _ | .election => isTrue trivial

/-- The controller, and the connections whose handlers have been told that the stream has
ended. Until then all that a handler does is for the sake of a frame. -/
structure Streams where
  server : ControllerServer
  ended : Nat → Bool

namespace Streams

def start : Streams := ⟨new, fun _ => false⟩

/-- The end of the stream, a reset and a timeout are seen by a handler that waits for a
frame. -/
def endedBy (s : Streams) : ServerEvent → Nat → Bool
  | .run (.handler conn) .stopped =>
    if (s.server.tasks (.handler conn)).head? = some .serve then Function.update s.ended conn true
    else s.ended
  | _ => s.ended

def advance (cfg : ControllerConfig) (s : Streams) (e : ServerEvent) : Streams × Unit :=
  (⟨s.server.step cfg e, s.endedBy e⟩, ())

/-- Without the leadership a handler does not write before its stream has ended. -/
def QuietFrames (s : Streams) : ServerEvent → Prop
  | .run (.handler conn) input =>
    s.server.isLeader = false → s.ended conn = false →
      ∀ w ∈ (s.server.tasks (.handler conn)).head?, s.server.QuietWork w input
  | _ => True

instance (s : Streams) (e : ServerEvent) : Decidable (s.QuietFrames e) :=
  match e with
  | .run (.handler conn) input =>
    inferInstanceAs (Decidable (s.server.isLeader = false → s.ended conn = false →
      ∀ w ∈ (s.server.tasks (.handler conn)).head?, s.server.QuietWork w input))
  | .run .heartbeat _ | .run (.leaderGone _) _ | .tick _ | .accept _ | .lose _ | .leaderGone _ =>
    isTrue trivial

theorem run_server (cfg : ControllerConfig) (s : Streams) (events : List ServerEvent) :
    (run (advance cfg) s events).server = run (ControllerServer.advance cfg) s.server events := by
  induction events generalizing s with
  | nil => rfl
  | cons e events ih => exact ih _

end Streams

section
variable {cfg : ControllerConfig} {s : ControllerServer} {conn : Nat} {rest : List Work}

theorem leave_manager (conn : Nat) : (s.leave cfg conn).manager = s.manager := by
  simp only [leave]
  split
  · split <;> rfl
  · rfl

theorem raise_manager (task : TaskId) : (s.raise cfg task).manager = s.manager := by
  cases task with
  | handler conn =>
      simp only [raise]
      split
      · exact leave_manager conn
      · rfl
  | heartbeat => rfl
  | leaderGone n => rfl

theorem sendNext_manager (task : TaskId) (rest : List Work) (metaList : List TopicMetaDataResponse)
    (disconnected : List (String × Cause)) (targets : List (String × Nat)) :
    (s.sendNext task rest metaList disconnected targets).manager = s.manager := by
  cases targets <;> rfl

theorem heartbeat_manager (conn : Nat) : (s.heartbeat conn).manager = s.manager := by
  simp only [heartbeat]
  split
  · rfl
  · split <;> rfl

theorem WritesNothing.manager {cmd : ControllerCommand} (h : s.WritesNothing cmd) :
    (s.handleFrame cfg conn rest cmd).manager = s.manager := by
  cases cmd with
  | brokerRegister brokerId host port => exact h.elim
  | controllerPing other => exact heartbeat_manager conn
  | metadataRequest topic => rfl
  | other => rfl
  | registerTopic topic =>
      cases hget : s.manager.storage.topics.get? topic with
      | none => exact absurd hget h
      | some t =>
          have hexec : s.manager.exec cfg.hash (Metastore.registerTopic cfg.replicasPerTopic topic) =
              (s.manager, .ok t) := by
            simp [MetastoreManager.exec, Metastore.registerTopic, Storage.getTopic, Prog.perform,
              bind, Prog.bind, Prog.exec, MetastoreManager.handle, hget, pure]
          simp only [handleFrame, hexec]
          rfl
  | isrChange topic isrList =>
      have hnone : s.manager.storage.topics.get? topic = none := h
      have hexec : s.manager.exec cfg.hash (Metastore.updateTopicIsr topic isrList) =
          (s.manager, .ok none) := by
        simp [MetastoreManager.exec, Metastore.updateTopicIsr, Storage.getTopic, Prog.perform,
          bind, Prog.bind, Prog.exec, MetastoreManager.handle, hnone, pure]
      simp only [handleFrame, hexec]
      rfl

theorem dropBrokers_manager (task : TaskId) (response : ControllerResponse)
    (ids : List String) : (s.dropBrokers task rest response ids).manager = s.manager := by
  induction ids with
  | nil => rfl
  | cons brokerId more ih =>
      simp only [dropBrokers]
      split
      · exact ih
      · rfl

theorem disconnect_manager (task : TaskId) (brokerId : String) (more : List (String × Cause)) :
    (s.disconnect cfg task rest brokerId more).manager = s.manager := by
  simp only [disconnect]
  split <;> rfl

/-- A step of a task that does not write. -/
theorem run_manager {task : TaskId} {input : Input}
    (quiet : ∀ w ∈ (s.tasks task).head?, s.QuietWork w input) :
    (s.step cfg (.run task input)).manager = s.manager := by
  have head : ∀ {w rest}, s.tasks task = w :: rest → s.QuietWork w input :=
    fun htasks => quiet _ (htasks ▸ rfl)
  apply run_cases (P := fun s' => s'.manager = s.manager)
  case idle => rfl
  case frame =>
      intro conn rest cmd _ htasks hinput
      subst hinput
      exact (head htasks).manager
  case leave => exact fun conn _ _ _ => leave_manager conn
  case fail => exact fun _ _ => raise_manager task
  case next => exact fun _ _ _ => rfl
  case broadcast => exact fun _ _ => sendNext_manager _ _ _ _ _
  case drained => exact fun _ _ _ _ _ _ _ _ => sendNext_manager _ _ _ _ _
  case disconnect => exact fun _ _ _ _ _ _ _ => disconnect_manager _ _ _
  case deregister =>
      intro brokerId rest failed hinput htasks
      subst hinput
      exact (head htasks).elim
  case check => exact fun _ _ => rfl
  case reject => exact fun _ _ _ _ _ => rfl
  case notLeader => exact fun _ _ _ => dropBrokers_manager _ _ _
  case drop => exact fun _ _ _ _ => dropBrokers_manager _ _ _
  case dropped => exact fun _ _ _ _ _ => ⟨rfl, rfl⟩
  case elected => exact fun _ _ _ => rfl

end

/-- If no handler writes without the leadership before its stream has ended, whether for a
frame or for a broker that it tears down on the way, then no step of a handler for the sake
of a frame changes the storage or the ring of a controller that does not lead. -/
theorem no_writes_without_leadership (cfg : ControllerConfig) (events : List ServerEvent)
    (quiet : MeetsAll (Streams.advance cfg) Streams.QuietFrames .start events)
    (early late : List ServerEvent) (conn : Nat) (input : Input)
    (hsplit : events = early ++ .run (.handler conn) input :: late)
    (hlost : (run (advance cfg) new early).isLeader = false)
    (hopen : (run (Streams.advance cfg) .start early).ended conn = false) :
    (run (advance cfg) new (early ++ [.run (.handler conn) input])).manager =
      (run (advance cfg) new early).manager := by
  subst hsplit
  have hstep := (quiet.of_append.2).1
  have hserver : (run (Streams.advance cfg) .start early).server = run (advance cfg) new early :=
    Streams.run_server cfg .start early
  rw [run_append]
  refine run_manager fun w hw => ?_
  rw [← hserver] at hlost hw ⊢
  exact hstep hlost hopen w hw

/-- A topic that is stored already, registered after the leadership was lost. -/
theorem no_writes_without_leadership_stored_topic :
    (run (advance oneReplica) new ([.accept 1] ++ handled 1 (.registerTopic "t") 3 ++
        [.leaderGone 0] ++ [.run (.handler 1) (.frame (.registerTopic "t"))])).manager =
      (run (advance oneReplica) new ([.accept 1] ++ handled 1 (.registerTopic "t") 3 ++
        [.leaderGone 0])).manager :=
  no_writes_without_leadership oneReplica _ (by decide +kernel) _ [] 1 _ rfl (by decide +kernel)
    (by decide +kernel)

/-- A connection that was accepted before registers a broker after the leadership was
lost. -/
theorem write_without_leadership :
    (run (advance oneReplica) new [.accept 1, .leaderGone 0]).isLeader = false ∧
      (run (advance oneReplica) new [.accept 1, .leaderGone 0,
        .run (.handler 1) (.frame (.brokerRegister "b" "h" 1))]).isLeader = false ∧
      (run (advance oneReplica) new [.accept 1, .leaderGone 0]).manager.storage.nodes.get? "b" =
        none ∧
      (run (advance oneReplica) new [.accept 1, .leaderGone 0,
        .run (.handler 1) (.frame (.brokerRegister "b" "h" 1))]).manager.storage.nodes.get? "b" =
          some ⟨"b", "h", 1⟩ := by
  decide +kernel

/-- Two brokers are registered and a topic is stored. Then the leadership is lost, the second
connection breaks, and the topic is registered again on the first. -/
def staleBroadcast : List ServerEvent :=
  [.accept 1, .accept 2] ++ handled 1 (.brokerRegister "b1" "h1" 1) 5 ++
    handled 2 (.brokerRegister "b2" "h2" 1) 5 ++ handled 1 (.registerTopic "t") 5 ++
    [.leaderGone 0, .lose 2] ++ handled 1 (.registerTopic "t") 3 ++
    List.replicate 3 (.run (.handler 1) (.resume true))

/-- The frame writes nothing, but its broadcast cannot be written to the second broker. -/
example : (run (advance oneReplica) new staleBroadcast).isLeader = false ∧
    (run (advance oneReplica) new staleBroadcast).manager.storage.nodes.keys = ["b1"] := by
  decide +kernel

end ControllerServer
end PyLogStream
