import PyLogStream.Lib.Run
import PyLogStream.Metastore.Manager
import PyLogStream.Replication.Manager

/-!
The controller (`ControllerServer`) on the in-memory storage. Its tasks are the
handlers of the connections, the heartbeat checker and the callbacks that a lost
leadership starts. A task runs from one `await` to the next without interruption;
what it does afterwards is a stack of pending work, and an event lets one task do
the next piece. The stack may grow as far as it has to; the interpreter's recursion limit is in
`Controller.Cascade`. The metastore's own `await`s never suspend on this storage.
-/

namespace PyLogStream
open Lib

/-- What a controller accepts on a connection; `other` is any further command. -/
inductive ControllerCommand where
  | brokerRegister (brokerId host : String) (port : Int)
  | controllerPing (brokerId : String)
  | registerTopic (topic : String)
  | metadataRequest (topic : String)
  | isrChange (topic : String) (isrList : List String)
  | other
  deriving DecidableEq, Repr

inductive ControllerResponse where
  | topicMetaDataList (metaList : List TopicMetaDataResponse)
  | topicMetaData (metaData : TopicMetaDataResponse)
  | controllerPing
  | error (code : Int) (message : String)
  | notLeaderController (leaderId leaderHost : String) (leaderPort : Int)
  deriving DecidableEq, Repr

/-- The metadata in a response. -/
def ControllerResponse.entries : ControllerResponse → List TopicMetaDataResponse
  | .topicMetaDataList metaList => metaList
  | .topicMetaData metaData => [metaData]
  | _ => []

structure LeaderInfo where
  controllerId : String
  host : String
  port : Int
  deriving DecidableEq, Repr

def notLeaderResponse (leader : Option LeaderInfo) : ControllerResponse :=
  match leader with
  | some leader => .notLeaderController leader.controllerId leader.host leader.port
  | none => .notLeaderController "" "" 0

/-- An entry of `active_brokers`; the writer is named by its connection. -/
structure ActiveBroker where
  conn : Nat
  lastHeartbeat : Int
  host : String
  port : Int
  deriving DecidableEq, Repr

/-- A connection and the local state of its handler. -/
structure Connection where
  /-- The handler is in its loop. -/
  serving : Bool
  brokerId : Option String
  /-- When the last registration or ping came in. -/
  lastHeartbeat : Int
  /-- The peer has closed it, or the network has. -/
  lost : Bool
  /-- The server has closed its writer. -/
  closed : Bool
  /-- The server closed it after it was lost, left or overdue. -/
  retired : Bool
  deriving DecidableEq, Repr

/-- A connection that has not been opened. -/
def Connection.absent : Connection := ⟨false, none, 0, false, false, false⟩

inductive TaskId where
  | handler (conn : Nat)
  | heartbeat
  | leaderGone (n : Nat)
  deriving DecidableEq, Repr

/-- Why a broker is torn down. -/
inductive Cause where
  /-- The handler of this connection has left its loop. -/
  | left (conn : Nat)
  /-- A write to this connection has failed. -/
  | failed (conn : Nat)
  /-- The heartbeat was overdue. -/
  | overdue
  deriving DecidableEq, Repr

/-- What a task does when it is resumed. -/
inductive Work where
  /-- Wait for the next frame. -/
  | serve
  /-- Wait for the writer of the handler to drain. -/
  | drain
  /-- Call `broadcast_metadata`. -/
  | broadcast
  /-- The loop of `broadcast_metadata`, after a write to the broker. -/
  | drained (metaList : List TopicMetaDataResponse) (brokerId : String) (conn : Nat)
      (rest : List (String × Nat)) (disconnected : List (String × Cause))
  /-- Call `_handle_broker_disconnect` for each of these. -/
  | disconnect (todo : List (String × Cause))
  /-- `_handle_broker_disconnect` once the writer is closed. -/
  | deregister (brokerId : String)
  | checkHeartbeats
  /-- Turn a connection away, when the leader is known. -/
  | reject
  /-- `_broadcast_not_leader`, when the leader is known. -/
  | notLeader
  /-- The loop of `_broadcast_not_leader`. -/
  | dropBrokers (response : ControllerResponse) (ids : List String)
  /-- The same after a write to the connection. -/
  | dropped (response : ControllerResponse) (conn : Nat) (ids : List String)
  | election
  deriving DecidableEq, Repr

/-- What a resumed task finds. -/
inductive Input where
  | frame (cmd : ControllerCommand)
  /-- A frame that `parse_command` rejects. -/
  | malformed
  /-- The end of the stream, a reset or a timeout. -/
  | stopped
  /-- The wait is over; a drain may have failed. -/
  | resume (failed : Bool)
  | leader (info : Option LeaderInfo)
  | elected (won : Bool)
  deriving DecidableEq, Repr

inductive ServerEvent where
  /-- Time passes. -/
  | tick (elapsed : Nat)
  | accept (conn : Nat)
  | lose (conn : Nat)
  /-- The watch on the leader's node fires. -/
  | leaderGone (n : Nat)
  | run (task : TaskId) (input : Input)
  deriving DecidableEq, Repr

structure ControllerConfig where
  hash : String → Nat
  replicasPerTopic : Int
  heartbeatTimeout : Int

structure ControllerServer where
  manager : MetastoreManager
  isLeader : Bool
  activeBrokers : Dict String ActiveBroker
  now : Int
  conns : Nat → Connection
  tasks : TaskId → List Work
  /-- Which connection has last registered a broker. -/
  registrant : String → Option Nat
  /-- What has been written to the connections. -/
  sent : List (Nat × ControllerResponse)

/-- The metadata of a topic with its leader's address. -/
def MetastoreManager.describe (m : MetastoreManager) (t : TopicMetadata) : TopicMetaDataResponse :=
  let leaderNode := m.storage.nodes.get? t.leaderId
  { topic := t.topic
    leaderId := t.leaderId
    leaderAddr := (leaderNode.map BrokerNode.host).getD "0.0.0.0"
    leaderPort := (leaderNode.map BrokerNode.port).getD 0
    replicaList := t.replicaList
    version := t.version }

def MetastoreManager.metaList (m : MetastoreManager) : List TopicMetaDataResponse :=
  m.storage.topics.values.map m.describe

namespace ControllerServer

/-- A started controller that leads. -/
def new : ControllerServer :=
  { manager := .new
    isLeader := true
    activeBrokers := Dict.empty
    now := 0
    conns := fun _ => .absent
    tasks := fun task => if task = .heartbeat then [.checkHeartbeats] else []
    registrant := fun _ => none
    sent := [] }

def setTask (s : ControllerServer) (task : TaskId) (work : List Work) : ControllerServer :=
  { s with tasks := Function.update s.tasks task work }

def setConn (s : ControllerServer) (conn : Nat) (c : Connection) : ControllerServer :=
  { s with conns := Function.update s.conns conn c }

def write (s : ControllerServer) (conn : Nat) (response : ControllerResponse) : ControllerServer :=
  { s with sent := s.sent ++ [(conn, response)] }

/-- A write to the connection fails. -/
def Broken (s : ControllerServer) (conn : Nat) : Prop :=
  (s.conns conn).lost = true ∨ (s.conns conn).closed = true

instance (s : ControllerServer) (conn : Nat) : Decidable (s.Broken conn) :=
  inferInstanceAs (Decidable (_ ∨ _))

section
variable (cfg : ControllerConfig)

/-- The connection is open and within its heartbeat timeout. -/
def Live (s : ControllerServer) (conn : Nat) : Prop :=
  (s.conns conn).serving = true ∧ (s.conns conn).lost = false ∧ (s.conns conn).retired = false ∧
    s.now - (s.conns conn).lastHeartbeat ≤ cfg.heartbeatTimeout

instance (s : ControllerServer) (conn : Nat) : Decidable (s.Live cfg conn) :=
  inferInstanceAs (Decidable (_ ∧ _))

def closeConn (s : ControllerServer) (conn : Nat) : ControllerServer :=
  let c := s.conns conn
  s.setConn conn { c with closed := true, retired := c.retired || !decide (s.Live cfg conn) }

/-- The handler leaves its loop; the `finally` block comes next. -/
def leave (s : ControllerServer) (conn : Nat) : ControllerServer :=
  let c := s.conns conn
  let s := s.setConn conn { c with serving := false }
  match c.brokerId with
  | some brokerId =>
    if brokerId = "" then (s.closeConn cfg conn).setTask (.handler conn) []
    else s.setTask (.handler conn) [.disconnect [(brokerId, .left conn)]]
  | none => (s.closeConn cfg conn).setTask (.handler conn) []

/-- An exception ends a handler's loop; any other task, and a handler that has left
its loop, it ends altogether. -/
def raise (s : ControllerServer) (task : TaskId) : ControllerServer :=
  match task with
  | .handler conn => if (s.conns conn).serving then s.leave cfg conn else s.setTask task []
  | _ => s.setTask task []

/-- The next write of a broadcast. -/
def sendNext (s : ControllerServer) (task : TaskId) (rest : List Work)
    (metaList : List TopicMetaDataResponse) (disconnected : List (String × Cause)) :
    List (String × Nat) → ControllerServer
  | [] => s.setTask task (.disconnect disconnected :: rest)
  | (brokerId, conn) :: more =>
    (s.write conn (.topicMetaDataList metaList)).setTask task
      (.drained metaList brokerId conn more disconnected :: rest)

def broadcastMetadata (s : ControllerServer) (task : TaskId) (rest : List Work) :
    ControllerServer :=
  s.sendNext task rest s.manager.metaList []
    (s.activeBrokers.items.map fun item => (item.1, item.2.conn))

/-- `_handle_broker_disconnect` up to the closing of the writer. -/
def disconnect (s : ControllerServer) (task : TaskId) (rest : List Work) (brokerId : String)
    (more : List (String × Cause)) : ControllerServer :=
  match s.activeBrokers.get? brokerId with
  | none => s.setTask task (.disconnect more :: rest)
  | some entry =>
    let s := { s with activeBrokers := s.activeBrokers.erase brokerId }
    (s.closeConn cfg entry.conn).setTask task (.deregister brokerId :: .disconnect more :: rest)

/-- The brokers whose heartbeat is overdue. -/
def stale (s : ControllerServer) : List (String × Cause) :=
  (s.activeBrokers.items.filter fun item =>
    decide (s.now - item.2.lastHeartbeat > cfg.heartbeatTimeout)).map fun item => (item.1, .overdue)

/-- A ping refreshes the broker that its connection has registered. -/
def heartbeat (s : ControllerServer) (conn : Nat) : ControllerServer :=
  let s' := s.setConn conn { s.conns conn with lastHeartbeat := s.now }
  match (s.conns conn).brokerId with
  | none => s'
  | some brokerId =>
    match s.activeBrokers.get? brokerId with
    | none => s'
    | some entry =>
      { s' with
        activeBrokers := s.activeBrokers.set brokerId ⟨conn, s.now, entry.host, entry.port⟩ }

/-- The body of the loop of `handle_connection`, up to its first `await` after the
metastore's. -/
def handleFrame (s : ControllerServer) (conn : Nat) (rest : List Work) :
    ControllerCommand → ControllerServer
  | .brokerRegister brokerId host port =>
    let s :=
      { s.setConn conn { s.conns conn with brokerId := some brokerId, lastHeartbeat := s.now } with
        activeBrokers := s.activeBrokers.set brokerId ⟨conn, s.now, host, port⟩
        registrant := Function.update s.registrant brokerId (some conn) }
    match s.manager.exec cfg.hash (Metastore.registerBroker brokerId host port) with
    | (manager, .ok _) =>
      let s := { s with manager }
      (s.write conn (.topicMetaDataList manager.metaList)).setTask (.handler conn)
        (.drain :: .broadcast :: .serve :: rest)
    | (manager, .error _) => { s with manager }.raise cfg (.handler conn)
  | .controllerPing _ =>
    ((s.heartbeat conn).write conn .controllerPing).setTask (.handler conn)
      (.drain :: .serve :: rest)
  | .registerTopic topic =>
    match s.manager.exec cfg.hash (Metastore.registerTopic cfg.replicasPerTopic topic) with
    | (manager, .ok topicMeta) =>
      let s := { s with manager }
      (s.write conn (.topicMetaData (manager.describe topicMeta))).setTask (.handler conn)
        (.drain :: .broadcast :: .serve :: rest)
    | (manager, .error _) => { s with manager }.raise cfg (.handler conn)
  | .metadataRequest topic =>
    let response :=
      match s.manager.storage.topics.get? topic with
      | some topicMeta => .topicMetaData (s.manager.describe topicMeta)
      | none => .error 404 ("Topic " ++ topic ++ " not found")
    (s.write conn response).setTask (.handler conn) (.drain :: .serve :: rest)
  | .isrChange topic isrList =>
    match s.manager.exec cfg.hash (Metastore.updateTopicIsr topic isrList) with
    | (manager, .ok _) => { s with manager }.setTask (.handler conn) (.serve :: rest)
    | (manager, .error _) => { s with manager }.raise cfg (.handler conn)
  | .other =>
    (s.write conn (.error 400 "Invalid command for controller")).setTask (.handler conn)
      (.drain :: .serve :: rest)

/-- The loop of `_broadcast_not_leader`, up to the next `await`. -/
def dropBrokers (s : ControllerServer) (task : TaskId) (rest : List Work)
    (response : ControllerResponse) : List String → ControllerServer
  | [] => s.setTask task rest
  | brokerId :: more =>
    match s.activeBrokers.get? brokerId with
    | none => dropBrokers s task rest response more
    | some entry =>
      let s := { s with activeBrokers := s.activeBrokers.erase brokerId }
      (s.write entry.conn response).setTask task (.dropped response entry.conn more :: rest)

/-- A task does its next piece of work. An input that does not fit does nothing. -/
def resume (s : ControllerServer) (task : TaskId) (rest : List Work) :
    Work → Input → ControllerServer
  | .serve, .frame cmd =>
    match task with
    | .handler conn => s.handleFrame cfg conn rest cmd
    | _ => s
  | .serve, .malformed | .serve, .stopped =>
    match task with
    | .handler conn => s.leave cfg conn
    | _ => s
  | .drain, .resume failed =>
    match task with
    | .handler conn =>
      if failed = true ∧ s.Broken conn then s.raise cfg task else s.setTask task rest
    | _ => s
  | .broadcast, .resume _ => s.broadcastMetadata task rest
  | .drained metaList brokerId conn more disconnected, .resume failed =>
    let disconnected :=
      if failed = true ∧ s.Broken conn then disconnected ++ [(brokerId, .failed conn)]
      else disconnected
    s.sendNext task rest metaList disconnected more
  | .disconnect [], .resume _ => s.setTask task rest
  | .disconnect ((brokerId, _) :: more), .resume _ => s.disconnect cfg task rest brokerId more
  | .deregister brokerId, .resume _ =>
    match s.manager.exec cfg.hash (Metastore.deregisterBroker cfg.replicasPerTopic brokerId) with
    | (manager, .ok _) => { s with manager }.broadcastMetadata task rest
    | (manager, .error _) => { s with manager }.raise cfg task
  | .checkHeartbeats, .resume _ =>
    s.setTask task (.disconnect (s.stale cfg) :: .checkHeartbeats :: rest)
  | .reject, .leader info =>
    match task with
    | .handler conn =>
      ((s.write conn (notLeaderResponse info)).closeConn cfg conn).setTask task rest
    | _ => s
  | .notLeader, .leader info =>
    s.dropBrokers task rest (notLeaderResponse info) s.activeBrokers.keys
  | .dropBrokers response ids, .resume _ => s.dropBrokers task rest response ids
  | .dropped response conn ids, .resume failed =>
    let s := if failed = true ∧ s.Broken conn then s else s.closeConn cfg conn
    s.setTask task (.dropBrokers response ids :: rest)
  | .election, .elected won => { s with isLeader := won }.setTask task rest
  | _, _ => s

def step (s : ControllerServer) : ServerEvent → ControllerServer
  | .tick elapsed => { s with now := s.now + elapsed }
  | .accept conn =>
    if s.conns conn = .absent ∧ s.tasks (.handler conn) = [] then
      if s.isLeader then
        (s.setConn conn { s.conns conn with serving := true }).setTask (.handler conn) [.serve]
      else s.setTask (.handler conn) [.reject]
    else s
  | .lose conn => s.setConn conn { s.conns conn with lost := true }
  | .leaderGone n =>
    if s.tasks (.leaderGone n) = [] then
      { s with isLeader := false }.setTask (.leaderGone n) [.notLeader, .election]
    else s
  | .run task input =>
    match s.tasks task with
    | [] => s
    | work :: rest => s.resume cfg task rest work input

/-- One step of a run; a run has no results of its own. -/
def advance (s : ControllerServer) (e : ServerEvent) : ControllerServer × Unit := (s.step cfg e, ())

end
end ControllerServer
end PyLogStream
