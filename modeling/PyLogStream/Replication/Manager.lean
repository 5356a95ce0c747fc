import PyLogStream.Protocol.Response
import PyLogStream.Replication.Fetcher

/-!
The replica manager of a broker (`replication/manager.py`): the topics it holds, each
as leader or follower, and how metadata from the controller changes them. Closing a
state ends its background tasks and does not raise here; what is closed is part of
the outcome.
-/

namespace PyLogStream
open Lib

structure ReplicaConfig where
  id : String
  fetchSize : Int
  minIsrCount : Int
  maxIsrLagMs : Int
  deriving DecidableEq, Repr

inductive Role where
  | leader | follower
  deriving DecidableEq, Repr

structure TopicState where
  topic : String
  role : Role
  leaderId : String
  leaderAddr : String
  leaderPort : Int
  replicas : List String
  version : Int
  leader : Option ReplicaLeader
  fetcher : Option ReplicaFetcher
  /-- Whether the leader loop runs. -/
  loopTask : Bool
  running : Bool
  deriving DecidableEq

namespace TopicState

/-- The same metadata, with the replicas compared as sets. -/
def CompareMeta (state another : TopicState) : Prop :=
  state.topic = another.topic ∧ state.role = another.role ∧ state.leaderId = another.leaderId ∧
    state.leaderAddr = another.leaderAddr ∧ state.leaderPort = another.leaderPort ∧
    state.replicas ⊆ another.replicas ∧ another.replicas ⊆ state.replicas

instance (state another : TopicState) : Decidable (state.CompareMeta another) :=
  inferInstanceAs (Decidable (_ ∧ _))

/-- The state a message describes, with nothing started yet. -/
def ofMeta (brokerId : String) (metaData : TopicMetaDataResponse) : TopicState :=
  { topic := metaData.topic
    role := if metaData.leaderId = brokerId then .leader else .follower
    leaderId := metaData.leaderId
    leaderAddr := metaData.leaderAddr
    leaderPort := metaData.leaderPort
    replicas := metaData.replicaList
    version := metaData.version
    leader := none
    fetcher := none
    loopTask := false
    running := false }

end TopicState

inductive FetcherError where
  | attributeError (name : String)
  deriving DecidableEq, Repr

/-- The constructor reads `self.log_manager` before it assigns it, so it raises
whether or not the leader has accepted the connection. -/
def ReplicaFetcher.create (_topic _leaderAddr : String) (_leaderPort : Int) (_brokerId : String)
    (_fetchSize : Int) : Except FetcherError ReplicaFetcher :=
  .error (.attributeError "log_manager")

/-- The connection is closed as well. -/
def ReplicaFetcher.close (fetcher : ReplicaFetcher) : ReplicaFetcher :=
  { fetcher with running := false }

structure ReplicaManager where
  config : ReplicaConfig
  topics : Dict String TopicState
  log : LogManager

inductive MetadataOutcome where
  /-- This broker is no replica. -/
  | removed (closed : Option TopicState)
  | notNewer
  | unchanged
  | installed (closed : Option TopicState)

def MetadataOutcome.closed : MetadataOutcome → Option TopicState
  | .removed closed => closed
  | .notNewer => none
  | .unchanged => none
  | .installed closed => closed

namespace ReplicaManager

def closeState (state : TopicState) : TopicState :=
  { state with
    running := false, loopTask := false, fetcher := state.fetcher.map ReplicaFetcher.close }

/-- A fetcher that cannot be created is reported and left out. -/
def startTopic (config : ReplicaConfig) (log : LogManager) (state : TopicState) :
    LogManager × Except LogError TopicState :=
  match log.createTopic state.topic with
  | (log, .error err) => (log, .error err)
  | (log, .ok ()) =>
    match state.role with
    | .leader =>
      match ReplicaLeader.new state.topic config.id state.replicas log config.minIsrCount
          config.maxIsrLagMs with
      | .error err => (log, .error err)
      | .ok leader =>
        (log, .ok { state with leader := some leader, running := true, loopTask := true })
    | .follower =>
      match ReplicaFetcher.create state.topic state.leaderAddr state.leaderPort config.id
          config.fetchSize with
      | .error _ => (log, .ok state)
      | .ok fetcher => (log, .ok { state with fetcher := some fetcher, running := true })

def removeTopic (m : ReplicaManager) (topic : String) : ReplicaManager × Option TopicState :=
  match m.topics.get? topic with
  | none => (m, none)
  | some state => ({ m with topics := m.topics.erase topic }, some (closeState state))

/-- The new state is in place before it is started. -/
def install (m : ReplicaManager) (state : TopicState) (closed : Option TopicState) :
    ReplicaManager × Except LogError MetadataOutcome :=
  match startTopic m.config m.log state with
  | (log, .error err) =>
    ({ m with topics := m.topics.set state.topic state, log }, .error err)
  | (log, .ok started) =>
    ({ m with topics := m.topics.set state.topic started, log }, .ok (.installed closed))

def applyMetadata (m : ReplicaManager) (metaData : TopicMetaDataResponse) :
    ReplicaManager × Except LogError MetadataOutcome :=
  if m.config.id ∉ metaData.replicaList then
    let (m, closed) := m.removeTopic metaData.topic
    (m, .ok (.removed closed))
  else
    let state := TopicState.ofMeta m.config.id metaData
    match m.topics.get? state.topic with
    | none => m.install state none
    | some oldState =>
      if metaData.version ≤ oldState.version then (m, .ok .notNewer)
      else if state.CompareMeta oldState then (m, .ok .unchanged)
      else m.install state (some (closeState oldState))

/-- The first loop of `apply_metadata_list`, over the topics held when it is called. -/
def removeUnlisted (newTopics : List String) :
    List String → ReplicaManager → ReplicaManager × List MetadataOutcome
  | [], m => (m, [])
  | topic :: oldTopics, m =>
    if topic ∈ newTopics then removeUnlisted newTopics oldTopics m
    else
      let (m, closed) := m.removeTopic topic
      let (m, outcomes) := removeUnlisted newTopics oldTopics m
      (m, .removed closed :: outcomes)

/-- The second loop; an exception ends it. -/
def applyEach : List TopicMetaDataResponse → ReplicaManager →
    ReplicaManager × Except LogError (List MetadataOutcome)
  | [], m => (m, .ok [])
  | metaData :: metaList, m =>
    match m.applyMetadata metaData with
    | (m, .error err) => (m, .error err)
    | (m, .ok outcome) =>
      match applyEach metaList m with
      | (m, .error err) => (m, .error err)
      | (m, .ok outcomes) => (m, .ok (outcome :: outcomes))

def applyMetadataList (m : ReplicaManager) (metaList : List TopicMetaDataResponse) :
    ReplicaManager × Except LogError (List MetadataOutcome) :=
  let newTopics := metaList.map TopicMetaDataResponse.topic
  let (m, removed) := removeUnlisted newTopics m.topics.keys m
  let (m, result) := applyEach metaList m
  (m, result.map (removed ++ ·))

def getLeader (topics : Dict String TopicState) (topic : String) : Except String ReplicaLeader :=
  match topics.get? topic with
  | none => .error "Topic doesn't exists"
  | some state =>
    match state.role, state.leader with
    | .leader, some leader => .ok leader
    | _, _ => .error "Broker is not leader of this topic"

/-- Store what a method call has changed in the leader object of a topic. -/
def setLeader (m : ReplicaManager) (topic : String) (leader : ReplicaLeader) : ReplicaManager :=
  match m.topics.get? topic with
  | none => m
  | some state => { m with topics := m.topics.set topic { state with leader := some leader } }

inductive LoopOutcome where
  /-- There is no loop, or an exception has ended it. -/
  | stopped
  /-- The loop sleeps; these are the replicas it has called `on_isr_change` with. -/
  | sleeping (changed : Option (List String))
  deriving DecidableEq, Repr

/-- One iteration of `_leader_loop`. The lists are compared as multisets. -/
def leaderLoop (m : ReplicaManager) (onIsrChange : Bool) (topic : String) (now : Time) :
    ReplicaManager × LoopOutcome :=
  match m.topics.get? topic with
  | none => (m, .stopped)
  | some state =>
    match state.running && state.loopTask, state.role, state.leader with
    | true, .leader, some leader =>
      match leader.updateIsr now with
      | .error _ => ({ m with topics := m.topics.set topic { state with loopTask := false } }, .stopped)
      | .ok updated =>
        let changed := onIsrChange = true ∧ ¬ leader.inSyncReplica.Perm updated.inSyncReplica
        ({ m with topics := m.topics.set topic { state with leader := some updated } },
          .sleeping (if changed then some updated.inSyncReplica else none))
    | _, _, _ => (m, .stopped)

inductive FetchError where
  | topicNotFound
  | notLeader
  | assertion
  | leader (err : LeaderError)
  deriving DecidableEq

/-- `handle` on a fetch command. -/
def handle (m : ReplicaManager) (env : CallEnv) (cmd : ReplicaFetchCommand) :
    ReplicaManager × Except FetchError ReplicaResponse :=
  match m.topics.get? cmd.topic with
  | none => (m, .error .topicNotFound)
  | some state =>
    match state.role, state.leader with
    | .leader, some leader =>
      let (leader, log, result) := leader.handle m.log env cmd
      ({ m with topics := m.topics.set cmd.topic { state with leader := some leader }, log },
        result.mapError .leader)
    | .leader, none => (m, .error .assertion)
    | .follower, _ => (m, .error .notLeader)

end ReplicaManager
end PyLogStream
