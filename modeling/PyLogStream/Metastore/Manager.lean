import PyLogStream.Lib.Prog
import PyLogStream.Metastore.Ring

/-!
The metastore of the controller (`metastore/models.py`, `metastore/manager.py` and
the in-memory half of `metastore/storage.py`). The manager's operations are written
once, as programs over the calls they make to a storage and to the hash ring; the
in-memory storage is one handler for these calls.
-/

namespace PyLogStream
open Lib

structure BrokerNode where
  nodeId : String
  host : String
  port : Int
  deriving DecidableEq, Repr

structure TopicMetadata where
  topic : String
  leaderId : String
  replicaList : List String
  isrList : List String
  version : Int
  deriving DecidableEq, Repr

inductive MetastoreError where
  /-- The `ValueError` of `add_topic`. -/
  | topicExists (topic : String)
  /-- The `ValueError` of `update_topic`. -/
  | topicMissing (topic : String)
  | ring (err : RingError)
  /-- The stored dictionary lacks a field. -/
  | keyError (path : String)
  /-- ZooKeeper's `NoNodeError`. -/
  | noNode (path : String)
  /-- ZooKeeper's `NotEmptyError`. -/
  | notEmpty (path : String)
  deriving DecidableEq, Repr

/-- What a manager operation asks of its storage and its ring. -/
inductive MetastoreCall where
  | addNode (node : BrokerNode)
  | removeNode (nodeId : String)
  | getNode (nodeId : String)
  | getAllNodes
  | addTopic (topic : TopicMetadata)
  | updateTopic (topic : TopicMetadata)
  | getTopic (topicName : String)
  | getAllTopics
  | ring (c : RingCall)
  deriving DecidableEq, Repr

@[reducible]
def MetastoreCall.Answer : MetastoreCall → Type
  | .addNode _ | .addTopic _ | .updateTopic _ => Unit
  | .removeNode _ | .getNode _ => Option BrokerNode
  | .getAllNodes => List BrokerNode
  | .getTopic _ => Option TopicMetadata
  | .getAllTopics => List TopicMetadata
  | .ring c => c.Answer

/-- A manager operation. -/
abbrev MetastoreProg := Prog MetastoreCall MetastoreCall.Answer

namespace Storage
variable {ε : Type}

def addNode (node : BrokerNode) : MetastoreProg ε Unit := Prog.perform (MetastoreCall.addNode node)

def removeNode (nodeId : String) : MetastoreProg ε (Option BrokerNode) :=
  Prog.perform (MetastoreCall.removeNode nodeId)

def getNode (nodeId : String) : MetastoreProg ε (Option BrokerNode) :=
  Prog.perform (MetastoreCall.getNode nodeId)

def getAllNodes : MetastoreProg ε (List BrokerNode) := Prog.perform MetastoreCall.getAllNodes

def addTopic (topic : TopicMetadata) : MetastoreProg ε Unit :=
  Prog.perform (MetastoreCall.addTopic topic)

def updateTopic (topic : TopicMetadata) : MetastoreProg ε Unit :=
  Prog.perform (MetastoreCall.updateTopic topic)

def getTopic (topicName : String) : MetastoreProg ε (Option TopicMetadata) :=
  Prog.perform (MetastoreCall.getTopic topicName)

def getAllTopics : MetastoreProg ε (List TopicMetadata) := Prog.perform MetastoreCall.getAllTopics

end Storage

namespace Ring
variable {ε : Type}

def addNode (nodeId : String) : MetastoreProg ε Unit :=
  Prog.perform (MetastoreCall.ring (.addNode nodeId))

def removeNode (nodeId : String) : MetastoreProg ε Unit :=
  Prog.perform (MetastoreCall.ring (.removeNode nodeId))

def getNode (topic : String) : MetastoreProg ε (Option String) :=
  Prog.perform (MetastoreCall.ring (.getNode topic))

def getReplicas (topic : String) (count : Int) : MetastoreProg ε (List String) :=
  Prog.perform (MetastoreCall.ring (.getReplicas topic count))

end Ring

namespace Metastore
section
variable {ε : Type}

/-- `_elect_leader`: the first in-sync replica, else the first replica, else the
ring's node for the topic. -/
def electLeader (topicMeta : TopicMetadata) : MetastoreProg ε String :=
  match topicMeta.isrList, topicMeta.replicaList with
  | leader :: _, _ => pure leader
  | [], leader :: _ => pure leader
  | [], [] => do
    let node ← Ring.getNode topicMeta.topic
    pure (node.getD "")

/-- The topic with a new leader, if it needs one. -/
def reelect (needed : Prop) [Decidable needed] (topicMeta : TopicMetadata) :
    MetastoreProg ε TopicMetadata :=
  if needed then do
    let leader ← electLeader topicMeta
    pure { topicMeta with leaderId := leader }
  else pure topicMeta

def registerBroker (nodeId host : String) (port : Int) : MetastoreProg ε BrokerNode := do
  let node : BrokerNode := ⟨nodeId, host, port⟩
  Storage.addNode node
  Ring.addNode nodeId
  pure node

/-- Fill up the replicas with the ring's, up to the count. -/
def refill (count : Int) : List String → List String → List String
  | [], newReplicas => newReplicas
  | r :: rest, newReplicas =>
    if r ∈ newReplicas then refill count rest newReplicas
    else if ((newReplicas ++ [r]).length : Int) = count then newReplicas ++ [r]
    else refill count rest (newReplicas ++ [r])

section
variable (replicasPerTopic : Int)

/-- The replicas of a topic after a node has gone. -/
def replaceReplica (activeNodeIds : List String) (nodeId : String) (topicMeta : TopicMetadata) :
    MetastoreProg ε (List String) :=
  if nodeId ∈ topicMeta.replicaList then
    let newReplicas := topicMeta.replicaList.filter fun r => decide (r ≠ nodeId)
    if (newReplicas.length : Int) < replicasPerTopic ∧ activeNodeIds ≠ [] then do
      let hReplicas ← Ring.getReplicas topicMeta.topic replicasPerTopic
      pure (refill replicasPerTopic hReplicas newReplicas)
    else pure newReplicas
  else pure topicMeta.replicaList

/-- The body of the loop in `deregister_broker`: the updated topic, if it needs an
update. A failed leader leaves the in-sync list before the election. -/
def deregisterTopic (activeNodeIds : List String) (nodeId : String) (topicMeta : TopicMetadata) :
    MetastoreProg ε (Option TopicMetadata) := do
  let newReplicas ← replaceReplica replicasPerTopic activeNodeIds nodeId topicMeta
  let isrList :=
    if topicMeta.leaderId = nodeId then topicMeta.isrList.filter fun r => decide (r ≠ nodeId)
    else topicMeta.isrList
  let newMeta ← reelect (topicMeta.leaderId = nodeId)
    { topicMeta with replicaList := newReplicas, isrList }
  if nodeId ∈ topicMeta.replicaList ∨ topicMeta.leaderId = nodeId then do
    let newMeta := { newMeta with version := topicMeta.version + 1 }
    Storage.updateTopic newMeta
    pure (some newMeta)
  else pure none

def deregisterTopics (activeNodeIds : List String) (nodeId : String) :
    List TopicMetadata → MetastoreProg ε (List TopicMetadata)
  | [] => pure []
  | topicMeta :: rest => do
    let updated ← deregisterTopic replicasPerTopic activeNodeIds nodeId topicMeta
    let updatedTopics ← deregisterTopics activeNodeIds nodeId rest
    pure (updated.toList ++ updatedTopics)

def deregisterBroker (nodeId : String) : MetastoreProg ε (List TopicMetadata) := do
  let _ ← Storage.removeNode nodeId
  Ring.removeNode nodeId
  let allTopics ← Storage.getAllTopics
  let allNodes ← Storage.getAllNodes
  deregisterTopics replicasPerTopic (allNodes.map BrokerNode.nodeId) nodeId allTopics

def registerTopic (topicName : String) : MetastoreProg ε TopicMetadata := do
  let existing ← Storage.getTopic topicName
  match existing with
  | some existing => pure existing
  | none => do
    let replicas ← Ring.getReplicas topicName replicasPerTopic
    let topicMeta : TopicMetadata :=
      { topic := topicName
        leaderId := replicas.head?.getD ""
        replicaList := replicas
        isrList := replicas
        version := 1 }
    Storage.addTopic topicMeta
    pure topicMeta

end

def updateTopicIsr (topicName : String) (isrList : List String) :
    MetastoreProg ε (Option TopicMetadata) := do
  let existing ← Storage.getTopic topicName
  match existing with
  | none => pure none
  | some topicMeta => do
    let newMeta ← reelect (topicMeta.leaderId ∉ isrList) { topicMeta with isrList }
    let newMeta := { newMeta with version := topicMeta.version + 1 }
    Storage.updateTopic newMeta
    pure (some newMeta)

def getTopicMetadata (topicName : String) : MetastoreProg ε (Option TopicMetadata) :=
  Storage.getTopic topicName

def getAllTopics : MetastoreProg ε (List TopicMetadata) := Storage.getAllTopics

def getNode (nodeId : String) : MetastoreProg ε (Option BrokerNode) :=
  Storage.getNode nodeId

end
end Metastore

/-- The in-memory storage. -/
structure MetastoreStorage where
  nodes : Dict String BrokerNode
  topics : Dict String TopicMetadata
  deriving DecidableEq

/-- A manager's ring and the in-memory storage under it. -/
structure MetastoreManager where
  storage : MetastoreStorage
  ring : ConsistentHashRing
  deriving DecidableEq

namespace MetastoreManager

def new : MetastoreManager := ⟨⟨Dict.empty, Dict.empty⟩, .new⟩

def setTopic (s : MetastoreManager) (topic : TopicMetadata) : MetastoreManager :=
  { s with storage := { s.storage with topics := s.storage.topics.set topic.topic topic } }

section
variable (hash : String → Nat)

def handle (s : MetastoreManager) :
    (c : MetastoreCall) → MetastoreManager × Except MetastoreError c.Answer
  | .addNode node =>
    ({ s with storage := { s.storage with nodes := s.storage.nodes.set node.nodeId node } }, .ok ())
  | .removeNode nodeId =>
    ({ s with storage := { s.storage with nodes := s.storage.nodes.erase nodeId } },
      .ok (s.storage.nodes.get? nodeId))
  | .getNode nodeId => (s, .ok (s.storage.nodes.get? nodeId))
  | .getAllNodes => (s, .ok s.storage.nodes.values)
  | .addTopic topic =>
    match s.storage.topics.get? topic.topic with
    | some _ => (s, .error (.topicExists topic.topic))
    | none => (s.setTopic topic, .ok ())
  | .updateTopic topic =>
    match s.storage.topics.get? topic.topic with
    | none => (s, .error (.topicMissing topic.topic))
    | some _ => (s.setTopic topic, .ok ())
  | .getTopic topicName => (s, .ok (s.storage.topics.get? topicName))
  | .getAllTopics => (s, .ok s.storage.topics.values)
  | .ring c =>
    let (ring, result) := s.ring.handle hash c
    ({ s with ring }, result.mapError .ring)

/-- Run an operation on the in-memory storage. -/
def exec {α : Type} (s : MetastoreManager) (p : MetastoreProg MetastoreError α) :
    MetastoreManager × Except MetastoreError α :=
  Prog.exec (handle hash) s p

end
end MetastoreManager

/-- The operations that change the metastore. -/
inductive MetastoreOp where
  | registerBroker (nodeId host : String) (port : Int)
  | deregisterBroker (nodeId : String)
  | registerTopic (topicName : String)
  | updateTopicIsr (topicName : String) (isrList : List String)
  deriving DecidableEq, Repr

inductive MetastoreAnswer where
  | node (node : BrokerNode)
  | updatedTopics (topics : List TopicMetadata)
  | topic (topic : TopicMetadata)
  | updatedTopic (topic : Option TopicMetadata)
  deriving DecidableEq, Repr

def MetastoreOp.program {ε : Type} (replicasPerTopic : Int) :
    MetastoreOp → MetastoreProg ε MetastoreAnswer
  | .registerBroker nodeId host port =>
    return .node (← Metastore.registerBroker nodeId host port)
  | .deregisterBroker nodeId =>
    return .updatedTopics (← Metastore.deregisterBroker replicasPerTopic nodeId)
  | .registerTopic topicName =>
    return .topic (← Metastore.registerTopic replicasPerTopic topicName)
  | .updateTopicIsr topicName isrList =>
    return .updatedTopic (← Metastore.updateTopicIsr topicName isrList)

def MetastoreManager.apply (hash : String → Nat) (replicasPerTopic : Int) (s : MetastoreManager)
    (op : MetastoreOp) : MetastoreManager × Except MetastoreError MetastoreAnswer :=
  s.exec hash (op.program replicasPerTopic)

end PyLogStream
