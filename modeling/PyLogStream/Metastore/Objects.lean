import PyLogStream.Lib.Objects
import PyLogStream.Metastore.ZooKeeper

/-!
The manager's operations on `TopicMetadata` objects. `MetastoreStorage` hands out the
objects it stores, so an assignment to one of them changes the stored topic before
`update_topic` is called; `ZKMetastoreStorage` makes a new object of the stored JSON at
every call. The operations are written once, with each assignment as a call, and run on
either storage. ZooKeeper lists the children of a node in any order.
-/

namespace PyLogStream
open Lib

/-- What an operation asks of its storage, of its ring and of the objects it holds. -/
inductive ObjectCall where
  /-- `TopicMetadata(...)` -/
  | create (t : TopicMetadata)
  | read (ref : Nat)
  /-- Assign to attributes of the object. -/
  | write (ref : Nat) (t : TopicMetadata)
  | addNode (node : BrokerNode)
  | removeNode (nodeId : String)
  | getNode (nodeId : String)
  | getAllNodes
  | addTopic (ref : Nat)
  | updateTopic (ref : Nat)
  | getTopic (topicName : String)
  | getAllTopics
  | ring (c : RingCall)
  deriving DecidableEq, Repr

@[reducible]
def ObjectCall.Answer : ObjectCall → Type
  | .create _ => Nat
  | .read _ => TopicMetadata
  | .write _ _ | .addNode _ | .addTopic _ | .updateTopic _ => Unit
  | .removeNode _ | .getNode _ => Option BrokerNode
  | .getAllNodes => List BrokerNode
  | .getTopic _ => Option Nat
  | .getAllTopics => List Nat
  | .ring c => c.Answer

abbrev ObjectProg := Prog ObjectCall ObjectCall.Answer MetastoreError

/-- One call of an operation. -/
def ask (c : ObjectCall) : ObjectProg c.Answer := Prog.perform c

namespace ObjectManager
section
variable (replicasPerTopic : Int)

/-- `_elect_leader` -/
def electLeader (ref : Nat) : ObjectProg String := do
  let topicMeta ← ask (.read ref)
  match topicMeta.isrList, topicMeta.replicaList with
  | leader :: _, _ => pure leader
  | [], leader :: _ => pure leader
  | [], [] => do
    let node ← ask (.ring (.getNode topicMeta.topic))
    pure (node.getD "")

/-- `topic_meta.leader_id = self._elect_leader(topic_meta)` -/
def reelect (ref : Nat) : ObjectProg Unit := do
  let leader ← electLeader ref
  let topicMeta ← ask (.read ref)
  ask (.write ref { topicMeta with leaderId := leader })

/-- `topic_meta.version += 1`, and the object is written back. -/
def store (ref : Nat) : ObjectProg Unit := do
  let topicMeta ← ask (.read ref)
  ask (.write ref { topicMeta with version := topicMeta.version + 1 })
  ask (.updateTopic ref)

def registerBroker (nodeId host : String) (port : Int) : ObjectProg BrokerNode := do
  let node : BrokerNode := ⟨nodeId, host, port⟩
  ask (.addNode node)
  ask (.ring (.addNode nodeId))
  pure node

/-- The first half of the loop in `deregister_broker`: whether the node was a replica. -/
def replaceReplica (activeNodeIds : List String) (nodeId : String) (ref : Nat) :
    ObjectProg Bool := do
  let topicMeta ← ask (.read ref)
  if nodeId ∈ topicMeta.replicaList then do
    let newReplicas := topicMeta.replicaList.filter fun r => decide (r ≠ nodeId)
    if (newReplicas.length : Int) < replicasPerTopic ∧ activeNodeIds ≠ [] then do
      let hReplicas ← ask (.ring (.getReplicas topicMeta.topic replicasPerTopic))
      ask (.write ref
        { topicMeta with replicaList := Metastore.refill replicasPerTopic hReplicas newReplicas })
    else ask (.write ref { topicMeta with replicaList := newReplicas })
    pure true
  else pure false

/-- The second half: whether the node was the leader. -/
def replaceLeader (nodeId : String) (ref : Nat) : ObjectProg Bool := do
  let topicMeta ← ask (.read ref)
  if topicMeta.leaderId = nodeId then do
    ask (.write ref
      { topicMeta with isrList := topicMeta.isrList.filter fun r => decide (r ≠ nodeId) })
    reelect ref
    pure true
  else pure false

def deregisterTopic (activeNodeIds : List String) (nodeId : String) (ref : Nat) :
    ObjectProg (List Nat) := do
  let replaced ← replaceReplica replicasPerTopic activeNodeIds nodeId ref
  let led ← replaceLeader nodeId ref
  if replaced = true ∨ led = true then do
    store ref
    pure [ref]
  else pure []

def deregisterTopics (activeNodeIds : List String) (nodeId : String) :
    List Nat → ObjectProg (List Nat)
  | [] => pure []
  | ref :: rest => do
    let updated ← deregisterTopic replicasPerTopic activeNodeIds nodeId ref
    let updatedTopics ← deregisterTopics activeNodeIds nodeId rest
    pure (updated ++ updatedTopics)

def deregisterBroker (nodeId : String) : ObjectProg (List Nat) := do
  let _ ← ask (.removeNode nodeId)
  ask (.ring (.removeNode nodeId))
  let allTopics ← ask .getAllTopics
  let allNodes ← ask .getAllNodes
  deregisterTopics replicasPerTopic (allNodes.map BrokerNode.nodeId) nodeId allTopics

def registerTopic (topicName : String) : ObjectProg Nat := do
  let existing ← ask (.getTopic topicName)
  match existing with
  | some existing => pure existing
  | none => do
    let replicas ← ask (.ring (.getReplicas topicName replicasPerTopic))
    let ref ← ask (.create
      { topic := topicName
        leaderId := replicas.head?.getD ""
        replicaList := replicas
        isrList := replicas
        version := 1 })
    ask (.addTopic ref)
    pure ref

/-- The assignment to `isr_list` comes before the election. -/
def updateTopicIsr (topicName : String) (isrList : List String) : ObjectProg (Option Nat) := do
  let existing ← ask (.getTopic topicName)
  match existing with
  | none => pure none
  | some ref => do
    let topicMeta ← ask (.read ref)
    ask (.write ref { topicMeta with isrList })
    if topicMeta.leaderId ∉ isrList then do
      reelect ref
      store ref
    else store ref
    pure (some ref)

end

/-- The values of the objects that an operation returns. -/
def readAll : List Nat → ObjectProg (List TopicMetadata)
  | [] => pure []
  | ref :: rest => do
    let topicMeta ← ask (.read ref)
    let topics ← readAll rest
    pure (topicMeta :: topics)

end ObjectManager

inductive ManagerOp where
  | registerBroker (nodeId host : String) (port : Int)
  | deregisterBroker (nodeId : String)
  | registerTopic (topicName : String)
  | updateTopicIsr (topicName : String) (isrList : List String)
  | getTopicMetadata (topicName : String)
  | getAllTopics
  | getNode (nodeId : String)
  deriving DecidableEq, Repr

/-- What an operation returns, with the values of the objects at that time. -/
inductive ManagerAnswer where
  | node (node : Option BrokerNode)
  | topic (topic : Option TopicMetadata)
  | topics (topics : List TopicMetadata)
  deriving DecidableEq, Repr

def ManagerOp.program (replicasPerTopic : Int) : ManagerOp → ObjectProg ManagerAnswer
  | .registerBroker nodeId host port => do
    let node ← ObjectManager.registerBroker nodeId host port
    pure (.node (some node))
  | .deregisterBroker nodeId => do
    let updated ← ObjectManager.deregisterBroker replicasPerTopic nodeId
    return .topics (← ObjectManager.readAll updated)
  | .registerTopic topicName => do
    let ref ← ObjectManager.registerTopic replicasPerTopic topicName
    return .topic (some (← ask (.read ref)))
  | .updateTopicIsr topicName isrList => do
    let updated ← ObjectManager.updateTopicIsr topicName isrList
    return .topic (← ObjectManager.readAll updated.toList).head?
  | .getTopicMetadata topicName => do
    let found ← ask (.getTopic topicName)
    return .topic (← ObjectManager.readAll found.toList).head?
  | .getAllTopics => do
    let found ← ask .getAllTopics
    return .topics (← ObjectManager.readAll found)
  | .getNode nodeId => do
    let node ← ask (.getNode nodeId)
    pure (.node node)

/-- A `TopicMetadata` that nobody has made. -/
def noTopic : TopicMetadata := ⟨"", "", [], [], 1⟩

/-- `MetastoreStorage` with its objects: a topic is stored as a reference. -/
structure LiveMetastore where
  objects : Objects TopicMetadata
  nodes : Dict String BrokerNode
  topics : Dict String Nat
  ring : ConsistentHashRing

namespace LiveMetastore

def new : LiveMetastore := ⟨.empty noTopic, Dict.empty, Dict.empty, .new⟩

def handle (hash : String → Nat) (s : LiveMetastore) :
    (c : ObjectCall) → LiveMetastore × Except MetastoreError c.Answer
  | .create t =>
    let (objects, ref) := s.objects.create t
    ({ s with objects }, .ok ref)
  | .read ref => (s, .ok (s.objects.value ref))
  | .write ref t => ({ s with objects := s.objects.write ref t }, .ok ())
  | .addNode node => ({ s with nodes := s.nodes.set node.nodeId node }, .ok ())
  | .removeNode nodeId =>
    ({ s with nodes := s.nodes.erase nodeId }, .ok (s.nodes.get? nodeId))
  | .getNode nodeId => (s, .ok (s.nodes.get? nodeId))
  | .getAllNodes => (s, .ok s.nodes.values)
  | .addTopic ref =>
    let name := (s.objects.value ref).topic
    match s.topics.get? name with
    | some _ => (s, .error (.topicExists name))
    | none => ({ s with topics := s.topics.set name ref }, .ok ())
  | .updateTopic ref =>
    let name := (s.objects.value ref).topic
    match s.topics.get? name with
    | none => (s, .error (.topicMissing name))
    | some _ => ({ s with topics := s.topics.set name ref }, .ok ())
  | .getTopic topicName => (s, .ok (s.topics.get? topicName))
  | .getAllTopics => (s, .ok s.topics.values)
  | .ring c =>
    let (ring, result) := s.ring.handle hash c
    ({ s with ring }, result.mapError .ring)

def apply (hash : String → Nat) (replicasPerTopic : Int) (s : LiveMetastore) (op : ManagerOp) :
    LiveMetastore × Except MetastoreError ManagerAnswer :=
  Prog.exec (handle hash) s (op.program replicasPerTopic)

/-- The stored topics, as a map. -/
def topic (s : LiveMetastore) (name : String) : Option TopicMetadata :=
  (s.topics.get? name).map s.objects.value

end LiveMetastore

/-- The order in which ZooKeeper lists the children of a node. -/
structure ChildOrder where
  arrange : List String → List String
  perm : ∀ children, (arrange children).Perm children

def ChildOrder.ofCreation : ChildOrder := ⟨id, fun children => .refl children⟩

namespace ZkStorage

def getAllNodesIn (order : ChildOrder) : ZkProg (List BrokerNode) := do
  let children ← ZkClient.getChildren brokersPath
  getNodes (order.arrange children)

def getAllTopicsIn (order : ChildOrder) : ZkProg (List TopicMetadata) := do
  let children ← ZkClient.getChildren topicsPath
  getTopics (order.arrange children)

end ZkStorage

namespace Znodes

/-- The stored brokers, as a map. -/
def brokerAt (z : Znodes) (nodeId : String) : Option BrokerNode :=
  match z.get? (brokerPath nodeId) with
  | some (.node node) => some node
  | _ => none

/-- The stored topics, as a map. -/
def topicAt (z : Znodes) (name : String) : Option TopicMetadata :=
  match z.get? (topicPath name) with
  | some (.topic t) => some t
  | _ => none

end Znodes

/-- `ZKMetastoreStorage` with the objects made of what it reads. -/
structure ZkObjects where
  objects : Objects TopicMetadata
  metastore : ZkMetastore

namespace ZkObjects

def new : ZkObjects := ⟨.empty noTopic, .new⟩

def exec (hash : String → Nat) {α : Type} (s : ZkObjects) (p : ZkProg α) :
    ZkObjects × Except MetastoreError α :=
  let (metastore, result) := p.exec (ZkMetastore.handle hash) s.metastore
  ({ s with metastore }, result)

def handle (hash : String → Nat) (order : ChildOrder) (s : ZkObjects) :
    (c : ObjectCall) → ZkObjects × Except MetastoreError c.Answer
  | .create t =>
    let (objects, ref) := s.objects.create t
    ({ s with objects }, .ok ref)
  | .read ref => (s, .ok (s.objects.value ref))
  | .write ref t => ({ s with objects := s.objects.write ref t }, .ok ())
  | .addNode node => s.exec hash (ZkStorage.addNode node)
  | .removeNode nodeId => s.exec hash (ZkStorage.removeNode nodeId)
  | .getNode nodeId => s.exec hash (ZkStorage.getNode nodeId)
  | .getAllNodes => s.exec hash (ZkStorage.getAllNodesIn order)
  | .addTopic ref => s.exec hash (ZkStorage.addTopic (s.objects.value ref))
  | .updateTopic ref => s.exec hash (ZkStorage.updateTopic (s.objects.value ref))
  | .getTopic topicName =>
    match s.exec hash (ZkStorage.getTopic topicName) with
    | (s, .error err) => (s, .error err)
    | (s, .ok none) => (s, .ok none)
    | (s, .ok (some t)) =>
      let (objects, ref) := s.objects.create t
      ({ s with objects }, .ok (some ref))
  | .getAllTopics =>
    match s.exec hash (ZkStorage.getAllTopicsIn order) with
    | (s, .error err) => (s, .error err)
    | (s, .ok topics) =>
      let (objects, refs) := s.objects.createAll topics
      ({ s with objects }, .ok refs)
  | .ring c => s.exec hash (Prog.perform (ZkMetastoreCall.ring c))

def apply (hash : String → Nat) (order : ChildOrder) (replicasPerTopic : Int) (s : ZkObjects)
    (op : ManagerOp) : ZkObjects × Except MetastoreError ManagerAnswer :=
  Prog.exec (handle hash order) s (op.program replicasPerTopic)

end ZkObjects
end PyLogStream
