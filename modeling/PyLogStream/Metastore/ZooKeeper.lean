import PyLogStream.Lib.Interleave
import PyLogStream.Metastore.Manager

/-!
The metastore on ZooKeeper (`ZKMetastoreStorage` over `ZKClient`). ZooKeeper is a map
from paths to JSON values; each `ZKClient` call is one atomic call. The storage's
methods are programs over these calls, and the manager's operations run on them by
translation. The hash ring is not in ZooKeeper; the operations of one controller
share it as well.
-/

namespace PyLogStream
open Lib

/-- What a znode holds: nothing, or one of the two JSON objects of the storage. -/
inductive ZnodeData where
  | empty
  | node (node : BrokerNode)
  | topic (topic : TopicMetadata)
  deriving DecidableEq, Repr

inductive ZkCall where
  | get (path : String)
  | nodeExists (path : String)
  | set (path : String) (data : ZnodeData)
  | create (path : String) (data : ZnodeData)
  | delete (path : String)
  | getChildren (path : String)
  deriving DecidableEq, Repr

/-- `create` answers whether the node is new; its `NodeExistsError` is always caught. -/
@[reducible]
def ZkCall.Answer : ZkCall → Type
  | .get _ => Option ZnodeData
  | .nodeExists _ | .create _ _ => Bool
  | .set _ _ | .delete _ => Unit
  | .getChildren _ => List String

/-- The name of a child of the path, if the key is one. -/
def childName (path key : String) : Option String :=
  let front := path.toList ++ ['/']
  let name := key.toList.drop front.length
  if front.isPrefixOf key.toList ∧ name ≠ [] ∧ '/' ∉ name then some (String.ofList name) else none

/-- The path up to its last slash. -/
def parentPath (path : String) : String :=
  String.ofList ((path.toList.reverse.dropWhile fun c => decide (c ≠ '/')).drop 1).reverse

abbrev Znodes := Dict String ZnodeData

namespace Znodes

def children (z : Znodes) (path : String) : List String := z.keys.filterMap (childName path)

/-- The calls of `ZKClient`. A node without data reads as `None`, and `delete`
ignores a missing node. -/
def handle (z : Znodes) : (c : ZkCall) → Znodes × Except MetastoreError c.Answer
  | .get path => (z, .ok ((z.get? path).filter fun data => decide (data ≠ .empty)))
  | .nodeExists path => (z, .ok (z.get? path).isSome)
  | .set path data =>
    if (z.get? path).isSome then (z.set path data, .ok ()) else (z, .error (.noNode path))
  | .create path data =>
    if (z.get? path).isSome then (z, .ok false)
    else if (z.get? (parentPath path)).isSome then (z.set path data, .ok true)
    else (z, .error (.noNode path))
  | .delete path =>
    if (z.get? path).isSome then
      if z.children path = [] then (z.erase path, .ok ()) else (z, .error (.notEmpty path))
    else (z, .ok ())
  | .getChildren path => (z, .ok (z.children path))

end Znodes

/-- The calls the operations of one controller share. -/
inductive ZkMetastoreCall where
  | zk (c : ZkCall)
  | ring (c : RingCall)
  deriving DecidableEq, Repr

@[reducible]
def ZkMetastoreCall.Answer : ZkMetastoreCall → Type
  | .zk c => c.Answer
  | .ring c => c.Answer

abbrev ZkProg := Prog ZkMetastoreCall ZkMetastoreCall.Answer MetastoreError

namespace ZkClient

def get (path : String) : ZkProg (Option ZnodeData) := Prog.perform (ZkMetastoreCall.zk (.get path))

def nodeExists (path : String) : ZkProg Bool := Prog.perform (ZkMetastoreCall.zk (.nodeExists path))

def set (path : String) (data : ZnodeData) : ZkProg Unit :=
  Prog.perform (ZkMetastoreCall.zk (.set path data))

def create (path : String) (data : ZnodeData) : ZkProg Bool :=
  Prog.perform (ZkMetastoreCall.zk (.create path data))

def delete (path : String) : ZkProg Unit := Prog.perform (ZkMetastoreCall.zk (.delete path))

def getChildren (path : String) : ZkProg (List String) :=
  Prog.perform (ZkMetastoreCall.zk (.getChildren path))

end ZkClient

def brokersPath : String := "/pylogstream/brokers"

def topicsPath : String := "/pylogstream/topics"

def brokerPath (nodeId : String) : String := brokersPath ++ "/" ++ nodeId

def topicPath (topicName : String) : String := topicsPath ++ "/" ++ topicName

namespace ZkStorage

def addNode (node : BrokerNode) : ZkProg Unit := do
  let created ← ZkClient.create (brokerPath node.nodeId) (.node node)
  if created then pure () else ZkClient.set (brokerPath node.nodeId) (.node node)

def getNode (nodeId : String) : ZkProg (Option BrokerNode) := do
  let data ← ZkClient.get (brokerPath nodeId)
  match data with
  | none => pure none
  | some (.node node) => pure (some node)
  | some _ => Prog.raise (.keyError (brokerPath nodeId))

def removeNode (nodeId : String) : ZkProg (Option BrokerNode) := do
  let existing ← getNode nodeId
  ZkClient.delete (brokerPath nodeId)
  pure existing

/-- The loop of `get_all_nodes`. -/
def getNodes : List String → ZkProg (List BrokerNode)
  | [] => pure []
  | child :: rest => do
    let node ← getNode child
    let nodes ← getNodes rest
    pure (node.toList ++ nodes)

def getAllNodes : ZkProg (List BrokerNode) := do
  let children ← ZkClient.getChildren brokersPath
  getNodes children

def addTopic (topic : TopicMetadata) : ZkProg Unit := do
  let created ← ZkClient.create (topicPath topic.topic) (.topic topic)
  if created then pure () else Prog.raise (.topicExists topic.topic)

def updateTopic (topic : TopicMetadata) : ZkProg Unit := do
  let present ← ZkClient.nodeExists (topicPath topic.topic)
  if present then ZkClient.set (topicPath topic.topic) (.topic topic)
  else Prog.raise (.topicMissing topic.topic)

def getTopic (topicName : String) : ZkProg (Option TopicMetadata) := do
  let data ← ZkClient.get (topicPath topicName)
  match data with
  | none => pure none
  | some (.topic topic) => pure (some topic)
  | some _ => Prog.raise (.keyError (topicPath topicName))

/-- The loop of `get_all_topics`. -/
def getTopics : List String → ZkProg (List TopicMetadata)
  | [] => pure []
  | child :: rest => do
    let topic ← getTopic child
    let topics ← getTopics rest
    pure (topic.toList ++ topics)

def getAllTopics : ZkProg (List TopicMetadata) := do
  let children ← ZkClient.getChildren topicsPath
  getTopics children

/-- What a manager's call does on this storage. -/
def program : (c : MetastoreCall) → ZkProg c.Answer
  | .addNode node => addNode node
  | .removeNode nodeId => removeNode nodeId
  | .getNode nodeId => getNode nodeId
  | .getAllNodes => getAllNodes
  | .addTopic topic => addTopic topic
  | .updateTopic topic => updateTopic topic
  | .getTopic topicName => getTopic topicName
  | .getAllTopics => getAllTopics
  | .ring c => Prog.perform (ZkMetastoreCall.ring c)

end ZkStorage

/-- ZooKeeper and the ring of the controller. -/
structure ZkMetastore where
  znodes : Znodes
  ring : ConsistentHashRing

namespace ZkMetastore

/-- ZooKeeper after `setup`. -/
def new : ZkMetastore :=
  ⟨((Dict.empty.set "/pylogstream" .empty).set brokersPath .empty).set topicsPath .empty, .new⟩

def handle (hash : String → Nat) (s : ZkMetastore) :
    (c : ZkMetastoreCall) → ZkMetastore × Except MetastoreError c.Answer
  | .zk c =>
    let (znodes, result) := s.znodes.handle c
    ({ s with znodes }, result)
  | .ring c =>
    let (ring, result) := s.ring.handle hash c
    ({ s with ring }, result.mapError .ring)

/-- Run a manager operation alone. -/
def apply (hash : String → Nat) (replicasPerTopic : Int) (s : ZkMetastore) (op : MetastoreOp) :
    ZkMetastore × Except MetastoreError MetastoreAnswer :=
  ((op.program replicasPerTopic).translate ZkStorage.program).exec (handle hash) s

end ZkMetastore
end PyLogStream
