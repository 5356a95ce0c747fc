import PyLogStream.Controller.Server

/-!
A controller and a broker that leads topics: the metastore, the broker's replica
manager with its leader loops, and the messages between them. The controller sends
metadata down and takes reports of in-sync lists from below. A broker works through
a list of metadata one topic at a time, and other tasks may run in between. Other
brokers appear in what the controller is asked to do.
-/

namespace PyLogStream
open Lib

/-- What the broker has to do about the controller's messages, in order. -/
inductive Delivery where
  /-- A list of metadata that has not been looked at. -/
  | metaList (metaList : List TopicMetaDataResponse)
  /-- Steps of `apply_metadata_list` on the list in progress. -/
  | remove (topic : String)
  | apply (metaData : TopicMetaDataResponse)
  deriving DecidableEq, Repr

/-- A step of the list in progress. -/
def Delivery.inProgress : Delivery → Bool
  | .metaList _ => false
  | .remove _ | .apply _ => true

structure IsrSystem where
  controller : MetastoreManager
  broker : ReplicaManager
  /-- `on_isr_change` is set. -/
  onIsrChange : Bool
  /-- The topics whose leader loop is between two iterations. -/
  sleeping : List String
  /-- The coroutines made by calls of `on_isr_change`, with their arguments. -/
  coroutines : List (String × List String)
  /-- `ISRChangeCommand`s that the controller has not processed. -/
  up : List (String × List String)
  down : List Delivery

inductive IsrEvent where
  | registerBroker (nodeId host : String) (port : Int)
  | deregisterBroker (nodeId : String)
  | registerTopic (topicName : String)
  /-- The controller sends its metadata to the broker. -/
  | broadcast
  /-- The controller processes an `ISRChangeCommand`. -/
  | isrChange
  /-- The broker takes the next step with the controller's messages. -/
  | deliver
  /-- The connection to the controller is started or closed. -/
  | setCallback (on : Bool)
  | iterate (topic : String) (now : Time)
  | fetch (env : CallEnv) (cmd : ReplicaFetchCommand)
  /-- A write waits for the watermark; a pull reads it like a write that need not wait. -/
  | waitForHw (topic : String) (offset : Int) (fut : Nat)
  | log (op : LogOp)

namespace IsrSystem

def start (config : ReplicaConfig) (logConfig : LogConfig) (importTime : Time) : IsrSystem :=
  { controller := .new
    broker := ⟨config, Dict.empty, LogManager.start logConfig importTime⟩
    onIsrChange := false
    sleeping := []
    coroutines := []
    up := []
    down := [] }

/-- A topic's state object is gone or new, and its loop is not between iterations. -/
def forget (s : IsrSystem) (topic : String) : IsrSystem :=
  { s with sleeping := s.sleeping.filter fun t => decide (t ≠ topic) }

/-- The steps that a list of metadata asks for. -/
def listSteps (s : IsrSystem) (metaList : List TopicMetaDataResponse) : List Delivery :=
  let newTopics := metaList.map TopicMetaDataResponse.topic
  (s.broker.topics.keys.filter fun topic => decide (topic ∉ newTopics)).map .remove ++
    metaList.map .apply

/-- An exception leaves the rest of the list in progress. -/
def deliver (s : IsrSystem) : IsrSystem :=
  match s.down with
  | [] => s
  | .metaList metaList :: rest => { s with down := s.listSteps metaList ++ rest }
  | .remove topic :: rest =>
    { s with broker := (s.broker.removeTopic topic).1, down := rest }.forget topic
  | .apply metaData :: rest =>
    match s.broker.applyMetadata metaData with
    | (broker, .error _) =>
      { s with broker, down := rest.dropWhile Delivery.inProgress }.forget metaData.topic
    | (broker, .ok .notNewer) | (broker, .ok .unchanged) => { s with broker, down := rest }
    | (broker, .ok _) => { s with broker, down := rest }.forget metaData.topic

/-- The call of `on_isr_change` makes a coroutine of `update_isr`. Nothing awaits it
or makes a task of it, so it never runs and sends nothing. -/
def iterate (s : IsrSystem) (topic : String) (now : Time) : IsrSystem :=
  match s.broker.leaderLoop s.onIsrChange topic now with
  | (broker, .stopped) => { s with broker }.forget topic
  | (broker, .sleeping changed) =>
    { s with
      broker
      sleeping := s.sleeping.insert topic
      coroutines := s.coroutines ++ changed.toList.map fun isrList => (topic, isrList) }

def waitForHw (s : IsrSystem) (topic : String) (offset : Int) (fut : Nat) : IsrSystem :=
  match ReplicaManager.getLeader s.broker.topics topic with
  | .error _ => s
  | .ok leader =>
    match leader.waitForHw s.broker.log offset fut with
    | .error _ => s
    | .ok (leader, _) => { s with broker := s.broker.setLeader topic leader }

section
variable (hash : String → Nat) (replicasPerTopic : Int)

def isrChange (s : IsrSystem) : IsrSystem :=
  match s.up with
  | [] => s
  | (topic, isrList) :: rest =>
    { s with
      controller := (s.controller.exec hash (Metastore.updateTopicIsr topic isrList)).1
      up := rest }

def step (s : IsrSystem) : IsrEvent → IsrSystem
  | .registerBroker nodeId host port =>
    { s with
      controller := (s.controller.exec hash (Metastore.registerBroker nodeId host port)).1 }
  | .deregisterBroker nodeId =>
    { s with
      controller :=
        (s.controller.exec hash (Metastore.deregisterBroker replicasPerTopic nodeId)).1 }
  | .registerTopic topicName =>
    { s with
      controller :=
        (s.controller.exec hash (Metastore.registerTopic replicasPerTopic topicName)).1 }
  | .broadcast => { s with down := s.down ++ [.metaList s.controller.metaList] }
  | .isrChange => s.isrChange hash
  | .deliver => s.deliver
  | .setCallback on => { s with onIsrChange := on }
  | .iterate topic now => s.iterate topic now
  | .fetch env cmd => { s with broker := (s.broker.handle env cmd).1 }
  | .waitForHw topic offset fut => s.waitForHw topic offset fut
  | .log op => { s with broker := { s.broker with log := (s.broker.log.apply op).1 } }

def advance (s : IsrSystem) (e : IsrEvent) : IsrSystem × Unit :=
  (s.step hash replicasPerTopic e, ())

end
end IsrSystem
end PyLogStream
