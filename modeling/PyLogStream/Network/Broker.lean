import PyLogStream.Controller.Server
import PyLogStream.Lib.Text
import PyLogStream.Network.Pull
import PyLogStream.Network.Writer
import PyLogStream.Protocol.Encoder

/-!
The broker (`network/broker.py`): one handler for every connection, over the topics
of the replica manager and the writer. A handler runs from one suspension to the
next in one event: until it reads the next command, until the controller answers,
until the future of its write is completed or until a watermark is reached. Worker
threads may append between the two halves of a pull.
-/

namespace PyLogStream
open Lib

inductive BrokerResponse where
  | clientId (clientId : String)
  | ping
  | fetchOffset (topic : String) (offset : Int)
  | offsetAck (topic : String) (offset acks : Int)
  | pubAck (topic : String) (offset acks : Int)
  | pull (response : PullResponse)
  | replica (response : ReplicaResponse)
  /-- The controller's answer, with its packet header. -/
  | controller (header : Option String) (response : ControllerResponse)
  | error (code : Int) (message : String)
  deriving DecidableEq

/-- What a handler finds in its environment: a clock reading, the text of another
one, a new id and the outcome of the file operations. -/
structure HandlerEnv where
  now : Time
  stamp : String
  uuid : String
  ops : FileOps
  deriving DecidableEq

inductive ClientPhase where
  | reading
  /-- The controller has been asked; without an answer this is the error message. -/
  | relaying (failure : String)
  /-- The watermark allows this pull, and the log has not been read yet. -/
  | pulling (cmd : PullCommand)
  /-- The future of a write is not completed. The handler holds the leader object of
  the topic's generation. -/
  | writing (number : Nat) (cmd : Command) (generation : Nat)
  /-- The watermark of an `acks = -1` write is not reached. -/
  | waiting (cmd : Command)
  | closed
  deriving DecidableEq

/-- The local variables of a handler. -/
structure Client where
  clientId : Option String
  phase : ClientPhase
  deriving DecidableEq

/-- `generation` counts the changes of a topic's state object. `origins` are the
commands that the submitted requests come from and `sent` the responses by client;
both are histories. -/
structure Broker where
  config : ReplicaConfig
  writer : Writer
  topics : Dict String TopicState
  generation : Dict String Nat
  controller : Bool
  clients : List Client
  origins : List Command
  sent : List (Nat × BrokerResponse)

inductive BrokerEvent where
  | connect
  | command (client : Nat) (cmd : Command) (env : HandlerEnv)
  /-- The controller's answer to a handler's request, with the packet header of the request. -/
  | relayed (client : Nat) (header : Option String) (response : Option ControllerResponse)
  /-- `reached` says whether a leader object that is no longer in place has a
  sufficient watermark. -/
  | resume (client : Nat) (env : HandlerEnv) (reached : Bool)
  /-- The connection ends: it is lost, silent or not understood, or something the
  handler waits for raises. -/
  | leave (client : Nat)
  | writer (event : WriterEvent)
  /-- A file response has been sent, and its handle is released. -/
  | release (handle : Nat)
  /-- The cleanup thread of the log. -/
  | cleanup
  | metadata (metaData : TopicMetaDataResponse)
  | updateIsr (topic : String) (now : Time)
  | close

namespace Broker

def new (config : ReplicaConfig) (writerConfig : WriterConfig) (log : LogManager)
    (controller : Bool) : Option Broker :=
  match Writer.new writerConfig log with
  | none => none
  | some writer => some ⟨config, writer, Dict.empty, Dict.empty, controller, [], [], []⟩

def generationOf (b : Broker) (topic : String) : Nat := (b.generation.get? topic).getD 0

def answer (b : Broker) (client : Nat) (response : BrokerResponse) : Broker :=
  { b with sent := b.sent ++ [(client, response)] }

def setPhase (b : Broker) (client : Nat) (phase : ClientPhase) : Broker :=
  { b with clients := b.clients.modify client fun c => { c with phase } }

def setClientId (b : Broker) (client : Nat) (clientId : String) : Broker :=
  { b with clients := b.clients.modify client fun c => { c with clientId := some clientId } }

def setLog (b : Broker) (log : LogManager) : Broker := { b with writer := { b.writer with log } }

/-- Store what a method call has changed in the leader object of a topic. -/
def setLeader (b : Broker) (topic : String) (leader : ReplicaLeader) : Broker :=
  match b.topics.get? topic with
  | none => b
  | some state => { b with topics := b.topics.set topic { state with leader := some leader } }

/-- The record that a committed offset is written as. -/
def commitRecord (stamp clientId topic : String) (offset : Int) : Bytes :=
  encodeUtf8 (stamp.toList ++ ' ' :: clientId.toList ++ ' ' :: topic.toList ++
    ' ' :: showInt offset)

/-- `_handle_write` up to its return or its first suspension; `none` is the `ValueError`. -/
def handleWrite (b : Broker) (client : Nat) (clientId topic : String) (payload : Bytes)
    (acks : Int) (cmd : Command) (env : HandlerEnv) : Option Broker :=
  match ReplicaManager.getLeader b.topics topic with
  | .error _ => none
  | .ok _ =>
    let number := b.writer.submitted.length
    let b' := { b with
      writer := b.writer.step (.submit clientId topic payload env.now (decide (acks ≠ 0)))
      origins := b.origins ++ [cmd] }
    some (if acks = 0 then b' else b'.setPhase client (.writing number cmd (b.generationOf topic)))

def handlePull (b : Broker) (client : Nat) (cmd : PullCommand) : Broker :=
  match ReplicaManager.getLeader b.topics cmd.topic with
  | .error _ => b.answer client (.error 400 "Topic not found or not leader")
  | .ok leader =>
    match checkPull leader b.writer.log cmd with
    | .error _ => b.setPhase client .closed
    | .ok (leader, _, some response) => (b.setLeader cmd.topic leader).answer client (.pull response)
    | .ok (leader, _, none) => (b.setLeader cmd.topic leader).setPhase client (.pulling cmd)

def handleReplica (b : Broker) (client : Nat) (env : HandlerEnv) (cmd : ReplicaFetchCommand) :
    Broker :=
  match ReplicaManager.getLeader b.topics cmd.topic with
  | .error _ => b.setPhase client .closed
  | .ok leader =>
    match leader.handle b.writer.log ⟨env.now, env.ops⟩ cmd with
    | (leader, log, .error _) => ((b.setLog log).setLeader cmd.topic leader).setPhase client .closed
    | (leader, log, .ok response) =>
      ((b.setLog log).setLeader cmd.topic leader).answer client (.replica response)

/-- What the handler of a client does with a command. -/
def handleCommand (b : Broker) (client : Nat) (clientId : Option String) (cmd : Command)
    (env : HandlerEnv) : Broker :=
  match cmd, clientId with
  | .replicaFetch topic offset size replicaId, _ =>
    b.handleReplica client env ⟨topic, offset, size, replicaId⟩
  | .registerTopic _, _ =>
    if b.controller then b.setPhase client (.relaying "Failed to register topic")
    else b.answer client (.error 500 "Controller not connected")
  | .metadataRequest _, _ =>
    if b.controller then b.setPhase client (.relaying "Failed to get metadata")
    else b.answer client (.error 500 "Controller not connected")
  | .register, _ => (b.setClientId client env.uuid).answer client (.clientId env.uuid)
  | .clientId id, _ => b.setClientId client id
  -- a client must register first
  | _, none => b.setPhase client .closed
  | .subscribe _, some _ => b
  | .pull topic offset size, some _ => b.handlePull client ⟨topic, offset, size⟩
  | .fetchOffset topic, some _ => b.answer client (.fetchOffset topic 0)
  | .commitOffset topic offset acks, some id =>
    -- here the `ValueError` is not caught
    (b.handleWrite client id topic (commitRecord env.stamp id topic offset) acks cmd env).getD
      (b.setPhase client .closed)
  | .publish topic payload acks _, some id =>
    (b.handleWrite client id topic payload acks cmd env).getD
      (b.answer client (.error 400 "Topic not found or not leader"))
  | .ping, some _ => b.answer client .ping
  | _, some _ => b.answer client (.error 403 "Unimplemented command")

/-- The response to a write at this offset of the log. -/
def acknowledgement (cmd : Command) (offset : Int) : Option BrokerResponse :=
  match cmd with
  | .publish topic _ acks _ => some (.pubAck topic offset acks)
  | .commitOffset topic committed acks => some (.offsetAck topic committed acks)
  | _ => none

def acknowledge (b : Broker) (client : Nat) (cmd : Command) (offset : Int) : Broker :=
  match acknowledgement cmd offset with
  | none => b
  | some response => (b.answer client response).setPhase client .reading

/-- Topic and `acks` of a write. -/
def writeOptions : Command → Option (String × Int)
  | .publish topic _ acks _ => some (topic, acks)
  | .commitOffset topic _ acks => some (topic, acks)
  | _ => none

/-- The handler of a write whose future has this result. -/
def written (b : Broker) (client number : Nat) (cmd : Command) (generation : Nat) (offset : Int)
    (reached : Bool) : Broker :=
  match writeOptions cmd with
  | none => b
  | some (topic, acks) =>
    if acks ≠ -1 then b.acknowledge client cmd offset
    else if b.generationOf topic = generation then
      match ReplicaManager.getLeader b.topics topic with
      | .error _ => b
      | .ok leader =>
        match leader.waitForHw b.writer.log offset number with
        | .error _ => b.setPhase client .closed
        | .ok (leader, true) => (b.setLeader topic leader).acknowledge client cmd offset
        | .ok (leader, false) => (b.setLeader topic leader).setPhase client (.waiting cmd)
    else if reached then b.acknowledge client cmd offset
    else b.setPhase client (.waiting cmd)

/-- A suspended handler goes on, if what it waits for has happened. -/
def resume (b : Broker) (client : Nat) (env : HandlerEnv) (reached : Bool) : Broker :=
  match (b.clients[client]?).map Client.phase with
  | some (.pulling cmd) =>
    match pushMessage b.writer.log ⟨env.now, env.ops⟩ cmd with
    | (log, .error _) => (b.setLog log).setPhase client .closed
    | (log, .ok response) =>
      ((b.setLog log).answer client (.pull response)).setPhase client .reading
  | some (.writing number cmd generation) =>
    match b.writer.futures.completed.lookup number with
    | some (.result offset) => b.written client number cmd generation offset reached
    | some (.exception _) => b.setPhase client .closed
    | none => if number ∈ b.writer.futures.cancelled then b.setPhase client .closed else b
  | _ => b

def relayed (b : Broker) (client : Nat) (header : Option String)
    (response : Option ControllerResponse) : Broker :=
  match (b.clients[client]?).map Client.phase with
  | some (.relaying failure) =>
    match response with
    | none => (b.answer client (.error 500 failure)).setPhase client .reading
    | some response => (b.answer client (.controller header response)).setPhase client .reading
  | _ => b

/-- Metadata from the controller. The leader objects of a topic that changes are replaced. -/
def metadata (b : Broker) (metaData : TopicMetaDataResponse) : Broker :=
  let (manager, outcome) :=
    ReplicaManager.applyMetadata ⟨b.config, b.topics, b.writer.log⟩ metaData
  let b := { b.setLog manager.log with topics := manager.topics }
  match outcome with
  | .ok .notNewer | .ok .unchanged => b
  | _ => { b with
      generation := b.generation.set metaData.topic (b.generationOf metaData.topic + 1) }

/-- One iteration of the leader loop of a topic. -/
def updateIsr (b : Broker) (topic : String) (now : Time) : Broker :=
  match ReplicaManager.getLeader b.topics topic with
  | .error _ => b
  | .ok leader =>
    match leader.updateIsr now with
    | .error _ => b
    | .ok leader => b.setLeader topic leader

/-- The handlers are cancelled, and with them the futures they wait for, before the
writer is closed. -/
def close (b : Broker) : Broker :=
  let cancelled := b.clients.foldl (fun w c =>
    match c.phase with
    | .writing number _ _ => w.step (.cancel number)
    | _ => w) b.writer
  { b with
    clients := b.clients.map fun c => { c with phase := .closed }
    writer := cancelled.step .close }

/-- Events of the writer that are not calls by a handler. -/
def ownEvent : WriterEvent → Bool
  | .submit .. | .cancel _ | .close | .other _ => false
  | _ => true

/-- Once the broker is closed, only the writer still runs. -/
def step (b : Broker) : BrokerEvent → Broker
  | .writer event => if ownEvent event then { b with writer := b.writer.step event } else b
  | .release handle => b.setLog (b.writer.log.releaseHandle handle)
  | .cleanup => b.setLog b.writer.log.cleanupStep
  | event =>
    if b.writer.phase ≠ .running then b
    else match event with
      | .connect => { b with clients := b.clients ++ [⟨none, .reading⟩] }
      | .command client cmd env =>
        match b.clients[client]? with
        | some ⟨clientId, .reading⟩ => b.handleCommand client clientId cmd env
        | _ => b
      | .relayed client header response => b.relayed client header response
      | .resume client env reached => b.resume client env reached
      | .leave client => b.setPhase client .closed
      | .metadata metaData => b.metadata metaData
      | .updateIsr topic now => b.updateIsr topic now
      | .close => b.close
      | _ => b

def advance (b : Broker) (e : BrokerEvent) : Broker × Unit := (b.step e, ())

end Broker
end PyLogStream
