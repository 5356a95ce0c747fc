import PyLogStream.Log.Offsets
import PyLogStream.Lib.Run

/-!
The batching writer of a broker (`network/writer.py`): a queue and a collector
task for every topic, a thread pool that writes the batches, and callbacks that
worker threads hand back to the event loop. One event is what one party does
between two points at which another party may run: the loop thread up to its
next suspension, a worker up to its next message or hand-over.
-/

namespace PyLogStream
open Lib

structure WriterConfig where
  maxBatchSize : Int := 64
  maxBatchBytes : Int := 1024 * 1024
  maxWorkers : Int := 4
  deriving DecidableEq, Repr

/-- A request with the number of its submission, which stands for the identity of
the object. Its callback, if it has one, is a future of its own. -/
structure WriteRequest where
  number : Nat
  producerId : String
  topic : String
  data : Bytes
  createdAt : Time
  callback : Bool
  deriving DecidableEq, Repr

inductive Outcome where
  | result (offset : Int)
  | exception (message : String)
  deriving DecidableEq, Repr

/-- The callbacks, by the number of their request. One that is not listed is pending. -/
structure Futures where
  cancelled : List Nat
  completed : List (Nat × Outcome)
  deriving DecidableEq, Repr

namespace Futures

def Done (f : Futures) (n : Nat) : Prop := n ∈ f.cancelled ∨ n ∈ f.completed.map Prod.fst

instance (f : Futures) (n : Nat) : Decidable (f.Done n) :=
  inferInstanceAs (Decidable (n ∈ f.cancelled ∨ n ∈ f.completed.map Prod.fst))

/-- `set_result` and `set_exception` raise `InvalidStateError` on a future that is done. -/
def complete (f : Futures) (n : Nat) (outcome : Outcome) : Option Futures :=
  if f.Done n then none else some { f with completed := f.completed ++ [(n, outcome)] }

def cancel (f : Futures) (n : Nat) : Futures :=
  if f.Done n then f else { f with cancelled := f.cancelled ++ [n] }

end Futures

/-- The task that collects a topic. It has failed once its assertion on
`start_time` did, and then keeps the batch it had. -/
structure Collector where
  batch : List WriteRequest
  failed : Bool
  deriving DecidableEq, Repr

/-- One call of `_flush_batch`: the requests still to be appended, and the ones
already appended with their offsets. -/
structure FlushJob where
  topic : String
  batch : List WriteRequest
  offsets : List (WriteRequest × Int)
  deriving DecidableEq, Repr

inductive WriterPhase where
  | running
  | shuttingDown
  | closed
  | raised
  deriving DecidableEq, Repr

/-- `ready` are the calls of `set_result` that wait in the event loop. `submitted`
and `appended` are histories; no step reads the second. -/
structure Writer where
  config : WriterConfig
  log : LogManager
  topicQueue : Dict String (List WriteRequest)
  topicTask : Dict String Collector
  workQueue : List FlushJob
  workers : List FlushJob
  ready : List (WriteRequest × Int)
  futures : Futures
  phase : WriterPhase
  submitted : List WriteRequest
  appended : List (WriteRequest × Int)

inductive WriterEvent where
  | submit (producerId topic : String) (data : Bytes) (createdAt : Time) (callback : Bool)
  | dequeue (topic : String)
  | timeout (topic : String)
  | start
  | write (worker : Nat) (env : CallEnv)
  | callSoon (worker : Nat)
  | runReady
  | cancel (number : Nat)
  | close
  | shutdown
  | other (op : LogOp)
  deriving DecidableEq

namespace Writer

/-- The thread pool refuses to be made without a worker. -/
def new (config : WriterConfig) (log : LogManager) : Option Writer :=
  if config.maxWorkers ≤ 0 then none
  else some ⟨config, log, Dict.empty, Dict.empty, [], [], [], ⟨[], []⟩, .running, [], []⟩

/-- The contents of a topic's queue. -/
def queueOf (topicQueue : Dict String (List WriteRequest)) (topic : String) : List WriteRequest :=
  (topicQueue.get? topic).getD []

/-- The batch that the collector of a topic holds. -/
def batchOf (topicTask : Dict String Collector) (topic : String) : List WriteRequest :=
  ((topicTask.get? topic).map Collector.batch).getD []

def submit (w : Writer) (req : WriteRequest) : Writer :=
  let started := (w.topicTask.get? req.topic).isSome
  let topicQueue := if started || (w.topicQueue.get? req.topic).isSome then w.topicQueue
    else w.topicQueue.set req.topic []
  let topicTask := if started then w.topicTask else w.topicTask.set req.topic ⟨[], false⟩
  { w with
    topicQueue := topicQueue.set req.topic (queueOf topicQueue req.topic ++ [req])
    topicTask
    submitted := w.submitted ++ [req] }

/-- `executor.submit(self._flush_batch, topic, batch)`, after which the batch is empty. -/
def flush (w : Writer) (topic : String) (batch : List WriteRequest) : Writer :=
  { w with
    workQueue := w.workQueue ++ [⟨topic, batch, []⟩]
    topicTask := w.topicTask.set topic ⟨[], false⟩ }

def batchBytes (batch : List WriteRequest) : Nat := (batch.map fun req => req.data.length).sum

/-- The collector takes a request out of its queue. The limits are looked at from the
second request of a batch on. -/
def dequeue (w : Writer) (topic : String) : Writer :=
  match w.topicTask.get? topic, queueOf w.topicQueue topic with
  | some ⟨batch, false⟩, req :: rest =>
    let w := { w with topicQueue := w.topicQueue.set topic rest }
    if batch = [] then
      -- the next pass of the loop asserts that `start_time` is not zero
      { w with topicTask := w.topicTask.set topic ⟨[req], decide (req.createdAt = 0)⟩ }
    else if ((batch ++ [req]).length : Int) ≥ w.config.maxBatchSize ∨
        (batchBytes (batch ++ [req]) : Int) ≥ w.config.maxBatchBytes then
      w.flush topic (batch ++ [req])
    else { w with topicTask := w.topicTask.set topic ⟨batch ++ [req], false⟩ }
  | _, _ => w

/-- `wait_for` runs into its timeout. -/
def timeout (w : Writer) (topic : String) : Writer :=
  match w.topicTask.get? topic with
  | some ⟨req :: rest, false⟩ => w.flush topic (req :: rest)
  | _ => w

/-- A free worker takes the oldest batch. -/
def start (w : Writer) : Writer :=
  match w.workQueue with
  | [] => w
  | job :: rest =>
    if (w.workers.length : Int) < w.config.maxWorkers then
      { w with workQueue := rest, workers := w.workers ++ [job] }
    else w

/-- One message of `append_batch`. If it raises, the call of `_flush_batch` ends. -/
def write (w : Writer) (worker : Nat) (env : CallEnv) : Writer :=
  match w.workers[worker]? with
  | some ⟨topic, req :: rest, offsets⟩ =>
    match w.log.append env topic req.data with
    | (log, .error _) => { w with log, workers := w.workers.eraseIdx worker }
    | (log, .ok offset) =>
      { w with
        log
        workers := w.workers.set worker ⟨topic, rest, offsets ++ [(req, offset)]⟩
        appended := w.appended ++ [(req, offset)] }
  | _ => w

/-- One pass of the loop over the offsets, or the end of the call. -/
def callSoon (w : Writer) (worker : Nat) : Writer :=
  match w.workers[worker]? with
  | some ⟨topic, [], (req, offset) :: rest⟩ =>
    { w with
      workers := w.workers.set worker ⟨topic, [], rest⟩
      ready := if req.callback then w.ready ++ [(req, offset)] else w.ready }
  | some ⟨_, [], []⟩ => { w with workers := w.workers.eraseIdx worker }
  | _ => w

/-- The loop runs a call of `set_result`; an `InvalidStateError` of it is only logged. -/
def runReady (w : Writer) : Writer :=
  match w.ready with
  | [] => w
  | (req, offset) :: rest =>
    { w with
      ready := rest
      futures := (w.futures.complete req.number (.result offset)).getD w.futures }

/-- The inner loop of `close`: what is left of the queue, and whether nothing was raised. -/
def drainQueue (futures : Futures) : List WriteRequest → List WriteRequest × Futures × Bool
  | [] => ([], futures, true)
  | req :: rest =>
    if req.callback then
      match futures.complete req.number (.exception "Writer is closing") with
      | none => (rest, futures, false)
      | some futures => drainQueue futures rest
    else drainQueue futures rest

/-- The outer loop, over the queues in the order of their topics. -/
def drainQueues (queues : Dict String (List WriteRequest)) (futures : Futures) :
    List String → Dict String (List WriteRequest) × Futures × Bool
  | [] => (queues, futures, true)
  | topic :: topics =>
    match drainQueue futures (queueOf queues topic) with
    | (rest, futures, false) => (queues.set topic rest, futures, false)
    | (rest, futures, true) => drainQueues (queues.set topic rest) futures topics

/-- `close` up to the point where it waits for the workers. Cancelled collectors
take no further step. -/
def close (w : Writer) : Writer :=
  let (topicQueue, futures, ok) := drainQueues w.topicQueue w.futures w.topicQueue.keys
  { w with topicQueue, futures, phase := if ok then .shuttingDown else .raised }

/-- What an event does. One that cannot happen now changes nothing: `shutdown` blocks
the loop thread until the workers are done, and the call of `close` is the last one. -/
def step (w : Writer) : WriterEvent → Writer
  | .submit producerId topic data createdAt callback =>
    if w.phase = .running then
      w.submit ⟨w.submitted.length, producerId, topic, data, createdAt, callback⟩
    else w
  | .dequeue topic => if w.phase = .running then w.dequeue topic else w
  | .timeout topic => if w.phase = .running then w.timeout topic else w
  | .start => w.start
  | .write worker env => w.write worker env
  | .callSoon worker => w.callSoon worker
  | .runReady => if w.phase = .shuttingDown then w else w.runReady
  | .cancel number =>
    if w.phase = .shuttingDown then w else { w with futures := w.futures.cancel number }
  | .close => if w.phase = .running then w.close else w
  | .shutdown =>
    if w.phase = .shuttingDown ∧ w.workQueue = [] ∧ w.workers = [] then { w with phase := .closed }
    else w
  | .other op => { w with log := (w.log.apply op).1 }

def advance (w : Writer) (e : WriterEvent) : Writer × Unit := (w.step e, ())

def emptyLog : LogManager := LogManager.start ⟨"data", 0, 1000000, 100, 16, 16, 4⟩ 0

/-- A writer with the default configuration over an empty log. -/
def fresh : Writer :=
  ⟨{}, emptyLog, Dict.empty, Dict.empty, [], [], [], ⟨[], []⟩, .running, [], []⟩

end Writer
end PyLogStream
