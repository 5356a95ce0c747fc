import PyLogStream.Lib.Heap
import PyLogStream.Log.Manager

/-!
The leader of a topic (`replication/leader.py`): the in-sync set, the offsets its
replicas have acknowledged, the high watermark and the producers waiting for it.
A method that raises part of the way keeps what it has changed so far, so methods
that can do so return the new state beside their result.
-/

namespace PyLogStream
open Lib

structure ReplicaFetchCommand where
  topic : String
  offset : Int
  size : Int
  replicaId : String
  deriving DecidableEq, Repr

inductive ReplicaResponse where
  | fetchBytes (topic : String) (logEndOffset highWatermark payloadLength : Int) (payload : Bytes)
  | fetchFile (topic : String) (logEndOffset highWatermark payloadLength : Int)
      (filepath : String) (offset length : Int)
  deriving DecidableEq, Repr

inductive LeaderError where
  | unauthorisedReplica (replicaId : String) (replicaList : List String)
  | log (err : LogError)
  /-- `list.remove` did not find the leader's id. -/
  | notInReplicaList
  deriving DecidableEq, Repr

structure ReplicaLeader where
  topic : String
  id : String
  replicaList : List String
  minIsrCount : Int
  maxIsrLagMs : Int
  inSyncReplica : List String
  /-- A `defaultdict(int)`: a missing replica counts as zero. -/
  replicaOffset : Dict String Int
  /-- Offset and identity of each waiting future, as a heap. -/
  hwWaiterQueue : List (Int × Nat)
  highWatermark : Int
  /-- A `defaultdict(float)`: a missing replica counts as zero. -/
  replicaLastCaughtup : Dict String Time
  deriving DecidableEq

namespace ReplicaLeader

/-- `replica_offset[r]`. -/
def offsetOf (leader : ReplicaLeader) (r : String) : Int := (leader.replicaOffset.get? r).getD 0

/-- `replica_last_caugthup[r]`. -/
def caughtupOf (leader : ReplicaLeader) (r : String) : Time :=
  (leader.replicaLastCaughtup.get? r).getD 0

def getLogEndOffset (leader : ReplicaLeader) (lm : LogManager) : Except LogError Int :=
  lm.getLatestOffset leader.topic

/-- `min` over the acknowledged offsets of a non-empty list of replicas. -/
def minOffset (leader : ReplicaLeader) (r : String) (rest : List String) : Int :=
  rest.foldl (fun least r => min least (leader.offsetOf r)) (leader.offsetOf r)

def computeHighWatermark (leader : ReplicaLeader) (lm : LogManager) :
    Except LogError (ReplicaLeader × Int) :=
  match leader.inSyncReplica with
  | [] => .ok (leader, 0)
  | r :: rest =>
    match leader.getLogEndOffset lm with
    | .error err => .error err
    | .ok logEndOffset =>
      let leader :=
        { leader with replicaOffset := leader.replicaOffset.set leader.id logEndOffset }
      .ok (leader, leader.minOffset r rest)

/-- The constructor; it fails when the topic does not exist. -/
def new (topic id : String) (replicaList : List String) (lm : LogManager)
    (minIsrCount maxIsrLagMs : Int) : Except LogError ReplicaLeader :=
  match lm.getLatestOffset topic with
  | .error err => .error err
  | .ok logEndOffset =>
    let leader : ReplicaLeader :=
      { topic, id, replicaList, minIsrCount, maxIsrLagMs
        inSyncReplica := [id]
        replicaOffset := Dict.empty.set id logEndOffset
        hwWaiterQueue := []
        highWatermark := 0
        replicaLastCaughtup := Dict.empty }
    match leader.computeHighWatermark lm with
    | .error err => .error err
    | .ok (leader, highWatermark) => .ok { leader with highWatermark }

def getHighWatermark (leader : ReplicaLeader) (lm : LogManager) :
    Except LogError (ReplicaLeader × Int) :=
  match leader.computeHighWatermark lm with
  | .error err => .error err
  | .ok (leader, computed) =>
    let highWatermark := max leader.highWatermark computed
    .ok ({ leader with highWatermark }, highWatermark)

/-- `handle` on a fetch command. The offset is recorded before the log is read. -/
def handle (leader : ReplicaLeader) (lm : LogManager) (env : CallEnv)
    (cmd : ReplicaFetchCommand) :
    ReplicaLeader × LogManager × Except LeaderError ReplicaResponse :=
  if cmd.replicaId ∉ leader.replicaList then
    (leader, lm, .error (.unauthorisedReplica cmd.replicaId leader.replicaList))
  else
    match leader.getLogEndOffset lm with
    | .error err => (leader, lm, .error (.log err))
    | .ok logEndOffset =>
      match leader.getHighWatermark lm with
      | .error err => (leader, lm, .error (.log err))
      | .ok (leader, highWatermark) =>
        let leader :=
          if cmd.offset = logEndOffset then
            { leader with
              replicaLastCaughtup := leader.replicaLastCaughtup.set cmd.replicaId env.now }
          else leader
        let leader :=
          { leader with replicaOffset := leader.replicaOffset.set cmd.replicaId cmd.offset }
        -- small batches are copied, larger ones are sent from the file
        if cmd.size ≤ 1024 then
          match lm.readBytes env cmd.topic cmd.offset cmd.size with
          | (lm, .error err) => (leader, lm, .error (.log err))
          | (lm, .ok res) =>
            (leader, lm, .ok (.fetchBytes cmd.topic logEndOffset highWatermark res.data.length
              res.data))
        else
          match lm.read env cmd.topic cmd.offset cmd.size with
          | (lm, .error err) => (leader, lm, .error (.log err))
          | (lm, .ok res) =>
            (leader, lm.releaseHandle res.handle,
              .ok (.fetchFile cmd.topic logEndOffset highWatermark res.fileSlice.batchSize
                res.fileSlice.filepath res.fileSlice.offset res.fileSlice.batchSize))

/-- The order of the waiters. Records have different offsets, so the futures are not compared;
of two with one offset the second stays below the first. -/
def earlier (waiter other : Int × Nat) : Bool := decide (waiter.1 < other.1)

/-- The part of `wait_for_hw` up to its return or its `await`: whether it returns. -/
def waitForHw (leader : ReplicaLeader) (lm : LogManager) (offset : Int) (fut : Nat) :
    Except LogError (ReplicaLeader × Bool) :=
  match leader.getHighWatermark lm with
  | .error err => .error err
  | .ok (leader, hw) =>
    if hw ≥ offset then .ok (leader, true)
    else .ok ({ leader with hwWaiterQueue := heappush earlier leader.hwWaiterQueue (offset, fut) }, false)

/-- How long ago the replica was last seen at the end of the log. -/
def lagOf (leader : ReplicaLeader) (now : Time) (r : String) : Time := now - leader.caughtupOf r

/-- The in-sync list `_update_isr` computes: the leader, then the followers with
the least lag up to the minimum count, then those within the lag bound. The sort
is stable and puts the greatest lag first, and followers are taken from its end. -/
def newIsr (leader : ReplicaLeader) (now : Time) : List String :=
  let needed := (leader.minIsrCount - 1).toNat
  let sorted := (leader.replicaList.erase leader.id).mergeSort
    fun a b => decide (leader.lagOf now b ≤ leader.lagOf now a)
  let closest := sorted.reverse
  leader.id :: (closest.take needed ++
    (closest.drop needed).takeWhile fun r => decide (leader.lagOf now r ≤ leader.maxIsrLagMs))

def updateIsr (leader : ReplicaLeader) (now : Time) : Except LeaderError ReplicaLeader :=
  if leader.id ∈ leader.replicaList then .ok { leader with inSyncReplica := leader.newIsr now }
  else .error .notInReplicaList

end ReplicaLeader
end PyLogStream
