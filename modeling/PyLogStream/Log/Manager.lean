import PyLogStream.Log.Registry
import PyLogStream.Log.Memory

/-!
The log manager with its reader and writer (`log/log_manager.py`,
`log/log_reader.py`, `log/log_writer.py`). Every operation is one function on
the whole manager, since writers of a topic are serialised by its lock; it
returns the new state together with its result, because a call that raises may
still have changed the cache or the disk.
-/

namespace PyLogStream
open Lib

structure LogConfig where
  logDir : String
  retensionMs : Int
  rolloverMs : Int
  maxSegmentSize : Int
  initSegmentSize : Nat
  segmentSizeInc : Nat
  segmentCacheSize : Nat
  deriving DecidableEq, Repr

structure LogManager where
  policy : SegmentPolicy
  memory : SegmentMemory
  registry : SegmentRegistry
  disk : Disk

/-- What the environment supplies to one call: the clock reading, if the call
asks for the time, and the outcome of its file operations. -/
structure CallEnv where
  now : Time
  ops : FileOps
  deriving DecidableEq, Repr

structure FileSlice where
  filepath : String
  offset : Int
  batchSize : Int
  deriving DecidableEq, Repr

/-- The handle stays open until the result's context is left. -/
structure ReadResult where
  nextOffset : Int
  highWatermark : Int
  fileSlice : FileSlice
  handle : Nat
  deriving DecidableEq, Repr

structure ReadResultBytes where
  data : Bytes
  nextOffset : Int
  highWatermark : Int
  deriving DecidableEq, Repr

namespace LogManager

/-- A manager over an empty directory. `importTime` is the clock reading at which
the segment module was loaded. -/
def start (config : LogConfig) (importTime : Time) : LogManager :=
  { policy := ⟨config.retensionMs, config.rolloverMs, config.maxSegmentSize⟩
    memory := SegmentMemory.new config.segmentCacheSize config.initSegmentSize
      config.segmentSizeInc
    registry := ⟨config.logDir, importTime, Dict.empty⟩
    disk := Dict.empty }

def createTopic (lm : LogManager) (topic : String) : LogManager × Except LogError Unit :=
  match lm.registry.getSegment topic (-1) with
  | .ok _ => (lm, .ok ())
  | .error (.topicDoesntExists _) =>
    match lm.registry.createSegment topic 0 with
    | .error err => (lm, .error err)
    | .ok (_, registry) => ({ lm with registry }, .ok ())
  | .error err => (lm, .error err)

def getLatestOffset (lm : LogManager) (topic : String) : Except LogError Int :=
  lm.registry.getLatestOffset topic

/-- The loop of `_calc_read_size` over the bytes a handle shows. Each iteration
moves `roffset` by at least four, so `maxBatchSize` is enough fuel. -/
def calcReadLoop (view : Bytes) (offset maxBatchSize : Int) : Nat → Int → Int → Int
  | 0, batchSize, _ => batchSize
  | fuel + 1, batchSize, roffset =>
    if roffset < offset + maxBatchSize then
      let sz : Int := ofBigEndian (readView view roffset 4)
      let batchSize := if batchSize + sz + 4 ≤ maxBatchSize then batchSize + (sz + 4) else batchSize
      calcReadLoop view offset maxBatchSize fuel batchSize (roffset + (sz + 4))
    else batchSize

def calcReadSize (view : Bytes) (offset maxBatchSize : Int) : Int :=
  let batchSize := calcReadLoop view offset maxBatchSize maxBatchSize.toNat 0 offset
  -- at least one message is included
  if batchSize = 0 then ofBigEndian (readView view offset 4) + 4 else batchSize

def readBytes (lm : LogManager) (env : CallEnv) (topic : String) (offset size : Int) :
    LogManager × Except LogError ReadResultBytes :=
  match lm.registry.getSegment topic offset with
  | .error err => (lm, .error err)
  | .ok m =>
    let segmentOffset := offset - m.baseOffset
    let maxBatchSize := min size ((m.size : Int) - segmentOffset)
    match lm.memory.acquire env.ops lm.disk m with
    | (memory, disk, .error err) => ({ lm with memory, disk }, .error err)
    | (memory, disk, .ok handle) =>
      let lm' := { lm with memory := memory.releaseEntry handle, disk }
      match memory.view disk handle with
      | .error err => (lm', .error err)
      | .ok view =>
        let batchSize := calcReadSize view segmentOffset maxBatchSize
        let data := readView view segmentOffset batchSize
        match lm.registry.getLatestOffset topic with
        | .error err => (lm', .error err)
        | .ok maxOffset => (lm', .ok ⟨data, offset + batchSize, maxOffset⟩)

def read (lm : LogManager) (env : CallEnv) (topic : String) (offset size : Int) :
    LogManager × Except LogError ReadResult :=
  match lm.registry.getSegment topic offset with
  | .error err => (lm, .error err)
  | .ok m =>
    let segmentOffset := offset - m.baseOffset
    let maxBatchSize := min size ((m.size : Int) - segmentOffset)
    match lm.memory.acquire env.ops lm.disk m with
    | (memory, disk, .error err) => ({ lm with memory, disk }, .error err)
    | (memory, disk, .ok handle) =>
      let lm' := { lm with memory, disk }
      match memory.view disk handle with
      | .error err => (lm', .error err)
      | .ok view =>
        let batchSize := calcReadSize view segmentOffset maxBatchSize
        match lm.registry.getLatestOffset topic with
        | .error err => (lm', .error err)
        | .ok maxOffset =>
          (lm', .ok ⟨offset + batchSize, maxOffset,
            ⟨m.getFilepath, segmentOffset, batchSize⟩, handle⟩)

/-- Leaving the context of a `ReadResult`. -/
def releaseHandle (lm : LogManager) (handle : Nat) : LogManager :=
  { lm with memory := lm.memory.releaseEntry handle }

/-- Close the active segment and open a new one at its end. -/
def rollover (registry : SegmentRegistry) (topic : String) :
    Except LogError (SegmentMeta × SegmentRegistry) :=
  match registry.getSegment topic (-1) with
  | .error (.topicDoesntExists _) => registry.createSegment topic 0
  | .error err => .error err
  | .ok m =>
    match registry.progressState m .sealed with
    | .error err => .error err
    | .ok (_, registry) => registry.createSegment topic m.getEndOffset

/-- The segment an append starts from: the latest one, or a first one for a new topic. -/
def writeSegment (registry : SegmentRegistry) (topic : String) :
    Except LogError (SegmentMeta × SegmentRegistry) :=
  match registry.getSegment topic (-1) with
  | .ok m => .ok (m, registry)
  | .error (.topicDoesntExists _) => registry.createSegment topic 0
  | .error err => .error err

/-- Write a message at the end of a segment and commit it. -/
def writeMessage (lm : LogManager) (env : CallEnv) (m : SegmentMeta) (msg : Bytes) :
    LogManager × Except LogError Int :=
  match lm.memory.acquire env.ops lm.disk m with
  | (memory, disk, .error err) => ({ lm with memory, disk }, .error err)
  | (memory, disk, .ok handle) =>
    match memory.write env.ops disk handle m.getFileEndOffset msg with
    | (memory, disk, .error err) =>
      ({ lm with memory := memory.releaseEntry handle, disk }, .error err)
    | (memory, disk, .ok ()) =>
      let lm := { lm with memory := memory.releaseEntry handle, disk }
      match lm.registry.advanceOffset m msg.length with
      | .error err => (lm, .error err)
      | .ok (_, registry) => ({ lm with registry }, .ok m.getEndOffset)

/-- `LogWriter.write`. -/
def append (lm : LogManager) (env : CallEnv) (topic : String) (data : Bytes) :
    LogManager × Except LogError Int :=
  match writeSegment lm.registry topic with
  | .error err => (lm, .error err)
  | .ok (m, registry) =>
    let lm := { lm with registry }
    -- the length prefix has four bytes
    if 2 ^ 32 ≤ data.length then (lm, .error .overflowError)
    else
      let msg := bigEndian32 data.length ++ data
      if lm.policy.shouldRollover m (4 + data.length) env.now && decide (m.size ≠ 0) then
        match rollover lm.registry topic with
        | .error err => (lm, .error err)
        | .ok (m, registry) => { lm with registry }.writeMessage env m msg
      else lm.writeMessage env m msg

/-- `append_batch`: an error ends the batch, the earlier messages stay. -/
def appendBatch (lm : LogManager) (topic : String) :
    List (CallEnv × Bytes) → LogManager × Except LogError (List Int)
  | [] => (lm, .ok [])
  | (env, data) :: rest =>
    match lm.append env topic data with
    | (lm, .error err) => (lm, .error err)
    | (lm, .ok offset) =>
      match appendBatch lm topic rest with
      | (lm, .error err) => (lm, .error err)
      | (lm, .ok offsets) => (lm, .ok (offset :: offsets))

def cleanupStep (lm : LogManager) : LogManager := { lm with memory := lm.memory.cleanupStep }

end LogManager
end PyLogStream
