import PyLogStream.Lib.Run
import PyLogStream.Log.Memory

/-!
The segment memory with the threads that use it (`SegmentMemory` in
`log/segment_memory.py`). Each block under a lock is one step: an `acquire` looks its
entry up under the cache lock and loads it under the entry's lock, and each of the
three ways to evict takes an entry out of the cache in one step and releases its
resources in a later one. A thread that waits for a count of zero is in a state of
its own on either side of the wait.
-/

namespace PyLogStream
open Lib

/-- `loading` are the acquires past the cache lock and `handles` the handles that are
not released, each by its entry. An acquire whose load raises keeps its reference:
these are in `leaked`. `closed` is the history of released entries. -/
structure MemoryThreads where
  memory : SegmentMemory
  disk : Disk
  loading : List Nat
  handles : List Nat
  leaked : List Nat
  /-- The cleanup thread has seen the count of this entry at zero. -/
  sweeping : Option Nat
  /-- Entries that a `force_evict` waits for. -/
  waiting : List Nat
  /-- Entries that a `force_evict` or a `try_evict` is about to release. -/
  closing : List Nat
  closed : List Nat

inductive MemoryEvent where
  | acquire (m : SegmentMeta)
  | load (entry : Nat) (ops : FileOps)
  | release (entry : Nat)
  | write (entry : Nat) (ops : FileOps) (offset : Nat) (msg : Bytes)
  | cleanupTake
  | cleanupZero
  | cleanupRelease
  | forceEvict (m : SegmentMeta)
  | forceZero (entry : Nat)
  | tryEvict (m : SegmentMeta)
  | evictRelease (entry : Nat)
  deriving DecidableEq

namespace SegmentMemory

def refcount (mem : SegmentMemory) (i : Nat) : Int := ((mem.entries[i]?).map Entry.refcount).getD 0

def closeEntry (mem : SegmentMemory) (i : Nat) : SegmentMemory :=
  { mem with entries := mem.entries.modify i Entry.release }

end SegmentMemory

namespace MemoryThreads

def new (capacity initSegmentSize segmentSizeInc : Nat) (disk : Disk) : MemoryThreads :=
  { memory := SegmentMemory.new capacity initSegmentSize segmentSizeInc
    disk
    loading := []
    handles := []
    leaked := []
    sweeping := none
    waiting := []
    closing := []
    closed := [] }

def acquire (s : MemoryThreads) (m : SegmentMeta) : MemoryThreads :=
  let (memory, i) := s.memory.acquireLocked m
  { s with memory, loading := s.loading ++ [i] }

def load (s : MemoryThreads) (i : Nat) (ops : FileOps) : MemoryThreads :=
  match s.memory.loadEntry ops s.disk i with
  | (memory, disk, .ok ()) =>
    { s with memory, disk, loading := s.loading.erase i, handles := s.handles ++ [i] }
  | (memory, disk, .error _) =>
    { s with memory, disk, loading := s.loading.erase i, leaked := s.leaked ++ [i] }

def release (s : MemoryThreads) (i : Nat) : MemoryThreads :=
  { s with memory := s.memory.releaseEntry i, handles := s.handles.erase i }

def write (s : MemoryThreads) (i : Nat) (ops : FileOps) (offset : Nat) (msg : Bytes) :
    MemoryThreads :=
  let (memory, disk, _) := s.memory.write ops s.disk i offset msg
  { s with memory, disk }

/-- The cleanup thread takes the next evicted entry once it is done with the last one. -/
def cleanupTake (s : MemoryThreads) : MemoryThreads :=
  match s.memory.cleaning, s.sweeping, s.memory.cleanupQueue with
  | none, none, i :: rest =>
    { s with memory := { s.memory with cleanupQueue := rest, cleaning := some i } }
  | _, _, _ => s

/-- `wait_until_zero` of the cleanup thread returns. -/
def cleanupZero (s : MemoryThreads) : MemoryThreads :=
  match s.memory.cleaning, s.sweeping with
  | some i, none =>
    if s.memory.refcount i = 0 then
      { s with memory := { s.memory with cleaning := none }, sweeping := some i }
    else s
  | _, _ => s

def cleanupRelease (s : MemoryThreads) : MemoryThreads :=
  match s.sweeping with
  | some i =>
    { s with memory := s.memory.closeEntry i, sweeping := none, closed := s.closed ++ [i] }
  | none => s

/-- The part of `force_evict` under the cache lock; a key that is absent raises. -/
def forceEvict (s : MemoryThreads) (m : SegmentMeta) : MemoryThreads :=
  match s.memory.cache.get? m.getId with
  | none => s
  | some i =>
    { s with
      memory := { s.memory with cache := s.memory.cache.erase m.getId }
      waiting := s.waiting ++ [i] }

/-- `wait_until_zero` of a `force_evict` returns. -/
def forceZero (s : MemoryThreads) (i : Nat) : MemoryThreads :=
  if s.memory.refcount i = 0 then
    { s with waiting := s.waiting.erase i, closing := s.closing ++ [i] }
  else s

/-- The part of `try_evict` under the cache lock. -/
def tryEvict (s : MemoryThreads) (m : SegmentMeta) : MemoryThreads :=
  match s.memory.cache.get? m.getId with
  | none => s
  | some i =>
    if s.memory.refcount i > 0 then s
    else
      { s with
        memory := { s.memory with cache := s.memory.cache.erase m.getId }
        closing := s.closing ++ [i] }

def evictRelease (s : MemoryThreads) (i : Nat) : MemoryThreads :=
  { s with
    memory := s.memory.closeEntry i
    closing := s.closing.erase i
    closed := s.closed ++ [i] }

/-- What an event does; one that no thread is ready for changes nothing. -/
def step (s : MemoryThreads) : MemoryEvent → MemoryThreads
  | .acquire m => s.acquire m
  | .load i ops => if i ∈ s.loading then s.load i ops else s
  | .release i => if i ∈ s.handles then s.release i else s
  | .write i ops offset msg => if i ∈ s.handles then s.write i ops offset msg else s
  | .cleanupTake => s.cleanupTake
  | .cleanupZero => s.cleanupZero
  | .cleanupRelease => s.cleanupRelease
  | .forceEvict m => s.forceEvict m
  | .forceZero i => if i ∈ s.waiting then s.forceZero i else s
  | .tryEvict m => s.tryEvict m
  | .evictRelease i => if i ∈ s.closing then s.evictRelease i else s

def advance (s : MemoryThreads) (e : MemoryEvent) : MemoryThreads × Unit := (s.step e, ())

end MemoryThreads
end PyLogStream
