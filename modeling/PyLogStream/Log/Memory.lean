import PyLogStream.Lib.Dict
import PyLogStream.Log.Segment

/-!
The segment cache (`log/segment_memory.py`): reference-counted entries over
memory-mapped files, an LRU dictionary of the entries in use and a queue of
evicted entries that a background thread releases.

A mapping is modelled by its length: all mappings of one file share the bytes
on disk, and a mapping shows the part of the file inside its own length.
-/

namespace PyLogStream
open Lib

/-- `read_bytes` on the view of a loaded entry. -/
def readView (view : Bytes) (offset length : Int) : Bytes := slice view offset (offset + length)

abbrev Disk := Dict FileName Bytes

/-- Which file operations of a call succeed. -/
structure FileOps where
  makedirs : Bool
  openFile : Bool
  truncate : Bool
  mmap : Bool
  growTruncate : Bool
  growMmap : Bool
  deriving DecidableEq, Repr

def FileOps.succeed : FileOps := ⟨true, true, true, true, true, true⟩

/-- Content of the named file; a missing file reads as empty. -/
def Disk.content (disk : Disk) (path : String) : Bytes := (disk.get? (resolve path)).getD []

def Disk.store (disk : Disk) (path : String) (content : Bytes) : Disk :=
  disk.set (resolve path) content

/-- `sendfile` sends up to `length` bytes. It refuses a negative offset and a length
that is not positive. -/
def Disk.sendfile (disk : Disk) (path : String) (offset length : Int) : Option Bytes :=
  if 0 ≤ offset ∧ 0 < length then
    some (((disk.content path).drop offset.toNat).take length.toNat)
  else none

/-- `truncate` sets the size of a file: it cuts the file or pads it with zeros. -/
def truncateTo (content : Bytes) (size : Nat) : Bytes :=
  content.take size ++ zeros (size - content.length)

structure Entry where
  filepath : String
  isMutable : Bool
  /-- Length of the live mapping, if the entry is loaded. -/
  mmap : Option Nat
  fileOpen : Bool
  capacity : Option Nat
  refcount : Int
  deriving DecidableEq, Repr

namespace Entry

def new (m : SegmentMeta) : Entry :=
  { filepath := m.getFilepath
    isMutable := m.isMutable
    mmap := none
    fileOpen := false
    capacity := none
    refcount := 0 }

def load (e : Entry) (initSegmentSize : Nat) (ops : FileOps) (disk : Disk) :
    Entry × Disk × Except LogError Unit :=
  if e.mmap.isSome then (e, disk, .ok ())
  else if !ops.makedirs || !ops.openFile then (e, disk, .error .osError)
  else
    -- opening creates the file when it does not exist yet
    let found := disk.content e.filepath
    let disk := disk.store e.filepath found
    let e := { e with fileOpen := true, capacity := some found.length }
    if found.length = 0 && !ops.truncate then (e, disk, .error .osError)
    else
      let content := if found.length = 0 then truncateTo found initSegmentSize else found
      let disk := disk.store e.filepath content
      let e := { e with capacity := some content.length }
      -- an empty file cannot be mapped
      if content.length = 0 || !ops.mmap then (e, disk, .error .osError)
      else ({ e with mmap := some content.length }, disk, .ok ())

/-- The bytes of the memory view. -/
def view (e : Entry) (disk : Disk) : Except LogError Bytes :=
  match e.mmap with
  | none => .error .notLoaded
  | some mapped => .ok ((disk.content e.filepath).take mapped)

/-- Grow the file and replace the mapping. -/
def increaseCapacity (e : Entry) (capacity required segmentSizeInc : Nat) (ops : FileOps)
    (disk : Disk) : Entry × Disk × Except LogError Unit :=
  if capacity < required then
    let newCapacity := max required (segmentSizeInc + capacity)
    if !ops.growTruncate then (e, disk, .error .osError)
    else
      let disk := disk.store e.filepath (truncateTo (disk.content e.filepath) newCapacity)
      if !ops.growMmap then (e, disk, .error .osError)
      else ({ e with mmap := some newCapacity, capacity := some newCapacity }, disk, .ok ())
  else (e, disk, .ok ())

def write (e : Entry) (segmentSizeInc : Nat) (ops : FileOps) (disk : Disk)
    (offset : Nat) (msg : Bytes) : Entry × Disk × Except LogError Unit :=
  match e.mmap, e.capacity with
  | some _, some capacity =>
    if !e.isMutable then (e, disk, .error .notMutable)
    else
      let required := offset + msg.length
      match e.increaseCapacity capacity required segmentSizeInc ops disk with
      | (e, disk, .error err) => (e, disk, .error err)
      | (e, disk, .ok ()) =>
        -- a slice assignment must not change the length of the view
        if required ≤ e.mmap.getD 0 then
          (e, disk.store e.filepath (splice (disk.content e.filepath) offset msg), .ok ())
        else (e, disk, .error .sliceMismatch)
  | _, _ => (e, disk, .error .notLoaded)

def release (e : Entry) : Entry := { e with mmap := none, fileOpen := false }

end Entry

structure SegmentMemory where
  capacity : Nat
  initSegmentSize : Nat
  segmentSizeInc : Nat
  /-- Every entry object ever created; an entry is named by its position. -/
  entries : List Entry
  /-- Least recently used first. -/
  cache : Dict String Nat
  cleanupQueue : List Nat
  /-- The entry the cleanup thread has taken from the queue. -/
  cleaning : Option Nat

namespace SegmentMemory

def new (capacity initSegmentSize segmentSizeInc : Nat) : SegmentMemory :=
  { capacity, initSegmentSize, segmentSizeInc
    entries := []
    cache := Dict.empty
    cleanupQueue := []
    cleaning := none }

def addRef (mem : SegmentMemory) (i : Nat) (delta : Int) : SegmentMemory :=
  { mem with entries := mem.entries.modify i fun e => { e with refcount := e.refcount + delta } }

/-- Move the oldest entries from an overfull cache to the cleanup queue. -/
def cleanupLocked (mem : SegmentMemory) : SegmentMemory :=
  let excess := mem.cache.size - mem.capacity
  { mem with
    cache := mem.cache.drop excess
    cleanupQueue := mem.cleanupQueue ++ (mem.cache.items.take excess).map Prod.snd }

/-- The part of `acquire` under the cache lock. -/
def acquireLocked (mem : SegmentMemory) (m : SegmentMeta) : SegmentMemory × Nat :=
  let key := m.getId
  match mem.cache.get? key with
  | none =>
    let i := mem.entries.length
    let mem := { mem with entries := mem.entries ++ [Entry.new m] }
    let mem := mem.addRef i 1
    -- a key that was absent is already last
    ({ mem with cache := mem.cache.set key i }.cleanupLocked, i)
  | some i =>
    let mem := mem.addRef i 1
    ({ mem with cache := (mem.cache.erase key).set key i }.cleanupLocked, i)

def loadEntry (mem : SegmentMemory) (ops : FileOps) (disk : Disk) (i : Nat) :
    SegmentMemory × Disk × Except LogError Unit :=
  match mem.entries[i]? with
  | none => (mem, disk, .error .notLoaded)
  | some e =>
    let (e', disk', res) := e.load mem.initSegmentSize ops disk
    ({ mem with entries := mem.entries.set i e' }, disk', res)

/-- A handle is the position of its entry. When loading fails, the reference
taken under the lock is not given back. -/
def acquire (mem : SegmentMemory) (ops : FileOps) (disk : Disk) (m : SegmentMeta) :
    SegmentMemory × Disk × Except LogError Nat :=
  let (mem, i) := mem.acquireLocked m
  match mem.loadEntry ops disk i with
  | (mem, disk, .error err) => (mem, disk, .error err)
  | (mem, disk, .ok ()) => (mem, disk, .ok i)

def releaseEntry (mem : SegmentMemory) (i : Nat) : SegmentMemory := mem.addRef i (-1)

/-- The bytes a handle shows. -/
def view (mem : SegmentMemory) (disk : Disk) (i : Nat) : Except LogError Bytes :=
  match mem.entries[i]? with
  | none => .error .notLoaded
  | some e => e.view disk

def write (mem : SegmentMemory) (ops : FileOps) (disk : Disk) (i : Nat) (offset : Nat)
    (msg : Bytes) : SegmentMemory × Disk × Except LogError Unit :=
  match mem.entries[i]? with
  | none => (mem, disk, .error .notLoaded)
  | some e =>
    let (e', disk', res) := e.write mem.segmentSizeInc ops disk offset msg
    ({ mem with entries := mem.entries.set i e' }, disk', res)

/-- One step of the cleanup thread: take the next evicted entry, or release the
one taken before once nobody holds it. -/
def cleanupStep (mem : SegmentMemory) : SegmentMemory :=
  match mem.cleaning with
  | none =>
    match mem.cleanupQueue with
    | [] => mem
    | i :: rest => { mem with cleanupQueue := rest, cleaning := some i }
  | some i =>
    if (mem.entries[i]?).map Entry.refcount = some 0 then
      { mem with entries := mem.entries.modify i Entry.release, cleaning := none }
    else mem

section
variable {mem : SegmentMemory} {i : Nat} {e : Entry}

theorem addRef_getElem? (mem : SegmentMemory) (i j : Nat) (delta : Int) :
    (mem.addRef i delta).entries[j]? = (mem.entries[j]?).map fun e =>
      if i = j then { e with refcount := e.refcount + delta } else e := by
  rw [addRef, List.getElem?_modify]
  split <;> rfl

theorem addRef_length (mem : SegmentMemory) (i : Nat) (delta : Int) :
    (mem.addRef i delta).entries.length = mem.entries.length :=
  List.length_modify _ _ _

theorem addRef_kept (j : Nat) (delta : Int) (hi : mem.entries[i]? = some e) :
    ∃ n, (mem.addRef j delta).entries[i]? = some { e with refcount := n } := by
  rw [addRef_getElem?, hi, Option.map_some]
  split
  · exact ⟨_, rfl⟩
  · exact ⟨e.refcount, rfl⟩

/-- Of an entry that there was, an acquire changes nothing but the count. -/
theorem acquireLocked_kept (m : SegmentMeta) (hi : mem.entries[i]? = some e) :
    ∃ n, (mem.acquireLocked m).1.entries[i]? = some { e with refcount := n } := by
  cases hkey : mem.cache.get? m.getId with
  | none =>
      simp only [acquireLocked, hkey]
      refine addRef_kept _ _ ?_
      rw [List.getElem?_append_left (List.getElem?_eq_some_iff.mp hi).1, hi]
  | some j =>
      simp only [acquireLocked, hkey]
      exact addRef_kept j 1 hi

/-- An acquire finds the cached entry, or makes one for the segment. -/
theorem acquireLocked_entry (mem : SegmentMemory) (m : SegmentMeta) :
    mem.cache.get? m.getId = some (mem.acquireLocked m).2 ∨
      mem.cache.get? m.getId = none ∧
        (mem.acquireLocked m).1.entries[(mem.acquireLocked m).2]? =
          some { Entry.new m with refcount := 1 } := by
  cases hkey : mem.cache.get? m.getId with
  | none =>
      refine Or.inr ⟨rfl, ?_⟩
      simp [acquireLocked, hkey, addRef, cleanupLocked, Entry.new]
  | some j => exact Or.inl (by simp [acquireLocked, hkey])

/-- An acquire puts nothing but the entry it returns in the cache. -/
theorem acquireLocked_cached (m : SegmentMeta) {key : String}
    (h : (mem.acquireLocked m).1.cache.get? key = some i) :
    key ≠ m.getId ∧ mem.cache.get? key = some i ∨ key = m.getId ∧ i = (mem.acquireLocked m).2 := by
  cases hkey : mem.cache.get? m.getId with
  | none =>
      simp only [acquireLocked, hkey] at h ⊢
      have hset := Dict.get?_of_drop h
      rw [Dict.get?_set] at hset
      split at hset
      · next heq => exact Or.inr ⟨heq, (Option.some.inj hset).symm⟩
      · next hne => exact Or.inl ⟨hne, hset⟩
  | some j =>
      simp only [acquireLocked, hkey] at h ⊢
      have hset := Dict.get?_of_drop h
      rw [Dict.get?_set, Dict.get?_erase] at hset
      split at hset
      · next heq => exact Or.inr ⟨heq, (Option.some.inj hset).symm⟩
      · next hne => exact Or.inl ⟨hne, hset⟩

/-- The entries after an acquire are those before and the one it has made. -/
theorem acquireLocked_mem (m : SegmentMeta) (h : e ∈ (mem.acquireLocked m).1.entries) :
    ∃ e₀ n, (e₀ ∈ mem.entries ∨ e₀ = Entry.new m) ∧ e = { e₀ with refcount := n } := by
  have counted : ∀ {mem' : SegmentMemory} {j : Nat} {delta : Int},
      e ∈ (mem'.addRef j delta).entries →
        ∃ e₀ ∈ mem'.entries, ∃ n, e = { e₀ with refcount := n } := by
    intro mem' j delta he
    obtain ⟨k, hk⟩ := List.mem_iff_getElem?.mp he
    rw [addRef_getElem?] at hk
    obtain ⟨e₀, he₀, rfl⟩ := Option.map_eq_some_iff.mp hk
    refine ⟨e₀, List.mem_of_getElem? he₀, ?_⟩
    split
    · exact ⟨_, rfl⟩
    · exact ⟨e₀.refcount, rfl⟩
  cases hkey : mem.cache.get? m.getId with
  | none =>
      simp only [acquireLocked, hkey] at h
      obtain ⟨e₀, he₀, n, heq⟩ := counted h
      simp only [List.mem_append, List.mem_singleton] at he₀
      exact ⟨e₀, n, he₀, heq⟩
  | some j =>
      simp only [acquireLocked, hkey] at h
      obtain ⟨e₀, he₀, n, heq⟩ := counted h
      exact ⟨e₀, n, Or.inl he₀, heq⟩

/-- An acquire loads the entry that it looks up. -/
theorem acquire_eq (m : SegmentMeta) (ops : FileOps) (disk : Disk)
    (he : (mem.acquireLocked m).1.entries[(mem.acquireLocked m).2]? = some e) :
    mem.acquire ops disk m =
      ({ (mem.acquireLocked m).1 with
          entries := (mem.acquireLocked m).1.entries.set (mem.acquireLocked m).2
            (e.load (mem.acquireLocked m).1.initSegmentSize ops disk).1 },
        (e.load (mem.acquireLocked m).1.initSegmentSize ops disk).2.1,
        (e.load (mem.acquireLocked m).1.initSegmentSize ops disk).2.2.map
          fun _ => (mem.acquireLocked m).2) := by
  simp only [acquire, loadEntry, he]
  generalize e.load (mem.acquireLocked m).1.initSegmentSize ops disk = loaded
  obtain ⟨e', disk', res⟩ := loaded
  cases res with
  | error err => rfl
  | ok _ => rfl

theorem acquire_ok {m : SegmentMeta} {ops : FileOps} {mem' : SegmentMemory} {disk disk' : Disk}
    (he : (mem.acquireLocked m).1.entries[(mem.acquireLocked m).2]? = some e)
    (hacq : mem.acquire ops disk m = (mem', disk', .ok i)) :
    i = (mem.acquireLocked m).2 ∧
      (e.load (mem.acquireLocked m).1.initSegmentSize ops disk).2.2 = .ok () ∧
      mem'.cache = (mem.acquireLocked m).1.cache ∧
      mem'.entries[i]? = some (e.load (mem.acquireLocked m).1.initSegmentSize ops disk).1 := by
  have hset := List.getElem?_set_self (List.getElem?_eq_some_iff.mp he).1
    (a := (e.load (mem.acquireLocked m).1.initSegmentSize ops disk).1)
  rw [acquire_eq m ops disk he] at hacq
  generalize e.load (mem.acquireLocked m).1.initSegmentSize ops disk = loaded at hacq hset ⊢
  obtain ⟨e', disk'', res⟩ := loaded
  cases res with
  | error err => cases hacq
  | ok _ =>
      cases hacq
      exact ⟨rfl, rfl, rfl, hset⟩

end

end SegmentMemory
end PyLogStream
