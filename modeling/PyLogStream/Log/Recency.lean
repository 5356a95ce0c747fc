import PyLogStream.Lib.Lru
import PyLogStream.Log.Handles

/-!
Which segments the cache keeps (`SegmentMemory` in `log/segment_memory.py`). Its keys are
those of an LRU cache that is used by the acquires and from which the evictions that go
through take keys away, in whatever order the threads take their steps.
-/

namespace PyLogStream
open Lib

namespace SegmentMemory
variable {mem : SegmentMemory}

theorem cleanupLocked_keys (mem : SegmentMemory) :
    mem.cleanupLocked.cache.keys = newest mem.capacity mem.cache.keys := by
  simp only [cleanupLocked, Dict.keys, Dict.drop, Dict.size, newest, List.length_map, List.map_drop]

/-- The key that is acquired goes to the end, whether or not it was there. -/
theorem acquireLocked_keys (mem : SegmentMemory) (m : SegmentMeta) :
    (mem.acquireLocked m).1.cache.keys =
      newest mem.capacity (without mem.cache.keys m.getId ++ [m.getId]) := by
  cases hkey : mem.cache.get? m.getId with
  | none =>
      have hall : without mem.cache.keys m.getId = mem.cache.keys := by
        refine List.filter_eq_self.mpr fun key hmem => decide_eq_true ?_
        rintro rfl
        exact (Dict.get?_eq_none_iff _ _).mp hkey hmem
      simp only [acquireLocked, hkey]
      rw [cleanupLocked_keys, hall]
      exact congrArg (newest mem.capacity) (Dict.keys_set_of_none hkey _)
  | some i =>
      have hgone : (mem.cache.erase m.getId).get? m.getId = none := by
        rw [Dict.get?_erase, if_pos rfl]
      simp only [acquireLocked, hkey]
      rw [cleanupLocked_keys]
      refine congrArg (newest mem.capacity) ((Dict.keys_set_of_none hgone i).trans ?_)
      rw [Dict.keys_erase, without]

theorem acquireLocked_capacity (mem : SegmentMemory) (m : SegmentMeta) :
    (mem.acquireLocked m).1.capacity = mem.capacity := by
  simp only [acquireLocked]
  split
  · rfl
  · rfl

/-- An acquire hands out an entry that there was just when its key is in the cache. -/
theorem acquireLocked_reuses (m : SegmentMeta)
    (known : ∀ i ∈ mem.cache.values, i < mem.entries.length) :
    (mem.acquireLocked m).2 < mem.entries.length ↔ m.getId ∈ mem.cache.keys := by
  cases hkey : mem.cache.get? m.getId with
  | none =>
      have hnew : (mem.acquireLocked m).2 = mem.entries.length := by
        simp [acquireLocked, hkey]
      rw [hnew]
      exact iff_of_false (lt_irrefl _) ((Dict.get?_eq_none_iff _ _).mp hkey)
  | some i =>
      have hold : (mem.acquireLocked m).2 = i := by
        simp [acquireLocked, hkey]
      rw [hold]
      exact iff_of_true (known i ((Dict.mem_values_iff _ _).mpr ⟨_, hkey⟩))
        (Dict.mem_keys_of_get? hkey)

theorem loadEntry_capacity (mem : SegmentMemory) (ops : FileOps) (disk : Disk) (i : Nat) :
    (mem.loadEntry ops disk i).1.capacity = mem.capacity := by
  simp only [loadEntry]
  split
  · rfl
  · rfl

theorem write_capacity (mem : SegmentMemory) (ops : FileOps) (disk : Disk) (i offset : Nat)
    (msg : Bytes) : (mem.write ops disk i offset msg).1.capacity = mem.capacity := by
  simp only [write]
  split
  · rfl
  · rfl

end SegmentMemory

namespace MemoryThreads

/-- What a step means to the cache: an eviction of a key that is absent raises, and
`try_evict` refuses an entry in use. -/
def cacheOp (s : MemoryThreads) : MemoryEvent → List (CacheOp String)
  | .acquire m => [.use m.getId]
  | .forceEvict m =>
    match s.memory.cache.get? m.getId with
    | none => []
    | some _ => [.evict m.getId]
  | .tryEvict m =>
    match s.memory.cache.get? m.getId with
    | none => []
    | some i => if s.memory.refcount i > 0 then [] else [.evict m.getId]
  | .load _ _ | .release _ | .write _ _ _ _ | .cleanupTake | .cleanupZero | .cleanupRelease
  | .forceZero _ | .evictRelease _ => []

def cacheOps (s : MemoryThreads) : List MemoryEvent → List (CacheOp String)
  | [] => []
  | e :: es => s.cacheOp e ++ (s.step e).cacheOps es

section
variable {s : MemoryThreads}

theorem step_capacity (s : MemoryThreads) (e : MemoryEvent) :
    (s.step e).memory.capacity = s.memory.capacity := by
  cases e with
  | acquire m => exact s.memory.acquireLocked_capacity m
  | load i ops =>
      simp only [step, load_eq]
      split
      · exact s.memory.loadEntry_capacity ops s.disk i
      · rfl
  | write i ops offset msg =>
      simp only [step, write]
      split
      · exact s.memory.write_capacity ops s.disk i offset msg
      · rfl
  | _ =>
      simp only [step, cleanupTake, cleanupZero, cleanupRelease, forceEvict, forceZero, tryEvict]
      repeat' split
      all_goals rfl

theorem step_keys (s : MemoryThreads) (e : MemoryEvent) :
    (s.step e).memory.cache.keys =
      (s.cacheOp e).foldl (lru s.memory.capacity) s.memory.cache.keys := by
  have erased : ∀ m : SegmentMeta, (s.memory.cache.erase m.getId).keys =
      [CacheOp.evict m.getId].foldl (lru s.memory.capacity) s.memory.cache.keys :=
    fun m => Dict.keys_erase s.memory.cache m.getId
  cases e with
  | acquire m => exact s.memory.acquireLocked_keys m
  | load i ops =>
      simp only [step, load_eq]
      split
      · exact congrArg Dict.keys (s.memory.loadEntry_cache ops s.disk i)
      · rfl
  | write i ops offset msg =>
      simp only [step, write]
      split
      · exact congrArg Dict.keys (s.memory.write_cache ops s.disk i offset msg)
      · rfl
  | forceEvict m =>
      cases hkey : s.memory.cache.get? m.getId with
      | none => simp only [step, forceEvict, cacheOp, hkey, List.foldl_nil]
      | some i =>
          simp only [step, forceEvict, cacheOp, hkey]
          exact erased m
  | tryEvict m =>
      cases hkey : s.memory.cache.get? m.getId with
      | none => simp only [step, tryEvict, cacheOp, hkey, List.foldl_nil]
      | some i =>
          simp only [step, tryEvict, cacheOp, hkey]
          split
          · rfl
          · exact erased m
  | _ =>
      simp only [step, cleanupTake, cleanupZero, cleanupRelease, forceZero]
      repeat' split
      all_goals rfl

theorem run_keys (s : MemoryThreads) (events : List MemoryEvent) :
    (run advance s events).memory.cache.keys =
      (s.cacheOps events).foldl (lru s.memory.capacity) s.memory.cache.keys := by
  induction events generalizing s with
  | nil => rfl
  | cons e events ih =>
      have htail := ih (s.step e)
      rw [step_capacity, step_keys, ← List.foldl_append] at htail
      exact htail

end

/-- Whatever the threads do, the cache has the keys that were acquired last, in the order of
their last acquire. An acquire finds an entry just when the segment was acquired before and,
since then, was not evicted and fewer other segments than fit were acquired. -/
theorem cache_keeps_recent (capacity init inc : Nat) (disk : Disk) (events : List MemoryEvent) :
    let s := run advance (new capacity init inc disk) events
    let ops := (new capacity init inc disk).cacheOps events
    s.memory.cache.keys <:+ recency ops ∧ s.memory.cache.keys.length ≤ capacity ∧
      ∀ m : SegmentMeta, (s.memory.acquireLocked m).2 < s.memory.entries.length ↔
        ∃ early late, ops = early ++ .use m.getId :: late ∧ Spared late m.getId ∧
          Fits capacity late := by
  intro s ops
  have hkeys : s.memory.cache.keys = cached capacity ops := run_keys _ events
  have sound : s.Sound := sound_run (sound_new capacity init inc disk) events
  refine ⟨?_, ?_, fun m => ?_⟩
  · rw [hkeys]
    exact cached_isSuffix capacity ops
  · rw [hkeys]
    exact cached_length_le capacity ops
  · rw [SegmentMemory.acquireLocked_reuses m fun i hi => sound.lt_of_cached hi, hkeys]
    exact mem_cached_iff capacity ops m.getId

end MemoryThreads
end PyLogStream
