import PyLogStream.Log.Operations

/-!
A manager configured with an initial segment size of zero. An empty file cannot
be mapped, so no segment is ever loaded, every append fails and all files stay
empty; what an operation answers depends on the registry entry of its topic.
-/

namespace PyLogStream
open Lib

/-- Entries that were never loaded, all of them where the cache says. -/
structure Unloaded (mem : SegmentMemory) : Prop where
  init_zero : mem.initSegmentSize = 0
  cached : ∀ key i, mem.cache.get? key = some i → i < mem.entries.length
  unmapped : ∀ (i : Nat) (e : Entry), mem.entries[i]? = some e → e.mmap = none
  unshared : ∀ key key' i, mem.cache.get? key = some i → mem.cache.get? key' = some i → key = key'

structure Stalled (lm : LogManager) : Prop where
  memory : Unloaded lm.memory
  empty : ∀ p, lm.disk.content p = []
  fresh : ∀ topic segs, lm.registry.registry.get? topic = some segs →
    segs = [lm.registry.newSegment topic 0]

theorem stalled_start (config : LogConfig) (importTime : Time) (h : config.initSegmentSize = 0) :
    Stalled (LogManager.start config importTime) where
  memory := ⟨h, by simp [LogManager.start, SegmentMemory.new],
    by simp [LogManager.start, SegmentMemory.new], by simp [LogManager.start, SegmentMemory.new]⟩
  empty := by simp [LogManager.start, Disk.content]
  fresh := by simp [LogManager.start]

section Memory
variable {mem : SegmentMemory} {disk : Disk}

theorem Unloaded.addRef (h : Unloaded mem) (i : Nat) (delta : Int) :
    Unloaded (mem.addRef i delta) where
  init_zero := h.init_zero
  cached := by simpa [SegmentMemory.addRef] using h.cached
  unmapped := by
    intro j e hj
    simp only [SegmentMemory.addRef, List.getElem?_modify] at hj
    obtain ⟨e₀, he₀, rfl⟩ := Option.map_eq_some_iff.mp hj
    have := h.unmapped j e₀ he₀
    split <;> exact this
  unshared := h.unshared

theorem Unloaded.cleanupLocked (h : Unloaded mem) : Unloaded mem.cleanupLocked :=
  ⟨h.init_zero, fun key i hi => h.cached key i (Dict.get?_of_drop hi), h.unmapped,
    fun key key' i hi hi' => h.unshared key key' i (Dict.get?_of_drop hi) (Dict.get?_of_drop hi')⟩

theorem Unloaded.cleanupStep (h : Unloaded mem) : Unloaded mem.cleanupStep := by
  unfold SegmentMemory.cleanupStep
  split
  · split
    · exact h
    · exact ⟨h.init_zero, h.cached, h.unmapped, h.unshared⟩
  · split
    · refine ⟨h.init_zero, by simpa using h.cached, ?_, h.unshared⟩
      intro j e hj
      simp only [List.getElem?_modify] at hj
      obtain ⟨e₀, he₀, rfl⟩ := Option.map_eq_some_iff.mp hj
      have := h.unmapped j e₀ he₀
      split
      · rfl
      · exact this
    · exact h

theorem Unloaded.acquireLocked (h : Unloaded mem) (m : SegmentMeta) :
    Unloaded (mem.acquireLocked m).1 ∧
      (mem.acquireLocked m).2 < (mem.acquireLocked m).1.entries.length := by
  cases hkey : mem.cache.get? m.getId with
  | none =>
      have grown : Unloaded { mem with entries := mem.entries ++ [Entry.new m] } := by
        refine ⟨h.init_zero, ?_, ?_, h.unshared⟩
        · intro key i hi
          have := h.cached key i hi
          simp only [List.length_append, List.length_singleton]
          omega
        · intro i e he
          rcases List.mem_append.mp (List.mem_of_getElem? he) with hold | hnew
          · obtain ⟨j, hj⟩ := List.getElem?_of_mem hold
            exact h.unmapped j e hj
          · rw [List.mem_singleton.mp hnew]
            rfl
      have ref := grown.addRef mem.entries.length 1
      simp only [SegmentMemory.acquireLocked, hkey]
      refine ⟨Unloaded.cleanupLocked ⟨ref.init_zero, ?_, ref.unmapped, ?_⟩, ?_⟩
      · intro key i hi
        simp only [Dict.get?_set] at hi
        split at hi
        · obtain rfl := Option.some.inj hi
          simp [SegmentMemory.addRef]
        · exact ref.cached key i hi
      · -- the new position is above every position in use
        intro key key' i hi hi'
        simp only [Dict.get?_set] at hi hi'
        split at hi <;> split at hi'
        · next heq heq' => rw [heq, heq']
        · obtain rfl := Option.some.inj hi
          exact absurd (h.cached key' _ hi') (Nat.lt_irrefl _)
        · obtain rfl := Option.some.inj hi'
          exact absurd (h.cached key _ hi) (Nat.lt_irrefl _)
        · exact h.unshared key key' i hi hi'
      · simp [SegmentMemory.cleanupLocked, SegmentMemory.addRef]
  | some i =>
      have ref := h.addRef i 1
      have hi := ref.cached m.getId i hkey
      simp only [SegmentMemory.acquireLocked, hkey]
      have back : ∀ key j, ((mem.addRef i 1).cache.erase m.getId |>.set m.getId i).get? key =
          some j → mem.cache.get? key = some j := by
        intro key j hj
        simp only [Dict.get?_set, Dict.get?_erase] at hj
        split at hj
        · next heq => rw [heq, hkey, hj]
        · exact hj
      exact ⟨Unloaded.cleanupLocked ⟨ref.init_zero, fun key j hj => ref.cached key j (back key j hj),
        ref.unmapped, fun key key' j hj hj' =>
          h.unshared key key' j (back key j hj) (back key' j hj')⟩, hi⟩

/-- Loading fails, since the file stays empty. -/
theorem Unloaded.acquire (h : Unloaded mem) (empty : ∀ p, disk.content p = [])
    (m : SegmentMeta) :
    ∃ mem' disk', mem.acquire .succeed disk m = (mem', disk', .error .osError) ∧
      Unloaded mem' ∧ mem'.segmentSizeInc = mem.segmentSizeInc ∧ ∀ p, disk'.content p = [] := by
  obtain ⟨locked, hlt⟩ := h.acquireLocked m
  obtain ⟨e, he⟩ : ∃ e, (mem.acquireLocked m).1.entries[(mem.acquireLocked m).2]? = some e :=
    ⟨_, List.getElem?_eq_getElem hlt⟩
  have hmap := locked.unmapped _ e he
  let e' : Entry := { e with fileOpen := true, capacity := some 0 }
  let disk' := (disk.store e.filepath []).store e.filepath []
  have hload : e.load (mem.acquireLocked m).1.initSegmentSize .succeed disk =
      (e', disk', .error .osError) := by
    simp [Entry.load, hmap, FileOps.succeed, empty, truncateTo, zeros, locked.init_zero, e', disk']
  have hempty : ∀ p, disk'.content p = [] := by
    intro p
    simp [disk', Disk.content_store, empty]
  let mem' : SegmentMemory :=
    { (mem.acquireLocked m).1 with
      entries := (mem.acquireLocked m).1.entries.set (mem.acquireLocked m).2 e' }
  refine ⟨mem', disk', ?_, ?_, (acquireLocked_sizes _ m).2, hempty⟩
  · simp only [SegmentMemory.acquire, SegmentMemory.loadEntry, he, hload]
    rfl
  · refine ⟨locked.init_zero, by simpa [mem'] using locked.cached, ?_, locked.unshared⟩
    intro i e₁ he₁
    simp only [mem', List.getElem?_set] at he₁
    split at he₁
    · obtain rfl := Option.some.inj he₁
      exact hmap
    · exact locked.unmapped i e₁ he₁

end Memory

namespace LogManager

/-- What an operation answers when nothing can be loaded. -/
def stalledResult (lm : LogManager) : LogOp → LogResult
  | .createTopic _ => .created (.ok ())
  | .append _ _ data =>
    .appended (.error (if 2 ^ 32 ≤ data.length then .overflowError else .osError))
  | .readBytes topic _ offset _ =>
    match lm.registry.getSegment topic offset with
    | .error err => .bytes (.error err)
    | .ok _ => .bytes (.error .osError)
  | .read topic _ offset _ =>
    match lm.registry.getSegment topic offset with
    | .error err => .fileSlice (.error err)
    | .ok _ => .fileSlice (.error .osError)
  | .release _ => .done
  | .cleanup => .done

/-- The topic an operation makes known. -/
def stalledTopic (lm : LogManager) : LogOp → Option String
  | .createTopic topic => if lm.registry.registry.get? topic = none then some topic else none
  | .append topic _ _ => if lm.registry.registry.get? topic = none then some topic else none
  | _ => none

/-- The registry after an operation. -/
def stalledRegistry (lm : LogManager) (op : LogOp) : SegmentRegistry :=
  match lm.stalledTopic op with
  | none => lm.registry
  | some topic => lm.registry.setTopic topic [lm.registry.newSegment topic 0]

end LogManager

section Manager
variable {lm : LogManager}

/-- The writer's first step makes the topic known and yields its empty segment. -/
theorem Stalled.writeSegment (h : Stalled lm) (topic : String) (env : CallEnv) (data : Bytes) :
    LogManager.writeSegment lm.registry topic =
        .ok (lm.registry.newSegment topic 0, lm.stalledRegistry (.append topic env data)) ∧
      lm.createTopic topic =
        ({ lm with registry := lm.stalledRegistry (.append topic env data) }, .ok ()) := by
  cases hget : lm.registry.registry.get? topic with
  | none =>
      simp [LogManager.writeSegment, LogManager.createTopic, LogManager.stalledRegistry,
        LogManager.stalledTopic, SegmentRegistry.getSegment, SegmentRegistry.createSegment, hget]
  | some segs =>
      obtain rfl := h.fresh topic segs hget
      simp [LogManager.writeSegment, LogManager.createTopic, LogManager.stalledRegistry,
        LogManager.stalledTopic, SegmentRegistry.getSegment, hget, SegmentRegistry.newSegment,
        SegmentMeta.getEndOffset]

theorem Stalled.registry_eq (h : Stalled lm) (op : LogOp) {topic : String}
    {segs : List SegmentMeta}
    (hget : (lm.stalledRegistry op).registry.get? topic = some segs) :
    segs = [lm.registry.newSegment topic 0] := by
  unfold LogManager.stalledRegistry at hget
  split at hget
  · exact h.fresh topic segs hget
  · next topic' _ =>
      rw [SegmentRegistry.setTopic_get?] at hget
      split at hget
      · next heq =>
          subst heq
          exact (Option.some.inj hget).symm
      · exact h.fresh topic segs hget

theorem Stalled.replace (h : Stalled lm) (op : LogOp) {mem : SegmentMemory} {disk : Disk}
    (memory : Unloaded mem) (inc : mem.segmentSizeInc = lm.memory.segmentSizeInc)
    (empty : ∀ p, disk.content p = []) :
    let lm' := { lm with memory := mem, disk := disk, registry := lm.stalledRegistry op }
    Stalled lm' ∧ SameSettings lm lm' := by
  have hdir : (lm.stalledRegistry op).logDir = lm.registry.logDir ∧
      (lm.stalledRegistry op).defaultCreatedAt = lm.registry.defaultCreatedAt := by
    unfold LogManager.stalledRegistry
    split <;> exact ⟨rfl, rfl⟩
  refine ⟨⟨memory, empty, ?_⟩, rfl, memory.init_zero.trans h.memory.init_zero.symm, inc, hdir.1,
    hdir.2⟩
  intro topic segs hget
  rw [h.registry_eq op hget]
  simp [SegmentRegistry.newSegment, SegmentRegistry.buildSegmentPath, hdir]

/-- What one operation does to a manager that cannot load anything. -/
theorem Stalled.apply (h : Stalled lm) {op : LogOp} (files : op.FilesSucceed) :
    Stalled (lm.apply op).1 ∧ SameSettings lm (lm.apply op).1 ∧
      (lm.apply op).1.registry = lm.stalledRegistry op ∧ (lm.apply op).2 = lm.stalledResult op := by
  have quiet : ∀ {mem disk}, Unloaded mem → mem.segmentSizeInc = lm.memory.segmentSizeInc →
      (∀ p, disk.content p = []) →
      Stalled { lm with memory := mem, disk := disk } ∧
        SameSettings lm { lm with memory := mem, disk := disk } := by
    intro mem disk memory inc empty
    exact h.replace .cleanup memory inc empty
  cases op with
  | createTopic topic =>
      have hcreate := (h.writeSegment topic ⟨0, .succeed⟩ []).2
      have heq : lm.stalledRegistry (.append topic ⟨0, .succeed⟩ []) =
          lm.stalledRegistry (.createTopic topic) := rfl
      obtain ⟨stalled, settings⟩ := h.replace (.createTopic topic) h.memory rfl h.empty
      simp only [LogManager.apply, hcreate, heq]
      exact ⟨stalled, settings, by trivial, by trivial⟩
  | append topic env data =>
      obtain ⟨hwrite, -⟩ := h.writeSegment topic env data
      by_cases hlen : 2 ^ 32 ≤ data.length
      · obtain ⟨stalled, settings⟩ := h.replace (.append topic env data) h.memory rfl h.empty
        simp only [LogManager.apply, LogManager.append, hwrite, if_pos hlen,
          LogManager.stalledResult]
        exact ⟨stalled, settings, by trivial, by trivial⟩
      · obtain ⟨mem', disk', hacq, memory, inc, empty⟩ :=
          h.memory.acquire h.empty (lm.registry.newSegment topic 0)
        obtain ⟨stalled, settings⟩ := h.replace (.append topic env data) memory inc empty
        have hroll : ∀ now, (lm.policy.shouldRollover (lm.registry.newSegment topic 0)
            (4 + data.length) now &&
              decide ((lm.registry.newSegment topic 0).size ≠ 0)) = false := by
          intro now
          simp [SegmentRegistry.newSegment]
        have hops : env.ops = .succeed := files
        simp only [LogManager.apply, LogManager.append, hwrite, if_neg hlen, hroll,
          LogManager.writeMessage, hops, hacq, LogManager.stalledResult]
        exact ⟨stalled, settings, by trivial, by trivial⟩
  | readBytes topic env offset size =>
      have hops : env.ops = .succeed := files
      cases hseg : lm.registry.getSegment topic offset with
      | error err =>
          simp only [LogManager.apply, LogManager.readBytes, hseg, LogManager.stalledResult]
          exact ⟨h, SameSettings.refl lm, by trivial, by trivial⟩
      | ok m =>
          obtain ⟨mem', disk', hacq, memory, inc, empty⟩ := h.memory.acquire h.empty m
          obtain ⟨stalled, settings⟩ := quiet memory inc empty
          simp only [LogManager.apply, LogManager.readBytes, hseg, hops, hacq,
            LogManager.stalledResult]
          exact ⟨stalled, settings, by trivial, by trivial⟩
  | read topic env offset size =>
      have hops : env.ops = .succeed := files
      cases hseg : lm.registry.getSegment topic offset with
      | error err =>
          simp only [LogManager.apply, LogManager.read, hseg, LogManager.stalledResult]
          exact ⟨h, SameSettings.refl lm, by trivial, by trivial⟩
      | ok m =>
          obtain ⟨mem', disk', hacq, memory, inc, empty⟩ := h.memory.acquire h.empty m
          obtain ⟨stalled, settings⟩ := quiet memory inc empty
          simp only [LogManager.apply, LogManager.read, hseg, hops, hacq,
            LogManager.stalledResult]
          exact ⟨stalled, settings, by trivial, by trivial⟩
  | release handle =>
      obtain ⟨stalled, settings⟩ := quiet (h.memory.addRef handle (-1)) rfl h.empty
      exact ⟨stalled, settings, by trivial, by trivial⟩
  | cleanup =>
      obtain ⟨stalled, settings⟩ := quiet h.memory.cleanupStep
        (cleanupStep_settings lm).segmentSizeInc h.empty
      exact ⟨stalled, settings, by trivial, by trivial⟩

end Manager
end PyLogStream
