import PyLogStream.Log.Operations

/-!
References on the entries of the cache, in any state. Past the load, a call gives back
what it has acquired on every path, whether it returns or raises; `read` hands its
reference to the caller, and cannot raise behind the load. The load itself comes after
the count was raised and is not guarded, so a call that raises leaves a reference behind
exactly when the load of its entry fails.
-/

namespace PyLogStream
open Lib

/-- The references counted on an entry; an entry that does not exist has none. -/
def SegmentMemory.refs (mem : SegmentMemory) (i : Nat) : Int :=
  ((mem.entries[i]?).map Entry.refcount).getD 0

/-- Every entry has the references it had before. -/
def SegmentMemory.Balanced (mem mem' : SegmentMemory) : Prop := ∀ j, mem'.refs j = mem.refs j

/-- One entry has a reference more. -/
def SegmentMemory.Holding (mem mem' : SegmentMemory) (i : Nat) : Prop :=
  ∀ j, mem'.refs j = mem.refs j + if j = i then 1 else 0

/-- The load of an entry that is not loaded yet raises. -/
def Entry.CannotLoad (e : Entry) (initSegmentSize : Nat) (ops : FileOps) (disk : Disk) : Prop :=
  e.mmap = none ∧ (ops.makedirs = false ∨ ops.openFile = false ∨ ops.mmap = false ∨
    disk.content e.filepath = [] ∧ (ops.truncate = false ∨ initSegmentSize = 0))

/-- The entry that an acquire finds for a segment, or makes. -/
def SegmentMemory.entryFor (mem : SegmentMemory) (m : SegmentMeta) : Option Entry :=
  match mem.cache.get? m.getId with
  | none => some (Entry.new m)
  | some i => mem.entries[i]?

section Entry
variable (e : Entry)

theorem Entry.load_refcount (init : Nat) (ops : FileOps) (disk : Disk) :
    (e.load init ops disk).1.refcount = e.refcount := by
  simp only [Entry.load]
  repeat' split
  all_goals rfl

theorem Entry.write_refcount (inc : Nat) (ops : FileOps) (disk : Disk) (offset : Nat)
    (msg : Bytes) : (e.write inc ops disk offset msg).1.refcount = e.refcount := by
  have grown : ∀ capacity required,
      (e.increaseCapacity capacity required inc ops disk).1.refcount = e.refcount := by
    intro capacity required
    simp only [Entry.increaseCapacity]
    repeat' split
    all_goals rfl
  simp only [Entry.write]
  split
  · next capacity _ _ =>
      have hgrown := grown capacity (offset + msg.length)
      generalize e.increaseCapacity capacity (offset + msg.length) inc ops disk = result at hgrown
      obtain ⟨e', disk', res⟩ := result
      split
      · rfl
      · cases res with
        | error err => exact hgrown
        | ok _ =>
            simp only
            split
            · exact hgrown
            · exact hgrown
  · rfl

/-- The load returns, and leaves the entry mapped, unless it cannot. -/
theorem Entry.load_outcome (init : Nat) (ops : FileOps) (disk : Disk) :
    e.CannotLoad init ops disk ∧ (∃ err, (e.load init ops disk).2.2 = .error err) ∨
      ¬ e.CannotLoad init ops disk ∧ (e.load init ops disk).2.2 = .ok () ∧
        ∃ n, (e.load init ops disk).1.mmap = some n := by
  cases hmap : e.mmap with
  | some mapped =>
      rw [Entry.load, if_pos (by simp [hmap])]
      refine Or.inr ⟨?_, rfl, mapped, hmap⟩
      rintro ⟨hnone, -⟩
      rw [hmap] at hnone
      cases hnone
  | none =>
      by_cases hopen : (!ops.makedirs || !ops.openFile) = true
      · simp only [Entry.load, hmap, Option.isSome_none, Bool.false_eq_true, if_false, if_pos hopen]
        refine Or.inl ⟨⟨hmap, ?_⟩, _, rfl⟩
        rw [Bool.or_eq_true, Bool.not_eq_true', Bool.not_eq_true'] at hopen
        exact hopen.imp_right Or.inl
      simp only [Entry.load, hmap, Option.isSome_none, Bool.false_eq_true, if_false, if_neg hopen]
      rw [Bool.or_eq_true, Bool.not_eq_true', Bool.not_eq_true', not_or] at hopen
      obtain ⟨hdirs, hfile⟩ := hopen
      by_cases hnil : disk.content e.filepath = []
      · cases htruncate : ops.truncate with
        | false => exact Or.inl ⟨⟨hmap, by simp [hnil, htruncate]⟩, by simp [hnil]⟩
        | true =>
            cases hmmap : ops.mmap with
            | false => exact Or.inl ⟨⟨hmap, by simp [hmmap]⟩, by simp [hnil]⟩
            | true =>
                by_cases hinit : init = 0
                · exact Or.inl ⟨⟨hmap, by simp [hnil, hinit]⟩, by simp [hnil, hinit, truncateTo, zeros]⟩
                · refine Or.inr ⟨?_, ?_⟩
                  · simp [Entry.CannotLoad, hdirs, hfile, hmmap, htruncate, hinit]
                  · simp [hnil, hinit, truncateTo, zeros]
      · cases hmmap : ops.mmap with
        | false => exact Or.inl ⟨⟨hmap, by simp [hmmap]⟩, by simp [hnil]⟩
        | true =>
            refine Or.inr ⟨?_, ?_⟩
            · simp [Entry.CannotLoad, hdirs, hfile, hmmap, hnil]
            · simp [hnil]

end Entry
section Memory
variable {mem mem' : SegmentMemory} {m : SegmentMeta} {i : Nat}

theorem refs_addRef (hi : i < mem.entries.length) (delta : Int) (j : Nat) :
    (mem.addRef i delta).refs j = mem.refs j + if j = i then delta else 0 := by
  rw [SegmentMemory.refs, SegmentMemory.addRef_getElem?, SegmentMemory.refs]
  by_cases hj : j = i
  · subst hj
    rw [List.getElem?_eq_getElem hi]
    simp
  · cases mem.entries[j]? with
    | none => simp [hj]
    | some e => simp [hj, Ne.symm hj]

/-- Releasing the reference that is held restores the balance. -/
theorem SegmentMemory.Holding.released (holding : mem.Holding mem' i)
    (hi : i < mem'.entries.length) : mem.Balanced (mem'.releaseEntry i) := by
  intro j
  rw [releaseEntry, refs_addRef hi, holding j]
  split
  · omega
  · omega

theorem SegmentMemory.Holding.not_balanced (holding : mem.Holding mem' i) : ¬ mem.Balanced mem' := by
  intro balanced
  have hheld := holding i
  rw [balanced i, if_pos rfl] at hheld
  omega

/-- Replacing an entry by one with its count keeps all counts. -/
theorem refs_set {e e' : Entry} (hi : mem.entries[i]? = some e) (h : e'.refcount = e.refcount)
    (j : Nat) : SegmentMemory.refs { mem with entries := mem.entries.set i e' } j = mem.refs j := by
  obtain ⟨hlt, -⟩ := List.getElem?_eq_some_iff.mp hi
  rw [SegmentMemory.refs, SegmentMemory.refs]
  by_cases hj : i = j
  · subst hj
    rw [List.getElem?_set_self hlt, hi, Option.map_some, Option.map_some, h]
  · rw [List.getElem?_set_ne hj]

/-- A new entry has no references, like one that does not exist. -/
theorem refs_new (mem : SegmentMemory) (m : SegmentMeta) (j : Nat) :
    SegmentMemory.refs { mem with entries := mem.entries ++ [Entry.new m] } j = mem.refs j := by
  rw [SegmentMemory.refs, SegmentMemory.refs, List.getElem?_append]
  split
  · rfl
  · next hge =>
      rw [List.getElem?_eq_none (not_lt.mp hge), List.getElem?_singleton]
      split
      · rfl
      · rfl

/-- Looking up the entry of a segment takes a reference on it. -/
theorem acquireLocked_refs {e : Entry} (hentry : mem.entryFor m = some e) :
    mem.Holding (mem.acquireLocked m).1 (mem.acquireLocked m).2 ∧
      (mem.acquireLocked m).1.entries[(mem.acquireLocked m).2]? =
        some { e with refcount := e.refcount + 1 } := by
  cases hkey : mem.cache.get? m.getId with
  | none =>
      simp only [SegmentMemory.entryFor, hkey, Option.some_inj] at hentry
      subst hentry
      have hlt : mem.entries.length <
          ({ mem with entries := mem.entries ++ [Entry.new m] } : SegmentMemory).entries.length := by
        simp
      simp only [SegmentMemory.acquireLocked, hkey]
      refine ⟨fun j => ?_, ?_⟩
      · refine (refs_addRef hlt 1 j).trans ?_
        rw [refs_new]
      · simp [SegmentMemory.addRef, SegmentMemory.cleanupLocked]
  | some i =>
      simp only [SegmentMemory.entryFor, hkey] at hentry
      simp only [SegmentMemory.acquireLocked, hkey]
      refine ⟨fun j => refs_addRef (List.getElem?_eq_some_iff.mp hentry).1 1 j, ?_⟩
      simp [SegmentMemory.addRef, SegmentMemory.cleanupLocked, hentry]

/-- A cached position without an entry: nothing is counted, and nothing found. -/
theorem acquireLocked_missing (hentry : mem.entryFor m = none) :
    mem.Balanced (mem.acquireLocked m).1 ∧
      (mem.acquireLocked m).1.entries[(mem.acquireLocked m).2]? = none := by
  cases hkey : mem.cache.get? m.getId with
  | none => simp [SegmentMemory.entryFor, hkey] at hentry
  | some i =>
      simp only [SegmentMemory.entryFor, hkey] at hentry
      have hnone : (mem.addRef i 1).entries[i]? = none := by
        rw [SegmentMemory.addRef_getElem?, hentry, Option.map_none]
      simp only [SegmentMemory.acquireLocked, hkey]
      refine ⟨fun j => ?_, hnone⟩
      have hsame : (mem.addRef i 1).entries = mem.entries := by
        rw [SegmentMemory.addRef, List.modify_eq_self (List.getElem?_eq_none_iff.mp hentry)]
      exact congrArg (fun entries => ((entries[j]?).map Entry.refcount).getD 0) hsame

/-- What an acquire does to the counts, by the entry that it finds. -/
inductive AcquireCase (mem : SegmentMemory) (ops : FileOps) (disk : Disk) (m : SegmentMeta) :
    SegmentMemory × Disk × Except LogError Nat → Prop
  | missing {mem' disk' err} (hentry : mem.entryFor m = none) (balanced : mem.Balanced mem') :
      AcquireCase mem ops disk m (mem', disk', .error err)
  | failed {mem' disk' err e i} (hentry : mem.entryFor m = some e)
      (cannot : e.CannotLoad mem.initSegmentSize ops disk) (holding : mem.Holding mem' i) :
      AcquireCase mem ops disk m (mem', disk', .error err)
  | loaded {mem' disk' e e' i n} (hentry : mem.entryFor m = some e)
      (loads : ¬ e.CannotLoad mem.initSegmentSize ops disk) (holding : mem.Holding mem' i)
      (found : mem'.entries[i]? = some e') (mapped : e'.mmap = some n) :
      AcquireCase mem ops disk m (mem', disk', .ok i)

theorem acquireCase (mem : SegmentMemory) (ops : FileOps) (disk : Disk) (m : SegmentMeta) :
    AcquireCase mem ops disk m (mem.acquire ops disk m) := by
  cases hentry : mem.entryFor m with
  | none =>
      obtain ⟨balanced, hnone⟩ := acquireLocked_missing hentry
      simp only [SegmentMemory.acquire, SegmentMemory.loadEntry, hnone]
      exact .missing hentry balanced
  | some e =>
      obtain ⟨holding, he⟩ := acquireLocked_refs hentry
      have hcounts := refs_set he (Entry.load_refcount _ mem.initSegmentSize ops disk)
      have hset := List.getElem?_set_self (List.getElem?_eq_some_iff.mp he).1
        (a := (Entry.load { e with refcount := e.refcount + 1 } mem.initSegmentSize ops disk).1)
      have houtcome := Entry.load_outcome { e with refcount := e.refcount + 1 } mem.initSegmentSize
        ops disk
      rw [SegmentMemory.acquire_eq m ops disk he, (acquireLocked_sizes mem m).1]
      generalize Entry.load { e with refcount := e.refcount + 1 } mem.initSegmentSize ops disk = loaded
        at hcounts hset houtcome ⊢
      obtain ⟨e', disk', res⟩ := loaded
      rcases houtcome with ⟨cannot, err, herr⟩ | ⟨loads, hok, n, hmap⟩
      · simp only at herr
        subst herr
        exact .failed hentry cannot fun j => (hcounts j).trans (holding j)
      · simp only at hok
        subst hok
        exact .loaded hentry loads (fun j => (hcounts j).trans (holding j)) hset hmap

end Memory
namespace LogManager

/-- The entry of the segment has to be loaded, and that raises. -/
def LoadFails (lm : LogManager) (ops : FileOps) (m : SegmentMeta) : Prop :=
  ∃ e, lm.memory.entryFor m = some e ∧ e.CannotLoad lm.memory.initSegmentSize ops lm.disk

/-- The segment that an append writes to, if it gets that far. -/
def writesTo (lm : LogManager) (now : Time) (topic : String) (data : Bytes) : Option SegmentMeta :=
  match writeSegment lm.registry topic with
  | .error _ => none
  | .ok (m, registry) =>
    if 2 ^ 32 ≤ data.length then none
    else if lm.policy.shouldRollover m (4 + data.length) now && decide (m.size ≠ 0) then
      (rollover registry topic).toOption.map Prod.fst
    else some m

/-- The segment whose entry an operation acquires, with the outcomes of its file operations. -/
def acquires (lm : LogManager) : LogOp → Option (SegmentMeta × FileOps)
  | .append topic env data => (lm.writesTo env.now topic data).map (·, env.ops)
  | .readBytes topic env offset _ => (lm.registry.getSegment topic offset).toOption.map (·, env.ops)
  | .read topic env offset _ => (lm.registry.getSegment topic offset).toOption.map (·, env.ops)
  | .createTopic _ | .release _ | .cleanup => none

end LogManager

/-- The operation ended by raising. -/
def LogResult.Raised : LogResult → Prop
  | .created result => result.toOption = none
  | .appended result => result.toOption = none
  | .bytes result => result.toOption = none
  | .fileSlice result => result.toOption = none
  | .done => False

instance (result : LogResult) : Decidable result.Raised :=
  match result with
  | .created result => inferInstanceAs (Decidable (result.toOption = none))
  | .appended result => inferInstanceAs (Decidable (result.toOption = none))
  | .bytes result => inferInstanceAs (Decidable (result.toOption = none))
  | .fileSlice result => inferInstanceAs (Decidable (result.toOption = none))
  | .done => isFalse id

section Manager
variable {lm : LogManager} {ops : FileOps} {m : SegmentMeta}

/-- A result keeps the counts when it is an error. -/
def KeepsOnError {α : Type} (mem mem' : SegmentMemory) (result : Except LogError α) : Prop :=
  result.toOption = none → mem.Balanced mem'

theorem keepsOnError_missing {α : Type} {mem : SegmentMemory} {result : Except LogError α}
    (hentry : lm.memory.entryFor m = none) (balanced : lm.memory.Balanced mem) :
    KeepsOnError lm.memory mem result ↔ ¬ lm.LoadFails ops m := by
  refine iff_of_true (fun _ => balanced) ?_
  rintro ⟨e, hentry', -⟩
  rw [hentry] at hentry'
  cases hentry'

theorem keepsOnError_failed {α : Type} {mem mem' : SegmentMemory} {i : Nat} {e : Entry}
    {err : LogError} (hentry : lm.memory.entryFor m = some e)
    (cannot : e.CannotLoad lm.memory.initSegmentSize ops lm.disk) (holding : mem.Holding mem' i) :
    KeepsOnError mem mem' (.error err : Except LogError α) ↔ ¬ lm.LoadFails ops m :=
  iff_of_false (fun keeps => holding.not_balanced (keeps rfl)) fun h => h ⟨e, hentry, cannot⟩

theorem keepsOnError_loaded {α : Type} {mem mem' : SegmentMemory} {e : Entry}
    {result : Except LogError α} (hentry : lm.memory.entryFor m = some e)
    (loads : ¬ e.CannotLoad lm.memory.initSegmentSize ops lm.disk)
    (keeps : KeepsOnError mem mem' result) : KeepsOnError mem mem' result ↔ ¬ lm.LoadFails ops m := by
  refine iff_of_true keeps ?_
  rintro ⟨e', hentry', cannot⟩
  rw [hentry] at hentry'
  cases hentry'
  exact loads cannot

theorem writeMessage_keeps_iff (lm : LogManager) (env : CallEnv) (m : SegmentMeta) (msg : Bytes) :
    KeepsOnError lm.memory (lm.writeMessage env m msg).1.memory (lm.writeMessage env m msg).2 ↔
      ¬ lm.LoadFails env.ops m := by
  have hcase := acquireCase lm.memory env.ops lm.disk m
  simp only [LogManager.writeMessage]
  generalize lm.memory.acquire env.ops lm.disk m = acquired at hcase ⊢
  cases hcase with
  | missing hentry balanced => exact keepsOnError_missing hentry balanced
  | failed hentry cannot holding => exact keepsOnError_failed hentry cannot holding
  | @loaded mem disk e e' i n hentry loads holding found mapped =>
      have hcounts := refs_set found (e'.write_refcount mem.segmentSizeInc env.ops disk
        m.getFileEndOffset msg)
      simp only [SegmentMemory.write, found]
      generalize e'.write mem.segmentSizeInc env.ops disk m.getFileEndOffset msg = written at hcounts
      obtain ⟨e'', disk', res⟩ := written
      have hlt : i < (mem.entries.set i e'').length := by
        rw [List.length_set]
        exact (List.getElem?_eq_some_iff.mp found).1
      have holding' : SegmentMemory.Holding _ { mem with entries := mem.entries.set i e'' } i :=
        fun j => (hcounts j).trans (holding j)
      have released := holding'.released hlt
      refine keepsOnError_loaded hentry loads fun _ => ?_
      cases res with
      | error err => exact released
      | ok _ =>
          simp only
          split
          · exact released
          · exact released

theorem readBytes_keeps_iff {env : CallEnv} {topic : String} {offset size : Int}
    (hseg : lm.registry.getSegment topic offset = .ok m) :
    KeepsOnError lm.memory (lm.readBytes env topic offset size).1.memory
        (lm.readBytes env topic offset size).2 ↔ ¬ lm.LoadFails env.ops m := by
  have hcase := acquireCase lm.memory env.ops lm.disk m
  simp only [LogManager.readBytes, hseg]
  generalize lm.memory.acquire env.ops lm.disk m = acquired at hcase ⊢
  cases hcase with
  | missing hentry balanced => exact keepsOnError_missing hentry balanced
  | failed hentry cannot holding => exact keepsOnError_failed hentry cannot holding
  | loaded hentry loads holding found mapped =>
      have released := holding.released (List.getElem?_eq_some_iff.mp found).1
      refine keepsOnError_loaded hentry loads fun _ => ?_
      simp only [SegmentMemory.view, found, Entry.view, mapped]
      split
      · exact released
      · exact released

/-- Past the load, `read` cannot raise: the entry is mapped, and the topic has a segment. -/
theorem read_keeps_iff {env : CallEnv} {topic : String} {offset size : Int}
    (hseg : lm.registry.getSegment topic offset = .ok m) :
    KeepsOnError lm.memory (lm.read env topic offset size).1.memory
        (lm.read env topic offset size).2 ↔ ¬ lm.LoadFails env.ops m := by
  have hcase := acquireCase lm.memory env.ops lm.disk m
  simp only [LogManager.read, hseg]
  generalize lm.memory.acquire env.ops lm.disk m = acquired at hcase ⊢
  cases hcase with
  | missing hentry balanced => exact keepsOnError_missing hentry balanced
  | failed hentry cannot holding => exact keepsOnError_failed hentry cannot holding
  | loaded hentry loads holding found mapped =>
      obtain ⟨segs, hget, hmem⟩ := SegmentRegistry.getSegment_mem hseg
      have hlast := List.getLast?_eq_some_getLast (List.ne_nil_of_mem hmem)
      refine keepsOnError_loaded hentry loads fun hraised => ?_
      simp only [SegmentMemory.view, found, Entry.view, mapped, SegmentRegistry.getLatestOffset, hget,
        hlast] at hraised
      cases hraised

theorem append_keeps_iff {env : CallEnv} {topic : String} {data : Bytes} :
    KeepsOnError lm.memory (lm.append env topic data).1.memory (lm.append env topic data).2 ↔
      ∀ m, lm.writesTo env.now topic data = some m → ¬ lm.LoadFails env.ops m := by
  have early : ∀ {registry : SegmentRegistry} {err : LogError},
      KeepsOnError lm.memory { lm with registry := registry }.memory (.error err : Except LogError Int) ↔
        ∀ m, (none : Option SegmentMeta) = some m → ¬ lm.LoadFails env.ops m :=
    iff_of_true (fun _ _ => rfl) (by simp)
  have writes : ∀ {registry : SegmentRegistry} {m : SegmentMeta} {msg : Bytes},
      KeepsOnError lm.memory ({ lm with registry := registry }.writeMessage env m msg).1.memory
          ({ lm with registry := registry }.writeMessage env m msg).2 ↔
        ∀ m', some m = some m' → ¬ lm.LoadFails env.ops m' := by
    intro registry m msg
    refine (writeMessage_keeps_iff { lm with registry := registry } env m msg).trans ?_
    simp only [Option.some_inj, forall_eq']
    rfl
  simp only [LogManager.append, LogManager.writesTo]
  cases hwrite : LogManager.writeSegment lm.registry topic with
  | error err => exact early
  | ok opened =>
      obtain ⟨m, registry⟩ := opened
      simp only
      by_cases hlong : 2 ^ 32 ≤ data.length
      · simp only [if_pos hlong]
        exact early
      · simp only [if_neg hlong]
        by_cases hroll : (lm.policy.shouldRollover m (4 + data.length) env.now &&
            decide (m.size ≠ 0)) = true
        · simp only [if_pos hroll]
          cases hrolled : LogManager.rollover registry topic with
          | error err => exact early
          | ok rolled => exact writes
        · simp only [if_neg hroll]
          exact writes

/-- A read, given what it does once its segment is found. -/
theorem found_keeps_iff {α : Type} {topic : String} {offset : Int} {mem : SegmentMemory}
    {result : Except LogError α} (hfound : ∀ m, lm.registry.getSegment topic offset = .ok m →
      (KeepsOnError lm.memory mem result ↔ ¬ lm.LoadFails ops m))
    (hmissed : ∀ err, lm.registry.getSegment topic offset = .error err → mem = lm.memory) :
    KeepsOnError lm.memory mem result ↔ ∀ m ops',
      (lm.registry.getSegment topic offset).toOption.map (·, ops) = some (m, ops') →
        ¬ lm.LoadFails ops' m := by
  cases hseg : lm.registry.getSegment topic offset with
  | error err =>
      rw [hmissed err hseg]
      exact iff_of_true (fun _ _ => rfl) (by simp [Except.toOption])
  | ok m =>
      refine (hfound m hseg).trans ?_
      simp only [Except.toOption, Option.map_some, Option.some_inj, Prod.mk.injEq]
      constructor
      · rintro h m' ops' ⟨rfl, rfl⟩
        exact h
      · exact fun h => h m ops ⟨rfl, rfl⟩

/-- In any state, an operation that raises leaves every reference count as it was exactly
when it does not fail in loading the entry that it acquires. -/
theorem LogManager.failed_calls_release_iff (lm : LogManager) (op : LogOp) :
    ((lm.apply op).2.Raised → ∀ i, (lm.apply op).1.memory.refs i = lm.memory.refs i) ↔
      ∀ m ops, lm.acquires op = some (m, ops) → ¬ lm.LoadFails ops m := by
  cases op with
  | createTopic topic =>
      have hmemory : (lm.createTopic topic).1.memory = lm.memory := by
        simp only [LogManager.createTopic]
        repeat' split
        all_goals rfl
      refine iff_of_true (fun _ i => ?_) (by simp [LogManager.acquires])
      rw [LogManager.apply, hmemory]
  | append topic env data =>
      refine append_keeps_iff.trans ?_
      simp only [LogManager.acquires, Option.map_eq_some_iff, Prod.mk.injEq]
      constructor
      · rintro h m ops ⟨m', hm', rfl, rfl⟩
        exact h m' hm'
      · exact fun h m hm => h m env.ops ⟨m, hm, rfl, rfl⟩
  | readBytes topic env offset size =>
      refine found_keeps_iff (fun m hseg => readBytes_keeps_iff hseg) fun err hseg => ?_
      simp only [LogManager.apply, LogManager.readBytes, hseg]
  | read topic env offset size =>
      have hraised : (lm.apply (.read topic env offset size)).2.Raised ↔
          (lm.read env topic offset size).2.toOption = none := by
        simp only [LogManager.apply]
        generalize (lm.read env topic offset size).2 = result
        cases result with
        | error err => exact iff_of_true rfl rfl
        | ok r =>
            simp [LogResult.Raised, Except.map, Except.toOption]
      rw [hraised]
      refine found_keeps_iff (fun m hseg => read_keeps_iff hseg) fun err hseg => ?_
      simp only [LogManager.apply, LogManager.read, hseg]
  | release handle => exact iff_of_true (fun h => h.elim) (by simp [LogManager.acquires])
  | cleanup => exact iff_of_true (fun h => h.elim) (by simp [LogManager.acquires])

/-- The file of the first append cannot be mapped. -/
theorem failed_append_keeps_reference :
    let lm : LogManager := LogManager.start ⟨"logs", 0, 1000, 100, 16, 16, 4⟩ 0
    let op : LogOp := .append "t" ⟨0, { FileOps.succeed with mmap := false }⟩ [7]
    (lm.apply op).2.Raised ∧ ¬ ∀ i, (lm.apply op).1.memory.refs i = lm.memory.refs i := by
  intro lm op
  refine ⟨by decide +kernel, fun balanced => ?_⟩
  have hheld := balanced 0
  revert hheld
  decide +kernel

end Manager
end PyLogStream
