import PyLogStream.Lib.Run
import PyLogStream.Log.Records

/-!
The structure of a topic's segment list over any sequence of creations and appends.
Here no two topics have to be kept apart: appends acquire active segments only, so
even an entry that two topics share is writable, and the registry never sees the
files. The records of a segment are counted by the offsets their appends returned.
-/

namespace PyLogStream
open Lib

/-- The calls that add to a log, and the steps of the cleanup thread between them.
A batch carries the environment of each of its writes. -/
inductive WriteCall where
  | createTopic (topic : String)
  | append (topic : String) (env : CallEnv) (data : Bytes)
  | appendBatch (topic : String) (batch : List (CallEnv × Bytes))
  | cleanup
  deriving DecidableEq

namespace WriteCall

/-- The writes of a call, each with its topic. -/
def writes : WriteCall → List (CallEnv × Bytes)
  | .append _ env data => [(env, data)]
  | .appendBatch _ batch => batch
  | _ => []

/-- The call's file operations succeed, and each length fits the four-byte prefix. -/
def Fits (call : WriteCall) : Prop :=
  ∀ write ∈ call.writes, write.1.ops = .succeed ∧ write.2.length < 2 ^ 32

instance (call : WriteCall) : Decidable call.Fits :=
  inferInstanceAs
    (Decidable (∀ write ∈ call.writes, write.1.ops = .succeed ∧ write.2.length < 2 ^ 32))

def IsFor (topic : String) : WriteCall → Bool
  | .createTopic topic' => topic' == topic
  | .append topic' _ _ => topic' == topic
  | .appendBatch topic' _ => topic' == topic
  | .cleanup => false

end WriteCall

/-- A call with the offsets it returns. -/
def LogManager.issue (lm : LogManager) : WriteCall → LogManager × Except LogError (List Int)
  | .createTopic topic =>
    let (lm, result) := lm.createTopic topic
    (lm, result.map fun _ => [])
  | .append topic env data =>
    let (lm, result) := lm.append env topic data
    (lm, result.map fun offset => [offset])
  | .appendBatch topic batch => lm.appendBatch topic batch
  | .cleanup => (lm.cleanupStep, .ok [])

/-- The offsets the calls of a run returned for one topic. -/
def returnedOffsets (topic : String) (calls : List (WriteCall × Except LogError (List Int))) :
    List Int :=
  (calls.filter fun call => call.1.IsFor topic).flatMap fun call => (call.2.toOption).getD []

/-- The number of records that start inside a segment. -/
def recordCount (offsets : List Int) (m : SegmentMeta) : Nat :=
  offsets.countP fun offset => decide (m.baseOffset ≤ offset ∧ offset < m.getEndOffset)

/-- The log structure invariant for the segments of one topic, where `offsets` are
those of the topic's records. -/
structure WellStructured (limit : Int) (offsets : List Int) (segs : List SegmentMeta) : Prop where
  first : segs.head?.map SegmentMeta.baseOffset = some 0
  contiguous : segs.IsChain fun m m' => m.getEndOffset = m'.baseOffset
  sealed : ∀ m ∈ segs.dropLast, m.state = .sealed ∧ m.size ≠ 0
  active : segs.getLast?.map SegmentMeta.state = some .active
  sizes : ∀ m ∈ segs, (m.size : Int) ≤ limit ∨ recordCount offsets m = 1

/-- An entry through which a write of any length succeeds once it is loaded. -/
structure Entry.Ready (e : Entry) : Prop where
  mutable : e.isMutable = true
  mapped : ∀ n, e.mmap = some n → e.capacity = some n

structure SegmentMemory.Ready (mem : SegmentMemory) : Prop where
  entries : ∀ e ∈ mem.entries, e.Ready
  cached : ∀ key i, mem.cache.get? key = some i → i < mem.entries.length
  init_pos : 0 < mem.initSegmentSize

section Memory
variable {mem : SegmentMemory} {disk : Disk}

theorem Entry.Ready.load {e : Entry} (ready : e.Ready) {init : Nat} (hinit : 0 < init)
    (disk : Disk) :
    ∃ e' disk' n, e.load init .succeed disk = (e', disk', .ok ()) ∧ e'.Ready ∧
      e'.mmap = some n := by
  cases hmap : e.mmap with
  | some n => exact ⟨e, disk, n, by simp [Entry.load, hmap], ready, hmap⟩
  | none =>
      have hpos := preparedFile_ne_nil hinit (disk.content e.filepath)
      let size := (preparedFile init (disk.content e.filepath)).length
      let e' : Entry := { e with fileOpen := true, capacity := some size, mmap := some size }
      let disk' := (disk.store e.filepath (disk.content e.filepath)).store e.filepath
        (preparedFile init (disk.content e.filepath))
      refine ⟨e', disk', size, ?_, ⟨ready.mutable, fun n hn => hn⟩, rfl⟩
      simp only [Entry.load, hmap, FileOps.succeed, prepared_eq_truncate]
      simp [e', disk', size, hpos]

/-- A write grows the mapping first, so it always fits. -/
theorem Entry.Ready.write {e : Entry} (ready : e.Ready) {n : Nat} (hmap : e.mmap = some n)
    (inc offset : Nat) (msg : Bytes) (disk : Disk) :
    ∃ e' disk', e.write inc .succeed disk offset msg = (e', disk', .ok ()) ∧ e'.Ready := by
  have hcap := ready.mapped n hmap
  by_cases hlt : n < offset + msg.length
  · let size := max (offset + msg.length) (inc + n)
    let e' : Entry := { e with mmap := some size, capacity := some size }
    let grown := disk.store e.filepath (truncateTo (disk.content e.filepath) size)
    have hfit : offset + msg.length ≤ size := Nat.le_max_left _ _
    refine ⟨e', grown.store e.filepath (splice (grown.content e.filepath) offset msg), ?_,
      ready.mutable, fun k hk => hk⟩
    simp only [Entry.write, hmap, hcap, ready.mutable, Entry.increaseCapacity, if_pos hlt,
      FileOps.succeed]
    simp [e', grown, size, hfit, ready.mutable]
  · refine ⟨e, disk.store e.filepath (splice (disk.content e.filepath) offset msg), ?_, ready⟩
    simp only [Entry.write, hmap, hcap, ready.mutable, Entry.increaseCapacity, if_neg hlt,
      Bool.not_true, Bool.false_eq_true, if_false, Option.getD_some]
    rw [if_pos (Nat.not_lt.mp hlt)]

theorem SegmentMemory.Ready.modify (ready : mem.Ready) (i : Nat) {f : Entry → Entry}
    (keep : ∀ e, e.Ready → (f e).Ready) :
    SegmentMemory.Ready { mem with entries := mem.entries.modify i f } := by
  refine ⟨?_, ?_, ready.init_pos⟩
  case refine_2 =>
      intro key j h
      rw [List.length_modify]
      exact ready.cached key j h
  intro e he
  obtain ⟨j, hj⟩ := List.mem_iff_getElem?.mp he
  rw [List.getElem?_modify] at hj
  obtain ⟨e₀, he₀, rfl⟩ := Option.map_eq_some_iff.mp hj
  have h₀ := ready.entries e₀ (List.mem_of_getElem? he₀)
  split
  · exact keep e₀ h₀
  · exact h₀

theorem SegmentMemory.Ready.set (ready : mem.Ready) (i : Nat) {e : Entry} (he : e.Ready) :
    SegmentMemory.Ready { mem with entries := mem.entries.set i e } := by
  refine ⟨?_, ?_, ready.init_pos⟩
  case refine_2 =>
      intro key j h
      rw [List.length_set]
      exact ready.cached key j h
  intro e' he'
  rcases List.mem_or_eq_of_mem_set he' with hold | rfl
  · exact ready.entries e' hold
  · exact he

theorem SegmentMemory.Ready.addRef (ready : mem.Ready) (i : Nat) (delta : Int) :
    (mem.addRef i delta).Ready :=
  ready.modify i fun _ he => ⟨he.mutable, he.mapped⟩

theorem SegmentMemory.Ready.cleanupLocked (ready : mem.Ready) : mem.cleanupLocked.Ready :=
  ⟨ready.entries, fun key i h => ready.cached key i (Dict.get?_of_drop h), ready.init_pos⟩

theorem SegmentMemory.Ready.cleanupStep (ready : mem.Ready) : mem.cleanupStep.Ready := by
  unfold SegmentMemory.cleanupStep
  split
  · split
    · exact ready
    · exact ⟨ready.entries, ready.cached, ready.init_pos⟩
  · next i _ =>
      split
      · have released := ready.modify (f := Entry.release) i fun e he =>
          ⟨he.mutable, by simp [Entry.release]⟩
        exact ⟨released.entries, released.cached, released.init_pos⟩
      · exact ready

theorem acquireLocked_ready (ready : mem.Ready) {m : SegmentMeta} (active : m.state = .active) :
    (mem.acquireLocked m).1.Ready ∧
      ∃ e, (mem.acquireLocked m).1.entries[(mem.acquireLocked m).2]? = some e := by
  have hcached : ∀ key i, mem.cache.get? key = some i →
      ∃ e, (mem.acquireLocked m).1.entries[i]? = some e := by
    intro key i hkey
    obtain ⟨n, hn⟩ := SegmentMemory.acquireLocked_kept m
      (List.getElem?_eq_getElem (ready.cached key i hkey))
    exact ⟨_, hn⟩
  have hown : ∃ e, (mem.acquireLocked m).1.entries[(mem.acquireLocked m).2]? = some e := by
    rcases mem.acquireLocked_entry m with hkey | ⟨-, hnew⟩
    · exact hcached _ _ hkey
    · exact ⟨_, hnew⟩
  refine ⟨⟨?_, ?_, ?_⟩, hown⟩
  · intro e he
    obtain ⟨e₀, n, hold | rfl, rfl⟩ := SegmentMemory.acquireLocked_mem m he
    · exact ⟨(ready.entries e₀ hold).mutable, (ready.entries e₀ hold).mapped⟩
    · exact ⟨by simp [Entry.new, SegmentMeta.isMutable, active], by simp [Entry.new]⟩
  · intro key i hi
    rcases SegmentMemory.acquireLocked_cached m hi with ⟨-, hold⟩ | ⟨-, rfl⟩
    · obtain ⟨e, he⟩ := hcached key i hold
      exact (List.getElem?_eq_some_iff.mp he).1
    · obtain ⟨e, he⟩ := hown
      exact (List.getElem?_eq_some_iff.mp he).1
  · rw [(acquireLocked_sizes mem m).1]
    exact ready.init_pos

theorem acquire_ready (ready : mem.Ready) {m : SegmentMeta} (active : m.state = .active)
    (disk : Disk) :
    ∃ mem' disk' i e n, mem.acquire .succeed disk m = (mem', disk', .ok i) ∧ mem'.Ready ∧
      mem'.entries[i]? = some e ∧ e.mmap = some n := by
  obtain ⟨locked, e, he⟩ := acquireLocked_ready ready active
  obtain ⟨e', disk', n, hload, he', hmap⟩ :=
    (locked.entries e (List.mem_of_getElem? he)).load locked.init_pos disk
  have hlt := (List.getElem?_eq_some_iff.mp he).1
  let mem' : SegmentMemory :=
    { (mem.acquireLocked m).1 with
      entries := (mem.acquireLocked m).1.entries.set (mem.acquireLocked m).2 e' }
  refine ⟨mem', disk', (mem.acquireLocked m).2, e', n, ?_, locked.set _ he', ?_, hmap⟩
  · simp only [SegmentMemory.acquire, SegmentMemory.loadEntry, he, hload]
    rfl
  · simp [mem', hlt]

theorem write_ready (ready : mem.Ready) {i n : Nat} {e : Entry} (he : mem.entries[i]? = some e)
    (hmap : e.mmap = some n) (offset : Nat) (msg : Bytes) (disk : Disk) :
    ∃ mem' disk', mem.write .succeed disk i offset msg = (mem', disk', .ok ()) ∧ mem'.Ready := by
  obtain ⟨e', disk', hwrite, he'⟩ := (ready.entries e (List.mem_of_getElem? he)).write
    hmap mem.segmentSizeInc offset msg disk
  exact ⟨_, disk', by simp only [SegmentMemory.write, he, hwrite], ready.set i he'⟩

end Memory

theorem writeMessage_ready {lm : LogManager} (ready : lm.memory.Ready) {topic : String}
    {front : List SegmentMeta} {m : SegmentMeta} {start : Nat}
    (hget : lm.registry.registry.get? topic = some (front ++ [m]))
    (segs : TopicSegments lm.registry.logDir topic front m start) {env : CallEnv}
    (hops : env.ops = .succeed) (msg : Bytes) :
    ∃ lm', lm.writeMessage env m msg = (lm', .ok ((start + m.size : Nat) : Int)) ∧
      lm'.memory.Ready ∧ lm'.policy = lm.policy ∧
      lm'.registry =
        lm.registry.setTopic topic (front ++ [{ m with size := m.size + msg.length }]) := by
  obtain ⟨mem₁, disk₁, i, e, n, hacq, ready₁, he, hmap⟩ :=
    acquire_ready ready segs.active lm.disk
  obtain ⟨mem₂, disk₂, hwrite, ready₂⟩ := write_ready ready₁ he hmap m.getFileEndOffset msg disk₁
  have hadv := SegmentRegistry.advanceOffset_last hget segs msg.length
  refine ⟨{ lm with
    memory := mem₂.releaseEntry i
    disk := disk₂
    registry := lm.registry.setTopic topic (front ++ [{ m with size := m.size + msg.length }]) },
    ?_, ready₂.addRef i (-1), rfl, rfl⟩
  simp only [LogManager.writeMessage, hops, hacq, hwrite, hadv, segs.getEndOffset_last]

/-- What the offsets returned so far say about the segments of a topic. -/
structure Counted (limit : Int) (r : SegmentRegistry) (topic : String) (offsets : List Int) :
    Prop where
  sizes : ∀ segs, r.registry.get? topic = some segs → ∀ m ∈ segs,
    (m.size : Int) ≤ limit ∨ recordCount offsets m = 1
  below : ∀ offset ∈ offsets, ∃ latest, r.getLatestOffset topic = .ok latest ∧ offset < latest

section Count
variable {limit : Int} {offsets : List Int}

theorem recordCount_append (m : SegmentMeta) (offset : Int) :
    recordCount (offsets ++ [offset]) m = recordCount offsets m +
      if m.baseOffset ≤ offset ∧ offset < m.getEndOffset then 1 else 0 := by
  simp [recordCount, List.countP_append, List.countP_singleton]

/-- No record starts in a segment above the offsets of all records. -/
theorem recordCount_eq_zero {m : SegmentMeta} (h : ∀ offset ∈ offsets, offset < m.baseOffset) :
    recordCount offsets m = 0 := by
  refine List.countP_eq_zero.mpr ?_
  intro offset hmem
  have := h offset hmem
  simp only [decide_eq_true_eq]
  omega

theorem counted_of_none {r : SegmentRegistry} {topic : String}
    (counted : Counted limit r topic offsets) (hget : r.registry.get? topic = none) :
    offsets = [] := by
  refine List.eq_nil_iff_forall_not_mem.mpr ?_
  intro offset hmem
  obtain ⟨latest, hlatest, -⟩ := counted.below offset hmem
  simp [SegmentRegistry.getLatestOffset, hget] at hlatest

/-- The target of an append before the message is written. -/
structure Target (limit : Int) (offsets : List Int) (required : Nat) (front : List SegmentMeta)
    (m : SegmentMeta) : Prop where
  sizes : ∀ x ∈ front, (x.size : Int) ≤ limit ∨ recordCount offsets x = 1
  below : ∀ offset ∈ offsets, offset < m.getEndOffset
  room : m.size = 0 ∨ ((m.size + required : Nat) : Int) ≤ limit

/-- A segment that already holds a record is left for a new one unless the message
fits into it. -/
theorem target_of_case {lm : LogManager} {topic : String} {now : Time} {required : Nat}
    {front : List SegmentMeta} {m : SegmentMeta}
    (counted : Counted limit lm.registry topic offsets)
    (hlimit : lm.policy.maxSegmentSize ≤ limit)
    (h : AppendCase lm now topic required front m) : Target limit offsets required front m := by
  cases h with
  | first hget =>
      rw [counted_of_none counted hget]
      exact ⟨by simp, by simp, Or.inl rfl⟩
  | @active _ _ start hget segs stay =>
      refine ⟨?_, ?_, ?_⟩
      · intro x hx
        exact counted.sizes _ hget x (List.mem_append_left _ hx)
      · intro offset hmem
        obtain ⟨latest, hlatest, hlt⟩ := counted.below offset hmem
        rw [SegmentRegistry.getLatestOffset_active hget segs] at hlatest
        cases hlatest
        rw [segs.getEndOffset_last]
        exact hlt
      · by_cases hsize : m.size = 0
        · exact Or.inl hsize
        · right
          simp only [hsize, not_false_eq_true, decide_true, Bool.and_true,
            SegmentPolicy.shouldRollover, ne_eq] at stay
          split at stay
          · cases stay
          · have := of_decide_eq_false stay
            push_cast
            omega
  | @rolled front₀ last start hget segs roll =>
      refine ⟨?_, ?_, Or.inl rfl⟩
      · intro x hx
        rcases List.mem_append.mp hx with hfront | hlast
        · exact counted.sizes _ hget x (List.mem_append_left _ hfront)
        · rw [List.mem_singleton.mp hlast]
          exact counted.sizes _ hget last (by simp)
      · intro offset hmem
        obtain ⟨latest, hlatest, hlt⟩ := counted.below offset hmem
        rw [SegmentRegistry.getLatestOffset_active hget segs] at hlatest
        cases hlatest
        simpa [SegmentRegistry.newSegment, SegmentMeta.getEndOffset] using hlt

/-- The message becomes the only record of an empty segment, or fits its segment. -/
theorem Target.counted {required : Nat} {front : List SegmentMeta} {m : SegmentMeta}
    {start : Nat} {r : SegmentRegistry} {topic : String}
    (target : Target limit offsets required front m)
    (segs : TopicSegments r.logDir topic front m start) (hreq : 0 < required) :
    Counted limit (r.setTopic topic (front ++ [{ m with size := m.size + required }])) topic
      (offsets ++ [((start + m.size : Nat) : Int)]) := by
  have hbase := segs.at_end.base_eq
  have hlast : (r.setTopic topic (front ++ [{ m with size := m.size + required }])).getLatestOffset
      topic = .ok ((start + m.size + required : Nat) : Int) := by
    simp only [SegmentRegistry.getLatestOffset, SegmentRegistry.setTopic_get?, if_true,
      List.getLast?_concat, SegmentMeta.getEndOffset, hbase]
    push_cast
    rw [Int.add_assoc]
  constructor
  · intro segs' hget x hx
    rw [SegmentRegistry.setTopic_get?, if_pos rfl] at hget
    cases hget
    rw [recordCount_append]
    rcases List.mem_append.mp hx with hfront | hnew
    · obtain ⟨base, hat, -, -, -, hhi⟩ := segs.run.mem_bounds hfront
      have hout : ¬ (x.baseOffset ≤ ((start + m.size : Nat) : Int) ∧
          ((start + m.size : Nat) : Int) < x.getEndOffset) := by
        rw [SegmentMeta.getEndOffset, hat.base_eq]
        omega
      rw [if_neg hout]
      exact target.sizes x hfront
    · rw [List.mem_singleton.mp hnew]
      rcases target.room with hempty | hfit
      · right
        have hin : m.baseOffset ≤ ((start + m.size : Nat) : Int) ∧
            ((start + m.size : Nat) : Int) < m.baseOffset + ((m.size + required : Nat) : Int) := by
          omega
        rw [SegmentMeta.getEndOffset, if_pos hin, recordCount_eq_zero]
        intro offset hmem
        have := target.below offset hmem
        rw [SegmentMeta.getEndOffset] at this
        change offset < m.baseOffset
        omega
      · exact Or.inl hfit
  · intro offset hmem
    refine ⟨_, hlast, ?_⟩
    rcases List.mem_append.mp hmem with hold | hnew
    · have := target.below offset hold
      rw [segs.getEndOffset_last] at this
      omega
    · rw [List.mem_singleton.mp hnew]
      omega

/-- The segments of another topic are not concerned. -/
theorem Counted.setTopic_of_ne {r : SegmentRegistry} {topic topic' : String}
    (counted : Counted limit r topic offsets) (hne : topic ≠ topic') (segs : List SegmentMeta) :
    Counted limit (r.setTopic topic' segs) topic offsets := by
  constructor
  · intro segs' hget
    rw [SegmentRegistry.setTopic_get?, if_neg hne] at hget
    exact counted.sizes segs' hget
  · intro offset hmem
    simp only [SegmentRegistry.getLatestOffset, SegmentRegistry.setTopic_get?, if_neg hne]
    exact counted.below offset hmem

end Count

/-- The invariant of a run, with the offsets returned so far for each topic. -/
structure StructureOk (limit : Int) (lm : LogManager) (offsets : String → List Int) : Prop where
  limit_nonneg : 0 ≤ limit
  policy_le : lm.policy.maxSegmentSize ≤ limit
  memory : lm.memory.Ready
  shaped : lm.registry.Shaped
  counted : ∀ topic, Counted limit lm.registry topic (offsets topic)

def addOffsets (offsets : String → List Int) (topic : String) (new : List Int) :
    String → List Int :=
  fun topic' => if topic' = topic then offsets topic' ++ new else offsets topic'

section Run
variable {limit : Int} {lm : LogManager} {offsets : String → List Int} {topic : String}

theorem append_structure (ok : StructureOk limit lm offsets) (topic : String) {env : CallEnv}
    (hops : env.ops = .succeed) {data : Bytes} (hlen : data.length < 2 ^ 32) :
    ∃ lm' offset, lm.append env topic data = (lm', .ok offset) ∧
      StructureOk limit lm' (addOffsets offsets topic [offset]) := by
  obtain ⟨⟨front, m⟩, htarget⟩ : ∃ target,
      lm.appendTarget env.now topic (4 + data.length) = target := ⟨_, rfl⟩
  obtain ⟨⟨start, segs⟩, happ⟩ := append_eq ok.shaped hlen env htarget
  have memory : LogManager.memory
      { lm with registry := lm.registry.setTopic topic (front ++ [m]) } |>.Ready := ok.memory
  obtain ⟨lm', hwrite, ready, hpolicy, hregistry⟩ := writeMessage_ready memory
    (by simp [SegmentRegistry.setTopic_get?]) segs hops (frame data)
  rw [SegmentRegistry.setTopic_setTopic, frame_length] at hregistry
  have target := target_of_case (ok.counted topic) ok.policy_le
    (appendCase ok.shaped htarget)
  have written : TopicSegments lm.registry.logDir topic front
      { m with size := m.size + (4 + data.length) } start :=
    ⟨segs.run, ⟨segs.at_end.topic_eq, segs.at_end.base_eq, segs.at_end.path_eq⟩, segs.active⟩
  refine ⟨lm', _, happ.trans hwrite, ok.limit_nonneg, ?_, ready, ?_, ?_⟩
  · rw [hpolicy]
    exact ok.policy_le
  · rw [hregistry]
    exact ok.shaped.setTopic written
  · intro topic'
    rw [hregistry, addOffsets]
    split
    · next ht =>
        rw [ht]
        exact target.counted segs (by omega)
    · next hne => exact (ok.counted topic').setTopic_of_ne hne _

theorem addOffsets_nil : addOffsets offsets topic [] = offsets := by
  funext topic'
  simp [addOffsets]

theorem addOffsets_addOffsets (first rest : List Int) :
    addOffsets (addOffsets offsets topic first) topic rest =
      addOffsets offsets topic (first ++ rest) := by
  funext topic'
  by_cases ht : topic' = topic
  · simp [addOffsets, ht]
  · simp [addOffsets, ht]

theorem appendBatch_structure (ok : StructureOk limit lm offsets) (topic : String)
    {batch : List (CallEnv × Bytes)}
    (fits : ∀ write ∈ batch, write.1.ops = .succeed ∧ write.2.length < 2 ^ 32) :
    ∃ lm' new, lm.appendBatch topic batch = (lm', .ok new) ∧
      StructureOk limit lm' (addOffsets offsets topic new) := by
  induction batch generalizing lm offsets with
  | nil => exact ⟨lm, [], rfl, by rwa [addOffsets_nil]⟩
  | cons write rest ih =>
      obtain ⟨hops, hlen⟩ := fits write List.mem_cons_self
      obtain ⟨lm₁, offset, happ, ok₁⟩ := append_structure ok topic hops hlen
      obtain ⟨lm₂, new, hrest, ok₂⟩ := ih ok₁ fun w hw => fits w (List.mem_cons_of_mem _ hw)
      refine ⟨lm₂, offset :: new, ?_, ?_⟩
      · simp only [LogManager.appendBatch, happ, hrest]
      · rwa [addOffsets_addOffsets, List.singleton_append] at ok₂

theorem createTopic_structure (ok : StructureOk limit lm offsets) (topic : String) :
    ∃ lm', lm.createTopic topic = (lm', .ok ()) ∧ StructureOk limit lm' offsets := by
  cases hget : lm.registry.registry.get? topic with
  | some segs => exact ⟨lm, createTopic_of_some ok.shaped hget, ok⟩
  | none =>
      have first : TopicSegments lm.registry.logDir topic [] (lm.registry.newSegment topic 0) 0 :=
        ⟨rfl, lm.registry.newSegment_at topic 0, rfl⟩
      refine ⟨_, createTopic_of_none hget, ok.limit_nonneg, ok.policy_le, ok.memory,
        ok.shaped.setTopic first, ?_⟩
      intro topic'
      by_cases ht : topic' = topic
      · subst ht
        rw [counted_of_none (ok.counted topic') hget]
        refine ⟨?_, by simp⟩
        intro segs hsegs m hm
        rw [SegmentRegistry.setTopic_get?, if_pos rfl] at hsegs
        cases hsegs
        rw [List.mem_singleton.mp hm]
        exact Or.inl ok.limit_nonneg
      · exact (ok.counted topic').setTopic_of_ne ht _

/-- One call succeeds and returns offsets of its own topic. -/
theorem issue_structure (ok : StructureOk limit lm offsets) {call : WriteCall}
    (fits : call.Fits) :
    ∃ lm' new, lm.issue call = (lm', .ok new) ∧
      StructureOk limit lm' fun topic =>
        offsets topic ++ returnedOffsets topic [(call, .ok new)] := by
  have own : ∀ (call : WriteCall) (topic : String) (new : List Int),
      (∀ topic', call.IsFor topic' = (topic == topic')) →
      (fun topic' => offsets topic' ++ returnedOffsets topic' [(call, .ok new)]) =
        addOffsets offsets topic new := by
    intro call topic new hfor
    funext topic'
    by_cases ht : topic' = topic
    · simp [returnedOffsets, addOffsets, hfor, ht, Except.toOption]
    · simp [returnedOffsets, addOffsets, hfor, ht, Ne.symm ht]
  cases call with
  | createTopic topic =>
      obtain ⟨lm', hcreate, ok'⟩ := createTopic_structure ok topic
      refine ⟨lm', [], by simp [LogManager.issue, hcreate, Except.map], ?_⟩
      rwa [own _ topic [] fun _ => rfl, addOffsets_nil]
  | append topic env data =>
      obtain ⟨hops, hlen⟩ := fits (env, data) (List.mem_singleton_self _)
      obtain ⟨lm', offset, happ, ok'⟩ := append_structure ok topic hops hlen
      refine ⟨lm', [offset], by simp [LogManager.issue, happ, Except.map], ?_⟩
      rwa [own _ topic [offset] fun _ => rfl]
  | appendBatch topic batch =>
      obtain ⟨lm', new, hbatch, ok'⟩ := appendBatch_structure ok topic fits
      refine ⟨lm', new, hbatch, ?_⟩
      rwa [own _ topic new fun _ => rfl]
  | cleanup =>
      refine ⟨lm.cleanupStep, [], rfl, ok.limit_nonneg, ok.policy_le, ok.memory.cleanupStep,
        ok.shaped, ?_⟩
      intro topic
      rw [show returnedOffsets topic [(.cleanup, .ok [])] = [] from rfl, List.append_nil]
      exact ok.counted topic

theorem returnedOffsets_cons (topic : String) (call : WriteCall × Except LogError (List Int))
    (rest : List (WriteCall × Except LogError (List Int))) :
    returnedOffsets topic (call :: rest) =
      returnedOffsets topic [call] ++ returnedOffsets topic rest := by
  cases hfor : call.1.IsFor topic with
  | true => simp [returnedOffsets, hfor]
  | false => simp [returnedOffsets, hfor]

theorem run_structure (ok : StructureOk limit lm offsets) {calls : List WriteCall}
    (fits : ∀ call ∈ calls, call.Fits) :
    (∀ call ∈ trace LogManager.issue lm calls, ∃ new, call.2 = .ok new) ∧
      StructureOk limit (run LogManager.issue lm calls) fun topic =>
        offsets topic ++ returnedOffsets topic (trace LogManager.issue lm calls) := by
  induction calls generalizing lm offsets with
  | nil => exact ⟨by simp [trace], by simpa [run, trace, returnedOffsets] using ok⟩
  | cons call calls ih =>
      obtain ⟨lm', new, hissue, ok'⟩ := issue_structure ok (fits call List.mem_cons_self)
      obtain ⟨succeed, ok''⟩ := ih ok' fun c hc => fits c (List.mem_cons_of_mem _ hc)
      have hstep : trace LogManager.issue lm (call :: calls) =
          (call, .ok new) :: trace LogManager.issue lm' calls := by
        simp only [trace, hissue]
      rw [hstep]
      constructor
      · intro c hc
        rcases List.mem_cons.mp hc with rfl | hrest
        · exact ⟨new, rfl⟩
        · exact succeed c hrest
      · have hoffsets : (fun topic => offsets topic ++
              returnedOffsets topic ((call, .ok new) :: trace LogManager.issue lm' calls)) =
            fun topic => (offsets topic ++ returnedOffsets topic [(call, .ok new)]) ++
              returnedOffsets topic (trace LogManager.issue lm' calls) := by
          funext topic
          rw [returnedOffsets_cons, List.append_assoc]
        rw [hoffsets]
        simpa only [run, hissue] using ok''

end Run

theorem Contiguous.isChain {start : Nat} {segs : List SegmentMeta} (h : Contiguous start segs) :
    segs.IsChain fun m m' => m.getEndOffset = m'.baseOffset := by
  induction segs generalizing start with
  | nil => exact .nil
  | cons m rest ih =>
      cases rest with
      | nil => exact .singleton m
      | cons m' rest' =>
          refine List.isChain_cons_cons.mpr ⟨?_, ih h.2⟩
          rw [SegmentMeta.getEndOffset, h.1, h.2.1]
          push_cast
          rfl

theorem StructureOk.wellStructured {limit : Int} {lm : LogManager} {offsets : String → List Int}
    (ok : StructureOk limit lm offsets) {topic : String} {segs : List SegmentMeta}
    (hget : lm.registry.registry.get? topic = some segs) :
    WellStructured limit (offsets topic) segs := by
  obtain ⟨front, last, start, rfl, h⟩ := ok.shaped topic segs hget
  obtain ⟨contiguous, -⟩ := h.run.contiguous h.at_end
  refine ⟨?_, contiguous.isChain, ?_, ?_, (ok.counted topic).sizes _ hget⟩
  · cases front with
    | nil => exact congrArg some contiguous.1
    | cons m rest => exact congrArg some contiguous.1
  · rw [List.dropLast_concat]
    intro m hm
    obtain ⟨-, -, hsealed, hsize, -⟩ := h.run.mem_bounds hm
    exact ⟨hsealed, by omega⟩
  · rw [List.getLast?_concat, Option.map_some, h.active]

/-- Every call succeeds and leaves every topic well structured, whatever files the
directory held before. A segment above the size limit holds one record; an empty
segment is above it if the limit is negative. -/
theorem log_structure (config : LogConfig) (importTime : Time) (disk : Disk)
    (hinit : 0 < config.initSegmentSize) (calls : List WriteCall)
    (fits : ∀ call ∈ calls, call.Fits) :
    let lm : LogManager := { LogManager.start config importTime with disk := disk }
    (∀ call ∈ trace LogManager.issue lm calls, ∃ new, call.2 = .ok new) ∧
      ∀ topic segs, (run LogManager.issue lm calls).registry.registry.get? topic = some segs →
        WellStructured (max 0 config.maxSegmentSize)
          (returnedOffsets topic (trace LogManager.issue lm calls)) segs := by
  intro lm
  have start : StructureOk (max 0 config.maxSegmentSize) lm fun _ => [] := by
    refine ⟨by omega, Int.le_max_right _ _, ⟨by simp [lm, LogManager.start, SegmentMemory.new],
      by simp [lm, LogManager.start, SegmentMemory.new], hinit⟩,
      by simp [lm, LogManager.start, SegmentRegistry.Shaped], ?_⟩
    intro topic
    exact ⟨by simp [lm, LogManager.start], by simp⟩
  obtain ⟨succeed, ok⟩ := run_structure start fits
  refine ⟨succeed, ?_⟩
  intro topic segs hget
  simpa only [List.nil_append] using ok.wellStructured hget

/-- A limit of ten bytes: a record of fourteen bytes is alone in its segment. -/
def tightLog : LogConfig := ⟨"logs", 1000, 1000, 10, 64, 64, 1⟩

theorem log_structure_tight :
    let config : LogConfig := tightLog
    let calls : List WriteCall := [.createTopic "a", .append "a" ⟨0, .succeed⟩ (zeros 10), .cleanup,
      .appendBatch "a" [(⟨0, .succeed⟩, [1]), (⟨5000, .succeed⟩, [2])]]
    let lm : LogManager := { LogManager.start config 0 with disk := Dict.empty }
    (0 < config.initSegmentSize ∧ ∀ call ∈ calls, call.Fits) ∧
      (∀ call ∈ trace LogManager.issue lm calls, ∃ new, call.2 = .ok new) ∧
      ∀ topic segs, (run LogManager.issue lm calls).registry.registry.get? topic = some segs →
        WellStructured (max 0 config.maxSegmentSize)
          (returnedOffsets topic (trace LogManager.issue lm calls)) segs := by
  intro config calls lm
  have fits : ∀ call ∈ calls, call.Fits := by decide
  exact ⟨⟨by decide, fits⟩, log_structure config 0 Dict.empty (by decide) calls fits⟩

/-- With a negative limit even the empty segment of a new topic is too large. -/
theorem empty_segment_above_limit :
    let config : LogConfig := { tightLog with maxSegmentSize := -1 }
    let calls : List WriteCall := [.createTopic "a"]
    let lm : LogManager := { LogManager.start config 0 with disk := Dict.empty }
    ∃ segs, (run LogManager.issue lm calls).registry.registry.get? "a" = some segs ∧
      ¬ WellStructured config.maxSegmentSize
        (returnedOffsets "a" (trace LogManager.issue lm calls)) segs := by
  intro config calls lm
  refine ⟨[lm.registry.newSegment "a" 0], rfl, ?_⟩
  intro structured
  have := structured.sizes _ (List.mem_singleton_self _)
  revert this
  decide

end PyLogStream
