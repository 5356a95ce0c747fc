import PyLogStream.Log.Bounds

/-!
A broker that is started again. The registry is empty, but the directory may hold whatever
files earlier runs have left, and file operations may fail. A consumer follows a topic by
copies of the bytes (`read_bytes`) or by slices of the file (`read`), which are sent some
time later. It gets the records appended since the start, in order, and nothing else.
-/

namespace PyLogStream
open Lib

structure Follower where
  log : LogManager
  offset : Int
  buffer : Bytes
  /-- A slice that has not been sent yet, and the offset behind it. -/
  slice : Option (FileSlice × Int)

inductive FollowOp where
  | log (op : LogOp)
  | copy (env : CallEnv) (size : Int)
  | request (env : CallEnv) (size : Int)
  | send
  deriving DecidableEq

namespace Follower

def start (config : LogConfig) (importTime : Time) (disk : Disk) : Follower :=
  { log := { LogManager.start config importTime with disk := disk }
    offset := 0
    buffer := []
    slice := none }

def receive (s : Follower) (data : Bytes) (next : Int) : Follower :=
  { s with offset := next, buffer := s.buffer ++ data, slice := none }

/-- A step, with the payloads that it has added to the topic. -/
def step (topic : String) (s : Follower) : FollowOp → Follower × List Bytes
  | .log op =>
    let (log, result) := s.log.apply op
    ({ s with log }, op.committed topic result)
  | .copy env size =>
    match s.log.readBytes env topic s.offset size with
    | (log, .error _) => ({ s with log }, [])
    | (log, .ok result) => ({ s with log }.receive result.data result.nextOffset, [])
  | .request env size =>
    match s.log.read env topic s.offset size with
    | (log, .error _) => ({ s with log }, [])
    | (log, .ok result) => ({ s with log, slice := some (result.fileSlice, result.nextOffset) }, [])
  | .send =>
    match s.slice with
    | none => (s, [])
    | some (slice, next) =>
      match s.log.disk.sendfile slice.filepath slice.offset slice.batchSize with
      | none => ({ s with slice := none }, [])
      | some data => (s.receive data next, [])

end Follower

/-- A segment that an operation opens keeps the topic undisturbed. -/
def FollowOp.Clear (topic : String) (s : Follower) : FollowOp → Prop
  | .log op => ClearFor topic s.log op
  | _ => True

instance (topic : String) (s : Follower) (op : FollowOp) : Decidable (op.Clear topic s) :=
  match op with
  | .log op => inferInstanceAs (Decidable (ClearFor topic s.log op))
  | .copy _ _ => isTrue trivial
  | .request _ _ => isTrue trivial
  | .send => isTrue trivial

section Registry

/-- Every segment is still there, under its file, and has lost no bytes. -/
def SegmentRegistry.Grows (r r' : SegmentRegistry) : Prop :=
  ∀ m, r.Holds m → ∃ m', r'.Holds m' ∧ m'.topic = m.topic ∧ m'.path = m.path ∧
    m'.baseOffset = m.baseOffset ∧ m.size ≤ m'.size

variable {r r' r'' : SegmentRegistry} {lm : LogManager} {target : String}

theorem SegmentRegistry.Grows.refl (r : SegmentRegistry) : r.Grows r :=
  fun m hm => ⟨m, hm, rfl, rfl, rfl, le_refl _⟩

theorem SegmentRegistry.Grows.trans (h : r.Grows r') (h' : r'.Grows r'') : r.Grows r'' := by
  intro m hm
  obtain ⟨m', hm', htopic, hpath, hbase, hsize⟩ := h m hm
  obtain ⟨m'', hm'', htopic', hpath', hbase', hsize'⟩ := h' m' hm'
  exact ⟨m'', hm'', htopic'.trans htopic, hpath'.trans hpath, hbase'.trans hbase, hsize.trans hsize'⟩

/-- The last segment of a topic is replaced, and others may follow. -/
theorem SegmentRegistry.grows_last {front news : List SegmentMeta} {last last' : SegmentMeta}
    (hget : r.registry.get? target = some (front ++ [last]))
    (htopic : last'.topic = last.topic) (hpath : last'.path = last.path)
    (hbase : last'.baseOffset = last.baseOffset) (hsize : last.size ≤ last'.size) :
    r.Grows (r.setTopic target (front ++ last' :: news)) := by
  intro m hm
  by_cases ht : m.topic = target
  · obtain ⟨segs, hget', hmem⟩ := hm
    rw [ht, hget] at hget'
    obtain rfl := Option.some.inj hget'
    rcases List.mem_append.mp hmem with hfront | hlast
    · exact ⟨m, holds_setTopic_iff.mpr (Or.inl ⟨ht, List.mem_append_left _ hfront⟩), rfl, rfl, rfl,
        le_refl _⟩
    · obtain rfl := List.mem_singleton.mp hlast
      exact ⟨last', holds_setTopic_iff.mpr (Or.inl ⟨htopic.trans ht, by simp⟩), htopic, hpath, hbase,
        hsize⟩
  · exact ⟨m, holds_setTopic_iff.mpr (Or.inr ⟨ht, hm⟩), rfl, rfl, rfl, le_refl _⟩

theorem SegmentRegistry.grows_first (hget : r.registry.get? target = none)
    (segs : List SegmentMeta) : r.Grows (r.setTopic target segs) := by
  intro m hm
  have ht : m.topic ≠ target := by
    rintro rfl
    obtain ⟨old, hold, -⟩ := hm
    rw [hget] at hold
    cases hold
  exact ⟨m, holds_setTopic_iff.mpr (Or.inr ⟨ht, hm⟩), rfl, rfl, rfl, le_refl _⟩

theorem createTopic_grows (shaped : lm.registry.Shaped) (target : String) :
    lm.registry.Grows (lm.createTopic target).1.registry := by
  cases hget : lm.registry.registry.get? target with
  | some segs =>
      rw [createTopic_of_some shaped hget]
      exact .refl _
  | none =>
      rw [createTopic_of_none hget]
      exact SegmentRegistry.grows_first hget _

theorem appendTarget_grows (shaped : lm.registry.Shaped) {now : Time} {required : Nat}
    {front : List SegmentMeta} {m : SegmentMeta}
    (htarget : lm.appendTarget now target required = (front, m)) :
    lm.registry.Grows (lm.registry.setTopic target (front ++ [m])) := by
  cases appendCase shaped htarget with
  | first hget => exact SegmentRegistry.grows_first hget _
  | active hget segs stay =>
      rw [SegmentRegistry.setTopic_of_get? hget]
      exact .refl _
  | @rolled front₀ last start hget segs roll =>
      rw [List.append_assoc]
      exact SegmentRegistry.grows_last hget rfl rfl rfl (le_refl _)

theorem writeMessage_grows (lm : LogManager) {front : List SegmentMeta} {m : SegmentMeta}
    {start : Nat} (hget : lm.registry.registry.get? target = some (front ++ [m]))
    (segs : TopicSegments lm.registry.logDir target front m start) (env : CallEnv) (msg : Bytes) :
    lm.registry.Grows (lm.writeMessage env m msg).1.registry := by
  simp only [LogManager.writeMessage]
  split
  · exact .refl _
  · split
    · exact .refl _
    · simp only [SegmentRegistry.advanceOffset_last hget segs]
      exact SegmentRegistry.grows_last hget rfl rfl rfl (Nat.le_add_right _ _)

/-- No operation takes a segment or bytes of one away, however its file operations end. -/
theorem apply_grows (shaped : lm.registry.Shaped) (op : LogOp) :
    lm.registry.Grows (lm.apply op).1.registry := by
  cases op with
  | createTopic target => exact createTopic_grows shaped target
  | append target env data =>
      simp only [LogManager.apply]
      by_cases hlen : data.length < 2 ^ 32
      · obtain ⟨⟨front, m⟩, htarget⟩ : ∃ t, lm.appendTarget env.now target (4 + data.length) = t :=
          ⟨_, rfl⟩
        obtain ⟨⟨start, segs⟩, happ⟩ := append_eq shaped hlen env htarget
        rw [happ]
        exact (appendTarget_grows shaped htarget).trans
          (writeMessage_grows { lm with registry := lm.registry.setTopic target (front ++ [m]) }
            (by simp [SegmentRegistry.setTopic_get?]) segs env (frame data))
      · rw [append_of_long shaped (by omega)]
        exact createTopic_grows shaped target
  | readBytes target env offset size =>
      simp only [LogManager.apply, readBytes_registry]
      exact .refl _
  | read target env offset size =>
      simp only [LogManager.apply, read_registry]
      exact .refl _
  | release handle => exact .refl _
  | cleanup => exact .refl _

end Registry

section Reading
variable {topic : String} {lm : LogManager} {done rest : List Bytes}

theorem frames_isPrefix {ps qs : List Bytes} (h : ps <+: qs) : frames ps <+: frames qs := by
  obtain ⟨more, rfl⟩ := h
  exact ⟨frames more, (frames_append ps more).symm⟩

/-- A segment that is found behind the payloads `done` holds some of the rest. -/
theorem TopicOk.boundary_at (ok : TopicOk topic lm) (h : lm.payloads topic = done ++ rest)
    {m : SegmentMeta} (hseg : lm.registry.getSegment topic ((frames done).length : Int) = .ok m) :
    ∃ c₁ c₂, Boundary lm topic done rest m c₁ c₂ := by
  obtain ⟨segs, hget, hmem⟩ := SegmentRegistry.getSegment_mem hseg
  have hlatest := latestOffset_of_records ok.shaped ok.records hget
  have hfinds := SegmentRegistry.getSegment_finds hget (ok.shaped.offsetsOrdered hget)
    (Int.natCast_nonneg (frames done).length)
  rw [hseg] at hfinds
  obtain ⟨latest, hlatest', hend⟩ := ok.shaped.end_le_latest hget hmem
  rw [LogManager.getLatestOffset, hlatest', Except.ok.injEq] at hlatest
  have hne : rest ≠ [] := by
    rintro rfl
    rw [h, List.append_nil] at hlatest
    have := hfinds.2.1.2
    omega
  obtain ⟨m', c₁, c₂, b⟩ := exists_boundary_of_records ok.shaped ok.records h hne
  obtain rfl : m = m' := Except.ok.inj (hseg.symm.trans b.found)
  exact ⟨c₁, c₂, b⟩

/-- A read that returns from behind the payloads `done` returns some of the next ones. -/
theorem TopicShown.readBytes_next (h : TopicShown topic lm) (hlog : lm.payloads topic = done ++ rest)
    (env : CallEnv) (size : Int) (r : ReadResultBytes)
    (hread : (lm.readBytes env topic (frames done).length size).2 = .ok r) :
    ∃ got, got ≠ [] ∧ got <+: rest ∧ r.data = frames got ∧
      r.nextOffset = (frames (done ++ got)).length := by
  simp only [LogManager.readBytes] at hread
  split at hread
  · cases hread
  · next m hseg =>
      obtain ⟨c₁, c₂, b⟩ := h.ok.boundary_at hlog hseg
      split at hread
      · cases hread
      · next mem disk handle hacq =>
          split at hread
          · cases hread
          · next view hview =>
              obtain ⟨front, -⟩ := h.readFrom hseg hacq hview
              split at hread
              · cases hread
              · cases hread
                refine ⟨firstBatch size c₂, firstBatch_ne_nil size b.nonempty,
                  (firstBatch_isPrefix size c₂).trans b.follows, b.data_of_prefix front size, ?_⟩
                have hsize := b.batchSize_of_prefix front size
                rw [batchSizeAt] at hsize
                simp only [hsize, frames_append, List.length_append, Nat.cast_add]

/-- The slice is that of the next payloads `got`, in the file of a registered segment. -/
structure Promised (topic : String) (lm : LogManager) (done got : List Bytes) (slice : FileSlice)
    (next : Int) : Prop where
  nonempty : got ≠ []
  next_eq : next = (frames (done ++ got)).length
  size_eq : slice.batchSize = (frames got).length
  inside : ∃ m, lm.registry.Holds m ∧ m.topic = topic ∧ slice.filepath = m.path ∧
    m.baseOffset ≤ (frames done).length ∧ slice.offset = (frames done).length - m.baseOffset ∧
    next ≤ m.getEndOffset

theorem Promised.grows {lm' : LogManager} {got : List Bytes} {slice : FileSlice} {next : Int}
    (h : Promised topic lm done got slice next) (grows : lm.registry.Grows lm'.registry) :
    Promised topic lm' done got slice next := by
  obtain ⟨m, hm, ht, hfile, hlo, hoff, hhi⟩ := h.inside
  obtain ⟨m', hm', ht', hpath, hbase, hsize⟩ := grows m hm
  refine ⟨h.nonempty, h.next_eq, h.size_eq, m', hm', ht'.trans ht, hfile.trans hpath.symm, ?_, ?_, ?_⟩
  · rw [hbase]
    exact hlo
  · rw [hbase]
    exact hoff
  · rw [SegmentMeta.getEndOffset, hbase]
    rw [SegmentMeta.getEndOffset] at hhi
    omega

theorem TopicShown.read_next (h : TopicShown topic lm) (hlog : lm.payloads topic = done ++ rest)
    (env : CallEnv) (size : Int) (r : ReadResult)
    (hread : (lm.read env topic (frames done).length size).2 = .ok r) :
    ∃ got, got <+: rest ∧ Promised topic lm done got r.fileSlice r.nextOffset := by
  simp only [LogManager.read] at hread
  split at hread
  · cases hread
  · next m hseg =>
      obtain ⟨c₁, c₂, b⟩ := h.ok.boundary_at hlog hseg
      obtain ⟨segs, hget, hmem⟩ := SegmentRegistry.getSegment_mem hseg
      obtain ⟨hm, ht⟩ := h.ok.shaped.mem_topic hget hmem
      split at hread
      · cases hread
      · next mem disk handle hacq =>
          split at hread
          · cases hread
          · next view hview =>
              obtain ⟨front, -⟩ := h.readFrom hseg hacq hview
              split at hread
              · cases hread
              · cases hread
                have hsize := b.batchSize_of_prefix front size
                rw [batchSizeAt] at hsize
                have hwhole := b.whole.size_eq
                rw [b.chunk, frames_append, List.length_append] at hwhole
                have hoff := b.offset
                have hfits := (frames_isPrefix (firstBatch_isPrefix size c₂)).length_le
                refine ⟨firstBatch size c₂, (firstBatch_isPrefix size c₂).trans b.follows,
                  firstBatch_ne_nil size b.nonempty, ?_, hsize, m, hm, ht, rfl, by omega, rfl, ?_⟩
                · simp only [hsize, frames_append, List.length_append, Nat.cast_add]
                · simp only [hsize, SegmentMeta.getEndOffset]
                  omega

/-- Sending a promised slice sends its payloads, whatever has happened in between. -/
theorem Promised.sendfile {got : List Bytes} {slice : FileSlice} {next : Int}
    (h : Promised topic lm done got slice next) (ok : TopicOk topic lm)
    (hlog : lm.payloads topic = done ++ rest) (hgot : got <+: rest) :
    lm.disk.sendfile slice.filepath slice.offset slice.batchSize = some (frames got) := by
  obtain ⟨m, hm, ht, hfile, hlo, hoff, hhi⟩ := h.inside
  have hpos : 0 < (frames got).length := List.length_pos_iff.mpr (frames_ne_nil h.nonempty)
  have hnext := h.next_eq
  rw [frames_append, List.length_append] at hnext
  obtain ⟨-, hseg⟩ := getSegment_unique ok.shaped hm ht hlo (by omega)
  obtain ⟨c₁, c₂, b⟩ := ok.boundary_at hlog hseg
  have hwhole := b.whole.size_eq
  rw [b.chunk, frames_append, List.length_append] at hwhole
  have hat := b.offset
  rw [SegmentMeta.getEndOffset] at hhi
  -- both are fronts of the rest, and the slice ends inside the segment
  have hfront : frames got <+: frames c₂ :=
    List.prefix_of_prefix_length_le (frames_isPrefix hgot) (frames_isPrefix b.follows) (by omega)
  obtain ⟨junk, hdrop⟩ := b.drop_view (List.take_prefix m.size (lm.disk.content m.path))
  obtain ⟨more, hmore⟩ := hfront
  rw [h.size_eq, hoff, hat, hfile, Disk.sendfile, if_pos (by omega), Int.toNat_natCast,
    Int.toNat_natCast, hdrop, ← hmore, List.append_assoc, List.take_left]

/-- A file that is not empty can be opened whatever is in it. -/
theorem Entry.load_nonempty (e : Entry) (init : Nat) {disk : Disk}
    (h : disk.content e.filepath ≠ []) : (e.load init .succeed disk).2.2 = .ok () := by
  have hlen : (disk.content e.filepath).length ≠ 0 := fun hzero =>
    h (List.length_eq_zero_iff.mp hzero)
  simp only [Entry.load, FileOps.succeed]
  split
  · rfl
  · simp [hlen]

/-- If no file operation fails, the next payloads can be read in either way. -/
theorem TopicShown.reads_succeed (h : TopicShown topic lm)
    (hlog : lm.payloads topic = done ++ rest) (hne : rest ≠ []) {env : CallEnv}
    (hops : env.ops = .succeed) (size : Int) :
    (∃ r, (lm.readBytes env topic (frames done).length size).2 = .ok r) ∧
      ∃ r, (lm.read env topic (frames done).length size).2 = .ok r := by
  obtain ⟨m, c₁, c₂, b⟩ := exists_boundary_of_records h.ok.shaped h.ok.records hlog hne
  obtain ⟨segs, hget, hmem⟩ := SegmentRegistry.getSegment_mem b.found
  obtain ⟨hm, ht⟩ := h.ok.shaped.mem_topic hget hmem
  obtain ⟨latest, hlatest, -⟩ := h.ok.shaped.end_le_latest hget hmem
  obtain ⟨e, he⟩ := h.ok.named.acquired_entry hm
  obtain ⟨-, m', hm', hid, hpath⟩ := acquireLocked_named h.ok.named hm
  obtain rfl := h.ok.eq_of_clash hm hm' ht (Or.inl hid.symm)
  rw [SegmentMemory.paths, List.getElem?_map, he, Option.map_some, Option.some_inj] at hpath
  have hfile : lm.disk.content e.filepath ≠ [] := by
    rw [hpath]
    intro hnil
    have hbytes := b.whole.frames_eq
    rw [b.chunk, frames_append, committed, hnil, List.take_nil] at hbytes
    exact frames_ne_nil b.nonempty (List.append_eq_nil_iff.mp hbytes).2
  obtain ⟨mem, disk, handle, hacq⟩ :
      ∃ mem disk handle, lm.memory.acquire .succeed lm.disk m = (mem, disk, .ok handle) := by
    rw [SegmentMemory.acquire_eq m .succeed lm.disk he, e.load_nonempty _ hfile]
    exact ⟨_, _, _, rfl⟩
  obtain ⟨e', n, hentry, -, hmap, -⟩ := h.acquire_entry hm ht hacq
  have hview : mem.view disk handle = .ok ((disk.content e'.filepath).take n) := by
    simp only [SegmentMemory.view, hentry, Entry.view, hmap]
  simp only [LogManager.readBytes, LogManager.read, b.found, hops, hacq, hview, hlatest]
  exact ⟨⟨_, rfl⟩, _, rfl⟩

end Reading

/-- The follower has the payloads `done`, and the next ones are `rest`. -/
structure FollowOk (topic : String) (s : Follower) (done rest : List Bytes) : Prop where
  shown : TopicShown topic s.log
  payloads : s.log.payloads topic = done ++ rest
  offset : s.offset = (frames done).length
  buffer : s.buffer = frames done
  promised : ∀ slice next, s.slice = some (slice, next) →
    ∃ got, got <+: rest ∧ Promised topic s.log done got slice next

section
variable {topic : String} {s : Follower} {done rest : List Bytes}

/-- What an operation of the log, a reader's call included, leaves of the follower. -/
theorem FollowOk.grow (h : FollowOk topic s done rest) {log : LogManager} {added : List Bytes}
    (shown : TopicShown topic log) (hlog : log.payloads topic = s.log.payloads topic ++ added)
    (grows : s.log.registry.Grows log.registry) :
    FollowOk topic { s with log } done (rest ++ added) where
  shown := shown
  payloads := by rw [← List.append_assoc, ← h.payloads, hlog]
  offset := h.offset
  buffer := h.buffer
  promised := by
    intro slice next hslice
    obtain ⟨got, hgot, promise⟩ := h.promised slice next hslice
    exact ⟨got, hgot.trans (List.prefix_append _ _), promise.grows grows⟩

theorem FollowOk.receive (h : FollowOk topic s done rest) {got : List Bytes} {data : Bytes}
    {next : Int} (hgot : got <+: rest) (hdata : data = frames got)
    (hnext : next = (frames (done ++ got)).length) :
    ∃ left, rest = got ++ left ∧ FollowOk topic (s.receive data next) (done ++ got) left := by
  obtain ⟨left, rfl⟩ := hgot
  refine ⟨left, rfl, h.shown, h.payloads.trans (List.append_assoc _ _ _).symm, hnext, ?_, ?_⟩
  · rw [Follower.receive, h.buffer, hdata, frames_append]
  · rintro slice next' ⟨⟩

theorem FollowOk.copy (h : FollowOk topic s done rest) (env : CallEnv) (size : Int) :
    (∃ err, (s.log.readBytes env topic s.offset size).2 = .error err ∧
        FollowOk topic (s.step topic (.copy env size)).1 done rest) ∨
      ∃ got left, got ≠ [] ∧ rest = got ++ left ∧
        FollowOk topic (s.step topic (.copy env size)).1 (done ++ got) left := by
  obtain ⟨-, hlog⟩ := readBytes_committed h.shown.ok env topic s.offset size
  have grown := h.grow (h.shown.readBytes env topic s.offset size) (hlog.trans (List.append_nil _).symm)
    (by rw [readBytes_registry]; exact .refl _)
  have hnext := h.shown.readBytes_next h.payloads env size
  rw [← h.offset] at hnext
  rw [List.append_nil] at grown
  simp only [Follower.step]
  generalize s.log.readBytes env topic s.offset size = read at grown hnext ⊢
  obtain ⟨log, result⟩ := read
  cases result with
  | error err => exact Or.inl ⟨err, rfl, grown⟩
  | ok r =>
      obtain ⟨got, hne, hgot, hdata, hoffset⟩ := hnext r rfl
      obtain ⟨left, heq, received⟩ := grown.receive hgot hdata hoffset
      exact Or.inr ⟨got, left, hne, heq, received⟩

theorem FollowOk.request (h : FollowOk topic s done rest) (env : CallEnv) (size : Int) :
    (∃ err, (s.log.read env topic s.offset size).2 = .error err ∧
        FollowOk topic (s.step topic (.request env size)).1 done rest) ∨
      ∃ got slice next, got <+: rest ∧ Promised topic (s.step topic (.request env size)).1.log done
          got slice next ∧ (s.step topic (.request env size)).1.slice = some (slice, next) ∧
        FollowOk topic (s.step topic (.request env size)).1 done rest := by
  obtain ⟨-, hlog⟩ := read_committed h.shown.ok env topic s.offset size
  have grows : s.log.registry.Grows (s.log.read env topic s.offset size).1.registry := by
    rw [read_registry]
    exact .refl _
  have grown := h.grow (h.shown.read env topic s.offset size) (hlog.trans (List.append_nil _).symm) grows
  have hnext := h.shown.read_next h.payloads env size
  rw [← h.offset] at hnext
  rw [List.append_nil] at grown
  simp only [Follower.step]
  generalize s.log.read env topic s.offset size = read at grown hnext grows ⊢
  obtain ⟨log, result⟩ := read
  cases result with
  | error err => exact Or.inl ⟨err, rfl, grown⟩
  | ok r =>
      obtain ⟨got, hgot, promise⟩ := hnext r rfl
      refine Or.inr ⟨got, r.fileSlice, r.nextOffset, hgot, promise.grows grows, rfl, grown.shown,
        grown.payloads, grown.offset, grown.buffer, ?_⟩
      rintro slice next ⟨⟩
      exact ⟨got, hgot, promise.grows grows⟩

theorem FollowOk.send (h : FollowOk topic s done rest) {got : List Bytes} {slice : FileSlice}
    {next : Int} (hslice : s.slice = some (slice, next)) (hgot : got <+: rest)
    (promise : Promised topic s.log done got slice next) :
    ∃ left, rest = got ++ left ∧ FollowOk topic (s.step topic .send).1 (done ++ got) left := by
  simp only [Follower.step, hslice, promise.sendfile h.shown.ok h.payloads hgot]
  exact h.receive hgot rfl promise.next_eq

theorem FollowOk.step (h : FollowOk topic s done rest) {op : FollowOp} (clear : op.Clear topic s) :
    ∃ done' rest', FollowOk topic (s.step topic op).1 done' rest' ∧
      done' ++ rest' = done ++ rest ++ (s.step topic op).2 := by
  cases op with
  | log op =>
      obtain ⟨-, hlog⟩ := apply_committed h.shown.ok clear
      exact ⟨done, _, h.grow (apply_shown h.shown clear) hlog (apply_grows h.shown.ok.shaped op),
        (List.append_assoc _ _ _).symm⟩
  | copy env size =>
      have hnone : (s.step topic (.copy env size)).2 = [] := by
        simp only [Follower.step]
        split <;> rfl
      rw [hnone, List.append_nil]
      rcases h.copy env size with ⟨-, -, h'⟩ | ⟨got, left, -, rfl, h'⟩
      · exact ⟨done, rest, h', rfl⟩
      · exact ⟨done ++ got, left, h', List.append_assoc _ _ _⟩
  | request env size =>
      have hnone : (s.step topic (.request env size)).2 = [] := by
        simp only [Follower.step]
        split <;> rfl
      rw [hnone, List.append_nil]
      rcases h.request env size with ⟨-, -, h'⟩ | ⟨-, -, -, -, -, -, h'⟩
      · exact ⟨done, rest, h', rfl⟩
      · exact ⟨done, rest, h', rfl⟩
  | send =>
      cases hslice : s.slice with
      | none =>
          simp only [Follower.step, hslice, List.append_nil]
          exact ⟨done, rest, h, rfl⟩
      | some promised =>
          obtain ⟨slice, next⟩ := promised
          obtain ⟨got, hgot, promise⟩ := h.promised slice next hslice
          obtain ⟨left, rfl, h'⟩ := h.send hslice hgot promise
          have hnone : (s.step topic .send).2 = [] := by
            simp only [Follower.step, hslice]
            split <;> rfl
          rw [hnone, List.append_nil]
          exact ⟨done ++ got, left, h', List.append_assoc _ _ _⟩

theorem FollowOk.run (h : FollowOk topic s done rest) {ops : List FollowOp}
    (clear : MeetsAll (Follower.step topic) (fun s op => op.Clear topic s) s ops) :
    ∃ done' rest', FollowOk topic (run (Follower.step topic) s ops) done' rest' ∧
      done' ++ rest' = done ++ rest ++ (trace (Follower.step topic) s ops).flatMap Prod.snd := by
  induction ops generalizing s done rest with
  | nil => exact ⟨done, rest, h, (List.append_nil _).symm⟩
  | cons op ops ih =>
      obtain ⟨done₁, rest₁, h₁, heq₁⟩ := h.step clear.1
      obtain ⟨done₂, rest₂, h₂, heq₂⟩ := ih h₁ clear.2
      exact ⟨done₂, rest₂, h₂, by rw [heq₂, heq₁, trace, List.flatMap_cons, List.append_assoc]⟩

end

theorem followOk_start (config : LogConfig) (importTime : Time) (disk : Disk) (topic : String) :
    FollowOk topic (Follower.start config importTime disk) [] [] where
  shown := topicShown_start topic config importTime disk
  payloads := by simp [Follower.start, LogManager.start, LogManager.payloads]
  offset := rfl
  buffer := rfl
  promised := by rintro slice next ⟨⟩

/-- Whatever files there are at the start and whichever file operations fail: a consumer
that follows a topic has the first of the payloads appended since, in order and whole. If
some are left and no file operation fails, a copy brings it more of them, and so does a slice. -/
theorem Follower.gets_appended (config : LogConfig) (importTime : Time) (disk : Disk)
    (topic : String) (ops : List FollowOp)
    (clear : MeetsAll (Follower.step topic) (fun s op => op.Clear topic s)
      (Follower.start config importTime disk) ops) :
    let s := run (Follower.step topic) (Follower.start config importTime disk) ops
    let appended := (trace (Follower.step topic) (Follower.start config importTime disk) ops).flatMap
      Prod.snd
    ∃ done rest, appended = done ++ rest ∧ s.buffer = frames done ∧
      s.offset = (frames done).length ∧
      (rest ≠ [] → ∀ env : CallEnv, env.ops = .succeed → ∀ size,
        (∃ got, got ≠ [] ∧ got <+: rest ∧
          (s.step topic (.copy env size)).1.buffer = frames (done ++ got)) ∧
        ∃ got, got ≠ [] ∧ got <+: rest ∧
          ((s.step topic (.request env size)).1.step topic .send).1.buffer =
            frames (done ++ got)) := by
  intro s appended
  obtain ⟨done, rest, h, happended⟩ := (followOk_start config importTime disk topic).run clear
  refine ⟨done, rest, by simpa using happended.symm, h.buffer, h.offset, ?_⟩
  intro hrest env hops size
  obtain ⟨⟨r, hcopy⟩, r', hread⟩ := h.shown.reads_succeed h.payloads hrest hops size
  rw [← h.offset] at hcopy hread
  refine ⟨?_, ?_⟩
  · rcases h.copy env size with ⟨err, herr, -⟩ | ⟨got, left, hne, heq, h'⟩
    · rw [hcopy] at herr
      cases herr
    · exact ⟨got, hne, ⟨left, heq.symm⟩, h'.buffer⟩
  · rcases h.request env size with ⟨err, herr, -⟩ | ⟨got, slice, next, hgot, promise, hslice, h'⟩
    · rw [hread] at herr
      cases herr
    · obtain ⟨left, heq, h''⟩ := h'.send hslice hgot promise
      exact ⟨got, promise.nonempty, ⟨left, heq.symm⟩, h''.buffer⟩

/-- The file of the first segment is there, with bytes that nobody has appended since. -/
def staleDisk : Disk := Disk.store Dict.empty "logs/t/00000000000000000000.log" (List.replicate 40 9)

/-- A copy fails because the file cannot be mapped; a slice is sent after another append. -/
def interruptedFollow : List FollowOp :=
  [.log (.append "t" ⟨0, .succeed⟩ [7]), .log .cleanup,
    .copy ⟨0, { FileOps.succeed with mmap := false }⟩ 100, .copy ⟨0, .succeed⟩ 100,
    .log (.append "t" ⟨0, .succeed⟩ [8]), .request ⟨0, .succeed⟩ 100,
    .log (.append "t" ⟨0, .succeed⟩ [9]), .send]

theorem Follower.gets_appended_stale :
    let s := run (Follower.step "t") (Follower.start ⟨"logs", 0, 1000, 100, 16, 16, 0⟩ 0 staleDisk)
      interruptedFollow
    ∃ done rest, done ++ rest = [[7], [8], [9]] ∧ s.buffer = frames done ∧
      s.offset = (frames done).length := by
  intro s
  have clear : MeetsAll (Follower.step "t") (fun s op => op.Clear "t" s)
      (Follower.start ⟨"logs", 0, 1000, 100, 16, 16, 0⟩ 0 staleDisk) interruptedFollow := by
    decide +kernel
  have happended : (trace (Follower.step "t")
      (Follower.start ⟨"logs", 0, 1000, 100, 16, 16, 0⟩ 0 staleDisk) interruptedFollow).flatMap
        Prod.snd = [[7], [8], [9]] := by decide +kernel
  obtain ⟨done, rest, heq, hbuffer, hoffset, -⟩ := Follower.gets_appended _ _ _ _ _ clear
  exact ⟨done, rest, heq.symm.trans happended, hbuffer, hoffset⟩

end PyLogStream
