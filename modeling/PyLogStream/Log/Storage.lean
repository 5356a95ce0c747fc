import PyLogStream.Log.Manager

/-!
What the segment cache guarantees when file operations succeed. The cache is
consistent with the registry and the disk as long as no two registered segments
share a cache key or a file; under that condition acquiring a segment yields a
view of exactly its own file, and writing changes no other file.
-/

namespace PyLogStream
open Lib

/-- The registry lists this segment. -/
def SegmentRegistry.Holds (r : SegmentRegistry) (m : SegmentMeta) : Prop :=
  ∃ segs, r.registry.get? m.topic = some segs ∧ m ∈ segs

/-- No two registered segments share a cache key or a file. -/
def SegmentsApart (r : SegmentRegistry) : Prop :=
  ∀ m m', r.Holds m → r.Holds m' →
    m.getId = m'.getId ∨ resolve m.path = resolve m'.path → m = m'

/-- The entry is one for this segment; if it is loaded, it maps the whole file. -/
structure Backs (disk : Disk) (m : SegmentMeta) (e : Entry) : Prop where
  path_eq : e.filepath = m.path
  writable : m.state = .active → e.isMutable = true
  mapped : ∀ n, e.mmap = some n →
    e.capacity = some n ∧ (disk.content m.path).length = n ∧ n ≠ 0

structure StorageOk (r : SegmentRegistry) (mem : SegmentMemory) (disk : Disk) : Prop where
  cached : ∀ key i, mem.cache.get? key = some i →
    ∃ e m, mem.entries[i]? = some e ∧ r.Holds m ∧ key = m.getId ∧ Backs disk m e
  stored : ∀ path, disk.content path ≠ [] → ∃ m, r.Holds m ∧ resolve m.path = resolve path

theorem storageOk_new (r : SegmentRegistry) (capacity init inc : Nat) :
    StorageOk r (SegmentMemory.new capacity init inc) Dict.empty where
  cached := by simp [SegmentMemory.new]
  stored := by simp [Disk.content]

namespace Disk

theorem content_store (disk : Disk) (path path' : String) (content : Bytes) :
    (disk.store path content).content path' =
      if resolve path' = resolve path then content else disk.content path' := by
  by_cases h : resolve path' = resolve path
  · simp [Disk.content, store, h]
  · simp [Disk.content, store, h, Dict.get?_set_of_ne]

theorem content_congr (disk : Disk) {path path' : String} (h : resolve path' = resolve path) :
    disk.content path' = disk.content path := by
  simp [Disk.content, h]

end Disk

/-- Content of a file once it has been opened: an empty file is extended. -/
def preparedFile (initSegmentSize : Nat) (content : Bytes) : Bytes :=
  if content.length = 0 then zeros initSegmentSize else content

theorem preparedFile_ne_nil {init : Nat} (h : 0 < init) (content : Bytes) :
    (preparedFile init content).length ≠ 0 := by
  unfold preparedFile
  split
  · simpa using Nat.ne_of_gt h
  · assumption

theorem preparedFile_of_ne {init : Nat} {content : Bytes} (h : content ≠ []) :
    preparedFile init content = content := by
  simp [preparedFile, h]

/-- Opening a file keeps the bytes it starts with. -/
theorem isPrefix_preparedFile {bytes content : Bytes} (init : Nat) (h : bytes <+: content) :
    bytes <+: preparedFile init content := by
  simp only [preparedFile]
  split
  · next hnil =>
      rw [List.length_eq_zero_iff.mp hnil, List.prefix_nil] at h
      rw [h]
      exact List.nil_prefix
  · exact h

/-- Content of a file after a message was written into it. -/
def writtenFile (segmentSizeInc : Nat) (content : Bytes) (offset : Nat) (msg : Bytes) : Bytes :=
  let required := offset + msg.length
  let grown :=
    if content.length < required then
      truncateTo content (max required (segmentSizeInc + content.length))
    else content
  splice grown offset msg

theorem truncateTo_length {content : Bytes} {size : Nat} :
    (truncateTo content size).length = size := by
  simp [truncateTo]
  omega

theorem truncateTo_of_le {content : Bytes} {size : Nat} (h : content.length ≤ size) :
    truncateTo content size = content ++ zeros (size - content.length) := by
  simp [truncateTo, List.take_of_length_le h]

/-- Writing right behind the bytes in use keeps them and adds the message. -/
theorem writtenFile_take (inc : Nat) {content : Bytes} {offset : Nat} (msg : Bytes)
    (h : offset ≤ content.length) :
    (writtenFile inc content offset msg).take (offset + msg.length) =
      content.take offset ++ msg := by
  simp only [writtenFile]
  split
  · next hlt =>
      rw [truncateTo_of_le (by omega), splice_take_end (by simp),
        List.take_append_of_le_length h]
  · exact splice_take_end h

theorem writtenFile_length_ge {inc : Nat} {content : Bytes} {offset : Nat} {msg : Bytes} :
    offset + msg.length ≤ (writtenFile inc content offset msg).length := by
  simp only [writtenFile]
  split
  · next hlt =>
      rw [splice_length (by rw [truncateTo_length]; omega), truncateTo_length]
      omega
  · next hge =>
      rw [splice_length (by omega)]
      omega

theorem prepared_eq_truncate (init : Nat) (content : Bytes) :
    (if content.length = 0 then truncateTo content init else content) =
      preparedFile init content := by
  unfold preparedFile
  split
  · next h => simp [List.length_eq_zero_iff.mp h, truncateTo]
  · rfl

/-- Loading leaves the whole file mapped, whether or not the entry was loaded. -/
theorem Entry.load_spec {disk : Disk} {m : SegmentMeta} {e : Entry} {init : Nat}
    (hinit : 0 < init) (back : Backs disk m e) :
    ∃ e' disk', e.load init .succeed disk = (e', disk', .ok ()) ∧
      e'.mmap = some (preparedFile init (disk.content m.path)).length ∧
      Backs disk' m e' ∧
      ∀ p, disk'.content p =
        if resolve p = resolve m.path then preparedFile init (disk.content m.path)
        else disk.content p := by
  cases hmap : e.mmap with
  | some n =>
      obtain ⟨hcap, hlen, hpos⟩ := back.mapped n hmap
      have hprep : preparedFile init (disk.content m.path) = disk.content m.path :=
        preparedFile_of_ne (by
          intro hnil
          rw [hnil] at hlen
          exact hpos hlen.symm)
      refine ⟨e, disk, by simp [Entry.load, hmap], ?_, back, ?_⟩
      · rw [hprep, hlen, hmap]
      · intro p
        rw [hprep]
        split
        · next h => exact disk.content_congr h
        · rfl
  | none =>
      have hpos := preparedFile_ne_nil hinit (disk.content m.path)
      let content := preparedFile init (disk.content m.path)
      let disk' := (disk.store m.path (disk.content m.path)).store m.path content
      have hdisk : ∀ p, disk'.content p =
          if resolve p = resolve m.path then content else disk.content p := by
        intro p
        simp only [disk', Disk.content_store]
        split
        · rfl
        · rfl
      let e' : Entry :=
        { e with
          fileOpen := true
          capacity := some content.length
          mmap := some content.length }
      refine ⟨e', disk', ?_, rfl, ⟨back.path_eq, back.writable, ?_⟩, hdisk⟩
      · simp only [Entry.load, hmap, FileOps.succeed, back.path_eq, prepared_eq_truncate]
        simp [content, disk', e', hpos, back.path_eq]
      · intro n hn
        obtain rfl : content.length = n := by simpa [e'] using hn
        exact ⟨rfl, by rw [hdisk, if_pos rfl], hpos⟩

/-- Writing through a loaded entry of an active segment changes only its file. -/
theorem Entry.write_spec {disk : Disk} {m : SegmentMeta} {e : Entry} (inc offset : Nat)
    (msg : Bytes) (back : Backs disk m e) (active : m.state = .active)
    (hmap : e.mmap = some (disk.content m.path).length) :
    ∃ e' disk', e.write inc .succeed disk offset msg = (e', disk', .ok ()) ∧
      Backs disk' m e' ∧
      ∀ p, disk'.content p =
        if resolve p = resolve m.path then writtenFile inc (disk.content m.path) offset msg
        else disk.content p := by
  obtain ⟨hcap, -, hpos⟩ := back.mapped _ hmap
  have hpath := back.path_eq
  have hmut := back.writable active
  by_cases hlt : (disk.content m.path).length < offset + msg.length
  · let size := max (offset + msg.length) (inc + (disk.content m.path).length)
    let grown := truncateTo (disk.content m.path) size
    let disk' := (disk.store m.path grown).store m.path (splice grown offset msg)
    let e' : Entry := { e with mmap := some size, capacity := some size }
    have hgrown : grown.length = size := truncateTo_length
    have hwritten : writtenFile inc (disk.content m.path) offset msg = splice grown offset msg := by
      simp only [writtenFile, if_pos hlt, grown, size]
    have hdisk : ∀ p, disk'.content p =
        if resolve p = resolve m.path then splice grown offset msg else disk.content p := by
      intro p
      simp only [disk', Disk.content_store]
      split <;> rfl
    refine ⟨e', disk', ?_, ⟨hpath, fun _ => hmut, ?_⟩, by simpa only [hwritten] using hdisk⟩
    · simp only [Entry.write, hmap, hcap, hmut, Entry.increaseCapacity, if_pos hlt,
        FileOps.succeed, hpath]
      simp [e', disk', grown, size, Disk.content_store, hpath, hmut]
    · intro n hn
      obtain rfl : size = n := by simpa [e'] using hn
      refine ⟨rfl, ?_, by omega⟩
      rw [hdisk, if_pos rfl, splice_length (by omega), hgrown]
  · let disk' := disk.store m.path (splice (disk.content m.path) offset msg)
    have hwritten : writtenFile inc (disk.content m.path) offset msg =
        splice (disk.content m.path) offset msg := by
      simp only [writtenFile, if_neg hlt]
    have hdisk : ∀ p, disk'.content p =
        if resolve p = resolve m.path then splice (disk.content m.path) offset msg
        else disk.content p := fun p => Disk.content_store disk m.path p _
    refine ⟨e, disk', ?_, ⟨hpath, fun _ => hmut, ?_⟩, by simpa only [hwritten] using hdisk⟩
    · simp only [Entry.write, hmap, hcap, hmut, Entry.increaseCapacity, if_neg hlt, hpath]
      simp [disk', Nat.not_lt.mp hlt]
    · intro n hn
      obtain rfl : (disk.content m.path).length = n := by simpa [hmap] using hn
      refine ⟨hcap, ?_, hpos⟩
      rw [hdisk, if_pos rfl, splice_length (by omega)]

section Update
variable {r : SegmentRegistry} {mem : SegmentMemory} {disk : Disk}

/-- The entry of a segment may be replaced together with its file. -/
theorem StorageOk.update (ok : StorageOk r mem disk) (apart : SegmentsApart r)
    {m : SegmentMeta} (hm : r.Holds m) {i : Nat} {e e' : Entry} {disk' : Disk}
    (hi : mem.entries[i]? = some e) (hpath : e.filepath = m.path)
    (own : ∀ j, mem.cache.get? m.getId = some j → j = i)
    (back : Backs disk' m e')
    (frame : ∀ p, resolve p ≠ resolve m.path → disk'.content p = disk.content p) :
    StorageOk r { mem with entries := mem.entries.set i e' } disk' := by
  obtain ⟨hlt, -⟩ := List.getElem?_eq_some_iff.mp hi
  constructor
  · intro key j hkey
    obtain ⟨e₀, m₀, he₀, hm₀, hid, hback⟩ := ok.cached key j hkey
    by_cases hj : i = j
    · subst hj
      obtain rfl : e₀ = e := Option.some.inj (he₀.symm.trans hi)
      obtain rfl : m₀ = m :=
        apart m₀ m hm₀ hm (Or.inr (by rw [← hback.path_eq, hpath]))
      exact ⟨e', m₀, by simp [hlt], hm₀, hid, back⟩
    · have hfile : resolve m₀.path ≠ resolve m.path := by
        intro hsame
        obtain rfl := apart m₀ m hm₀ hm (Or.inr hsame)
        exact hj (own j (hid ▸ hkey)).symm
      refine ⟨e₀, m₀, by simpa [List.getElem?_set, hj] using he₀, hm₀, hid,
        hback.path_eq, hback.writable, ?_⟩
      rw [frame _ hfile]
      exact hback.mapped
  · intro path hne
    by_cases hfile : resolve path = resolve m.path
    · exact ⟨m, hm, hfile.symm⟩
    · exact ok.stored path (by rwa [frame path hfile] at hne)

theorem StorageOk.addRef (ok : StorageOk r mem disk) (i : Nat) (delta : Int) :
    StorageOk r (mem.addRef i delta) disk := by
  refine ⟨?_, ok.stored⟩
  intro key j hkey
  obtain ⟨e, m, he, hm, hid, hback⟩ := ok.cached key j hkey
  by_cases hj : i = j
  · subst hj
    exact ⟨{ e with refcount := e.refcount + delta }, m, by simp [SegmentMemory.addRef, he], hm,
      hid, hback.path_eq, hback.writable, hback.mapped⟩
  · exact ⟨e, m, by simpa [SegmentMemory.addRef, List.getElem?_modify, hj] using he, hm, hid,
      hback⟩

/-- Releasing an evicted entry is harmless: an entry that is not loaded claims
nothing about its file. -/
theorem StorageOk.cleanupStep (ok : StorageOk r mem disk) : StorageOk r mem.cleanupStep disk := by
  unfold SegmentMemory.cleanupStep
  split
  · split
    · exact ok
    · exact ⟨ok.cached, ok.stored⟩
  · next i hcleaning =>
      split
      · refine ⟨?_, ok.stored⟩
        intro key j hkey
        obtain ⟨e, m, he, hm, hid, hback⟩ := ok.cached key j hkey
        by_cases hj : i = j
        · subst hj
          exact ⟨e.release, m, by simp [he], hm, hid, hback.path_eq, hback.writable,
            by simp [Entry.release]⟩
        · exact ⟨e, m, by simpa [List.getElem?_modify, hj] using he, hm, hid, hback⟩
      · exact ok

theorem StorageOk.cleanupLocked (ok : StorageOk r mem disk) :
    StorageOk r mem.cleanupLocked disk :=
  ⟨fun key i h => ok.cached key i (Dict.get?_of_drop h), ok.stored⟩

/-- What holding a reference to the entry of a segment gives. -/
structure Referenced (r : SegmentRegistry) (disk : Disk) (m : SegmentMeta)
    (mem : SegmentMemory) (i : Nat) (e : Entry) : Prop where
  storage : StorageOk r mem disk
  entry : mem.entries[i]? = some e
  back : Backs disk m e
  own : ∀ j, mem.cache.get? m.getId = some j → j = i

/-- Evicting other entries does not touch an entry someone refers to. -/
theorem Referenced.cleanupLocked {m : SegmentMeta} {i : Nat} {e : Entry}
    (ref : Referenced r disk m mem i e) : Referenced r disk m mem.cleanupLocked i e :=
  ⟨ref.storage.cleanupLocked, ref.entry, ref.back,
    fun j h => ref.own j (Dict.get?_of_drop h)⟩

theorem Backs.recount {m : SegmentMeta} {e : Entry} (back : Backs disk m e) (n : Int) :
    Backs disk m { e with refcount := n } :=
  ⟨back.path_eq, back.writable, back.mapped⟩

theorem acquireLocked_spec (ok : StorageOk r mem disk) (apart : SegmentsApart r)
    {m : SegmentMeta} (hm : r.Holds m) :
    ∃ e, Referenced r disk m (mem.acquireLocked m).1 (mem.acquireLocked m).2 e := by
  have hcached : ∀ key i, mem.cache.get? key = some i →
      ∃ e m', (mem.acquireLocked m).1.entries[i]? = some e ∧ r.Holds m' ∧ key = m'.getId ∧
        Backs disk m' e := by
    intro key i hkey
    obtain ⟨e, m', he, hm', hid, back⟩ := ok.cached key i hkey
    obtain ⟨n, hn⟩ := SegmentMemory.acquireLocked_kept m he
    exact ⟨_, m', hn, hm', hid, back.recount n⟩
  have hown : ∃ e, (mem.acquireLocked m).1.entries[(mem.acquireLocked m).2]? = some e ∧
      Backs disk m e := by
    rcases mem.acquireLocked_entry m with hkey | ⟨-, hnew⟩
    · obtain ⟨e, m', he, hm', hid, back⟩ := hcached _ _ hkey
      obtain rfl : m = m' := apart m m' hm hm' (Or.inl hid)
      exact ⟨e, he, back⟩
    · exact ⟨_, hnew, rfl, fun h => by simp [Entry.new, SegmentMeta.isMutable, h],
        by simp [Entry.new]⟩
  obtain ⟨e, he, back⟩ := hown
  refine ⟨e, ⟨fun key i hi => ?_, ok.stored⟩, he, back, fun j hj => ?_⟩
  · rcases SegmentMemory.acquireLocked_cached m hi with ⟨-, hold⟩ | ⟨rfl, rfl⟩
    · exact hcached key i hold
    · exact ⟨e, m, he, hm, rfl, back⟩
  · rcases SegmentMemory.acquireLocked_cached m hj with ⟨hne, -⟩ | ⟨-, heq⟩
    · exact absurd rfl hne
    · exact heq

theorem acquireLocked_sizes (mem : SegmentMemory) (m : SegmentMeta) :
    (mem.acquireLocked m).1.initSegmentSize = mem.initSegmentSize ∧
      (mem.acquireLocked m).1.segmentSizeInc = mem.segmentSizeInc := by
  cases hkey : mem.cache.get? m.getId <;>
    simp [SegmentMemory.acquireLocked, hkey, SegmentMemory.cleanupLocked, SegmentMemory.addRef]

/-- Acquiring a registered segment maps its file and touches no other file. -/
theorem acquire_spec (ok : StorageOk r mem disk) (apart : SegmentsApart r)
    (hinit : 0 < mem.initSegmentSize) {m : SegmentMeta} (hm : r.Holds m) :
    ∃ mem' disk' i e, mem.acquire .succeed disk m = (mem', disk', .ok i) ∧
      Referenced r disk' m mem' i e ∧ e.mmap = some (disk'.content m.path).length ∧
      mem'.initSegmentSize = mem.initSegmentSize ∧ mem'.segmentSizeInc = mem.segmentSizeInc ∧
      ∀ p, disk'.content p =
        if resolve p = resolve m.path then
          preparedFile mem.initSegmentSize (disk.content m.path)
        else disk.content p := by
  obtain ⟨e, ref⟩ := acquireLocked_spec ok apart hm
  obtain ⟨hsize, hinc⟩ := acquireLocked_sizes mem m
  obtain ⟨e', disk', hload, hmap, back, hdisk⟩ := Entry.load_spec hinit ref.back
  have hlt := (List.getElem?_eq_some_iff.mp ref.entry).1
  let mem' : SegmentMemory :=
    { (mem.acquireLocked m).1 with
      entries := (mem.acquireLocked m).1.entries.set (mem.acquireLocked m).2 e' }
  refine ⟨mem', disk', (mem.acquireLocked m).2, e', ?_, ⟨?_, ?_, back, ref.own⟩, ?_, hsize, hinc,
    hdisk⟩
  · rw [← hsize] at hload
    simp only [SegmentMemory.acquire, SegmentMemory.loadEntry, ref.entry, hload]
    rfl
  · refine ref.storage.update apart hm ref.entry ref.back.path_eq ref.own back ?_
    intro p hp
    rw [hdisk, if_neg hp]
  · simp [mem', hlt]
  · rw [hmap, hdisk, if_pos rfl]

/-- Writing through the handle of an active segment. -/
theorem write_spec (apart : SegmentsApart r) {m : SegmentMeta} (hm : r.Holds m)
    (active : m.state = .active) {i : Nat} {e : Entry} (ref : Referenced r disk m mem i e)
    (hmap : e.mmap = some (disk.content m.path).length) (offset : Nat) (msg : Bytes) :
    ∃ mem' disk', mem.write .succeed disk i offset msg = (mem', disk', .ok ()) ∧
      StorageOk r mem' disk' ∧
      mem'.initSegmentSize = mem.initSegmentSize ∧ mem'.segmentSizeInc = mem.segmentSizeInc ∧
      ∀ p, disk'.content p =
        if resolve p = resolve m.path then
          writtenFile mem.segmentSizeInc (disk.content m.path) offset msg
        else disk.content p := by
  obtain ⟨e', disk', hwrite, back, hdisk⟩ :=
    Entry.write_spec mem.segmentSizeInc offset msg ref.back active hmap
  refine ⟨{ mem with entries := mem.entries.set i e' }, disk', ?_, ?_, rfl, rfl, hdisk⟩
  · simp only [SegmentMemory.write, ref.entry, hwrite]
  · refine ref.storage.update apart hm ref.entry ref.back.path_eq ref.own back ?_
    intro p hp
    rw [hdisk, if_neg hp]

end Update
end PyLogStream
