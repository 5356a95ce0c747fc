import Mathlib
import PyLogStream.Log.Operations
import PyLogStream.Log.Offsets

/-!
The records of one topic, however the file operations of the calls end. Whether or
not a call raises, it cuts no file below the bytes in use and writes only behind
them, and it reaches the files of the topic only through the topic's own segments.
So the sequence of payloads grows by one exactly when an append to the topic
returns, as long as no segment of another topic has a key or a file of this one.
-/

namespace PyLogStream
open Lib

/-- The files of the cache entries; no operation changes the file of an entry. -/
def SegmentMemory.paths (mem : SegmentMemory) : List String := mem.entries.map Entry.filepath

/-- A cached entry is for the file of a registered segment with its key. -/
def Named (r : SegmentRegistry) (mem : SegmentMemory) : Prop :=
  ∀ key i, mem.cache.get? key = some i →
    ∃ m, r.Holds m ∧ key = m.getId ∧ mem.paths[i]? = some m.path

/-- No segment of another topic has the key or the file of a segment of this one. -/
def Undisturbed (topic : String) (r : SegmentRegistry) : Prop :=
  ∀ m m', r.Holds m → r.Holds m' → m.topic = topic → m'.topic ≠ topic →
    m.getId ≠ m'.getId ∧ resolve m.path ≠ resolve m'.path

/-- A segment that an operation opens keeps the topic undisturbed. -/
def ClearFor (topic : String) (lm : LogManager) (op : LogOp) : Prop :=
  ∀ seg ∈ lm.opened op, ∀ m, lm.registry.Holds m → m.topic ≠ seg.1 →
    m.topic = topic ∨ seg.1 = topic →
      m.getId ≠ segmentKey seg.1 seg.2 ∧
        resolve m.path ≠ resolve (lm.registry.buildSegmentPath seg.1 seg.2)

theorem clearFor_iff_items {topic : String} {lm : LogManager} {op : LogOp} :
    ClearFor topic lm op ↔ ∀ seg ∈ lm.opened op, ∀ item ∈ lm.registry.registry.items,
      ∀ m ∈ item.2, m.topic = item.1 → m.topic ≠ seg.1 → m.topic = topic ∨ seg.1 = topic →
        m.getId ≠ segmentKey seg.1 seg.2 ∧
          resolve m.path ≠ resolve (lm.registry.buildSegmentPath seg.1 seg.2) := by
  constructor
  · rintro h seg hseg ⟨key, segs⟩ hitem m hm rfl
    exact h seg hseg m ⟨segs, (Dict.get?_eq_some_iff _ _ _).mpr hitem, hm⟩
  · rintro h seg hseg m ⟨segs, hget, hm⟩
    exact h seg hseg (m.topic, segs) ((Dict.get?_eq_some_iff _ _ _).mp hget) m hm rfl

instance (topic : String) (lm : LogManager) (op : LogOp) : Decidable (ClearFor topic lm op) :=
  decidable_of_iff _ clearFor_iff_items.symm

/-- The state of a topic's records. -/
structure TopicOk (topic : String) (lm : LogManager) : Prop where
  shaped : lm.registry.Shaped
  named : Named lm.registry lm.memory
  apart : Undisturbed topic lm.registry
  records : ∀ m, lm.registry.Holds m → m.topic = topic → WholeRecords lm.disk m

theorem topicOk_start (topic : String) (config : LogConfig) (importTime : Time) :
    TopicOk topic (LogManager.start config importTime) := by
  have hnone : ∀ m, ¬ (LogManager.start config importTime).registry.Holds m := by
    rintro m ⟨segs, hget, -⟩
    simp [LogManager.start] at hget
  refine ⟨by simp [LogManager.start, SegmentRegistry.Shaped], ?_, ?_, ?_⟩
  · intro key i hkey
    simp [LogManager.start, SegmentMemory.new] at hkey
  · exact fun m _ hm => absurd hm (hnone m)
  · exact fun m hm => absurd hm (hnone m)

section Memory
variable {r : SegmentRegistry} {mem mem' : SegmentMemory} {disk disk' : Disk}

theorem Named.congr (named : Named r mem) (hcache : mem'.cache = mem.cache)
    (hpaths : mem'.paths = mem.paths) : Named r mem' := by
  intro key i hkey
  rw [hcache] at hkey
  rw [hpaths]
  exact named key i hkey

theorem paths_set {i : Nat} {e e' : Entry} (hi : mem.entries[i]? = some e)
    (h : e'.filepath = e.filepath) :
    SegmentMemory.paths { mem with entries := mem.entries.set i e' } = mem.paths := by
  obtain ⟨hlt, rfl⟩ := List.getElem?_eq_some_iff.mp hi
  simp only [SegmentMemory.paths, List.map_set, h]
  rw [← List.map_set, List.set_getElem_self]

theorem paths_modify (i : Nat) {f : Entry → Entry} (h : ∀ e, (f e).filepath = e.filepath) :
    (mem.entries.modify i f).map Entry.filepath = mem.paths := by
  simp only [SegmentMemory.paths]
  refine List.ext_getElem? fun j => ?_
  simp only [List.getElem?_map, List.getElem?_modify]
  cases mem.entries[j]? with
  | none => rfl
  | some e =>
      simp only [Option.map_eq_map, Option.map_some]
      split
      · rw [h e]
      · rfl

theorem paths_addRef (mem : SegmentMemory) (i : Nat) (delta : Int) : (mem.addRef i delta).paths = mem.paths :=
  paths_modify i fun _ => rfl

theorem Named.cleanupStep (named : Named r mem) : Named r mem.cleanupStep := by
  simp only [SegmentMemory.cleanupStep]
  repeat' split
  · exact named
  · exact named.congr rfl rfl
  · exact named.congr rfl (paths_modify _ fun _ => rfl)
  · exact named

/-- The entry that stands for a segment has the file of a segment with its key. -/
theorem acquireLocked_named (named : Named r mem) {m : SegmentMeta} (hm : r.Holds m) :
    Named r (mem.acquireLocked m).1 ∧ ∃ m', r.Holds m' ∧ m'.getId = m.getId ∧
      (mem.acquireLocked m).1.paths[(mem.acquireLocked m).2]? = some m'.path := by
  have kept : ∀ {i : Nat} {path : String}, mem.paths[i]? = some path →
      (mem.acquireLocked m).1.paths[i]? = some path := by
    intro i path hpath
    simp only [SegmentMemory.paths, List.getElem?_map] at hpath ⊢
    obtain ⟨e, he, rfl⟩ := Option.map_eq_some_iff.mp hpath
    obtain ⟨n, hn⟩ := SegmentMemory.acquireLocked_kept m he
    rw [hn, Option.map_some]
  have own : ∃ m', r.Holds m' ∧ m'.getId = m.getId ∧
      (mem.acquireLocked m).1.paths[(mem.acquireLocked m).2]? = some m'.path := by
    rcases mem.acquireLocked_entry m with hkey | ⟨-, hnew⟩
    · obtain ⟨m', hm', hid, hpath⟩ := named _ _ hkey
      exact ⟨m', hm', hid.symm, kept hpath⟩
    · refine ⟨m, hm, rfl, ?_⟩
      rw [SegmentMemory.paths, List.getElem?_map, hnew]
      rfl
  refine ⟨?_, own⟩
  intro key i hi
  rcases SegmentMemory.acquireLocked_cached m hi with ⟨-, hold⟩ | ⟨rfl, rfl⟩
  · obtain ⟨m', hm', hid, hpath⟩ := named key i hold
    exact ⟨m', hm', hid, kept hpath⟩
  · obtain ⟨m', hm', hid, hpath⟩ := own
    exact ⟨m', hm', hid.symm, hpath⟩

/-- Opening a file changes it only if it is empty. -/
theorem Entry.load_extends (e : Entry) (init : Nat) (ops : FileOps) (disk : Disk) :
    (e.load init ops disk).1.filepath = e.filepath ∧
      ∀ p, disk.content p <+: (e.load init ops disk).2.1.content p := by
  have hfound : ∀ p, disk.content p <+:
      (disk.store e.filepath (disk.content e.filepath)).content p := by
    intro p
    rw [Disk.content_store]
    split
    · next hfile =>
        exact ⟨[], by rw [List.append_nil, disk.content_congr hfile]⟩
    · exact List.prefix_rfl
  have hprepared : ∀ p, disk.content p <+:
      ((disk.store e.filepath (disk.content e.filepath)).store e.filepath
        (preparedFile init (disk.content e.filepath))).content p := by
    intro p
    rw [Disk.content_store]
    split
    · next hfile =>
        rw [disk.content_congr hfile]
        exact isPrefix_preparedFile init List.prefix_rfl
    · exact hfound p
  simp only [Entry.load, prepared_eq_truncate]
  repeat' split
  · exact ⟨rfl, fun _ => List.prefix_rfl⟩
  · exact ⟨rfl, fun _ => List.prefix_rfl⟩
  · exact ⟨rfl, hfound⟩
  · exact ⟨rfl, hprepared⟩
  · exact ⟨rfl, hprepared⟩

theorem acquire_named (named : Named r mem) {m : SegmentMeta} (hm : r.Holds m) (ops : FileOps)
    (disk : Disk) :
    Named r (mem.acquire ops disk m).1 ∧
      (∀ p, disk.content p <+: (mem.acquire ops disk m).2.1.content p) ∧
      ∀ i, (mem.acquire ops disk m).2.2 = .ok i → ∃ m', r.Holds m' ∧ m'.getId = m.getId ∧
        (mem.acquire ops disk m).1.paths[i]? = some m'.path := by
  obtain ⟨named', m', hm', hid, hpath⟩ := acquireLocked_named named hm
  generalize hlocked : mem.acquireLocked m = locked at named' hpath
  obtain ⟨mem', i⟩ := locked
  have hentry : ∃ e, mem'.entries[i]? = some e := by
    simp only [SegmentMemory.paths, List.getElem?_map] at hpath
    obtain ⟨e, he, -⟩ := Option.map_eq_some_iff.mp hpath
    exact ⟨e, he⟩
  obtain ⟨e, he⟩ := hentry
  obtain ⟨hfile, hextends⟩ := e.load_extends mem'.initSegmentSize ops disk
  generalize hloaded : e.load mem'.initSegmentSize ops disk = loaded at hfile hextends
  obtain ⟨e', disk', res⟩ := loaded
  have hset : SegmentMemory.paths { mem' with entries := mem'.entries.set i e' } = mem'.paths :=
    paths_set he hfile
  have hload : mem'.loadEntry ops disk i =
      ({ mem' with entries := mem'.entries.set i e' }, disk', res) := by
    simp only [SegmentMemory.loadEntry, he, hloaded]
  simp only [SegmentMemory.acquire, hlocked, hload]
  cases res with
  | error err => exact ⟨named'.congr rfl hset, hextends, by simp⟩
  | ok _ =>
      refine ⟨named'.congr rfl hset, hextends, ?_⟩
      intro j hj
      cases hj
      exact ⟨m', hm', hid, by rw [hset, hpath]⟩

theorem truncateTo_take {content : Bytes} {offset size : Nat} (hoff : offset ≤ content.length)
    (hsize : offset ≤ size) : (truncateTo content size).take offset = content.take offset := by
  have hlen : offset ≤ (content.take size).length := by
    rw [List.length_take]
    omega
  rw [truncateTo, List.take_append_of_le_length hlen, List.take_take, Nat.min_eq_left hsize]

/-- Growing a file keeps the bytes before the place of the message. -/
theorem Entry.increaseCapacity_keeps (e : Entry) (capacity : Nat) {required offset : Nat} (inc : Nat)
    (ops : FileOps) (disk : Disk) (hreq : offset ≤ required) :
    (e.increaseCapacity capacity required inc ops disk).1.filepath = e.filepath ∧
      (∀ p, resolve p ≠ resolve e.filepath →
        (e.increaseCapacity capacity required inc ops disk).2.1.content p = disk.content p) ∧
      (offset ≤ (disk.content e.filepath).length →
        ((e.increaseCapacity capacity required inc ops disk).2.1.content e.filepath).take offset =
          (disk.content e.filepath).take offset) := by
  have hgrown : ∀ size, offset ≤ size →
      (∀ p, resolve p ≠ resolve e.filepath → (disk.store e.filepath
        (truncateTo (disk.content e.filepath) size)).content p = disk.content p) ∧
      (offset ≤ (disk.content e.filepath).length →
        ((disk.store e.filepath (truncateTo (disk.content e.filepath) size)).content
          e.filepath).take offset = (disk.content e.filepath).take offset) := by
    intro size hsize
    refine ⟨?_, ?_⟩
    · intro p hp
      rw [Disk.content_store, if_neg hp]
    · intro hoff
      rw [Disk.content_store, if_pos rfl, truncateTo_take hoff hsize]
  simp only [Entry.increaseCapacity]
  repeat' split
  · exact ⟨rfl, fun _ _ => rfl, fun _ => rfl⟩
  · exact ⟨rfl, hgrown _ (le_trans hreq (le_max_left _ _))⟩
  · exact ⟨rfl, hgrown _ (le_trans hreq (le_max_left _ _))⟩
  · exact ⟨rfl, fun _ _ => rfl, fun _ => rfl⟩

/-- What a write does to the files, whether or not it returns. -/
structure WriteKeeps (disk disk' : Disk) (path : String) (offset : Nat) (msg : Bytes)
    (res : Except LogError Unit) : Prop where
  others : ∀ p, resolve p ≠ resolve path → disk'.content p = disk.content p
  before : offset ≤ (disk.content path).length →
    (disk.content path).take offset <+: disk'.content path
  message : offset ≤ (disk.content path).length → res = .ok () →
    (disk.content path).take offset ++ msg <+: disk'.content path

theorem Entry.write_keeps (e : Entry) (inc : Nat) (ops : FileOps) (disk : Disk) (offset : Nat)
    (msg : Bytes) :
    (e.write inc ops disk offset msg).1.filepath = e.filepath ∧
      WriteKeeps disk (e.write inc ops disk offset msg).2.1 e.filepath offset msg
        (e.write inc ops disk offset msg).2.2 := by
  have hsame : ∀ err : LogError, e.filepath = e.filepath ∧
      WriteKeeps disk disk e.filepath offset msg (.error err) :=
    fun err => ⟨rfl, fun _ _ => rfl, fun _ => List.take_prefix _ _, by simp⟩
  simp only [Entry.write]
  split
  · next capacity hmap hcap =>
      obtain ⟨hfile, hother, htake⟩ := e.increaseCapacity_keeps capacity inc ops disk
        (Nat.le_add_right offset msg.length)
      generalize e.increaseCapacity capacity (offset + msg.length) inc ops disk = grown
        at hfile hother htake
      obtain ⟨e', disk', res⟩ := grown
      have failed : ∀ err, WriteKeeps disk disk' e.filepath offset msg (.error err) :=
        fun err => ⟨hother, fun hoff => htake hoff ▸ List.take_prefix _ _, by simp⟩
      split
      · exact hsame _
      · cases res with
        | error err => exact ⟨hfile, failed err⟩
        | ok _ =>
            simp only
            split
            · have hcontent : (disk'.store e'.filepath (splice (disk'.content e'.filepath) offset
                  msg)).content e.filepath = splice (disk'.content e.filepath) offset msg := by
                rw [Disk.content_store, hfile, if_pos rfl]
              have hwritten : offset ≤ (disk.content e.filepath).length →
                  (disk.content e.filepath).take offset ++ msg <+:
                    splice (disk'.content e.filepath) offset msg := by
                intro hoff
                rw [splice, htake hoff]
                exact List.prefix_append _ _
              refine ⟨hfile, ?_, ?_, fun hoff _ => by rw [hcontent]; exact hwritten hoff⟩
              · intro p hp
                rw [Disk.content_store, hfile, if_neg hp, hother p hp]
              · intro hoff
                rw [hcontent]
                exact (List.prefix_append _ msg).trans (hwritten hoff)
            · exact ⟨hfile, failed _⟩
  · exact hsame _

/-- Writing through a handle writes to the file of its entry. -/
theorem write_named (named : Named r mem) {i : Nat} {path : String}
    (hpath : mem.paths[i]? = some path) (ops : FileOps) (disk : Disk) (offset : Nat) (msg : Bytes) :
    Named r (mem.write ops disk i offset msg).1 ∧
      WriteKeeps disk (mem.write ops disk i offset msg).2.1 path offset msg
        (mem.write ops disk i offset msg).2.2 := by
  simp only [SegmentMemory.paths, List.getElem?_map] at hpath
  obtain ⟨e, he, rfl⟩ := Option.map_eq_some_iff.mp hpath
  obtain ⟨hfile, keeps⟩ := e.write_keeps mem.segmentSizeInc ops disk offset msg
  simp only [SegmentMemory.write, he]
  exact ⟨named.congr rfl (paths_set he hfile), keeps⟩

end Memory

/-- The payload that an append to a topic has added to another, or the same, one. -/
def addedTo (topic target : String) (data : Bytes) : Except LogError Int → List Bytes
  | .ok _ => if target = topic then [data] else []
  | .error _ => []

/-- What an operation has added to a topic, given its result. -/
def LogOp.committed (topic : String) : LogOp → LogResult → List Bytes
  | .append target _ data, .appended result => addedTo topic target data result
  | _, _ => []

section Manager
variable {lm : LogManager} {topic target : String}

theorem committed_isPrefix_eq {disk : Disk} {m : SegmentMeta} {bytes : Bytes}
    (h : bytes <+: disk.content m.path) (hlen : bytes.length = m.size) :
    committed disk m = bytes ∧ m.size ≤ (disk.content m.path).length := by
  refine ⟨?_, ?_⟩
  · rw [committed, ← hlen]
    exact (List.prefix_iff_eq_take.mp h).symm
  · rw [← hlen]
    exact h.length_le

/-- Files that keep their bytes in use keep the records of the topic. -/
theorem TopicOk.keeps (ok : TopicOk topic lm) {mem : SegmentMemory} {disk : Disk}
    (named : Named lm.registry mem)
    (hfront : ∀ m, lm.registry.Holds m → m.topic = topic →
      committed lm.disk m <+: disk.content m.path) :
    TopicOk topic { lm with memory := mem, disk := disk } ∧
      LogManager.payloads { lm with memory := mem, disk := disk } topic = lm.payloads topic := by
  have hsame : ∀ m, lm.registry.Holds m → m.topic = topic →
      committed disk m = committed lm.disk m ∧ m.size ≤ (disk.content m.path).length :=
    fun m hm ht => committed_isPrefix_eq (hfront m hm ht) (ok.records m hm ht).committed_length
  refine ⟨⟨ok.shaped, named, ok.apart, ?_⟩, ?_⟩
  · intro m hm ht
    obtain ⟨hbytes, hsize⟩ := hsame m hm ht
    have old := ok.records m hm ht
    exact (wholeRecords_of_frames (hbytes.trans old.frames_eq.symm) old.short hsize).1
  · have hcongr : ∀ segs, lm.registry.registry.get? topic = some segs → ∀ m ∈ segs,
        committed disk m = committed lm.disk m := by
      intro segs hget m hm
      obtain ⟨hold, ht⟩ := ok.shaped.mem_topic hget hm
      exact (hsame m hold ht).1
    have hlist : (LogManager.mk lm.policy mem lm.registry disk).registry.registry.get? topic =
        lm.registry.registry.get? topic := rfl
    exact (payloads_congr hlist hcongr).1

/-- The segments of a new list are those listed before, or disturb nobody. -/
structure Renewed (topic : String) (r : SegmentRegistry) (target : String)
    (segs : List SegmentMeta) : Prop where
  kept : ∀ m, r.Holds m → m.topic = target → ∃ m' ∈ segs, m'.getId = m.getId ∧ m'.path = m.path
  topic_eq : ∀ m' ∈ segs, m'.topic = target
  origin : ∀ m' ∈ segs,
    (∃ m, r.Holds m ∧ m.topic = target ∧ m.getId = m'.getId ∧ m.path = m'.path) ∨
      ∀ m, r.Holds m → m.topic ≠ target → m.topic = topic ∨ target = topic →
        m.getId ≠ m'.getId ∧ resolve m.path ≠ resolve m'.path

theorem Named.setTopic {r : SegmentRegistry} {mem : SegmentMemory} {segs : List SegmentMeta}
    (named : Named r mem) (renewed : Renewed topic r target segs) :
    Named (r.setTopic target segs) mem := by
  intro key i hkey
  obtain ⟨m, hm, hid, hpath⟩ := named key i hkey
  by_cases ht : m.topic = target
  · obtain ⟨m', hmem, hid', hpath'⟩ := renewed.kept m hm ht
    exact ⟨m', holds_setTopic_iff.mpr (Or.inl ⟨renewed.topic_eq m' hmem, hmem⟩),
      hid.trans hid'.symm, hpath.trans (congrArg some hpath'.symm)⟩
  · exact ⟨m, holds_setTopic_iff.mpr (Or.inr ⟨ht, hm⟩), hid, hpath⟩

theorem Undisturbed.setTopic {r : SegmentRegistry} {segs : List SegmentMeta}
    (apart : Undisturbed topic r) (renewed : Renewed topic r target segs) :
    Undisturbed topic (r.setTopic target segs) := by
  intro m m' hm hm' ht ht'
  cases holds_setTopic_iff.mp hm with
  | inl hnew =>
      have hold' : r.Holds m' := by
        cases holds_setTopic_iff.mp hm' with
        | inl hnew' => exact absurd (hnew'.1.trans (hnew.1.symm.trans ht)) ht'
        | inr hold' => exact hold'.2
      cases renewed.origin m hnew.2 with
      | inl hsame =>
          obtain ⟨m₀, hm₀, ht₀, hid, hpath⟩ := hsame
          rw [← hid, ← hpath]
          exact apart m₀ m' hm₀ hold' (ht₀.trans (hnew.1.symm.trans ht)) ht'
      | inr hclear =>
          have htarget := hnew.1.symm.trans ht
          have := hclear m' hold' (htarget ▸ ht') (Or.inr htarget)
          exact ⟨this.1.symm, this.2.symm⟩
  | inr hold =>
      cases holds_setTopic_iff.mp hm' with
      | inl hnew' =>
          cases renewed.origin m' hnew'.2 with
          | inl hsame =>
              obtain ⟨m₀, hm₀, ht₀, hid, hpath⟩ := hsame
              rw [← hid, ← hpath]
              exact apart m m₀ hold.2 hm₀ ht (ht₀.trans hnew'.1.symm ▸ ht')
          | inr hclear => exact hclear m hold.2 hold.1 (Or.inl ht)
      | inr hold' => exact apart m m' hold.2 hold'.2 ht ht'

/-- Replace the segments of a topic, be it this one or another. -/
theorem TopicOk.setTopic (ok : TopicOk topic lm) {segs : List SegmentMeta}
    (renewed : Renewed topic lm.registry target segs)
    (shaped : (lm.registry.setTopic target segs).Shaped)
    (records : target = topic → ∀ m ∈ segs, WholeRecords lm.disk m) :
    TopicOk topic { lm with registry := lm.registry.setTopic target segs } := by
  refine ⟨shaped, ok.named.setTopic renewed, ok.apart.setTopic renewed, ?_⟩
  intro m hm ht
  cases holds_setTopic_iff.mp hm with
  | inl hnew => exact records (hnew.1.symm.trans ht) m hnew.2
  | inr hold => exact ok.records m hold.2 ht

theorem payloads_setTopic (lm : LogManager) (segs : List SegmentMeta) :
    LogManager.payloads { lm with registry := lm.registry.setTopic target segs } topic =
      if topic = target then segs.flatMap (segmentPayloads lm.disk) else lm.payloads topic := by
  simp only [LogManager.payloads, SegmentRegistry.setTopic_get?]
  split
  · rfl
  · rfl

section Renew
variable {r : SegmentRegistry} {front : List SegmentMeta} {last m : SegmentMeta}

/-- A segment that is none of another topic's. -/
def Fresh (topic : String) (r : SegmentRegistry) (target : String) (m' : SegmentMeta) : Prop :=
  m'.topic = target ∧ ∀ m, r.Holds m → m.topic ≠ target → m.topic = topic ∨ target = topic →
    m.getId ≠ m'.getId ∧ resolve m.path ≠ resolve m'.path

theorem renewed_first (hget : r.registry.get? target = none) (fresh : Fresh topic r target m) :
    Renewed topic r target ([] ++ [m]) := by
  refine ⟨?_, ?_, ?_⟩
  · rintro m' ⟨segs, hget', -⟩ ht
    rw [ht, hget] at hget'
    cases hget'
  · intro m' hm'
    rw [List.mem_singleton.mp hm']
    exact fresh.1
  · intro m' hm'
    rw [List.mem_singleton.mp hm']
    exact Or.inr fresh.2

/-- The last segment changes its size or its state, and others may follow. -/
theorem renewed_last (shaped : r.Shaped) (hget : r.registry.get? target = some (front ++ [last]))
    (last' : SegmentMeta) (htopic : last'.topic = last.topic) (hid : last'.getId = last.getId)
    (hpath : last'.path = last.path) (news : List SegmentMeta)
    (fresh : ∀ m' ∈ news, Fresh topic r target m') :
    Renewed topic r target ((front ++ [last']) ++ news) := by
  have hlast := shaped.mem_topic hget (List.mem_append_right front List.mem_cons_self)
  refine ⟨?_, ?_, ?_⟩
  · rintro m ⟨segs, hget', hm⟩ ht
    rw [ht, hget] at hget'
    cases hget'
    cases List.mem_append.mp hm with
    | inl hfront => exact ⟨m, by simp [hfront], rfl, rfl⟩
    | inr hm =>
        rw [List.mem_singleton.mp hm]
        exact ⟨last', by simp, hid, hpath⟩
  · intro m' hm'
    cases List.mem_append.mp hm' with
    | inr hnew => exact (fresh m' hnew).1
    | inl hold =>
        cases List.mem_append.mp hold with
        | inl hfront => exact (shaped.mem_topic hget (List.mem_append_left _ hfront)).2
        | inr hm' =>
            rw [List.mem_singleton.mp hm', htopic]
            exact hlast.2
  · intro m' hm'
    cases List.mem_append.mp hm' with
    | inr hnew => exact Or.inr (fresh m' hnew).2
    | inl hold =>
        cases List.mem_append.mp hold with
        | inl hfront =>
            obtain ⟨hm, ht⟩ := shaped.mem_topic hget (List.mem_append_left [last] hfront)
            exact Or.inl ⟨m', hm, ht, rfl, rfl⟩
        | inr hm' =>
            rw [List.mem_singleton.mp hm']
            exact Or.inl ⟨last, hlast.1, hlast.2, hid.symm, hpath.symm⟩

end Renew

/-- The segment an operation opens is fresh. -/
theorem ClearFor.fresh {op : LogOp} (clear : ClearFor topic lm op) (base : Nat)
    (hopen : lm.opened op = some (target, (base : Int))) :
    Fresh topic lm.registry target (lm.registry.newSegment target base) := by
  refine ⟨rfl, ?_⟩
  intro m hm hne htopic
  rw [(lm.registry.newSegment_at target base).getId_eq]
  exact clear _ hopen m hm hne htopic

/-- The segments of an append's target, with the one that the append opens. -/
theorem renewed_target (shaped : lm.registry.Shaped) {env : CallEnv} {data : Bytes}
    (hlen : data.length < 2 ^ 32) (clear : ClearFor topic lm (.append target env data))
    {front : List SegmentMeta} {m : SegmentMeta}
    (htarget : lm.appendTarget env.now target (4 + data.length) = (front, m)) :
    Renewed topic lm.registry target (front ++ [m]) := by
  cases appendCase shaped htarget with
  | first hget =>
      refine renewed_first hget (clear.fresh 0 ?_)
      simp [LogManager.opened, LogManager.opens, hget]
  | active hget segs stay =>
      rw [← List.append_nil (front ++ [m])]
      exact renewed_last shaped hget m rfl rfl rfl [] (by simp)
  | @rolled front₀ last start hget segs roll =>
      refine renewed_last shaped hget { last with state := .sealed } rfl rfl rfl _ ?_
      intro m' hm'
      rw [List.mem_singleton.mp hm']
      refine clear.fresh _ ?_
      simp only [LogManager.opened, LogManager.opens, hget, List.getLast?_concat, roll,
        segs.getEndOffset_last, Bool.and_true, decide_eq_true hlen, if_true, Option.map_some]

/-- An append has its segments registered before it writes; the log is as before. -/
theorem TopicOk.openTarget (ok : TopicOk topic lm) {env : CallEnv} {data : Bytes}
    (hlen : data.length < 2 ^ 32) (clear : ClearFor topic lm (.append target env data))
    {front : List SegmentMeta} {m : SegmentMeta} {start : Nat}
    (htarget : lm.appendTarget env.now target (4 + data.length) = (front, m))
    (segs : TopicSegments lm.registry.logDir target front m start) :
    TopicOk topic { lm with registry := lm.registry.setTopic target (front ++ [m]) } ∧
      LogManager.payloads { lm with registry := lm.registry.setTopic target (front ++ [m]) } topic =
        lm.payloads topic := by
  have hrecords : target = topic →
      (front ++ [m]).flatMap (segmentPayloads lm.disk) = lm.payloads topic ∧
        ∀ m' ∈ front ++ [m], WholeRecords lm.disk m' := by
    rintro rfl
    exact appendTarget_payloads ok.shaped ok.records _ _ htarget
  refine ⟨ok.setTopic (renewed_target ok.shaped hlen clear htarget) (ok.shaped.setTopic segs)
    fun ht => (hrecords ht).2, ?_⟩
  rw [payloads_setTopic]
  split
  · next ht => exact (hrecords ht.symm).1
  · rfl

theorem TopicOk.createTopic (ok : TopicOk topic lm) {op : LogOp}
    (clear : ClearFor topic lm op) (hopen : lm.registry.registry.get? target = none →
      lm.opened op = some (target, 0)) :
    TopicOk topic (lm.createTopic target).1 ∧
      (lm.createTopic target).1.payloads topic = lm.payloads topic := by
  cases hget : lm.registry.registry.get? target with
  | some segs =>
      rw [createTopic_of_some ok.shaped hget]
      exact ⟨ok, rfl⟩
  | none =>
      rw [createTopic_of_none hget]
      have hempty := wholeRecords_empty (m := lm.registry.newSegment target 0) lm.disk rfl
      have fresh := clear.fresh 0 (hopen hget)
      refine ⟨ok.setTopic (renewed_first hget fresh) ?_ ?_, ?_⟩
      · exact ok.shaped.setTopic ⟨rfl, lm.registry.newSegment_at target 0, rfl⟩
      · intro _ m hm
        rw [List.mem_singleton.mp hm]
        exact hempty.1
      · rw [payloads_setTopic]
        split
        · next ht =>
            subst ht
            simp [LogManager.payloads, hget, hempty.2]
        · rfl

/-- A file that only grew from nothing still starts with its bytes in use. -/
theorem committed_front {disk disk' : Disk} (h : ∀ p, disk.content p <+: disk'.content p)
    (m : SegmentMeta) : committed disk m <+: disk'.content m.path :=
  (List.take_prefix _ _).trans (h m.path)

section Write
variable {m m' : SegmentMeta}

/-- Segments of the topic that share a key or a file are one segment. -/
theorem TopicOk.eq_of_clash (ok : TopicOk topic lm) (hm : lm.registry.Holds m)
    (hm' : lm.registry.Holds m') (ht : m.topic = topic)
    (clash : m.getId = m'.getId ∨ resolve m.path = resolve m'.path) : m = m' := by
  have ht' : m'.topic = topic := by
    by_contra hne
    have h := ok.apart m m' hm hm' ht hne
    exact clash.elim h.1 h.2
  obtain ⟨segs, hget, hmem⟩ := hm
  obtain ⟨segs', hget', hmem'⟩ := hm'
  rw [ht'.trans ht.symm, hget] at hget'
  cases hget'
  obtain ⟨front, last, start, rfl, hsegs⟩ := ok.shaped _ _ hget
  obtain ⟨a, hat⟩ := hsegs.mem_at hmem
  obtain ⟨b, hat'⟩ := hsegs.mem_at hmem'
  have hbase : a = b := hat.base_of_clash hat' clash
  exact hsegs.bases_increase.eq_of_key hmem hmem' (by rw [hat.base_eq, hat'.base_eq, hbase])

/-- The entry found for a segment of another topic is none of this topic's. -/
theorem TopicOk.other_file (ok : TopicOk topic lm) (hm : lm.registry.Holds m)
    (hm' : lm.registry.Holds m') (hid : m'.getId = m.getId) (ht : m.topic ≠ topic)
    {m₀ : SegmentMeta} (hm₀ : lm.registry.Holds m₀) (ht₀ : m₀.topic = topic) :
    resolve m₀.path ≠ resolve m'.path := by
  refine (ok.apart m₀ m' hm₀ hm' ht₀ ?_).2
  intro ht'
  exact (ok.apart m' m hm' hm ht' ht).1 hid

/-- A write behind the bytes in use of its segment keeps those of the topic. -/
theorem TopicOk.written (ok : TopicOk topic lm) (hm : lm.registry.Holds m)
    (hm' : lm.registry.Holds m') (hid : m'.getId = m.getId) {disk disk' : Disk}
    (hextends : ∀ p, lm.disk.content p <+: disk.content p) {msg : Bytes}
    {res : Except LogError Unit} (written : WriteKeeps disk disk' m'.path m.size msg res) :
    (∀ m₀, lm.registry.Holds m₀ → m₀.topic = topic →
        committed lm.disk m₀ <+: disk'.content m₀.path) ∧
      (m.topic = topic → res = .ok () → committed lm.disk m ++ msg <+: disk'.content m.path) := by
  by_cases ht : m.topic = topic
  · have heq : m = m' := ok.eq_of_clash hm hm' ht (Or.inl hid.symm)
    subst heq
    have hsize := (ok.records m hm ht).size_le
    have htake : (disk.content m.path).take m.size = committed lm.disk m := by
      obtain ⟨rest, hrest⟩ := hextends m.path
      rw [← hrest, List.take_append_of_le_length hsize, committed]
    have hoff : m.size ≤ (disk.content m.path).length :=
      le_trans hsize (hextends m.path).length_le
    refine ⟨?_, fun _ hres => htake ▸ written.message hoff hres⟩
    intro m₀ hm₀ ht₀
    by_cases hfile : resolve m₀.path = resolve m.path
    · have heq : m₀ = m := ok.eq_of_clash hm₀ hm ht₀ (Or.inr hfile)
      rw [heq, ← htake]
      exact written.before hoff
    · rw [written.others _ hfile]
      exact committed_front hextends m₀
  · refine ⟨?_, fun h => absurd h ht⟩
    intro m₀ hm₀ ht₀
    rw [written.others _ (ok.other_file hm hm' hid ht hm₀ ht₀)]
    exact committed_front hextends m₀

/-- The last segment of a topic grows by a framed payload. -/
theorem TopicOk.advance (ok : TopicOk topic lm) {front : List SegmentMeta} {start : Nat}
    (hget : lm.registry.registry.get? target = some (front ++ [m]))
    (segs : TopicSegments lm.registry.logDir target front m start) {data : Bytes}
    (hlen : data.length < 2 ^ 32) {grown : SegmentMeta}
    (hgrown : grown = { m with size := m.size + (frame data).length })
    (hwritten : target = topic → committed lm.disk m ++ frame data <+: lm.disk.content m.path) :
    TopicOk topic { lm with registry := lm.registry.setTopic target (front ++ [grown]) } ∧
      LogManager.payloads { lm with registry := lm.registry.setTopic target (front ++ [grown]) }
        topic = lm.payloads topic ++ if target = topic then [data] else [] := by
  subst hgrown
  have old : target = topic → ∀ m' ∈ front ++ [m], WholeRecords lm.disk m' := by
    intro ht m' hm'
    obtain ⟨hold, htopic⟩ := ok.shaped.mem_topic hget hm'
    exact ok.records m' hold (htopic.trans ht)
  have added : target = topic →
      WholeRecords lm.disk { m with size := m.size + (frame data).length } ∧
        segmentPayloads lm.disk { m with size := m.size + (frame data).length } =
          segmentPayloads lm.disk m ++ [data] := by
    intro ht
    have whole := old ht m (by simp)
    obtain ⟨hbytes, hsize⟩ := committed_isPrefix_eq
      (m := { m with size := m.size + (frame data).length }) (hwritten ht)
      (by rw [List.length_append, whole.committed_length])
    refine wholeRecords_of_frames ?_ ?_ hsize
    · rw [hbytes, frames_append, whole.frames_eq]
      simp
    · intro p hp
      cases List.mem_append.mp hp with
      | inl hold => exact whole.short p hold
      | inr hnew =>
          rw [List.mem_singleton.mp hnew]
          exact hlen
  refine ⟨ok.setTopic ?_ ?_ ?_, ?_⟩
  · rw [← List.append_nil (front ++ [_])]
    exact renewed_last ok.shaped hget { m with size := m.size + (frame data).length } rfl rfl rfl
      [] (by simp)
  · exact ok.shaped.setTopic ⟨segs.run,
      ⟨segs.at_end.topic_eq, segs.at_end.base_eq, segs.at_end.path_eq⟩, segs.active⟩
  · intro ht m' hm'
    cases List.mem_append.mp hm' with
    | inl hfront => exact old ht m' (List.mem_append_left _ hfront)
    | inr hlast =>
        rw [List.mem_singleton.mp hlast]
        exact (added ht).1
  · rw [payloads_setTopic]
    by_cases ht : target = topic
    · rw [if_pos ht.symm, if_pos ht, LogManager.payloads, ← ht, hget]
      simp only [Option.getD_some, List.flatMap_append, List.flatMap_singleton, (added ht).2,
        List.append_assoc]
    · rw [if_neg (Ne.symm ht), if_neg ht, List.append_nil]

end Write

/-- What a write to the last segment of a topic does to the records of this one. -/
theorem writeMessage_committed (ok : TopicOk topic lm) {front : List SegmentMeta} {m : SegmentMeta}
    {start : Nat} (hget : lm.registry.registry.get? target = some (front ++ [m]))
    (segs : TopicSegments lm.registry.logDir target front m start) (env : CallEnv) {data : Bytes}
    (hlen : data.length < 2 ^ 32) :
    TopicOk topic (lm.writeMessage env m (frame data)).1 ∧
      (lm.writeMessage env m (frame data)).1.payloads topic =
        lm.payloads topic ++ addedTo topic target data (lm.writeMessage env m (frame data)).2 := by
  obtain ⟨hm, ht⟩ := ok.shaped.mem_topic hget (List.mem_append_right front List.mem_cons_self)
  obtain ⟨named, hextends, hentry⟩ := acquire_named ok.named hm env.ops lm.disk
  simp only [LogManager.writeMessage]
  generalize lm.memory.acquire env.ops lm.disk m = acquired at named hextends hentry
  obtain ⟨mem, disk, res⟩ := acquired
  cases res with
  | error err =>
      have h := ok.keeps named fun m _ _ => committed_front hextends m
      exact ⟨h.1, by simp [h.2, addedTo]⟩
  | ok handle =>
      obtain ⟨m', hm', hid, hpath⟩ := hentry handle rfl
      obtain ⟨named', written⟩ := write_named named hpath env.ops disk m.getFileEndOffset (frame data)
      simp only
      generalize mem.write env.ops disk handle m.getFileEndOffset (frame data) = result
        at named' written
      obtain ⟨mem', disk', res⟩ := result
      obtain ⟨hfront, hmessage⟩ := ok.written hm hm' hid hextends written
      have released : Named lm.registry (mem'.releaseEntry handle) :=
        named'.congr rfl (paths_addRef mem' handle (-1))
      have h := ok.keeps released hfront
      cases res with
      | error err => exact ⟨h.1, by simp [h.2, addedTo]⟩
      | ok _ =>
          have hadv := SegmentRegistry.advanceOffset_last hget segs (frame data).length
          have hlast : target = topic → committed disk' m ++ frame data <+: disk'.content m.path := by
            intro htarget
            have hown := ht.trans htarget
            rw [(committed_isPrefix_eq (hfront m hm hown) (ok.records m hm hown).committed_length).1]
            exact hmessage hown rfl
          obtain ⟨ok', hpayloads⟩ := h.1.advance hget segs hlen rfl hlast
          simp only [hadv, addedTo]
          exact ⟨ok', hpayloads.trans (congrArg (· ++ _) h.2)⟩

theorem append_committed (ok : TopicOk topic lm) {env : CallEnv} {data : Bytes}
    (clear : ClearFor topic lm (.append target env data)) :
    TopicOk topic (lm.append env target data).1 ∧
      (lm.append env target data).1.payloads topic =
        lm.payloads topic ++ addedTo topic target data (lm.append env target data).2 := by
  by_cases hlen : data.length < 2 ^ 32
  · obtain ⟨⟨front, m⟩, htarget⟩ : ∃ t, lm.appendTarget env.now target (4 + data.length) = t :=
      ⟨_, rfl⟩
    obtain ⟨⟨start, segs⟩, happ⟩ := append_eq ok.shaped hlen env htarget
    obtain ⟨ok', hpayloads⟩ := ok.openTarget hlen clear htarget segs
    have h := writeMessage_committed ok' (by simp [SegmentRegistry.setTopic_get?]) segs env hlen
    rw [happ]
    exact ⟨h.1, h.2.trans (congrArg (· ++ _) hpayloads)⟩
  · rw [append_of_long ok.shaped (by omega)]
    have hopen : lm.registry.registry.get? target = none →
        lm.opened (.append target env data) = some (target, 0) := by
      intro hget
      simp [LogManager.opened, LogManager.opens, hget]
    have h := ok.createTopic clear hopen
    exact ⟨h.1, by simp [h.2, addedTo]⟩

/-- Reading opens a segment and leaves the records as they are. -/
theorem TopicOk.acquired (ok : TopicOk topic lm) {m : SegmentMeta} {offset : Int}
    (hseg : lm.registry.getSegment target offset = .ok m) (ops : FileOps) {mem : SegmentMemory}
    {disk : Disk} {res : Except LogError Nat}
    (hacq : lm.memory.acquire ops lm.disk m = (mem, disk, res)) :
    TopicOk topic { lm with memory := mem, disk := disk } ∧
      LogManager.payloads { lm with memory := mem, disk := disk } topic = lm.payloads topic := by
  obtain ⟨segs, hget, hmem⟩ := SegmentRegistry.getSegment_mem hseg
  obtain ⟨named, hextends, -⟩ := acquire_named ok.named (ok.shaped.mem_topic hget hmem).1 ops lm.disk
  rw [hacq] at named hextends
  exact ok.keeps named fun m _ _ => committed_front hextends m

theorem TopicOk.released (ok : TopicOk topic lm) (handle : Nat) :
    TopicOk topic (lm.releaseHandle handle) ∧
      (lm.releaseHandle handle).payloads topic = lm.payloads topic :=
  ok.keeps (ok.named.congr rfl (paths_addRef lm.memory handle (-1)))
    fun m _ _ => committed_front (fun _ => List.prefix_rfl) m

theorem readBytes_committed (ok : TopicOk topic lm) (env : CallEnv) (target : String)
    (offset size : Int) :
    TopicOk topic (lm.readBytes env target offset size).1 ∧
      (lm.readBytes env target offset size).1.payloads topic = lm.payloads topic := by
  refine readBytes_leaves
    (P := fun lm' => TopicOk topic lm' ∧ lm'.payloads topic = lm.payloads topic)
    env offset size ⟨ok, rfl⟩ ?_ ?_
  · intro m memory disk err hseg hacq
    exact ok.acquired hseg env.ops hacq
  · intro m memory disk handle hseg hacq
    obtain ⟨ok', hpayloads⟩ := ok.acquired hseg env.ops hacq
    obtain ⟨ok'', hpayloads'⟩ := ok'.released handle
    exact ⟨ok'', hpayloads'.trans hpayloads⟩

theorem read_committed (ok : TopicOk topic lm) (env : CallEnv) (target : String)
    (offset size : Int) :
    TopicOk topic (lm.read env target offset size).1 ∧
      (lm.read env target offset size).1.payloads topic = lm.payloads topic := by
  refine read_leaves
    (P := fun lm' => TopicOk topic lm' ∧ lm'.payloads topic = lm.payloads topic)
    env offset size ⟨ok, rfl⟩ ?_
  intro m memory disk result hseg hacq
  exact ok.acquired hseg env.ops hacq

/-- What any operation does to the records of a topic, however its file operations end. -/
theorem apply_committed (ok : TopicOk topic lm) {op : LogOp} (clear : ClearFor topic lm op) :
    TopicOk topic (lm.apply op).1 ∧
      (lm.apply op).1.payloads topic = lm.payloads topic ++ op.committed topic (lm.apply op).2 := by
  have reads : ∀ {lm' : LogManager}, TopicOk topic lm' ∧ lm'.payloads topic = lm.payloads topic →
      TopicOk topic lm' ∧ lm'.payloads topic = lm.payloads topic ++ [] := by
    intro lm' h
    rwa [List.append_nil]
  cases op with
  | createTopic target =>
      refine reads (ok.createTopic clear ?_)
      intro hget
      simp [LogManager.opened, hget]
  | append target env data => exact append_committed ok clear
  | readBytes target env offset size => exact reads (readBytes_committed ok env target offset size)
  | read target env offset size => exact reads (read_committed ok env target offset size)
  | release handle => exact reads (ok.released handle)
  | cleanup =>
      exact reads (ok.keeps ok.named.cleanupStep
        fun m _ _ => committed_front (fun _ => List.prefix_rfl) m)

end Manager
end PyLogStream
