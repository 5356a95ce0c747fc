import PyLogStream.Log.Chain
import PyLogStream.Log.Storage

/-!
The invariant of a log manager whose file operations succeed, and the exact
effect of an append. Opening a segment is the only step that can introduce a
clash with another topic; `ClearOf` is the condition that it does not.
-/

namespace PyLogStream
open Lib

/-- Registered segments that share a cache key or a file are the same segment. -/
def KeysApart (r : SegmentRegistry) : Prop :=
  ∀ m m', r.Holds m → r.Holds m' →
    m.getId = m'.getId ∨ resolve m.path = resolve m'.path →
    m.topic = m'.topic ∧ m.baseOffset = m'.baseOffset

/-- No segment of another topic has the key or the file of this one. -/
def ClearOf (r : SegmentRegistry) (topic : String) (base : Int) : Prop :=
  ∀ m, r.Holds m → m.topic ≠ topic →
    m.getId ≠ segmentKey topic base ∧
      resolve m.path ≠ resolve (r.buildSegmentPath topic base)

structure LogOk (lm : LogManager) : Prop where
  shaped : lm.registry.Shaped
  apart : KeysApart lm.registry
  storage : StorageOk lm.registry lm.memory lm.disk
  init_pos : 0 < lm.memory.initSegmentSize

theorem logOk_start (config : LogConfig) (importTime : Time) (h : 0 < config.initSegmentSize) :
    LogOk (LogManager.start config importTime) where
  shaped := by simp [LogManager.start, SegmentRegistry.Shaped]
  apart := by
    rintro m m' ⟨segs, hget, -⟩
    simp [LogManager.start] at hget
  storage := storageOk_new _ _ _ _
  init_pos := h

section Registry
variable {r : SegmentRegistry}

theorem holds_setTopic_iff {topic : String} {segs : List SegmentMeta} {m : SegmentMeta} :
    (r.setTopic topic segs).Holds m ↔
      (m.topic = topic ∧ m ∈ segs) ∨ (m.topic ≠ topic ∧ r.Holds m) := by
  unfold SegmentRegistry.Holds
  by_cases h : m.topic = topic
  · simp [SegmentRegistry.setTopic_get?, h]
  · simp [SegmentRegistry.setTopic_get?, h]

/-- Without key or file clashes a registered segment is determined by either. -/
theorem segmentsApart_of_shaped (apart : KeysApart r) (shaped : r.Shaped) :
    SegmentsApart r := by
  intro m m' hm hm' h
  obtain ⟨htopic, hbase⟩ := apart m m' hm hm' h
  obtain ⟨segs, hget, hmem⟩ := hm
  obtain ⟨segs', hget', hmem'⟩ := hm'
  obtain rfl : segs = segs' := Option.some.inj (hget.symm.trans (htopic ▸ hget'))
  obtain ⟨front, last, start, rfl, hsegs⟩ := shaped _ _ hget
  exact hsegs.bases_increase.eq_of_key hmem hmem' hbase

/-- The registry may change as long as no entry loses its segment and no sealed
segment becomes writable again. -/
theorem StorageOk.changeRegistry {r' : SegmentRegistry} {mem : SegmentMemory} {disk : Disk}
    (ok : StorageOk r mem disk)
    (keep : ∀ m, r.Holds m → ∃ m', r'.Holds m' ∧ m'.getId = m.getId ∧ m'.path = m.path ∧
      (m'.state = .active → m.state = .active)) : StorageOk r' mem disk := by
  constructor
  · intro key i hkey
    obtain ⟨e, m, he, hm, hid, hback⟩ := ok.cached key i hkey
    obtain ⟨m', hm', hid', hpath, hactive⟩ := keep m hm
    exact ⟨e, m', he, hm', hid.trans hid'.symm, hback.path_eq.trans hpath.symm,
      fun h => hback.writable (hactive h), by rw [hpath]; exact hback.mapped⟩
  · intro path hne
    obtain ⟨m, hm, hfile⟩ := ok.stored path hne
    obtain ⟨m', hm', -, hpath, -⟩ := keep m hm
    exact ⟨m', hm', by rw [hpath, hfile]⟩

/-- A file that no registered segment owns is empty. -/
theorem StorageOk.content_of_clear {mem : SegmentMemory} {disk : Disk} {path : String}
    (ok : StorageOk r mem disk) (h : ∀ m, r.Holds m → resolve m.path ≠ resolve path) :
    disk.content path = [] := by
  by_contra hne
  obtain ⟨m, hm, hfile⟩ := ok.stored path hne
  exact h m hm hfile

theorem SegmentAt.getId_eq {logDir topic : String} {base : Nat} {m : SegmentMeta}
    (h : SegmentAt logDir topic base m) : m.getId = segmentKey topic base := by
  rw [SegmentMeta.getId_eq, h.topic_eq, h.base_eq]

/-- Two segments of one topic that share a key or a file have the same base offset. -/
theorem SegmentAt.base_of_clash {logDir topic : String} {a b : Nat} {m m' : SegmentMeta}
    (h : SegmentAt logDir topic a m) (h' : SegmentAt logDir topic b m')
    (clash : m.getId = m'.getId ∨ resolve m.path = resolve m'.path) : a = b := by
  rcases clash with hid | hfile
  · rw [h.getId_eq, h'.getId_eq] at hid
    exact segmentKey_inj hid
  · rw [h.path_eq, h'.path_eq] at hfile
    exact resolve_segmentPath_inj hfile

end Registry

/-- Replace the segment list of one topic. Segments may change state and size,
and segments clear of all other topics may be added. -/
theorem LogOk.setTopic {lm : LogManager} (ok : LogOk lm) {topic : String}
    {front : List SegmentMeta} {last : SegmentMeta} {start : Nat}
    (segs : TopicSegments lm.registry.logDir topic front last start)
    (keep : ∀ m, lm.registry.Holds m → m.topic = topic → ∃ m' ∈ front ++ [last],
      m'.baseOffset = m.baseOffset ∧ (m'.state = .active → m.state = .active))
    (fresh : ∀ m' ∈ front ++ [last],
      (∃ m, lm.registry.Holds m ∧ m.topic = topic ∧ m.baseOffset = m'.baseOffset) ∨
        ClearOf lm.registry topic m'.baseOffset) :
    LogOk { lm with registry := lm.registry.setTopic topic (front ++ [last]) } := by
  have at_of_mem : ∀ m ∈ front ++ [last], ∃ base : Nat,
      SegmentAt lm.registry.logDir topic base m := fun m hm => segs.mem_at hm
  have at_of_holds : ∀ m, lm.registry.Holds m → ∃ base : Nat,
      SegmentAt lm.registry.logDir m.topic base m := by
    rintro m ⟨old, hget, hmem⟩
    obtain ⟨front', last', start', rfl, hold⟩ := ok.shaped _ _ hget
    exact hold.mem_at hmem
  -- a segment of the new list clashes with no segment of another topic
  have clear : ∀ m' ∈ front ++ [last], ∀ m, lm.registry.Holds m → m.topic ≠ topic →
      ¬ (m'.getId = m.getId ∨ resolve m'.path = resolve m.path) := by
    intro m' hm' m hm hne clash
    obtain ⟨base, hat⟩ := at_of_mem m' hm'
    rcases fresh m' hm' with ⟨m₀, hm₀, htopic, hbase⟩ | hclear
    · obtain ⟨base₀, hat₀⟩ := at_of_holds m₀ hm₀
      rw [htopic] at hat₀
      obtain rfl : base₀ = base := by
        have := hat₀.base_eq
        rw [hbase, hat.base_eq] at this
        omega
      rw [hat.getId_eq, ← hat₀.getId_eq, hat.path_eq, ← hat₀.path_eq] at clash
      exact hne ((ok.apart m₀ m hm₀ hm clash).1.symm.trans htopic)
    · obtain ⟨hid, hfile⟩ := hclear m hm hne
      rw [hat.base_eq] at hid hfile
      rw [hat.getId_eq, hat.path_eq] at clash
      exact clash.elim (fun h => hid h.symm) (fun h => hfile h.symm)
  refine ⟨ok.shaped.setTopic segs, ?_, ?_, ok.init_pos⟩
  · intro m m' hm hm' clash
    rcases holds_setTopic_iff.mp hm with ⟨ht, hmem⟩ | ⟨ht, hold⟩ <;>
      rcases holds_setTopic_iff.mp hm' with ⟨ht', hmem'⟩ | ⟨ht', hold'⟩
    · obtain ⟨a, hat⟩ := at_of_mem m hmem
      obtain ⟨b, hat'⟩ := at_of_mem m' hmem'
      obtain rfl := hat.base_of_clash hat' clash
      exact ⟨ht.trans ht'.symm, hat.base_eq.trans hat'.base_eq.symm⟩
    · exact absurd clash (clear m hmem m' hold' ht')
    · exact absurd (clash.imp Eq.symm Eq.symm) (clear m' hmem' m hold ht)
    · exact ok.apart m m' hold hold' clash
  · apply ok.storage.changeRegistry
    intro m hm
    by_cases ht : m.topic = topic
    · obtain ⟨m', hm', hbase, hactive⟩ := keep m hm ht
      obtain ⟨a, hat⟩ := at_of_mem m' hm'
      obtain ⟨b, hat'⟩ := at_of_holds m hm
      rw [ht] at hat'
      obtain rfl : a = b := by
        have := hat.base_eq
        rw [hbase, hat'.base_eq] at this
        omega
      exact ⟨m', holds_setTopic_iff.mpr (Or.inl ⟨hat.topic_eq, hm'⟩),
        hat.getId_eq.trans hat'.getId_eq.symm, hat.path_eq.trans hat'.path_eq.symm, hactive⟩
    · exact ⟨m, holds_setTopic_iff.mpr (Or.inr ⟨ht, hm⟩), rfl, rfl, id⟩

end PyLogStream
