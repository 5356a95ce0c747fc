import PyLogStream.Log.Append

/-!
What a read returns. The registry chooses the segment, the prepared file of that
segment decides the batch, and nothing changes but the cache and the creation of
an empty file; so a read of one topic looks at no other topic.
-/

namespace PyLogStream
open Lib

/-- The state after the file of a registered segment was opened. -/
structure Opened (lm lm' : LogManager) (m : SegmentMeta) : Prop where
  ok : LogOk lm'
  settings : SameSettings lm lm'
  registry : lm'.registry = lm.registry
  content : ∀ p, lm'.disk.content p =
    if resolve p = resolve m.path then
      preparedFile lm.memory.initSegmentSize (lm.disk.content m.path)
    else lm.disk.content p

/-- The number of bytes a read at `offset` takes from the segment `m`. -/
def batchSizeAt (view : Bytes) (m : SegmentMeta) (offset size : Int) : Int :=
  LogManager.calcReadSize view (offset - m.baseOffset)
    (min size ((m.size : Int) - (offset - m.baseOffset)))

/-- The bytes the segment `m` shows once its file is open. -/
def LogManager.segmentView (lm : LogManager) (m : SegmentMeta) : Bytes :=
  preparedFile lm.memory.initSegmentSize (lm.disk.content m.path)

section
variable {r : SegmentRegistry} {topic : String} {offset : Int} {m : SegmentMeta}

/-- The segment found for an offset is one the registry lists under the topic. -/
theorem SegmentRegistry.getSegment_mem (h : r.getSegment topic offset = .ok m) :
    ∃ segs, r.registry.get? topic = some segs ∧ m ∈ segs := by
  unfold getSegment at h
  split at h
  · cases h
  · next segs hget =>
      refine ⟨segs, hget, ?_⟩
      split at h
      · cases h
      · next previous hlast =>
          split at h
          · cases h
          · split at h
            · cases h
              exact List.mem_of_getLast? hlast
            · simp only at h
              split at h
              · cases h
              · split at h
                · cases h
                · next m' hm' =>
                    split at h
                    · cases h
                    · cases h
                      exact List.mem_of_getElem? hm'

theorem LogOk.holds_of_getSegment {lm : LogManager} (ok : LogOk lm)
    (h : lm.registry.getSegment topic offset = .ok m) :
    lm.registry.Holds m ∧ m.topic = topic := by
  obtain ⟨segs, hget, hmem⟩ := SegmentRegistry.getSegment_mem h
  obtain ⟨front, last, start, rfl, hsegs⟩ := ok.shaped _ _ hget
  obtain ⟨base, hat⟩ := hsegs.mem_at hmem
  exact ⟨⟨_, hat.topic_eq ▸ hget, hmem⟩, hat.topic_eq⟩

theorem LogOk.latest_of_getSegment {lm : LogManager} (ok : LogOk lm)
    (h : lm.registry.getSegment topic offset = .ok m) :
    ∃ n : Nat, lm.registry.getLatestOffset topic = .ok (n : Int) := by
  obtain ⟨segs, hget, -⟩ := SegmentRegistry.getSegment_mem h
  obtain ⟨front, last, start, rfl, hsegs⟩ := ok.shaped _ _ hget
  exact ⟨_, SegmentRegistry.getLatestOffset_active hget hsegs⟩

end

section
variable {lm : LogManager} {env : CallEnv} {topic : String} {offset : Int} {m : SegmentMeta}

/-- Opening the file of a registered segment and looking at its bytes. -/
theorem acquire_view_spec (ok : LogOk lm) (hops : env.ops = .succeed)
    (hm : lm.registry.Holds m) :
    ∃ mem disk i, lm.memory.acquire env.ops lm.disk m = (mem, disk, .ok i) ∧
      mem.view disk i = .ok (lm.segmentView m) ∧
      Opened lm { lm with memory := mem, disk := disk } m ∧
      Opened lm { lm with memory := mem.releaseEntry i, disk := disk } m := by
  obtain ⟨mem, disk, i, e, hacq, ref, hmap, hinit, hinc, hdisk⟩ :=
    acquire_spec ok.storage ok.segmentsApart ok.init_pos hm
  refine ⟨mem, disk, i, by rw [hops, hacq], ?_, ?_, ?_⟩
  · simp only [SegmentMemory.view, ref.entry, Entry.view, hmap, ref.back.path_eq,
      List.take_length, LogManager.segmentView]
    rw [hdisk, if_pos rfl]
  · exact ⟨ok.replaceStorage ref.storage hinit, ⟨rfl, hinit, hinc, rfl, rfl⟩, rfl, hdisk⟩
  · exact ⟨ok.replaceStorage (ref.storage.addRef i (-1)) hinit, ⟨rfl, hinit, hinc, rfl, rfl⟩, rfl,
      hdisk⟩

theorem readBytes_spec (ok : LogOk lm) (hops : env.ops = .succeed) (size : Int)
    (hseg : lm.registry.getSegment topic offset = .ok m) :
    ∃ lm' latest, lm.registry.getLatestOffset topic = .ok latest ∧
      lm.readBytes env topic offset size = (lm', .ok
        ⟨readView (lm.segmentView m) (offset - m.baseOffset)
            (batchSizeAt (lm.segmentView m) m offset size),
          offset + batchSizeAt (lm.segmentView m) m offset size, latest⟩) ∧
      Opened lm lm' m := by
  obtain ⟨hm, -⟩ := ok.holds_of_getSegment hseg
  obtain ⟨latest, hlatest⟩ := ok.latest_of_getSegment hseg
  obtain ⟨mem, disk, i, hacq, hview, -, opened⟩ := acquire_view_spec ok hops hm
  refine ⟨_, latest, hlatest, ?_, opened⟩
  simp only [LogManager.readBytes, hseg, hacq, hview, hlatest, batchSizeAt]

theorem read_spec (ok : LogOk lm) (hops : env.ops = .succeed) (size : Int)
    (hseg : lm.registry.getSegment topic offset = .ok m) :
    ∃ lm' latest handle, lm.registry.getLatestOffset topic = .ok latest ∧
      lm.read env topic offset size = (lm', .ok
        ⟨offset + batchSizeAt (lm.segmentView m) m offset size, latest,
          ⟨m.path, offset - m.baseOffset, batchSizeAt (lm.segmentView m) m offset size⟩,
          handle⟩) ∧
      Opened lm lm' m := by
  obtain ⟨hm, -⟩ := ok.holds_of_getSegment hseg
  obtain ⟨latest, hlatest⟩ := ok.latest_of_getSegment hseg
  obtain ⟨mem, disk, i, hacq, hview, opened, -⟩ := acquire_view_spec ok hops hm
  refine ⟨_, latest, i, hlatest, ?_, opened⟩
  simp only [LogManager.read, hseg, hacq, hview, hlatest, batchSizeAt, SegmentMeta.getFilepath]

/-- Creating a topic registers an empty first segment, unless the topic exists. -/
theorem createTopic_of_none (hget : lm.registry.registry.get? topic = none) :
    lm.createTopic topic = ({ lm with
      registry := lm.registry.setTopic topic ([] ++ [lm.registry.newSegment topic 0]) },
      .ok ()) := by
  simp [LogManager.createTopic, SegmentRegistry.getSegment, SegmentRegistry.createSegment, hget]

theorem createTopic_of_some (shaped : lm.registry.Shaped) {segs : List SegmentMeta}
    (hget : lm.registry.registry.get? topic = some segs) :
    lm.createTopic topic = (lm, .ok ()) := by
  obtain ⟨front, last, start, rfl, hsegs⟩ := shaped _ _ hget
  simp [LogManager.createTopic, SegmentRegistry.getSegment_latest hget hsegs]

/-- A payload too long for its length prefix is refused after the topic was opened. -/
theorem append_of_long (shaped : lm.registry.Shaped) {data : Bytes}
    (hlen : 2 ^ 32 ≤ data.length) :
    lm.append env topic data = ((lm.createTopic topic).1, .error .overflowError) := by
  cases hget : lm.registry.registry.get? topic with
  | none =>
      simp only [LogManager.append, LogManager.writeSegment, LogManager.createTopic,
        SegmentRegistry.getSegment, SegmentRegistry.createSegment, hget, if_pos hlen]
  | some segs =>
      obtain ⟨front, last, start, rfl, hsegs⟩ := shaped _ _ hget
      simp only [LogManager.append, LogManager.writeSegment, LogManager.createTopic,
        SegmentRegistry.getSegment_latest hget hsegs, if_pos hlen]

theorem LogOk.releaseHandle (ok : LogOk lm) (handle : Nat) : LogOk (lm.releaseHandle handle) :=
  ok.replaceStorage (ok.storage.addRef handle (-1)) rfl

theorem LogOk.cleanupStep (ok : LogOk lm) : LogOk lm.cleanupStep := by
  refine ok.replaceStorage ok.storage.cleanupStep ?_
  unfold SegmentMemory.cleanupStep
  split
  · split <;> rfl
  · split <;> rfl

end
end PyLogStream
