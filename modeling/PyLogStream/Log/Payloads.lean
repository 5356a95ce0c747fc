import PyLogStream.Log.Records
import PyLogStream.Protocol.Records

/-!
The log of a topic as the sequence of its payloads. Each segment holds whole
framed payloads from the start of its file. Under this reading an append adds one
payload at the end, a read at a record boundary returns a batch of the payloads
that follow, and nothing else changes the sequence.
-/

namespace PyLogStream
open Lib

/-- The committed bytes of a segment. -/
def committed (disk : Disk) (m : SegmentMeta) : Bytes := (disk.content m.path).take m.size

def segmentPayloads (disk : Disk) (m : SegmentMeta) : List Bytes :=
  parseRecords (committed disk m)

/-- The committed part of a segment's file consists of whole framed payloads. -/
structure WholeRecords (disk : Disk) (m : SegmentMeta) : Prop where
  frames_eq : frames (segmentPayloads disk m) = committed disk m
  short : ∀ p ∈ segmentPayloads disk m, p.length < 2 ^ 32
  size_le : m.size ≤ (disk.content m.path).length

namespace LogManager

/-- The committed bytes of a topic, segment after segment. -/
def logBytes (lm : LogManager) (topic : String) : Bytes :=
  ((lm.registry.registry.get? topic).getD []).flatMap (committed lm.disk)

/-- The payloads of a topic in log order. -/
def payloads (lm : LogManager) (topic : String) : List Bytes :=
  ((lm.registry.registry.get? topic).getD []).flatMap (segmentPayloads lm.disk)

end LogManager

/-- Every registered segment consists of whole records. -/
def RecordsOk (lm : LogManager) : Prop := ∀ m, lm.registry.Holds m → WholeRecords lm.disk m

section Segment
variable {disk disk' : Disk} {m m' : SegmentMeta}

theorem wholeRecords_of_frames {ps : List Bytes} (h : committed disk m = frames ps)
    (short : ∀ p ∈ ps, p.length < 2 ^ 32) (size_le : m.size ≤ (disk.content m.path).length) :
    WholeRecords disk m ∧ segmentPayloads disk m = ps := by
  have hps : segmentPayloads disk m = ps := by rw [segmentPayloads, h, parseRecords_frames short]
  exact ⟨⟨by rw [hps, h], by rwa [hps], size_le⟩, hps⟩

theorem WholeRecords.committed_length (h : WholeRecords disk m) :
    (committed disk m).length = m.size := by
  simp [committed, Nat.min_eq_left h.size_le]

theorem WholeRecords.size_eq (h : WholeRecords disk m) :
    m.size = (frames (segmentPayloads disk m)).length := by
  rw [h.frames_eq, h.committed_length]

/-- Only the path, the size and the committed bytes matter. -/
theorem WholeRecords.of_committed (h : WholeRecords disk m) (hsize : m'.size = m.size)
    (hbytes : committed disk' m' = committed disk m)
    (hlen : (disk.content m.path).length ≤ (disk'.content m'.path).length) :
    WholeRecords disk' m' ∧ segmentPayloads disk' m' = segmentPayloads disk m := by
  apply wholeRecords_of_frames (hbytes.trans h.frames_eq.symm) h.short
  have := h.size_le
  omega

theorem committed_prepared (init : Nat) (h : disk'.content m.path =
    preparedFile init (disk.content m.path)) (size_le : m.size ≤ (disk.content m.path).length) :
    committed disk' m = committed disk m ∧
      (disk.content m.path).length ≤ (disk'.content m.path).length := by
  unfold committed
  rw [h]
  unfold preparedFile
  split
  · next hnil =>
      obtain hzero : m.size = 0 := by omega
      simp [hzero, hnil]
  · exact ⟨rfl, le_refl _⟩

/-- Writing a framed payload behind the committed bytes adds this payload. -/
theorem wholeRecords_written {init inc : Nat} {data : Bytes} (h : WholeRecords disk m)
    (hlen : data.length < 2 ^ 32)
    (hdisk : disk'.content m.path =
      writtenFile inc (preparedFile init (disk.content m.path)) m.size (frame data)) :
    let grown := { m with size := m.size + (frame data).length }
    WholeRecords disk' grown ∧
      segmentPayloads disk' grown = segmentPayloads disk m ++ [data] := by
  have hprep : m.size ≤ (preparedFile init (disk.content m.path)).length ∧
      (preparedFile init (disk.content m.path)).take m.size = committed disk m := by
    have hstored : (disk.store m.path (preparedFile init (disk.content m.path))).content m.path =
        preparedFile init (disk.content m.path) := by simp [Disk.content_store]
    obtain ⟨heq, hle⟩ := committed_prepared init hstored h.size_le
    simp only [committed, Disk.content_store, if_true] at heq hle
    exact ⟨le_trans h.size_le hle, heq⟩
  apply wholeRecords_of_frames
  · simp only [committed]
    rw [hdisk, writtenFile_take _ _ hprep.1, hprep.2, ← h.frames_eq]
    simp
  · intro p hp
    rcases List.mem_append.mp hp with hold | hnew
    · exact h.short p hold
    · rw [List.mem_singleton.mp hnew]
      exact hlen
  · simp only
    rw [hdisk]
    exact writtenFile_length_ge

theorem wholeRecords_empty (disk : Disk) (h : m.size = 0) :
    WholeRecords disk m ∧ segmentPayloads disk m = [] :=
  wholeRecords_of_frames (by simp [committed, h]) (by simp) (by omega)

end Segment

section Manager
variable {lm lm' : LogManager} {topic : String}

theorem holds_of_get? {r : SegmentRegistry} {segs : List SegmentMeta} {m : SegmentMeta}
    (hget : r.registry.get? topic = some segs) (hm : m ∈ segs) (ht : m.topic = topic) :
    r.Holds m := ⟨segs, ht ▸ hget, hm⟩

theorem SegmentRegistry.Shaped.mem_topic {r : SegmentRegistry} (shaped : r.Shaped)
    {segs : List SegmentMeta} {m : SegmentMeta} (hget : r.registry.get? topic = some segs)
    (hm : m ∈ segs) : r.Holds m ∧ m.topic = topic := by
  obtain ⟨front, last, start, rfl, hsegs⟩ := shaped _ _ hget
  obtain ⟨base, hat⟩ := hsegs.mem_at hm
  exact ⟨holds_of_get? hget hm hat.topic_eq, hat.topic_eq⟩

theorem LogOk.mem_topic (ok : LogOk lm) {segs : List SegmentMeta} {m : SegmentMeta}
    (hget : lm.registry.registry.get? topic = some segs) (hm : m ∈ segs) :
    lm.registry.Holds m ∧ m.topic = topic :=
  ok.shaped.mem_topic hget hm

/-- A topic whose segments and committed bytes stay has the same payloads. -/
theorem payloads_congr (hget : lm'.registry.registry.get? topic = lm.registry.registry.get? topic)
    (h : ∀ segs, lm.registry.registry.get? topic = some segs → ∀ m ∈ segs,
      committed lm'.disk m = committed lm.disk m) :
    lm'.payloads topic = lm.payloads topic ∧ lm'.logBytes topic = lm.logBytes topic := by
  unfold LogManager.payloads LogManager.logBytes
  rw [hget]
  cases hsegs : lm.registry.registry.get? topic with
  | none => exact ⟨rfl, rfl⟩
  | some segs =>
      refine ⟨?_, ?_⟩
      · apply List.flatMap_congr
        intro m hm
        rw [segmentPayloads, segmentPayloads, h segs hsegs m hm]
      · apply List.flatMap_congr
        exact h segs hsegs

/-- Opening a file leaves every log as it is. -/
theorem Opened.payloads {m : SegmentMeta} (opened : Opened lm lm' m) (recs : RecordsOk lm)
    (ok : LogOk lm) : RecordsOk lm' ∧ ∀ topic, lm'.payloads topic = lm.payloads topic ∧
      lm'.logBytes topic = lm.logBytes topic := by
  have key : ∀ m', lm.registry.Holds m' → committed lm'.disk m' = committed lm.disk m' ∧
      (lm.disk.content m'.path).length ≤ (lm'.disk.content m'.path).length := by
    intro m' hm'
    have hcontent := opened.content m'.path
    split at hcontent
    · next heq =>
        rw [← lm.disk.content_congr heq] at hcontent
        exact committed_prepared _ hcontent (recs m' hm').size_le
    · exact ⟨by rw [committed, hcontent, committed], by rw [hcontent]⟩
  refine ⟨?_, ?_⟩
  · intro m' hm'
    rw [opened.registry] at hm'
    exact ((recs m' hm').of_committed rfl (key m' hm').1 (key m' hm').2).1
  · intro topic
    apply payloads_congr (by rw [opened.registry])
    intro segs hget m' hm'
    exact (key m' (ok.mem_topic hget hm').1).1

/-- The segments an append starts from hold the payloads of the topic. -/
theorem appendTarget_payloads (shaped : lm.registry.Shaped)
    (recs : ∀ m, lm.registry.Holds m → m.topic = topic → WholeRecords lm.disk m)
    (now : Time) (required : Nat) {front : List SegmentMeta} {m : SegmentMeta}
    (h : lm.appendTarget now topic required = (front, m)) :
    (front ++ [m]).flatMap (segmentPayloads lm.disk) = lm.payloads topic ∧
      ∀ m' ∈ front ++ [m], WholeRecords lm.disk m' := by
  have hnew : ∀ base, WholeRecords lm.disk (lm.registry.newSegment topic base) ∧
      segmentPayloads lm.disk (lm.registry.newSegment topic base) = [] :=
    fun base => wholeRecords_empty lm.disk rfl
  cases appendCase shaped h with
  | first hget => simp [LogManager.payloads, hget, hnew]
  | active hget segs stay =>
      refine ⟨by simp [LogManager.payloads, hget], ?_⟩
      intro m' hm'
      obtain ⟨hold, ht⟩ := shaped.mem_topic hget hm'
      exact recs m' hold ht
  | @rolled front₀ last start hget segs roll =>
      have old : ∀ m' ∈ front₀ ++ [last], WholeRecords lm.disk m' := by
        intro m' hm'
        obtain ⟨hold, ht⟩ := shaped.mem_topic hget hm'
        exact recs m' hold ht
      have hseal : WholeRecords lm.disk { last with state := .sealed } ∧
          segmentPayloads lm.disk { last with state := .sealed } =
            segmentPayloads lm.disk last :=
        (old last (by simp)).of_committed rfl rfl (le_refl _)
      refine ⟨by simp [LogManager.payloads, hget, hnew, hseal.2], ?_⟩
      intro m' hm'
      simp only [List.append_assoc, List.mem_append, List.mem_cons, List.not_mem_nil,
        or_false] at hm'
      rcases hm' with hfront | rfl | rfl
      · exact old m' (List.mem_append_left _ hfront)
      · exact hseal.1
      · exact (hnew _).1

/-- Writing leaves the files of all other registered segments alone. -/
theorem Written.content_of_ne {front : List SegmentMeta} {m : SegmentMeta} {start : Nat}
    {msg : Bytes} (written : Written lm lm' topic front m msg)
    (segs : TopicSegments lm.registry.logDir topic front m start) {m' : SegmentMeta}
    (hm' : lm'.registry.Holds m') (hne : m' ≠ { m with size := m.size + msg.length }) :
    lm'.disk.content m'.path = lm.disk.content m'.path := by
  have hgrown : lm'.registry.Holds { m with size := m.size + msg.length } := by
    rw [written.registry, holds_setTopic_iff]
    exact Or.inl ⟨segs.at_end.topic_eq, by simp⟩
  rw [written.content, if_neg]
  intro hfile
  exact hne (written.ok.segmentsApart m' _ hm' hgrown (Or.inr hfile))

theorem Written.content_of_other {front : List SegmentMeta} {m : SegmentMeta} {start : Nat}
    {msg : Bytes} (written : Written lm lm' topic front m msg)
    (segs : TopicSegments lm.registry.logDir topic front m start) {m' : SegmentMeta}
    (hm' : lm.registry.Holds m') (hne : m'.topic ≠ topic) :
    lm'.disk.content m'.path = lm.disk.content m'.path := by
  apply written.content_of_ne segs
  · rw [written.registry, holds_setTopic_iff]
    exact Or.inr ⟨hne, hm'⟩
  · intro heq
    exact hne (heq ▸ segs.at_end.topic_eq)

/-- A written record is the last payload of its topic; other topics keep theirs. -/
theorem Written.payloads {front : List SegmentMeta} {m : SegmentMeta} {start : Nat}
    {data : Bytes} (written : Written lm lm' topic front m (frame data)) (recs : RecordsOk lm)
    (ok : LogOk lm) (hlen : data.length < 2 ^ 32)
    (segs : TopicSegments lm.registry.logDir topic front m start)
    (target : (front ++ [m]).flatMap (segmentPayloads lm.disk) = lm.payloads topic ∧
      ∀ m' ∈ front ++ [m], WholeRecords lm.disk m') :
    RecordsOk lm' ∧ lm'.payloads topic = lm.payloads topic ++ [data] ∧
      ∀ other, other ≠ topic → lm'.payloads other = lm.payloads other ∧
        lm'.logBytes other = lm.logBytes other := by
  let grown := { m with size := m.size + (frame data).length }
  have hown : lm'.disk.content m.path = writtenFile lm.memory.segmentSizeInc
      (preparedFile lm.memory.initSegmentSize (lm.disk.content m.path)) m.size (frame data) := by
    rw [written.content, if_pos rfl]
  obtain ⟨hgrown, hadd⟩ := wholeRecords_written (target.2 m (by simp)) hlen hown
  have hfront : ∀ m' ∈ front, lm'.registry.Holds m' ∧ m' ≠ grown := by
    intro m' hm'
    obtain ⟨base, hat⟩ := segs.mem_at (List.mem_append_left _ hm')
    refine ⟨?_, ?_⟩
    · rw [written.registry, holds_setTopic_iff]
      exact Or.inl ⟨hat.topic_eq, List.mem_append_left _ hm'⟩
    · intro heq
      have hbelow := segs.front_below hm'
      rw [heq] at hbelow
      exact absurd hbelow (lt_irrefl _)
  have hfrontKeep : ∀ m' ∈ front, WholeRecords lm'.disk m' ∧
      segmentPayloads lm'.disk m' = segmentPayloads lm.disk m' := by
    intro m' hm'
    have hsame := written.content_of_ne segs (hfront m' hm').1 (hfront m' hm').2
    exact (target.2 m' (List.mem_append_left _ hm')).of_committed rfl
      (by rw [committed, hsame, committed]) (by rw [hsame])
  refine ⟨?_, ?_, ?_⟩
  · intro m' hm'
    rw [written.registry, holds_setTopic_iff] at hm'
    rcases hm' with ⟨-, hmem⟩ | ⟨hne, hold⟩
    · rcases List.mem_append.mp hmem with hf | hl
      · exact (hfrontKeep m' hf).1
      · rw [List.mem_singleton.mp hl]
        exact hgrown
    · have hsame := written.content_of_other segs hold hne
      exact ((recs m' hold).of_committed rfl (by rw [committed, hsame, committed])
        (by rw [hsame])).1
  · have hget : lm'.registry.registry.get? topic = some (front ++ [grown]) := by
      rw [written.registry, SegmentRegistry.setTopic_get?, if_pos rfl]
    have hflat : front.flatMap (segmentPayloads lm'.disk) =
        front.flatMap (segmentPayloads lm.disk) :=
      List.flatMap_congr fun m' hm' => (hfrontKeep m' hm').2
    rw [← target.1, LogManager.payloads, hget]
    simp only [Option.getD_some, List.flatMap_append, List.flatMap_singleton, hflat, hadd,
      List.append_assoc, grown]
  · intro other hne
    apply payloads_congr
    · rw [written.registry, SegmentRegistry.setTopic_get?, if_neg hne]
    · intro segs' hget m' hm'
      obtain ⟨hold, ht⟩ := ok.mem_topic hget hm'
      rw [committed, written.content_of_other segs hold (ht ▸ hne), committed]

end Manager
end PyLogStream
