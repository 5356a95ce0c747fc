import PyLogStream.Log.Invariant

/-!
The effect of each log operation on a manager that satisfies the invariant. An
append extends one file and one segment; a read changes nothing but the cache
and the creation of an empty file; neither looks at another topic.
-/

namespace PyLogStream
open Lib

/-- Settings that no operation changes. -/
structure SameSettings (lm lm' : LogManager) : Prop where
  policy : lm'.policy = lm.policy
  initSegmentSize : lm'.memory.initSegmentSize = lm.memory.initSegmentSize
  segmentSizeInc : lm'.memory.segmentSizeInc = lm.memory.segmentSizeInc
  logDir : lm'.registry.logDir = lm.registry.logDir
  createdAt : lm'.registry.defaultCreatedAt = lm.registry.defaultCreatedAt

theorem SameSettings.refl (lm : LogManager) : SameSettings lm lm := ⟨rfl, rfl, rfl, rfl, rfl⟩

theorem SameSettings.trans {a b c : LogManager} (h : SameSettings a b) (k : SameSettings b c) :
    SameSettings a c :=
  ⟨k.policy.trans h.policy, k.initSegmentSize.trans h.initSegmentSize,
    k.segmentSizeInc.trans h.segmentSizeInc, k.logDir.trans h.logDir,
    k.createdAt.trans h.createdAt⟩

theorem SameSettings.symm {a b : LogManager} (h : SameSettings a b) : SameSettings b a :=
  ⟨h.policy.symm, h.initSegmentSize.symm, h.segmentSizeInc.symm, h.logDir.symm, h.createdAt.symm⟩

/-- The state after a message was written at the end of the active segment `m`. -/
structure Written (lm lm' : LogManager) (topic : String) (front : List SegmentMeta)
    (m : SegmentMeta) (msg : Bytes) : Prop where
  ok : LogOk lm'
  settings : SameSettings lm lm'
  registry : lm'.registry =
    lm.registry.setTopic topic (front ++ [{ m with size := m.size + msg.length }])
  content : ∀ p, lm'.disk.content p =
    if resolve p = resolve m.path then
      writtenFile lm.memory.segmentSizeInc
        (preparedFile lm.memory.initSegmentSize (lm.disk.content m.path)) m.size msg
    else lm.disk.content p

section
variable {lm : LogManager} {topic : String} {front : List SegmentMeta} {m : SegmentMeta}
  {start : Nat}

theorem LogOk.segmentsApart (ok : LogOk lm) : SegmentsApart lm.registry :=
  segmentsApart_of_shaped ok.apart ok.shaped

theorem LogOk.replaceStorage (ok : LogOk lm) {mem : SegmentMemory} {disk : Disk}
    (storage : StorageOk lm.registry mem disk)
    (hinit : mem.initSegmentSize = lm.memory.initSegmentSize) :
    LogOk { lm with memory := mem, disk := disk } :=
  ⟨ok.shaped, ok.apart, storage, by rw [hinit]; exact ok.init_pos⟩

theorem LogOk.advance (ok : LogOk lm)
    (hget : lm.registry.registry.get? topic = some (front ++ [m]))
    (segs : TopicSegments lm.registry.logDir topic front m start) (length : Nat) :
    LogOk { lm with
      registry := lm.registry.setTopic topic (front ++ [{ m with size := m.size + length }]) } := by
  have segs' : TopicSegments lm.registry.logDir topic front { m with size := m.size + length }
      start := ⟨segs.run, ⟨segs.at_end.topic_eq, segs.at_end.base_eq, segs.at_end.path_eq⟩,
        segs.active⟩
  have hlist : ∀ m', lm.registry.Holds m' → m'.topic = topic → m' ∈ front ++ [m] := by
    rintro m' ⟨segs', hget', hmem⟩ ht
    rw [ht, hget] at hget'
    exact Option.some.inj hget' ▸ hmem
  have hholds : ∀ m' ∈ front ++ [m], lm.registry.Holds m' ∧ m'.topic = topic := by
    intro m' hm'
    obtain ⟨base, hat⟩ := segs.mem_at hm'
    exact ⟨⟨_, hat.topic_eq ▸ hget, hm'⟩, hat.topic_eq⟩
  apply ok.setTopic segs'
  · intro m' hm' ht
    rcases List.mem_append.mp (hlist m' hm' ht) with hfront | hlast
    · exact ⟨m', List.mem_append_left _ hfront, rfl, id⟩
    · obtain rfl := List.mem_singleton.mp hlast
      exact ⟨_, List.mem_append_right _ (List.mem_singleton_self _), rfl, fun _ => segs.active⟩
  · intro m' hm'
    rcases List.mem_append.mp hm' with hfront | hlast
    · obtain ⟨hold, ht⟩ := hholds m' (List.mem_append_left _ hfront)
      exact Or.inl ⟨m', hold, ht, rfl⟩
    · obtain rfl := List.mem_singleton.mp hlast
      obtain ⟨hold, ht⟩ := hholds m (by simp)
      exact Or.inl ⟨m, hold, ht, rfl⟩

/-- The list keeps its segments when a new one is opened behind it. -/
theorem LogOk.openSegment (ok : LogOk lm)
    (segs : TopicSegments lm.registry.logDir topic front m start)
    (keep : ∀ m', lm.registry.Holds m' → m'.topic = topic → ∃ m'' ∈ front,
      m''.baseOffset = m'.baseOffset ∧ (m''.state = .active → m'.state = .active))
    (old : ∀ m'' ∈ front, ∃ m', lm.registry.Holds m' ∧ m'.topic = topic ∧
      m'.baseOffset = m''.baseOffset)
    (clear : ClearOf lm.registry topic start) :
    LogOk { lm with registry := lm.registry.setTopic topic (front ++ [m]) } := by
  apply ok.setTopic segs
  · intro m' hm' ht
    obtain ⟨m'', hmem, hbase, hactive⟩ := keep m' hm' ht
    exact ⟨m'', List.mem_append_left _ hmem, hbase, hactive⟩
  · intro m'' hm''
    rcases List.mem_append.mp hm'' with hfront | hlast
    · exact Or.inl (old m'' hfront)
    · right
      rw [List.mem_singleton.mp hlast, segs.at_end.base_eq]
      exact clear

theorem writeMessage_spec (ok : LogOk lm)
    (hget : lm.registry.registry.get? topic = some (front ++ [m]))
    (segs : TopicSegments lm.registry.logDir topic front m start)
    {env : CallEnv} (hops : env.ops = .succeed) (msg : Bytes) :
    ∃ lm', lm.writeMessage env m msg = (lm', .ok ((start + m.size : Nat) : Int)) ∧
      Written lm lm' topic front m msg := by
  have hm : lm.registry.Holds m := ⟨_, segs.at_end.topic_eq ▸ hget, by simp⟩
  obtain ⟨mem₁, disk₁, i, e, hacq, ref, hmap, hinit₁, hinc₁, hdisk₁⟩ :=
    acquire_spec ok.storage ok.segmentsApart ok.init_pos hm
  obtain ⟨mem₂, disk₂, hwrite, storage₂, hinit₂, hinc₂, hdisk₂⟩ :=
    write_spec ok.segmentsApart hm segs.active ref hmap m.getFileEndOffset msg
  have ok₂ : LogOk { lm with memory := mem₂.releaseEntry i, disk := disk₂ } :=
    ok.replaceStorage (storage₂.addRef i (-1)) (hinit₂.trans hinit₁)
  have hadv := SegmentRegistry.advanceOffset_last hget segs msg.length
  have hend : m.getEndOffset = ((start + m.size : Nat) : Int) := by
    simp [SegmentMeta.getEndOffset, segs.at_end.base_eq]
  refine ⟨_, ?_, ok₂.advance hget segs msg.length,
    ⟨rfl, hinit₂.trans hinit₁, hinc₂.trans hinc₁, rfl, rfl⟩, rfl, ?_⟩
  · simp only [LogManager.writeMessage, hops, hacq, hwrite, hadv, hend]
  · intro p
    rw [hdisk₂, hdisk₁, if_pos rfl, hinc₁]
    split
    · rfl
    · next hne => rw [hdisk₁, if_neg hne]

end

namespace LogManager

/-- The segment list an append extends: its sealed part and the segment written
to. Only the registry entry of the topic and the policy decide it. -/
def appendTarget (lm : LogManager) (now : Time) (topic : String) (required : Nat) :
    List SegmentMeta × SegmentMeta :=
  match lm.registry.registry.get? topic with
  | none => ([], lm.registry.newSegment topic 0)
  | some segs =>
    match segs.getLast? with
    | none => ([], lm.registry.newSegment topic 0)
    | some last =>
      if lm.policy.shouldRollover last required now && decide (last.size ≠ 0) then
        (segs.dropLast ++ [{ last with state := .sealed }],
          lm.registry.newSegment topic last.getEndOffset)
      else (segs.dropLast, last)

/-- The base offset of the segment an append opens, if it opens one. -/
def opens (lm : LogManager) (now : Time) (topic : String) (data : Bytes) : Option Int :=
  match lm.registry.registry.get? topic with
  | none => some 0
  | some segs =>
    match segs.getLast? with
    | none => none
    | some last =>
      if decide (data.length < 2 ^ 32) &&
          (lm.policy.shouldRollover last (4 + data.length) now && decide (last.size ≠ 0)) then
        some last.getEndOffset
      else none

end LogManager

section
variable {lm : LogManager} {topic : String}

/-- A topic's first segment is opened at offset zero. -/
theorem LogOk.firstSegment (ok : LogOk lm) (hget : lm.registry.registry.get? topic = none)
    (clear : ClearOf lm.registry topic 0) :
    LogOk { lm with
      registry := lm.registry.setTopic topic ([] ++ [lm.registry.newSegment topic 0]) } := by
  have segs : TopicSegments lm.registry.logDir topic [] (lm.registry.newSegment topic 0) 0 :=
    ⟨rfl, lm.registry.newSegment_at topic 0, rfl⟩
  apply ok.openSegment segs
  · rintro m' ⟨segs', hget', -⟩ ht
    rw [ht, hget] at hget'
    cases hget'
  · simp
  · exact clear

/-- Rolling over keeps the old segments and opens one at the end of the log. -/
theorem LogOk.rollover (ok : LogOk lm) {front : List SegmentMeta} {last : SegmentMeta}
    {start : Nat} (hget : lm.registry.registry.get? topic = some (front ++ [last]))
    (segs : TopicSegments lm.registry.logDir topic front last start) (hsize : 0 < last.size)
    (clear : ClearOf lm.registry topic (start + last.size : Nat)) :
    LogOk { lm with
      registry := lm.registry.setTopic topic ((front ++ [{ last with state := .sealed }]) ++
        [lm.registry.newSegment topic (start + last.size : Nat)]) } := by
  have hat : SegmentAt lm.registry.logDir topic start { last with state := .sealed } :=
    ⟨segs.at_end.topic_eq, segs.at_end.base_eq, segs.at_end.path_eq⟩
  have segs' : TopicSegments lm.registry.logDir topic
      (front ++ [{ last with state := .sealed }])
      (lm.registry.newSegment topic (start + last.size : Nat)) (start + last.size) :=
    ⟨segs.run.snoc hat rfl hsize, lm.registry.newSegment_at topic _, rfl⟩
  refine ok.openSegment segs' ?_ ?_ clear
  · rintro m' ⟨old, hget', hmem⟩ ht
    rw [ht, hget] at hget'
    obtain rfl := Option.some.inj hget'
    rcases List.mem_append.mp hmem with hfront | hlast
    · exact ⟨m', List.mem_append_left _ hfront, rfl, id⟩
    · obtain rfl := List.mem_singleton.mp hlast
      exact ⟨_, List.mem_append_right _ (List.mem_singleton_self _), rfl, by simp⟩
  · intro m'' hm''
    rcases List.mem_append.mp hm'' with hfront | hlast
    · obtain ⟨base, hat', -⟩ := segs.run.mem_bounds hfront
      exact ⟨m'', ⟨_, hat'.topic_eq ▸ hget, List.mem_append_left _ hfront⟩, hat'.topic_eq, rfl⟩
    · rw [List.mem_singleton.mp hlast]
      exact ⟨last, ⟨_, segs.at_end.topic_eq ▸ hget, by simp⟩, segs.at_end.topic_eq, rfl⟩

theorem Written.of_open {lm lm' : LogManager} {topic : String} {front segs : List SegmentMeta}
    {m : SegmentMeta} {msg : Bytes}
    (h : Written { lm with registry := lm.registry.setTopic topic segs } lm' topic front m msg) :
    Written lm lm' topic front m msg :=
  ⟨h.ok, ⟨h.settings.policy, h.settings.initSegmentSize, h.settings.segmentSizeInc,
    h.settings.logDir, h.settings.createdAt⟩, by simpa using h.registry, h.content⟩

theorem SegmentRegistry.setTopic_of_get? {r : SegmentRegistry} {segs : List SegmentMeta}
    (h : r.registry.get? topic = some segs) : r.setTopic topic segs = r := by
  simp [setTopic, Dict.set_of_get? h]

/-- The three ways an append finds its segment: it opens the first one, goes on
with the active one, or rolls over. -/
inductive AppendCase (lm : LogManager) (now : Time) (topic : String) (required : Nat) :
    List SegmentMeta → SegmentMeta → Prop where
  | first (hget : lm.registry.registry.get? topic = none) :
      AppendCase lm now topic required [] (lm.registry.newSegment topic 0)
  | active {front last start} (hget : lm.registry.registry.get? topic = some (front ++ [last]))
      (segs : TopicSegments lm.registry.logDir topic front last start)
      (stay : (lm.policy.shouldRollover last required now && decide (last.size ≠ 0)) = false) :
      AppendCase lm now topic required front last
  | rolled {front last start} (hget : lm.registry.registry.get? topic = some (front ++ [last]))
      (segs : TopicSegments lm.registry.logDir topic front last start)
      (roll : (lm.policy.shouldRollover last required now && decide (last.size ≠ 0)) = true) :
      AppendCase lm now topic required (front ++ [{ last with state := .sealed }])
        (lm.registry.newSegment topic (start + last.size : Nat))

theorem TopicSegments.getEndOffset_last {logDir : String} {front : List SegmentMeta}
    {last : SegmentMeta} {start : Nat} (segs : TopicSegments logDir topic front last start) :
    last.getEndOffset = ((start + last.size : Nat) : Int) := by
  simp [SegmentMeta.getEndOffset, segs.at_end.base_eq]

theorem appendCase (shaped : lm.registry.Shaped) {now : Time} {required : Nat}
    {front : List SegmentMeta} {m : SegmentMeta}
    (htarget : lm.appendTarget now topic required = (front, m)) :
    AppendCase lm now topic required front m := by
  unfold LogManager.appendTarget at htarget
  cases hget : lm.registry.registry.get? topic with
  | none =>
      simp only [hget, Prod.mk.injEq] at htarget
      obtain ⟨rfl, rfl⟩ := htarget
      exact .first hget
  | some old =>
      obtain ⟨front₀, last, start, rfl, segs⟩ := shaped _ _ hget
      simp only [hget, List.getLast?_concat, List.dropLast_concat,
        segs.getEndOffset_last] at htarget
      split at htarget
      · next hroll =>
          obtain ⟨rfl, rfl⟩ := Prod.mk.inj htarget
          exact .rolled hget segs hroll
      · next hroll =>
          obtain ⟨rfl, rfl⟩ := Prod.mk.inj htarget
          exact .active hget segs (by simpa using hroll)

theorem size_pos_of_roll {last : SegmentMeta} {b : Bool}
    (h : (b && decide (last.size ≠ 0)) = true) : 0 < last.size := by
  have := (Bool.and_eq_true_iff.mp h).2
  simpa [Nat.pos_iff_ne_zero] using this

/-- A short payload is written behind the segments of the append's target; only
the registry decides which these are. -/
theorem append_eq (shaped : lm.registry.Shaped) {data : Bytes} (hlen : data.length < 2 ^ 32)
    (env : CallEnv) {front : List SegmentMeta} {m : SegmentMeta}
    (htarget : lm.appendTarget env.now topic (4 + data.length) = (front, m)) :
    (∃ start, TopicSegments lm.registry.logDir topic front m start) ∧
      lm.append env topic data =
        { lm with registry := lm.registry.setTopic topic (front ++ [m]) }.writeMessage env m
          (frame data) := by
  have hnot : ¬ (2 ^ 32 ≤ data.length) := by omega
  cases appendCase shaped htarget with
  | first hget =>
      have hopen : LogManager.writeSegment lm.registry topic =
          .ok (lm.registry.newSegment topic 0,
            lm.registry.setTopic topic ([] ++ [lm.registry.newSegment topic 0])) := by
        simp [LogManager.writeSegment, SegmentRegistry.getSegment, hget,
          SegmentRegistry.createSegment]
      have hempty : (lm.registry.newSegment topic 0).size = 0 := rfl
      refine ⟨⟨0, rfl, lm.registry.newSegment_at topic 0, rfl⟩, ?_⟩
      simp only [LogManager.append, hopen, if_neg hnot]
      simp [hempty, frame]
  | active hget segs stay =>
      have hopen : LogManager.writeSegment lm.registry topic = .ok (m, lm.registry) := by
        simp [LogManager.writeSegment, SegmentRegistry.getSegment_latest hget segs]
      refine ⟨⟨_, segs⟩, ?_⟩
      rw [SegmentRegistry.setTopic_of_get? hget]
      simp only [LogManager.append, hopen, if_neg hnot, stay]
      simp [frame]
  | @rolled front₀ last start hget segs roll =>
      have hopen : LogManager.writeSegment lm.registry topic = .ok (last, lm.registry) := by
        simp [LogManager.writeSegment, SegmentRegistry.getSegment_latest hget segs]
      have hsize := size_pos_of_roll roll
      have hnew := SegmentRegistry.rollover_active hget segs hsize
      have hat : SegmentAt lm.registry.logDir topic start { last with state := .sealed } :=
        ⟨segs.at_end.topic_eq, segs.at_end.base_eq, segs.at_end.path_eq⟩
      refine ⟨⟨start + last.size, segs.run.snoc hat rfl hsize,
        lm.registry.newSegment_at topic _, rfl⟩, ?_⟩
      simp only [LogManager.append, hopen, if_neg hnot, roll, if_true, hnew]
      simp [frame]

/-- The state in which the target's segments are registered keeps the invariant. -/
theorem LogOk.openTarget (ok : LogOk lm) {now : Time} {data : Bytes} (hlen : data.length < 2 ^ 32)
    (clear : ∀ base, lm.opens now topic data = some base → ClearOf lm.registry topic base)
    {front : List SegmentMeta} {m : SegmentMeta}
    (htarget : lm.appendTarget now topic (4 + data.length) = (front, m)) :
    LogOk { lm with registry := lm.registry.setTopic topic (front ++ [m]) } := by
  cases appendCase ok.shaped htarget with
  | first hget => exact ok.firstSegment hget (clear 0 (by simp [LogManager.opens, hget]))
  | active hget segs stay =>
      rw [SegmentRegistry.setTopic_of_get? hget]
      exact ok
  | rolled hget segs roll =>
      apply ok.rollover hget segs (size_pos_of_roll roll)
      apply clear
      simp only [LogManager.opens, hget, List.getLast?_concat, roll, segs.getEndOffset_last,
        Bool.and_true, decide_eq_true hlen, if_true]

/-- A successful append writes the framed payload behind the log of its topic. -/
theorem append_spec (ok : LogOk lm) {env : CallEnv} (hops : env.ops = .succeed) {data : Bytes}
    (hlen : data.length < 2 ^ 32)
    (clear : ∀ base, lm.opens env.now topic data = some base →
      ClearOf lm.registry topic base) :
    ∃ front m start lm', lm.appendTarget env.now topic (4 + data.length) = (front, m) ∧
      TopicSegments lm.registry.logDir topic front m start ∧
      lm.append env topic data = (lm', .ok ((start + m.size : Nat) : Int)) ∧
      Written lm lm' topic front m (frame data) := by
  obtain ⟨⟨front, m⟩, htarget⟩ : ∃ target,
      lm.appendTarget env.now topic (4 + data.length) = target := ⟨_, rfl⟩
  obtain ⟨⟨start, segs⟩, happ⟩ := append_eq ok.shaped hlen env htarget
  obtain ⟨lm', hwrite, written⟩ := writeMessage_spec (ok.openTarget hlen clear htarget)
    (by simp [SegmentRegistry.setTopic_get?]) segs hops (frame data)
  exact ⟨front, m, start, lm', htarget, segs, happ.trans hwrite, written.of_open⟩

end
end PyLogStream
