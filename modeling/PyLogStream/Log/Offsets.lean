import PyLogStream.Log.Operations

/-!
What holds of the offsets whatever the file system does. The registry keeps its
shape under every operation, a failed append leaves the end of the log where it
was, and a successful one returns the old end and moves it by the record's length.
-/

namespace PyLogStream
open Lib

/-- The end of a topic's log; an unknown topic ends at zero. -/
def LogManager.endOffset (lm : LogManager) (topic : String) : Int :=
  match lm.getLatestOffset topic with
  | .ok offset => offset
  | .error _ => 0

section
variable {lm : LogManager} {topic : String}

theorem endOffset_of_latest {n : Int} (h : lm.getLatestOffset topic = .ok n) :
    lm.endOffset topic = n := by
  simp [LogManager.endOffset, h]

theorem getLatestOffset_congr {lm' : LogManager}
    (h : lm'.registry.registry.get? topic = lm.registry.registry.get? topic) :
    lm'.getLatestOffset topic = lm.getLatestOffset topic := by
  simp only [LogManager.getLatestOffset, SegmentRegistry.getLatestOffset, h]

theorem getLatestOffset_setTopic {r : SegmentRegistry} {front : List SegmentMeta}
    {last : SegmentMeta} {start : Nat} (hreg : lm.registry = r.setTopic topic (front ++ [last]))
    (segs : TopicSegments r.logDir topic front last start) :
    lm.getLatestOffset topic = .ok ((start + last.size : Nat) : Int) := by
  have hget : lm.registry.registry.get? topic = some (front ++ [last]) := by
    rw [hreg, SegmentRegistry.setTopic_get?, if_pos rfl]
  have segs' : TopicSegments lm.registry.logDir topic front last start := by
    rw [hreg]
    exact segs
  exact SegmentRegistry.getLatestOffset_active hget segs'

/-- What a read may leave: the log as it was, or with the file of a segment opened; where
it was opened, the handle has been released again. -/
theorem readBytes_leaves {P : LogManager → Prop} (env : CallEnv) (offset size : Int) (same : P lm)
    (fails : ∀ m memory disk err, lm.registry.getSegment topic offset = .ok m →
      lm.memory.acquire env.ops lm.disk m = (memory, disk, .error err) →
      P { lm with memory, disk })
    (opens : ∀ m memory disk handle, lm.registry.getSegment topic offset = .ok m →
      lm.memory.acquire env.ops lm.disk m = (memory, disk, .ok handle) →
      P { lm with memory := memory.releaseEntry handle, disk }) :
    P (lm.readBytes env topic offset size).1 := by
  unfold LogManager.readBytes
  split
  · exact same
  · next m hseg =>
      dsimp only
      split
      · next memory disk err hacq => exact fails m memory disk err hseg hacq
      · next memory disk handle hacq =>
          have left := opens m memory disk handle hseg hacq
          split
          · exact left
          · split
            · exact left
            · exact left

/-- A read for the caller to send leaves the handle to its context. -/
theorem read_leaves {P : LogManager → Prop} (env : CallEnv) (offset size : Int) (same : P lm)
    (acquires : ∀ m memory disk result, lm.registry.getSegment topic offset = .ok m →
      lm.memory.acquire env.ops lm.disk m = (memory, disk, result) → P { lm with memory, disk }) :
    P (lm.read env topic offset size).1 := by
  unfold LogManager.read
  split
  · exact same
  · next m hseg =>
      dsimp only
      split
      · next memory disk err hacq => exact acquires m memory disk _ hseg hacq
      · next memory disk handle hacq =>
          have left := acquires m memory disk _ hseg hacq
          split
          · exact left
          · split
            · exact left
            · exact left

theorem readBytes_registry (lm : LogManager) (env : CallEnv) (topic : String) (offset size : Int) :
    (lm.readBytes env topic offset size).1.registry = lm.registry :=
  readBytes_leaves (P := fun lm' => lm'.registry = lm.registry) env offset size rfl
    (fun _ _ _ _ _ _ => rfl) fun _ _ _ _ _ _ => rfl

theorem read_registry (lm : LogManager) (env : CallEnv) (topic : String) (offset size : Int) :
    (lm.read env topic offset size).1.registry = lm.registry :=
  read_leaves (P := fun lm' => lm'.registry = lm.registry) env offset size rfl
    fun _ _ _ _ _ _ => rfl

/-- A write fails before the registry changes, or it is committed. -/
theorem writeMessage_registry (lm : LogManager) {front : List SegmentMeta} {m : SegmentMeta} {start : Nat}
    (hget : lm.registry.registry.get? topic = some (front ++ [m]))
    (segs : TopicSegments lm.registry.logDir topic front m start) (env : CallEnv) (msg : Bytes) :
    ((lm.writeMessage env m msg).1.registry = lm.registry ∧
        ∃ err, (lm.writeMessage env m msg).2 = .error err) ∨
      ((lm.writeMessage env m msg).1.registry =
          lm.registry.setTopic topic (front ++ [{ m with size := m.size + msg.length }]) ∧
        (lm.writeMessage env m msg).2 = .ok ((start + m.size : Nat) : Int)) := by
  have hadv := SegmentRegistry.advanceOffset_last hget segs msg.length
  unfold LogManager.writeMessage
  split
  · exact Or.inl ⟨rfl, _, rfl⟩
  · split
    · exact Or.inl ⟨rfl, _, rfl⟩
    · simp only [hadv, segs.getEndOffset_last]
      exact Or.inr ⟨trivial, trivial⟩

/-- Registering the target of an append does not move the end of the log. -/
theorem appendTarget_endOffset (shaped : lm.registry.Shaped) {now : Time} {required : Nat}
    {front : List SegmentMeta} {m : SegmentMeta} {start : Nat}
    (htarget : lm.appendTarget now topic required = (front, m))
    (segs : TopicSegments lm.registry.logDir topic front m start) :
    lm.endOffset topic = ((start + m.size : Nat) : Int) := by
  have hstart := segs.at_end.base_eq
  cases appendCase shaped htarget with
  | first hget =>
      have hzero : ((0 : Int)) = (start : Int) := hstart
      simp only [LogManager.endOffset, LogManager.getLatestOffset, SegmentRegistry.getLatestOffset,
        hget, SegmentRegistry.newSegment]
      omega
  | active hget segs' stay =>
      have := segs'.at_end.base_eq
      rw [endOffset_of_latest (SegmentRegistry.getLatestOffset_active hget segs')]
      omega
  | @rolled front₀ last start₀ hget segs' roll =>
      have hbase : ((start₀ + last.size : Nat) : Int) = (start : Int) := hstart
      rw [endOffset_of_latest (SegmentRegistry.getLatestOffset_active hget segs')]
      simp only [SegmentRegistry.newSegment]
      omega

theorem createTopic_offsets (shaped : lm.registry.Shaped) (topic : String) :
    (lm.createTopic topic).1.registry.Shaped ∧
      (∀ other, other ≠ topic → (lm.createTopic topic).1.registry.registry.get? other =
        lm.registry.registry.get? other) ∧
      (lm.createTopic topic).1.getLatestOffset topic = .ok (lm.endOffset topic) := by
  cases hget : lm.registry.registry.get? topic with
  | some old =>
      rw [createTopic_of_some shaped hget]
      obtain ⟨front, last, start, rfl, segs⟩ := shaped _ _ hget
      have hlatest : lm.getLatestOffset topic = _ :=
        SegmentRegistry.getLatestOffset_active hget segs
      exact ⟨shaped, fun _ _ => rfl, by rw [endOffset_of_latest hlatest, hlatest]⟩
  | none =>
      have segs : TopicSegments lm.registry.logDir topic [] (lm.registry.newSegment topic 0) 0 :=
        ⟨rfl, lm.registry.newSegment_at topic 0, rfl⟩
      rw [createTopic_of_none hget]
      refine ⟨shaped.setTopic segs, ?_, ?_⟩
      · intro other hne
        rw [SegmentRegistry.setTopic_get?, if_neg hne]
      · rw [getLatestOffset_setTopic rfl segs]
        simp [LogManager.endOffset, LogManager.getLatestOffset, SegmentRegistry.getLatestOffset,
          hget, SegmentRegistry.newSegment]

/-- What an append does to the offsets, however its file operations end. -/
theorem append_offsets (shaped : lm.registry.Shaped) (env : CallEnv) (topic : String)
    (data : Bytes) :
    (lm.append env topic data).1.registry.Shaped ∧
      (∀ other, other ≠ topic → (lm.append env topic data).1.registry.registry.get? other =
        lm.registry.registry.get? other) ∧
      ((∃ n : Nat, (lm.append env topic data).2 = .ok (n : Int) ∧ lm.endOffset topic = n ∧
          (lm.append env topic data).1.getLatestOffset topic = .ok (n + (4 + data.length))) ∨
        ((∃ err, (lm.append env topic data).2 = .error err) ∧
          (lm.append env topic data).1.getLatestOffset topic = .ok (lm.endOffset topic))) := by
  by_cases hlen : data.length < 2 ^ 32
  · obtain ⟨⟨front, m⟩, htarget⟩ : ∃ target,
        lm.appendTarget env.now topic (4 + data.length) = target := ⟨_, rfl⟩
    obtain ⟨⟨start, segs⟩, happ⟩ := append_eq shaped hlen env htarget
    have hend := appendTarget_endOffset shaped htarget segs
    have hother : ∀ segs' other, other ≠ topic →
        (lm.registry.setTopic topic segs').registry.get? other =
          lm.registry.registry.get? other := by
      intro segs' other hne
      rw [SegmentRegistry.setTopic_get?, if_neg hne]
    rw [happ]
    rcases writeMessage_registry { lm with registry := lm.registry.setTopic topic (front ++ [m]) }
        (by simp [SegmentRegistry.setTopic_get?]) segs env (frame data) with
      ⟨hreg, herr⟩ | ⟨hreg, hok⟩
    · refine ⟨by rw [hreg]; exact shaped.setTopic segs, ?_, Or.inr ⟨herr, ?_⟩⟩
      · intro other hne
        rw [hreg, hother _ other hne]
      · rw [getLatestOffset_setTopic hreg segs, hend]
    · have segs' : TopicSegments lm.registry.logDir topic front
          { m with size := m.size + (frame data).length } start :=
        ⟨segs.run, ⟨segs.at_end.topic_eq, segs.at_end.base_eq, segs.at_end.path_eq⟩, segs.active⟩
      simp only [SegmentRegistry.setTopic_setTopic] at hreg
      refine ⟨by rw [hreg]; exact shaped.setTopic segs', ?_, Or.inl ⟨start + m.size, hok, hend, ?_⟩⟩
      · intro other hne
        rw [hreg, hother _ other hne]
      · rw [getLatestOffset_setTopic hreg segs', frame_length]
        push_cast
        congr 1
        omega
  · rw [append_of_long shaped (by omega)]
    obtain ⟨hshaped, hother, hlatest⟩ := createTopic_offsets shaped topic
    exact ⟨hshaped, hother, Or.inr ⟨⟨_, rfl⟩, hlatest⟩⟩

/-- An append that returns: the record starts at the end of the log, which moves past it. -/
theorem append_returned (shaped : lm.registry.Shaped) {env : CallEnv} {topic : String}
    {data : Bytes} {offset : Int} (h : (lm.append env topic data).2 = .ok offset) :
    ∃ n : Nat, offset = (n : Int) ∧ lm.endOffset topic = n ∧
      (lm.append env topic data).1.getLatestOffset topic = .ok (n + (4 + data.length)) := by
  cases (append_offsets shaped env topic data).2.2 with
  | inl hreturned =>
      obtain ⟨n, hn, hend, hlatest⟩ := hreturned
      exact ⟨n, Except.ok.inj (h.symm.trans hn), hend, hlatest⟩
  | inr hraised =>
      obtain ⟨⟨err, herr⟩, -⟩ := hraised
      cases h.symm.trans herr

/-- The end of no log moves back. -/
def EndsGrow (lm lm' : LogManager) : Prop :=
  ∀ topic n, lm.getLatestOffset topic = .ok n →
    ∃ n', lm'.getLatestOffset topic = .ok n' ∧ n ≤ n'

theorem endsGrow_of_registry {lm' : LogManager} (h : lm'.registry = lm.registry) :
    EndsGrow lm lm' := by
  intro topic n hn
  refine ⟨n, ?_, le_refl n⟩
  rw [LogManager.getLatestOffset, h]
  exact hn

/-- Every operation keeps the shape of the registry and never moves the end of a
log backwards. -/
theorem apply_offsets (shaped : lm.registry.Shaped) (op : LogOp) :
    (lm.apply op).1.registry.Shaped ∧ EndsGrow lm (lm.apply op).1 := by
  have same : ∀ lm' : LogManager, lm'.registry = lm.registry →
      lm'.registry.Shaped ∧ EndsGrow lm lm' :=
    fun lm' hreg => ⟨hreg ▸ shaped, endsGrow_of_registry hreg⟩
  have moved : ∀ (lm' : LogManager) topic n',
      (∀ other, other ≠ topic →
        lm'.registry.registry.get? other = lm.registry.registry.get? other) →
      lm'.getLatestOffset topic = .ok n' → lm.endOffset topic ≤ n' → EndsGrow lm lm' := by
    intro lm' topic n' hother hlatest hle topic' n h
    by_cases ht : topic' = topic
    · subst ht
      exact ⟨n', hlatest, by rwa [← endOffset_of_latest h]⟩
    · exact ⟨n, (getLatestOffset_congr (hother topic' ht)).trans h, le_refl n⟩
  cases op with
  | createTopic topic =>
      obtain ⟨hshaped, hother, hlatest⟩ := createTopic_offsets shaped topic
      exact ⟨hshaped, moved _ topic _ hother hlatest (le_refl _)⟩
  | append topic env data =>
      obtain ⟨hshaped, hother, hoffset⟩ := append_offsets shaped env topic data
      refine ⟨hshaped, ?_⟩
      rcases hoffset with ⟨n, -, hend, hlatest⟩ | ⟨-, hlatest⟩
      · exact moved _ topic _ hother hlatest (by omega)
      · exact moved _ topic _ hother hlatest (le_refl _)
  | readBytes topic env offset size => exact same _ (readBytes_registry lm env topic offset size)
  | read topic env offset size => exact same _ (read_registry lm env topic offset size)
  | release handle => exact same _ rfl
  | cleanup => exact same _ rfl

end
end PyLogStream
