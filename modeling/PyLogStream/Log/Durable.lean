import PyLogStream.Lib.Run
import PyLogStream.Log.SameTopic

/-!
Committed bytes stay where they are. A file keeps the bytes that were committed
in it whatever safe operations follow, so a slice of the file taken from the log
may be sent later.
-/

namespace PyLogStream
open Lib

/-- The file starts with these bytes, and they are committed. -/
structure Keeps (lm : LogManager) (path : String) (bytes : Bytes) : Prop where
  owned : ∃ m, lm.registry.Holds m ∧ m.path = path ∧ bytes.length ≤ m.size
  stored : bytes <+: lm.disk.content path

section
variable {lm lm' : LogManager} {path : String} {bytes : Bytes}

/-- Writing behind the bytes in use keeps them. -/
theorem isPrefix_writtenFile {content msg : Bytes} {offset : Nat} (inc : Nat)
    (h : bytes <+: content) (hlen : bytes.length ≤ offset) (hoff : offset ≤ content.length) :
    bytes <+: writtenFile inc content offset msg := by
  have htake : bytes <+: content.take offset :=
    List.prefix_take_iff.mpr ⟨h, hlen⟩
  have hwritten := writtenFile_take inc msg hoff
  exact (htake.trans (List.prefix_append _ msg)).trans (hwritten ▸ List.take_prefix _ _)

theorem Keeps.opened (keeps : Keeps lm path bytes) {m : SegmentMeta} (opened : Opened lm lm' m) :
    Keeps lm' path bytes := by
  refine ⟨by rw [opened.registry]; exact keeps.owned, ?_⟩
  rw [opened.content]
  split
  · next heq =>
      rw [← lm.disk.content_congr heq]
      exact isPrefix_preparedFile _ keeps.stored
  · exact keeps.stored

/-- An old segment is still listed after its topic's target was registered, with at
least its old size. -/
theorem appendTarget_keeps (ok : LogOk lm) {topic : String} {now : Time} {required : Nat}
    {front : List SegmentMeta} {m : SegmentMeta}
    (htarget : lm.appendTarget now topic required = (front, m)) {m₀ : SegmentMeta}
    (hm₀ : lm.registry.Holds m₀) (ht : m₀.topic = topic) :
    ∃ m' ∈ front ++ [m], m'.path = m₀.path ∧ m'.size = m₀.size := by
  obtain ⟨segs, hget₀, hmem⟩ := hm₀
  rw [ht] at hget₀
  cases appendCase ok.shaped htarget with
  | first hget =>
      rw [hget] at hget₀
      cases hget₀
  | active hget _ _ =>
      rw [hget] at hget₀
      obtain rfl := Option.some.inj hget₀
      exact ⟨m₀, hmem, rfl, rfl⟩
  | @rolled front₀ last start hget _ _ =>
      rw [hget] at hget₀
      obtain rfl := Option.some.inj hget₀
      rcases List.mem_append.mp hmem with hf | hl
      · exact ⟨m₀, by simp [hf], rfl, rfl⟩
      · rw [List.mem_singleton.mp hl]
        exact ⟨{ last with state := .sealed }, by simp, rfl, rfl⟩

theorem Keeps.written (keeps : Keeps lm path bytes) (ok : LogOk lm) (recs : RecordsOk lm)
    {topic : String} {env : CallEnv} {data : Bytes} (hlen : data.length < 2 ^ 32)
    (clear : ∀ base, lm.opens env.now topic data = some base → ClearOf lm.registry topic base)
    {front : List SegmentMeta} {m : SegmentMeta} {start : Nat}
    (htarget : lm.appendTarget env.now topic (4 + data.length) = (front, m))
    (segs : TopicSegments lm.registry.logDir topic front m start)
    (written : Written lm lm' topic front m (frame data)) : Keeps lm' path bytes := by
  obtain ⟨m₀, hm₀, rfl, hsize⟩ := keeps.owned
  have hwhole := (appendTarget_payloads ok.shaped
    (fun m hm _ => recs m hm) env.now (4 + data.length) htarget).2 m (by simp)
  refine ⟨?_, ?_⟩
  · by_cases ht : m₀.topic = topic
    · obtain ⟨m', hmem, hpath, hsame⟩ := appendTarget_keeps ok htarget hm₀ ht
      rcases List.mem_append.mp hmem with hf | hl
      · obtain ⟨base, hat⟩ := segs.mem_at (List.mem_append_left _ hf)
        refine ⟨m', ?_, hpath, by omega⟩
        rw [written.registry, holds_setTopic_iff]
        exact Or.inl ⟨hat.topic_eq, List.mem_append_left _ hf⟩
      · rw [List.mem_singleton.mp hl] at hpath hsame
        refine ⟨{ m with size := m.size + (frame data).length }, ?_, hpath, ?_⟩
        · rw [written.registry, holds_setTopic_iff]
          exact Or.inl ⟨segs.at_end.topic_eq, by simp⟩
        · simp only
          omega
    · refine ⟨m₀, ?_, rfl, hsize⟩
      rw [written.registry, holds_setTopic_iff]
      exact Or.inr ⟨ht, hm₀⟩
  · rw [written.content]
    split
    · next hfile =>
        -- the file written to is this segment's own, or a new and empty one
        have hstored := keeps.stored
        rw [lm.disk.content_congr hfile] at hstored
        have hprefix := isPrefix_preparedFile lm.memory.initSegmentSize hstored
        have hroom : m.size ≤ (preparedFile lm.memory.initSegmentSize
            (lm.disk.content m.path)).length := by
          have := hwhole.size_le
          unfold preparedFile
          split
          · omega
          · exact this
        rcases (appendTarget_origin ok hlen clear htarget).2 with ⟨old, hget, hm⟩ | hempty
        · obtain rfl := ok.segmentsApart m₀ m hm₀ (ok.mem_topic hget hm).1 (Or.inr hfile)
          exact isPrefix_writtenFile _ hprefix hsize hroom
        · rw [hempty, List.prefix_nil] at hstored
          rw [hstored]
          exact List.nil_prefix
    · exact keeps.stored

theorem Keeps.createTopic (keeps : Keeps lm path bytes) (ok : LogOk lm) (topic : String) :
    Keeps (lm.createTopic topic).1 path bytes := by
  cases hget : lm.registry.registry.get? topic with
  | some segs =>
      rw [createTopic_of_some ok.shaped hget]
      exact keeps
  | none =>
      rw [createTopic_of_none hget]
      obtain ⟨m, hm, hpath, hsize⟩ := keeps.owned
      refine ⟨⟨m, holds_setTopic_iff.mpr (Or.inr ⟨?_, hm⟩), hpath, hsize⟩, keeps.stored⟩
      rintro rfl
      obtain ⟨segs, hsome, -⟩ := hm
      rw [hget] at hsome
      cases hsome

/-- One safe operation keeps committed bytes. -/
theorem Keeps.apply (keeps : Keeps lm path bytes) (ok : LogOk lm) (recs : RecordsOk lm)
    {op : LogOp} (safe : SafeStep lm op) : Keeps (lm.apply op).1 path bytes := by
  cases op with
  | createTopic topic => exact keeps.createTopic ok topic
  | append topic env data =>
      have clear : ∀ base, lm.opens env.now topic data = some base →
          ClearOf lm.registry topic base :=
        fun base h => safe.clear topic base (by simp [LogManager.opened, h])
      change Keeps (lm.append env topic data).1 path bytes
      by_cases hlen : data.length < 2 ^ 32
      · obtain ⟨front, m, start, lm', htarget, segs, happ, written⟩ :=
          append_spec ok safe.files hlen clear
        rw [happ]
        exact keeps.written ok recs hlen clear htarget segs written
      · rw [append_of_long ok.shaped (by omega)]
        exact keeps.createTopic ok topic
  | readBytes topic env offset size =>
      change Keeps (lm.readBytes env topic offset size).1 path bytes
      cases hseg : lm.registry.getSegment topic offset with
      | error err => simpa only [LogManager.readBytes, hseg] using keeps
      | ok m =>
          obtain ⟨lm', latest, -, hread, opened⟩ := readBytes_spec ok safe.files size hseg
          rw [hread]
          exact keeps.opened opened
  | read topic env offset size =>
      change Keeps (lm.read env topic offset size).1 path bytes
      cases hseg : lm.registry.getSegment topic offset with
      | error err => simpa only [LogManager.read, hseg] using keeps
      | ok m =>
          obtain ⟨lm', latest, handle, -, hread, opened⟩ := read_spec ok safe.files size hseg
          rw [hread]
          exact keeps.opened opened
  | release handle => exact ⟨keeps.owned, keeps.stored⟩
  | cleanup => exact ⟨keeps.owned, keeps.stored⟩

/-- A safe run keeps the invariants. -/
theorem safeRun_ok (ok : LogOk lm) (recs : RecordsOk lm) {ops : List LogOp}
    (safe : MeetsAll LogManager.apply SafeStep lm ops) :
    LogOk (run LogManager.apply lm ops) ∧ RecordsOk (run LogManager.apply lm ops) :=
  safe.invariant (fun lm => LogOk lm ∧ RecordsOk lm)
    (fun _ _ inv hsafe =>
      have effect := apply_effect inv.1 hsafe
      ⟨effect.ok, effect.records inv.2⟩) ⟨ok, recs⟩

/-- Committed bytes survive any safe run. -/
theorem Keeps.run (keeps : Keeps lm path bytes) (ok : LogOk lm) (recs : RecordsOk lm)
    {ops : List LogOp} (safe : MeetsAll LogManager.apply SafeStep lm ops) :
    Keeps (Lib.run LogManager.apply lm ops) path bytes := by
  have h := safe.invariant (fun lm => LogOk lm ∧ RecordsOk lm ∧ Keeps lm path bytes)
    (fun _ _ inv hsafe =>
      have effect := apply_effect inv.1 hsafe
      ⟨effect.ok, effect.records inv.2.1, inv.2.2.apply inv.1 inv.2.1 hsafe⟩) ⟨ok, recs, keeps⟩
  exact h.2.2

end
end PyLogStream
