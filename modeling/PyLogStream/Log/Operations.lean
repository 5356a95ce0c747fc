import PyLogStream.Log.Boundary

/-!
The operations of a log manager as one step function, with the condition under
which a step is safe: its file operations succeed, and a segment it opens has the
cache key and the file of no other topic's segment. Safe steps keep the invariant
and only ever append payloads, to the topic they are for.
-/

namespace PyLogStream
open Lib

inductive LogOp where
  | createTopic (topic : String)
  | append (topic : String) (env : CallEnv) (data : Bytes)
  | readBytes (topic : String) (env : CallEnv) (offset size : Int)
  | read (topic : String) (env : CallEnv) (offset size : Int)
  | release (handle : Nat)
  | cleanup
  deriving DecidableEq

/-- What the caller of an operation sees. The handle inside a `ReadResult` is not
part of it. -/
inductive LogResult where
  | created (result : Except LogError Unit)
  | appended (result : Except LogError Int)
  | bytes (result : Except LogError ReadResultBytes)
  | fileSlice (result : Except LogError (Int × Int × FileSlice))
  | done
  deriving DecidableEq

namespace LogOp

/-- The topic an operation is called for; the cleanup thread serves all topics. -/
def topic? : LogOp → Option String
  | .createTopic topic => some topic
  | .append topic _ _ => some topic
  | .readBytes topic _ _ _ => some topic
  | .read topic _ _ _ => some topic
  | .release _ => none
  | .cleanup => none

def FilesSucceed : LogOp → Prop
  | .append _ env _ => env.ops = .succeed
  | .readBytes _ env _ _ => env.ops = .succeed
  | .read _ env _ _ => env.ops = .succeed
  | _ => True

/-- The payload an operation adds to a topic. -/
def added (topic : String) : LogOp → List Bytes
  | .append topic' _ data => if topic' = topic ∧ data.length < 2 ^ 32 then [data] else []
  | _ => []

end LogOp

namespace LogManager

def apply (lm : LogManager) : LogOp → LogManager × LogResult
  | .createTopic topic =>
    let (lm, result) := lm.createTopic topic
    (lm, .created result)
  | .append topic env data =>
    let (lm, result) := lm.append env topic data
    (lm, .appended result)
  | .readBytes topic env offset size =>
    let (lm, result) := lm.readBytes env topic offset size
    (lm, .bytes result)
  | .read topic env offset size =>
    let (lm, result) := lm.read env topic offset size
    (lm, .fileSlice (result.map fun r => (r.nextOffset, r.highWatermark, r.fileSlice)))
  | .release handle => (lm.releaseHandle handle, .done)
  | .cleanup => (lm.cleanupStep, .done)

/-- Topic and base offset of the segment an operation opens, if it opens one. -/
def opened (lm : LogManager) : LogOp → Option (String × Int)
  | .createTopic topic =>
    if (lm.registry.registry.get? topic).isNone then some (topic, 0) else none
  | .append topic env data => (lm.opens env.now topic data).map (topic, ·)
  | _ => none

end LogManager

/-- A step that keeps the topics apart. -/
structure SafeStep (lm : LogManager) (op : LogOp) : Prop where
  files : op.FilesSucceed
  clear : ∀ topic base, lm.opened op = some (topic, base) → ClearOf lm.registry topic base

theorem clearOf_iff_items {r : SegmentRegistry} {topic : String} {base : Int} :
    ClearOf r topic base ↔ ∀ item ∈ r.registry.items, ∀ m ∈ item.2,
      m.topic = item.1 → m.topic ≠ topic →
        m.getId ≠ segmentKey topic base ∧ resolve m.path ≠ resolve (r.buildSegmentPath topic base) := by
  constructor
  · rintro h ⟨key, segs⟩ hitem m hm rfl
    exact h m ⟨segs, (Dict.get?_eq_some_iff _ _ _).mpr hitem, hm⟩
  · rintro h m ⟨segs, hget, hm⟩
    exact h (m.topic, segs) ((Dict.get?_eq_some_iff _ _ _).mp hget) m hm rfl

instance (r : SegmentRegistry) (topic : String) (base : Int) : Decidable (ClearOf r topic base) :=
  decidable_of_iff _ clearOf_iff_items.symm

instance (op : LogOp) : Decidable op.FilesSucceed :=
  match op with
  | .append _ env _ => inferInstanceAs (Decidable (env.ops = .succeed))
  | .readBytes _ env _ _ => inferInstanceAs (Decidable (env.ops = .succeed))
  | .read _ env _ _ => inferInstanceAs (Decidable (env.ops = .succeed))
  | .createTopic _ => isTrue trivial
  | .release _ => isTrue trivial
  | .cleanup => isTrue trivial

theorem safeStep_iff {lm : LogManager} {op : LogOp} :
    SafeStep lm op ↔ op.FilesSucceed ∧
      ∀ seg ∈ lm.opened op, ClearOf lm.registry seg.1 seg.2 :=
  ⟨fun h => ⟨h.files, fun seg hseg => h.clear seg.1 seg.2 hseg⟩,
    fun h => ⟨h.1, fun topic base hopen => h.2 (topic, base) hopen⟩⟩

instance (lm : LogManager) (op : LogOp) : Decidable (SafeStep lm op) :=
  decidable_of_iff _ safeStep_iff.symm

/-- A log with a single topic has no clashes to avoid. -/
theorem clearOf_of_only {r : SegmentRegistry} {topic : String}
    (only : ∀ topic', r.registry.get? topic' ≠ none → topic' = topic) (base : Int) :
    ClearOf r topic base := by
  rintro m ⟨segs, hget, -⟩ hne
  exact absurd (only m.topic (by rw [hget]; exact Option.some_ne_none _)) hne

/-- The effect of a safe step on registry, files and payloads. -/
structure SafeEffect (lm lm' : LogManager) (op : LogOp) : Prop where
  ok : LogOk lm'
  settings : SameSettings lm lm'
  records : RecordsOk lm → RecordsOk lm'
  payloads : RecordsOk lm → ∀ topic, lm'.payloads topic = lm.payloads topic ++ op.added topic
  registry : ∀ topic, op.topic? ≠ some topic →
    lm'.registry.registry.get? topic = lm.registry.registry.get? topic
  files : ∀ m, lm.registry.Holds m → op.topic? ≠ some m.topic →
    lm'.disk.content m.path = lm.disk.content m.path

theorem recordsOk_start (config : LogConfig) (importTime : Time) :
    RecordsOk (LogManager.start config importTime) := by
  rintro m ⟨segs, hget, -⟩
  simp [LogManager.start] at hget

section
variable {lm lm' : LogManager}

theorem SafeEffect.of_same (ok : LogOk lm') (settings : SameSettings lm lm')
    (hregistry : lm'.registry = lm.registry) (hdisk : lm'.disk = lm.disk) {op : LogOp}
    (hadd : ∀ topic, op.added topic = []) : SafeEffect lm lm' op where
  ok := ok
  settings := settings
  records := fun recs m hm => by
    rw [hdisk]
    exact recs m (by rwa [hregistry] at hm)
  payloads := fun _ topic => by
    simp only [LogManager.payloads, hregistry, hdisk, hadd, List.append_nil]
  registry := fun topic _ => by rw [hregistry]
  files := fun m _ _ => by rw [hdisk]

theorem SafeEffect.of_opened (ok : LogOk lm) {m : SegmentMeta} (opened : Opened lm lm' m)
    (hm : lm.registry.Holds m) {op : LogOp} (hop : op.topic? = some m.topic)
    (hadd : ∀ topic, op.added topic = []) : SafeEffect lm lm' op where
  ok := opened.ok
  settings := opened.settings
  records := fun recs => (opened.payloads recs ok).1
  payloads := fun recs topic => by
    rw [((opened.payloads recs ok).2 topic).1, hadd, List.append_nil]
  registry := fun topic _ => by rw [opened.registry]
  files := fun m' hm' hne => by
    rw [opened.content, if_neg]
    intro hfile
    rw [ok.segmentsApart m' m hm' hm (Or.inr hfile)] at hne
    exact hne hop

/-- A topic that is only created has an empty log. -/
theorem createTopic_effect (ok : LogOk lm) {topic : String} {op : LogOp}
    (hop : op.topic? = some topic) (hadd : ∀ topic, op.added topic = [])
    (clear : lm.registry.registry.get? topic = none → ClearOf lm.registry topic 0) :
    SafeEffect lm (lm.createTopic topic).1 op := by
  cases hget : lm.registry.registry.get? topic with
  | some segs =>
      rw [createTopic_of_some ok.shaped hget]
      exact SafeEffect.of_same ok (SameSettings.refl lm) rfl rfl hadd
  | none =>
      rw [createTopic_of_none hget]
      refine ⟨ok.firstSegment hget (clear hget), ⟨rfl, rfl, rfl, rfl, rfl⟩, ?_, ?_, ?_, ?_⟩
      · intro recs m hm
        rcases holds_setTopic_iff.mp hm with ⟨-, hmem⟩ | ⟨-, hold⟩
        · rw [List.mem_singleton.mp hmem]
          exact (wholeRecords_empty lm.disk rfl).1
        · exact recs m hold
      · intro _ topic'
        by_cases ht : topic' = topic
        · subst ht
          have hnew : segmentPayloads lm.disk (lm.registry.newSegment topic' 0) = [] :=
            (wholeRecords_empty lm.disk rfl).2
          simp [LogManager.payloads, SegmentRegistry.setTopic_get?, hget, hadd, hnew]
        · simp [LogManager.payloads, SegmentRegistry.setTopic_get?, ht, hadd]
      · intro topic' hne
        have ht : ¬ topic' = topic := fun h => hne (h ▸ hop)
        simp [SegmentRegistry.setTopic_get?, ht]
      · intro m _ _
        rfl

theorem append_effect (ok : LogOk lm) {topic : String} {env : CallEnv} {data : Bytes}
    (safe : SafeStep lm (.append topic env data)) :
    SafeEffect lm (lm.append env topic data).1 (.append topic env data) := by
  have clear : ∀ base, lm.opens env.now topic data = some base → ClearOf lm.registry topic base :=
    fun base h => safe.clear topic base (by simp [LogManager.opened, h])
  by_cases hlen : data.length < 2 ^ 32
  · obtain ⟨front, m, start, lm', htarget, segs, happ, written⟩ :=
      append_spec ok safe.files hlen clear
    rw [happ]
    have target := fun (recs : RecordsOk lm) => appendTarget_payloads ok.shaped
      (fun m hm _ => recs m hm) env.now (4 + data.length) htarget
    have effect := fun recs => written.payloads recs ok hlen segs (target recs)
    refine ⟨written.ok, written.settings, fun recs => (effect recs).1, ?_, ?_, ?_⟩
    · intro recs topic'
      by_cases ht : topic' = topic
      · subst ht
        rw [(effect recs).2.1, LogOp.added, if_pos ⟨rfl, hlen⟩]
      · rw [((effect recs).2.2 topic' ht).1, LogOp.added, if_neg (fun h => ht h.1.symm),
          List.append_nil]
    · intro topic' hne
      have ht : ¬ topic' = topic := fun h => hne (by rw [h]; rfl)
      rw [written.registry, SegmentRegistry.setTopic_get?, if_neg ht]
    · intro m' hm' hne
      exact written.content_of_other segs hm' fun ht => hne (by rw [ht]; rfl)
  · rw [append_of_long ok.shaped (by omega)]
    refine createTopic_effect ok rfl ?_ ?_
    · intro topic'
      rw [LogOp.added, if_neg (fun h => hlen h.2)]
    · intro hget
      exact clear 0 (by simp [LogManager.opens, hget])

theorem readBytes_effect (ok : LogOk lm) {env : CallEnv} (hops : env.ops = .succeed)
    (topic : String) (offset size : Int) :
    SafeEffect lm (lm.readBytes env topic offset size).1 (.readBytes topic env offset size) := by
  cases hseg : lm.registry.getSegment topic offset with
  | error err =>
      have : lm.readBytes env topic offset size = (lm, .error err) := by
        simp only [LogManager.readBytes, hseg]
      rw [this]
      exact SafeEffect.of_same ok (SameSettings.refl lm) rfl rfl fun _ => rfl
  | ok m =>
      obtain ⟨lm', latest, -, hread, opened⟩ := readBytes_spec ok hops size hseg
      obtain ⟨hm, rfl⟩ := ok.holds_of_getSegment hseg
      rw [hread]
      exact SafeEffect.of_opened ok opened hm rfl fun _ => rfl

theorem read_effect (ok : LogOk lm) {env : CallEnv} (hops : env.ops = .succeed)
    (topic : String) (offset size : Int) :
    SafeEffect lm (lm.read env topic offset size).1 (.read topic env offset size) := by
  cases hseg : lm.registry.getSegment topic offset with
  | error err =>
      have : lm.read env topic offset size = (lm, .error err) := by
        simp only [LogManager.read, hseg]
      rw [this]
      exact SafeEffect.of_same ok (SameSettings.refl lm) rfl rfl fun _ => rfl
  | ok m =>
      obtain ⟨lm', latest, handle, -, hread, opened⟩ := read_spec ok hops size hseg
      obtain ⟨hm, rfl⟩ := ok.holds_of_getSegment hseg
      rw [hread]
      exact SafeEffect.of_opened ok opened hm rfl fun _ => rfl

theorem cleanupStep_settings (lm : LogManager) : SameSettings lm lm.cleanupStep := by
  refine ⟨rfl, ?_, ?_, rfl, rfl⟩
  all_goals
    simp only [LogManager.cleanupStep, SegmentMemory.cleanupStep]
    split
    · split <;> rfl
    · split <;> rfl

/-- What one safe operation does. -/
theorem apply_effect (ok : LogOk lm) {op : LogOp} (safe : SafeStep lm op) :
    SafeEffect lm (lm.apply op).1 op := by
  cases op with
  | createTopic topic =>
      refine createTopic_effect ok rfl (fun _ => rfl) ?_
      intro hget
      exact safe.clear topic 0 (by simp [LogManager.opened, hget])
  | append topic env data => exact append_effect ok safe
  | readBytes topic env offset size => exact readBytes_effect ok safe.files topic offset size
  | read topic env offset size => exact read_effect ok safe.files topic offset size
  | release handle =>
      have settings : SameSettings lm (lm.releaseHandle handle) := ⟨rfl, rfl, rfl, rfl, rfl⟩
      refine SafeEffect.of_same (ok.releaseHandle handle) settings rfl rfl ?_
      intro topic
      rfl
  | cleanup =>
      refine SafeEffect.of_same ok.cleanupStep (cleanupStep_settings lm) rfl rfl ?_
      intro topic
      rfl

end
end PyLogStream
