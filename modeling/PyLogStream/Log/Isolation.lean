import PyLogStream.Lib.Run
import PyLogStream.Log.SameTopic
import PyLogStream.Log.Stalled

/-!
Topic isolation over whole runs: a run shows an observer of one topic what the
run without the other topics shows. The one thing that can break this is a clash
of cache keys or files between segments of different topics.
-/

namespace PyLogStream
open Lib

section Runs
variable {topic : String} {lm lm' : LogManager}

def ownedBy (topic : String) (op : LogOp) : Bool := op.topic? == some topic

/-- Operations on the topic and those for no topic in particular. -/
def keptFor (topic : String) (op : LogOp) : Bool := op.topic? == some topic || op.topic?.isNone

/-- Different segments never share a cache key, a cache entry or a file. -/
def NoSharing (lm : LogManager) : Prop :=
  ∀ m m', lm.registry.Holds m → lm.registry.Holds m' →
    (m.topic, m.baseOffset) ≠ (m'.topic, m'.baseOffset) →
    m.getId ≠ m'.getId ∧ resolve m.path ≠ resolve m'.path ∧
      ∀ i, lm.memory.cache.get? m.getId = some i → lm.memory.cache.get? m'.getId ≠ some i

theorem LogOk.noSharing (ok : LogOk lm) : NoSharing lm := by
  intro m m' hm hm' hne
  have clear : ¬ (m.getId = m'.getId ∨ resolve m.path = resolve m'.path) := by
    intro clash
    obtain ⟨ht, hb⟩ := ok.apart m m' hm hm' clash
    exact hne (Prod.ext ht hb)
  refine ⟨fun h => clear (Or.inl h), fun h => clear (Or.inr h), ?_⟩
  intro i hi hi'
  obtain ⟨e, m₁, he, hm₁, hid, back⟩ := ok.storage.cached _ i hi
  obtain ⟨e', m₁', he', hm₁', hid', back'⟩ := ok.storage.cached _ i hi'
  obtain rfl : e = e' := Option.some.inj (he.symm.trans he')
  have hsame := ok.segmentsApart m₁ m₁' hm₁ hm₁'
    (Or.inr (by rw [← back.path_eq, ← back'.path_eq]))
  exact clear (Or.inl (by rw [hid, hid', hsame]))

theorem Stalled.noSharing (h : Stalled lm) (apart : KeysApart lm.registry) : NoSharing lm := by
  intro m m' hm hm' hne
  have clear : ¬ (m.getId = m'.getId ∨ resolve m.path = resolve m'.path) := by
    intro clash
    obtain ⟨ht, hb⟩ := apart m m' hm hm' clash
    exact hne (Prod.ext ht hb)
  exact ⟨fun h => clear (Or.inl h), fun h => clear (Or.inr h),
    fun i hi hi' => clear (Or.inl (h.memory.unshared _ _ i hi hi'))⟩

/-- A topic made known by a safe step clashes with no other topic. -/
theorem KeysApart.stalled (apart : KeysApart lm.registry) {op : LogOp} (safe : SafeStep lm op) :
    KeysApart (lm.stalledRegistry op) := by
  unfold LogManager.stalledRegistry
  cases hnew : lm.stalledTopic op with
  | none => exact apart
  | some topic =>
      have clear : ClearOf lm.registry topic 0 := by
        apply safe.clear topic 0
        cases op with
        | createTopic topic' =>
            simp only [LogManager.stalledTopic] at hnew
            split at hnew
            · next hget =>
                obtain rfl := Option.some.inj hnew
                simp [LogManager.opened, hget]
            · cases hnew
        | append topic' env data =>
            simp only [LogManager.stalledTopic] at hnew
            split at hnew
            · next hget =>
                obtain rfl := Option.some.inj hnew
                simp [LogManager.opened, LogManager.opens, hget]
            · cases hnew
        | _ => simp [LogManager.stalledTopic] at hnew
      have key : (lm.registry.newSegment topic 0).getId = segmentKey topic 0 :=
        (lm.registry.newSegment_at topic 0).getId_eq
      intro m m' hm hm' clash
      rcases holds_setTopic_iff.mp hm with ⟨ht, hmem⟩ | ⟨ht, hold⟩ <;>
        rcases holds_setTopic_iff.mp hm' with ⟨ht', hmem'⟩ | ⟨ht', hold'⟩
      · rw [List.mem_singleton.mp hmem, List.mem_singleton.mp hmem']
        exact ⟨rfl, rfl⟩
      · rw [List.mem_singleton.mp hmem, key] at clash
        obtain ⟨hid, hfile⟩ := clear m' hold' ht'
        exact (clash.elim (fun h => hid h.symm) fun h => hfile h.symm).elim
      · rw [List.mem_singleton.mp hmem', key] at clash
        obtain ⟨hid, hfile⟩ := clear m hold ht
        exact (clash.elim hid hfile).elim
      · exact apart m m' hold hold' clash

/-- The manager of the full run, on the left, and that of the run without other topics. -/
structure Isolated (topic : String) (lm lm' : LogManager) : Prop where
  ok : LogOk lm
  ok' : LogOk lm'
  only : ∀ topic', lm'.registry.registry.get? topic' ≠ none → topic' = topic
  same : SameTopic topic lm lm'

theorem keptFor_iff {op : LogOp} :
    keptFor topic op = true ↔ op.topic? = some topic ∨ op.topic? = none := by
  simp [keptFor]

/-- With one topic only, every step is safe. -/
theorem safeStep_of_only {op : LogOp} (files : op.FilesSucceed) (hop : keptFor topic op = true)
    (only : ∀ topic', lm'.registry.registry.get? topic' ≠ none → topic' = topic) :
    SafeStep lm' op := by
  refine ⟨files, ?_⟩
  intro topic' base hopen
  have htopic : op.topic? = some topic' := by
    cases op with
    | createTopic t =>
        simp only [LogManager.opened] at hopen
        split at hopen
        · rw [(Prod.mk.inj (Option.some.inj hopen)).1.symm]
          rfl
        · cases hopen
    | append t env data =>
        obtain ⟨b, -, heq⟩ := Option.map_eq_some_iff.mp hopen
        rw [(Prod.mk.inj heq).1.symm]
        rfl
    | _ => simp [LogManager.opened] at hopen
  obtain rfl : topic = topic' := by
    rcases keptFor_iff.mp hop with h | h
    · exact Option.some.inj (h.symm.trans htopic)
    · rw [htopic] at h
      cases h
  exact clearOf_of_only only base

theorem Isolated.visible (h : Isolated topic lm lm') {op : LogOp} (safe : SafeStep lm op)
    (hop : keptFor topic op = true) :
    Isolated topic (lm.apply op).1 (lm'.apply op).1 ∧ (lm.apply op).2 = (lm'.apply op).2 := by
  have safe' := safeStep_of_only safe.files hop h.only
  have effect' := apply_effect h.ok' safe'
  obtain ⟨hresult, same⟩ := h.same.apply h.ok h.ok' (keptFor_iff.mp hop) safe safe'
  refine ⟨⟨(apply_effect h.ok safe).ok, effect'.ok, ?_, same⟩, hresult.symm⟩
  intro topic' hne
  by_cases ht : op.topic? = some topic'
  · rcases keptFor_iff.mp hop with h' | h'
    · exact Option.some.inj (ht.symm.trans h')
    · rw [ht] at h'
      cases h'
  · rw [effect'.registry topic' ht] at hne
    exact h.only topic' hne

theorem Isolated.hidden (h : Isolated topic lm lm') {op : LogOp} (safe : SafeStep lm op)
    (hop : keptFor topic op = false) : Isolated topic (lm.apply op).1 lm' := by
  have hne : op.topic? ≠ some topic := by
    intro heq
    rw [keptFor_iff.mpr (Or.inl heq)] at hop
    cases hop
  exact ⟨(apply_effect h.ok safe).ok, h.ok', h.only, h.same.hidden h.ok hne safe⟩

/-- The same for managers that cannot load anything. -/
structure StalledPair (topic : String) (lm lm' : LogManager) : Prop where
  left : Stalled lm
  right : Stalled lm'
  apart : KeysApart lm.registry
  settings : SameSettings lm lm'
  entry : lm'.registry.registry.get? topic = lm.registry.registry.get? topic

theorem stalledRegistry_get? (lm : LogManager) (op : LogOp) (topic : String) :
    (lm.stalledRegistry op).registry.get? topic =
      if lm.stalledTopic op = some topic then some [lm.registry.newSegment topic 0]
      else lm.registry.registry.get? topic := by
  unfold LogManager.stalledRegistry
  cases h : lm.stalledTopic op with
  | none => simp
  | some topic' =>
      simp only [SegmentRegistry.setTopic_get?, Option.some.injEq]
      by_cases ht : topic = topic'
      · simp [ht]
      · simp [ht, Ne.symm ht]

theorem StalledPair.visible (h : StalledPair topic lm lm') {op : LogOp} (safe : SafeStep lm op)
    (hop : op.topic? = some topic ∨ op.topic? = none) :
    StalledPair topic (lm.apply op).1 (lm'.apply op).1 ∧ (lm.apply op).2 = (lm'.apply op).2 := by
  obtain ⟨left, settings, hreg, hresult⟩ := h.left.apply safe.files
  obtain ⟨right, settings', hreg', hresult'⟩ := h.right.apply safe.files
  have hseg : ∀ offset, lm'.registry.getSegment topic offset =
      lm.registry.getSegment topic offset := by
    intro offset
    simp only [SegmentRegistry.getSegment, h.entry]
  have hnew : lm'.registry.newSegment topic 0 = lm.registry.newSegment topic 0 := by
    simp [SegmentRegistry.newSegment, SegmentRegistry.buildSegmentPath, h.settings.logDir,
      h.settings.createdAt]
  have htopic : lm'.stalledTopic op = lm.stalledTopic op ∧
      lm'.stalledResult op = lm.stalledResult op := by
    cases op with
    | release | cleanup => exact ⟨rfl, rfl⟩
    | _ =>
        obtain rfl := Option.some.inj (hop.resolve_right (by simp [LogOp.topic?]))
        simp [LogManager.stalledTopic, LogManager.stalledResult, h.entry, hseg]
  refine ⟨⟨left, right, ?_, settings.symm.trans (h.settings.trans settings'), ?_⟩, ?_⟩
  · rw [hreg]
    exact h.apart.stalled safe
  · rw [hreg, hreg', stalledRegistry_get?, stalledRegistry_get?, htopic.1, hnew, h.entry]
  · rw [hresult, hresult', htopic.2]

theorem StalledPair.hidden (h : StalledPair topic lm lm') {op : LogOp} (safe : SafeStep lm op)
    (hop : op.topic? ≠ some topic) : StalledPair topic (lm.apply op).1 lm' := by
  obtain ⟨left, settings, hreg, -⟩ := h.left.apply safe.files
  have htopic : lm.stalledTopic op ≠ some topic := by
    intro heq
    cases op with
    | createTopic topic' | append topic' =>
        simp only [LogManager.stalledTopic] at heq
        split at heq
        · exact hop heq
        · cases heq
    | _ => simp [LogManager.stalledTopic] at heq
  refine ⟨left, h.right, ?_, settings.symm.trans h.settings, ?_⟩
  · rw [hreg]
    exact h.apart.stalled safe
  · rw [hreg, stalledRegistry_get?, if_neg htopic, h.entry]

end Runs

/-- In a run that never opens a segment with the cache key or the file of another
topic's segment, what the users of a topic see does not depend on the other
topics, and different segments share nothing. -/
theorem topics_isolated (config : LogConfig) (importTime : Time) (ops : List LogOp)
    (safe : MeetsAll LogManager.apply SafeStep (LogManager.start config importTime) ops)
    (topic : String) :
    let start := LogManager.start config importTime
    (trace LogManager.apply start ops).filter (fun entry => ownedBy topic entry.1) =
        (trace LogManager.apply start (ops.filter (keptFor topic))).filter
          (fun entry => ownedBy topic entry.1) ∧
      ∀ early late, ops = early ++ late → NoSharing (run LogManager.apply start early) := by
  have kept_of_own : ∀ op, ownedBy topic op = true → keptFor topic op = true := by
    intro op hop
    simp [keptFor, show op.topic? = some topic by simpa [ownedBy] using hop]
  have kept_ne : ∀ op, keptFor topic op = false → op.topic? ≠ some topic := by
    intro op hop heq
    rw [keptFor_iff.mpr (Or.inl heq)] at hop
    cases hop
  have empty : KeysApart (LogManager.start config importTime).registry := by
    rintro m m' ⟨segs, hget, -⟩
    simp [LogManager.start] at hget
  rcases Nat.eq_zero_or_pos config.initSegmentSize with hzero | hpos
  · have stalled := stalled_start config importTime hzero
    refine ⟨safe.trace_filter kept_of_own ?_ ?_
      (⟨stalled, stalled, empty, SameSettings.refl _, rfl⟩ : StalledPair topic _ _), ?_⟩
    · intro lm lm' op h hsafe hop
      obtain ⟨h', hresult⟩ := h.visible hsafe (keptFor_iff.mp hop)
      exact ⟨h', fun _ => hresult⟩
    · intro lm lm' op h hsafe hop
      exact h.hidden hsafe (kept_ne op hop)
    · rintro early late rfl
      have hinv := safe.of_append.1.invariant (fun lm => Stalled lm ∧ KeysApart lm.registry)
        (fun lm op h hsafe => by
          obtain ⟨h', -, hreg, -⟩ := h.1.apply hsafe.files
          exact ⟨h', by rw [hreg]; exact h.2.stalled hsafe⟩) ⟨stalled, empty⟩
      exact hinv.1.noSharing hinv.2
  · have ok := logOk_start config importTime hpos
    have init : Isolated topic (LogManager.start config importTime)
        (LogManager.start config importTime) :=
      ⟨ok, ok, by simp [LogManager.start], SameSettings.refl _, rfl, fun _ _ _ _ => rfl⟩
    refine ⟨safe.trace_filter kept_of_own ?_ ?_ init, ?_⟩
    · intro lm lm' op h hsafe hop
      obtain ⟨h', hresult⟩ := h.visible hsafe hop
      exact ⟨h', fun _ => hresult⟩
    · intro lm lm' op h hsafe hop
      exact h.hidden hsafe hop
    · rintro early late rfl
      exact (safe.of_append.1.invariant LogOk (fun lm op h hsafe => (apply_effect h hsafe).ok)
        ok).noSharing

/-- Two topics over three segments, with reads across the boundary. -/
def apartOps : List LogOp :=
  let env : CallEnv := ⟨0, .succeed⟩
  [.append "a" env [1, 2, 3, 4, 5, 6], .append "b" env [9], .append "a" env [7],
    .readBytes "b" env 0 100, .readBytes "a" env 10 100]

theorem topics_isolated_apart :
    let start := LogManager.start ⟨"data", 0, 100, 10, 8, 8, 1⟩ 0
    (trace LogManager.apply start apartOps).filter (fun entry => ownedBy "a" entry.1) =
        (trace LogManager.apply start (apartOps.filter (keptFor "a"))).filter
          (fun entry => ownedBy "a" entry.1) ∧
      NoSharing (run LogManager.apply start apartOps) :=
  have h := topics_isolated ⟨"data", 0, 100, 10, 8, 8, 1⟩ 0 apartOps (by decide +kernel) "a"
  ⟨h.1, h.2 apartOps [] (by simp)⟩

/-- Topic `a` rolls over to base offset 10 and topic `a1` starts at base offset 0:
both segments have the key `a10`. -/
def clashOps : List LogOp :=
  let env : CallEnv := ⟨0, .succeed⟩
  [.append "a" env [1, 2, 3, 4, 5, 6], .append "a" env [7], .append "a1" env [9],
    .readBytes "a" env 10 100]

theorem clash_breaks_isolation :
    let start := LogManager.start ⟨"data", 0, 100, 10, 8, 8, 2⟩ 0
    (trace LogManager.apply start clashOps).filter (fun entry => ownedBy "a" entry.1) ≠
        (trace LogManager.apply start (clashOps.filter (keptFor "a"))).filter
          (fun entry => ownedBy "a" entry.1) ∧
      ¬ NoSharing (run LogManager.apply start (clashOps.take 3)) := by
  intro start
  refine ⟨by decide +kernel, ?_⟩
  intro h
  let r := start.registry
  let m : SegmentMeta := { r.newSegment "a" 10 with size := 5 }
  let m' : SegmentMeta := { r.newSegment "a1" 0 with size := 5 }
  have hm : (run LogManager.apply start (clashOps.take 3)).registry.Holds m :=
    ⟨[{ r.newSegment "a" 0 with state := .sealed, size := 10 }, m], by decide +kernel, by simp⟩
  have hm' : (run LogManager.apply start (clashOps.take 3)).registry.Holds m' :=
    ⟨[m'], by decide +kernel, by simp⟩
  exact (h m m' hm hm' (by decide +kernel)).1 (by decide +kernel)

end PyLogStream
