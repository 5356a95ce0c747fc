import PyLogStream.Log.Operations

/-!
Two managers that agree on a topic's segment list and on the files of these
segments answer every operation on the topic alike and go on agreeing; operations
on other topics leave the agreement as it is.
-/

namespace PyLogStream
open Lib

/-- What an observer of the topic depends on is the same in both managers. -/
structure SameTopic (topic : String) (lm lm' : LogManager) : Prop where
  settings : SameSettings lm lm'
  entry : lm'.registry.registry.get? topic = lm.registry.registry.get? topic
  files : ∀ segs, lm.registry.registry.get? topic = some segs → ∀ m ∈ segs,
    lm'.disk.content m.path = lm.disk.content m.path

section Congruence
variable {topic : String} {lm lm' : LogManager}

theorem SameTopic.newSegment (same : SameTopic topic lm lm') (base : Int) :
    lm'.registry.newSegment topic base = lm.registry.newSegment topic base := by
  simp [SegmentRegistry.newSegment, SegmentRegistry.buildSegmentPath, same.settings.logDir,
    same.settings.createdAt]

theorem SameTopic.appendTarget (same : SameTopic topic lm lm') (now : Time) (required : Nat) :
    lm'.appendTarget now topic required = lm.appendTarget now topic required := by
  simp only [LogManager.appendTarget, same.entry, same.newSegment, same.settings.policy]

theorem SameTopic.opens (same : SameTopic topic lm lm') (now : Time) (data : Bytes) :
    lm'.opens now topic data = lm.opens now topic data := by
  simp only [LogManager.opens, same.entry, same.settings.policy]

theorem SameTopic.getSegment (same : SameTopic topic lm lm') (offset : Int) :
    lm'.registry.getSegment topic offset = lm.registry.getSegment topic offset := by
  simp only [SegmentRegistry.getSegment, same.entry]

theorem SameTopic.getLatestOffset (same : SameTopic topic lm lm') :
    lm'.registry.getLatestOffset topic = lm.registry.getLatestOffset topic := by
  simp only [SegmentRegistry.getLatestOffset, same.entry]

theorem SameTopic.segmentView (same : SameTopic topic lm lm') {offset : Int} {m : SegmentMeta}
    (h : lm.registry.getSegment topic offset = .ok m) :
    lm'.disk.content m.path = lm.disk.content m.path ∧ lm'.segmentView m = lm.segmentView m := by
  obtain ⟨segs, hget, hm⟩ := SegmentRegistry.getSegment_mem h
  have hfile := same.files segs hget m hm
  exact ⟨hfile, by simp only [LogManager.segmentView, hfile, same.settings.initSegmentSize]⟩

/-- The file of a segment an append is about to open is empty. -/
theorem fresh_file (ok : LogOk lm) {base : Nat} (clear : ClearOf lm.registry topic base)
    (unused : ∀ segs, lm.registry.registry.get? topic = some segs → ∀ m ∈ segs,
      m.baseOffset ≠ base) :
    lm.disk.content (lm.registry.newSegment topic base).path = [] := by
  apply ok.storage.content_of_clear
  intro m hm hfile
  obtain ⟨segs, hget, hmem⟩ := hm
  by_cases ht : m.topic = topic
  · rw [ht] at hget
    obtain ⟨front, last, start, rfl, hsegs⟩ := ok.shaped _ _ hget
    obtain ⟨base', hat⟩ := hsegs.mem_at hmem
    obtain rfl := hat.base_of_clash (lm.registry.newSegment_at topic base) (Or.inr hfile)
    exact unused _ hget m hmem hat.base_eq
  · exact (clear m ⟨segs, hget, hmem⟩ ht).2 hfile

/-- The segments an append starts from are old ones, up to sealing, except that
the segment written to may be a new one with an empty file. -/
theorem appendTarget_origin (ok : LogOk lm) {now : Time} {data : Bytes}
    (hlen : data.length < 2 ^ 32)
    (clear : ∀ base, lm.opens now topic data = some base → ClearOf lm.registry topic base)
    {front : List SegmentMeta} {m : SegmentMeta}
    (h : lm.appendTarget now topic (4 + data.length) = (front, m)) :
    (∀ m' ∈ front, ∃ segs, lm.registry.registry.get? topic = some segs ∧
      ∃ old ∈ segs, old.path = m'.path) ∧
    ((∃ segs, lm.registry.registry.get? topic = some segs ∧ m ∈ segs) ∨
      lm.disk.content m.path = []) := by
  cases appendCase ok.shaped h with
  | first hget =>
      refine ⟨by simp, Or.inr (fresh_file ok (clear 0 (by simp [LogManager.opens, hget])) ?_)⟩
      intro segs hsegs
      rw [hget] at hsegs
      cases hsegs
  | active hget segs stay =>
      exact ⟨fun m' hm' => ⟨_, hget, m', List.mem_append_left _ hm', rfl⟩,
        Or.inl ⟨_, hget, by simp⟩⟩
  | @rolled front₀ last start hget segs roll =>
      have hsize := size_pos_of_roll roll
      refine ⟨?_, Or.inr (fresh_file ok ?_ ?_)⟩
      · intro m' hm'
        rcases List.mem_append.mp hm' with hf | hl
        · exact ⟨_, hget, m', List.mem_append_left _ hf, rfl⟩
        · rw [List.mem_singleton.mp hl]
          exact ⟨_, hget, last, by simp, rfl⟩
      · apply clear
        simp only [LogManager.opens, hget, List.getLast?_concat, roll, segs.getEndOffset_last,
          Bool.and_true, decide_eq_true hlen, if_true]
      · intro segs' hget' m' hm'
        rw [hget] at hget'
        obtain rfl := Option.some.inj hget'
        rcases List.mem_append.mp hm' with hf | hl
        · have hbelow := segs.front_below hf
          rw [segs.at_end.base_eq] at hbelow
          omega
        · rw [List.mem_singleton.mp hl, segs.at_end.base_eq]
          omega

end Congruence

section Step
variable {topic : String} {lm lm' : LogManager}

theorem SameTopic.createTopic (same : SameTopic topic lm lm') (ok : LogOk lm) (ok' : LogOk lm')
    (clear : lm.registry.registry.get? topic = none → ClearOf lm.registry topic 0)
    (clear' : lm'.registry.registry.get? topic = none → ClearOf lm'.registry topic 0) :
    (lm'.createTopic topic).2 = (lm.createTopic topic).2 ∧
      SameTopic topic (lm.createTopic topic).1 (lm'.createTopic topic).1 := by
  cases hget : lm.registry.registry.get? topic with
  | some segs =>
      rw [createTopic_of_some ok.shaped hget, createTopic_of_some ok'.shaped (same.entry.trans hget)]
      exact ⟨rfl, same⟩
  | none =>
      have hget' := same.entry.trans hget
      rw [createTopic_of_none hget, createTopic_of_none hget']
      refine ⟨rfl, ⟨same.settings.policy, same.settings.initSegmentSize,
        same.settings.segmentSizeInc, same.settings.logDir, same.settings.createdAt⟩, ?_, ?_⟩
      · simp only [SegmentRegistry.setTopic_get?, if_true, same.newSegment]
      · intro segs hsegs m hm
        simp only [SegmentRegistry.setTopic_get?, if_true, Option.some.injEq] at hsegs
        rw [← hsegs, List.nil_append, List.mem_singleton] at hm
        have unused : ∀ lm₀ : LogManager, lm₀.registry.registry.get? topic = none → ∀ segs,
            lm₀.registry.registry.get? topic = some segs → ∀ m ∈ segs,
            m.baseOffset ≠ ((0 : Nat) : Int) := by
          intro lm₀ hnone segs hsome
          rw [hnone] at hsome
          cases hsome
        have hempty := fresh_file ok (clear hget) (unused lm hget)
        have hempty' := fresh_file ok' (clear' hget') (unused lm' hget')
        rw [same.newSegment] at hempty'
        rw [hm]
        exact hempty'.trans hempty.symm

theorem SameTopic.append (same : SameTopic topic lm lm') (ok : LogOk lm) (ok' : LogOk lm')
    {env : CallEnv} {data : Bytes} (safe : SafeStep lm (.append topic env data))
    (safe' : SafeStep lm' (.append topic env data)) :
    (lm'.append env topic data).2 = (lm.append env topic data).2 ∧
      SameTopic topic (lm.append env topic data).1 (lm'.append env topic data).1 := by
  have clear : ∀ base, lm.opens env.now topic data = some base → ClearOf lm.registry topic base :=
    fun base h => safe.clear topic base (by simp [LogManager.opened, h])
  have clear' : ∀ base, lm'.opens env.now topic data = some base →
      ClearOf lm'.registry topic base :=
    fun base h => safe'.clear topic base (by simp [LogManager.opened, h])
  by_cases hlen : data.length < 2 ^ 32
  · obtain ⟨front, m, start, lm₁, htarget, segs, happ, written⟩ :=
      append_spec ok safe.files hlen clear
    obtain ⟨front', m', start', lm₁', htarget', segs', happ', written'⟩ :=
      append_spec ok' safe'.files hlen clear'
    obtain ⟨rfl, rfl⟩ : front = front' ∧ m = m' := by
      rw [same.appendTarget, htarget] at htarget'
      exact Prod.mk.inj htarget'
    obtain rfl : start = start' := by
      have := segs.at_end.base_eq
      rw [segs'.at_end.base_eq] at this
      omega
    obtain ⟨holdfront, horigin⟩ := appendTarget_origin ok hlen clear htarget
    obtain ⟨-, horigin'⟩ := appendTarget_origin ok' hlen clear' htarget'
    have hfile : lm'.disk.content m.path = lm.disk.content m.path := by
      rcases horigin with ⟨old, hget, hm⟩ | hempty
      · exact same.files old hget m hm
      · rcases horigin' with ⟨old, hget, hm⟩ | hempty'
        · exact same.files old (same.entry.symm.trans hget) m hm
        · rw [hempty, hempty']
    rw [happ, happ']
    refine ⟨rfl, written.settings.symm.trans (same.settings.trans written'.settings), ?_, ?_⟩
    · simp only [written.registry, written'.registry, SegmentRegistry.setTopic_get?, if_true]
    · intro new hnew m' hm'
      simp only [written.registry, SegmentRegistry.setTopic_get?, if_true,
        Option.some.injEq] at hnew
      rw [written.content, written'.content, hfile, same.settings.initSegmentSize,
        same.settings.segmentSizeInc]
      split
      · rfl
      · next hne =>
          rw [← hnew] at hm'
          rcases List.mem_append.mp hm' with hf | hl
          · obtain ⟨old, hget, m₀, hm₀, hpath⟩ := holdfront m' hf
            rw [← hpath]
            exact same.files old hget m₀ hm₀
          · rw [List.mem_singleton.mp hl] at hne
            exact absurd rfl hne
  · rw [append_of_long ok.shaped (by omega), append_of_long ok'.shaped (by omega)]
    exact ⟨rfl, (same.createTopic ok ok' (fun hget => clear 0 (by simp [LogManager.opens, hget]))
      fun hget => clear' 0 (by simp [LogManager.opens, hget])).2⟩

/-- Opening the same file keeps the managers alike. -/
theorem SameTopic.opened (same : SameTopic topic lm lm') {m : SegmentMeta} {lm₁ lm₁' : LogManager}
    (hfile : lm'.disk.content m.path = lm.disk.content m.path) (opened : Opened lm lm₁ m)
    (opened' : Opened lm' lm₁' m) : SameTopic topic lm₁ lm₁' where
  settings := opened.settings.symm.trans (same.settings.trans opened'.settings)
  entry := by rw [opened.registry, opened'.registry, same.entry]
  files := by
    intro segs hget m' hm'
    rw [opened.registry] at hget
    rw [opened.content, opened'.content, hfile, same.settings.initSegmentSize,
      same.files segs hget m' hm']

theorem SameTopic.readBytes (same : SameTopic topic lm lm') (ok : LogOk lm) (ok' : LogOk lm')
    {env : CallEnv} (hops : env.ops = .succeed) (offset size : Int) :
    (lm'.readBytes env topic offset size).2 = (lm.readBytes env topic offset size).2 ∧
      SameTopic topic (lm.readBytes env topic offset size).1
        (lm'.readBytes env topic offset size).1 := by
  have hseg' := same.getSegment offset
  cases hseg : lm.registry.getSegment topic offset with
  | error err =>
      simp only [LogManager.readBytes, hseg', hseg]
      exact ⟨trivial, same⟩
  | ok m =>
      rw [hseg] at hseg'
      obtain ⟨hfile, hview⟩ := same.segmentView hseg
      obtain ⟨lm₁, latest, hlatest, hread, opened⟩ := readBytes_spec ok hops size hseg
      obtain ⟨lm₁', latest', hlatest', hread', opened'⟩ := readBytes_spec ok' hops size hseg'
      obtain rfl : latest = latest' := by
        rw [same.getLatestOffset, hlatest] at hlatest'
        exact Except.ok.inj hlatest'
      rw [hread, hread', hview]
      exact ⟨rfl, same.opened hfile opened opened'⟩

theorem SameTopic.read (same : SameTopic topic lm lm') (ok : LogOk lm) (ok' : LogOk lm')
    {env : CallEnv} (hops : env.ops = .succeed) (offset size : Int) :
    (lm'.apply (.read topic env offset size)).2 = (lm.apply (.read topic env offset size)).2 ∧
      SameTopic topic (lm.read env topic offset size).1 (lm'.read env topic offset size).1 := by
  have hseg' := same.getSegment offset
  cases hseg : lm.registry.getSegment topic offset with
  | error err =>
      simp only [LogManager.apply, LogManager.read, hseg', hseg]
      exact ⟨trivial, same⟩
  | ok m =>
      rw [hseg] at hseg'
      obtain ⟨hfile, hview⟩ := same.segmentView hseg
      obtain ⟨lm₁, latest, i, hlatest, hread, opened⟩ := read_spec ok hops size hseg
      obtain ⟨lm₁', latest', i', hlatest', hread', opened'⟩ := read_spec ok' hops size hseg'
      obtain rfl : latest = latest' := by
        rw [same.getLatestOffset, hlatest] at hlatest'
        exact Except.ok.inj hlatest'
      simp only [LogManager.apply, hread, hread', hview]
      exact ⟨rfl, same.opened hfile opened opened'⟩

/-- Related managers answer an operation on the topic alike and stay related. -/
theorem SameTopic.apply (same : SameTopic topic lm lm') (ok : LogOk lm) (ok' : LogOk lm')
    {op : LogOp} (hop : op.topic? = some topic ∨ op.topic? = none) (safe : SafeStep lm op)
    (safe' : SafeStep lm' op) :
    (lm'.apply op).2 = (lm.apply op).2 ∧ SameTopic topic (lm.apply op).1 (lm'.apply op).1 := by
  cases op with
  | createTopic topic' =>
      obtain rfl : topic' = topic := by simpa [LogOp.topic?] using hop
      obtain ⟨hresult, same'⟩ := same.createTopic ok ok'
        (fun hget => safe.clear _ _ (by simp [LogManager.opened, hget]))
        fun hget => safe'.clear _ _ (by simp [LogManager.opened, hget])
      exact ⟨congrArg LogResult.created hresult, same'⟩
  | append topic' env data =>
      obtain rfl : topic' = topic := by simpa [LogOp.topic?] using hop
      obtain ⟨hresult, same'⟩ := same.append ok ok' safe safe'
      exact ⟨congrArg LogResult.appended hresult, same'⟩
  | readBytes topic' env offset size =>
      obtain rfl : topic' = topic := by simpa [LogOp.topic?] using hop
      obtain ⟨hresult, same'⟩ := same.readBytes ok ok' safe.files offset size
      exact ⟨congrArg LogResult.bytes hresult, same'⟩
  | read topic' env offset size =>
      obtain rfl : topic' = topic := by simpa [LogOp.topic?] using hop
      exact same.read ok ok' safe.files offset size
  | release handle =>
      refine ⟨rfl, ?_, same.entry, same.files⟩
      exact ⟨same.settings.policy, same.settings.initSegmentSize, same.settings.segmentSizeInc,
        same.settings.logDir, same.settings.createdAt⟩
  | cleanup =>
      exact ⟨rfl, (cleanupStep_settings lm).symm.trans
        (same.settings.trans (cleanupStep_settings lm')), same.entry, same.files⟩

/-- An operation on another topic is invisible. -/
theorem SameTopic.hidden (same : SameTopic topic lm lm') (ok : LogOk lm) {op : LogOp}
    (hop : op.topic? ≠ some topic) (safe : SafeStep lm op) :
    SameTopic topic (lm.apply op).1 lm' := by
  have effect := apply_effect ok safe
  refine ⟨effect.settings.symm.trans same.settings, ?_, ?_⟩
  · rw [same.entry, effect.registry topic hop]
  · intro segs hget m hm
    rw [effect.registry topic hop] at hget
    obtain ⟨hold, ht⟩ := ok.mem_topic hget hm
    rw [same.files segs hget m hm, effect.files m hold (by rw [ht]; exact hop)]

end Step
end PyLogStream
