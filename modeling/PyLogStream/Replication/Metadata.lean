import PyLogStream.Replication.Manager

/-!
What a broker holds for a topic after any deliveries of metadata. A message that is
newer than all before it takes effect; a delivery that is not is harmless exactly
when it leaves the topic alone, and the deliveries end with the newest message if
and only if all of them are harmless.
-/

namespace PyLogStream
open Lib

/-- The entry for the topic is what the message says: none if the broker is no
replica, and otherwise a state with its role, leader and replicas. -/
def TopicMetaDataResponse.Describes (metaData : TopicMetaDataResponse) (brokerId : String) :
    Option TopicState → Prop
  | none => brokerId ∉ metaData.replicaList
  | some state => brokerId ∈ metaData.replicaList ∧
      (TopicState.ofMeta brokerId metaData).CompareMeta state

/-- The branch taken changes nothing: a topic that is not held stays so, and a held
one sees no newer message or one with the same content. -/
def Harmless (m : ReplicaManager) (metaData : TopicMetaDataResponse) : Prop :=
  match m.topics.get? metaData.topic with
  | none => m.config.id ∉ metaData.replicaList
  | some oldState => m.config.id ∈ metaData.replicaList ∧
      (metaData.version ≤ oldState.version ∨
        (TopicState.ofMeta m.config.id metaData).CompareMeta oldState)

instance (m : ReplicaManager) (metaData : TopicMetaDataResponse) : Decidable (Harmless m metaData) :=
  match h : m.topics.get? metaData.topic with
  | none => decidable_of_iff (m.config.id ∉ metaData.replicaList) (by simp [Harmless, h])
  | some oldState => decidable_of_iff (m.config.id ∈ metaData.replicaList ∧
      (metaData.version ≤ oldState.version ∨
        (TopicState.ofMeta m.config.id metaData).CompareMeta oldState)) (by simp [Harmless, h])

section
variable {m : ReplicaManager} {metaData : TopicMetaDataResponse}

/-- A metadata that takes no effect changes nothing at all. -/
theorem applyMetadata_of_harmless (harmless : Harmless m metaData) :
    (m.applyMetadata metaData).1 = m ∧
      ∃ outcome, (m.applyMetadata metaData).2 = .ok outcome ∧ outcome.closed = none := by
  unfold Harmless at harmless
  cases hget : m.topics.get? metaData.topic with
  | none =>
      rw [hget] at harmless
      simp only [ReplicaManager.applyMetadata, harmless, not_false_eq_true, if_true,
        ReplicaManager.removeTopic, hget]
      exact ⟨trivial, _, rfl, rfl⟩
  | some oldState =>
      rw [hget] at harmless
      have hstate : m.topics.get? (TopicState.ofMeta m.config.id metaData).topic = some oldState := hget
      simp only [ReplicaManager.applyMetadata, harmless.1, not_true_eq_false, if_false, hstate]
      by_cases hold : metaData.version ≤ oldState.version
      · rw [if_pos hold]
        exact ⟨rfl, _, rfl, rfl⟩
      · rw [if_neg hold, if_pos (harmless.2.resolve_left hold)]
        exact ⟨rfl, _, rfl, rfl⟩

/-- One that does removes the topic, or installs the state it describes. -/
theorem applyMetadata_of_effect (effect : ¬ Harmless m metaData) :
    (m.config.id ∉ metaData.replicaList ∧ ∃ oldState,
      m.topics.get? metaData.topic = some oldState ∧
      m.applyMetadata metaData = ({ m with topics := m.topics.erase metaData.topic },
        .ok (.removed (some (ReplicaManager.closeState oldState))))) ∨
    (m.config.id ∈ metaData.replicaList ∧
      m.applyMetadata metaData = m.install (TopicState.ofMeta m.config.id metaData)
        ((m.topics.get? metaData.topic).map ReplicaManager.closeState)) := by
  by_cases member : m.config.id ∈ metaData.replicaList
  · refine Or.inr ⟨member, ?_⟩
    cases hget : m.topics.get? metaData.topic with
    | none =>
        have hstate : m.topics.get? (TopicState.ofMeta m.config.id metaData).topic = none := hget
        simp only [ReplicaManager.applyMetadata, member, not_true_eq_false, if_false, hstate,
          Option.map_none]
    | some oldState =>
        have hstate : m.topics.get? (TopicState.ofMeta m.config.id metaData).topic = some oldState :=
          hget
        simp only [Harmless, hget, member, true_and, not_or] at effect
        simp only [ReplicaManager.applyMetadata, member, not_true_eq_false, if_false, hstate,
          if_neg effect.1, if_neg effect.2, Option.map_some]
  · refine Or.inl ⟨member, ?_⟩
    cases hget : m.topics.get? metaData.topic with
    | none => exact absurd (by simpa only [Harmless, hget] using member) effect
    | some oldState =>
        refine ⟨oldState, rfl, ?_⟩
        simp only [ReplicaManager.applyMetadata, member, not_false_eq_true, if_true,
          ReplicaManager.removeTopic, hget]

theorem createTopic_ok {log : LogManager} (shaped : log.registry.Shaped) (topic : String) :
    (log.createTopic topic).2 = .ok () := by
  cases hget : log.registry.registry.get? topic with
  | none => rw [createTopic_of_none hget]
  | some segs => rw [createTopic_of_some shaped hget]

theorem ReplicaLeader.new_ok {log : LogManager} {topic : String} {logEnd : Int}
    (h : log.getLatestOffset topic = .ok logEnd) (id : String) (replicaList : List String)
    (minIsrCount maxIsrLagMs : Int) :
    ∃ leader, ReplicaLeader.new topic id replicaList log minIsrCount maxIsrLagMs = .ok leader := by
  simp [ReplicaLeader.new, h, computeHighWatermark, getLogEndOffset]

/-- A state starts without an error over any log in its shape. -/
theorem startTopic_spec (config : ReplicaConfig) {log : LogManager} (shaped : log.registry.Shaped)
    (state : TopicState) :
    ∃ log' started, ReplicaManager.startTopic config log state = (log', .ok started) ∧
      log'.registry.Shaped ∧ started.version = state.version ∧
      ∀ other : TopicState, other.CompareMeta state → other.CompareMeta started := by
  obtain ⟨hshaped, -, hlatest⟩ := createTopic_offsets shaped state.topic
  have hok := createTopic_ok shaped state.topic
  unfold ReplicaManager.startTopic
  cases hcreate : log.createTopic state.topic with
  | mk log' result =>
      rw [hcreate] at hshaped hlatest hok
      obtain rfl : result = .ok () := hok
      cases hrole : state.role with
      | follower => exact ⟨log', state, rfl, hshaped, rfl, fun _ h => h⟩
      | leader =>
          obtain ⟨leader, hnew⟩ := ReplicaLeader.new_ok hlatest config.id state.replicas
            config.minIsrCount config.maxIsrLagMs
          simp only [hnew]
          exact ⟨log', _, rfl, hshaped, rfl, fun _ h => ⟨h.1, h.2.1.trans hrole, h.2.2⟩⟩

theorem CompareMeta.refl (state : TopicState) : state.CompareMeta state :=
  ⟨rfl, rfl, rfl, rfl, rfl, fun _ h => h, fun _ h => h⟩

/-- The new state of the topic, if a delivery installs one. -/
structure Installed (m m' : ReplicaManager) (metaData : TopicMetaDataResponse) : Prop where
  member : m.config.id ∈ metaData.replicaList
  entry : ∃ state, m'.topics.get? metaData.topic = some state ∧
    state.version = metaData.version ∧
    (TopicState.ofMeta m.config.id metaData).CompareMeta state

theorem install_spec (shaped : m.log.registry.Shaped) (member : m.config.id ∈ metaData.replicaList)
    (closed : Option TopicState) :
    let m' := (m.install (TopicState.ofMeta m.config.id metaData) closed).1
    m'.config = m.config ∧ m'.log.registry.Shaped ∧ Installed m m' metaData := by
  obtain ⟨log, started, hstart, hshaped, hversion, hmeta⟩ :=
    startTopic_spec m.config shaped (TopicState.ofMeta m.config.id metaData)
  simp only [ReplicaManager.install, hstart]
  refine ⟨trivial, hshaped, member, started, ?_, hversion, hmeta _ (CompareMeta.refl _)⟩
  exact Dict.get?_set_self _ _ _

/-- What one delivery does: nothing, or a removal, or the installation of the state
the message describes. -/
theorem applyMetadata_spec (shaped : m.log.registry.Shaped) (metaData : TopicMetaDataResponse) :
    let m' := (m.applyMetadata metaData).1
    m'.config = m.config ∧ m'.log.registry.Shaped ∧
      (Harmless m metaData ∧ m' = m ∨
        ¬ Harmless m metaData ∧ m.config.id ∉ metaData.replicaList ∧
          (∃ oldState, m.topics.get? metaData.topic = some oldState) ∧
          m'.topics.get? metaData.topic = none ∨
        ¬ Harmless m metaData ∧ Installed m m' metaData) := by
  intro m'
  by_cases harmless : Harmless m metaData
  · obtain ⟨hsame, -⟩ := applyMetadata_of_harmless harmless
    rw [show m' = m from hsame]
    exact ⟨rfl, shaped, Or.inl ⟨harmless, rfl⟩⟩
  · rcases applyMetadata_of_effect harmless with ⟨hnot, oldState, hold, happly⟩ | ⟨member, happly⟩
    · simp only [m', happly]
      refine ⟨trivial, shaped, Or.inr (Or.inl ⟨harmless, hnot, ⟨oldState, hold⟩, ?_⟩)⟩
      rw [Dict.get?_erase, if_pos rfl]
    · obtain ⟨hconfig, hshaped, installed⟩ := install_spec shaped member
        ((m.topics.get? metaData.topic).map ReplicaManager.closeState)
      simp only [m', happly]
      exact ⟨hconfig, hshaped, Or.inr (Or.inr ⟨harmless, installed⟩)⟩

/-- A delivery leaves the topic's entry as it is exactly if it is harmless. -/
theorem harmless_iff (shaped : m.log.registry.Shaped) (metaData : TopicMetaDataResponse) :
    (m.applyMetadata metaData).1.topics.get? metaData.topic = m.topics.get? metaData.topic ↔
      Harmless m metaData := by
  obtain ⟨-, -, ⟨hharmless, hsame⟩ | ⟨hnot, -, ⟨oldState, hold⟩, hnone⟩ | ⟨hnot, installed⟩⟩ :=
    applyMetadata_spec shaped metaData
  · rw [hsame]
    exact iff_of_true rfl hharmless
  · refine iff_of_false (fun h => ?_) hnot
    rw [hnone, hold] at h
    cases h
  · refine iff_of_false (fun h => hnot ?_) hnot
    obtain ⟨state, hentry, hversion, hmeta⟩ := installed.entry
    rw [h] at hentry
    simp only [Harmless, hentry]
    exact ⟨installed.member, Or.inl (le_of_eq hversion.symm)⟩

/-- After these deliveries the entry is that of the newest of them, and its version
is one of theirs. -/
structure Settled (topic : String) (seen : List TopicMetaDataResponse) (m : ReplicaManager) :
    Prop where
  shaped : m.log.registry.Shaped
  start : seen = [] → m.topics.get? topic = none
  newest : ∀ top ∈ seen, (∀ e ∈ seen, e.version ≤ top.version) →
    top.Describes m.config.id (m.topics.get? topic)
  known : ∀ state, m.topics.get? topic = some state → ∃ e ∈ seen, state.version = e.version

theorem Settled.deliver_stale {seen : List TopicMetaDataResponse}
    (settled : Settled metaData.topic seen m)
    (distinct : ∀ e ∈ seen, e.version = metaData.version → e = metaData)
    (stale : ∃ e ∈ seen, metaData.version ≤ e.version) (harmless : Harmless m metaData) :
    Settled metaData.topic (seen ++ [metaData]) (m.applyMetadata metaData).1 := by
  obtain ⟨-, -, ⟨-, hsame⟩ | ⟨hnot, -⟩ | ⟨hnot, -⟩⟩ := applyMetadata_spec settled.shaped metaData
  · rw [hsame]
    refine ⟨settled.shaped, fun h => by simp at h, ?_, ?_⟩
    · intro top htop hmax
      have hmax' : ∀ e ∈ seen, e.version ≤ top.version :=
        fun e he => hmax e (List.mem_append_left _ he)
      rcases List.mem_append.mp htop with hseen | hlast
      · exact settled.newest top hseen hmax'
      · -- a stale message that is newest is a duplicate
        obtain rfl := List.mem_singleton.mp hlast
        obtain ⟨e, he, hle⟩ := stale
        obtain rfl := distinct e he (le_antisymm (hmax' e he) hle)
        exact settled.newest e he hmax'
    · intro state hstate
      obtain ⟨e, he, hversion⟩ := settled.known state hstate
      exact ⟨e, List.mem_append_left _ he, hversion⟩
  · exact absurd harmless hnot
  · exact absurd harmless hnot

theorem Settled.deliver_newer {seen : List TopicMetaDataResponse}
    (settled : Settled metaData.topic seen m) (newer : ∀ e ∈ seen, e.version < metaData.version) :
    Settled metaData.topic (seen ++ [metaData]) (m.applyMetadata metaData).1 := by
  obtain ⟨hconfig, hshaped, heffect⟩ := applyMetadata_spec settled.shaped metaData
  have hmem : metaData ∈ seen ++ [metaData] := List.mem_append_right _ (List.mem_singleton_self _)
  suffices hentry : metaData.Describes m.config.id
      ((m.applyMetadata metaData).1.topics.get? metaData.topic) ∧
      ∀ state, (m.applyMetadata metaData).1.topics.get? metaData.topic = some state →
        ∃ e ∈ seen ++ [metaData], state.version = e.version by
    refine ⟨hshaped, fun h => by simp at h, fun top htop hmax => ?_, hentry.2⟩
    rcases List.mem_append.mp htop with hseen | hlast
    · exact absurd (hmax metaData hmem) (not_le.mpr (newer top hseen))
    · rw [hconfig, List.mem_singleton.mp hlast]
      exact hentry.1
  rcases heffect with ⟨hharmless, hsame⟩ | ⟨-, hnot, -, hnone⟩ | ⟨-, installed⟩
  · rw [hsame]
    unfold Harmless at hharmless
    cases hget : m.topics.get? metaData.topic with
    | none =>
        rw [hget] at hharmless
        exact ⟨hharmless, by simp⟩
    | some oldState =>
        rw [hget] at hharmless
        obtain ⟨e, he, hversion⟩ := settled.known oldState hget
        have hnewer := newer e he
        refine ⟨⟨hharmless.1, hharmless.2.resolve_left (by omega)⟩, fun state hstate => ?_⟩
        exact ⟨e, List.mem_append_left _ he, Option.some.inj hstate ▸ hversion⟩
  · rw [hnone]
    exact ⟨hnot, by simp⟩
  · obtain ⟨state, hstate, hversion, hmeta⟩ := installed.entry
    rw [hstate]
    refine ⟨⟨installed.member, hmeta⟩, fun state' h => ?_⟩
    exact ⟨metaData, hmem, Option.some.inj h ▸ hversion⟩

end

/-- Every delivery that is not newer than all before it is harmless. -/
def StaleHarmless (m : ReplicaManager) (metas : List TopicMetaDataResponse) : Prop :=
  ∀ early metaData late, metas = early ++ metaData :: late →
    (∃ e ∈ early, metaData.version ≤ e.version) →
      Harmless (run ReplicaManager.applyMetadata m early) metaData

/-- The entry ends as the newest message describes it, and a delivery that is not
newer than all before it never changes it. -/
def Converges (m : ReplicaManager) (topic : String) (metas : List TopicMetaDataResponse) : Prop :=
  (∀ top ∈ metas, (∀ e ∈ metas, e.version ≤ top.version) →
    top.Describes m.config.id ((run ReplicaManager.applyMetadata m metas).topics.get? topic)) ∧
  ∀ early metaData late, metas = early ++ metaData :: late →
    (∃ e ∈ early, metaData.version ≤ e.version) →
      (run ReplicaManager.applyMetadata m (early ++ [metaData])).topics.get? topic =
        (run ReplicaManager.applyMetadata m early).topics.get? topic

section
variable {m : ReplicaManager}

theorem run_applyMetadata (shaped : m.log.registry.Shaped) (metas : List TopicMetaDataResponse) :
    (run ReplicaManager.applyMetadata m metas).config = m.config ∧
      (run ReplicaManager.applyMetadata m metas).log.registry.Shaped := by
  induction metas generalizing m with
  | nil => exact ⟨rfl, shaped⟩
  | cons metaData metas ih =>
      obtain ⟨hconfig, hshaped, -⟩ := applyMetadata_spec shaped metaData
      exact ⟨(ih hshaped).1.trans hconfig, (ih hshaped).2⟩

theorem Settled.run {topic : String} {seen metas : List TopicMetaDataResponse}
    (settled : Settled topic seen m) (htopic : ∀ e ∈ metas, e.topic = topic)
    (distinct : ∀ a ∈ seen ++ metas, ∀ b ∈ seen ++ metas, a.version = b.version → a = b)
    (harmless : ∀ early metaData late, metas = early ++ metaData :: late →
      (∃ e ∈ seen ++ early, metaData.version ≤ e.version) →
        Harmless (Lib.run ReplicaManager.applyMetadata m early) metaData) :
    Settled topic (seen ++ metas) (Lib.run ReplicaManager.applyMetadata m metas) := by
  induction metas generalizing seen m with
  | nil =>
      rw [List.append_nil]
      exact settled
  | cons metaData metas ih =>
      obtain rfl := htopic metaData List.mem_cons_self
      have settled' : Settled metaData.topic (seen ++ [metaData])
          (m.applyMetadata metaData).1 := by
        by_cases stale : ∃ e ∈ seen, metaData.version ≤ e.version
        · refine settled.deliver_stale (fun e he => distinct e (List.mem_append_left _ he) metaData
            (List.mem_append_right _ List.mem_cons_self)) stale ?_
          exact harmless [] metaData metas rfl (by simpa using stale)
        · refine settled.deliver_newer fun e he => ?_
          by_contra hle
          exact stale ⟨e, he, not_lt.mp hle⟩
      have hstep := ih settled' (fun e he => htopic e (List.mem_cons_of_mem _ he))
        (by simpa using distinct) fun early next late hsplit hstale => by
          refine harmless (metaData :: early) next late (by rw [hsplit]; rfl) ?_
          simpa using hstale
      rw [List.append_assoc] at hstep
      exact hstep

end

/-- Over any log, whatever the broker holds for other topics: deliveries for a topic
it does not hold, with versions that tell messages apart, converge to the newest
message if and only if every stale one among them is harmless. -/
theorem metadata_converges_iff (config : LogConfig) (importTime : Time) (ops : List LogOp)
    (replica : ReplicaConfig) (topics : Dict String TopicState) (topic : String)
    (metas : List TopicMetaDataResponse) :
    let m : ReplicaManager :=
      ⟨replica, topics, run LogManager.apply (LogManager.start config importTime) ops⟩
    topics.get? topic = none →
    (∀ e ∈ metas, e.topic = topic) →
    (∀ a ∈ metas, ∀ b ∈ metas, a.version = b.version → a = b) →
    (Converges m topic metas ↔ StaleHarmless m metas) := by
  intro m hnone htopic distinct
  have shaped : m.log.registry.Shaped := shaped_run config importTime ops
  constructor
  · rintro ⟨-, hkept⟩ early metaData late hsplit stale
    obtain ⟨-, hshaped⟩ := run_applyMetadata shaped early
    have hmem : metaData ∈ metas := by rw [hsplit]; simp
    have h := hkept early metaData late hsplit stale
    rw [run_append, ← htopic metaData hmem] at h
    exact (harmless_iff hshaped metaData).mp h
  · intro harmless
    have settled : Settled topic [] m :=
      ⟨shaped, fun _ => hnone, fun top h => absurd h List.not_mem_nil,
        fun state h => by rw [show m.topics.get? topic = none from hnone] at h; cases h⟩
    have hfinal := settled.run htopic distinct harmless
    refine ⟨fun top htop hmax => ?_, fun early metaData late hsplit stale => ?_⟩
    · rw [← (run_applyMetadata shaped metas).1]
      exact hfinal.newest top htop hmax
    · obtain ⟨-, hshaped⟩ := run_applyMetadata shaped early
      have hmem : metaData ∈ metas := by rw [hsplit]; simp
      rw [run_append, ← htopic metaData hmem]
      exact (harmless_iff hshaped metaData).mpr (harmless early metaData late hsplit stale)

/-- A broker `b` that holds nothing yet. -/
def emptyManager : ReplicaManager := ⟨⟨"b", 1048576, 2, 10000⟩, Dict.empty, logAfter []⟩

/-- Led by `b` in version 2, not placed on it in version 1. -/
def placedMeta : TopicMetaDataResponse := ⟨"t", "b", "h", 1, ["b"], 2⟩

def movedMeta : TopicMetaDataResponse := ⟨"t", "c", "h", 2, ["c"], 1⟩

theorem metadata_converges_iff_in_order :
    Converges emptyManager "t" [movedMeta, placedMeta] ↔ StaleHarmless emptyManager [movedMeta, placedMeta] :=
  metadata_converges_iff ⟨"data", 0, 1000000, 100, 16, 16, 4⟩ 0 [.createTopic "t"]
    ⟨"b", 1048576, 2, 10000⟩ Dict.empty "t" [movedMeta, placedMeta] rfl (by decide) (by decide)

/-- The older message arrives last and removes the topic. -/
theorem stale_metadata_removes_topic : ¬ Converges emptyManager "t" [placedMeta, movedMeta] := by
  intro h
  have hlast := h.2 [placedMeta] movedMeta [] rfl ⟨placedMeta, List.mem_singleton_self _, by decide⟩
  have hnone : (run ReplicaManager.applyMetadata emptyManager ([placedMeta] ++ [movedMeta])).topics.get? "t" =
      none := by decide +kernel
  have hsome : (run ReplicaManager.applyMetadata emptyManager [placedMeta]).topics.get? "t" ≠ none := by
    decide +kernel
  exact hsome (hlast.symm.trans hnone)

end PyLogStream
