import PyLogStream.Replication.Metadata

/-!
What `apply_metadata_list` leaves. Every step of the two loops touches the entry of one
topic only, and a metadata that has been applied is harmless from then on. So after a
list with one entry for each topic, the topics held are those the list places on this
broker, an entry that the list says nothing new about is the one there was before, and
the same list has nothing left to do.
-/

namespace PyLogStream
open Lib

section
variable {m : ReplicaManager} {metaData : TopicMetaDataResponse}

/-- A state that was started has the version it was made with. -/
theorem startTopic_version {config : ReplicaConfig} {log log' : LogManager}
    {state started : TopicState} (h : ReplicaManager.startTopic config log state = (log', .ok started)) :
    started.version = state.version := by
  simp only [ReplicaManager.startTopic] at h
  repeat' split at h
  all_goals cases h
  all_goals rfl

/-- What a metadata that is applied does: only the entry of its topic can change, and
applied again it would be harmless. -/
structure Applied (m m' : ReplicaManager) (metaData : TopicMetaDataResponse) : Prop where
  config : m'.config = m.config
  others : ∀ topic, topic ≠ metaData.topic → m'.topics.get? topic = m.topics.get? topic
  kept : Harmless m metaData → m' = m
  harmless : Harmless m' metaData

theorem install_applied (member : m.config.id ∈ metaData.replicaList)
    (effect : ¬ Harmless m metaData) {closed : Option TopicState} {outcome : MetadataOutcome}
    (hok : (m.install (TopicState.ofMeta m.config.id metaData) closed).2 = .ok outcome) :
    Applied m (m.install (TopicState.ofMeta m.config.id metaData) closed).1 metaData := by
  simp only [ReplicaManager.install] at hok ⊢
  generalize hstart : ReplicaManager.startTopic m.config m.log
    (TopicState.ofMeta m.config.id metaData) = result at hok ⊢
  obtain ⟨log, res⟩ := result
  cases res with
  | error err => cases hok
  | ok started =>
      have hversion : started.version = metaData.version := startTopic_version hstart
      have hentry : (m.topics.set (TopicState.ofMeta m.config.id metaData).topic started).get?
        metaData.topic = some started := Dict.get?_set_self _ _ _
      refine ⟨rfl, fun topic hne => Dict.get?_set_of_ne _ _ hne, fun h => absurd h effect, ?_⟩
      simp only [Harmless, hentry]
      exact ⟨member, Or.inl hversion.ge⟩

theorem applyMetadata_applied (m : ReplicaManager) (metaData : TopicMetaDataResponse)
    (outcome : MetadataOutcome)
    (hok : (m.applyMetadata metaData).2 = .ok outcome) :
    Applied m (m.applyMetadata metaData).1 metaData := by
  by_cases harmless : Harmless m metaData
  · obtain ⟨hsame, -⟩ := applyMetadata_of_harmless harmless
    rw [hsame]
    exact ⟨rfl, fun _ _ => rfl, fun _ => rfl, harmless⟩
  · rcases applyMetadata_of_effect harmless with ⟨hnot, oldState, -, happly⟩ | ⟨member, happly⟩
    · rw [happly]
      refine ⟨rfl, fun topic hne => ?_, fun h => absurd h harmless, ?_⟩
      · rw [Dict.get?_erase, if_neg hne]
      · simp only [Harmless, Dict.get?_erase, if_true]
        exact hnot
    · rw [happly] at hok ⊢
      exact install_applied member harmless hok

end

section List
variable {m : ReplicaManager} {metaList : List TopicMetaDataResponse}

theorem removeTopic_spec (m : ReplicaManager) (topic : String) :
    (m.removeTopic topic).1.config = m.config ∧ (m.removeTopic topic).1.log = m.log ∧
      ∀ other, (m.removeTopic topic).1.topics.get? other =
        if other = topic then none else m.topics.get? other := by
  cases hget : m.topics.get? topic with
  | none =>
      simp only [ReplicaManager.removeTopic, hget]
      refine ⟨trivial, trivial, fun other => ?_⟩
      by_cases heq : other = topic
      · rw [if_pos heq, heq]
        exact hget
      · rw [if_neg heq]
  | some state =>
      simp only [ReplicaManager.removeTopic, hget]
      exact ⟨trivial, trivial, fun other => Dict.get?_erase _ _ _⟩

/-- The first loop keeps the listed topics and removes the others it is given. -/
theorem removeUnlisted_spec (newTopics oldTopics : List String) (m : ReplicaManager) :
    (ReplicaManager.removeUnlisted newTopics oldTopics m).1.config = m.config ∧
      (ReplicaManager.removeUnlisted newTopics oldTopics m).1.log = m.log ∧
      ∀ topic, (ReplicaManager.removeUnlisted newTopics oldTopics m).1.topics.get? topic =
        if topic ∈ oldTopics ∧ topic ∉ newTopics then none else m.topics.get? topic := by
  induction oldTopics generalizing m with
  | nil => exact ⟨rfl, rfl, fun topic => by simp [ReplicaManager.removeUnlisted]⟩
  | cons old oldTopics ih =>
      rw [ReplicaManager.removeUnlisted]
      by_cases hlisted : old ∈ newTopics
      · rw [if_pos hlisted]
        obtain ⟨hconfig, hlog, htopics⟩ := ih m
        refine ⟨hconfig, hlog, fun topic => ?_⟩
        rw [htopics topic]
        refine if_congr ?_ rfl rfl
        rw [List.mem_cons, or_and_right]
        refine (or_iff_right ?_).symm
        rintro ⟨rfl, hnot⟩
        exact hnot hlisted
      · rw [if_neg hlisted]
        obtain ⟨hconfig₀, hlog₀, htopics₀⟩ := removeTopic_spec m old
        obtain ⟨hconfig, hlog, htopics⟩ := ih (m.removeTopic old).1
        refine ⟨hconfig.trans hconfig₀, hlog.trans hlog₀, fun topic => ?_⟩
        refine (htopics topic).trans ?_
        rw [htopics₀ topic]
        by_cases heq : topic = old
        · simp [heq, hlisted]
        · simp [heq]

/-- Nothing is removed when every topic is listed. -/
theorem removeUnlisted_of_listed {newTopics oldTopics : List String}
    (h : ∀ topic ∈ oldTopics, topic ∈ newTopics) :
    ReplicaManager.removeUnlisted newTopics oldTopics m = (m, []) := by
  induction oldTopics with
  | nil => rfl
  | cons old oldTopics ih =>
      rw [ReplicaManager.removeUnlisted, if_pos (h old List.mem_cons_self)]
      exact ih fun topic ht => h topic (List.mem_cons_of_mem _ ht)

/-- What the second loop leaves when it names no topic twice. -/
structure AppliedEach (m m' : ReplicaManager) (metaList : List TopicMetaDataResponse) : Prop where
  config : m'.config = m.config
  others : ∀ topic, topic ∉ metaList.map TopicMetaDataResponse.topic →
    m'.topics.get? topic = m.topics.get? topic
  kept : ∀ metaData ∈ metaList, Harmless m metaData →
    m'.topics.get? metaData.topic = m.topics.get? metaData.topic
  harmless : ∀ metaData ∈ metaList, Harmless m' metaData

/-- Whether a metadata takes effect depends on the entry of its topic only. -/
theorem harmless_congr {m m' : ReplicaManager} {metaData : TopicMetaDataResponse}
    (hconfig : m'.config = m.config)
    (hentry : m'.topics.get? metaData.topic = m.topics.get? metaData.topic) :
    Harmless m' metaData ↔ Harmless m metaData := by
  simp only [Harmless, hconfig, hentry]

theorem applyEach_applied (m : ReplicaManager)
    (distinct : (metaList.map TopicMetaDataResponse.topic).Nodup) (outcomes : List MetadataOutcome)
    (hok : (ReplicaManager.applyEach metaList m).2 = .ok outcomes) :
    AppliedEach m (ReplicaManager.applyEach metaList m).1 metaList := by
  induction metaList generalizing m outcomes with
  | nil => exact ⟨rfl, fun _ _ => rfl, by simp, by simp⟩
  | cons metaData metaList ih =>
      obtain ⟨hfresh, hdistinct⟩ := List.nodup_cons.mp distinct
      have happlied := applyMetadata_applied m metaData
      rw [ReplicaManager.applyEach] at hok ⊢
      generalize m.applyMetadata metaData = result at hok happlied ⊢
      obtain ⟨m₁, res⟩ := result
      cases res with
      | error err => cases hok
      | ok outcome =>
          have applied := happlied outcome rfl
          simp only at hok applied ⊢
          have hrest := ih m₁ hdistinct
          generalize ReplicaManager.applyEach metaList m₁ = result at hok hrest ⊢
          obtain ⟨m₂, res⟩ := result
          cases res with
          | error err => cases hok
          | ok outcomes' =>
              have rest := hrest outcomes' rfl
              simp only at rest ⊢
              -- the later entries leave the topic of the first one alone
              have hown := rest.others metaData.topic hfresh
              refine ⟨rest.config.trans applied.config, fun topic hnot => ?_, fun e he harmless => ?_,
                fun e he => ?_⟩
              · rw [List.map_cons, List.mem_cons, not_or] at hnot
                rw [rest.others topic hnot.2, applied.others topic hnot.1]
              · rcases List.mem_cons.mp he with rfl | hmem
                · rw [hown, applied.kept harmless]
                · have hother : e.topic ≠ metaData.topic := fun heq =>
                    hfresh (heq ▸ List.mem_map_of_mem hmem)
                  have hsame := applied.others e.topic hother
                  rw [rest.kept e hmem ((harmless_congr applied.config hsame).mpr harmless), hsame]
              · rcases List.mem_cons.mp he with rfl | hmem
                · exact (harmless_congr rest.config hown).mpr applied.harmless
                · exact rest.harmless e hmem

theorem applyEach_cons {m₁ m₂ : ReplicaManager} {metaData : TopicMetaDataResponse}
    {outcome : MetadataOutcome} {outcomes : List MetadataOutcome}
    (hfirst : m.applyMetadata metaData = (m₁, .ok outcome))
    (hrest : ReplicaManager.applyEach metaList m₁ = (m₂, .ok outcomes)) :
    ReplicaManager.applyEach (metaData :: metaList) m = (m₂, .ok (outcome :: outcomes)) := by
  simp only [ReplicaManager.applyEach, hfirst, hrest]

/-- Metadata without effect leaves the manager as it is. -/
theorem applyEach_of_harmless (h : ∀ metaData ∈ metaList, Harmless m metaData) :
    (ReplicaManager.applyEach metaList m).1 = m ∧
      ∃ outcomes, (ReplicaManager.applyEach metaList m).2 = .ok outcomes := by
  induction metaList with
  | nil => exact ⟨rfl, [], rfl⟩
  | cons metaData metaList ih =>
      obtain ⟨hsame, outcome, hok, -⟩ := applyMetadata_of_harmless (h metaData List.mem_cons_self)
      obtain ⟨hrest, outcomes, hoks⟩ := ih fun e he => h e (List.mem_cons_of_mem _ he)
      have heach := applyEach_cons (Prod.ext hsame hok) (Prod.ext hrest hoks)
      rw [heach]
      exact ⟨rfl, _, rfl⟩

/-- What a list that was applied without an error leaves. -/
theorem applyMetadataList_applied (distinct : (metaList.map TopicMetaDataResponse.topic).Nodup)
    (outcomes : List MetadataOutcome) (hok : (m.applyMetadataList metaList).2 = .ok outcomes) :
    (m.applyMetadataList metaList).1.config = m.config ∧
      (∀ topic, topic ∉ metaList.map TopicMetaDataResponse.topic →
        (m.applyMetadataList metaList).1.topics.get? topic = none) ∧
      ∀ metaData ∈ metaList, Harmless (m.applyMetadataList metaList).1 metaData ∧
        (Harmless m metaData → (m.applyMetadataList metaList).1.topics.get? metaData.topic =
          m.topics.get? metaData.topic) := by
  obtain ⟨hconfig, -, htopics⟩ :=
    removeUnlisted_spec (metaList.map TopicMetaDataResponse.topic) m.topics.keys m
  simp only [ReplicaManager.applyMetadataList] at hok ⊢
  generalize ReplicaManager.removeUnlisted (metaList.map TopicMetaDataResponse.topic) m.topics.keys
    m = removed at hok hconfig htopics ⊢
  obtain ⟨m₁, outcomes₁⟩ := removed
  simp only at hok hconfig htopics ⊢
  have heach := applyEach_applied m₁ distinct
  generalize ReplicaManager.applyEach metaList m₁ = result at hok heach ⊢
  obtain ⟨m₂, res⟩ := result
  cases res with
  | error err => cases hok
  | ok outcomes₂ =>
      have each := heach outcomes₂ rfl
      simp only at each ⊢
      refine ⟨each.config.trans hconfig, fun topic hnot => ?_, fun metaData hmem => ?_⟩
      · rw [each.others topic hnot, htopics topic]
        split
        · rfl
        · next hkept =>
            rw [Dict.get?_eq_none_iff]
            exact fun hmem => hkept ⟨hmem, hnot⟩
      · have hlisted : m₁.topics.get? metaData.topic = m.topics.get? metaData.topic := by
          rw [htopics, if_neg]
          exact fun h => h.2 (List.mem_map_of_mem hmem)
        refine ⟨each.harmless metaData hmem, fun harmless => ?_⟩
        rw [each.kept metaData hmem ((harmless_congr hconfig hlisted).mpr harmless), hlisted]

end List

/-- A list with one entry for each topic that is applied without an error leaves exactly
the topics it places on this broker, keeps the states it says nothing new about, and
changes nothing when it is applied again. -/
theorem ReplicaManager.applyMetadataList_reconciles (m : ReplicaManager)
    (metaList : List TopicMetaDataResponse)
    (distinct : (metaList.map TopicMetaDataResponse.topic).Nodup) (outcomes : List MetadataOutcome)
    (hok : (m.applyMetadataList metaList).2 = .ok outcomes) :
    let m' := (m.applyMetadataList metaList).1
    (∀ topic, topic ∈ m'.topics.keys ↔
        ∃ metaData ∈ metaList, metaData.topic = topic ∧ m.config.id ∈ metaData.replicaList) ∧
      (∀ metaData ∈ metaList, ∀ state state', m.topics.get? metaData.topic = some state →
        m'.topics.get? metaData.topic = some state' →
        metaData.version ≤ state.version ∨
          (TopicState.ofMeta m.config.id metaData).CompareMeta state → state' = state) ∧
      (m'.applyMetadataList metaList).1 = m' ∧
      ∃ again, (m'.applyMetadataList metaList).2 = .ok again := by
  obtain ⟨hconfig, hunlisted, hlisted⟩ := applyMetadataList_applied distinct outcomes hok
  generalize (m.applyMetadataList metaList).1 = m' at hconfig hunlisted hlisted
  have placed : ∀ metaData ∈ metaList,
      ((m'.topics.get? metaData.topic).isSome ↔ m.config.id ∈ metaData.replicaList) := by
    intro metaData hmem
    have harmless := (hlisted metaData hmem).1
    simp only [Harmless, hconfig] at harmless
    split at harmless
    · next hget => simp [hget, harmless]
    · next hget => simp [hget, harmless.1]
  have held : ∀ topic, topic ∈ m'.topics.keys ↔
      ∃ metaData ∈ metaList, metaData.topic = topic ∧ m.config.id ∈ metaData.replicaList := by
    intro topic
    rw [Dict.mem_keys_iff, ← Option.isSome_iff_exists]
    constructor
    · intro hsome
      have hnamed : topic ∈ metaList.map TopicMetaDataResponse.topic := by
        by_contra hnot
        rw [hunlisted topic hnot] at hsome
        cases hsome
      obtain ⟨metaData, hmem, rfl⟩ := List.mem_map.mp hnamed
      exact ⟨metaData, hmem, rfl, (placed metaData hmem).mp hsome⟩
    · rintro ⟨metaData, hmem, rfl, hid⟩
      exact (placed metaData hmem).mpr hid
  refine ⟨held, ?_, ?_⟩
  · intro metaData hmem state state' hstate hstate' hnothing
    have hid := (placed metaData hmem).mp (by rw [hstate']; rfl)
    have harmless : Harmless m metaData := by
      simp only [Harmless, hstate]
      exact ⟨hid, hnothing⟩
    rw [(hlisted metaData hmem).2 harmless, hstate] at hstate'
    exact (Option.some.inj hstate').symm
  · have hnone : ReplicaManager.removeUnlisted (metaList.map TopicMetaDataResponse.topic)
        m'.topics.keys m' = (m', []) := by
      refine removeUnlisted_of_listed fun topic ht => ?_
      obtain ⟨metaData, hmem, rfl, -⟩ := (held topic).mp ht
      exact List.mem_map_of_mem hmem
    obtain ⟨hsame, again, hagain⟩ := applyEach_of_harmless fun metaData hmem => (hlisted metaData hmem).1
    simp only [applyMetadataList, hnone, hsame, hagain]
    exact ⟨trivial, _, rfl⟩

/-- The broker `b` leads `t` and loses `u`: it takes `v` over, and is no replica of `w`. -/
def nextList : List TopicMetaDataResponse :=
  [⟨"t", "b", "h", 1, ["b"], 2⟩, ⟨"v", "b", "h", 1, ["b", "c"], 1⟩, ⟨"w", "c", "h", 2, ["c"], 1⟩]

theorem ReplicaManager.applyMetadataList_reconciles_next :
    let m := (emptyManager.applyMetadataList
      [⟨"t", "b", "h", 1, ["b"], 1⟩, ⟨"u", "b", "h", 1, ["b"], 1⟩]).1
    m.topics.keys = ["t", "u"] ∧
      let m' := (m.applyMetadataList nextList).1
      (∀ topic, topic ∈ m'.topics.keys ↔
        ∃ metaData ∈ nextList, metaData.topic = topic ∧ "b" ∈ metaData.replicaList) ∧
        (m'.applyMetadataList nextList).1 = m' := by
  intro m
  refine ⟨by decide +kernel, ?_⟩
  have distinct : (nextList.map TopicMetaDataResponse.topic).Nodup := by decide
  have returns : (m.applyMetadataList nextList).2.isOk = true := by decide +kernel
  cases hok : (m.applyMetadataList nextList).2 with
  | error err =>
      rw [hok] at returns
      cases returns
  | ok outcomes =>
      have h := applyMetadataList_reconciles m nextList distinct outcomes hok
      exact ⟨h.1, h.2.2.1⟩

end PyLogStream
