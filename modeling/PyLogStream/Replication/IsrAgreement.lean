import PyLogStream.Lib.Run
import PyLogStream.Metastore.Topics
import PyLogStream.Replication.InSync
import PyLogStream.Replication.IsrSystem
import PyLogStream.Replication.System

/-!
Whether the controller's in-sync list of a topic is the leader's. The leader starts
from itself alone and the controller from all replicas, and no report ever leaves the
broker, so the two agree only while there is nothing to report: the first iteration
finds in sync whom the controller lists, and later ones find the same replicas again.
-/

namespace PyLogStream
open Lib

namespace ReplicaLeader

/-- These replicas are the ones that count as in sync. -/
def SyncedExactly (leader : ReplicaLeader) (now : Time) (replicas : List String) : Prop :=
  (∀ r ∈ replicas, leader.CountsInSync now r) ∧
    ∀ r ∈ leader.id :: leader.replicaList, leader.CountsInSync now r → r ∈ replicas

instance (leader : ReplicaLeader) (now : Time) (replicas : List String) :
    Decidable (leader.SyncedExactly now replicas) :=
  inferInstanceAs (Decidable (_ ∧ _))

variable {leader : ReplicaLeader} {now : Time}

/-- After an iteration the list is these replicas, if they are the ones in sync. -/
theorem SyncedExactly.mem_newIsr_iff {replicas : List String}
    (h : leader.SyncedExactly now replicas) (r : String) :
    r ∈ replicas ↔ r ∈ leader.newIsr now := by
  rw [mem_newIsr]
  refine ⟨h.1 r, fun counts => h.2 r ?_ counts⟩
  cases counts with
  | inl heq => exact heq ▸ List.mem_cons_self
  | inr hfollower =>
      refine List.mem_cons_of_mem _ (mem_replicaList_of_closest (?_ : r ∈ leader.closest now))
      cases hfollower with
      | inl htake => exact List.mem_of_mem_take htake
      | inr hlag => exact hlag.1

end ReplicaLeader

section
variable {leader : ReplicaLeader} {lm : LogManager}

theorem handle_isr (env : CallEnv) (cmd : ReplicaFetchCommand) :
    (leader.handle lm env cmd).1.inSyncReplica = leader.inSyncReplica := by
  cases hend : lm.getLatestOffset leader.topic with
  | error err =>
      simp only [ReplicaLeader.handle, ReplicaLeader.getLogEndOffset, hend]
      split <;> rfl
  | ok logEnd =>
      cases (handle_spec hend env cmd).2 with
      | inl h => rw [h]
      | inr recorded => exact recorded.isr

theorem getHighWatermark_isr {leader' : ReplicaLeader} {hw : Int}
    (h : leader.getHighWatermark lm = .ok (leader', hw)) :
    leader'.inSyncReplica = leader.inSyncReplica := by
  simp only [ReplicaLeader.getHighWatermark, ReplicaLeader.computeHighWatermark] at h
  cases hisr : leader.inSyncReplica with
  | nil =>
      simp only [hisr] at h
      cases h
      rfl
  | cons r rest =>
      simp only [hisr] at h
      cases hend : leader.getLogEndOffset lm with
      | error err =>
          simp only [hend] at h
          cases h
      | ok logEnd =>
          simp only [hend] at h
          cases h
          rfl

theorem waitForHw_isr {offset : Int} {fut : Nat} {leader' : ReplicaLeader} {reached : Bool}
    (h : leader.waitForHw lm offset fut = .ok (leader', reached)) :
    leader'.inSyncReplica = leader.inSyncReplica := by
  simp only [ReplicaLeader.waitForHw] at h
  split at h
  · cases h
  · next leader₁ hw hread =>
      have hsame := getHighWatermark_isr hread
      split at h <;> cases h <;> exact hsame

end

namespace ReplicaManager

/-- The leader's in-sync list of a topic, if the broker leads it. -/
def isrOf (m : ReplicaManager) (topic : String) : Option (List String) :=
  (getLeader m.topics topic).toOption.map ReplicaLeader.inSyncReplica

/-- Two managers that agree about the other topics. -/
structure SameBut (topic : String) (m m' : ReplicaManager) : Prop where
  config : m'.config = m.config
  topics : ∀ t, t ≠ topic → m'.topics.get? t = m.topics.get? t

theorem SameBut.id {topic : String} {m m' : ReplicaManager} (same : SameBut topic m m') :
    m'.config.id = m.config.id := congrArg ReplicaConfig.id same.config

theorem SameBut.isrOf {topic : String} {m m' : ReplicaManager} (same : SameBut topic m m')
    {t : String} (h : t ≠ topic) : m'.isrOf t = m.isrOf t := by
  simp only [ReplicaManager.isrOf, getLeader, same.topics t h]

theorem SameBut.held {topic : String} {m m' : ReplicaManager} (same : SameBut topic m m')
    {t : String} (ht : t ∈ m'.topics.keys) (h : t ≠ topic) : t ∈ m.topics.keys := by
  rw [Dict.mem_keys_iff, same.topics t h, ← Dict.mem_keys_iff] at ht
  exact ht

theorem removeTopic_sameBut (m : ReplicaManager) (topic : String) :
    SameBut topic m (m.removeTopic topic).1 := by
  simp only [removeTopic]
  split
  · exact ⟨rfl, fun _ _ => rfl⟩
  · refine ⟨rfl, fun t ht => ?_⟩
    rw [Dict.get?_erase, if_neg ht]

theorem install_sameBut (m : ReplicaManager) (state : TopicState) (closed : Option TopicState) :
    SameBut state.topic m (m.install state closed).1 := by
  simp only [install]
  split <;> exact ⟨rfl, fun t ht => Dict.get?_set_of_ne _ _ ht⟩

/-- A message changes its own topic, or nothing. -/
theorem applyMetadata_sameBut (m : ReplicaManager) (metaData : TopicMetaDataResponse) :
    SameBut metaData.topic m (m.applyMetadata metaData).1 := by
  simp only [applyMetadata]
  split
  · exact removeTopic_sameBut m metaData.topic
  · split
    · exact install_sameBut m (TopicState.ofMeta m.config.id metaData) none
    · split
      · exact ⟨rfl, fun _ _ => rfl⟩
      · split
        · exact ⟨rfl, fun _ _ => rfl⟩
        · exact install_sameBut m (TopicState.ofMeta m.config.id metaData) _

theorem install_outcome {m m' : ReplicaManager} {state : TopicState} {closed : Option TopicState}
    {outcome : MetadataOutcome} (h : m.install state closed = (m', .ok outcome)) :
    outcome = .installed closed := by
  simp only [install] at h
  split at h
  · cases h
  · cases h
    rfl

theorem applyMetadata_kept {m m' : ReplicaManager} {metaData : TopicMetaDataResponse}
    {outcome : MetadataOutcome} (h : m.applyMetadata metaData = (m', .ok outcome)) :
    m' = m ∨ outcome ≠ .notNewer ∧ outcome ≠ .unchanged := by
  simp only [applyMetadata] at h
  split at h
  · cases h
    exact Or.inr ⟨by simp, by simp⟩
  · split at h
    · rw [install_outcome h]
      exact Or.inr ⟨by simp, by simp⟩
    · split at h
      · exact Or.inl (congrArg Prod.fst h).symm
      · split at h
        · exact Or.inl (congrArg Prod.fst h).symm
        · rw [install_outcome h]
          exact Or.inr ⟨by simp, by simp⟩

/-- Two managers with the same topics and the same in-sync lists. -/
structure SameIsr (m m' : ReplicaManager) : Prop where
  config : m'.config = m.config
  held : ∀ topic ∈ m'.topics.keys, topic ∈ m.topics.keys
  isr : ∀ topic, m'.isrOf topic = m.isrOf topic

theorem SameIsr.refl (m : ReplicaManager) : SameIsr m m := ⟨rfl, fun _ h => h, fun _ => rfl⟩

theorem sameIsr_setLeader {m : ReplicaManager} {topic : String} {state : TopicState}
    {leader leader' : ReplicaLeader} (hget : m.topics.get? topic = some state)
    (hleader : state.leader = some leader) (hisr : leader'.inSyncReplica = leader.inSyncReplica)
    (log : LogManager) :
    SameIsr m { m with topics := m.topics.set topic { state with leader := some leader' }, log } := by
  refine ⟨rfl, fun t ht => ?_, fun t => ?_⟩
  · rwa [Dict.keys_set (Dict.mem_keys_of_get? hget)] at ht
  · simp only [isrOf, getLeader, Dict.get?_set]
    by_cases heq : t = topic
    · simp only [heq, if_pos, hget, hleader]
      cases state.role with
      | leader => exact congrArg some hisr
      | follower => rfl
    · simp only [heq, if_false]

theorem handle_sameIsr (m : ReplicaManager) (env : CallEnv) (cmd : ReplicaFetchCommand) :
    SameIsr m (m.handle env cmd).1 := by
  simp only [handle]
  split
  · exact .refl m
  · next state hget =>
      split
      · next leader hrole hleader =>
          exact sameIsr_setLeader hget hleader (handle_isr env cmd) _
      · exact .refl m
      · exact .refl m

theorem getLeader_ok {topics : Dict String TopicState} {topic : String} {leader : ReplicaLeader}
    (h : getLeader topics topic = .ok leader) :
    ∃ state, topics.get? topic = some state ∧ state.leader = some leader := by
  simp only [getLeader] at h
  split at h
  · cases h
  · next state hget =>
      split at h
      · next found hrole hleader =>
          cases h
          exact ⟨state, hget, hleader⟩
      · cases h

theorem mem_keys_of_isrOf {m : ReplicaManager} {topic : String} {isr : List String}
    (h : m.isrOf topic = some isr) : topic ∈ m.topics.keys := by
  simp only [isrOf] at h
  cases hleader : getLeader m.topics topic with
  | error err =>
      rw [hleader] at h
      cases h
  | ok leader =>
      obtain ⟨state, hget, -⟩ := getLeader_ok hleader
      exact Dict.mem_keys_of_get? hget

/-- An iteration is about its own topic, and leaves the in-sync list it has computed. -/
theorem leaderLoop_spec (m : ReplicaManager) (onIsrChange : Bool) (topic : String) (now : Time) :
    let next := m.leaderLoop onIsrChange topic now
    SameBut topic m next.1 ∧ (∀ t ∈ next.1.topics.keys, t ∈ m.topics.keys) ∧
      ∀ changed, next.2 = .sleeping changed →
        ∃ leader, getLeader m.topics topic = .ok leader ∧
          next.1.isrOf topic = some (leader.newIsr now) := by
  have hsame : SameBut topic m m := ⟨rfl, fun _ _ => rfl⟩
  simp only [leaderLoop]
  split
  · exact ⟨hsame, fun _ h => h, by simp⟩
  · next state hget =>
      have hset : ∀ state', SameBut topic m { m with topics := m.topics.set topic state' } ∧
          ∀ t ∈ (m.topics.set topic state').keys, t ∈ m.topics.keys := by
        intro state'
        refine ⟨⟨rfl, fun t ht => Dict.get?_set_of_ne _ _ ht⟩, fun t ht => ?_⟩
        rwa [Dict.keys_set (Dict.mem_keys_of_get? hget)] at ht
      split
      · next leader _ hrole hleader =>
          split
          · exact ⟨(hset _).1, (hset _).2, by simp⟩
          · next updated hupdate =>
              refine ⟨(hset _).1, (hset _).2, fun changed _ => ⟨leader, ?_, ?_⟩⟩
              · simp only [getLeader, hget, hrole, hleader]
              · simp only [ReplicaLeader.updateIsr] at hupdate
                split at hupdate
                · cases hupdate
                  simp only [isrOf, getLeader, Dict.get?_set_self, hrole]
                  rfl
                · cases hupdate
      · exact ⟨hsame, fun _ h => h, by simp⟩

end ReplicaManager

namespace IsrSystem

/-- The topic is registered at the controller. -/
def Knows (m : MetastoreManager) (topic : String) : Prop :=
  ∃ t, m.storage.topics.get? topic = some t

/-- The topics of a pending step. -/
def topicsOf : Delivery → List String
  | .metaList metaList => metaList.map TopicMetaDataResponse.topic
  | .remove topic => [topic]
  | .apply metaData => [metaData.topic]

/-- Whom the controller lists for a topic of this broker is in its leader's list. -/
structure Agreed (s : IsrSystem) : Prop where
  named : s.controller.TopicsNamed
  silent : s.up = []
  held : ∀ topic ∈ s.broker.topics.keys, Knows s.controller topic
  announced : ∀ d ∈ s.down, ∀ topic ∈ topicsOf d, Knows s.controller topic
  agree : ∀ topic ∈ s.sleeping, ∃ isr, s.broker.isrOf topic = some isr ∧
    ∀ t, s.controller.storage.topics.get? topic = some t → t.leaderId = s.broker.config.id →
      ∀ r, r ∈ t.isrList ↔ r ∈ isr

section
variable (hash : String → Nat) (replicasPerTopic : Int)

/-- There is nothing to report: for a topic that this broker leads at the controller,
the first iteration finds in sync whom the controller lists, and a later one whom the
last one found. A failed leader is not succeeded by a broker that still runs a leader
loop of its own for the topic. -/
def NothingToReport (s : IsrSystem) : IsrEvent → Prop
  | .iterate topic now =>
    ∀ t ∈ s.controller.storage.topics.get? topic, t.leaderId = s.broker.config.id →
      ∀ leader ∈ (ReplicaManager.getLeader s.broker.topics topic).toOption,
        leader.SyncedExactly now (if topic ∈ s.sleeping then leader.inSyncReplica else t.isrList)
  | .deregisterBroker nodeId =>
    ∀ topic ∈ s.sleeping, ∀ t ∈ s.controller.storage.topics.get? topic, t.leaderId = nodeId →
      ∀ t' ∈ (s.step hash replicasPerTopic
          (.deregisterBroker nodeId)).controller.storage.topics.get? topic,
        t' = t ∨ t'.leaderId ≠ s.broker.config.id
  | _ => True

instance (s : IsrSystem) (e : IsrEvent) : Decidable (s.NothingToReport hash replicasPerTopic e) :=
  match e with
  | .iterate _ _ => inferInstanceAs (Decidable (∀ t ∈ _, _))
  | .deregisterBroker _ => inferInstanceAs (Decidable (∀ topic ∈ _, _))
  | .registerBroker .. | .registerTopic _ | .broadcast | .isrChange | .deliver | .setCallback _
  | .fetch .. | .waitForHw .. | .log _ => isTrue trivial

end

section
variable {s : IsrSystem}

theorem Knows.kept {R : TopicMetadata → TopicMetadata → Prop} {m m' : MetastoreManager}
    (topics : m.TopicsTo R m') {topic : String} (h : Knows m topic) : Knows m' topic := by
  obtain ⟨t, ht⟩ := h
  obtain ⟨t', ht', -⟩ := topics topic t ht
  exact ⟨t', ht'⟩

/-- The controller does something that keeps the list of every topic it leaves with
this broker. -/
theorem Agreed.controller (ok : s.Agreed) {m : MetastoreManager}
    {R : TopicMetadata → TopicMetadata → Prop} (named : m.TopicsNamed)
    (topics : s.controller.TopicsTo R m)
    (keep : ∀ topic ∈ s.sleeping, ∀ t t', s.controller.storage.topics.get? topic = some t →
      m.storage.topics.get? topic = some t' → R t t' → t'.leaderId = s.broker.config.id →
        t.leaderId = s.broker.config.id ∧ t'.isrList = t.isrList) :
    Agreed { s with controller := m } := by
  refine ⟨named, ok.silent, fun topic h => (ok.held topic h).kept topics,
    fun d hd topic h => (ok.announced d hd topic h).kept topics, fun topic hsleeping => ?_⟩
  obtain ⟨isr, hisr, hagree⟩ := ok.agree topic hsleeping
  refine ⟨isr, hisr, fun t' ht' hleader r => ?_⟩
  obtain ⟨t, ht⟩ := ok.held topic (ReplicaManager.mem_keys_of_isrOf hisr)
  obtain ⟨t₁, ht₁, hR⟩ := topics topic t ht
  rw [show m.storage.topics.get? topic = some t' from ht'] at ht₁
  cases ht₁
  obtain ⟨hled, hlist⟩ := keep topic hsleeping t t' ht ht' hR hleader
  rw [hlist]
  exact hagree t ht hled r

theorem Agreed.broker (ok : s.Agreed) {m : ReplicaManager}
    (same : ReplicaManager.SameIsr s.broker m) : Agreed { s with broker := m } := by
  refine ⟨ok.named, ok.silent, fun topic h => ok.held topic (same.held topic h), ok.announced,
    fun topic hsleeping => ?_⟩
  obtain ⟨isr, hisr, hagree⟩ := ok.agree topic hsleeping
  refine ⟨isr, (same.isr topic).trans hisr, fun t ht hleader => hagree t ht ?_⟩
  exact hleader.trans (congrArg ReplicaConfig.id same.config)

/-- A step with one topic, after which its loop is not between iterations. -/
theorem Agreed.forget (ok : s.Agreed) {m : ReplicaManager} {topic : String}
    (same : ReplicaManager.SameBut topic s.broker m)
    (known : topic ∈ m.topics.keys → Knows s.controller topic)
    {down : List Delivery} (hdown : ∀ d ∈ down, d ∈ s.down) :
    Agreed ({ s with broker := m, down }.forget topic) := by
  refine ⟨ok.named, ok.silent, fun t ht => ?_, fun d hd => ok.announced d (hdown d hd),
    fun t ht => ?_⟩
  · by_cases heq : t = topic
    · exact heq ▸ known (heq ▸ ht)
    · exact ok.held t (same.held ht heq)
  · obtain ⟨hsleeping, hne⟩ := List.mem_filter.mp ht
    obtain ⟨isr, hisr, hagree⟩ := ok.agree t hsleeping
    refine ⟨isr, (same.isrOf (of_decide_eq_true hne)).trans hisr, fun t' ht' hleader => ?_⟩
    exact hagree t' ht' (hleader.trans same.id)

theorem Agreed.metaList (ok : s.Agreed) {topic : String}
    (h : topic ∈ topicsOf (.metaList s.controller.metaList)) : Knows s.controller topic := by
  simp only [topicsOf, MetastoreManager.metaList, List.map_map] at h
  obtain ⟨t, ht, rfl⟩ := List.mem_map.mp h
  exact ⟨t, ok.named.values.2 t ht⟩

theorem Agreed.listSteps (ok : s.Agreed) {metaList : List TopicMetaDataResponse}
    (known : ∀ metaData ∈ metaList, Knows s.controller metaData.topic) :
    ∀ d ∈ s.listSteps metaList, ∀ topic ∈ topicsOf d, Knows s.controller topic := by
  intro d hd topic htopic
  cases List.mem_append.mp hd with
  | inl hremove =>
      obtain ⟨t, ht, rfl⟩ := List.mem_map.mp hremove
      rw [List.mem_singleton.mp htopic]
      exact ok.held t (List.mem_filter.mp ht).1
  | inr happly =>
      obtain ⟨metaData, hmem, rfl⟩ := List.mem_map.mp happly
      rw [List.mem_singleton.mp htopic]
      exact known metaData hmem

theorem Agreed.deliver (ok : s.Agreed) : s.deliver.Agreed := by
  simp only [IsrSystem.deliver]
  split
  · exact ok
  · next metaList rest hdown =>
      have known : ∀ metaData ∈ metaList, Knows s.controller metaData.topic :=
        fun metaData h => ok.announced (.metaList metaList) (hdown ▸ List.mem_cons_self) _
          (List.mem_map_of_mem h)
      refine ⟨ok.named, ok.silent, ok.held, fun d hd => ?_, ok.agree⟩
      cases List.mem_append.mp hd with
      | inl hsteps => exact ok.listSteps known d hsteps
      | inr hrest => exact ok.announced d (hdown ▸ List.mem_cons_of_mem _ hrest)
  · next topic rest hdown =>
      have known := ok.announced (.remove topic) (hdown ▸ List.mem_cons_self) topic
        (List.mem_singleton_self topic)
      exact ok.forget (s.broker.removeTopic_sameBut topic) (fun _ => known)
        fun d h => hdown ▸ List.mem_cons_of_mem _ h
  · next metaData rest hdown =>
      have hrest : ∀ d ∈ rest, d ∈ s.down := fun d h => hdown ▸ List.mem_cons_of_mem _ h
      have known := ok.announced (.apply metaData) (hdown ▸ List.mem_cons_self) metaData.topic
        (List.mem_singleton_self _)
      have same := s.broker.applyMetadata_sameBut metaData
      have hunchanged : ∀ {m : ReplicaManager} {outcome : MetadataOutcome},
          s.broker.applyMetadata metaData = (m, .ok outcome) →
          outcome = .notNewer ∨ outcome = .unchanged → Agreed { s with broker := m, down := rest } := by
        intro m outcome happly hkept
        cases ReplicaManager.applyMetadata_kept happly with
        | inl heq =>
            rw [heq]
            exact ⟨ok.named, ok.silent, ok.held, fun d hd => ok.announced d (hrest d hd), ok.agree⟩
        | inr hne => exact absurd hkept (not_or.mpr hne)
      split
      · next m err happly =>
          rw [happly] at same
          exact ok.forget same (fun _ => known) fun d h => hrest d ((List.dropWhile_sublist _).subset h)
      · next m happly => exact hunchanged happly (Or.inl rfl)
      · next m happly => exact hunchanged happly (Or.inr rfl)
      · next m outcome _ _ happly =>
          rw [happly] at same
          exact ok.forget same (fun _ => known) hrest

theorem Agreed.iterate (ok : s.Agreed) {hash : String → Nat} {replicasPerTopic : Int}
    {topic : String} {now : Time}
    (h : s.NothingToReport hash replicasPerTopic (.iterate topic now)) :
    (s.iterate topic now).Agreed := by
  obtain ⟨same, hheld, hslept⟩ := s.broker.leaderLoop_spec s.onIsrChange topic now
  simp only [IsrSystem.iterate]
  split
  · next m hloop =>
      rw [hloop] at same hheld
      exact ok.forget same (fun ht => ok.held topic (hheld topic ht)) fun _ hd => hd
  · next m changed hloop =>
      rw [hloop] at same hheld hslept
      refine ⟨ok.named, ok.silent, fun t ht => ok.held t (hheld t ht), ok.announced, ?_⟩
      intro t ht
      by_cases heq : t = topic
      · obtain ⟨leader, hleader, hnew⟩ := hslept changed rfl
        subst heq
        refine ⟨leader.newIsr now, hnew, fun t' ht' hled r => ?_⟩
        have hsynced := h t' ht' (hled.trans same.id) leader
          (by rw [hleader]; rfl)
        split at hsynced
        · next hsleeping =>
            -- the list the last iteration left is the controller's
            obtain ⟨isr, hisr, hagree⟩ := ok.agree t hsleeping
            have hold : s.broker.isrOf t = some leader.inSyncReplica := by
              simp only [ReplicaManager.isrOf, hleader]
              rfl
            rw [hold] at hisr
            cases hisr
            rw [hagree t' ht' (hled.trans same.id)]
            exact hsynced.mem_newIsr_iff r
        · exact hsynced.mem_newIsr_iff r
      · have hsleeping : t ∈ s.sleeping := (List.mem_insert_iff.mp ht).resolve_left heq
        obtain ⟨isr, hisr, hagree⟩ := ok.agree t hsleeping
        refine ⟨isr, (same.isrOf heq).trans hisr, fun t' ht' hled => hagree t' ht' ?_⟩
        exact hled.trans same.id

theorem Agreed.deregisterBroker (ok : s.Agreed) {hash : String → Nat} {replicasPerTopic : Int}
    {nodeId : String} (h : s.NothingToReport hash replicasPerTopic (.deregisterBroker nodeId)) :
    (s.step hash replicasPerTopic (.deregisterBroker nodeId)).Agreed := by
  obtain ⟨named, topics⟩ : _ ∧ s.controller.TopicsTo (Kept nodeId)
      (s.step hash replicasPerTopic (.deregisterBroker nodeId)).controller :=
    deregisterBroker_state replicasPerTopic nodeId ok.named
  refine ok.controller named topics fun topic hsleeping t t' ht ht' hkept hled => ?_
  cases hkept with
  | inl heq => exact heq ▸ ⟨hled, rfl⟩
  | inr hleft =>
      obtain ⟨-, hisr, hsame, -⟩ := hleft
      by_cases hleader : t.leaderId = nodeId
      · cases h topic hsleeping t ht hleader t' ht' with
        | inl heq => exact heq ▸ ⟨hled, rfl⟩
        | inr hne => exact absurd hled hne
      · rw [hsame hleader] at hled
        refine ⟨hled, ?_⟩
        rw [hisr, TopicMetadata.isrWithout, if_neg hleader]

theorem Agreed.waitForHw (ok : s.Agreed) (topic : String) (offset : Int) (fut : Nat) :
    (s.waitForHw topic offset fut).Agreed := by
  simp only [IsrSystem.waitForHw]
  split
  · exact ok
  · next leader hleader =>
      split
      · exact ok
      · next leader' reached hwait =>
          obtain ⟨state, hget, hstate⟩ := ReplicaManager.getLeader_ok hleader
          simp only [ReplicaManager.setLeader, hget]
          exact ok.broker
            (ReplicaManager.sameIsr_setLeader hget hstate (waitForHw_isr hwait) s.broker.log)

theorem Agreed.step (ok : s.Agreed) {hash : String → Nat} {replicasPerTopic : Int} {e : IsrEvent}
    (h : s.NothingToReport hash replicasPerTopic e) : (s.step hash replicasPerTopic e).Agreed := by
  cases e with
  | registerBroker nodeId host port =>
      exact ok.controller ok.named (MetastoreManager.TopicsTo.refl s.controller)
        fun _ _ t t' ht ht' heq hled => heq ▸ ⟨heq ▸ hled, rfl⟩
  | deregisterBroker nodeId => exact ok.deregisterBroker h
  | registerTopic topicName =>
      obtain ⟨named, topics⟩ : _ ∧ s.controller.TopicsTo Eq
          (s.step hash replicasPerTopic (.registerTopic topicName)).controller :=
        registerTopic_state replicasPerTopic topicName ok.named
      exact ok.controller named topics fun _ _ t t' ht ht' heq hled => heq ▸ ⟨heq ▸ hled, rfl⟩
  | broadcast =>
      refine ⟨ok.named, ok.silent, ok.held, fun d hd topic htopic => ?_, ok.agree⟩
      cases List.mem_append.mp hd with
      | inl hold => exact ok.announced d hold topic htopic
      | inr hnew =>
          rw [List.mem_singleton.mp hnew] at htopic
          exact ok.metaList htopic
  | isrChange =>
      simp only [IsrSystem.step, IsrSystem.isrChange, ok.silent]
      exact ok
  | deliver => exact ok.deliver
  | setCallback on => exact ⟨ok.named, ok.silent, ok.held, ok.announced, ok.agree⟩
  | iterate topic now => exact ok.iterate h
  | fetch env cmd => exact ok.broker (s.broker.handle_sameIsr env cmd)
  | waitForHw topic offset fut => exact ok.waitForHw topic offset fut
  | log op => exact ok.broker ⟨rfl, fun _ h => h, fun _ => rfl⟩

theorem agreed_start (config : ReplicaConfig) (logConfig : LogConfig) (importTime : Time) :
    (start config logConfig importTime).Agreed := by
  refine ⟨?_, rfl, ?_, ?_, ?_⟩
  · simp [start, MetastoreManager.TopicsNamed, MetastoreManager.new]
  all_goals simp [start, Dict.keys, Dict.empty]

end

section
variable (hash : String → Nat) (replicasPerTopic : Int)

/-- Between iterations of a leader loop, with all messages processed, the controller and
the leader have the same replicas in sync, and whoever the controller elects from its
list when the leader fails is in sync for the leader. -/
def IsrAgrees (s : IsrSystem) : Prop :=
  ∀ topic ∈ s.sleeping, s.up = [] → s.down = [] →
    ∀ t, s.controller.storage.topics.get? topic = some t → t.leaderId = s.broker.config.id →
      ∃ leader, ReplicaManager.getLeader s.broker.topics topic = .ok leader ∧
        (∀ r, r ∈ t.isrList ↔ r ∈ leader.inSyncReplica) ∧
        ∀ t', (s.step hash replicasPerTopic
            (.deregisterBroker t.leaderId)).controller.storage.topics.get? topic = some t' →
          t.isrWithout t.leaderId ≠ [] → t'.leaderId ≠ t.leaderId →
            t'.leaderId ∈ leader.inSyncReplica

theorem Agreed.isrAgrees {s : IsrSystem} (ok : s.Agreed) : s.IsrAgrees hash replicasPerTopic := by
  intro topic hsleeping _ _ t ht hled
  obtain ⟨isr, hisr, hagree⟩ := ok.agree topic hsleeping
  cases hleader : ReplicaManager.getLeader s.broker.topics topic with
  | error err =>
      simp only [ReplicaManager.isrOf, hleader] at hisr
      cases hisr
  | ok leader =>
      simp only [ReplicaManager.isrOf, hleader] at hisr
      obtain rfl : leader.inSyncReplica = isr := Option.some.inj hisr
      refine ⟨leader, rfl, hagree t ht hled, fun t' ht' hsome hnew => ?_⟩
      have topics : s.controller.TopicsTo (Kept t.leaderId)
          (s.step hash replicasPerTopic (.deregisterBroker t.leaderId)).controller :=
        (deregisterBroker_state replicasPerTopic t.leaderId ok.named).2
      obtain ⟨t₁, ht₁, hkept⟩ := topics topic t ht
      rw [ht'] at ht₁
      cases ht₁
      cases hkept with
      | inl heq => exact absurd (congrArg TopicMetadata.leaderId heq) hnew
      | inr hleft =>
          obtain ⟨-, -, -, helected⟩ := hleft
          cases hlist : t.isrWithout t.leaderId with
          | nil => exact absurd hlist hsome
          | cons first rest =>
              have hfirst : first ∈ t.isrWithout t.leaderId := hlist ▸ List.mem_cons_self
              rw [TopicMetadata.isrWithout, if_pos rfl] at hfirst
              rw [helected rfl first (by rw [hlist]; rfl)]
              exact (hagree t ht hled first).mp (List.mem_filter.mp hfirst).1

/-- In every run without anything to report, leader and controller agree. -/
theorem isr_agrees (config : ReplicaConfig) (logConfig : LogConfig) (importTime : Time)
    (events : List IsrEvent)
    (h : MeetsAll (advance hash replicasPerTopic) (NothingToReport hash replicasPerTopic)
      (start config logConfig importTime) events) :
    (run (advance hash replicasPerTopic) (start config logConfig importTime)
      events).IsrAgrees hash replicasPerTopic := by
  refine Agreed.isrAgrees hash replicasPerTopic (h.invariant Agreed ?_ (agreed_start _ _ _))
  exact fun s e ok meets => ok.step meets

end

/-- Two brokers with one topic; `b1` leads it and has run its loop once. -/
def ledByB1 : List IsrEvent :=
  [.setCallback true, .registerBroker "b1" "h1" 1, .registerBroker "b2" "h2" 2,
    .registerTopic "events", .broadcast, .deliver, .deliver, .iterate "events" 1700000000]

def brokerB1 (minIsrCount : Int) : IsrSystem :=
  start ⟨"b1", 1048576, minIsrCount, 10000⟩ ⟨"data", 0, 1000000, 100, 16, 16, 4⟩ 0

theorem isr_agrees_ledByB1 :
    let s := run (advance ConsistentHashRing.md5Hash 3) (brokerB1 2) ledByB1
    s.broker.isrOf "events" = some ["b1", "b2"] ∧ s.IsrAgrees ConsistentHashRing.md5Hash 3 := by
  have h : MeetsAll (advance ConsistentHashRing.md5Hash 3)
        (NothingToReport ConsistentHashRing.md5Hash 3) (brokerB1 2) ledByB1 ∧
      (run (advance ConsistentHashRing.md5Hash 3) (brokerB1 2) ledByB1).broker.isrOf "events" =
        some ["b1", "b2"] := by decide +kernel
  exact ⟨h.2, isr_agrees ConsistentHashRing.md5Hash 3 ⟨"b1", 1048576, 2, 10000⟩
    ⟨"data", 0, 1000000, 100, 16, 16, 4⟩ 0 ledByB1 h.1⟩

/-- With a minimum count of one, the follower that has never fetched is in sync for the
controller and not for the leader. -/
theorem idle_follower_listed :
    ¬ (run (advance ConsistentHashRing.md5Hash 3) (brokerB1 1) ledByB1).IsrAgrees
      ConsistentHashRing.md5Hash 3 := by
  intro h
  have hfinal : let s := run (advance ConsistentHashRing.md5Hash 3) (brokerB1 1) ledByB1
      "events" ∈ s.sleeping ∧ s.up = [] ∧ s.down = [] ∧ s.broker.config.id = "b1" ∧
      s.controller.storage.topics.get? "events" =
        some ⟨"events", "b1", ["b1", "b2"], ["b1", "b2"], 1⟩ ∧
      s.broker.isrOf "events" = some ["b1"] := by decide +kernel
  obtain ⟨hsleeping, hup, hdown, hid, htopic, hisr⟩ := hfinal
  obtain ⟨leader, hleader, hagree, -⟩ := h "events" hsleeping hup hdown _ htopic hid.symm
  simp only [ReplicaManager.isrOf, hleader] at hisr
  have hmem : "b2" ∈ leader.inSyncReplica := (hagree "b2").mp (by decide)
  rw [Option.some.inj hisr] at hmem
  exact absurd hmem (by decide)

end IsrSystem
end PyLogStream
