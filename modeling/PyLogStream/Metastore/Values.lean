import PyLogStream.Metastore.Interchange

/-!
The manager on topics that are values (`MetastoreManager`) and on topics that are objects
(`LiveMetastore`). The one stores a topic when an operation is through with it, the other
changes it at every assignment. As long as no lookup raises they go through the same
maps, so what is proved of the one holds of the other.
-/

namespace PyLogStream
open Lib ConsistentHashRing

def MetastoreManager.maps (s : MetastoreManager) : MetaMaps :=
  ⟨s.ring, fun nodeId => s.storage.nodes.get? nodeId, fun name => s.storage.topics.get? name⟩

/-- The operation on objects. -/
def MetastoreOp.onObjects : MetastoreOp → ManagerOp
  | .registerBroker nodeId host port => .registerBroker nodeId host port
  | .deregisterBroker nodeId => .deregisterBroker nodeId
  | .registerTopic topicName => .registerTopic topicName
  | .updateTopicIsr topicName isrList => .updateTopicIsr topicName isrList

section
variable {hash : String → Nat} {s : MetastoreManager} (answering : Answering hash s.ring)

include answering in
theorem electLeader_eq (t : TopicMetadata) : s.exec hash (Metastore.electLeader t) =
    (s, .ok (t.elected (s.ring.nodeOf hash t.topic)).leaderId) := by
  cases t with
  | mk topic leaderId replicaList isrList version =>
      cases isrList with
      | cons leader rest => rfl
      | nil =>
          cases replicaList with
          | cons leader rest => rfl
          | nil =>
              have hcall : s.exec hash (Ring.getNode topic) =
                  (s, .ok (s.ring.nodeOf hash topic)) := by
                simp [MetastoreManager.exec, Ring.getNode, Prog.perform, Prog.exec,
                  MetastoreManager.handle, answering.handle_getNode, Except.mapError]
              exact MetastoreManager.exec_bind hcall _

include answering in
theorem reelect_eq (needed : Prop) [Decidable needed] (t : TopicMetadata) :
    s.exec hash (Metastore.reelect needed t) =
      (s, .ok (if needed then t.elected (s.ring.nodeOf hash t.topic) else t)) := by
  unfold Metastore.reelect
  by_cases hneeded : needed
  · rw [if_pos hneeded, if_pos hneeded, MetastoreManager.exec_bind (electLeader_eq answering t)]
    rfl
  · rw [if_neg hneeded, if_neg hneeded]
    rfl

theorem rehomed_version (hash : String → Nat) (ring : ConsistentHashRing) (replicasPerTopic : Int)
    (anyNode : Bool) (nodeId : String) (t : TopicMetadata) :
    (t.rehomed hash ring replicasPerTopic anyNode nodeId).version = t.version := by
  unfold TopicMetadata.rehomed TopicMetadata.relieved
  split <;> rfl

include answering in
/-- One round of the loop of `deregister_broker`. -/
theorem deregisterTopic_eq (replicasPerTopic : Int) (activeNodeIds : List String)
    (nodeId : String) {t : TopicMetadata} (hget : s.storage.topics.get? t.topic = some t) :
    let t' := t.deregistered hash s.ring replicasPerTopic (decide (activeNodeIds ≠ [])) nodeId
    (t = t' ∧ s.exec hash (Metastore.deregisterTopic replicasPerTopic activeNodeIds nodeId t) =
        (s, .ok none)) ∨
      s.exec hash (Metastore.deregisterTopic replicasPerTopic activeNodeIds nodeId t) =
        (s.setTopic t', .ok (some t')) := by
  intro t'
  have hring : s.ring.getReplicas hash t.topic replicasPerTopic =
      .ok (s.ring.replicasOf hash t.topic replicasPerTopic) :=
    congrArg Prod.snd (answering.handle_getReplicas t.topic replicasPerTopic)
  have hreelect : s.exec hash (Metastore.reelect (t.leaderId = nodeId) { t with
      replicaList := t.replaced replicasPerTopic nodeId (decide (activeNodeIds ≠ []))
        (s.ring.replicasOf hash t.topic replicasPerTopic)
      isrList := if t.leaderId = nodeId then t.isrList.filter fun r => decide (r ≠ nodeId)
        else t.isrList }) =
      (s, .ok (t.rehomed hash s.ring replicasPerTopic (decide (activeNodeIds ≠ [])) nodeId)) := by
    rw [reelect_eq answering]
    by_cases hleader : t.leaderId = nodeId <;>
      simp [TopicMetadata.rehomed, TopicMetadata.relieved, TopicMetadata.isrWithout, hleader]
  unfold Metastore.deregisterTopic
  rw [MetastoreManager.exec_bind (replaceReplica_eq replicasPerTopic activeNodeIds nodeId hring),
    MetastoreManager.exec_bind hreelect]
  by_cases involved : nodeId ∈ t.replicaList ∨ t.leaderId = nodeId
  · right
    have hvalue : t' = { t.rehomed hash s.ring replicasPerTopic (decide (activeNodeIds ≠ []))
        nodeId with version := t.version + 1 } := by
      rw [← rehomed_version hash s.ring replicasPerTopic (decide (activeNodeIds ≠ [])) nodeId t]
      exact if_pos involved
    have hstored : s.storage.topics.get? t'.topic = some t := by
      rw [deregistered_topic]
      exact hget
    rw [if_pos involved, hvalue]
    rw [hvalue] at hstored
    exact MetastoreManager.exec_bind (MetastoreManager.exec_updateTopic hstored) _
  · exact Or.inl ⟨(if_neg involved).symm, by rw [if_neg involved]; rfl⟩

end

section
variable {hash : String → Nat} {s : MetastoreManager} (replicasPerTopic : Int)

theorem anyNode_without (nodeId : String) :
    (s.maps.without hash nodeId).anyNode =
      decide ((s.without hash nodeId).activeNodeIds ≠ []) := by
  have hnodes : (s.maps.without hash nodeId).node =
      fun id => (s.without hash nodeId).storage.nodes.get? id := by
    funext id
    exact (Function.update_apply ..).trans (Dict.get?_erase ..).symm
  rw [MetaMaps.anyNode, hnodes, decide_eq_decide, MetastoreManager.activeNodeIds, ne_eq,
    List.map_eq_nil_iff, List.eq_nil_iff_forall_not_mem, not_forall]
  simp only [not_not, Dict.mem_values_iff, Option.ne_none_iff_exists']
  exact exists_comm

theorem deregisterBroker_maps (sane : s.maps.Sane) {nodeId : String}
    (finds : (s.ring.removeNode hash nodeId).NoneDangling) :
    (s.apply hash replicasPerTopic (.deregisterBroker nodeId)).1.maps =
      (ManagerOp.deregisterBroker nodeId).effect hash replicasPerTopic s.maps := by
  have answering : Answering hash (s.without hash nodeId).ring :=
    finds.answering (sane.kept.removeKeys _) hash
  let R : TopicMetadata → TopicMetadata → Prop := fun t t' =>
    t' = ManagerOp.rehoming hash replicasPerTopic s.maps nodeId t
  obtain ⟨s', updated, hexec, hring, hnodes, htopics, hothers⟩ :=
    deregisterBroker_each replicasPerTopic nodeId sane.named (R := R)
      fun s₁ (hring₁ : s₁.ring = (s.without hash nodeId).ring) t hget => by
        rw [← hring₁] at answering
        have hvalue : ManagerOp.rehoming hash replicasPerTopic s.maps nodeId t =
            t.deregistered hash s₁.ring replicasPerTopic
              (decide ((s.without hash nodeId).activeNodeIds ≠ [])) nodeId := by
          rw [ManagerOp.rehoming, anyNode_without, hring₁]
          rfl
        rcases deregisterTopic_eq answering replicasPerTopic
          (s.without hash nodeId).activeNodeIds nodeId hget with ⟨hsame, hround⟩ | hround
        · exact Or.inl ⟨hsame.trans hvalue.symm, hround⟩
        · exact Or.inr ⟨_, deregistered_topic t, hvalue.symm, hround⟩
  have happly : (s.apply hash replicasPerTopic (.deregisterBroker nodeId)).1 = s' :=
    congrArg Prod.fst (MetastoreManager.apply_state hexec _)
  have hnode : (fun id => s'.storage.nodes.get? id) = (s.maps.without hash nodeId).node := by
    funext id
    rw [hnodes]
    exact (Dict.get?_erase ..).trans (Function.update_apply ..).symm
  have htopic : (fun name => s'.storage.topics.get? name) = fun name =>
      (s.storage.topics.get? name).map
        (ManagerOp.rehoming hash replicasPerTopic s.maps nodeId) := by
    funext name
    cases hget : s.storage.topics.get? name with
    | none => exact hothers name hget
    | some t =>
        obtain ⟨t', hget', rfl⟩ := htopics name t hget
        exact hget'
  rw [happly, MetastoreManager.maps, hring, hnode, htopic]
  rfl

theorem maps_setTopic (t : TopicMetadata) : (s.setTopic t).maps = s.maps.setTopic t := by
  have htopic : (fun name => (s.setTopic t).storage.topics.get? name) = fun name =>
      if name = t.topic then some t else s.storage.topics.get? name :=
    funext fun name => s.setTopic_get? t name
  rw [MetastoreManager.maps, htopic]
  rfl

theorem registerTopic_maps (answering : Answering hash s.ring) (topicName : String) :
    (s.apply hash replicasPerTopic (.registerTopic topicName)).1.maps =
      (ManagerOp.registerTopic topicName).effect hash replicasPerTopic s.maps := by
  have hcall : s.exec hash (Storage.getTopic topicName) =
      (s, .ok (s.storage.topics.get? topicName)) := rfl
  cases hget : s.storage.topics.get? topicName with
  | some t =>
      have hexec : s.exec hash (Metastore.registerTopic replicasPerTopic topicName) = (s, .ok t) := by
        rw [Metastore.registerTopic, MetastoreManager.exec_bind hcall, hget]
        rfl
      have hsome : s.maps.topic topicName ≠ none := fun h => Option.some_ne_none t (hget.symm.trans h)
      rw [ManagerOp.effect, if_neg hsome]
      exact congrArg (fun result => MetastoreManager.maps result.1)
        (MetastoreManager.apply_state hexec _)
  | none =>
      let t := ManagerOp.newTopic hash replicasPerTopic s.maps topicName
      have hreplicas : s.exec hash (Ring.getReplicas topicName replicasPerTopic) =
          (s, .ok (s.ring.replicasOf hash topicName replicasPerTopic)) := by
        simp [MetastoreManager.exec, Ring.getReplicas, Prog.perform, Prog.exec,
          MetastoreManager.handle, answering.handle_getReplicas, Except.mapError]
      have hadd : s.exec hash (Storage.addTopic t) = (s.setTopic t, .ok ()) := by
        have hnone : s.storage.topics.get? t.topic = none := hget
        simp [MetastoreManager.exec, Storage.addTopic, Prog.perform, Prog.exec,
          MetastoreManager.handle, hnone]
      have hexec : s.exec hash (Metastore.registerTopic replicasPerTopic topicName) =
          (s.setTopic t, .ok t) := by
        rw [Metastore.registerTopic, MetastoreManager.exec_bind hcall, hget]
        refine (MetastoreManager.exec_bind hreplicas _).trans ?_
        exact MetastoreManager.exec_bind hadd _
      have happly : (s.apply hash replicasPerTopic (.registerTopic topicName)).1 = s.setTopic t :=
        congrArg Prod.fst (MetastoreManager.apply_state hexec _)
      have hnone : s.maps.topic topicName = none := hget
      rw [happly, maps_setTopic, ManagerOp.effect, if_pos hnone]

theorem updateTopicIsr_maps (answering : Answering hash s.ring) (sane : s.maps.Sane)
    (topicName : String) (isrList : List String) :
    (s.apply hash replicasPerTopic (.updateTopicIsr topicName isrList)).1.maps =
      (ManagerOp.updateTopicIsr topicName isrList).effect hash replicasPerTopic s.maps := by
  have hcall : s.exec hash (Storage.getTopic topicName) =
      (s, .ok (s.storage.topics.get? topicName)) := rfl
  cases hget : s.storage.topics.get? topicName with
  | none =>
      have hexec : s.exec hash (Metastore.updateTopicIsr topicName isrList) = (s, .ok none) := by
        rw [Metastore.updateTopicIsr, MetastoreManager.exec_bind hcall, hget]
        rfl
      have happly : (s.apply hash replicasPerTopic (.updateTopicIsr topicName isrList)).1 = s :=
        congrArg Prod.fst (MetastoreManager.apply_state hexec _)
      have htopic : (fun name => if name = topicName then
          (s.maps.topic name).map (ManagerOp.withIsr hash s.maps isrList) else s.maps.topic name) =
            s.maps.topic := by
        funext name
        by_cases hname : name = topicName
        · have hnone : s.maps.topic name = none := hname ▸ hget
          rw [if_pos hname, hnone]
          rfl
        · rw [if_neg hname]
      rw [happly, ManagerOp.effect, htopic]
  | some t =>
      obtain rfl : t.topic = topicName := sane.named topicName t hget
      let t' := ManagerOp.withIsr hash s.maps isrList t
      have hvalue : t' = { (if t.leaderId ∉ isrList then
          ({ t with isrList }).elected (s.ring.nodeOf hash t.topic) else { t with isrList }) with
            version := t.version + 1 } := by
        change ManagerOp.withIsr hash s.maps isrList t = _
        rw [ManagerOp.withIsr, TopicMetadata.bumped]
        split <;> rfl
      have hstored : s.storage.topics.get? t'.topic = some t := by
        rw [withIsr_topic]
        exact hget
      have hstore : s.exec hash (Storage.updateTopic t') = (s.setTopic t', .ok ()) :=
        MetastoreManager.exec_updateTopic hstored
      have hexec : s.exec hash (Metastore.updateTopicIsr t.topic isrList) =
          (s.setTopic t', .ok (some t')) := by
        rw [Metastore.updateTopicIsr, MetastoreManager.exec_bind hcall, hget]
        refine (MetastoreManager.exec_bind (reelect_eq answering _ _) _).trans ?_
        rw [hvalue] at hstore ⊢
        exact MetastoreManager.exec_bind hstore _
      have happly : (s.apply hash replicasPerTopic (.updateTopicIsr t.topic isrList)).1 =
          s.setTopic t' := congrArg Prod.fst (MetastoreManager.apply_state hexec _)
      have htopic : (fun name => if name = t'.topic then some t' else s.maps.topic name) =
          fun name => if name = t.topic then
            (s.maps.topic name).map (ManagerOp.withIsr hash s.maps isrList)
          else s.maps.topic name := by
        funext name
        rw [withIsr_topic]
        by_cases hname : name = t.topic
        · have hsome : s.maps.topic name = some t := hname ▸ hget
          rw [if_pos hname, if_pos hname, hsome]
          rfl
        · rw [if_neg hname, if_neg hname]
      rw [happly, maps_setTopic, MetaMaps.setTopic, htopic]
      rfl

/-- An operation that meets no sorted key without a node has its effect on the maps. -/
theorem apply_maps (sane : s.maps.Sane) {op : MetastoreOp}
    (finds : op.onObjects.FindsNodes hash s.ring) :
    (s.apply hash replicasPerTopic op).1.maps =
      op.onObjects.effect hash replicasPerTopic s.maps := by
  cases op with
  | registerBroker nodeId host port =>
      have hnode : (fun id => (s.storage.nodes.set nodeId ⟨nodeId, host, port⟩).get? id) =
          Function.update (fun id => s.storage.nodes.get? id) nodeId (some ⟨nodeId, host, port⟩) := by
        funext id
        rw [Dict.get?_set, Function.update_apply]
      have hmaps : (s.apply hash replicasPerTopic (.registerBroker nodeId host port)).1.maps =
          ⟨s.ring.addNode hash nodeId,
            fun id => (s.storage.nodes.set nodeId ⟨nodeId, host, port⟩).get? id, s.maps.topic⟩ := rfl
      rw [hmaps, hnode]
      rfl
  | deregisterBroker nodeId => exact deregisterBroker_maps replicasPerTopic sane finds
  | registerTopic topicName =>
      exact registerTopic_maps replicasPerTopic (finds.answering sane.kept hash) topicName
  | updateTopicIsr topicName isrList =>
      exact updateTopicIsr_maps replicasPerTopic (finds.answering sane.kept hash) sane topicName
        isrList

end

/-- A run on values and the same run on objects lead to the same maps, if no lookup meets
a sorted key without a node. -/
theorem values_agree_with_objects (hash : String → Nat) (replicasPerTopic : Int)
    (ops : List MetastoreOp) (names : ∀ op ∈ ops, op.onObjects.PathNames)
    (finds : MeetsAll (MetastoreManager.apply hash replicasPerTopic)
      (fun s op => op.onObjects.FindsNodes hash s.ring) .new ops) :
    (run (MetastoreManager.apply hash replicasPerTopic) .new ops).maps =
      LiveMetastore.view.maps (run (LiveMetastore.apply hash replicasPerTopic) .new
        (ops.map MetastoreOp.onObjects)) := by
  let R : MetastoreManager → LiveMetastore → Prop := fun s live =>
    s.maps = LiveMetastore.view.maps live ∧ live.ObjectsOk ∧ s.maps.Sane
  have step : ∀ s live op, R s live → op ∈ ops ∧ op.onObjects.FindsNodes hash s.ring →
      R (s.apply hash replicasPerTopic op).1
        (live.apply hash replicasPerTopic op.onObjects).1 := by
    rintro s live op ⟨maps, objects, sane⟩ ⟨hop, finds⟩
    have hring : s.ring = live.ring := congrArg MetaMaps.ring maps
    obtain ⟨live', answer, hlive, objects', heffect, -⟩ :=
      (LiveMetastore.lawful hash).performs replicasPerTopic objects (maps ▸ sane) (names op hop)
        (show op.onObjects.FindsNodes hash live.ring from hring ▸ finds)
    have hmaps := apply_maps replicasPerTopic sane finds
    simp only [R, LiveMetastore.apply, hlive]
    exact ⟨hmaps.trans (maps ▸ heffect.symm), objects',
      hmaps ▸ sane.effect hash replicasPerTopic op.onObjects⟩
  have init : R .new .new := by
    refine ⟨rfl, LiveMetastore.objectsOk_new, fun name t h => ?_, fun key node h => ?_⟩
    · cases h
    · cases h
  have hrun := (finds.with_mem fun op h => h).related
    (fun live op => LiveMetastore.apply hash replicasPerTopic live op.onObjects) R step init
  rw [run_map]
  exact hrun.1

end PyLogStream
