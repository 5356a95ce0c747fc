import PyLogStream.Lib.Footprint
import PyLogStream.Metastore.Manager

/-!
Which calls the manager's operations make. Elections and replacements only ask the
ring, and an update writes a topic under its own name; so an operation keeps what
these calls keep, whatever the storage answers.
-/

namespace PyLogStream
open Lib

section
variable {P : MetastoreCall → Prop} {ε : Type}

theorem electLeader_within (ring : ∀ topic, P (.ring (.getNode topic))) (t : TopicMetadata) :
    (Metastore.electLeader t : MetastoreProg ε String).Within P fun _ => True := by
  cases t with
  | mk topic leaderId replicaList isrList version =>
      cases isrList with
      | cons leader rest => trivial
      | nil =>
          cases replicaList with
          | cons leader rest => trivial
          | nil => exact ⟨ring topic, fun _ => trivial⟩

theorem reelect_within (ring : ∀ topic, P (.ring (.getNode topic))) (needed : Prop)
    [Decidable needed] (t : TopicMetadata) :
    (Metastore.reelect needed t : MetastoreProg ε TopicMetadata).Within P
      fun t' => t'.topic = t.topic := by
  simp only [Metastore.reelect]
  split
  · exact (electLeader_within ring t).bind fun _ _ => rfl
  · rfl

theorem updateTopicIsr_within (ring : ∀ topic, P (.ring (.getNode topic)))
    (gets : ∀ topicName, P (.getTopic topicName)) (updates : ∀ t, P (.updateTopic t))
    (topicName : String) (isrList : List String) :
    (Metastore.updateTopicIsr topicName isrList :
      MetastoreProg ε (Option TopicMetadata)).Within P fun _ => True := by
  refine ⟨gets topicName, fun existing => ?_⟩
  cases existing with
  | none => trivial
  | some t => exact (reelect_within ring _ _).bind fun _ _ => ⟨updates _, fun _ => trivial⟩

theorem registerTopic_within (replicasPerTopic : Int)
    (ring : ∀ topic count, P (.ring (.getReplicas topic count)))
    (gets : ∀ topicName, P (.getTopic topicName)) (adds : ∀ t, P (.addTopic t))
    (topicName : String) :
    (Metastore.registerTopic replicasPerTopic topicName :
      MetastoreProg ε TopicMetadata).Within P fun _ => True := by
  refine ⟨gets topicName, fun existing => ?_⟩
  cases existing with
  | some t => trivial
  | none => exact ⟨ring _ _, fun _ => ⟨adds _, fun _ => trivial⟩⟩

variable (replicasPerTopic : Int) (activeNodeIds : List String) (nodeId : String)

theorem replaceReplica_within (ring : ∀ topic count, P (.ring (.getReplicas topic count)))
    (t : TopicMetadata) :
    (Metastore.replaceReplica replicasPerTopic activeNodeIds nodeId t :
      MetastoreProg ε (List String)).Within P fun _ => True := by
  simp only [Metastore.replaceReplica]
  split
  · split
    · exact ⟨ring _ _, fun _ => trivial⟩
    · trivial
  · trivial

theorem deregisterTopic_within (ring : ∀ topic, P (.ring (.getNode topic)))
    (replicas : ∀ topic count, P (.ring (.getReplicas topic count))) {t : TopicMetadata}
    (updates : ∀ t' : TopicMetadata, t'.topic = t.topic → t'.version = t.version + 1 →
      P (.updateTopic t')) :
    (Metastore.deregisterTopic replicasPerTopic activeNodeIds nodeId t :
      MetastoreProg ε (Option TopicMetadata)).Within P fun _ => True := by
  simp only [Metastore.deregisterTopic]
  refine (replaceReplica_within replicasPerTopic activeNodeIds nodeId replicas t).bind
    fun newReplicas _ => ?_
  refine (reelect_within ring _ _).bind fun newMeta hname => ?_
  split
  · exact ⟨updates _ hname rfl, fun _ => trivial⟩
  · trivial

theorem deregisterTopics_within (ring : ∀ topic, P (.ring (.getNode topic)))
    (replicas : ∀ topic count, P (.ring (.getReplicas topic count))) {todo : List TopicMetadata}
    (updates : ∀ t ∈ todo, ∀ t' : TopicMetadata, t'.topic = t.topic →
      t'.version = t.version + 1 → P (.updateTopic t')) :
    (Metastore.deregisterTopics replicasPerTopic activeNodeIds nodeId todo :
      MetastoreProg ε (List TopicMetadata)).Within P fun _ => True := by
  induction todo with
  | nil => trivial
  | cons t rest ih =>
      have hrest := ih fun t' h => updates t' (List.mem_cons_of_mem _ h)
      exact (deregisterTopic_within _ _ _ ring replicas (updates t List.mem_cons_self)).bind
        fun _ _ => hrest.bind fun _ _ => trivial

end

/-- The call leaves the registered brokers as they are. -/
def KeepsNodes : MetastoreCall → Prop
  | .addNode _ | .removeNode _ => False
  | _ => True

section
variable {hash : String → Nat} {s : MetastoreManager} {α : Type}

theorem KeepsNodes.handle {c : MetastoreCall} (h : KeepsNodes c) :
    (s.handle hash c).1.storage.nodes = s.storage.nodes := by
  cases c with
  | addNode node => exact h.elim
  | removeNode nodeId => exact h.elim
  | getNode _ | getAllNodes | getTopic _ | getAllTopics | ring _ => rfl
  | addTopic t | updateTopic t =>
      simp only [MetastoreManager.handle]
      split <;> rfl

theorem KeepsNodes.exec {p : MetastoreProg MetastoreError α} {Q : α → Prop}
    (h : p.Within KeepsNodes Q) : (s.exec hash p).1.storage.nodes = s.storage.nodes := by
  have keep : ∀ (s' : MetastoreManager) c, KeepsNodes c →
      s'.storage.nodes = s.storage.nodes →
      (s'.handle hash c).1.storage.nodes = s.storage.nodes :=
    fun _ _ hc hs => hc.handle.trans hs
  exact h.exec_keeps keep rfl

theorem registerTopic_nodes (hash : String → Nat) (s : MetastoreManager)
    (replicasPerTopic : Int) (topicName : String) :
    (s.exec hash (Metastore.registerTopic replicasPerTopic topicName)).1.storage.nodes =
      s.storage.nodes :=
  KeepsNodes.exec (registerTopic_within replicasPerTopic (fun _ _ => trivial) (fun _ => trivial)
    (fun _ => trivial) topicName)

theorem updateTopicIsr_nodes (hash : String → Nat) (s : MetastoreManager)
    (topicName : String) (isrList : List String) :
    (s.exec hash (Metastore.updateTopicIsr topicName isrList)).1.storage.nodes =
      s.storage.nodes :=
  KeepsNodes.exec (updateTopicIsr_within (fun _ => trivial) (fun _ => trivial) (fun _ => trivial)
    topicName isrList)

/-- `deregister_broker` removes the broker's node, also if it raises later on. -/
theorem deregisterBroker_nodes (hash : String → Nat) (s : MetastoreManager)
    (replicasPerTopic : Int) (nodeId : String) :
    (s.exec hash (Metastore.deregisterBroker replicasPerTopic nodeId)).1.storage.nodes =
      s.storage.nodes.erase nodeId := by
  let s' : MetastoreManager :=
    { s with storage := { s.storage with nodes := s.storage.nodes.erase nodeId } }
  have hremove : Prog.exec (MetastoreManager.handle hash) s (Storage.removeNode nodeId) =
      (s', .ok (s.storage.nodes.get? nodeId)) := rfl
  rw [MetastoreManager.exec, Metastore.deregisterBroker, Prog.exec_bind_ok hremove]
  refine KeepsNodes.exec (s := s') (Q := fun _ => True) ?_
  exact ⟨trivial, fun _ => ⟨trivial, fun allTopics => ⟨trivial, fun allNodes =>
    deregisterTopics_within replicasPerTopic _ nodeId (fun _ => trivial) (fun _ _ => trivial)
      fun _ _ _ _ _ => trivial⟩⟩⟩

end
end PyLogStream
