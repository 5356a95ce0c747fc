import PyLogStream.Lib.Text
import PyLogStream.Metastore.Calls
import PyLogStream.Metastore.Placement

/-!
The texts and the numbers in the metastore. Leaders and replicas are nodes of the ring or
in-sync replicas, so every text in a topic's metadata has come in with a registration or an
in-sync list. A port has come in with a registration, and an operation raises a version by
one. This holds for any hash and any replication factor, also when an operation raises in
the middle.
-/

namespace PyLogStream
open Lib

/-- Neither a blank nor a line break. -/
def Word (text : String) : Prop := ' ' ∉ text.toList ∧ '\n' ∉ text.toList

/-- A word without a comma that is not the dash. -/
def BrokerName (id : String) : Prop := Word id ∧ ',' ∉ id.toList ∧ id ≠ "-"

instance (text : String) : Decidable (Word text) := inferInstanceAs (Decidable (_ ∧ _))

instance (id : String) : Decidable (BrokerName id) := inferInstanceAs (Decidable (_ ∧ _))

structure TopicMetadata.Spelled (t : TopicMetadata) : Prop where
  topic : Word t.topic
  leaderId : Word t.leaderId
  replicas : ∀ r ∈ t.replicaList, BrokerName r
  isr : ∀ r ∈ t.isrList, Word r

structure MetastoreManager.Spelled (m : MetastoreManager) : Prop where
  hosts : ∀ id node, m.storage.nodes.get? id = some node →
    Word node.host ∧ Convertible node.port
  topics : ∀ name t, m.storage.topics.get? name = some t → t.Spelled
  ring : ∀ id, m.ring.Holds id → BrokerName id

/-- The texts and ports that a call puts into the metastore. -/
def MetastoreCall.Spelled : MetastoreCall → Prop
  | .addNode node => Word node.host ∧ Convertible node.port
  | .addTopic t | .updateTopic t => t.Spelled
  | .ring (.addNode id) => BrokerName id
  | _ => True

/-- The texts that a call brings back. -/
def MetastoreCall.SpelledAnswer : (c : MetastoreCall) → c.Answer → Prop
  | .getTopic _, found => ∀ t ∈ (found : Option TopicMetadata), t.Spelled
  | .getAllTopics, topics => ∀ t ∈ (topics : List TopicMetadata), t.Spelled
  | .ring (.getNode _), found => ∀ id ∈ (found : Option String), BrokerName id
  | .ring (.getReplicas _ _), replicas => ∀ r ∈ (replicas : List String), BrokerName r
  | _, _ => True

theorem word_empty : Word "" := ⟨by decide, by decide⟩

section
variable {hash : String → Nat} {m : MetastoreManager} {ε : Type}

/-- The program puts in such texts as long as it gets such texts. -/
abbrev Spells {α : Type} (Q : α → Prop) (p : MetastoreProg ε α) : Prop :=
  p.Guarded MetastoreCall.Spelled MetastoreCall.SpelledAnswer Q

theorem MetastoreManager.Spelled.setTopic (ok : m.Spelled) {t : TopicMetadata} (h : t.Spelled) :
    (m.setTopic t).Spelled := by
  refine ⟨ok.hosts, fun name t' hget => ?_, ok.ring⟩
  simp only [MetastoreManager.setTopic, Dict.get?_set] at hget
  split at hget
  · exact Option.some.inj hget ▸ h
  · exact ok.topics name t' hget

theorem MetastoreManager.Spelled.handle (ok : m.Spelled) {c : MetastoreCall} (h : c.Spelled) :
    (m.handle hash c).1.Spelled ∧ ∀ r, (m.handle hash c).2 = .ok r → c.SpelledAnswer r := by
  cases c with
  | addNode node =>
      refine ⟨⟨fun id found hget => ?_, ok.topics, ok.ring⟩, fun _ _ => trivial⟩
      simp only [MetastoreManager.handle, Dict.get?_set] at hget
      split at hget
      · exact Option.some.inj hget ▸ h
      · exact ok.hosts id found hget
  | removeNode nodeId =>
      refine ⟨⟨fun id found hget => ?_, ok.topics, ok.ring⟩, fun _ _ => trivial⟩
      simp only [MetastoreManager.handle, Dict.get?_erase] at hget
      split at hget
      · cases hget
      · exact ok.hosts id found hget
  | getNode _ | getAllNodes => exact ⟨ok, fun _ _ => trivial⟩
  | addTopic t | updateTopic t =>
      simp only [MetastoreManager.handle]
      split
      all_goals first | exact ⟨ok, fun _ _ => trivial⟩ | exact ⟨ok.setTopic h, fun _ _ => trivial⟩
  | getTopic name =>
      refine ⟨ok, fun r hr t ht => ?_⟩
      rw [← Except.ok.inj hr] at ht
      exact ok.topics name t ht
  | getAllTopics =>
      refine ⟨ok, fun r hr t ht => ?_⟩
      rw [← Except.ok.inj hr] at ht
      obtain ⟨name, hget⟩ := (Dict.mem_values_iff _ t).mp ht
      exact ok.topics name t hget
  | ring c =>
      cases c with
      | addNode id =>
          refine ⟨⟨ok.hosts, ok.topics, fun node hnode => ?_⟩, fun _ _ => trivial⟩
          obtain rfl | hold := ConsistentHashRing.holds_of_addNode hnode
          · exact h
          · exact ok.ring node hold
      | removeNode id =>
          exact ⟨⟨ok.hosts, ok.topics, fun node hnode =>
            ok.ring node (ConsistentHashRing.holds_of_removeNode hnode)⟩, fun _ _ => trivial⟩
      | getNode topic =>
          refine ⟨ok, fun r hr id hid => ok.ring id ?_⟩
          cases hid
          cases hget : m.ring.getNode hash topic with
          | error err =>
              simp [MetastoreManager.handle, ConsistentHashRing.handle, hget,
                Except.mapError] at hr
          | ok found =>
              simp only [MetastoreManager.handle, ConsistentHashRing.handle, hget, Except.mapError,
                Except.ok.injEq] at hr
              rw [hr] at hget
              exact ConsistentHashRing.getNode_holds hget
      | getReplicas topic count =>
          refine ⟨ok, fun r hr id hid => ok.ring id ?_⟩
          cases hget : m.ring.getReplicas hash topic count with
          | error err =>
              simp [MetastoreManager.handle, ConsistentHashRing.handle, hget,
                Except.mapError] at hr
          | ok found =>
              simp only [MetastoreManager.handle, ConsistentHashRing.handle, hget, Except.mapError,
                Except.ok.injEq] at hr
              rw [hr] at hget
              exact ConsistentHashRing.getReplicas_holds hget id hid

/-- What such a program leaves, whether or not it raises. -/
theorem MetastoreManager.Spelled.exec (ok : m.Spelled) (hash : String → Nat) {α : Type} {Q : α → Prop}
    {p : MetastoreProg MetastoreError α} (h : Spells Q p) : (m.exec hash p).1.Spelled :=
  h.exec_keeps (fun _ _ hc hm => hm.handle hc) ok

theorem electLeader_spells {t : TopicMetadata} (h : t.Spelled) :
    Spells Word (Metastore.electLeader t : MetastoreProg ε String) := by
  cases t with
  | mk topic leaderId replicaList isrList version =>
      cases isrList with
      | cons leader rest => exact h.isr leader List.mem_cons_self
      | nil =>
          cases replicaList with
          | cons leader rest => exact (h.replicas leader List.mem_cons_self).1
          | nil =>
              refine ⟨trivial, fun found hfound => ?_⟩
              cases found with
              | none => exact word_empty
              | some id => exact (hfound id rfl).1

theorem reelect_spells (needed : Prop) [Decidable needed] {t : TopicMetadata} (h : t.Spelled) :
    Spells TopicMetadata.Spelled (Metastore.reelect needed t : MetastoreProg ε TopicMetadata) := by
  simp only [Metastore.reelect]
  split
  · exact (electLeader_spells h).bind fun leader hleader => ⟨h.topic, hleader, h.replicas, h.isr⟩
  · exact h

theorem registerBroker_spells {nodeId host : String} {port : Int} (hid : BrokerName nodeId)
    (hhost : Word host) (hport : Convertible port) :
    Spells (fun _ => True)
      (Metastore.registerBroker nodeId host port : MetastoreProg ε BrokerNode) :=
  ⟨⟨hhost, hport⟩, fun _ _ => ⟨hid, fun _ _ => trivial⟩⟩

theorem registerTopic_spells (replicasPerTopic : Int) {topicName : String} (h : Word topicName) :
    Spells (fun _ => True)
      (Metastore.registerTopic replicasPerTopic topicName : MetastoreProg ε TopicMetadata) := by
  refine ⟨trivial, fun existing _ => ?_⟩
  cases existing with
  | some t => trivial
  | none =>
      refine ⟨trivial, fun replicas hreplicas => ?_⟩
      have hnew : TopicMetadata.Spelled
          ⟨topicName, replicas.head?.getD "", replicas, replicas, 1⟩ := by
        refine ⟨h, ?_, hreplicas, fun r hr => (hreplicas r hr).1⟩
        cases replicas with
        | nil => exact word_empty
        | cons leader rest => exact (hreplicas leader List.mem_cons_self).1
      exact ⟨hnew, fun _ _ => trivial⟩

theorem updateTopicIsr_spells (topicName : String) {isrList : List String}
    (h : ∀ r ∈ isrList, Word r) :
    Spells (fun _ => True)
      (Metastore.updateTopicIsr topicName isrList : MetastoreProg ε (Option TopicMetadata)) := by
  refine ⟨trivial, fun existing hexisting => ?_⟩
  cases existing with
  | none => trivial
  | some t =>
      have ht := hexisting t rfl
      have hisr : TopicMetadata.Spelled { t with isrList } :=
        ⟨ht.topic, ht.leaderId, ht.replicas, h⟩
      refine (reelect_spells _ hisr).bind fun newMeta hnew => ?_
      exact ⟨⟨hnew.topic, hnew.leaderId, hnew.replicas, hnew.isr⟩, fun _ _ => trivial⟩

theorem refill_names {P : String → Prop} {count : Int} {hReplicas newReplicas : List String}
    (h : ∀ r ∈ hReplicas, P r) (hnew : ∀ r ∈ newReplicas, P r) :
    ∀ r ∈ Metastore.refill count hReplicas newReplicas, P r := by
  induction hReplicas generalizing newReplicas with
  | nil => exact hnew
  | cons r rest ih =>
      have hrest := fun r' hr' => h r' (List.mem_cons_of_mem r hr')
      have hmore : ∀ r' ∈ newReplicas ++ [r], P r' := by
        intro r' hr'
        cases List.mem_append.mp hr' with
        | inl hmem => exact hnew r' hmem
        | inr hlast => exact List.mem_singleton.mp hlast ▸ h r List.mem_cons_self
      simp only [Metastore.refill]
      split
      · exact ih hrest hnew
      · split
        · exact hmore
        · exact ih hrest hmore

variable (replicasPerTopic : Int) (activeNodeIds : List String) (nodeId : String)

theorem replaceReplica_spells {t : TopicMetadata} (h : t.Spelled) :
    Spells (fun replicas => ∀ r ∈ replicas, BrokerName r)
      (Metastore.replaceReplica replicasPerTopic activeNodeIds nodeId t :
        MetastoreProg ε (List String)) := by
  have hkept : ∀ r ∈ t.replicaList.filter fun r => decide (r ≠ nodeId), BrokerName r :=
    fun r hr => h.replicas r (List.mem_of_mem_filter hr)
  simp only [Metastore.replaceReplica]
  split
  · split
    · exact ⟨trivial, fun hReplicas hnames => refill_names hnames hkept⟩
    · exact hkept
  · exact h.replicas

theorem deregisterTopic_spells {t : TopicMetadata} (h : t.Spelled) :
    Spells (fun _ => True)
      (Metastore.deregisterTopic replicasPerTopic activeNodeIds nodeId t :
        MetastoreProg ε (Option TopicMetadata)) := by
  simp only [Metastore.deregisterTopic]
  refine (replaceReplica_spells _ _ _ h).bind fun newReplicas hreplicas => ?_
  have hwithout : TopicMetadata.Spelled
      { t with
        replicaList := newReplicas
        isrList := if t.leaderId = nodeId then t.isrList.filter fun r => decide (r ≠ nodeId)
          else t.isrList } := by
    refine ⟨h.topic, h.leaderId, hreplicas, fun r hr => ?_⟩
    simp only at hr
    split at hr
    · exact h.isr r (List.mem_of_mem_filter hr)
    · exact h.isr r hr
  refine (reelect_spells _ hwithout).bind fun newMeta hnew => ?_
  split
  · exact ⟨⟨hnew.topic, hnew.leaderId, hnew.replicas, hnew.isr⟩, fun _ _ => trivial⟩
  · trivial

theorem deregisterTopics_spells {todo : List TopicMetadata} (h : ∀ t ∈ todo, t.Spelled) :
    Spells (fun _ => True)
      (Metastore.deregisterTopics replicasPerTopic activeNodeIds nodeId todo :
        MetastoreProg ε (List TopicMetadata)) := by
  induction todo with
  | nil => trivial
  | cons t rest ih =>
      have hrest := ih fun t' ht' => h t' (List.mem_cons_of_mem t ht')
      exact (deregisterTopic_spells _ _ _ (h t List.mem_cons_self)).bind fun _ _ =>
        hrest.bind fun _ _ => trivial

theorem deregisterBroker_spells :
    Spells (fun _ => True)
      (Metastore.deregisterBroker replicasPerTopic nodeId :
        MetastoreProg ε (List TopicMetadata)) :=
  ⟨trivial, fun _ _ => ⟨trivial, fun _ _ => ⟨trivial, fun _ hall => ⟨trivial, fun _ _ =>
    deregisterTopics_spells _ _ _ hall⟩⟩⟩⟩

end

theorem spelled_new : MetastoreManager.new.Spelled := by
  refine ⟨?_, ?_, fun id hid => absurd hid (ConsistentHashRing.not_holds_new id)⟩
  all_goals simp [MetastoreManager.new]

/-- No version is above the bound. -/
def MetastoreManager.VersionsUpTo (m : MetastoreManager) (n : Nat) : Prop :=
  ∀ name t, m.storage.topics.get? name = some t → 0 ≤ t.version ∧ t.version ≤ n

/-- The call stores no version above the bound. -/
def MetastoreCall.StoresUpTo (n : Nat) : MetastoreCall → Prop
  | .addTopic t | .updateTopic t => 0 ≤ t.version ∧ t.version ≤ n
  | _ => True

section
variable {hash : String → Nat} {m : MetastoreManager} {n : Nat}

theorem versionsUpTo_new : MetastoreManager.new.VersionsUpTo 0 := by
  intro name t h
  simp [MetastoreManager.new] at h

theorem MetastoreManager.VersionsUpTo.mono (h : m.VersionsUpTo n) : m.VersionsUpTo (n + 1) :=
  fun name t hget => ⟨(h name t hget).1, (h name t hget).2.trans (by omega)⟩

theorem MetastoreCall.StoresUpTo.handle {c : MetastoreCall} (hc : c.StoresUpTo n)
    (h : m.VersionsUpTo n) : (m.handle hash c).1.VersionsUpTo n := by
  cases c with
  | addNode _ | removeNode _ | getNode _ | getAllNodes | getTopic _ | getAllTopics => exact h
  | ring c => exact h
  | addTopic t | updateTopic t =>
      simp only [MetastoreManager.handle]
      split
      all_goals first
        | exact h
        | intro name t' hget
          simp only [MetastoreManager.setTopic, Dict.get?_set] at hget
          split at hget
          · exact Option.some.inj hget ▸ hc
          · exact h name t' hget

/-- What such a program leaves, whether or not it raises. -/
theorem MetastoreManager.VersionsUpTo.exec (h : m.VersionsUpTo n) {α : Type} {Q : α → Prop}
    {p : MetastoreProg MetastoreError α} (hp : p.Within (MetastoreCall.StoresUpTo n) Q) :
    (m.exec hash p).1.VersionsUpTo n := by
  have keep : ∀ (s : MetastoreManager) (c : MetastoreCall), c.StoresUpTo n →
      s.VersionsUpTo n → (s.handle hash c).1.VersionsUpTo n := fun _ _ hc hs => hc.handle hs
  exact hp.exec_keeps keep h

theorem registerBroker_versions (h : m.VersionsUpTo n) (nodeId host : String) (port : Int) :
    (m.exec hash (Metastore.registerBroker nodeId host port)).1.VersionsUpTo (n + 1) :=
  h.mono.exec (Q := fun _ => True) ⟨trivial, fun _ => ⟨trivial, fun _ => trivial⟩⟩

theorem registerTopic_versions (h : m.VersionsUpTo n) (replicasPerTopic : Int)
    (topicName : String) :
    (m.exec hash (Metastore.registerTopic replicasPerTopic topicName)).1.VersionsUpTo (n + 1) := by
  refine h.mono.exec (Q := fun _ => True) ⟨trivial, fun existing => ?_⟩
  cases existing with
  | some t => trivial
  | none =>
      have hone : (0 : Int) ≤ 1 ∧ (1 : Int) ≤ ((n + 1 : Nat) : Int) := by omega
      exact ⟨trivial, fun _ => ⟨hone, fun _ => trivial⟩⟩

theorem updateTopicIsr_versions (h : m.VersionsUpTo n) (topicName : String)
    (isrList : List String) :
    (m.exec hash (Metastore.updateTopicIsr topicName isrList)).1.VersionsUpTo (n + 1) := by
  have hget : Prog.exec (MetastoreManager.handle hash) m (Storage.getTopic topicName) =
      (m, .ok (m.storage.topics.get? topicName)) := rfl
  rw [MetastoreManager.exec, Metastore.updateTopicIsr, Prog.exec_bind_ok hget]
  cases hstored : m.storage.topics.get? topicName with
  | none => exact h.mono
  | some t =>
      refine h.mono.exec (Q := fun _ => True) ?_
      refine (reelect_within (fun _ => trivial) _ _).bind fun newMeta _ => ⟨?_, fun _ => trivial⟩
      have hbound := h topicName t hstored
      change 0 ≤ t.version + 1 ∧ t.version + 1 ≤ ((n + 1 : Nat) : Int)
      omega

theorem deregisterBroker_versions (h : m.VersionsUpTo n) (replicasPerTopic : Int)
    (nodeId : String) :
    (m.exec hash (Metastore.deregisterBroker replicasPerTopic nodeId)).1.VersionsUpTo (n + 1) := by
  let erased : MetastoreManager :=
    { m with storage := { m.storage with nodes := m.storage.nodes.erase nodeId } }
  have hremove : Prog.exec (MetastoreManager.handle hash) m (Storage.removeNode nodeId) =
      (erased, .ok (m.storage.nodes.get? nodeId)) := rfl
  rw [MetastoreManager.exec, Metastore.deregisterBroker, Prog.exec_bind_ok hremove]
  refine Prog.exec_bind_state (fun s : MetastoreManager => s.VersionsUpTo (n + 1)) ?_
    fun s answer hring => ?_
  · exact h.mono.exec (m := erased) (Q := fun _ => True) ⟨trivial, fun _ => trivial⟩
  · have hs : s.VersionsUpTo n := by
      have hwithin : (Ring.removeNode nodeId : MetastoreProg MetastoreError Unit).Within
          (MetastoreCall.StoresUpTo n) fun _ => True := ⟨trivial, fun _ => trivial⟩
      have herased : erased.VersionsUpTo n := h
      have hkept : (erased.exec hash (Ring.removeNode nodeId)).1.VersionsUpTo n :=
        herased.exec hwithin
      rwa [MetastoreManager.exec, hring] at hkept
    have hall : Prog.exec (MetastoreManager.handle hash) s Storage.getAllTopics =
        (s, .ok s.storage.topics.values) := rfl
    rw [Prog.exec_bind_ok hall]
    refine hs.mono.exec (Q := fun _ => True) ⟨trivial, fun _ => ?_⟩
    refine deregisterTopics_within _ _ _ (fun _ => trivial) (fun _ _ => trivial) ?_
    intro t ht t' _ hversion
    obtain ⟨name, hget⟩ := (Dict.mem_values_iff _ t).mp ht
    have hbound := hs name t hget
    change 0 ≤ t'.version ∧ t'.version ≤ ((n + 1 : Nat) : Int)
    omega

end
end PyLogStream
