import PyLogStream.Lib.Run
import PyLogStream.Metastore.Effects

/-!
Who leads a topic over a whole run of the metastore. In every state the ring holds
the registered brokers and the replicas of every topic are registered. Whether the
leader and the in-sync replicas are replicas as well depends on how brokers leave.
-/

namespace PyLogStream
open Lib ConsistentHashRing

/-- The broker an operation registers or deregisters. -/
def MetastoreOp.broker? : MetastoreOp → Option String
  | .registerBroker nodeId _ _ => some nodeId
  | .deregisterBroker nodeId => some nodeId
  | _ => none

def brokersOf (ops : List MetastoreOp) : Set String := { id | ∃ op ∈ ops, op.broker? = some id }

/-- What holds of the metastore whatever is done to it. -/
structure MetastoreOk (hash : String → Nat) (ids : Set String) (s : MetastoreManager) : Prop where
  ring : RingOk hash s.ring s.registered
  vnodes : s.ring.replicas = 50
  known : s.registered ⊆ ids
  named : s.TopicsNamed
  placed : ∀ name t, s.storage.topics.get? name = some t → ∀ r ∈ t.replicaList, r ∈ s.registered

/-- Every leader is a registered replica, and every in-sync replica is a replica. -/
def ElectionOk (s : MetastoreManager) : Prop :=
  ∀ t ∈ s.storage.topics.values,
    (t.leaderId = "" ∨ t.leaderId ∈ s.storage.nodes.keys ∧ t.leaderId ∈ t.replicaList) ∧
      ∀ r ∈ t.isrList, r ∈ t.replicaList

instance (s : MetastoreManager) : Decidable (ElectionOk s) :=
  inferInstanceAs (Decidable (∀ t ∈ s.storage.topics.values, _))

/-- A broker leaves only while it is in sync with no topic but those it leads, and
those have another replica, or get one from the ring, or nobody is left. The
in-sync list of a topic is replaced by replicas, and only while it has replicas or
no broker is registered. -/
def KeepsElection (replicasPerTopic : Int) (s : MetastoreManager) : MetastoreOp → Prop
  | .deregisterBroker x =>
    ∀ t ∈ s.storage.topics.values, (x ∈ t.isrList → t.leaderId = x) ∧
      (t.leaderId = x → (∃ r ∈ t.replicaList, r ≠ x) ∨
        (x ∈ t.replicaList ∧ 1 ≤ replicasPerTopic) ∨ ∀ b ∈ s.storage.nodes.keys, b = x)
  | .updateTopicIsr topicName isrList =>
    ∀ t ∈ s.storage.topics.values, t.topic = topicName →
      (∀ r ∈ isrList, r ∈ t.replicaList) ∧ (t.replicaList = [] → s.storage.nodes.keys = [])
  | .registerBroker _ _ _ => True
  | .registerTopic _ => True

instance (replicasPerTopic : Int) (s : MetastoreManager) (op : MetastoreOp) :
    Decidable (KeepsElection replicasPerTopic s op) :=
  match op with
  | .deregisterBroker _ => inferInstanceAs (Decidable (∀ t ∈ s.storage.topics.values, _ ∧ _))
  | .updateTopicIsr _ _ => inferInstanceAs (Decidable (∀ t ∈ s.storage.topics.values, _ → _ ∧ _))
  | .registerBroker _ _ _ => isTrue trivial
  | .registerTopic _ => isTrue trivial

section
variable {hash : String → Nat} {ids : Set String} {replicasPerTopic : Int} {s : MetastoreManager}

theorem mem_registered {id : String} : id ∈ s.registered ↔ id ∈ s.storage.nodes.keys :=
  (Dict.mem_keys_iff _ _).symm

theorem registered_set (node : BrokerNode) (ring : ConsistentHashRing) :
    MetastoreManager.registered
      ⟨{ s.storage with nodes := s.storage.nodes.set node.nodeId node }, ring⟩ =
        insert node.nodeId s.registered := by
  ext id
  simp only [MetastoreManager.registered, Set.mem_ofPred_eq, Set.mem_insert_iff, Dict.get?_set]
  by_cases h : id = node.nodeId <;> simp [h]

theorem registered_erase {s' : MetastoreManager} {nodeId : String}
    (h : s'.storage.nodes = s.storage.nodes.erase nodeId) :
    s'.registered = s.registered \ {nodeId} := by
  ext id
  simp only [MetastoreManager.registered, Set.mem_ofPred_eq, Set.mem_sdiff, Set.mem_singleton_iff, h,
    Dict.get?_erase]
  by_cases hid : id = nodeId <;> simp [hid]

theorem metastoreOk_new (hash : String → Nat) (ids : Set String) :
    MetastoreOk hash ids MetastoreManager.new := by
  have hempty : MetastoreManager.new.registered = ∅ := by
    ext id
    simp [MetastoreManager.registered, MetastoreManager.new]
  refine ⟨hempty ▸ ringOk_new hash, rfl, ?_, ?_, ?_⟩
  · rw [hempty]
    exact Set.empty_subset ids
  · intro name t h
    cases h
  · intro name t h
    cases h

theorem MetastoreOk.setTopic (ok : MetastoreOk hash ids s) {t : TopicMetadata}
    (placed : ∀ r ∈ t.replicaList, r ∈ s.registered) : MetastoreOk hash ids (s.setTopic t) := by
  refine ⟨ok.ring, ok.vnodes, ok.known, ?_, ?_⟩
  · intro name t' h
    rw [MetastoreManager.setTopic_get?] at h
    split at h
    · next heq => exact (Option.some.inj h) ▸ heq.symm
    · exact ok.named name t' h
  · intro name t' h
    rw [MetastoreManager.setTopic_get?] at h
    split at h
    · exact (Option.some.inj h) ▸ placed
    · exact ok.placed name t' h

theorem Deregistered.replicas_of {activeNodeIds : List String} {nodeId : String}
    {ring : ConsistentHashRing} {members : Set String} {t t' : TopicMetadata}
    (h : Deregistered replicasPerTopic activeNodeIds nodeId hash ring members t t') {r : String}
    (hr : r ∈ t'.replicaList) : r ∈ t.replicaList ∧ r ≠ nodeId ∨ r ∈ members := by
  rcases h with ⟨rfl, hnot, -⟩ | homed
  · exact Or.inl ⟨hr, fun heq => hnot (heq ▸ hr)⟩
  · obtain ⟨added, heq, hadded⟩ := homed.replicas
    rw [heq] at hr
    rcases List.mem_append.mp hr with hkept | hnew
    · have hfilter := List.mem_filter.mp hkept
      exact Or.inl ⟨hfilter.1, by simpa using hfilter.2⟩
    · exact Or.inr (hadded r hnew)

theorem MetastoreOk.without (ok : MetastoreOk hash ids s) (free : CollisionFree hash 50 ids)
    {nodeId : String} (hid : nodeId ∈ ids) :
    RingOk hash (s.without hash nodeId).ring (s.registered \ {nodeId}) ∧
      (s.without hash nodeId).ring.replicas = 50 := by
  have free' : CollisionFree hash s.ring.replicas ids := by
    rw [ok.vnodes]
    exact free
  obtain ⟨ring, hrep⟩ := ok.ring.removeNode free' ok.known hid
  exact ⟨ring, hrep.trans ok.vnodes⟩

/-- After `deregister_broker` every topic comes from one before it. -/
theorem MetastoreOk.deregister (ok : MetastoreOk hash ids s) (free : CollisionFree hash 50 ids)
    (replicasPerTopic : Int) {nodeId : String} (hid : nodeId ∈ ids) :
    let s' := (s.apply hash replicasPerTopic (.deregisterBroker nodeId)).1
    s'.ring = (s.without hash nodeId).ring ∧ s'.registered = s.registered \ {nodeId} ∧
      ∀ name t', s'.storage.topics.get? name = some t' →
        ∃ t, s.storage.topics.get? name = some t ∧
          Deregistered replicasPerTopic (s.without hash nodeId).activeNodeIds nodeId hash
            (s.without hash nodeId).ring (s.registered \ {nodeId}) t t' := by
  intro s'
  obtain ⟨ring, -⟩ := ok.without free hid
  obtain ⟨s'', updated, hexec, hring, hnodes, htopics, hothers⟩ :=
    deregisterBroker_spec replicasPerTopic nodeId ring ok.named
  have hstate : s' = s'' := congrArg Prod.fst (MetastoreManager.apply_state hexec _)
  rw [hstate]
  refine ⟨hring, registered_erase hnodes, fun name t' hget => ?_⟩
  cases hold : s.storage.topics.get? name with
  | none =>
      rw [hothers name hold] at hget
      cases hget
  | some t =>
      obtain ⟨t₁, hget₁, hder⟩ := htopics name t hold
      rw [hget₁] at hget
      exact ⟨t, rfl, (Option.some.inj hget) ▸ hder⟩

theorem MetastoreOk.apply (ok : MetastoreOk hash ids s) (free : CollisionFree hash 50 ids)
    {op : MetastoreOp} (hid : ∀ id, op.broker? = some id → id ∈ ids) :
    MetastoreOk hash ids (s.apply hash replicasPerTopic op).1 := by
  cases op with
  | registerBroker nodeId host port =>
      have hmem : nodeId ∈ ids := hid nodeId rfl
      have free' : CollisionFree hash s.ring.replicas ids := by
        rw [ok.vnodes]
        exact free
      obtain ⟨ring, hrep⟩ := ok.ring.addNode free' ok.known hmem
      have hreg : (s.apply hash replicasPerTopic (.registerBroker nodeId host port)).1.registered =
          insert nodeId s.registered := registered_set ⟨nodeId, host, port⟩ _
      refine ⟨?_, hrep.trans ok.vnodes, ?_, ok.named, ?_⟩
      · rw [hreg]
        exact ring
      · rw [hreg]
        exact Set.insert_subset hmem ok.known
      · intro name t hget r hr
        rw [hreg]
        exact Set.mem_insert_of_mem _ (ok.placed name t hget r hr)
  | deregisterBroker nodeId =>
      obtain ⟨ring, hrep⟩ := ok.without free (hid nodeId rfl)
      obtain ⟨hring, hreg, hfrom⟩ := ok.deregister free replicasPerTopic (hid nodeId rfl)
      refine ⟨?_, by rw [hring]; exact hrep, ?_, ?_, ?_⟩
      · rw [hring, hreg]
        exact ring
      · rw [hreg]
        exact fun id h => ok.known h.1
      · intro name t' hget
        obtain ⟨t, hold, hder⟩ := hfrom name t' hget
        rcases hder with ⟨rfl, -⟩ | homed
        · exact ok.named name t' hold
        · exact homed.topic.trans (ok.named name t hold)
      · intro name t' hget r hr
        obtain ⟨t, hold, hder⟩ := hfrom name t' hget
        rw [hreg]
        rcases hder.replicas_of hr with ⟨hkept, hne⟩ | hnew
        · exact ⟨ok.placed name t hold r hkept, hne⟩
        · exact hnew
  | registerTopic topicName =>
      rcases registerTopic_spec replicasPerTopic ok.ring topicName with
        ⟨t, -, hexec⟩ | ⟨replicas, -, -, hmem, hexec⟩
      · rw [MetastoreManager.apply, MetastoreOp.program, MetastoreManager.apply_state hexec]
        exact ok
      · rw [MetastoreManager.apply, MetastoreOp.program, MetastoreManager.apply_state hexec]
        exact ok.setTopic hmem
  | updateTopicIsr topicName isrList =>
      rcases updateTopicIsr_spec ok.ring ok.named topicName isrList with
        ⟨-, hexec⟩ | ⟨t, leader, hget, -, -, hexec⟩
      · rw [MetastoreManager.apply, MetastoreOp.program, MetastoreManager.apply_state hexec]
        exact ok
      · rw [MetastoreManager.apply, MetastoreOp.program, MetastoreManager.apply_state hexec]
        exact ok.setTopic (ok.placed topicName t hget)

/-- `deregister_broker` does not raise, and the broker leaves the metastore. -/
theorem MetastoreOk.exec_deregister (ok : MetastoreOk hash ids s)
    (free : CollisionFree hash 50 ids) (replicasPerTopic : Int) {nodeId : String}
    (hid : nodeId ∈ ids) :
    ∃ s' updated, s.exec hash (Metastore.deregisterBroker replicasPerTopic nodeId) =
        (s', .ok updated) ∧
      MetastoreOk hash ids s' ∧ s'.storage.nodes = s.storage.nodes.erase nodeId := by
  obtain ⟨s', updated, hexec, -, hnodes, -⟩ :=
    deregisterBroker_spec replicasPerTopic nodeId (ok.without free hid).1 ok.named
  have happly : (s.apply hash replicasPerTopic (.deregisterBroker nodeId)).1 = s' :=
    congrArg Prod.fst (MetastoreManager.apply_state hexec _)
  have ok' : MetastoreOk hash ids (s.apply hash replicasPerTopic (.deregisterBroker nodeId)).1 :=
    ok.apply free fun id h => Option.some.inj h ▸ hid
  exact ⟨s', updated, hexec, happly ▸ ok', hnodes⟩

theorem ElectionOk.get? (election : ElectionOk s) {name : String} {t : TopicMetadata}
    (h : s.storage.topics.get? name = some t) :
    (t.leaderId = "" ∨ t.leaderId ∈ s.registered ∧ t.leaderId ∈ t.replicaList) ∧
      ∀ r ∈ t.isrList, r ∈ t.replicaList := by
  have helection := election t ((Dict.mem_values_iff _ _).mpr ⟨name, h⟩)
  rwa [← mem_registered] at helection

theorem electionOk_of_get? (h : ∀ name t, s.storage.topics.get? name = some t →
    (t.leaderId = "" ∨ t.leaderId ∈ s.registered ∧ t.leaderId ∈ t.replicaList) ∧
      ∀ r ∈ t.isrList, r ∈ t.replicaList) : ElectionOk s := by
  intro t ht
  obtain ⟨name, hget⟩ := (Dict.mem_values_iff _ _).mp ht
  rw [← mem_registered]
  exact h name t hget

theorem ElectionOk.setTopic (election : ElectionOk s) {t : TopicMetadata}
    (h : (t.leaderId = "" ∨ t.leaderId ∈ s.registered ∧ t.leaderId ∈ t.replicaList) ∧
      ∀ r ∈ t.isrList, r ∈ t.replicaList) : ElectionOk (s.setTopic t) := by
  refine electionOk_of_get? fun name t' hget => ?_
  rw [MetastoreManager.setTopic_get?] at hget
  split at hget
  · exact (Option.some.inj hget) ▸ h
  · exact election.get? hget

theorem Rehomed.kept {active : List String} {nodeId : String} {ring : ConsistentHashRing}
    {members : Set String} {t t' : TopicMetadata}
    (homed : Rehomed replicasPerTopic active nodeId hash ring members t t') {r : String}
    (hr : r ∈ t.replicaList) (hne : r ≠ nodeId) : r ∈ t'.replicaList := by
  obtain ⟨added, hreplicas, -⟩ := homed.replicas
  rw [hreplicas]
  exact List.mem_append_left _ (List.mem_filter.mpr ⟨hr, by simpa using hne⟩)

/-- A topic the broker has left is in order if it was, and if there is someone to
lead it. -/
theorem Rehomed.election {active : List String} {nodeId : String} {ring : ConsistentHashRing}
    {members : Set String} {t t' : TopicMetadata}
    (homed : Rehomed replicasPerTopic active nodeId hash ring (members \ {nodeId}) t t')
    (ringOk : RingOk hash ring (members \ {nodeId}))
    (placed : ∀ r ∈ t'.replicaList, r ∈ members \ {nodeId})
    (before : (t.leaderId = "" ∨ t.leaderId ∈ members ∧ t.leaderId ∈ t.replicaList) ∧
      ∀ r ∈ t.isrList, r ∈ t.replicaList)
    (insync : nodeId ∈ t.isrList → t.leaderId = nodeId)
    (someone : t.leaderId = nodeId → t'.replicaList = [] → ∀ b ∈ members, b = nodeId) :
    (t'.leaderId = "" ∨ t'.leaderId ∈ members \ {nodeId} ∧ t'.leaderId ∈ t'.replicaList) ∧
      ∀ r ∈ t'.isrList, r ∈ t'.replicaList := by
  have hisr : ∀ r ∈ t'.isrList, r ∈ t'.replicaList := by
    intro r hr
    rw [homed.isr] at hr
    split at hr
    · obtain ⟨hold, hne⟩ := List.mem_filter.mp hr
      exact homed.kept (before.2 r hold) (by simpa using hne)
    · next hleader => exact homed.kept (before.2 r hr) fun heq => hleader (insync (heq ▸ hr))
  refine ⟨?_, hisr⟩
  by_cases hleader : t.leaderId = nodeId
  · rcases (homed.elected hleader).live ringOk with hin | hin | ⟨hnil, hmem | ⟨hempty, -⟩⟩
    · exact Or.inr ⟨placed _ (hisr _ hin), hisr _ hin⟩
    · exact Or.inr ⟨placed _ hin, hin⟩
    · exact absurd (someone hleader hnil _ hmem.1) hmem.2
    · exact Or.inl hempty
  · rw [homed.follower hleader]
    rcases before.1 with hempty | ⟨hmem, hin⟩
    · exact Or.inl hempty
    · exact Or.inr ⟨⟨hmem, hleader⟩, homed.kept hin hleader⟩

/-- With a broker other than the departing one registered, a topic the ring refills
has replicas. -/
theorem Rehomed.replicas_ne_nil (ok : MetastoreOk hash ids s) (free : CollisionFree hash 50 ids)
    {nodeId b : String} (hid : nodeId ∈ ids) {t t' : TopicMetadata}
    (homed : Rehomed replicasPerTopic (s.without hash nodeId).activeNodeIds nodeId hash
      (s.without hash nodeId).ring (s.registered \ {nodeId}) t t')
    (hin : nodeId ∈ t.replicaList) (hcount : 1 ≤ replicasPerTopic)
    (hb : b ∈ s.registered) (hother : b ≠ nodeId) : t'.replicaList ≠ [] := by
  obtain ⟨ring, hrep⟩ := ok.without free hid
  have hmem : b ∈ s.registered \ {nodeId} := ⟨hb, hother⟩
  have hactive : (s.without hash nodeId).activeNodeIds ≠ [] := by
    obtain ⟨node, hnode⟩ := hb
    have hkept : (s.storage.nodes.erase nodeId).get? b = some node := by
      rw [Dict.get?_erase, if_neg hother]
      exact hnode
    have hvalue := (Dict.mem_values_iff _ _).mpr ⟨b, hkept⟩
    exact List.ne_nil_of_mem (List.mem_map_of_mem hvalue)
  exact homed.refilled hin hcount hactive (ring.items_ne_nil (by rw [hrep]; omega) hmem)

theorem ElectionOk.deregisterBroker (election : ElectionOk s) (ok : MetastoreOk hash ids s)
    (free : CollisionFree hash 50 ids) {nodeId : String} (hid : nodeId ∈ ids)
    (keeps : KeepsElection replicasPerTopic s (.deregisterBroker nodeId)) :
    ElectionOk (s.apply hash replicasPerTopic (.deregisterBroker nodeId)).1 := by
  have ok' : MetastoreOk hash ids (s.apply hash replicasPerTopic (.deregisterBroker nodeId)).1 :=
    ok.apply free fun id h => Option.some.inj h ▸ hid
  obtain ⟨ring, -⟩ := ok.without free hid
  obtain ⟨hring, hreg, hfrom⟩ := ok.deregister free replicasPerTopic hid
  refine electionOk_of_get? fun name t' hget => ?_
  have placed := ok'.placed name t' hget
  obtain ⟨t, hold, hder⟩ := hfrom name t' hget
  have before := election.get? hold
  obtain ⟨insync, hsomeone⟩ := keeps t ((Dict.mem_values_iff _ _).mpr ⟨name, hold⟩)
  rw [hreg] at placed ⊢
  rcases hder with ⟨rfl, -, hne⟩ | homed
  · exact ⟨before.1.imp_right (And.imp_left fun h => ⟨h, hne⟩), before.2⟩
  · refine homed.election ring placed before insync fun hleader hnil b hb => ?_
    by_contra hother
    rcases hsomeone hleader with ⟨r, hr, hne⟩ | ⟨hin, hcount⟩ | hnobody
    · have hkept := homed.kept hr hne
      rw [hnil] at hkept
      exact absurd hkept List.not_mem_nil
    · exact homed.replicas_ne_nil ok free hid hin hcount hb hother hnil
    · exact hother (hnobody b (mem_registered.mp hb))

theorem ElectionOk.registerTopic (election : ElectionOk s) (ok : MetastoreOk hash ids s)
    (topicName : String) :
    ElectionOk (s.apply hash replicasPerTopic (.registerTopic topicName)).1 := by
  rw [MetastoreManager.apply, MetastoreOp.program]
  rcases registerTopic_spec replicasPerTopic ok.ring topicName with
    ⟨t, -, hexec⟩ | ⟨replicas, -, -, hmem, hexec⟩
  · rw [MetastoreManager.apply_state hexec]
    exact election
  · rw [MetastoreManager.apply_state hexec]
    refine election.setTopic ⟨?_, fun r hr => hr⟩
    cases replicas with
    | nil => exact Or.inl rfl
    | cons first rest => exact Or.inr ⟨hmem _ List.mem_cons_self, List.mem_cons_self⟩

theorem ElectionOk.updateTopicIsr (election : ElectionOk s) (ok : MetastoreOk hash ids s)
    {topicName : String} {isrList : List String}
    (keeps : KeepsElection replicasPerTopic s (.updateTopicIsr topicName isrList)) :
    ElectionOk (s.apply hash replicasPerTopic (.updateTopicIsr topicName isrList)).1 := by
  rw [MetastoreManager.apply, MetastoreOp.program]
  rcases updateTopicIsr_spec ok.ring ok.named topicName isrList with
    ⟨-, hexec⟩ | ⟨t, leader, hget, hElected, hkept, hexec⟩
  · rw [MetastoreManager.apply_state hexec]
    exact election
  · rw [MetastoreManager.apply_state hexec]
    obtain ⟨hisr, hnobody⟩ := keeps t ((Dict.mem_values_iff _ _).mpr ⟨_, hget⟩)
      (ok.named _ _ hget)
    have placed := ok.placed topicName t hget
    refine election.setTopic ⟨?_, hisr⟩
    by_cases hleader : t.leaderId ∈ isrList
    · change leader = "" ∨ leader ∈ s.registered ∧ leader ∈ t.replicaList
      rw [hkept hleader]
      exact Or.inr ⟨placed _ (hisr _ hleader), hisr _ hleader⟩
    · rcases (hElected hleader).live ok.ring with hin | hin | ⟨hnil, hmem | ⟨hempty, -⟩⟩
      · exact Or.inr ⟨placed _ (hisr _ hin), hisr _ hin⟩
      · exact Or.inr ⟨placed _ hin, hin⟩
      · rw [mem_registered, hnobody hnil] at hmem
        exact absurd hmem List.not_mem_nil
      · exact Or.inl hempty

theorem ElectionOk.apply (election : ElectionOk s) (ok : MetastoreOk hash ids s)
    (free : CollisionFree hash 50 ids) {op : MetastoreOp}
    (hid : ∀ id, op.broker? = some id → id ∈ ids) (keeps : KeepsElection replicasPerTopic s op) :
    ElectionOk (s.apply hash replicasPerTopic op).1 := by
  cases op with
  | registerBroker nodeId host port =>
      have hreg : (s.apply hash replicasPerTopic (.registerBroker nodeId host port)).1.registered =
          insert nodeId s.registered := registered_set ⟨nodeId, host, port⟩ _
      refine electionOk_of_get? fun name t hget => ?_
      have hold : s.storage.topics.get? name = some t := hget
      obtain ⟨hleader, hisr⟩ := election.get? hold
      rw [hreg]
      exact ⟨hleader.imp_right (And.imp_left (Set.mem_insert_of_mem nodeId)), hisr⟩
  | deregisterBroker nodeId => exact election.deregisterBroker ok free (hid nodeId rfl) keeps
  | registerTopic topicName => exact election.registerTopic ok topicName
  | updateTopicIsr topicName isrList => exact election.updateTopicIsr ok keeps

end

/-- In every run whose operations all keep the elections, every leader in every
state reached is a registered replica and every in-sync replica is a replica. -/
theorem leaders_are_live_replicas (hash : String → Nat) (replicasPerTopic : Int)
    (ops : List MetastoreOp) (free : CollisionFree hash 50 (brokersOf ops))
    (keeps : MeetsAll (MetastoreManager.apply hash replicasPerTopic)
      (KeepsElection replicasPerTopic) MetastoreManager.new ops) :
    ∀ early late, ops = early ++ late →
      ElectionOk (run (MetastoreManager.apply hash replicasPerTopic) MetastoreManager.new early) := by
  rintro early late rfl
  have hmeets := (keeps.with_mem fun op h => h).of_append.1
  have inv := hmeets.invariant
    (fun s => MetastoreOk hash (brokersOf (early ++ late)) s ∧ ElectionOk s)
    (fun s (op : MetastoreOp) inv hstep =>
      have hid : ∀ id, op.broker? = some id → id ∈ brokersOf (early ++ late) :=
        fun id h => ⟨op, hstep.1, h⟩
      ⟨inv.1.apply free hid, inv.2.apply inv.1 free hid hstep.2⟩)
    ⟨metastoreOk_new hash _, by intro t ht; simp [MetastoreManager.new, Dict.values, Dict.empty] at ht⟩
  exact inv.2

/-- Two brokers and a topic on both, led by `b2`. -/
def twoBrokers : List MetastoreOp :=
  [.registerBroker "b1" "h" 1, .registerBroker "b2" "h" 2, .registerTopic "t"]

theorem brokersOf_twoBrokers :
    brokersOf (twoBrokers ++ [.deregisterBroker "b2"]) ⊆ { id | id ∈ ["b1", "b2"] } := by
  rintro id ⟨op, hop, hid⟩
  have hall : ∀ op ∈ twoBrokers ++ [.deregisterBroker "b2"], ∀ id ∈ op.broker?,
      id ∈ ["b1", "b2"] := by decide
  exact hall op hop id hid

theorem leaders_are_live_replicas_leader_leaves :
    ElectionOk (run (MetastoreManager.apply md5Hash 2) MetastoreManager.new
      (twoBrokers ++ [.deregisterBroker "b2"])) :=
  leaders_are_live_replicas md5Hash 2 _ (collisionFree_twoBrokers.mono brokersOf_twoBrokers)
    (by decide +kernel) _ [] (List.append_nil _).symm

/-- A follower that leaves stays in the in-sync list, which is no longer part of the
replicas. -/
theorem follower_leaves_in_sync :
    CollisionFree md5Hash 50 { id | id ∈ ["b1", "b2"] } ∧
      ¬ ElectionOk (run (MetastoreManager.apply md5Hash 2) MetastoreManager.new
        (twoBrokers ++ [.deregisterBroker "b1"])) :=
  ⟨collisionFree_twoBrokers, by decide +kernel⟩

end PyLogStream
