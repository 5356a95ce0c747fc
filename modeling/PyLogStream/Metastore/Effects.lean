import PyLogStream.Metastore.Manager

/-!
What each manager operation does on the in-memory storage, over a ring that holds
its members. No operation raises then. `Deregistered` says what `deregister_broker`
makes of one topic; the operations above it cite these lemmas and are not unfolded.
-/

namespace PyLogStream
open Lib ConsistentHashRing

section
variable {hash : String → Nat} {members : Set String} {s : MetastoreManager}

theorem MetastoreManager.exec_bind {s' : MetastoreManager} {α β : Type}
    {p : MetastoreProg MetastoreError α} {a : α} (h : s.exec hash p = (s', .ok a))
    (f : α → MetastoreProg MetastoreError β) : s.exec hash (p >>= f) = s'.exec hash (f a) :=
  Prog.exec_bind_ok h f

theorem MetastoreManager.exec_pure {α : Type} (a : α) :
    s.exec hash (pure a : MetastoreProg MetastoreError α) = (s, .ok a) := rfl

theorem MetastoreManager.exec_updateTopic {t old : TopicMetadata}
    (h : s.storage.topics.get? t.topic = some old) :
    s.exec hash (Storage.updateTopic t) = (s.setTopic t, .ok ()) := by
  simp [exec, Storage.updateTopic, Prog.perform, Prog.exec, handle, h]

theorem MetastoreManager.setTopic_get? (s : MetastoreManager) (t : TopicMetadata) (name : String) :
    (s.setTopic t).storage.topics.get? name =
      if name = t.topic then some t else s.storage.topics.get? name :=
  Dict.get?_set _ _ _ _

/-- Packing up the answer leaves the effect of an operation as it is. -/
theorem MetastoreManager.apply_state {s' : MetastoreManager} {α : Type}
    {p : MetastoreProg MetastoreError α} {a : α} (h : s.exec hash p = (s', .ok a))
    (f : α → MetastoreAnswer) : s.exec hash (do return f (← p)) = (s', .ok (f a)) :=
  exec_bind h _

/-- Whom `_elect_leader` elects. -/
def Elected (hash : String → Nat) (ring : ConsistentHashRing) (t : TopicMetadata)
    (leader : String) : Prop :=
  match t.isrList, t.replicaList with
  | first :: _, _ => leader = first
  | [], first :: _ => leader = first
  | [], [] => ∃ node, ring.getNode hash t.topic = .ok node ∧ leader = node.getD ""

theorem electLeader_spec (ok : RingOk hash s.ring members) (t : TopicMetadata) :
    ∃ leader, s.exec hash (Metastore.electLeader t) = (s, .ok leader) ∧
      Elected hash s.ring t leader := by
  unfold Metastore.electLeader Elected
  cases hisr : t.isrList with
  | cons leader isr => exact ⟨leader, rfl, rfl⟩
  | nil =>
      cases hreplicas : t.replicaList with
      | cons leader replicas => exact ⟨leader, rfl, rfl⟩
      | nil =>
          obtain ⟨node, hnode⟩ : ∃ node, s.ring.getNode hash t.topic = .ok node := by
            rcases ok.getNode t.topic with ⟨h, -⟩ | ⟨node, -, h⟩
            · exact ⟨none, h⟩
            · exact ⟨some node, h⟩
          refine ⟨node.getD "", ?_, node, hnode, rfl⟩
          have hcall : s.exec hash (Ring.getNode t.topic) = (s, .ok node) := by
            simp [MetastoreManager.exec, Ring.getNode, Prog.perform, Prog.exec,
              MetastoreManager.handle, ConsistentHashRing.handle, hnode, Except.mapError]
          exact MetastoreManager.exec_bind hcall _

theorem reelect_spec (ok : RingOk hash s.ring members) (needed : Prop) [Decidable needed]
    (t : TopicMetadata) :
    ∃ leader, s.exec hash (Metastore.reelect needed t) = (s, .ok { t with leaderId := leader }) ∧
      (needed → Elected hash s.ring t leader) ∧ (¬ needed → leader = t.leaderId) := by
  unfold Metastore.reelect
  split
  · next hneeded =>
      obtain ⟨leader, helect, hElected⟩ := electLeader_spec ok t
      refine ⟨leader, ?_, fun _ => hElected, fun h => absurd hneeded h⟩
      rw [MetastoreManager.exec_bind helect]
      rfl
  · next hnot => exact ⟨t.leaderId, rfl, fun h => absurd h hnot, fun _ => rfl⟩

/-- The elected leader is a replica, or there are no replicas and it is any member. -/
theorem Elected.live {ring : ConsistentHashRing} {t : TopicMetadata} {leader : String}
    (h : Elected hash ring t leader) (ok : RingOk hash ring members) :
    leader ∈ t.isrList ∨ leader ∈ t.replicaList ∨
      t.replicaList = [] ∧ (leader ∈ members ∨ leader = "" ∧ ring.ring.items = []) := by
  unfold Elected at h
  split at h
  · next hisr => exact Or.inl (by rw [hisr, h]; exact List.mem_cons_self)
  · next hreplicas => exact Or.inr (Or.inl (by rw [hreplicas, h]; exact List.mem_cons_self))
  · next hreplicas =>
      obtain ⟨node, hnode, rfl⟩ := h
      refine Or.inr (Or.inr ⟨hreplicas, ?_⟩)
      rcases ok.getNode t.topic with ⟨hnone, hempty⟩ | ⟨node', hmem, hsome⟩
      · rw [hnone] at hnode
        obtain rfl := Except.ok.inj hnode
        exact Or.inr ⟨rfl, hempty⟩
      · rw [hsome] at hnode
        obtain rfl := Except.ok.inj hnode
        exact Or.inl hmem

theorem refill_spec (count : Int) (hReplicas newReplicas : List String) :
    ∃ added, Metastore.refill count hReplicas newReplicas = newReplicas ++ added ∧
      (∀ r ∈ added, r ∈ hReplicas) ∧ (hReplicas ≠ [] → newReplicas ++ added ≠ []) := by
  induction hReplicas generalizing newReplicas with
  | nil => exact ⟨[], by simp [Metastore.refill], by simp, fun h => absurd rfl h⟩
  | cons r rest ih =>
      unfold Metastore.refill
      split
      · next hin =>
          obtain ⟨added, heq, hsub, -⟩ := ih newReplicas
          refine ⟨added, heq, fun r' h => List.mem_cons_of_mem _ (hsub r' h), fun _ => ?_⟩
          exact List.append_ne_nil_of_left_ne_nil (List.ne_nil_of_mem hin) _
      · split
        · exact ⟨[r], rfl, by simp, by simp⟩
        · obtain ⟨added, heq, hsub, -⟩ := ih (newReplicas ++ [r])
          refine ⟨r :: added, by rw [heq]; simp, fun r' h => ?_, by simp⟩
          rcases List.mem_cons.mp h with rfl | hrest
          · exact List.mem_cons_self
          · exact List.mem_cons_of_mem _ (hsub r' hrest)

section
variable (replicasPerTopic : Int) (activeNodeIds : List String) (nodeId : String)

/-- The replicas of a topic without the given broker. -/
def TopicMetadata.survivors (t : TopicMetadata) : List String :=
  t.replicaList.filter fun r => decide (r ≠ nodeId)

theorem survivors_of_not_mem {t : TopicMetadata} (h : nodeId ∉ t.replicaList) :
    t.survivors nodeId = t.replicaList := by
  refine List.filter_eq_self.mpr fun r hr => ?_
  have hne : r ≠ nodeId := fun heq => h (heq ▸ hr)
  simpa using hne

theorem replaceReplica_spec (ok : RingOk hash s.ring members) (t : TopicMetadata) :
    ∃ newReplicas,
      s.exec hash (Metastore.replaceReplica replicasPerTopic activeNodeIds nodeId t) =
        (s, .ok newReplicas) ∧
      (∃ added, newReplicas = t.survivors nodeId ++ added ∧ ∀ r ∈ added, r ∈ members) ∧
      (nodeId ∈ t.replicaList → 1 ≤ replicasPerTopic → activeNodeIds ≠ [] →
        s.ring.ring.items ≠ [] → newReplicas ≠ []) := by
  unfold Metastore.replaceReplica
  change ∃ newReplicas, s.exec hash (if nodeId ∈ t.replicaList then
    if ((t.survivors nodeId).length : Int) < replicasPerTopic ∧ _ then _
    else pure (t.survivors nodeId) else _) = _ ∧ _
  split
  · split
    · obtain ⟨hReplicas, hcall, hmem, -, hne⟩ := ok.getReplicas t.topic replicasPerTopic
      have hring : s.exec hash (Ring.getReplicas t.topic replicasPerTopic) =
          (s, .ok hReplicas) := by
        simp [MetastoreManager.exec, Ring.getReplicas, Prog.perform, Prog.exec,
          MetastoreManager.handle, ConsistentHashRing.handle, hcall, Except.mapError]
      obtain ⟨added, heq, hsub, hfill⟩ :=
        refill_spec replicasPerTopic hReplicas (t.survivors nodeId)
      refine ⟨t.survivors nodeId ++ added, ?_, ⟨added, rfl, fun r hr => hmem r (hsub r hr)⟩,
        fun _ _ _ h => hfill (hne h)⟩
      rw [MetastoreManager.exec_bind hring, ← heq]
      rfl
    · next hfew =>
        refine ⟨t.survivors nodeId, rfl, ⟨[], by simp, by simp⟩, fun _ hcount hactive _ hnil => ?_⟩
        rw [hnil] at hfew
        have hzero : (([] : List String).length : Int) < replicasPerTopic := by
          rw [List.length_nil]
          omega
        exact hfew ⟨hzero, hactive⟩
  · next hin =>
      refine ⟨t.replicaList, rfl, ⟨[], ?_, by simp⟩, fun h => absurd h hin⟩
      rw [survivors_of_not_mem nodeId hin, List.append_nil]

/-- What `deregister_broker` writes for a topic of the broker. -/
structure Rehomed (hash : String → Nat) (ring : ConsistentHashRing) (members : Set String)
    (t t' : TopicMetadata) : Prop where
  topic : t'.topic = t.topic
  version : t'.version = t.version + 1
  involved : nodeId ∈ t.replicaList ∨ t.leaderId = nodeId
  replicas : ∃ added, t'.replicaList = t.survivors nodeId ++ added ∧ ∀ r ∈ added, r ∈ members
  refilled : nodeId ∈ t.replicaList → 1 ≤ replicasPerTopic → activeNodeIds ≠ [] →
    ring.ring.items ≠ [] → t'.replicaList ≠ []
  isr : t'.isrList =
    if t.leaderId = nodeId then t.isrList.filter (fun r => decide (r ≠ nodeId)) else t.isrList
  follower : t.leaderId ≠ nodeId → t'.leaderId = t.leaderId
  elected : t.leaderId = nodeId → Elected hash ring t' t'.leaderId

/-- What `deregister_broker` makes of a topic. -/
def Deregistered (hash : String → Nat) (ring : ConsistentHashRing) (members : Set String)
    (t t' : TopicMetadata) : Prop :=
  t' = t ∧ nodeId ∉ t.replicaList ∧ t.leaderId ≠ nodeId ∨
    Rehomed replicasPerTopic activeNodeIds nodeId hash ring members t t'

/-- One round of the loop, with the replicas that the topic gets. -/
theorem deregisterTopic_replaced (ok : RingOk hash s.ring members) {t old : TopicMetadata}
    (hget : s.storage.topics.get? t.topic = some old) :
    ∃ newReplicas,
      s.exec hash (Metastore.replaceReplica replicasPerTopic activeNodeIds nodeId t) =
        (s, .ok newReplicas) ∧
      ((nodeId ∉ t.replicaList ∧ t.leaderId ≠ nodeId ∧
        s.exec hash (Metastore.deregisterTopic replicasPerTopic activeNodeIds nodeId t) =
          (s, .ok none)) ∨
      ∃ t', Rehomed replicasPerTopic activeNodeIds nodeId hash s.ring members t t' ∧
        t'.replicaList = newReplicas ∧
        s.exec hash (Metastore.deregisterTopic replicasPerTopic activeNodeIds nodeId t) =
          (s.setTopic t', .ok (some t'))) := by
  obtain ⟨newReplicas, hreplicas, hadded, hrefilled⟩ :=
    replaceReplica_spec replicasPerTopic activeNodeIds nodeId ok t
  refine ⟨newReplicas, hreplicas, ?_⟩
  unfold Metastore.deregisterTopic
  rw [MetastoreManager.exec_bind hreplicas]
  obtain ⟨leader, hreelect, hElected, hkept⟩ := reelect_spec ok (t.leaderId = nodeId)
    { t with
      replicaList := newReplicas
      isrList := if t.leaderId = nodeId then t.isrList.filter fun r => decide (r ≠ nodeId)
        else t.isrList }
  rw [MetastoreManager.exec_bind hreelect]
  by_cases hinvolved : nodeId ∈ t.replicaList ∨ t.leaderId = nodeId
  · right
    let t' : TopicMetadata :=
      { t with
        leaderId := leader
        replicaList := newReplicas
        isrList := if t.leaderId = nodeId then t.isrList.filter fun r => decide (r ≠ nodeId)
          else t.isrList
        version := t.version + 1 }
    have hstore : s.exec hash (Storage.updateTopic t') = (s.setTopic t', .ok ()) :=
      MetastoreManager.exec_updateTopic hget
    refine ⟨t', ⟨rfl, rfl, hinvolved, hadded, hrefilled, rfl, hkept, hElected⟩, rfl, ?_⟩
    rw [if_pos hinvolved]
    exact MetastoreManager.exec_bind hstore _
  · left
    rw [if_neg hinvolved]
    rw [not_or] at hinvolved
    exact ⟨hinvolved.1, hinvolved.2, rfl⟩

theorem deregisterTopic_spec (ok : RingOk hash s.ring members) {t old : TopicMetadata}
    (hget : s.storage.topics.get? t.topic = some old) :
    (nodeId ∉ t.replicaList ∧ t.leaderId ≠ nodeId ∧
      s.exec hash (Metastore.deregisterTopic replicasPerTopic activeNodeIds nodeId t) =
        (s, .ok none)) ∨
    ∃ t', Rehomed replicasPerTopic activeNodeIds nodeId hash s.ring members t t' ∧
      s.exec hash (Metastore.deregisterTopic replicasPerTopic activeNodeIds nodeId t) =
        (s.setTopic t', .ok (some t')) := by
  obtain ⟨newReplicas, -, hidle | ⟨t', hhomed, -, hexec⟩⟩ :=
    deregisterTopic_replaced replicasPerTopic activeNodeIds nodeId ok hget
  · exact Or.inl hidle
  · exact Or.inr ⟨t', hhomed, hexec⟩

/-- If every round leaves its topic or replaces it, so that a relation holds, the loop
does so for all of its topics and leaves the others. -/
theorem deregisterTopics_each {R : TopicMetadata → TopicMetadata → Prop}
    (round : ∀ s₁ : MetastoreManager, s₁.ring = s.ring → ∀ t : TopicMetadata,
      s₁.storage.topics.get? t.topic = some t →
      (R t t ∧ s₁.exec hash (Metastore.deregisterTopic replicasPerTopic activeNodeIds nodeId t) =
        (s₁, .ok none)) ∨
      ∃ t', t'.topic = t.topic ∧ R t t' ∧
        s₁.exec hash (Metastore.deregisterTopic replicasPerTopic activeNodeIds nodeId t) =
          (s₁.setTopic t', .ok (some t')))
    {todo : List TopicMetadata} (names : (todo.map TopicMetadata.topic).Nodup)
    (stored : ∀ t ∈ todo, s.storage.topics.get? t.topic = some t) :
    ∃ s' updated, s.exec hash
        (Metastore.deregisterTopics replicasPerTopic activeNodeIds nodeId todo) =
          (s', .ok updated) ∧
      s'.ring = s.ring ∧ s'.storage.nodes = s.storage.nodes ∧
      (∀ t ∈ todo, ∃ t', s'.storage.topics.get? t.topic = some t' ∧ R t t') ∧
      ∀ name, (∀ t ∈ todo, t.topic ≠ name) →
        s'.storage.topics.get? name = s.storage.topics.get? name := by
  induction todo generalizing s with
  | nil => exact ⟨s, [], rfl, rfl, rfl, by simp, fun _ _ => rfl⟩
  | cons t rest ih =>
      rw [List.map_cons, List.nodup_cons] at names
      have hfresh : ∀ t₁ ∈ rest, t₁.topic ≠ t.topic :=
        fun t₁ h heq => names.1 (heq ▸ List.mem_map_of_mem h)
      have hstored := stored t List.mem_cons_self
      have hrest : ∀ t₁ ∈ rest, s.storage.topics.get? t₁.topic = some t₁ :=
        fun t₁ h => stored t₁ (List.mem_cons_of_mem _ h)
      unfold Metastore.deregisterTopics
      rcases round s rfl t hstored with ⟨hrel, hexec⟩ | ⟨t', htopic, hrel, hexec⟩
      · obtain ⟨s', updated, hloop, hring, hnodes, htopics, hothers⟩ := ih round names.2 hrest
        refine ⟨s', updated, ?_, hring, hnodes, ?_, ?_⟩
        · rw [MetastoreManager.exec_bind hexec, MetastoreManager.exec_bind hloop]
          rfl
        · intro t₁ ht₁
          rcases List.mem_cons.mp ht₁ with rfl | h
          · exact ⟨t₁, (hothers _ hfresh).trans hstored, hrel⟩
          · exact htopics t₁ h
        · exact fun name h => hothers name fun t₁ ht₁ => h t₁ (List.mem_cons_of_mem _ ht₁)
      · have hrest' : ∀ t₁ ∈ rest, (s.setTopic t').storage.topics.get? t₁.topic = some t₁ := by
          intro t₁ h
          rw [MetastoreManager.setTopic_get?, htopic, if_neg (hfresh t₁ h)]
          exact hrest t₁ h
        obtain ⟨s', updated, hloop, hring, hnodes, htopics, hothers⟩ :=
          ih (s := s.setTopic t') round names.2 hrest'
        refine ⟨s', t' :: updated, ?_, hring, hnodes, ?_, ?_⟩
        · rw [MetastoreManager.exec_bind hexec, MetastoreManager.exec_bind hloop]
          rfl
        · intro t₁ ht₁
          rcases List.mem_cons.mp ht₁ with rfl | h
          · refine ⟨t', ?_, hrel⟩
            rw [hothers _ hfresh, MetastoreManager.setTopic_get?, if_pos htopic.symm]
          · exact htopics t₁ h
        · intro name h
          have hname : name ≠ t'.topic := htopic ▸ (h t List.mem_cons_self).symm
          rw [hothers name fun t₁ ht₁ => h t₁ (List.mem_cons_of_mem _ ht₁),
            MetastoreManager.setTopic_get?, if_neg hname]

end

/-- Every topic of the one state is a topic of the other, related to it. -/
def MetastoreManager.TopicsTo (R : TopicMetadata → TopicMetadata → Prop)
    (s s' : MetastoreManager) : Prop :=
  ∀ name t, s.storage.topics.get? name = some t →
    ∃ t', s'.storage.topics.get? name = some t' ∧ R t t'

/-- The registered brokers. -/
def MetastoreManager.registered (s : MetastoreManager) : Set String :=
  { id | ∃ node, s.storage.nodes.get? id = some node }

/-- Every topic is stored under its name. -/
def MetastoreManager.TopicsNamed (s : MetastoreManager) : Prop :=
  ∀ name t, s.storage.topics.get? name = some t → t.topic = name

theorem MetastoreManager.TopicsNamed.values (named : s.TopicsNamed) :
    (s.storage.topics.values.map TopicMetadata.topic).Nodup ∧
      ∀ t ∈ s.storage.topics.values, s.storage.topics.get? t.topic = some t := by
  have hitem : ∀ item ∈ s.storage.topics.items, item.2.topic = item.1 :=
    fun item h => named item.1 item.2 ((Dict.get?_eq_some_iff _ _ _).mpr h)
  constructor
  · have heq : s.storage.topics.values.map TopicMetadata.topic =
        s.storage.topics.items.map Prod.fst := by
      rw [Dict.values, List.map_map]
      exact List.map_congr_left hitem
    rw [heq]
    exact s.storage.topics.nodup
  · intro t ht
    obtain ⟨⟨name, t'⟩, hmem, rfl⟩ := List.mem_map.mp ht
    have hname : t'.topic = name := hitem _ hmem
    exact (Dict.get?_eq_some_iff _ _ _).mpr (hname ▸ hmem)

theorem registerBroker_spec (nodeId host : String) (port : Int) :
    s.exec hash (Metastore.registerBroker nodeId host port) =
      ({ s with
          storage :=
            { s.storage with nodes := s.storage.nodes.set nodeId ⟨nodeId, host, port⟩ }
          ring := s.ring.addNode hash nodeId }, .ok ⟨nodeId, host, port⟩) := rfl

/-- The manager after the broker has left the storage and the ring. -/
def MetastoreManager.without (hash : String → Nat) (s : MetastoreManager) (nodeId : String) :
    MetastoreManager :=
  { s with
    storage := { s.storage with nodes := s.storage.nodes.erase nodeId }
    ring := s.ring.removeNode hash nodeId }

/-- The ids of the brokers `deregister_broker` finds active. -/
def MetastoreManager.activeNodeIds (s : MetastoreManager) : List String :=
  s.storage.nodes.values.map BrokerNode.nodeId

/-- What every round of its loop does, `deregister_broker` does to every topic. -/
theorem deregisterBroker_each (replicasPerTopic : Int) (nodeId : String) (named : s.TopicsNamed)
    {R : TopicMetadata → TopicMetadata → Prop}
    (round : ∀ s₁ : MetastoreManager, s₁.ring = (s.without hash nodeId).ring →
      ∀ t : TopicMetadata, s₁.storage.topics.get? t.topic = some t →
      (R t t ∧ s₁.exec hash (Metastore.deregisterTopic replicasPerTopic
        (s.without hash nodeId).activeNodeIds nodeId t) = (s₁, .ok none)) ∨
      ∃ t', t'.topic = t.topic ∧ R t t' ∧
        s₁.exec hash (Metastore.deregisterTopic replicasPerTopic
          (s.without hash nodeId).activeNodeIds nodeId t) = (s₁.setTopic t', .ok (some t'))) :
    ∃ s' updated, s.exec hash (Metastore.deregisterBroker replicasPerTopic nodeId) =
        (s', .ok updated) ∧
      s'.ring = (s.without hash nodeId).ring ∧
      s'.storage.nodes = s.storage.nodes.erase nodeId ∧
      s.TopicsTo R s' ∧
      ∀ name, s.storage.topics.get? name = none → s'.storage.topics.get? name = none := by
  obtain ⟨hnodup, hstored⟩ := named.values
  obtain ⟨s', updated, hloop, hring, hnodes, htopics, hothers⟩ :=
    deregisterTopics_each replicasPerTopic (s.without hash nodeId).activeNodeIds nodeId round hnodup
      (s := s.without hash nodeId) hstored
  refine ⟨s', updated, hloop, hring, hnodes, ?_, ?_⟩
  · intro name t hget
    obtain rfl := named name t hget
    exact htopics t (List.mem_map_of_mem ((Dict.get?_eq_some_iff _ _ _).mp hget))
  · intro name hget
    rw [hothers name ?_]
    · exact hget
    · rintro t ht rfl
      have hsome := hstored t ht
      rw [hget] at hsome
      cases hsome

theorem deregisterBroker_spec (replicasPerTopic : Int) (nodeId : String)
    (ok : RingOk hash (s.without hash nodeId).ring members) (named : s.TopicsNamed) :
    ∃ s' updated, s.exec hash (Metastore.deregisterBroker replicasPerTopic nodeId) =
        (s', .ok updated) ∧
      s'.ring = (s.without hash nodeId).ring ∧
      s'.storage.nodes = s.storage.nodes.erase nodeId ∧
      (∀ name t, s.storage.topics.get? name = some t →
        ∃ t', s'.storage.topics.get? name = some t' ∧
          Deregistered replicasPerTopic (s.without hash nodeId).activeNodeIds nodeId hash
            (s.without hash nodeId).ring members t t') ∧
      ∀ name, s.storage.topics.get? name = none → s'.storage.topics.get? name = none := by
  refine deregisterBroker_each replicasPerTopic nodeId named fun s₁ hring t hget => ?_
  rw [← hring] at ok ⊢
  rcases deregisterTopic_spec replicasPerTopic _ nodeId ok hget with
    ⟨hin, hleader, hexec⟩ | ⟨t', hhomed, hexec⟩
  · exact Or.inl ⟨Or.inl ⟨rfl, hin, hleader⟩, hexec⟩
  · exact Or.inr ⟨t', hhomed.topic, Or.inr hhomed, hexec⟩

theorem registerTopic_spec (replicasPerTopic : Int) (ok : RingOk hash s.ring members)
    (topicName : String) :
    (∃ t, s.storage.topics.get? topicName = some t ∧
      s.exec hash (Metastore.registerTopic replicasPerTopic topicName) = (s, .ok t)) ∨
    ∃ replicas, s.storage.topics.get? topicName = none ∧
      s.ring.getReplicas hash topicName replicasPerTopic = .ok replicas ∧
      (∀ r ∈ replicas, r ∈ members) ∧
      s.exec hash (Metastore.registerTopic replicasPerTopic topicName) =
        (s.setTopic ⟨topicName, replicas.head?.getD "", replicas, replicas, 1⟩,
          .ok ⟨topicName, replicas.head?.getD "", replicas, replicas, 1⟩) := by
  have hcall : s.exec hash (Storage.getTopic topicName) =
      (s, .ok (s.storage.topics.get? topicName)) := rfl
  unfold Metastore.registerTopic
  rw [MetastoreManager.exec_bind hcall]
  cases hget : s.storage.topics.get? topicName with
  | some t => exact Or.inl ⟨t, rfl, rfl⟩
  | none =>
      obtain ⟨replicas, hring, hmem, -, -⟩ := ok.getReplicas topicName replicasPerTopic
      refine Or.inr ⟨replicas, rfl, hring, hmem, ?_⟩
      have hreplicas : s.exec hash (Ring.getReplicas topicName replicasPerTopic) =
          (s, .ok replicas) := by
        simp [MetastoreManager.exec, Ring.getReplicas, Prog.perform, Prog.exec,
          MetastoreManager.handle, ConsistentHashRing.handle, hring, Except.mapError]
      have hadd : s.exec hash (Storage.addTopic
          ⟨topicName, replicas.head?.getD "", replicas, replicas, 1⟩) =
          (s.setTopic ⟨topicName, replicas.head?.getD "", replicas, replicas, 1⟩, .ok ()) := by
        simp [MetastoreManager.exec, Storage.addTopic, Prog.perform, Prog.exec,
          MetastoreManager.handle, hget]
      change s.exec hash (Ring.getReplicas topicName replicasPerTopic >>= _) = _
      rw [MetastoreManager.exec_bind hreplicas]
      exact MetastoreManager.exec_bind hadd _

theorem updateTopicIsr_spec (ok : RingOk hash s.ring members) (named : s.TopicsNamed)
    (topicName : String) (isrList : List String) :
    s.storage.topics.get? topicName = none ∧
      s.exec hash (Metastore.updateTopicIsr topicName isrList) = (s, .ok none) ∨
    ∃ t leader, s.storage.topics.get? topicName = some t ∧
      (t.leaderId ∉ isrList → Elected hash s.ring { t with isrList } leader) ∧
      (t.leaderId ∈ isrList → leader = t.leaderId) ∧
      s.exec hash (Metastore.updateTopicIsr topicName isrList) =
        (s.setTopic { t with isrList, leaderId := leader, version := t.version + 1 },
          .ok (some { t with isrList, leaderId := leader, version := t.version + 1 })) := by
  have hcall : s.exec hash (Storage.getTopic topicName) =
      (s, .ok (s.storage.topics.get? topicName)) := rfl
  unfold Metastore.updateTopicIsr
  rw [MetastoreManager.exec_bind hcall]
  cases hget : s.storage.topics.get? topicName with
  | none => exact Or.inl ⟨rfl, rfl⟩
  | some t =>
      obtain ⟨leader, hreelect, hElected, hkept⟩ :=
        reelect_spec ok (t.leaderId ∉ isrList) { t with isrList }
      refine Or.inr ⟨t, leader, rfl, hElected, fun h => hkept (not_not.mpr h), ?_⟩
      have hstored : s.storage.topics.get? t.topic = some t := named _ _ hget ▸ hget
      have hstore : s.exec hash (Storage.updateTopic
          { t with isrList, leaderId := leader, version := t.version + 1 }) =
          (s.setTopic { t with isrList, leaderId := leader, version := t.version + 1 }, .ok ()) :=
        MetastoreManager.exec_updateTopic hstored
      change s.exec hash (Metastore.reelect (t.leaderId ∉ isrList) { t with isrList } >>= _) = _
      rw [MetastoreManager.exec_bind hreelect]
      exact MetastoreManager.exec_bind hstore _

end
end PyLogStream
