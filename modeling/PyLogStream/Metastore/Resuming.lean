import PyLogStream.Metastore.Interrupted

/-!
A deregistration that is taken up again. `deregister_broker` writes topic by topic, and the
next controller, with a ring of its own, has to do with what it left. Since a topic without
the broker is left alone, any number of tries that stop anywhere and one that does not lead
to the tree that one try alone leads to.
-/

namespace PyLogStream
open Lib ConsistentHashRing

section
variable {hash : String → Nat} {s : ZkMetastore} {replicasPerTopic : Int} {nodeId : String}
  {activeNodeIds : List String} {t : TopicMetadata}

theorem exec_ring {c : RingCall} {r : c.Answer} (h : s.ring.handle hash c = (s.ring, .ok r)) :
    ((Prog.perform (MetastoreCall.ring c) : MetastoreProg MetastoreError _).translate
      ZkStorage.program).exec (ZkMetastore.handle hash) s = (s, .ok r) := by
  rw [Prog.translate_perform]
  simp only [ZkStorage.program, Prog.perform, Prog.exec, ZkMetastore.handle, h]
  rfl

theorem replaceReplica_exec (answering : Answering hash s.ring) (t : TopicMetadata) :
    ((Metastore.replaceReplica replicasPerTopic activeNodeIds nodeId t).translate
        ZkStorage.program).exec (ZkMetastore.handle hash) s =
      (s, .ok (t.replaced replicasPerTopic nodeId (decide (activeNodeIds ≠ []))
        (s.ring.replicasOf hash t.topic replicasPerTopic))) := by
  have hask := exec_ring (answering.handle_getReplicas t.topic replicasPerTopic)
  simp only [Metastore.replaceReplica, TopicMetadata.replaced, TopicMetadata.survivors,
    decide_eq_true_eq]
  split
  · split
    · rw [Prog.translate_bind, Ring.getReplicas, Prog.exec_bind_ok hask]
      rfl
    · rfl
  · rfl

theorem reelect_exec (answering : Answering hash s.ring) (needed : Prop) [Decidable needed]
    (t : TopicMetadata) :
    ((Metastore.reelect needed t).translate ZkStorage.program).exec (ZkMetastore.handle hash) s =
      (s, .ok (if needed then t.elected (s.ring.nodeOf hash t.topic) else t)) := by
  have hask := exec_ring (answering.handle_getNode t.topic)
  obtain ⟨topic, leaderId, replicaList, isrList, version⟩ := t
  simp only [Metastore.reelect]
  split
  · cases isrList with
    | cons leader rest => rfl
    | nil =>
        cases replicaList with
        | cons leader rest => rfl
        | nil =>
            simp only [Metastore.electLeader, Prog.translate_bind, Ring.getNode, Prog.exec_bind,
              hask]
            rfl
  · rfl

/-- The tree once the loop has been at a topic. -/
def Znodes.deregisterTopic (z : Znodes) (f : TopicMetadata → TopicMetadata) (nodeId : String)
    (t : TopicMetadata) : Znodes :=
  if t.Involves nodeId then Dict.set z (topicPath t.topic) (.topic (f t)) else z

theorem deregisterTopic_exec (answering : Answering hash s.ring)
    (stored : (s.znodes.get? (topicPath t.topic)).isSome = true) :
    let f := TopicMetadata.deregistered hash s.ring replicasPerTopic
      (decide (activeNodeIds ≠ [])) nodeId
    ((Metastore.deregisterTopic replicasPerTopic activeNodeIds nodeId t).translate
        ZkStorage.program).exec (ZkMetastore.handle hash) s =
      ({ s with znodes := s.znodes.deregisterTopic f nodeId t },
        .ok (if t.Involves nodeId then some (f t) else none)) := by
  intro f
  simp only [Metastore.deregisterTopic, Prog.translate_bind,
    Prog.exec_bind_ok (replaceReplica_exec answering t),
    Prog.exec_bind_ok (reelect_exec answering _ _)]
  by_cases hinvolves : t.Involves nodeId
  · have hstore : ∀ t' : TopicMetadata, t'.topic = t.topic →
        ((do Storage.updateTopic t'; pure (some t') :
          MetastoreProg MetastoreError (Option TopicMetadata)).translate ZkStorage.program).exec
            (ZkMetastore.handle hash) s =
          ({ s with znodes := Dict.set s.znodes (topicPath t.topic) (.topic t') },
            .ok (some t')) := by
      intro t' hname
      have hupdate := @ZkStorage.updateTopic_eq hash s t' (hname ▸ stored)
      rw [Prog.translate_bind, Storage.updateTopic, Prog.translate_perform, ZkStorage.program,
        Prog.exec_bind_ok hupdate, hname]
      rfl
    have hnew : f t = (t.rehomed hash s.ring replicasPerTopic (decide (activeNodeIds ≠ []))
        nodeId).bumped := if_pos hinvolves
    rw [if_pos (show nodeId ∈ t.replicaList ∨ t.leaderId = nodeId from hinvolves),
      Znodes.deregisterTopic, if_pos hinvolves, if_pos hinvolves, hnew]
    simp only [TopicMetadata.rehomed, TopicMetadata.relieved, TopicMetadata.isrWithout]
    split <;> exact hstore _ rfl
  · rw [if_neg (show ¬ (nodeId ∈ t.replicaList ∨ t.leaderId = nodeId) from hinvolves),
      Znodes.deregisterTopic, if_neg hinvolves, if_neg hinvolves]
    rfl

end

/-- What makes a topic one without the broker, and leaves alone a topic without it. -/
structure Frees (nodeId : String) (f : TopicMetadata → TopicMetadata) : Prop where
  topic : ∀ t, (f t).topic = t.topic
  idle : ∀ t, ¬ t.Involves nodeId → f t = t
  frees : ∀ t, ¬ (f t).Involves nodeId

theorem Frees.twice {nodeId : String} {f : TopicMetadata → TopicMetadata} (h : Frees nodeId f)
    (t : Option TopicMetadata) : (t.map f).map f = t.map f := by
  rw [Option.map_map]
  exact congrFun (congrArg Option.map (funext fun t => h.idle _ (h.frees t))) t

/-- The ring never names the broker. -/
structure Silent (hash : String → Nat) (ring : ConsistentHashRing) (nodeId : String) : Prop where
  node : ∀ topic, ring.nodeOf hash topic ≠ some nodeId
  replicas : ∀ topic count, nodeId ∉ ring.replicasOf hash topic count

theorem not_mem_replaced {replicasPerTopic : Int} {nodeId : String} {anyNode : Bool}
    {hReplicas : List String} (h : nodeId ∉ hReplicas) (t : TopicMetadata) :
    nodeId ∉ t.replaced replicasPerTopic nodeId anyNode hReplicas := by
  have hsurvivors : nodeId ∉ t.survivors nodeId := by simp [TopicMetadata.survivors]
  rw [TopicMetadata.replaced]
  split
  · split
    · obtain ⟨added, heq, hsub, -⟩ := refill_spec replicasPerTopic hReplicas (t.survivors nodeId)
      rw [heq, List.mem_append, not_or]
      exact ⟨hsurvivors, fun hadded => h (hsub nodeId hadded)⟩
    · exact hsurvivors
  · next hnot => exact hnot

theorem elected_leaderId_ne {nodeId : String} (hne : nodeId ≠ "") {node : Option String}
    (hnode : node ≠ some nodeId) {t : TopicMetadata} (hisr : nodeId ∉ t.isrList)
    (hreplicas : nodeId ∉ t.replicaList) : (t.elected node).leaderId ≠ nodeId := by
  obtain ⟨topic, leaderId, replicaList, isrList, version⟩ := t
  simp only [TopicMetadata.elected]
  cases isrList with
  | cons first rest => exact (List.ne_of_not_mem_cons hisr).symm
  | nil =>
      cases replicaList with
      | cons first rest => exact (List.ne_of_not_mem_cons hreplicas).symm
      | nil =>
          cases node with
          | none => exact hne.symm
          | some node => exact fun heq => hnode (congrArg some heq)

theorem Silent.frees {hash : String → Nat} {ring : ConsistentHashRing} {nodeId : String}
    (silent : Silent hash ring nodeId) (hne : nodeId ≠ "") (replicasPerTopic : Int)
    (anyNode : Bool) :
    Frees nodeId (TopicMetadata.deregistered hash ring replicasPerTopic anyNode nodeId) := by
  refine ⟨deregistered_topic, fun t h => if_neg h, fun t => ?_⟩
  rw [TopicMetadata.deregistered]
  split
  · have hreplicas := @not_mem_replaced replicasPerTopic nodeId anyNode _
      (silent.replicas t.topic replicasPerTopic) t
    simp only [TopicMetadata.bumped, TopicMetadata.rehomed, TopicMetadata.relieved]
    split
    · next hleader =>
        refine not_or.mpr ⟨hreplicas, elected_leaderId_ne hne (silent.node t.topic) ?_ hreplicas⟩
        simp [TopicMetadata.isrWithout, hleader]
    · next hother => exact not_or.mpr ⟨hreplicas, hother⟩
  · next hidle => exact hidle

namespace Znodes
variable {z z' : Znodes} {f : TopicMetadata → TopicMetadata} {nodeId : String} {t : TopicMetadata}

/-- The tree in the middle of a deregistration: some topics are done and the others are
as they were, as are the other brokers. -/
structure Underway (f : TopicMetadata → TopicMetadata) (nodeId : String) (z z' : Znodes) :
    Prop where
  tidy : z'.Tidy
  others : ∀ other, other ≠ nodeId → z'.brokerAt other = z.brokerAt other
  topics : ∀ name, z'.topicAt name = z.topicAt name ∨ z'.topicAt name = (z.topicAt name).map f

theorem Tidy.deregisterTopic (tidy : z.Tidy) (frees : Frees nodeId f)
    (stored : z.topicAt t.topic = some t) :
    (z.deregisterTopic f nodeId t).Tidy ∧
      (z.deregisterTopic f nodeId t).brokerAt = z.brokerAt ∧
      ∀ name, (z.deregisterTopic f nodeId t).topicAt name =
        if name = t.topic then some (f t) else z.topicAt name := by
  obtain ⟨-, -, -, hname⟩ := tidy.topic (topicAt_eq_some.mp stored)
  rw [Znodes.deregisterTopic]
  split
  · rw [← frees.topic t] at hname ⊢
    exact ⟨tidy.set ⟨hname, rfl⟩, brokerAt_set_topic _ _ _, topicAt_set_topic z (f t)⟩
  · next hidle =>
      refine ⟨tidy, rfl, fun name => ?_⟩
      split
      · next heq => rw [heq, stored, frees.idle t hidle]
      · rfl

theorem Underway.refl (tidy : z.Tidy) : Underway f nodeId z z :=
  ⟨tidy, fun _ _ => rfl, fun _ => Or.inl rfl⟩

theorem Underway.trans (frees : Frees nodeId f) {z'' : Znodes} (first : Underway f nodeId z z')
    (second : Underway f nodeId z' z'') : Underway f nodeId z z'' := by
  refine ⟨second.tidy, fun other hne => (second.others other hne).trans (first.others other hne),
    fun name => ?_⟩
  have twice := frees.twice (z.topicAt name)
  cases second.topics name with
  | inl hsame =>
      cases first.topics name with
      | inl hsame' => exact Or.inl (hsame.trans hsame')
      | inr hdone' => exact Or.inr (hsame.trans hdone')
  | inr hdone =>
      right
      cases first.topics name with
      | inl hsame' => rw [hdone, hsame']
      | inr hdone' => rw [hdone, hdone', twice]

theorem Tidy.underway (tidy : z.Tidy) (frees : Frees nodeId f)
    (stored : z.topicAt t.topic = some t) :
    Underway f nodeId z (z.deregisterTopic f nodeId t) := by
  obtain ⟨tidy', hbrokers, htopics⟩ := tidy.deregisterTopic frees stored
  refine ⟨tidy', fun other _ => congrFun hbrokers other, fun name => ?_⟩
  rw [htopics]
  split
  · next heq => exact Or.inr (by rw [heq, stored, Option.map_some])
  · exact Or.inl rfl

end Znodes

/-- Wherever the program stops, the deregistration is under way. -/
def StopsUnderway {α : Type} (hash : String → Nat) (f : TopicMetadata → TopicMetadata)
    (nodeId : String) (z : Znodes) (s : ZkMetastore) (p : ZkProg α) : Prop :=
  ∀ n, Znodes.Underway f nodeId z (p.stopped (ZkMetastore.handle hash) n s).znodes

section
variable {hash : String → Nat} {f : TopicMetadata → TopicMetadata} {nodeId : String} {z : Znodes}
  {s : ZkMetastore} {α β : Type}

theorem StopsUnderway.bind {p : ZkProg α} {g : α → ZkProg β}
    (first : StopsUnderway hash f nodeId z s p)
    (next : ∀ s' a, p.exec (ZkMetastore.handle hash) s = (s', .ok a) →
      StopsUnderway hash f nodeId z s' (g a)) : StopsUnderway hash f nodeId z s (p >>= g) :=
  Prog.stopped_bind (P := fun s' : ZkMetastore => Znodes.Underway f nodeId z s'.znodes) first next

theorem StopsUnderway.of_asks {p : ZkProg α} (h : p.Within Asks fun _ => True)
    (underway : Znodes.Underway f nodeId z s.znodes) : StopsUnderway hash f nodeId z s p :=
  h.stopped_keeps (K := fun s' : ZkMetastore => Znodes.Underway f nodeId z s'.znodes)
    (fun s' c hc hs' => (@Asks.znodes hash s' c hc).symm ▸ hs') underway

theorem StopsUnderway.of_single {p : MetastoreProg MetastoreError α} (single : Single hash s p)
    {s' : ZkMetastore} {a : α}
    (hexec : (p.translate ZkStorage.program).exec (ZkMetastore.handle hash) s = (s', .ok a))
    (before : Znodes.Underway f nodeId z s.znodes) (after : Znodes.Underway f nodeId z s'.znodes) :
    StopsUnderway hash f nodeId z s (p.translate ZkStorage.program) := by
  intro n
  cases single n with
  | inl h =>
      rw [h]
      exact before
  | inr h =>
      rw [h, hexec]
      exact after

end

section
variable {hash : String → Nat} {replicasPerTopic : Int} {nodeId : String}
  {activeNodeIds : List String}

theorem deregisterTopic_single {s : ZkMetastore} (t : TopicMetadata) :
    Single hash s (Metastore.deregisterTopic replicasPerTopic activeNodeIds nodeId t) := by
  refine Single.after (replaceReplica_within _ _ _ (fun _ _ => trivial) t) fun s₁ newReplicas => ?_
  refine Single.after (reelect_within (fun _ => trivial) _ _) fun s₂ newMeta => ?_
  split
  · exact Single.before (ZkStorage.method_allOrNothing s₂) fun _ => Prog.within_pure trivial
  · exact Single.of_asks (Prog.within_pure (Q := fun _ => True) trivial)

/-- Topics to be done by the loop are as they are stored, each once. -/
structure Todo (z : Znodes) (todo : List TopicMetadata) : Prop where
  tidy : z.Tidy
  names : (todo.map TopicMetadata.topic).Nodup
  stored : ∀ t ∈ todo, z.topicAt t.topic = some t

variable {ring : ConsistentHashRing} {f : TopicMetadata → TopicMetadata} {z : Znodes}
  {t : TopicMetadata} {todo rest : List TopicMetadata}

theorem Todo.next (h : Todo z (t :: rest)) (frees : Frees nodeId f) :
    Todo (z.deregisterTopic f nodeId t) rest := by
  obtain ⟨tidy, names, stored⟩ := h
  rw [List.map_cons, List.nodup_cons] at names
  obtain ⟨tidy', -, htopics⟩ := tidy.deregisterTopic frees (stored t List.mem_cons_self)
  refine ⟨tidy', names.2, fun t' ht' => ?_⟩
  have hne : t'.topic ≠ t.topic := fun heq => names.1 (heq ▸ List.mem_map_of_mem ht')
  rw [htopics, if_neg hne]
  exact stored t' (List.mem_cons_of_mem _ ht')

/-- The loop changes the topics that it is to do. -/
theorem deregisterTopics_exec (answering : Answering hash ring)
    (hf : f = TopicMetadata.deregistered hash ring replicasPerTopic (decide (activeNodeIds ≠ []))
      nodeId) (frees : Frees nodeId f) (h : Todo z todo) :
    ∃ z', ((Metastore.deregisterTopics replicasPerTopic activeNodeIds nodeId todo).translate
        ZkStorage.program).exec (ZkMetastore.handle hash) ⟨z, ring⟩ =
          (⟨z', ring⟩, .ok ((todo.filter fun t => decide (t.Involves nodeId)).map f)) ∧
      z'.Tidy ∧ z'.brokerAt = z.brokerAt ∧
      ∀ name, z'.topicAt name =
        if name ∈ todo.map TopicMetadata.topic then (z.topicAt name).map f else z.topicAt name := by
  induction todo generalizing z with
  | nil => exact ⟨z, rfl, h.tidy, rfl, fun name => (if_neg List.not_mem_nil).symm⟩
  | cons t rest ih =>
      have hstored := h.stored t List.mem_cons_self
      have hexec := @deregisterTopic_exec hash ⟨z, ring⟩ replicasPerTopic nodeId activeNodeIds t
        answering (Option.isSome_of_eq_some (Znodes.topicAt_eq_some.mp hstored))
      rw [← hf] at hexec
      obtain ⟨-, hbrokers, htopics⟩ := h.tidy.deregisterTopic frees hstored
      obtain ⟨z', hrest, tidy', hbrokers', htopics'⟩ := ih (h.next frees)
      refine ⟨z', ?_, tidy', hbrokers'.trans hbrokers, fun name => ?_⟩
      · simp only [Metastore.deregisterTopics, Prog.translate_bind]
        rw [Prog.exec_bind_ok hexec, Prog.exec_bind_ok hrest]
        by_cases hinvolves : t.Involves nodeId
        · rw [if_pos hinvolves, List.filter_cons_of_pos (by simpa using hinvolves)]
          rfl
        · rw [if_neg hinvolves, List.filter_cons_of_neg (by simpa using hinvolves)]
          rfl
      · rw [htopics', htopics]
        by_cases heq : name = t.topic
        · have hnot : name ∉ rest.map TopicMetadata.topic := heq ▸ (List.nodup_cons.mp h.names).1
          rw [if_neg hnot, if_pos heq, if_pos (heq ▸ List.mem_cons_self), heq, hstored,
            Option.map_some]
        · simp only [List.map_cons, List.mem_cons, heq, false_or, if_false]

/-- Wherever the loop stops, some topics are done and the others are not. -/
theorem deregisterTopics_stopped (answering : Answering hash ring)
    (hf : f = TopicMetadata.deregistered hash ring replicasPerTopic (decide (activeNodeIds ≠ []))
      nodeId) (frees : Frees nodeId f) (h : Todo z todo) :
    StopsUnderway hash f nodeId z ⟨z, ring⟩
      ((Metastore.deregisterTopics replicasPerTopic activeNodeIds nodeId todo).translate
        ZkStorage.program) := by
  induction todo generalizing z with
  | nil => exact StopsUnderway.of_asks (Prog.within_pure trivial) (Znodes.Underway.refl h.tidy)
  | cons t rest ih =>
      have hstored := h.stored t List.mem_cons_self
      have hexec := @deregisterTopic_exec hash ⟨z, ring⟩ replicasPerTopic nodeId activeNodeIds t
        answering (Option.isSome_of_eq_some (Znodes.topicAt_eq_some.mp hstored))
      rw [← hf] at hexec
      have done := h.tidy.underway frees hstored
      simp only [Metastore.deregisterTopics, Prog.translate_bind]
      refine (StopsUnderway.of_single (deregisterTopic_single t) hexec
        (Znodes.Underway.refl h.tidy) done).bind fun s' updated hfirst m => ?_
      obtain rfl : _ = s' := congrArg Prod.fst (hexec.symm.trans hfirst)
      have hmap := @Prog.stopped_map _ _ _ _ _ _ (ZkMetastore.handle hash) m
        ⟨z.deregisterTopic f nodeId t, ring⟩ ((Metastore.deregisterTopics replicasPerTopic
          activeNodeIds nodeId rest).translate ZkStorage.program)
        fun updatedTopics => updated.toList ++ updatedTopics
      exact hmap ▸ done.trans frees (ih (h.next frees) m)

/-- Whether another broker than this one is registered. -/
def Znodes.anyOther (z : Znodes) (nodeId : String) : Bool :=
  let left : Znodes := Dict.erase z (brokerPath nodeId)
  decide (((left.children brokersPath).filterMap left.brokerAt).map BrokerNode.nodeId ≠ [])

theorem Znodes.Tidy.anyOther_eq {z' : Znodes} (tidy : z.Tidy) (tidy' : z'.Tidy)
    (h : ∀ other, other ≠ nodeId → z'.brokerAt other = z.brokerAt other) :
    z'.anyOther nodeId = z.anyOther nodeId := by
  have hnil : ∀ {y : Znodes}, y.Tidy → (y.anyOther nodeId = false ↔
      ∀ other, other ≠ nodeId → y.brokerAt other = none) := by
    intro y tidy
    have hleft := (tidy.erase nodeId).brokers_eq_nil (List.Perm.refl _)
    rw [Znodes.brokerAt_erase] at hleft
    simp only [Znodes.anyOther, decide_eq_false_iff_not, not_not, List.map_eq_nil_iff]
    rw [Znodes.brokerAt_erase, hleft]
    refine forall_congr' fun other => ?_
    rw [Function.update_apply]
    split
    · next heq => simp [heq]
    · next hne => simp [hne]
  refine Bool.eq_iff_iff.mpr (not_iff_not.mp ?_)
  rw [Bool.not_eq_true, Bool.not_eq_true, hnil tidy', hnil tidy]
  exact forall_congr' fun other => forall_congr' fun hne => by rw [h other hne]

/-- A controller about to deregister a broker, and what it will make of a topic. -/
structure Ready (hash : String → Nat) (replicasPerTopic : Int) (nodeId : String)
    (f : TopicMetadata → TopicMetadata) (s : ZkMetastore) : Prop where
  tidy : s.znodes.Tidy
  answering : Answering hash (s.ring.removeNode hash nodeId)
  eq : f = TopicMetadata.deregistered hash (s.ring.removeNode hash nodeId) replicasPerTopic
    (s.znodes.anyOther nodeId) nodeId
  frees : Frees nodeId f

/-- The broker's node is gone, and the topics are to be done. -/
def ZkMetastore.relieved (hash : String → Nat) (nodeId : String) (s : ZkMetastore) : ZkMetastore :=
  ⟨Dict.erase s.znodes (brokerPath nodeId), s.ring.removeNode hash nodeId⟩

theorem Todo.all (tidy : z.Tidy) : Todo z ((z.children topicsPath).filterMap z.topicAt) :=
  ⟨tidy, (tidy.listing (List.Perm.refl _)).nodup, fun t ht =>
    ((tidy.listing (List.Perm.refl _)).mem t).mp ht⟩

theorem storedTopics_exec {s : ZkMetastore} (tidy : s.znodes.Tidy) :
    ((Storage.getAllTopics : MetastoreProg MetastoreError _).translate ZkStorage.program).exec
        (ZkMetastore.handle hash) s =
      (s, .ok ((s.znodes.children topicsPath).filterMap s.znodes.topicAt)) := by
  rw [Storage.getAllTopics, Prog.translate_perform]
  exact ZkStorage.getTopics_eq tidy _

theorem storedNodes_exec {s : ZkMetastore} (tidy : s.znodes.Tidy) :
    ((Storage.getAllNodes : MetastoreProg MetastoreError _).translate ZkStorage.program).exec
        (ZkMetastore.handle hash) s =
      (s, .ok ((s.znodes.children brokersPath).filterMap s.znodes.brokerAt)) := by
  rw [Storage.getAllNodes, Prog.translate_perform]
  exact ZkStorage.getNodes_eq tidy _

variable {s : ZkMetastore}

/-- What the operation does once the broker is out of the tree and the ring. -/
def ZkMetastore.remainder (replicasPerTopic : Int) (nodeId : String) (s : ZkMetastore) :
    ZkProg (List TopicMetadata) :=
  (Metastore.deregisterTopics replicasPerTopic
    (((s.znodes.children brokersPath).filterMap s.znodes.brokerAt).map BrokerNode.nodeId) nodeId
    ((s.znodes.children topicsPath).filterMap s.znodes.topicAt)).translate ZkStorage.program

theorem deregisterBroker_eq (tidy : s.znodes.Tidy) :
    ((Metastore.deregisterBroker replicasPerTopic nodeId).translate ZkStorage.program).exec
        (ZkMetastore.handle hash) s =
      ((s.relieved hash nodeId).remainder replicasPerTopic nodeId).exec (ZkMetastore.handle hash)
        (s.relieved hash nodeId) := by
  have tidy' : (s.relieved hash nodeId).znodes.Tidy := tidy.erase nodeId
  have hremove := @ZkStorage.removeNode_eq hash s tidy nodeId
  simp only [Metastore.deregisterBroker, Prog.translate_bind]
  rw [Storage.removeNode, Prog.translate_perform, ZkStorage.program, Prog.exec_bind_ok hremove]
  change ((do
    let allTopics ← Storage.getAllTopics.translate ZkStorage.program
    let allNodes ← Storage.getAllNodes.translate ZkStorage.program
    (Metastore.deregisterTopics replicasPerTopic (allNodes.map BrokerNode.nodeId) nodeId
      allTopics).translate ZkStorage.program) : ZkProg _).exec (ZkMetastore.handle hash)
        (s.relieved hash nodeId) = _
  rw [Prog.exec_bind_ok (storedTopics_exec tidy'), Prog.exec_bind_ok (storedNodes_exec tidy')]
  rfl

/-- Without interruption every topic is done. -/
theorem Ready.exec (ready : Ready hash replicasPerTopic nodeId f s) :
    ∃ z' updated, ((Metastore.deregisterBroker replicasPerTopic nodeId).translate
        ZkStorage.program).exec (ZkMetastore.handle hash) s =
          (⟨z', s.ring.removeNode hash nodeId⟩, .ok updated) ∧
      z'.Tidy ∧ z'.brokerAt = Function.update s.znodes.brokerAt nodeId none ∧
      ∀ name, z'.topicAt name = (s.znodes.topicAt name).map f := by
  have all := Todo.all (ready.tidy.erase nodeId)
  obtain ⟨z', hloop, tidy', hbrokers, htopics⟩ :=
    deregisterTopics_exec ready.answering ready.eq ready.frees all
  rw [Znodes.brokerAt_erase] at hbrokers
  rw [Znodes.topicAt_erase] at htopics
  refine ⟨z', _, (deregisterBroker_eq ready.tidy).trans hloop, tidy', hbrokers, fun name => ?_⟩
  rw [htopics]
  split
  · rfl
  · next hnot =>
      -- a topic that is stored is one of those to be done
      have hnone : s.znodes.topicAt name = none := by
        refine Option.eq_none_iff_forall_ne_some.mpr fun t ht => hnot ?_
        have hname := ready.tidy.topicAt_topic ht
        have hmem := ((ready.tidy.erase nodeId).listing (List.Perm.refl _)).mem t
        rw [Znodes.topicAt_erase, hname] at hmem
        exact hname ▸ List.mem_map_of_mem (hmem.mpr ht)
      rw [hnone]
      rfl

theorem Znodes.Tidy.erase_underway (tidy : z.Tidy) :
    Znodes.Underway f nodeId z (Dict.erase z (brokerPath nodeId)) := by
  refine ⟨tidy.erase nodeId, fun other hne => ?_, fun name => Or.inl ?_⟩
  · rw [Znodes.brokerAt_erase, Function.update_of_ne hne]
  · rw [Znodes.topicAt_erase]

/-- Wherever the operation stops, some topics are done and the others are not. -/
theorem Ready.stopped (ready : Ready hash replicasPerTopic nodeId f s) :
    StopsUnderway hash f nodeId s.znodes s
      ((Metastore.deregisterBroker replicasPerTopic nodeId).translate ZkStorage.program) := by
  have tidy : (s.relieved hash nodeId).znodes.Tidy := ready.tidy.erase nodeId
  have gone : Znodes.Underway f nodeId s.znodes (s.relieved hash nodeId).znodes :=
    ready.tidy.erase_underway
  have hremove : ((Storage.removeNode nodeId).translate ZkStorage.program).exec
      (ZkMetastore.handle hash) s =
        (⟨Dict.erase s.znodes (brokerPath nodeId), s.ring⟩, .ok (s.znodes.brokerAt nodeId)) := by
    rw [Storage.removeNode, Prog.translate_perform]
    exact ZkStorage.removeNode_eq ready.tidy nodeId
  have asks : ∀ c : MetastoreCall, c.Asks →
      ((Prog.perform c : MetastoreProg MetastoreError _).translate ZkStorage.program).Within Asks
        fun _ => True := fun c hc => asks_program (Prog.within_perform hc)
  simp only [Metastore.deregisterBroker, Prog.translate_bind]
  refine (StopsUnderway.of_single (ZkStorage.method_allOrNothing s) hremove
    (Znodes.Underway.refl ready.tidy) gone).bind fun s₁ _ hfirst => ?_
  obtain rfl : ⟨Dict.erase s.znodes (brokerPath nodeId), s.ring⟩ = s₁ :=
    congrArg Prod.fst (hremove.symm.trans hfirst)
  refine (StopsUnderway.of_asks (s := ⟨Dict.erase s.znodes (brokerPath nodeId), s.ring⟩)
    (asks (.ring (.removeNode nodeId)) trivial) gone).bind fun s₂ _ hring => ?_
  obtain rfl : s.relieved hash nodeId = s₂ := congrArg Prod.fst hring
  refine (StopsUnderway.of_asks (asks .getAllTopics trivial) gone).bind fun s₃ _ htopics => ?_
  have htopics' := (@storedTopics_exec hash _ tidy).symm.trans htopics
  obtain rfl : s.relieved hash nodeId = s₃ := congrArg Prod.fst htopics'
  obtain rfl := Except.ok.inj (congrArg Prod.snd htopics')
  refine (StopsUnderway.of_asks (asks .getAllNodes trivial) gone).bind fun s₄ _ hnodes m => ?_
  have hnodes' := (@storedNodes_exec hash _ tidy).symm.trans hnodes
  obtain rfl : s.relieved hash nodeId = s₄ := congrArg Prod.fst hnodes'
  obtain rfl := Except.ok.inj (congrArg Prod.snd hnodes')
  exact gone.trans ready.frees
    (deregisterTopics_stopped ready.answering ready.eq ready.frees (Todo.all tidy) m)

/-- The ring answers for its members, of whom the broker is not one any more. -/
theorem Ready.of_ringOk {members ids : Set String} (tidy : s.znodes.Tidy)
    (ok : RingOk hash s.ring members) (free : CollisionFree hash s.ring.replicas ids)
    (known : members ⊆ ids) (hid : nodeId ∈ ids) (hne : nodeId ≠ "") :
    Ready hash replicasPerTopic nodeId
      (TopicMetadata.deregistered hash (s.ring.removeNode hash nodeId) replicasPerTopic
        (s.znodes.anyOther nodeId) nodeId) s := by
  obtain ⟨ok', -⟩ := ok.removeNode free known hid
  have answering : Answering hash (s.ring.removeNode hash nodeId) := by
    refine ⟨fun topic => ?_, fun topic count => ?_⟩
    · rcases ok'.getNode topic with ⟨hnone, -⟩ | ⟨node, -, hnode⟩
      · exact ⟨none, hnone⟩
      · exact ⟨some node, hnode⟩
    · obtain ⟨nodes, hnodes, -⟩ := ok'.getReplicas topic count
      exact ⟨nodes, hnodes⟩
  refine ⟨tidy, answering, rfl, Silent.frees ⟨fun topic => ?_, fun topic count => ?_⟩ hne _ _⟩
  · rcases ok'.getNode topic with ⟨hnone, -⟩ | ⟨node, hmem, hnode⟩
    · rw [ConsistentHashRing.nodeOf, hnone]
      exact (Option.some_ne_none nodeId).symm
    · rw [ConsistentHashRing.nodeOf, hnode]
      exact fun heq => hmem.2 (Option.some.inj heq)
  · obtain ⟨nodes, hnodes, hmem, -⟩ := ok'.getReplicas topic count
    rw [ConsistentHashRing.replicasOf, hnodes]
    exact fun h => (hmem nodeId h).2 rfl

/-- Two rings with the same other members make the same of a topic. -/
theorem deregistered_congr {members members' ids : Set String} {r r' : ConsistentHashRing}
    (ok : RingOk hash r members) (ok' : RingOk hash r' members') (hrep : r'.replicas = r.replicas)
    (free : CollisionFree hash r.replicas ids) (known : members ⊆ ids) (known' : members' ⊆ ids)
    (hid : nodeId ∈ ids) (same : members' \ {nodeId} = members \ {nodeId}) (anyNode : Bool) :
    TopicMetadata.deregistered hash (r'.removeNode hash nodeId) replicasPerTopic anyNode nodeId =
      TopicMetadata.deregistered hash (r.removeNode hash nodeId) replicasPerTopic anyNode
        nodeId := by
  obtain ⟨okGone, hrepGone⟩ := ok.removeNode free known hid
  obtain ⟨okGone', hrepGone'⟩ := ok'.removeNode (hrep ▸ free) known' hid
  rw [same] at okGone'
  obtain ⟨hring, hkeys⟩ := okGone.unique okGone' (hrepGone'.trans (hrep.trans hrepGone.symm))
  funext t
  obtain ⟨hnode, hreplicas⟩ := lookups_congr hkeys hring hash t.topic
  simp only [TopicMetadata.deregistered, TopicMetadata.rehomed, ConsistentHashRing.nodeOf,
    ConsistentHashRing.replicasOf, hnode, hreplicas]

end

/-- One controller's try at an operation. Its ring has been through `history`, and it
stops after so many calls. -/
structure Attempt where
  op : MetastoreOp
  history : List RingCall
  calls : Nat

/-- The ring of a controller, and its members. -/
def trackedRing (hash : String → Nat) (history : List RingCall) : TrackedRing :=
  run (TrackedRing.step hash) (TrackedRing.new 50) history

/-- What the try leaves in ZooKeeper. -/
def Znodes.attempt (hash : String → Nat) (replicasPerTopic : Int) (z : Znodes) (a : Attempt) :
    Znodes × Unit :=
  (((a.op.zkProgram replicasPerTopic).stopped (ZkMetastore.handle hash) a.calls
    ⟨z, (trackedRing hash a.history).ring⟩).znodes, ())

def MetastoreOp.PathNames : MetastoreOp → Prop
  | .registerBroker nodeId _ _ | .deregisterBroker nodeId => PathName nodeId
  | .registerTopic topicName | .updateTopicIsr topicName _ => PathName topicName

instance (op : MetastoreOp) : Decidable op.PathNames :=
  match op with
  | .registerBroker nodeId _ _ | .deregisterBroker nodeId =>
    inferInstanceAs (Decidable (PathName nodeId))
  | .registerTopic topicName | .updateTopicIsr topicName _ =>
    inferInstanceAs (Decidable (PathName topicName))

/-- The call puts everything in its place. -/
def KeepsTidy : ZkMetastoreCall → Prop
  | .zk (.create path data) => Placed path data
  | .zk (.set path data) => (∃ t : TopicMetadata, path = topicPath t.topic ∧ data = .topic t) ∨
      ∃ node : BrokerNode, path = brokerPath node.nodeId ∧ data = .node node
  | .zk (.delete path) => ∃ nodeId, path = brokerPath nodeId
  | _ => True

section
variable {hash : String → Nat} {replicasPerTopic : Int}

theorem KeepsTidy.handle (s : ZkMetastore) (c : ZkMetastoreCall) (h : KeepsTidy c)
    (tidy : s.znodes.Tidy) : (s.handle hash c).1.znodes.Tidy := by
  cases c with
  | ring c => exact tidy
  | zk c =>
      cases c with
      | get path | nodeExists path | getChildren path => exact tidy
      | create path data =>
          simp only [ZkMetastore.handle, Znodes.handle]
          split
          · exact tidy
          · split
            · exact tidy.set h
            · exact tidy
      | set path data =>
          simp only [ZkMetastore.handle, Znodes.handle]
          split
          · next hfound =>
              obtain ⟨old, hold⟩ := Option.isSome_iff_exists.mp hfound
              refine tidy.set ?_
              rcases h with ⟨t, rfl, rfl⟩ | ⟨node, rfl, rfl⟩
              · obtain ⟨-, -, -, hname⟩ := tidy.topic hold
                exact ⟨hname, rfl⟩
              · obtain ⟨-, -, -, hname⟩ := tidy.broker hold
                exact ⟨hname, rfl⟩
          · exact tidy
      | delete path =>
          obtain ⟨nodeId, rfl⟩ := h
          simp only [ZkMetastore.handle, Znodes.handle]
          split
          · split
            · exact tidy.erase nodeId
            · exact tidy
          · exact tidy

/-- What is new in the tree has a name that is part of a path. -/
def MetastoreCall.NamesNew : MetastoreCall → Prop
  | .addNode node => PathName node.nodeId
  | .addTopic t => PathName t.topic
  | _ => True

theorem MetastoreCall.NamesNew.program {c : MetastoreCall} (h : c.NamesNew) :
    (ZkStorage.program c).Within KeepsTidy fun _ => True := by
  by_cases hupdate : ∃ t, c = .updateTopic t
  · obtain ⟨t, rfl⟩ := hupdate
    refine ⟨trivial, fun present => ?_⟩
    cases present with
    | true => exact ⟨Or.inl ⟨t, rfl, rfl⟩, fun _ => trivial⟩
    | false => trivial
  · refine ZkStorage.program_within (fun _ => ⟨trivial, trivial, trivial⟩) c (fun _ _ => trivial) ?_
      (fun nodeId _ => ⟨nodeId, rfl⟩) ?_
    · rintro node rfl
      exact ⟨⟨h, rfl⟩, Or.inr ⟨node, rfl, rfl⟩⟩
    · rintro t (rfl | rfl)
      · exact ⟨⟨h, rfl⟩, Or.inl ⟨t, rfl, rfl⟩⟩
      · exact absurd ⟨t, rfl⟩ hupdate

theorem MetastoreOp.PathNames.namesNew {op : MetastoreOp} (h : op.PathNames) :
    (op.program replicasPerTopic : MetastoreProg MetastoreError MetastoreAnswer).Within
      MetastoreCall.NamesNew fun _ => True := by
  cases op with
  | registerBroker nodeId host port => exact ⟨h, fun _ => ⟨trivial, fun _ => trivial⟩⟩
  | deregisterBroker nodeId =>
      refine Prog.Within.bind (Q := fun _ => True) ?_ fun _ _ => Prog.within_pure trivial
      exact ⟨trivial, fun _ => ⟨trivial, fun _ => ⟨trivial, fun _ => ⟨trivial, fun _ =>
        deregisterTopics_within replicasPerTopic _ nodeId (fun _ => trivial) (fun _ _ => trivial)
          fun _ _ _ _ _ => trivial⟩⟩⟩⟩
  | registerTopic topicName =>
      refine ⟨trivial, fun existing => ?_⟩
      cases existing with
      | some t => trivial
      | none => exact ⟨trivial, fun replicas => ⟨h, fun _ => trivial⟩⟩
  | updateTopicIsr topicName isrList =>
      exact (updateTopicIsr_within (fun _ => trivial) (fun _ => trivial) (fun _ => trivial)
        topicName isrList).bind fun _ _ => Prog.within_pure trivial

/-- However many operations were tried, everything in the tree is in its place. -/
theorem tidy_attempts {tries : List Attempt} (names : ∀ a ∈ tries, a.op.PathNames) :
    (run (Znodes.attempt hash replicasPerTopic) ZkMetastore.new.znodes tries).Tidy := by
  refine run_keeps Znodes.Tidy (fun z a ha tidy => ?_) ZkObjects.tidy_new
  have hwithin : (a.op.zkProgram replicasPerTopic).Within KeepsTidy fun _ => True :=
    (names a ha).namesNew.translate fun _ hc => hc.program
  exact hwithin.stopped_keeps (K := fun s : ZkMetastore => s.znodes.Tidy) KeepsTidy.handle tidy
    a.calls

section
variable {nodeId : String} {f : TopicMetadata → TopicMetadata} {s : ZkMetastore}

/-- Controllers whose rings have the same other members make the same of a topic, in all
trees with the same other brokers. -/
theorem Ready.of_tracks {ids : Set String} (free : CollisionFree hash 50 ids)
    {own other : TrackedRing} (tracks : TrackedRing.Tracks hash 50 ids own)
    (tracks' : TrackedRing.Tracks hash 50 ids other)
    (members : other.members.erase nodeId = own.members.erase nodeId) (hid : nodeId ∈ ids)
    (hne : nodeId ≠ "") {z z' : Znodes} (tidy : z.Tidy) (tidy' : z'.Tidy)
    (others : ∀ other, other ≠ nodeId → z'.brokerAt other = z.brokerAt other) :
    Ready hash replicasPerTopic nodeId
      (TopicMetadata.deregistered hash (own.ring.removeNode hash nodeId) replicasPerTopic
        (z.anyOther nodeId) nodeId) ⟨z', other.ring⟩ := by
  obtain ⟨ok, hrep, known⟩ := tracks
  obtain ⟨ok', hrep', known'⟩ := tracks'
  have same : (other.members : Set String) \ {nodeId} = (own.members : Set String) \ {nodeId} := by
    rw [← Finset.coe_erase, ← Finset.coe_erase, members]
  have free₁ : CollisionFree hash own.ring.replicas ids := by rwa [hrep]
  have free₂ : CollisionFree hash other.ring.replicas ids := by rwa [hrep']
  have ready : Ready hash replicasPerTopic nodeId _ ⟨z', other.ring⟩ :=
    Ready.of_ringOk tidy' ok' free₂ known' hid hne
  rw [tidy.anyOther_eq tidy' others,
    deregistered_congr ok ok' (hrep'.trans hrep.symm) free₁ known known' hid same] at ready
  exact ready

theorem Ready.apply (ready : Ready hash replicasPerTopic nodeId f s) :
    ∃ s' updated, ZkMetastore.apply hash replicasPerTopic s (.deregisterBroker nodeId) =
        (s', .ok updated) ∧
      s'.znodes.brokerAt = Function.update s.znodes.brokerAt nodeId none ∧
      ∀ name, s'.znodes.topicAt name = (s.znodes.topicAt name).map f := by
  obtain ⟨z', updated, hexec, -, hbrokers, htopics⟩ := ready.exec
  refine ⟨⟨z', s.ring.removeNode hash nodeId⟩, .updatedTopics updated, ?_, hbrokers, htopics⟩
  rw [ZkMetastore.apply, MetastoreOp.program, Prog.translate_bind, Prog.exec_bind_ok hexec]
  rfl

theorem Ready.attempt (ready : Ready hash replicasPerTopic nodeId f s) :
    StopsUnderway hash f nodeId s.znodes s
      ((MetastoreOp.deregisterBroker nodeId).zkProgram replicasPerTopic) := by
  intro n
  rw [MetastoreOp.zkProgram, MetastoreOp.program, Prog.translate_bind]
  have hmap := @Prog.stopped_map _ _ _ _ _ _ (ZkMetastore.handle hash) n s
    ((Metastore.deregisterBroker replicasPerTopic nodeId).translate ZkStorage.program)
    MetastoreAnswer.updatedTopics
  exact hmap ▸ ready.stopped n

end

/-- A broker that leaves while controllers stop in the middle: what they leave is a tree
in which some topics are done, and a try that is not stopped does the rest. -/
theorem deregistration_resumes (hash : String → Nat) (replicasPerTopic : Int)
    (earlier tries : List Attempt) (history : List RingCall) (nodeId : String)
    (names : ∀ a ∈ earlier, a.op.PathNames) (hname : PathName nodeId)
    (deregisters : ∀ a ∈ tries, a.op = .deregisterBroker nodeId)
    (members : ∀ a ∈ tries, (trackedRing hash a.history).members.erase nodeId =
      (trackedRing hash history).members.erase nodeId)
    (injective : Set.InjOn hash (vnodeLabels 50
      (insert nodeId (usedNodes (history ++ tries.flatMap Attempt.history))))) :
    let z := run (Znodes.attempt hash replicasPerTopic) ZkMetastore.new.znodes earlier
    let z' := run (Znodes.attempt hash replicasPerTopic) z tries
    let ring := (trackedRing hash history).ring
    ∃ once resumed updated updated',
      ZkMetastore.apply hash replicasPerTopic ⟨z, ring⟩ (.deregisterBroker nodeId) =
        (once, .ok updated) ∧
      ZkMetastore.apply hash replicasPerTopic ⟨z', ring⟩ (.deregisterBroker nodeId) =
        (resumed, .ok updated') ∧
      (∀ name, z'.topicAt name = z.topicAt name ∨ z'.topicAt name = once.znodes.topicAt name) ∧
      (∀ other, other ≠ nodeId → z'.brokerAt other = z.brokerAt other) ∧
      resumed.znodes.brokerAt = once.znodes.brokerAt ∧
      resumed.znodes.topicAt = once.znodes.topicAt ∧
      once.znodes.brokerAt nodeId = none ∧
      ∀ name t, once.znodes.topicAt name = some t → ¬ t.Involves nodeId := by
  intro z z' ring
  let ids := insert nodeId (usedNodes (history ++ tries.flatMap Attempt.history))
  have free : CollisionFree hash 50 ids := injOn_iff_collisionFree.mp injective
  have hid : nodeId ∈ ids := Set.mem_insert _ _
  have tracked : ∀ calls : List RingCall,
      (∀ c ∈ calls, c ∈ history ++ tries.flatMap Attempt.history) →
      TrackedRing.Tracks hash 50 ids (trackedRing hash calls) := fun calls hcalls =>
    TrackedRing.tracks_run free fun id hused => Set.mem_insert_of_mem _
      (Exists.elim hused fun c hc => ⟨c, hcalls c hc.1, hc.2⟩)
  have own := tracked history fun c hc => List.mem_append_left _ hc
  have tidy : z.Tidy := tidy_attempts names
  -- what every try makes of a topic
  let f := TopicMetadata.deregistered hash (ring.removeNode hash nodeId) replicasPerTopic
    (z.anyOther nodeId) nodeId
  have ready : Ready hash replicasPerTopic nodeId f ⟨z, ring⟩ :=
    Ready.of_tracks free own own rfl hid hname.1 tidy tidy fun _ _ => rfl
  have underway : Znodes.Underway f nodeId z z' := by
    refine run_keeps (Znodes.Underway f nodeId z) (fun y a ha underway => ?_) (.refl tidy)
    have trying := tracked a.history fun c hc =>
      List.mem_append_right _ (List.mem_flatMap_of_mem ha hc)
    have ready' : Ready hash replicasPerTopic nodeId f ⟨y, (trackedRing hash a.history).ring⟩ :=
      Ready.of_tracks free own trying (members a ha) hid hname.1 tidy underway.tidy underway.others
    rw [Znodes.attempt, deregisters a ha]
    exact underway.trans ready.frees (ready'.attempt a.calls)
  have ready' : Ready hash replicasPerTopic nodeId f ⟨z', ring⟩ :=
    Ready.of_tracks free own own rfl hid hname.1 tidy underway.tidy underway.others
  obtain ⟨once, updated, honce, hbrokers, htopics⟩ := ready.apply
  obtain ⟨resumed, updated', hresumed, hbrokers', htopics'⟩ := ready'.apply
  refine ⟨once, resumed, updated, updated', honce, hresumed, fun name => ?_, underway.others,
    ?_, ?_, ?_, fun name t ht => ?_⟩
  · rw [htopics]
    exact underway.topics name
  · rw [hbrokers', hbrokers]
    funext other
    rw [Function.update_apply, Function.update_apply]
    split
    · rfl
    · next hother => exact underway.others other hother
  · funext name
    have twice : ((z.topicAt name).map f).map f = (z.topicAt name).map f := ready.frees.twice _
    rw [htopics', htopics]
    cases underway.topics name with
    | inl hsame => rw [hsame]
    | inr hdone => rw [hdone, twice]
  · rw [hbrokers, Function.update_self]
  · rw [htopics] at ht
    obtain ⟨t', -, rfl⟩ := Option.map_eq_some_iff.mp ht
    exact ready.frees.frees t'

/-- Two brokers and a topic on them. -/
def twoRegistered : List Attempt :=
  [⟨.registerBroker "b1" "h1" 9001, [], 6⟩, ⟨.registerBroker "b2" "h2" 9002, [.addNode "b1"], 6⟩,
    ⟨.registerTopic "t", [.addNode "b1", .addNode "b2"], 6⟩]

/-- Two controllers in turn that do not get to the end. -/
def stoppedTwice : List Attempt :=
  [⟨.deregisterBroker "b1", [.addNode "b1", .addNode "b2"], 3⟩,
    ⟨.deregisterBroker "b1", [.addNode "b2"], 5⟩]

theorem deregistration_resumes_stoppedTwice :
    let z := run (Znodes.attempt md5Hash 3) ZkMetastore.new.znodes twoRegistered
    let z' := run (Znodes.attempt md5Hash 3) z stoppedTwice
    ∃ s updated, ZkMetastore.apply md5Hash 3
        ⟨z', (trackedRing md5Hash [.addNode "b2"]).ring⟩ (.deregisterBroker "b1") =
          (s, .ok updated) ∧
      s.znodes.brokerAt "b1" = none ∧
      ∀ name t, s.znodes.topicAt name = some t → ¬ t.Involves "b1" := by
  intro z z'
  have hused : insert "b1" (usedNodes ([.addNode "b2"] ++ stoppedTwice.flatMap Attempt.history)) ⊆
      { id | id ∈ ["b1", "b2"] } :=
    Set.insert_subset (by simp) (usedNodes_subset (by decide))
  obtain ⟨once, s, -, updated, -, hresumed, -, -, hbrokers, htopics, hgone, hfree⟩ :=
    deregistration_resumes md5Hash 3 twoRegistered stoppedTwice [.addNode "b2"] "b1"
      (by decide) (by decide) (by decide) (by decide)
      (injOn_iff_collisionFree.mpr (collisionFree_twoBrokers.mono hused))
  exact ⟨s, updated, hresumed, (congrFun hbrokers "b1").trans hgone, fun name t ht =>
    hfree name t (htopics ▸ ht)⟩

end
end PyLogStream
