import PyLogStream.Lib.Run
import PyLogStream.Metastore.Backend

/-!
What a metastore is: a map of brokers, a map of topics and a ring. Every operation has
an effect on these and an answer, of which only the order of lists is left open. The
operations on any lawful storage have this effect and give such an answer, as long as
no sorted key of the ring has lost its node; so two lawful storages cannot be told apart.
-/

namespace PyLogStream
open Lib ConsistentHashRing

structure MetaMaps where
  ring : ConsistentHashRing
  node : String → Option BrokerNode
  topic : String → Option TopicMetadata

namespace MetaMaps

def setTopic (m : MetaMaps) (t : TopicMetadata) : MetaMaps :=
  { m with topic := fun name => if name = t.topic then some t else m.topic name }

/-- The broker has left the map of brokers and the ring. -/
def without (hash : String → Nat) (m : MetaMaps) (nodeId : String) : MetaMaps :=
  { m with ring := m.ring.removeNode hash nodeId, node := Function.update m.node nodeId none }

open Classical in
noncomputable def anyNode (m : MetaMaps) : Bool := decide (∃ nodeId, m.node nodeId ≠ none)

/-- The topics are stored under their names, and the keys of the ring are sorted in. -/
structure Sane (m : MetaMaps) : Prop where
  named : ∀ name t, m.topic name = some t → t.topic = name
  kept : m.ring.Kept

end MetaMaps

namespace ManagerOp
section
variable (hash : String → Nat) (replicasPerTopic : Int) (m : MetaMaps)

/-- The topic that `register_topic` makes. -/
def newTopic (topicName : String) : TopicMetadata :=
  let replicas := m.ring.replicasOf hash topicName replicasPerTopic
  ⟨topicName, replicas.head?.getD "", replicas, replicas, 1⟩

/-- The topic that `update_topic_isr` makes of one. -/
def withIsr (isrList : List String) (t : TopicMetadata) : TopicMetadata :=
  (if t.leaderId ∉ isrList then
    ({ t with isrList }).elected (m.ring.nodeOf hash t.topic)
  else { t with isrList }).bumped

noncomputable def rehoming (nodeId : String) : TopicMetadata → TopicMetadata :=
  TopicMetadata.deregistered hash (m.without hash nodeId).ring replicasPerTopic
    (m.without hash nodeId).anyNode nodeId

noncomputable def effect : ManagerOp → MetaMaps
  | .registerBroker nodeId host port =>
    { m with
      ring := m.ring.addNode hash nodeId
      node := Function.update m.node nodeId (some ⟨nodeId, host, port⟩) }
  | .deregisterBroker nodeId =>
    { m.without hash nodeId with
      topic := fun name => (m.topic name).map (rehoming hash replicasPerTopic m nodeId) }
  | .registerTopic topicName =>
    if m.topic topicName = none then m.setTopic (newTopic hash replicasPerTopic m topicName) else m
  | .updateTopicIsr topicName isrList =>
    { m with
      topic := fun name =>
        if name = topicName then (m.topic name).map (withIsr hash m isrList) else m.topic name }
  | .getTopicMetadata _ | .getAllTopics | .getNode _ => m

def Answers : ManagerOp → ManagerAnswer → Prop
  | .registerBroker nodeId host port, answer => answer = .node (some ⟨nodeId, host, port⟩)
  | .deregisterBroker nodeId, answer => ∃ topics, Listing topics m.topic ∧
      answer = .topics ((topics.filter fun t => decide (t.Involves nodeId)).map
        (rehoming hash replicasPerTopic m nodeId))
  | .registerTopic topicName, answer =>
      answer = .topic (some ((m.topic topicName).getD (newTopic hash replicasPerTopic m topicName)))
  | .updateTopicIsr topicName isrList, answer =>
      answer = .topic ((m.topic topicName).map (withIsr hash m isrList))
  | .getTopicMetadata topicName, answer => answer = .topic (m.topic topicName)
  | .getAllTopics, answer => ∃ topics, Listing topics m.topic ∧ answer = .topics topics
  | .getNode nodeId, answer => answer = .node (m.node nodeId)

end

/-- The broker ids and topic names of the operation are parts of paths. -/
def PathNames : ManagerOp → Prop
  | .registerBroker nodeId _ _ | .deregisterBroker nodeId | .getNode nodeId => PathName nodeId
  | .registerTopic topicName | .updateTopicIsr topicName _ | .getTopicMetadata topicName =>
      PathName topicName
  | .getAllTopics => True

instance (op : ManagerOp) : Decidable op.PathNames :=
  match op with
  | .registerBroker nodeId _ _ | .deregisterBroker nodeId | .getNode nodeId =>
    inferInstanceAs (Decidable (PathName nodeId))
  | .registerTopic topicName | .updateTopicIsr topicName _ | .getTopicMetadata topicName =>
    inferInstanceAs (Decidable (PathName topicName))
  | .getAllTopics => isTrue trivial

/-- No sorted key has lost its node when the operation looks the ring up. -/
def FindsNodes (hash : String → Nat) (ring : ConsistentHashRing) : ManagerOp → Prop
  | .deregisterBroker nodeId => (ring.removeNode hash nodeId).NoneDangling
  | .registerTopic _ | .updateTopicIsr _ _ => ring.NoneDangling
  | .registerBroker _ _ _ | .getTopicMetadata _ | .getAllTopics | .getNode _ => True

instance (hash : String → Nat) (ring : ConsistentHashRing) (op : ManagerOp) :
    Decidable (op.FindsNodes hash ring) :=
  match op with
  | .deregisterBroker nodeId => inferInstanceAs (Decidable (ring.removeNode hash nodeId).NoneDangling)
  | .registerTopic _ | .updateTopicIsr _ _ => inferInstanceAs (Decidable ring.NoneDangling)
  | .registerBroker _ _ _ | .getTopicMetadata _ | .getAllTopics | .getNode _ => isTrue trivial

end ManagerOp

/-- The same answer, up to the order of lists. -/
def ManagerAnswer.Agree : ManagerAnswer → ManagerAnswer → Prop
  | .topics ts, .topics ts' => ts.Perm ts'
  | answer, answer' => answer = answer'

theorem ManagerAnswer.Agree.refl (answer : ManagerAnswer) : answer.Agree answer := by
  cases answer with
  | topics ts => exact List.Perm.refl ts
  | node _ | topic _ => rfl

theorem Listing.perm {topics topics' : List TopicMetadata}
    {topic : String → Option TopicMetadata} (h : Listing topics topic)
    (h' : Listing topics' topic) : topics.Perm topics' :=
  (List.perm_ext_iff_of_nodup (.of_map _ h.nodup) (.of_map _ h'.nodup)).mpr
    fun t => (h.mem t).trans (h'.mem t).symm

section
variable {hash : String → Nat} {replicasPerTopic : Int} {m : MetaMaps}

/-- Two answers to one operation differ at most in the order of a list. -/
theorem ManagerOp.Answers.agree {op : ManagerOp} {answer answer' : ManagerAnswer}
    (h : op.Answers hash replicasPerTopic m answer)
    (h' : op.Answers hash replicasPerTopic m answer') : answer.Agree answer' := by
  cases op with
  | deregisterBroker nodeId =>
      obtain ⟨topics, hlist, rfl⟩ := h
      obtain ⟨topics', hlist', rfl⟩ := h'
      exact ((hlist.perm hlist').filter _).map _
  | getAllTopics =>
      obtain ⟨topics, hlist, rfl⟩ := h
      obtain ⟨topics', hlist', rfl⟩ := h'
      exact hlist.perm hlist'
  | registerBroker _ _ _ | registerTopic _ | updateTopicIsr _ _ | getTopicMetadata _ | getNode _ =>
      cases h
      cases h'
      exact .refl _

theorem withIsr_topic (isrList : List String) (t : TopicMetadata) :
    (ManagerOp.withIsr hash m isrList t).topic = t.topic := by
  unfold ManagerOp.withIsr
  split <;> rfl

theorem MetaMaps.Sane.effect (sane : m.Sane) (hash : String → Nat) (replicasPerTopic : Int)
    (op : ManagerOp) : (op.effect hash replicasPerTopic m).Sane := by
  obtain ⟨named, kept⟩ := sane
  cases op with
  | registerBroker nodeId host port => exact ⟨named, (kept.removeKeys _).addKeys nodeId _⟩
  | deregisterBroker nodeId =>
      refine ⟨fun name t h => ?_, kept.removeKeys _⟩
      obtain ⟨t₀, hget, rfl⟩ := Option.map_eq_some_iff.mp h
      exact (deregistered_topic t₀).trans (named name t₀ hget)
  | registerTopic topicName =>
      simp only [ManagerOp.effect]
      split
      · refine ⟨fun name t h => ?_, kept⟩
        simp only [MetaMaps.setTopic] at h
        split at h
        · next heq => exact Option.some.inj h ▸ heq.symm
        · exact named name t h
      · exact ⟨named, kept⟩
  | updateTopicIsr topicName isrList =>
      refine ⟨fun name t h => ?_, kept⟩
      simp only [ManagerOp.effect] at h
      split at h
      · obtain ⟨t₀, hget, rfl⟩ := Option.map_eq_some_iff.mp h
        exact (withIsr_topic isrList t₀).trans (named name t₀ hget)
      · exact named name t h
  | getTopicMetadata _ | getAllTopics | getNode _ => exact ⟨named, kept⟩

end

def StorageView.maps {σ : Type} (v : StorageView σ) (s : σ) : MetaMaps :=
  ⟨v.ring s, v.node s, v.topic s⟩

section
variable {σ : Type} {v : StorageView σ} {hash : String → Nat} {s : σ}
  {handle : σ → (c : ObjectCall) → σ × Except MetastoreError c.Answer}

theorem StorageView.maps_eq {m : MetaMaps} (hring : v.ring s = m.ring) (hnode : v.node s = m.node)
    (htopic : ∀ name, v.topic s name = m.topic name) : v.maps s = m := by
  rw [StorageView.maps, hring, hnode, funext htopic]

/-- An operation has its effect and gives an answer to it. -/
def Performs (v : StorageView σ) (hash : String → Nat)
    (handle : σ → (c : ObjectCall) → σ × Except MetastoreError c.Answer) (replicasPerTopic : Int)
    (s : σ) (op : ManagerOp) : Prop :=
  ∃ s' answer, Prog.exec handle s (op.program replicasPerTopic) = (s', .ok answer) ∧ v.Ok s' ∧
    v.maps s' = op.effect hash replicasPerTopic (v.maps s) ∧
    op.Answers hash replicasPerTopic (v.maps s) answer

namespace StorageView.Lawful
variable (laws : v.Lawful hash handle) (replicasPerTopic : Int)

include laws in
theorem readAll (refs : List Nat) :
    Prog.exec handle s (ObjectManager.readAll refs) = (s, .ok (refs.map (v.objects s).value)) := by
  induction refs with
  | nil => rfl
  | cons ref rest ih =>
      rw [ObjectManager.readAll, exec_ask_bind (laws.read s ref), Prog.exec_bind_ok ih]
      rfl

include laws in
theorem registerBroker (ok : v.Ok s) {nodeId : String} (hname : PathName nodeId) (host : String)
    (port : Int) : Performs v hash handle replicasPerTopic s (.registerBroker nodeId host port) := by
  obtain ⟨s₁, hadd, hadded⟩ := laws.addNode s ⟨nodeId, host, port⟩ ok hname
  obtain ⟨s₂, hring, hchanged⟩ := laws.ringChange s₁ (.addNode nodeId) _ () hadded.ok rfl
  refine ⟨s₂, .node (some ⟨nodeId, host, port⟩), ?_, hchanged.ok, ?_, rfl⟩
  · exact Prog.exec_bind_ok
      ((exec_ask_bind hadd _).trans ((exec_ask_bind hring _).trans rfl)) _
  · refine maps_eq ?_ (hchanged.node.trans hadded.node) fun name => ?_
    · rw [hchanged.ring, hadded.ring]
      rfl
    · rw [hchanged.topic, hadded.topic]
      rfl

include laws in
theorem deregisterBroker (ok : v.Ok s) (sane : (v.maps s).Sane) {nodeId : String}
    (finds : ((v.ring s).removeNode hash nodeId).NoneDangling) :
    Performs v hash handle replicasPerTopic s (.deregisterBroker nodeId) := by
  obtain ⟨s₁, hremove, hremoved⟩ := laws.removeNode s nodeId ok
  obtain ⟨s₂, hring, hwithout⟩ := laws.ringChange s₁ (.removeNode nodeId) _ () hremoved.ok rfl
  have htopic₂ : v.topic s₂ = v.topic s := hwithout.topic.trans hremoved.topic
  have named₂ : v.Named s₂ := fun name t h => sane.named name t ((congrFun htopic₂ name).symm.trans h)
  obtain ⟨s₃, refs, hall, hextends, nodup, listing, hrefs⟩ :=
    laws.getAllTopics s₂ hwithout.ok named₂
  obtain ⟨nodes, hnodes, hempty⟩ := laws.getAllNodes s₃ hextends.ok
  have hring₃ : v.ring s₃ = ((v.maps s).without hash nodeId).ring := by
    rw [hextends.ring, hwithout.ring, hremoved.ring]
    rfl
  have hnode₃ : v.node s₃ = ((v.maps s).without hash nodeId).node := by
    rw [hextends.node, hwithout.node, hremoved.node]
    rfl
  have hany : decide (nodes.map BrokerNode.nodeId ≠ []) =
      ((v.maps s).without hash nodeId).anyNode := by
    rw [MetaMaps.anyNode, ← hnode₃, decide_eq_decide, ne_eq, List.map_eq_nil_iff, hempty]
    exact not_forall
  have answering₃ : Answering hash (v.ring s₃) := by
    rw [hring₃]
    exact finds.answering (sane.kept.removeKeys _) hash
  rw [htopic₂] at listing
  have names : (refs.map fun ref => ((v.objects s₃).value ref).topic).Nodup := by
    simpa [List.map_map, Function.comp_def] using listing.nodup
  obtain ⟨s₄, hloop, hdone⟩ := laws.deregisterTopics replicasPerTopic
    (nodes.map BrokerNode.nodeId) nodeId hextends.ok answering₃ nodup names fun ref href => by
      obtain ⟨hnext, hedits⟩ := hrefs ref href
      have hmem := (listing.mem _).mp (List.mem_map_of_mem href)
      exact ⟨hnext, hedits, by rw [hextends.topic, htopic₂]; exact hmem⟩
  rw [hany, hring₃] at hdone
  refine ⟨s₄, _, ?_, hdone.ok, maps_eq (hdone.ring.trans hring₃) (hdone.node.trans hnode₃) ?_,
    refs.map (v.objects s₃).value, listing, rfl⟩
  · have hvalues : (refs.filter fun ref =>
        decide (((v.objects s₃).value ref).Involves nodeId)).map (v.objects s₄).value =
          ((refs.map (v.objects s₃).value).filter fun t => decide (t.Involves nodeId)).map
            (ManagerOp.rehoming hash replicasPerTopic (v.maps s) nodeId) := by
      rw [List.filter_map, List.map_map]
      exact List.map_congr_left fun ref href => (hdone.done ref (List.mem_of_mem_filter href)).1
    rw [← hvalues]
    refine (Prog.exec_bind_ok ((exec_ask_bind hremove _).trans ((exec_ask_bind hring _).trans
      ((exec_ask_bind hall _).trans ((exec_ask_bind hnodes _).trans hloop)))) _).trans ?_
    exact Prog.exec_bind_ok (laws.readAll _) _
  · intro name
    cases hget : v.topic s name with
    | none =>
        have hnot : ∀ ref ∈ refs, ((v.objects s₃).value ref).topic ≠ name := by
          rintro ref href rfl
          have hsome := (listing.mem _).mp (List.mem_map_of_mem href)
          rw [hget] at hsome
          cases hsome
        rw [hdone.others name hnot, hextends.topic, htopic₂, hget]
        exact congrArg (Option.map _) hget.symm
    | some t =>
        obtain rfl := sane.named name t hget
        obtain ⟨ref, href, rfl⟩ := List.mem_map.mp ((listing.mem t).mpr hget)
        rw [(hdone.done ref href).2]
        exact congrArg (Option.map (ManagerOp.rehoming hash replicasPerTopic (v.maps s) nodeId))
          hget.symm

include laws in
theorem registerTopic (ok : v.Ok s) (sane : (v.maps s).Sane) {topicName : String}
    (hname : PathName topicName) (finds : (v.ring s).NoneDangling) :
    Performs v hash handle replicasPerTopic s (.registerTopic topicName) := by
  cases hget : v.topic s topicName with
  | some t =>
      obtain ⟨s', ref, hfound, hextends, -, hvalue, -⟩ := laws.getTopic_some s topicName t ok hget
      have hmap : (v.maps s).topic topicName = some t := hget
      refine ⟨s', .topic (some t), ?_, hextends.ok, ?_, ?_⟩
      · have hregister : Prog.exec handle s
            (ObjectManager.registerTopic replicasPerTopic topicName) = (s', .ok ref) :=
          (exec_ask_bind hfound _).trans rfl
        refine (Prog.exec_bind_ok hregister _).trans ?_
        rw [exec_ask_bind (laws.read s' ref), hvalue]
        rfl
      · rw [ManagerOp.effect, if_neg (by rw [hmap]; exact Option.some_ne_none t)]
        exact maps_eq hextends.ring hextends.node fun name => congrFun hextends.topic name
      · rw [ManagerOp.Answers, hmap]
        rfl
  | none =>
      have hmap : (v.maps s).topic topicName = none := hget
      have hfound := laws.getTopic_none s topicName ok hget
      have hreplicas := laws.ringAsk s _ _ ok
        ((finds.answering sane.kept hash).handle_getReplicas topicName replicasPerTopic)
      obtain ⟨s₁, hcreate, hextends, hnext, hvalue, hedits⟩ := laws.create s
        (ManagerOp.newTopic hash replicasPerTopic (v.maps s) topicName) ok
      have hadd := laws.addTopic s₁ (v.objects s).next hextends.ok hnext
      rw [hvalue] at hadd
      obtain ⟨s₂, hadd, hstored⟩ := hadd hname (by rw [hextends.topic]; exact hget) (hedits _)
      refine ⟨s₂, .topic (some (ManagerOp.newTopic hash replicasPerTopic (v.maps s) topicName)), ?_,
        hstored.ok, ?_, ?_⟩
      · have hregister : Prog.exec handle s
            (ObjectManager.registerTopic replicasPerTopic topicName) =
              (s₂, .ok (v.objects s).next) :=
          (exec_ask_bind hfound _).trans ((exec_ask_bind hreplicas _).trans
            ((exec_ask_bind hcreate _).trans ((exec_ask_bind hadd _).trans rfl)))
        refine (Prog.exec_bind_ok hregister _).trans ?_
        rw [exec_ask_bind (laws.read s₂ _), hstored.objects, Objects.write_value_self]
        rfl
      · rw [ManagerOp.effect, if_pos hmap]
        refine maps_eq (hstored.ring.trans hextends.ring) (hstored.node.trans hextends.node)
          fun name => ?_
        rw [hstored.topic, hextends.topic]
        rfl
      · rw [ManagerOp.Answers, hmap]
        rfl

include laws in
theorem updateTopicIsr (ok : v.Ok s) (sane : (v.maps s).Sane) (finds : (v.ring s).NoneDangling)
    (topicName : String) (isrList : List String) :
    Performs v hash handle replicasPerTopic s (.updateTopicIsr topicName isrList) := by
  cases hget : v.topic s topicName with
  | none =>
      have hmap : (v.maps s).topic topicName = none := hget
      have hfound := laws.getTopic_none s topicName ok hget
      refine ⟨s, .topic none, ?_, ok, ?_, ?_⟩
      · exact (Prog.exec_bind_ok ((exec_ask_bind hfound _).trans rfl) _).trans rfl
      · refine maps_eq rfl rfl fun name => ?_
        by_cases hname : name = topicName
        · subst hname
          simp [ManagerOp.effect, hmap, hget]
        · simp [ManagerOp.effect, hname, StorageView.maps]
      · rw [ManagerOp.Answers, hmap]
        rfl
  | some t =>
      have hmap : (v.maps s).topic topicName = some t := hget
      obtain rfl := sane.named topicName t hget
      obtain ⟨s₁, ref, hfound, hextends, hnext, hvalue, hedits⟩ :=
        laws.getTopic_some s t.topic t ok hget
      obtain ⟨s₂, hwrite, hwrote⟩ := laws.write s₁ ref t.topic { t with isrList } hextends.ok hedits
      have hring₂ : v.ring s₂ = v.ring s := hwrote.ring.trans hextends.ring
      have answering₂ : Answering hash (v.ring s₂) := hring₂ ▸ finds.answering sane.kept hash
      have hpresent : (v.topic s₁ t.topic).isSome = true := by
        rw [hextends.topic, hget]
        rfl
      obtain ⟨s₃, hupdate, hstored⟩ : ∃ s₃, Prog.exec handle s
          (ObjectManager.updateTopicIsr t.topic isrList) = (s₃, .ok (some ref)) ∧
            v.Stored ref (ManagerOp.withIsr hash (v.maps s) isrList t) s₁ s₃ := by
        rw [ObjectManager.updateTopicIsr, exec_ask_bind hfound]
        simp only
        rw [exec_ask_bind (laws.read s₁ ref), hvalue, exec_ask_bind hwrite, ManagerOp.withIsr]
        by_cases hleader : t.leaderId ∉ isrList
        · obtain ⟨s₃, helect, helected⟩ :=
            laws.reelect hwrote (hwrote.edits ref t.topic hedits) answering₂
          rw [hring₂] at helected
          obtain ⟨s₄, hstore, hstored⟩ := laws.store helected rfl (helected.edits ref t.topic hedits)
            (by rw [helected.objects]; exact hnext) (helected.present.trans hpresent)
          rw [if_pos hleader, if_pos hleader]
          exact ⟨s₄, (Prog.exec_bind_ok helect _).trans ((Prog.exec_bind_ok hstore _).trans rfl),
            hstored⟩
        · obtain ⟨s₄, hstore, hstored⟩ := laws.store hwrote rfl (hwrote.edits ref t.topic hedits)
            (by rw [hwrote.objects]; exact hnext) (hwrote.present.trans hpresent)
          rw [if_neg hleader, if_neg hleader]
          exact ⟨s₄, (Prog.exec_bind_ok hstore _).trans rfl, hstored⟩
      refine ⟨s₃, .topic (some (ManagerOp.withIsr hash (v.maps s) isrList t)), ?_, hstored.ok, ?_, ?_⟩
      · refine (Prog.exec_bind_ok hupdate _).trans ((Prog.exec_bind_ok (laws.readAll _) _).trans ?_)
        simp [hstored.objects]
      · refine maps_eq (hstored.ring.trans hextends.ring) (hstored.node.trans hextends.node)
          fun name => ?_
        rw [hstored.topic, hextends.topic, withIsr_topic]
        by_cases hname : name = t.topic
        · subst hname
          simp [ManagerOp.effect, hmap]
        · simp [ManagerOp.effect, hname, StorageView.maps]
      · rw [ManagerOp.Answers, hmap]
        rfl

include laws in
/-- Every operation on a lawful storage has its effect and answers accordingly. -/
theorem performs (ok : v.Ok s) (sane : (v.maps s).Sane) {op : ManagerOp} (hname : op.PathNames)
    (finds : op.FindsNodes hash (v.ring s)) : Performs v hash handle replicasPerTopic s op := by
  cases op with
  | registerBroker nodeId host port => exact laws.registerBroker replicasPerTopic ok hname host port
  | deregisterBroker nodeId => exact laws.deregisterBroker replicasPerTopic ok sane finds
  | registerTopic topicName => exact laws.registerTopic replicasPerTopic ok sane hname finds
  | updateTopicIsr topicName isrList =>
      exact laws.updateTopicIsr replicasPerTopic ok sane finds topicName isrList
  | getTopicMetadata topicName =>
      cases hget : v.topic s topicName with
      | none =>
          have hfound := laws.getTopic_none s topicName ok hget
          exact ⟨s, .topic none, (exec_ask_bind hfound _).trans rfl, ok, rfl,
            congrArg ManagerAnswer.topic hget.symm⟩
      | some t =>
          obtain ⟨s', ref, hfound, hextends, -, hvalue, -⟩ :=
            laws.getTopic_some s topicName t ok hget
          refine ⟨s', .topic (some t), ?_, hextends.ok,
            maps_eq hextends.ring hextends.node (congrFun hextends.topic),
            congrArg ManagerAnswer.topic hget.symm⟩
          refine (exec_ask_bind hfound _).trans ((Prog.exec_bind_ok (laws.readAll _) _).trans ?_)
          simp [hvalue]
  | getAllTopics =>
      obtain ⟨s', refs, hall, hextends, -, listing, -⟩ := laws.getAllTopics s ok sane.named
      exact ⟨s', _, (exec_ask_bind hall _).trans ((Prog.exec_bind_ok (laws.readAll _) _).trans rfl),
        hextends.ok, maps_eq hextends.ring hextends.node (congrFun hextends.topic), _, listing, rfl⟩
  | getNode nodeId =>
      exact ⟨s, _, (exec_ask_bind (laws.getNode s nodeId ok) _).trans rfl, ok, rfl, rfl⟩

end StorageView.Lawful
end
end PyLogStream
