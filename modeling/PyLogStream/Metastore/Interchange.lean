import PyLogStream.Metastore.InMemory
import PyLogStream.Metastore.Tree

/-!
`MetastoreStorage` and `ZKMetastoreStorage` can be exchanged. Both are lawful, so from
equal maps every operation leads to equal maps and returns the same. The exception is a
lookup that raises in the middle of an operation: what the operation has assigned by
then is in the topic that the one storage holds, and in a copy that the other has made.
-/

namespace PyLogStream
open Lib

/-- The same answer, up to the order of a list, or the same exception. -/
def SameResult : Except MetastoreError ManagerAnswer → Except MetastoreError ManagerAnswer → Prop
  | .ok answer, .ok answer' => answer.Agree answer'
  | .error err, .error err' => err = err'
  | _, _ => False

structure Interchangeable (live : LiveMetastore) (zk : ZkObjects) : Prop where
  objects : live.ObjectsOk
  tidy : zk.metastore.znodes.Tidy
  maps : LiveMetastore.view.maps live = ZkObjects.view.maps zk
  sane : (LiveMetastore.view.maps live).Sane

theorem interchangeable_new : Interchangeable .new .new := by
  have nodes : ∀ nodeId, ZkMetastore.new.znodes.brokerAt nodeId = none := fun nodeId =>
    (Znodes.Tidy.brokerAt_eq_none ZkObjects.tidy_new).mpr
      (ZkObjects.get?_child_new brokersPath nodeId (Or.inl rfl))
  have topics : ∀ name, ZkMetastore.new.znodes.topicAt name = none := fun name =>
    (Znodes.Tidy.topicAt_eq_none ZkObjects.tidy_new).mpr
      (ZkObjects.get?_child_new topicsPath name (Or.inr rfl))
  refine ⟨LiveMetastore.objectsOk_new, ZkObjects.tidy_new, ?_, fun name t h => ?_, fun key node h => ?_⟩
  · exact StorageView.maps_eq rfl (funext fun nodeId => (nodes nodeId).symm)
      fun name => (topics name).symm
  · cases h
  · cases h

section
variable {hash : String → Nat} {replicasPerTopic : Int} {order : ChildOrder} {live : LiveMetastore}
  {zk : ZkObjects} {op : ManagerOp}

theorem Interchangeable.apply (rel : Interchangeable live zk) (hname : op.PathNames)
    (finds : op.FindsNodes hash live.ring) :
    Interchangeable (live.apply hash replicasPerTopic op).1
        (zk.apply hash order replicasPerTopic op).1 ∧
      SameResult (live.apply hash replicasPerTopic op).2
        (zk.apply hash order replicasPerTopic op).2 := by
  obtain ⟨objects, tidy, maps, sane⟩ := rel
  have hring : live.ring = zk.metastore.ring := congrArg MetaMaps.ring maps
  obtain ⟨live', answer, hlive, objects', heffect, hanswer⟩ :=
    (LiveMetastore.lawful hash).performs replicasPerTopic objects sane hname finds
  obtain ⟨zk', answer', hzk, tidy', heffect', hanswer'⟩ :=
    (ZkObjects.lawful hash order).performs replicasPerTopic tidy (maps ▸ sane) hname
      (show op.FindsNodes hash zk.metastore.ring from hring ▸ finds)
  rw [← maps] at heffect' hanswer'
  simp only [LiveMetastore.apply, ZkObjects.apply, hlive, hzk]
  exact ⟨⟨objects', tidy', heffect.trans heffect'.symm,
    heffect ▸ sane.effect hash replicasPerTopic op⟩, hanswer.agree hanswer'⟩

end

/-- In every run in which no lookup meets a sorted key without a node, both storages hold
the same nodes and topics at every step, and every operation returns the same. -/
theorem storages_interchangeable (hash : String → Nat) (replicasPerTopic : Int)
    (order : ChildOrder) (ops : List ManagerOp) (names : ∀ op ∈ ops, op.PathNames)
    (finds : MeetsAll (LiveMetastore.apply hash replicasPerTopic)
      (fun s op => op.FindsNodes hash s.ring) .new ops) :
    ∀ early late, ops = early ++ late →
      let live := run (LiveMetastore.apply hash replicasPerTopic) .new early
      let zk := run (ZkObjects.apply hash order replicasPerTopic) .new early
      (∀ nodeId, live.nodes.get? nodeId = zk.metastore.znodes.brokerAt nodeId) ∧
        (∀ name, live.topic name = zk.metastore.znodes.topicAt name) ∧
        ∀ op rest, late = op :: rest →
          SameResult (live.apply hash replicasPerTopic op).2
            (zk.apply hash order replicasPerTopic op).2 := by
  rintro early late rfl
  obtain ⟨hearly, hlate⟩ := finds.of_append
  have rel := (hearly.with_mem fun op => List.mem_append_left late).related
    (ZkObjects.apply hash order replicasPerTopic) Interchangeable
    (fun live zk op rel cond => (rel.apply (names op cond.1) cond.2).1) interchangeable_new
  refine ⟨congrFun (congrArg MetaMaps.node rel.maps), congrFun (congrArg MetaMaps.topic rel.maps), ?_⟩
  rintro op rest rfl
  exact (rel.apply (names op (by simp)) hlate.1).2

/-- A topic without replicas gets a leader from the ring. -/
def electedByRing : List ManagerOp :=
  [.registerTopic "t", .registerBroker "b1" "h" 1, .updateTopicIsr "t" ["q"],
    .updateTopicIsr "t" []]

theorem storages_interchangeable_electedByRing :
    (run (LiveMetastore.apply ConsistentHashRing.md5Hash 3) .new electedByRing).topic "t" =
      (run (ZkObjects.apply ConsistentHashRing.md5Hash .ofCreation 3) .new
        electedByRing).metastore.znodes.topicAt "t" :=
  (storages_interchangeable ConsistentHashRing.md5Hash 3 .ofCreation electedByRing
    (by decide +kernel) (by decide +kernel) electedByRing [] (List.append_nil _).symm).2.1 "t"

/-- A broker that shares a key with itself leaves a sorted key behind. The election of a
leader then raises, after the assignment to `isr_list`. -/
def danglingKey : List ManagerOp :=
  [.registerTopic "t", .updateTopicIsr "t" ["q"], .registerBroker "broker-811987" "h" 1,
    .registerBroker "b1" "h" 2, .deregisterBroker "broker-811987", .updateTopicIsr "t" []]

theorem storages_differ_danglingKey : (∀ op ∈ danglingKey, op.PathNames) ∧
    ((run (LiveMetastore.apply ConsistentHashRing.md5Hash 3) .new danglingKey).topic "t").map
      TopicMetadata.isrList = some [] ∧
    ((run (ZkObjects.apply ConsistentHashRing.md5Hash .ofCreation 3) .new
      danglingKey).metastore.znodes.topicAt "t").map TopicMetadata.isrList = some ["q"] := by
  decide +kernel

end PyLogStream
