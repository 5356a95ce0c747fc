import PyLogStream.Metastore.Concurrent
import PyLogStream.Metastore.Maps
import PyLogStream.Metastore.Restart

/-!
`ZKMetastoreStorage` is a lawful storage. Every znode stands at the path of what it
holds, so that a name without a slash is a child of its directory and has no children
itself. No stored topic has an object: what is read is a copy, and an assignment to it
is not seen before it is written back.
-/

namespace PyLogStream
open Lib ConsistentHashRing

/-- What may stand at a path. -/
def Placed (path : String) : ZnodeData → Prop
  | .empty => path = "/pylogstream" ∨ path = brokersPath ∨ path = topicsPath
  | .node node => PathName node.nodeId ∧ path = brokerPath node.nodeId
  | .topic t => PathName t.topic ∧ path = topicPath t.topic

/-- Every znode is in its place, and the two directories are there. -/
structure Znodes.Tidy (z : Znodes) : Prop where
  placed : ∀ path data, z.get? path = some data → Placed path data
  brokers : (z.get? brokersPath).isSome = true
  topics : (z.get? topicsPath).isSome = true

theorem child_ne_base (path name : String) (hpath : path = brokersPath ∨ path = topicsPath) :
    path ++ "/" ++ name ≠ "/pylogstream" ∧ path ++ "/" ++ name ≠ brokersPath ∧
      path ++ "/" ++ name ≠ topicsPath := by
  refine ⟨fun h => ?_, fun h => ?_, fun h => ?_⟩ <;> rcases hpath with rfl | rfl <;>
  · have hchars := congrArg String.toList h
    simp [brokersPath, topicsPath] at hchars

theorem childName_child {path name : String} (hname : PathName name) :
    childName path (path ++ "/" ++ name) = some name := by
  have hchars : (path ++ "/" ++ name).toList = (path.toList ++ ['/']) ++ name.toList := by simp
  have hne : name.toList ≠ [] := fun h => hname.1 (String.toList_injective h)
  simp only [childName, hchars, List.drop_left, List.isPrefixOf_iff_prefix, List.prefix_append,
    ne_eq, hne, not_false_eq_true, hname.2, and_self, if_true, String.ofList_toList]

theorem pathName_of_childName {path key name : String} (h : childName path key = some name) :
    PathName name := by
  simp only [childName] at h
  split at h
  · next hchild =>
      obtain ⟨-, hne, hslash⟩ := hchild
      rw [← Option.some.inj h]
      refine ⟨fun heq => hne ?_, by rw [String.toList_ofList]; exact hslash⟩
      rw [← String.toList_ofList (l := key.toList.drop _), heq]
      rfl
  · cases h

theorem parentPath_child (path : String) {name : String} (hname : PathName name) :
    parentPath (path ++ "/" ++ name) = path := by
  have hchars : (path ++ "/" ++ name).toList.reverse =
      name.toList.reverse ++ '/' :: path.toList.reverse := by simp
  have hall : ∀ c ∈ name.toList.reverse, decide (c ≠ '/') = true := by
    intro c hc
    have hne : c ≠ '/' := fun heq => hname.2 (heq ▸ List.mem_reverse.mp hc)
    simpa using hne
  rw [parentPath, hchars, List.dropWhile_append_of_pos hall]
  simp

namespace Znodes
variable {z : Znodes}

theorem Tidy.broker (tidy : z.Tidy) {nodeId : String} {data : ZnodeData}
    (h : z.get? (brokerPath nodeId) = some data) :
    ∃ node : BrokerNode, data = .node node ∧ node.nodeId = nodeId ∧ PathName nodeId := by
  have hplaced := tidy.placed _ _ h
  obtain ⟨hroot, hbrokers, htopics⟩ := child_ne_base brokersPath nodeId (Or.inl rfl)
  cases data with
  | empty => exact absurd hplaced (not_or.mpr ⟨hroot, not_or.mpr ⟨hbrokers, htopics⟩⟩)
  | node node =>
      have heq := brokerPath_inj hplaced.2
      exact ⟨node, rfl, heq.symm, heq ▸ hplaced.1⟩
  | topic t => exact absurd hplaced.2 (brokerPath_ne_topicPath _ _)

theorem Tidy.topic (tidy : z.Tidy) {name : String} {data : ZnodeData}
    (h : z.get? (topicPath name) = some data) :
    ∃ t : TopicMetadata, data = .topic t ∧ t.topic = name ∧ PathName name := by
  have hplaced := tidy.placed _ _ h
  obtain ⟨hroot, hbrokers, htopics⟩ := child_ne_base topicsPath name (Or.inr rfl)
  cases data with
  | empty => exact absurd hplaced (not_or.mpr ⟨hroot, not_or.mpr ⟨hbrokers, htopics⟩⟩)
  | node node => exact absurd hplaced.2.symm (brokerPath_ne_topicPath _ _)
  | topic t =>
      have heq := topicPath_inj hplaced.2
      exact ⟨t, rfl, heq.symm, heq ▸ hplaced.1⟩

/-- A broker has no children. -/
theorem Tidy.leaf (tidy : z.Tidy) (nodeId : String) : z.children (brokerPath nodeId) = [] := by
  refine List.eq_nil_iff_forall_not_mem.mpr fun name hname => ?_
  obtain ⟨key, hkey, hchild⟩ := List.mem_filterMap.mp hname
  obtain ⟨data, hdata⟩ := (Dict.mem_keys_iff _ _).mp hkey
  have heq : key = brokersPath ++ "/" ++ (nodeId ++ "/" ++ name) := by
    rw [childName_eq_some hchild, brokerPath]
    simp [String.append_assoc]
  rw [heq] at hdata
  obtain ⟨-, -, -, hpath⟩ := tidy.broker hdata
  exact hpath.2 (by simp)

theorem Tidy.set (tidy : z.Tidy) {path : String} {data : ZnodeData} (hplaced : Placed path data) :
    Tidy (Dict.set z path data) := by
  refine ⟨fun path' data' h => ?_, ?_, ?_⟩
  · rw [Dict.get?_set] at h
    split at h
    · next heq => exact heq ▸ Option.some.inj h ▸ hplaced
    · exact tidy.placed path' data' h
  · rw [Dict.get?_set]
    split
    · rfl
    · exact tidy.brokers
  · rw [Dict.get?_set]
    split
    · rfl
    · exact tidy.topics

theorem Tidy.erase (tidy : z.Tidy) (nodeId : String) : Tidy (Dict.erase z (brokerPath nodeId)) := by
  obtain ⟨-, hbrokers, htopics⟩ : _ ∧ brokerPath nodeId ≠ brokersPath ∧ brokerPath nodeId ≠ topicsPath :=
    child_ne_base brokersPath nodeId (Or.inl rfl)
  refine ⟨fun path data h => ?_, ?_, ?_⟩
  · rw [Dict.get?_erase] at h
    split at h
    · cases h
    · exact tidy.placed path data h
  · rw [Dict.get?_erase, if_neg hbrokers.symm]
    exact tidy.brokers
  · rw [Dict.get?_erase, if_neg htopics.symm]
    exact tidy.topics

theorem brokerAt_eq_some {nodeId : String} {node : BrokerNode} :
    z.brokerAt nodeId = some node ↔ z.get? (brokerPath nodeId) = some (.node node) := by
  unfold brokerAt
  split
  · next node' h => simp [h]
  · next h => exact iff_of_false (by simp) fun h' => h node h'

theorem topicAt_eq_some {name : String} {t : TopicMetadata} :
    z.topicAt name = some t ↔ z.get? (topicPath name) = some (.topic t) := by
  unfold topicAt
  split
  · next t' h => simp [h]
  · next h => exact iff_of_false (by simp) fun h' => h t h'

theorem Tidy.topicAt_eq_none (tidy : z.Tidy) {name : String} :
    z.topicAt name = none ↔ z.get? (topicPath name) = none := by
  constructor
  · intro h
    refine Option.eq_none_iff_forall_ne_some.mpr fun data hdata => ?_
    obtain ⟨t, rfl, -, -⟩ := tidy.topic hdata
    rw [topicAt_eq_some.mpr hdata] at h
    cases h
  · intro h
    rw [topicAt, h]

theorem Tidy.brokerAt_eq_none (tidy : z.Tidy) {nodeId : String} :
    z.brokerAt nodeId = none ↔ z.get? (brokerPath nodeId) = none := by
  constructor
  · intro h
    refine Option.eq_none_iff_forall_ne_some.mpr fun data hdata => ?_
    obtain ⟨node, rfl, -, -⟩ := tidy.broker hdata
    rw [brokerAt_eq_some.mpr hdata] at h
    cases h
  · intro h
    rw [brokerAt, h]

/-- The children of a directory are the names that are stored in it. -/
theorem mem_children {directory name : String} : name ∈ z.children directory ↔
    PathName name ∧ (z.get? (directory ++ "/" ++ name)).isSome = true := by
  rw [children, List.mem_filterMap]
  constructor
  · rintro ⟨key, hkey, hchild⟩
    obtain ⟨data, hdata⟩ := (Dict.mem_keys_iff _ _).mp hkey
    rw [← childName_eq_some hchild, hdata]
    exact ⟨pathName_of_childName hchild, rfl⟩
  · rintro ⟨hname, hsome⟩
    obtain ⟨data, hdata⟩ := Option.isSome_iff_exists.mp hsome
    exact ⟨_, Dict.mem_keys_of_get? hdata, childName_child hname⟩

theorem Tidy.mem_topics (tidy : z.Tidy) {name : String} {t : TopicMetadata}
    (h : z.topicAt name = some t) : name ∈ z.children topicsPath := by
  have hget := topicAt_eq_some.mp h
  obtain ⟨-, -, -, hname⟩ := tidy.topic hget
  exact mem_children.mpr ⟨hname, Option.isSome_of_eq_some hget⟩

theorem Tidy.topicAt_topic (tidy : z.Tidy) {name : String} {t : TopicMetadata}
    (h : z.topicAt name = some t) : t.topic = name := by
  obtain ⟨t', heq, hname, -⟩ := tidy.topic (topicAt_eq_some.mp h)
  cases heq
  exact hname

/-- The children of the topics directory, in any order, are the topics. -/
theorem Tidy.listing (tidy : z.Tidy) {names : List String}
    (perm : names.Perm (z.children topicsPath)) :
    Listing (names.filterMap z.topicAt) z.topicAt := by
  constructor
  · rw [List.map_filterMap]
    refine List.Nodup.filterMap (fun name name' b h h' => ?_)
      (perm.nodup_iff.mpr (z.children_nodup _))
    obtain ⟨t, ht, rfl⟩ := Option.map_eq_some_iff.mp h
    obtain ⟨t', ht', heq⟩ := Option.map_eq_some_iff.mp h'
    rw [← tidy.topicAt_topic ht, ← heq, tidy.topicAt_topic ht']
  · intro t
    rw [List.mem_filterMap]
    constructor
    · rintro ⟨name, -, h⟩
      rw [tidy.topicAt_topic h]
      exact h
    · exact fun h => ⟨t.topic, perm.mem_iff.mpr (tidy.mem_topics h), h⟩

/-- The children of the brokers directory are the brokers. -/
theorem Tidy.brokers_eq_nil (tidy : z.Tidy) {names : List String}
    (perm : names.Perm (z.children brokersPath)) :
    names.filterMap z.brokerAt = [] ↔ ∀ nodeId, z.brokerAt nodeId = none := by
  rw [List.filterMap_eq_nil_iff]
  refine ⟨fun h nodeId => ?_, fun h nodeId _ => h nodeId⟩
  refine Option.eq_none_iff_forall_ne_some.mpr fun node hnode => ?_
  have hget := brokerAt_eq_some.mp hnode
  obtain ⟨-, -, -, hname⟩ := tidy.broker hget
  have hmem := mem_children.mpr ⟨hname, Option.isSome_of_eq_some hget⟩
  exact Option.some_ne_none node (hnode.symm.trans (h nodeId (perm.mem_iff.mpr hmem)))

theorem brokerAt_set_broker (z : Znodes) (node : BrokerNode) :
    brokerAt (Dict.set z (brokerPath node.nodeId) (.node node)) =
      Function.update z.brokerAt node.nodeId (some node) := by
  funext nodeId
  rw [Function.update_apply, brokerAt, Dict.get?_set]
  by_cases h : nodeId = node.nodeId
  · rw [if_pos h, if_pos (congrArg brokerPath h)]
  · rw [if_neg h, if_neg (mt brokerPath_inj h), brokerAt]

theorem brokerAt_erase (z : Znodes) (nodeId : String) :
    brokerAt (Dict.erase z (brokerPath nodeId)) = Function.update z.brokerAt nodeId none := by
  funext other
  rw [Function.update_apply, brokerAt, Dict.get?_erase]
  by_cases h : other = nodeId
  · rw [if_pos h, if_pos (congrArg brokerPath h)]
  · rw [if_neg h, if_neg (mt brokerPath_inj h), brokerAt]

theorem topicAt_set_broker (z : Znodes) (nodeId : String) (data : ZnodeData) :
    topicAt (Dict.set z (brokerPath nodeId) data) = z.topicAt := by
  funext name
  rw [topicAt, Dict.get?_set, if_neg (brokerPath_ne_topicPath nodeId name).symm, topicAt]

theorem topicAt_erase (z : Znodes) (nodeId : String) :
    topicAt (Dict.erase z (brokerPath nodeId)) = z.topicAt := by
  funext name
  rw [topicAt, Dict.get?_erase, if_neg (brokerPath_ne_topicPath nodeId name).symm, topicAt]

theorem brokerAt_set_topic (z : Znodes) (name : String) (data : ZnodeData) :
    brokerAt (Dict.set z (topicPath name) data) = z.brokerAt := by
  funext nodeId
  rw [brokerAt, Dict.get?_set, if_neg (brokerPath_ne_topicPath nodeId name), brokerAt]

theorem topicAt_set_topic (z : Znodes) (t : TopicMetadata) (name : String) :
    topicAt (Dict.set z (topicPath t.topic) (.topic t)) name =
      if name = t.topic then some t else z.topicAt name := by
  rw [topicAt, Dict.get?_set]
  by_cases h : name = t.topic
  · rw [if_pos h, if_pos (congrArg topicPath h)]
  · rw [if_neg h, if_neg (mt topicPath_inj h), topicAt]

end Znodes

namespace ZkStorage
variable {hash : String → Nat} {s : ZkMetastore}

theorem getNode_eq (tidy : s.znodes.Tidy) (nodeId : String) :
    (getNode nodeId).exec (ZkMetastore.handle hash) s = (s, .ok (s.znodes.brokerAt nodeId)) := by
  simp only [getNode, ZkClient.get, Prog.perform, bind, Prog.bind, Prog.exec, ZkMetastore.handle,
    Znodes.handle, Znodes.brokerAt]
  cases hget : s.znodes.get? (brokerPath nodeId) with
  | none => rfl
  | some data =>
      obtain ⟨node, rfl, -, -⟩ := tidy.broker hget
      rfl

theorem getTopic_eq (tidy : s.znodes.Tidy) (name : String) :
    (getTopic name).exec (ZkMetastore.handle hash) s = (s, .ok (s.znodes.topicAt name)) := by
  simp only [getTopic, ZkClient.get, Prog.perform, bind, Prog.bind, Prog.exec, ZkMetastore.handle,
    Znodes.handle, Znodes.topicAt]
  cases hget : s.znodes.get? (topicPath name) with
  | none => rfl
  | some data =>
      obtain ⟨t, rfl, -, -⟩ := tidy.topic hget
      rfl

theorem getNodes_eq (tidy : s.znodes.Tidy) (names : List String) :
    (getNodes names).exec (ZkMetastore.handle hash) s =
      (s, .ok (names.filterMap s.znodes.brokerAt)) := by
  induction names with
  | nil => rfl
  | cons name rest ih =>
      rw [getNodes, Prog.exec_bind_ok (getNode_eq tidy name), Prog.exec_bind_ok ih,
        List.filterMap_cons]
      cases s.znodes.brokerAt name <;> rfl

theorem getTopics_eq (tidy : s.znodes.Tidy) (names : List String) :
    (getTopics names).exec (ZkMetastore.handle hash) s =
      (s, .ok (names.filterMap s.znodes.topicAt)) := by
  induction names with
  | nil => rfl
  | cons name rest ih =>
      rw [getTopics, Prog.exec_bind_ok (getTopic_eq tidy name), Prog.exec_bind_ok ih,
        List.filterMap_cons]
      cases s.znodes.topicAt name <;> rfl

theorem handle_create {path name : String} {data : ZnodeData} (hname : PathName name)
    (hparent : (s.znodes.get? path).isSome = true) :
    s.handle hash (.zk (.create (path ++ "/" ++ name) data)) =
      if (s.znodes.get? (path ++ "/" ++ name)).isSome then (s, .ok false)
      else ({ s with znodes := Dict.set s.znodes (path ++ "/" ++ name) data }, .ok true) := by
  simp only [ZkMetastore.handle, Znodes.handle, parentPath_child path hname, hparent, if_true]
  split <;> rfl

theorem handle_set {path : String} {data : ZnodeData} (hsome : (s.znodes.get? path).isSome = true) :
    s.handle hash (.zk (.set path data)) =
      ({ s with znodes := Dict.set s.znodes path data }, .ok ()) := by
  simp only [ZkMetastore.handle, Znodes.handle, hsome, if_true]

theorem addNode_eq (tidy : s.znodes.Tidy) {node : BrokerNode} (hname : PathName node.nodeId) :
    (addNode node).exec (ZkMetastore.handle hash) s =
      ({ s with znodes := Dict.set s.znodes (brokerPath node.nodeId) (.node node) }, .ok ()) := by
  have hcreate : s.handle hash (.zk (.create (brokerPath node.nodeId) (.node node))) =
      if (s.znodes.get? (brokerPath node.nodeId)).isSome then (s, .ok false)
      else ({ s with znodes := Dict.set s.znodes (brokerPath node.nodeId) (.node node) }, .ok true) :=
    handle_create hname tidy.brokers
  by_cases hsome : (s.znodes.get? (brokerPath node.nodeId)).isSome = true
  · rw [if_pos hsome] at hcreate
    simp only [addNode, ZkClient.create, ZkClient.set, Prog.perform, bind, Prog.bind, Prog.exec,
      hcreate, Bool.false_eq_true, if_false, handle_set hsome]
  · rw [if_neg hsome] at hcreate
    simp only [addNode, ZkClient.create, Prog.perform, bind, Prog.bind, Prog.exec, hcreate, if_true]
    rfl

theorem addTopic_eq (tidy : s.znodes.Tidy) {t : TopicMetadata} (hname : PathName t.topic)
    (hnone : s.znodes.get? (topicPath t.topic) = none) :
    (addTopic t).exec (ZkMetastore.handle hash) s =
      ({ s with znodes := Dict.set s.znodes (topicPath t.topic) (.topic t) }, .ok ()) := by
  have hcreate : s.handle hash (.zk (.create (topicPath t.topic) (.topic t))) =
      if (s.znodes.get? (topicPath t.topic)).isSome then (s, .ok false)
      else ({ s with znodes := Dict.set s.znodes (topicPath t.topic) (.topic t) }, .ok true) :=
    handle_create hname tidy.topics
  rw [hnone, if_neg (by simp)] at hcreate
  simp only [addTopic, ZkClient.create, Prog.perform, bind, Prog.bind, Prog.exec, hcreate, if_true]
  rfl

theorem updateTopic_eq {t : TopicMetadata}
    (hsome : (s.znodes.get? (topicPath t.topic)).isSome = true) :
    (updateTopic t).exec (ZkMetastore.handle hash) s =
      ({ s with znodes := Dict.set s.znodes (topicPath t.topic) (.topic t) }, .ok ()) := by
  have hexists : s.handle hash (.zk (.nodeExists (topicPath t.topic))) = (s, .ok true) := by
    simp only [ZkMetastore.handle, Znodes.handle, hsome]
  simp only [updateTopic, ZkClient.nodeExists, ZkClient.set, Prog.perform, bind, Prog.bind,
    Prog.exec, hexists, if_true, handle_set hsome]

theorem removeNode_eq (tidy : s.znodes.Tidy) (nodeId : String) :
    (removeNode nodeId).exec (ZkMetastore.handle hash) s =
      ({ s with znodes := Dict.erase s.znodes (brokerPath nodeId) },
        .ok (s.znodes.brokerAt nodeId)) := by
  have hdelete : s.handle hash (.zk (.delete (brokerPath nodeId))) =
      ({ s with znodes := Dict.erase s.znodes (brokerPath nodeId) }, .ok ()) := by
    simp only [ZkMetastore.handle, Znodes.handle, tidy.leaf nodeId, if_true]
    split
    · rfl
    · next hnone =>
        have habsent : brokerPath nodeId ∉ Dict.keys s.znodes := by
          rw [← Dict.get?_eq_none_iff]
          simpa using hnone
        rw [Dict.erase_of_not_mem habsent]
  rw [removeNode, Prog.exec_bind_ok (getNode_eq tidy nodeId)]
  simp only [ZkClient.delete, Prog.perform, bind, Prog.bind, Prog.exec, hdelete]
  rfl

end ZkStorage

namespace ZkObjects

def view : StorageView ZkObjects :=
  { objects := objects
    ring := fun s => s.metastore.ring
    node := fun s => s.metastore.znodes.brokerAt
    topic := fun s => s.metastore.znodes.topicAt
    Ok := fun s => s.metastore.znodes.Tidy
    Edits := fun _ _ _ => True }

variable {hash : String → Nat} {order : ChildOrder} {s : ZkObjects} {α : Type}

theorem exec_eq {p : ZkProg α} {m : ZkMetastore} {r : Except MetastoreError α}
    (h : p.exec (ZkMetastore.handle hash) s.metastore = (m, r)) :
    s.exec hash p = ({ s with metastore := m }, r) := by
  rw [exec, h]

theorem getAllNodes_eq (tidy : s.metastore.znodes.Tidy) :
    s.exec hash (ZkStorage.getAllNodesIn order) =
      (s, .ok ((order.arrange (s.metastore.znodes.children brokersPath)).filterMap
        s.metastore.znodes.brokerAt)) :=
  exec_eq (ZkStorage.getNodes_eq tidy _)

theorem getAllTopics_eq (tidy : s.metastore.znodes.Tidy) :
    s.exec hash (ZkStorage.getAllTopicsIn order) =
      (s, .ok ((order.arrange (s.metastore.znodes.children topicsPath)).filterMap
        s.metastore.znodes.topicAt)) :=
  exec_eq (ZkStorage.getTopics_eq tidy _)

/-- New objects are of no matter to ZooKeeper. -/
theorem extends_of_grows (tidy : s.metastore.znodes.Tidy) {o : Objects TopicMetadata}
    (grows : s.objects.Grows o) : view.Extends s { s with objects := o } :=
  ⟨tidy, rfl, rfl, rfl, grows, fun _ _ _ _ => trivial⟩

theorem stored_of_set (tidy : s.metastore.znodes.Tidy) {ref : Nat}
    (hname : PathName (s.objects.value ref).topic) :
    view.Stored ref (s.objects.value ref) s
      { s with
        metastore := { s.metastore with
          znodes := Dict.set s.metastore.znodes (topicPath (s.objects.value ref).topic)
            (.topic (s.objects.value ref)) } } :=
  ⟨tidy.set ⟨hname, rfl⟩, rfl, Znodes.brokerAt_set_topic _ _ _, (Objects.write_self rfl).symm,
    Znodes.topicAt_set_topic _ _, fun _ _ _ _ => trivial⟩

theorem lawful (hash : String → Nat) (order : ChildOrder) :
    view.Lawful hash (handle hash order) := by
  constructor
  case create =>
      intro s t tidy
      exact ⟨_, rfl, extends_of_grows tidy (Objects.grows_create s.objects t), Nat.lt_succ_self _,
        Objects.write_value_self, fun _ => trivial⟩
  case read => exact fun s ref => rfl
  case write =>
      intro s ref name t tidy _
      exact ⟨_, rfl, tidy, rfl, rfl, rfl, fun _ _ => rfl, rfl, fun _ _ _ => trivial⟩
  case addNode =>
      intro s node tidy hname
      exact ⟨_, exec_eq (ZkStorage.addNode_eq tidy hname), tidy.set ⟨hname, rfl⟩, rfl,
        Znodes.brokerAt_set_broker _ node, Znodes.topicAt_set_broker _ _ _⟩
  case removeNode =>
      intro s nodeId tidy
      exact ⟨_, exec_eq (ZkStorage.removeNode_eq tidy nodeId), tidy.erase nodeId, rfl,
        Znodes.brokerAt_erase _ nodeId, Znodes.topicAt_erase _ nodeId⟩
  case getNode => exact fun s nodeId tidy => exec_eq (ZkStorage.getNode_eq tidy nodeId)
  case getAllNodes =>
      exact fun s tidy => ⟨_, getAllNodes_eq tidy, Znodes.Tidy.brokers_eq_nil tidy (order.perm _)⟩
  case addTopic =>
      intro s ref tidy _ hname hnone _
      have hget := (Znodes.Tidy.topicAt_eq_none tidy).mp hnone
      exact ⟨_, exec_eq (ZkStorage.addTopic_eq tidy hname hget), stored_of_set tidy hname⟩
  case updateTopic =>
      intro s ref tidy _ hsome _
      obtain ⟨t, ht⟩ := Option.isSome_iff_exists.mp hsome
      have hget := Znodes.topicAt_eq_some.mp ht
      obtain ⟨-, -, -, hname⟩ := Znodes.Tidy.topic tidy hget
      exact ⟨_, exec_eq (ZkStorage.updateTopic_eq (Option.isSome_of_eq_some hget)),
        stored_of_set tidy hname⟩
  case getTopic_none =>
      intro s name tidy hnone
      simp only [handle, exec_eq (ZkStorage.getTopic_eq tidy name)]
      rw [show s.metastore.znodes.topicAt name = none from hnone]
  case getTopic_some =>
      intro s name t tidy hsome
      have hget : s.exec hash (ZkStorage.getTopic name) = (s, .ok (some t)) :=
        hsome ▸ exec_eq (ZkStorage.getTopic_eq tidy name)
      refine ⟨{ s with objects := (s.objects.create t).1 }, s.objects.next, ?_,
        extends_of_grows tidy (Objects.grows_create s.objects t), Nat.lt_succ_self _,
        Objects.write_value_self, trivial⟩
      simp only [handle, hget]
      rfl
  case getAllTopics =>
      intro s tidy _
      obtain ⟨grows, hvalues, nodup, hnew⟩ := Objects.createAll_spec s.objects
        ((order.arrange (s.metastore.znodes.children topicsPath)).filterMap
          s.metastore.znodes.topicAt)
      refine ⟨_, _, ?_, extends_of_grows tidy grows, nodup, ?_, fun ref href => ?_⟩
      · simp only [handle, getAllTopics_eq tidy]
      · have listing := Znodes.Tidy.listing tidy (order.perm _)
        rw [← hvalues] at listing
        exact listing
      · exact ⟨(hnew ref href).2, trivial⟩
  case ringChange =>
      intro s c ring r tidy h
      refine ⟨{ s with metastore := { s.metastore with ring } }, exec_eq ?_, tidy, rfl, rfl, rfl⟩
      simp only [Prog.perform, Prog.exec, ZkMetastore.handle,
        show s.metastore.ring.handle hash c = (ring, .ok r) from h]
      rfl
  case ringAsk =>
      intro s c r tidy h
      refine exec_eq ?_
      simp only [Prog.perform, Prog.exec, ZkMetastore.handle,
        show s.metastore.ring.handle hash c = (s.metastore.ring, .ok r) from h]
      rfl

theorem get?_child_new (directory name : String)
    (h : directory = brokersPath ∨ directory = topicsPath) :
    new.metastore.znodes.get? (directory ++ "/" ++ name) = none := by
  obtain ⟨hroot, hbrokers, htopics⟩ := child_ne_base directory name h
  simp only [new, ZkMetastore.new, Dict.get?_set, Dict.get?_empty]
  rw [if_neg htopics, if_neg hbrokers, if_neg hroot]

theorem tidy_new : new.metastore.znodes.Tidy := by
  refine ⟨fun path data h => ?_, by decide, by decide⟩
  simp only [new, ZkMetastore.new, Dict.get?_set, Dict.get?_empty] at h
  split at h
  · next heq =>
      cases h
      exact Or.inr (Or.inr heq)
  · split at h
    · next heq =>
        cases h
        exact Or.inr (Or.inl heq)
    · split at h
      · next heq =>
          cases h
          exact Or.inl heq
      · cases h

end ZkObjects
end PyLogStream
