import PyLogStream.Metastore.Calls
import PyLogStream.Metastore.Conflicts

/-!
What the storage's programs touch in ZooKeeper. A topic is written at its own path
only, so every topic is stored at its path after any history of operations; a program
that does not write a topic leaves its znode as it is.
-/

namespace PyLogStream
open Lib

/-- The znode a call writes. -/
def ZkMetastoreCall.writes : ZkMetastoreCall → Option String
  | .zk (.set path _) | .zk (.create path _) | .zk (.delete path) => some path
  | _ => none

/-- The call does not write the znode. -/
def Leaves (path : String) (c : ZkMetastoreCall) : Prop := c.writes ≠ some path

/-- A topic is written at its own path only. -/
def Addressed : ZkMetastoreCall → Prop
  | .zk (.set path (.topic t)) | .zk (.create path (.topic t)) => path = topicPath t.topic
  | _ => True

/-- Every topic is stored at its path. -/
def ZkMetastore.Named (s : ZkMetastore) : Prop :=
  ∀ path t, s.znodes.get? path = some (.topic t) → path = topicPath t.topic

theorem topicPath_inj {a b : String} (h : topicPath a = topicPath b) : a = b := by
  have hchars := congrArg String.toList h
  simp only [topicPath, String.toList_append] at hchars
  exact String.toList_injective (List.append_cancel_left hchars)

theorem brokerPath_ne_topicPath (nodeId topicName : String) :
    brokerPath nodeId ≠ topicPath topicName := by
  intro h
  have hchars := congrArg String.toList h
  simp [brokerPath, topicPath, brokersPath, topicsPath] at hchars

theorem childName_eq_some {path key name : String} (h : childName path key = some name) :
    key = path ++ "/" ++ name := by
  simp only [childName] at h
  split at h
  · next hchild =>
      obtain ⟨rest, hrest⟩ := List.isPrefixOf_iff_prefix.mp hchild.1
      apply String.toList_injective
      rw [← Option.some.inj h]
      simp only [String.toList_append, String.toList_ofList]
      rw [← hrest, List.drop_left]
      rfl
  · cases h

theorem Znodes.children_nodup (z : Znodes) (path : String) : (z.children path).Nodup := by
  refine List.Nodup.filterMap (fun key key' name h h' => ?_) z.nodup
  rw [childName_eq_some h, childName_eq_some h']

section
variable {hash : String → Nat} {s : ZkMetastore} {c : ZkMetastoreCall} {path : String}

theorem leaves_of_reads (h : c.writes = none) : Leaves path c := by simp [Leaves, h]

/-- A call keeps the znodes it does not write. -/
theorem Leaves.get? (h : Leaves path c) :
    (s.handle hash c).1.znodes.get? path = s.znodes.get? path := by
  cases c with
  | ring c => rfl
  | zk c =>
      cases c with
      | get used | nodeExists used | getChildren used => rfl
      | set used data =>
          have hne : path ≠ used := fun heq => h (heq ▸ rfl)
          change (s.znodes.handle (.set used data)).1.get? path = _
          rw [Znodes.handle_set_state]
          split
          · exact Dict.get?_set_of_ne _ data hne
          · rfl
      | create used data =>
          have hne : path ≠ used := fun heq => h (heq ▸ rfl)
          change (s.znodes.handle (.create used data)).1.get? path = _
          simp only [Znodes.handle]
          split
          · rfl
          · split
            · exact Dict.get?_set_of_ne _ data hne
            · rfl
      | delete used =>
          have hne : path ≠ used := fun heq => h (heq ▸ rfl)
          change (s.znodes.handle (.delete used)).1.get? path = _
          rw [Znodes.handle_delete_state]
          split
          · rw [Dict.get?_erase, if_neg hne]
          · rfl

theorem ZkMetastore.Named.set {z : Znodes} {ring : ConsistentHashRing} {data : ZnodeData}
    (named : ZkMetastore.Named ⟨z, ring⟩) (h : ∀ t, data = .topic t → path = topicPath t.topic) :
    ZkMetastore.Named ⟨z.set path data, ring⟩ := by
  intro path' t hget
  change (z.set path data).get? path' = _ at hget
  rw [Dict.get?_set] at hget
  split at hget
  · next heq => exact heq.trans (h t (Option.some.inj hget))
  · exact named path' t hget

theorem Addressed.named (h : Addressed c) (named : s.Named) : (s.handle hash c).1.Named := by
  cases c with
  | ring c => exact named
  | zk c =>
      cases c with
      | get used | nodeExists used | getChildren used => exact named
      | set used data =>
          have haddr : ∀ t, data = .topic t → used = topicPath t.topic := by
            rintro t rfl
            exact h
          change ZkMetastore.Named ⟨(s.znodes.handle (.set used data)).1, s.ring⟩
          rw [Znodes.handle_set_state]
          split
          · exact named.set haddr
          · exact named
      | create used data =>
          have haddr : ∀ t, data = .topic t → used = topicPath t.topic := by
            rintro t rfl
            exact h
          change ZkMetastore.Named ⟨(s.znodes.handle (.create used data)).1, s.ring⟩
          simp only [Znodes.handle]
          split
          · exact named
          · split
            · exact named.set haddr
            · exact named
      | delete used =>
          change ZkMetastore.Named ⟨(s.znodes.handle (.delete used)).1, s.ring⟩
          rw [Znodes.handle_delete_state]
          split
          · intro path' t hget
            change (s.znodes.erase used).get? path' = _ at hget
            rw [Dict.get?_erase] at hget
            split at hget
            · cases hget
            · exact named path' t hget
          · exact named

end

/-- The topic that a storage call writes. -/
def MetastoreCall.writesTopic : MetastoreCall → Option String
  | .addTopic t | .updateTopic t => some t.topic
  | _ => none

namespace ZkStorage
section
variable {P : ZkMetastoreCall → Prop}

theorem getNode_within (reads : ∀ path, P (.zk (.get path))) (nodeId : String) :
    (getNode nodeId).Within P fun _ => True := by
  refine ⟨reads _, fun data => ?_⟩
  cases data with
  | none => trivial
  | some data => cases data <;> trivial

theorem getTopic_within (reads : ∀ path, P (.zk (.get path))) (topicName : String) :
    (getTopic topicName).Within P fun _ => True := by
  refine ⟨reads _, fun data => ?_⟩
  cases data with
  | none => trivial
  | some data => cases data <;> trivial

theorem getNodes_within (reads : ∀ path, P (.zk (.get path))) (children : List String) :
    (getNodes children).Within P fun _ => True := by
  induction children with
  | nil => trivial
  | cons child rest ih =>
      exact (getNode_within reads child).bind fun _ _ => ih.bind fun _ _ => trivial

theorem getTopics_within (reads : ∀ path, P (.zk (.get path))) (children : List String) :
    (getTopics children).Within P fun _ => True := by
  induction children with
  | nil => trivial
  | cons child rest ih =>
      exact (getTopic_within reads child).bind fun _ _ => ih.bind fun _ _ => trivial

/-- What a storage method can call, from what it may write. -/
theorem program_within (reads : ∀ path, P (.zk (.get path)) ∧ P (.zk (.nodeExists path)) ∧
      P (.zk (.getChildren path))) (c : MetastoreCall) (ring : ∀ d, c = .ring d → P (.ring d))
    (added : ∀ node, c = .addNode node → P (.zk (.create (brokerPath node.nodeId) (.node node))) ∧
      P (.zk (.set (brokerPath node.nodeId) (.node node))))
    (removed : ∀ nodeId, c = .removeNode nodeId → P (.zk (.delete (brokerPath nodeId))))
    (topics : ∀ t, c = .addTopic t ∨ c = .updateTopic t →
      P (.zk (.create (topicPath t.topic) (.topic t))) ∧
        P (.zk (.set (topicPath t.topic) (.topic t)))) :
    (program c).Within P fun _ => True := by
  cases c with
  | addNode node =>
      refine ⟨(added node rfl).1, fun created => ?_⟩
      cases created with
      | true => trivial
      | false => exact ⟨(added node rfl).2, fun _ => trivial⟩
  | removeNode nodeId =>
      refine (getNode_within (fun path => (reads path).1) nodeId).bind fun existing _ => ?_
      exact ⟨removed nodeId rfl, fun _ => trivial⟩
  | getNode nodeId => exact getNode_within (fun path => (reads path).1) nodeId
  | getAllNodes =>
      exact ⟨(reads _).2.2, fun children => getNodes_within (fun path => (reads path).1) children⟩
  | addTopic topic =>
      refine ⟨(topics topic (Or.inl rfl)).1, fun created => ?_⟩
      cases created <;> trivial
  | updateTopic topic =>
      refine ⟨(reads _).2.1, fun present => ?_⟩
      cases present with
      | true => exact ⟨(topics topic (Or.inr rfl)).2, fun _ => trivial⟩
      | false => trivial
  | getTopic topicName => exact getTopic_within (fun path => (reads path).1) topicName
  | getAllTopics =>
      exact ⟨(reads _).2.2, fun children => getTopics_within (fun path => (reads path).1) children⟩
  | ring d => exact Prog.within_perform (ring d rfl)

end

theorem program_addressed (c : MetastoreCall) : (program c).Within Addressed fun _ => True :=
  program_within (fun _ => ⟨trivial, trivial, trivial⟩) c (fun _ _ => trivial)
    (fun _ _ => ⟨trivial, trivial⟩) (fun _ _ => trivial) fun _ _ => ⟨rfl, rfl⟩

theorem program_leaves {topicName : String} (c : MetastoreCall)
    (h : c.writesTopic ≠ some topicName) :
    (program c).Within (Leaves (topicPath topicName)) fun _ => True := by
  have hbroker : ∀ nodeId, some (brokerPath nodeId) ≠ some (topicPath topicName) :=
    fun nodeId heq => brokerPath_ne_topicPath nodeId topicName (Option.some.inj heq)
  refine program_within (fun _ => ⟨leaves_of_reads rfl, leaves_of_reads rfl, leaves_of_reads rfl⟩) c
    (fun _ _ => leaves_of_reads rfl)
    (fun node _ => ⟨hbroker node.nodeId, hbroker node.nodeId⟩) (fun nodeId _ => hbroker nodeId) ?_
  intro t ht
  have hne : some (topicPath t.topic) ≠ some (topicPath topicName) := by
    intro heq
    have hname := topicPath_inj (Option.some.inj heq)
    cases ht with
    | inl hadd => exact h (by rw [hadd, ← hname]; rfl)
    | inr hupdate => exact h (by rw [hupdate, ← hname]; rfl)
  exact ⟨hne, hne⟩

end ZkStorage

section
variable {hash : String → Nat} {s : ZkMetastore}

theorem ZkMetastore.Named.exec {α : Type} (named : s.Named) (p : MetastoreProg MetastoreError α) :
    ((p.translate ZkStorage.program).exec (ZkMetastore.handle hash) s).1.Named :=
  (p.within_any.translate fun c _ => ZkStorage.program_addressed c).exec_keeps
    (fun _ _ haddr h => haddr.named h) named

theorem ZkMetastore.Named.of_exec {α : Type} {p : MetastoreProg MetastoreError α} {s' : ZkMetastore}
    {result : Except MetastoreError α} (named : s.Named)
    (h : (p.translate ZkStorage.program).exec (ZkMetastore.handle hash) s = (s', result)) :
    s'.Named := by
  have hnamed : ((p.translate ZkStorage.program).exec (ZkMetastore.handle hash) s).1.Named :=
    named.exec p
  rwa [h] at hnamed

theorem ZkMetastore.named_new : ZkMetastore.new.Named := by
  intro path t hget
  simp only [ZkMetastore.new, Dict.get?_set] at hget
  split at hget
  · cases hget
  · split at hget
    · cases hget
    · split at hget <;> cases hget

theorem ZkMetastore.named_run (replicasPerTopic : Int) (history : List MetastoreOp) :
    (run (ZkMetastore.apply hash replicasPerTopic) ZkMetastore.new history).Named := by
  have keep : ∀ (s : ZkMetastore) (history : List MetastoreOp), s.Named →
      (run (ZkMetastore.apply hash replicasPerTopic) s history).Named := by
    intro s history
    induction history generalizing s with
    | nil => exact id
    | cons op rest ih => exact fun named => ih _ (named.exec (op.program replicasPerTopic))
  exact keep _ history ZkMetastore.named_new

end
end PyLogStream
