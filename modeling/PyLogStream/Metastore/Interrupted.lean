import PyLogStream.Lib.Stopped
import PyLogStream.Metastore.Tree

/-!
Controllers that stop in the middle of an operation. What they have done by then is in
ZooKeeper. Every method of the storage makes at most one change there, and so does a
registration or an ISR change; `deregister_broker` makes one for each topic.
-/

namespace PyLogStream
open Lib ConsistentHashRing

/-- The call leaves the tree as it is. -/
def Asks (c : ZkMetastoreCall) : Prop := c.writes = none

/-- A call of the manager that only reads. -/
def MetastoreCall.Asks : MetastoreCall → Prop
  | .addNode _ | .removeNode _ | .addTopic _ | .updateTopic _ => False
  | _ => True

section
variable {hash : String → Nat} {s : ZkMetastore} {α : Type}

theorem Asks.znodes (s : ZkMetastore) (c : ZkMetastoreCall) (h : Asks c) :
    (s.handle hash c).1.znodes = s.znodes := by
  cases c with
  | ring c => rfl
  | zk c =>
      cases c with
      | get path | nodeExists path | getChildren path => rfl
      | set path data | create path data | delete path => cases h

theorem MetastoreCall.Asks.program {c : MetastoreCall} (h : c.Asks) :
    (ZkStorage.program c).Within PyLogStream.Asks fun _ => True := by
  refine ZkStorage.program_within (fun _ => ⟨rfl, rfl, rfl⟩) c (fun _ _ => rfl) ?_ ?_ ?_
  · rintro node rfl
    exact h.elim
  · rintro nodeId rfl
    exact h.elim
  · rintro t (rfl | rfl)
    · exact h.elim
    · exact h.elim

theorem asks_program {Q : α → Prop} {p : MetastoreProg MetastoreError α}
    (h : p.Within MetastoreCall.Asks Q) : (p.translate ZkStorage.program).Within Asks Q :=
  h.translate fun _ hc => hc.program

end

namespace ZkStorage
variable {hash : String → Nat}

theorem create_refused (s : ZkMetastore) (path : String) (data : ZnodeData)
    (h : (s.handle hash (.zk (.create path data))).2 = .ok false) :
    (s.handle hash (.zk (.create path data))).1 = s := by
  simp only [ZkMetastore.handle, Znodes.handle] at h ⊢
  split at h
  · next hfound => rw [if_pos hfound]
  · split at h <;> cases h

theorem addNode_allOrNothing (s : ZkMetastore) (node : BrokerNode) :
    (addNode node).AllOrNothing (ZkMetastore.handle hash) ZkMetastore.znodes s := by
  intro n
  cases n with
  | zero => exact Or.inl (congrArg ZkMetastore.znodes (Prog.stopped_zero s _))
  | succ n =>
      simp only [addNode, ZkClient.create, ZkClient.set, Prog.perform, bind, Prog.bind,
        Prog.stopped, Prog.exec]
      have hrefused := @create_refused hash s (brokerPath node.nodeId) (.node node)
      generalize s.handle hash (.zk (.create (brokerPath node.nodeId) (.node node))) = created
        at hrefused ⊢
      obtain ⟨s', answer⟩ := created
      cases answer with
      | error err => exact Or.inr rfl
      | ok created =>
          cases created with
          | true => exact Or.inr (congrArg ZkMetastore.znodes (Prog.stopped_pure n s' _))
          | false =>
              obtain rfl : s' = s := hrefused rfl
              exact Prog.allOrNothing_perform s' _ n

/-- Every method of the storage makes at most one change to the tree. -/
theorem program_allOrNothing (s : ZkMetastore) (c : MetastoreCall) :
    (program c).AllOrNothing (ZkMetastore.handle hash) ZkMetastore.znodes s := by
  have asks : c.Asks → (program c).AllOrNothing (ZkMetastore.handle hash) ZkMetastore.znodes s :=
    fun h => h.program.allOrNothing Asks.znodes s
  cases c with
  | addNode node => exact addNode_allOrNothing s node
  | removeNode nodeId =>
      refine Prog.AllOrNothing.after Asks.znodes (getNode_within (fun _ => rfl) nodeId)
        fun s' existing _ _ => ?_
      exact (Prog.allOrNothing_perform s' _).before Asks.znodes fun _ => Prog.within_pure trivial
  | addTopic topic =>
      refine (Prog.allOrNothing_perform s _).before Asks.znodes fun created => ?_
      cases created <;> trivial
  | updateTopic topic =>
      have present : (ZkClient.nodeExists (topicPath topic.topic)).Within Asks fun _ => True :=
        Prog.within_perform rfl
      refine Prog.AllOrNothing.after Asks.znodes present fun s' present _ _ => ?_
      cases present with
      | true => exact Prog.allOrNothing_perform s' _
      | false =>
          intro n
          exact Or.inl (congrArg ZkMetastore.znodes (Prog.stopped_raise n s' _))
  | getNode nodeId | getAllNodes | getTopic topicName | getAllTopics => exact asks trivial
  | ring c => exact asks trivial

theorem method_allOrNothing {c : MetastoreCall} (s : ZkMetastore) :
    ((Prog.perform c : MetastoreProg MetastoreError c.Answer).translate program).AllOrNothing
      (ZkMetastore.handle hash) ZkMetastore.znodes s := by
  rw [Prog.translate_perform]
  exact program_allOrNothing s c

end ZkStorage

section
variable {α β : Type} {p : MetastoreProg MetastoreError α} {f : α → MetastoreProg MetastoreError β}

/-- The operation is done or not done in the tree, wherever it is stopped. -/
def Single (hash : String → Nat) (s : ZkMetastore) (p : MetastoreProg MetastoreError α) : Prop :=
  (p.translate ZkStorage.program).AllOrNothing (ZkMetastore.handle hash) ZkMetastore.znodes s

variable {hash : String → Nat} {s : ZkMetastore} {Q : α → Prop}

theorem Single.of_asks (h : p.Within MetastoreCall.Asks Q) : Single hash s p :=
  (asks_program h).allOrNothing Asks.znodes s

theorem Single.after (hp : p.Within MetastoreCall.Asks Q) (hf : ∀ s' a, Single hash s' (f a)) :
    Single hash s (p >>= f) := by
  rw [Single, Prog.translate_bind]
  exact Prog.AllOrNothing.after Asks.znodes (asks_program hp) fun s' a _ _ => hf s' a

theorem Single.before (hp : Single hash s p)
    (hf : ∀ a, (f a).Within MetastoreCall.Asks fun _ => True) : Single hash s (p >>= f) := by
  rw [Single, Prog.translate_bind]
  exact Prog.AllOrNothing.before Asks.znodes hp fun a => asks_program (hf a)

theorem registerBroker_single (nodeId host : String) (port : Int) :
    Single hash s (Metastore.registerBroker nodeId host port) :=
  Single.before (ZkStorage.method_allOrNothing s) fun _ => ⟨trivial, fun _ => trivial⟩

theorem registerTopic_single (replicasPerTopic : Int) (topicName : String) :
    Single hash s (Metastore.registerTopic replicasPerTopic topicName) := by
  refine Single.after (Prog.within_perform trivial) fun s' existing => ?_
  cases existing with
  | some t => exact Single.of_asks (Prog.within_pure (Q := fun _ => True) trivial)
  | none =>
      refine Single.after (Prog.within_perform trivial) fun s'' replicas => ?_
      exact Single.before (ZkStorage.method_allOrNothing s'') fun _ => Prog.within_pure trivial

theorem updateTopicIsr_single (topicName : String) (isrList : List String) :
    Single hash s (Metastore.updateTopicIsr topicName isrList) := by
  refine Single.after (Prog.within_perform trivial) fun s' existing => ?_
  cases existing with
  | none => exact Single.of_asks (Prog.within_pure (Q := fun _ => True) trivial)
  | some t =>
      refine Single.after (reelect_within (fun _ => trivial) _ _) fun s'' newMeta => ?_
      exact Single.before (ZkStorage.method_allOrNothing s'') fun _ => Prog.within_pure trivial

/-- The three operations that make one change are done or not done, wherever they stop. -/
theorem stopped_all_or_nothing (hash : String → Nat) (replicasPerTopic : Int) (s : ZkMetastore)
    (op : MetastoreOp) (single : ∀ nodeId, op ≠ .deregisterBroker nodeId) (n : Nat) :
    ((op.zkProgram replicasPerTopic).stopped (ZkMetastore.handle hash) n s).znodes = s.znodes ∨
      ((op.zkProgram replicasPerTopic).stopped (ZkMetastore.handle hash) n s).znodes =
        (s.apply hash replicasPerTopic op).1.znodes := by
  have packed : Single hash s (op.program replicasPerTopic) := by
    cases op with
    | registerBroker nodeId host port =>
        exact (registerBroker_single nodeId host port).before fun _ => Prog.within_pure trivial
    | deregisterBroker nodeId => exact absurd rfl (single nodeId)
    | registerTopic topicName =>
        exact (registerTopic_single replicasPerTopic topicName).before fun _ =>
          Prog.within_pure trivial
    | updateTopicIsr topicName isrList =>
        exact (updateTopicIsr_single topicName isrList).before fun _ => Prog.within_pure trivial
  exact packed n

theorem stopped_all_or_nothing_registerTopic :
    let handle := ZkMetastore.handle md5Hash
    let z := (((MetastoreOp.registerTopic "t").zkProgram 3).stopped handle 2
      ZkMetastore.new).znodes
    z = ZkMetastore.new.znodes ∨
      z = (ZkMetastore.new.apply md5Hash 3 (.registerTopic "t")).1.znodes :=
  stopped_all_or_nothing md5Hash 3 ZkMetastore.new (.registerTopic "t") (fun _ h => by cases h) 2

end
end PyLogStream
