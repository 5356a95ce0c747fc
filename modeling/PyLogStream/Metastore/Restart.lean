import PyLogStream.Lib.Run
import PyLogStream.Metastore.Footprints
import PyLogStream.Metastore.Placement

/-!
The hash ring and the stored brokers across starts of controllers
(`ControllerServer.start`). The brokers are in ZooKeeper and the ring is in memory: an
operation that changes the one changes the other, but a start makes an empty ring over
whatever ZooKeeper holds. A standby has a ring of its own that no operation has touched,
so a fail-over to it is a start as well.
-/

namespace PyLogStream
open Lib

/-- ZooKeeper's `ensure_path`, below a path that is there. -/
def Znodes.ensurePath (z : Znodes) (path : String) : Znodes :=
  if (z.get? path).isSome then z else z.set path .empty

def Znodes.setup (z : Znodes) : Znodes :=
  ((z.ensurePath "/pylogstream").ensurePath brokersPath).ensurePath topicsPath

inductive ControllerEvent where
  | op (op : MetastoreOp)
  /-- Another controller starts, or the same one again, and becomes the current one. -/
  | start
  deriving DecidableEq, Repr

namespace ZkMetastore

def start (s : ZkMetastore) : ZkMetastore := ⟨s.znodes.setup, .new⟩

def serve (hash : String → Nat) (replicasPerTopic : Int) (s : ZkMetastore) :
    ControllerEvent → ZkMetastore × Unit
  | .op op => ((s.apply hash replicasPerTopic op).1, ())
  | .start => (s.start, ())

/-- The storage has a node for the broker. -/
def Registered (s : ZkMetastore) (id : String) : Prop :=
  ∃ node, s.znodes.get? (brokerPath id) = some (.node node)

/-- All broker nodes in ZooKeeper. -/
def brokerNodes (s : ZkMetastore) : List BrokerNode :=
  s.znodes.values.filterMap fun data =>
    match data with
    | .node node => some node
    | _ => none

/-- The ring has the registered brokers, and a search for replicas that comes up short
has found them all. -/
def RingMatches (hash : String → Nat) (s : ZkMetastore) : Prop :=
  (∀ id, s.ring.Holds id ↔ s.Registered id) ∧
    ∀ topic count result, s.ring.getReplicas hash topic count = .ok result →
      (result.length : Int) ≠ count → ∀ id, s.Registered id → id ∈ result

/-- No controller starts while a broker is registered, and a registration or its end
spares the other brokers a virtual node each. -/
def KeepsMatch (hash : String → Nat) (s : ZkMetastore) : ControllerEvent → Prop
  | .op (.registerBroker id _ _) | .op (.deregisterBroker id) =>
    ConsistentHashRing.Spares hash s.ring id
  | .op (.registerTopic _) | .op (.updateTopicIsr _ _) => True
  | .start => s.brokerNodes = []

instance (hash : String → Nat) (s : ZkMetastore) (e : ControllerEvent) :
    Decidable (s.KeepsMatch hash e) :=
  match e with
  | .op (.registerBroker id _ _) | .op (.deregisterBroker id) =>
    inferInstanceAs (Decidable (ConsistentHashRing.Spares hash s.ring id))
  | .op (.registerTopic _) | .op (.updateTopicIsr _ _) => isTrue trivial
  | .start => inferInstanceAs (Decidable (s.brokerNodes = []))

end ZkMetastore

theorem brokerPath_inj {a b : String} (h : brokerPath a = brokerPath b) : a = b := by
  have hchars := congrArg String.toList h
  simp only [brokerPath, String.toList_append] at hchars
  exact String.toList_injective (List.append_cancel_left hchars)

/-- The ring and the broker nodes are the same. -/
structure SameBrokers (s s' : ZkMetastore) : Prop where
  ring : s'.ring = s.ring
  nodes : ∀ id, s'.znodes.get? (brokerPath id) = s.znodes.get? (brokerPath id)

/-- The call leaves the ring and the broker nodes. -/
def KeepsBrokers : ZkMetastoreCall → Prop
  | .zk c => ∀ id, Leaves (brokerPath id) (.zk c)
  | .ring c => c.Reads

/-- The call neither adds nor removes a broker. -/
def KeepsMembers : MetastoreCall → Prop
  | .addNode _ | .removeNode _ => False
  | .ring c => c.Reads
  | _ => True

section
variable {hash : String → Nat} {s : ZkMetastore} {α : Type}

theorem SameBrokers.trans {s' s'' : ZkMetastore} (h : SameBrokers s s') (h' : SameBrokers s' s'') :
    SameBrokers s s'' :=
  ⟨h'.ring.trans h.ring, fun id => (h'.nodes id).trans (h.nodes id)⟩

theorem KeepsBrokers.handle {c : ZkMetastoreCall} (h : KeepsBrokers c) :
    SameBrokers s (s.handle hash c).1 := by
  cases c with
  | zk c => exact ⟨rfl, fun id => (h id).get?⟩
  | ring c =>
      refine ⟨?_, fun _ => rfl⟩
      cases c with
      | getNode topic | getReplicas topic count => rfl
      | addNode id | removeNode id => exact h.elim

theorem KeepsBrokers.exec {p : ZkProg α} {Q : α → Prop} (h : p.Within KeepsBrokers Q) :
    SameBrokers s (p.exec (ZkMetastore.handle hash) s).1 :=
  h.exec_keeps (fun _ _ hc same => SameBrokers.trans same hc.handle) ⟨rfl, fun _ => rfl⟩

theorem KeepsMembers.program {c : MetastoreCall} (h : KeepsMembers c) :
    (ZkStorage.program c).Within KeepsBrokers fun _ => True := by
  have reads : ∀ {d : ZkMetastoreCall}, d.writes = none → ∀ id, Leaves (brokerPath id) d :=
    fun h _ => leaves_of_reads h
  refine ZkStorage.program_within (fun _ => ⟨reads rfl, reads rfl, reads rfl⟩) c ?_ ?_ ?_ ?_
  · rintro d rfl
    exact h
  · rintro node rfl
    exact h.elim
  · rintro nodeId rfl
    exact h.elim
  · intro t _
    have hne : ∀ id, some (topicPath t.topic) ≠ some (brokerPath id) :=
      fun id heq => brokerPath_ne_topicPath id t.topic (Option.some.inj heq).symm
    exact ⟨hne, hne⟩

theorem KeepsMembers.exec {p : MetastoreProg MetastoreError α} {Q : α → Prop}
    (h : p.Within KeepsMembers Q) :
    SameBrokers s ((p.translate ZkStorage.program).exec (ZkMetastore.handle hash) s).1 :=
  KeepsBrokers.exec (h.translate fun _ hc => hc.program)

/-- A registration is refused by ZooKeeper, or takes effect in both places. -/
theorem registerBroker_effect (id host : String) (port replicasPerTopic : Int) :
    let s' := (s.apply hash replicasPerTopic (.registerBroker id host port)).1
    s' = s ∨ s' = ⟨s.znodes.set (brokerPath id) (.node ⟨id, host, port⟩), s.ring.addNode hash id⟩ := by
  cases hfound : (s.znodes.get? (brokerPath id)).isSome <;>
    cases hparent : (s.znodes.get? (parentPath (brokerPath id))).isSome <;>
    simp [ZkMetastore.apply, MetastoreOp.program, Metastore.registerBroker, Storage.addNode,
      Ring.addNode, Prog.perform, bind, Prog.bind, Prog.translate, pure, ZkStorage.program,
      ZkStorage.addNode, ZkClient.create, ZkClient.set, Prog.exec, ZkMetastore.handle,
      Znodes.handle, hfound, hparent, ConsistentHashRing.handle, Except.mapError]

theorem Znodes.delete_cases (z : Znodes) (path : String) :
    (∃ err, z.handle (.delete path) = (z, .error err)) ∨
      ∃ z', z.handle (.delete path) = (z', .ok ()) ∧
        ∀ p, z'.get? p = if p = path then none else z.get? p := by
  simp only [Znodes.handle]
  split
  · split
    · exact Or.inr ⟨_, rfl, fun p => Dict.get?_erase z path p⟩
    · exact Or.inl ⟨_, rfl⟩
  · next habsent =>
      refine Or.inr ⟨z, rfl, fun p => ?_⟩
      split
      · next heq => simpa [heq] using habsent
      · rfl

theorem getNode_state (id : String) :
    ((ZkStorage.getNode id).exec (ZkMetastore.handle hash) s).1 = s := by
  refine Prog.exec_bind_state (· = s) rfl fun s' data h => ?_
  cases h
  split <;> rfl

/-- The storage refuses, or the broker's node is gone. -/
theorem removeNode_cases (id : String) :
    (∃ err, (ZkStorage.removeNode id).exec (ZkMetastore.handle hash) s = (s, .error err)) ∨
      ∃ z node, (ZkStorage.removeNode id).exec (ZkMetastore.handle hash) s =
          (⟨z, s.ring⟩, .ok node) ∧
        ∀ p, z.get? p = if p = brokerPath id then none else s.znodes.get? p := by
  have hstate : ((ZkStorage.getNode id).exec (ZkMetastore.handle hash) s).1 = s := getNode_state id
  rw [ZkStorage.removeNode, Prog.exec_bind]
  cases hget : (ZkStorage.getNode id).exec (ZkMetastore.handle hash) s with
  | mk s₁ found =>
      rw [hget] at hstate
      obtain rfl : s₁ = s := hstate
      cases found with
      | error err => exact Or.inl ⟨err, rfl⟩
      | ok existing =>
          simp only [ZkClient.delete, Prog.perform, bind, Prog.bind, Prog.exec, ZkMetastore.handle]
          cases Znodes.delete_cases s₁.znodes (brokerPath id) with
          | inl hrefused =>
              obtain ⟨err, herr⟩ := hrefused
              exact Or.inl ⟨err, by rw [herr]⟩
          | inr hdeleted =>
              obtain ⟨z, hz, hnodes⟩ := hdeleted
              exact Or.inr ⟨z, existing, by rw [hz]; rfl, hnodes⟩

/-- The broker is in neither place, and the others are where they were. -/
structure Without (hash : String → Nat) (id : String) (s s' : ZkMetastore) : Prop where
  ring : s'.ring = s.ring.removeNode hash id
  nodes : ∀ other, s'.znodes.get? (brokerPath other) =
    if other = id then none else s.znodes.get? (brokerPath other)

/-- The broker leaves both places unless ZooKeeper refuses; the topics come afterwards. -/
theorem deregisterBroker_effect (id : String) (replicasPerTopic : Int) :
    let s' := (s.apply hash replicasPerTopic (.deregisterBroker id)).1
    s' = s ∨ Without hash id s s' := by
  have hstate : (s.apply hash replicasPerTopic (.deregisterBroker id)).1 =
      (((Metastore.deregisterBroker replicasPerTopic id).translate ZkStorage.program).exec
        (ZkMetastore.handle hash) s).1 := by
    rw [ZkMetastore.apply, MetastoreOp.program, Prog.translate_bind]
    exact Prog.exec_map_state s _ MetastoreAnswer.updatedTopics
  rw [hstate, Metastore.deregisterBroker, Prog.translate_bind, Storage.removeNode,
    Prog.translate_perform]
  cases removeNode_cases id with
  | inl hrefused =>
      obtain ⟨err, herr⟩ := hrefused
      left
      rw [Prog.exec_bind, show Prog.exec _ s (ZkStorage.program _) = _ from herr]
  | inr hremoved =>
      obtain ⟨z, node, hz, hnodes⟩ := hremoved
      right
      rw [Prog.exec_bind_ok (show Prog.exec _ s (ZkStorage.program _) = _ from hz)]
      let rest : MetastoreProg MetastoreError (List TopicMetadata) := do
        let allTopics ← Storage.getAllTopics
        let allNodes ← Storage.getAllNodes
        Metastore.deregisterTopics replicasPerTopic (allNodes.map BrokerNode.nodeId) id allTopics
      have hwithin : rest.Within KeepsMembers fun _ => True :=
        ⟨trivial, fun allTopics => ⟨trivial, fun allNodes =>
          deregisterTopics_within replicasPerTopic _ id (fun _ => trivial) (fun _ _ => trivial)
            fun _ _ _ _ _ => trivial⟩⟩
      have same : SameBrokers ⟨z, s.ring.removeNode hash id⟩
          ((rest.translate ZkStorage.program).exec (ZkMetastore.handle hash)
            ⟨z, s.ring.removeNode hash id⟩).1 := KeepsMembers.exec hwithin
      refine ⟨same.ring, fun other => (same.nodes other).trans ((hnodes _).trans ?_)⟩
      by_cases heq : other = id
      · rw [if_pos (congrArg brokerPath heq), if_pos heq]
      · rw [if_neg fun h => heq (brokerPath_inj h), if_neg heq]

/-- The other operations neither add nor remove brokers. -/
theorem topicOp_same {op : MetastoreOp} (replicasPerTopic : Int)
    (h : (op.program replicasPerTopic : MetastoreProg MetastoreError MetastoreAnswer).Within
      KeepsMembers fun _ => True) : SameBrokers s (s.apply hash replicasPerTopic op).1 :=
  KeepsMembers.exec h

theorem ensurePath_nodes (z : Znodes) {path : String} (h : ∀ id, brokerPath id ≠ path)
    (id : String) : (z.ensurePath path).get? (brokerPath id) = z.get? (brokerPath id) := by
  simp only [Znodes.ensurePath]
  split
  · rfl
  · exact Dict.get?_set_of_ne z _ (h id)

theorem setup_nodes (z : Znodes) (id : String) :
    z.setup.get? (brokerPath id) = z.get? (brokerPath id) := by
  simp only [Znodes.setup]
  rw [ensurePath_nodes _ ?_ id, ensurePath_nodes _ ?_ id, ensurePath_nodes _ ?_ id]
  all_goals
    intro id h
    have hchars := congrArg String.toList h
    simp [brokerPath, brokersPath, topicsPath] at hchars

/-- The ring is well formed and has exactly the registered brokers. -/
structure Matched (hash : String → Nat) (s : ZkMetastore) : Prop where
  owned : ConsistentHashRing.Owned hash s.ring
  virtual : 0 < s.ring.replicas
  members : ∀ id, s.ring.Holds id ↔ s.Registered id

theorem Matched.ringMatches (ok : Matched hash s) : s.RingMatches hash :=
  ⟨ok.members, fun _ _ _ hsearch few id hid =>
    ok.owned.getReplicas_covers hsearch few ((ok.members id).mpr hid)⟩

theorem Matched.same (ok : Matched hash s) {s' : ZkMetastore} (same : SameBrokers s s') :
    Matched hash s' := by
  refine ⟨same.ring ▸ ok.owned, same.ring ▸ ok.virtual, fun id => ?_⟩
  rw [same.ring, ok.members, ZkMetastore.Registered, ZkMetastore.Registered, same.nodes]

theorem Matched.registerBroker (ok : Matched hash s) {id : String} (node : BrokerNode)
    (spares : ConsistentHashRing.Spares hash s.ring id) :
    Matched hash ⟨s.znodes.set (brokerPath id) (.node node), s.ring.addNode hash id⟩ := by
  have hrep : (s.ring.addNode hash id).replicas = s.ring.replicas :=
    (ConsistentHashRing.addKeys_replicas id _).trans (ConsistentHashRing.removeKeys_replicas _)
  refine ⟨ok.owned.addNode id, hrep ▸ ok.virtual, fun other => ?_⟩
  rw [spares.addNode_holds ok.virtual, ok.members]
  simp only [ZkMetastore.Registered, Dict.get?_set]
  by_cases heq : other = id
  · simp [heq]
  · have hpath : brokerPath other ≠ brokerPath id := fun h => heq (brokerPath_inj h)
    simp [heq, hpath]

theorem Matched.without (ok : Matched hash s) {id : String} {s' : ZkMetastore}
    (spares : ConsistentHashRing.Spares hash s.ring id) (h : Without hash id s s') :
    Matched hash s' := by
  have hrep : (s.ring.removeNode hash id).replicas = s.ring.replicas :=
    ConsistentHashRing.removeKeys_replicas _
  refine ⟨h.ring ▸ ok.owned.removeNode id, h.ring ▸ hrep ▸ ok.virtual, fun other => ?_⟩
  rw [h.ring, ok.owned.removeNode_holds spares, ok.members, ZkMetastore.Registered,
    ZkMetastore.Registered, h.nodes]
  by_cases heq : other = id <;> simp [heq]

theorem Matched.start (hash : String → Nat) (empty : s.brokerNodes = []) :
    Matched hash s.start := by
  refine ⟨ConsistentHashRing.owned_new hash, (by decide : 0 < 50),
    fun id => iff_of_false (ConsistentHashRing.not_holds_new id) ?_⟩
  rintro ⟨node, hnode⟩
  have hget : s.znodes.get? (brokerPath id) = some (.node node) :=
    (setup_nodes s.znodes id).symm.trans hnode
  have hmem : node ∈ s.brokerNodes :=
    List.mem_filterMap.mpr ⟨.node node, (Dict.mem_values_iff _ _).mpr ⟨_, hget⟩, rfl⟩
  rw [empty] at hmem
  exact absurd hmem List.not_mem_nil

theorem Matched.step (ok : Matched hash s) (replicasPerTopic : Int) {e : ControllerEvent}
    (h : s.KeepsMatch hash e) : Matched hash (s.serve hash replicasPerTopic e).1 := by
  cases e with
  | start => exact Matched.start hash h
  | op op =>
      cases op with
      | registerBroker id host port =>
          have heffect : (s.apply hash replicasPerTopic (.registerBroker id host port)).1 = s ∨ _ :=
            registerBroker_effect id host port replicasPerTopic
          simp only [ZkMetastore.serve]
          cases heffect with
          | inl hsame =>
              rw [hsame]
              exact ok
          | inr hadded =>
              rw [hadded]
              exact ok.registerBroker _ h
      | deregisterBroker id =>
          have heffect : (s.apply hash replicasPerTopic (.deregisterBroker id)).1 = s ∨ _ :=
            deregisterBroker_effect id replicasPerTopic
          simp only [ZkMetastore.serve]
          cases heffect with
          | inl hsame =>
              rw [hsame]
              exact ok
          | inr hwithout => exact ok.without h hwithout
      | registerTopic topicName =>
          refine ok.same (topicOp_same replicasPerTopic ?_)
          exact Prog.Within.bind (registerTopic_within replicasPerTopic (fun _ _ => trivial)
            (fun _ => trivial) (fun _ => trivial) topicName) fun _ _ => trivial
      | updateTopicIsr topicName isrList =>
          refine ok.same (topicOp_same replicasPerTopic ?_)
          exact Prog.Within.bind (updateTopicIsr_within (fun _ => trivial) (fun _ => trivial)
            (fun _ => trivial) topicName isrList) fun _ _ => trivial

theorem matched_new (hash : String → Nat) : Matched hash ZkMetastore.new :=
  Matched.start (s := ⟨Dict.empty, .new⟩) hash rfl

end

/-- In every run in which no controller starts over registered brokers, the ring has the
registered brokers. -/
theorem ring_matches_brokers (hash : String → Nat) (replicasPerTopic : Int)
    (events : List ControllerEvent)
    (h : MeetsAll (ZkMetastore.serve hash replicasPerTopic) (ZkMetastore.KeepsMatch hash)
      ZkMetastore.new events) :
    (run (ZkMetastore.serve hash replicasPerTopic) ZkMetastore.new events).RingMatches hash :=
  (h.invariant (Matched hash) (fun _ _ ok meets => ok.step replicasPerTopic meets)
    (matched_new hash)).ringMatches

/-- A controller starts when the only broker has gone, and the broker registers again. -/
def startsEmpty : List ControllerEvent :=
  [.op (.registerBroker "b1" "h1" 1), .op (.deregisterBroker "b1"), .start,
    .op (.registerBroker "b1" "h1" 1), .op (.registerTopic "events")]

theorem ring_matches_brokers_startsEmpty :
    let s := run (ZkMetastore.serve ConsistentHashRing.md5Hash 3) ZkMetastore.new startsEmpty
    s.ring.Holds "b1" ∧ s.RingMatches ConsistentHashRing.md5Hash := by
  have h : MeetsAll (ZkMetastore.serve ConsistentHashRing.md5Hash 3)
        (ZkMetastore.KeepsMatch ConsistentHashRing.md5Hash) ZkMetastore.new startsEmpty ∧
      "b1" ∈ (run (ZkMetastore.serve ConsistentHashRing.md5Hash 3) ZkMetastore.new
        startsEmpty).ring.ring.values := by decide +kernel
  exact ⟨ConsistentHashRing.Holds.mem_values.mpr h.2,
    ring_matches_brokers ConsistentHashRing.md5Hash 3 startsEmpty h.1⟩

/-- A fail-over while a broker is registered: it is stored, and the ring is empty. -/
theorem start_forgets_brokers :
    ¬ (run (ZkMetastore.serve ConsistentHashRing.md5Hash 3) ZkMetastore.new
      [.op (.registerBroker "b1" "h1" 1), .start]).RingMatches ConsistentHashRing.md5Hash := by
  intro h
  have hstored : (run (ZkMetastore.serve ConsistentHashRing.md5Hash 3) ZkMetastore.new
      [.op (.registerBroker "b1" "h1" 1), .start]).znodes.get? (brokerPath "b1") =
        some (.node ⟨"b1", "h1", 1⟩) := by decide +kernel
  obtain ⟨key, hkey⟩ := (h.1 "b1").mpr ⟨_, hstored⟩
  cases hkey

end PyLogStream
