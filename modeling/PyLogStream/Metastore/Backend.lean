import PyLogStream.Metastore.Collisions
import PyLogStream.Metastore.Objects
import PyLogStream.Metastore.Replacement
import PyLogStream.Metastore.Topics

/-!
What the manager relies on of a storage. A storage is seen as two maps and a ring. It
may hand out the stored object of a topic or a copy; either way an assignment to the
object changes no other topic, and once the object is written back the topic is what the
object holds. Over any such storage every operation does the same to the two maps and
returns the same, except for the order of lists.
-/

namespace PyLogStream
open Lib ConsistentHashRing

/-- What is seen of a storage and its objects. -/
structure StorageView (σ : Type) where
  objects : σ → Objects TopicMetadata
  ring : σ → ConsistentHashRing
  node : σ → String → Option BrokerNode
  topic : σ → String → Option TopicMetadata
  Ok : σ → Prop
  /-- An assignment to the object changes no stored topic but this one. -/
  Edits : σ → Nat → String → Prop

/-- A broker id or topic name that is a part of a path of its own. -/
def PathName (name : String) : Prop := name ≠ "" ∧ '/' ∉ name.toList

instance (name : String) : Decidable (PathName name) := inferInstanceAs (Decidable (_ ∧ _))

/-- A list of the topics of a map, each once. -/
structure Listing (topics : List TopicMetadata) (topic : String → Option TopicMetadata) : Prop where
  nodup : (topics.map TopicMetadata.topic).Nodup
  mem : ∀ t, t ∈ topics ↔ topic t.topic = some t

namespace StorageView
variable {σ : Type} (v : StorageView σ)

/-- A new state that differs at most by new objects. -/
structure Extends (s s' : σ) : Prop where
  ok : v.Ok s'
  ring : v.ring s' = v.ring s
  node : v.node s' = v.node s
  topic : v.topic s' = v.topic s
  objects : (v.objects s).Grows (v.objects s')
  edits : ∀ ref < (v.objects s).next, ∀ name, v.Edits s ref name → v.Edits s' ref name

/-- An object has a new value, of which the stored topic of that name may know. -/
structure Wrote (ref : Nat) (name : String) (t : TopicMetadata) (s s' : σ) : Prop where
  ok : v.Ok s'
  ring : v.ring s' = v.ring s
  node : v.node s' = v.node s
  objects : v.objects s' = (v.objects s).write ref t
  others : ∀ other, other ≠ name → v.topic s' other = v.topic s other
  present : (v.topic s' name).isSome = (v.topic s name).isSome
  edits : ∀ r other, v.Edits s r other → v.Edits s' r other

/-- An object has a new value, and that is the stored topic of its name. -/
structure Stored (ref : Nat) (t : TopicMetadata) (s s' : σ) : Prop where
  ok : v.Ok s'
  ring : v.ring s' = v.ring s
  node : v.node s' = v.node s
  objects : v.objects s' = (v.objects s).write ref t
  topic : ∀ name, v.topic s' name = if name = t.topic then some t else v.topic s name
  edits : ∀ r, r ≠ ref → ∀ name, v.Edits s r name → v.Edits s' r name

/-- Only the brokers, or only the ring, are different. -/
structure Changed (ring : ConsistentHashRing) (node : String → Option BrokerNode) (s s' : σ) :
    Prop where
  ok : v.Ok s'
  ring : v.ring s' = ring
  node : v.node s' = node
  topic : v.topic s' = v.topic s

def Named (s : σ) : Prop := ∀ name t, v.topic s name = some t → t.topic = name

/-- The calls do what the manager relies on. -/
structure Lawful (hash : String → Nat)
    (handle : σ → (c : ObjectCall) → σ × Except MetastoreError c.Answer) : Prop where
  create : ∀ s t, v.Ok s → ∃ s', handle s (.create t) = (s', .ok (v.objects s).next) ∧
    v.Extends s s' ∧ (v.objects s).next < (v.objects s').next ∧
      (v.objects s').value (v.objects s).next = t ∧ ∀ name, v.Edits s' (v.objects s).next name
  read : ∀ s ref, handle s (.read ref) = (s, .ok ((v.objects s).value ref))
  write : ∀ s ref name t, v.Ok s → v.Edits s ref name →
    ∃ s', handle s (.write ref t) = (s', .ok ()) ∧ v.Wrote ref name t s s'
  addNode : ∀ s node, v.Ok s → PathName node.nodeId →
    ∃ s', handle s (.addNode node) = (s', .ok ()) ∧
      v.Changed (v.ring s) (Function.update (v.node s) node.nodeId (some node)) s s'
  removeNode : ∀ s nodeId, v.Ok s →
    ∃ s', handle s (.removeNode nodeId) = (s', .ok (v.node s nodeId)) ∧
      v.Changed (v.ring s) (Function.update (v.node s) nodeId none) s s'
  getNode : ∀ s nodeId, v.Ok s → handle s (.getNode nodeId) = (s, .ok (v.node s nodeId))
  getAllNodes : ∀ s, v.Ok s → ∃ nodes, handle s .getAllNodes = (s, .ok nodes) ∧
    (nodes = [] ↔ ∀ nodeId, v.node s nodeId = none)
  addTopic : ∀ s ref, v.Ok s → ref < (v.objects s).next →
    PathName ((v.objects s).value ref).topic → v.topic s ((v.objects s).value ref).topic = none →
    v.Edits s ref ((v.objects s).value ref).topic →
    ∃ s', handle s (.addTopic ref) = (s', .ok ()) ∧ v.Stored ref ((v.objects s).value ref) s s'
  updateTopic : ∀ s ref, v.Ok s → ref < (v.objects s).next →
    (v.topic s ((v.objects s).value ref).topic).isSome = true →
    v.Edits s ref ((v.objects s).value ref).topic →
    ∃ s', handle s (.updateTopic ref) = (s', .ok ()) ∧ v.Stored ref ((v.objects s).value ref) s s'
  getTopic_none : ∀ s name, v.Ok s → v.topic s name = none →
    handle s (.getTopic name) = (s, .ok none)
  getTopic_some : ∀ s name t, v.Ok s → v.topic s name = some t →
    ∃ s' ref, handle s (.getTopic name) = (s', .ok (some ref)) ∧ v.Extends s s' ∧
      ref < (v.objects s').next ∧ (v.objects s').value ref = t ∧ v.Edits s' ref name
  getAllTopics : ∀ s, v.Ok s → v.Named s →
    ∃ s' refs, handle s .getAllTopics = (s', .ok refs) ∧ v.Extends s s' ∧ refs.Nodup ∧
      Listing (refs.map (v.objects s').value) (v.topic s) ∧
      ∀ ref ∈ refs, ref < (v.objects s').next ∧ v.Edits s' ref ((v.objects s').value ref).topic
  ringChange : ∀ s c ring r, v.Ok s → (v.ring s).handle hash c = (ring, .ok r) →
    ∃ s', handle s (.ring c) = (s', .ok r) ∧ v.Changed ring (v.node s) s s'
  ringAsk : ∀ s c r, v.Ok s → (v.ring s).handle hash c = (v.ring s, .ok r) →
    handle s (.ring c) = (s, .ok r)

variable {v} {s s₁ s₂ : σ} {ref : Nat} {name : String} {t t' : TopicMetadata}

theorem Wrote.trans (first : v.Wrote ref name t s s₁) (second : v.Wrote ref name t' s₁ s₂) :
    v.Wrote ref name t' s s₂ := by
  refine ⟨second.ok, second.ring.trans first.ring, second.node.trans first.node, ?_, ?_, ?_, ?_⟩
  · rw [second.objects, first.objects, Objects.write_write]
  · exact fun other hne => (second.others other hne).trans (first.others other hne)
  · exact second.present.trans first.present
  · exact fun r other h => second.edits r other (first.edits r other h)

theorem Wrote.value (wrote : v.Wrote ref name t s s₁) : (v.objects s₁).value ref = t := by
  rw [wrote.objects, Objects.write_value_self]

theorem Wrote.refl (ok : v.Ok s) (h : (v.objects s).value ref = t) : v.Wrote ref name t s s :=
  ⟨ok, rfl, rfl, (Objects.write_self h).symm, fun _ _ => rfl, rfl, fun _ _ h => h⟩

theorem Wrote.stored (wrote : v.Wrote ref t.topic t s s₁) (stored : v.Stored ref t s₁ s₂) :
    v.Stored ref t s s₂ := by
  refine ⟨stored.ok, stored.ring.trans wrote.ring, stored.node.trans wrote.node, ?_, ?_, ?_⟩
  · rw [stored.objects, wrote.objects, Objects.write_write]
  · intro other
    rw [stored.topic]
    by_cases hname : other = t.topic
    · rw [if_pos hname, if_pos hname]
    · rw [if_neg hname, if_neg hname, wrote.others other hname]
  · exact fun r hne other h => stored.edits r hne other (wrote.edits r other h)

/-- What the loop of `deregister_broker` leaves: the topics to do are changed, in their
objects and in the storage, and the others are the same. -/
structure LoopDone (v : StorageView σ) (f : TopicMetadata → TopicMetadata) (todo : List Nat)
    (s s' : σ) : Prop where
  ok : v.Ok s'
  ring : v.ring s' = v.ring s
  node : v.node s' = v.node s
  next : (v.objects s').next = (v.objects s).next
  done : ∀ ref ∈ todo, (v.objects s').value ref = f ((v.objects s).value ref) ∧
    v.topic s' ((v.objects s).value ref).topic = some (f ((v.objects s).value ref))
  kept : ∀ ref, ref ∉ todo → (v.objects s').value ref = (v.objects s).value ref
  others : ∀ name, (∀ ref ∈ todo, ((v.objects s).value ref).topic ≠ name) →
    v.topic s' name = v.topic s name
  edits : ∀ ref, ref ∉ todo → ∀ name, v.Edits s ref name → v.Edits s' ref name

theorem LoopDone.cons {f : TopicMetadata → TopicMetadata} {rest : List Nat}
    (first : v.LoopDone f [ref] s s₁) (loop : v.LoopDone f rest s₁ s₂) (fresh : ref ∉ rest)
    (names : ∀ r ∈ rest, ((v.objects s).value ref).topic ≠ ((v.objects s).value r).topic)
    (same : ∀ r ∈ rest, (v.objects s₁).value r = (v.objects s).value r) :
    v.LoopDone f (ref :: rest) s s₂ := by
  obtain ⟨hvalue, htopic⟩ := first.done ref (List.mem_singleton_self ref)
  refine ⟨loop.ok, loop.ring.trans first.ring, loop.node.trans first.node,
    loop.next.trans first.next, fun r hr => ?_, fun r hr => ?_, fun name hname => ?_,
    fun r hr name h => ?_⟩
  · rcases List.mem_cons.mp hr with rfl | hrest
    · rw [loop.kept r fresh, loop.others _ fun r' hr' => by rw [same r' hr']; exact (names r' hr').symm]
      exact ⟨hvalue, htopic⟩
    · have hdone := loop.done r hrest
      rw [same r hrest] at hdone
      exact hdone
  · rw [List.mem_cons, not_or] at hr
    obtain ⟨hne, hrest⟩ := hr
    rw [loop.kept r hrest, first.kept r (by simpa using hne)]
  · rw [loop.others name fun r hr => by rw [same r hr]; exact hname r (List.mem_cons_of_mem _ hr),
      first.others name fun r hr => List.mem_singleton.mp hr ▸ hname ref List.mem_cons_self]
  · rw [List.mem_cons, not_or] at hr
    obtain ⟨hne, hrest⟩ := hr
    exact loop.edits r hrest name (first.edits r (by simpa using hne) name h)

end StorageView

/-- What the lookups of a ring answer where they do not raise. -/
def ConsistentHashRing.nodeOf (hash : String → Nat) (r : ConsistentHashRing) (topic : String) :
    Option String := (r.getNode hash topic).toOption.getD none

def ConsistentHashRing.replicasOf (hash : String → Nat) (r : ConsistentHashRing) (topic : String)
    (count : Int) : List String := (r.getReplicas hash topic count).toOption.getD []

/-- What an operation writes for a topic's leader, if the ring answers `node`. -/
def TopicMetadata.elected (t : TopicMetadata) (node : Option String) : TopicMetadata :=
  { t with leaderId := ((t.isrList.head?.or t.replicaList.head?).or node).getD "" }

/-- A topic that the broker no longer leads. -/
def TopicMetadata.relieved (node : Option String) (nodeId : String) (t : TopicMetadata) :
    TopicMetadata :=
  if t.leaderId = nodeId then ({ t with isrList := t.isrWithout nodeId }).elected node else t

/-- A topic in which the broker is replaced, by the answers of the ring. -/
def TopicMetadata.rehomed (hash : String → Nat) (ring : ConsistentHashRing)
    (replicasPerTopic : Int) (anyNode : Bool) (nodeId : String) (t : TopicMetadata) :
    TopicMetadata :=
  ({ t with
    replicaList := t.replaced replicasPerTopic nodeId anyNode
      (ring.replicasOf hash t.topic replicasPerTopic) }).relieved (ring.nodeOf hash t.topic) nodeId

theorem relieved_topic (node : Option String) (nodeId : String) (t : TopicMetadata) :
    (t.relieved node nodeId).topic = t.topic := by
  unfold TopicMetadata.relieved
  split <;> rfl

def TopicMetadata.Involves (t : TopicMetadata) (nodeId : String) : Prop :=
  nodeId ∈ t.replicaList ∨ t.leaderId = nodeId

instance (t : TopicMetadata) (nodeId : String) : Decidable (t.Involves nodeId) :=
  inferInstanceAs (Decidable (_ ∨ _))

def TopicMetadata.bumped (t : TopicMetadata) : TopicMetadata := { t with version := t.version + 1 }

namespace ConsistentHashRing

/-- No lookup raises. -/
structure Answering (hash : String → Nat) (r : ConsistentHashRing) : Prop where
  getNode : ∀ topic, ∃ node, r.getNode hash topic = .ok node
  getReplicas : ∀ topic count, ∃ nodes, r.getReplicas hash topic count = .ok nodes

/-- Every sorted key has a node, or there are no nodes at all. -/
def NoneDangling (r : ConsistentHashRing) : Prop :=
  r.ring.items = [] ∨ ∀ key ∈ r.sortedKeys, (r.ring.get? key).isSome = true

instance (r : ConsistentHashRing) : Decidable r.NoneDangling := inferInstanceAs (Decidable (_ ∨ _))

/-- Every key of the ring is among the sorted ones. -/
def Kept (r : ConsistentHashRing) : Prop :=
  ∀ key node, r.ring.get? key = some node → key ∈ r.sortedKeys

section
variable {hash : String → Nat} {r : ConsistentHashRing}

theorem Answering.handle_getNode (answering : Answering hash r) (topic : String) :
    r.handle hash (.getNode topic) = (r, .ok (r.nodeOf hash topic)) := by
  obtain ⟨node, hnode⟩ := answering.getNode topic
  simp only [ConsistentHashRing.handle, nodeOf, hnode]
  rfl

theorem Answering.handle_getReplicas (answering : Answering hash r) (topic : String)
    (count : Int) : r.handle hash (.getReplicas topic count) =
      (r, .ok (r.replicasOf hash topic count)) := by
  obtain ⟨nodes, hnodes⟩ := answering.getReplicas topic count
  simp only [ConsistentHashRing.handle, replicasOf, hnodes]
  rfl

theorem nodeAt_ok (h : ∀ key ∈ r.sortedKeys, (r.ring.get? key).isSome = true) {idx : Nat}
    (hidx : idx < r.sortedKeys.length) : ∃ node, r.nodeAt idx = .ok node := by
  obtain ⟨node, hnode⟩ := Option.isSome_iff_exists.mp (h _ (List.getElem_mem hidx))
  exact ⟨node, by simp only [ConsistentHashRing.nodeAt, List.getElem?_eq_getElem hidx, hnode]⟩

theorem NoneDangling.answering (h : r.NoneDangling) (kept : r.Kept) (hash : String → Nat) :
    Answering hash r := by
  rcases h with hempty | hall
  · refine ⟨fun topic => ⟨none, ?_⟩, fun topic count => ⟨[], ?_⟩⟩
    · rw [ConsistentHashRing.getNode, if_pos hempty]
    · rw [ConsistentHashRing.getReplicas, if_pos hempty]
  · refine ⟨fun topic => ?_, fun topic count => ?_⟩
    · rw [ConsistentHashRing.getNode]
      by_cases hempty : r.ring.items = []
      · exact ⟨none, if_pos hempty⟩
      · obtain ⟨item, hitem⟩ := List.exists_mem_of_ne_nil _ hempty
        have hpos := List.length_pos_of_mem
          (kept item.1 item.2 ((Dict.get?_eq_some_iff _ _ _).mpr hitem))
        have hle : bisectRight r.sortedKeys (hash topic) ≤ r.sortedKeys.length := bisectRight_le
        have hidx : (if bisectRight r.sortedKeys (hash topic) = r.sortedKeys.length then 0
            else bisectRight r.sortedKeys (hash topic)) < r.sortedKeys.length := by
          split <;> omega
        obtain ⟨node, hnode⟩ := nodeAt_ok hall hidx
        refine ⟨some node, ?_⟩
        simp only [if_neg hempty, hnode]
        rfl
    · rw [ConsistentHashRing.getReplicas]
      by_cases hempty : r.ring.items = []
      · exact ⟨[], if_pos hempty⟩
      · rw [if_neg hempty]
        refine replicasLoop_ok (fun idx hidx => ?_) []
        obtain ⟨i, hi, rfl⟩ := List.mem_map.mp hidx
        exact nodeAt_ok hall (Nat.mod_lt _ (Nat.zero_lt_of_lt (List.mem_range.mp hi)))

theorem Kept.removeKeys (kept : r.Kept) (keys : List Nat) :
    (keys.foldl ConsistentHashRing.removeKey r).Kept := by
  induction keys generalizing r with
  | nil => exact kept
  | cons key keys ih =>
      refine ih fun k node hk => ?_
      rw [removeKey_get?] at hk
      by_cases hne : k = key
      · rw [if_pos hne] at hk
        cases hk
      · rw [if_neg hne] at hk
        rw [removeKey]
        split
        · exact mem_popSorted_of_ne (kept k node hk) hne
        · exact kept k node hk

theorem Kept.addKeys (kept : r.Kept) (nodeId : String) (keys : List Nat) :
    (keys.foldl (ConsistentHashRing.addKey nodeId) r).Kept := by
  induction keys generalizing r with
  | nil => exact kept
  | cons key keys ih =>
      refine ih fun k node hk => mem_insort.mpr ?_
      by_cases hne : k = key
      · exact Or.inl hne
      · exact Or.inr (kept k node ((Dict.get?_set_of_ne _ _ hne).symm.trans hk))

end
end ConsistentHashRing

/-- What a deregistration makes of a topic. -/
def TopicMetadata.deregistered (hash : String → Nat) (ring : ConsistentHashRing)
    (replicasPerTopic : Int) (anyNode : Bool) (nodeId : String) (t : TopicMetadata) :
    TopicMetadata :=
  if t.Involves nodeId then (t.rehomed hash ring replicasPerTopic anyNode nodeId).bumped else t

theorem deregistered_topic {hash : String → Nat} {ring : ConsistentHashRing}
    {replicasPerTopic : Int} {anyNode : Bool} {nodeId : String} (t : TopicMetadata) :
    (t.deregistered hash ring replicasPerTopic anyNode nodeId).topic = t.topic := by
  unfold TopicMetadata.deregistered
  split
  · exact relieved_topic _ _ _
  · rfl

section
variable {σ : Type} {v : StorageView σ} {hash : String → Nat}
  {handle : σ → (c : ObjectCall) → σ × Except MetastoreError c.Answer}

theorem exec_ask {s s' : σ} {c : ObjectCall} {r : c.Answer} (h : handle s c = (s', .ok r)) :
    Prog.exec handle s (ask c) = (s', .ok r) := by
  simp only [ask, Prog.perform, Prog.exec, h]

theorem exec_ask_bind {α : Type} {s s' : σ} {c : ObjectCall} {r : c.Answer}
    (h : handle s c = (s', .ok r)) (f : c.Answer → ObjectProg α) :
    Prog.exec handle s (ask c >>= f) = Prog.exec handle s' (f r) :=
  Prog.exec_bind_ok (exec_ask h) f

namespace StorageView.Lawful
variable (laws : v.Lawful hash handle) {s s₀ : σ} {ref : Nat} {name : String} {t : TopicMetadata}

include laws in
theorem electLeader (ok : v.Ok s) (answering : Answering hash (v.ring s))
    (h : (v.objects s).value ref = t) :
    Prog.exec handle s (ObjectManager.electLeader ref) =
      (s, .ok (t.elected ((v.ring s).nodeOf hash t.topic)).leaderId) := by
  rw [ObjectManager.electLeader, exec_ask_bind (laws.read s ref), h]
  cases t with
  | mk topic leaderId replicaList isrList version =>
      cases isrList with
      | cons leader rest => rfl
      | nil =>
          cases replicaList with
          | cons leader rest => rfl
          | nil =>
              have hcall := laws.ringAsk s (.getNode topic) _ ok (answering.handle_getNode topic)
              exact (exec_ask_bind hcall _).trans rfl

include laws in
theorem reelect (wrote : v.Wrote ref name t s₀ s) (edits : v.Edits s ref name)
    (answering : Answering hash (v.ring s)) :
    ∃ s', Prog.exec handle s (ObjectManager.reelect ref) = (s', .ok ()) ∧
      v.Wrote ref name (t.elected ((v.ring s).nodeOf hash t.topic)) s₀ s' := by
  have hvalue := wrote.value
  obtain ⟨s', hwrite, hwrote⟩ :=
    laws.write s ref name (t.elected ((v.ring s).nodeOf hash t.topic)) wrote.ok edits
  refine ⟨s', ?_, wrote.trans hwrote⟩
  rw [ObjectManager.reelect, Prog.exec_bind_ok (laws.electLeader wrote.ok answering hvalue),
    exec_ask_bind (laws.read s ref), hvalue]
  exact exec_ask hwrite

include laws in
theorem store (wrote : v.Wrote ref name t s₀ s) (hname : t.topic = name) (edits : v.Edits s ref name)
    (hnext : ref < (v.objects s).next) (present : (v.topic s name).isSome = true) :
    ∃ s', Prog.exec handle s (ObjectManager.store ref) = (s', .ok ()) ∧
      v.Stored ref t.bumped s₀ s' := by
  subst hname
  have hvalue := wrote.value
  obtain ⟨s₁, hwrite, hwrote⟩ := laws.write s ref t.topic t.bumped wrote.ok edits
  have hupdate := laws.updateTopic s₁ ref hwrote.ok
  rw [hwrote.value] at hupdate
  obtain ⟨s', hstore, hstored⟩ := hupdate (by rw [hwrote.objects]; exact hnext)
    (hwrote.present.trans present) (hwrote.edits ref t.topic edits)
  refine ⟨s', ?_, (wrote.trans hwrote).stored hstored⟩
  rw [ObjectManager.store, exec_ask_bind (laws.read s ref), hvalue]
  exact (exec_ask_bind hwrite _).trans (exec_ask hstore)

section
variable (replicasPerTopic : Int) (activeNodeIds : List String) (nodeId : String)

include laws in
theorem replaceReplica (wrote : v.Wrote ref name t s₀ s) (edits : v.Edits s ref name)
    (answering : Answering hash (v.ring s)) :
    ∃ s', Prog.exec handle s
        (ObjectManager.replaceReplica replicasPerTopic activeNodeIds nodeId ref) =
          (s', .ok (decide (nodeId ∈ t.replicaList))) ∧
      v.Wrote ref name { t with
        replicaList := t.replaced replicasPerTopic nodeId (decide (activeNodeIds ≠ []))
          ((v.ring s).replicasOf hash t.topic replicasPerTopic) } s₀ s' := by
  have hvalue := wrote.value
  rw [ObjectManager.replaceReplica, exec_ask_bind (laws.read s ref), hvalue]
  unfold TopicMetadata.replaced TopicMetadata.survivors
  simp only [decide_eq_true_eq]
  by_cases hin : nodeId ∈ t.replicaList
  · rw [if_pos hin, if_pos hin, decide_eq_true hin]
    by_cases hfew : ((t.replicaList.filter fun r => decide (r ≠ nodeId)).length : Int) <
        replicasPerTopic ∧ activeNodeIds ≠ []
    · obtain ⟨s', hwrite, hwrote⟩ := laws.write s ref name { t with
        replicaList := Metastore.refill replicasPerTopic
          ((v.ring s).replicasOf hash t.topic replicasPerTopic)
          (t.replicaList.filter fun r => decide (r ≠ nodeId)) } wrote.ok edits
      have hcall := laws.ringAsk s _ _ wrote.ok
        (answering.handle_getReplicas t.topic replicasPerTopic)
      rw [if_pos hfew, if_pos hfew]
      refine ⟨s', ?_, wrote.trans hwrote⟩
      exact (exec_ask_bind hcall _).trans ((exec_ask_bind hwrite _).trans rfl)
    · obtain ⟨s', hwrite, hwrote⟩ := laws.write s ref name { t with
        replicaList := t.replicaList.filter fun r => decide (r ≠ nodeId) } wrote.ok edits
      rw [if_neg hfew, if_neg hfew]
      exact ⟨s', (exec_ask_bind hwrite _).trans rfl, wrote.trans hwrote⟩
  · rw [if_neg hin, if_neg hin, decide_eq_false hin]
    exact ⟨s, rfl, wrote⟩

include laws in
theorem replaceLeader (wrote : v.Wrote ref name t s₀ s) (edits : v.Edits s ref name)
    (answering : Answering hash (v.ring s)) :
    ∃ s', Prog.exec handle s (ObjectManager.replaceLeader nodeId ref) =
        (s', .ok (decide (t.leaderId = nodeId))) ∧
      v.Wrote ref name (t.relieved ((v.ring s).nodeOf hash t.topic) nodeId) s₀ s' := by
  have hvalue := wrote.value
  rw [ObjectManager.replaceLeader, exec_ask_bind (laws.read s ref), hvalue, TopicMetadata.relieved]
  by_cases hleader : t.leaderId = nodeId
  · rw [if_pos hleader, if_pos hleader, decide_eq_true hleader]
    obtain ⟨s₁, hwrite, hwrote⟩ := laws.write s ref name
      { t with isrList := t.isrList.filter fun r => decide (r ≠ nodeId) } wrote.ok edits
    rw [← hwrote.ring] at answering
    obtain ⟨s', helect, helected⟩ :=
      laws.reelect (wrote.trans hwrote) (hwrote.edits ref name edits) answering
    rw [hwrote.ring] at helected
    refine ⟨s', ?_, ?_⟩
    · exact (exec_ask_bind hwrite _).trans ((Prog.exec_bind_ok helect _).trans rfl)
    · rw [TopicMetadata.isrWithout, if_pos hleader]
      exact helected
  · rw [if_neg hleader, if_neg hleader, decide_eq_false hleader]
    exact ⟨s, rfl, wrote⟩

include laws in
/-- One round of the loop of `deregister_broker`, for a topic it leaves. -/
theorem deregisterTopic_idle (h : (v.objects s).value ref = t) (idle : ¬ t.Involves nodeId) :
    Prog.exec handle s (ObjectManager.deregisterTopic replicasPerTopic activeNodeIds nodeId ref) =
      (s, .ok []) := by
  obtain ⟨hin, hleader⟩ := not_or.mp idle
  have hreplace : Prog.exec handle s
      (ObjectManager.replaceReplica replicasPerTopic activeNodeIds nodeId ref) =
        (s, .ok false) := by
    rw [ObjectManager.replaceReplica, exec_ask_bind (laws.read s ref), h, if_neg hin]
    rfl
  have hlead : Prog.exec handle s (ObjectManager.replaceLeader nodeId ref) = (s, .ok false) := by
    rw [ObjectManager.replaceLeader, exec_ask_bind (laws.read s ref), h, if_neg hleader]
    rfl
  rw [ObjectManager.deregisterTopic, Prog.exec_bind_ok hreplace, Prog.exec_bind_ok hlead]
  rfl

include laws in
/-- The same for a topic of the broker. -/
theorem deregisterTopic (ok : v.Ok s) (answering : Answering hash (v.ring s))
    (h : (v.objects s).value ref = t) (edits : v.Edits s ref t.topic)
    (hnext : ref < (v.objects s).next) (present : (v.topic s t.topic).isSome = true)
    (involved : t.Involves nodeId) :
    ∃ s', Prog.exec handle s
        (ObjectManager.deregisterTopic replicasPerTopic activeNodeIds nodeId ref) =
          (s', .ok [ref]) ∧
      v.Stored ref (t.rehomed hash (v.ring s) replicasPerTopic (decide (activeNodeIds ≠ []))
        nodeId).bumped s s' := by
  obtain ⟨s₁, hreplace, hreplaced⟩ := laws.replaceReplica replicasPerTopic activeNodeIds nodeId
    (Wrote.refl ok h) edits answering
  have answering₁ : Answering hash (v.ring s₁) := hreplaced.ring ▸ answering
  obtain ⟨s₂, hlead, hled⟩ := laws.replaceLeader nodeId hreplaced
    (hreplaced.edits ref t.topic edits) answering₁
  rw [hreplaced.ring] at hled
  obtain ⟨s', hstore, hstored⟩ := laws.store hled (relieved_topic _ _ _)
    (hled.edits ref t.topic edits) (by rw [hled.objects]; exact hnext) (hled.present.trans present)
  refine ⟨s', ?_, hstored⟩
  have hneeds : decide (nodeId ∈ t.replicaList) = true ∨ decide (t.leaderId = nodeId) = true := by
    simpa [TopicMetadata.Involves] using involved
  rw [ObjectManager.deregisterTopic, Prog.exec_bind_ok hreplace, Prog.exec_bind_ok hlead,
    if_pos hneeds, Prog.exec_bind_ok hstore]
  rfl

include laws in
/-- One round, for any topic. -/
theorem deregisterTopic_round (ok : v.Ok s) (answering : Answering hash (v.ring s))
    (hnext : ref < (v.objects s).next) (edits : v.Edits s ref ((v.objects s).value ref).topic)
    (hstored : v.topic s ((v.objects s).value ref).topic = some ((v.objects s).value ref)) :
    ∃ s', Prog.exec handle s
        (ObjectManager.deregisterTopic replicasPerTopic activeNodeIds nodeId ref) =
          (s', .ok ([ref].filter fun r => decide (((v.objects s).value r).Involves nodeId))) ∧
      v.LoopDone (TopicMetadata.deregistered hash (v.ring s) replicasPerTopic
        (decide (activeNodeIds ≠ [])) nodeId) [ref] s s' := by
  by_cases involved : ((v.objects s).value ref).Involves nodeId
  · obtain ⟨s', hround, stored⟩ := laws.deregisterTopic replicasPerTopic activeNodeIds nodeId ok
      answering rfl edits hnext (by rw [hstored]; rfl) involved
    have hvalue : TopicMetadata.deregistered hash (v.ring s) replicasPerTopic
        (decide (activeNodeIds ≠ [])) nodeId ((v.objects s).value ref) = _ := if_pos involved
    rw [← hvalue] at stored
    refine ⟨s', by simpa [involved] using hround, stored.ok, stored.ring, stored.node, ?_, ?_, ?_,
      ?_, ?_⟩
    · rw [stored.objects, Objects.write_next]
    · intro r hr
      obtain rfl := List.mem_singleton.mp hr
      rw [stored.objects, Objects.write_value_self, stored.topic, deregistered_topic, if_pos rfl]
      exact ⟨rfl, rfl⟩
    · intro r hr
      rw [stored.objects, Objects.write_value_of_ne fun heq => hr (List.mem_singleton.mpr heq)]
    · intro other hother
      rw [stored.topic, deregistered_topic, if_neg (hother ref (List.mem_singleton_self ref)).symm]
    · exact fun r hr => stored.edits r fun heq => hr (List.mem_singleton.mpr heq)
  · have hvalue : TopicMetadata.deregistered hash (v.ring s) replicasPerTopic
        (decide (activeNodeIds ≠ [])) nodeId ((v.objects s).value ref) = (v.objects s).value ref :=
      if_neg involved
    refine ⟨s, by simpa [involved] using
      laws.deregisterTopic_idle replicasPerTopic activeNodeIds nodeId rfl involved, ok, rfl, rfl, rfl,
      ?_, fun _ _ => rfl, fun _ _ => rfl, fun _ _ _ h => h⟩
    intro r hr
    obtain rfl := List.mem_singleton.mp hr
    rw [hvalue]
    exact ⟨rfl, hstored⟩

include laws in
theorem deregisterTopics (ok : v.Ok s) (answering : Answering hash (v.ring s)) {todo : List Nat}
    (nodup : todo.Nodup)
    (names : (todo.map fun ref => ((v.objects s).value ref).topic).Nodup)
    (each : ∀ ref ∈ todo, ref < (v.objects s).next ∧
      v.Edits s ref ((v.objects s).value ref).topic ∧
        v.topic s ((v.objects s).value ref).topic = some ((v.objects s).value ref)) :
    ∃ s', Prog.exec handle s
        (ObjectManager.deregisterTopics replicasPerTopic activeNodeIds nodeId todo) =
          (s', .ok (todo.filter fun ref => decide (((v.objects s).value ref).Involves nodeId))) ∧
      v.LoopDone (TopicMetadata.deregistered hash (v.ring s) replicasPerTopic
        (decide (activeNodeIds ≠ [])) nodeId) todo s s' := by
  induction todo generalizing s with
  | nil =>
      exact ⟨s, rfl, ok, rfl, rfl, rfl, by simp, fun _ _ => rfl, fun _ _ => rfl, fun _ _ _ h => h⟩
  | cons ref rest ih =>
      rw [List.nodup_cons] at nodup
      rw [List.map_cons, List.nodup_cons] at names
      obtain ⟨hnext, edits, hstored⟩ := each ref List.mem_cons_self
      obtain ⟨s₁, hround, hfirst⟩ := laws.deregisterTopic_round replicasPerTopic activeNodeIds nodeId
        ok answering hnext edits hstored
      have hne : ∀ r ∈ rest, r ∉ [ref] := fun r hr heq => nodup.1 (List.mem_singleton.mp heq ▸ hr)
      have hfresh : ∀ r ∈ rest, ((v.objects s).value ref).topic ≠ ((v.objects s).value r).topic :=
        fun r hr heq => names.1 (heq ▸ List.mem_map_of_mem hr)
      have hsame : ∀ r ∈ rest, (v.objects s₁).value r = (v.objects s).value r :=
        fun r hr => hfirst.kept r (hne r hr)
      obtain ⟨s', hloop, hdone⟩ := ih hfirst.ok (hfirst.ring ▸ answering) nodup.2
        (by rw [List.map_congr_left fun r hr => congrArg TopicMetadata.topic (hsame r hr)]
            exact names.2)
        (fun r hr => by
          obtain ⟨hr₁, hr₂, hr₃⟩ := each r (List.mem_cons_of_mem ref hr)
          rw [hsame r hr, hfirst.others _ fun r' hr' => List.mem_singleton.mp hr' ▸ hfresh r hr]
          exact ⟨hfirst.next ▸ hr₁, hfirst.edits r (hne r hr) _ hr₂, hr₃⟩)
      have hfilter : rest.filter (fun r => decide (((v.objects s₁).value r).Involves nodeId)) =
          rest.filter fun r => decide (((v.objects s).value r).Involves nodeId) :=
        List.filter_congr fun r hr => by rw [hsame r hr]
      rw [hfirst.ring] at hdone
      refine ⟨s', ?_, hfirst.cons hdone nodup.1 hfresh hsame⟩
      rw [ObjectManager.deregisterTopics, Prog.exec_bind_ok hround, Prog.exec_bind_ok hloop, hfilter,
        ← List.filter_append, List.singleton_append]
      rfl

end
end StorageView.Lawful
end
end PyLogStream
