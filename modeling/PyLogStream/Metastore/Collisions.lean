import PyLogStream.Metastore.Lookups

/-!
The ring under an arbitrary hash. The dictionary keeps for each key the node that
touched it last, so it never disagrees with the history; what collisions break is the
list beside it, which takes a key twice when two virtual nodes of one node share it,
and the share of a node whose keys go with a node that is removed. Both are conditions
on the call and the ring before it, and without them the ring stays sound.
-/

namespace PyLogStream
open Lib

namespace ConsistentHashRing

section
variable {hash : String → Nat} {r : ConsistentHashRing}

theorem replicasLoop_ok {count : Int} {idxs : List Nat}
    (hat : ∀ idx ∈ idxs, ∃ node, r.nodeAt idx = .ok node) (seen : List String) :
    ∃ nodes, r.replicasLoop count idxs seen = .ok nodes := by
  induction idxs generalizing seen with
  | nil => exact ⟨seen, rfl⟩
  | cons idx rest ih =>
      rw [List.forall_mem_cons] at hat
      obtain ⟨node, hnode⟩ := hat.1
      simp only [replicasLoop, hnode]
      split
      · exact ih hat.2 seen
      · split
        · exact ⟨_, rfl⟩
        · exact ih hat.2 _

theorem KeysOk.getReplicas_ok (ok : KeysOk r) (topic : String) (count : Int) :
    ∃ nodes, r.getReplicas hash topic count = .ok nodes := by
  unfold ConsistentHashRing.getReplicas
  split
  · exact ⟨[], rfl⟩
  · refine replicasLoop_ok (fun idx hidx => ?_) []
    have hat : r.nodeAt idx ∈ ((clockwise r.sortedKeys (hash topic)).filterMap
        r.ring.get?).map .ok := ok.map_nodeAt (hash topic) ▸ List.mem_map_of_mem hidx
    obtain ⟨node, -, hnode⟩ := List.mem_map.mp hat
    exact ⟨node, hnode.symm⟩

theorem removeNode_get? (nodeId : String) (key : Nat) :
    (r.removeNode hash nodeId).ring.get? key =
      if key ∈ vnodeKeys hash r.replicas nodeId then none else r.ring.get? key :=
  removeKeys_get? _ key

theorem addNode_get? (nodeId : String) (key : Nat) :
    (r.addNode hash nodeId).ring.get? key =
      if key ∈ vnodeKeys hash r.replicas nodeId then some nodeId else r.ring.get? key := by
  rw [addNode, addKeys_get?, removeNode_get?]
  split <;> rfl

theorem addNode_replicas (nodeId : String) :
    (r.addNode hash nodeId).replicas = r.replicas := by
  rw [addNode, addKeys_replicas, removeNode, removeKeys_replicas]

theorem addKeys_sortedKeys_perm (nodeId : String) (keys : List Nat) :
    (keys.foldl (addKey nodeId) r).sortedKeys.Perm (keys ++ r.sortedKeys) := by
  induction keys generalizing r with
  | nil => exact List.Perm.refl _
  | cons key keys ih =>
      rw [List.foldl_cons, List.cons_append]
      exact ih.trans (((insort_perm r.sortedKeys key).append_left keys).trans List.perm_middle)

/-- Only the virtual nodes of the added node itself can take a key twice. -/
theorem KeysOk.addNode_iff (ok : KeysOk r) (nodeId : String) :
    KeysOk (r.addNode hash nodeId) ↔ (vnodeKeys hash r.replicas nodeId).Nodup := by
  constructor
  · intro ok'
    have hnodup := (addKeys_sortedKeys_perm nodeId _).nodup_iff.mp (ok'.sorted.imp ne_of_lt)
    exact (List.nodup_append.mp hnodup).1
  · intro nodup
    refine (ok.removeKeys _).addKeys nodeId nodup fun key hkey => ?_
    rw [removeKeys_get?, if_pos hkey]

end
end ConsistentHashRing

namespace TrackedRing
open ConsistentHashRing

/-- A member owns a key, unless all its keys are owned by other members. -/
def OwnsKey (hash : String → Nat) (s : TrackedRing) (member : String) : Prop :=
  (∃ key, s.ring.ring.get? key = some member) ∨
    ∀ key ∈ vnodeKeys hash s.ring.replicas member,
      ∃ other ∈ s.members, other ≠ member ∧ s.ring.ring.get? key = some other

/-- What a ring is for: its two parts agree, every member has its share, and no lookup
raises. -/
structure Sound (hash : String → Nat) (s : TrackedRing) : Prop where
  sorted : s.ring.sortedKeys.Pairwise (· ≤ ·)
  nodup : s.ring.sortedKeys.Nodup
  keys : ∀ key, key ∈ s.ring.sortedKeys ↔ ∃ node, s.ring.ring.get? key = some node
  share : ∀ member ∈ s.members, OwnsKey hash s member
  getNode : ∀ topic, ∃ node, s.ring.getNode hash topic = .ok node
  getReplicas : ∀ topic count, ∃ nodes, s.ring.getReplicas hash topic count = .ok nodes

/-- A member keeps a key when the keys of a node are taken away, or given to that node:
one that is not among them, or each of its keys belongs to another node afterwards. -/
def KeepsShare (hash : String → Nat) (s : TrackedRing) (nodeId : String) (added : Bool)
    (member : String) : Prop :=
  (∃ key, s.ring.ring.get? key = some member ∧ key ∉ vnodeKeys hash s.ring.replicas nodeId) ∨
    ∀ key ∈ vnodeKeys hash s.ring.replicas member,
      if key ∈ vnodeKeys hash s.ring.replicas nodeId then added = true
      else ∃ other, other ≠ member ∧ s.ring.ring.get? key = some other

/-- An added node has a key for each of its virtual nodes, and the other members keep
their shares. -/
def Harmless (hash : String → Nat) (s : TrackedRing) : RingCall → Prop
  | .addNode nodeId => (vnodeKeys hash s.ring.replicas nodeId).Nodup ∧
      ∀ member ∈ s.members, member ≠ nodeId → KeepsShare hash s nodeId true member
  | .removeNode nodeId =>
      ∀ member ∈ s.members, member ≠ nodeId → KeepsShare hash s nodeId false member
  | .getNode _ | .getReplicas _ _ => True

/-- The owner of a key is a member with a virtual node at that key. -/
def Owned (hash : String → Nat) (s : TrackedRing) : Prop :=
  ∀ key node, s.ring.ring.get? key = some node →
    node ∈ s.members ∧ key ∈ vnodeKeys hash s.ring.replicas node

section
variable {hash : String → Nat} {s : TrackedRing}

theorem sound_iff :
    Sound hash s ↔ KeysOk s.ring ∧ ∀ member ∈ s.members, OwnsKey hash s member := by
  constructor
  · intro sound
    exact ⟨⟨(sound.sorted.and sound.nodup).imp fun h => lt_of_le_of_ne h.1 h.2, sound.keys⟩,
      sound.share⟩
  · rintro ⟨ok, share⟩
    exact ⟨ok.sorted.imp le_of_lt, ok.sorted.imp ne_of_lt, ok.keys, share,
      fun topic => ⟨_, ok.getNode hash topic⟩, ok.getReplicas_ok⟩

theorem Owned.step (owned : Owned hash s) (c : RingCall) : Owned hash (step hash s c).1 := by
  cases c with
  | addNode nodeId =>
      intro key node hnode
      simp only [TrackedRing.step, handle, addNode_get?, addNode_replicas, RingCall.members,
        Finset.mem_insert] at hnode ⊢
      split at hnode
      · next hkey =>
          obtain rfl := Option.some.inj hnode
          exact ⟨Or.inl rfl, hkey⟩
      · exact ⟨Or.inr (owned key node hnode).1, (owned key node hnode).2⟩
  | removeNode nodeId =>
      intro key node hnode
      have hrep : (s.ring.removeNode hash nodeId).replicas = s.ring.replicas :=
        removeKeys_replicas _
      simp only [TrackedRing.step, handle, removeNode_get?, hrep, RingCall.members,
        Finset.mem_erase] at hnode ⊢
      split at hnode
      · cases hnode
      · next hkey =>
          obtain ⟨hmember, hown⟩ := owned key node hnode
          exact ⟨⟨fun heq => hkey (heq ▸ hown), hmember⟩, hown⟩
  | getNode topic => exact owned
  | getReplicas topic count => exact owned

/-- The share of another member after the keys of a node are taken away or given to it. -/
theorem ownsKey_iff_keepsShare {s' : TrackedRing} (owned : Owned hash s) {nodeId : String}
    {added : Bool} (hrep : s'.ring.replicas = s.ring.replicas)
    (hget : ∀ key, s'.ring.ring.get? key =
      if key ∈ vnodeKeys hash s.ring.replicas nodeId then (if added then some nodeId else none)
      else s.ring.ring.get? key)
    (hmembers : ∀ member, member ∈ s'.members ↔
      (added = true ∧ member = nodeId) ∨ (member ∈ s.members ∧ member ≠ nodeId))
    {member : String} (hne : member ≠ nodeId) :
    OwnsKey hash s' member ↔ KeepsShare hash s nodeId added member := by
  refine or_congr (exists_congr fun key => ?_) ?_
  · rw [hget]
    by_cases hkey : key ∈ vnodeKeys hash s.ring.replicas nodeId
    · cases added <;> simp [hkey, Ne.symm hne]
    · simp [hkey]
  · rw [hrep]
    refine forall₂_congr fun key _ => ?_
    rw [hget]
    by_cases hkey : key ∈ vnodeKeys hash s.ring.replicas nodeId
    · rw [if_pos hkey, if_pos hkey]
      cases added with
      | false => simp
      | true => simp [hmembers, Ne.symm hne]
    · rw [if_neg hkey, if_neg hkey]
      refine exists_congr fun other => ⟨fun h => h.2, fun h => ⟨?_, h⟩⟩
      obtain ⟨hother, hown⟩ := owned key other h.2
      exact (hmembers other).mpr (Or.inr ⟨hother, fun heq => hkey (heq ▸ hown)⟩)

/-- A node that has just been added owns all its keys. -/
theorem ownsKey_addNode (s : TrackedRing) (nodeId : String) :
    OwnsKey hash (step hash s (.addNode nodeId)).1 nodeId := by
  simp only [OwnsKey, step, handle, addNode_get?, addNode_replicas]
  cases hkeys : vnodeKeys hash s.ring.replicas nodeId with
  | nil => exact Or.inr fun key hkey => absurd hkey List.not_mem_nil
  | cons key rest => exact Or.inl ⟨key, by simp⟩

theorem sound_step_iff (owned : Owned hash s) (sound : Sound hash s) (c : RingCall) :
    Sound hash (step hash s c).1 ↔ Harmless hash s c := by
  obtain ⟨ok, share⟩ := sound_iff.mp sound
  rw [sound_iff]
  cases c with
  | addNode nodeId =>
      refine and_congr (ok.addNode_iff nodeId) ?_
      have hshare : ∀ member, member ≠ nodeId →
          (OwnsKey hash (step hash s (.addNode nodeId)).1 member ↔
            KeepsShare hash s nodeId true member) := fun member =>
        ownsKey_iff_keepsShare owned (addNode_replicas nodeId) (fun key => addNode_get? nodeId key)
          fun m => by simp only [step, RingCall.members, Finset.mem_insert]; tauto
      constructor
      · intro h member hmember hne
        exact (hshare member hne).mp (h member (Finset.mem_insert_of_mem hmember))
      · intro h member hmember
        by_cases hne : member = nodeId
        · exact hne ▸ ownsKey_addNode s member
        · exact (hshare member hne).mpr (h member (Finset.mem_of_mem_insert_of_ne hmember hne) hne)
  | removeNode nodeId =>
      have hshare : ∀ member, member ≠ nodeId →
          (OwnsKey hash (step hash s (.removeNode nodeId)).1 member ↔
            KeepsShare hash s nodeId false member) := fun member =>
        ownsKey_iff_keepsShare owned (removeKeys_replicas _) (fun key => removeNode_get? nodeId key)
          fun m => by simp only [step, RingCall.members, Finset.mem_erase]; tauto
      refine (and_iff_right (ok.removeKeys _)).trans ?_
      constructor
      · intro h member hmember hne
        exact (hshare member hne).mp (h member (Finset.mem_erase.mpr ⟨hne, hmember⟩))
      · intro h member hmember
        obtain ⟨hne, hmem⟩ := Finset.mem_erase.mp hmember
        exact (hshare member hne).mpr (h member hmem hne)
  | getNode topic => exact iff_of_true ⟨ok, share⟩ trivial
  | getReplicas topic count => exact iff_of_true ⟨ok, share⟩ trivial

/-- The ring is sound in every state of a run exactly if every call of it is harmless. -/
theorem ring_survives_iff_harmless (hash : String → Nat) (replicas : Nat)
    (calls : List RingCall) :
    (∀ early late, calls = early ++ late →
      Sound hash (run (step hash) (new replicas) early)) ↔
        MeetsAll (step hash) (Harmless hash) (new replicas) calls := by
  refine forall_early_iff_meetsAll (Owned hash) (Sound hash) (fun s c owned => owned.step c)
    (fun s c owned sound => sound_step_iff owned sound c) ?_ (sound_iff.mpr ⟨?_, ?_⟩)
  · intro key node hnode
    simp [new, ofReplicas] at hnode
  · exact ⟨List.Pairwise.nil, fun key => by simp [new, ofReplicas]⟩
  · intro member hmember
    exact absurd hmember (Finset.notMem_empty member)

/-- Two of the fifty virtual nodes of this broker share a key under MD5. The key stays in
the sorted list when the broker leaves, and lookups among the others then raise. -/
def sharesKey : List RingCall :=
  [.addNode "broker-811987", .removeNode "broker-811987", .addNode "b1"]

theorem vnodeKeys_not_nodup : ¬ (vnodeKeys md5Hash 50 "broker-811987").Nodup := by
  intro hnodup
  have hshared : vnodeKey md5Hash "broker-811987" 38 = vnodeKey md5Hash "broker-811987" 47 := by
    decide +kernel
  exact absurd (List.inj_on_of_nodup_map hnodup (by decide) (by decide) hshared) (by decide)

theorem ring_survives_shared_key :
    (¬ Sound md5Hash (run (step md5Hash) (new 50) (sharesKey.take 1))) ∧
      (run (step md5Hash) (new 50) sharesKey).ring.getReplicas md5Hash "t" 3 =
        .error (.keyError 1925898032) ∧
      ¬ Sound (fun _ => 5) (run (step fun _ => 5) (new 1)
        [.addNode "b1", .addNode "b2", .removeNode "b2"]) := by
  refine ⟨fun sound => ?_, by decide +kernel, fun sound => ?_⟩
  · have hkeys := (addKeys_sortedKeys_perm "broker-811987" _).nodup_iff.mp sound.nodup
    exact vnodeKeys_not_nodup (List.nodup_append.mp hkeys).1
  · have hempty : (run (step fun _ => 5) (new 1)
        [.addNode "b1", .addNode "b2", .removeNode "b2"]).ring.ring = Dict.empty :=
      Dict.ext (by decide +kernel)
    have hshare := sound.share "b1" (by decide +kernel)
    rw [OwnsKey, hempty] at hshare
    rcases hshare with ⟨key, hkey⟩ | hall
    · simp at hkey
    · obtain ⟨other, -, -, hother⟩ := hall 5 (by decide +kernel)
      simp at hother

end
end TrackedRing
end PyLogStream
