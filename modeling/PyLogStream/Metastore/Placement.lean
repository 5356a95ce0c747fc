import PyLogStream.Metastore.Ring

/-!
Which nodes a ring holds when keys may collide. Adding or removing a node takes all
entries at its keys, so another node that shares some of them stays as long as one of
its own entries is spared. A search for replicas that does not find enough of them has
come across every node of the ring.
-/

namespace PyLogStream
open Lib

namespace ConsistentHashRing

/-- The node has a key on the ring. -/
def Holds (r : ConsistentHashRing) (node : String) : Prop :=
  ∃ key, r.ring.get? key = some node

/-- Every entry is at a key of its node, and its key is in the sorted list. -/
structure Owned (hash : String → Nat) (r : ConsistentHashRing) : Prop where
  own : ∀ key node, r.ring.get? key = some node → key ∈ vnodeKeys hash r.replicas node
  listed : ∀ key node, r.ring.get? key = some node → key ∈ r.sortedKeys

/-- Every other node of the ring has an entry that is not at a key of this one. -/
def Spares (hash : String → Nat) (r : ConsistentHashRing) (id : String) : Prop :=
  ∀ node ∈ r.ring.values, node ≠ id →
    ∃ item ∈ r.ring.items, item.2 = node ∧ item.1 ∉ vnodeKeys hash r.replicas id

instance (hash : String → Nat) (r : ConsistentHashRing) (id : String) :
    Decidable (Spares hash r id) :=
  inferInstanceAs (Decidable (∀ node ∈ _, _))

section
variable {r : ConsistentHashRing}

theorem Holds.mem_values {node : String} : r.Holds node ↔ node ∈ r.ring.values :=
  (Dict.mem_values_iff r.ring node).symm

theorem not_holds_new (node : String) : ¬ ConsistentHashRing.new.Holds node := by
  simp [Holds, new]

theorem owned_new (hash : String → Nat) : Owned hash .new := by
  constructor <;> simp [new]

theorem Owned.removeKey {hash : String → Nat} (ok : Owned hash r) (key : Nat) :
    Owned hash (r.removeKey key) := by
  have hrep : (r.removeKey key).replicas = r.replicas := removeKeys_replicas [key]
  have hold : ∀ k node, (r.removeKey key).ring.get? k = some node →
      k ≠ key ∧ r.ring.get? k = some node := by
    intro k node h
    rw [removeKey_get?] at h
    split at h
    · cases h
    · next hne => exact ⟨hne, h⟩
  refine ⟨fun k node h => hrep ▸ ok.own k node (hold k node h).2, fun k node h => ?_⟩
  obtain ⟨hne, hget⟩ := hold k node h
  have hlisted := ok.listed k node hget
  simp only [ConsistentHashRing.removeKey]
  split
  · exact mem_popSorted_of_ne hlisted hne
  · exact hlisted

theorem Owned.addKey {hash : String → Nat} (ok : Owned hash r) {nodeId : String} {key : Nat}
    (hkey : key ∈ vnodeKeys hash r.replicas nodeId) : Owned hash (r.addKey nodeId key) := by
  refine ⟨fun k node h => ?_, fun k node h => mem_insort.mpr ?_⟩
  all_goals
    simp only [ConsistentHashRing.addKey, Dict.get?_set] at h
    split at h
  · next heq =>
      cases h
      exact heq ▸ hkey
  · exact ok.own k node h
  · next heq => exact Or.inl heq
  · exact Or.inr (ok.listed k node h)

variable {hash : String → Nat} {id : String}

theorem Owned.removeNode (ok : Owned hash r) (id : String) : Owned hash (r.removeNode hash id) := by
  have keep : ∀ (keys : List Nat) (r : ConsistentHashRing), Owned hash r →
      Owned hash (keys.foldl ConsistentHashRing.removeKey r) := by
    intro keys
    induction keys with
    | nil => exact fun r ok => ok
    | cons key keys ih => exact fun r ok => ih _ (ok.removeKey key)
  exact keep _ r ok

theorem Owned.addNode (ok : Owned hash r) (id : String) : Owned hash (r.addNode hash id) := by
  have keep : ∀ (keys : List Nat) (r : ConsistentHashRing), Owned hash r →
      (∀ key ∈ keys, key ∈ vnodeKeys hash r.replicas id) →
      Owned hash (keys.foldl (ConsistentHashRing.addKey id) r) := by
    intro keys
    induction keys with
    | nil => exact fun r ok _ => ok
    | cons key keys ih =>
        exact fun r ok h => ih _ (ok.addKey (h key List.mem_cons_self))
          fun k hk => h k (List.mem_cons_of_mem _ hk)
  refine keep _ _ (ok.removeNode id) fun key hkey => ?_
  rw [ConsistentHashRing.removeNode, removeKeys_replicas]
  exact hkey

/-- With its keys spared, every other node stays. -/
theorem Spares.holds (spares : Spares hash r id) {node : String} (h : r.Holds node)
    (hne : node ≠ id) : ∃ key, key ∉ vnodeKeys hash r.replicas id ∧ r.ring.get? key = some node := by
  obtain ⟨⟨key, found⟩, hitem, rfl, hkey⟩ := spares node (Holds.mem_values.mp h) hne
  exact ⟨key, hkey, (Dict.get?_eq_some_iff _ _ _).mpr hitem⟩

theorem Owned.removeNode_holds (ok : Owned hash r) (spares : Spares hash r id) (node : String) :
    (r.removeNode hash id).Holds node ↔ node ≠ id ∧ r.Holds node := by
  simp only [Holds, ConsistentHashRing.removeNode, removeKeys_get?]
  constructor
  · rintro ⟨key, h⟩
    split at h
    · cases h
    · next hkey =>
        refine ⟨?_, key, h⟩
        rintro rfl
        exact hkey (ok.own key node h)
  · rintro ⟨hne, h⟩
    obtain ⟨key, hkey, hget⟩ := spares.holds h hne
    exact ⟨key, by rw [if_neg hkey, hget]⟩

theorem holds_of_removeNode {node : String} (h : (r.removeNode hash id).Holds node) :
    r.Holds node := by
  obtain ⟨key, hget⟩ := h
  rw [ConsistentHashRing.removeNode, removeKeys_get?] at hget
  split at hget
  · cases hget
  · exact ⟨key, hget⟩

theorem holds_of_addNode {node : String} (h : (r.addNode hash id).Holds node) :
    node = id ∨ r.Holds node := by
  obtain ⟨key, hget⟩ := h
  rw [ConsistentHashRing.addNode, addKeys_get?] at hget
  split at hget
  · exact Or.inl (Option.some.inj hget).symm
  · exact Or.inr (holds_of_removeNode ⟨key, hget⟩)

theorem nodeAt_holds {idx : Nat} {node : String} (h : r.nodeAt idx = .ok node) : r.Holds node := by
  unfold nodeAt at h
  split at h
  · cases h
  · next key _ =>
      split at h
      · cases h
      · next found hget => exact ⟨key, by rw [hget, Except.ok.inj h]⟩

theorem getNode_holds {topic node : String} (h : r.getNode hash topic = .ok (some node)) :
    r.Holds node := by
  unfold getNode at h
  split at h
  · cases h
  · cases hat : r.nodeAt (if bisectRight r.sortedKeys (hash topic) = r.sortedKeys.length then 0
        else bisectRight r.sortedKeys (hash topic)) with
    | error err => simp [hat, Except.map] at h
    | ok found =>
        simp only [hat, Except.map, Except.ok.injEq, Option.some.injEq] at h
        exact h ▸ nodeAt_holds hat

theorem replicasLoop_holds {count : Int} {idxs : List Nat} {replicas result : List String}
    (h : r.replicasLoop count idxs replicas = .ok result) (hold : ∀ node ∈ replicas, r.Holds node) :
    ∀ node ∈ result, r.Holds node := by
  induction idxs generalizing replicas with
  | nil =>
      cases h
      exact hold
  | cons idx rest ih =>
      simp only [replicasLoop] at h
      cases hat : r.nodeAt idx with
      | error err =>
          rw [hat] at h
          cases h
      | ok found =>
          simp only [hat] at h
          have hmore : ∀ node ∈ replicas ++ [found], r.Holds node := by
            intro node hnode
            cases List.mem_append.mp hnode with
            | inl hmem => exact hold node hmem
            | inr hlast => exact List.mem_singleton.mp hlast ▸ nodeAt_holds hat
          split at h
          · exact ih h hold
          · split at h
            · cases h
              exact hmore
            · exact ih h hmore

/-- Only nodes of the ring are chosen, whatever keys collide. -/
theorem getReplicas_holds {topic : String} {count : Int} {result : List String}
    (h : r.getReplicas hash topic count = .ok result) : ∀ node ∈ result, r.Holds node := by
  unfold getReplicas at h
  split at h
  · cases h
    simp
  · exact replicasLoop_holds h (by simp)

theorem Spares.addNode_holds (spares : Spares hash r id) (hpos : 0 < r.replicas) (node : String) :
    (r.addNode hash id).Holds node ↔ node = id ∨ r.Holds node := by
  refine ⟨holds_of_addNode, fun h => ?_⟩
  simp only [Holds, ConsistentHashRing.addNode, addKeys_get?, ConsistentHashRing.removeNode,
    removeKeys_get?]
  by_cases heq : node = id
  · have hkey : vnodeKey hash id 0 ∈ vnodeKeys hash r.replicas id :=
      mem_vnodeKeys.mpr ⟨0, hpos, rfl⟩
    exact ⟨_, by rw [if_pos hkey, heq]⟩
  · obtain ⟨key, hkey, hget⟩ := spares.holds (h.resolve_left heq) heq
    exact ⟨key, by rw [if_neg hkey, if_neg hkey, hget]⟩

/-- A search that stops short of the count has taken every node it has visited. -/
theorem replicasLoop_covers {count : Int} {idxs : List Nat} {replicas result : List String}
    (h : r.replicasLoop count idxs replicas = .ok result) (few : (result.length : Int) ≠ count) :
    (∀ node ∈ replicas, node ∈ result) ∧
      ∀ idx ∈ idxs, ∀ node, r.nodeAt idx = .ok node → node ∈ result := by
  induction idxs generalizing replicas with
  | nil =>
      cases h
      exact ⟨fun _ hnode => hnode, by simp⟩
  | cons idx rest ih =>
      simp only [replicasLoop] at h
      cases hat : r.nodeAt idx with
      | error err =>
          rw [hat] at h
          cases h
      | ok node =>
          simp only [hat] at h
          have hvisited : (∀ n ∈ replicas, n ∈ result) ∧ node ∈ result ∧
              ∀ i ∈ rest, ∀ n, r.nodeAt i = .ok n → n ∈ result := by
            split at h
            · next hin =>
                obtain ⟨hkept, hrest⟩ := ih h
                exact ⟨hkept, hkept node hin, hrest⟩
            · split at h
              · next hcount =>
                  cases h
                  exact absurd hcount few
              · obtain ⟨hkept, hrest⟩ := ih h
                exact ⟨fun n hn => hkept n (List.mem_append_left _ hn),
                  hkept node (List.mem_append_right _ (List.mem_singleton_self node)), hrest⟩
          refine ⟨hvisited.1, fun i hi n hn => ?_⟩
          cases List.mem_cons.mp hi with
          | inl heq =>
              rw [heq, hat] at hn
              cases hn
              exact hvisited.2.1
          | inr hrest => exact hvisited.2.2 i hrest n hn

/-- Going round a ring of positions from anywhere visits all of them. -/
theorem mem_positions {start n pos : Nat} (hstart : start ≤ n) (hpos : pos < n) :
    pos ∈ (List.range n).map fun i => (start + i) % n := by
  rw [List.mem_map]
  by_cases hle : start ≤ pos
  · refine ⟨pos - start, List.mem_range.mpr (by omega), ?_⟩
    rw [Nat.add_sub_cancel' hle, Nat.mod_eq_of_lt hpos]
  · refine ⟨pos + n - start, List.mem_range.mpr (by omega), ?_⟩
    rw [show start + (pos + n - start) = pos + n by omega, Nat.add_mod_right,
      Nat.mod_eq_of_lt hpos]

theorem Owned.getReplicas_covers (ok : Owned hash r) {topic : String} {count : Int}
    {result : List String} (h : r.getReplicas hash topic count = .ok result)
    (few : (result.length : Int) ≠ count) {node : String} (holds : r.Holds node) :
    node ∈ result := by
  obtain ⟨key, hkey⟩ := holds
  have hne : r.ring.items ≠ [] := List.ne_nil_of_mem ((Dict.get?_eq_some_iff _ _ _).mp hkey)
  obtain ⟨pos, hpos⟩ := List.mem_iff_getElem?.mp (ok.listed key node hkey)
  have hlt : pos < r.sortedKeys.length := (List.getElem?_eq_some_iff.mp hpos).1
  rw [getReplicas, if_neg hne] at h
  refine (replicasLoop_covers h few).2 pos (mem_positions bisectRight_le hlt) node ?_
  simp only [nodeAt, hpos, hkey]

end
end ConsistentHashRing
end PyLogStream
