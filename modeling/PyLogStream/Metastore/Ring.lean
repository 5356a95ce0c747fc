import PyLogStream.Lib.Dict
import PyLogStream.Lib.Md5
import PyLogStream.Lib.Sorted
import Mathlib.Data.List.Pairwise
import Mathlib.Data.Set.Insert

/-!
The consistent hash ring (`ConsistentHashRing` in `metastore/manager.py`). Each
node owns the keys of its virtual nodes; a topic belongs to the node of the first
key after its own. The hash is a parameter of the methods; the source's is `md5Hash`.
As long as no two virtual nodes share a key, the ring holds exactly the keys of its
members.
-/

namespace PyLogStream
open Lib

structure ConsistentHashRing where
  /-- The number of virtual nodes of each node. -/
  replicas : Nat
  ring : Dict Nat String
  sortedKeys : List Nat
  deriving DecidableEq

inductive RingError where
  | keyError (key : Nat)
  | indexError
  deriving DecidableEq, Repr

namespace ConsistentHashRing
section
variable (hash : String → Nat)

/-- `_hash`: the low 32 bits of the MD5 digest, read as a big-endian number. -/
def md5Hash (key : String) : Nat :=
  let bytes := key.toUTF8.data.toList.map UInt8.toNat
  ((Md5.digest bytes).foldl (fun n byte => 256 * n + byte) 0) % 0x100000000

def new : ConsistentHashRing := ⟨50, Dict.empty, []⟩

def vnodeKey (nodeId : String) (i : Nat) : Nat := hash (nodeId ++ "-vnode-" ++ toString i)

def vnodeKeys (replicas : Nat) (nodeId : String) : List Nat :=
  (List.range replicas).map (vnodeKey hash nodeId)

def removeKey (r : ConsistentHashRing) (key : Nat) : ConsistentHashRing :=
  if (r.ring.get? key).isSome then
    { r with ring := r.ring.erase key, sortedKeys := popSorted r.sortedKeys key }
  else r

def addKey (nodeId : String) (r : ConsistentHashRing) (key : Nat) : ConsistentHashRing :=
  { r with ring := r.ring.set key nodeId, sortedKeys := insort r.sortedKeys key }

def removeNode (r : ConsistentHashRing) (nodeId : String) : ConsistentHashRing :=
  (vnodeKeys hash r.replicas nodeId).foldl removeKey r

/-- The virtual nodes are removed first, for a node that registers again. -/
def addNode (r : ConsistentHashRing) (nodeId : String) : ConsistentHashRing :=
  (vnodeKeys hash r.replicas nodeId).foldl (addKey nodeId) (r.removeNode hash nodeId)

/-- `self.ring[self._sorted_keys[idx]]` -/
def nodeAt (r : ConsistentHashRing) (idx : Nat) : Except RingError String :=
  match r.sortedKeys[idx]? with
  | none => .error .indexError
  | some key =>
    match r.ring.get? key with
    | none => .error (.keyError key)
    | some node => .ok node

def getNode (r : ConsistentHashRing) (topic : String) : Except RingError (Option String) :=
  if r.ring.items = [] then .ok none
  else
    let idx := bisectRight r.sortedKeys (hash topic)
    (r.nodeAt (if idx = r.sortedKeys.length then 0 else idx)).map some

/-- The loop of `get_replicas` over the positions it visits. -/
def replicasLoop (r : ConsistentHashRing) (count : Int) :
    List Nat → List String → Except RingError (List String)
  | [], replicas => .ok replicas
  | idx :: rest, replicas =>
    match r.nodeAt idx with
    | .error err => .error err
    | .ok node =>
      if node ∈ replicas then replicasLoop r count rest replicas
      else if ((replicas ++ [node]).length : Int) = count then .ok (replicas ++ [node])
      else replicasLoop r count rest (replicas ++ [node])

def getReplicas (r : ConsistentHashRing) (topic : String) (count : Int) :
    Except RingError (List String) :=
  if r.ring.items = [] then .ok []
  else
    let idx := bisectRight r.sortedKeys (hash topic)
    let n := r.sortedKeys.length
    r.replicasLoop count ((List.range n).map fun i => (idx + i) % n) []

end
end ConsistentHashRing

/-- The methods of a ring, as calls. -/
inductive RingCall where
  | addNode (nodeId : String)
  | removeNode (nodeId : String)
  | getNode (topic : String)
  | getReplicas (topic : String) (count : Int)
  deriving DecidableEq, Repr

@[reducible]
def RingCall.Answer : RingCall → Type
  | .addNode _ | .removeNode _ => Unit
  | .getNode _ => Option String
  | .getReplicas _ _ => List String

namespace ConsistentHashRing

def handle (hash : String → Nat) (r : ConsistentHashRing) :
    (c : RingCall) → ConsistentHashRing × Except RingError c.Answer
  | .addNode nodeId => (r.addNode hash nodeId, .ok ())
  | .removeNode nodeId => (r.removeNode hash nodeId, .ok ())
  | .getNode topic => (r, r.getNode hash topic)
  | .getReplicas topic count => (r, r.getReplicas hash topic count)

/-- No two virtual nodes of these nodes share a key. -/
def CollisionFree (hash : String → Nat) (replicas : Nat) (ids : Set String) : Prop :=
  ∀ a ∈ ids, ∀ b ∈ ids, ∀ i < replicas, ∀ j < replicas,
    vnodeKey hash a i = vnodeKey hash b j → a = b ∧ i = j

/-- The sorted keys are the keys of the ring. -/
structure KeysOk (r : ConsistentHashRing) : Prop where
  sorted : r.sortedKeys.Pairwise (· < ·)
  keys : ∀ key, key ∈ r.sortedKeys ↔ ∃ node, r.ring.get? key = some node

/-- The ring holds the virtual nodes of its members and nothing else. -/
structure RingOk (hash : String → Nat) (r : ConsistentHashRing) (members : Set String) : Prop where
  keysOk : KeysOk r
  entries : ∀ key node, r.ring.get? key = some node ↔
    node ∈ members ∧ key ∈ vnodeKeys hash r.replicas node

section
variable {r : ConsistentHashRing}

theorem removeKey_get? (key k : Nat) :
    (r.removeKey key).ring.get? k = if k = key then none else r.ring.get? k := by
  simp only [removeKey]
  split
  · exact Dict.get?_erase r.ring key k
  · next habsent =>
      by_cases hk : k = key
      · simpa [hk] using habsent
      · simp [hk]

theorem removeKeys_get? (keys : List Nat) (k : Nat) :
    (keys.foldl removeKey r).ring.get? k = if k ∈ keys then none else r.ring.get? k := by
  induction keys generalizing r with
  | nil => simp
  | cons key keys ih =>
      rw [List.foldl_cons, ih, removeKey_get?]
      by_cases hk : k = key <;> simp [hk]

theorem addKeys_get? (nodeId : String) (keys : List Nat) (k : Nat) :
    (keys.foldl (addKey nodeId) r).ring.get? k =
      if k ∈ keys then some nodeId else r.ring.get? k := by
  induction keys generalizing r with
  | nil => simp
  | cons key keys ih =>
      rw [List.foldl_cons, ih]
      simp only [addKey, Dict.get?_set, List.mem_cons]
      by_cases hk : k = key <;> simp [hk]

theorem removeKeys_replicas (keys : List Nat) :
    (keys.foldl removeKey r).replicas = r.replicas := by
  induction keys generalizing r with
  | nil => rfl
  | cons key keys ih =>
      rw [List.foldl_cons, ih]
      simp only [removeKey]
      split <;> rfl

theorem addKeys_replicas (nodeId : String) (keys : List Nat) :
    (keys.foldl (addKey nodeId) r).replicas = r.replicas := by
  induction keys generalizing r with
  | nil => rfl
  | cons key keys ih => rw [List.foldl_cons, ih, addKey]

theorem KeysOk.removeKey (ok : KeysOk r) (key : Nat) : KeysOk (r.removeKey key) := by
  simp only [ConsistentHashRing.removeKey]
  split
  · refine ⟨?_, fun k => ?_⟩
    · simp only [popSorted_eq_filter ok.sorted]
      exact ok.sorted.filter _
    · simp only [popSorted_eq_filter ok.sorted, List.mem_filter, ok.keys, Dict.get?_erase]
      by_cases hk : k = key <;> simp [hk]
  · exact ok

theorem KeysOk.addKey (ok : KeysOk r) {key : Nat} (fresh : r.ring.get? key = none)
    (nodeId : String) : KeysOk (r.addKey nodeId key) := by
  have hnot : key ∉ r.sortedKeys := by
    rw [ok.keys, fresh]
    simp
  refine ⟨insort_sorted ok.sorted hnot, fun k => ?_⟩
  simp only [ConsistentHashRing.addKey, mem_insort, ok.keys, Dict.get?_set]
  by_cases hk : k = key <;> simp [hk]

theorem KeysOk.removeKeys (ok : KeysOk r) (keys : List Nat) :
    KeysOk (keys.foldl ConsistentHashRing.removeKey r) := by
  induction keys generalizing r with
  | nil => exact ok
  | cons key keys ih => exact ih (ok.removeKey key)

theorem KeysOk.addKeys (ok : KeysOk r) (nodeId : String) {keys : List Nat} (nodup : keys.Nodup)
    (fresh : ∀ key ∈ keys, r.ring.get? key = none) :
    KeysOk (keys.foldl (ConsistentHashRing.addKey nodeId) r) := by
  induction keys generalizing r with
  | nil => exact ok
  | cons key keys ih =>
      rw [List.nodup_cons] at nodup
      refine ih (ok.addKey (fresh key List.mem_cons_self) nodeId) nodup.2 fun k hk => ?_
      have hne : k ≠ key := fun h => nodup.1 (h ▸ hk)
      simp only [ConsistentHashRing.addKey, Dict.get?_set_of_ne _ _ hne]
      exact fresh k (List.mem_cons_of_mem _ hk)

theorem KeysOk.sortedKeys_pos (ok : KeysOk r) (h : r.ring.items ≠ []) :
    0 < r.sortedKeys.length := by
  obtain ⟨⟨key, node⟩, hitem⟩ := List.exists_mem_of_ne_nil _ h
  have hmem := (ok.keys key).mpr ⟨node, (Dict.get?_eq_some_iff _ _ _).mpr hitem⟩
  exact List.length_pos_of_mem hmem

theorem mem_vnodeKeys {hash : String → Nat} {n : Nat} {id : String} {key : Nat} :
    key ∈ vnodeKeys hash n id ↔ ∃ i < n, vnodeKey hash id i = key := by
  simp [vnodeKeys]

theorem CollisionFree.mono {hash : String → Nat} {n : Nat} {ids ids' : Set String}
    (free : CollisionFree hash n ids) (h : ids' ⊆ ids) : CollisionFree hash n ids' :=
  fun a ha b hb => free a (h ha) b (h hb)

theorem collisionFree_of_nodup {hash : String → Nat} {n : Nat} {ids : List String}
    (h : (ids.flatMap (vnodeKeys hash n)).Nodup) : CollisionFree hash n { id | id ∈ ids } := by
  rw [List.nodup_flatMap] at h
  intro a ha b hb i hi j hj heq
  have hsame : a = b := by
    by_contra hne
    have : Std.Symm (Function.onFun List.Disjoint (vnodeKeys hash n)) := 
      ⟨fun _ _ hd key hb ha => hd ha hb⟩
    have hdisjoint := h.2.forall ha hb hne
    exact hdisjoint (mem_vnodeKeys.mpr ⟨i, hi, rfl⟩) (mem_vnodeKeys.mpr ⟨j, hj, heq.symm⟩)
  subst hsame
  exact ⟨rfl, List.inj_on_of_nodup_map (h.1 a ha) (List.mem_range.mpr hi) (List.mem_range.mpr hj)
    heq⟩

/-- Two brokers whose virtual nodes have a hundred different keys under MD5. -/
theorem collisionFree_twoBrokers : CollisionFree md5Hash 50 { id | id ∈ ["b1", "b2"] } :=
  collisionFree_of_nodup (by decide +kernel)

theorem ringOk_new (hash : String → Nat) : RingOk hash new ∅ :=
  ⟨⟨List.Pairwise.nil, fun key => by simp [new]⟩, fun key node => by simp [new]⟩

section
variable {hash : String → Nat} {members ids : Set String} {id : String}

theorem CollisionFree.owner (free : CollisionFree hash r.replicas ids) {a b : String}
    (ha : a ∈ ids) (hb : b ∈ ids) {key : Nat} (hka : key ∈ vnodeKeys hash r.replicas a)
    (hkb : key ∈ vnodeKeys hash r.replicas b) : a = b := by
  obtain ⟨i, hi, rfl⟩ := mem_vnodeKeys.mp hka
  obtain ⟨j, hj, heq⟩ := mem_vnodeKeys.mp hkb
  exact (free a ha b hb i hi j hj heq.symm).1

theorem CollisionFree.vnodeKeys_nodup (free : CollisionFree hash r.replicas ids) (hid : id ∈ ids) :
    (vnodeKeys hash r.replicas id).Nodup := by
  refine List.Nodup.map_on ?_ List.nodup_range
  intro i hi j hj heq
  exact (free id hid id hid i (List.mem_range.mp hi) j (List.mem_range.mp hj) heq).2

theorem RingOk.removeNode (ok : RingOk hash r members)
    (free : CollisionFree hash r.replicas ids) (hmembers : members ⊆ ids) (hid : id ∈ ids) :
    RingOk hash (r.removeNode hash id) (members \ {id}) ∧
      (r.removeNode hash id).replicas = r.replicas := by
  refine ⟨⟨ok.keysOk.removeKeys _, fun key node => ?_⟩, removeKeys_replicas _⟩
  rw [ConsistentHashRing.removeNode, removeKeys_get?, removeKeys_replicas]
  constructor
  · intro h
    split at h
    · cases h
    · next hkey =>
        obtain ⟨hnode, hown⟩ := (ok.entries key node).mp h
        refine ⟨⟨hnode, ?_⟩, hown⟩
        rintro rfl
        exact hkey hown
  · rintro ⟨⟨hnode, hne⟩, hown⟩
    have hkey : key ∉ vnodeKeys hash r.replicas id :=
      fun hkey => hne (free.owner (hmembers hnode) hid hown hkey)
    rw [if_neg hkey]
    exact (ok.entries key node).mpr ⟨hnode, hown⟩

theorem RingOk.addNode (ok : RingOk hash r members)
    (free : CollisionFree hash r.replicas ids) (hmembers : members ⊆ ids) (hid : id ∈ ids) :
    RingOk hash (r.addNode hash id) (insert id members) ∧
      (r.addNode hash id).replicas = r.replicas := by
  obtain ⟨ok₁, hrep₁⟩ := ok.removeNode free hmembers hid
  have fresh : ∀ key ∈ vnodeKeys hash r.replicas id,
      (r.removeNode hash id).ring.get? key = none := by
    intro key hkey
    refine Option.eq_none_iff_forall_ne_some.mpr fun node hnode => ?_
    obtain ⟨⟨hmem, hne⟩, hown⟩ := (ok₁.entries key node).mp hnode
    rw [hrep₁] at hown
    exact hne (free.owner (hmembers hmem) hid hown hkey)
  refine ⟨⟨ok₁.keysOk.addKeys id (free.vnodeKeys_nodup hid) fresh, fun key node => ?_⟩,
    (addKeys_replicas id _).trans hrep₁⟩
  rw [ConsistentHashRing.addNode, addKeys_get?, addKeys_replicas, hrep₁]
  have hentry := ok₁.entries key node
  rw [hrep₁] at hentry
  by_cases hkey : key ∈ vnodeKeys hash r.replicas id
  · rw [if_pos hkey]
    constructor
    · intro h
      obtain rfl := Option.some.inj h
      exact ⟨Set.mem_insert id members, hkey⟩
    · rintro ⟨hnode, hown⟩
      have hnodeId : node ∈ ids := Set.insert_subset hid hmembers hnode
      rw [free.owner hnodeId hid hown hkey]
  · rw [if_neg hkey, hentry]
    constructor
    · rintro ⟨⟨hnode, -⟩, hown⟩
      exact ⟨Set.mem_insert_of_mem id hnode, hown⟩
    · rintro ⟨hnode, hown⟩
      have hne : node ≠ id := fun h => hkey (h ▸ hown)
      exact ⟨⟨Set.mem_of_mem_insert_of_ne hnode hne, hne⟩, hown⟩

/-- Every position of the ring names a member. -/
theorem RingOk.nodeAt (ok : RingOk hash r members) {idx : Nat} (h : idx < r.sortedKeys.length) :
    ∃ node ∈ members, r.nodeAt idx = .ok node := by
  have hkey : r.sortedKeys[idx] ∈ r.sortedKeys := List.getElem_mem h
  obtain ⟨node, hnode⟩ := (ok.keysOk.keys _).mp hkey
  refine ⟨node, ((ok.entries _ node).mp hnode).1, ?_⟩
  simp [ConsistentHashRing.nodeAt, List.getElem?_eq_getElem h, hnode]

/-- The ring is empty only when it has no members. -/
theorem RingOk.items_ne_nil (ok : RingOk hash r members) (hrep : 0 < r.replicas)
    (hid : id ∈ members) : r.ring.items ≠ [] := by
  have hkey : vnodeKey hash id 0 ∈ vnodeKeys hash r.replicas id := mem_vnodeKeys.mpr ⟨0, hrep, rfl⟩
  have hget := (ok.entries _ _).mpr ⟨hid, hkey⟩
  exact List.ne_nil_of_mem ((Dict.get?_eq_some_iff _ _ _).mp hget)

theorem RingOk.getNode (ok : RingOk hash r members) (topic : String) :
    r.getNode hash topic = .ok none ∧ r.ring.items = [] ∨
      ∃ node ∈ members, r.getNode hash topic = .ok (some node) := by
  unfold ConsistentHashRing.getNode
  split
  · next hempty => exact Or.inl ⟨rfl, hempty⟩
  · next hne =>
      right
      have hpos := ok.keysOk.sortedKeys_pos hne
      have hle : bisectRight r.sortedKeys (hash topic) ≤ r.sortedKeys.length := bisectRight_le
      have hidx : (if bisectRight r.sortedKeys (hash topic) = r.sortedKeys.length then 0
          else bisectRight r.sortedKeys (hash topic)) < r.sortedKeys.length := by
        split <;> omega
      obtain ⟨node, hmem, hnode⟩ := ok.nodeAt hidx
      exact ⟨node, hmem, by simp only [hnode]; rfl⟩

theorem RingOk.replicasLoop (ok : RingOk hash r members) (count : Int) {idxs : List Nat}
    (hidxs : ∀ idx ∈ idxs, idx < r.sortedKeys.length) {replicas : List String}
    (hmem : ∀ node ∈ replicas, node ∈ members) (nodup : replicas.Nodup) :
    ∃ result, r.replicasLoop count idxs replicas = .ok result ∧
      (∀ node ∈ result, node ∈ members) ∧ result.Nodup ∧
      (idxs ≠ [] ∨ replicas ≠ [] → result ≠ []) := by
  induction idxs generalizing replicas with
  | nil => exact ⟨replicas, rfl, hmem, nodup, by simp⟩
  | cons idx rest ih =>
      have hrest : ∀ idx ∈ rest, idx < r.sortedKeys.length :=
        fun i hi => hidxs i (List.mem_cons_of_mem _ hi)
      obtain ⟨node, hnode, hat⟩ := ok.nodeAt (hidxs idx List.mem_cons_self)
      simp only [ConsistentHashRing.replicasLoop, hat]
      by_cases hin : node ∈ replicas
      · obtain ⟨result, hres, hmem', nodup', hne⟩ := ih hrest hmem nodup
        refine ⟨result, by rw [if_pos hin, hres], hmem', nodup', fun _ => hne (Or.inr ?_)⟩
        exact List.ne_nil_of_mem hin
      · rw [if_neg hin]
        have hmem₁ : ∀ n ∈ replicas ++ [node], n ∈ members := by
          intro n hn
          rcases List.mem_append.mp hn with h | h
          · exact hmem n h
          · exact List.mem_singleton.mp h ▸ hnode
        have nodup₁ : (replicas ++ [node]).Nodup := by
          rw [List.nodup_append_comm]
          exact List.nodup_cons.mpr ⟨hin, nodup⟩
        split
        · exact ⟨_, rfl, hmem₁, nodup₁, by simp⟩
        · obtain ⟨result, hres, hmem', nodup', hne⟩ := ih hrest hmem₁ nodup₁
          exact ⟨result, hres, hmem', nodup', fun _ => hne (Or.inr (by simp))⟩

/-- The replicas of a topic are distinct members, and there are some if there are members. -/
theorem RingOk.getReplicas (ok : RingOk hash r members) (topic : String) (count : Int) :
    ∃ result, r.getReplicas hash topic count = .ok result ∧
      (∀ node ∈ result, node ∈ members) ∧ result.Nodup ∧
      (r.ring.items ≠ [] → result ≠ []) := by
  unfold ConsistentHashRing.getReplicas
  split
  · next hempty => exact ⟨[], rfl, by simp, List.nodup_nil, fun h => absurd hempty h⟩
  · next hne =>
      have hpos := ok.keysOk.sortedKeys_pos hne
      have hidxs : ∀ idx ∈ (List.range r.sortedKeys.length).map (fun i =>
          (bisectRight r.sortedKeys (hash topic) + i) % r.sortedKeys.length),
          idx < r.sortedKeys.length := by
        intro idx hidx
        obtain ⟨i, -, rfl⟩ := List.mem_map.mp hidx
        exact Nat.mod_lt _ hpos
      obtain ⟨result, hres, hmem, nodup, hnil⟩ :=
        ok.replicasLoop count hidxs (fun node h => absurd h List.not_mem_nil) List.nodup_nil
      refine ⟨result, hres, hmem, nodup, fun _ => hnil (Or.inl ?_)⟩
      have hlen : r.sortedKeys.length ≠ 0 := by omega
      simpa using hlen

end
end
end ConsistentHashRing
end PyLogStream
