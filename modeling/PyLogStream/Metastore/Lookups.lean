import PyLogStream.Lib.Circle
import PyLogStream.Lib.Run
import PyLogStream.Lib.Text
import PyLogStream.Metastore.Ring
import Mathlib.Data.Finset.Card

/-!
What the lookups of a ring return. Where the sorted keys are the keys of the
dictionary, `get_replicas` lists the owners of the keys clockwise from the topic, each
at its first appearance, and `get_node` is the first of them. Without collisions the
ring is determined by its current members, whatever was added and removed before, so
that removing a node takes it out of every list and changes nothing else.
-/

namespace PyLogStream
open Lib

namespace ConsistentHashRing

/-- `ConsistentHashRing(replicas)` -/
def ofReplicas (replicas : Nat) : ConsistentHashRing := ⟨replicas, Dict.empty, []⟩

/-- The nodes in the order in which a key of theirs is first met clockwise from a point. -/
def order (r : ConsistentHashRing) (point : Nat) : List String :=
  ((clockwise r.sortedKeys point).filterMap r.ring.get?).eraseDups

section
variable {r : ConsistentHashRing}

theorem order_nodup (point : Nat) : (r.order point).Nodup := nodup_eraseDups _

/-- The loop appends the nodes it has not seen, until there are `count` of them. -/
theorem replicasLoop_eq {count : Int} {idxs : List Nat} {nodes : List String}
    (hat : idxs.map r.nodeAt = nodes.map .ok) (seen : List String) {k : Nat} (hk : 0 < k)
    (hcount : ((seen.length + k : Nat) : Int) = count) :
    r.replicasLoop count idxs seen =
      .ok (seen ++ (nodes.filter (fun node => node ∉ seen)).eraseDups.take k) := by
  induction idxs generalizing nodes seen k with
  | nil =>
      have hnil : nodes = [] := by simpa using hat.symm
      simp [replicasLoop, hnil]
  | cons idx rest ih =>
      cases nodes with
      | nil => simp at hat
      | cons node nodes =>
          rw [List.map_cons, List.map_cons, List.cons.injEq] at hat
          simp only [replicasLoop, hat.1]
          by_cases hseen : node ∈ seen
          · rw [if_pos hseen, ih hat.2 seen hk hcount, List.filter_cons_of_neg (by simpa using hseen)]
          · have hnew : (nodes.filter fun n => decide (n ∉ seen)).filter (fun n => !n == node) =
                nodes.filter fun n => decide (n ∉ seen ++ [node]) := by
              rw [List.filter_filter]
              refine List.filter_congr fun n _ => ?_
              by_cases hn : n = node <;> simp [hn]
            have hlen : (seen ++ [node]).length = seen.length + 1 := by simp
            obtain ⟨k, rfl⟩ : ∃ m, k = m + 1 := ⟨k - 1, by omega⟩
            rw [if_neg hseen, List.filter_cons_of_pos (by simpa using hseen),
              List.eraseDups_cons, List.take_succ_cons, hnew, hlen]
            by_cases hk0 : k = 0
            · rw [if_pos (by omega), hk0, List.take_zero]
            · rw [if_neg (by omega), ih hat.2 _ (k := k) (by omega) (by omega), List.append_assoc,
                List.singleton_append]

/-- The owner of a key read from the sorted keys. -/
def ownerOf (r : ConsistentHashRing) : Option Nat → Except RingError String
  | none => .error .indexError
  | some key =>
    match r.ring.get? key with
    | none => .error (.keyError key)
    | some node => .ok node

theorem nodeAt_eq_ownerOf : r.nodeAt = fun idx => r.ownerOf r.sortedKeys[idx]? := by
  funext idx
  unfold nodeAt ownerOf
  rfl

theorem map_ownerOf {keys : List Nat} (h : ∀ key ∈ keys, ∃ node, r.ring.get? key = some node) :
    keys.map (fun key => r.ownerOf (some key)) = (keys.filterMap r.ring.get?).map .ok := by
  induction keys with
  | nil => rfl
  | cons key keys ih =>
      rw [List.forall_mem_cons] at h
      obtain ⟨node, hnode⟩ := h.1
      have howner : r.ownerOf (some key) = .ok node := by simp [ownerOf, hnode]
      rw [List.map_cons, howner, ih h.2, List.filterMap_cons_some hnode, List.map_cons]

/-- Every position visited names the owner of its key. -/
theorem KeysOk.map_nodeAt (ok : KeysOk r) (point : Nat) :
    ((List.range r.sortedKeys.length).map fun i =>
        (bisectRight r.sortedKeys point + i) % r.sortedKeys.length).map r.nodeAt =
      ((clockwise r.sortedKeys point).filterMap r.ring.get?).map .ok := by
  have hpositions := congrArg (List.map r.ownerOf)
    (map_wrapped_eq_rotate r.sortedKeys (bisectRight r.sortedKeys point))
  rw [List.map_map, List.map_map, ← clockwise_eq_rotate ok.sorted] at hpositions
  rw [← map_ownerOf fun key hkey => (ok.keys key).mp (mem_clockwise.mp hkey), nodeAt_eq_ownerOf,
    List.map_map]
  exact hpositions

theorem KeysOk.sortedKeys_nil (ok : KeysOk r) (h : r.ring.items = []) : r.sortedKeys = [] := by
  refine List.eq_nil_iff_forall_not_mem.mpr fun key hkey => ?_
  obtain ⟨node, hnode⟩ := (ok.keys key).mp hkey
  have hitem := (Dict.get?_eq_some_iff _ _ _).mp hnode
  rw [h] at hitem
  exact absurd hitem List.not_mem_nil

theorem KeysOk.getReplicas (ok : KeysOk r) (hash : String → Nat) (topic : String) {count : Int}
    (hcount : 1 ≤ count) :
    r.getReplicas hash topic count = .ok ((r.order (hash topic)).take count.toNat) := by
  unfold ConsistentHashRing.getReplicas
  split
  · next hempty => simp [order, clockwise, ok.sortedKeys_nil hempty]
  · have hlength : ((([] : List String).length + count.toNat : Nat) : Int) = count := by
      rw [List.length_nil, Nat.zero_add, Int.toNat_of_nonneg (by omega)]
    have hloop := replicasLoop_eq (ok.map_nodeAt (hash topic)) [] (by omega) hlength
    simpa [order] using hloop

theorem KeysOk.getNode (ok : KeysOk r) (hash : String → Nat) (topic : String) :
    r.getNode hash topic = .ok (r.order (hash topic)).head? := by
  unfold ConsistentHashRing.getNode
  split
  · next hempty => simp [order, clockwise, ok.sortedKeys_nil hempty]
  · next hne =>
      have hpos := ok.sortedKeys_pos hne
      have hle : bisectRight r.sortedKeys (hash topic) ≤ r.sortedKeys.length := bisectRight_le
      have hidx : (if bisectRight r.sortedKeys (hash topic) = r.sortedKeys.length then 0
          else bisectRight r.sortedKeys (hash topic)) =
            (bisectRight r.sortedKeys (hash topic) + 0) % r.sortedKeys.length := by
        split
        · next heq => rw [heq, Nat.add_zero, Nat.mod_self]
        · rw [Nat.add_zero, Nat.mod_eq_of_lt (by omega)]
      have hfirst := congrArg (fun nodes => nodes[0]?) (ok.map_nodeAt (hash topic))
      simp only [List.getElem?_map, List.getElem?_range hpos, Option.map_some] at hfirst
      obtain ⟨node, hnode, hat⟩ := Option.map_eq_some_iff.mp hfirst.symm
      have hhead : (r.order (hash topic)).head? = some node := by
        cases hnodes : (clockwise r.sortedKeys (hash topic)).filterMap r.ring.get? with
        | nil => simp [hnodes] at hnode
        | cons first rest =>
            rw [hnodes] at hnode
            rw [order, hnodes, List.eraseDups_cons]
            exact hnode
      simp only [hidx, ← hat, hhead]
      rfl

/-- The lookups read the sorted keys and what the dictionary says of each key. -/
theorem lookups_congr {r' : ConsistentHashRing} (hkeys : r'.sortedKeys = r.sortedKeys)
    (hring : ∀ key, r'.ring.get? key = r.ring.get? key) (hash : String → Nat) (topic : String) :
    r'.getNode hash topic = r.getNode hash topic ∧
      ∀ count, r'.getReplicas hash topic count = r.getReplicas hash topic count := by
  have hat : ∀ idx, r'.nodeAt idx = r.nodeAt idx := fun idx => by
    simp only [nodeAt, hkeys, hring]
  have hempty : r'.ring.items = [] ↔ r.ring.items = [] := by
    simp only [List.eq_nil_iff_forall_not_mem, Prod.forall, ← Dict.get?_eq_some_iff, hring]
  have hloop : ∀ count idxs seen,
      r'.replicasLoop count idxs seen = r.replicasLoop count idxs seen := by
    intro count idxs
    induction idxs with
    | nil => exact fun seen => rfl
    | cons idx rest ih =>
        intro seen
        simp only [replicasLoop, hat, ih]
  simp only [ConsistentHashRing.getNode, ConsistentHashRing.getReplicas, hkeys, hat, hloop]
  simp only [hempty, true_and, implies_true]

/-- A ring with the entries of some of the nodes meets these in the same order. -/
theorem KeysOk.order_filter {r' : ConsistentHashRing} (ok : KeysOk r) (ok' : KeysOk r')
    {p : String → Bool} (hentries : ∀ key node, r'.ring.get? key = some node ↔
      r.ring.get? key = some node ∧ p node = true) (point : Nat) :
    r'.order point = (r.order point).filter p := by
  have hkeys : r'.sortedKeys = r.sortedKeys.filter (fun key => (r.ring.get? key).any p) := by
    refine eq_of_sorted_of_mem ok'.sorted (ok.sorted.filter _) fun key => ?_
    rw [ok'.keys, List.mem_filter, ok.keys, Option.any_eq_true]
    simp only [hentries]
    exact ⟨fun h => ⟨h.imp fun _ hnode => hnode.1, h⟩, And.right⟩
  have hnodes : ∀ keys : List Nat,
      (keys.filter fun key => (r.ring.get? key).any p).filterMap r'.ring.get? =
        (keys.filterMap r.ring.get?).filter p := by
    intro keys
    rw [List.filterMap_filter, List.filter_filterMap]
    refine List.filterMap_congr fun key _ => Option.ext fun node => ?_
    cases hget : r.ring.get? key with
    | none => simp
    | some owner =>
        simp only [Option.any_some, Option.filter_some]
        split
        · next hp =>
            rw [hentries, hget]
            exact and_iff_left_of_imp fun h => Option.some.inj h ▸ hp
        · rfl
  rw [order, order, hkeys, ← filter_clockwise, hnodes, eraseDups_filter]

end

section
variable {hash : String → Nat} {r : ConsistentHashRing} {members ids : Set String}

theorem RingOk.of_mem_order (ok : RingOk hash r members) {point : Nat} {node : String}
    (h : node ∈ r.order point) : node ∈ members := by
  rw [order, List.mem_eraseDups, List.mem_filterMap] at h
  obtain ⟨key, -, hget⟩ := h
  exact ((ok.entries key node).mp hget).1

theorem RingOk.mem_order (ok : RingOk hash r members) (hpos : 0 < r.replicas) {point : Nat}
    {node : String} : node ∈ r.order point ↔ node ∈ members := by
  refine ⟨ok.of_mem_order, fun hnode => ?_⟩
  have hget := (ok.entries (vnodeKey hash node 0) node).mpr
    ⟨hnode, mem_vnodeKeys.mpr ⟨0, hpos, rfl⟩⟩
  rw [order, List.mem_eraseDups, List.mem_filterMap]
  exact ⟨_, mem_clockwise.mpr ((ok.keysOk.keys _).mpr ⟨node, hget⟩), hget⟩

theorem RingOk.length_order_le {nodes : Finset String} (ok : RingOk hash r nodes) (point : Nat) :
    (r.order point).length ≤ nodes.card := by
  rw [← List.toFinset_card_of_nodup (order_nodup point)]
  refine Finset.card_le_card fun node hnode => ?_
  exact ok.of_mem_order (List.mem_toFinset.mp hnode)

theorem RingOk.length_order {nodes : Finset String} (ok : RingOk hash r nodes)
    (hpos : 0 < r.replicas) (point : Nat) : (r.order point).length = nodes.card := by
  rw [← List.toFinset_card_of_nodup (order_nodup point)]
  congr 1
  ext node
  rw [List.mem_toFinset]
  exact ok.mem_order hpos

/-- Rings with the same members are the same. -/
theorem RingOk.unique {r' : ConsistentHashRing} (ok : RingOk hash r members)
    (ok' : RingOk hash r' members) (hrep : r'.replicas = r.replicas) :
    (∀ key, r'.ring.get? key = r.ring.get? key) ∧ r'.sortedKeys = r.sortedKeys := by
  have hget : ∀ key, r'.ring.get? key = r.ring.get? key := fun key =>
    Option.ext fun node => by rw [ok'.entries, ok.entries, hrep]
  refine ⟨hget, eq_of_sorted_of_mem ok'.keysOk.sorted ok.keysOk.sorted fun key => ?_⟩
  rw [ok'.keysOk.keys, ok.keysOk.keys, hget]

/-- With more members, the ones that were there are met in the same order. -/
theorem RingOk.order_subset {r' : ConsistentHashRing} {nodes nodes' : Finset String}
    (ok : RingOk hash r nodes) (ok' : RingOk hash r' nodes') (hrep : r'.replicas = r.replicas)
    (hsub : nodes ⊆ nodes') (point : Nat) :
    r.order point = (r'.order point).filter (fun node => decide (node ∈ nodes)) := by
  refine ok'.keysOk.order_filter ok.keysOk (fun key node => ?_) point
  rw [ok.entries, ok'.entries, hrep]
  simp only [Finset.mem_coe, decide_eq_true_eq]
  exact ⟨fun h => ⟨⟨hsub h.1, h.2⟩, h.1⟩, fun h => ⟨h.2, h.1.2⟩⟩

/-- Without a node, the others are met in the same order. -/
theorem RingOk.order_removeNode (ok : RingOk hash r members) {x : String}
    (free : CollisionFree hash r.replicas ids) (hmembers : members ⊆ ids) (hx : x ∈ ids)
    (point : Nat) :
    (r.removeNode hash x).order point = (r.order point).filter (fun node => decide (node ≠ x)) := by
  obtain ⟨ok', hrep⟩ := ok.removeNode free hmembers hx
  refine ok.keysOk.order_filter ok'.keysOk (fun key node => ?_) point
  rw [ok'.entries, ok.entries, hrep]
  simp only [Set.mem_sdiff, Set.mem_singleton_iff, decide_eq_true_eq]
  tauto

end
end ConsistentHashRing

def RingCall.nodeId? : RingCall → Option String
  | .addNode nodeId => some nodeId
  | .removeNode nodeId => some nodeId
  | _ => none

/-- The nodes that were ever added or removed. -/
def usedNodes (calls : List RingCall) : Set String := { id | ∃ c ∈ calls, c.nodeId? = some id }

theorem usedNodes_subset {calls : List RingCall} {ids : List String}
    (h : ∀ c ∈ calls, ∀ id ∈ c.nodeId?, id ∈ ids) : usedNodes calls ⊆ { id | id ∈ ids } := by
  rintro id ⟨c, hc, hid⟩
  exact h c hc id hid

theorem usedNodes_mono {calls calls' : List RingCall} (h : calls ⊆ calls') :
    usedNodes calls ⊆ usedNodes calls' := fun _ hused =>
  Exists.imp (fun _ hc => ⟨h hc.1, hc.2⟩) hused

/-- The labels of the virtual nodes of these nodes. -/
def vnodeLabels (replicas : Nat) (ids : Set String) : Set String :=
  { label | ∃ id ∈ ids, ∃ i < replicas, label = id ++ "-vnode-" ++ toString i }

/-- The nodes added and not removed since, after a call. -/
def RingCall.members (members : Finset String) : RingCall → Finset String
  | .addNode nodeId => insert nodeId members
  | .removeNode nodeId => members.erase nodeId
  | _ => members

/-- A ring with its current members. -/
structure TrackedRing where
  ring : ConsistentHashRing
  members : Finset String

/-- The last dash of a label stands before the number of the virtual node. -/
theorem cut_vnodeLabel (id : String) (i : Nat) :
    cut '-' (id ++ "-vnode-" ++ toString i).toList.reverse =
      some ((Nat.toDigits 10 i).reverse, (id.toList ++ "-vnode".toList).reverse) := by
  have hdash : '-' ∉ (Nat.toDigits 10 i).reverse := fun hmem =>
    absurd (Nat.isDigit_of_mem_toDigits (by decide) (by decide) (List.mem_reverse.mp hmem))
      (by decide)
  have hlabel : (id ++ "-vnode-" ++ toString i).toList.reverse =
      (Nat.toDigits 10 i).reverse ++ '-' :: (id.toList ++ "-vnode".toList).reverse := by
    simp [Nat.toString_eq_repr, Nat.toList_repr]
  rw [hlabel, cut_append hdash]

theorem vnodeLabel_injective {a b : String} {i j : Nat}
    (h : a ++ "-vnode-" ++ toString i = b ++ "-vnode-" ++ toString j) : a = b ∧ i = j := by
  have hcut := congrArg (fun label => cut '-' label.toList.reverse) h
  simp only [cut_vnodeLabel, Option.some.injEq, Prod.mk.injEq, List.reverse_inj,
    List.append_cancel_right_eq, String.toList_inj] at hcut
  have hnumber := congrArg parseDigits hcut.1
  rw [parseDigits_toDigits, parseDigits_toDigits, Option.some.injEq] at hnumber
  exact ⟨hcut.2, hnumber⟩

/-- Two virtual nodes share a key exactly if the hash takes their labels together. -/
theorem injOn_iff_collisionFree {hash : String → Nat} {replicas : Nat} {ids : Set String} :
    Set.InjOn hash (vnodeLabels replicas ids) ↔
      ConsistentHashRing.CollisionFree hash replicas ids := by
  constructor
  · intro injective a ha b hb i hi j hj heq
    exact vnodeLabel_injective (injective ⟨a, ha, i, hi, rfl⟩ ⟨b, hb, j, hj, rfl⟩ heq)
  · rintro free label ⟨a, ha, i, hi, rfl⟩ label' ⟨b, hb, j, hj, rfl⟩ heq
    obtain ⟨rfl, rfl⟩ := free a ha b hb i hi j hj heq
    rfl

namespace TrackedRing
open ConsistentHashRing

def new (replicas : Nat) : TrackedRing := ⟨ofReplicas replicas, ∅⟩

def step (hash : String → Nat) (s : TrackedRing) (c : RingCall) : TrackedRing × Unit :=
  (⟨(s.ring.handle hash c).1, c.members s.members⟩, ())

/-- The ring holds the virtual nodes of the members, all of which are among `ids`. -/
structure Tracks (hash : String → Nat) (replicas : Nat) (ids : Set String) (s : TrackedRing) :
    Prop where
  ringOk : RingOk hash s.ring s.members
  replicas : s.ring.replicas = replicas
  known : (s.members : Set String) ⊆ ids

section
variable {hash : String → Nat} {replicas : Nat} {ids : Set String}

theorem Tracks.step {s : TrackedRing} (inv : Tracks hash replicas ids s)
    (free : CollisionFree hash replicas ids) {c : RingCall} (hid : ∀ id, c.nodeId? = some id → id ∈ ids) :
    Tracks hash replicas ids (TrackedRing.step hash s c).1 := by
  obtain ⟨ok, rfl, known⟩ := inv
  cases c with
  | addNode nodeId =>
      obtain ⟨ok', hrep⟩ := ok.addNode free known (hid nodeId rfl)
      refine ⟨?_, hrep, ?_⟩
      · simpa [TrackedRing.step, RingCall.members, handle] using ok'
      · simpa [TrackedRing.step, RingCall.members] using Set.insert_subset (hid nodeId rfl) known
  | removeNode nodeId =>
      obtain ⟨ok', hrep⟩ := ok.removeNode free known (hid nodeId rfl)
      refine ⟨?_, hrep, ?_⟩
      · simpa [TrackedRing.step, RingCall.members, handle] using ok'
      · exact (Finset.coe_subset.mpr (Finset.erase_subset nodeId s.members)).trans known
  | getNode topic => exact ⟨ok, rfl, known⟩
  | getReplicas topic count => exact ⟨ok, rfl, known⟩

theorem tracks_run (free : CollisionFree hash replicas ids) {calls : List RingCall}
    (hused : usedNodes calls ⊆ ids) :
    Tracks hash replicas ids (run (step hash) (new replicas) calls) := by
  refine run_keeps (Tracks hash replicas ids) ?_ ?_
  · intro s c hc inv
    exact inv.step free fun id hid => hused ⟨c, hc, hid⟩
  · refine ⟨⟨⟨List.Pairwise.nil, fun key => ?_⟩, fun key node => ?_⟩, rfl, ?_⟩
    · simp [new, ofReplicas]
    · simp [new, ofReplicas]
    · simp [new]

/-- Whatever was added and removed, the ring is determined by its current members, and
a lookup takes them in the order in which they are met clockwise from the topic. -/
theorem lookups_depend_on_members (hash : String → Nat) {replicas : Nat} (hpos : 0 < replicas)
    (calls : List RingCall) (injective : Set.InjOn hash (vnodeLabels replicas (usedNodes calls))) :
    let s := run (step hash) (new replicas) calls
    (∀ calls', Set.InjOn hash (vnodeLabels replicas (usedNodes calls')) →
      let s' := run (step hash) (new replicas) calls'
      s'.members = s.members →
        (∀ key, s'.ring.ring.get? key = s.ring.ring.get? key) ∧
          s'.ring.sortedKeys = s.ring.sortedKeys) ∧
    ∀ topic, ∀ count : Int, 1 ≤ count → ∃ nodes,
      s.ring.getReplicas hash topic count = .ok nodes ∧
        nodes = (s.ring.order (hash topic)).take count.toNat ∧
        nodes.Nodup ∧ (∀ node ∈ nodes, node ∈ s.members) ∧
        nodes.length = min count.toNat s.members.card ∧
        (s.ring.ring.items ≠ [] → s.ring.getNode hash topic = .ok nodes.head?) := by
  intro s
  have inv : Tracks hash replicas (usedNodes calls) s :=
    tracks_run (injOn_iff_collisionFree.mp injective) (le_refl _)
  have hpos' : 0 < s.ring.replicas := inv.replicas ▸ hpos
  constructor
  · intro calls' injective' s' hmembers
    have inv' : Tracks hash replicas (usedNodes calls') s' :=
      tracks_run (injOn_iff_collisionFree.mp injective') (le_refl _)
    have ok' := inv'.ringOk
    rw [hmembers] at ok'
    exact inv.ringOk.unique ok' (inv'.replicas.trans inv.replicas.symm)
  · intro topic count hcount
    have hlength := inv.ringOk.length_order hpos' (hash topic)
    refine ⟨_, inv.ringOk.keysOk.getReplicas hash topic hcount, rfl,
      (order_nodup _).sublist (List.take_sublist _ _), ?_, ?_, fun _ => ?_⟩
    · intro node hnode
      exact inv.ringOk.of_mem_order (List.mem_of_mem_take hnode)
    · rw [List.length_take, hlength]
    · rw [inv.ringOk.keysOk.getNode, List.head?_take, if_neg (by omega)]

/-- A node that leaves and comes back. -/
def comesBack : List RingCall := [.addNode "b1", .addNode "b2", .removeNode "b1", .addNode "b1"]

theorem injOn_comesBack :
    Set.InjOn md5Hash (vnodeLabels 50 (insert "b2" (usedNodes comesBack))) := by
  have hused : insert "b2" (usedNodes comesBack) ⊆ { id | id ∈ ["b1", "b2"] } :=
    Set.insert_subset (by simp) (usedNodes_subset (by decide))
  exact injOn_iff_collisionFree.mpr (collisionFree_twoBrokers.mono hused)

theorem lookups_depend_on_members_comesBack :
    ∃ nodes, (run (step md5Hash) (new 50) comesBack).ring.getReplicas md5Hash "t" 3 = .ok nodes ∧
      nodes.Nodup ∧ nodes.length = 2 := by
  have hlookups := (lookups_depend_on_members md5Hash (Nat.succ_pos 49) comesBack
    (injOn_comesBack.mono (by
      rintro label ⟨id, hid, hlabel⟩
      exact ⟨id, Set.mem_insert_of_mem _ hid, hlabel⟩))).2 "t" 3 (by decide)
  obtain ⟨nodes, hnodes, -, nodup, -, hlength, -⟩ := hlookups
  exact ⟨nodes, hnodes, nodup, hlength.trans (by decide)⟩

/-- Where a removed node stood in a list, the others close ranks; no other lookup of a
node changes; and a node that was added and removed again leaves no trace. -/
theorem removeNode_keeps_order (hash : String → Nat) (replicas : Nat) (calls : List RingCall)
    (x : String) (injective : Set.InjOn hash (vnodeLabels replicas (insert x (usedNodes calls)))) :
    let s := run (step hash) (new replicas) calls
    (x ∈ s.members → ∀ topic,
      (∀ count : Int, s.members.card ≤ count → ∃ nodes,
        s.ring.getReplicas hash topic count = .ok nodes ∧
          (s.ring.removeNode hash x).getReplicas hash topic count = .ok (nodes.erase x)) ∧
      (s.ring.getNode hash topic ≠ .ok (some x) →
        (s.ring.removeNode hash x).getNode hash topic = s.ring.getNode hash topic)) ∧
    (x ∉ s.members → ∀ topic,
      ((s.ring.addNode hash x).removeNode hash x).getNode hash topic =
          s.ring.getNode hash topic ∧
        ∀ count, ((s.ring.addNode hash x).removeNode hash x).getReplicas hash topic count =
          s.ring.getReplicas hash topic count) := by
  intro s
  have free := injOn_iff_collisionFree.mp injective
  have inv : Tracks hash replicas (insert x (usedNodes calls)) s :=
    tracks_run free (Set.subset_insert x _)
  obtain ⟨ok, hrep, known⟩ := inv
  rw [← hrep] at free
  have hx : x ∈ insert x (usedNodes calls) := Set.mem_insert x _
  constructor
  · intro hmember topic
    have ok' := (ok.removeNode free known hx).1
    have horder := ok.order_removeNode free known hx (hash topic)
    constructor
    · intro count hcount
      have hcard : 0 < s.members.card := Finset.card_pos.mpr ⟨x, hmember⟩
      have hle := ok.length_order_le (hash topic)
      have hwhole : ∀ nodes : List String, nodes.length ≤ s.members.card →
          nodes.take count.toNat = nodes := fun nodes h => List.take_of_length_le (by omega)
      refine ⟨_, ok.keysOk.getReplicas hash topic (by omega), ?_⟩
      have hshort := List.length_filter_le (fun node => decide (node ≠ x)) (s.ring.order (hash topic))
      rw [ok'.keysOk.getReplicas hash topic (by omega), horder, hwhole _ hle,
        hwhole _ (hshort.trans hle), (order_nodup _).erase_eq_filter]
      refine congrArg _ (List.filter_congr fun node _ => ?_)
      by_cases hnode : node = x <;> simp [hnode]
    · intro hother
      rw [ok.keysOk.getNode] at hother ⊢
      rw [ok'.keysOk.getNode, horder]
      cases hnodes : s.ring.order (hash topic) with
      | nil => rfl
      | cons first rest =>
          have hne : first ≠ x := fun heq => hother (by rw [hnodes, List.head?_cons, heq])
          rw [List.filter_cons_of_pos (by simpa using hne), List.head?_cons, List.head?_cons]
  · intro habsent topic
    obtain ⟨okAdd, hrepAdd⟩ := ok.addNode free known hx
    rw [← hrepAdd] at free
    obtain ⟨okBack, hrepBack⟩ := okAdd.removeNode free (Set.insert_subset hx known) hx
    have hmembers : insert x (s.members : Set String) \ {x} = s.members :=
      Set.insert_sdiff_self_of_notMem habsent
    rw [hmembers] at okBack
    obtain ⟨hring, hkeys⟩ := ok.unique okBack (hrepBack.trans hrepAdd)
    exact lookups_congr hkeys hring hash topic

theorem removeNode_keeps_order_comesBack :
    let s := run (step md5Hash) (new 50) comesBack
    ∃ nodes, s.ring.getReplicas md5Hash "t" 2 = .ok nodes ∧
      (s.ring.removeNode md5Hash "b2").getReplicas md5Hash "t" 2 = .ok (nodes.erase "b2") :=
  ((removeNode_keeps_order md5Hash 50 comesBack "b2" injOn_comesBack).1 (by decide) "t").1 2
    (by decide)

/-- With more members, a lookup gives what it gave before but for the new nodes. Those that
were there keep their order; as many of them as there are new nodes may drop out behind. -/
theorem joins_displace_only_for_new (hash : String → Nat) (replicas : Nat)
    (calls calls' : List RingCall)
    (injective : Set.InjOn hash (vnodeLabels replicas (usedNodes (calls ++ calls')))) :
    let s := run (step hash) (new replicas) calls
    let s' := run (step hash) (new replicas) calls'
    s.members ⊆ s'.members → ∀ topic,
      (∀ node ∈ s.members, s'.ring.getNode hash topic = .ok (some node) →
        s.ring.getNode hash topic = .ok (some node)) ∧
      ∀ count : Int, 1 ≤ count → ∃ before after displaced,
        s.ring.getReplicas hash topic count = .ok before ∧
        s'.ring.getReplicas hash topic count = .ok after ∧
        before = after.filter (fun node => decide (node ∈ s.members)) ++ displaced ∧
        displaced.length ≤ (after.filter fun node => decide (node ∉ s.members)).length := by
  intro s s' hsub topic
  have free := injOn_iff_collisionFree.mp injective
  have inv : Tracks hash replicas (usedNodes (calls ++ calls')) s :=
    tracks_run free (usedNodes_mono (List.subset_append_left calls calls'))
  have inv' : Tracks hash replicas (usedNodes (calls ++ calls')) s' :=
    tracks_run free (usedNodes_mono (List.subset_append_right calls calls'))
  have horder := inv.ringOk.order_subset inv'.ringOk (inv'.replicas.trans inv.replicas.symm) hsub
    (hash topic)
  constructor
  · intro node hnode hget
    rw [inv'.ringOk.keysOk.getNode] at hget
    rw [inv.ringOk.keysOk.getNode, horder]
    cases hnodes : s'.ring.order (hash topic) with
    | nil => simp [hnodes] at hget
    | cons first rest =>
        obtain rfl : first = node := by simpa [hnodes] using hget
        rw [List.filter_cons_of_pos (by simpa using hnode), List.head?_cons]
  · intro count hcount
    have hafter := inv'.ringOk.keysOk.getReplicas hash topic hcount
    have hbefore := inv.ringOk.keysOk.getReplicas hash topic hcount
    obtain ⟨displaced, heq, hlength⟩ := take_filter_eq
      (fun node => decide (node ∈ s.members)) (s'.ring.order (hash topic)) count.toNat
    rw [horder, heq] at hbefore
    simp only [← decide_not] at hlength
    exact ⟨_, _, displaced, hbefore, hafter, rfl, hlength⟩

theorem joins_displace_only_for_new_comesBack :
    ∃ before after displaced,
      (run (step md5Hash) (new 50) [.addNode "b2"]).ring.getReplicas md5Hash "t" 1 = .ok before ∧
      (run (step md5Hash) (new 50) comesBack).ring.getReplicas md5Hash "t" 1 = .ok after ∧
      before = after.filter (fun node => decide (node ∈ ({"b2"} : Finset String))) ++
        displaced := by
  have hused : usedNodes ([.addNode "b2"] ++ comesBack) ⊆ { id | id ∈ ["b1", "b2"] } :=
    usedNodes_subset (by decide)
  have hinj := injOn_iff_collisionFree.mpr (collisionFree_twoBrokers.mono hused)
  obtain ⟨before, after, displaced, hbefore, hafter, heq, -⟩ :=
    (joins_displace_only_for_new md5Hash 50 [.addNode "b2"] comesBack hinj (by decide) "t").2 1
      (by decide)
  exact ⟨before, after, displaced, hbefore, hafter, heq⟩

end
end TrackedRing
end PyLogStream
