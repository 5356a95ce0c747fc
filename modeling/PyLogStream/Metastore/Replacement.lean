import PyLogStream.Metastore.Election
import PyLogStream.Metastore.Lookups

/-!
How `deregister_broker` replaces a replica. The refill takes the first nodes clockwise
from the topic and skips those already chosen; as many are missing as can be found
among them. So in every state the replicas of a topic are different registered
brokers, no more than the replication factor, and after a deregistration a topic of
the broker has as many of them as there can be.
-/

namespace PyLogStream
open Lib ConsistentHashRing

/-- The refill appends the nodes it has not seen, as many as are missing. -/
theorem refill_eq {count : Int} {hReplicas chosen : List String} (nodup : hReplicas.Nodup) {k : Nat}
    (hk : 0 < k) (hcount : ((chosen.length + k : Nat) : Int) = count) :
    Metastore.refill count hReplicas chosen =
      chosen ++ (hReplicas.filter fun r => decide (r ∉ chosen)).take k := by
  induction hReplicas generalizing chosen k with
  | nil => simp [Metastore.refill]
  | cons r rest ih =>
      rw [List.nodup_cons] at nodup
      unfold Metastore.refill
      by_cases hin : r ∈ chosen
      · rw [if_pos hin, ih nodup.2 hk hcount, List.filter_cons_of_neg (by simpa using hin)]
      · have hlen : (chosen ++ [r]).length = chosen.length + 1 := by simp
        have hrest : (rest.filter fun b => decide (b ∉ chosen ++ [r])) =
            rest.filter fun b => decide (b ∉ chosen) := by
          refine List.filter_congr fun b hb => ?_
          have hne : b ≠ r := fun heq => nodup.1 (heq ▸ hb)
          simp [hne]
        obtain ⟨k, rfl⟩ : ∃ m, k = m + 1 := ⟨k - 1, by omega⟩
        rw [if_neg hin, List.filter_cons_of_pos (by simpa using hin), List.take_succ_cons, hlen]
        by_cases hk0 : k = 0
        · rw [if_pos (by omega), hk0, List.take_zero]
        · rw [if_neg (by omega), ih nodup.2 (k := k) (by omega) (by omega), hrest,
            List.append_assoc, List.singleton_append]

section
variable (replicasPerTopic : Int) (activeNodeIds : List String) (nodeId : String)

/-- The replicas of a topic once the broker is replaced by nodes of the ring, if any node
is registered. -/
def TopicMetadata.replaced (anyNode : Bool) (hReplicas : List String) (t : TopicMetadata) :
    List String :=
  if nodeId ∈ t.replicaList then
    if ((t.survivors nodeId).length : Int) < replicasPerTopic ∧ anyNode = true then
      Metastore.refill replicasPerTopic hReplicas (t.survivors nodeId)
    else t.survivors nodeId
  else t.replicaList

theorem replaceReplica_eq {hash : String → Nat} {s : MetastoreManager} {t : TopicMetadata}
    {hReplicas : List String}
    (hring : s.ring.getReplicas hash t.topic replicasPerTopic = .ok hReplicas) :
    s.exec hash (Metastore.replaceReplica replicasPerTopic activeNodeIds nodeId t) =
      (s, .ok (t.replaced replicasPerTopic nodeId (decide (activeNodeIds ≠ [])) hReplicas)) := by
  have hcall : s.exec hash (Ring.getReplicas t.topic replicasPerTopic) = (s, .ok hReplicas) := by
    simp [MetastoreManager.exec, Ring.getReplicas, Prog.perform, Prog.exec,
      MetastoreManager.handle, ConsistentHashRing.handle, hring, Except.mapError]
  unfold Metastore.replaceReplica TopicMetadata.replaced TopicMetadata.survivors
  simp only [decide_eq_true_eq]
  by_cases hin : nodeId ∈ t.replicaList
  · rw [if_pos hin, if_pos hin]
    by_cases hfew : ((t.replicaList.filter fun r => decide (r ≠ nodeId)).length : Int) <
        replicasPerTopic ∧ activeNodeIds ≠ []
    · rw [if_pos hfew, if_pos hfew, MetastoreManager.exec_bind hcall]
      rfl
    · rw [if_neg hfew, if_neg hfew]
      rfl
  · rw [if_neg hin, if_neg hin]
    rfl

end

/-- The replicas of every topic are different, and not too many. -/
def ReplicasOk (replicasPerTopic : Int) (s : MetastoreManager) : Prop :=
  ∀ name t, s.storage.topics.get? name = some t →
    t.replicaList.Nodup ∧ (t.replicaList.length : Int) ≤ replicasPerTopic

section
variable {hash : String → Nat} {ids : Set String} {replicasPerTopic : Int} {s : MetastoreManager}

/-- Whom `_elect_leader` elects, where the ring answers. -/
theorem Elected.eq_first {ring : ConsistentHashRing} {t : TopicMetadata} {leader : String}
    {node : Option String} (h : Elected hash ring t leader)
    (hnode : ring.getNode hash t.topic = .ok node) :
    leader = ((t.isrList.head?.or t.replicaList.head?).or node).getD "" := by
  cases t with
  | mk topic leaderId replicaList isrList version =>
      cases isrList with
      | cons first isr => exact h
      | nil =>
          cases replicaList with
          | cons first replicas => exact h
          | nil =>
              obtain ⟨node', hnode', rfl⟩ := h
              rw [Except.ok.inj (hnode.symm.trans hnode')]
              rfl

theorem coe_keys (s : MetastoreManager) :
    (s.storage.nodes.keys.toFinset : Set String) = s.registered := by
  ext id
  rw [mem_registered, Finset.mem_coe, List.mem_toFinset]

/-- A topic that loses a replica gets as many as there can be. -/
theorem MetastoreOk.replaced (ok : MetastoreOk hash ids s) (free : CollisionFree hash 50 ids)
    {x : String} (hid : x ∈ ids) (hcount : 1 ≤ replicasPerTopic) {name : String}
    {t : TopicMetadata} (hget : s.storage.topics.get? name = some t) (hin : x ∈ t.replicaList)
    (nodup : t.replicaList.Nodup) (hlength : (t.replicaList.length : Int) ≤ replicasPerTopic) :
    let order := (s.without hash x).ring.order (hash t.topic)
    let replaced := t.replaced replicasPerTopic x
      (decide ((s.without hash x).activeNodeIds ≠ [])) (order.take replicasPerTopic.toNat)
    t.survivors x <+: replaced ∧ replaced.Nodup ∧
      (replaced.length : Int) = min replicasPerTopic (s.storage.nodes.erase x).size := by
  intro order replaced
  obtain ⟨ring, hrep⟩ := ok.without free hid
  have hregistered : (s.without hash x).registered = s.registered \ {x} := registered_erase rfl
  rw [← hregistered, ← coe_keys] at ring
  have hsize : order.length = (s.storage.nodes.erase x).size := by
    have hkeys : (s.storage.nodes.erase x).keys.Nodup := (s.storage.nodes.erase x).nodup
    rw [ring.length_order (by omega)]
    exact (List.toFinset_card_of_nodup hkeys).trans (List.length_map _)
  have hsurvivors : (t.survivors x).Nodup := nodup.filter _
  have hsub : t.survivors x ⊆ order := by
    intro r hr
    obtain ⟨hold, hne⟩ := List.mem_filter.mp hr
    rw [ring.mem_order (by omega), coe_keys, hregistered]
    exact ⟨ok.placed name t hget r hold, by simpa using hne⟩
  have hfew : (t.survivors x).length < t.replicaList.length :=
    List.length_filter_lt_length_iff_exists.mpr ⟨x, hin, by simp⟩
  by_cases hactive : (s.without hash x).activeNodeIds = []
  · have hnobody : (s.storage.nodes.erase x).size = 0 := by
      have hvalues := congrArg List.length hactive
      simpa [MetastoreManager.activeNodeIds, Dict.values, Dict.size,
        MetastoreManager.without] using hvalues
    have hnil : t.survivors x = [] := by
      have hle := (List.Nodup.subperm hsurvivors hsub).length_le
      exact List.length_eq_zero_iff.mp (by omega)
    have hreplaced : replaced = [] := by
      simp [replaced, TopicMetadata.replaced, hin, hactive, hnil]
    rw [hreplaced, hnil, hnobody]
    exact ⟨List.nil_prefix, List.nodup_nil, by simp; omega⟩
  · have hchosen : (t.survivors x).length ≤ replicasPerTopic.toNat := by omega
    have hreplaced : replaced = t.survivors x ++
        ((order.take replicasPerTopic.toNat).filter fun r => decide (r ∉ t.survivors x)).take
          (replicasPerTopic.toNat - (t.survivors x).length) := by
      simp only [replaced, TopicMetadata.replaced, if_pos hin]
      rw [if_pos ⟨by omega, decide_eq_true hactive⟩]
      exact refill_eq ((order_nodup _).sublist (List.take_sublist _ _)) (by omega) (by omega)
    have htop := length_topUp (order_nodup _) hsurvivors hsub hchosen
    rw [← hreplaced, hsize] at htop
    refine ⟨hreplaced ▸ List.prefix_append _ _, ?_, by omega⟩
    rw [hreplaced]
    refine hsurvivors.append ?_ fun r hr hnew => ?_
    · exact (((order_nodup _).sublist (List.take_sublist _ _)).filter _).sublist
        (List.take_sublist _ _)
    · have hfilter := List.mem_filter.mp (List.mem_of_mem_take hnew)
      exact (by simpa using hfilter.2 : r ∉ t.survivors x) hr

/-- What `deregister_broker` makes of the topics, with the replicas it finds for them. -/
theorem MetastoreOk.deregister_replaced (ok : MetastoreOk hash ids s)
    (free : CollisionFree hash 50 ids) (hcount : 1 ≤ replicasPerTopic) {x : String} (hid : x ∈ ids) :
    ∃ updated, (s.apply hash replicasPerTopic (.deregisterBroker x)).2 =
        .ok (.updatedTopics updated) ∧
      let s' := (s.apply hash replicasPerTopic (.deregisterBroker x)).1
      s'.ring = (s.without hash x).ring ∧ s'.storage.nodes = s.storage.nodes.erase x ∧
      s.TopicsTo (fun t t' =>
        Deregistered replicasPerTopic (s.without hash x).activeNodeIds x hash
          (s.without hash x).ring (s.registered \ {x}) t t' ∧
        t'.replicaList = t.replaced replicasPerTopic x
          (decide ((s.without hash x).activeNodeIds ≠ []))
          (((s.without hash x).ring.order (hash t.topic)).take replicasPerTopic.toNat)) s' := by
  obtain ⟨ring, -⟩ := ok.without free hid
  obtain ⟨s', updated, hexec, hring, hnodes, htopics, -⟩ :=
    deregisterBroker_each replicasPerTopic x ok.named
      (R := fun t t' =>
        Deregistered replicasPerTopic (s.without hash x).activeNodeIds x hash
          (s.without hash x).ring (s.registered \ {x}) t t' ∧
        t'.replicaList = t.replaced replicasPerTopic x
          (decide ((s.without hash x).activeNodeIds ≠ []))
          (((s.without hash x).ring.order (hash t.topic)).take replicasPerTopic.toNat))
      fun s₁ (hring₁ : s₁.ring = (s.without hash x).ring) t hget => by
        rw [← hring₁] at ring ⊢
        have hvalue := replaceReplica_eq replicasPerTopic (s.without hash x).activeNodeIds x
          (s := s₁) (ring.keysOk.getReplicas hash t.topic hcount)
        obtain ⟨newReplicas, hreplicas, hround⟩ := deregisterTopic_replaced replicasPerTopic
          (s.without hash x).activeNodeIds x ring hget
        rw [hvalue] at hreplicas
        obtain rfl := Except.ok.inj (congrArg Prod.snd hreplicas)
        rcases hround with ⟨hin, hleader, hexec⟩ | ⟨t', hhomed, hreplaced, hexec⟩
        · exact Or.inl ⟨⟨Or.inl ⟨rfl, hin, hleader⟩, (if_neg hin).symm⟩, hexec⟩
        · exact Or.inr ⟨t', hhomed.topic, ⟨Or.inr hhomed, hreplaced⟩, hexec⟩
  have happly : s.apply hash replicasPerTopic (.deregisterBroker x) =
      (s', .ok (.updatedTopics updated)) := MetastoreManager.apply_state hexec _
  rw [happly]
  exact ⟨updated, rfl, hring, hnodes, htopics⟩

theorem ReplicasOk.setTopic (replicas : ReplicasOk replicasPerTopic s) {t : TopicMetadata}
    (h : t.replicaList.Nodup ∧ (t.replicaList.length : Int) ≤ replicasPerTopic) :
    ReplicasOk replicasPerTopic (s.setTopic t) := by
  intro name t' hget
  rw [MetastoreManager.setTopic_get?] at hget
  split at hget
  · exact Option.some.inj hget ▸ h
  · exact replicas name t' hget

theorem ReplicasOk.apply (replicas : ReplicasOk replicasPerTopic s) (ok : MetastoreOk hash ids s)
    (free : CollisionFree hash 50 ids) (hcount : 1 ≤ replicasPerTopic) {op : MetastoreOp}
    (hid : ∀ id, op.broker? = some id → id ∈ ids) :
    ReplicasOk replicasPerTopic (s.apply hash replicasPerTopic op).1 := by
  cases op with
  | registerBroker nodeId host port => exact replicas
  | deregisterBroker x =>
      obtain ⟨updated, -, -, -, htopics⟩ := ok.deregister_replaced free hcount (hid x rfl)
      obtain ⟨-, -, hfrom⟩ := ok.deregister free replicasPerTopic (hid x rfl)
      intro name t' hget'
      obtain ⟨t, hget, -⟩ := hfrom name t' hget'
      obtain ⟨t₁, hget₁, -, hreplaced⟩ := htopics name t hget
      obtain rfl := Option.some.inj (hget'.symm.trans hget₁)
      obtain ⟨nodup, hlength⟩ := replicas name t hget
      by_cases hin : x ∈ t.replicaList
      · obtain ⟨-, hnodup, hmin⟩ :=
          ok.replaced free (hid x rfl) hcount hget hin nodup hlength
        rw [hreplaced]
        exact ⟨hnodup, hmin ▸ min_le_left _ _⟩
      · rw [hreplaced, TopicMetadata.replaced, if_neg hin]
        exact ⟨nodup, hlength⟩
  | registerTopic topicName =>
      rcases registerTopic_spec replicasPerTopic ok.ring topicName with
        ⟨t, -, hexec⟩ | ⟨hReplicas, -, hring, -, hexec⟩
      · rw [MetastoreManager.apply, MetastoreOp.program, MetastoreManager.apply_state hexec]
        exact replicas
      · rw [MetastoreManager.apply, MetastoreOp.program, MetastoreManager.apply_state hexec]
        rw [ok.ring.keysOk.getReplicas hash topicName hcount] at hring
        obtain rfl := Except.ok.inj hring
        refine replicas.setTopic ⟨(order_nodup _).sublist (List.take_sublist _ _), ?_⟩
        have hle := List.length_take_le replicasPerTopic.toNat (s.ring.order (hash topicName))
        simp only
        omega
  | updateTopicIsr topicName isrList =>
      rcases updateTopicIsr_spec ok.ring ok.named topicName isrList with
        ⟨-, hexec⟩ | ⟨t, leader, hget, -, -, hexec⟩
      · rw [MetastoreManager.apply, MetastoreOp.program, MetastoreManager.apply_state hexec]
        exact replicas
      · rw [MetastoreManager.apply, MetastoreOp.program, MetastoreManager.apply_state hexec]
        exact replicas.setTopic (replicas topicName t hget)

end

/-- In every state reached, a deregistration replaces the broker by as many registered
brokers as there can be, elects the first in-sync replica that is left, and changes no
topic that it was not a part of. -/
theorem deregister_replaces (hash : String → Nat) {replicasPerTopic : Int}
    (hcount : 1 ≤ replicasPerTopic) (ops : List MetastoreOp) (x : String)
    (free : CollisionFree hash 50 (brokersOf (ops ++ [.deregisterBroker x]))) :
    let s := run (MetastoreManager.apply hash replicasPerTopic) MetastoreManager.new ops
    let s' := (s.apply hash replicasPerTopic (.deregisterBroker x)).1
    (∃ updated, (s.apply hash replicasPerTopic (.deregisterBroker x)).2 =
      .ok (.updatedTopics updated)) ∧
    s.TopicsTo (fun t t' =>
      (x ∈ t.replicaList →
        t.survivors x <+: t'.replicaList ∧ t'.replicaList.Nodup ∧
          (∀ r ∈ t'.replicaList, r ∈ s'.storage.nodes.keys ∧ r ≠ x) ∧
          (t'.replicaList.length : Int) = min replicasPerTopic s'.storage.nodes.size) ∧
      (t.leaderId = x → ∃ node, s'.ring.getNode hash t.topic = .ok node ∧
        t'.leaderId = (((t.isrList.filter fun r => decide (r ≠ x)).head?.or
          t'.replicaList.head?).or node).getD "") ∧
      (x ∈ t.replicaList ∨ t.leaderId = x → t'.version = t.version + 1) ∧
      (x ∉ t.replicaList → t.leaderId ≠ x → t' = t)) s' := by
  intro s s'
  have hids : ∀ op ∈ ops ++ [.deregisterBroker x], ∀ id, op.broker? = some id →
      id ∈ brokersOf (ops ++ [.deregisterBroker x]) := fun op hop id hid => ⟨op, hop, hid⟩
  have inv : MetastoreOk hash (brokersOf (ops ++ [.deregisterBroker x])) s ∧
      ReplicasOk replicasPerTopic s := by
    refine run_keeps (fun s => MetastoreOk hash _ s ∧ ReplicasOk replicasPerTopic s) ?_
      ⟨metastoreOk_new hash _, fun name t hget => by cases hget⟩
    intro s op hop inv
    have hid := hids op (List.mem_append_left _ hop)
    exact ⟨inv.1.apply free hid, inv.2.apply inv.1 free hcount hid⟩
  obtain ⟨ok, replicas⟩ := inv
  have hx : x ∈ brokersOf (ops ++ [.deregisterBroker x]) := hids (.deregisterBroker x) (by simp) x rfl
  have ok' : MetastoreOk hash _ s' := ok.apply free fun id hid => Option.some.inj hid ▸ hx
  obtain ⟨updated, hresult, hring, hnodes, htopics⟩ := ok.deregister_replaced free hcount hx
  refine ⟨⟨updated, hresult⟩, fun name t hget => ?_⟩
  obtain ⟨t', hget', hder, hreplaced⟩ := htopics name t hget
  obtain ⟨nodup, hlength⟩ := replicas name t hget
  refine ⟨t', hget', fun hin => ?_, fun hleader => ?_, fun hinvolved => ?_, fun hin hleader => ?_⟩
  · obtain ⟨hfirst, hnodup, hmin⟩ := ok.replaced free hx hcount hget hin nodup hlength
    rw [← hreplaced] at hfirst hnodup hmin
    refine ⟨hfirst, hnodup, fun r hr => ?_, hnodes ▸ hmin⟩
    have hplaced := mem_registered.mp (ok'.placed name t' hget' r hr)
    refine ⟨hplaced, ?_⟩
    rintro rfl
    rw [hnodes, Dict.keys_erase] at hplaced
    simpa using (List.mem_filter.mp hplaced).2
  · rcases hder with ⟨-, -, hne⟩ | homed
    · exact absurd hleader hne
    · obtain ⟨node, hnode⟩ : ∃ node, s'.ring.getNode hash t.topic = .ok node :=
        ⟨_, ok'.ring.keysOk.getNode hash t.topic⟩
      have helected := (homed.elected hleader).eq_first (by rw [← hring, homed.topic]; exact hnode)
      rw [homed.isr, if_pos hleader] at helected
      exact ⟨node, hnode, helected⟩
  · rcases hder with ⟨-, hnot, hne⟩ | homed
    · exact absurd hinvolved (not_or.mpr ⟨hnot, hne⟩)
    · exact homed.version
  · rcases hder with ⟨heq, -, -⟩ | homed
    · exact heq
    · exact absurd homed.involved (not_or.mpr ⟨hin, hleader⟩)

theorem deregister_replaces_leader :
    let s := run (MetastoreManager.apply md5Hash 2) MetastoreManager.new twoBrokers
    let s' := (s.apply md5Hash 2 (.deregisterBroker "b2")).1
    ∃ t', s'.storage.topics.get? "t" = some t' ∧ t'.replicaList.length = 1 ∧
      t'.leaderId = "b1" ∧ t'.version = 2 := by
  have heval : (run (MetastoreManager.apply md5Hash 2) MetastoreManager.new
        twoBrokers).storage.topics.get? "t" = some ⟨"t", "b2", ["b2", "b1"], ["b2", "b1"], 1⟩ ∧
      min 2 (((run (MetastoreManager.apply md5Hash 2) MetastoreManager.new twoBrokers).apply
        md5Hash 2 (.deregisterBroker "b2")).1.storage.nodes.size : Int) = 1 := by decide +kernel
  obtain ⟨-, hreplaces⟩ := deregister_replaces md5Hash (by decide : (1 : Int) ≤ 2) twoBrokers "b2"
    (collisionFree_twoBrokers.mono brokersOf_twoBrokers)
  obtain ⟨t', hget, hreplaced, hleader, hversion, -⟩ := hreplaces "t" _ heval.1
  obtain ⟨-, -, -, hlength⟩ := hreplaced (by decide)
  obtain ⟨node, -, hfirst⟩ := hleader rfl
  exact ⟨t', hget, Int.ofNat.inj (hlength.trans heval.2), hfirst.trans (by simp),
    hversion (Or.inr rfl)⟩

end PyLogStream
