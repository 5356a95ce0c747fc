import PyLogStream.Metastore.Calls
import PyLogStream.Metastore.Effects

/-!
What the manager operations leave of the topics over any ring. Colliding keys can
make a ring raise in the middle of an operation, so these lemmas speak of the state
that is left and not of the result. `Kept` says what `deregister_broker` makes of
one topic, whether it reaches the topic or not.
-/

namespace PyLogStream
open Lib

section
variable {hash : String → Nat} {s : MetastoreManager}

theorem MetastoreManager.TopicsNamed.setTopic (named : s.TopicsNamed) (t : TopicMetadata) :
    (s.setTopic t).TopicsNamed := by
  intro name t' h
  rw [setTopic_get?] at h
  split at h
  · next heq =>
      cases h
      exact heq.symm
  · exact named name t' h

section
variable (nodeId : String)

/-- The in-sync list of a topic when a broker leaves. -/
def TopicMetadata.isrWithout (t : TopicMetadata) : List String :=
  if t.leaderId = nodeId then t.isrList.filter fun r => decide (r ≠ nodeId) else t.isrList

/-- A topic is as before, or the broker has left it: only the topics it has led lose it
from their in-sync list and get a new leader, the first of that list if there is one. -/
def Kept (t t' : TopicMetadata) : Prop :=
  t' = t ∨ t'.topic = t.topic ∧ t'.isrList = t.isrWithout nodeId ∧
    (t.leaderId ≠ nodeId → t'.leaderId = t.leaderId) ∧
    (t.leaderId = nodeId → ∀ r, (t.isrWithout nodeId).head? = some r → t'.leaderId = r)

theorem Kept.topic {nodeId : String} {t t' : TopicMetadata} (h : Kept nodeId t t') :
    t'.topic = t.topic := by
  cases h with
  | inl heq => rw [heq]
  | inr h => exact h.1

/-- The call only asks the ring. -/
def AsksRing : MetastoreCall → Prop
  | .ring (.getNode _) | .ring (.getReplicas _ _) => True
  | _ => False

theorem AsksRing.exec {α : Type} {p : MetastoreProg MetastoreError α} {Q : α → Prop}
    (h : p.Within AsksRing Q) : (s.exec hash p).1 = s := by
  have keep : ∀ (s' : MetastoreManager) c, AsksRing c → s' = s → (s'.handle hash c).1 = s := by
    intro s' c hc hs
    cases c with
    | ring c =>
        cases c with
        | getNode topic | getReplicas topic count => exact hs
        | addNode nodeId | removeNode nodeId => exact hc.elim
    | _ => exact hc.elim
  exact h.exec_keeps keep rfl

/-- An election from a non-empty in-sync list takes the first. -/
theorem electLeader_first {t : TopicMetadata} {r : String} (hfirst : t.isrList.head? = some r)
    {s' : MetastoreManager} {leader : String}
    (h : s.exec hash (Metastore.electLeader t) = (s', .ok leader)) : leader = r := by
  cases hisr : t.isrList with
  | nil =>
      rw [hisr] at hfirst
      cases hfirst
  | cons first rest =>
      simp only [Metastore.electLeader, hisr] at h
      cases h
      rw [hisr] at hfirst
      exact Option.some.inj hfirst

theorem reelect_result {needed : Prop} [Decidable needed] {t t' : TopicMetadata}
    {s' : MetastoreManager} (h : s.exec hash (Metastore.reelect needed t) = (s', .ok t')) :
    ∃ leader, t' = { t with leaderId := leader } ∧ (¬ needed → leader = t.leaderId) ∧
      (needed → ∀ r, t.isrList.head? = some r → leader = r) := by
  simp only [Metastore.reelect] at h
  split at h
  · next hneeded =>
      obtain ⟨s₁, leader, hleader, hpure⟩ := Prog.exec_bind_returns h
      cases hpure
      exact ⟨leader, rfl, fun h => absurd hneeded h,
        fun _ r hfirst => electLeader_first hfirst hleader⟩
  · next hnot =>
      cases h
      exact ⟨t.leaderId, rfl, fun _ => rfl, fun h => absurd h hnot⟩

theorem updateTopic_state (t : TopicMetadata) :
    (s.exec hash (Storage.updateTopic t)).1 = s ∨
      (s.exec hash (Storage.updateTopic t)).1 = s.setTopic t := by
  rw [show (s.exec hash (Storage.updateTopic t)).1 = _ from Prog.exec_perform_state s _]
  simp only [MetastoreManager.handle]
  split
  · exact Or.inl rfl
  · exact Or.inr rfl

/-- One round of the loop writes nothing, or its own topic. -/
theorem deregisterTopic_state (replicasPerTopic : Int) (activeNodeIds : List String)
    (t : TopicMetadata) :
    let s' := (s.exec hash (Metastore.deregisterTopic replicasPerTopic activeNodeIds nodeId t)).1
    s' = s ∨ ∃ t', Kept nodeId t t' ∧ s' = s.setTopic t' := by
  let P : MetastoreManager → Prop := fun s' => s' = s ∨ ∃ t', Kept nodeId t t' ∧ s' = s.setTopic t'
  have hreplace : (s.exec hash
      (Metastore.replaceReplica replicasPerTopic activeNodeIds nodeId t)).1 = s :=
    AsksRing.exec (replaceReplica_within _ _ _ (fun _ _ => trivial) t)
  refine Prog.exec_bind_state P (Or.inl hreplace) fun s₁ newReplicas h₁ => ?_
  obtain rfl : s₁ = s := (congrArg Prod.fst h₁).symm.trans hreplace
  have hreelect : (s₁.exec hash (Metastore.reelect (t.leaderId = nodeId)
      { t with replicaList := newReplicas, isrList := t.isrWithout nodeId })).1 = s₁ :=
    AsksRing.exec (reelect_within (fun _ => trivial) _ _)
  refine Prog.exec_bind_state P (Or.inl hreelect) fun s₂ newMeta h₂ => ?_
  obtain rfl : s₂ = s₁ := (congrArg Prod.fst h₂).symm.trans hreelect
  obtain ⟨leader, rfl, hsame, helected⟩ := reelect_result h₂
  split
  · have hkept : Kept nodeId t
        { t with
          leaderId := leader
          replicaList := newReplicas
          isrList := t.isrWithout nodeId
          version := t.version + 1 } := Or.inr ⟨rfl, rfl, hsame, helected⟩
    change P (s₂.exec hash (Storage.updateTopic _ >>= fun _ => pure _)).1
    rw [show (s₂.exec hash (Storage.updateTopic _ >>= fun _ => pure _)).1 = _ from
      Prog.exec_map_state s₂ _ _]
    cases updateTopic_state _ with
    | inl h => exact Or.inl h
    | inr h => exact Or.inr ⟨_, hkept, h⟩
  · exact Or.inl rfl

/-- What the loop leaves of the topics: those still to do are kept, the others the same. -/
structure LoopLeaves (todo : List TopicMetadata) (s s' : MetastoreManager) : Prop where
  others : ∀ name, (∀ t ∈ todo, t.topic ≠ name) →
    s'.storage.topics.get? name = s.storage.topics.get? name
  kept : ∀ t ∈ todo, ∃ t', s'.storage.topics.get? t.topic = some t' ∧ Kept nodeId t t'

theorem LoopLeaves.refl {todo : List TopicMetadata}
    (stored : ∀ t ∈ todo, s.storage.topics.get? t.topic = some t) : LoopLeaves nodeId todo s s :=
  ⟨fun _ _ => rfl, fun t ht => ⟨t, stored t ht, Or.inl rfl⟩⟩

theorem LoopLeaves.cons {nodeId : String} {t : TopicMetadata} {rest : List TopicMetadata}
    {s₁ s₂ : MetastoreManager} (first : LoopLeaves nodeId [t] s s₁)
    (loop : LoopLeaves nodeId rest s₁ s₂) (fresh : ∀ t₁ ∈ rest, t₁.topic ≠ t.topic) :
    LoopLeaves nodeId (t :: rest) s s₂ := by
  refine ⟨fun name hname => ?_, fun t₁ ht₁ => ?_⟩
  · have hfirst : ∀ t₁ ∈ [t], t₁.topic ≠ name :=
      fun t₁ h => List.mem_singleton.mp h ▸ hname t List.mem_cons_self
    rw [loop.others name fun t₁ h => hname t₁ (List.mem_cons_of_mem _ h), first.others name hfirst]
  · cases List.mem_cons.mp ht₁ with
    | inl heq =>
        obtain ⟨t', hget, hkept⟩ := first.kept t (List.mem_singleton_self t)
        rw [heq]
        exact ⟨t', (loop.others t.topic fresh).trans hget, hkept⟩
    | inr hrest => exact loop.kept t₁ hrest

theorem deregisterTopics_state (replicasPerTopic : Int) (activeNodeIds : List String)
    {todo : List TopicMetadata} (names : (todo.map TopicMetadata.topic).Nodup)
    (stored : ∀ t ∈ todo, s.storage.topics.get? t.topic = some t) :
    LoopLeaves nodeId todo s (s.exec hash
      (Metastore.deregisterTopics replicasPerTopic activeNodeIds nodeId todo)).1 := by
  induction todo generalizing s with
  | nil => exact LoopLeaves.refl nodeId stored
  | cons t rest ih =>
      rw [List.map_cons, List.nodup_cons] at names
      have hfresh : ∀ t₁ ∈ rest, t₁.topic ≠ t.topic :=
        fun t₁ h heq => names.1 (heq ▸ List.mem_map_of_mem h)
      have hstored := stored t List.mem_cons_self
      -- the first round writes at most the topic `t`
      have hround : LoopLeaves nodeId [t] s
          (s.exec hash (Metastore.deregisterTopic replicasPerTopic activeNodeIds nodeId t)).1 := by
        cases deregisterTopic_state nodeId replicasPerTopic activeNodeIds t with
        | inl h =>
            rw [h]
            exact LoopLeaves.refl nodeId fun t₁ h₁ => List.mem_singleton.mp h₁ ▸ hstored
        | inr h =>
            obtain ⟨t', hkept, h⟩ := h
            rw [h]
            refine ⟨fun name hname => ?_, fun t₁ h₁ => ?_⟩
            · have hne : name ≠ t'.topic := hkept.topic ▸ (hname t (List.mem_singleton_self t)).symm
              rw [MetastoreManager.setTopic_get?, if_neg hne]
            · rw [List.mem_singleton.mp h₁]
              refine ⟨t', ?_, hkept⟩
              rw [MetastoreManager.setTopic_get?, if_pos hkept.topic.symm]
      have hrest : ∀ t₁ ∈ rest, (s.exec hash (Metastore.deregisterTopic replicasPerTopic
          activeNodeIds nodeId t)).1.storage.topics.get? t₁.topic = some t₁ := by
        intro t₁ h₁
        have hother : ∀ t₂ ∈ [t], t₂.topic ≠ t₁.topic :=
          fun t₂ h₂ => List.mem_singleton.mp h₂ ▸ (hfresh t₁ h₁).symm
        rw [hround.others _ hother]
        exact stored t₁ (List.mem_cons_of_mem _ h₁)
      refine Prog.exec_bind_state (LoopLeaves nodeId (t :: rest) s)
        (hround.cons (LoopLeaves.refl nodeId hrest) hfresh) fun s₁ updated h₁ => ?_
      rw [show s.exec hash _ = _ from h₁] at hround hrest
      have hloop := ih names.2 hrest
      have hmap : (s₁.exec hash (do
          let updatedTopics ←
            Metastore.deregisterTopics replicasPerTopic activeNodeIds nodeId rest
          pure (updated.toList ++ updatedTopics))).1 = _ := Prog.exec_map_state s₁ _ _
      exact hround.cons (hmap ▸ hloop) hfresh

theorem MetastoreManager.TopicsNamed.loopLeaves {todo : List TopicMetadata}
    {s' : MetastoreManager} (named : s.TopicsNamed) (leaves : LoopLeaves nodeId todo s s') :
    s'.TopicsNamed := by
  intro name t' hget
  by_cases hname : ∀ t ∈ todo, t.topic ≠ name
  · rw [leaves.others name hname] at hget
    exact named name t' hget
  · simp only [not_forall, not_not] at hname
    obtain ⟨t, ht, rfl⟩ := hname
    obtain ⟨t₁, hget₁, hkept⟩ := leaves.kept t ht
    rw [hget] at hget₁
    cases hget₁
    exact hkept.topic

end

theorem deregisterBroker_state (replicasPerTopic : Int) (nodeId : String) (named : s.TopicsNamed) :
    let s' := (s.exec hash (Metastore.deregisterBroker replicasPerTopic nodeId)).1
    s'.TopicsNamed ∧ s.TopicsTo (Kept nodeId) s' := by
  obtain ⟨hnodup, hstored⟩ := named.values
  have leaves : LoopLeaves nodeId s.storage.topics.values (s.without hash nodeId)
      (s.exec hash (Metastore.deregisterBroker replicasPerTopic nodeId)).1 :=
    deregisterTopics_state nodeId replicasPerTopic (s.without hash nodeId).activeNodeIds hnodup
      hstored
  have hnamed : (s.without hash nodeId).TopicsNamed := named
  refine ⟨hnamed.loopLeaves nodeId leaves, fun name t hget => ?_⟩
  obtain rfl := named name t hget
  exact leaves.kept t ((Dict.mem_values_iff _ _).mpr ⟨_, hget⟩)

theorem MetastoreManager.TopicsTo.refl (s : MetastoreManager) : s.TopicsTo Eq s :=
  fun _ t h => ⟨t, h, rfl⟩

theorem addTopic_state (t : TopicMetadata) (named : s.TopicsNamed) :
    let s' := (s.exec hash (Storage.addTopic t)).1
    s'.TopicsNamed ∧ s.TopicsTo Eq s' := by
  intro s'
  have hstate : s' = (s.handle hash (.addTopic t)).1 := Prog.exec_perform_state s _
  rw [hstate]
  simp only [MetastoreManager.handle]
  split
  · exact ⟨named, .refl s⟩
  · next hnone =>
      refine ⟨named.setTopic t, fun name t₁ hget => ⟨t₁, ?_, rfl⟩⟩
      rw [MetastoreManager.setTopic_get?, if_neg ?_]
      · exact hget
      · rintro rfl
        rw [hget] at hnone
        cases hnone

/-- A registration leaves the topics that exist. -/
theorem registerTopic_state (replicasPerTopic : Int) (topicName : String) (named : s.TopicsNamed) :
    let s' := (s.exec hash (Metastore.registerTopic replicasPerTopic topicName)).1
    s'.TopicsNamed ∧ s.TopicsTo Eq s' := by
  let P : MetastoreManager → Prop := fun s' => s'.TopicsNamed ∧ s.TopicsTo Eq s'
  have same : P s := ⟨named, .refl s⟩
  refine Prog.exec_bind_state P same fun s₁ existing h₁ => ?_
  cases h₁
  split
  · exact same
  · have hquery : (s.exec hash (Ring.getReplicas topicName replicasPerTopic)).1 = s :=
      Prog.exec_perform_state s _
    have hsame : P (s.exec hash (Ring.getReplicas topicName replicasPerTopic)).1 := by
      rw [hquery]
      exact same
    refine Prog.exec_bind_state P hsame fun s₂ replicas h₂ => ?_
    obtain rfl : s₂ = s := (congrArg Prod.fst h₂).symm.trans hquery
    change P (s₂.exec hash (Storage.addTopic _ >>= fun _ => pure _)).1
    rw [show (s₂.exec hash (Storage.addTopic _ >>= fun _ => pure _)).1 = _ from
      Prog.exec_map_state s₂ _ _]
    exact addTopic_state _ named

end
end PyLogStream
