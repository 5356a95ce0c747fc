import PyLogStream.Metastore.Maps

/-!
`MetastoreStorage` is a lawful storage. Every stored topic has an object of its own,
which is why an assignment to the object changes no other topic.
-/

namespace PyLogStream
open Lib ConsistentHashRing

namespace LiveMetastore

/-- No two topics share an object, and every stored object has been made. -/
structure ObjectsOk (s : LiveMetastore) : Prop where
  distinct : ∀ name name' ref, s.topics.get? name = some ref → s.topics.get? name' = some ref →
    name = name'
  made : ∀ name ref, s.topics.get? name = some ref → ref < s.objects.next

/-- The object of this topic, if it is the object of any. -/
def ObjectOf (s : LiveMetastore) (ref : Nat) (name : String) : Prop :=
  ∀ other, s.topics.get? other = some ref → other = name

def view : StorageView LiveMetastore :=
  { objects := objects
    ring := ring
    node := fun s nodeId => s.nodes.get? nodeId
    topic := topic
    Ok := ObjectsOk
    Edits := ObjectOf }

variable {s : LiveMetastore} {ref : Nat} {t : TopicMetadata}

theorem topic_eq_none {name : String} : s.topic name = none ↔ s.topics.get? name = none :=
  Option.map_eq_none_iff

theorem topic_eq_some {name : String} :
    s.topic name = some t ↔ ∃ ref, s.topics.get? name = some ref ∧ s.objects.value ref = t :=
  Option.map_eq_some_iff

/-- New objects leave the stored topics. -/
theorem ObjectsOk.extends (ok : s.ObjectsOk) {o : Objects TopicMetadata}
    (grows : s.objects.Grows o) : view.Extends s { s with objects := o } := by
  refine ⟨⟨ok.distinct, fun name r h => (ok.made name r h).trans_le grows.next⟩, rfl, rfl, ?_, grows,
    fun _ _ _ h => h⟩
  funext name
  refine Option.ext fun t => ?_
  simp only [view, topic_eq_some]
  refine exists_congr fun r => and_congr_right fun h => ?_
  rw [grows.value r (ok.made name r h)]

theorem ObjectsOk.stored (ok : s.ObjectsOk) (hnext : ref < s.objects.next)
    (hobject : s.ObjectOf ref (s.objects.value ref).topic) :
    view.Stored ref (s.objects.value ref) s
      { s with topics := s.topics.set (s.objects.value ref).topic ref } := by
  have hset : ∀ name, (s.topics.set (s.objects.value ref).topic ref).get? name =
      if name = (s.objects.value ref).topic then some ref else s.topics.get? name :=
    fun name => Dict.get?_set _ _ _ _
  refine ⟨⟨fun name name' r h h' => ?_, fun name r h => ?_⟩, rfl, rfl,
    (Objects.write_self rfl).symm, fun name => ?_, fun r hne name h other hother => ?_⟩
  · simp only [hset] at h h'
    split at h <;> split at h'
    · next heq heq' => exact heq.trans heq'.symm
    · next heq _ => exact heq.trans (hobject name' (Option.some.inj h ▸ h')).symm
    · next _ heq' => exact (hobject name (Option.some.inj h' ▸ h)).trans heq'.symm
    · exact ok.distinct name name' r h h'
  · simp only [hset] at h
    split at h
    · exact Option.some.inj h ▸ hnext
    · exact ok.made name r h
  · simp only [view, topic, hset]
    split <;> rfl
  · rw [hset] at hother
    split at hother
    · exact absurd (Option.some.inj hother).symm hne
    · exact h other hother

theorem values_nodup (ok : s.ObjectsOk) : s.topics.values.Nodup := by
  refine List.Nodup.map_on ?_ (.of_map _ s.topics.nodup)
  rintro ⟨name, r⟩ hitem ⟨name', r'⟩ hitem' rfl
  rw [← Dict.get?_eq_some_iff] at hitem hitem'
  rw [ok.distinct name name' r hitem hitem']

theorem values_listing (named : view.Named s) :
    Listing (s.topics.values.map s.objects.value) s.topic := by
  constructor
  · have hnames : (s.topics.values.map s.objects.value).map TopicMetadata.topic =
        s.topics.items.map Prod.fst := by
      rw [Dict.values, List.map_map, List.map_map]
      refine List.map_congr_left fun item hitem => ?_
      have hget := (Dict.get?_eq_some_iff _ _ _).mpr hitem
      exact named item.1 _ (topic_eq_some.mpr ⟨item.2, hget, rfl⟩)
    rw [hnames]
    exact s.topics.nodup
  · intro t
    rw [List.mem_map]
    simp only [Dict.mem_values_iff]
    constructor
    · rintro ⟨ref, ⟨name, hget⟩, rfl⟩
      have htopic := topic_eq_some.mpr ⟨ref, hget, rfl⟩
      exact (named name _ htopic).symm ▸ htopic
    · intro h
      obtain ⟨ref, hget, hvalue⟩ := topic_eq_some.mp h
      exact ⟨ref, ⟨t.topic, hget⟩, hvalue⟩

theorem lawful (hash : String → Nat) : view.Lawful hash (handle hash) := by
  constructor
  case create =>
      intro s t ok
      refine ⟨_, rfl, ok.extends (Objects.grows_create s.objects t), Nat.lt_succ_self _,
        Objects.write_value_self, fun name other hother => ?_⟩
      exact absurd (ok.made other _ hother) (Nat.lt_irrefl _)
  case read => exact fun s ref => rfl
  case write =>
      intro s ref name t ok hobject
      refine ⟨_, rfl, ⟨ok.distinct, ok.made⟩, rfl, rfl, rfl, fun other hne => ?_, ?_, fun _ _ h => h⟩
      · refine Option.ext fun t' => ?_
        simp only [view, topic_eq_some]
        refine exists_congr fun r => and_congr_right fun h => ?_
        have hr : r ≠ ref := fun heq => hne (hobject other (heq ▸ h))
        rw [Objects.write_value_of_ne hr]
      · simp [view, topic]
  case addNode =>
      intro s node ok hname
      refine ⟨_, rfl, ⟨ok.distinct, ok.made⟩, rfl, funext fun nodeId => ?_, rfl⟩
      simp only [view, Dict.get?_set, Function.update_apply]
  case removeNode =>
      intro s nodeId ok
      refine ⟨_, rfl, ⟨ok.distinct, ok.made⟩, rfl, funext fun other => ?_, rfl⟩
      simp only [view, Dict.get?_erase, Function.update_apply]
  case getNode => exact fun s nodeId ok => rfl
  case getAllNodes =>
      intro s ok
      refine ⟨_, rfl, ?_⟩
      rw [List.eq_nil_iff_forall_not_mem]
      simp only [Dict.mem_values_iff, view, Option.eq_none_iff_forall_ne_some, not_exists]
      exact forall_comm
  case addTopic =>
      intro s ref ok hnext hname hnone hobject
      have hget : s.topics.get? (s.objects.value ref).topic = none := topic_eq_none.mp hnone
      refine ⟨_, ?_, ok.stored hnext hobject⟩
      simp only [handle, hget]
  case updateTopic =>
      intro s ref ok hnext hsome hobject
      obtain ⟨r, hget⟩ : ∃ r, s.topics.get? (s.objects.value ref).topic = some r := by
        obtain ⟨t, ht⟩ := Option.isSome_iff_exists.mp hsome
        obtain ⟨r, hget, -⟩ := topic_eq_some.mp ht
        exact ⟨r, hget⟩
      refine ⟨_, ?_, ok.stored hnext hobject⟩
      simp only [handle, hget]
  case getTopic_none =>
      intro s name ok hnone
      exact congrArg (fun found => (s, Except.ok found)) (topic_eq_none.mp hnone)
  case getTopic_some =>
      intro s name t ok hsome
      obtain ⟨ref, hget, hvalue⟩ := topic_eq_some.mp hsome
      refine ⟨s, ref, congrArg (fun found => (s, Except.ok found)) hget, ok.extends (.refl _),
        ok.made name ref hget, hvalue, fun other hother => ok.distinct other name ref hother hget⟩
  case getAllTopics =>
      intro s ok named
      refine ⟨s, _, rfl, ok.extends (.refl _), values_nodup ok, values_listing named,
        fun ref href => ?_⟩
      obtain ⟨name, hget⟩ := (Dict.mem_values_iff _ _).mp href
      have hname : (s.objects.value ref).topic = name :=
        named name _ (topic_eq_some.mpr ⟨ref, hget, rfl⟩)
      exact ⟨ok.made name ref hget, fun other hother =>
        (ok.distinct other name ref hother hget).trans hname.symm⟩
  case ringChange =>
      intro s c ring r ok h
      refine ⟨{ s with ring }, ?_, ⟨ok.distinct, ok.made⟩, rfl, rfl, rfl⟩
      simp only [handle, show s.ring.handle hash c = (ring, .ok r) from h]
      rfl
  case ringAsk =>
      intro s c r ok h
      simp only [handle, show s.ring.handle hash c = (s.ring, .ok r) from h]
      rfl

theorem objectsOk_new : new.ObjectsOk :=
  ⟨fun _ _ _ h => by simp [new] at h, fun _ _ h => by simp [new] at h⟩

end LiveMetastore
end PyLogStream
