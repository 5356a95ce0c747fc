import PyLogStream.Lib.Run
import PyLogStream.Log.Committed
import PyLogStream.Log.Lookup

/-!
Where a read ends. A loaded entry of a segment shows at least the bytes in use, and
from an offset the loop over the length prefixes stays inside them, but the rule that a
read returns at least one message trusts the first prefix. So a read stays inside the
committed bytes of its segment exactly when a whole message starts at its offset, which
an offset inside a record, or the offset -1, does not promise.
-/

namespace PyLogStream
open Lib

/-- A cached entry of the segment that is loaded shows all its bytes in use. -/
def ShowsAll (mem : SegmentMemory) (m : SegmentMeta) : Prop :=
  ∀ i e n, mem.cache.get? m.getId = some i → mem.entries[i]? = some e → e.mmap = some n → m.size ≤ n

/-- The state of a topic's records and of the mappings they are read through. -/
structure TopicShown (topic : String) (lm : LogManager) : Prop where
  ok : TopicOk topic lm
  shown : ∀ m, lm.registry.Holds m → m.topic = topic → ShowsAll lm.memory m

section Entry

/-- Loading an entry maps the whole of its file. -/
theorem Entry.load_mmap (e : Entry) (init : Nat) (ops : FileOps) (disk : Disk) {n : Nat}
    (h : (e.load init ops disk).1.mmap = some n) :
    e.mmap = some n ∨ (disk.content e.filepath).length ≤ n := by
  cases hmap : e.mmap with
  | some mapped =>
      rw [Entry.load, if_pos (by simp [hmap])] at h
      exact Or.inl (hmap ▸ h)
  | none =>
      simp only [Entry.load, hmap, Option.isSome_none, Bool.false_eq_true, if_false] at h
      repeat' split at h
      · rw [hmap] at h
        cases h
      · cases h
      · cases h
      · next hempty _ =>
          rw [hempty]
          exact Or.inr (Nat.zero_le n)
      · cases h
      · exact Or.inr (Option.some.inj h).le

/-- A loaded entry is left mapped. -/
theorem Entry.load_ok (e : Entry) (init : Nat) (ops : FileOps) (disk : Disk)
    (h : (e.load init ops disk).2.2 = .ok ()) : ∃ n, (e.load init ops disk).1.mmap = some n := by
  cases hmap : e.mmap with
  | some mapped =>
      rw [Entry.load, if_pos (by simp [hmap])]
      exact ⟨mapped, hmap⟩
  | none =>
      simp only [Entry.load, hmap, Option.isSome_none, Bool.false_eq_true, if_false] at h ⊢
      repeat' split
      all_goals simp_all

/-- Growing the file replaces the mapping by a longer one, if by any. -/
theorem Entry.increaseCapacity_mmap (e : Entry) (capacity required inc : Nat) (ops : FileOps)
    (disk : Disk) {n : Nat}
    (h : (e.increaseCapacity capacity required inc ops disk).1.mmap = some n) :
    e.mmap = some n ∨ required ≤ n := by
  simp only [Entry.increaseCapacity] at h
  repeat' split at h
  · exact Or.inl h
  · exact Or.inl h
  · exact Or.inr ((le_max_left _ _).trans (Option.some.inj h).le)
  · exact Or.inl h

/-- A write keeps the mapping or replaces it by one that shows what it writes. -/
theorem Entry.write_mmap (e : Entry) (inc : Nat) (ops : FileOps) (disk : Disk) (offset : Nat)
    (msg : Bytes) {n : Nat} (h : (e.write inc ops disk offset msg).1.mmap = some n) :
    (e.mmap = some n ∨ offset + msg.length ≤ n) ∧
      ((e.write inc ops disk offset msg).2.2 = .ok () → offset + msg.length ≤ n) := by
  cases hmap : e.mmap with
  | none =>
      simp only [Entry.write, hmap] at h
      cases h
  | some mapped =>
      cases hcap : e.capacity with
      | none =>
          simp only [Entry.write, hmap, hcap] at h ⊢
          exact ⟨Or.inl h, by simp⟩
      | some capacity =>
          simp only [Entry.write, hmap, hcap] at h ⊢
          by_cases hmut : (!e.isMutable) = true
          · simp only [if_pos hmut] at h ⊢
            exact ⟨Or.inl (hmap ▸ h), by simp⟩
          · simp only [if_neg hmut] at h ⊢
            have hgrown := e.increaseCapacity_mmap capacity (offset + msg.length) inc ops disk
              (n := n)
            generalize e.increaseCapacity capacity (offset + msg.length) inc ops disk = grown
              at h hgrown ⊢
            obtain ⟨e', disk', res⟩ := grown
            cases res with
            | error err => exact ⟨hmap ▸ hgrown h, by simp⟩
            | ok _ =>
                by_cases hfits : offset + msg.length ≤ e'.mmap.getD 0
                · simp only [if_pos hfits] at h ⊢
                  rw [h, Option.getD_some] at hfits
                  exact ⟨Or.inr hfits, fun _ => hfits⟩
                · simp only [if_neg hfits] at h ⊢
                  exact ⟨hmap ▸ hgrown h, by simp⟩

end Entry

section Memory
variable {mem mem' : SegmentMemory} {m m₀ : SegmentMeta}

/-- Every cached mapping after a step was there before it, under the same key. -/
def KeepsMappings (mem mem' : SegmentMemory) : Prop :=
  ∀ key i e n, mem'.cache.get? key = some i → mem'.entries[i]? = some e → e.mmap = some n →
    mem.cache.get? key = some i ∧ ∃ e₀, mem.entries[i]? = some e₀ ∧ e₀.mmap = some n

theorem ShowsAll.keeps (h : ShowsAll mem m) (keeps : KeepsMappings mem mem') : ShowsAll mem' m := by
  intro i e n hkey hi hmap
  obtain ⟨hkey₀, e₀, hi₀, hmap₀⟩ := keeps m.getId i e n hkey hi hmap
  exact h i e₀ n hkey₀ hi₀ hmap₀

theorem keepsMappings_addRef (mem : SegmentMemory) (j : Nat) (delta : Int) :
    KeepsMappings mem (mem.addRef j delta) := by
  intro key i e n hkey hi hmap
  rw [SegmentMemory.addRef_getElem?] at hi
  obtain ⟨e₀, hi₀, rfl⟩ := Option.map_eq_some_iff.mp hi
  refine ⟨hkey, e₀, hi₀, ?_⟩
  split at hmap
  · exact hmap
  · exact hmap

theorem keepsMappings_cleanupStep (mem : SegmentMemory) : KeepsMappings mem mem.cleanupStep := by
  have same : ∀ {mem' : SegmentMemory}, mem'.cache = mem.cache → mem'.entries = mem.entries →
      KeepsMappings mem mem' := by
    intro mem' hcache hentries key i e n hkey hi hmap
    exact ⟨hcache ▸ hkey, e, hentries ▸ hi, hmap⟩
  rw [SegmentMemory.cleanupStep]
  split
  · split
    · exact same rfl rfl
    · exact same rfl rfl
  · split
    · intro key i e n hkey hi hmap
      simp only [List.getElem?_modify] at hi
      obtain ⟨e₀, hi₀, rfl⟩ := Option.map_eq_some_iff.mp hi
      split at hmap
      · cases hmap
      · exact ⟨hkey, e₀, hi₀, hmap⟩
    · exact same rfl rfl

/-- Looking an entry up adds no mapping: a new entry is not loaded yet. -/
theorem Named.keepsMappings {r : SegmentRegistry} (named : Named r mem) (m : SegmentMeta) :
    KeepsMappings mem (mem.acquireLocked m).1 := by
  intro key i e n hkey hi hmap
  have found : mem.cache.get? key = some i →
      mem.cache.get? key = some i ∧ ∃ e₀, mem.entries[i]? = some e₀ ∧ e₀.mmap = some n := by
    intro hold
    obtain ⟨m', -, -, hpath⟩ := named key i hold
    rw [SegmentMemory.paths, List.getElem?_map] at hpath
    obtain ⟨e₀, hi₀, -⟩ := Option.map_eq_some_iff.mp hpath
    obtain ⟨refs, hrefs⟩ := SegmentMemory.acquireLocked_kept m hi₀
    rw [hrefs] at hi
    cases hi
    exact ⟨hold, e₀, hi₀, hmap⟩
  rcases SegmentMemory.acquireLocked_cached m hkey with ⟨-, hold⟩ | ⟨rfl, rfl⟩
  · exact found hold
  · rcases mem.acquireLocked_entry m with hold | ⟨-, hnew⟩
    · exact found hold
    · rw [hnew] at hi
      cases hi
      cases hmap

end Memory

section Manager
variable {lm : LogManager} {topic target : String} {m m₀ : SegmentMeta}

/-- The entry of a segment of the topic is for its file. -/
theorem TopicOk.eq_of_path {mem : SegmentMemory} (ok : TopicOk topic lm)
    (hm₀ : lm.registry.Holds m₀) (ht₀ : m₀.topic = topic) (hm : lm.registry.Holds m) {i : Nat}
    (hi₀ : mem.paths[i]? = some m₀.path) (hi : mem.paths[i]? = some m.path) : m₀ = m := by
  rw [hi] at hi₀
  exact ok.eq_of_clash hm₀ hm ht₀ (Or.inr (congrArg resolve (Option.some.inj hi₀).symm))

theorem TopicOk.path_of_cached {mem : SegmentMemory} (ok : TopicOk topic lm)
    (named : Named lm.registry mem) (hm₀ : lm.registry.Holds m₀) (ht₀ : m₀.topic = topic) {i : Nat}
    (hkey : mem.cache.get? m₀.getId = some i) : mem.paths[i]? = some m₀.path := by
  obtain ⟨m', hm', hid, hpath⟩ := named _ _ hkey
  rw [hpath, ok.eq_of_clash hm₀ hm' ht₀ (Or.inl hid)]

/-- The entry an acquire looks up is there. -/
theorem Named.acquired_entry {r : SegmentRegistry} {mem : SegmentMemory} (named : Named r mem)
    (hm : r.Holds m) :
    ∃ e, (mem.acquireLocked m).1.entries[(mem.acquireLocked m).2]? = some e := by
  obtain ⟨-, m', -, -, hpath⟩ := acquireLocked_named named hm
  rw [SegmentMemory.paths, List.getElem?_map] at hpath
  obtain ⟨e, he, -⟩ := Option.map_eq_some_iff.mp hpath
  exact ⟨e, he⟩

/-- Opening the file of a segment, of this topic or another, leaves the mappings of the
topic long enough. -/
theorem TopicShown.acquired (h : TopicShown topic lm) (hm : lm.registry.Holds m) (ops : FileOps)
    (hm₀ : lm.registry.Holds m₀) (ht₀ : m₀.topic = topic) :
    ShowsAll (lm.memory.acquire ops lm.disk m).1 m₀ := by
  obtain ⟨named', -⟩ := acquireLocked_named h.ok.named hm
  have shown' := (h.shown m₀ hm₀ ht₀).keeps (h.ok.named.keepsMappings m)
  obtain ⟨e, he⟩ := h.ok.named.acquired_entry hm
  rw [SegmentMemory.acquire_eq m ops lm.disk he]
  intro j e' n hkey hj hmap
  simp only [List.getElem?_set] at hj
  split at hj
  · next hij =>
      subst hij
      have hpath := h.ok.path_of_cached named' hm₀ ht₀ hkey
      rw [SegmentMemory.paths, List.getElem?_map, he, Option.map_some, Option.some_inj] at hpath
      split at hj
      · cases hj
        rcases e.load_mmap _ ops lm.disk hmap with hold | hnew
        · exact shown' _ e n hkey he hold
        · rw [hpath] at hnew
          exact (h.ok.records m₀ hm₀ ht₀).size_le.trans hnew
      · cases hj
  · exact shown' j e' n hkey hj hmap

/-- What the acquired handle of a segment of the topic is for. -/
theorem TopicShown.acquire_entry (h : TopicShown topic lm) (hm : lm.registry.Holds m)
    (ht : m.topic = topic) {ops : FileOps} {mem : SegmentMemory} {disk : Disk} {i : Nat}
    (hacq : lm.memory.acquire ops lm.disk m = (mem, disk, .ok i)) :
    ∃ e n, mem.entries[i]? = some e ∧ e.filepath = m.path ∧ e.mmap = some n ∧ m.size ≤ n := by
  obtain ⟨e, he⟩ := h.ok.named.acquired_entry hm
  obtain ⟨-, m', hm', hid, hpath⟩ := acquireLocked_named h.ok.named hm
  obtain rfl := h.ok.eq_of_clash hm hm' ht (Or.inl hid.symm)
  rw [SegmentMemory.paths, List.getElem?_map, he, Option.map_some, Option.some_inj] at hpath
  obtain ⟨rfl, hok, -, hentry⟩ := SegmentMemory.acquire_ok he hacq
  obtain ⟨n, hmap⟩ := e.load_ok _ ops lm.disk hok
  refine ⟨_, n, hentry, (e.load_extends _ ops lm.disk).1.trans hpath, hmap, ?_⟩
  rcases e.load_mmap _ ops lm.disk hmap with hold | hnew
  · rcases lm.memory.acquireLocked_entry m with hkey | ⟨-, hfresh⟩
    · have hpath₀ := h.ok.path_of_cached h.ok.named hm ht hkey
      rw [SegmentMemory.paths, List.getElem?_map] at hpath₀
      obtain ⟨e₀, he₀, -⟩ := Option.map_eq_some_iff.mp hpath₀
      obtain ⟨refs, hrefs⟩ := SegmentMemory.acquireLocked_kept m he₀
      rw [hrefs] at he
      cases he
      exact h.shown m hm ht _ e₀ n hkey he₀ hold
    · rw [hfresh] at he
      cases he
      cases hold
  · rw [hpath] at hnew
    exact (h.ok.records m hm ht).size_le.trans hnew

/-- What a write through the acquired handle of a segment does to the mappings. -/
theorem TopicShown.written (h : TopicShown topic lm) (hm : lm.registry.Holds m) {ops : FileOps}
    {mem : SegmentMemory} {disk : Disk} {i : Nat}
    (hacq : lm.memory.acquire ops lm.disk m = (mem, disk, .ok i)) (msg : Bytes) :
    (∀ m₀, lm.registry.Holds m₀ → m₀.topic = topic →
        ShowsAll (mem.write ops disk i m.getFileEndOffset msg).1 m₀) ∧
      (m.topic = topic → (mem.write ops disk i m.getFileEndOffset msg).2.2 = .ok () →
        ShowsAll (mem.write ops disk i m.getFileEndOffset msg).1
          { m with size := m.size + msg.length }) := by
  have shown : ∀ m₀, lm.registry.Holds m₀ → m₀.topic = topic → ShowsAll mem m₀ := by
    intro m₀ hm₀ ht₀
    have := h.acquired hm ops hm₀ ht₀
    rwa [hacq] at this
  obtain ⟨named, -, hentry⟩ := acquire_named h.ok.named hm ops lm.disk
  rw [hacq] at named hentry
  obtain ⟨m', hm', hid, hpath⟩ := hentry i rfl
  obtain ⟨e₀, he₀⟩ := h.ok.named.acquired_entry hm
  obtain ⟨hi, -, hcache, -⟩ := SegmentMemory.acquire_ok he₀ hacq
  -- an entry that the write changes is the handle's, whose file is that of the segment
  have only : ∀ {m₀ j}, lm.registry.Holds m₀ → m₀.topic = topic →
      mem.cache.get? m₀.getId = some j → j = i → m₀ = m := by
    rintro m₀ j hm₀ ht₀ hkey rfl
    have heq : m₀ = m' := h.ok.eq_of_path hm₀ ht₀ hm' (h.ok.path_of_cached named hm₀ ht₀ hkey) hpath
    exact h.ok.eq_of_clash hm₀ hm ht₀ (Or.inl (heq ▸ hid))
  rw [SegmentMemory.paths, List.getElem?_map] at hpath
  obtain ⟨e, he, -⟩ := Option.map_eq_some_iff.mp hpath
  have hmap := fun n => e.write_mmap mem.segmentSizeInc ops disk m.getFileEndOffset msg (n := n)
  simp only [SegmentMemory.write, he]
  generalize e.write mem.segmentSizeInc ops disk m.getFileEndOffset msg = written at hmap ⊢
  obtain ⟨e', disk', res⟩ := written
  have hlt := (List.getElem?_eq_some_iff.mp he).1
  refine ⟨?_, ?_⟩
  · intro m₀ hm₀ ht₀ j e₁ n hkey hj hn
    by_cases hji : j = i
    · obtain rfl := only hm₀ ht₀ hkey hji
      subst hji
      rw [List.getElem?_set_self hlt] at hj
      cases hj
      rcases (hmap n hn).1 with hold | hnew
      · exact shown m₀ hm₀ ht₀ j e n hkey he hold
      · exact (Nat.le_add_right _ _).trans hnew
    · rw [List.getElem?_set_ne (Ne.symm hji)] at hj
      exact shown m₀ hm₀ ht₀ j e₁ n hkey hj hn
  · intro ht hok j e₁ n hkey hj hn
    have hji : j = i := by
      rw [hcache] at hkey
      rcases SegmentMemory.acquireLocked_cached m hkey with ⟨hne, -⟩ | ⟨-, hj⟩
      · exact absurd rfl hne
      · rw [hj, hi]
    subst hji
    rw [List.getElem?_set_self hlt] at hj
    cases hj
    exact (hmap n hn).2 hok

theorem showsAll_empty {mem : SegmentMemory} (h : m.size = 0) : ShowsAll mem m := by
  intro i e n _ _ _
  rw [h]
  exact Nat.zero_le n

/-- Opening the segment that an append is for. -/
theorem TopicShown.openTarget (h : TopicShown topic lm) {now : Time} {required : Nat}
    {front : List SegmentMeta} (htarget : lm.appendTarget now target required = (front, m))
    (hm₀ : (lm.registry.setTopic target (front ++ [m])).Holds m₀) (ht₀ : m₀.topic = topic) :
    ShowsAll lm.memory m₀ := by
  have old : lm.registry.Holds m₀ → ShowsAll lm.memory m₀ := fun hold => h.shown m₀ hold ht₀
  rcases holds_setTopic_iff.mp hm₀ with ⟨htopic, hmem⟩ | ⟨-, hold⟩
  · cases appendCase h.ok.shaped htarget with
    | first hget =>
        rw [List.nil_append, List.mem_singleton] at hmem
        exact showsAll_empty (hmem ▸ rfl)
    | active hget segs stay => exact old ⟨_, htopic ▸ hget, hmem⟩
    | @rolled front₀ last start hget segs roll =>
        rcases List.mem_append.mp hmem with hsealed | hnew
        · rcases List.mem_append.mp hsealed with hfront | hlast
          · exact old ⟨_, htopic ▸ hget, List.mem_append_left _ hfront⟩
          · rw [List.mem_singleton] at hlast
            obtain ⟨hm, -⟩ := h.ok.shaped.mem_topic hget (List.mem_append_right front₀ List.mem_cons_self)
            subst hlast
            exact h.shown last hm ht₀
        · rw [List.mem_singleton] at hnew
          exact showsAll_empty (hnew ▸ rfl)
  · exact old hold

theorem TopicShown.createTopic (h : TopicShown topic lm)
    (ok' : TopicOk topic (lm.createTopic target).1) : TopicShown topic (lm.createTopic target).1 := by
  cases hget : lm.registry.registry.get? target with
  | some segs =>
      rw [createTopic_of_some h.ok.shaped hget]
      exact h
  | none =>
      refine ⟨ok', ?_⟩
      rw [createTopic_of_none hget]
      intro m₀ hm₀ ht₀
      rcases holds_setTopic_iff.mp hm₀ with ⟨-, hmem⟩ | ⟨-, hold⟩
      · rw [List.nil_append, List.mem_singleton] at hmem
        exact showsAll_empty (hmem ▸ rfl)
      · exact h.shown m₀ hold ht₀

theorem TopicShown.writeMessage (h : TopicShown topic lm) {front : List SegmentMeta} {start : Nat}
    (hget : lm.registry.registry.get? target = some (front ++ [m]))
    (segs : TopicSegments lm.registry.logDir target front m start) (env : CallEnv) {data : Bytes}
    (hlen : data.length < 2 ^ 32) :
    TopicShown topic (lm.writeMessage env m (frame data)).1 := by
  refine ⟨(writeMessage_committed h.ok hget segs env hlen).1, ?_⟩
  obtain ⟨hm, -⟩ := h.ok.shaped.mem_topic hget (List.mem_append_right front List.mem_cons_self)
  have hacquired := fun (m₀ : SegmentMeta) (hm₀ : lm.registry.Holds m₀) =>
    h.acquired hm env.ops hm₀
  simp only [LogManager.writeMessage]
  generalize hacq : lm.memory.acquire env.ops lm.disk m = acquired at hacquired
  obtain ⟨mem, disk, res⟩ := acquired
  cases res with
  | error err => exact hacquired
  | ok handle =>
      obtain ⟨hkept, hgrown⟩ := h.written hm hacq (frame data)
      simp only
      generalize mem.write env.ops disk handle m.getFileEndOffset (frame data) = result
        at hkept hgrown
      obtain ⟨mem', disk', res⟩ := result
      have released := keepsMappings_addRef mem' handle (-1)
      cases res with
      | error err => exact fun m₀ hm₀ ht₀ => (hkept m₀ hm₀ ht₀).keeps released
      | ok _ =>
          have hadv := SegmentRegistry.advanceOffset_last hget segs (frame data).length
          simp only [hadv]
          intro m₀ hm₀ ht₀
          rcases holds_setTopic_iff.mp hm₀ with ⟨htopic, hmem⟩ | ⟨-, hold⟩
          · rcases List.mem_append.mp hmem with hfront | hlast
            · exact (hkept m₀ ⟨_, htopic ▸ hget, List.mem_append_left _ hfront⟩ ht₀).keeps released
            · rw [List.mem_singleton] at hlast
              subst hlast
              exact (hgrown ht₀ rfl).keeps released
          · exact (hkept m₀ hold ht₀).keeps released

/-- Opening the segment that is found for an offset leaves the mappings long enough. -/
theorem TopicShown.found (h : TopicShown topic lm) {env : CallEnv} {target : String}
    {offset : Int} {memory : SegmentMemory} {disk : Disk} {result : Except LogError Nat}
    (hseg : lm.registry.getSegment target offset = .ok m)
    (hacq : lm.memory.acquire env.ops lm.disk m = (memory, disk, result))
    (hm₀ : lm.registry.Holds m₀) (ht₀ : m₀.topic = topic) : ShowsAll memory m₀ := by
  obtain ⟨segs, hget, hmem⟩ := SegmentRegistry.getSegment_mem hseg
  have hacquired := h.acquired (h.ok.shaped.mem_topic hget hmem).1 env.ops hm₀ ht₀
  rwa [hacq] at hacquired

theorem TopicShown.readBytes (h : TopicShown topic lm) (env : CallEnv) (target : String)
    (offset size : Int) : TopicShown topic (lm.readBytes env target offset size).1 := by
  refine ⟨(readBytes_committed h.ok env target offset size).1, fun m₀ hm₀ ht₀ => ?_⟩
  rw [readBytes_registry lm env target offset size] at hm₀
  refine readBytes_leaves (P := fun lm' => ShowsAll lm'.memory m₀) env offset size
    (h.shown m₀ hm₀ ht₀) ?_ ?_
  · intro m memory disk err hseg hacq
    exact h.found hseg hacq hm₀ ht₀
  · intro m memory disk handle hseg hacq
    exact (h.found hseg hacq hm₀ ht₀).keeps (keepsMappings_addRef memory handle (-1))

theorem TopicShown.read (h : TopicShown topic lm) (env : CallEnv) (target : String)
    (offset size : Int) : TopicShown topic (lm.read env target offset size).1 := by
  refine ⟨(read_committed h.ok env target offset size).1, fun m₀ hm₀ ht₀ => ?_⟩
  rw [read_registry lm env target offset size] at hm₀
  refine read_leaves (P := fun lm' => ShowsAll lm'.memory m₀) env offset size
    (h.shown m₀ hm₀ ht₀) ?_
  intro m memory disk result hseg hacq
  exact h.found hseg hacq hm₀ ht₀

/-- Every operation keeps the mappings of the topic long enough, however its file
operations end. -/
theorem apply_shown (h : TopicShown topic lm) {op : LogOp} (clear : ClearFor topic lm op) :
    TopicShown topic (lm.apply op).1 := by
  have ok' := (apply_committed h.ok clear).1
  cases op with
  | createTopic target => exact h.createTopic ok'
  | append target env data =>
      by_cases hlen : data.length < 2 ^ 32
      · obtain ⟨⟨front, m⟩, htarget⟩ : ∃ t, lm.appendTarget env.now target (4 + data.length) = t :=
          ⟨_, rfl⟩
        obtain ⟨⟨start, segs⟩, happ⟩ := append_eq h.ok.shaped hlen env htarget
        have opened : TopicShown topic
            { lm with registry := lm.registry.setTopic target (front ++ [m]) } :=
          ⟨(h.ok.openTarget hlen clear htarget segs).1, fun _ hm₀ ht₀ => h.openTarget htarget hm₀ ht₀⟩
        rw [LogManager.apply, happ]
        exact opened.writeMessage (by simp [SegmentRegistry.setTopic_get?]) segs env hlen
      · simp only [LogManager.apply] at ok' ⊢
        rw [append_of_long h.ok.shaped (by omega)] at ok' ⊢
        exact h.createTopic ok'
  | readBytes target env offset size => exact h.readBytes env target offset size
  | read target env offset size => exact h.read env target offset size
  | release handle =>
      exact ⟨ok', fun m₀ hm₀ ht₀ =>
        (h.shown m₀ hm₀ ht₀).keeps (keepsMappings_addRef lm.memory handle (-1))⟩
  | cleanup =>
      exact ⟨ok', fun m₀ hm₀ ht₀ => (h.shown m₀ hm₀ ht₀).keeps (keepsMappings_cleanupStep lm.memory)⟩

theorem topicShown_start (topic : String) (config : LogConfig) (importTime : Time) (disk : Disk) :
    TopicShown topic { LogManager.start config importTime with disk := disk } := by
  have hnone : ∀ m, ¬ (LogManager.start config importTime).registry.Holds m := by
    rintro m ⟨segs, hget, -⟩
    simp [LogManager.start] at hget
  have ok := topicOk_start topic config importTime
  exact ⟨⟨ok.shaped, ok.named, ok.apart, fun m hm => absurd hm (hnone m)⟩,
    fun m hm => absurd hm (hnone m)⟩

end Manager
section Batch

/-- The length that the four bytes at an offset announce. -/
def prefixAt (view : Bytes) (off : Nat) : Nat := ofBigEndian ((view.drop off).take 4)

theorem readView_four (view : Bytes) (off : Nat) :
    readView view (off : Int) 4 = (view.drop off).take 4 := slice_of_nat view off 4

/-- The loop adds nothing, or a first message and at most what the bound allows. -/
theorem calcReadLoop_bounds (view : Bytes) (off : Nat) (max : Int) (fuel batch : Nat) :
    LogManager.calcReadLoop view off max fuel batch ((off : Int) + batch) = batch ∨
      (batch : Int) + prefixAt view (off + batch) + 4 ≤
          LogManager.calcReadLoop view off max fuel batch ((off : Int) + batch) ∧
        LogManager.calcReadLoop view off max fuel batch ((off : Int) + batch) ≤ max := by
  induction fuel generalizing batch with
  | zero => exact Or.inl rfl
  | succ fuel ih =>
      by_cases hmore : (off : Int) + batch < off + max
      · have hread : ofBigEndian (readView view ((off : Int) + batch) 4) =
            prefixAt view (off + batch) := by
          rw [← Nat.cast_add, readView_four, prefixAt]
        simp only [LogManager.calcReadLoop, if_pos hmore, hread]
        by_cases hfit : (batch : Int) + prefixAt view (off + batch) + 4 ≤ max
        · have hbatch : (batch : Int) + (prefixAt view (off + batch) + 4) =
              ((batch + (prefixAt view (off + batch) + 4) : Nat) : Int) := by push_cast; ring
          have hnext := ih (batch + (prefixAt view (off + batch) + 4))
          rw [if_pos hfit, add_assoc (off : Int), hbatch]
          generalize LogManager.calcReadLoop view off max fuel
            ((batch + (prefixAt view (off + batch) + 4) : Nat) : Int)
            ((off : Int) + ((batch + (prefixAt view (off + batch) + 4) : Nat) : Int)) = total
            at hnext ⊢
          refine Or.inr ?_
          omega
        · rw [if_neg hfit, calcReadLoop_done fuel (by omega)]
          exact Or.inl rfl
      · rw [calcReadLoop_done _ hmore]
        exact Or.inl rfl

/-- A read takes the first message, and more only within its bound. -/
theorem calcReadSize_bounds (view : Bytes) (off : Nat) (max : Int) :
    (prefixAt view off : Int) + 4 ≤ LogManager.calcReadSize view off max ∧
      (LogManager.calcReadSize view off max = (prefixAt view off : Int) + 4 ∨
        LogManager.calcReadSize view off max ≤ max) := by
  have hloop := calcReadLoop_bounds view off max max.toNat 0
  simp only [Nat.cast_zero, add_zero, zero_add] at hloop
  simp only [LogManager.calcReadSize, readView_four]
  rw [← prefixAt]
  generalize LogManager.calcReadLoop view off max max.toNat 0 off = total at hloop ⊢
  split
  · exact ⟨le_refl _, Or.inl rfl⟩
  · omega

end Batch
/-- The bytes of a read from `offset` to `next` are committed bytes of one segment, all
of them, and the end of the log is not passed. -/
structure StaysCommitted (lm : LogManager) (topic : String) (offset next : Int) (data : Bytes) :
    Prop where
  inside : ∃ m, lm.registry.Holds m ∧ m.topic = topic ∧ m.baseOffset ≤ offset ∧
    next ≤ m.getEndOffset ∧
    data = readView (committed lm.disk m) (offset - m.baseOffset) (next - offset)
  announced : (data.length : Int) = next - offset
  progress : offset < next
  latest : ∃ latest, lm.getLatestOffset topic = .ok latest ∧ next ≤ latest

/-- The committed bytes of a segment hold a whole message from the offset on. -/
def StartsMessage (lm : LogManager) (topic : String) (offset : Int) : Prop :=
  ∃ m, lm.registry.Holds m ∧ m.topic = topic ∧ m.baseOffset ≤ offset ∧
    offset + 4 + ofBigEndian (readView (committed lm.disk m) (offset - m.baseOffset) 4) ≤
      m.getEndOffset

section Reads
variable {lm : LogManager} {topic : String} {offset size : Int} {m : SegmentMeta}

theorem drop_take_of_prefix {bytes view : Bytes} (h : bytes <+: view) {off n : Nat}
    (hoff : off + n ≤ bytes.length) : (view.drop off).take n = (bytes.drop off).take n := by
  obtain ⟨rest, rfl⟩ := h
  have hdrop : off ≤ bytes.length := by omega
  have htake : n ≤ (bytes.drop off).length := by
    rw [List.length_drop]
    omega
  rw [List.drop_append_of_le_length hdrop, List.take_append_of_le_length htake]

/-- A segment that reaches behind an offset not below its base is the one found for it. -/
theorem getSegment_unique (shaped : lm.registry.Shaped) (hm : lm.registry.Holds m)
    (ht : m.topic = topic) (hlo : m.baseOffset ≤ offset) (hhi : offset < m.getEndOffset) :
    0 ≤ offset ∧ lm.registry.getSegment topic offset = .ok m := by
  obtain ⟨segs, hget, hmem⟩ := hm
  rw [ht] at hget
  obtain ⟨front, last, start, rfl, hsegs⟩ := shaped _ _ hget
  obtain ⟨base, hat⟩ := hsegs.mem_at hmem
  have hpos : 0 ≤ offset := by
    rw [hat.base_eq] at hlo
    omega
  have hfinds := SegmentRegistry.getSegment_finds hget (shaped.offsetsOrdered hget) hpos
  refine ⟨hpos, ?_⟩
  cases hres : lm.registry.getSegment topic offset with
  | error err =>
      rw [hres] at hfinds
      exact absurd ⟨hlo, hhi⟩ (hfinds.2 m hmem)
  | ok m' =>
      rw [hres] at hfinds
      rw [hfinds.2.2 m hmem ⟨hlo, hhi⟩]

theorem TopicShown.readFrom (h : TopicShown topic lm)
    (hseg : lm.registry.getSegment topic offset = .ok m) {ops : FileOps} {mem : SegmentMemory}
    {disk : Disk} {i : Nat} (hacq : lm.memory.acquire ops lm.disk m = (mem, disk, .ok i))
    {view : Bytes} (hview : mem.view disk i = .ok view) :
    committed lm.disk m <+: view ∧ committed lm.disk m <+: disk.content m.path := by
  obtain ⟨segs, hget, hmem⟩ := SegmentRegistry.getSegment_mem hseg
  obtain ⟨hm, ht⟩ := h.ok.shaped.mem_topic hget hmem
  obtain ⟨e, n, hentry, hfile, hmap, hsize⟩ := h.acquire_entry hm ht hacq
  obtain ⟨-, hextends, -⟩ := acquire_named h.ok.named hm ops lm.disk
  rw [hacq] at hextends
  have hfront := committed_front hextends m
  refine ⟨?_, hfront⟩
  simp only [SegmentMemory.view, hentry, Entry.view, hmap, hfile, Except.ok.injEq] at hview
  rw [← hview]
  refine List.prefix_take_iff.mpr ⟨hfront, ?_⟩
  rw [(h.ok.records m hm ht).committed_length]
  exact hsize

theorem SegmentRegistry.Shaped.end_le_latest {r : SegmentRegistry} (shaped : r.Shaped)
    {segs : List SegmentMeta} (hget : r.registry.get? topic = some segs) (hm : m ∈ segs) :
    ∃ latest, r.getLatestOffset topic = .ok latest ∧ m.getEndOffset ≤ latest := by
  have ordered := shaped.offsetsOrdered hget
  obtain ⟨front, last, start, rfl, hsegs⟩ := shaped _ _ hget
  refine ⟨_, getLatestOffset_active hget hsegs, ?_⟩
  rw [← hsegs.getEndOffset_last]
  exact ordered.end_le_last hm

/-- The batch ends inside the segment exactly when the first message does. -/
theorem TopicShown.fits_iff (h : TopicShown topic lm) (size : Int)
    (hseg : lm.registry.getSegment topic offset = .ok m) {view : Bytes}
    (front : committed lm.disk m <+: view) :
    StartsMessage lm topic offset ↔
      m.baseOffset ≤ offset ∧ offset + batchSizeAt view m offset size ≤ m.getEndOffset := by
  obtain ⟨segs, hget, hmem⟩ := SegmentRegistry.getSegment_mem hseg
  obtain ⟨hm, ht⟩ := h.ok.shaped.mem_topic hget hmem
  have hlen := (h.ok.records m hm ht).committed_length
  obtain ⟨front₀, last, start, rfl, hsegs⟩ := h.ok.shaped _ _ hget
  obtain ⟨base, hat⟩ := hsegs.mem_at hmem
  have own : m.baseOffset ≤ offset → (offset + 4 +
      ofBigEndian (readView (committed lm.disk m) (offset - m.baseOffset) 4) ≤ m.getEndOffset ↔
        offset + batchSizeAt view m offset size ≤ m.getEndOffset) := by
    intro hlo
    obtain ⟨off, hoff⟩ : ∃ off : Nat, offset - m.baseOffset = off := ⟨_, (Int.toNat_sub_of_le hlo).symm⟩
    have hbounds := calcReadSize_bounds view off (min size ((m.size : Int) - off))
    rw [hoff, readView_four, ← prefixAt, batchSizeAt, hoff, SegmentMeta.getEndOffset]
    generalize LogManager.calcReadSize view off (min size ((m.size : Int) - off)) = batch at hbounds ⊢
    have hsame : off + 4 ≤ m.size → prefixAt view off = prefixAt (committed lm.disk m) off := by
      intro hfour
      rw [prefixAt, prefixAt, drop_take_of_prefix front (hlen.symm ▸ hfour)]
    constructor
    · intro hfits
      have := hsame (by omega)
      omega
    · intro hfits
      have := hsame (by omega)
      omega
  constructor
  · rintro ⟨m', hm', ht', hlo, hhi⟩
    obtain ⟨-, hfound⟩ := getSegment_unique h.ok.shaped hm' ht' hlo (by omega)
    obtain rfl : m = m' := Except.ok.inj (hseg.symm.trans hfound)
    exact ⟨hlo, (own hlo).mp hhi⟩
  · rintro ⟨hlo, hhi⟩
    exact ⟨m, hm, ht, hlo, (own hlo).mpr hhi⟩

/-- Where the batch of a read lies that ends inside the segment. -/
theorem batch_inside {view : Bytes} (hlo : m.baseOffset ≤ offset)
    (hhi : offset + batchSizeAt view m offset size ≤ m.getEndOffset) :
    ∃ off n : Nat, offset - m.baseOffset = off ∧ batchSizeAt view m offset size = n ∧ 0 < n ∧
      off + n ≤ m.size := by
  obtain ⟨off, hoff⟩ : ∃ off : Nat, offset - m.baseOffset = off :=
    ⟨_, (Int.toNat_sub_of_le hlo).symm⟩
  have hbounds := calcReadSize_bounds view off (min size ((m.size : Int) - off))
  rw [← hoff, ← batchSizeAt] at hbounds
  rw [SegmentMeta.getEndOffset] at hhi
  exact ⟨off, (batchSizeAt view m offset size).toNat, hoff, by omega, by omega, by omega⟩

/-- The bytes read are the committed ones when the batch ends inside the segment. -/
theorem TopicShown.staysCommitted_iff (h : TopicShown topic lm) (size : Int)
    (hseg : lm.registry.getSegment topic offset = .ok m) {view : Bytes}
    (front : committed lm.disk m <+: view) {data : Bytes}
    (hdata : m.baseOffset ≤ offset → offset + batchSizeAt view m offset size ≤ m.getEndOffset →
      data = readView (committed lm.disk m) (offset - m.baseOffset) (batchSizeAt view m offset size)) :
    StaysCommitted lm topic offset (offset + batchSizeAt view m offset size) data ↔
      StartsMessage lm topic offset := by
  obtain ⟨segs, hget, hmem⟩ := SegmentRegistry.getSegment_mem hseg
  obtain ⟨hm, ht⟩ := h.ok.shaped.mem_topic hget hmem
  have hlen := (h.ok.records m hm ht).committed_length
  obtain ⟨latest, hlatest, hle⟩ := h.ok.shaped.end_le_latest hget hmem
  rw [h.fits_iff size hseg front]
  constructor
  · rintro ⟨⟨m', hm', ht', hlo, hhi, -⟩, -, hprogress, -⟩
    obtain ⟨-, hfound⟩ := getSegment_unique h.ok.shaped hm' ht' hlo (hprogress.trans_le hhi)
    obtain rfl : m = m' := Except.ok.inj (hseg.symm.trans hfound)
    exact ⟨hlo, hhi⟩
  · rintro ⟨hlo, hhi⟩
    have hdata' := hdata hlo hhi
    obtain ⟨off, n, hoff, hn, hpos, hend⟩ := batch_inside hlo hhi
    have hcut : data = ((committed lm.disk m).drop off).take n := by
      rw [hdata', hoff, hn]
      exact slice_of_nat _ off n
    refine ⟨⟨m, hm, ht, hlo, hhi, ?_⟩, ?_, by omega, latest, hlatest, hhi.trans hle⟩
    · rw [hdata', add_sub_cancel_left]
    · rw [hcut, List.length_take, List.length_drop, hlen, hn]
      omega

theorem TopicShown.readBytes_iff (h : TopicShown topic lm) {env : CallEnv} {r : ReadResultBytes}
    (hread : (lm.readBytes env topic offset size).2 = .ok r) :
    StaysCommitted lm topic offset r.nextOffset r.data ↔ StartsMessage lm topic offset := by
  simp only [LogManager.readBytes] at hread
  split at hread
  · cases hread
  · next m hseg =>
      obtain ⟨segs, hget, hmem⟩ := SegmentRegistry.getSegment_mem hseg
      obtain ⟨hm, ht⟩ := h.ok.shaped.mem_topic hget hmem
      have hlen := (h.ok.records m hm ht).committed_length
      split at hread
      · cases hread
      · next mem disk handle hacq =>
          split at hread
          · cases hread
          · next view hview =>
              obtain ⟨front, -⟩ := h.readFrom hseg hacq hview
              split at hread
              · cases hread
              · cases hread
                refine h.staysCommitted_iff size hseg front fun hlo hhi => ?_
                obtain ⟨off, n, hoff, hn, -, hend⟩ := batch_inside hlo hhi
                rw [← batchSizeAt, hoff, hn, readView, readView, slice_of_nat, slice_of_nat,
                  drop_take_of_prefix front (hlen.symm ▸ hend)]

theorem TopicShown.read_iff (h : TopicShown topic lm) {env : CallEnv} {lm' : LogManager}
    {r : ReadResult} (hread : lm.read env topic offset size = (lm', .ok r)) :
    (∃ data, lm'.disk.sendfile r.fileSlice.filepath r.fileSlice.offset r.fileSlice.batchSize =
        some data ∧ (data.length : Int) = r.fileSlice.batchSize ∧
      StaysCommitted lm topic offset r.nextOffset data) ↔ StartsMessage lm topic offset := by
  simp only [LogManager.read] at hread
  split at hread
  · cases hread
  · next m hseg =>
      obtain ⟨segs, hget, hmem⟩ := SegmentRegistry.getSegment_mem hseg
      obtain ⟨hm, ht⟩ := h.ok.shaped.mem_topic hget hmem
      have hlen := (h.ok.records m hm ht).committed_length
      split at hread
      · cases hread
      · next mem disk handle hacq =>
          split at hread
          · cases hread
          · next view hview =>
              obtain ⟨front, hfile⟩ := h.readFrom hseg hacq hview
              split at hread
              · cases hread
              · cases hread
                have sent : ∀ {data : Bytes}, m.baseOffset ≤ offset →
                    offset + batchSizeAt view m offset size ≤ m.getEndOffset →
                    (disk.sendfile m.path (offset - m.baseOffset) (batchSizeAt view m offset size) =
                      some data ↔ data = readView (committed lm.disk m) (offset - m.baseOffset)
                        (batchSizeAt view m offset size)) := by
                  intro data hlo hhi
                  obtain ⟨off, n, hoff, hn, hpos, hend⟩ := batch_inside hlo hhi
                  rw [hoff, hn, readView, slice_of_nat, ← drop_take_of_prefix hfile (hlen.symm ▸ hend),
                    Disk.sendfile, if_pos (by omega), Option.some_inj, eq_comm]
                  rfl
                constructor
                · rintro ⟨data, hsend, -, stays⟩
                  exact (h.staysCommitted_iff size hseg front fun hlo hhi => (sent hlo hhi).mp hsend).mp stays
                · intro starts
                  obtain ⟨hlo, hhi⟩ := (h.fits_iff size hseg front).mp starts
                  have stays := (h.staysCommitted_iff size hseg front fun _ _ => rfl).mpr starts
                  refine ⟨_, (sent hlo hhi).mpr rfl, ?_, stays⟩
                  rw [stays.announced, add_sub_cancel_left]
                  rfl

end Reads

/-- At the start of a record a whole message starts. -/
theorem TopicOk.startsMessage {lm : LogManager} {topic : String} (ok : TopicOk topic lm)
    {m : SegmentMeta} (hm : lm.registry.Holds m) (ht : m.topic = topic) {before after : List Bytes}
    {p : Bytes} (hchunk : segmentPayloads lm.disk m = before ++ p :: after) :
    StartsMessage lm topic (m.baseOffset + (frames before).length) := by
  have whole := ok.records m hm ht
  have hbytes : committed lm.disk m = frames before ++ (frame p ++ frames after) := by
    rw [← whole.frames_eq, hchunk, frames_append, frames_cons]
  have hsize := whole.size_eq
  rw [hchunk, frames_append, frames_cons, List.length_append, List.length_append, frame_length] at hsize
  have hprefix : readView (committed lm.disk m) ((frames before).length : Int) 4 =
      bigEndian32 p.length := by
    rw [readView_four, hbytes, List.drop_left, frame_take_four]
  have hshort := whole.short p (hchunk ▸ by simp)
  refine ⟨m, hm, ht, by omega, ?_⟩
  rw [add_sub_cancel_left, hprefix, ofBigEndian_bigEndian32 hshort, SegmentMeta.getEndOffset]
  omega

/-- A read that returns stays inside the committed log exactly when a whole message
starts at its offset; the log may lie over any files, and the file operations of the
calls may fail, as long as no segment opened has the key or the file of another topic's. -/
theorem LogManager.reads_stay_committed_iff (config : LogConfig) (importTime : Time) (disk : Disk)
    (ops : List LogOp) (topic : String)
    (clear : MeetsAll LogManager.apply (ClearFor topic)
      { LogManager.start config importTime with disk := disk } ops)
    (env : CallEnv) (offset size : Int) :
    let lm := run LogManager.apply { LogManager.start config importTime with disk := disk } ops
    (∀ lm' r, lm.readBytes env topic offset size = (lm', .ok r) →
        (StaysCommitted lm topic offset r.nextOffset r.data ↔ StartsMessage lm topic offset)) ∧
      ∀ lm' r, lm.read env topic offset size = (lm', .ok r) →
        ((∃ data, lm'.disk.sendfile r.fileSlice.filepath r.fileSlice.offset r.fileSlice.batchSize =
            some data ∧ (data.length : Int) = r.fileSlice.batchSize ∧
          StaysCommitted lm topic offset r.nextOffset data) ↔ StartsMessage lm topic offset) := by
  intro lm
  have h : TopicShown topic lm :=
    clear.invariant (TopicShown topic) (fun _ _ shown clear => apply_shown shown clear)
      (topicShown_start topic config importTime disk)
  refine ⟨fun lm' r hread => ?_, fun lm' r hread => h.read_iff hread⟩
  exact h.readBytes_iff (congrArg Prod.snd hread)

/-- Two records of one byte, at 0 and at 5. -/
def twoRecords : List LogOp :=
  [.append "t" ⟨0, .succeed⟩ [7], .append "t" ⟨0, .succeed⟩ [8]]

theorem reads_stay_committed_iff_twoRecords :
    let start := { LogManager.start ⟨"logs", 0, 1000, 100, 16, 16, 4⟩ 0 with disk := Dict.empty }
    MeetsAll LogManager.apply (ClearFor "t") start twoRecords ∧
      let lm := run LogManager.apply start twoRecords
      ∀ lm' r, lm.readBytes ⟨0, .succeed⟩ "t" 5 100 = (lm', .ok r) →
        StaysCommitted lm "t" 5 r.nextOffset r.data := by
  intro start
  have clear : MeetsAll LogManager.apply (ClearFor "t") start twoRecords := by decide +kernel
  refine ⟨clear, ?_⟩
  intro lm lm' r hread
  refine ((LogManager.reads_stay_committed_iff _ _ _ _ _ clear ⟨0, .succeed⟩ 5 100).1 lm' r
    hread).mpr ?_
  refine ⟨⟨"t", 0, "logs/t/00000000000000000000.log", .active, 0, 10⟩, ?_, rfl, by decide, ?_⟩
  · refine ⟨[⟨"t", 0, "logs/t/00000000000000000000.log", .active, 0, 10⟩], ?_, by simp⟩
    decide +kernel
  · decide +kernel

/-- At the offset 1 the "length" is made of the end of the true one and of the payload. -/
theorem readBytes_past_end :
    let lm := run LogManager.apply
      { LogManager.start ⟨"logs", 0, 1000, 100, 16, 16, 4⟩ 0 with disk := Dict.empty } twoRecords
    ∃ lm' r, lm.readBytes ⟨0, .succeed⟩ "t" 1 100 = (lm', .ok r) ∧
      ¬ StaysCommitted lm "t" 1 r.nextOffset r.data := by
  intro lm
  have hread : (lm.readBytes ⟨0, .succeed⟩ "t" 1 100).2 =
      .ok ⟨[0, 0, 1, 7, 0, 0, 0, 1, 8, 0, 0, 0, 0, 0, 0], 268, 10⟩ := by decide +kernel
  refine ⟨_, _, Prod.ext rfl hread, ?_⟩
  intro stays
  have := stays.announced
  revert this
  decide

end PyLogStream
