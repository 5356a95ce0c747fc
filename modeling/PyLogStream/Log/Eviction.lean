import Mathlib.Data.List.Range
import PyLogStream.Log.Threads

/-!
No entry is closed while it is in use (`SegmentMemory` in `log/segment_memory.py`).
Every entry is in one place of a chain from the cache, over the queue and the waits
of the evicting threads, to the entries whose resources are released; only in the
cache can it be acquired. Its count is the number of its references, and past the
wait for zero it has none. A load that raises keeps its reference, so the invariant
counts these as well.
-/

namespace PyLogStream
open Lib
namespace MemoryThreads

/-- The places behind the cleanup thread's and the evicting threads' waits. -/
def idle (s : MemoryThreads) : List Nat := s.sweeping.toList ++ (s.closing ++ s.closed)

/-- The places on the way there, where an entry may still be in use. -/
def evicted (s : MemoryThreads) : List Nat :=
  s.memory.cleanupQueue ++ (s.memory.cleaning.toList ++ s.waiting)

/-- The references that are held on entries. -/
def references (s : MemoryThreads) : List Nat := s.handles ++ (s.loading ++ s.leaked)

end MemoryThreads

/-- A loaded entry knows the length of its mapping. -/
def Entry.Mapped (e : Entry) : Prop := ∀ n, e.mmap = some n → e.capacity = some n

/-- What loading and writing do to an entry: a mapping never becomes shorter. -/
structure Entry.Evolves (e e' : Entry) : Prop where
  refcount : e'.refcount = e.refcount
  filepath : e'.filepath = e.filepath
  mapped : e'.Mapped
  grows : ∀ n, e.mmap = some n → ∃ n', e'.mmap = some n' ∧ n ≤ n'

section Entries
variable {e : Entry}

theorem Entry.Evolves.refl (mapped : e.Mapped) : e.Evolves e :=
  ⟨rfl, rfl, mapped, fun n hn => ⟨n, hn, le_refl n⟩⟩

theorem Entry.load_evolves (mapped : e.Mapped) (init : Nat) (ops : FileOps) (disk : Disk) :
    e.Evolves (e.load init ops disk).1 ∧
      ((e.load init ops disk).2.2 = .ok () → ∃ n, (e.load init ops disk).1.mmap = some n) := by
  cases hmap : e.mmap with
  | some n =>
      have hload : e.load init ops disk = (e, disk, .ok ()) := by simp [Entry.load, hmap]
      rw [hload]
      exact ⟨.refl mapped, fun _ => ⟨n, hmap⟩⟩
  | none =>
      have fresh : ∀ e' : Entry, e'.refcount = e.refcount → e'.filepath = e.filepath →
          e'.Mapped → e.Evolves e' := by
        intro e' hcount hpath hmapped
        exact ⟨hcount, hpath, hmapped, fun n hn => by rw [hmap] at hn; cases hn⟩
      have unloaded : ∀ e' : Entry, e'.mmap = none → e'.Mapped := by
        intro e' hnone n hn
        rw [hnone] at hn
        cases hn
      simp only [Entry.load, hmap, Option.isSome_none, Bool.false_eq_true, if_false]
      split
      · exact ⟨.refl mapped, by simp⟩
      · split
        · exact ⟨fresh _ rfl rfl (unloaded _ rfl), by simp⟩
        · generalize (if (disk.content e.filepath).length = 0 then
            truncateTo (disk.content e.filepath) init else disk.content e.filepath) = content
          split
          · exact ⟨fresh _ rfl rfl (unloaded _ rfl), by simp⟩
          · exact ⟨fresh _ rfl rfl fun n hn => hn, fun _ => ⟨_, rfl⟩⟩

theorem Entry.write_evolves (mapped : e.Mapped) (inc : Nat) (ops : FileOps) (disk : Disk)
    (offset : Nat) (msg : Bytes) : e.Evolves (e.write inc ops disk offset msg).1 := by
  have increase : ∀ capacity required, e.capacity = some capacity →
      e.Evolves (e.increaseCapacity capacity required inc ops disk).1 := by
    intro capacity required hcap
    simp only [Entry.increaseCapacity]
    split
    · split
      · exact .refl mapped
      · split
        · exact .refl mapped
        · refine ⟨rfl, rfl, fun n hn => hn, ?_⟩
          intro n hn
          have heq : n = capacity := Option.some.inj ((mapped n hn).symm.trans hcap)
          exact ⟨_, rfl, by omega⟩
    · exact .refl mapped
  simp only [Entry.write]
  split
  · next n capacity hmap hcap =>
      split
      · exact .refl mapped
      · have grown := increase capacity (offset + msg.length) hcap
        split
        · next heq => rwa [heq] at grown
        · next heq =>
            rw [heq] at grown
            split
            · exact grown
            · exact grown
  · exact .refl mapped

/-- Writing through a loaded entry fails on the mapping only, never before it. -/
theorem Entry.write_loaded (mapped : e.Mapped) {n : Nat} (hmap : e.mmap = some n) (inc : Nat)
    (ops : FileOps) (disk : Disk) (offset : Nat) (msg : Bytes) :
    (e.write inc ops disk offset msg).2.2 ≠ .error .notLoaded := by
  have grown : (e.increaseCapacity n (offset + msg.length) inc ops disk).2.2 ≠
      .error .notLoaded := by
    simp only [Entry.increaseCapacity]
    split
    · split
      · simp
      · split
        · simp
        · simp
    · simp
  simp only [Entry.write, hmap, mapped n hmap]
  split
  · simp
  · split
    · next heq => rwa [heq] at grown
    · split
      · simp
      · simp

end Entries

namespace MemoryThreads

/-- Each entry is in one place, its count is the number of its references, it is not
referenced once its resources may be released, and what a handle shows is loaded. -/
structure Sound (s : MemoryThreads) : Prop where
  places : (s.memory.cache.values ++ (s.evicted ++ s.idle)).Perm
    (List.range s.memory.entries.length)
  counted : ∀ (i : Nat) (e : Entry), s.memory.entries[i]? = some e →
    e.refcount = (s.references.count i : Int)
  known : ∀ i ∈ s.references, i < s.memory.entries.length
  unused : ∀ i ∈ s.idle, i ∉ s.references
  mapped : ∀ e ∈ s.memory.entries, e.Mapped
  loaded : ∀ i ∈ s.handles, ∃ e n, s.memory.entries[i]? = some e ∧ e.mmap = some n

section
variable {s : MemoryThreads}

theorem Sound.lt_of_cached (sound : s.Sound) {i : Nat} (h : i ∈ s.memory.cache.values) :
    i < s.memory.entries.length :=
  List.mem_range.mp (sound.places.subset (List.mem_append_left _ h))

/-- The places of an entry exclude each other. -/
theorem Sound.nodup (sound : s.Sound) :
    (s.memory.cache.values ++ (s.evicted ++ s.idle)).Nodup :=
  sound.places.nodup_iff.mpr List.nodup_range

theorem Sound.not_idle (sound : s.Sound) {i : Nat} (h : i ∈ s.memory.cache.values) :
    i ∉ s.idle :=
  fun hidle => (List.nodup_append.mp sound.nodup).2.2 i h i (List.mem_append_right _ hidle) rfl

theorem Sound.refcount (sound : s.Sound) {i : Nat} (h : i < s.memory.entries.length) :
    s.memory.refcount i = (s.references.count i : Int) := by
  have hi : s.memory.entries[i]? = some s.memory.entries[i] := List.getElem?_eq_getElem h
  rw [SegmentMemory.refcount, hi]
  exact sound.counted i _ hi

theorem Sound.not_referenced (sound : s.Sound) {i : Nat} (h : i < s.memory.entries.length)
    (hzero : s.memory.refcount i ≤ 0) : i ∉ s.references := by
  rw [sound.refcount h] at hzero
  exact List.count_eq_zero.mp (by omega)

theorem cleanupLocked_places (mem : SegmentMemory) :
    (mem.cleanupLocked.cache.values ++ mem.cleanupLocked.cleanupQueue).Perm
      (mem.cache.values ++ mem.cleanupQueue) := by
  have hvalues : mem.cache.values =
      (mem.cache.items.take (mem.cache.size - mem.capacity)).map Prod.snd ++
        (mem.cache.drop (mem.cache.size - mem.capacity)).values := by
    rw [Dict.values, Dict.values, Dict.drop, ← List.map_append, List.take_append_drop]
  rw [hvalues]
  refine List.perm_iff_count.mpr fun a => ?_
  simp only [SegmentMemory.cleanupLocked, List.count_append]
  omega

/-- An entry that changes without losing its mapping. -/
theorem Sound.evolve (sound : s.Sound) {i : Nat} {e e' : Entry}
    (hi : s.memory.entries[i]? = some e) (evolves : e.Evolves e') (disk : Disk) :
    Sound { s with memory := { s.memory with entries := s.memory.entries.set i e' }, disk } := by
  have hlt := (List.getElem?_eq_some_iff.mp hi).1
  refine ⟨by simpa [evicted, idle] using sound.places, ?_, ?_, sound.unused, ?_, ?_⟩
  · intro j e₀ hj
    by_cases heq : i = j
    · subst heq
      simp only [List.getElem?_set, hlt, if_true, Option.some.injEq] at hj
      rw [← hj, evolves.refcount]
      exact sound.counted i e hi
    · simp only [List.getElem?_set, heq, if_false] at hj
      exact sound.counted j e₀ hj
  · intro j hj
    simpa using sound.known j hj
  · intro e₀ he₀
    rcases List.mem_or_eq_of_mem_set he₀ with hold | rfl
    · exact sound.mapped e₀ hold
    · exact evolves.mapped
  · intro j hj
    obtain ⟨e₀, n, he₀, hn⟩ := sound.loaded j hj
    by_cases heq : i = j
    · subst heq
      obtain rfl : e₀ = e := Option.some.inj (he₀.symm.trans hi)
      obtain ⟨n', hn', -⟩ := evolves.grows n hn
      exact ⟨e', n', by simp [hlt], hn'⟩
    · exact ⟨e₀, n, by simpa [heq] using he₀, hn⟩

/-- A thread moves an entry on, or takes one out of the cache that nobody refers to. -/
theorem Sound.move (sound : s.Sound) {s' : MemoryThreads}
    (hentries : s'.memory.entries = s.memory.entries)
    (hplaces : (s'.memory.cache.values ++ (s'.evicted ++ s'.idle)).Perm
      (s.memory.cache.values ++ (s.evicted ++ s.idle)))
    (hhandles : s'.handles = s.handles) (hloading : s'.loading = s.loading)
    (hleaked : s'.leaked = s.leaked) (hunused : ∀ i ∈ s'.idle, i ∉ s.references) : s'.Sound := by
  have href : s'.references = s.references := by
    rw [references, hhandles, hloading, hleaked, references]
  refine ⟨?_, ?_, ?_, href ▸ hunused, hentries ▸ sound.mapped, ?_⟩
  · rw [hentries]
    exact hplaces.trans sound.places
  · rw [hentries, href]
    exact sound.counted
  · rw [hentries, href]
    exact sound.known
  · rw [hentries, hhandles]
    exact sound.loaded

/-- A reference is taken on an entry that is not idle, or given back. -/
theorem Sound.addRef (sound : s.Sound) {s' : MemoryThreads} {i : Nat} {delta : Int}
    (hmemory : s'.memory = s.memory.addRef i delta) (hwaiting : s'.waiting = s.waiting)
    (hidle : s'.idle = s.idle) (hhandles : ∀ j ∈ s'.handles, j ∈ s.handles)
    (hcount : ∀ j, (s'.references.count j : Int) =
      s.references.count j + if i = j then delta else 0)
    (hlt : i < s.memory.entries.length) (hused : i ∉ s.idle) : s'.Sound := by
  have hold : ∀ j ∈ s'.references, i = j ∨ j ∈ s.references := by
    intro j hj
    by_cases heq : i = j
    · exact Or.inl heq
    · have h := hcount j
      rw [if_neg heq, Int.add_zero] at h
      exact Or.inr (List.count_pos_iff.mp (by have := List.count_pos_iff.mpr hj; omega))
  refine ⟨?_, ?_, ?_, ?_, ?_, ?_⟩
  · have hevicted : s'.evicted = s.evicted := by
      rw [evicted, hmemory, hwaiting]
      rfl
    rw [hevicted, hidle, hmemory, SegmentMemory.addRef_length]
    exact sound.places
  · intro j e hj
    rw [hmemory, SegmentMemory.addRef_getElem?] at hj
    obtain ⟨e₀, he₀, rfl⟩ := Option.map_eq_some_iff.mp hj
    have hbefore := sound.counted j e₀ he₀
    rw [hcount, ← hbefore]
    split
    · rfl
    · exact (Int.add_zero _).symm
  · intro j hj
    rw [hmemory, SegmentMemory.addRef_length]
    rcases hold j hj with rfl | hmem
    · exact hlt
    · exact sound.known j hmem
  · intro j hj hmem
    rw [hidle] at hj
    rcases hold j hmem with rfl | hmem
    · exact hused hj
    · exact sound.unused j hj hmem
  · intro e he
    obtain ⟨j, hj⟩ := List.mem_iff_getElem?.mp he
    rw [hmemory, SegmentMemory.addRef_getElem?] at hj
    obtain ⟨e₀, he₀, rfl⟩ := Option.map_eq_some_iff.mp hj
    have hmapped := sound.mapped e₀ (List.mem_of_getElem? he₀)
    split
    · exact hmapped
    · exact hmapped
  · intro j hj
    obtain ⟨e₀, n, he₀, hn⟩ := sound.loaded j (hhandles j hj)
    refine ⟨_, n, by rw [hmemory, SegmentMemory.addRef_getElem?, he₀]; rfl, ?_⟩
    split
    · exact hn
    · exact hn

/-- A new entry enters the cache under a key that was absent. -/
theorem Sound.create (sound : s.Sound) (m : SegmentMeta)
    (hkey : s.memory.cache.get? m.getId = none) :
    Sound { s with memory := { s.memory with
      entries := s.memory.entries ++ [Entry.new m]
      cache := s.memory.cache.set m.getId s.memory.entries.length } } := by
  have hentry : ∀ j e, (s.memory.entries ++ [Entry.new m])[j]? = some e →
      s.memory.entries[j]? = some e ∨ j = s.memory.entries.length ∧ e = Entry.new m := by
    intro j e hj
    rw [List.getElem?_append] at hj
    split at hj
    · exact Or.inl hj
    · rw [List.getElem?_singleton] at hj
      split at hj
      · cases hj
        exact Or.inr ⟨by omega, rfl⟩
      · cases hj
  refine ⟨?_, ?_, ?_, sound.unused, ?_, ?_⟩
  · rw [Dict.values_set_of_none hkey, List.length_append, List.length_singleton, List.range_succ,
      List.append_assoc]
    refine List.Perm.trans ?_ (List.Perm.append_right _ sound.places)
    refine List.perm_iff_count.mpr fun a => ?_
    simp only [List.count_append, evicted, idle]
    omega
  · intro j e hj
    rcases hentry j e hj with hold | ⟨rfl, rfl⟩
    · exact sound.counted j e hold
    · have hnone : s.references.count s.memory.entries.length = 0 :=
        List.count_eq_zero.mpr fun hmem => lt_irrefl _ (sound.known _ hmem)
      exact congrArg (Nat.cast : Nat → Int) hnone.symm
  · intro j hj
    rw [List.length_append]
    exact Nat.lt_of_lt_of_le (sound.known j hj) (Nat.le_add_right _ _)
  · intro e he
    rcases List.mem_append.mp he with hold | hnew
    · exact sound.mapped e hold
    · rw [List.mem_singleton.mp hnew]
      intro n hn
      cases hn
  · intro j hj
    obtain ⟨e, n, he, hn⟩ := sound.loaded j hj
    have hlt := (List.getElem?_eq_some_iff.mp he).1
    exact ⟨e, n, by rw [List.getElem?_append_left hlt]; exact he, hn⟩

theorem Sound.cleanupLocked (sound : s.Sound) :
    Sound { s with memory := s.memory.cleanupLocked } := by
  refine sound.move rfl ?_ rfl rfl rfl sound.unused
  have h := cleanupLocked_places s.memory
  refine List.perm_iff_count.mpr fun a => ?_
  have hcount := h.count_eq a
  simp only [List.count_append, evicted, idle] at hcount ⊢
  simp only [SegmentMemory.cleanupLocked] at hcount ⊢
  omega

/-- A cached entry becomes the most recently used one. -/
theorem Sound.touch (sound : s.Sound) {key : String} {i : Nat}
    (hkey : s.memory.cache.get? key = some i) :
    Sound { s with memory := { s.memory with cache := (s.memory.cache.erase key).set key i } } := by
  refine sound.move rfl ?_ rfl rfl rfl sound.unused
  refine List.Perm.append_right _ ?_
  rw [Dict.values_set_of_none (by simp [Dict.get?_erase])]
  exact (List.perm_append_singleton _ _).trans (Dict.values_perm_erase hkey).symm

theorem count_loading (s : MemoryThreads) (i j : Nat) :
    ((s.handles ++ ((s.loading ++ [i]) ++ s.leaked)).count j : Int) =
      s.references.count j + if i = j then 1 else 0 := by
  simp only [references, List.count_append, List.count_singleton, beq_iff_eq]
  split <;> omega

theorem Sound.refer (sound : s.Sound) {i : Nat} (h : i ∈ s.memory.cache.values) :
    Sound { s with memory := s.memory.addRef i 1, loading := s.loading ++ [i] } :=
  sound.addRef rfl rfl rfl (fun _ hj => hj) (count_loading s i) (sound.lt_of_cached h)
    (sound.not_idle h)

theorem Sound.acquire (sound : s.Sound) (m : SegmentMeta) : (s.acquire m).Sound := by
  cases hkey : s.memory.cache.get? m.getId with
  | none =>
      have hcached : s.memory.entries.length ∈
          (s.memory.cache.set m.getId s.memory.entries.length).values :=
        (Dict.mem_values_iff _ _).mpr ⟨m.getId, by simp⟩
      have h := ((sound.create m hkey).refer hcached).cleanupLocked
      simp only [MemoryThreads.acquire, SegmentMemory.acquireLocked, hkey]
      exact h
  | some i =>
      have hcached : i ∈ s.memory.cache.values := (Dict.mem_values_iff _ _).mpr ⟨_, hkey⟩
      have hkey' : (s.memory.addRef i 1).cache.get? m.getId = some i := hkey
      have h := ((sound.refer hcached).touch hkey').cleanupLocked
      simp only [MemoryThreads.acquire, SegmentMemory.acquireLocked, hkey]
      exact h

theorem Sound.release (sound : s.Sound) {i : Nat} (h : i ∈ s.handles) : (s.release i).Sound := by
  have hmem : i ∈ s.references := List.mem_append_left _ h
  refine sound.addRef rfl rfl rfl (fun _ hj => List.mem_of_mem_erase hj) ?_ (sound.known i hmem)
    fun hidle => sound.unused i hidle hmem
  intro j
  have hpos := List.count_pos_iff.mpr h
  simp only [MemoryThreads.release, references, List.count_append, List.count_erase, beq_iff_eq]
  split
  · next heq =>
      rw [heq] at hpos
      omega
  · omega

theorem Sound.write (sound : s.Sound) (i : Nat) (ops : FileOps) (offset : Nat) (msg : Bytes) :
    (s.write i ops offset msg).Sound := by
  simp only [MemoryThreads.write, SegmentMemory.write]
  cases hi : s.memory.entries[i]? with
  | none => exact sound
  | some e =>
      exact sound.evolve hi (Entry.write_evolves (sound.mapped e (List.mem_of_getElem? hi)) _ ops
        s.disk offset msg) _

/-- The references of an acquire that has loaded its entry, or failed to. -/
theorem count_moved {i : Nat} (h : i ∈ s.loading) (j : Nat) :
    (s.loading.erase i).count j + (if i = j then 1 else 0) = s.loading.count j := by
  have hpos := List.count_pos_iff.mpr h
  simp only [List.count_erase, beq_iff_eq]
  split
  · next heq =>
      rw [heq] at hpos
      omega
  · omega

/-- References may change their kind as long as a handle's entry is loaded. -/
theorem Sound.relabel (sound : s.Sound) {s' : MemoryThreads} (hmemory : s'.memory = s.memory)
    (hwaiting : s'.waiting = s.waiting) (hidle : s'.idle = s.idle)
    (hcount : ∀ j, s'.references.count j = s.references.count j)
    (hloaded : ∀ j ∈ s'.handles, ∃ e n, s.memory.entries[j]? = some e ∧ e.mmap = some n) :
    s'.Sound := by
  have hmem : ∀ j, j ∈ s'.references ↔ j ∈ s.references := by
    intro j
    rw [← List.count_pos_iff, hcount, List.count_pos_iff]
  refine ⟨?_, ?_, ?_, ?_, hmemory ▸ sound.mapped, hmemory ▸ hloaded⟩
  · rw [evicted, hmemory, hwaiting, hidle]
    exact sound.places
  · intro j e hj
    rw [hcount]
    exact sound.counted j e (hmemory ▸ hj)
  · intro j hj
    rw [hmemory]
    exact sound.known j ((hmem j).mp hj)
  · intro j hj href
    exact sound.unused j (hidle ▸ hj) ((hmem j).mp href)

/-- A load that raises keeps its reference. -/
theorem load_eq (s : MemoryThreads) (i : Nat) (ops : FileOps) :
    s.load i ops =
      let loaded := s.memory.loadEntry ops s.disk i
      { s with
        memory := loaded.1
        disk := loaded.2.1
        loading := s.loading.erase i
        handles := s.handles ++ if loaded.2.2 = .ok () then [i] else []
        leaked := s.leaked ++ if loaded.2.2 = .ok () then [] else [i] } := by
  simp only [MemoryThreads.load]
  split
  · next heq => simp [heq]
  · next heq => simp [heq]

theorem Sound.load (sound : s.Sound) {i : Nat} (h : i ∈ s.loading) (ops : FileOps) :
    (s.load i ops).Sound := by
  have hlt := sound.known i (List.mem_append_right _ (List.mem_append_left _ h))
  have hi : s.memory.entries[i]? = some s.memory.entries[i] := List.getElem?_eq_getElem hlt
  obtain ⟨evolves, hmap⟩ := Entry.load_evolves (sound.mapped _ (List.mem_of_getElem? hi))
    s.memory.initSegmentSize ops s.disk
  have sound' := sound.evolve hi evolves
    (s.memory.entries[i].load s.memory.initSegmentSize ops s.disk).2.1
  simp only [MemoryThreads.load, SegmentMemory.loadEntry, hi]
  generalize s.memory.entries[i].load s.memory.initSegmentSize ops s.disk = loaded at hmap sound' ⊢
  split
  · next heq =>
      obtain ⟨hmem, hrest⟩ := Prod.mk.inj heq
      obtain ⟨hdisk, hok⟩ := Prod.mk.inj hrest
      subst hmem hdisk
      refine sound'.relabel rfl rfl rfl ?_ ?_
      · intro j
        have := count_moved h j
        simp only [references, List.count_append, List.count_singleton, beq_iff_eq]
        omega
      · intro j hj
        rcases List.mem_append.mp hj with hold | hnew
        · exact sound'.loaded j hold
        · obtain ⟨n, hn⟩ := hmap hok
          rw [List.mem_singleton.mp hnew]
          exact ⟨loaded.1, n, by simp [hlt], hn⟩
  · next heq =>
      obtain ⟨hmem, hrest⟩ := Prod.mk.inj heq
      obtain ⟨hdisk, -⟩ := Prod.mk.inj hrest
      subst hmem hdisk
      refine sound'.relabel rfl rfl rfl ?_ sound'.loaded
      intro j
      have := count_moved h j
      simp only [references, List.count_append, List.count_singleton, beq_iff_eq]
      omega

/-- The resources of an entry are released when nobody refers to it. -/
theorem Sound.closeEntry (sound : s.Sound) {i : Nat} (h : i ∈ s.idle) :
    Sound { s with memory := s.memory.closeEntry i } := by
  have hentry : ∀ j, (s.memory.closeEntry i).entries[j]? =
      (s.memory.entries[j]?).map fun e => if i = j then e.release else e := by
    intro j
    rw [SegmentMemory.closeEntry, List.getElem?_modify]
    split <;> rfl
  have hlength : (s.memory.closeEntry i).entries.length = s.memory.entries.length :=
    List.length_modify _ _ _
  refine ⟨?_, ?_, ?_, sound.unused, ?_, ?_⟩
  · rw [hlength]
    exact sound.places
  · intro j e hj
    rw [hentry] at hj
    obtain ⟨e₀, he₀, rfl⟩ := Option.map_eq_some_iff.mp hj
    have hold := sound.counted j e₀ he₀
    split
    · exact hold
    · exact hold
  · intro j hj
    rw [hlength]
    exact sound.known j hj
  · intro e he
    obtain ⟨j, hj⟩ := List.mem_iff_getElem?.mp he
    rw [hentry] at hj
    obtain ⟨e₀, he₀, rfl⟩ := Option.map_eq_some_iff.mp hj
    split
    · intro n hn
      cases hn
    · exact sound.mapped e₀ (List.mem_of_getElem? he₀)
  · intro j hj
    obtain ⟨e₀, n, he₀, hn⟩ := sound.loaded j hj
    have hne : ¬ i = j := fun heq => sound.unused i h (heq ▸ List.mem_append_left _ hj)
    exact ⟨e₀, n, by rw [hentry, he₀, Option.map_some, if_neg hne], hn⟩

theorem Sound.cleanupTake (sound : s.Sound) : s.cleanupTake.Sound := by
  simp only [MemoryThreads.cleanupTake]
  split
  · next i rest hcleaning hsweeping hqueue =>
      refine sound.move rfl ?_ rfl rfl rfl sound.unused
      refine List.perm_iff_count.mpr fun a => ?_
      simp only [evicted, idle, hcleaning, hqueue, List.count_append, List.count_cons,
        Option.toList_some, Option.toList_none, List.count_nil]
      omega
  · exact sound

theorem Sound.cleanupZero (sound : s.Sound) : s.cleanupZero.Sound := by
  simp only [MemoryThreads.cleanupZero]
  split
  · next i hcleaning hsweeping =>
      split
      · next hzero =>
          have hlt : i < s.memory.entries.length :=
            List.mem_range.mp (sound.places.subset (by simp [evicted, hcleaning]))
          refine sound.move rfl ?_ rfl rfl rfl ?_
          · refine List.perm_iff_count.mpr fun a => ?_
            simp only [evicted, idle, hcleaning, hsweeping, List.count_append, Option.toList_some,
              Option.toList_none, List.count_nil]
            omega
          · intro j hj
            rcases List.mem_append.mp hj with hnew | hold
            · obtain rfl : j = i := by simpa using hnew
              exact sound.not_referenced hlt (le_of_eq hzero)
            · exact sound.unused j (List.mem_append_right _ hold)
      · exact sound
  · exact sound

theorem Sound.cleanupRelease (sound : s.Sound) : s.cleanupRelease.Sound := by
  simp only [MemoryThreads.cleanupRelease]
  split
  · next i hsweeping =>
      have hidle : i ∈ s.idle := by simp [idle, hsweeping]
      refine (sound.closeEntry hidle).move rfl ?_ rfl rfl rfl ?_
      · refine List.perm_iff_count.mpr fun a => ?_
        simp only [evicted, idle, hsweeping, List.count_append, Option.toList_some,
          Option.toList_none, List.count_nil]
        omega
      · intro j hj
        refine sound.unused j ?_
        simp only [idle, hsweeping, List.mem_append, Option.mem_toList] at hj ⊢
        grind
  · exact sound

theorem Sound.evictRelease (sound : s.Sound) {i : Nat} (h : i ∈ s.closing) :
    (s.evictRelease i).Sound := by
  have hidle : i ∈ s.idle := by simp [idle, h]
  have hpos := List.count_pos_iff.mpr h
  refine (sound.closeEntry hidle).move rfl ?_ rfl rfl rfl ?_
  · refine List.perm_iff_count.mpr fun a => ?_
    simp only [MemoryThreads.evictRelease, evicted, idle, List.count_append, List.count_erase,
      List.count_singleton, beq_iff_eq]
    split
    · next heq =>
        rw [heq] at hpos
        omega
    · omega
  · intro j hj
    refine sound.unused j ?_
    simp only [MemoryThreads.evictRelease, idle, List.mem_append] at hj ⊢
    have := fun hmem => List.mem_of_mem_erase (a := j) (b := i) (l := s.closing) hmem
    grind

theorem Sound.forceEvict (sound : s.Sound) (m : SegmentMeta) : (s.forceEvict m).Sound := by
  simp only [MemoryThreads.forceEvict]
  split
  · exact sound
  · next i hkey =>
      refine sound.move rfl ?_ rfl rfl rfl sound.unused
      refine List.perm_iff_count.mpr fun a => ?_
      have hcount := (Dict.values_perm_erase hkey).count_eq a
      simp only [evicted, idle, List.count_append, List.count_cons, List.count_nil] at hcount ⊢
      omega

theorem Sound.forceZero (sound : s.Sound) {i : Nat} (h : i ∈ s.waiting) :
    (s.forceZero i).Sound := by
  have hlt : i < s.memory.entries.length :=
    List.mem_range.mp (sound.places.subset (by simp [evicted, h]))
  have hpos := List.count_pos_iff.mpr h
  simp only [MemoryThreads.forceZero]
  split
  · next hzero =>
      refine sound.move rfl ?_ rfl rfl rfl ?_
      · refine List.perm_iff_count.mpr fun a => ?_
        simp only [evicted, idle, List.count_append, List.count_erase, List.count_singleton,
          beq_iff_eq]
        split
        · next heq =>
            rw [heq] at hpos
            omega
        · omega
      · intro j hj
        by_cases heq : j = i
        · exact heq ▸ sound.not_referenced hlt (le_of_eq hzero)
        · refine sound.unused j ?_
          simpa [idle, heq] using hj
  · exact sound

theorem Sound.tryEvict (sound : s.Sound) (m : SegmentMeta) : (s.tryEvict m).Sound := by
  simp only [MemoryThreads.tryEvict]
  split
  · exact sound
  · next i hkey =>
      have hcached : i ∈ s.memory.cache.values := (Dict.mem_values_iff _ _).mpr ⟨_, hkey⟩
      split
      · exact sound
      · next hzero =>
          refine sound.move rfl ?_ rfl rfl rfl ?_
          · refine List.perm_iff_count.mpr fun a => ?_
            have hcount := (Dict.values_perm_erase hkey).count_eq a
            simp only [evicted, idle, List.count_append, List.count_cons, List.count_nil]
              at hcount ⊢
            omega
          · intro j hj
            by_cases heq : j = i
            · exact heq ▸ sound.not_referenced (sound.lt_of_cached hcached) (not_lt.mp hzero)
            · refine sound.unused j ?_
              simpa [idle, heq] using hj

theorem Sound.step (sound : s.Sound) (e : MemoryEvent) : (s.step e).Sound := by
  cases e with
  | acquire m => exact sound.acquire m
  | load i ops =>
      simp only [MemoryThreads.step]
      split
      · next h => exact sound.load h ops
      · exact sound
  | release i =>
      simp only [MemoryThreads.step]
      split
      · next h => exact sound.release h
      · exact sound
  | write i ops offset msg =>
      simp only [MemoryThreads.step]
      split
      · exact sound.write i ops offset msg
      · exact sound
  | cleanupTake => exact sound.cleanupTake
  | cleanupZero => exact sound.cleanupZero
  | cleanupRelease => exact sound.cleanupRelease
  | forceEvict m => exact sound.forceEvict m
  | forceZero i =>
      simp only [MemoryThreads.step]
      split
      · next h => exact sound.forceZero h
      · exact sound
  | tryEvict m => exact sound.tryEvict m
  | evictRelease i =>
      simp only [MemoryThreads.step]
      split
      · next h => exact sound.evictRelease h
      · exact sound

end

theorem sound_new (capacity init inc : Nat) (disk : Disk) : (new capacity init inc disk).Sound where
  places := List.Perm.refl _
  counted := by
    intro i e hi
    simp [new, SegmentMemory.new] at hi
  known := by simp [new, references]
  unused := by simp [new, references]
  mapped := by simp [new, SegmentMemory.new]
  loaded := by simp [new]

theorem sound_run {s : MemoryThreads} (sound : s.Sound) (events : List MemoryEvent) :
    (run advance s events).Sound :=
  run_keeps Sound (fun _ e _ sound => sound.step e) sound

/-- The load that an acquire goes on with succeeds. -/
def LoadSucceeds (s : MemoryThreads) : MemoryEvent → Prop
  | .load i ops => i ∈ s.loading → (s.memory.loadEntry ops s.disk i).2.2 = .ok ()
  | _ => True

instance (s : MemoryThreads) (e : MemoryEvent) : Decidable (s.LoadSucceeds e) :=
  match e with
  | .load i ops =>
    inferInstanceAs (Decidable (i ∈ s.loading → (s.memory.loadEntry ops s.disk i).2.2 = .ok ()))
  | .acquire _ | .release _ | .write _ _ _ _ | .cleanupTake | .cleanupZero | .cleanupRelease
  | .forceEvict _ | .forceZero _ | .tryEvict _ | .evictRelease _ => inferInstanceAs (Decidable True)

theorem load_leaked (s : MemoryThreads) (i : Nat) (ops : FileOps)
    (h : (s.memory.loadEntry ops s.disk i).2.2 = .ok ()) : (s.load i ops).leaked = s.leaked := by
  simp only [load]
  split
  · rfl
  · next heq =>
      rw [heq] at h
      cases h

theorem step_leaked (s : MemoryThreads) (e : MemoryEvent) (hload : s.LoadSucceeds e) :
    (s.step e).leaked = s.leaked := by
  cases e with
  | load i ops =>
      simp only [step]
      split
      · next h => exact load_leaked s i ops (hload h)
      · rfl
  | _ =>
      simp only [step, cleanupTake, cleanupZero, cleanupRelease, forceEvict, forceZero, tryEvict]
      repeat' split
      all_goals rfl

theorem step_closed (s : MemoryThreads) (e : MemoryEvent) {i : Nat} (h : i ∈ s.closed) :
    i ∈ (s.step e).closed := by
  cases e with
  | load j ops =>
      simp only [step, load]
      split
      · split
        · exact h
        · exact h
      · exact h
  | cleanupRelease =>
      simp only [step, cleanupRelease]
      split
      · exact List.mem_append_left _ h
      · exact h
  | evictRelease j =>
      simp only [step, evictRelease]
      split
      · exact List.mem_append_left _ h
      · exact h
  | _ =>
      simp only [step, cleanupTake, cleanupZero, forceEvict, forceZero, tryEvict]
      repeat' split
      all_goals exact h

theorem closed_run {s : MemoryThreads} {i : Nat} (h : i ∈ s.closed) (events : List MemoryEvent) :
    i ∈ (run advance s events).closed :=
  run_keeps (fun s => i ∈ s.closed) (fun s e _ h => step_closed s e h) h

theorem leaked_run {s : MemoryThreads} (h : s.leaked = []) {events : List MemoryEvent}
    (loads : MeetsAll advance LoadSucceeds s events) : (run advance s events).leaked = [] :=
  loads.invariant (fun s => s.leaked = [])
    (fun s e hleaked hload => (step_leaked s e hload).trans hleaked) h

section
variable {s : MemoryThreads}

/-- An acquire hands out a cached entry or a new one. -/
theorem Sound.acquired (sound : s.Sound) (m : SegmentMeta) : (s.memory.acquireLocked m).2 ∉ s.idle := by
  cases hkey : s.memory.cache.get? m.getId with
  | none =>
      have hnew : (s.memory.acquireLocked m).2 = s.memory.entries.length := by
        simp [SegmentMemory.acquireLocked, hkey]
      rw [hnew]
      exact fun hmem => lt_irrefl _
        (List.mem_range.mp (sound.places.subset (List.mem_append_right _
          (List.mem_append_right _ hmem))))
  | some i =>
      have hold : (s.memory.acquireLocked m).2 = i := by
        simp [SegmentMemory.acquireLocked, hkey]
      rw [hold]
      exact sound.not_idle ((Dict.mem_values_iff _ _).mpr ⟨_, hkey⟩)

/-- The whole of a handle's entry can be read and written. -/
theorem Sound.usable (sound : s.Sound) {i : Nat} (h : i ∈ s.handles) :
    (∃ view, s.memory.view s.disk i = .ok view) ∧
      ∀ ops offset msg, (s.memory.write ops s.disk i offset msg).2.2 ≠ .error .notLoaded := by
  obtain ⟨e, n, hi, hmap⟩ := sound.loaded i h
  have mapped := sound.mapped e (List.mem_of_getElem? hi)
  refine ⟨⟨(s.disk.content e.filepath).take n, ?_⟩, fun ops offset msg => ?_⟩
  · simp [SegmentMemory.view, hi, Entry.view, hmap]
  · simp only [SegmentMemory.write, hi]
    exact Entry.write_loaded mapped hmap _ ops s.disk offset msg

end

/-- In every state that the threads reach, the count of an entry is the number of its
handles and of the acquires that load it; an entry that was released has no reference
and none of the places an acquire looks in; and a handle shows a loaded entry. -/
theorem closed_when_unused (capacity init inc : Nat) (disk : Disk)
    (earlier later : List MemoryEvent)
    (loads : MeetsAll advance LoadSucceeds (new capacity init inc disk) (earlier ++ later)) :
    let before := run advance (new capacity init inc disk) earlier
    let s := run advance (new capacity init inc disk) (earlier ++ later)
    (∀ i e, s.memory.entries[i]? = some e →
        e.refcount = (s.handles.count i + s.loading.count i : Int)) ∧
      (∀ i ∈ before.closed, (∃ e, s.memory.entries[i]? = some e ∧ e.refcount = 0) ∧
        i ∉ s.memory.cache.values ∧ i ∉ s.memory.cleanupQueue ∧
        i ∉ s.handles ∧ i ∉ s.loading ∧ ∀ m, (s.memory.acquireLocked m).2 ≠ i) ∧
      ∀ i ∈ s.handles, (∃ view, s.memory.view s.disk i = .ok view) ∧
        ∀ ops offset msg, (s.memory.write ops s.disk i offset msg).2.2 ≠ .error .notLoaded := by
  intro before s
  have sound : s.Sound := sound_run (sound_new capacity init inc disk) (earlier ++ later)
  have hleaked : s.leaked = [] := leaked_run rfl loads
  have hcount : ∀ i e, s.memory.entries[i]? = some e →
      e.refcount = (s.handles.count i + s.loading.count i : Int) := by
    intro i e hi
    rw [sound.counted i e hi, references, hleaked, List.append_nil, List.count_append,
      Int.natCast_add]
  refine ⟨hcount, ?_, fun i hi => sound.usable hi⟩
  intro i hclosed
  have hmem : i ∈ s.closed := by
    have h := closed_run hclosed later
    rwa [← run_append] at h
  have hidle : i ∈ s.idle := List.mem_append_right _ (List.mem_append_right _ hmem)
  have hfree := sound.unused i hidle
  simp only [references, List.mem_append, not_or] at hfree
  obtain ⟨hhandles, hloading, -⟩ := hfree
  have hlt : i < s.memory.entries.length := List.mem_range.mp
    (sound.places.subset (List.mem_append_right _ (List.mem_append_right _ hidle)))
  refine ⟨⟨s.memory.entries[i], List.getElem?_eq_getElem hlt, ?_⟩,
    fun hcached => sound.not_idle hcached hidle, ?_, hhandles, hloading, ?_⟩
  · rw [hcount i _ (List.getElem?_eq_getElem hlt), List.count_eq_zero.mpr hhandles,
      List.count_eq_zero.mpr hloading]
    rfl
  · intro hqueue
    have hdisjoint := (List.nodup_append.mp (List.nodup_append.mp sound.nodup).2.1).2.2
    exact hdisjoint i (List.mem_append_left _ hqueue) i hidle rfl
  · intro m heq
    exact sound.acquired m (heq ▸ hidle)

/-- With room for one entry, the acquire of `b` evicts the entry of `a`, which is closed
after its release. -/
def evictsFirst : List MemoryEvent :=
  let a : SegmentMeta := ⟨"a", 0, "a.log", .active, 0, 0⟩
  let b : SegmentMeta := ⟨"b", 0, "b.log", .active, 0, 0⟩
  [.acquire a, .load 0 .succeed, .acquire b, .load 1 .succeed, .cleanupTake, .cleanupZero,
    .release 0, .cleanupZero, .cleanupRelease]

/-- The next acquire of `a` makes an entry of its own, which then is evicted as well. -/
def acquiresAgain : List MemoryEvent :=
  let a : SegmentMeta := ⟨"a", 0, "a.log", .active, 0, 0⟩
  [.acquire a, .load 2 .succeed, .tryEvict a, .forceEvict a]

theorem closed_when_unused_evicted :
    (MeetsAll advance LoadSucceeds (new 1 16 16 Dict.empty) (evictsFirst ++ acquiresAgain) ∧
      (run advance (new 1 16 16 Dict.empty) evictsFirst).closed = [0]) ∧
    let before := run advance (new 1 16 16 Dict.empty) evictsFirst
    let s := run advance (new 1 16 16 Dict.empty) (evictsFirst ++ acquiresAgain)
    (∀ i e, s.memory.entries[i]? = some e →
        e.refcount = (s.handles.count i + s.loading.count i : Int)) ∧
      (∀ i ∈ before.closed, (∃ e, s.memory.entries[i]? = some e ∧ e.refcount = 0) ∧
        i ∉ s.memory.cache.values ∧ i ∉ s.memory.cleanupQueue ∧
        i ∉ s.handles ∧ i ∉ s.loading ∧ ∀ m, (s.memory.acquireLocked m).2 ≠ i) ∧
      ∀ i ∈ s.handles, (∃ view, s.memory.view s.disk i = .ok view) ∧
        ∀ ops offset msg, (s.memory.write ops s.disk i offset msg).2.2 ≠ .error .notLoaded := by
  have loads : MeetsAll advance LoadSucceeds (new 1 16 16 Dict.empty)
      (evictsFirst ++ acquiresAgain) := by
    decide
  exact ⟨⟨loads, by decide⟩, closed_when_unused 1 16 16 Dict.empty evictsFirst acquiresAgain loads⟩

end MemoryThreads
end PyLogStream
