import PyLogStream.Log.Recency

/-!
Files that stay open (`SegmentMemory` in `log/segment_memory.py`). An entry that has left the
cache keeps its file until the cleanup thread or an evicting thread has come to it, and no
entry is forgotten on the way there. What is released is not opened again, so once nobody
uses an entry the threads need a fixed number of steps to close all but the cached ones.
-/

namespace PyLogStream
open Lib

/-- The entry has its file open or mapped. -/
def Entry.Open (e : Entry) : Prop := e.fileOpen = true ∨ e.mmap.isSome = true

instance (e : Entry) : Decidable e.Open := inferInstanceAs (Decidable (_ ∨ _))

namespace MemoryThreads

/-- Entries out of the cache that are still to be released. -/
def pending (s : MemoryThreads) : List Nat := s.evicted ++ (s.sweeping.toList ++ s.closing)

def opened (s : MemoryThreads) : List Nat :=
  (List.range s.memory.entries.length).filter fun i =>
    (s.memory.entries[i]?).any fun e => decide e.Open

/-- A step on the way to a release that its thread is ready for. -/
def Releases (s : MemoryThreads) : MemoryEvent → Prop
  | .cleanupTake =>
    s.memory.cleaning = none ∧ s.sweeping = none ∧ s.memory.cleanupQueue ≠ []
  | .cleanupZero => s.sweeping = none ∧ s.memory.cleaning.map s.memory.refcount = some 0
  | .cleanupRelease => s.sweeping ≠ none
  | .forceZero i => i ∈ s.waiting ∧ s.memory.refcount i = 0
  | .evictRelease i => i ∈ s.closing
  | .acquire _ | .load _ _ | .release _ | .write _ _ _ _ | .forceEvict _ | .tryEvict _ => False

instance (s : MemoryThreads) (e : MemoryEvent) : Decidable (s.Releases e) :=
  match e with
  | .cleanupTake => inferInstanceAs (Decidable (_ ∧ _ ∧ _))
  | .cleanupZero | .forceZero _ => inferInstanceAs (Decidable (_ ∧ _))
  | .cleanupRelease => inferInstanceAs (Decidable (_ ≠ _))
  | .evictRelease i => inferInstanceAs (Decidable (i ∈ s.closing))
  | .acquire _ | .load _ _ | .release _ | .write _ _ _ _ | .forceEvict _ | .tryEvict _ =>
    inferInstanceAs (Decidable False)

/-- How many such steps the pending entries are away from their release. -/
def stepsLeft (s : MemoryThreads) : Nat :=
  3 * s.memory.cleanupQueue.length + 2 * s.memory.cleaning.toList.length +
    s.sweeping.toList.length + 2 * s.waiting.length + s.closing.length

section
variable {s : MemoryThreads}

/-- Nothing opens an entry that nobody refers to. -/
theorem step_not_open (e : MemoryEvent) {i : Nat} (unused : i ∉ s.references) {x x' : Entry}
    (hx : s.memory.entries[i]? = some x) (hopen : ¬ x.Open)
    (hx' : (s.step e).memory.entries[i]? = some x') : ¬ x'.Open := by
  have same : s.memory.entries[i]? = some x' → ¬ x'.Open := by
    intro h
    rw [hx] at h
    exact Option.some.inj h ▸ hopen
  have other : ∀ {j : Nat} {y : Entry}, j ∈ s.references →
      (s.memory.entries.set j y)[i]? = some x' → ¬ x'.Open := by
    intro j y hj h
    have hne : j ≠ i := fun heq => unused (heq ▸ hj)
    rw [List.getElem?_set_ne hne] at h
    exact same h
  have modified : ∀ {j : Nat} {f : Entry → Entry}, (∀ y : Entry, (f y).Open → y.Open) →
      (s.memory.entries.modify j f)[i]? = some x' → ¬ x'.Open := by
    intro j f hf h
    rw [List.getElem?_modify, hx, Option.map_eq_map, Option.map_some] at h
    split at h
    · exact Option.some.inj h ▸ fun hnew => hopen (hf x hnew)
    · exact Option.some.inj h ▸ hopen
  have released : ∀ y : Entry, y.release.Open → y.Open := by
    intro y hy
    simp [Entry.release, Entry.Open] at hy
  cases e with
  | acquire m =>
      obtain ⟨n, hn⟩ := SegmentMemory.acquireLocked_kept m hx
      change (s.memory.acquireLocked m).1.entries[i]? = some x' at hx'
      rw [hn] at hx'
      exact Option.some.inj hx' ▸ hopen
  | load j ops =>
      simp only [step, load_eq] at hx'
      split at hx'
      · next hj =>
          simp only [SegmentMemory.loadEntry] at hx'
          split at hx'
          · exact same hx'
          · exact other (List.mem_append_right _ (List.mem_append_left _ hj)) hx'
      · exact same hx'
  | release j =>
      simp only [step] at hx'
      split at hx'
      · exact modified (f := fun y => { y with refcount := y.refcount + -1 }) (fun _ hy => hy) hx'
      · exact same hx'
  | write j ops offset msg =>
      simp only [step, write, SegmentMemory.write] at hx'
      split at hx'
      · next hj =>
          split at hx'
          · exact same hx'
          · exact other (List.mem_append_left _ hj) hx'
      · exact same hx'
  | cleanupRelease =>
      simp only [step, cleanupRelease] at hx'
      split at hx'
      · exact modified released hx'
      · exact same hx'
  | evictRelease j =>
      simp only [step, evictRelease] at hx'
      split at hx'
      · exact modified released hx'
      · exact same hx'
  | _ =>
      simp only [step, cleanupTake, cleanupZero, forceEvict, forceZero, tryEvict] at hx'
      repeat' split at hx'
      all_goals exact same hx'

/-- An entry is closed by being released. -/
theorem step_closed_cases (e : MemoryEvent) {i : Nat} (h : i ∈ (s.step e).closed) :
    i ∈ s.closed ∨ (s.step e).memory.entries = s.memory.entries.modify i Entry.release := by
  have last : ∀ {j : Nat}, i ∈ s.closed ++ [j] → i ∈ s.closed ∨ i = j := by
    intro j hmem
    simpa using hmem
  cases e with
  | load j ops =>
      simp only [step, load_eq] at h
      split at h
      · exact Or.inl h
      · exact Or.inl h
  | cleanupRelease =>
      simp only [step, cleanupRelease] at h ⊢
      split at h
      · next j _ =>
          refine (last h).imp id fun heq => ?_
          rw [heq]
          rfl
      · exact Or.inl h
  | evictRelease j =>
      simp only [step, evictRelease] at h ⊢
      split at h
      · next hmem =>
          refine (last h).imp id fun heq => ?_
          rw [if_pos hmem, heq]
          rfl
      · exact Or.inl h
  | _ =>
      simp only [step, cleanupTake, cleanupZero, forceEvict, forceZero, tryEvict] at h
      repeat' split at h
      all_goals exact Or.inl h

/-- Beside the invariant of the threads: what is released stays closed. -/
structure Tidy (s : MemoryThreads) : Prop where
  sound : s.Sound
  shut : ∀ i ∈ s.closed, ∀ x, s.memory.entries[i]? = some x → ¬ x.Open

theorem Tidy.step (tidy : s.Tidy) (e : MemoryEvent) : (s.step e).Tidy := by
  refine ⟨tidy.sound.step e, fun i hi x' hx' => ?_⟩
  rcases step_closed_cases e hi with hold | hrelease
  · have hidle : i ∈ s.idle := List.mem_append_right _ (List.mem_append_right _ hold)
    have hlt : i < s.memory.entries.length := List.mem_range.mp
      (tidy.sound.places.subset (List.mem_append_right _ (List.mem_append_right _ hidle)))
    have hx : s.memory.entries[i]? = some s.memory.entries[i] := List.getElem?_eq_getElem hlt
    exact step_not_open e (tidy.sound.unused i hidle) hx (tidy.shut i hold _ hx) hx'
  · rw [hrelease, List.getElem?_modify, Option.map_eq_map] at hx'
    obtain ⟨x, -, rfl⟩ := Option.map_eq_some_iff.mp hx'
    simp [Entry.release, Entry.Open]

theorem tidy_new (capacity init inc : Nat) (disk : Disk) : (new capacity init inc disk).Tidy :=
  ⟨sound_new capacity init inc disk, fun _ hi => absurd hi List.not_mem_nil⟩

theorem tidy_run (tidy : s.Tidy) (events : List MemoryEvent) : (run advance s events).Tidy :=
  run_keeps Tidy (fun _ e _ tidy => tidy.step e) tidy

theorem mem_opened {i : Nat} : i ∈ s.opened ↔ ∃ x, s.memory.entries[i]? = some x ∧ x.Open := by
  rw [opened, List.mem_filter, List.mem_range, Option.any_eq_true]
  constructor
  · rintro ⟨-, x, hx, hopen⟩
    exact ⟨x, hx, of_decide_eq_true hopen⟩
  · rintro ⟨x, hx, hopen⟩
    exact ⟨(List.getElem?_eq_some_iff.mp hx).1, x, hx, decide_eq_true hopen⟩

/-- An open file is in the cache or on its way to be closed. -/
theorem Tidy.mem_opened (tidy : s.Tidy) {i : Nat} (h : i ∈ s.opened) :
    i ∈ s.memory.cache.values ++ s.pending := by
  obtain ⟨x, hx, hopen⟩ := MemoryThreads.mem_opened.mp h
  have hlt := (List.getElem?_eq_some_iff.mp hx).1
  have hplace := tidy.sound.places.symm.subset (List.mem_range.mpr hlt)
  have hshut : i ∉ s.closed := fun hclosed => tidy.shut i hclosed x hx hopen
  simp only [idle, pending, List.mem_append] at hplace ⊢
  tauto

theorem Tidy.opened_length_le (tidy : s.Tidy) :
    s.opened.length ≤ s.memory.cache.keys.length + s.pending.length := by
  have hnodup : s.opened.Nodup := List.nodup_range.filter _
  have hle := (hnodup.subperm fun i hi => tidy.mem_opened hi).length_le
  simpa [Dict.keys, Dict.values] using hle

/-- Each step on the way to a release is one of those that were left, and touches neither
the cache nor a reference. -/
theorem Releases.step {e : MemoryEvent} (h : s.Releases e) :
    (s.step e).stepsLeft + 1 = s.stepsLeft ∧ (s.step e).memory.cache = s.memory.cache ∧
      (s.step e).references = s.references := by
  cases e with
  | cleanupTake =>
      obtain ⟨hcleaning, hsweeping, hqueue⟩ := h
      obtain ⟨i, rest, hqueue⟩ := List.exists_cons_of_ne_nil hqueue
      simp only [MemoryThreads.step, cleanupTake, hcleaning, hsweeping, hqueue, stepsLeft,
        references, Option.toList_none, Option.toList_some, List.length_cons, List.length_nil]
      exact ⟨by omega, trivial, trivial⟩
  | cleanupZero =>
      obtain ⟨hsweeping, hcount⟩ := h
      obtain ⟨i, hcleaning, hzero⟩ := Option.map_eq_some_iff.mp hcount
      simp only [MemoryThreads.step, cleanupZero, hcleaning, hsweeping, hzero, if_true, stepsLeft,
        references, Option.toList_none, Option.toList_some, List.length_cons, List.length_nil]
      exact ⟨by omega, trivial, trivial⟩
  | cleanupRelease =>
      obtain ⟨i, hsweeping⟩ := Option.ne_none_iff_exists'.mp h
      simp only [MemoryThreads.step, cleanupRelease, hsweeping, SegmentMemory.closeEntry, stepsLeft,
        references, Option.toList_none, Option.toList_some, List.length_cons, List.length_nil]
      exact ⟨by omega, trivial, trivial⟩
  | forceZero i =>
      obtain ⟨hmem, hzero⟩ := h
      have hpos := List.length_pos_of_mem hmem
      simp only [MemoryThreads.step, forceZero, hmem, hzero, if_true, stepsLeft, references,
        List.length_erase_of_mem, List.length_append, List.length_cons, List.length_nil]
      exact ⟨by omega, trivial, trivial⟩
  | evictRelease i =>
      have hmem : i ∈ s.closing := h
      have hpos := List.length_pos_of_mem hmem
      simp only [MemoryThreads.step, evictRelease, hmem, if_true, SegmentMemory.closeEntry,
        stepsLeft, references, List.length_erase_of_mem]
      exact ⟨by omega, trivial, trivial⟩
  | _ => exact h.elim

theorem Sound.refcount_eq_zero (sound : s.Sound) (idle : s.references = []) {i : Nat}
    (h : i ∈ s.evicted) : s.memory.refcount i = 0 := by
  have hlt : i < s.memory.entries.length := List.mem_range.mp
    (sound.places.subset (List.mem_append_right _ (List.mem_append_left _ h)))
  rw [sound.refcount hlt, idle]
  rfl

/-- When nobody refers to an entry, some thread is ready as long as a step is left. -/
theorem Sound.releases (sound : s.Sound) (idle : s.references = []) (h : s.stepsLeft ≠ 0) :
    ∃ e, s.Releases e := by
  cases hsweeping : s.sweeping with
  | some i => exact ⟨.cleanupRelease, by simp [Releases, hsweeping]⟩
  | none =>
      cases hcleaning : s.memory.cleaning with
      | some i =>
          have hevicted : i ∈ s.evicted := by simp [evicted, hcleaning]
          refine ⟨.cleanupZero, hsweeping, ?_⟩
          rw [hcleaning, Option.map_some, sound.refcount_eq_zero idle hevicted]
      | none =>
          cases hqueue : s.memory.cleanupQueue with
          | cons i rest => exact ⟨.cleanupTake, hcleaning, hsweeping, by simp [hqueue]⟩
          | nil =>
              cases hwaiting : s.waiting with
              | cons i rest =>
                  have hmem : i ∈ s.waiting := by simp [hwaiting]
                  have hevicted : i ∈ s.evicted := by simp [evicted, hwaiting]
                  exact ⟨.forceZero i, hmem, sound.refcount_eq_zero idle hevicted⟩
              | nil =>
                  cases hclosing : s.closing with
                  | cons i rest =>
                      have hmem : i ∈ s.closing := by simp [hclosing]
                      exact ⟨.evictRelease i, hmem⟩
                  | nil => simp [stepsLeft, hsweeping, hcleaning, hqueue, hwaiting, hclosing] at h

theorem pending_of_stepsLeft (h : s.stepsLeft = 0) : s.pending = [] := by
  simp [stepsLeft] at h
  simp [pending, evicted, h]

theorem releases_run {steps : List MemoryEvent} (h : MeetsAll advance Releases s steps) :
    (run advance s steps).stepsLeft + steps.length = s.stepsLeft ∧
      (run advance s steps).memory.cache = s.memory.cache ∧
      (run advance s steps).references = s.references := by
  induction steps generalizing s with
  | nil => exact ⟨rfl, rfl, rfl⟩
  | cons e steps ih =>
      obtain ⟨hleft, hcache, href⟩ := Releases.step h.1
      obtain ⟨ihleft, ihcache, ihref⟩ := ih h.2
      have ihleft : (run advance s (e :: steps)).stepsLeft + steps.length =
        (s.step e).stepsLeft := ihleft
      refine ⟨?_, ihcache.trans hcache, ihref.trans href⟩
      rw [List.length_cons]
      omega

end

/-- No open file is forgotten: at any time the open files are those of cached entries and of
entries that wait for their release. Once nobody refers to an entry, the threads that release
them never wait for one another, take exactly the steps that are left, and then only cached
entries are open, at most as many as the cache has room for. -/
theorem evicted_entries_released (capacity init inc : Nat) (disk : Disk)
    (events : List MemoryEvent) :
    let s := run advance (new capacity init inc disk) events
    (∀ i ∈ s.opened, i ∈ s.memory.cache.values ++ s.pending) ∧
      s.opened.length ≤ capacity + s.pending.length ∧
      ∀ steps, s.references = [] → MeetsAll advance Releases s steps →
        let s' := run advance s steps
        s'.stepsLeft + steps.length = s.stepsLeft ∧ s'.memory.cache = s.memory.cache ∧
          (s'.stepsLeft ≠ 0 → ∃ e, s'.Releases e) ∧
          (s'.stepsLeft = 0 → (∀ i ∈ s'.opened, i ∈ s'.memory.cache.values) ∧
            s'.opened.length ≤ capacity) := by
  intro s
  have tidy : s.Tidy := tidy_run (tidy_new capacity init inc disk) events
  have hkeys : s.memory.cache.keys.length ≤ capacity := by
    rw [show s.memory.cache.keys = cached capacity _ from run_keys _ events]
    exact cached_length_le capacity _
  refine ⟨fun i hi => tidy.mem_opened hi, ?_, fun steps idle h => ?_⟩
  · have := tidy.opened_length_le
    omega
  · intro s'
    obtain ⟨hleft, hcache, href⟩ := releases_run h
    have tidy' : s'.Tidy := tidy_run tidy steps
    refine ⟨hleft, hcache, fun hne => tidy'.sound.releases (href.trans idle) hne, fun hzero => ?_⟩
    have hpending := pending_of_stepsLeft hzero
    have hlength := tidy'.opened_length_le
    rw [hpending, show s'.memory.cache = s.memory.cache from hcache] at hlength
    refine ⟨fun i hi => ?_, hlength.trans hkeys⟩
    have hmem := tidy'.mem_opened hi
    rwa [hpending, List.append_nil] at hmem

/-- `a` is pushed out by `b`, and both are released by their users. -/
def pushedOut : List MemoryEvent :=
  let a : SegmentMeta := ⟨"a", 0, "a.log", .active, 0, 0⟩
  let b : SegmentMeta := ⟨"b", 0, "b.log", .active, 0, 0⟩
  [.acquire a, .load 0 .succeed, .acquire b, .load 1 .succeed, .release 0, .release 1]

theorem evicted_entries_released_pushedOut :
    let s := run advance (new 1 16 16 Dict.empty) pushedOut
    let s' := run advance s [.cleanupTake, .cleanupZero, .cleanupRelease]
    s.opened = [0, 1] ∧ s'.stepsLeft = 0 ∧ s'.memory.cache = s.memory.cache ∧
      ∀ i ∈ s'.opened, i ∈ s'.memory.cache.values := by
  have hopened : (run advance (new 1 16 16 Dict.empty) pushedOut).opened = [0, 1] := by
    decide +kernel
  have hidle : (run advance (new 1 16 16 Dict.empty) pushedOut).references = [] := by
    decide +kernel
  have hsteps : MeetsAll advance Releases (run advance (new 1 16 16 Dict.empty) pushedOut)
      [.cleanupTake, .cleanupZero, .cleanupRelease] := by decide +kernel
  have hleft : (run advance (run advance (new 1 16 16 Dict.empty) pushedOut)
      [.cleanupTake, .cleanupZero, .cleanupRelease]).stepsLeft = 0 := by decide +kernel
  obtain ⟨-, hcache, -, hclosed⟩ :=
    (evicted_entries_released 1 16 16 Dict.empty pushedOut).2.2 _ hidle hsteps
  exact ⟨hopened, hleft, hcache, (hclosed hleft).1⟩

end MemoryThreads
end PyLogStream
