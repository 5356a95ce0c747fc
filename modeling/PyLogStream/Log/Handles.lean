import PyLogStream.Log.Committed
import PyLogStream.Log.Eviction

/-!
Committed bytes through a handle (`log/segment_memory.py`). One segment has one writer
at a time, which acquires it, writes at the committed end, commits and releases
(`LogWriter.write`), and any number of readers; the users of other segments and the
evicting threads go on beside them. After an eviction two entries may map the file of
the segment, and a write extends the mapping of the writer's entry only: committed
bytes are readable as long as no write passes the end of another mapping in the cache.
-/

namespace PyLogStream
open Lib

/-- What an entry was acquired for; a reader has the bytes committed before its acquire. -/
inductive Use where
  | writer
  | reader (committed : Bytes)
  | other
  deriving DecidableEq

structure Holder where
  entry : Nat
  use : Use
  deriving DecidableEq

structure SegmentHandles where
  threads : MemoryThreads
  committed : Bytes
  /-- The message that is written but not committed. -/
  pending : Option Bytes
  /-- Acquires that load their entry. -/
  opening : List Holder
  holding : List Holder

inductive HandleEvent where
  | acquireWriter (state : SegmentState)
  | acquireReader (state : SegmentState)
  | acquireOther (m : SegmentMeta)
  | load (c : Holder) (ops : FileOps)
  | release (c : Holder)
  | write (c : Holder) (ops : FileOps) (msg : Bytes)
  | commit
  | writeOther (c : Holder) (ops : FileOps) (offset : Nat) (msg : Bytes)
  | evict (e : MemoryEvent)
  deriving DecidableEq

/-- The steps of the cleanup thread and of the threads that evict an entry. -/
def MemoryEvent.isEviction : MemoryEvent → Bool
  | .cleanupTake | .cleanupZero | .cleanupRelease | .forceEvict _ | .forceZero _ | .tryEvict _
  | .evictRelease _ => true
  | .acquire _ | .load _ _ | .release _ | .write _ _ _ _ => false

namespace SegmentHandles

/-- A start over the files that a directory holds, with what is committed in them. -/
def new (capacity initSegmentSize segmentSizeInc : Nat) (disk : Disk) (committed : Bytes) :
    SegmentHandles :=
  { threads := .new capacity initSegmentSize segmentSizeInc disk
    committed
    pending := none
    opening := []
    holding := [] }

/-- What the writers have written, committed or not. -/
def written (s : SegmentHandles) : Bytes := s.committed ++ s.pending.getD []

/-- The writers are serialized: the last one is done and has committed. -/
def MayWrite (s : SegmentHandles) : Prop :=
  (∀ c ∈ s.opening ++ s.holding, c.use ≠ .writer) ∧ s.pending = none

instance (s : SegmentHandles) : Decidable s.MayWrite := inferInstanceAs (Decidable (_ ∧ _))

/-- The holder is the writer with its handle, and has nothing to commit. -/
def Writing (s : SegmentHandles) (c : Holder) : Prop :=
  c ∈ s.holding ∧ c.use = .writer ∧ s.pending = none

instance (s : SegmentHandles) (c : Holder) : Decidable (s.Writing c) :=
  inferInstanceAs (Decidable (_ ∧ _ ∧ _))

def acquire (s : SegmentHandles) (m : SegmentMeta) (use : Use) : SegmentHandles :=
  { s with
    threads := s.threads.step (.acquire m)
    opening := s.opening ++ [⟨(s.threads.memory.acquireLocked m).2, use⟩] }

def load (s : SegmentHandles) (c : Holder) (ops : FileOps) : SegmentHandles :=
  let result := (s.threads.memory.loadEntry ops s.threads.disk c.entry).2.2
  { s with
    threads := s.threads.step (.load c.entry ops)
    opening := s.opening.erase c
    holding := s.holding ++ if result = .ok () then [c] else [] }

def release (s : SegmentHandles) (c : Holder) : SegmentHandles :=
  { s with threads := s.threads.step (.release c.entry), holding := s.holding.erase c }

/-- `handle.write(meta.get_file_end_offset(), msg)` -/
def write (s : SegmentHandles) (c : Holder) (ops : FileOps) (msg : Bytes) : SegmentHandles :=
  let offset := s.committed.length
  let result := (s.threads.memory.write ops s.threads.disk c.entry offset msg).2.2
  { s with
    threads := s.threads.step (.write c.entry ops offset msg)
    pending := if result = .ok () then some msg else none }

/-- What an event does; one that no holder is ready for changes nothing. -/
def step (seg : SegmentMeta) (s : SegmentHandles) : HandleEvent → SegmentHandles
  | .acquireWriter state => if s.MayWrite then s.acquire { seg with state } .writer else s
  | .acquireReader state => s.acquire { seg with state } (.reader s.committed)
  | .acquireOther m => s.acquire m .other
  | .load c ops => if c ∈ s.opening then s.load c ops else s
  | .release c => if c ∈ s.holding then s.release c else s
  | .write c ops msg => if s.Writing c then s.write c ops msg else s
  | .commit => { s with committed := s.written, pending := none }
  | .writeOther c ops offset msg =>
    if c ∈ s.holding ∧ c.use = .other then
      { s with threads := s.threads.step (.write c.entry ops offset msg) }
    else s
  | .evict e => if e.isEviction then { s with threads := s.threads.step e } else s

def advance (seg : SegmentMeta) (s : SegmentHandles) (e : HandleEvent) : SegmentHandles × Unit :=
  (s.step seg e, ())

/-- `read_bytes` of a range that was committed before the acquire gives its bytes. -/
def ReadsCommitted (s : SegmentHandles) : Prop :=
  ∀ c ∈ s.holding, ∀ committed, c.use = .reader committed →
    ∀ offset length : Nat, offset + length ≤ committed.length →
      ∃ view, s.threads.memory.view s.threads.disk c.entry = .ok view ∧
        readView view offset length = (committed.drop offset).take length

/-- The message does not pass the end of a mapping of the segment that the cache holds,
other than the writer's own. -/
def Covered (seg : SegmentMeta) (s : SegmentHandles) : HandleEvent → Prop
  | .write c _ msg => s.Writing c →
    ∀ i ∈ s.threads.memory.cache.get? seg.getId, i ≠ c.entry →
      ∀ e ∈ s.threads.memory.entries[i]?, ∀ mapped ∈ e.mmap,
        s.committed.length + msg.length ≤ mapped
  | _ => True

instance (seg : SegmentMeta) (s : SegmentHandles) (e : HandleEvent) :
    Decidable (Covered seg s e) :=
  match e with
  | .write c _ msg =>
    inferInstanceAs (Decidable (s.Writing c →
      ∀ i ∈ s.threads.memory.cache.get? seg.getId, i ≠ c.entry →
        ∀ e ∈ s.threads.memory.entries[i]?, ∀ mapped ∈ e.mmap,
          s.committed.length + msg.length ≤ mapped))
  | .acquireWriter _ | .acquireReader _ | .acquireOther _ | .load _ _ | .release _ | .commit
  | .writeOther _ _ _ _ | .evict _ => inferInstanceAs (Decidable True)

end SegmentHandles

/-- The mapping, if there is one, shows the first `n` bytes of the file. -/
def Entry.Covers (e : Entry) (n : Nat) : Prop := ∀ mapped, e.mmap = some mapped → n ≤ mapped

/-- What a step does to an entry over a disk: it has the same file, and a mapping of it
that is new shows all that the file has. -/
structure Entry.Follows (disk : Disk) (e e' : Entry) : Prop where
  filepath : e'.filepath = e.filepath
  covers : ∀ n, n ≤ (disk.content e.filepath).length → e.Covers n → e'.Covers n

section Entries
variable {e : Entry} {disk : Disk}

theorem Entry.Follows.of_eq {e' : Entry} (hpath : e'.filepath = e.filepath)
    (hmap : e'.mmap = e.mmap) : e.Follows disk e' :=
  ⟨hpath, fun _ _ covers mapped hmapped => covers mapped (hmap ▸ hmapped)⟩

theorem Entry.release_follows (e : Entry) : e.Follows disk e.release :=
  ⟨rfl, fun _ _ _ mapped hmapped => by cases hmapped⟩

theorem Entry.load_follows (e : Entry) (init : Nat) (ops : FileOps) (disk : Disk) :
    e.Follows disk (e.load init ops disk).1 := by
  have extended : disk.content e.filepath <+: preparedFile init (disk.content e.filepath) :=
    isPrefix_preparedFile init List.prefix_rfl
  simp only [Entry.load, prepared_eq_truncate]
  repeat' split
  · exact .of_eq rfl rfl
  · exact .of_eq rfl rfl
  · exact .of_eq rfl rfl
  · exact .of_eq rfl rfl
  · refine ⟨rfl, fun n hn _ mapped hmapped => ?_⟩
    cases hmapped
    exact le_trans hn extended.length_le

theorem Entry.write_follows (mapped : e.Mapped) (inc : Nat) (ops : FileOps) (offset : Nat)
    (msg : Bytes) : e.Follows disk (e.write inc ops disk offset msg).1 := by
  have evolves := Entry.write_evolves mapped inc ops disk offset msg
  refine ⟨evolves.filepath, fun n _ covers mapped' hmapped' => ?_⟩
  cases hmap : e.mmap with
  | none =>
      have hwrite : e.write inc ops disk offset msg = (e, disk, .error .notLoaded) := by
        simp [Entry.write, hmap]
      rw [hwrite] at hmapped'
      exact covers mapped' hmapped'
  | some m =>
      obtain ⟨m', hm', hle⟩ := evolves.grows m hmap
      obtain rfl : m' = mapped' := Option.some.inj (hm'.symm.trans hmapped')
      exact le_trans (covers m hmap) hle

/-- The writer's own mapping shows the message. -/
theorem Entry.write_covers (e : Entry) (disk : Disk) (inc : Nat) (ops : FileOps) (offset : Nat) (msg : Bytes)
    (hok : (e.write inc ops disk offset msg).2.2 = .ok ()) :
    (e.write inc ops disk offset msg).1.Covers (offset + msg.length) := by
  simp only [Entry.write] at hok ⊢
  split
  · next capacity hmap hcap =>
      simp only [hmap, hcap] at hok
      split
      · next himm => simp [himm] at hok
      · next himm =>
          simp only [himm] at hok
          split
          · next heq => simp [heq] at hok
          · next e' disk' heq =>
              simp only [heq] at hok
              split
              · next hle =>
                  intro mapped hmapped
                  have hmap' : e'.mmap = some mapped := hmapped
                  rwa [hmap', Option.getD_some] at hle
              · next hle => simp [hle] at hok
  · next hnone =>
      split at hok
      · next mapped capacity hmap hcap => exact absurd hcap (hnone mapped capacity hmap)
      · cases hok

end Entries

namespace SegmentMemory
variable {mem : SegmentMemory} {disk : Disk} {i : Nat} {e : Entry}

theorem modify_follows {entries : List Entry} (j : Nat) {f : Entry → Entry}
    (hf : ∀ e : Entry, e.Follows disk (f e)) (hi : entries[i]? = some e) :
    ∃ e', (entries.modify j f)[i]? = some e' ∧ e.Follows disk e' := by
  rw [List.getElem?_modify, hi]
  split
  · exact ⟨_, rfl, hf e⟩
  · exact ⟨_, rfl, .of_eq rfl rfl⟩

theorem set_follows {j : Nat} {e₀ e₁ : Entry} (hj : mem.entries[j]? = some e₀)
    (follows : e₀.Follows disk e₁) (hi : mem.entries[i]? = some e) :
    ∃ e', (mem.entries.set j e₁)[i]? = some e' ∧ e.Follows disk e' := by
  by_cases heq : j = i
  · subst heq
    obtain rfl : e₀ = e := Option.some.inj (hj.symm.trans hi)
    exact ⟨e₁, by simp [(List.getElem?_eq_some_iff.mp hj).1], follows⟩
  · exact ⟨e, by simpa [heq] using hi, .of_eq rfl rfl⟩

theorem acquireLocked_follows (m : SegmentMeta) (hi : mem.entries[i]? = some e) :
    ∃ e', (mem.acquireLocked m).1.entries[i]? = some e' ∧ e.Follows disk e' := by
  obtain ⟨n, hn⟩ := acquireLocked_kept m hi
  exact ⟨_, hn, .of_eq rfl rfl⟩

theorem loadEntry_follows (j : Nat) (ops : FileOps) (hi : mem.entries[i]? = some e) :
    ∃ e', (mem.loadEntry ops disk j).1.entries[i]? = some e' ∧ e.Follows disk e' := by
  simp only [loadEntry]
  cases hj : mem.entries[j]? with
  | none => exact ⟨e, hi, .of_eq rfl rfl⟩
  | some e₀ => exact set_follows hj (e₀.load_follows _ ops disk) hi

theorem loadEntry_cache (mem : SegmentMemory) (ops : FileOps) (disk : Disk) (j : Nat) :
    (mem.loadEntry ops disk j).1.cache = mem.cache := by
  simp only [loadEntry]
  split
  · rfl
  · rfl

theorem write_eq (hi : mem.entries[i]? = some e) (ops : FileOps) (offset : Nat) (msg : Bytes) :
    mem.write ops disk i offset msg =
      let result := e.write mem.segmentSizeInc ops disk offset msg
      ({ mem with entries := mem.entries.set i result.1 }, result.2) := by
  simp only [write, hi]

theorem write_cache (mem : SegmentMemory) (ops : FileOps) (disk : Disk) (j offset : Nat)
    (msg : Bytes) : (mem.write ops disk j offset msg).1.cache = mem.cache := by
  simp only [write]
  split
  · rfl
  · rfl

theorem loadEntry_extends (j : Nat) (ops : FileOps) (p : String) :
    disk.content p <+: (mem.loadEntry ops disk j).2.1.content p := by
  simp only [loadEntry]
  cases mem.entries[j]? with
  | none => exact List.prefix_rfl
  | some e₀ => exact (e₀.load_extends mem.initSegmentSize ops disk).2 p

end SegmentMemory

namespace MemoryThreads
variable {s : MemoryThreads}

/-- No step but an acquire puts an entry in the cache. -/
theorem step_cached {ev : MemoryEvent} (hev : ∀ m, ev ≠ .acquire m) {key : String} {i : Nat}
    (h : (s.step ev).memory.cache.get? key = some i) : s.memory.cache.get? key = some i := by
  have erased : ∀ key', (s.memory.cache.erase key').get? key = some i →
      s.memory.cache.get? key = some i := by
    intro key' herase
    rw [Dict.get?_erase] at herase
    split at herase
    · cases herase
    · exact herase
  cases ev with
  | acquire m => exact absurd rfl (hev m)
  | load j ops =>
      simp only [step, load_eq] at h
      split at h
      · rwa [SegmentMemory.loadEntry_cache] at h
      · exact h
  | write j ops offset msg =>
      simp only [step, write] at h
      split at h
      · rwa [SegmentMemory.write_cache] at h
      · exact h
  | forceEvict m =>
      simp only [step, forceEvict] at h
      split at h
      · exact h
      · exact erased _ h
  | tryEvict m =>
      simp only [step, tryEvict] at h
      repeat' split at h
      · exact h
      · exact h
      · exact erased _ h
  | _ =>
      simp only [step, cleanupTake, cleanupZero, cleanupRelease, forceZero] at h
      repeat' split at h
      all_goals exact h

theorem step_follows (sound : s.Sound) (ev : MemoryEvent) {i : Nat} {e : Entry}
    (hi : s.memory.entries[i]? = some e) :
    ∃ e', (s.step ev).memory.entries[i]? = some e' ∧ e.Follows s.disk e' := by
  have same : ∃ e', s.memory.entries[i]? = some e' ∧ e.Follows s.disk e' :=
    ⟨e, hi, .of_eq rfl rfl⟩
  have closed : ∀ j, ∃ e', (s.memory.closeEntry j).entries[i]? = some e' ∧ e.Follows s.disk e' :=
    fun j => SegmentMemory.modify_follows j Entry.release_follows hi
  cases ev with
  | acquire m => exact SegmentMemory.acquireLocked_follows m hi
  | load j ops =>
      simp only [step, load_eq]
      split
      · exact SegmentMemory.loadEntry_follows j ops hi
      · exact same
  | release j =>
      simp only [step]
      split
      · exact SegmentMemory.modify_follows j (fun _ => .of_eq rfl rfl) hi
      · exact same
  | write j ops offset msg =>
      simp only [step, write, SegmentMemory.write]
      split
      · cases hj : s.memory.entries[j]? with
        | none => exact same
        | some e₀ =>
            have mapped := sound.mapped e₀ (List.mem_of_getElem? hj)
            exact SegmentMemory.set_follows hj (Entry.write_follows mapped _ ops offset msg) hi
      · exact same
  | cleanupRelease =>
      simp only [step, cleanupRelease]
      split
      · exact closed _
      · exact same
  | evictRelease j =>
      simp only [step, evictRelease]
      split
      · exact closed j
      · exact same
  | _ =>
      simp only [step, cleanupTake, cleanupZero, forceEvict, forceZero, tryEvict]
      repeat' split
      all_goals exact same

/-- Only a write changes what a file has. -/
theorem step_content {ev : MemoryEvent} (hev : ∀ i ops offset msg, ev ≠ .write i ops offset msg)
    (p : String) : s.disk.content p <+: (s.step ev).disk.content p := by
  cases ev with
  | write i ops offset msg => exact absurd rfl (hev i ops offset msg)
  | load j ops =>
      simp only [step, load_eq]
      split
      · exact SegmentMemory.loadEntry_extends j ops p
      · exact List.prefix_rfl
  | _ =>
      simp only [step, acquire, release, cleanupTake, cleanupZero, cleanupRelease, forceEvict,
        forceZero, tryEvict, evictRelease]
      repeat' split
      all_goals exact List.prefix_rfl

end MemoryThreads

namespace SegmentHandles

/-- The entry has the file of the segment, and shows its first `n` bytes once loaded. -/
structure Shows (seg : SegmentMeta) (n : Nat) (e : Entry) : Prop where
  filepath : e.filepath = seg.path
  covers : e.Covers n

def Elsewhere (seg : SegmentMeta) (e : Entry) : Prop := resolve e.filepath ≠ resolve seg.path

/-- What the cache may hold under a key. -/
def Cached (seg : SegmentMeta) (n : Nat) (key : String) (e : Entry) : Prop :=
  if key = seg.getId then Shows seg n e else Elsewhere seg e

/-- What a holder may hold. -/
def Fits (seg : SegmentMeta) (committed : Bytes) (e : Entry) : Use → Prop
  | .writer => Shows seg 0 e
  | .reader before => before <+: committed ∧ Shows seg before.length e
  | .other => Elsewhere seg e

/-- The file has what was written, the cached entry of the segment shows all of it, and
the entry of a reader what was committed before its acquire. -/
structure Readable (seg : SegmentMeta) (s : SegmentHandles) : Prop where
  sound : s.threads.Sound
  opened : s.threads.loading.Perm (s.opening.map Holder.entry)
  held : s.threads.handles.Perm (s.holding.map Holder.entry)
  stored : s.written <+: s.threads.disk.content seg.path
  cached : ∀ key i, s.threads.memory.cache.get? key = some i →
    ∃ e, s.threads.memory.entries[i]? = some e ∧ Cached seg s.written.length key e
  fits : ∀ c ∈ s.opening ++ s.holding,
    ∃ e, s.threads.memory.entries[c.entry]? = some e ∧ Fits seg s.committed e c.use

section
variable {seg : SegmentMeta} {s : SegmentHandles} {disk : Disk} {e e' : Entry} {n : Nat}

theorem Shows.follow (shows : Shows seg n e) (hn : n ≤ (disk.content seg.path).length)
    (follows : e.Follows disk e') : Shows seg n e' :=
  ⟨follows.filepath.trans shows.filepath,
    follows.covers n (by rw [shows.filepath]; exact hn) shows.covers⟩

theorem Shows.le (shows : Shows seg n e) {n' : Nat} (h : n' ≤ n) : Shows seg n' e :=
  ⟨shows.filepath, fun mapped hmapped => le_trans h (shows.covers mapped hmapped)⟩

theorem Elsewhere.follow (elsewhere : Elsewhere seg e) (follows : e.Follows disk e') :
    Elsewhere seg e' := by
  rw [Elsewhere, follows.filepath]
  exact elsewhere

theorem Cached.follow {key : String} (cached : Cached seg n key e)
    (hn : n ≤ (disk.content seg.path).length) (follows : e.Follows disk e') :
    Cached seg n key e' := by
  simp only [Cached] at cached ⊢
  split
  · next hkey =>
      rw [if_pos hkey] at cached
      exact cached.follow hn follows
  · next hkey =>
      rw [if_neg hkey] at cached
      exact cached.follow follows

theorem Fits.follow {committed : Bytes} {use : Use} (fits : Fits seg committed e use)
    (hstored : committed <+: disk.content seg.path) (follows : e.Follows disk e') :
    Fits seg committed e' use := by
  cases use with
  | writer => exact Shows.follow fits (Nat.zero_le _) follows
  | reader before =>
      exact ⟨fits.1, fits.2.follow (le_trans fits.1.length_le hstored.length_le) follows⟩
  | other => exact Elsewhere.follow fits follows

theorem Fits.mono {committed committed' : Bytes} {use : Use} (fits : Fits seg committed e use)
    (h : committed <+: committed') : Fits seg committed' e use := by
  cases use with
  | writer => exact fits
  | reader before => exact ⟨fits.1.trans h, fits.2⟩
  | other => exact fits

theorem committed_prefix (s : SegmentHandles) : s.committed <+: s.written :=
  List.prefix_append _ _

theorem Readable.cached_step (inv : s.Readable seg) (ev : MemoryEvent) {key : String} {i : Nat}
    (h : s.threads.memory.cache.get? key = some i) :
    ∃ e, (s.threads.step ev).memory.entries[i]? = some e ∧ Cached seg s.written.length key e := by
  obtain ⟨e, hi, cached⟩ := inv.cached key i h
  obtain ⟨e', hi', follows⟩ := MemoryThreads.step_follows inv.sound ev hi
  exact ⟨e', hi', cached.follow inv.stored.length_le follows⟩

theorem Readable.fits_step (inv : s.Readable seg) (ev : MemoryEvent) {c : Holder}
    (h : c ∈ s.opening ++ s.holding) :
    ∃ e, (s.threads.step ev).memory.entries[c.entry]? = some e ∧ Fits seg s.committed e c.use := by
  obtain ⟨e, hi, fits⟩ := inv.fits c h
  obtain ⟨e', hi', follows⟩ := MemoryThreads.step_follows inv.sound ev hi
  exact ⟨e', hi', fits.follow (s.committed_prefix.trans inv.stored) follows⟩

/-- Steps that neither acquire nor write the segment. -/
theorem Readable.keep (inv : s.Readable seg) {s' : SegmentHandles} (ev : MemoryEvent)
    (hthreads : s'.threads = s.threads.step ev) (hev : ∀ m, ev ≠ .acquire m)
    (hcommitted : s'.committed = s.committed) (hpending : s'.pending = s.pending)
    (hstored : s.written <+: (s.threads.step ev).disk.content seg.path)
    (opened : (s.threads.step ev).loading.Perm (s'.opening.map Holder.entry))
    (held : (s.threads.step ev).handles.Perm (s'.holding.map Holder.entry))
    (hholders : ∀ c ∈ s'.opening ++ s'.holding, c ∈ s.opening ++ s.holding) :
    s'.Readable seg := by
  have hwritten : s'.written = s.written := by rw [written, hcommitted, hpending, written]
  refine ⟨?_, ?_, ?_, ?_, ?_, ?_⟩
  · rw [hthreads]
    exact inv.sound.step ev
  · rw [hthreads]
    exact opened
  · rw [hthreads]
    exact held
  · rw [hthreads, hwritten]
    exact hstored
  · intro key i hi
    rw [hthreads] at hi ⊢
    rw [hwritten]
    exact inv.cached_step ev (MemoryThreads.step_cached hev hi)
  · intro c hc
    rw [hthreads, hcommitted]
    exact inv.fits_step ev (hholders c hc)

/-- An acquire hands out what the cache may hold under its key. -/
theorem Readable.acquire (inv : s.Readable seg) {m : SegmentMeta} {use : Use}
    (hfresh : ∀ e : Entry, e.filepath = m.path → e.mmap = none →
      Cached seg s.written.length m.getId e)
    (huse : ∀ e, Cached seg s.written.length m.getId e → Fits seg s.committed e use) :
    (s.acquire m use).Readable seg := by
  have hacquired : ∃ e, (s.threads.step (.acquire m)).memory.entries[
      (s.threads.memory.acquireLocked m).2]? = some e ∧
      Cached seg s.written.length m.getId e := by
    rcases s.threads.memory.acquireLocked_entry m with hcached | ⟨-, hnew⟩
    · exact inv.cached_step (.acquire m) hcached
    · exact ⟨_, hnew, hfresh _ rfl rfl⟩
  refine ⟨inv.sound.step (.acquire m), ?_, inv.held, inv.stored, ?_, ?_⟩
  · simp only [SegmentHandles.acquire, MemoryThreads.step, MemoryThreads.acquire, List.map_append]
    exact List.Perm.append_right _ inv.opened
  · intro key i hi
    rcases SegmentMemory.acquireLocked_cached m hi with ⟨-, hold⟩ | ⟨rfl, rfl⟩
    · exact inv.cached_step (.acquire m) hold
    · exact hacquired
  · intro c hc
    simp only [SegmentHandles.acquire, List.mem_append, List.mem_singleton] at hc
    rcases hc with (hopening | rfl) | hholding
    · exact inv.fits_step (.acquire m) (List.mem_append_left _ hopening)
    · obtain ⟨e, he, cached⟩ := hacquired
      exact ⟨e, he, huse e cached⟩
    · exact inv.fits_step (.acquire m) (List.mem_append_right _ hholding)

theorem perm_erase_map {l : List Nat} {holders : List Holder}
    (h : l.Perm (holders.map Holder.entry)) {c : Holder} (hc : c ∈ holders) :
    (l.erase c.entry).Perm ((holders.erase c).map Holder.entry) := by
  have hperm := (h.trans ((List.perm_cons_erase hc).map Holder.entry)).erase c.entry
  rwa [List.map_cons, List.erase_cons_head] at hperm

theorem Readable.mem_loading (inv : s.Readable seg) {c : Holder} (hc : c ∈ s.opening) :
    c.entry ∈ s.threads.loading :=
  inv.opened.mem_iff.mpr (List.mem_map_of_mem hc)

theorem Readable.mem_handles (inv : s.Readable seg) {c : Holder} (hc : c ∈ s.holding) :
    c.entry ∈ s.threads.handles :=
  inv.held.mem_iff.mpr (List.mem_map_of_mem hc)

theorem Readable.load (inv : s.Readable seg) {c : Holder} (hc : c ∈ s.opening) (ops : FileOps) :
    (s.load c ops).Readable seg := by
  have hstep : s.threads.step (.load c.entry ops) = s.threads.load c.entry ops :=
    if_pos (inv.mem_loading hc)
  refine inv.keep (.load c.entry ops) rfl (by simp) rfl rfl ?_ ?_ ?_ ?_
  · exact inv.stored.trans (MemoryThreads.step_content (by simp) _)
  · rw [hstep, MemoryThreads.load_eq]
    exact perm_erase_map inv.opened hc
  · rw [hstep, MemoryThreads.load_eq]
    simp only [SegmentHandles.load, List.map_append]
    refine inv.held.append ?_
    split
    · exact List.Perm.refl _
    · exact List.Perm.refl _
  · intro c' hc'
    simp only [SegmentHandles.load, List.mem_append] at hc' ⊢
    rcases hc' with hopening | hholding | hnew
    · exact Or.inl (List.mem_of_mem_erase hopening)
    · exact Or.inr hholding
    · split at hnew
      · exact Or.inl (List.mem_singleton.mp hnew ▸ hc)
      · cases hnew

theorem Readable.release (inv : s.Readable seg) {c : Holder} (hc : c ∈ s.holding) :
    (s.release c).Readable seg := by
  have hstep : s.threads.step (.release c.entry) = s.threads.release c.entry :=
    if_pos (inv.mem_handles hc)
  refine inv.keep (.release c.entry) rfl (by simp) rfl rfl ?_ ?_ ?_ ?_
  · exact inv.stored.trans (MemoryThreads.step_content (by simp) _)
  · rw [hstep]
    exact inv.opened
  · rw [hstep]
    exact perm_erase_map inv.held hc
  · intro c' hc'
    simp only [SegmentHandles.release, List.mem_append] at hc' ⊢
    exact hc'.imp_right List.mem_of_mem_erase

theorem eviction_references (s : MemoryThreads) {ev : MemoryEvent} (hev : ev.isEviction = true) :
    (s.step ev).loading = s.loading ∧ (s.step ev).handles = s.handles := by
  cases ev with
  | acquire _ | load _ _ | release _ | write _ _ _ _ => cases hev
  | _ =>
      simp only [MemoryThreads.step, MemoryThreads.cleanupTake, MemoryThreads.cleanupZero,
        MemoryThreads.cleanupRelease, MemoryThreads.forceEvict, MemoryThreads.forceZero,
        MemoryThreads.tryEvict, MemoryThreads.evictRelease]
      repeat' split
      all_goals exact ⟨rfl, rfl⟩

theorem Readable.evict (inv : s.Readable seg) {ev : MemoryEvent} (hev : ev.isEviction = true) :
    Readable seg { s with threads := s.threads.step ev } := by
  obtain ⟨hloading, hhandles⟩ := eviction_references s.threads hev
  refine inv.keep ev rfl ?_ rfl rfl ?_ (hloading ▸ inv.opened) (hhandles ▸ inv.held)
    fun _ hc => hc
  · rintro m rfl
    cases hev
  · refine inv.stored.trans (MemoryThreads.step_content ?_ _)
    rintro i ops offset msg rfl
    cases hev

/-- The write of a holder that holds its handle is the write of its entry. -/
theorem Readable.write_step (inv : s.Readable seg) {c : Holder} (hc : c ∈ s.holding) {e : Entry}
    (he : s.threads.memory.entries[c.entry]? = some e) (ops : FileOps) (offset : Nat)
    (msg : Bytes) :
    s.threads.step (.write c.entry ops offset msg) =
      let result := e.write s.threads.memory.segmentSizeInc ops s.threads.disk offset msg
      { s.threads with
        memory := { s.threads.memory with
          entries := s.threads.memory.entries.set c.entry result.1 }
        disk := result.2.1 } := by
  have hstep : s.threads.step (.write c.entry ops offset msg) =
      s.threads.write c.entry ops offset msg := if_pos (inv.mem_handles hc)
  rw [hstep, MemoryThreads.write, SegmentMemory.write_eq he]

theorem Readable.writeOther (inv : s.Readable seg) {c : Holder} (hc : c ∈ s.holding)
    (huse : c.use = .other) (ops : FileOps) (offset : Nat) (msg : Bytes) :
    Readable seg { s with threads := s.threads.step (.write c.entry ops offset msg) } := by
  obtain ⟨e, he, fits⟩ := inv.fits c (List.mem_append_right _ hc)
  rw [huse] at fits
  have hstep := inv.write_step hc he ops offset msg
  obtain ⟨-, keeps⟩ := e.write_keeps s.threads.memory.segmentSizeInc ops s.threads.disk offset msg
  refine inv.keep (.write c.entry ops offset msg) rfl (by simp) rfl rfl ?_ ?_ ?_ fun _ hc => hc
  · rw [hstep]
    have hsame := keeps.others seg.path (Ne.symm fits)
    exact hsame ▸ inv.stored
  · rw [hstep]
    exact inv.opened
  · rw [hstep]
    exact inv.held

/-- After a write the file must have what is written then, and the cached entry show it. -/
theorem Readable.wrote (inv : s.Readable seg) {c : Holder} (hc : c ∈ s.holding) (ops : FileOps)
    (offset : Nat) (msg : Bytes) (pending : Option Bytes) :
    let threads := s.threads.step (.write c.entry ops offset msg)
    s.committed ++ pending.getD [] <+: threads.disk.content seg.path →
    (∀ i, s.threads.memory.cache.get? seg.getId = some i →
      ∃ e, threads.memory.entries[i]? = some e ∧
        Shows seg (s.committed ++ pending.getD []).length e) →
    Readable seg { s with threads, pending } := by
  intro threads hstored hown
  obtain ⟨e, he, -⟩ := inv.fits c (List.mem_append_right _ hc)
  have hstep : threads = _ := inv.write_step hc he ops offset msg
  refine ⟨inv.sound.step (.write c.entry ops offset msg), ?_, ?_, hstored, ?_,
    fun c' hc' => inv.fits_step _ hc'⟩
  · rw [hstep]
    exact inv.opened
  · rw [hstep]
    exact inv.held
  · intro key i hi
    have hbefore : s.threads.memory.cache.get? key = some i :=
      MemoryThreads.step_cached (by simp) hi
    by_cases hkey : key = seg.getId
    · obtain ⟨e', he', shows⟩ := hown i (hkey ▸ hbefore)
      exact ⟨e', he', (if_pos hkey).mpr shows⟩
    · obtain ⟨e', he', cached⟩ := inv.cached_step (.write c.entry ops offset msg) hbefore
      exact ⟨e', he', (if_neg hkey).mpr ((if_neg hkey).mp cached)⟩

/-- The message is in the file, and the cached entry shows it: the writer's own mapping
was extended, and another one reached that far already. -/
theorem Readable.write (inv : s.Readable seg) {c : Holder} (hw : s.Writing c) (ops : FileOps)
    (msg : Bytes)
    (covered : ∀ i ∈ s.threads.memory.cache.get? seg.getId, i ≠ c.entry →
      ∀ e ∈ s.threads.memory.entries[i]?, ∀ mapped ∈ e.mmap,
        s.committed.length + msg.length ≤ mapped) : (s.write c ops msg).Readable seg := by
  obtain ⟨hc, huse, hpending⟩ := hw
  obtain ⟨e, he, fits⟩ := inv.fits c (List.mem_append_right _ hc)
  rw [huse] at fits
  have hpath : e.filepath = seg.path := Shows.filepath fits
  have hwritten : s.written = s.committed := by rw [written, hpending]; exact List.append_nil _
  have hstored : s.committed <+: s.threads.disk.content seg.path := hwritten ▸ inv.stored
  have htake := (List.prefix_iff_eq_take.mp hstored).symm
  have hstep := inv.write_step hc he ops s.committed.length msg
  have hcovers := e.write_covers s.threads.disk s.threads.memory.segmentSizeInc ops
    s.committed.length msg
  obtain ⟨hfile, keeps⟩ := e.write_keeps s.threads.memory.segmentSizeInc ops s.threads.disk
    s.committed.length msg
  rw [hpath] at keeps
  have hbefore := keeps.before hstored.length_le
  have hmessage := keeps.message hstored.length_le
  rw [htake] at hbefore hmessage
  simp only [SegmentHandles.write, SegmentMemory.write_eq he]
  cases hresult : (e.write s.threads.memory.segmentSizeInc ops s.threads.disk s.committed.length
      msg).2.2 with
  | error err =>
      refine inv.wrote hc ops _ msg none ?_ fun i hi => ?_
      · rw [hstep]
        exact (List.append_nil s.committed).symm ▸ hbefore
      · obtain ⟨e', he', cached⟩ := inv.cached_step (.write c.entry ops s.committed.length msg) hi
        rw [hwritten] at cached
        exact ⟨e', he', (List.append_nil s.committed).symm ▸ (if_pos rfl).mp cached⟩
  | ok _ =>
      refine inv.wrote hc ops _ msg (some msg) ?_ fun i hi => ?_
      · rw [hstep]
        exact hmessage hresult
      · rw [hstep, Option.getD_some, List.length_append]
        by_cases heq : i = c.entry
        · subst heq
          refine ⟨_, ?_, hfile.trans hpath, hcovers hresult⟩
          simp [(List.getElem?_eq_some_iff.mp he).1]
        · obtain ⟨e', he', cached⟩ := inv.cached _ i hi
          refine ⟨e', ?_, ((if_pos rfl).mp cached).filepath, ?_⟩
          · simpa [Ne.symm heq] using he'
          · exact covered i hi heq e' he'

theorem Readable.commit (inv : s.Readable seg) :
    Readable seg { s with committed := s.written, pending := none } := by
  have hwritten : written { s with committed := s.written, pending := none } = s.written :=
    List.append_nil _
  refine ⟨inv.sound, inv.opened, inv.held, ?_, ?_, ?_⟩
  · rw [hwritten]
    exact inv.stored
  · rw [hwritten]
    exact inv.cached
  · intro c hc
    obtain ⟨e, he, fits⟩ := inv.fits c hc
    exact ⟨e, he, fits.mono s.committed_prefix⟩

/-- Another segment has another key and another file. -/
def OtherSegment (seg : SegmentMeta) : HandleEvent → Prop
  | .acquireOther m => m.getId ≠ seg.getId ∧ resolve m.path ≠ resolve seg.path
  | _ => True

instance (seg : SegmentMeta) (e : HandleEvent) : Decidable (OtherSegment seg e) :=
  match e with
  | .acquireOther m =>
    inferInstanceAs (Decidable (m.getId ≠ seg.getId ∧ resolve m.path ≠ resolve seg.path))
  | .acquireWriter _ | .acquireReader _ | .load _ _ | .release _ | .write _ _ _ | .commit
  | .writeOther _ _ _ _ | .evict _ => inferInstanceAs (Decidable True)

theorem Readable.step (inv : s.Readable seg) {ev : HandleEvent} (other : OtherSegment seg ev)
    (covered : Covered seg s ev) : (s.step seg ev).Readable seg := by
  have hfresh : ∀ state : SegmentState, ∀ e : Entry, e.filepath = seg.path → e.mmap = none →
      Cached seg s.written.length { seg with state }.getId e :=
    fun state e hpath hmap => (if_pos rfl).mpr ⟨hpath, fun mapped hmapped => by simp [hmap] at hmapped⟩
  cases ev with
  | acquireWriter state =>
      simp only [SegmentHandles.step]
      split
      · refine inv.acquire (hfresh state) fun e cached => ?_
        exact Shows.le ((if_pos rfl).mp cached) (Nat.zero_le _)
      · exact inv
  | acquireReader state =>
      refine inv.acquire (hfresh state) fun e cached => ?_
      exact ⟨List.prefix_rfl, Shows.le ((if_pos rfl).mp cached) s.committed_prefix.length_le⟩
  | acquireOther m =>
      obtain ⟨hid, hpath⟩ := other
      refine inv.acquire (fun e he _ => ?_) fun e cached => ?_
      · refine (if_neg hid).mpr ?_
        rw [Elsewhere, he]
        exact hpath
      · exact (if_neg hid).mp cached
  | load c ops =>
      simp only [SegmentHandles.step]
      split
      · next hc => exact inv.load hc ops
      · exact inv
  | release c =>
      simp only [SegmentHandles.step]
      split
      · next hc => exact inv.release hc
      · exact inv
  | write c ops msg =>
      simp only [SegmentHandles.step]
      split
      · next hw => exact inv.write hw ops msg (covered hw)
      · exact inv
  | commit => exact inv.commit
  | writeOther c ops offset msg =>
      simp only [SegmentHandles.step]
      split
      · next hc => exact inv.writeOther hc.1 hc.2 ops offset msg
      · exact inv
  | evict e =>
      simp only [SegmentHandles.step]
      split
      · next he => exact inv.evict he
      · exact inv

theorem readable_new (capacity init inc : Nat) {committed : Bytes}
    (hstored : committed <+: disk.content seg.path) :
    (new capacity init inc disk committed).Readable seg := by
  refine ⟨MemoryThreads.sound_new capacity init inc disk, List.Perm.nil, List.Perm.nil, ?_, ?_, ?_⟩
  · simpa [new, MemoryThreads.new, written] using hstored
  · simp [new, MemoryThreads.new, SegmentMemory.new]
  · simp [new]

/-- What a reader holds shows the bytes that were committed before its acquire. -/
theorem Readable.readsCommitted (inv : s.Readable seg) : s.ReadsCommitted := by
  intro c hc committed huse offset length hrange
  obtain ⟨e, he, fits⟩ := inv.fits c (List.mem_append_right _ hc)
  rw [huse] at fits
  obtain ⟨hcommitted, shows⟩ := fits
  obtain ⟨e', mapped, he', hmap⟩ := inv.sound.loaded c.entry (inv.mem_handles hc)
  obtain rfl : e' = e := Option.some.inj (he'.symm.trans he)
  refine ⟨(s.threads.disk.content e'.filepath).take mapped, ?_, ?_⟩
  · simp [SegmentMemory.view, he, Entry.view, hmap]
  · have hcontent : committed <+: s.threads.disk.content e'.filepath :=
      shows.filepath ▸ (hcommitted.trans (s.committed_prefix.trans inv.stored))
    obtain ⟨rest, hview⟩ := List.prefix_take_iff.mpr ⟨hcontent, shows.covers mapped hmap⟩
    rw [readView, slice_of_nat, ← hview, List.drop_append_of_le_length (by omega),
      List.take_append_of_le_length (by rw [List.length_drop]; omega)]

end

/-- In every run whose writes stay inside the other mapping that the cache may hold, a
range that was committed before an acquire is read through the handle it returned. -/
theorem reads_committed (capacity init inc : Nat) (disk : Disk) (seg : SegmentMeta)
    (committed : Bytes) (hstored : committed <+: disk.content seg.path)
    (events : List HandleEvent) (others : ∀ e ∈ events, OtherSegment seg e)
    (covered : MeetsAll (advance seg) (Covered seg) (new capacity init inc disk committed) events) :
    (run (advance seg) (new capacity init inc disk committed) events).ReadsCommitted := by
  have steps := covered.with_mem fun e (he : e ∈ events) => he
  have inv := steps.invariant (Readable seg)
    (fun s e inv h => inv.step (others e h.1) h.2) (readable_new capacity init inc hstored)
  exact inv.readsCommitted

/-- With room for one entry, the acquire of another segment evicts the entry of the writer,
and a reader makes a second entry; then a record is written through the first one. -/
def evictedWriter (record : Bytes) : List HandleEvent :=
  let other : SegmentMeta := ⟨"b", 0, "b.log", .active, 0, 0⟩
  [.acquireWriter .active, .load ⟨0, .writer⟩ .succeed,
    .acquireOther other, .load ⟨1, .other⟩ .succeed,
    .acquireReader .active, .load ⟨2, .reader []⟩ .succeed,
    .write ⟨0, .writer⟩ .succeed record, .commit, .release ⟨0, .writer⟩,
    .evict .cleanupTake, .evict .cleanupZero, .evict .cleanupRelease,
    .acquireReader .active, .load ⟨2, .reader record⟩ .succeed]

theorem reads_committed_evicted :
    let seg : SegmentMeta := ⟨"a", 0, "a.log", .active, 0, 0⟩
    let record : Bytes := [0, 0, 0, 4, 1, 2, 3, 4]
    (([] : Bytes) <+: Disk.content Dict.empty seg.path ∧
        (∀ e ∈ evictedWriter record, OtherSegment seg e) ∧
        MeetsAll (advance seg) (Covered seg) (new 1 16 16 Dict.empty []) (evictedWriter record)) ∧
      (run (advance seg) (new 1 16 16 Dict.empty []) (evictedWriter record)).ReadsCommitted := by
  intro seg record
  have others : ∀ e ∈ evictedWriter record, OtherSegment seg e := by decide
  have covered : MeetsAll (advance seg) (Covered seg) (new 1 16 16 Dict.empty [])
      (evictedWriter record) := by decide
  exact ⟨⟨List.nil_prefix, others, covered⟩,
    reads_committed 1 16 16 Dict.empty seg [] List.nil_prefix (evictedWriter record) others covered⟩

/-- A record that passes the end of the second mapping is cut short there. -/
theorem reads_committed_cut :
    let seg : SegmentMeta := ⟨"a", 0, "a.log", .active, 0, 0⟩
    let record : Bytes := [0, 0, 0, 16] ++ List.replicate 16 1
    let s := run (advance seg) (new 1 16 16 Dict.empty []) (evictedWriter record)
    (∀ e ∈ evictedWriter record, OtherSegment seg e) ∧
      (⟨2, .reader record⟩ ∈ s.holding ∧ s.committed = record ∧
        s.threads.memory.view s.threads.disk 2 = .ok (record.take 16)) ∧
      ¬ s.ReadsCommitted := by
  intro seg record s
  have hholding : ⟨2, .reader record⟩ ∈ s.holding := by decide
  have hview : s.threads.memory.view s.threads.disk 2 = .ok (record.take 16) := by decide
  refine ⟨by decide, ⟨hholding, by decide, hview⟩, ?_⟩
  intro reads
  obtain ⟨view, hread, hbytes⟩ := reads _ hholding record rfl 0 20 (by decide)
  rw [hview] at hread
  cases hread
  revert hbytes
  decide

end SegmentHandles
end PyLogStream
