import PyLogStream.Lib.Run
import PyLogStream.Log.Offsets

/-!
Rollover by age. The creation time of a segment is the default of its dataclass field,
read once when the module is loaded, and `create_segment` never passes another; the
policy compares seconds with `rollover_ms`. So data that fits seals a segment with
records in it once the process is older than `rollover_ms` seconds, whatever the age of
the segment. The time at which a segment was really made is kept beside the log.
-/

namespace PyLogStream
open Lib

/-- A log, and for every topic when `create_segment` made its active segment. -/
structure AgedLog where
  log : LogManager
  born : Dict String Time

/-- A call of the writer; `made` is the clock when `create_segment` runs in it. -/
inductive WriterCall where
  | createTopic (topic : String) (made : Time)
  | append (topic : String) (env : CallEnv) (made : Time) (data : Bytes)

/-- The active segment of a topic is the last one. -/
def LogManager.activeSegment (lm : LogManager) (topic : String) : Option SegmentMeta :=
  (lm.registry.registry.get? topic).bind List.getLast?

def LogManager.segmentCount (lm : LogManager) (topic : String) : Nat :=
  ((lm.registry.registry.get? topic).getD []).length

namespace AgedLog

def start (config : LogConfig) (importTime : Time) (disk : Disk) : AgedLog :=
  { log := { LogManager.start config importTime with disk := disk }, born := Dict.empty }

/-- The log after a call; the topic's active segment is new if there is one more. -/
def next (s : AgedLog) (topic : String) (made : Time) (log : LogManager) : AgedLog :=
  { log := log
    born := if s.log.segmentCount topic < log.segmentCount topic then s.born.set topic made
      else s.born }

def advance (s : AgedLog) : WriterCall → AgedLog × Unit
  | .createTopic topic made => (s.next topic made (s.log.createTopic topic).1, ())
  | .append topic env made data => (s.next topic made (s.log.append env topic data).1, ())

/-- Data of this length still fits into the segment. -/
def Fits (s : AgedLog) (m : SegmentMeta) (data : Bytes) : Prop :=
  (m.size : Int) + (4 + data.length) ≤ s.log.policy.maxSegmentSize

/-- The segment is older than `rollover_ms` milliseconds. -/
def OlderThanBound (s : AgedLog) (topic : String) (now : Time) : Prop :=
  ∃ born, s.born.get? topic = some born ∧ (s.log.policy.rolloverMs : Rat) < 1000 * (now - born)

/-- The segment of the topic that was active is sealed. -/
def Seals (m : SegmentMeta) (log : LogManager) (topic : String) : Prop :=
  m.state = .active ∧ ∃ m', log.registry.Holds m' ∧ m'.topic = topic ∧
    m'.baseOffset = m.baseOffset ∧ m'.state = .sealed

/-- An append of data that fits seals the active segment by the age of that segment. -/
def SealsByAge (s : AgedLog) : WriterCall → Prop
  | .createTopic _ _ => True
  | .append topic env _ data => ∀ m, s.log.activeSegment topic = some m → s.Fits m data →
      Seals m (s.log.append env topic data).1 topic → s.OlderThanBound topic env.now

/-- An append of data that fits, into a segment with records, more than `rollover_ms`
seconds after the start of the process finds a segment old enough to be sealed. -/
def RollsInTime (importTime : Time) (s : AgedLog) : WriterCall → Prop
  | .createTopic _ _ => True
  | .append topic env _ data => ∀ m, s.log.activeSegment topic = some m → s.Fits m data →
      data.length < 2 ^ 32 → m.size ≠ 0 →
      (s.log.policy.rolloverMs : Rat) < env.now - importTime → s.OlderThanBound topic env.now

end AgedLog

section
variable {lm : LogManager} {topic : String} {front : List SegmentMeta} {last : SegmentMeta}
  {start : Nat}

/-- An append leaves the segments of its target, the last of them with or without the
message. -/
theorem append_registry (shaped : lm.registry.Shaped) (env : CallEnv) {data : Bytes}
    (hlen : data.length < 2 ^ 32) {m : SegmentMeta}
    (htarget : lm.appendTarget env.now topic (4 + data.length) = (front, m)) :
    ∃ size, (lm.append env topic data).1.registry =
      lm.registry.setTopic topic (front ++ [{ m with size := size }]) := by
  obtain ⟨⟨start, segs⟩, happ⟩ := append_eq shaped hlen env htarget
  have written := writeMessage_registry
    { lm with registry := lm.registry.setTopic topic (front ++ [m]) }
    (by simp [SegmentRegistry.setTopic_get?]) segs env (frame data)
  rw [← happ] at written
  rcases written with ⟨hreg, -⟩ | ⟨hreg, -⟩
  · exact ⟨m.size, hreg⟩
  · exact ⟨m.size + (frame data).length, by rw [hreg, SegmentRegistry.setTopic_setTopic]⟩

/-- An append seals the active segment exactly when it rolls over. -/
theorem append_seals_iff (shaped : lm.registry.Shaped)
    (hget : lm.registry.registry.get? topic = some (front ++ [last]))
    (segs : TopicSegments lm.registry.logDir topic front last start) (env : CallEnv) (data : Bytes) :
    AgedLog.Seals last (lm.append env topic data).1 topic ↔
      data.length < 2 ^ 32 ∧
        (lm.policy.shouldRollover last (4 + data.length) env.now && decide (last.size ≠ 0)) = true := by
  -- with the same base offset only the last segment itself
  have own : ∀ {m : SegmentMeta}, m ∈ front ++ [last] → m.baseOffset = last.baseOffset →
      m.state ≠ .sealed := by
    intro m hm hbase
    rw [segs.bases_increase.eq_of_key hm (by simp) hbase, segs.active]
    decide
  by_cases hlen : data.length < 2 ^ 32
  · obtain ⟨⟨front', m⟩, htarget⟩ : ∃ t, lm.appendTarget env.now topic (4 + data.length) = t :=
      ⟨_, rfl⟩
    obtain ⟨size, hreg⟩ := append_registry shaped env hlen htarget
    rw [AgedLog.Seals, hreg]
    cases appendCase shaped htarget with
    | first hnone =>
        rw [hget] at hnone
        cases hnone
    | active hget' _ stay =>
        rw [hget] at hget'
        obtain ⟨rfl, hlast⟩ := List.append_inj' (Option.some.inj hget') rfl
        obtain rfl := List.singleton_inj.mp hlast
        rw [stay]
        refine iff_of_false ?_ (by simp)
        rintro ⟨-, m', hm', ht, hbase, hsealed⟩
        rcases holds_setTopic_iff.mp hm' with ⟨-, hmem⟩ | ⟨hne, -⟩
        · rcases List.mem_append.mp hmem with hfront | hlast
          · exact own (List.mem_append_left _ hfront) hbase hsealed
          · rw [List.mem_singleton.mp hlast] at hsealed
            rw [segs.active] at hsealed
            cases hsealed
        · exact hne ht
    | @rolled front₀ last₀ start₀ hget' _ roll =>
        rw [hget] at hget'
        obtain ⟨rfl, hlast⟩ := List.append_inj' (Option.some.inj hget') rfl
        obtain rfl := List.singleton_inj.mp hlast
        refine iff_of_true ⟨segs.active, { last with state := .sealed }, ?_, ?_, rfl, rfl⟩ ⟨hlen, roll⟩
        · exact holds_setTopic_iff.mpr (Or.inl ⟨segs.at_end.topic_eq, by simp⟩)
        · exact segs.at_end.topic_eq
  · rw [append_of_long shaped (by omega), createTopic_of_some shaped hget]
    refine iff_of_false ?_ fun h => hlen h.1
    rintro ⟨-, m, ⟨segs', hget', hm⟩, ht, hbase, hsealed⟩
    rw [ht, hget] at hget'
    cases hget'
    exact own hm hbase hsealed

/-- Every segment carries the time at which the module was loaded. -/
def SegmentRegistry.Stamped (r : SegmentRegistry) (importTime : Time) : Prop :=
  r.defaultCreatedAt = importTime ∧ ∀ m, r.Holds m → m.createdAt = importTime

theorem SegmentRegistry.Stamped.setTopic {r : SegmentRegistry} {importTime : Time}
    (stamped : r.Stamped importTime) {segs : List SegmentMeta}
    (h : ∀ m ∈ segs, m.createdAt = importTime) : (r.setTopic topic segs).Stamped importTime := by
  refine ⟨stamped.1, fun m hm => ?_⟩
  rcases holds_setTopic_iff.mp hm with ⟨-, hmem⟩ | ⟨-, hold⟩
  · exact h m hmem
  · exact stamped.2 m hold

theorem createTopic_stamped {importTime : Time} (shaped : lm.registry.Shaped)
    (stamped : lm.registry.Stamped importTime) (topic : String) :
    (lm.createTopic topic).1.registry.Stamped importTime := by
  cases hget : lm.registry.registry.get? topic with
  | some segs =>
      rw [createTopic_of_some shaped hget]
      exact stamped
  | none =>
      rw [createTopic_of_none hget]
      refine stamped.setTopic fun m hm => ?_
      rw [List.nil_append, List.mem_singleton] at hm
      rw [hm]
      exact stamped.1

theorem append_stamped {importTime : Time} (shaped : lm.registry.Shaped)
    (stamped : lm.registry.Stamped importTime) (env : CallEnv) (topic : String) (data : Bytes) :
    (lm.append env topic data).1.registry.Stamped importTime := by
  by_cases hlen : data.length < 2 ^ 32
  · obtain ⟨⟨front, m⟩, htarget⟩ : ∃ t, lm.appendTarget env.now topic (4 + data.length) = t :=
      ⟨_, rfl⟩
    obtain ⟨size, hreg⟩ := append_registry shaped env hlen htarget
    rw [hreg]
    have target : (∀ m' ∈ front, m'.createdAt = importTime) ∧ m.createdAt = importTime := by
      cases appendCase shaped htarget with
      | first hget => exact ⟨by simp, stamped.1⟩
      | active hget segs stay =>
          have held := fun m' hm' => stamped.2 m' (shaped.mem_topic hget hm').1
          exact ⟨fun m' hm' => held m' (List.mem_append_left _ hm'), held m (by simp)⟩
      | @rolled front₀ last start hget segs roll =>
          have held := fun m' hm' => stamped.2 m' (shaped.mem_topic hget hm').1
          refine ⟨fun m' hm' => ?_, stamped.1⟩
          rcases List.mem_append.mp hm' with hfront | hlast
          · exact held m' (List.mem_append_left _ hfront)
          · rw [List.mem_singleton.mp hlast]
            exact held last (by simp)
    refine stamped.setTopic fun m' hm' => ?_
    rcases List.mem_append.mp hm' with hfront | hlast
    · exact target.1 m' hfront
    · rw [List.mem_singleton.mp hlast]
      exact target.2
  · rw [append_of_long shaped (by omega)]
    exact createTopic_stamped shaped stamped topic

end

namespace AgedLog

/-- What every run keeps. -/
structure Stamped (importTime : Time) (s : AgedLog) : Prop where
  shaped : s.log.registry.Shaped
  stamped : s.log.registry.Stamped importTime

theorem stamped_start (config : LogConfig) (importTime : Time) (disk : Disk) :
    Stamped importTime (start config importTime disk) := by
  refine ⟨by simp [start, LogManager.start, SegmentRegistry.Shaped], rfl, ?_⟩
  rintro m ⟨segs, hget, -⟩
  simp [start, LogManager.start] at hget

theorem Stamped.advance {importTime : Time} {s : AgedLog} (h : s.Stamped importTime)
    (call : WriterCall) : (s.advance call).1.Stamped importTime := by
  cases call with
  | createTopic topic made =>
      exact ⟨(createTopic_offsets h.shaped topic).1, createTopic_stamped h.shaped h.stamped topic⟩
  | append topic env made data =>
      exact ⟨(append_offsets h.shaped env topic data).1,
        append_stamped h.shaped h.stamped env topic data⟩

/-- One call seals by the age of the segment exactly when the condition holds. -/
theorem Stamped.sealsByAge_iff {importTime : Time} {s : AgedLog} (h : s.Stamped importTime)
    (call : WriterCall) : s.SealsByAge call ↔ s.RollsInTime importTime call := by
  cases call with
  | createTopic topic made => exact Iff.rfl
  | append topic env made data =>
      have seals : ∀ m, s.log.activeSegment topic = some m → s.Fits m data →
          (Seals m (s.log.append env topic data).1 topic ↔ data.length < 2 ^ 32 ∧ m.size ≠ 0 ∧
            (s.log.policy.rolloverMs : Rat) < env.now - importTime) := by
        intro m hactive fits
        obtain ⟨segs, hget, hlast⟩ := Option.bind_eq_some_iff.mp hactive
        obtain ⟨front, last, start, rfl, hsegs⟩ := h.shaped _ _ hget
        rw [List.getLast?_concat, Option.some_inj] at hlast
        subst hlast
        rw [append_seals_iff h.shaped hget hsegs]
        have hcreated := h.stamped.2 last (h.shaped.mem_topic hget (by simp)).1
        have hfits : ¬ (last.size : Int) + ((4 + data.length : Nat) : Int) >
            s.log.policy.maxSegmentSize := by
          rw [Fits] at fits
          push_cast
          omega
        simp only [SegmentPolicy.shouldRollover, hcreated, decide_eq_false hfits, gt_iff_lt,
          Bool.and_eq_true, decide_eq_true_eq]
        split
        · next hold => simp [hold]
        · next hyoung => simp [hyoung]
      constructor
      · exact fun hage m hactive fits hlen hsize hold =>
          hage m hactive fits ((seals m hactive fits).mpr ⟨hlen, hsize, hold⟩)
      · intro hage m hactive fits hseals
        obtain ⟨hlen, hsize, hold⟩ := (seals m hactive fits).mp hseals
        exact hage m hactive fits hlen hsize hold

/-- Every append of a run rolls over by the age of the segment exactly when, at every
append, a start of the process long enough ago means a segment that is old enough. -/
theorem rollover_by_age_iff (config : LogConfig) (importTime : Time) (disk : Disk)
    (calls : List WriterCall) :
    (∀ early call late, calls = early ++ call :: late →
        (run advance (start config importTime disk) early).SealsByAge call) ↔
      MeetsAll advance (RollsInTime importTime) (start config importTime disk) calls := by
  rw [← meetsAll_iff_forall_early]
  exact meetsAll_congr (Stamped importTime) (fun _ call h => h.advance call)
    (fun _ call h => h.sealsByAge_iff call) (stamped_start config importTime disk)

/-- The creation time is known of every topic that has a segment. -/
def BornKnown (s : AgedLog) : Prop :=
  ∀ topic, 0 < s.log.segmentCount topic → (s.born.get? topic).isSome

theorem BornKnown.next {s : AgedLog} {topic : String} (known : s.BornKnown) (made : Time)
    {log : LogManager} (hother : ∀ other, other ≠ topic →
      log.registry.registry.get? other = s.log.registry.registry.get? other) :
    (s.next topic made log).BornKnown := by
  intro t hpos
  by_cases ht : t = topic
  · subst ht
    simp only [AgedLog.next]
    split
    · simp
    · next hsame => exact known t (hpos.trans_le (not_lt.mp hsame))
  · have hcount : s.log.segmentCount t = log.segmentCount t := by
      rw [LogManager.segmentCount, LogManager.segmentCount, hother t ht]
    have hknown := known t (hcount ▸ hpos)
    simp only [AgedLog.next]
    split
    · rwa [Dict.get?_set, if_neg ht]
    · exact hknown

theorem bornKnown_run (config : LogConfig) (importTime : Time) (disk : Disk)
    (calls : List WriterCall) : (run advance (start config importTime disk) calls).BornKnown := by
  have known : (run advance (start config importTime disk) calls).log.registry.Shaped ∧
      (run advance (start config importTime disk) calls).BornKnown := by
    refine run_keeps (fun s : AgedLog => s.log.registry.Shaped ∧ s.BornKnown) ?_ ⟨?_, ?_⟩
    · rintro s call - ⟨shaped, known⟩
      cases call with
      | createTopic target made =>
          obtain ⟨hshaped, hother, -⟩ := createTopic_offsets shaped target
          exact ⟨hshaped, known.next made hother⟩
      | append target env made data =>
          obtain ⟨hshaped, hother, -⟩ := append_offsets shaped env target data
          exact ⟨hshaped, known.next made hother⟩
    · exact (stamped_start config importTime disk).shaped
    · intro t hpos
      simp [start, LogManager.start, LogManager.segmentCount] at hpos
  exact known.2

/-- A bound of 1000 milliseconds, a process started at 0, and a segment made at 2000: the
second append, at 2000 as well, seals it. -/
theorem rolls_new_segment :
    let s := run advance (start ⟨"logs", 0, 1000, 100, 16, 16, 4⟩ 0 Dict.empty)
      [.createTopic "t" 2000, .append "t" ⟨2000, .succeed⟩ 2000 [7]]
    ¬ s.SealsByAge (.append "t" ⟨2000, .succeed⟩ 2000 [8]) := by
  intro s hage
  have hactive : s.log.activeSegment "t" =
      some ⟨"t", 0, "logs/t/00000000000000000000.log", .active, 0, 5⟩ := by decide +kernel
  have hpolicy : s.log.policy = ⟨0, 1000, 100⟩ := by decide +kernel
  have hborn : s.born.get? "t" = some 2000 := by decide +kernel
  have hsealed : (s.log.append ⟨2000, .succeed⟩ "t" [8]).1.registry.registry.get? "t" =
      some [⟨"t", 0, "logs/t/00000000000000000000.log", .sealed, 0, 5⟩,
        ⟨"t", 5, "logs/t/00000000000000000005.log", .active, 0, 5⟩] := by decide +kernel
  have hfits : s.Fits ⟨"t", 0, "logs/t/00000000000000000000.log", .active, 0, 5⟩ [8] := by
    rw [Fits, hpolicy]
    decide
  obtain ⟨born, hborn', hlt⟩ := hage _ hactive hfits
    ⟨rfl, ⟨"t", 0, "logs/t/00000000000000000000.log", .sealed, 0, 5⟩,
      ⟨_, hsealed, List.mem_cons_self⟩, rfl, rfl, rfl⟩
  rw [hborn] at hborn'
  cases hborn'
  rw [hpolicy] at hlt
  revert hlt
  decide +kernel

end AgedLog
end PyLogStream
