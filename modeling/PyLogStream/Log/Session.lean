import PyLogStream.Log.Offsets

/-!
One topic and one consumer. The consumer starts at offset zero and follows the
next offset of each `read_bytes` until it reaches the latest offset; its polls
may fall anywhere between the appends and the other readers' calls. Whatever the
segment sizes, the cache capacity and the clock, it reads back the payloads.
-/

namespace PyLogStream
open Lib

structure LogSession where
  topic : String
  log : LogManager
  offset : Int
  buffer : Bytes
  /-- What the appends returned so far. -/
  returned : List (Except LogError Int)

inductive SessionOp where
  | log (op : LogOp)
  | poll (env : CallEnv) (size : Int)

namespace LogSession

def start (config : LogConfig) (importTime : Time) (topic : String) : LogSession :=
  { topic := topic
    log := LogManager.start config importTime
    offset := 0
    buffer := []
    returned := [] }

/-- One round of the consumer's loop; it does nothing at the latest offset. -/
def poll (s : LogSession) (env : CallEnv) (size : Int) : LogSession :=
  match s.log.getLatestOffset s.topic with
  | .error _ => s
  | .ok latest =>
    if s.offset = latest then s
    else
      match s.log.readBytes env s.topic s.offset size with
      | (log, .error _) => { s with log }
      | (log, .ok result) =>
        { s with
          log := log
          offset := result.nextOffset
          buffer := s.buffer ++ result.data }

def step (s : LogSession) : SessionOp → LogSession
  | .log op =>
    match s.log.apply op with
    | (log, .appended result) => { s with log, returned := s.returned ++ [result] }
    | (log, _) => { s with log }
  | .poll env size => s.poll env size

def run (s : LogSession) (ops : List SessionOp) : LogSession := ops.foldl step s

end LogSession

/-- Appends and topic creations are for one topic, payloads fit their length
prefix, and file operations succeed; reads are not restricted. -/
def SessionOp.ForTopic (topic : String) : SessionOp → Prop
  | .log (.createTopic topic') => topic' = topic
  | .log (.append topic' env data) =>
    topic' = topic ∧ env.ops = .succeed ∧ data.length < 2 ^ 32
  | .log op => op.FilesSucceed
  | .poll env _ => env.ops = .succeed

def SessionOp.payload : SessionOp → List Bytes
  | .log (.append _ _ data) => [data]
  | _ => []

/-- The bytes the first `i` payloads take in the log. -/
def earlierBytes (ps : List Bytes) (i : Nat) : Nat := ((ps.take i).map fun p => 4 + p.length).sum

/-- The invariant: the log holds the payloads, of which the consumer has read `done`. -/
structure SessionOk (s : LogSession) (done rest : List Bytes) : Prop where
  ok : LogOk s.log
  records : RecordsOk s.log
  only : ∀ topic, s.log.registry.registry.get? topic ≠ none → topic = s.topic
  payloads : s.log.payloads s.topic = done ++ rest
  offset : s.offset = (frames done).length
  buffer : s.buffer = frames done
  returned : s.returned = (List.range (done ++ rest).length).map fun i =>
    .ok (earlierBytes (done ++ rest) i : Int)

theorem sessionOk_start (config : LogConfig) (importTime : Time) (topic : String)
    (h : 0 < config.initSegmentSize) :
    SessionOk (LogSession.start config importTime topic) [] [] where
  ok := logOk_start config importTime h
  records := recordsOk_start config importTime
  only := by simp [LogSession.start, LogManager.start]
  payloads := by simp [LogSession.start, LogManager.start, LogManager.payloads]
  offset := rfl
  buffer := rfl
  returned := rfl

theorem returned_snoc (ps : List Bytes) (data : Bytes) :
    ((List.range (ps ++ [data]).length).map fun i =>
        (.ok (earlierBytes (ps ++ [data]) i : Int) : Except LogError Int)) =
      ((List.range ps.length).map fun i => .ok (earlierBytes ps i : Int)) ++
        [.ok ((frames ps).length : Int)] := by
  rw [List.length_append, List.length_singleton, List.range_succ, List.map_append]
  congr 1
  · apply List.map_congr_left
    intro i hi
    rw [earlierBytes, earlierBytes,
      List.take_append_of_le_length (le_of_lt (List.mem_range.mp hi))]
  · have hall : (earlierBytes (ps ++ [data]) ps.length : Int) = ((frames ps).length : Int) := by
      rw [earlierBytes, List.take_left, frames_length]
    rw [List.map_singleton, hall]

section
variable {s : LogSession} {done rest : List Bytes}

/-- An operation on the log that adds no payload leaves the consumer where it is. -/
theorem SessionOk.quiet (h : SessionOk s done rest) {op : LogOp} {log : LogManager}
    (effect : SafeEffect s.log log op) (hadd : op.added s.topic = [])
    (only : ∀ topic, log.registry.registry.get? topic ≠ none → topic = s.topic) :
    SessionOk { s with log } done rest where
  ok := effect.ok
  records := effect.records h.records
  only := only
  payloads := by
    change log.payloads s.topic = done ++ rest
    rw [effect.payloads h.records, hadd, List.append_nil, h.payloads]
  offset := h.offset
  buffer := h.buffer
  returned := h.returned

theorem SessionOk.only_step (h : SessionOk s done rest) {op : LogOp} {log : LogManager}
    (effect : SafeEffect s.log log op) (hop : ∀ topic, op.topic? = some topic →
      log.registry.registry.get? topic ≠ none → topic = s.topic) :
    ∀ topic, log.registry.registry.get? topic ≠ none → topic = s.topic := by
  intro topic hne
  by_cases ht : op.topic? = some topic
  · exact hop topic ht hne
  · rw [effect.registry topic ht] at hne
    exact h.only topic hne

theorem SessionOk.append (h : SessionOk s done rest) {env : CallEnv} {data : Bytes}
    (hops : env.ops = .succeed) (hlen : data.length < 2 ^ 32) :
    SessionOk (s.step (.log (.append s.topic env data))) done (rest ++ [data]) := by
  have safe : SafeStep s.log (.append s.topic env data) := by
    refine ⟨hops, ?_⟩
    intro topic base hopen
    obtain ⟨base', -, heq⟩ := Option.map_eq_some_iff.mp hopen
    obtain ⟨rfl, -⟩ := Prod.mk.inj heq
    exact clearOf_of_only h.only base
  have effect := append_effect h.ok safe
  have hresult := append_offset h.ok h.records hops hlen
    fun base _ => clearOf_of_only h.only base
  have hstep : s.step (.log (.append s.topic env data)) =
      { s with
        log := (s.log.append env s.topic data).1
        returned := s.returned ++ [(s.log.append env s.topic data).2] } := rfl
  rw [hstep]
  refine ⟨effect.ok, effect.records h.records, ?_, ?_, h.offset, h.buffer, ?_⟩
  · apply h.only_step effect
    intro topic ht _
    exact (Option.some.inj ht).symm
  · change (s.log.append env s.topic data).1.payloads s.topic = _
    rw [effect.payloads h.records, LogOp.added, if_pos ⟨rfl, hlen⟩, h.payloads, List.append_assoc]
  · change s.returned ++ [(s.log.append env s.topic data).2] = _
    rw [hresult, h.returned, h.payloads, ← List.append_assoc]
    exact (returned_snoc (done ++ rest) data).symm

/-- A poll reads at least one record unless the consumer has reached the end. -/
theorem SessionOk.poll (h : SessionOk s done rest) {env : CallEnv} (hops : env.ops = .succeed)
    (size : Int) :
    ∃ done' rest', SessionOk (s.poll env size) done' rest' ∧ done' ++ rest' = done ++ rest ∧
      rest'.length ≤ rest.length - 1 := by
  by_cases hrest : rest = []
  · have hstay : s.poll env size = s := by
      cases hget : s.log.registry.registry.get? s.topic with
      | none =>
          simp [LogSession.poll, LogManager.getLatestOffset, SegmentRegistry.getLatestOffset, hget]
      | some segs =>
          have hlatest := latestOffset_eq h.ok h.records hget
          rw [h.payloads, hrest, List.append_nil, ← h.offset] at hlatest
          simp only [LogSession.poll, hlatest, if_true]
    rw [hstay]
    exact ⟨done, rest, h, rfl, by simp [hrest]⟩
  · obtain ⟨lm', m, got, latest, hgot, hprefix, hread, opened⟩ :=
      readBytes_at_boundary h.ok h.records hops h.payloads hrest size
    obtain ⟨left, rfl⟩ := hprefix
    obtain ⟨segs, hget⟩ : ∃ segs, s.log.registry.registry.get? s.topic = some segs := by
      obtain ⟨m', c₁, c₂, b⟩ := exists_boundary h.ok h.records h.payloads hrest
      obtain ⟨segs, hget, -⟩ := SegmentRegistry.getSegment_mem b.found
      exact ⟨segs, hget⟩
    have hlatest := latestOffset_eq h.ok h.records hget
    have hbehind : ¬ s.offset = ((frames (s.log.payloads s.topic)).length : Int) := by
      have hpos : 0 < (frames got).length := List.length_pos_iff.mpr (frames_ne_nil hgot)
      rw [h.offset, h.payloads]
      simp only [frames_append, List.length_append]
      omega
    have hpoll : s.poll env size =
        { s with
          log := lm'
          offset := ((frames (done ++ got)).length : Int)
          buffer := s.buffer ++ frames got } := by
      simp only [LogSession.poll, hlatest, h.offset, hread]
      rw [← h.offset, if_neg hbehind]
    have effect : SafeEffect s.log lm' (.readBytes s.topic env (frames done).length size) := by
      have := readBytes_effect h.ok hops s.topic (frames done).length size
      rwa [hread] at this
    have quiet := h.quiet effect rfl (by
      intro topic hne
      rw [opened.registry] at hne
      exact h.only topic hne)
    refine ⟨done ++ got, left, ?_, by simp, ?_⟩
    · rw [hpoll]
      refine ⟨quiet.ok, quiet.records, quiet.only, ?_, rfl, ?_, ?_⟩
      · exact quiet.payloads.trans (by simp)
      · change s.buffer ++ frames got = _
        rw [h.buffer, frames_append]
      · simpa using quiet.returned
    · have hlen : 0 < got.length := List.length_pos_iff.mpr hgot
      simp only [List.length_append]
      omega

theorem SessionOk.step (h : SessionOk s done rest) {op : SessionOp} (hop : op.ForTopic s.topic) :
    (s.step op).topic = s.topic ∧ ∃ done' rest', SessionOk (s.step op) done' rest' ∧
      done' ++ rest' = done ++ rest ++ op.payload := by
  cases op with
  | poll env size =>
      obtain ⟨done', rest', h', heq, -⟩ := h.poll hop size
      refine ⟨?_, done', rest', h', by simpa [SessionOp.payload] using heq⟩
      simp only [LogSession.step, LogSession.poll]
      split
      · rfl
      · split
        · rfl
        · split <;> rfl
  | log op =>
      cases op with
      | append topic env data =>
          obtain ⟨rfl, hops, hlen⟩ := hop
          exact ⟨rfl, done, rest ++ [data], h.append hops hlen, by simp [SessionOp.payload]⟩
      | createTopic topic =>
          obtain rfl : topic = s.topic := hop
          have effect : SafeEffect s.log (s.log.createTopic s.topic).1 (.createTopic s.topic) :=
            createTopic_effect h.ok rfl (fun _ => rfl) fun _ => clearOf_of_only h.only 0
          refine ⟨rfl, done, rest, h.quiet effect rfl (h.only_step effect ?_),
            by simp [SessionOp.payload]⟩
          intro topic ht _
          exact (Option.some.inj ht).symm
      | readBytes topic env offset size =>
          have effect : SafeEffect s.log (s.log.readBytes env topic offset size).1
              (.readBytes topic env offset size) := readBytes_effect h.ok hop topic offset size
          have only := h.only
          rw [← readBytes_registry _ env topic offset size] at only
          exact ⟨rfl, done, rest, h.quiet effect rfl only, by simp [SessionOp.payload]⟩
      | read topic env offset size =>
          have effect : SafeEffect s.log (s.log.read env topic offset size).1
              (.read topic env offset size) := read_effect h.ok hop topic offset size
          have only := h.only
          rw [← read_registry _ env topic offset size] at only
          exact ⟨rfl, done, rest, h.quiet effect rfl only, by simp [SessionOp.payload]⟩
      | release handle =>
          have safe : SafeStep s.log (.release handle) := ⟨trivial, by simp [LogManager.opened]⟩
          have effect := apply_effect h.ok safe
          exact ⟨rfl, done, rest, h.quiet effect rfl h.only, by simp [SessionOp.payload]⟩
      | cleanup =>
          have safe : SafeStep s.log .cleanup := ⟨trivial, by simp [LogManager.opened]⟩
          have effect := apply_effect h.ok safe
          exact ⟨rfl, done, rest, h.quiet effect rfl h.only, by simp [SessionOp.payload]⟩

theorem SessionOk.run (h : SessionOk s done rest) (ops : List SessionOp)
    (hops : ∀ op ∈ ops, op.ForTopic s.topic) :
    (s.run ops).topic = s.topic ∧ ∃ done' rest', SessionOk (s.run ops) done' rest' ∧
      done' ++ rest' = done ++ rest ++ ops.flatMap SessionOp.payload := by
  induction ops generalizing s done rest with
  | nil => exact ⟨rfl, done, rest, h, by simp⟩
  | cons op ops ih =>
      obtain ⟨htopic, done₁, rest₁, h₁, heq₁⟩ := h.step (hops op List.mem_cons_self)
      obtain ⟨htopic₂, done₂, rest₂, h₂, heq₂⟩ := ih h₁ fun op' hop' => by
        rw [htopic]
        exact hops op' (List.mem_cons_of_mem _ hop')
      exact ⟨htopic₂.trans htopic, done₂, rest₂, h₂, by rw [heq₂, heq₁]; simp⟩

/-- As many polls as there are records left are enough to reach the end. -/
theorem SessionOk.polls (h : SessionOk s done rest) {polls : List (CallEnv × Int)}
    (hops : ∀ poll ∈ polls, poll.1.ops = .succeed) (hlen : rest.length ≤ polls.length) :
    SessionOk (s.run (polls.map fun poll => .poll poll.1 poll.2)) (done ++ rest) [] := by
  induction polls generalizing s done rest with
  | nil =>
      obtain rfl : rest = [] := List.length_eq_zero_iff.mp (Nat.le_zero.mp hlen)
      rw [List.append_nil]
      exact h
  | cons poll polls ih =>
      obtain ⟨done', rest', h', heq, hshort⟩ := h.poll (hops poll List.mem_cons_self) poll.2
      rw [← heq]
      apply ih h' fun p hp => hops p (List.mem_cons_of_mem _ hp)
      simp only [List.length_cons] at hlen
      omega

theorem SessionOk.decode (h : SessionOk s done rest) : parseRecords s.buffer = done := by
  rw [h.buffer]
  apply parseRecords_frames
  intro p hp
  have hmem : p ∈ s.log.payloads s.topic := by
    rw [h.payloads]
    exact List.mem_append_left _ hp
  unfold LogManager.payloads at hmem
  obtain ⟨m, hm, hpm⟩ := List.mem_flatMap.mp hmem
  cases hget : s.log.registry.registry.get? s.topic with
  | none => simp [hget] at hm
  | some segs =>
      rw [hget] at hm
      exact (h.records m (h.ok.mem_topic hget hm).1).short p hpm

theorem SessionOk.rest_nil (h : SessionOk s done rest)
    (hend : s.log.getLatestOffset s.topic = .ok s.offset) : rest = [] := by
  by_contra hne
  cases hget : s.log.registry.registry.get? s.topic with
  | none =>
      simp [LogManager.getLatestOffset, SegmentRegistry.getLatestOffset, hget] at hend
  | some segs =>
      have hlatest := latestOffset_eq h.ok h.records hget
      have hpos : 0 < (frames rest).length := List.length_pos_iff.mpr (frames_ne_nil hne)
      rw [hend, h.offset, h.payloads, Except.ok.injEq, frames_append, List.length_append] at hlatest
      omega

end

/-- The log of one topic is the sequence of its payloads: appends return the
length of the log before them, and a consumer that follows the next offsets to
the end decodes exactly the payloads, after at most one poll for each of them. -/
theorem session_reads_back (config : LogConfig) (importTime : Time) (topic : String)
    (hinit : 0 < config.initSegmentSize) (ops : List SessionOp)
    (hops : ∀ op ∈ ops, op.ForTopic topic) :
    let s := (LogSession.start config importTime topic).run ops
    let ps := ops.flatMap SessionOp.payload
    s.returned = (List.range ps.length).map (fun i => .ok (earlierBytes ps i : Int)) ∧
      (s.log.getLatestOffset topic = .ok s.offset → parseRecords s.buffer = ps) ∧
      ∀ polls : List (CallEnv × Int), (∀ poll ∈ polls, poll.1.ops = .succeed) →
        ps.length ≤ polls.length →
        let s' := s.run (polls.map fun poll => .poll poll.1 poll.2)
        parseRecords s'.buffer = ps ∧
          (s'.log.getLatestOffset topic = .ok s'.offset ∨
            ps = [] ∧ s'.log.getLatestOffset topic = .error (.topicDoesntExists topic)) := by
  intro s ps
  obtain ⟨htopic, done, rest, h, heq⟩ :=
    (sessionOk_start config importTime topic hinit).run ops hops
  have hps : done ++ rest = ps := by simpa using heq
  have htopic' : s.topic = topic := htopic
  refine ⟨by rw [← hps]; exact h.returned, ?_, ?_⟩
  · intro hend
    have hnil := h.rest_nil (by rw [htopic]; exact hend)
    rw [h.decode, ← hps, hnil, List.append_nil]
  · intro polls hpolls hlen s'
    have hrest : rest.length ≤ polls.length := by
      rw [← hps, List.length_append] at hlen
      omega
    have h' : SessionOk s' (done ++ rest) [] := h.polls hpolls hrest
    have hkeep : s'.topic = topic := by
      refine (h.run (polls.map fun poll => .poll poll.1 poll.2) ?_).1.trans htopic
      intro op hop
      obtain ⟨poll, hpoll, rfl⟩ := List.mem_map.mp hop
      exact hpolls poll hpoll
    refine ⟨h'.decode.trans hps, ?_⟩
    cases hget : s'.log.registry.registry.get? s'.topic with
    | none =>
        have hnone := h'.payloads
        simp only [LogManager.payloads, hget, Option.getD_none, List.flatMap_nil] at hnone
        rw [← hkeep]
        refine Or.inr ⟨by rw [← hps]; simpa using hnone.symm, ?_⟩
        simp [LogManager.getLatestOffset, SegmentRegistry.getLatestOffset, hget]
    | some segs =>
        have hlatest := latestOffset_eq h'.ok h'.records hget
        rw [h'.payloads, List.append_nil, ← h'.offset, hkeep] at hlatest
        exact Or.inl hlatest

/-- Three payloads over two segments and a cache of one entry, with a poll and
another reader between the appends; the last polls ask for sizes below a record. -/
def rolloverOps : List SessionOp :=
  let env : CallEnv := ⟨0, .succeed⟩
  [.log (.append "t" env [1, 2]), .poll env 100, .log (.append "t" env []),
    .log (.readBytes "t" env 3 7), .log .cleanup, .log (.append "t" ⟨900, .succeed⟩ [3]),
    .poll env 0, .poll env (-1)]

theorem session_reads_back_rollover :
    parseRecords ((LogSession.start ⟨"data", 0, 500, 20, 4, 0, 1⟩ 0 "t").run rolloverOps).buffer =
      [[1, 2], [], [3]] :=
  (session_reads_back ⟨"data", 0, 500, 20, 4, 0, 1⟩ 0 "t" (by decide) rolloverOps
    (by simp [rolloverOps, SessionOp.ForTopic, LogOp.FilesSucceed])).2.1 (by decide +kernel)

end PyLogStream
