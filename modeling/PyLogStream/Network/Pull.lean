import PyLogStream.Log.Durable
import PyLogStream.Log.Stalled
import PyLogStream.Replication.Watermark

/-!
Serving a consumer (`Broker.handle_client` on a `PullCommand`, `_push_message`).
The handler reads the high watermark, compares the requested offset with it and
then reads the log; writer threads may append between the two reads, and a file
response is sent only afterwards.
-/

namespace PyLogStream
open Lib

structure PullCommand where
  topic : String
  offset : Int
  size : Int
  deriving DecidableEq, Repr

inductive PullResponse where
  | message (topic : String) (payload : Bytes)
  | file (topic filePath : String) (offset length : Int)
  | error (code : Int) (message : String)
  deriving DecidableEq, Repr

/-- The payload bytes a response puts on the wire, given the disk when it is sent. -/
def PullResponse.sent (disk : Disk) : PullResponse → Option Bytes
  | .message _ payload => some payload
  | .file _ filePath offset length => disk.sendfile filePath offset length
  | .error _ _ => none

namespace Broker

/-- The handler up to the comparison with the watermark: the watermark it has read
and the response, if the comparison settles it. -/
def checkPull (leader : ReplicaLeader) (lm : LogManager) (cmd : PullCommand) :
    Except LogError (ReplicaLeader × Int × Option PullResponse) :=
  match leader.getHighWatermark lm with
  | .error err => .error err
  | .ok (leader, highWatermark) =>
    if cmd.offset > highWatermark then
      .ok (leader, highWatermark, some (.error 400
        ("Offset out of range. High watermark is " ++ toString highWatermark)))
    else if cmd.offset = highWatermark then
      .ok (leader, highWatermark, some (.message cmd.topic []))
    else .ok (leader, highWatermark, none)

/-- `_push_message` up to the point where its response is ready to be sent. -/
def pushMessage (lm : LogManager) (env : CallEnv) (cmd : PullCommand) :
    LogManager × Except LogError PullResponse :=
  if cmd.size ≤ 1024 then
    match lm.readBytes env cmd.topic cmd.offset cmd.size with
    | (lm, .error err) => (lm, .error err)
    | (lm, .ok res) => (lm, .ok (.message cmd.topic res.data))
  else
    match lm.read env cmd.topic cmd.offset cmd.size with
    | (lm, .error err) => (lm, .error err)
    | (lm, .ok res) =>
      (lm, .ok (.file cmd.topic res.fileSlice.filepath res.fileSlice.offset
        res.fileSlice.batchSize))

/-- The rest of the handler, from a state the log has reached in the meantime. -/
def answerPull (settled : Option PullResponse) (lm : LogManager) (env : CallEnv)
    (cmd : PullCommand) : LogManager × Except LogError PullResponse :=
  match settled with
  | some resp => (lm, .ok resp)
  | none => pushMessage lm env cmd

end Broker

/-- The records of one segment from an offset on. -/
def RecordsFrom (lm : LogManager) (topic : String) (offset : Int) (records : List Bytes) : Prop :=
  ∃ segs, lm.registry.registry.get? topic = some segs ∧ ∃ m ∈ segs, ∃ earlier,
    segmentPayloads lm.disk m = earlier ++ records ∧
      offset = m.baseOffset + (frames earlier).length

/-- A record starts at the offset and ends below the watermark, and so does every
later record of the segment that ends within the requested size. -/
def BatchBelow (lm : LogManager) (cmd : PullCommand) (hw : Int) : Prop :=
  ∃ p records, RecordsFrom lm cmd.topic cmd.offset (p :: records) ∧
    cmd.offset + (frame p).length ≤ hw ∧
    ∀ batch, batch <+: p :: records → ((frames batch).length : Int) ≤ cmd.size →
      cmd.offset + (frames batch).length ≤ hw

/-- These are the log's bytes from the offset up to an end not above the watermark. -/
structure CommittedSlice (log : Bytes) (offset hw : Int) (payload : Bytes) : Prop where
  end_le : offset + payload.length ≤ hw
  offset_nonneg : payload ≠ [] → 0 ≤ offset
  bytes : payload <+: log.drop offset.toNat

section
variable {lm : LogManager} {cmd : PullCommand}

theorem RecordsFrom.boundary (ok : LogOk lm) (recs : RecordsOk lm) {topic : String} {offset : Int}
    {c : List Bytes} (h : RecordsFrom lm topic offset c) (hc : c ≠ []) :
    ∃ qs rest m c₁, Boundary lm topic qs rest m c₁ c ∧ offset = (frames qs).length ∧
      lm.payloads topic = qs ++ rest ∧ lm.registry.Holds m := by
  obtain ⟨segs, hget, m, hm, c₁, hchunk, rfl⟩ := h
  have hholds := (ok.mem_topic hget hm).1
  obtain ⟨before, after, rfl⟩ := List.append_of_mem hm
  have b := boundary_of_segment ok recs hget hchunk hc
  refine ⟨_, _, m, c₁, b, ?_, ?_, hholds⟩
  · have := b.offset
    omega
  · simp [LogManager.payloads, hget, hchunk]

/-- A read at the start of a record answers with a batch of whole records. -/
theorem pushMessage_spec (ok : LogOk lm) (recs : RecordsOk lm) {env : CallEnv}
    (hops : env.ops = .succeed) {c : List Bytes}
    (h : RecordsFrom lm cmd.topic cmd.offset c) (hc : c ≠ []) (after : List LogOp)
    (safe : MeetsAll LogManager.apply SafeStep (Broker.pushMessage lm env cmd).1 after) :
    ∃ resp, (Broker.pushMessage lm env cmd).2 = .ok resp ∧
      resp.sent (run LogManager.apply (Broker.pushMessage lm env cmd).1 after).disk =
        some (frames (firstBatch cmd.size c)) ∧
      0 ≤ cmd.offset ∧
      frames (firstBatch cmd.size c) <+: (lm.logBytes cmd.topic).drop cmd.offset.toNat := by
  obtain ⟨qs, rest, m, c₁, b, hoffset, hpayloads, hm⟩ := h.boundary ok recs hc
  have hprefix : frames (firstBatch cmd.size c) <+: (lm.logBytes cmd.topic).drop
      cmd.offset.toNat := by
    obtain ⟨tail, rfl⟩ := b.follows
    obtain ⟨left, hleft⟩ := firstBatch_isPrefix cmd.size c
    have hdrop : (lm.logBytes cmd.topic).drop cmd.offset.toNat = frames (c ++ tail) := by
      rw [logBytes_eq_frames ok recs, hpayloads, frames_append, hoffset, Int.toNat_natCast,
        List.drop_left]
    refine ⟨frames left ++ frames tail, ?_⟩
    rw [hdrop, ← List.append_assoc, ← frames_append, hleft, frames_append]
  have hfound : lm.registry.getSegment cmd.topic cmd.offset = .ok m := by
    rw [hoffset]
    exact b.found
  by_cases hsize : cmd.size ≤ 1024
  · obtain ⟨lm', latest, -, hread, opened⟩ := readBytes_spec ok hops cmd.size hfound
    refine ⟨.message cmd.topic (frames (firstBatch cmd.size c)), ?_, rfl, by omega, hprefix⟩
    rw [hoffset] at hread
    rw [Broker.pushMessage, if_pos hsize, hoffset, hread, b.data]
  · obtain ⟨lm', latest, handle, -, hread, opened⟩ := read_spec ok hops cmd.size hfound
    rw [hoffset] at hread
    have hpush : Broker.pushMessage lm env cmd = (lm', .ok (.file cmd.topic m.path
        (frames c₁).length (frames (firstBatch cmd.size c)).length)) := by
      rw [Broker.pushMessage, if_neg hsize, hoffset, hread, b.batchSize, b.offset]
    rw [hpush] at safe ⊢
    refine ⟨_, rfl, ?_, by omega, hprefix⟩
    -- the committed part of the file is still there when the file is sent
    have keeps : Keeps lm' m.path (committed lm.disk m) := by
      have keeps₀ : Keeps lm m.path (committed lm.disk m) :=
        ⟨⟨m, hm, rfl, by simp [committed]⟩, List.take_prefix _ _⟩
      exact keeps₀.opened opened
    have effect := opened.payloads recs ok
    obtain ⟨junk, hjunk⟩ := (keeps.run opened.ok effect.1 safe).stored
    obtain ⟨left, hleft⟩ := firstBatch_isPrefix cmd.size c
    have hbytes : committed lm.disk m =
        frames c₁ ++ (frames (firstBatch cmd.size c) ++ frames left) := by
      rw [← b.whole.frames_eq, b.chunk, ← hleft, frames_append, frames_append, hleft]
    have hpos : 0 < (frames (firstBatch cmd.size c)).length :=
      List.length_pos_iff.mpr (frames_ne_nil (firstBatch_ne_nil cmd.size hc))
    rw [PullResponse.sent, Disk.sendfile, if_pos ⟨by omega, by omega⟩, Int.toNat_natCast, Int.toNat_natCast,
      ← hjunk, hbytes, List.append_assoc, List.drop_left, List.append_assoc, List.take_left]

theorem checkPull_spec {leader leader' : ReplicaLeader} {hw : Int}
    {settled : Option PullResponse}
    (h : Broker.checkPull leader lm cmd = .ok (leader', hw, settled)) :
    (cmd.offset = hw → settled = some (.message cmd.topic [])) ∧
      (cmd.offset < hw → settled = none) ∧
      (hw < cmd.offset → ∃ message, settled = some (.error 400 message)) := by
  unfold Broker.checkPull at h
  split at h
  · cases h
  · split at h
    · obtain ⟨-, rfl, rfl⟩ := Prod.mk.inj (Except.ok.inj h) |>.imp id Prod.mk.inj
      exact ⟨by omega, by omega, fun _ => ⟨_, rfl⟩⟩
    · split at h
      · obtain ⟨-, rfl, rfl⟩ := Prod.mk.inj (Except.ok.inj h) |>.imp id Prod.mk.inj
        exact ⟨fun _ => rfl, by omega, by omega⟩
      · obtain ⟨-, rfl, rfl⟩ := Prod.mk.inj (Except.ok.inj h) |>.imp id Prod.mk.inj
        exact ⟨by omega, fun _ => rfl, by omega⟩

theorem pushMessage_negative (shaped : lm.registry.Shaped) (env : CallEnv)
    (h : cmd.offset < -1) : ∃ err, (Broker.pushMessage lm env cmd).2 = .error err := by
  obtain ⟨err, herr⟩ := shaped.getSegment_negative cmd.topic h
  refine ⟨err, ?_⟩
  simp only [Broker.pushMessage, LogManager.readBytes, LogManager.read, herr, ite_self]

theorem BatchBelow.offset_lt {hw : Int} (h : BatchBelow lm cmd hw) : cmd.offset < hw := by
  obtain ⟨p, records, -, hfirst, -⟩ := h
  rw [frame_length] at hfirst
  omega

/-- The batch a read answers with ends below the watermark just when its records do. -/
theorem firstBatch_end_le_iff (size offset hw : Int) (p : Bytes) (records : List Bytes) :
    offset + (frames (firstBatch size (p :: records))).length ≤ hw ↔
      offset + (frame p).length ≤ hw ∧
        ∀ batch, batch <+: p :: records → ((frames batch).length : Int) ≤ size →
          offset + (frames batch).length ≤ hw := by
  have h := firstBatch_length_le_iff size (hw - offset) p records
  constructor
  · intro hend
    obtain ⟨hfirst, hlater⟩ := h.mp (by omega)
    refine ⟨by omega, fun batch hbatch hfit => ?_⟩
    have := hlater batch hbatch hfit
    omega
  · rintro ⟨hfirst, hlater⟩
    have hend := h.mpr ⟨by omega, fun batch hbatch hfit => by
      have := hlater batch hbatch hfit
      omega⟩
    omega

/-- Nothing is recorded in a manager that cannot load its files. -/
theorem Stalled.no_records (h : Stalled lm) {topic : String} {offset : Int} {p : Bytes}
    {records : List Bytes} : ¬ RecordsFrom lm topic offset (p :: records) := by
  rintro ⟨segs, hget, m, hm, earlier, hchunk, -⟩
  rw [h.fresh topic segs hget, List.mem_singleton] at hm
  have hempty : segmentPayloads lm.disk m = [] := by
    rw [hm]
    exact (wholeRecords_empty lm.disk rfl).2
  rw [hempty] at hchunk
  simp at hchunk

end

/-- What is sent, if anything is, are committed bytes. -/
def AnswersCommitted (lm : LogManager) (disk : Disk) (cmd : PullCommand) (hw : Int)
    (answer : Except LogError PullResponse) : Prop :=
  ∀ resp payload, answer = .ok resp → resp.sent disk = some payload →
    CommittedSlice (lm.logBytes cmd.topic) cmd.offset hw payload

/-- What a consumer is sent, in any safe run of the log and for any state of the
leader. A pull below offset `-1`, from the watermark on, or at the start of a record
with the whole batch below the watermark is answered with committed bytes or not at
all; and a pull at the start of a record is answered with committed bytes only then. -/
theorem pull_sends_committed (config : LogConfig) (importTime : Time)
    (before between after : List LogOp) (leader leader' : ReplicaLeader) (cmd : PullCommand)
    (env : CallEnv) (hw : Int) (settled : Option PullResponse) :
    let lm₁ := run LogManager.apply (LogManager.start config importTime) before
    let lm₂ := run LogManager.apply lm₁ between
    let lm₃ := (Broker.answerPull settled lm₂ env cmd).1
    let disk := (run LogManager.apply lm₃ after).disk
    let answer := (Broker.answerPull settled lm₂ env cmd).2
    MeetsAll LogManager.apply SafeStep (LogManager.start config importTime) (before ++ between) →
    env.ops = .succeed →
    MeetsAll LogManager.apply SafeStep lm₃ after →
    Broker.checkPull leader lm₁ cmd = .ok (leader', hw, settled) →
    (cmd.offset < -1 ∨ hw ≤ cmd.offset ∨ BatchBelow lm₂ cmd hw →
      AnswersCommitted lm₂ disk cmd hw answer) ∧
    (cmd.offset = hw ∨ BatchBelow lm₂ cmd hw →
      ∃ resp payload, answer = .ok resp ∧ resp.sent disk = some payload) ∧
    (∀ p records, RecordsFrom lm₂ cmd.topic cmd.offset (p :: records) →
      AnswersCommitted lm₂ disk cmd hw answer →
        hw ≤ cmd.offset ∨ BatchBelow lm₂ cmd hw) := by
  intro lm₁ lm₂ lm₃ disk answer safe hops hafter hcheck
  obtain ⟨hat, hbelow, habove⟩ := checkPull_spec hcheck
  have hrun : lm₂ = run LogManager.apply (LogManager.start config importTime)
      (before ++ between) := (run_append _ before between).symm
  -- what the reader does at the start of a record, below the watermark
  have hpush : ∀ p records, RecordsFrom lm₂ cmd.topic cmd.offset (p :: records) →
      cmd.offset < hw → ∃ resp, answer = .ok resp ∧
        resp.sent disk = some (frames (firstBatch cmd.size (p :: records))) ∧
        0 ≤ cmd.offset ∧ frames (firstBatch cmd.size (p :: records)) <+:
          (lm₂.logBytes cmd.topic).drop cmd.offset.toNat := by
    intro p records hrec hlt
    rcases Nat.eq_zero_or_pos config.initSegmentSize with hzero | hpos
    · have stalled : Stalled lm₂ := by
        rw [hrun]
        exact safe.invariant Stalled (fun lm op h hsafe => (h.apply hsafe.files).1)
          (stalled_start config importTime hzero)
      exact absurd hrec stalled.no_records
    · obtain ⟨ok, recs⟩ := safeRun_ok (logOk_start config importTime hpos)
        (recordsOk_start config importTime) safe
      rw [← hrun] at ok recs
      obtain rfl := hbelow hlt
      exact pushMessage_spec ok recs hops hrec (List.cons_ne_nil _ _) after hafter
  refine ⟨?_, ?_, ?_⟩
  · intro hcond resp payload hresp hsent
    rcases lt_trichotomy cmd.offset hw with hlt | heq | hgt
    · rcases hcond with hneg | hge | ⟨p, records, hrec, hfirst, hlater⟩
      · obtain rfl := hbelow hlt
        have shaped : lm₂.registry.Shaped := by
          rw [hrun]
          exact shaped_run config importTime _
        obtain ⟨err, herr⟩ := pushMessage_negative shaped env hneg
        rw [show answer = .error err from herr] at hresp
        cases hresp
      · omega
      · obtain ⟨resp', hresp', hsent', hnonneg, hprefix⟩ := hpush p records hrec hlt
        obtain rfl : resp = resp' := Except.ok.inj (hresp.symm.trans hresp')
        obtain rfl : payload = _ := Option.some.inj (hsent.symm.trans hsent')
        have hend := (firstBatch_end_le_iff cmd.size cmd.offset hw p records).mpr ⟨hfirst, hlater⟩
        exact ⟨hend, fun _ => hnonneg, hprefix⟩
    · obtain rfl := hat heq
      obtain rfl : PullResponse.message cmd.topic [] = resp := Except.ok.inj hresp
      obtain rfl : [] = payload := Option.some.inj hsent
      exact ⟨by simp [heq], by simp, List.nil_prefix⟩
    · obtain ⟨message, rfl⟩ := habove hgt
      obtain rfl : PullResponse.error 400 message = resp := Except.ok.inj hresp
      cases hsent
  · rintro (heq | hbatch)
    · obtain rfl := hat heq
      exact ⟨_, [], rfl, rfl⟩
    · have hlt := hbatch.offset_lt
      obtain ⟨p, records, hrec, -⟩ := hbatch
      obtain ⟨resp, hresp, hsent, -⟩ := hpush p records hrec hlt
      exact ⟨resp, _, hresp, hsent⟩
  · intro p records hrec hcommitted
    rcases Int.lt_or_le cmd.offset hw with hlt | hge
    · obtain ⟨resp, hresp, hsent, -, -⟩ := hpush p records hrec hlt
      have hend := (hcommitted resp _ hresp hsent).end_le
      obtain ⟨hfirst, hlater⟩ := (firstBatch_end_le_iff cmd.size cmd.offset hw p records).mp hend
      exact Or.inr ⟨p, records, hrec, hfirst, hlater⟩
    · exact Or.inl hge

/-- The whole log is committed, and the batch is the whole log. -/
theorem batchBelow_end : BatchBelow (logAfter [[7], [8]]) ⟨"t", 0, 100⟩ 10 := by
  let m : SegmentMeta := { (logAfter []).registry.newSegment "t" 0 with size := 10 }
  refine ⟨[7], [[8]], ⟨[m], ?_, m, List.mem_singleton_self _, [], ?_, ?_⟩, by decide, ?_⟩
  · decide +kernel
  · decide +kernel
  · decide +kernel
  · intro batch hbatch _
    have hlen := frames_length_le_of_isPrefix hbatch
    have hall : (frames [[7], [8]]).length = 10 := by decide
    change (0 : Int) + _ ≤ 10
    omega

theorem pull_sends_committed_all :
    let answer := Broker.answerPull none (logAfter [[7], [8]]) ⟨0, .succeed⟩ ⟨"t", 0, 100⟩
    (∃ resp payload, answer.2 = .ok resp ∧ resp.sent answer.1.disk = some payload) ∧
      AnswersCommitted (logAfter [[7], [8]]) answer.1.disk ⟨"t", 0, 100⟩ 10 answer.2 := by
  have h := pull_sends_committed ⟨"data", 0, 1000000, 100, 16, 16, 4⟩ 0
    [.createTopic "t", .append "t" ⟨0, .succeed⟩ [7], .append "t" ⟨0, .succeed⟩ [8]] [] []
    (leaderAt 10) (leaderAt 10) ⟨"t", 0, 100⟩ ⟨0, .succeed⟩ 10 none (by decide +kernel) rfl trivial
    (by decide +kernel)
  exact ⟨h.2.1 (Or.inr batchBelow_end), h.1 (Or.inr (Or.inr batchBelow_end))⟩

/-- One of two records is committed; a pull at offset zero is answered with both. -/
theorem uncommitted_record_sent :
    let s := run LeaderSystem.step (LeaderSystem.start (logAfter []) (leaderAt 0))
      [.updateIsr 1, .log (.append "t" ⟨0, .succeed⟩ [7]), .log (.append "t" ⟨0, .succeed⟩ [8]),
        .fetch ⟨2, .succeed⟩ ⟨"t", 5, 100, "f"⟩]
    ReplicaLeader.new "t" "l" ["l", "f"] (logAfter []) 2 10000 = .ok (leaderAt 0) ∧
      (Broker.checkPull s.leader s.log ⟨"t", 0, 100⟩).map (·.2) = .ok (5, none) ∧
      ¬ AnswersCommitted s.log (Broker.answerPull none s.log ⟨0, .succeed⟩ ⟨"t", 0, 100⟩).1.disk
        ⟨"t", 0, 100⟩ 5 (Broker.answerPull none s.log ⟨0, .succeed⟩ ⟨"t", 0, 100⟩).2 := by
  refine ⟨by decide +kernel, by decide +kernel, ?_⟩
  intro h
  have hend := (h (.message "t" (frames [[7], [8]])) (frames [[7], [8]]) (by decide +kernel)
    (by decide +kernel)).end_le
  exact absurd hend (by decide)

end PyLogStream
