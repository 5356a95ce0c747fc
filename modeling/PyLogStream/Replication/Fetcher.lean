import PyLogStream.Replication.Watermark

/-!
A follower's fetcher (`replication/fetcher.py`) at work against a leader. An
iteration of `run` is two events: the leader answers a fetch at the fetcher's
position, and the fetcher receives the answer and appends it to its own log. Both
logs may change between the two.
-/

namespace PyLogStream
open Lib

structure ReplicaFetcher where
  topic : String
  brokerId : String
  fetchSize : Int
  logEndOffset : Int
  running : Bool
  deriving DecidableEq, Repr

def ReplicaFetcher.fetchCommand (fetcher : ReplicaFetcher) : ReplicaFetchCommand :=
  ⟨fetcher.topic, fetcher.logEndOffset, fetcher.fetchSize, fetcher.brokerId⟩

/-- What `fetch_data` returns: exactly as many bytes as the header announces. -/
def ReplicaResponse.received (disk : Disk) : ReplicaResponse → Option Bytes
  | .fetchBytes _ _ _ payloadLength payload =>
    if payload.length = payloadLength then some payload else none
  | .fetchFile _ _ _ payloadLength filepath offset length =>
    match disk.sendfile filepath offset length with
    | none => none
    | some payload => if payload.length = payloadLength then some payload else none

structure FetchSystem where
  leader : ReplicaLeader
  leaderLog : LogManager
  fetcher : ReplicaFetcher
  followerLog : LogManager
  /-- The leader's answer to the fetch in progress. -/
  inFlight : Option ReplicaResponse

inductive FetchEvent where
  /-- Any operation on the leader's log, among them the appends of its producers. -/
  | leaderLog (op : LogOp)
  | followerLog (op : LogOp)
  | fetch (env : CallEnv)
  | receive (env : CallEnv)

inductive FetchResult where
  | log (result : LogResult)
  | sent (response : ReplicaResponse)
  /-- The iteration is complete. -/
  | appended (data : Bytes)
  /-- The iteration raised, which ends the task. -/
  | raised
  | none
  deriving DecidableEq

namespace FetchSystem

/-- The task of the fetcher ends with the exception that its iteration raised. -/
def fail (s : FetchSystem) : FetchSystem :=
  { s with fetcher := { s.fetcher with running := false }, inFlight := none }

/-- `fetch_data` up to the leader's answer. A leader that raises closes the connection. -/
def fetch (s : FetchSystem) (env : CallEnv) : FetchSystem × FetchResult :=
  if s.fetcher.running ∧ s.inFlight = none then
    match s.leader.handle s.leaderLog env s.fetcher.fetchCommand with
    | (leader, leaderLog, .error _) => ({ s with leader, leaderLog }.fail, .raised)
    | (leader, leaderLog, .ok resp) =>
      ({ s with leader, leaderLog, inFlight := some resp }, .sent resp)
  else (s, .none)

/-- The rest of the iteration. An empty answer is appended like any other. -/
def receive (s : FetchSystem) (env : CallEnv) : FetchSystem × FetchResult :=
  match s.inFlight with
  | none => (s, .none)
  | some resp =>
    match resp.received s.leaderLog.disk with
    | none => (s.fail, .raised)
    | some data =>
      match s.followerLog.append env s.fetcher.topic data with
      | (followerLog, .error _) => ({ s with followerLog }.fail, .raised)
      | (followerLog, .ok resOffset) =>
        ({ s with
            followerLog
            fetcher := { s.fetcher with logEndOffset := resOffset + data.length }
            inFlight := none }, .appended data)

def step (s : FetchSystem) : FetchEvent → FetchSystem × FetchResult
  | .leaderLog op =>
    let (leaderLog, result) := s.leaderLog.apply op
    ({ s with leaderLog }, .log result)
  | .followerLog op =>
    let (followerLog, result) := s.followerLog.apply op
    ({ s with followerLog }, .log result)
  | .fetch env => s.fetch env
  | .receive env => s.receive env

/-- The follower's log is a prefix of the leader's, and the fetcher is at its end. -/
structure InStep (s : FetchSystem) : Prop where
  isPrefix : s.followerLog.logBytes s.fetcher.topic <+: s.leaderLog.logBytes s.fetcher.topic
  at_end : s.followerLog.getLatestOffset s.fetcher.topic = .ok s.fetcher.logEndOffset

theorem inStep_iff {s : FetchSystem} : s.InStep ↔
    s.followerLog.logBytes s.fetcher.topic <+: s.leaderLog.logBytes s.fetcher.topic ∧
      s.followerLog.getLatestOffset s.fetcher.topic = .ok s.fetcher.logEndOffset :=
  ⟨fun h => ⟨h.isPrefix, h.at_end⟩, fun h => ⟨h.1, h.2⟩⟩

instance (s : FetchSystem) : Decidable s.InStep := decidable_of_iff _ inStep_iff.symm

section
variable {s : FetchSystem}

theorem fetch_followerLog (env : CallEnv) : (s.fetch env).1.followerLog = s.followerLog := by
  unfold fetch
  split
  · split <;> rfl
  · rfl

/-- A completed iteration leaves the fetcher four bytes before the end of its log:
`append` puts a length prefix before the data, which the position does not count. -/
theorem receive_spec (shaped : s.followerLog.registry.Shaped) (env : CallEnv) :
    (s.receive env).1.followerLog.registry.Shaped ∧
      ∀ data, (s.receive env).2 = .appended data →
        (s.receive env).1.followerLog.getLatestOffset (s.receive env).1.fetcher.topic =
          .ok ((s.receive env).1.fetcher.logEndOffset + 4) := by
  unfold receive
  split
  · exact ⟨shaped, fun data h => by cases h⟩
  · next resp hresp =>
      split
      · exact ⟨shaped, fun data h => by cases h⟩
      · next data hdata =>
          obtain ⟨hshaped, -, -⟩ := append_offsets shaped env s.fetcher.topic data
          split
          · next followerLog err happ =>
              rw [happ] at hshaped
              exact ⟨hshaped, fun data h => by cases h⟩
          · next followerLog resOffset happ =>
              obtain ⟨n, rfl, -, hlatest⟩ := append_returned shaped (congrArg Prod.snd happ)
              rw [happ] at hshaped hlatest
              refine ⟨hshaped, fun data' _ => ?_⟩
              change followerLog.getLatestOffset s.fetcher.topic = .ok ((n : Int) + data.length + 4)
              rw [show followerLog.getLatestOffset s.fetcher.topic = _ from hlatest]
              congr 1
              omega

theorem step_shaped (shaped : s.followerLog.registry.Shaped) (event : FetchEvent) :
    (s.step event).1.followerLog.registry.Shaped := by
  cases event with
  | leaderLog op => exact shaped
  | followerLog op => exact (apply_offsets shaped op).1
  | fetch env =>
      change (s.fetch env).1.followerLog.registry.Shaped
      rw [fetch_followerLog]
      exact shaped
  | receive env => exact (receive_spec shaped env).1

theorem run_shaped (shaped : s.followerLog.registry.Shaped) (events : List FetchEvent) :
    (run step s events).followerLog.registry.Shaped := by
  induction events generalizing s with
  | nil => exact shaped
  | cons event events ih => exact ih (step_shaped shaped event)

end

/-- Whatever the two logs and the leader are, and in whatever order the events come,
the follower is out of step after every completed iteration. -/
theorem fetch_leaves_gap (config : LogConfig) (importTime : Time) (ops : List LogOp)
    (leader : ReplicaLeader) (leaderLog : LogManager) (fetcher : ReplicaFetcher)
    (inFlight : Option ReplicaResponse) (events : List FetchEvent) (env : CallEnv) (data : Bytes) :
    let s : FetchSystem := ⟨leader, leaderLog, fetcher,
      run LogManager.apply (LogManager.start config importTime) ops, inFlight⟩
    let s' := run step s events
    (s'.step (.receive env)).2 = .appended data →
      (s'.step (.receive env)).1.followerLog.getLatestOffset
          (s'.step (.receive env)).1.fetcher.topic =
        .ok ((s'.step (.receive env)).1.fetcher.logEndOffset + 4) ∧
      ¬ (s'.step (.receive env)).1.InStep := by
  intro s s' hdone
  have shaped : s'.followerLog.registry.Shaped :=
    run_shaped (s := s) (shaped_run config importTime ops) events
  have hgap := (receive_spec shaped env).2 data hdone
  refine ⟨hgap, fun instep => ?_⟩
  have hend : (s'.receive env).1.fetcher.logEndOffset + 4 =
      (s'.receive env).1.fetcher.logEndOffset := Except.ok.inj (hgap.symm.trans instep.at_end)
  omega

/-- A follower `f` of the leader `l`, each with the given records in its log. -/
def between (leaderPayloads followerPayloads : List Bytes) (logEndOffset : Int) : FetchSystem :=
  { leader := leaderAt (frames leaderPayloads).length
    leaderLog := logAfter leaderPayloads
    fetcher := ⟨"t", "f", 100, logEndOffset, true⟩
    followerLog := logAfter followerPayloads
    inFlight := none }

theorem fetch_leaves_gap_one :
    ¬ (((between [[7]] [] 0).step (.fetch ⟨0, .succeed⟩)).1.step (.receive ⟨0, .succeed⟩)).1.InStep :=
  (fetch_leaves_gap ⟨"data", 0, 1000000, 100, 16, 16, 4⟩ 0 [.createTopic "t"] (leaderAt 5)
    (logAfter [[7]]) ⟨"t", "f", 100, 0, true⟩ none [.fetch ⟨0, .succeed⟩] ⟨0, .succeed⟩ (frame [7])
    (by decide +kernel)).2

/-- Before the first iteration the two are in step, after it they are not. -/
theorem first_iteration_out_of_step :
    (between [[7]] [] 0).InStep ∧
      ((((between [[7]] [] 0).step (.fetch ⟨0, .succeed⟩)).1.step (.receive ⟨0, .succeed⟩)).2 =
        .appended (frame [7])) ∧
      ¬ (((between [[7]] [] 0).step (.fetch ⟨0, .succeed⟩)).1.step
        (.receive ⟨0, .succeed⟩)).1.InStep := by
  refine ⟨by decide +kernel, by decide +kernel, by decide +kernel⟩

end FetchSystem
end PyLogStream
