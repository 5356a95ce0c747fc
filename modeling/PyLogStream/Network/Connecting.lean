import PyLogStream.Lib.Run
import PyLogStream.Protocol.Errors
import PyLogStream.Replication.Metadata

/-!
How a broker finds the controller that leads (`_connect_loop`, `_try_controller` and
`_read_response` in `network/controller.py`). It tries the controllers of its list and
follows the hints of those that do not lead. What one contacted controller does is one
event: it refuses, or it takes the connection and sends some bytes. `None` stands for an
attempt that failed, but `_read_response` also returns it for an answer it cannot parse.
-/

namespace PyLogStream
open Lib

structure ControllerAddress where
  controllerId : String
  host : String
  port : Int
  deriving DecidableEq, Repr

/-- What comes behind the bytes that a controller has sent. -/
inductive Ending where
  | eof
  /-- Nothing until the time is up. -/
  | silent
  | reset
  deriving DecidableEq, Repr

/-- What a contacted controller does. -/
inductive ControllerBehaviour where
  /-- No connection in time, or none at all. -/
  | refuse
  /-- Connecting raises something that is not caught. -/
  | fail
  | accept (received : Bytes) (ending : Ending)
  deriving DecidableEq, Repr

/-- What reading a response raises. -/
inductive ReadError where
  | incompleteRead
  | timeout
  | connectionReset
  | parse (err : ParseError)
  deriving DecidableEq, Repr

namespace ReadError

def ofEnding : Ending → ReadError
  | .eof => .incompleteRead
  | .silent => .timeout
  | .reset => .connectionReset

/-- The exceptions that `_try_controller` takes for a failed attempt. -/
def Caught : ReadError → Prop
  | .timeout | .connectionReset => True
  | .incompleteRead | .parse _ => False

instance : DecidablePred Caught := fun err =>
  match err with
  | .timeout | .connectionReset => .isTrue trivial
  | .incompleteRead | .parse _ => .isFalse id

end ReadError

/-- `readexactly` on the bytes that are there and those that are left. -/
def readExactly (received : Bytes) (ending : Ending) (n : Nat) :
    Except ReadError (Bytes × Bytes) :=
  if n ≤ received.length then .ok (received.take n, received.drop n)
  else .error (.ofEnding ending)

/-- A `ValueError` of a parser becomes `None`; other exceptions go on. -/
def catchValueError {α : Type} (x : Except ParseError α) : Except ReadError (Option α) :=
  match x with
  | .ok a => .ok (some a)
  | .error err => if err.IsValueError then .ok none else .error (.parse err)

/-- `_read_response`, and what it leaves of the stream. -/
def readResponseFrom (received : Bytes) (ending : Ending) :
    Except ReadError (Option ResponsePacket) × Bytes :=
  match readExactly received ending 4 with
  | .error err => (.error err, received)
  | .ok (lenData, received) =>
    match readExactly received ending (decodeLength lenData) with
    | .error err => (.error err, received)
    | .ok (data, received) =>
      if data = [] then (.ok none, received)
      else
        match catchValueError (parseResponse data) with
        | .error err => (.error err, received)
        | .ok none => (.ok none, received)
        | .ok (some packet) =>
          match packet.response with
          | .topicMetaDataListHeader payloadLength =>
            if payloadLength > 0 then
              match readExactly received ending payloadLength.toNat with
              | .error err => (.error err, received)
              | .ok (payloadData, received) =>
                match catchValueError (parseMetadataListPayload payloadData) with
                | .error err => (.error err, received)
                | .ok none => (.ok none, received)
                | .ok (some metaList) =>
                  (.ok (some ⟨packet.header, .topicMetaDataList metaList⟩), received)
            else (.ok (some ⟨packet.header, .topicMetaDataList []⟩), received)
          | _ => (.ok (some packet), received)

def readResponse (received : Bytes) (ending : Ending) : Except ReadError (Option ResponsePacket) :=
  (readResponseFrom received ending).1

/-- A connection that the loop returns, with what came on it and the replica manager as it
was then. -/
structure Connected where
  received : Bytes
  ending : Ending
  found : ReplicaManager

/-- The result of `_try_controller`: the connection, a response that names another
controller, or `None`. -/
inductive TryResult where
  | connection (connection : Connected)
  | notLeader (leaderId leaderHost : String) (leaderPort : Int)
  | none
  | raised

/-- `_try_controller`: any response but the one of a controller that does not lead gives
the connection, and so does no response. -/
def tryController (m : ReplicaManager) : ControllerBehaviour → ReplicaManager × TryResult
  | .refuse => (m, .none)
  | .fail => (m, .raised)
  | .accept received ending =>
    match readResponse received ending with
    | .error err => (m, if err.Caught then .none else .raised)
    | .ok (some ⟨_, .notLeaderController leaderId leaderHost leaderPort⟩) =>
      (m, .notLeader leaderId leaderHost leaderPort)
    | .ok (some ⟨_, .topicMetaDataList metaList⟩) =>
      match m.applyMetadataList (metaList.map StatedMetaData.metaData) with
      | (applied, .ok _) => (applied, .connection ⟨received, ending, m⟩)
      | (applied, .error .osError) => (applied, .none)
      | (applied, .error _) => (applied, .raised)
    | .ok _ => (m, .connection ⟨received, ending, m⟩)

/-- Where the loop is suspended. -/
inductive ConnectPosition where
  | hint (leaderHint : ControllerAddress)
  /-- It tries the first of the controllers that are left. -/
  | list (controllers : List ControllerAddress)
  | sleeping (leaderHint : Option ControllerAddress)
  | returned (connection : Connected)
  | raised

structure ConnectLoop where
  manager : ReplicaManager
  position : ConnectPosition

inductive ConnectEvent where
  /-- The controller that is tried behaves so. -/
  | contact (behaviour : ControllerBehaviour)
  | wake
  /-- Other tasks have left the replica manager like this. -/
  | others (manager : ReplicaManager)

/-- The loop over the list, from the controllers that are left. -/
def ConnectPosition.ofList : List ControllerAddress → ConnectPosition
  | [] => .sleeping none
  | controllers => .list controllers

/-- The hint in the answer of a controller that does not lead. -/
def leaderHint (leaderId leaderHost : String) (leaderPort : Int) : Option ControllerAddress :=
  if leaderId ≠ "" ∧ leaderHost ≠ "0.0.0.0" ∧ leaderPort ≠ 0 then
    some ⟨leaderId, leaderHost, leaderPort⟩
  else none

namespace ConnectLoop

def start (controllerList : List ControllerAddress) (m : ReplicaManager) : ConnectLoop :=
  ⟨m, .ofList controllerList⟩

/-- The controller is tried: where the loop goes on without a hint and with one. -/
def attempt (s : ConnectLoop) (behaviour : ControllerBehaviour) (without : ConnectPosition)
    (follow : ControllerAddress → ConnectPosition) : ConnectLoop :=
  let (manager, result) := tryController s.manager behaviour
  match result with
  | .connection connection => ⟨manager, .returned connection⟩
  | .notLeader leaderId leaderHost leaderPort =>
    match leaderHint leaderId leaderHost leaderPort with
    | some hint => ⟨manager, follow hint⟩
    | none => ⟨manager, without⟩
  | .none => ⟨manager, without⟩
  | .raised => ⟨manager, .raised⟩

variable (controllerList : List ControllerAddress)

/-- A hint in an answer to a hint is followed at once; one in an answer to the list, after
the sleep. -/
def step (s : ConnectLoop) (e : ConnectEvent) : ConnectLoop × Unit :=
  match s.position, e with
  | .hint _, .contact behaviour =>
    (s.attempt behaviour (.ofList controllerList) .hint, ())
  | .list (_ :: rest), .contact behaviour =>
    (s.attempt behaviour (.ofList rest) fun hint => .sleeping (some hint), ())
  | .sleeping none, .wake => ({ s with position := .ofList controllerList }, ())
  | .sleeping (some hint), .wake => ({ s with position := .hint hint }, ())
  | .returned _, _ => (s, ())
  | .raised, _ => (s, ())
  | _, .others manager => ({ s with manager }, ())
  | _, _ => (s, ())

/-- The first response on the returned connection was a list of metadata, and it has been
applied to the replica manager. -/
def Registered (s : ConnectLoop) : Prop :=
  ∀ connection, s.position = .returned connection →
    ∃ header metaList outcomes,
      readResponse connection.received connection.ending =
        .ok (some ⟨header, .topicMetaDataList metaList⟩) ∧
      connection.found.applyMetadataList (metaList.map StatedMetaData.metaData) =
        (s.manager, .ok outcomes)

end ConnectLoop

/-- The controller does not answer, or it names another one or sends a list of metadata. -/
def ControllerBehaviour.Proper : ControllerBehaviour → Prop
  | .refuse | .fail => True
  | .accept received ending =>
    ∀ answer, readResponse received ending = .ok answer →
      ∃ header, (∃ leaderId leaderHost leaderPort,
          answer = some ⟨header, .notLeaderController leaderId leaderHost leaderPort⟩) ∨
        ∃ metaList, answer = some ⟨header, .topicMetaDataList metaList⟩

/-- A controller that is tried behaves properly. -/
def ConnectLoop.TriedProper (s : ConnectLoop) : ConnectEvent → Prop
  | .contact behaviour =>
    (∃ hint, s.position = .hint hint) ∨ (∃ first rest, s.position = .list (first :: rest)) →
      behaviour.Proper
  | _ => True

namespace ConnectLoop
variable {s : ConnectLoop}

theorem registered_of_ne {position : ConnectPosition} {m : ReplicaManager}
    (h : ∀ connection, position ≠ .returned connection) : Registered ⟨m, position⟩ :=
  fun connection heq => absurd heq (h connection)

theorem ofList_ne_returned (controllers : List ControllerAddress) (connection : Connected) :
    ConnectPosition.ofList controllers ≠ .returned connection := by
  cases controllers <;> exact ConnectPosition.noConfusion

theorem not_registered_of_read {connection : Connected} {answer : Option ResponsePacket}
    {m : ReplicaManager} (hread : readResponse connection.received connection.ending = .ok answer)
    (h : ∀ header metaList, answer ≠ some ⟨header, .topicMetaDataList metaList⟩) :
    ¬ Registered ⟨m, .returned connection⟩ := by
  intro hregistered
  obtain ⟨header, metaList, -, hlist, -⟩ := hregistered connection rfl
  rw [hread] at hlist
  exact h header metaList (Except.ok.inj hlist)

/-- An attempt keeps to what was asked for exactly if the controller behaves properly. -/
theorem attempt_registered_iff (behaviour : ControllerBehaviour) {without : ConnectPosition}
    {follow : ControllerAddress → ConnectPosition}
    (hwithout : ∀ connection, without ≠ .returned connection)
    (hfollow : ∀ hint connection, follow hint ≠ .returned connection) :
    (s.attempt behaviour without follow).Registered ↔ behaviour.Proper := by
  cases behaviour with
  | refuse => exact iff_of_true (registered_of_ne hwithout) trivial
  | fail => exact iff_of_true (registered_of_ne fun _ => ConnectPosition.noConfusion) trivial
  | accept received ending =>
      simp only [attempt, tryController, ControllerBehaviour.Proper]
      cases hread : readResponse received ending with
      | error err =>
          refine iff_of_true ?_ fun answer hanswer => by cases hanswer
          by_cases hcaught : err.Caught
          · simp only [if_pos hcaught]
            exact registered_of_ne hwithout
          · simp only [if_neg hcaught]
            exact registered_of_ne fun _ => ConnectPosition.noConfusion
      | ok answer =>
          cases answer with
          | none => exact iff_of_false (not_registered_of_read hread (by simp)) (by simp)
          | some packet =>
              cases packet with
              | mk header response =>
                  cases response with
                  | notLeaderController leaderId leaderHost leaderPort =>
                      refine iff_of_true ?_ (by simp)
                      simp only
                      cases leaderHint leaderId leaderHost leaderPort with
                      | none => exact registered_of_ne hwithout
                      | some hint => exact registered_of_ne (hfollow hint)
                  | topicMetaDataList metaList =>
                      refine iff_of_true ?_ (by simp)
                      simp only
                      cases happly : s.manager.applyMetadataList
                          (metaList.map StatedMetaData.metaData) with
                      | mk applied result =>
                          cases result with
                          | ok outcomes =>
                              intro connection heq
                              cases heq
                              exact ⟨header, metaList, outcomes, hread, happly⟩
                          | error err =>
                              cases err with
                              | osError => exact registered_of_ne hwithout
                              | _ => exact registered_of_ne fun _ => ConnectPosition.noConfusion
                  | _ => exact iff_of_false (not_registered_of_read hread (by simp)) (by simp)

theorem step_registered_iff (controllerList : List ControllerAddress) (s : ConnectLoop)
    (e : ConnectEvent) (h : s.Registered) :
    (s.step controllerList e).1.Registered ↔ s.TriedProper e := by
  cases e with
  | wake =>
      refine iff_of_true ?_ trivial
      cases hposition : s.position with
      | sleeping leaderHint =>
          cases leaderHint with
          | none =>
              simp only [step, hposition]
              exact registered_of_ne (ofList_ne_returned controllerList)
          | some hint =>
              simp only [step, hposition]
              exact registered_of_ne fun _ => ConnectPosition.noConfusion
      | hint | list | returned | raised =>
          simp only [step, hposition]
          exact h
  | others manager =>
      refine iff_of_true ?_ trivial
      cases hposition : s.position with
      | returned | raised =>
          simp only [step, hposition]
          exact h
      | hint | list | sleeping =>
          simp only [step, hposition]
          exact registered_of_ne fun _ => ConnectPosition.noConfusion
  | contact behaviour =>
      cases hposition : s.position with
      | hint leaderHint =>
          simp only [step, hposition]
          rw [attempt_registered_iff behaviour (ofList_ne_returned controllerList)
            fun _ _ => ConnectPosition.noConfusion]
          simp [TriedProper, hposition]
      | list controllers =>
          cases controllers with
          | nil =>
              refine iff_of_true ?_ (by simp [TriedProper, hposition])
              simpa only [step, hposition]
          | cons first rest =>
              simp only [step, hposition]
              rw [attempt_registered_iff behaviour (ofList_ne_returned rest)
                fun _ _ => ConnectPosition.noConfusion]
              simp [TriedProper, hposition]
      | sleeping leaderHint =>
          refine iff_of_true ?_ (by simp [TriedProper, hposition])
          cases leaderHint <;> simpa only [step, hposition]
      | returned | raised =>
          refine iff_of_true ?_ (by simp [TriedProper, hposition])
          simpa only [step, hposition]

/-- The first controller of the list is enough to mislead the loop. -/
theorem first_not_registered {first : ControllerAddress} {rest : List ControllerAddress}
    {m : ReplicaManager} {behaviour : ControllerBehaviour} (h : ¬ behaviour.Proper) :
    ¬ (run (step (first :: rest)) (start (first :: rest) m) [.contact behaviour]).Registered := by
  intro hregistered
  have hstart : (start (first :: rest) m).Registered :=
    registered_of_ne (ofList_ne_returned (first :: rest))
  exact h ((step_registered_iff (first :: rest) _ (.contact behaviour) hstart).mp hregistered
    (Or.inr ⟨first, rest, rfl⟩))

end ConnectLoop

/-- A connection that the loop returns has registered the broker, in whatever order the
controllers are tried, if and only if each of them that answers behaves properly. -/
theorem connected_registered_iff (controllerList : List ControllerAddress) (m : ReplicaManager)
    (events : List ConnectEvent) :
    (∀ early late, events = early ++ late →
        (run (ConnectLoop.step controllerList) (.start controllerList m) early).Registered) ↔
      MeetsAll (ConnectLoop.step controllerList) ConnectLoop.TriedProper
        (.start controllerList m) events :=
  forall_early_iff_meetsAll (fun _ => True) ConnectLoop.Registered (fun _ _ _ => trivial)
    (fun s e _ hgood => ConnectLoop.step_registered_iff controllerList s e hgood) trivial
    (ConnectLoop.registered_of_ne (ConnectLoop.ofList_ne_returned controllerList))

/-- The frame of a controller that reports an error. -/
def errorFrame : Bytes := [0, 0, 0, 12, 69, 82, 82, 32, 53, 48, 48, 32, 98, 117, 115, 121]

/-- A frame whose body is not even text. -/
def brokenFrame : Bytes := [0, 0, 0, 1, 255]

/-- The loop takes an error for a registration, and bytes that it cannot parse. -/
theorem error_not_registered :
    ¬ (run (ConnectLoop.step [⟨"c", "h", 1⟩]) (.start [⟨"c", "h", 1⟩] emptyManager)
        [.contact (.accept errorFrame .silent)]).Registered ∧
      ¬ (run (ConnectLoop.step [⟨"c", "h", 1⟩]) (.start [⟨"c", "h", 1⟩] emptyManager)
        [.contact (.accept brokenFrame .silent)]).Registered := by
  have herror : readResponse errorFrame .silent = .ok (some ⟨none, .error 500 "busy"⟩) := by
    decide +kernel
  have hbroken : readResponse brokenFrame .silent = .ok none := by decide +kernel
  refine ⟨ConnectLoop.first_not_registered fun hproper => ?_,
    ConnectLoop.first_not_registered fun hproper => ?_⟩
  · simpa using hproper _ herror
  · simpa using hproper _ hbroken

end PyLogStream
