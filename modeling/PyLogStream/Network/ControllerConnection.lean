import PyLogStream.Lib.Run
import Mathlib.Logic.Function.Basic

/-!
A broker's connection to its controller (`network/controller.py`): the reader, the
heartbeat and the commands in flight share it with the task that reconnects. A
step is what one task does between two suspensions. Waiting on an event that is
set does not suspend, so that a loop around such a wait may never give the other
tasks a turn.
-/

namespace PyLogStream
open Lib

/-- Where a task other than the retry task is suspended: in a read, a write, a sleep
or on its future; or on `_conn_status_event` in `_wait_for_connection`, where it is
`woken` once the event has been set. -/
inductive ClientTask where
  | working
  | waiting (staleId : Int) (woken : Bool)
  deriving DecidableEq, Repr

/-- Where `_connection_retry_loop` is suspended. -/
inductive RetryTask where
  | awaiting
  | connecting
  | sleeping
  deriving DecidableEq, Repr

/-- `spinning` is a task that does not come to its next suspension. -/
structure ControllerConnection where
  connected : Bool
  reconnecting : Bool
  connectionId : Int
  connStatusEvent : Bool
  connDisconnectEvent : Bool
  tasks : Nat → ClientTask
  retry : RetryTask
  spinning : Option Nat

inductive ConnectionEvent where
  /-- A command or the heartbeat is sent. -/
  | send (task : Nat)
  /-- A read, a write or a response tells a task that the connection is lost. -/
  | lost (task : Nat)
  | resume (task : Nat)
  | retry
  | connect
  | connectFails
  | wake
  deriving DecidableEq, Repr

inductive LoopState where
  | running
  | suspended
  | returned
  deriving DecidableEq, Repr

namespace ControllerConnection

/-- The state that `_start` leaves. -/
def start : ControllerConnection :=
  { connected := true
    reconnecting := false
    connectionId := 0
    connStatusEvent := true
    connDisconnectEvent := false
    tasks := fun _ => .working
    retry := .awaiting
    spinning := none }

/-- The condition under which `_wait_for_connection` returns. -/
def Ready (s : ControllerConnection) (staleId : Int) : Prop :=
  s.connected = true ∧ s.reconnecting = false ∧ staleId < s.connectionId

instance (s : ControllerConnection) (staleId : Int) : Decidable (s.Ready staleId) :=
  inferInstanceAs (Decidable (s.connected = true ∧ s.reconnecting = false ∧
    staleId < s.connectionId))

/-- The loop of `_wait_for_connection`, as long as no other task runs. -/
def waitLoop (s : ControllerConnection) (staleId : Int) : Nat → LoopState
  | 0 => .running
  | fuel + 1 =>
    if s.connStatusEvent then
      if s.Ready staleId then .returned else waitLoop s staleId fuel
    else .suspended

def setTask (s : ControllerConnection) (task : Nat) (position : ClientTask) :
    ControllerConnection :=
  { s with tasks := Function.update s.tasks task position }

/-- A task runs the loop up to its next suspension. No other task runs meanwhile, so that one
pass decides how it ends. -/
def runLoop (s : ControllerConnection) (task : Nat) (staleId : Int) : ControllerConnection :=
  match s.waitLoop staleId 1 with
  | .returned => s.setTask task .working
  | .suspended => s.setTask task (.waiting staleId false)
  | .running => { s with spinning := some task }

/-- `_wait_for_connection`; the exception it raises on a closed connection ends the call. -/
def waitForConnection (s : ControllerConnection) (task : Nat) (staleId : Int) :
    ControllerConnection :=
  if s.connected = false ∨ s.Ready staleId then s.setTask task .working
  else s.runLoop task staleId

def handleDisconnect (s : ControllerConnection) (task : Nat) : ControllerConnection :=
  if s.connected then
    { s with connDisconnectEvent := true }.waitForConnection task s.connectionId
  else s

/-- Setting `_conn_status_event` wakes every task that waits on it. -/
def setStatus (s : ControllerConnection) : ControllerConnection :=
  { s with
    connStatusEvent := true
    tasks := fun task =>
      match s.tasks task with
      | .waiting staleId _ => .waiting staleId true
      | .working => .working }

/-- The retry loop from its wait on `_conn_disconnect_event` to its next suspension. -/
def awaitDisconnect (s : ControllerConnection) : ControllerConnection :=
  if s.connDisconnectEvent then
    { s with
      connDisconnectEvent := false
      connStatusEvent := false
      reconnecting := true
      retry := .connecting }
  else { s with retry := .awaiting }

/-- `_connect_loop` has returned a connection. -/
def reconnect (s : ControllerConnection) : ControllerConnection :=
  { { s with connected := true, reconnecting := false }.setStatus with
    connectionId := s.connectionId + 1 }.awaitDisconnect

/-- What an event does; one whose task is elsewhere does nothing. -/
def react (s : ControllerConnection) : ConnectionEvent → ControllerConnection
  | .send task => if s.tasks task = .working then s.waitForConnection task (-1) else s
  | .lost task => if s.tasks task = .working then s.handleDisconnect task else s
  | .resume task =>
    match s.tasks task with
    | .waiting staleId true =>
      if s.Ready staleId then s.setTask task .working else s.runLoop task staleId
    | _ => s
  | .retry => if s.retry = .awaiting then s.awaitDisconnect else s
  | .connect => if s.retry = .connecting then s.reconnect else s
  | .connectFails => if s.retry = .connecting then { s with retry := .sleeping } else s
  | .wake => if s.retry = .sleeping then s.awaitDisconnect else s

/-- While a task spins, nothing else happens. -/
def step (s : ControllerConnection) (e : ConnectionEvent) : ControllerConnection :=
  if s.spinning.isSome then s else s.react e

def advance (s : ControllerConnection) (e : ConnectionEvent) : ControllerConnection × Unit :=
  (s.step e, ())

/-- The stale id with which an event makes a task evaluate the loop. -/
def evaluates (s : ControllerConnection) : ConnectionEvent → Option Int
  | .send task =>
    if s.tasks task = .working ∧ s.connected = true ∧ ¬ s.Ready (-1) then some (-1) else none
  | .lost task =>
    if s.tasks task = .working ∧ s.connected = true then some s.connectionId else none
  | .resume task =>
    match s.tasks task with
    | .waiting staleId true => some staleId
    | _ => none
  | _ => none

/-- If the exit condition of the loop is false, the event it waits on is clear. -/
def Suspends (s : ControllerConnection) (e : ConnectionEvent) : Prop :=
  s.spinning = none → ∀ staleId ∈ s.evaluates e, ¬ s.Ready staleId → s.connStatusEvent = false

/-- A task is told that the connection is lost. -/
def HandlesLoss (s : ControllerConnection) : ConnectionEvent → Prop
  | .lost task => s.tasks task = .working
  | _ => False

section
variable {s : ControllerConnection}

/-- The loop goes on forever exactly if the event is set and the condition is false. -/
theorem waitLoop_running_iff (staleId : Int) :
    (∀ fuel, s.waitLoop staleId fuel = .running) ↔
      s.connStatusEvent = true ∧ ¬ s.Ready staleId := by
  constructor
  · intro h
    have hone := h 1
    simp only [waitLoop] at hone
    split at hone
    · next hset =>
        split at hone
        · cases hone
        · next hready => exact ⟨hset, hready⟩
    · cases hone
  · rintro ⟨hset, hready⟩ fuel
    induction fuel with
    | zero => rfl
    | succ fuel ih => simp only [waitLoop, if_pos hset, if_neg hready, ih]

theorem runLoop_spinning (hcalm : s.spinning = none) (task : Nat) (staleId : Int) :
    (s.runLoop task staleId).spinning = none ↔
      (¬ s.Ready staleId → s.connStatusEvent = false) := by
  simp only [runLoop, waitLoop]
  by_cases hset : s.connStatusEvent = true
  · by_cases hready : s.Ready staleId
    · simp [hset, hready, setTask, hcalm]
    · simp [hset, hready]
  · simp [hset, setTask, hcalm]

theorem awaitDisconnect_spinning : s.awaitDisconnect.spinning = s.spinning := by
  simp only [awaitDisconnect]
  split <;> rfl

theorem waitForConnection_spinning (hcalm : s.spinning = none) (task : Nat) (staleId : Int) :
    (s.waitForConnection task staleId).spinning = none ↔
      (s.connected = true → ¬ s.Ready staleId → s.connStatusEvent = false) := by
  simp only [waitForConnection]
  split
  · next h =>
      refine iff_of_true hcalm fun hconnected hready => ?_
      cases h with
      | inl hclosed =>
          rw [hconnected] at hclosed
          cases hclosed
      | inr hr => exact absurd hr hready
  · next h =>
      obtain ⟨hconnected, -⟩ := not_or.mp h
      have hopen : s.connected = true := Bool.not_eq_false _ ▸ hconnected
      rw [runLoop_spinning hcalm]
      simp [hopen]

/-- A step ends in a suspension exactly if the loop, where it is entered, suspends. -/
theorem react_spinning (hcalm : s.spinning = none) (e : ConnectionEvent) :
    (s.react e).spinning = none ↔ s.Suspends e := by
  have hquiet : ∀ s' : ControllerConnection, s'.spinning = s.spinning → s.evaluates e = none →
      (s'.spinning = none ↔ s.Suspends e) := by
    intro s' hsame hnone
    refine iff_of_true (hsame.trans hcalm) fun _ staleId hmem => ?_
    rw [hnone] at hmem
    cases hmem
  cases e with
  | send task =>
      simp only [react]
      split
      · next hworking =>
          rw [waitForConnection_spinning hcalm]
          simp [Suspends, evaluates, hworking, hcalm]
      · next hbusy => exact hquiet s rfl (by simp [evaluates, hbusy])
  | lost task =>
      simp only [react, handleDisconnect]
      split
      · next hworking =>
          split
          · next hconnected =>
              refine (waitForConnection_spinning (s := { s with connDisconnectEvent := true }) hcalm task
                s.connectionId).trans ?_
              simp [Suspends, evaluates, hworking, hconnected, hcalm, Ready]
          · next hclosed => exact hquiet s rfl (by simp [evaluates, hclosed])
      · next hbusy => exact hquiet s rfl (by simp [evaluates, hbusy])
  | resume task =>
      simp only [react]
      split
      · next staleId hwaiting =>
          split
          · next hready =>
              simp [Suspends, evaluates, hwaiting, hready, setTask, hcalm]
          · next hready =>
              rw [runLoop_spinning hcalm]
              simp [Suspends, evaluates, hwaiting, hcalm]
      · next hother =>
          refine hquiet s rfl ?_
          simp only [evaluates]
  | retry =>
      refine hquiet _ ?_ rfl
      simp only [react]
      split
      · exact awaitDisconnect_spinning
      · rfl
  | connect =>
      refine hquiet _ ?_ rfl
      simp only [react]
      split
      · exact awaitDisconnect_spinning
      · rfl
  | connectFails =>
      refine hquiet _ ?_ rfl
      simp only [react]
      split <;> rfl
  | wake =>
      refine hquiet _ ?_ rfl
      simp only [react]
      split
      · exact awaitDisconnect_spinning
      · rfl

/-- Without a loss, the connection stays as `_start` leaves it. -/
theorem start_react {e : ConnectionEvent} (h : ¬ start.HandlesLoss e) : start.react e = start := by
  cases e with
  | send task =>
      have hsame : Function.update start.tasks task .working = start.tasks :=
        Function.update_eq_self task start.tasks
      have hworking : start.tasks task = .working := rfl
      have hready : start.connected = false ∨ start.Ready (-1) := Or.inr (by decide)
      simp only [react, waitForConnection, if_pos hworking, if_pos hready, setTask, hsame]
  | lost task => exact absurd rfl h
  | resume task => rfl
  | retry => rfl
  | connect => rfl
  | connectFails => rfl
  | wake => rfl

theorem start_suspends_iff (e : ConnectionEvent) : start.Suspends e ↔ ¬ start.HandlesLoss e := by
  constructor
  · intro h hloss
    cases e with
    | lost task =>
        have hclear := h rfl 0 (by simp [evaluates, start]) (by decide)
        cases hclear
    | _ => exact hloss
  · intro h
    refine (react_spinning rfl e).mp ?_
    rw [start_react h]
    rfl

/-- A connection with a spinning task stays as it is. -/
theorem run_spinning (h : s.spinning ≠ none) (events : List ConnectionEvent) :
    run advance s events = s := by
  induction events with
  | nil => rfl
  | cons e events ih =>
      have hstep : s.step e = s := if_pos (Option.isSome_iff_ne_none.mpr h)
      simp only [run, advance, hstep]
      exact ih

end

/-- Every task's run between two suspensions is finite exactly as long as no task has been told
of a loss of the connection. -/
theorem reconnect_yields_iff (events : List ConnectionEvent) :
    (MeetsAll advance Suspends start events ↔
        MeetsAll advance (fun s e => ¬ s.HandlesLoss e) start events) ∧
      ((run advance start events).spinning = none ↔
        MeetsAll advance (fun s e => ¬ s.HandlesLoss e) start events) := by
  induction events with
  | nil => exact ⟨Iff.rfl, iff_of_true rfl trivial⟩
  | cons e events ih =>
      have hstep : start.step e = start.react e := rfl
      by_cases hloss : start.HandlesLoss e
      · have hspins : ¬ start.Suspends e := fun h => (start_suspends_iff e).mp h hloss
        have hstuck : (start.step e).spinning ≠ none := by
          rw [hstep]
          exact fun h => hspins ((react_spinning rfl e).mp h)
        refine ⟨iff_of_false (fun h => hspins h.1) (fun h => h.1 hloss),
          iff_of_false ?_ (fun h => h.1 hloss)⟩
        simp only [run, advance, run_spinning hstuck]
        exact hstuck
      · have hstart : (advance start e).1 = start := hstep.trans (start_react hloss)
        simp only [MeetsAll, run, hstart, hloss, not_false_eq_true, true_and,
          (start_suspends_iff e).mpr hloss]
        exact ih

/-- The reader finds the connection closed: it waits on an event that is set for a connection
that nobody will make, and the retry task never runs. -/
theorem reconnect_spins :
    ¬ MeetsAll advance Suspends start [.lost 0] ∧
      (∀ fuel, { start with connDisconnectEvent := true }.waitLoop 0 fuel = .running) ∧
      (run advance start [.lost 0, .retry]).spinning = some 0 ∧
      (run advance start [.lost 0, .retry]).retry = .awaiting := by
  refine ⟨fun h => ?_, ?_, rfl, rfl⟩
  · exact (start_suspends_iff (.lost 0)).mp h.1 rfl
  · exact (waitLoop_running_iff 0).mpr ⟨rfl, by decide⟩

end ControllerConnection
end PyLogStream
