import PyLogStream.Lib.Dict
import PyLogStream.Lib.Run
import PyLogStream.Protocol.Encoder
import Mathlib.Logic.Function.Basic

/-!
Requests on a broker's connection to its controller (`_send_command_loop`, `_send_command`
and `_reader_loop` in `network/controller.py`, `handle_connection` in `server.py`). A
request carries a correlation id, and the controller puts the header of a command on its
response. Several tasks have requests under way at once, and metadata comes in between
that nobody has asked for. Both directions keep the order of what is written, and a packet is
read as it was written. A list whose reading raises an exception that is no `ValueError` (one
with a line break in the name of a topic) is not modelled: `_reader_loop` prints the exception
and reads on.
-/

namespace PyLogStream
open Lib

/-- How far a request has come. -/
inductive RequestPhase where
  /-- It is written, and `drain` has not returned. -/
  | draining
  | awaiting
  | returned (packet : ResponsePacket)
  | cancelled
  deriving DecidableEq, Repr

structure Request where
  packet : Packet
  phase : RequestPhase
  deriving DecidableEq, Repr

/-- The future of a request. -/
inductive ReadFuture where
  | pending
  | result (packet : ResponsePacket)
  | cancelled
  deriving DecidableEq, Repr

/-- Both ends of a connection and what is under way between them. A request is named by a
number, and so is its future. `hung` is a connection one of whose tasks has been told of a
loss: that task waits in a loop that does not suspend. `answered` are the commands that the
controller has answered and `unasked` the packets without a header that it has written; both
are histories. -/
structure RequestSystem where
  requests : Nat → Option Request
  futures : Nat → ReadFuture
  pendingReads : Dict String Nat
  up : List Packet
  down : List ResponsePacket
  /-- What `_handle_unsolicited_response` has been called with. -/
  unsolicited : List ResponsePacket
  hung : Bool
  answered : List (Packet × ResponsePacket)
  unasked : List ResponsePacket

inductive RequestEvent where
  /-- `register_topic`; the id is a new `uuid4`. -/
  | registerTopic (number : Nat) (correlationId topic : String)
  | requestMetadata (number : Nat) (correlationId topic : String)
  /-- Nobody waits for the response to an in-sync list or a ping. -/
  | updateIsr (topic : String) (isrList : List String)
  | ping (brokerId : String)
  | drained (number : Nat)
  | resume (number : Nat)
  | cancel (number : Nat)
  /-- The controller handles the next command; this is its response, if it sends one. -/
  | handle (response : Response)
  /-- The controller writes what nobody has asked for. -/
  | broadcast (response : Response)
  /-- The reader takes the next response. -/
  | read
  /-- A read or a write fails. -/
  | lost

/-- The controller answers every command but the change of an in-sync list. -/
def Command.isAnswered : Command → Bool
  | .isrChange _ _ => false
  | _ => true

namespace RequestSystem

/-- The state that `_start` leaves. -/
def start : RequestSystem :=
  { requests := fun _ => none
    futures := fun _ => .pending
    pendingReads := Dict.empty
    up := []
    down := []
    unsolicited := []
    hung := false
    answered := []
    unasked := [] }

def setPhase (s : RequestSystem) (number : Nat) (request : Request) (phase : RequestPhase) :
    RequestSystem :=
  { s with requests := Function.update s.requests number (some { request with phase }) }

def setFuture (s : RequestSystem) (number : Nat) (future : ReadFuture) : RequestSystem :=
  { s with futures := Function.update s.futures number future }

/-- `_send_command` up to its `drain`: the future is registered and the frame is written
without a suspension in between. A number that is taken names no new request. -/
def sendRequest (s : RequestSystem) (number : Nat) (correlationId : String) (command : Command) :
    RequestSystem :=
  match s.requests number with
  | some _ => s
  | none =>
    { s with
      requests := Function.update s.requests number
        (some ⟨⟨some correlationId, command⟩, .draining⟩)
      pendingReads := s.pendingReads.set correlationId number
      up := s.up ++ [⟨some correlationId, command⟩] }

/-- A command without a header. -/
def send (s : RequestSystem) (command : Command) : RequestSystem :=
  { s with up := s.up ++ [⟨none, command⟩] }

/-- A cancelled task that waits on its future cancels the future; one that waits for `drain`
leaves it pending. -/
def cancelRequest (s : RequestSystem) (number : Nat) (request : Request) : RequestSystem :=
  if request.phase = .awaiting ∧ s.futures number = .pending then
    (s.setFuture number .cancelled).setPhase number request .cancelled
  else s.setPhase number request .cancelled

def write (s : RequestSystem) (packet : ResponsePacket) : RequestSystem :=
  { s with
    down := s.down ++ [packet]
    unasked := if packet.header = none then s.unasked ++ [packet] else s.unasked }

/-- `handle_connection` with the next command. -/
def handleCommand (s : RequestSystem) (packet : Packet) (rest : List Packet)
    (response : Response) : RequestSystem :=
  if packet.command.isAnswered then
    { { s with up := rest }.write ⟨packet.header, response⟩ with
      answered := s.answered ++ [(packet, ⟨packet.header, response⟩)] }
  else { s with up := rest }

/-- `_handle_unsolicited_response`; a controller that does not lead ends the connection. -/
def handleUnsolicited (s : RequestSystem) (packet : ResponsePacket) : RequestSystem :=
  { s with
    unsolicited := s.unsolicited ++ [packet]
    hung := match packet.response with
      | .notLeaderController _ _ _ => true
      | _ => s.hung }

/-- One turn of `_reader_loop`. -/
def readResponse (s : RequestSystem) (packet : ResponsePacket) : RequestSystem :=
  match packet.header with
  | none => s.handleUnsolicited packet
  | some correlationId =>
    match s.pendingReads.get? correlationId with
    | none => s.handleUnsolicited packet
    | some number =>
      let s' := { s with pendingReads := s.pendingReads.erase correlationId }
      if s.futures number = .pending then s'.setFuture number (.result packet) else s'

def react (s : RequestSystem) : RequestEvent → RequestSystem
  | .registerTopic number correlationId topic =>
    s.sendRequest number correlationId (.registerTopic topic)
  | .requestMetadata number correlationId topic =>
    s.sendRequest number correlationId (.metadataRequest topic)
  | .updateIsr topic isrList => s.send (.isrChange topic isrList)
  | .ping brokerId => s.send (.controllerPing brokerId)
  | .drained number =>
    match s.requests number with
    | some ⟨packet, .draining⟩ => s.setPhase number ⟨packet, .draining⟩ .awaiting
    | _ => s
  | .resume number =>
    match s.requests number, s.futures number with
    | some ⟨packet, .awaiting⟩, .result response =>
      s.setPhase number ⟨packet, .awaiting⟩ (.returned response)
    | _, _ => s
  | .cancel number =>
    match s.requests number with
    | some ⟨packet, .draining⟩ => s.cancelRequest number ⟨packet, .draining⟩
    | some ⟨packet, .awaiting⟩ => s.cancelRequest number ⟨packet, .awaiting⟩
    | _ => s
  | .handle response =>
    match s.up with
    | [] => s
    | packet :: rest => s.handleCommand packet rest response
  | .broadcast response => s.write ⟨none, response⟩
  | .read =>
    match s.down with
    | [] => s
    | packet :: rest => { s with down := rest }.readResponse packet
  | .lost => { s with hung := true }

/-- Once a task hangs, the event loop of the broker gives no other task a turn. -/
def step (s : RequestSystem) (e : RequestEvent) : RequestSystem × Unit :=
  (if s.hung then s else s.react e, ())

/-- What a request has written. -/
def packetOf (s : RequestSystem) (number : Nat) : Option Packet :=
  (s.requests number).map Request.packet

/-- No request has this correlation id. -/
def Unused (s : RequestSystem) (correlationId : String) : Prop :=
  ∀ number packet, s.packetOf number = some packet → packet.header ≠ some correlationId

/-- The correlation id of a request is new. -/
def FreshId (s : RequestSystem) : RequestEvent → Prop
  | .registerTopic _ correlationId _ | .requestMetadata _ correlationId _ =>
    s.Unused correlationId
  | _ => True

/-- The ids of the requests and responses that are under way. -/
def inTransit (s : RequestSystem) : List String :=
  s.up.filterMap Packet.header ++ s.down.filterMap ResponsePacket.header

/-- Where the requests are, whatever their tasks do. Each id is under way or dealt with; an id
is pending exactly while it is under way. -/
structure Ledger (s : RequestSystem) : Prop where
  once : s.inTransit.Nodup
  pending : ∀ id, id ∈ s.inTransit ↔ ∃ number, s.pendingReads.get? id = some number
  owner : ∀ id number, s.pendingReads.get? id = some number →
    (∃ packet, s.packetOf number = some packet ∧ packet.header = some id) ∧
      ∀ response, s.futures number ≠ .result response
  named : ∀ number packet, s.packetOf number = some packet → ∃ id, packet.header = some id
  distinct : ∀ i j packet packet', s.packetOf i = some packet → s.packetOf j = some packet' →
    packet.header = packet'.header → i = j
  asked : ∀ packet ∈ s.up, packet.header ≠ none →
    packet.command.isAnswered = true ∧ ∃ number, s.packetOf number = some packet
  answer : ∀ response ∈ s.down, response.header ≠ none → ∃ number packet,
    s.packetOf number = some packet ∧ packet.header = response.header ∧
      (packet, response) ∈ s.answered
  result : ∀ number response, s.futures number = .result response → ∃ packet,
    s.packetOf number = some packet ∧ packet.header = response.header ∧
      (packet, response) ∈ s.answered
  order : s.unsolicited ++ s.down.filter (fun packet => packet.header = none) = s.unasked

/-- What a task has is what its future has; one that waits has a future that is done or
pending. -/
structure Tasks (s : RequestSystem) : Prop where
  untouched : ∀ number, s.requests number = none → s.futures number = .pending
  returned : ∀ number packet response, s.requests number = some ⟨packet, .returned response⟩ →
    s.futures number = .result response
  waits : ∀ number packet phase, s.requests number = some ⟨packet, phase⟩ →
    phase = .draining ∨ phase = .awaiting →
      (∃ response, s.futures number = .result response) ∨
        s.futures number = .pending ∧
          ∃ id, packet.header = some id ∧ s.pendingReads.get? id = some number

section
variable {s : RequestSystem}

theorem start_ledger : start.Ledger where
  once := List.nodup_nil
  pending := by simp [start, inTransit]
  owner := by simp [start]
  named := by simp [start, packetOf]
  distinct := by simp [start, packetOf]
  asked := by simp [start]
  answer := by simp [start]
  result := by simp [start]
  order := rfl

theorem start_tasks : start.Tasks where
  untouched := by simp [start]
  returned := by simp [start]
  waits := by simp [start]

/-- A step of a task moves no packet. -/
theorem Ledger.withTasks (h : s.Ledger) {requests : Nat → Option Request}
    {futures : Nat → ReadFuture} {hung : Bool}
    (hpacket : ∀ number, (requests number).map Request.packet = s.packetOf number)
    (hresult : ∀ number response, futures number = .result response →
      s.futures number = .result response) :
    Ledger { s with requests, futures, hung } := by
  have hsame : packetOf { s with requests, futures, hung } = s.packetOf := funext hpacket
  exact
    { once := h.once
      pending := h.pending
      owner := fun id number hget => by
        rw [hsame]
        exact ⟨(h.owner id number hget).1, fun response hfut =>
          (h.owner id number hget).2 response (hresult number response hfut)⟩
      named := hsame ▸ h.named
      distinct := hsame ▸ h.distinct
      asked := hsame ▸ h.asked
      answer := hsame ▸ h.answer
      result := fun number response hfut => hsame ▸ h.result number response (hresult _ _ hfut)
      order := h.order }

theorem packetOf_setPhase {number : Nat} {request : Request} {phase : RequestPhase}
    (hreq : s.requests number = some request) (i : Nat) :
    ((Function.update s.requests number (some { request with phase })) i).map Request.packet =
      s.packetOf i := by
  by_cases hi : i = number
  · subst hi
    simp [packetOf, hreq]
  · simp [packetOf, hi]

theorem Ledger.setPhase (h : s.Ledger) {number : Nat} {request : Request} {phase : RequestPhase}
    (hreq : s.requests number = some request) : (s.setPhase number request phase).Ledger :=
  h.withTasks (packetOf_setPhase hreq) fun _ _ hfut => hfut

theorem Ledger.cancelRequest (h : s.Ledger) {number : Nat} {request : Request}
    (hreq : s.requests number = some request) : (s.cancelRequest number request).Ledger := by
  unfold RequestSystem.cancelRequest
  split
  · refine h.withTasks (packetOf_setPhase hreq) fun i response hfut => ?_
    by_cases hi : i = number
    · simp [setFuture, hi] at hfut
    · simpa [setFuture, hi] using hfut
  · exact h.setPhase hreq

theorem Ledger.send (h : s.Ledger) (command : Command) : (s.send command).Ledger := by
  have htransit : (s.send command).inTransit = s.inTransit := by
    simp [inTransit, RequestSystem.send]
  exact
    { h with
      once := htransit ▸ h.once
      pending := htransit ▸ h.pending
      asked := fun packet hmem hheader => by
        obtain hold | hnew := List.mem_append.mp hmem
        · exact h.asked packet hold hheader
        · rw [List.mem_singleton.mp hnew] at hheader
          exact absurd rfl hheader }

theorem Ledger.sendRequest (h : s.Ledger) {number : Nat} {correlationId : String}
    {command : Command} (hanswered : command.isAnswered = true) (fresh : s.Unused correlationId) :
    (s.sendRequest number correlationId command).Ledger := by
  cases hreq : s.requests number with
  | some request => simpa [RequestSystem.sendRequest, hreq] using h
  | none =>
      have hnone : s.packetOf number = none := by simp [packetOf, hreq]
      have hold : ∀ {i packet}, s.packetOf i = some packet → i ≠ number := by
        rintro i packet hpacket rfl
        rw [hnone] at hpacket
        cases hpacket
      have hnew : correlationId ∉ s.inTransit := by
        intro hmem
        obtain ⟨i, hget⟩ := (h.pending correlationId).mp hmem
        obtain ⟨packet, hpacket, hheader⟩ := (h.owner correlationId i hget).1
        exact fresh i packet hpacket hheader
      have hpacket : ∀ i, (s.sendRequest number correlationId command).packetOf i =
          if i = number then some ⟨some correlationId, command⟩ else s.packetOf i := by
        intro i
        by_cases hi : i = number
        · simp [RequestSystem.sendRequest, hreq, packetOf, hi]
        · simp [RequestSystem.sendRequest, hreq, packetOf, hi]
      have hkeep : ∀ {i packet}, s.packetOf i = some packet →
          (s.sendRequest number correlationId command).packetOf i = some packet := by
        intro i packet hp
        rw [hpacket, if_neg (hold hp), hp]
      have htransit : (s.sendRequest number correlationId command).inTransit.Perm
          (correlationId :: s.inTransit) := by
        simp [RequestSystem.sendRequest, hreq, inTransit, List.perm_middle]
      have hget : ∀ id, (s.sendRequest number correlationId command).pendingReads.get? id =
          if id = correlationId then some number else s.pendingReads.get? id := by
        intro id
        simp [RequestSystem.sendRequest, hreq, Dict.get?_set]
      have hup : (s.sendRequest number correlationId command).up =
          s.up ++ [⟨some correlationId, command⟩] := by simp [RequestSystem.sendRequest, hreq]
      have hrest : (s.sendRequest number correlationId command).futures = s.futures ∧
          (s.sendRequest number correlationId command).down = s.down ∧
          (s.sendRequest number correlationId command).answered = s.answered ∧
          (s.sendRequest number correlationId command).unsolicited = s.unsolicited ∧
          (s.sendRequest number correlationId command).unasked = s.unasked := by
        simp [RequestSystem.sendRequest, hreq]
      obtain ⟨hfutures, hdown, hanswers, hunsolicited, hunasked⟩ := hrest
      exact
        { once := htransit.nodup_iff.mpr (List.nodup_cons.mpr ⟨hnew, h.once⟩)
          pending := fun id => by
            rw [htransit.mem_iff, List.mem_cons, h.pending id, hget id]
            by_cases hid : id = correlationId <;> simp [hid]
          owner := fun id i hgets => by
            rw [hget id] at hgets
            rw [hfutures]
            by_cases hid : id = correlationId
            · rw [if_pos hid, Option.some.injEq] at hgets
              subst hid hgets
              refine ⟨⟨_, by rw [hpacket, if_pos rfl], rfl⟩, fun response hfut => ?_⟩
              obtain ⟨packet, hp, -⟩ := h.result number response hfut
              exact hold hp rfl
            · rw [if_neg hid] at hgets
              obtain ⟨⟨packet, hp, hheader⟩, hfut⟩ := h.owner id i hgets
              exact ⟨⟨packet, hkeep hp, hheader⟩, hfut⟩
          named := fun i packet hp => by
            rw [hpacket] at hp
            by_cases hi : i = number
            · rw [if_pos hi, Option.some.injEq] at hp
              exact ⟨correlationId, hp ▸ rfl⟩
            · exact h.named i packet (by rwa [if_neg hi] at hp)
          distinct := fun i j packet packet' hp hp' heq => by
            rw [hpacket] at hp hp'
            by_cases hi : i = number
            · by_cases hj : j = number
              · rw [hi, hj]
              · rw [if_pos hi, Option.some.injEq] at hp
                rw [if_neg hj] at hp'
                subst hp
                exact absurd heq.symm (fresh j packet' hp')
            · by_cases hj : j = number
              · rw [if_neg hi] at hp
                rw [if_pos hj, Option.some.injEq] at hp'
                subst hp'
                exact absurd heq (fresh i packet hp)
              · exact h.distinct i j packet packet' (by rwa [if_neg hi] at hp)
                  (by rwa [if_neg hj] at hp') heq
          asked := fun packet hmem hheader => by
            rw [hup] at hmem
            obtain hmem | hmem := List.mem_append.mp hmem
            · obtain ⟨hans, i, hp⟩ := h.asked packet hmem hheader
              exact ⟨hans, i, hkeep hp⟩
            · rw [List.mem_singleton.mp hmem]
              exact ⟨hanswered, number, by rw [hpacket, if_pos rfl]⟩
          answer := fun response hmem hheader => by
            rw [hdown] at hmem
            rw [hanswers]
            obtain ⟨i, packet, hp, heq, hin⟩ := h.answer response hmem hheader
            exact ⟨i, packet, hkeep hp, heq, hin⟩
          result := fun i response hfut => by
            rw [hfutures] at hfut
            rw [hanswers]
            obtain ⟨packet, hp, heq, hin⟩ := h.result i response hfut
            exact ⟨packet, hkeep hp, heq, hin⟩
          order := by rw [hunsolicited, hdown, hunasked, h.order] }

theorem Ledger.write (h : s.Ledger) (response : Response) : (s.write ⟨none, response⟩).Ledger := by
  have htransit : (s.write ⟨none, response⟩).inTransit = s.inTransit := by
    simp [inTransit, RequestSystem.write]
  exact
    { h with
      once := htransit ▸ h.once
      pending := htransit ▸ h.pending
      answer := fun packet hmem hheader => by
        obtain hold | hnew := List.mem_append.mp hmem
        · exact h.answer packet hold hheader
        · rw [List.mem_singleton.mp hnew] at hheader
          exact absurd rfl hheader
      order := by simp [RequestSystem.write, ← h.order] }

/-- The controller answers the first command under the header that the command has. -/
theorem Ledger.handleCommand (h : s.Ledger) {packet : Packet} {rest : List Packet}
    (hup : s.up = packet :: rest) (response : Response) :
    (s.handleCommand packet rest response).Ledger := by
  have hasked : ∀ p ∈ rest, p.header ≠ none →
      p.command.isAnswered = true ∧ ∃ number, s.packetOf number = some p :=
    fun p hp => h.asked p (hup ▸ List.mem_cons_of_mem _ hp)
  unfold RequestSystem.handleCommand
  by_cases hanswered : packet.command.isAnswered = true
  · rw [if_pos hanswered]
    have htransit : List.Perm (rest.filterMap Packet.header ++
        (s.down ++ [ResponsePacket.mk packet.header response]).filterMap ResponsePacket.header)
        s.inTransit := by
      cases hheader : packet.header with
      | none => simp [inTransit, hup, hheader]
      | some id =>
          simp only [inTransit, hup, List.filterMap_append, List.filterMap_cons, hheader,
            List.filterMap_nil, ← List.append_assoc, List.cons_append]
          exact List.perm_append_singleton _ _
    exact
      { once := htransit.nodup_iff.mpr h.once
        pending := fun id => htransit.mem_iff.trans (h.pending id)
        owner := h.owner
        named := h.named
        distinct := h.distinct
        asked := hasked
        answer := fun p hmem hheader => by
          obtain hold | hnew := List.mem_append.mp hmem
          · obtain ⟨number, request, hp, heq, hin⟩ := h.answer p hold hheader
            exact ⟨number, request, hp, heq, List.mem_append_left _ hin⟩
          · rw [List.mem_singleton.mp hnew] at hheader ⊢
            obtain ⟨-, number, hp⟩ := h.asked packet (hup ▸ List.mem_cons_self) hheader
            exact ⟨number, packet, hp, rfl, List.mem_append_right _ (List.mem_singleton_self _)⟩
        result := fun number p hfut => by
          obtain ⟨request, hp, heq, hin⟩ := h.result number p hfut
          exact ⟨request, hp, heq, List.mem_append_left _ hin⟩
        order := by
          cases hheader : packet.header <;> simp [RequestSystem.write, ← h.order] }
  · rw [if_neg hanswered]
    have hheader : packet.header = none := by
      by_contra hsome
      exact hanswered (h.asked packet (hup ▸ List.mem_cons_self) hsome).1
    have htransit : { s with up := rest }.inTransit = s.inTransit := by
      simp [inTransit, hup, hheader]
    exact
      { h with
        once := by rw [htransit]; exact h.once
        pending := fun id => by rw [htransit]; exact h.pending id
        asked := hasked }

/-- A response leaves the line with the request that it belongs to. -/
theorem Ledger.deliver (h : s.Ledger) {packet : ResponsePacket} {rest : List ResponsePacket}
    (hdown : s.down = packet :: rest) {id : String} (hheader : packet.header = some id)
    {number : Nat} (hget : s.pendingReads.get? id = some number) {futures : Nat → ReadFuture}
    (hfut : ∀ i response, futures i = .result response →
      s.futures i = .result response ∨ i = number ∧ response = packet) :
    Ledger { s with down := rest, pendingReads := s.pendingReads.erase id, futures } := by
  have htransit : s.inTransit.Perm (id :: { s with down := rest }.inTransit) := by
    simp [inTransit, hdown, hheader, List.perm_middle]
  obtain ⟨hgone, hrest⟩ := List.nodup_cons.mp (htransit.nodup_iff.mp h.once)
  have hfirst : packet ∈ s.down := hdown ▸ List.mem_cons_self
  have hown : ∀ i request, s.packetOf i = some request → request.header = some id → i = number := by
    intro i request hp heq
    obtain ⟨⟨other, hp', heq'⟩, -⟩ := h.owner id number hget
    exact h.distinct i number request other hp hp' (heq.trans heq'.symm)
  exact
    { once := hrest
      pending := fun i => by
        have hall := (htransit.mem_iff (a := i)).symm.trans (h.pending i)
        rw [List.mem_cons] at hall
        rw [Dict.get?_erase]
        by_cases hi : i = id
        · subst hi
          exact iff_of_false hgone (by simp)
        · rw [if_neg hi, ← hall]
          exact (or_iff_right hi).symm
      owner := fun i n hi => by
        rw [Dict.get?_erase] at hi
        by_cases hid : i = id
        · rw [if_pos hid] at hi
          cases hi
        · rw [if_neg hid] at hi
          obtain ⟨⟨request, hp, heq⟩, hresult⟩ := h.owner i n hi
          refine ⟨⟨request, hp, heq⟩, fun response hr => ?_⟩
          obtain hold | ⟨rfl, -⟩ := hfut n response hr
          · exact hresult response hold
          · obtain ⟨⟨other, hp', heq'⟩, -⟩ := h.owner id n hget
            rw [hp] at hp'
            cases hp'
            exact hid (Option.some.inj (heq.symm.trans heq'))
      named := h.named
      distinct := h.distinct
      asked := h.asked
      answer := fun p hp => h.answer p (hdown ▸ List.mem_cons_of_mem _ hp)
      result := fun i response hr => by
        obtain hold | ⟨rfl, rfl⟩ := hfut i response hr
        · exact h.result i response hold
        · obtain ⟨j, request, hp, heq, hin⟩ := h.answer response hfirst (by simp [hheader])
          have hj := hown j request hp (heq.trans hheader)
          subst hj
          exact ⟨request, hp, heq, hin⟩
      order := by simp [← h.order, hdown, hheader] }

/-- The reader hands a response to the request of its id, and everything else on. -/
theorem Ledger.readResponse (h : s.Ledger) {packet : ResponsePacket} {rest : List ResponsePacket}
    (hdown : s.down = packet :: rest) : ({ s with down := rest }.readResponse packet).Ledger := by
  unfold RequestSystem.readResponse
  cases hheader : packet.header with
  | none =>
      have htransit : ({ s with down := rest }.handleUnsolicited packet).inTransit =
          s.inTransit := by simp [inTransit, handleUnsolicited, hdown, hheader]
      exact
        { h with
          once := by rw [htransit]; exact h.once
          pending := fun id => by rw [htransit]; exact h.pending id
          answer := fun p hp => h.answer p (hdown ▸ List.mem_cons_of_mem _ hp)
          order := by simp [handleUnsolicited, ← h.order, hdown, hheader] }
  | some id =>
      have hmem : id ∈ s.inTransit := by simp [inTransit, hdown, hheader]
      obtain ⟨number, hget⟩ := (h.pending id).mp hmem
      simp only [hget]
      split
      · refine h.deliver hdown hheader hget fun i response hr => ?_
        by_cases hi : i = number
        · subst hi
          simp only [Function.update_self, ReadFuture.result.injEq] at hr
          exact Or.inr ⟨rfl, hr.symm⟩
        · exact Or.inl (by simpa [setFuture, hi] using hr)
      · exact h.deliver hdown hheader hget fun i response hr => Or.inl hr

theorem Tasks.setPhase (h : s.Tasks) {number : Nat} {request : Request} {phase : RequestPhase}
    (hreq : s.requests number = some request)
    (hreturned : ∀ response, phase = .returned response → s.futures number = .result response)
    (hwaits : phase = .draining ∨ phase = .awaiting →
      request.phase = .draining ∨ request.phase = .awaiting) :
    (s.setPhase number request phase).Tasks where
  untouched := fun i hi => by
    by_cases heq : i = number
    · simp [RequestSystem.setPhase, heq] at hi
    · exact h.untouched i (by simpa [RequestSystem.setPhase, heq] using hi)
  returned := fun i packet response hi => by
    by_cases heq : i = number
    · subst heq
      simp only [RequestSystem.setPhase, Function.update_self, Option.some.injEq,
        Request.mk.injEq] at hi
      exact hreturned response hi.2
    · exact h.returned i packet response (by simpa [RequestSystem.setPhase, heq] using hi)
  waits := fun i packet phase' hi hphase => by
    by_cases heq : i = number
    · subst heq
      simp only [RequestSystem.setPhase, Function.update_self, Option.some.injEq,
        Request.mk.injEq] at hi
      obtain ⟨rfl, rfl⟩ := hi
      exact h.waits i request.packet request.phase hreq (hwaits hphase)
    · exact h.waits i packet phase' (by simpa [RequestSystem.setPhase, heq] using hi) hphase

theorem Tasks.cancelRequest (h : s.Tasks) {number : Nat} {request : Request}
    (hreq : s.requests number = some request) : (s.cancelRequest number request).Tasks := by
  unfold RequestSystem.cancelRequest
  split
  · have hother : ∀ {i}, i ≠ number →
        ((s.setFuture number .cancelled).setPhase number request .cancelled).requests i =
          s.requests i ∧
        ((s.setFuture number .cancelled).setPhase number request .cancelled).futures i =
          s.futures i := fun hi => by simp [RequestSystem.setPhase, setFuture, hi]
    have hself : ((s.setFuture number .cancelled).setPhase number request .cancelled).requests
        number = some ⟨request.packet, .cancelled⟩ := by simp [RequestSystem.setPhase]
    exact
      { untouched := fun i hi => by
          by_cases heq : i = number
          · rw [heq, hself] at hi
            cases hi
          · rw [(hother heq).1] at hi
            rw [(hother heq).2]
            exact h.untouched i hi
        returned := fun i packet response hi => by
          by_cases heq : i = number
          · rw [heq, hself] at hi
            cases hi
          · rw [(hother heq).1] at hi
            rw [(hother heq).2]
            exact h.returned i packet response hi
        waits := fun i packet phase hi hphase => by
          by_cases heq : i = number
          · rw [heq, hself] at hi
            cases hi
            simp at hphase
          · rw [(hother heq).1] at hi
            rw [(hother heq).2]
            exact h.waits i packet phase hi hphase }
  · exact h.setPhase hreq (by simp) (by simp)

theorem Tasks.sendRequest (h : s.Tasks) {number : Nat} {correlationId : String}
    {command : Command} (fresh : s.Unused correlationId) :
    (s.sendRequest number correlationId command).Tasks := by
  cases hreq : s.requests number with
  | some request => simpa [RequestSystem.sendRequest, hreq] using h
  | none =>
      simp only [RequestSystem.sendRequest, hreq]
      exact
        { untouched := fun i hi => by
            by_cases heq : i = number
            · simp [heq] at hi
            · exact h.untouched i (by simpa [heq] using hi)
          returned := fun i packet response hi => by
            by_cases heq : i = number
            · simp [heq] at hi
            · exact h.returned i packet response (by simpa [heq] using hi)
          waits := fun i packet phase hi hphase => by
            by_cases heq : i = number
            · subst heq
              simp only [Function.update_self, Option.some.injEq, Request.mk.injEq] at hi
              obtain ⟨rfl, rfl⟩ := hi
              exact Or.inr ⟨h.untouched i hreq, correlationId, rfl, Dict.get?_set_self ..⟩
            · have hold : s.requests i = some ⟨packet, phase⟩ := by simpa [heq] using hi
              obtain hdone | ⟨hpending, id, hheader, hget⟩ := h.waits i packet phase hold hphase
              · exact Or.inl hdone
              · have hne : id ≠ correlationId := by
                  rintro rfl
                  exact fresh i packet (by simp [packetOf, hold]) hheader
                exact Or.inr ⟨hpending, id, hheader, by rw [Dict.get?_set_of_ne _ _ hne, hget]⟩ }

theorem Tasks.deliver (h : s.Tasks) (packet : ResponsePacket) {rest : List ResponsePacket}
    {id : String} {number : Nat} (hget : s.pendingReads.get? id = some number)
    (hissued : s.requests number ≠ none) {futures : Nat → ReadFuture}
    (hother : ∀ i, i ≠ number → futures i = s.futures i)
    (hpending : s.futures number = .pending → futures number = .result packet)
    (hdone : s.futures number ≠ .pending → futures number = s.futures number) :
    Tasks { s with down := rest, pendingReads := s.pendingReads.erase id, futures } where
  untouched := fun i hi => by
    have hne : i ≠ number := by
      rintro rfl
      exact hissued hi
    exact (hother i hne).trans (h.untouched i hi)
  returned := fun i request response hi => by
    have hresult := h.returned i request response hi
    by_cases heq : i = number
    · subst heq
      exact (hdone (by simp [hresult])).trans hresult
    · exact (hother i heq).trans hresult
  waits := fun i request phase hi hphase => by
    obtain ⟨response, hresult⟩ | ⟨hwait, id', hheader, hget'⟩ := h.waits i request phase hi hphase
    · refine Or.inl ⟨response, ?_⟩
      by_cases heq : i = number
      · subst heq
        exact (hdone (by simp [hresult])).trans hresult
      · exact (hother i heq).trans hresult
    · by_cases heq : i = number
      · subst heq
        exact Or.inl ⟨packet, hpending hwait⟩
      · have hne : id' ≠ id := by
          rintro rfl
          rw [hget, Option.some.injEq] at hget'
          exact heq hget'.symm
        refine Or.inr ⟨(hother i heq).trans hwait, id', hheader, ?_⟩
        rw [Dict.get?_erase, if_neg hne, hget']

theorem Tasks.readResponse (h : s.Tasks) (ledger : s.Ledger) (packet : ResponsePacket)
    (rest : List ResponsePacket) : ({ s with down := rest }.readResponse packet).Tasks := by
  unfold RequestSystem.readResponse
  cases packet.header with
  | none => exact ⟨h.untouched, h.returned, h.waits⟩
  | some id =>
      simp only
      cases hget : s.pendingReads.get? id with
      | none => exact ⟨h.untouched, h.returned, h.waits⟩
      | some number =>
          have hissued : s.requests number ≠ none := by
            obtain ⟨⟨request, hpacket, -⟩, -⟩ := ledger.owner id number hget
            intro hnone
            simp [packetOf, hnone] at hpacket
          simp only
          split
          · next hwait =>
              exact h.deliver packet hget hissued (fun _ hi => Function.update_of_ne hi ..)
                (fun _ => Function.update_self ..) fun hdone => absurd hwait hdone
          · next hdone =>
              exact h.deliver packet hget hissued (fun _ _ => rfl)
                (fun hwait => absurd hwait hdone) fun _ => rfl

/-- One event keeps the ledger and what the tasks have. -/
theorem react_sound (ledger : s.Ledger) (tasks : s.Tasks) (e : RequestEvent) (fresh : s.FreshId e) :
    (s.react e).Ledger ∧ (s.react e).Tasks := by
  cases e with
  | registerTopic number correlationId topic =>
      exact ⟨ledger.sendRequest rfl fresh, tasks.sendRequest fresh⟩
  | requestMetadata number correlationId topic =>
      exact ⟨ledger.sendRequest rfl fresh, tasks.sendRequest fresh⟩
  | updateIsr | ping =>
      exact ⟨ledger.send _, ⟨tasks.untouched, tasks.returned, tasks.waits⟩⟩
  | drained number =>
      simp only [react]
      split
      · next packet hreq =>
          exact ⟨ledger.setPhase hreq, tasks.setPhase hreq (by simp) fun _ => Or.inl rfl⟩
      · exact ⟨ledger, tasks⟩
  | resume number =>
      simp only [react]
      split
      · next packet response hreq hfut =>
          refine ⟨ledger.setPhase hreq, tasks.setPhase hreq (fun response' heq => ?_) (by simp)⟩
          rw [hfut, RequestPhase.returned.inj heq]
      · exact ⟨ledger, tasks⟩
  | cancel number =>
      simp only [react]
      split
      · next packet hreq => exact ⟨ledger.cancelRequest hreq, tasks.cancelRequest hreq⟩
      · next packet hreq => exact ⟨ledger.cancelRequest hreq, tasks.cancelRequest hreq⟩
      · exact ⟨ledger, tasks⟩
  | handle response =>
      simp only [react]
      split
      · exact ⟨ledger, tasks⟩
      · next packet rest hup =>
          refine ⟨ledger.handleCommand hup response, ?_⟩
          unfold RequestSystem.handleCommand
          split <;> exact ⟨tasks.untouched, tasks.returned, tasks.waits⟩
  | broadcast response =>
      exact ⟨ledger.write response, ⟨tasks.untouched, tasks.returned, tasks.waits⟩⟩
  | read =>
      simp only [react]
      split
      · exact ⟨ledger, tasks⟩
      · next packet rest hdown =>
          exact ⟨ledger.readResponse hdown, tasks.readResponse ledger packet rest⟩
  | lost =>
      exact ⟨ledger.withTasks (fun _ => rfl) fun _ _ hfut => hfut,
        ⟨tasks.untouched, tasks.returned, tasks.waits⟩⟩

/-- Requests and responses belong together: a task returns the answer to its own request and
shares it with no other; what nobody has asked for is handed on in the order in which it was
written; and the request of a task that waits, or its answer, is still under way. -/
structure Matched (s : RequestSystem) : Prop where
  own : ∀ number packet response, s.requests number = some ⟨packet, .returned response⟩ →
    response.header = packet.header ∧ (packet, response) ∈ s.answered
  once : ∀ i j packet packet' response, s.requests i = some ⟨packet, .returned response⟩ →
    s.requests j = some ⟨packet', .returned response⟩ → i = j
  handedOn : s.unsolicited ++ s.down.filter (fun packet => packet.header = none) = s.unasked
  underWay : ∀ number packet, s.requests number = some ⟨packet, .awaiting⟩ →
    (∃ response, s.futures number = .result response) ∨ packet ∈ s.up ∨
      ∃ response ∈ s.down, response.header = packet.header

theorem Ledger.matched (ledger : s.Ledger) (tasks : s.Tasks) : s.Matched := by
  have hown : ∀ number packet response, s.requests number = some ⟨packet, .returned response⟩ →
      response.header = packet.header ∧ (packet, response) ∈ s.answered := by
    intro number packet response hreq
    obtain ⟨packet', hpacket, hheader, hin⟩ :=
      ledger.result number response (tasks.returned number packet response hreq)
    simp only [packetOf, hreq, Option.map_some, Option.some.injEq] at hpacket
    exact hpacket ▸ ⟨hheader.symm, hin⟩
  refine ⟨hown, fun i j packet packet' response hi hj => ?_, ledger.order,
    fun number packet hreq => ?_⟩
  · have hi' : s.packetOf i = some packet := by simp [packetOf, hi]
    have hj' : s.packetOf j = some packet' := by simp [packetOf, hj]
    exact ledger.distinct i j packet packet' hi' hj'
      ((hown i packet response hi).1.symm.trans (hown j packet' response hj).1)
  · obtain hdone | ⟨-, id, hheader, hget⟩ := tasks.waits number packet .awaiting hreq (Or.inr rfl)
    · exact Or.inl hdone
    · refine Or.inr ?_
      have hmem := (ledger.pending id).mpr ⟨number, hget⟩
      obtain hup | hdown := List.mem_append.mp hmem
      · obtain ⟨asked, hin, heq⟩ := List.mem_filterMap.mp hup
        obtain ⟨-, i, hpacket⟩ := ledger.asked asked hin (by simp [heq])
        have hself : s.packetOf number = some packet := by simp [packetOf, hreq]
        have hsame := ledger.distinct i number asked packet hpacket hself (heq.trans hheader.symm)
        subst hsame
        rw [hself, Option.some.injEq] at hpacket
        exact Or.inl (hpacket ▸ hin)
      · obtain ⟨response, hin, heq⟩ := List.mem_filterMap.mp hdown
        exact Or.inr ⟨response, hin, heq.trans hheader.symm⟩

end

/-- In every run in which the correlation ids are new, requests and responses are matched. -/
theorem requests_matched (events : List RequestEvent) (h : MeetsAll step FreshId start events) :
    (run step start events).Matched := by
  have hsound := h.invariant (fun s => s.Ledger ∧ s.Tasks) (fun s e inv fresh => by
    by_cases hhung : s.hung = true
    · simpa [step, hhung] using inv
    · simpa [step, hhung] using react_sound inv.1 inv.2 e fresh) ⟨start_ledger, start_tasks⟩
  exact hsound.1.matched hsound.2

/-- Two requests at once, with a list of metadata between their answers. -/
def twoRequests : List RequestEvent :=
  [.registerTopic 0 "u0" "t", .requestMetadata 1 "u1" "s", .drained 0, .drained 1,
    .handle (.error 500 "t"), .broadcast (.topicMetaDataList []), .handle (.error 404 "s"),
    .read, .read, .read, .resume 1, .resume 0]

theorem requests_matched_twoRequests :
    let s := run step start twoRequests
    s.requests 1 = some ⟨⟨some "u1", .metadataRequest "s"⟩, .returned ⟨some "u1", .error 404 "s"⟩⟩ ∧
      s.unsolicited = [⟨none, .topicMetaDataList []⟩] ∧ s.Matched := by
  refine ⟨by decide +kernel, by decide +kernel, requests_matched twoRequests ?_⟩
  refine ⟨fun number packet hpacket => by simp [start, packetOf] at hpacket, ?_⟩
  refine ⟨fun number packet hpacket => ?_, by simp [MeetsAll, FreshId]⟩
  by_cases hnumber : number = 0
  · subst hnumber
    have heq : packet = ⟨some "u0", .registerTopic "t"⟩ := Option.some.inj hpacket.symm
    simp [heq]
  · simp [step, react, RequestSystem.sendRequest, start, packetOf, hnumber] at hpacket

end RequestSystem
end PyLogStream
