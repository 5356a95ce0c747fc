import PyLogStream.Network.Broker
import PyLogStream.Protocol.Errors
import PyLogStream.Replication.Metadata

/-!
How the handler of a connection ends (`Broker.handle_client`). The cleanup stands behind
its loop: the entry of `_client_tasks` goes and the writer is closed when the loop is
left, and neither happens when an exception gets out of it. One turn of the loop is one
event, with the broker as the handler finds it and the outcome of what it waits for.
-/

namespace PyLogStream
open Lib

/-- What the read of the next frame comes to. -/
inductive Arrival where
  | frame (body : Bytes)
  | incomplete (atEof : Bool)
  | timeout
  | reset
  /-- Any other exception. -/
  | failed
  deriving DecidableEq, Repr

/-- How a call to the controller ends. -/
inductive ControllerAnswer where
  | returns (answer : Option ResponsePacket)
  | raises
  deriving DecidableEq, Repr

/-- How a submitted write ends, with the wait for the watermark where `acks` asks for it. -/
inductive WriteOutcome where
  | stored (offset : Int)
  | valueError
  | raises
  deriving DecidableEq, Repr

/-- What a turn of the loop finds. -/
structure HandlerTurn where
  /-- `self.running` at the head of the loop. -/
  running : Bool
  arrival : Arrival
  manager : ReplicaManager
  /-- The log by the time `_push_message` reads it. -/
  later : LogManager
  env : CallEnv
  uuid : String
  controller : Option ControllerAnswer
  write : WriteOutcome
  /-- Whether the connection takes what is sent. -/
  takes : Bool
  /-- Whether `wait_closed` returns. -/
  closes : Bool

/-- The way on after a turn. -/
inductive After where
  | goOn (clientId : Option String)
  | leave
  deriving DecidableEq, Repr

/-- What a turn comes to before a response is sent. -/
inductive Reaction where
  | silent (after : After)
  | respond (packet : ResponsePacket) (after : After)
  | raise
  deriving DecidableEq, Repr

def PullResponse.toResponse : PullResponse → Response
  | .message topic payload => .message topic payload
  | .file topic filePath offset length => .file topic filePath offset length
  | .error code text => .error code text

def ReplicaResponse.toResponse : ReplicaResponse → Response
  | .fetchBytes topic logEndOffset highWatermark payloadLength payload =>
    .replicaFetchBytes topic logEndOffset highWatermark payloadLength payload
  | .fetchFile topic logEndOffset highWatermark payloadLength filePath offset length =>
    .replicaFetchFile topic logEndOffset highWatermark payloadLength filePath offset length

namespace HandlerTurn
variable (t : HandlerTurn)

/-- A call to the controller, if there is one. -/
def askController (clientId : Option String) (failure : String) : Reaction :=
  match t.controller with
  | none => .respond ⟨none, .error 500 "Controller not connected"⟩ (.goOn clientId)
  | some .raises => .raise
  | some (.returns none) => .respond ⟨none, .error 500 failure⟩ (.goOn clientId)
  | some (.returns (some packet)) => .respond packet (.goOn clientId)

def replicaFetch (clientId : Option String) (cmd : ReplicaFetchCommand) : Reaction :=
  match (t.manager.handle t.env cmd).2 with
  | .error _ => .silent .leave
  | .ok response => .respond ⟨none, response.toResponse⟩ (.goOn clientId)

def pull (clientId : Option String) (cmd : PullCommand) : Reaction :=
  match ReplicaManager.getLeader t.manager.topics cmd.topic with
  | .error _ =>
    .respond ⟨none, .error 400 "Topic not found or not leader"⟩ (.goOn clientId)
  | .ok leader =>
    match Broker.checkPull leader t.manager.log cmd with
    | .error _ => .raise
    | .ok (_, _, some response) => .respond ⟨none, response.toResponse⟩ (.goOn clientId)
    | .ok (_, _, none) =>
      match (Broker.pushMessage t.later t.env cmd).2 with
      | .error _ => .raise
      | .ok response => .respond ⟨none, response.toResponse⟩ (.goOn clientId)

/-- The `ValueError` of `_handle_write` is not caught here. -/
def commitOffset (clientId : Option String) (topic : String) (offset acks : Int) : Reaction :=
  match ReplicaManager.getLeader t.manager.topics topic with
  | .error _ => .raise
  | .ok _ =>
    if acks = 0 then .silent (.goOn clientId)
    else
      match t.write with
      | .stored _ => .respond ⟨none, .offsetAck topic offset acks⟩ (.goOn clientId)
      | .valueError | .raises => .raise

def publish (clientId : Option String) (topic : String) (acks : Int) : Reaction :=
  match ReplicaManager.getLeader t.manager.topics topic with
  | .error _ =>
    .respond ⟨none, .error 400 "Topic not found or not leader"⟩ (.goOn clientId)
  | .ok _ =>
    if acks = 0 then .silent (.goOn clientId)
    else
      match t.write with
      | .stored offset => .respond ⟨none, .pubAck topic offset acks⟩ (.goOn clientId)
      | .valueError =>
        .respond ⟨none, .error 400 "Topic not found or not leader"⟩ (.goOn clientId)
      | .raises => .raise

/-- The branches of the handler. -/
def command (clientId : Option String) (cmd : Command) : Reaction :=
  match cmd, clientId with
  | .replicaFetch topic offset size replicaId, _ =>
    t.replicaFetch clientId ⟨topic, offset, size, replicaId⟩
  | .registerTopic _, _ => t.askController clientId "Failed to register topic"
  | .metadataRequest _, _ => t.askController clientId "Failed to get metadata"
  | .register, _ => .respond ⟨none, .clientId t.uuid⟩ (.goOn (some t.uuid))
  | .clientId id, _ => .silent (.goOn (some id))
  -- a client must register first
  | _, none => .silent .leave
  | .subscribe _, some _ => .silent (.goOn clientId)
  | .pull topic offset size, some _ => t.pull clientId ⟨topic, offset, size⟩
  | .fetchOffset topic, some _ => .respond ⟨none, .fetchOffset topic 0⟩ (.goOn clientId)
  | .commitOffset topic offset acks, some _ => t.commitOffset clientId topic offset acks
  | .publish topic _ acks _, some _ => t.publish clientId topic acks
  | .ping, some _ => .respond ⟨none, .ping⟩ (.goOn clientId)
  | _, some _ => .respond ⟨none, .error 403 "Unimplemented command"⟩ (.goOn clientId)

/-- A turn up to the response: the read, the parser and the command. -/
def react (checksumEnable : Bool) (clientId : Option String) : Reaction :=
  match t.arrival with
  | .incomplete true => .silent .leave
  | .incomplete false => .respond ⟨none, .error 408 "Request timeout"⟩ .leave
  | .timeout => .respond ⟨none, .error 408 "Request timeout"⟩ .leave
  | .reset => .silent .leave
  | .failed => .silent .leave
  | .frame body =>
    match parseCommand body checksumEnable with
    | .error (.checksumFailed _ _) => .respond ⟨none, .error 400 "Checksum failed"⟩ .leave
    | .error (.unknownCommand _) => .respond ⟨none, .error 400 "Unknown command"⟩ .leave
    | .error _ => .raise
    | .ok packet => t.command clientId packet.command

/-- `_send_response` returns: the response can be encoded and the connection takes it. -/
def sends (packet : ResponsePacket) : Bool := (encodeResponse packet).isOk && t.takes

end HandlerTurn

inductive HandlerStatus where
  /-- The socket's options are not set yet. -/
  | opening
  | serving
  | returned
  | raised
  | cancelled
  deriving DecidableEq, Repr

/-- The handler of one connection: its client, whether `_client_tasks` lists it and whether
it has closed its writer. -/
structure ClientHandler where
  clientId : Option String
  listed : Bool
  writerClosed : Bool
  status : HandlerStatus
  deriving DecidableEq, Repr

inductive HandlerEvent where
  /-- `setsockopt` on the new connection, which may raise. -/
  | setOptions (taken : Bool)
  | turn (t : HandlerTurn)
  | cancel

namespace ClientHandler

/-- The handler has put itself into `_client_tasks`. -/
def start : ClientHandler := ⟨none, true, false, .opening⟩

/-- The lines behind the loop. -/
def leave (s : ClientHandler) (closes : Bool) : ClientHandler :=
  { s with listed := false, writerClosed := true, status := if closes then .returned else .raised }

def follow (s : ClientHandler) (t : HandlerTurn) : After → ClientHandler
  | .goOn clientId => { s with clientId }
  | .leave => s.leave t.closes

/-- One turn of the loop. -/
def serve (checksumEnable : Bool) (s : ClientHandler) (t : HandlerTurn) : ClientHandler :=
  if t.running then
    match t.react checksumEnable s.clientId with
    | .silent after => s.follow t after
    | .respond packet after =>
      if t.sends packet then s.follow t after else { s with status := .raised }
    | .raise => { s with status := .raised }
  else s.leave t.closes

def step (checksumEnable : Bool) (s : ClientHandler) (e : HandlerEvent) : ClientHandler × Unit :=
  match s.status, e with
  | .opening, .setOptions taken => ({ s with status := if taken then .serving else .raised }, ())
  | .serving, .turn t => (s.serve checksumEnable t, ())
  | .serving, .cancel => ({ s with status := .cancelled }, ())
  | _, _ => (s, ())

/-- If the handler has ended other than by cancellation, it has cleaned up. -/
def Clean (s : ClientHandler) : Prop :=
  s.status = .returned ∨ s.status = .raised → s.listed = false ∧ s.writerClosed = true

instance (s : ClientHandler) : Decidable s.Clean :=
  inferInstanceAs (Decidable (_ → _))

end ClientHandler

/-- The exceptions of the parser that the handler answers. -/
def ParseError.Answered : ParseError → Prop
  | .checksumFailed _ _ | .unknownCommand _ => True
  | _ => False

namespace HandlerTurn
variable (t : HandlerTurn)

/-- The watermark can be read, and the log below it. -/
def PullReads (cmd : PullCommand) : Prop :=
  ∀ leader, ReplicaManager.getLeader t.manager.topics cmd.topic = .ok leader →
    ∃ marked highWatermark, leader.getHighWatermark t.manager.log = .ok (marked, highWatermark) ∧
      (cmd.offset < highWatermark →
        ∃ response, (Broker.pushMessage t.later t.env cmd).2 = .ok response)

/-- This broker leads the topic. -/
def Leads (topic : String) : Prop :=
  ∃ leader, ReplicaManager.getLeader t.manager.topics topic = .ok leader

/-- What the command does raises nothing, or only what its branch catches. -/
def CommandCaught (clientId : Option String) : Command → Prop
  | .registerTopic _ | .metadataRequest _ => t.controller ≠ some .raises
  | .pull topic offset size => clientId.isSome → t.PullReads ⟨topic, offset, size⟩
  | .commitOffset topic _ acks =>
    clientId.isSome → t.Leads topic ∧ (acks ≠ 0 → ∃ offset, t.write = .stored offset)
  | .publish topic _ acks _ => clientId.isSome → t.Leads topic → acks ≠ 0 → t.write ≠ .raises
  | _ => True

/-- The frame is a command or is answered with an error, and the command's errors are caught. -/
def FrameCaught (checksumEnable : Bool) (clientId : Option String) : Prop :=
  ∀ body, t.arrival = .frame body →
    match parseCommand body checksumEnable with
    | .error err => err.Answered
    | .ok packet => t.CommandCaught clientId packet.command

/-- Nothing gets out of the loop: no exception of the frame and none of the response. -/
structure Contained (checksumEnable : Bool) (clientId : Option String) : Prop where
  frame : t.FrameCaught checksumEnable clientId
  response : ∀ packet after, t.react checksumEnable clientId = .respond packet after →
    t.sends packet = true

variable {t}

theorem pull_ne_raise_iff {clientId : Option String} {cmd : PullCommand} :
    t.pull clientId cmd ≠ .raise ↔ t.PullReads cmd := by
  unfold pull PullReads
  cases hleader : ReplicaManager.getLeader t.manager.topics cmd.topic with
  | error err => simp
  | ok leader =>
      simp only [Except.ok.injEq, forall_eq', Broker.checkPull]
      cases hmark : leader.getHighWatermark t.manager.log with
      | error err => simp
      | ok mark =>
          obtain ⟨marked, highWatermark⟩ := mark
          simp only
          by_cases hbeyond : cmd.offset > highWatermark
          · rw [if_pos hbeyond]
            exact iff_of_true (by simp) ⟨marked, highWatermark, rfl, fun h => by omega⟩
          · rw [if_neg hbeyond]
            by_cases hend : cmd.offset = highWatermark
            · rw [if_pos hend]
              exact iff_of_true (by simp) ⟨marked, highWatermark, rfl, fun h => by omega⟩
            · rw [if_neg hend]
              have hbelow : cmd.offset < highWatermark := by omega
              cases hread : (Broker.pushMessage t.later t.env cmd).2 with
              | error err => simp [hbelow]
              | ok response => simp

theorem commitOffset_ne_raise_iff {clientId : Option String} {topic : String} {offset acks : Int} :
    t.commitOffset clientId topic offset acks ≠ .raise ↔
      t.Leads topic ∧ (acks ≠ 0 → ∃ stored, t.write = .stored stored) := by
  unfold commitOffset Leads
  cases ReplicaManager.getLeader t.manager.topics topic with
  | error err => simp
  | ok leader =>
      by_cases hacks : acks = 0
      · simp [hacks]
      · simp only [if_neg hacks]
        cases t.write <;> simp [hacks]

theorem publish_ne_raise_iff {clientId : Option String} {topic : String} {acks : Int} :
    t.publish clientId topic acks ≠ .raise ↔
      (t.Leads topic → acks ≠ 0 → t.write ≠ .raises) := by
  unfold publish Leads
  cases ReplicaManager.getLeader t.manager.topics topic with
  | error err => simp
  | ok leader =>
      by_cases hacks : acks = 0
      · simp [hacks]
      · simp only [if_neg hacks]
        cases t.write <;> simp [hacks]

theorem askController_ne_raise_iff {clientId : Option String} {failure : String} :
    t.askController clientId failure ≠ .raise ↔ t.controller ≠ some .raises := by
  unfold askController
  cases t.controller with
  | none => simp
  | some answer =>
      cases answer with
      | raises => simp
      | returns packet => cases packet <;> simp

/-- The fetch of a replica raises nothing: every exception of it ends the loop. -/
theorem replicaFetch_ne_raise {clientId : Option String} {cmd : ReplicaFetchCommand} :
    t.replicaFetch clientId cmd ≠ .raise := by
  unfold replicaFetch
  split <;> simp

theorem command_ne_raise_iff {clientId : Option String} {cmd : Command} :
    t.command clientId cmd ≠ .raise ↔ t.CommandCaught clientId cmd := by
  cases cmd with
  | replicaFetch topic offset size replicaId =>
      exact iff_of_true replicaFetch_ne_raise trivial
  | registerTopic | metadataRequest => exact askController_ne_raise_iff
  | register | clientId => exact iff_of_true (by simp [command]) trivial
  | pull topic offset size =>
      cases clientId with
      | none => simp [command, CommandCaught]
      | some id => simpa [command, CommandCaught] using pull_ne_raise_iff
  | commitOffset topic offset acks =>
      cases clientId with
      | none => simp [command, CommandCaught]
      | some id => simpa [command, CommandCaught] using commitOffset_ne_raise_iff
  | publish topic payload acks containsChecksum =>
      cases clientId with
      | none => simp [command, CommandCaught]
      | some id => simpa [command, CommandCaught] using publish_ne_raise_iff
  | _ => cases clientId <;> exact iff_of_true (by simp [command]) trivial

theorem react_ne_raise_iff {checksumEnable : Bool} {clientId : Option String} :
    t.react checksumEnable clientId ≠ .raise ↔ t.FrameCaught checksumEnable clientId := by
  unfold react FrameCaught
  cases t.arrival with
  | frame body =>
      simp only [Arrival.frame.injEq, forall_eq']
      cases parseCommand body checksumEnable with
      | error err => cases err <;> simp [ParseError.Answered]
      | ok packet => exact command_ne_raise_iff
  | incomplete atEof => cases atEof <;> simp
  | timeout | reset | failed => simp

end HandlerTurn

namespace ClientHandler
variable {checksumEnable : Bool} {s : ClientHandler}

/-- The handler is listed and its writer open as long as it runs. -/
def Open (s : ClientHandler) : Prop :=
  s.status = .opening ∨ s.status = .serving → s.listed = true ∧ s.writerClosed = false

/-- What keeps the exceptions of an event inside. -/
def Caught (checksumEnable : Bool) (s : ClientHandler) : HandlerEvent → Prop
  | .setOptions taken => s.status = .opening → taken = true
  | .turn t => s.status = .serving → t.running = true → t.Contained checksumEnable s.clientId
  | .cancel => True

theorem follow_clean (hserving : s.status = .serving) (t : HandlerTurn) (after : After) :
    (s.follow t after).Clean := by
  cases after with
  | goOn clientId => simp [follow, Clean, hserving]
  | leave => exact fun _ => ⟨rfl, rfl⟩

theorem follow_open (hopen : s.Open) (t : HandlerTurn) (after : After) :
    (s.follow t after).Open := by
  cases after with
  | goOn clientId => exact hopen
  | leave =>
      intro hstatus
      simp only [follow, leave] at hstatus
      by_cases hcloses : t.closes = true
      · simp [hcloses] at hstatus
      · simp [hcloses] at hstatus

/-- An exception leaves the entry and the open writer behind. -/
theorem raised_not_clean (hopen : s.Open) (h : s.status = .opening ∨ s.status = .serving) :
    ¬ ({ s with status := .raised } : ClientHandler).Clean := by
  intro hclean
  have hlisted := (hclean (Or.inr rfl)).1
  rw [(hopen h).1] at hlisted
  cases hlisted

theorem serve_clean_iff (hopen : s.Open) (hserving : s.status = .serving) (t : HandlerTurn) :
    (s.serve checksumEnable t).Clean ↔
      (t.running = true → t.Contained checksumEnable s.clientId) := by
  have hraised := raised_not_clean hopen (Or.inr hserving)
  unfold serve
  by_cases hrunning : t.running = true
  · rw [if_pos hrunning]
    have hreact := @HandlerTurn.react_ne_raise_iff t checksumEnable s.clientId
    cases hreaction : t.react checksumEnable s.clientId with
    | silent after =>
        rw [hreaction] at hreact
        exact iff_of_true (follow_clean hserving t after)
          fun _ => ⟨hreact.mp (by simp), by simp [hreaction]⟩
    | respond packet after =>
        rw [hreaction] at hreact
        simp only
        by_cases hsends : t.sends packet = true
        · rw [if_pos hsends]
          exact iff_of_true (follow_clean hserving t after)
            fun _ => ⟨hreact.mp (by simp), by simpa [hreaction] using hsends⟩
        · rw [if_neg hsends]
          exact iff_of_false hraised fun h => hsends ((h hrunning).response packet after hreaction)
    | raise =>
        rw [hreaction] at hreact
        exact iff_of_false hraised fun h => hreact.mpr (h hrunning).frame rfl
  · rw [if_neg hrunning]
    exact iff_of_true (fun _ => ⟨rfl, rfl⟩) fun h => absurd h hrunning

theorem serve_open (hopen : s.Open) (t : HandlerTurn) : (s.serve checksumEnable t).Open := by
  have hraised : ({ s with status := .raised } : ClientHandler).Open := by simp [Open]
  unfold serve
  split
  · cases t.react checksumEnable s.clientId with
    | silent after => exact follow_open hopen t after
    | respond packet after =>
        simp only
        split
        · exact follow_open hopen t after
        · exact hraised
    | raise => exact hraised
  · exact follow_open hopen t .leave

theorem step_open (hopen : s.Open) (e : HandlerEvent) : (s.step checksumEnable e).1.Open := by
  cases hstatus : s.status with
  | opening =>
      cases e with
      | setOptions taken =>
          simp only [step, hstatus]
          exact fun _ => hopen (Or.inl hstatus)
      | turn | cancel => simpa only [step, hstatus] using hopen
  | serving =>
      cases e with
      | turn t =>
          simp only [step, hstatus]
          exact serve_open hopen t
      | cancel => simp [step, hstatus, Open]
      | setOptions => simpa only [step, hstatus] using hopen
  | returned | raised | cancelled => simpa only [step, hstatus] using hopen

theorem step_clean_iff (hopen : s.Open) (hclean : s.Clean) (e : HandlerEvent) :
    (s.step checksumEnable e).1.Clean ↔ s.Caught checksumEnable e := by
  cases hstatus : s.status with
  | opening =>
      cases e with
      | setOptions taken =>
          simp only [step, hstatus, Caught, forall_true_left]
          cases taken with
          | true => exact iff_of_true (by simp [Clean]) rfl
          | false => exact iff_of_false (raised_not_clean hopen (Or.inl hstatus)) (by simp)
      | turn | cancel =>
          exact iff_of_true (by simpa only [step, hstatus] using hclean) (by simp [Caught, hstatus])
  | serving =>
      cases e with
      | turn t =>
          simp only [step, hstatus, Caught, forall_true_left]
          exact serve_clean_iff hopen hstatus t
      | cancel => exact iff_of_true (by simp [step, hstatus, Clean]) trivial
      | setOptions =>
          exact iff_of_true (by simpa only [step, hstatus] using hclean) (by simp [Caught, hstatus])
  | returned | raised | cancelled =>
      refine iff_of_true (by simpa only [step, hstatus] using hclean) ?_
      cases e <;> simp [Caught, hstatus]

end ClientHandler

/-- A turn that finds a broker without topics and takes this frame. -/
def frameTurn (body : String) : HandlerTurn :=
  ⟨true, .frame (encodeUtf8 body.toList), emptyManager, logAfter [], ⟨0, .succeed⟩, "u", none,
    .raises, true, true⟩

end PyLogStream
