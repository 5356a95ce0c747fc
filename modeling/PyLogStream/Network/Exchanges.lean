import PyLogStream.Network.DataTopics

/-!
What a client gets for its commands. The responses that a broker makes carry no correlation
id, and those that it relays carry the id of its own request to the controller: the client
can only count. Every handler takes a command when it is through with the last one, so the
responses come in the order of the commands. A write that asks for no
acknowledgement, a subscription and a client that gives its id are answered by nothing.
-/

namespace PyLogStream
open Lib

/-- No response goes with the command. -/
def Command.Silent : Command → Prop
  | .subscribe _ | .clientId _ => True
  | .publish _ _ acks _ | .commitOffset _ _ acks => acks = 0
  | _ => False

instance (cmd : Command) : Decidable cmd.Silent :=
  match cmd with
  | .subscribe _ | .clientId _ => isTrue trivial
  | .publish _ _ acks _ | .commitOffset _ _ acks => inferInstanceAs (Decidable (acks = 0))
  | .register | .fetchOffset _ | .pull _ _ _ | .ping | .replicaFetch _ _ _ _ | .registerTopic _
  | .metadataRequest _ | .brokerRegister _ _ _ | .controllerPing _ | .brokerMetadataList _
  | .isrChange _ _ => isFalse id

/-- Commands that only a controller carries out. -/
def Command.ForController : Command → Prop
  | .brokerRegister _ _ _ | .controllerPing _ | .brokerMetadataList _ | .isrChange _ _ => True
  | _ => False

def PullResponse.About (topic : String) : PullResponse → Prop
  | .message about _ | .file about _ _ _ => about = topic
  | .error code _ => code = 400

def ReplicaResponse.About (topic : String) : ReplicaResponse → Prop
  | .fetchBytes about _ _ _ _ | .fetchFile about _ _ _ _ _ _ => about = topic

/-- The response is one to the command: of its kind, about its topic and with its options,
or an error that the command can lead to. -/
def BrokerResponse.Answers (cmd : Command) : BrokerResponse → Prop
  | .clientId _ => cmd = .register
  | .ping => cmd = .ping
  | .fetchOffset topic offset => cmd = .fetchOffset topic ∧ offset = 0
  | .offsetAck topic offset acks => cmd = .commitOffset topic offset acks ∧ acks ≠ 0
  | .pubAck topic _ acks =>
    ∃ payload checksum, cmd = .publish topic payload acks checksum ∧ acks ≠ 0
  | .pull response => ∃ topic offset size, cmd = .pull topic offset size ∧ response.About topic
  | .replica response =>
    ∃ topic offset size replicaId, cmd = .replicaFetch topic offset size replicaId ∧
      response.About topic
  | .controller _ _ => ∃ topic, cmd = .registerTopic topic ∨ cmd = .metadataRequest topic
  | .error code _ =>
    (code = 400 ∧ ((∃ topic offset size, cmd = .pull topic offset size) ∨
      ∃ topic payload acks checksum, cmd = .publish topic payload acks checksum)) ∨
    (code = 500 ∧ ∃ topic, cmd = .registerTopic topic ∨ cmd = .metadataRequest topic) ∨
    (code = 403 ∧ cmd.ForController)

/-- The responses are those to the commands in order, with none for some silent ones. -/
inductive Paired : List Command → List BrokerResponse → Prop where
  | nil : Paired [] []
  | answered {commands : List Command} {responses : List BrokerResponse} {cmd : Command}
      {response : BrokerResponse} (before : Paired commands responses)
      (answers : response.Answers cmd) : Paired (commands ++ [cmd]) (responses ++ [response])
  | silent {commands : List Command} {responses : List BrokerResponse} {cmd : Command}
      (before : Paired commands responses) (silent : cmd.Silent) :
      Paired (commands ++ [cmd]) responses

/-- A broker and the commands that its handlers have taken, which are a history. -/
structure Exchange where
  broker : Broker
  taken : List (Nat × Command)

namespace Exchange

/-- The command that a handler takes in the event. -/
def takes (b : Broker) : BrokerEvent → Option (Nat × Command)
  | .command client cmd _ =>
    if b.writer.phase = .running ∧ (b.clients[client]?).map Client.phase = some .reading then
      some (client, cmd)
    else none
  | _ => none

def step (s : Exchange) (e : BrokerEvent) : Exchange × Unit :=
  (⟨s.broker.step e, s.taken ++ (takes s.broker e).toList⟩, ())

def commands (s : Exchange) (client : Nat) : List Command :=
  s.taken.filterMap fun entry => if entry.1 = client then some entry.2 else none

def responses (s : Exchange) (client : Nat) : List BrokerResponse :=
  s.broker.sent.filterMap fun entry => if entry.1 = client then some entry.2 else none

/-- What a suspended handler has in hand. -/
def InHand (cmd : Command) : ClientPhase → Prop
  | .relaying _ => ∃ topic, cmd = .registerTopic topic ∨ cmd = .metadataRequest topic
  | .pulling pull => cmd = .pull pull.topic pull.offset pull.size
  | .writing _ written _ | .waiting written =>
    written = cmd ∧ ∃ topic acks, Broker.writeOptions cmd = some (topic, acks) ∧ acks ≠ 0
  | .reading | .closed => False

/-- The client has an answer to every command that has one, but for the last if the handler
is at work on it or has ended over it. -/
def InStep (s : Exchange) (client : Nat) : Prop :=
  match (s.broker.clients[client]?).map Client.phase with
  | none => s.commands client = [] ∧ s.responses client = []
  | some phase =>
    (phase = .reading ∨ phase = .closed) ∧ Paired (s.commands client) (s.responses client) ∨
      ∃ earlier cmd, s.commands client = earlier ++ [cmd] ∧ Paired earlier (s.responses client) ∧
        (phase = .closed ∨ InHand cmd phase)

end Exchange

namespace Broker

/-- How a handler's turn on a command ends: with a response, with the command passed over,
with the end of the connection or with a suspension. -/
def TurnEnds (cmd : Command) : Option BrokerResponse → ClientPhase → Prop
  | some response, phase => response.Answers cmd ∧ phase = .reading
  | none, phase => phase = .reading ∧ cmd.Silent ∨ phase = .closed ∨ Exchange.InHand cmd phase

/-- The handler of one client sends something and goes into the phase; nothing happens to
the other clients. -/
structure Reacts (client : Nat) (response : Option BrokerResponse) (phase : ClientPhase)
    (b b' : Broker) : Prop where
  sent : b'.sent = b.sent ++ response.toList.map fun response => (client, response)
  phases : ∀ other : Nat, (b'.clients[other]?).map Client.phase =
    if other = client then (b.clients[other]?).map fun _ => phase
    else (b.clients[other]?).map Client.phase

/-- Nothing is sent, and every handler stays where it is. -/
structure SameClients (b b' : Broker) : Prop where
  sent : b'.sent = b.sent
  phases : ∀ other : Nat,
    (b'.clients[other]?).map Client.phase = (b.clients[other]?).map Client.phase

section
variable {b b' b'' : Broker} {client : Nat} {cmd : Command} {phase : ClientPhase}
  {response : Option BrokerResponse}

theorem SameClients.setLeader (topic : String) (leader : ReplicaLeader) :
    SameClients b (b.setLeader topic leader) := by
  simp only [Broker.setLeader]
  split <;> exact ⟨rfl, fun _ => rfl⟩

theorem SameClients.setClientId (client : Nat) (clientId : String) :
    SameClients b (b.setClientId client clientId) := by
  refine ⟨rfl, fun other => ?_⟩
  simp only [Broker.setClientId, List.getElem?_modify]
  cases b.clients[other]? with
  | none => simp
  | some c => by_cases heq : client = other <;> simp [heq]

theorem SameClients.reacts (same : SameClients b b') (h : Reacts client response phase b' b'') :
    Reacts client response phase b b'' := by
  refine ⟨by rw [h.sent, same.sent], fun other => ?_⟩
  have hmap : (b'.clients[other]?).map (fun _ => phase) =
      (b.clients[other]?).map fun _ => phase := by
    simpa [Function.comp_def] using congrArg (Option.map fun _ => phase) (same.phases other)
  rw [h.phases, same.phases, hmap]

/-- The handler stays in the phase it is in. -/
theorem Reacts.stays (h : (b.clients[client]?).map Client.phase = some phase) :
    Reacts client none phase b b := by
  refine ⟨by simp, fun other => ?_⟩
  split
  · next heq =>
      subst heq
      obtain ⟨c, hc, hphase⟩ := Option.map_eq_some_iff.mp h
      rw [hc, Option.map_some, Option.map_some, hphase]
  · rfl

theorem Reacts.setPhase (client : Nat) (phase : ClientPhase) :
    Reacts client none phase b (b.setPhase client phase) := by
  refine ⟨by simp [Broker.setPhase], fun other => ?_⟩
  simp only [Broker.setPhase, List.getElem?_modify]
  by_cases heq : client = other
  · subst heq
    cases b.clients[client]? <;> simp
  · rw [if_neg (Ne.symm heq)]
    cases b.clients[other]? <;> simp [heq]

theorem Reacts.answer (h : Reacts client none phase b b') (response : BrokerResponse) :
    Reacts client (some response) phase b (b'.answer client response) :=
  ⟨by simp [Broker.answer, h.sent], h.phases⟩

/-- A response and then the next command. -/
theorem Reacts.answered (response : BrokerResponse) :
    Reacts client (some response) .reading b ((b.answer client response).setPhase client .reading) :=
  ⟨by simp [Broker.setPhase, Broker.answer], (Reacts.setPhase client .reading).phases⟩

theorem Reacts.answer_reading (h : (b.clients[client]?).map Client.phase = some .reading)
    (response : BrokerResponse) :
    Reacts client (some response) .reading b (b.answer client response) :=
  (Reacts.stays h).answer response

/-- The turn of a handler on the command. -/
def Turn (client : Nat) (cmd : Command) (b b' : Broker) : Prop :=
  ∃ response phase, Reacts client response phase b b' ∧ TurnEnds cmd response phase

theorem SameClients.turn (same : SameClients b b') (h : Turn client cmd b' b'') :
    Turn client cmd b b'' := by
  obtain ⟨response, phase, reacts, ends⟩ := h
  exact ⟨response, phase, same.reacts reacts, ends⟩

theorem Turn.closes (client : Nat) (cmd : Command) : Turn client cmd b (b.setPhase client .closed) :=
  ⟨none, .closed, .setPhase client .closed, Or.inr (Or.inl rfl)⟩

theorem Turn.suspends {phase : ClientPhase} (inHand : Exchange.InHand cmd phase) :
    Turn client cmd b (b.setPhase client phase) :=
  ⟨none, phase, .setPhase client phase, Or.inr (Or.inr inHand)⟩

theorem Turn.replies (h : (b.clients[client]?).map Client.phase = some .reading)
    {response : BrokerResponse} (answers : response.Answers cmd) :
    Turn client cmd b (b.answer client response) :=
  ⟨some response, .reading, .answer_reading h response, answers, rfl⟩

theorem Turn.returns {response : BrokerResponse} (answers : response.Answers cmd) :
    Turn client cmd b ((b.answer client response).setPhase client .reading) :=
  ⟨some response, .reading, .answered response, answers, rfl⟩

theorem Turn.passes (h : (b.clients[client]?).map Client.phase = some .reading)
    (silent : cmd.Silent) : Turn client cmd b b :=
  ⟨none, .reading, .stays h, Or.inl ⟨rfl, silent⟩⟩

theorem checkPull_about {leader leader' : ReplicaLeader} {lm : LogManager} {pull : PullCommand}
    {hw : Int} {response : PullResponse}
    (h : checkPull leader lm pull = .ok (leader', hw, some response)) :
    response.About pull.topic := by
  simp only [checkPull] at h
  split at h
  · cases h
  · split at h
    · cases h
      rfl
    · split at h
      · cases h
        rfl
      · cases h

theorem pushMessage_about {lm lm' : LogManager} {env : CallEnv} {pull : PullCommand}
    {response : PullResponse} (h : pushMessage lm env pull = (lm', .ok response)) :
    response.About pull.topic := by
  simp only [pushMessage] at h
  split at h
  · split at h
    · cases h
    · cases h
      rfl
  · split at h
    · cases h
    · cases h
      rfl

theorem handle_about {leader leader' : ReplicaLeader} {lm lm' : LogManager} {env : CallEnv}
    {fetch : ReplicaFetchCommand} {response : ReplicaResponse}
    (h : leader.handle lm env fetch = (leader', lm', .ok response)) :
    response.About fetch.topic := by
  simp only [ReplicaLeader.handle] at h
  repeat' split at h
  all_goals cases h
  all_goals rfl

theorem handlePull_turn (hreading : (b.clients[client]?).map Client.phase = some .reading)
    (topic : String) (offset size : Int) :
    Turn client (.pull topic offset size) b (b.handlePull client ⟨topic, offset, size⟩) := by
  simp only [handlePull]
  split
  · exact .replies hreading (Or.inl ⟨rfl, Or.inl ⟨topic, offset, size, rfl⟩⟩)
  · split
    · exact .closes client _
    · next leader hw response hcheck =>
        have same : SameClients b (b.setLeader topic leader) := .setLeader topic leader
        refine same.turn (.replies ((same.phases client).trans hreading) ?_)
        exact ⟨topic, offset, size, rfl, checkPull_about hcheck⟩
    · next leader hw hcheck =>
        exact (SameClients.setLeader topic leader).turn (.suspends rfl)

theorem handleReplica_turn (hreading : (b.clients[client]?).map Client.phase = some .reading)
    (env : HandlerEnv) (topic : String) (offset size : Int) (replicaId : String) :
    Turn client (.replicaFetch topic offset size replicaId) b
      (b.handleReplica client env ⟨topic, offset, size, replicaId⟩) := by
  have hlog : ∀ log leader, SameClients b ((b.setLog log).setLeader topic leader) := by
    intro log leader
    have same : SameClients (b.setLog log) ((b.setLog log).setLeader topic leader) :=
      .setLeader topic leader
    exact ⟨same.sent, same.phases⟩
  simp only [handleReplica]
  split
  · exact .closes client _
  · split
    · next leader log err hhandle => exact (hlog log leader).turn (.closes client _)
    · next leader log response hhandle =>
        refine (hlog log leader).turn (.replies (((hlog log leader).phases client).trans hreading) ?_)
        exact ⟨topic, offset, size, replicaId, rfl, handle_about hhandle⟩

theorem handleWrite_turn (hreading : (b.clients[client]?).map Client.phase = some .reading)
    {clientId topic : String} {payload : Bytes} {acks : Int} {env : HandlerEnv}
    (hoptions : writeOptions cmd = some (topic, acks)) (hsilent : acks = 0 → cmd.Silent)
    {refused : Broker} (hrefused : Turn client cmd b refused) :
    Turn client cmd b ((b.handleWrite client clientId topic payload acks cmd env).getD refused) := by
  simp only [handleWrite]
  split
  · exact hrefused
  · next leader hleader =>
      simp only [Option.getD_some]
      have same : SameClients b { b with
          writer := b.writer.step (.submit clientId topic payload env.now (decide (acks ≠ 0)))
          origins := b.origins ++ [cmd] } := ⟨rfl, fun _ => rfl⟩
      split
      · next hzero => exact same.turn (.passes hreading (hsilent hzero))
      · next hacks => exact same.turn (.suspends ⟨rfl, topic, acks, hoptions, hacks⟩)

/-- A handler that has taken a command answers it, passes over it, ends or is suspended. -/
theorem handleCommand_turn (hreading : (b.clients[client]?).map Client.phase = some .reading)
    (clientId : Option String) (cmd : Command) (env : HandlerEnv) :
    Turn client cmd b (b.handleCommand client clientId cmd env) := by
  cases cmd with
  | replicaFetch topic offset size replicaId =>
      exact handleReplica_turn hreading env topic offset size replicaId
  | registerTopic topic =>
      simp only [handleCommand]
      split
      · exact .suspends ⟨topic, Or.inl rfl⟩
      · exact .replies hreading (Or.inr (Or.inl ⟨rfl, topic, Or.inl rfl⟩))
  | metadataRequest topic =>
      simp only [handleCommand]
      split
      · exact .suspends ⟨topic, Or.inr rfl⟩
      · exact .replies hreading (Or.inr (Or.inl ⟨rfl, topic, Or.inr rfl⟩))
  | register =>
      have same : SameClients b (b.setClientId client env.uuid) := .setClientId client env.uuid
      exact same.turn (.replies ((same.phases client).trans hreading) rfl)
  | clientId id =>
      have same : SameClients b (b.setClientId client id) := .setClientId client id
      exact same.turn (.passes ((same.phases client).trans hreading) trivial)
  | subscribe topic =>
      cases clientId with
      | none => exact .closes client _
      | some id => exact .passes hreading trivial
  | pull topic offset size =>
      cases clientId with
      | none => exact .closes client _
      | some id => exact handlePull_turn hreading topic offset size
  | fetchOffset topic =>
      cases clientId with
      | none => exact .closes client _
      | some id => exact .replies hreading ⟨rfl, rfl⟩
  | commitOffset topic offset acks =>
      cases clientId with
      | none => exact .closes client _
      | some id =>
          have hsilent : acks = 0 → (Command.commitOffset topic offset acks).Silent := fun h => h
          exact handleWrite_turn hreading rfl hsilent (.closes client _)
  | publish topic payload acks checksum =>
      cases clientId with
      | none => exact .closes client _
      | some id =>
          have hsilent : acks = 0 → (Command.publish topic payload acks checksum).Silent :=
            fun h => h
          refine handleWrite_turn hreading rfl hsilent (.replies hreading (Or.inl ⟨rfl, ?_⟩))
          exact Or.inr ⟨topic, payload, acks, checksum, rfl⟩
  | ping =>
      cases clientId with
      | none => exact .closes client _
      | some id => exact .replies hreading rfl
  | brokerRegister _ _ _ | controllerPing _ | brokerMetadataList _ | isrChange _ _ =>
      cases clientId with
      | none => exact .closes client _
      | some id => exact .replies hreading (Or.inr (Or.inr ⟨rfl, trivial⟩))

theorem acknowledge_turn {topic : String} {acks : Int}
    (hoptions : writeOptions cmd = some (topic, acks)) (hacks : acks ≠ 0) (offset : Int) :
    Turn client cmd b (b.acknowledge client cmd offset) := by
  cases cmd with
  | publish target payload acks' checksum =>
      cases hoptions
      exact .returns ⟨payload, checksum, rfl, hacks⟩
  | commitOffset target committed acks' =>
      cases hoptions
      exact .returns ⟨rfl, hacks⟩
  | _ => cases hoptions

/-- The handler of a write whose future has a result acknowledges it, waits or ends. -/
theorem written_turn {number : Nat} {written : Command} {generation : Nat}
    (hphase : (b.clients[client]?).map Client.phase = some (.writing number written generation))
    (inHand : Exchange.InHand cmd (.writing number written generation)) (offset : Int)
    (reached : Bool) : Turn client cmd b (b.written client number written generation offset reached) := by
  obtain ⟨rfl, topic, acks, hoptions, hacks⟩ := inHand
  have stays : Turn client written b b :=
    ⟨none, _, .stays hphase, Or.inr (Or.inr ⟨rfl, topic, acks, hoptions, hacks⟩)⟩
  have waits : Exchange.InHand written (.waiting written) := ⟨rfl, topic, acks, hoptions, hacks⟩
  simp only [Broker.written, hoptions]
  split
  · exact acknowledge_turn hoptions hacks offset
  · split
    · split
      · exact stays
      · split
        · exact .closes client _
        · next leader hwait =>
            exact (SameClients.setLeader topic leader).turn (acknowledge_turn hoptions hacks offset)
        · next leader hwait => exact (SameClients.setLeader topic leader).turn (.suspends waits)
    · split
      · exact acknowledge_turn hoptions hacks offset
      · exact .suspends waits

/-- A suspended handler goes on with the command it has in hand. -/
theorem resume_turn {phase : ClientPhase}
    (hphase : (b.clients[client]?).map Client.phase = some phase)
    (inHand : Exchange.InHand cmd phase) (env : HandlerEnv) (reached : Bool) :
    Turn client cmd b (b.resume client env reached) := by
  have stays : Turn client cmd b b := ⟨none, phase, .stays hphase, Or.inr (Or.inr inHand)⟩
  have hlog : ∀ log, SameClients b (b.setLog log) := fun log => ⟨rfl, fun _ => rfl⟩
  cases phase with
  | pulling pull =>
      simp only [Broker.resume, hphase]
      split
      · next log err hpush => exact (hlog log).turn (.closes client _)
      · next log response hpush =>
          refine (hlog log).turn (.returns ?_)
          exact ⟨pull.topic, pull.offset, pull.size, inHand, pushMessage_about hpush⟩
  | writing number written generation =>
      simp only [Broker.resume, hphase]
      split
      · exact written_turn hphase inHand _ reached
      · exact .closes client _
      · split
        · exact .closes client _
        · exact stays
  | reading | relaying _ | waiting _ | closed =>
      simp only [Broker.resume, hphase]
      exact stays

theorem relayed_turn {phase : ClientPhase}
    (hphase : (b.clients[client]?).map Client.phase = some phase)
    (inHand : Exchange.InHand cmd phase) (header : Option String)
    (response : Option ControllerResponse) :
    Turn client cmd b (b.relayed client header response) := by
  have stays : Turn client cmd b b := ⟨none, phase, .stays hphase, Or.inr (Or.inr inHand)⟩
  cases phase with
  | relaying failure =>
      simp only [Broker.relayed, hphase]
      cases response with
      | none => exact .returns (Or.inr (Or.inl ⟨rfl, inHand⟩))
      | some response => exact .returns inHand
  | reading | pulling _ | writing _ _ _ | waiting _ | closed =>
      simp only [Broker.relayed, hphase]
      exact stays

/-- A handler that has nothing in hand is not resumed. -/
theorem resume_idle
    (h : ∀ phase, (b.clients[client]?).map Client.phase = some phase →
      phase = .reading ∨ phase = .closed) (env : HandlerEnv) (reached : Bool) :
    b.resume client env reached = b := by
  cases hphase : (b.clients[client]?).map Client.phase with
  | none => simp only [Broker.resume, hphase]
  | some phase => rcases h phase hphase with rfl | rfl <;> simp only [Broker.resume, hphase]

theorem relayed_idle
    (h : ∀ phase, (b.clients[client]?).map Client.phase = some phase →
      phase = .reading ∨ phase = .closed) (header : Option String)
    (response : Option ControllerResponse) : b.relayed client header response = b := by
  cases hphase : (b.clients[client]?).map Client.phase with
  | none => simp only [Broker.relayed, hphase]
  | some phase => rcases h phase hphase with rfl | rfl <;> simp only [Broker.relayed, hphase]

theorem close_sent (b : Broker) : b.close.sent = b.sent := rfl

theorem close_phases (b : Broker) (client : Nat) :
    (b.close.clients[client]?).map Client.phase =
      (b.clients[client]?).map fun _ => ClientPhase.closed := by
  simp [Broker.close, Function.comp_def]

end
end Broker

namespace Exchange
section
variable {s s' : Exchange} {client : Nat} {cmd : Command}

theorem InStep.same (ok : s.InStep client) (hcommands : s'.commands client = s.commands client)
    (hresponses : s'.responses client = s.responses client)
    (hphase : (s'.broker.clients[client]?).map Client.phase =
      (s.broker.clients[client]?).map Client.phase) : s'.InStep client := by
  rw [InStep, hcommands, hresponses, hphase]
  exact ok

theorem responses_of_reacts {response : Option BrokerResponse} {phase : ClientPhase}
    (h : Broker.Reacts client response phase s.broker s'.broker) (other : Nat) :
    s'.responses other =
      s.responses other ++ if other = client then response.toList else [] := by
  rw [responses, responses, h.sent, List.filterMap_append]
  congr 1
  cases response with
  | none => simp
  | some response =>
      by_cases heq : client = other
      · simp [heq]
      · simp [heq, Ne.symm heq]

/-- A turn leaves the handler's own client in step, and the others where they were. -/
theorem InStep.turn (ok : ∀ other, s.InStep other)
    (turn : Broker.Turn client cmd s.broker s'.broker) {earlier : List Command}
    (hearlier : s'.commands client = earlier ++ [cmd])
    (paired : Paired earlier (s.responses client))
    (hexists : (s.broker.clients[client]?).map Client.phase ≠ none)
    (hothers : ∀ other, other ≠ client → s'.commands other = s.commands other) (other : Nat) :
    s'.InStep other := by
  obtain ⟨response, phase, reacts, ends⟩ := turn
  have hresponses := responses_of_reacts reacts other
  by_cases heq : other = client
  · subst heq
    rw [if_pos rfl] at hresponses
    have hphase : (s'.broker.clients[other]?).map Client.phase = some phase := by
      rw [reacts.phases, if_pos rfl]
      obtain ⟨phase', hphase'⟩ := Option.ne_none_iff_exists'.mp hexists
      obtain ⟨c, hc, -⟩ := Option.map_eq_some_iff.mp hphase'
      rw [hc, Option.map_some]
    rw [InStep, hphase, hearlier, hresponses]
    cases response with
    | some response =>
        obtain ⟨answers, rfl⟩ := ends
        exact Or.inl ⟨Or.inl rfl, .answered paired answers⟩
    | none =>
        rw [Option.toList_none, List.append_nil]
        rcases ends with ⟨rfl, silent⟩ | hrest
        · exact Or.inl ⟨Or.inl rfl, .silent paired silent⟩
        · exact Or.inr ⟨earlier, cmd, rfl, paired, hrest⟩
  · rw [if_neg heq, List.append_nil] at hresponses
    exact (ok other).same (hothers other heq) hresponses (by rw [reacts.phases, if_neg heq])

/-- What only the broker's own tasks do changes nothing for a client. -/
theorem InStep.quiet (ok : s.InStep client) {b : Broker}
    (same : Broker.SameClients s.broker b) : InStep ⟨b, s.taken⟩ client :=
  ok.same rfl (congrArg _ same.sent) (same.phases client)

/-- A handler with something in hand goes on. -/
theorem InStep.resumed (ok : ∀ other, s.InStep other) {b : Broker}
    (turn : ∀ cmd phase, (s.broker.clients[client]?).map Client.phase = some phase →
      InHand cmd phase → Broker.Turn client cmd s.broker b)
    (idle : (∀ phase, (s.broker.clients[client]?).map Client.phase = some phase →
      phase = .reading ∨ phase = .closed) → b = s.broker) (other : Nat) :
    InStep ⟨b, s.taken⟩ other := by
  have hok := ok client
  rw [InStep] at hok
  cases hphase : (s.broker.clients[client]?).map Client.phase with
  | none =>
      rw [idle fun phase h => by rw [hphase] at h; cases h]
      exact ok other
  | some phase =>
      have hidle : phase = .reading ∨ phase = .closed → InStep ⟨b, s.taken⟩ other := by
        intro hphases
        rw [idle fun phase' h => by rw [hphase] at h; cases h; exact hphases]
        exact ok other
      rw [hphase] at hok
      rcases hok with ⟨hphases, -⟩ | ⟨earlier, cmd, hcommands, paired, rfl | inHand⟩
      · exact hidle hphases
      · exact hidle (Or.inr rfl)
      · have hexists : (s.broker.clients[client]?).map Client.phase ≠ none := by
          rw [hphase]
          exact Option.some_ne_none phase
        have hturn : Broker.Turn client cmd s.broker (Exchange.mk b s.taken).broker :=
          turn cmd phase hphase inHand
        exact InStep.turn ok hturn hcommands paired hexists (fun _ _ => rfl) other

/-- A handler takes a command. -/
theorem InStep.taken (ok : ∀ other, s.InStep other) {b : Broker}
    (hreading : (s.broker.clients[client]?).map Client.phase = some .reading)
    (turn : Broker.Turn client cmd s.broker b) (other : Nat) :
    InStep ⟨b, s.taken ++ [(client, cmd)]⟩ other := by
  have hok := ok client
  rw [InStep, hreading] at hok
  have paired : Paired (s.commands client) (s.responses client) := by
    rcases hok with ⟨-, paired⟩ | ⟨earlier, cmd', -, -, hclosed | inHand⟩
    · exact paired
    · cases hclosed
    · exact absurd inHand id
  have hturn : Broker.Turn client cmd s.broker
      (Exchange.mk b (s.taken ++ [(client, cmd)])).broker := turn
  have hearlier : commands ⟨b, s.taken ++ [(client, cmd)]⟩ client = s.commands client ++ [cmd] := by
    simp [commands, List.filterMap_append]
  refine InStep.turn ok hturn hearlier paired ?_ (fun other hne => ?_) other
  · rw [hreading]
    exact Option.some_ne_none _
  · simp [commands, List.filterMap_append, Ne.symm hne]

theorem InStep.connects (ok : ∀ other, s.InStep other) (other : Nat) :
    InStep ⟨{ s.broker with clients := s.broker.clients ++ [⟨none, .reading⟩] }, s.taken⟩
      other := by
  have hok := ok other
  rcases Nat.lt_trichotomy other s.broker.clients.length with hlt | heq | hgt
  · exact hok.same rfl rfl (by rw [List.getElem?_append_left hlt])
  · have hnone : (s.broker.clients[other]?).map Client.phase = none := by simp [heq]
    rw [InStep, hnone] at hok
    have hphase : ((s.broker.clients ++ [⟨none, .reading⟩])[other]?).map Client.phase =
        some .reading := by simp [heq]
    rw [InStep, hphase]
    refine Or.inl ⟨Or.inl rfl, ?_⟩
    change Paired (s.commands other) (s.responses other)
    rw [hok.1, hok.2]
    exact .nil
  · refine hok.same rfl rfl ?_
    rw [List.getElem?_eq_none (by simp; omega), List.getElem?_eq_none (by omega)]

/-- A handler that ends leaves at most the command that it had in hand. -/
theorem InStep.closed (ok : s.InStep client) {b : Broker} (hsent : b.sent = s.broker.sent)
    (hphase : (b.clients[client]?).map Client.phase =
      (s.broker.clients[client]?).map fun _ => ClientPhase.closed) :
    InStep ⟨b, s.taken⟩ client := by
  have hresponses : responses ⟨b, s.taken⟩ client = s.responses client := congrArg _ hsent
  rw [InStep] at ok ⊢
  rw [hphase, hresponses, show commands ⟨b, s.taken⟩ client = s.commands client from rfl]
  cases hclient : s.broker.clients[client]? with
  | none =>
      rw [hclient] at ok
      exact ok
  | some c =>
      rw [hclient] at ok
      rcases ok with ⟨-, paired⟩ | ⟨earlier, cmd, hcommands, paired, -⟩
      · exact Or.inl ⟨Or.inr rfl, paired⟩
      · exact Or.inr ⟨earlier, cmd, hcommands, paired, Or.inl rfl⟩

theorem updateIsr_same (b : Broker) (topic : String) (now : Time) :
    Broker.SameClients b (b.updateIsr topic now) := by
  simp only [Broker.updateIsr]
  split
  · exact ⟨rfl, fun _ => rfl⟩
  · split
    · exact ⟨rfl, fun _ => rfl⟩
    · exact .setLeader topic _

theorem metadata_same (b : Broker) (metaData : TopicMetaDataResponse) :
    Broker.SameClients b (b.metadata metaData) := by
  simp only [Broker.metadata]
  split <;> exact ⟨rfl, fun _ => rfl⟩

theorem step_inStep (ok : ∀ client, s.InStep client) (e : BrokerEvent) (client : Nat) :
    (s.step e).1.InStep client := by
  have quiet : ∀ b, Broker.SameClients s.broker b → InStep ⟨b, s.taken ++ []⟩ client :=
    fun b same => by simpa using (ok client).quiet same
  have same : Broker.SameClients s.broker s.broker := ⟨rfl, fun _ => rfl⟩
  cases e with
  | writer event =>
      refine quiet _ ?_
      simp only [Broker.step]
      split
      · exact ⟨rfl, fun _ => rfl⟩
      · exact same
  | release handle => exact quiet _ ⟨rfl, fun _ => rfl⟩
  | cleanup => exact quiet _ ⟨rfl, fun _ => rfl⟩
  | connect =>
      simp only [step, takes, Broker.step, Option.toList_none, List.append_nil]
      split
      · exact (ok client).quiet same
      · exact InStep.connects ok client
  | command asking cmd env =>
      by_cases hrunning : s.broker.writer.phase = .running
      · cases hasking : s.broker.clients[asking]? with
        | none => simpa [step, takes, Broker.step, hrunning, hasking] using (ok client).quiet same
        | some c =>
            obtain ⟨clientId, phase⟩ := c
            cases phase with
            | reading =>
                have hreading : (s.broker.clients[asking]?).map Client.phase = some .reading := by
                  rw [hasking, Option.map_some]
                have hstep : (s.step (.command asking cmd env)).1 =
                    ⟨s.broker.handleCommand asking clientId cmd env, s.taken ++ [(asking, cmd)]⟩ := by
                  simp [step, takes, Broker.step, hrunning, hasking]
                rw [hstep]
                exact InStep.taken ok hreading (Broker.handleCommand_turn hreading clientId cmd env)
                  client
            | relaying _ | pulling _ | writing _ _ _ | waiting _ | closed =>
                simpa [step, takes, Broker.step, hrunning, hasking] using (ok client).quiet same
      · simpa [step, takes, Broker.step, hrunning] using (ok client).quiet same
  | relayed asking header response =>
      simp only [step, takes, Broker.step, Option.toList_none, List.append_nil]
      split
      · exact (ok client).quiet same
      · exact InStep.resumed ok
          (fun cmd phase hphase inHand => Broker.relayed_turn hphase inHand header response)
          (fun h => Broker.relayed_idle h header response) client
  | resume asking env reached =>
      simp only [step, takes, Broker.step, Option.toList_none, List.append_nil]
      split
      · exact (ok client).quiet same
      · exact InStep.resumed ok
          (fun cmd phase hphase inHand => Broker.resume_turn hphase inHand env reached)
          (fun h => Broker.resume_idle h env reached) client
  | leave leaving =>
      simp only [step, takes, Broker.step, Option.toList_none, List.append_nil]
      split
      · exact (ok client).quiet same
      · have reacts : Broker.Reacts leaving none .closed s.broker
            (s.broker.setPhase leaving .closed) := .setPhase leaving .closed
        by_cases heq : client = leaving
        · exact (ok client).closed rfl (by rw [reacts.phases, if_pos heq])
        · exact (ok client).same rfl rfl (by rw [reacts.phases, if_neg heq])
  | metadata metaData =>
      simp only [step, takes, Broker.step, Option.toList_none, List.append_nil]
      split
      · exact (ok client).quiet same
      · exact (ok client).quiet (metadata_same s.broker metaData)
  | updateIsr topic now =>
      simp only [step, takes, Broker.step, Option.toList_none, List.append_nil]
      split
      · exact (ok client).quiet same
      · exact (ok client).quiet (updateIsr_same s.broker topic now)
  | close =>
      simp only [step, takes, Broker.step, Option.toList_none, List.append_nil]
      split
      · exact (ok client).quiet same
      · exact (ok client).closed rfl (Broker.close_phases s.broker client)

end

/-- Whatever handlers, writer, workers and controller do and in whatever order: the
responses to a client are, in order, those to the commands that its handler has taken. A
command has none only if it is silent, or if it is the last one and its handler is at work
on it or has ended over it. -/
theorem responses_in_order (config : ReplicaConfig) (writerConfig : WriterConfig)
    (log : LogManager) (controller : Bool) (b : Broker)
    (hnew : Broker.new config writerConfig log controller = some b) (events : List BrokerEvent)
    (client : Nat) : (run step ⟨b, []⟩ events).InStep client := by
  have hempty : b.clients = [] ∧ b.sent = [] := by
    simp only [Broker.new] at hnew
    split at hnew
    · cases hnew
    · cases hnew
      exact ⟨rfl, rfl⟩
  refine run_keeps (fun s => ∀ client, InStep s client) (fun s e _ ok => step_inStep ok e)
    (fun client => ?_) client
  simp [InStep, hempty.1, commands, responses, hempty.2]

/-- A client registers, writes without and with an acknowledgement and pings in between. -/
def pipelined : List BrokerEvent :=
  Broker.opened ++ [.command 0 (.publish "t" [7] 0 false) Broker.someEnv,
    .command 0 .ping Broker.someEnv, .command 0 (.publish "t" [8] 1 false) Broker.someEnv]

theorem responses_in_order_pipelined :
    (run step ⟨Broker.single, []⟩ pipelined).commands 0 =
        [.register, .publish "t" [7] 0 false, .ping, .publish "t" [8] 1 false] ∧
      (run step ⟨Broker.single, []⟩ pipelined).responses 0 = [.clientId "c1", .ping] ∧
      (run step ⟨Broker.single, []⟩ pipelined).InStep 0 :=
  ⟨by decide +kernel, by decide +kernel,
    responses_in_order ⟨"b1", 1024, 1, 10000⟩ {} Writer.emptyLog false Broker.single rfl pipelined 0⟩

end Exchange
end PyLogStream
