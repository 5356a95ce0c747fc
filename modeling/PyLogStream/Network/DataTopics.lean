import PyLogStream.Log.Committed
import PyLogStream.Network.Broker
import PyLogStream.Network.Lines

/-!
What the log of a topic holds. Handlers reach the log of a topic only through the
writer, with the payload of a publish command or with the record that a committed
offset is turned into. A commit writes this record to the topic it is about, not to
the topic of the configuration for offsets, so the log holds what was published as
long as nobody commits an offset for the topic.
-/

namespace PyLogStream
open Lib

/-- The topic keeps its records. -/
def KeepsRecords (topic : String) (lm lm' : LogManager) : Prop :=
  TopicOk topic lm → TopicOk topic lm' ∧ lm'.payloads topic = lm.payloads topic

section
variable {topic : String} {lm : LogManager}

theorem KeepsRecords.refl : KeepsRecords topic lm lm := fun ok => ⟨ok, rfl⟩

theorem KeepsRecords.trans {lm' lm'' : LogManager} (h : KeepsRecords topic lm lm')
    (h' : KeepsRecords topic lm' lm'') : KeepsRecords topic lm lm'' := by
  intro ok
  obtain ⟨ok', heq⟩ := h ok
  obtain ⟨ok'', heq'⟩ := h' ok'
  exact ⟨ok'', heq'.trans heq⟩

theorem pushMessage_keeps (env : CallEnv) (cmd : PullCommand) :
    KeepsRecords topic lm (Broker.pushMessage lm env cmd).1 := by
  intro ok
  simp only [Broker.pushMessage]
  split
  · have h := readBytes_committed ok env cmd.topic cmd.offset cmd.size
    split
    · next heq => rwa [heq] at h
    · next heq => rwa [heq] at h
  · have h := read_committed ok env cmd.topic cmd.offset cmd.size
    split
    · next heq => rwa [heq] at h
    · next heq => rwa [heq] at h

theorem handle_keeps (leader : ReplicaLeader) (env : CallEnv) (cmd : ReplicaFetchCommand) :
    KeepsRecords topic lm (leader.handle lm env cmd).2.1 := by
  intro ok
  simp only [ReplicaLeader.handle]
  split
  · exact ⟨ok, rfl⟩
  · split
    · exact ⟨ok, rfl⟩
    · split
      · exact ⟨ok, rfl⟩
      · split
        · have h := readBytes_committed ok env cmd.topic cmd.offset cmd.size
          split
          · next heq => rwa [heq] at h
          · next heq => rwa [heq] at h
        · have h := read_committed ok env cmd.topic cmd.offset cmd.size
          split
          · next heq => rwa [heq] at h
          · next res heq =>
              rw [heq] at h
              obtain ⟨ok', heq'⟩ := h.1.released res.handle
              exact ⟨ok', heq'.trans h.2⟩

end

namespace ReplicaManager

/-- Metadata that makes the manager replace the state of its topic. -/
def Installs (m : ReplicaManager) (metaData : TopicMetaDataResponse) : Prop :=
  m.config.id ∈ metaData.replicaList ∧ ∀ old ∈ m.topics.get? metaData.topic,
    old.version < metaData.version ∧ ¬ (TopicState.ofMeta m.config.id metaData).CompareMeta old

instance (m : ReplicaManager) (metaData : TopicMetaDataResponse) :
    Decidable (m.Installs metaData) :=
  inferInstanceAs (Decidable (_ ∧ _))

theorem startTopic_log (config : ReplicaConfig) (log : LogManager) (state : TopicState) :
    (startTopic config log state).1 = (log.createTopic state.topic).1 := by
  simp only [startTopic]
  split
  · next heq => rw [heq]
  · next heq =>
      rw [heq]
      split
      · split
        · rfl
        · rfl
      · split
        · rfl
        · rfl

theorem install_log (m : ReplicaManager) (state : TopicState) (closed : Option TopicState) :
    (m.install state closed).1.log = (m.log.createTopic state.topic).1 := by
  have h := startTopic_log m.config m.log state
  simp only [install]
  split
  · next heq => rwa [heq] at h
  · next heq => rwa [heq] at h

/-- Metadata reaches the log only to create a topic that is installed. -/
theorem applyMetadata_log (m : ReplicaManager) (metaData : TopicMetaDataResponse) :
    (m.applyMetadata metaData).1.log = m.log ∨ m.Installs metaData ∧
      (m.applyMetadata metaData).1.log = (m.log.createTopic metaData.topic).1 := by
  simp only [applyMetadata]
  split
  · refine Or.inl ?_
    simp only [removeTopic]
    split
    · rfl
    · rfl
  · next hid =>
      have hmem : m.config.id ∈ metaData.replicaList := not_not.mp hid
      split
      · next hnone =>
          refine Or.inr ⟨⟨hmem, ?_⟩, install_log m _ none⟩
          intro old hold
          rw [TopicState.ofMeta] at hnone
          rw [hnone] at hold
          cases hold
      · next old hold =>
          split
          · exact Or.inl rfl
          · next hnewer =>
              split
              · exact Or.inl rfl
              · next hchanged =>
                  refine Or.inr ⟨⟨hmem, ?_⟩, install_log m _ _⟩
                  intro old' hold'
                  rw [TopicState.ofMeta] at hold
                  rw [hold] at hold'
                  cases hold'
                  exact ⟨not_le.mp hnewer, hchanged⟩

theorem applyMetadata_keeps {topic : String} (m : ReplicaManager)
    (metaData : TopicMetaDataResponse)
    (clear : m.Installs metaData → ClearFor topic m.log (.createTopic metaData.topic)) :
    KeepsRecords topic m.log (m.applyMetadata metaData).1.log := by
  intro ok
  cases applyMetadata_log m metaData with
  | inl hsame =>
      rw [hsame]
      exact ⟨ok, rfl⟩
  | inr hcreate =>
      rw [hcreate.2]
      refine ok.createTopic (clear hcreate.1) ?_
      intro hget
      simp [LogManager.opened, hget]

end ReplicaManager

namespace Broker

/-- The payload of a publish command that is addressed to a topic. -/
def publishedTo (topic : String) : Command → Option Bytes
  | .publish target payload _ _ => if target = topic then some payload else none
  | _ => none

/-- The payloads of the publish commands to a topic that the broker has appended. -/
def published (b : Broker) (topic : String) : List Bytes :=
  b.writer.appended.filterMap fun p => (b.origins[p.1.number]?).bind (publishedTo topic)

/-- The records of the topic are what was published to it. -/
def HoldsPublished (b : Broker) (topic : String) : Prop :=
  b.writer.log.payloads topic = b.published topic

instance (b : Broker) (topic : String) : Decidable (b.HoldsPublished topic) :=
  inferInstanceAs (Decidable (_ = _))

/-- The call of the log with which an event may open a segment. -/
def opening (b : Broker) : BrokerEvent → Option LogOp
  | .writer (.write worker env) =>
    match b.writer.workers[worker]? with
    | some ⟨topic, req :: _, _⟩ => some (.append topic env req.data)
    | _ => none
  | .metadata metaData =>
    if ReplicaManager.Installs ⟨b.config, b.topics, b.writer.log⟩ metaData then
      some (.createTopic metaData.topic)
    else none
  | _ => none

/-- The topic for which a registered client commits an offset, if the broker leads it. -/
def commitTopic (b : Broker) : BrokerEvent → Option String
  | .command client (.commitOffset topic _ _) _ =>
    match b.clients[client]?, ReplicaManager.getLeader b.topics topic with
    | some ⟨some _, .reading⟩, .ok _ => some topic
    | _, _ => none
  | _ => none

/-- Nobody commits an offset for the topic, and no segment of another topic comes to
have the key or the file of one of its segments. -/
def OnlyPublishes (topic : String) (b : Broker) (e : BrokerEvent) : Prop :=
  b.commitTopic e ≠ some topic ∧ ∀ op ∈ b.opening e, ClearFor topic b.writer.log op

instance (topic : String) (b : Broker) (e : BrokerEvent) : Decidable (OnlyPublishes topic b e) :=
  inferInstanceAs (Decidable (_ ∧ _))

/-- What a request adds to a topic. -/
def addressedTo (topic : String) (req : WriteRequest) : Option Bytes :=
  if req.topic = topic then some req.data else none

/-- The requests of the topic come from publish commands, and its records from requests. -/
structure Published (topic : String) (b : Broker) : Prop where
  tidy : b.writer.Tidy
  records : TopicOk topic b.writer.log
  traced : b.origins.map (publishedTo topic) = b.writer.submitted.map (addressedTo topic)
  payloads : b.writer.log.payloads topic =
    b.writer.appended.filterMap fun p => addressedTo topic p.1

theorem Published.holds {topic : String} {b : Broker} (ok : Published topic b) :
    b.HoldsPublished topic := by
  refine ok.payloads.trans (List.filterMap_congr ?_)
  intro p hp
  obtain ⟨i, hi⟩ := List.getElem?_of_mem (ok.tidy.recorded p hp)
  have horigin : (b.origins.map (publishedTo topic))[i]? = some (addressedTo topic p.1) := by
    rw [ok.traced, List.getElem?_map, hi]
    rfl
  rw [List.getElem?_map] at horigin
  obtain ⟨cmd, hcmd, hpublished⟩ := Option.map_eq_some_iff.mp horigin
  rw [ok.tidy.numbered i p.1 hi, hcmd]
  exact hpublished.symm

/-- A step of the writer that neither takes a request nor writes one. -/
structure Quiet (topic : String) (w w' : Writer) : Prop where
  submitted : w'.submitted = w.submitted
  appended : w'.appended = w.appended
  tidy : w.Tidy → w'.Tidy
  records : KeepsRecords topic w.log w'.log

theorem Quiet.refl {topic : String} (w : Writer) : Quiet topic w w :=
  ⟨rfl, rfl, id, KeepsRecords.refl⟩

theorem Quiet.trans {topic : String} {w w' w'' : Writer} (h : Quiet topic w w')
    (h' : Quiet topic w' w'') : Quiet topic w w'' :=
  ⟨h'.submitted.trans h.submitted, h'.appended.trans h.appended, h'.tidy ∘ h.tidy,
    h.records.trans h'.records⟩

theorem Quiet.of_log {topic : String} (w : Writer) {log : LogManager}
    (h : KeepsRecords topic w.log log) : Quiet topic w { w with log := log } :=
  ⟨rfl, rfl, fun tidy => tidy.change (.keeps rfl rfl fun _ => rfl), h⟩

/-- What a step does to the writer and to the commands behind its requests. -/
inductive Effect (topic : String) (b b' : Broker) : Prop where
  | quiet (writer : Quiet topic b.writer b'.writer) (origins : b'.origins = b.origins)
  | submits (req : WriteRequest) (cmd : Command) (number : req.number = b.writer.submitted.length)
      (writer : b'.writer = b.writer.submit req) (origins : b'.origins = b.origins ++ [cmd])
      (source : publishedTo topic cmd = addressedTo topic req)
  | writes (worker : Nat) (env : CallEnv) (writer : b'.writer = b.writer.write worker env)
      (origins : b'.origins = b.origins)
      (clear : ∀ job req rest, b.writer.workers[worker]? = some job → job.batch = req :: rest →
        ClearFor topic b.writer.log (.append job.topic env req.data))

section
variable {topic : String} {b b' : Broker}

theorem Published.writes (ok : Published topic b) {worker : Nat} {env : CallEnv}
    (writer : b'.writer = b.writer.write worker env) (origins : b'.origins = b.origins)
    (clear : ∀ job req rest, b.writer.workers[worker]? = some job → job.batch = req :: rest →
      ClearFor topic b.writer.log (.append job.topic env req.data)) : Published topic b' := by
  have tidy := ok.tidy.change (Writer.write_change b.writer worker env)
  have hcase := Writer.writeCase b.writer worker env
  rw [← writer] at tidy hcase
  cases b' with
  | mk config w topics generation controller clients origins' sent =>
      simp only at tidy hcase origins
      subst origins
      cases hcase with
      | idle => exact ⟨tidy, ok.records, ok.traced, ok.payloads⟩
      | fails job req rest hjob hbatch herr =>
          obtain ⟨err, herr⟩ := herr
          obtain ⟨records, hpayloads⟩ := append_committed ok.records (clear job req rest hjob hbatch)
          rw [herr] at hpayloads
          refine ⟨tidy, records, ok.traced, ?_⟩
          exact (hpayloads.trans (List.append_nil _)).trans ok.payloads
      | writes job req rest offset hjob hbatch hok =>
          obtain ⟨records, hpayloads⟩ := append_committed ok.records (clear job req rest hjob hbatch)
          have htopic : req.topic = job.topic := by
            refine (ok.tidy.known job.topic req ?_).1
            obtain ⟨pre, post, hline, -, -⟩ := Writer.line_worker hjob job.topic
            simp [hline, FlushJob.pending, hbatch]
          rw [hok, ok.payloads] at hpayloads
          refine ⟨tidy, records, ok.traced, hpayloads.trans ?_⟩
          simp only [List.filterMap_append, addedTo, addressedTo]
          split
          · next heq => simp [heq, htopic]
          · next hne => simp [hne, htopic]

/-- One step keeps the invariant. -/
theorem Published.effect (ok : Published topic b) (effect : Effect topic b b') :
    Published topic b' := by
  cases effect with
  | quiet writer origins =>
      obtain ⟨records, hpayloads⟩ := writer.records ok.records
      refine ⟨writer.tidy ok.tidy, records, ?_, ?_⟩
      · rw [origins, writer.submitted, ok.traced]
      · rw [hpayloads, writer.appended, ok.payloads]
  | submits req cmd number writer origins source =>
      have change : Writer.Change b.writer (b.writer.submit req) :=
        .submits req number rfl rfl fun t => Writer.submit_line b.writer t req
      refine ⟨writer ▸ ok.tidy.change change, ?_, ?_, ?_⟩
      · rw [writer]
        exact ok.records
      · rw [writer, origins]
        simp only [Writer.submit, List.map_append, List.map_cons, List.map_nil, ok.traced, source]
      · rw [writer]
        exact ok.payloads
  | writes worker env writer origins clear => exact ok.writes writer origins clear

section Same
variable (b)

theorem setLeader_writer (topic : String) (leader : ReplicaLeader) :
    (b.setLeader topic leader).writer = b.writer ∧
      (b.setLeader topic leader).origins = b.origins := by
  simp only [setLeader]
  split
  · exact ⟨rfl, rfl⟩
  · exact ⟨rfl, rfl⟩

theorem acknowledge_writer (client : Nat) (cmd : Command) (offset : Int) :
    (b.acknowledge client cmd offset).writer = b.writer ∧
      (b.acknowledge client cmd offset).origins = b.origins := by
  simp only [acknowledge]
  split
  · exact ⟨rfl, rfl⟩
  · exact ⟨rfl, rfl⟩

end Same

/-- A step that touches neither the writer nor the log. -/
theorem Effect.same (writer : b'.writer = b.writer ∧ b'.origins = b.origins) :
    Effect topic b b' := by
  refine .quiet ?_ writer.2
  rw [writer.1]
  exact Quiet.refl b.writer

/-- A step that only calls the log. -/
theorem Effect.log {log : LogManager} (keeps : KeepsRecords topic b.writer.log log)
    (writer : b'.writer = { b.writer with log := log } ∧ b'.origins = b.origins) :
    Effect topic b b' := by
  refine .quiet ?_ writer.2
  rw [writer.1]
  exact Quiet.of_log b.writer keeps

theorem handlePull_effect (client : Nat) (cmd : PullCommand) :
    Effect topic b (b.handlePull client cmd) := by
  refine .same ?_
  simp only [handlePull]
  split
  · exact ⟨rfl, rfl⟩
  · split
    · exact ⟨rfl, rfl⟩
    · exact setLeader_writer b _ _
    · exact setLeader_writer b _ _

theorem handleReplica_effect (client : Nat) (env : HandlerEnv) (cmd : ReplicaFetchCommand) :
    Effect topic b (b.handleReplica client env cmd) := by
  simp only [handleReplica]
  split
  · exact .same ⟨rfl, rfl⟩
  · next leader hleader =>
      have keeps : KeepsRecords topic b.writer.log
        (leader.handle b.writer.log ⟨env.now, env.ops⟩ cmd).2.1 := handle_keeps leader _ cmd
      split
      · next heq =>
          rw [heq] at keeps
          exact .log keeps (setLeader_writer (b.setLog _) _ _)
      · next heq =>
          rw [heq] at keeps
          exact .log keeps (setLeader_writer (b.setLog _) _ _)

/-- A write reaches the writer as a request of its topic. -/
theorem handleWrite_effect (hrunning : b.writer.phase = .running) (client : Nat)
    (clientId target : String) (payload : Bytes) (acks : Int) (cmd : Command) (env : HandlerEnv)
    (source : (∃ leader, ReplicaManager.getLeader b.topics target = .ok leader) →
      publishedTo topic cmd = if target = topic then some payload else none)
    {refused : Broker} (hrefused : refused.writer = b.writer ∧ refused.origins = b.origins) :
    Effect topic b ((b.handleWrite client clientId target payload acks cmd env).getD refused) := by
  simp only [handleWrite]
  split
  · exact .same hrefused
  · next leader hleader =>
      have hstep : b.writer.step (.submit clientId target payload env.now (decide (acks ≠ 0))) =
          b.writer.submit ⟨b.writer.submitted.length, clientId, target, payload, env.now,
            decide (acks ≠ 0)⟩ := if_pos hrunning
      simp only [Option.getD_some]
      split
      · exact .submits _ cmd rfl hstep rfl (source ⟨leader, hleader⟩)
      · exact .submits _ cmd rfl hstep rfl (source ⟨leader, hleader⟩)

theorem handleCommand_effect (hrunning : b.writer.phase = .running) {client : Nat}
    {clientId : Option String} {cmd : Command} {env : HandlerEnv}
    (hclient : b.clients[client]? = some ⟨clientId, .reading⟩)
    (h : OnlyPublishes topic b (.command client cmd env)) :
    Effect topic b (b.handleCommand client clientId cmd env) := by
  simp only [handleCommand]
  split
  · exact handleReplica_effect client env _
  · split
    · exact .same ⟨rfl, rfl⟩
    · exact .same ⟨rfl, rfl⟩
  · split
    · exact .same ⟨rfl, rfl⟩
    · exact .same ⟨rfl, rfl⟩
  · exact .same ⟨rfl, rfl⟩
  · exact .same ⟨rfl, rfl⟩
  · exact .same ⟨rfl, rfl⟩
  · exact .same ⟨rfl, rfl⟩
  · exact handlePull_effect client _
  · exact .same ⟨rfl, rfl⟩
  · next target offset acks id =>
      refine handleWrite_effect hrunning client id target _ acks _ env ?_ ⟨rfl, rfl⟩
      rintro ⟨leader, hleader⟩
      have hne : target ≠ topic := by
        intro heq
        refine h.1 (Eq.trans ?_ (congrArg some heq))
        simp only [commitTopic, hclient, hleader]
      rw [if_neg hne]
      rfl
  · next target payload acks checksum id =>
      exact handleWrite_effect hrunning client id target payload acks _ env (fun _ => rfl) ⟨rfl, rfl⟩
  · exact .same ⟨rfl, rfl⟩
  · exact .same ⟨rfl, rfl⟩

theorem written_writer (b : Broker) (client number : Nat) (cmd : Command) (generation : Nat)
    (offset : Int) (reached : Bool) :
    (b.written client number cmd generation offset reached).writer = b.writer ∧
      (b.written client number cmd generation offset reached).origins = b.origins := by
  simp only [written]
  split
  · exact ⟨rfl, rfl⟩
  · next topic acks hoptions =>
      split
      · exact acknowledge_writer b client cmd offset
      · split
        · split
          · exact ⟨rfl, rfl⟩
          · split
            · exact ⟨rfl, rfl⟩
            · next leader hwait =>
                have hack := acknowledge_writer (b.setLeader topic leader) client cmd offset
                have hset := setLeader_writer b topic leader
                exact ⟨hack.1.trans hset.1, hack.2.trans hset.2⟩
            · exact setLeader_writer b topic _
        · split
          · exact acknowledge_writer b client cmd offset
          · exact ⟨rfl, rfl⟩

theorem resume_effect (client : Nat) (env : HandlerEnv) (reached : Bool) :
    Effect topic b (b.resume client env reached) := by
  simp only [resume]
  split
  · next cmd hphase =>
      have keeps : KeepsRecords topic b.writer.log
        (pushMessage b.writer.log ⟨env.now, env.ops⟩ cmd).1 := pushMessage_keeps _ cmd
      split
      · next heq =>
          rw [heq] at keeps
          exact .log keeps ⟨rfl, rfl⟩
      · next heq =>
          rw [heq] at keeps
          exact .log keeps ⟨rfl, rfl⟩
  · refine .same ?_
    split
    · exact written_writer b client _ _ _ _ reached
    · exact ⟨rfl, rfl⟩
    · split
      · exact ⟨rfl, rfl⟩
      · exact ⟨rfl, rfl⟩
  · exact .same ⟨rfl, rfl⟩

theorem relayed_effect (client : Nat) (header : Option String)
    (response : Option ControllerResponse) :
    Effect topic b (b.relayed client header response) := by
  refine .same ?_
  simp only [relayed]
  split
  · split
    · exact ⟨rfl, rfl⟩
    · exact ⟨rfl, rfl⟩
  · exact ⟨rfl, rfl⟩

theorem metadata_effect {metaData : TopicMetaDataResponse}
    (h : OnlyPublishes topic b (.metadata metaData)) : Effect topic b (b.metadata metaData) := by
  refine .log (ReplicaManager.applyMetadata_keeps ⟨b.config, b.topics, b.writer.log⟩ metaData ?_) ?_
  · intro installs
    exact h.2 _ (by simp [opening, installs])
  · simp only [metadata]
    split
    · exact ⟨rfl, rfl⟩
    · exact ⟨rfl, rfl⟩
    · exact ⟨rfl, rfl⟩

theorem updateIsr_effect (target : String) (now : Time) :
    Effect topic b (b.updateIsr target now) := by
  refine .same ?_
  simp only [updateIsr]
  split
  · exact ⟨rfl, rfl⟩
  · split
    · exact ⟨rfl, rfl⟩
    · exact setLeader_writer b target _

theorem internal_quiet (w : Writer) (e : WriterEvent) (h : Writer.internal e = true) :
    Quiet topic w (w.step e) := by
  obtain ⟨hlog, hsubmitted, happended⟩ := Writer.step_internal w h
  refine ⟨hsubmitted, happended, fun tidy => tidy.step e, ?_⟩
  rw [hlog]
  exact KeepsRecords.refl

theorem Quiet.foldl {α : Type} {f : Writer → α → Writer} (h : ∀ w a, Quiet topic w (f w a))
    (xs : List α) (w : Writer) : Quiet topic w (xs.foldl f w) := by
  induction xs generalizing w with
  | nil => exact Quiet.refl w
  | cons a xs ih => exact (h w a).trans (ih _)

theorem close_effect : Effect topic b b.close := by
  refine .quiet ((Quiet.foldl (fun w c => ?_) b.clients b.writer).trans
    (internal_quiet _ .close rfl)) rfl
  split
  · exact internal_quiet w (.cancel _) rfl
  · exact Quiet.refl w

theorem writer_effect {e : WriterEvent} (hown : ownEvent e = true)
    (h : OnlyPublishes topic b (.writer e)) :
    Effect topic b { b with writer := b.writer.step e } := by
  by_cases hinternal : Writer.internal e = true
  · exact .quiet (internal_quiet b.writer e hinternal) rfl
  · cases e with
    | submit | other => cases hown
    | write worker env =>
        refine .writes worker env rfl rfl ?_
        intro job req rest hjob hbatch
        refine h.2 _ ?_
        cases job with
        | mk target batch offsets =>
            simp only at hbatch
            subst hbatch
            simp only [opening, hjob, Option.mem_def]
    | _ => exact absurd rfl hinternal

/-- Events after the broker was closed do nothing. -/
theorem Effect.ite (h : b.writer.phase = .running → Effect topic b b') :
    Effect topic b (if b.writer.phase ≠ .running then b else b') := by
  split
  · exact .same ⟨rfl, rfl⟩
  · next hrunning => exact h (not_not.mp hrunning)

theorem step_effect {e : BrokerEvent} (h : OnlyPublishes topic b e) :
    Effect topic b (b.step e) := by
  cases e with
  | writer e =>
      simp only [step]
      split
      · next hown => exact writer_effect hown h
      · exact .same ⟨rfl, rfl⟩
  | release handle => exact .log (fun ok => ok.released handle) ⟨rfl, rfl⟩
  | cleanup =>
      refine .log ?_ ⟨rfl, rfl⟩
      intro ok
      have clear : ClearFor topic b.writer.log .cleanup := by simp [ClearFor, LogManager.opened]
      obtain ⟨records, hpayloads⟩ := apply_committed ok clear
      exact ⟨records, hpayloads.trans (List.append_nil _)⟩
  | connect => exact .ite fun _ => .same ⟨rfl, rfl⟩
  | command client cmd env =>
      refine .ite fun hrunning => ?_
      split
      · next hclient => exact handleCommand_effect hrunning hclient h
      · exact .same ⟨rfl, rfl⟩
  | relayed client header response =>
      exact .ite fun _ => relayed_effect client header response
  | resume client env reached => exact .ite fun _ => resume_effect client env reached
  | leave client => exact .ite fun _ => .same ⟨rfl, rfl⟩
  | metadata metaData => exact .ite fun _ => metadata_effect h
  | updateIsr target now => exact .ite fun _ => updateIsr_effect target now
  | close => exact .ite fun _ => close_effect

theorem published_new {config : ReplicaConfig} {writerConfig : WriterConfig} {logConfig : LogConfig}
    {importTime : Time} {controller : Bool} (topic : String)
    (h : new config writerConfig (LogManager.start logConfig importTime) controller = some b) :
    Published topic b := by
  simp only [new] at h
  split at h
  · cases h
  · next writer hwriter =>
      cases h
      have tidy := Writer.tidy_new hwriter
      simp only [Writer.new] at hwriter
      split at hwriter
      · cases hwriter
      · cases hwriter
        refine ⟨tidy, topicOk_start topic logConfig importTime, rfl, ?_⟩
        simp [LogManager.payloads, LogManager.start]

end

/-- If nobody commits an offset for a topic, its log holds exactly the payloads of the
publish commands to it that the broker has appended, whatever its clients, its worker
threads, the controller and the file system do. -/
theorem log_holds_published (config : ReplicaConfig) (writerConfig : WriterConfig)
    (logConfig : LogConfig) (importTime : Time) (controller : Bool) (b : Broker) (topic : String)
    (events : List BrokerEvent)
    (hnew : new config writerConfig (LogManager.start logConfig importTime) controller = some b)
    (only : MeetsAll advance (OnlyPublishes topic) b events) :
    (run advance b events).HoldsPublished topic :=
  (only.invariant (Published topic) (fun _ _ ok h => ok.effect (step_effect h))
    (published_new topic hnew)).holds

/-- A broker that has only itself as a replica. -/
def single : Broker :=
  ⟨⟨"b1", 1024, 1, 10000⟩, Writer.fresh, Dict.empty, Dict.empty, false, [], [], []⟩

def someEnv : HandlerEnv := ⟨1, "1.5", "c1", .succeed⟩

/-- The broker leads a topic, and a client registers. -/
def opened : List BrokerEvent :=
  [.metadata ⟨"t", "b1", "host", 1, ["b1"], 1⟩, .connect, .command 0 .register someEnv]

/-- The writer flushes what it has of the topic, and a worker appends one message. -/
def flushed : List BrokerEvent :=
  [.writer (.dequeue "t"), .writer (.timeout "t"), .writer .start,
    .writer (.write 0 ⟨1, .succeed⟩)]

theorem log_holds_published_single :
    let b := run advance single
      (opened ++ .command 0 (.publish "t" [7] 0 false) someEnv ::
        .command 0 (.commitOffset "u" 0 0) someEnv :: flushed)
    b.writer.log.payloads "t" = [[7]] ∧ b.HoldsPublished "t" :=
  ⟨by decide +kernel, log_holds_published ⟨"b1", 1024, 1, 10000⟩ {}
    ⟨"data", 0, 1000000, 100, 16, 16, 4⟩ 0 false single "t" _ rfl (by decide +kernel)⟩

/-- A committed offset becomes a record of the topic, and a consumer is sent it. -/
theorem commit_adds_record :
    let b := run advance single
      (opened ++ .command 0 (.commitOffset "t" 0 0) someEnv :: flushed ++
        [.command 0 (.pull "t" 0 100) someEnv, .resume 0 someEnv false])
    let record := commitRecord "1.5" "c1" "t" 0
    new ⟨"b1", 1024, 1, 10000⟩ {} Writer.emptyLog false = some single ∧
      b.writer.log.payloads "t" = [record] ∧ b.published "t" = [] ∧
      (0, .pull (.message "t" (frame record))) ∈ b.sent ∧ ¬ b.HoldsPublished "t" := by
  refine ⟨rfl, ?_⟩
  decide +kernel

end Broker
end PyLogStream
