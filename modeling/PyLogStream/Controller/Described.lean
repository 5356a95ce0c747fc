import PyLogStream.Controller.Leadership
import PyLogStream.Metastore.Spelling
import PyLogStream.Protocol.ResponseRoundTrip

/-!
What a controller admits and what it can tell its brokers. The text of a list of
metadata separates its fields by blanks and its topics by line breaks; the commands let
both into a topic's name and into other texts. A list is read back exactly when nothing
of the kind is in it and no number is too long, and so it always is when no frame has
brought in such a text.
-/

namespace PyLogStream
open Lib

/-- How the controller tells the parsed commands apart. -/
def ControllerCommand.ofCommand : Command → ControllerCommand
  | .brokerRegister brokerId host port => .brokerRegister brokerId host port
  | .controllerPing brokerId => .controllerPing brokerId
  | .registerTopic topic => .registerTopic topic
  | .metadataRequest topic => .metadataRequest topic
  | .isrChange topic isrList => .isrChange topic isrList
  | _ => .other

/-- The texts of the frame fit into a list of metadata, and so does a port, which has been
read from it. -/
def ControllerCommand.Spelled : ControllerCommand → Prop
  | .brokerRegister brokerId host port => BrokerName brokerId ∧ Word host ∧ Convertible port
  | .registerTopic topic => Word topic
  | .isrChange _ isrList => ∀ r ∈ isrList, Word r
  | _ => True

instance (cmd : ControllerCommand) : Decidable cmd.Spelled :=
  match cmd with
  | .brokerRegister brokerId host port =>
    inferInstanceAs (Decidable (BrokerName brokerId ∧ Word host ∧ Convertible port))
  | .registerTopic topic => inferInstanceAs (Decidable (Word topic))
  | .isrChange _ isrList => inferInstanceAs (Decidable (∀ r ∈ isrList, Word r))
  | .controllerPing _ | .metadataRequest _ | .other => isTrue trivial

def ServerEvent.Spelled : ServerEvent → Prop
  | .run _ (.frame cmd) => cmd.Spelled
  | _ => True

instance (e : ServerEvent) : Decidable e.Spelled :=
  match e with
  | .run _ (.frame cmd) => inferInstanceAs (Decidable cmd.Spelled)
  | .run _ .malformed | .run _ .stopped | .run _ (.resume _) | .run _ (.leader _)
  | .run _ (.elected _) | .tick _ | .accept _ | .lose _ | .leaderGone _ => isTrue trivial

/-- Brokers read the payload of the list of metadata back as it is. -/
def MetastoreManager.Described (m : MetastoreManager) : Prop :=
  ∃ text payload,
    (Response.topicMetaDataList (m.metaList.map (·.running))).formatted =
        .ok (text, some payload) ∧
      parseMetadataListPayload payload = .ok (m.metaList.map (·.running))

theorem MetastoreManager.described_iff (m : MetastoreManager) :
    m.Described ↔ ∀ r ∈ m.metaList, r.Legible ∧ r.OneLine ∧ r.Numbers := by
  rw [← parseMetadataListPayload_iff]
  constructor
  · rintro ⟨text, payload, hbody, hparse⟩
    cases hbody
    exact hparse
  · exact fun hparse => ⟨_, _, rfl, hparse⟩

theorem MetastoreManager.Spelled.legible {m : MetastoreManager} (ok : m.Spelled)
    {r : TopicMetaDataResponse} (hr : r ∈ m.metaList) :
    r.Legible ∧ r.OneLine ∧ Convertible r.leaderPort := by
  obtain ⟨t, ht, rfl⟩ := List.mem_map.mp hr
  obtain ⟨name, hget⟩ := (Dict.mem_values_iff _ t).mp ht
  have spelled := ok.topics name t hget
  have haddr : Word (m.describe t).leaderAddr ∧ Convertible (m.describe t).leaderPort := by
    cases hnode : m.storage.nodes.get? t.leaderId with
    | none => exact ⟨by simp [describe, hnode, Word], by simp [describe, hnode]; decide⟩
    | some node => simpa [describe, hnode] using ok.hosts t.leaderId node hnode
  have hdash : t.replicaList ≠ ["-"] := fun heq =>
    (spelled.replicas "-" (by simp [heq])).2.2 rfl
  exact ⟨⟨spelled.topic.1, spelled.leaderId.1, haddr.1.1,
      fun r hr => ⟨(spelled.replicas r hr).1.1, (spelled.replicas r hr).2.1⟩, hdash⟩,
    ⟨spelled.topic.2, spelled.leaderId.2, haddr.1.2, fun r hr => (spelled.replicas r hr).1.2⟩,
    haddr.2⟩

/-- A bound on the versions bounds their digits. -/
theorem MetastoreManager.VersionsUpTo.convertible {m : MetastoreManager} {n : Nat}
    (h : m.VersionsUpTo n) (hn : Convertible n) {r : TopicMetaDataResponse}
    (hr : r ∈ m.metaList) : Convertible r.version := by
  obtain ⟨t, ht, rfl⟩ := List.mem_map.mp hr
  obtain ⟨name, hget⟩ := (Dict.mem_values_iff _ t).mp ht
  have hbound := h name t hget
  rw [convertible_iff, Int.natAbs_natCast] at hn
  rw [convertible_iff]
  have hle : t.version.natAbs ≤ n := by omega
  exact Nat.lt_of_le_of_lt hle hn

/-- Where no text spoils the list, only a version can have too many digits. -/
theorem MetastoreManager.Spelled.described_iff {m : MetastoreManager} (ok : m.Spelled) :
    m.Described ↔ ∀ r ∈ m.metaList, Convertible r.version := by
  rw [m.described_iff]
  refine forall₂_congr fun r hr => ?_
  obtain ⟨hlegible, hline, hport⟩ := ok.legible hr
  exact ⟨fun h => h.2.2.version, fun hversion => ⟨hlegible, hline, hport, hversion⟩⟩

namespace ControllerServer
section
variable {cfg : ControllerConfig} {s : ControllerServer} {task : TaskId} {rest : List Work}

variable {P : MetastoreManager → Prop}

/-- A frame leaves the metastore or runs one operation on it. -/
theorem handleFrame_manager (conn : Nat) {cmd : ControllerCommand} (same : P s.manager)
    (broker : ∀ brokerId host port, cmd = .brokerRegister brokerId host port →
      P (s.manager.exec cfg.hash (Metastore.registerBroker brokerId host port)).1)
    (topic : ∀ topic, cmd = .registerTopic topic →
      P (s.manager.exec cfg.hash (Metastore.registerTopic cfg.replicasPerTopic topic)).1)
    (isr : ∀ topic isrList, cmd = .isrChange topic isrList →
      P (s.manager.exec cfg.hash (Metastore.updateTopicIsr topic isrList)).1) :
    P (s.handleFrame cfg conn rest cmd).manager := by
  cases cmd with
  | brokerRegister brokerId host port =>
      have hregister := broker brokerId host port rfl
      simp only [handleFrame, setConn]
      split
      · next manager node hexec =>
          rw [hexec] at hregister
          exact hregister
      · next manager err hexec =>
          rw [hexec] at hregister
          rw [raise_manager]
          exact hregister
  | controllerPing other => exact (heartbeat_manager conn).symm ▸ same
  | registerTopic name =>
      have hregister := topic name rfl
      simp only [handleFrame]
      split
      · next manager topicMeta hexec =>
          rw [hexec] at hregister
          exact hregister
      · next manager err hexec =>
          rw [hexec] at hregister
          rw [raise_manager]
          exact hregister
  | metadataRequest name => exact same
  | isrChange name isrList =>
      have hupdate := isr name isrList rfl
      simp only [handleFrame]
      split
      · next manager topicMeta hexec =>
          rw [hexec] at hupdate
          exact hupdate
      · next manager err hexec =>
          rw [hexec] at hupdate
          rw [raise_manager]
          exact hupdate
  | other => exact same

/-- A step of a task leaves the metastore or runs one operation on it. -/
theorem run_manager_cases {input : Input} (same : P s.manager)
    (frame : ∀ cmd conn rest, input = .frame cmd → P (s.handleFrame cfg conn rest cmd).manager)
    (gone : ∀ brokerId,
      P (s.manager.exec cfg.hash (Metastore.deregisterBroker cfg.replicasPerTopic brokerId)).1) :
    P (s.step cfg (.run task input)).manager := by
  apply run_cases (P := fun s' => P s'.manager)
  case idle => exact same
  case frame => exact fun conn rest cmd _ _ hinput => frame cmd conn rest hinput
  case leave => exact fun conn rest _ _ => (leave_manager conn).symm ▸ same
  case fail => exact fun rest _ => (raise_manager task).symm ▸ same
  case next => exact fun w rest _ => same
  case broadcast => exact fun rest _ => (sendNext_manager _ _ _ _ _).symm ▸ same
  case drained =>
      exact fun metaList brokerId conn more disconnected rest failed _ =>
        (sendNext_manager _ _ _ _ _).symm ▸ same
  case disconnect =>
      exact fun brokerId cause more rest failed _ _ => (disconnect_manager _ _ _).symm ▸ same
  case deregister =>
      intro brokerId rest failed _ _ manager
      have hderegister : P manager := gone brokerId
      refine ⟨(sendNext_manager _ _ _ _ _).symm ▸ hderegister, ?_⟩
      rw [raise_manager]
      exact hderegister
  case check => exact fun rest _ => same
  case reject => exact fun conn info rest _ _ => same
  case notLeader => exact fun info rest _ => (dropBrokers_manager _ _ _).symm ▸ same
  case drop => exact fun response ids rest _ => (dropBrokers_manager _ _ _).symm ▸ same
  case dropped => exact fun response conn ids rest _ => ⟨same, same⟩
  case elected => exact fun won rest _ => same

/-- The same of any step. -/
theorem step_manager_cases {e : ServerEvent} (same : P s.manager)
    (frame : ∀ task cmd conn rest, e = .run task (.frame cmd) →
      P (s.handleFrame cfg conn rest cmd).manager)
    (gone : ∀ brokerId,
      P (s.manager.exec cfg.hash (Metastore.deregisterBroker cfg.replicasPerTopic brokerId)).1) :
    P (s.step cfg e).manager := by
  cases e with
  | run task input =>
      exact run_manager_cases same (fun cmd conn rest heq => frame task cmd conn rest (heq ▸ rfl))
        gone
  | tick elapsed => exact same
  | lose conn => exact same
  | accept conn =>
      simp only [step]
      split
      · split <;> exact same
      · exact same
  | leaderGone n =>
      simp only [step]
      split <;> exact same

theorem step_spelled (ok : s.manager.Spelled) {e : ServerEvent} (h : e.Spelled) :
    (s.step cfg e).manager.Spelled := by
  refine step_manager_cases ok (fun task cmd conn rest heq => ?_) fun brokerId =>
    ok.exec _ (deregisterBroker_spells cfg.replicasPerTopic brokerId)
  subst heq
  refine handleFrame_manager conn ok (fun brokerId host port heq => ?_) (fun topic heq => ?_)
    fun topic isrList heq => ?_
  · subst heq
    exact ok.exec cfg.hash (registerBroker_spells h.1 h.2.1 h.2.2)
  · subst heq
    exact ok.exec cfg.hash (registerTopic_spells cfg.replicasPerTopic h)
  · subst heq
    exact ok.exec cfg.hash (updateTopicIsr_spells topic h)

theorem step_versions {n : Nat} (h : s.manager.VersionsUpTo n) (e : ServerEvent) :
    (s.step cfg e).manager.VersionsUpTo (n + 1) := by
  refine step_manager_cases (P := fun m => m.VersionsUpTo (n + 1)) h.mono
    (fun task cmd conn rest _ => ?_) fun brokerId =>
      deregisterBroker_versions h cfg.replicasPerTopic brokerId
  exact handleFrame_manager (P := fun m => m.VersionsUpTo (n + 1)) conn h.mono
    (fun brokerId host port _ => registerBroker_versions h brokerId host port)
    (fun topic _ => registerTopic_versions h cfg.replicasPerTopic topic)
    fun topic isrList _ => updateTopicIsr_versions h topic isrList

end

theorem run_manager_spelled (cfg : ControllerConfig) {events : List ServerEvent}
    (h : ∀ e ∈ events, e.Spelled) : (run (advance cfg) new events).manager.Spelled :=
  run_keeps (fun s : ControllerServer => s.manager.Spelled)
    (fun _ e he ok => step_spelled ok (h e he)) spelled_new

/-- A run of the controller raises no version more often than it has events. -/
theorem run_manager_versions (cfg : ControllerConfig) (events : List ServerEvent) :
    (run (advance cfg) new events).manager.VersionsUpTo events.length :=
  Nat.zero_add events.length ▸
    run_counts (fun n (s : ControllerServer) => s.manager.VersionsUpTo n)
      (fun _ _ e h => step_versions h e) versionsUpTo_new

/-- The brokers get back what the controller has stored exactly if no text spoils the list
and no number is too long. In a run in which no frame has brought in such a text they do as
long as no version is too long, and so they do unless the events are too many to be counted
with the digits of a version. -/
theorem topics_described (cfg : ControllerConfig) (m : MetastoreManager)
    (events : List ServerEvent) :
    (m.Described ↔ ∀ r ∈ m.metaList, r.Legible ∧ r.OneLine ∧ r.Numbers) ∧
      ((∀ e ∈ events, e.Spelled) →
        ((run (advance cfg) new events).manager.Described ↔
          ∀ r ∈ (run (advance cfg) new events).manager.metaList, Convertible r.version) ∧
        (Convertible events.length → (run (advance cfg) new events).manager.Described)) := by
  refine ⟨m.described_iff, fun h => ?_⟩
  have hiff := (run_manager_spelled cfg h).described_iff
  exact ⟨hiff, fun hlength => hiff.mpr fun r hr =>
    (run_manager_versions cfg events).convertible hlength hr⟩

/-- A broker registers, then a topic and an in-sync list of it. -/
def plainFrames : List ServerEvent :=
  .accept 1 :: handled 1 (.brokerRegister "b1" "h1" 9092) 3 ++ handled 1 (.registerTopic "t") 3 ++
    handled 1 (.isrChange "t" ["b1", "b2"]) 0

theorem topics_described_plain :
    (run (advance oneReplica) new plainFrames).manager.Described ∧
      ∀ r ∈ (run (advance oneReplica) new plainFrames).manager.metaList,
        r.Legible ∧ r.OneLine ∧ r.Numbers := by
  have hframes : ∀ e ∈ plainFrames, e.Spelled := by decide
  have hlength : Convertible plainFrames.length := by decide
  obtain ⟨hiff, hrun⟩ := topics_described oneReplica
    (run (advance oneReplica) new plainFrames).manager plainFrames
  have hdescribed := (hrun hframes).2 hlength
  exact ⟨hdescribed, hiff.mp hdescribed⟩

/-- A topic with a blank in its name. -/
def blankFrames : List ServerEvent := .accept 1 :: handled 1 (.registerTopic "a b") 3

/-- The parser of commands lets the name through, and then no broker can read the list. -/
theorem blank_not_described :
    (parseCommand (encodeUtf8 "RGT a b".toList) true).map
        (fun packet => ControllerCommand.ofCommand packet.command) = .ok (.registerTopic "a b") ∧
      ¬ (run (advance oneReplica) new blankFrames).manager.Described ∧
      parseMetadataListPayload (encodeUtf8 (metaListText
        ((run (advance oneReplica) new blankFrames).manager.metaList.map (·.running)))) =
          .error (.invalidLiteral "0.0.0.0".toList) := by
  have hlist : (run (advance oneReplica) new blankFrames).manager.metaList =
      [⟨"a b", "", "0.0.0.0", 0, [], 1⟩] := by decide +kernel
  refine ⟨?_, fun hdescribed => ?_, ?_⟩
  · have hdecode : decodeText (encodeUtf8 "RGT a b".toList) = .ok "RGT a b".toList :=
      decodeText_encodeUtf8 _
    have hname : decodeText ((encodeUtf8 "RGT a b".toList).take 3) = .ok "RGT".toList :=
      decodeText_name "RGT" (by decide) ["a b".toList]
    simp only [parseCommand, parsePacketHeader, hdecode, bind, Except.bind]
    rw [show matchHeader "RGT a b".toList = none by decide]
    simp only [pure, Except.pure, parseBody, hname, hdecode, bind, Except.bind]
    decide
  · have hlegible := (MetastoreManager.described_iff _).mp hdescribed
    rw [hlist] at hlegible
    exact absurd (hlegible _ (List.mem_singleton_self _)).1.topic (by decide)
  · rw [hlist, parseMetadataListPayload, if_neg (by decide), decodeText_encodeUtf8]
    decide

end ControllerServer
end PyLogStream
