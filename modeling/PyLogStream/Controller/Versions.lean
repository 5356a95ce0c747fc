import PyLogStream.Controller.Steps
import PyLogStream.Metastore.Election

/-!
What the controller sends under one version of a topic. A message is put together
from the topic's metadata and from the node of its leader. Whatever changes the
metadata raises the version, but a broker that registers with another address changes
what is sent about the topics it leads, under the version they have. If no broker
does that, a version identifies its content.
-/

namespace PyLogStream
open Lib ConsistentHashRing

/-- The address under which a broker is described. -/
def MetastoreManager.address (m : MetastoreManager) (nodeId : String) : String × Int :=
  match m.storage.nodes.get? nodeId with
  | some node => (node.host, node.port)
  | none => ("0.0.0.0", 0)

/-- The message is not newer than the metadata, and says the same if it is as new. -/
def MetastoreManager.Current (m : MetastoreManager) (r : TopicMetaDataResponse) : Prop :=
  ∃ t, m.storage.topics.get? r.topic = some t ∧ r.version ≤ t.version ∧
    (r.version = t.version → r = m.describe t)

section
variable {hash : String → Nat} {ids : Set String} {m m' : MetastoreManager}

theorem MetastoreManager.describe_address (m : MetastoreManager) (t : TopicMetadata) :
    m.describe t = ⟨t.topic, t.leaderId, (m.address t.leaderId).1, (m.address t.leaderId).2,
      t.replicaList, t.version⟩ := by
  simp only [MetastoreManager.describe, MetastoreManager.address]
  cases m.storage.nodes.get? t.leaderId <;> rfl

theorem MetastoreManager.describe_congr {t : TopicMetadata}
    (h : m'.address t.leaderId = m.address t.leaderId) : m'.describe t = m.describe t := by
  rw [m'.describe_address, m.describe_address, h]

/-- The address of a broker depends on its node only. -/
theorem MetastoreManager.address_congr {nodeId : String}
    (h : m'.storage.nodes.get? nodeId = m.storage.nodes.get? nodeId) :
    m'.address nodeId = m.address nodeId := by
  simp only [MetastoreManager.address, h]

/-- Every topic is as it was, with the address of its leader, or has a later version. -/
theorem MetastoreManager.Current.change {r : TopicMetaDataResponse} (current : m.Current r)
    (h : ∀ name t, m.storage.topics.get? name = some t →
      ∃ t', m'.storage.topics.get? name = some t' ∧
        (t' = t ∧ m'.address t.leaderId = m.address t.leaderId ∨ t.version < t'.version)) :
    m'.Current r := by
  obtain ⟨t, hget, hle, hsame⟩ := current
  obtain ⟨t', hget', hcase⟩ := h r.topic t hget
  refine ⟨t', hget', ?_⟩
  cases hcase with
  | inl hkept =>
      obtain ⟨rfl, haddress⟩ := hkept
      exact ⟨hle, fun heq => (hsame heq).trans (describe_congr haddress).symm⟩
  | inr hnewer => exact ⟨by omega, fun heq => by omega⟩

theorem MetastoreManager.Current.register {r : TopicMetaDataResponse} (current : m.Current r)
    {nodeId host : String} {port : Int}
    (keeps : m.address nodeId = (host, port) ∨
      ∀ t ∈ m.storage.topics.values, t.leaderId ≠ nodeId) :
    (m.exec hash (Metastore.registerBroker nodeId host port)).1.Current r := by
  rw [registerBroker_spec]
  refine current.change fun name t hget => ⟨t, hget, Or.inl ⟨rfl, ?_⟩⟩
  by_cases hleader : t.leaderId = nodeId
  · cases keeps with
    | inl haddress =>
        rw [hleader, haddress]
        simp [MetastoreManager.address]
    | inr hnone => exact absurd hleader (hnone t ((Dict.mem_values_iff _ _).mpr ⟨name, hget⟩))
  · exact address_congr (Dict.get?_set_of_ne _ _ hleader)

theorem MetastoreManager.Current.deregister {r : TopicMetaDataResponse} (current : m.Current r)
    (ok : MetastoreOk hash ids m) (free : CollisionFree hash 50 ids) (replicasPerTopic : Int)
    {nodeId : String} (hid : nodeId ∈ ids) :
    (m.exec hash (Metastore.deregisterBroker replicasPerTopic nodeId)).1.Current r := by
  obtain ⟨ring, -⟩ := ok.without free hid
  obtain ⟨m', updated, hexec, -, hnodes, htopics, -⟩ :=
    deregisterBroker_spec replicasPerTopic nodeId ring ok.named
  rw [hexec]
  refine current.change fun name t hget => ?_
  obtain ⟨t', hget', hder⟩ := htopics name t hget
  refine ⟨t', hget', ?_⟩
  cases hder with
  | inl hkept =>
      obtain ⟨rfl, -, hleader⟩ := hkept
      refine Or.inl ⟨rfl, address_congr ?_⟩
      rw [hnodes, Dict.get?_erase, if_neg hleader]
  | inr homed =>
      rw [homed.version]
      exact Or.inr (by omega)

theorem MetastoreManager.Current.registerTopic {r : TopicMetaDataResponse} (current : m.Current r)
    (ok : MetastoreOk hash ids m) (replicasPerTopic : Int) (topicName : String) :
    (m.exec hash (Metastore.registerTopic replicasPerTopic topicName)).1.Current r := by
  obtain ⟨t, -, hexec⟩ | ⟨replicas, hnone, -, -, hexec⟩ :=
    registerTopic_spec replicasPerTopic ok.ring topicName
  · rw [hexec]
    exact current
  · rw [hexec]
    refine current.change fun name t hget => ⟨t, ?_, Or.inl ⟨rfl, rfl⟩⟩
    have hne : name ≠ topicName := fun heq => by
      rw [heq, hnone] at hget
      cases hget
    rw [MetastoreManager.setTopic_get?, if_neg hne]
    exact hget

theorem MetastoreManager.Current.updateIsr {r : TopicMetaDataResponse} (current : m.Current r)
    (ok : MetastoreOk hash ids m) (topicName : String) (isrList : List String) :
    (m.exec hash (Metastore.updateTopicIsr topicName isrList)).1.Current r := by
  obtain ⟨-, hexec⟩ | ⟨t, leader, hget, -, -, hexec⟩ :=
    updateTopicIsr_spec ok.ring ok.named topicName isrList
  · rw [hexec]
    exact current
  · rw [hexec]
    refine current.change fun name t' hget' => ?_
    rw [MetastoreManager.setTopic_get?]
    split
    · next heq =>
        have hname : name = topicName := heq.trans (ok.named topicName t hget)
        rw [hname, hget] at hget'
        obtain rfl := Option.some.inj hget'
        exact ⟨_, rfl, Or.inr (Int.lt_succ t.version)⟩
    · exact ⟨t', hget', Or.inl ⟨rfl, rfl⟩⟩

/-- Packing up the answer does not change the state, also if the operation raises. -/
theorem MetastoreManager.apply_exec {α : Type} (p : MetastoreProg MetastoreError α)
    (f : α → MetastoreAnswer) : (m.exec hash (do return f (← p))).1 = (m.exec hash p).1 := by
  change (Prog.exec (MetastoreManager.handle hash) m (p >>= fun a => pure (f a))).1 = _
  rw [Prog.exec_bind]
  simp only [MetastoreManager.exec]
  cases p.exec (MetastoreManager.handle hash) m with
  | mk m' answer => cases answer <;> rfl

end

namespace ControllerServer

/-- The metadata that has been sent. -/
def entriesSent (s : ControllerServer) : List TopicMetaDataResponse :=
  s.sent.flatMap fun message => message.2.entries

/-- A broker registers under the address it is described with, or leads no topic. -/
def KeepsAddress (s : ControllerServer) : ServerEvent → Prop
  | .run (.handler conn) (.frame (.brokerRegister brokerId host port)) =>
    (s.tasks (.handler conn)).head? = some .serve →
      s.manager.address brokerId = (host, port) ∨
        ∀ t ∈ s.manager.storage.topics.values, t.leaderId ≠ brokerId
  | _ => True

instance (s : ControllerServer) (e : ServerEvent) : Decidable (s.KeepsAddress e) :=
  match e with
  | .run (.handler conn) (.frame (.brokerRegister brokerId host port)) =>
    inferInstanceAs (Decidable ((s.tasks (.handler conn)).head? = some .serve →
      s.manager.address brokerId = (host, port) ∨
        ∀ t ∈ s.manager.storage.topics.values, t.leaderId ≠ brokerId))
  | .run (.handler _) (.frame (.controllerPing _)) | .run (.handler _) (.frame (.registerTopic _))
  | .run (.handler _) (.frame (.metadataRequest _)) | .run (.handler _) (.frame (.isrChange _ _))
  | .run (.handler _) (.frame .other) | .run (.handler _) .malformed | .run (.handler _) .stopped
  | .run (.handler _) (.resume _) | .run (.handler _) (.leader _) | .run (.handler _) (.elected _)
  | .run .heartbeat _ | .run (.leaderGone _) _ | .tick _ | .accept _ | .lose _ | .leaderGone _ =>
    isTrue trivial

/-- The brokers that register in the run. -/
def brokersIn (events : List ServerEvent) : Set String :=
  { brokerId | ∃ task host port, .run task (.frame (.brokerRegister brokerId host port)) ∈ events }

/-- A pending broadcast has been sent before, a pending deregistration is of a known
broker, and no metadata goes with a lost leadership. -/
def WorkKnown (ids : Set String) (s : ControllerServer) : Work → Prop
  | .drained metaList _ _ _ _ => ∀ r ∈ metaList, r ∈ s.entriesSent
  | .deregister brokerId => brokerId ∈ ids
  | .dropBrokers response _ | .dropped response _ _ => response.entries = []
  | _ => True

structure VersionsOk (cfg : ControllerConfig) (ids : Set String) (s : ControllerServer) : Prop where
  metastore : MetastoreOk cfg.hash ids s.manager
  active : ∀ id, s.activeBrokers.get? id ≠ none → id ∈ ids
  work : ∀ task, ∀ w ∈ s.tasks task, WorkKnown ids s w
  current : ∀ r ∈ s.entriesSent, s.manager.Current r
  agree : ∀ r ∈ s.entriesSent, ∀ r' ∈ s.entriesSent,
    r.topic = r'.topic → r.version = r'.version → r = r'

section
variable {cfg : ControllerConfig} {ids : Set String} {s : ControllerServer} {task : TaskId}
  {rest : List Work}

theorem VersionsOk.setTask (ok : VersionsOk cfg ids s) {work : List Work}
    (h : ∀ w ∈ work, WorkKnown ids s w) : VersionsOk cfg ids (s.setTask task work) := by
  refine ⟨ok.metastore, ok.active, fun task' w hw => ?_, ok.current, ok.agree⟩
  simp only [ControllerServer.setTask, Function.update_apply] at hw
  split at hw
  · exact h w hw
  · exact ok.work task' w hw

theorem VersionsOk.setConn (ok : VersionsOk cfg ids s) (conn : Nat) (c : Connection) :
    VersionsOk cfg ids (s.setConn conn c) :=
  ⟨ok.metastore, ok.active, ok.work, ok.current, ok.agree⟩

theorem VersionsOk.closeConn (ok : VersionsOk cfg ids s) (conn : Nat) :
    VersionsOk cfg ids (s.closeConn cfg conn) := ok.setConn conn _

theorem VersionsOk.erase (ok : VersionsOk cfg ids s) (brokerId : String) :
    VersionsOk cfg ids { s with activeBrokers := s.activeBrokers.erase brokerId } := by
  refine ⟨ok.metastore, fun id hid => ?_, ok.work, ok.current, ok.agree⟩
  rw [Dict.get?_erase] at hid
  split at hid
  · exact absurd rfl hid
  · exact ok.active id hid

theorem VersionsOk.activate (ok : VersionsOk cfg ids s) {brokerId : String} (hid : brokerId ∈ ids)
    (entry : ActiveBroker) :
    VersionsOk cfg ids { s with activeBrokers := s.activeBrokers.set brokerId entry } := by
  refine ⟨ok.metastore, fun id hactive => ?_, ok.work, ok.current, ok.agree⟩
  rw [Dict.get?_set] at hactive
  split at hactive
  · next heq => exact heq ▸ hid
  · exact ok.active id hactive

theorem VersionsOk.changeManager (ok : VersionsOk cfg ids s) {manager : MetastoreManager}
    (hmanager : MetastoreOk cfg.hash ids manager)
    (h : ∀ r, s.manager.Current r → manager.Current r) : VersionsOk cfg ids { s with manager } :=
  ⟨hmanager, ok.active, ok.work, fun r hr => h r (ok.current r hr), ok.agree⟩

theorem mem_entriesSent_write (conn : Nat) (response : ControllerResponse)
    (r : TopicMetaDataResponse) :
    r ∈ (s.write conn response).entriesSent ↔ r ∈ s.entriesSent ∨ r ∈ response.entries := by
  simp [entriesSent, ControllerServer.write]

theorem WorkKnown.write {conn : Nat} {response : ControllerResponse} {w : Work}
    (h : WorkKnown ids s w) : WorkKnown ids (s.write conn response) w := by
  cases w with
  | drained metaList brokerId conn' more disconnected =>
      exact fun r hr => (mem_entriesSent_write conn response r).mpr (Or.inl (h r hr))
  | deregister _ | dropBrokers _ _ | dropped _ _ _ => exact h
  | serve | drain | broadcast | disconnect _ | checkHeartbeats | reject | notLeader
  | election => trivial

/-- What is written has been sent before or describes the stored metadata. -/
theorem VersionsOk.write (ok : VersionsOk cfg ids s) (conn : Nat) {response : ControllerResponse}
    (h : ∀ r ∈ response.entries, r ∈ s.entriesSent ∨
      ∃ name t, s.manager.storage.topics.get? name = some t ∧ r = s.manager.describe t) :
    VersionsOk cfg ids (s.write conn response) := by
  have hfresh : ∀ name t, s.manager.storage.topics.get? name = some t →
      s.manager.Current (s.manager.describe t) := by
    intro name t hget
    have hname : (s.manager.describe t).topic = name := ok.metastore.named name t hget
    exact ⟨t, hname ▸ hget, Int.le_refl _, fun _ => rfl⟩
  -- a message with the stored version of its topic describes what is stored
  have hdescribes : ∀ name t, s.manager.storage.topics.get? name = some t →
      ∀ r, s.manager.Current r → r.topic = t.topic → r.version = t.version →
        r = s.manager.describe t := by
    intro name t hget r hcurrent htopic hversion
    obtain ⟨t', hget', -, hsame⟩ := hcurrent
    rw [htopic, ok.metastore.named name t hget, hget] at hget'
    obtain rfl := Option.some.inj hget'
    exact hsame hversion
  have hcurrent : ∀ r ∈ (s.write conn response).entriesSent, s.manager.Current r := by
    intro r hr
    cases (mem_entriesSent_write conn response r).mp hr with
    | inl hold => exact ok.current r hold
    | inr hnew =>
        cases h r hnew with
        | inl hold => exact ok.current r hold
        | inr hstored =>
            obtain ⟨name, t, hget, rfl⟩ := hstored
            exact hfresh name t hget
  have hkinds : ∀ r ∈ (s.write conn response).entriesSent, r ∈ s.entriesSent ∨
      ∃ name t, s.manager.storage.topics.get? name = some t ∧ r = s.manager.describe t :=
    fun r hr => ((mem_entriesSent_write conn response r).mp hr).elim Or.inl (h r)
  refine ⟨ok.metastore, ok.active, fun task w hw => ?_, hcurrent, fun r hr r' hr' htopic hversion => ?_⟩
  · exact (ok.work task w hw).write
  · cases hkinds r hr with
    | inr hstored =>
        obtain ⟨name, t, hget, rfl⟩ := hstored
        exact (hdescribes name t hget r' (hcurrent r' hr') htopic.symm hversion.symm).symm
    | inl hold =>
        cases hkinds r' hr' with
        | inr hstored =>
            obtain ⟨name, t, hget, rfl⟩ := hstored
            exact hdescribes name t hget r (hcurrent r hr) htopic hversion
        | inl hold' => exact ok.agree r hold r' hold' htopic hversion

/-- An answer without metadata. -/
theorem VersionsOk.reply (ok : VersionsOk cfg ids s) (conn : Nat) {response : ControllerResponse}
    (h : response.entries = []) : VersionsOk cfg ids (s.write conn response) :=
  ok.write conn fun _ hr => absurd (h ▸ hr) List.not_mem_nil

theorem VersionsOk.leave (ok : VersionsOk cfg ids s) (conn : Nat) :
    VersionsOk cfg ids (s.leave cfg conn) := by
  have hleft := ok.setConn conn { s.conns conn with serving := false }
  simp only [ControllerServer.leave]
  split
  · split
    · exact (hleft.closeConn conn).setTask (by simp)
    · refine hleft.setTask fun w hw => ?_
      obtain rfl := List.mem_singleton.mp hw
      trivial
  · exact (hleft.closeConn conn).setTask (by simp)

theorem VersionsOk.raise (ok : VersionsOk cfg ids s) (task : TaskId) :
    VersionsOk cfg ids (s.raise cfg task) := by
  cases task with
  | handler conn =>
      simp only [ControllerServer.raise]
      split
      · exact ok.leave conn
      · exact ok.setTask (by simp)
  | heartbeat => exact ok.setTask (by simp)
  | leaderGone n => exact ok.setTask (by simp)

theorem VersionsOk.sendNext (ok : VersionsOk cfg ids s) (hrest : ∀ w ∈ rest, WorkKnown ids s w)
    {metaList : List TopicMetaDataResponse}
    (h : ∀ r ∈ metaList, r ∈ s.entriesSent ∨
      ∃ name t, s.manager.storage.topics.get? name = some t ∧ r = s.manager.describe t)
    (disconnected : List (String × Cause)) (targets : List (String × Nat)) :
    VersionsOk cfg ids (s.sendNext task rest metaList disconnected targets) := by
  cases targets with
  | nil => exact ok.setTask (List.forall_mem_cons.mpr ⟨trivial, hrest⟩)
  | cons target more =>
      have hwrite : VersionsOk cfg ids (s.write target.2 (.topicMetaDataList metaList)) :=
        ok.write target.2 h
      refine hwrite.setTask (List.forall_mem_cons.mpr ⟨fun r hr => ?_,
        fun w hw => (hrest w hw).write⟩)
      exact (mem_entriesSent_write _ _ r).mpr (Or.inr hr)

theorem mem_metaList {m : MetastoreManager} {r : TopicMetaDataResponse} (h : r ∈ m.metaList) :
    ∃ name t, m.storage.topics.get? name = some t ∧ r = m.describe t := by
  obtain ⟨t, ht, rfl⟩ := List.mem_map.mp h
  obtain ⟨name, hget⟩ := (Dict.mem_values_iff _ _).mp ht
  exact ⟨name, t, hget, rfl⟩

theorem VersionsOk.broadcastMetadata (ok : VersionsOk cfg ids s)
    (hrest : ∀ w ∈ rest, WorkKnown ids s w) :
    VersionsOk cfg ids (s.broadcastMetadata task rest) :=
  ok.sendNext hrest (fun _ hr => Or.inr (mem_metaList hr)) _ _

theorem VersionsOk.disconnect (ok : VersionsOk cfg ids s) (hrest : ∀ w ∈ rest, WorkKnown ids s w)
    (brokerId : String) (more : List (String × Cause)) :
    VersionsOk cfg ids (s.disconnect cfg task rest brokerId more) := by
  simp only [ControllerServer.disconnect]
  split
  · exact ok.setTask (List.forall_mem_cons.mpr ⟨trivial, hrest⟩)
  · next entry hentry =>
      have hid : brokerId ∈ ids := ok.active brokerId (by rw [hentry]; simp)
      exact ((ok.erase brokerId).closeConn entry.conn).setTask
        (List.forall_mem_cons.mpr ⟨hid, List.forall_mem_cons.mpr ⟨trivial, hrest⟩⟩)

theorem VersionsOk.dropBrokers (ok : VersionsOk cfg ids s) (hrest : ∀ w ∈ rest, WorkKnown ids s w)
    (response : ControllerResponse) (h : response.entries = []) (todo : List String) :
    VersionsOk cfg ids (s.dropBrokers task rest response todo) := by
  induction todo with
  | nil => exact ok.setTask hrest
  | cons brokerId more ih =>
      simp only [ControllerServer.dropBrokers]
      split
      · exact ih
      · next entry hentry =>
          exact ((ok.erase brokerId).reply entry.conn h).setTask
            (List.forall_mem_cons.mpr ⟨h, fun w hw => (hrest w hw).write⟩)

/-- The works that a handler has left after its answer. -/
theorem WorkKnown.answered (hrest : ∀ w ∈ rest, WorkKnown ids s w) :
    ∀ w ∈ Work.drain :: .serve :: rest, WorkKnown ids s w :=
  List.forall_mem_cons.mpr ⟨trivial, List.forall_mem_cons.mpr ⟨trivial, hrest⟩⟩

theorem WorkKnown.announced (hrest : ∀ w ∈ rest, WorkKnown ids s w) :
    ∀ w ∈ Work.drain :: .broadcast :: .serve :: rest, WorkKnown ids s w :=
  List.forall_mem_cons.mpr ⟨trivial, List.forall_mem_cons.mpr ⟨trivial,
    List.forall_mem_cons.mpr ⟨trivial, hrest⟩⟩⟩

theorem VersionsOk.register (ok : VersionsOk cfg ids s) (free : CollisionFree cfg.hash 50 ids)
    (hrest : ∀ w ∈ rest, WorkKnown ids s w) {conn : Nat} {brokerId host : String} {port : Int}
    (hid : brokerId ∈ ids)
    (keeps : s.manager.address brokerId = (host, port) ∨
      ∀ t ∈ s.manager.storage.topics.values, t.leaderId ≠ brokerId) :
    VersionsOk cfg ids (s.handleFrame cfg conn rest (.brokerRegister brokerId host port)) := by
  let manager := (s.manager.exec cfg.hash (Metastore.registerBroker brokerId host port)).1
  have hmanager : MetastoreOk cfg.hash ids
      (s.manager.apply cfg.hash cfg.replicasPerTopic (.registerBroker brokerId host port)).1 :=
    ok.metastore.apply free fun id heq => Option.some.inj heq ▸ hid
  have hchanged : VersionsOk cfg ids { s with manager } :=
    ok.changeManager hmanager fun r hr => hr.register keeps
  have hactive := hchanged.activate hid ⟨conn, s.now, host, port⟩
  have hok : VersionsOk cfg ids
      { s.setConn conn { s.conns conn with brokerId := some brokerId, lastHeartbeat := s.now } with
        activeBrokers := s.activeBrokers.set brokerId ⟨conn, s.now, host, port⟩
        registrant := Function.update s.registrant brokerId (some conn)
        manager } :=
    ⟨hactive.metastore, hactive.active, hactive.work, hactive.current, hactive.agree⟩
  have hnew : ∀ r ∈ (ControllerResponse.topicMetaDataList manager.metaList).entries,
      r ∈ s.entriesSent ∨
        ∃ name t, manager.storage.topics.get? name = some t ∧ r = manager.describe t :=
    fun r hr => Or.inr (mem_metaList hr)
  refine (hok.write conn hnew).setTask (WorkKnown.announced fun w hw => ?_)
  exact WorkKnown.write (hrest w hw)

theorem VersionsOk.heartbeat (ok : VersionsOk cfg ids s) (conn : Nat) :
    VersionsOk cfg ids (s.heartbeat conn) := by
  have hbeat := ok.setConn conn { s.conns conn with lastHeartbeat := s.now }
  simp only [ControllerServer.heartbeat]
  split
  · exact hbeat
  · split
    · exact hbeat
    · next brokerId hid entry hentry =>
        exact hbeat.activate (ok.active _ (by rw [hentry]; simp)) _

theorem heartbeat_entriesSent (conn : Nat) : (s.heartbeat conn).entriesSent = s.entriesSent := by
  simp only [ControllerServer.heartbeat]
  split
  · rfl
  · split <;> rfl

theorem VersionsOk.registerTopic (ok : VersionsOk cfg ids s) (free : CollisionFree cfg.hash 50 ids)
    (hrest : ∀ w ∈ rest, WorkKnown ids s w) (conn : Nat) (topic : String) :
    VersionsOk cfg ids (s.handleFrame cfg conn rest (.registerTopic topic)) := by
  have hmanager : MetastoreOk cfg.hash ids
      (s.manager.exec cfg.hash (Metastore.registerTopic cfg.replicasPerTopic topic)).1 := by
    have happly : MetastoreOk cfg.hash ids
        (s.manager.apply cfg.hash cfg.replicasPerTopic (.registerTopic topic)).1 :=
      ok.metastore.apply free fun id heq => by cases heq
    rwa [MetastoreManager.apply, MetastoreOp.program, MetastoreManager.apply_exec] at happly
  have hchanged := ok.changeManager hmanager fun r hr =>
    hr.registerTopic ok.metastore cfg.replicasPerTopic topic
  simp only [ControllerServer.handleFrame]
  split
  · next manager topicMeta hexec =>
      -- the answer is the stored topic
      have hstored : manager.storage.topics.get? topic = some topicMeta := by
        obtain ⟨t, hget, hspec⟩ | ⟨replicas, -, -, -, hspec⟩ :=
          registerTopic_spec cfg.replicasPerTopic ok.metastore.ring topic
        · rw [hexec] at hspec
          cases hspec
          exact hget
        · rw [hexec] at hspec
          cases hspec
          rw [MetastoreManager.setTopic_get?, if_pos rfl]
      rw [hexec] at hchanged
      have hnew : ∀ r ∈ (ControllerResponse.topicMetaData (manager.describe topicMeta)).entries,
          r ∈ s.entriesSent ∨
            ∃ name t, manager.storage.topics.get? name = some t ∧ r = manager.describe t :=
        fun r hr => Or.inr ⟨topic, topicMeta, hstored, List.mem_singleton.mp hr⟩
      refine (hchanged.write conn hnew).setTask (WorkKnown.announced fun w hw => ?_)
      exact WorkKnown.write (hrest w hw)
  · next manager err hexec =>
      rw [hexec] at hchanged
      exact hchanged.raise _

theorem VersionsOk.isrChange (ok : VersionsOk cfg ids s) (free : CollisionFree cfg.hash 50 ids)
    (hrest : ∀ w ∈ rest, WorkKnown ids s w) (conn : Nat) (topic : String) (isrList : List String) :
    VersionsOk cfg ids (s.handleFrame cfg conn rest (.isrChange topic isrList)) := by
  have hmanager : MetastoreOk cfg.hash ids
      (s.manager.exec cfg.hash (Metastore.updateTopicIsr topic isrList)).1 := by
    have happly : MetastoreOk cfg.hash ids
        (s.manager.apply cfg.hash cfg.replicasPerTopic (.updateTopicIsr topic isrList)).1 :=
      ok.metastore.apply free fun id heq => by cases heq
    rwa [MetastoreManager.apply, MetastoreOp.program, MetastoreManager.apply_exec] at happly
  have hchanged := ok.changeManager hmanager fun r hr => hr.updateIsr ok.metastore topic isrList
  simp only [ControllerServer.handleFrame]
  split
  · next manager answer hexec =>
      rw [hexec] at hchanged
      exact hchanged.setTask (List.forall_mem_cons.mpr ⟨trivial, hrest⟩)
  · next manager err hexec =>
      rw [hexec] at hchanged
      exact hchanged.raise _

theorem VersionsOk.handleFrame (ok : VersionsOk cfg ids s) (free : CollisionFree cfg.hash 50 ids)
    (hrest : ∀ w ∈ rest, WorkKnown ids s w) {conn : Nat} {cmd : ControllerCommand}
    (hid : ∀ brokerId host port, cmd = .brokerRegister brokerId host port → brokerId ∈ ids)
    (htasks : s.tasks (.handler conn) = .serve :: rest)
    (keeps : s.KeepsAddress (.run (.handler conn) (.frame cmd))) :
    VersionsOk cfg ids (s.handleFrame cfg conn rest cmd) := by
  cases cmd with
  | brokerRegister brokerId host port =>
      exact ok.register free hrest (hid brokerId host port rfl) (keeps (by rw [htasks]; rfl))
  | controllerPing other =>
      refine ((ok.heartbeat conn).reply conn rfl).setTask (WorkKnown.answered fun w hw => ?_)
      refine WorkKnown.write ?_
      cases w with
      | drained metaList brokerId conn' more disconnected =>
          intro r hr
          rw [heartbeat_entriesSent]
          exact hrest _ hw r hr
      | deregister _ | dropBrokers _ _ | dropped _ _ _ => exact hrest _ hw
      | serve | drain | broadcast | disconnect _ | checkHeartbeats | reject | notLeader
      | election => trivial
  | registerTopic topic => exact ok.registerTopic free hrest conn topic
  | metadataRequest topic =>
      simp only [ControllerServer.handleFrame]
      split
      · next topicMeta hget =>
          have hnew : ∀ r ∈ (ControllerResponse.topicMetaData
              (s.manager.describe topicMeta)).entries, r ∈ s.entriesSent ∨
                ∃ name t, s.manager.storage.topics.get? name = some t ∧
                  r = s.manager.describe t :=
            fun r hr => Or.inr ⟨topic, topicMeta, hget, List.mem_singleton.mp hr⟩
          exact (ok.write conn hnew).setTask (WorkKnown.answered fun w hw => (hrest w hw).write)
      · exact (ok.reply conn rfl).setTask (WorkKnown.answered fun w hw => (hrest w hw).write)
  | isrChange topic isrList => exact ok.isrChange free hrest conn topic isrList
  | other => exact (ok.reply conn rfl).setTask (WorkKnown.answered fun w hw => (hrest w hw).write)

theorem VersionsOk.run (ok : VersionsOk cfg ids s) (free : CollisionFree cfg.hash 50 ids)
    {input : Input}
    (hid : ∀ brokerId host port, input = .frame (.brokerRegister brokerId host port) →
      brokerId ∈ ids) (keeps : s.KeepsAddress (.run task input)) :
    VersionsOk cfg ids (s.step cfg (.run task input)) := by
  have hpending : ∀ {w rest}, s.tasks task = w :: rest →
      WorkKnown ids s w ∧ ∀ w' ∈ rest, WorkKnown ids s w' := fun htasks =>
    List.forall_mem_cons.mp (htasks ▸ ok.work task)
  have hresponse : ∀ info, (notLeaderResponse info).entries = [] := by
    intro info
    cases info <;> rfl
  apply run_cases
  case idle => exact ok
  case frame =>
      rintro conn rest cmd rfl htasks rfl
      exact ok.handleFrame free (hpending htasks).2
        (fun brokerId host port heq => hid brokerId host port (by rw [heq])) htasks keeps
  case leave => exact fun conn _ _ _ => ok.leave conn
  case fail => exact fun _ _ => ok.raise task
  case next => exact fun w rest htasks => ok.setTask (hpending htasks).2
  case broadcast => exact fun rest htasks => ok.broadcastMetadata (hpending htasks).2
  case drained =>
      intro metaList brokerId conn more disconnected rest failed htasks
      exact ok.sendNext (hpending htasks).2 (fun r hr => Or.inl ((hpending htasks).1 r hr)) _ _
  case disconnect =>
      exact fun brokerId _ more rest _ _ htasks =>
        ok.disconnect (hpending htasks).2 brokerId more
  case deregister =>
      intro brokerId rest failed _ htasks manager
      have hmem : brokerId ∈ ids := (hpending htasks).1
      have hmanager : MetastoreOk cfg.hash ids manager := by
        have happly : MetastoreOk cfg.hash ids
            (s.manager.apply cfg.hash cfg.replicasPerTopic (.deregisterBroker brokerId)).1 :=
          ok.metastore.apply free fun id heq => Option.some.inj heq ▸ hmem
        rwa [MetastoreManager.apply, MetastoreOp.program, MetastoreManager.apply_exec] at happly
      have hchanged : VersionsOk cfg ids { s with manager } := ok.changeManager hmanager
        fun r hr => hr.deregister ok.metastore free cfg.replicasPerTopic hmem
      exact ⟨hchanged.broadcastMetadata (hpending htasks).2, hchanged.raise task⟩
  case check =>
      exact fun rest htasks => ok.setTask (List.forall_mem_cons.mpr ⟨trivial,
        List.forall_mem_cons.mpr ⟨trivial, (hpending htasks).2⟩⟩)
  case reject =>
      rintro conn info rest rfl htasks
      exact ((ok.reply conn (hresponse info)).closeConn conn).setTask
        fun w hw => WorkKnown.write ((hpending htasks).2 w hw)
  case notLeader =>
      exact fun info rest htasks => ok.dropBrokers (hpending htasks).2 _ (hresponse info) _
  case drop =>
      exact fun response todo rest htasks =>
        ok.dropBrokers (hpending htasks).2 response (hpending htasks).1 todo
  case dropped =>
      intro response conn todo rest htasks
      have hwork : ∀ w ∈ Work.dropBrokers response todo :: rest, WorkKnown ids s w :=
        List.forall_mem_cons.mpr ⟨(hpending htasks).1, (hpending htasks).2⟩
      exact ⟨ok.setTask hwork, (ok.closeConn conn).setTask hwork⟩
  case elected =>
      intro won rest htasks
      have hok : VersionsOk cfg ids { s with isLeader := won } :=
        ⟨ok.metastore, ok.active, ok.work, ok.current, ok.agree⟩
      exact hok.setTask (hpending htasks).2

theorem VersionsOk.step (ok : VersionsOk cfg ids s) (free : CollisionFree cfg.hash 50 ids)
    {e : ServerEvent}
    (hid : ∀ task brokerId host port,
      e = .run task (.frame (.brokerRegister brokerId host port)) → brokerId ∈ ids)
    (keeps : s.KeepsAddress e) : VersionsOk cfg ids (s.step cfg e) := by
  cases e with
  | tick elapsed => exact ⟨ok.metastore, ok.active, ok.work, ok.current, ok.agree⟩
  | accept conn =>
      simp only [ControllerServer.step]
      split
      · split
        · refine (ok.setConn conn _).setTask fun w hw => ?_
          obtain rfl := List.mem_singleton.mp hw
          trivial
        · refine ok.setTask fun w hw => ?_
          obtain rfl := List.mem_singleton.mp hw
          trivial
      · exact ok
  | lose conn => exact ok.setConn conn _
  | leaderGone n =>
      simp only [ControllerServer.step]
      split
      · have hok : VersionsOk cfg ids { s with isLeader := false } :=
          ⟨ok.metastore, ok.active, ok.work, ok.current, ok.agree⟩
        refine hok.setTask (List.forall_mem_cons.mpr ⟨trivial, fun w hw => ?_⟩)
        obtain rfl := List.mem_singleton.mp hw
        trivial
      · exact ok
  | run task input =>
      exact ok.run free (fun brokerId host port heq => hid task brokerId host port (by rw [heq])) keeps

theorem versionsOk_new (cfg : ControllerConfig) (ids : Set String) : VersionsOk cfg ids new := by
  refine ⟨metastoreOk_new cfg.hash ids, fun id h => absurd rfl h, fun task w hw => ?_,
    fun r hr => absurd hr List.not_mem_nil, fun r hr => absurd hr List.not_mem_nil⟩
  simp only [new] at hw
  split at hw
  · obtain rfl := List.mem_singleton.mp hw
    trivial
  · cases hw

end

/-- If no broker changes its address while it leads a topic, all that is sent for a
topic under one version is the same. -/
theorem version_identifies_content (cfg : ControllerConfig) (events : List ServerEvent)
    (free : CollisionFree cfg.hash 50 (brokersIn events))
    (keeps : MeetsAll (advance cfg) KeepsAddress new events) :
    ∀ r ∈ (run (advance cfg) new events).entriesSent,
      ∀ r' ∈ (run (advance cfg) new events).entriesSent,
        r.topic = r'.topic → r.version = r'.version → r = r' := by
  have hrun := keeps.with_mem fun _ h => h
  have ok : VersionsOk cfg (brokersIn events) (run (advance cfg) new events) :=
    hrun.invariant (VersionsOk cfg (brokersIn events))
      (fun s e ok hstep => ok.step free
        (fun task brokerId host port heq => ⟨task, host, port, heq ▸ hstep.1⟩) hstep.2)
      (versionsOk_new cfg _)
  exact ok.agree

/-- A broker registers, leads a new topic and registers again from `host`. -/
def registersAgain (host : String) : List ServerEvent :=
  .accept 1 :: (handled 1 (.brokerRegister "b1" "h1" 1) 4 ++ handled 1 (.registerTopic "t") 4 ++
    handled 1 (.brokerRegister "b1" host 1) 0)

theorem brokersIn_registersAgain (host : String) :
    brokersIn (registersAgain host) ⊆ { id | id ∈ ["b1", "b2"] } := by
  rintro id ⟨task, host', port, hmem⟩
  simp only [registersAgain, handled, List.replicate, List.mem_cons, List.mem_append] at hmem
  simp at hmem
  simp
  tauto

theorem version_identifies_content_same_address :
    ⟨"t", "b1", "h1", 1, ["b1"], 1⟩ ∈
        (run (advance oneReplica) new (registersAgain "h1")).entriesSent ∧
      ∀ r ∈ (run (advance oneReplica) new (registersAgain "h1")).entriesSent,
        ∀ r' ∈ (run (advance oneReplica) new (registersAgain "h1")).entriesSent,
          r.topic = r'.topic → r.version = r'.version → r = r' := by
  have h : MeetsAll (advance oneReplica) KeepsAddress new (registersAgain "h1") ∧
      ⟨"t", "b1", "h1", 1, ["b1"], 1⟩ ∈
        (run (advance oneReplica) new (registersAgain "h1")).entriesSent := by decide +kernel
  exact ⟨h.2, version_identifies_content oneReplica _
    (collisionFree_twoBrokers.mono (brokersIn_registersAgain "h1")) h.1⟩

/-- A leader that registers from another host is described under the same version. -/
theorem address_changes_under_version :
    ⟨"t", "b1", "h1", 1, ["b1"], 1⟩ ∈
        (run (advance oneReplica) new (registersAgain "h2")).entriesSent ∧
      ⟨"t", "b1", "h2", 1, ["b1"], 1⟩ ∈
        (run (advance oneReplica) new (registersAgain "h2")).entriesSent := by
  decide +kernel

end ControllerServer
end PyLogStream
