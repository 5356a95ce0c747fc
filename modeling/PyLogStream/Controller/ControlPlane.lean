import PyLogStream.Controller.Delivery
import PyLogStream.Controller.Described
import PyLogStream.Controller.Versions
import PyLogStream.Controller.Written
import PyLogStream.Replication.Roles
import PyLogStream.Replication.System

/-!
The control plane: a controller and the brokers at the other ends of its connections. What
is written to a connection arrives there as bytes and in order. The reader of a broker takes
a list of metadata off them and apart, and works through it while other tasks of the broker
go on. A list may be older than the one before it, so what a broker holds is compared with
the metastore when it has read everything and the last list was the current one.
-/

namespace PyLogStream
open Lib

/-- What other tasks of a broker do with its replica manager. -/
inductive BrokerCall where
  | log (op : LogOp)
  | leaderLoop (topic : String) (now : Time)
  | fetch (env : CallEnv) (cmd : ReplicaFetchCommand)
  | waitForHw (topic : String) (offset : Int) (fut : Nat)

def ReplicaManager.call (m : ReplicaManager) : BrokerCall → ReplicaManager
  | .log op => { m with log := (m.log.apply op).1 }
  | .leaderLoop topic now => (m.leaderLoop true topic now).1
  | .fetch env cmd => (m.handle env cmd).1
  | .waitForHw topic offset fut =>
    match ReplicaManager.getLeader m.topics topic with
    | .error _ => m
    | .ok leader =>
      match leader.waitForHw m.log offset fut with
      | .error _ => m
      | .ok (leader, _) => m.setLeader topic leader

/-- What is left of an `apply_metadata_list`. -/
inductive ListStep where
  | remove (topic : String)
  | apply (metaData : TopicMetaDataResponse)
  deriving DecidableEq

/-- The broker at the other end of a connection. -/
structure BrokerEnd where
  manager : ReplicaManager
  /-- The reader has not been told of a loss. -/
  reading : Bool
  /-- How many bytes the reader has taken. -/
  taken : Nat
  todo : List ListStep

namespace BrokerEnd

/-- The two loops of `apply_metadata_list`. -/
def listSteps (m : ReplicaManager) (metaList : List TopicMetaDataResponse) : List ListStep :=
  let newTopics := metaList.map TopicMetaDataResponse.topic
  (m.topics.keys.filter fun topic => decide (topic ∉ newTopics)).map .remove ++
    metaList.map .apply

/-- The reader takes a response off the bytes that it has not read yet, when all of it is
there. A topic's metadata and an error go to whoever has asked for them. A response that
cannot be parsed counts as a lost connection, as a controller does that does not lead; other
errors are reported and the reader goes on. For the first response, which `_try_controller`
reads, it is the other way round. -/
def receive (b : BrokerEnd) (unread : Bytes) : BrokerEnd :=
  let (result, rest) := readResponseFrom unread .silent
  let read := { b with taken := b.taken + (unread.length - rest.length) }
  match result with
  | .error .timeout => b
  | .ok (some ⟨_, .topicMetaDataList metaList⟩) =>
    { read with todo := listSteps b.manager (metaList.map StatedMetaData.metaData) }
  | .ok (some ⟨_, .notLeaderController _ _ _⟩) => { read with reading := false }
  | .ok (some _) => read
  | .ok none => { read with reading := decide (b.taken = 0) }
  | .error _ => { read with reading := decide (b.taken ≠ 0) }

/-- The next step of the list in hand; an exception ends it. -/
def advance (b : BrokerEnd) : BrokerEnd :=
  match b.todo with
  | [] => b
  | .remove topic :: todo => { b with manager := (b.manager.removeTopic topic).1, todo }
  | .apply metaData :: todo =>
    match b.manager.applyMetadata metaData with
    | (manager, .error _) => { b with manager, todo := [] }
    | (manager, .ok _) => { b with manager, todo }

end BrokerEnd

/-- What has been written to the connection. -/
def ControllerServer.messages (s : ControllerServer) (conn : Nat) : List ControllerResponse :=
  s.sent.filterMap fun message => if message.1 = conn then some message.2 else none

/-- The same as bytes. -/
def ControllerServer.stream (s : ControllerServer) (headers : Nat → Option String) (conn : Nat) :
    Bytes := ControllerResponse.bytesOf headers (s.messages conn)

structure ControlPlane where
  server : ControllerServer
  /-- The broker at the end of each connection. -/
  brokers : Nat → BrokerEnd

inductive ControlEvent where
  | server (e : ServerEvent)
  | receive (conn : Nat)
  | advance (conn : Nat)
  | call (conn : Nat) (c : BrokerCall)

namespace ControlPlane

/-- A controller that leads and brokers that hold nothing yet. -/
def start (replica : Nat → ReplicaConfig) (log : Nat → LogConfig) (importTime : Time) :
    ControlPlane :=
  { server := .new
    brokers := fun conn =>
      ⟨⟨replica conn, Dict.empty, LogManager.start (log conn) importTime⟩, true, 0, []⟩ }

def setBroker (s : ControlPlane) (conn : Nat) (b : BrokerEnd) : ControlPlane :=
  { s with brokers := Function.update s.brokers conn b }

section
variable (cfg : ControllerConfig) (headers : Nat → Nat → Option String)

/-- The `i`th response on a connection answers a command with the packet header
`headers conn i`, if it answers one. -/
def step (s : ControlPlane) : ControlEvent → ControlPlane
  | .server e => { s with server := s.server.step cfg e }
  | .receive conn =>
    let b := s.brokers conn
    if b.reading = true ∧ b.todo = [] then
      s.setBroker conn (b.receive ((s.server.stream (headers conn) conn).drop b.taken))
    else s
  | .advance conn => s.setBroker conn (s.brokers conn).advance
  | .call conn c =>
    s.setBroker conn { s.brokers conn with manager := (s.brokers conn).manager.call c }

/-- One step of a run; a run has no results of its own. -/
def next (s : ControlPlane) (e : ControlEvent) : ControlPlane × Unit :=
  (s.step cfg headers e, ())

/-- Brokers keep their addresses while they lead, texts fit into lists of metadata, and the
list of the metastore can be encoded and is ASCII. -/
def Orderly (s : ControlPlane) : ControlEvent → Prop
  | .server e =>
    s.server.KeepsAddress e ∧ e.Spelled ∧ Deliverable (s.server.step cfg e).manager.metaList
  | _ => True

instance (s : ControlPlane) (e : ControlEvent) : Decidable (s.Orderly cfg e) :=
  match e with
  | .server e => inferInstanceAs (Decidable (s.server.KeepsAddress e ∧ e.Spelled ∧
      Deliverable (s.server.step cfg e).manager.metaList))
  | .receive _ | .advance _ | .call _ _ => isTrue trivial

end

/-- The events of the controller. -/
def serverEvents (events : List ControlEvent) : List ServerEvent :=
  events.filterMap fun
    | .server e => some e
    | _ => none

/-- The broker is through with all that was written to it, and the last list was current. -/
def CaughtUp (s : ControlPlane) (headers : Nat → Nat → Option String) (conn : Nat) : Prop :=
  (s.brokers conn).taken = (s.server.stream (headers conn) conn).length ∧
    (s.brokers conn).todo = [] ∧ s.server.lastList conn = some s.server.manager.metaList

/-- What the broker holds for a topic is what the metastore says about it. -/
def Holds (s : ControlPlane) (conn : Nat) (topic : String) : Prop :=
  match s.server.manager.storage.topics.get? topic with
  | none => (s.brokers conn).manager.topics.get? topic = none
  | some t => (s.server.manager.describe t).Describes (s.brokers conn).manager.config.id
      ((s.brokers conn).manager.topics.get? topic)

/-- The broker answers for the topic as its leader. -/
def Serves (s : ControlPlane) (conn : Nat) (topic : String) : Prop :=
  ∃ leader, ReplicaManager.getLeader (s.brokers conn).manager.topics topic = .ok leader

/-- The metastore has elected the broker for the topic, and it is a replica of it. -/
def Elected (s : ControlPlane) (id topic : String) : Prop :=
  ∃ t, s.server.manager.storage.topics.get? topic = some t ∧ t.leaderId = id ∧ id ∈ t.replicaList

end ControlPlane
section Manager
variable {m m' : ReplicaManager} {metaData : TopicMetaDataResponse}

/-- The same states are described, whatever has become of what they started. -/
structure SameStates (m m' : ReplicaManager) : Prop where
  config : m'.config = m.config
  built : m'.Built
  described : ∀ topic, (m'.topics.get? topic).map TopicState.described =
    (m.topics.get? topic).map TopicState.described

theorem SameStates.set (built : m.Built) {topic : String} {state state' : TopicState}
    (hget : m.topics.get? topic = some state) (hbuilt : state'.Built)
    (hdescribed : state'.described = state.described) {log : LogManager}
    (shaped : log.registry.Shaped) :
    SameStates m { m with topics := m.topics.set topic state', log } := by
  refine ⟨rfl, ⟨shaped, fun other entry hother => ?_⟩, fun other => ?_⟩
  · rw [Dict.get?_set] at hother
    split at hother
    · cases hother
      exact hbuilt
    · exact built.entries other entry hother
  · rw [Dict.get?_set]
    by_cases heq : other = topic
    · rw [if_pos heq, heq, hget, Option.map_some, Option.map_some, hdescribed]
    · rw [if_neg heq]

theorem TopicState.Built.setLeader {state : TopicState} (built : state.Built)
    (leader : ReplicaLeader) : ({ state with leader := some leader } : TopicState).Built :=
  ⟨built.fetcher, fun hrole => ⟨rfl, (built.leader hrole).2⟩⟩

theorem TopicState.Built.endLoop {state : TopicState} (built : state.Built) :
    ({ state with loopTask := false } : TopicState).Built := ⟨built.fetcher, built.leader⟩

theorem ReplicaLeader.handle_registry (leader : ReplicaLeader) (lm : LogManager) (env : CallEnv)
    (cmd : ReplicaFetchCommand) : (leader.handle lm env cmd).2.1.registry = lm.registry := by
  cases hend : leader.getLogEndOffset lm with
  | ok logEnd => exact (handle_spec hend env cmd).1
  | error err =>
      simp only [ReplicaLeader.handle, hend]
      split <;> rfl

/-- The other tasks of a broker leave its roles and its metadata alone. -/
theorem ReplicaManager.call_sameStates (built : m.Built) (c : BrokerCall) :
    SameStates m (m.call c) := by
  have same : SameStates m m := ⟨rfl, built, fun _ => rfl⟩
  cases c with
  | log op => exact ⟨rfl, ⟨(apply_offsets built.shaped op).1, built.entries⟩, fun _ => rfl⟩
  | leaderLoop topic now =>
      simp only [call, leaderLoop]
      split
      · exact same
      · next state hget =>
          have hstate := built.entries topic state hget
          split
          · next leader hrunning hrole hleader =>
              split
              · exact .set built hget hstate.endLoop rfl built.shaped
              · next updated hupdate =>
                  exact .set built hget (hstate.setLeader updated) rfl built.shaped
          · exact same
  | fetch env cmd =>
      simp only [call, handle]
      split
      · exact same
      · next state hget =>
          have hstate := built.entries cmd.topic state hget
          split
          · next leader hrole hleader =>
              refine .set built hget (hstate.setLeader _) rfl ?_
              rw [leader.handle_registry]
              exact built.shaped
          · exact same
          · exact same
  | waitForHw topic offset fut =>
      simp only [call]
      split
      · exact same
      · split
        · exact same
        · next leader returns hwait =>
            simp only [setLeader]
            split
            · exact same
            · next state hget =>
                exact .set built hget ((built.entries topic state hget).setLeader leader) rfl
                  built.shaped

/-- Whether a metadata takes effect depends on what is described for its topic. -/
theorem harmless_of_described (hconfig : m'.config = m.config)
    (h : (m'.topics.get? metaData.topic).map TopicState.described =
      (m.topics.get? metaData.topic).map TopicState.described) :
    Harmless m' metaData ↔ Harmless m metaData := by
  simp only [Harmless, hconfig]
  rcases described_cases h with ⟨hnone, hnone'⟩ | ⟨state, state', hstate, hstate', hsame⟩
  · rw [hnone, hnone']
  · rw [hstate, hstate']
    change (m.config.id ∈ metaData.replicaList ∧ (metaData.version ≤ state.described.version ∨
      (TopicState.ofMeta m.config.id metaData).CompareMeta state.described)) ↔ _
    rw [hsame]
    rfl

end Manager

namespace ControllerServer
variable {s₀ s : ControllerServer} {conn : Nat}

theorem messages_prefix (h : s₀.sent <+: s.sent) (conn : Nat) :
    s₀.messages conn <+: s.messages conn := h.filterMap _

theorem entriesSent_subset (h : s₀.sent <+: s.sent) : s₀.entriesSent ⊆ s.entriesSent := by
  intro r hr
  obtain ⟨message, hmessage, hentry⟩ := List.mem_flatMap.mp hr
  exact List.mem_flatMap.mpr ⟨message, h.subset hmessage, hentry⟩

theorem lastList_eq (s : ControllerServer) (conn : Nat) :
    s.lastList conn = ((s.messages conn).filterMap ControllerResponse.metaList?).getLast? := by
  rw [messages, List.filterMap_filterMap, lastList]
  congr 2
  funext message
  split <;> rfl

theorem mem_messages {response : ControllerResponse} (h : response ∈ s.messages conn) :
    (conn, response) ∈ s.sent := by
  obtain ⟨message, hmessage, heq⟩ := List.mem_filterMap.mp h
  split at heq
  · next hconn =>
      obtain rfl := Option.some.inj heq
      exact hconn ▸ hmessage
  · cases heq

end ControllerServer

/-- The topics of a list are distinct, and it is read back as it is. -/
def Readable (metaList : List TopicMetaDataResponse) : Prop :=
  (metaList.map TopicMetaDataResponse.topic).Nodup ∧
    (∀ r ∈ metaList, r.Legible ∧ r.OneLine) ∧ Deliverable metaList

theorem MetastoreManager.metaList_readable {m : MetastoreManager} (named : m.TopicsNamed)
    (spelled : m.Spelled) (deliverable : Deliverable m.metaList) : Readable m.metaList := by
  refine ⟨?_, fun r hr => ?_, deliverable⟩
  · rw [MetastoreManager.metaList, List.map_map]
    exact named.values.1
  · obtain ⟨hlegible, hline, -⟩ := spelled.legible hr
    exact ⟨hlegible, hline⟩

section End
variable {s s' : ControllerServer} {headers : Nat → Option String} {conn j : Nat} {b : BrokerEnd}

/-- The last list among the first `j` messages. -/
def ControllerServer.listAmong (s : ControllerServer) (conn j : Nat) :
    Option (List TopicMetaDataResponse) :=
  (((s.messages conn).take j).filterMap ControllerResponse.metaList?).getLast?

/-- The broker is at work on the list: what it holds agrees with the list but for the steps
that are still to be done. -/
structure Underway (b : BrokerEnd) (metaList : List TopicMetaDataResponse) : Prop where
  removes : ∀ topic, .remove topic ∈ b.todo →
    topic ∉ metaList.map TopicMetaDataResponse.topic
  applies : ∀ r, .apply r ∈ b.todo → r ∈ metaList
  unlisted : ∀ topic, topic ∉ metaList.map TopicMetaDataResponse.topic →
    b.manager.topics.get? topic = none ∨ .remove topic ∈ b.todo
  listed : ∀ r ∈ metaList, Harmless b.manager r ∨ .apply r ∈ b.todo

/-- The state is one that a message has described. -/
def Told (s : ControllerServer) (id topic : String) (state : TopicState) : Prop :=
  ∃ r ∈ s.entriesSent, r.topic = topic ∧ id ∈ r.replicaList ∧
    state.described = TopicState.ofMeta id r

/-- The broker has read `j` messages. -/
structure EndAt (headers : Nat → Option String) (s : ControllerServer) (conn : Nat) (b : BrokerEnd)
    (j : Nat) : Prop where
  built : b.manager.Built
  bound : j ≤ (s.messages conn).length
  taken : b.taken = (ControllerResponse.bytesOf headers ((s.messages conn).take j)).length
  told : ∀ topic state, b.manager.topics.get? topic = some state →
    Told s b.manager.config.id topic state
  fresh : s.listAmong conn j = none → b.todo = [] ∧ ∀ topic, b.manager.topics.get? topic = none
  underway : ∀ metaList, s.listAmong conn j = some metaList → Underway b metaList

theorem Told.described {id topic : String} {state state' : TopicState} (h : Told s id topic state)
    (hsame : state'.described = state.described) : Told s id topic state' := by
  obtain ⟨r, hr, htopic, hmember, hdescribed⟩ := h
  exact ⟨r, hr, htopic, hmember, hsame.trans hdescribed⟩

/-- What the controller writes does not change what has been read. -/
theorem EndAt.write (ok : EndAt headers s conn b j) (h : s.sent <+: s'.sent) :
    EndAt headers s' conn b j := by
  have hmessages := ControllerServer.messages_prefix h conn
  have htake : (s'.messages conn).take j = (s.messages conn).take j := by
    obtain ⟨more, hmore⟩ := hmessages
    rw [← hmore, List.take_append_of_le_length ok.bound]
  have hlast : s'.listAmong conn j = s.listAmong conn j := by
    rw [ControllerServer.listAmong, htake, ControllerServer.listAmong]
  refine ⟨ok.built, ok.bound.trans hmessages.length_le, htake ▸ ok.taken,
    fun topic state hget => ?_, ?_, ?_⟩
  · obtain ⟨r, hr, hrest⟩ := ok.told topic state hget
    exact ⟨r, ControllerServer.entriesSent_subset h hr, hrest⟩
  · rw [hlast]
    exact ok.fresh
  · rw [hlast]
    exact ok.underway

/-- Other tasks change nothing that a list is compared with. -/
theorem EndAt.call (ok : EndAt headers s conn b j) (c : BrokerCall) :
    EndAt headers s conn { b with manager := b.manager.call c } j := by
  have same := ReplicaManager.call_sameStates ok.built c
  have hnone : ∀ topic, (b.manager.call c).topics.get? topic = none ↔
      b.manager.topics.get? topic = none := by
    intro topic
    rw [← Option.map_eq_none_iff, same.described, Option.map_eq_none_iff]
  refine ⟨same.built, ok.bound, ok.taken, fun topic state hget => ?_, fun hread => ?_,
    fun metaList hread => ?_⟩
  · have hsome := same.described topic
    rw [show (b.manager.call c).topics.get? topic = some state from hget, Option.map_some] at hsome
    obtain ⟨state', hget', hsame⟩ := Option.map_eq_some_iff.mp hsome.symm
    change Told s (b.manager.call c).config.id topic state
    rw [same.config]
    exact (ok.told topic state' hget').described hsame.symm
  · obtain ⟨htodo, hempty⟩ := ok.fresh hread
    exact ⟨htodo, fun topic => (hnone topic).mpr (hempty topic)⟩
  · have work := ok.underway metaList hread
    refine ⟨work.removes, work.applies, fun topic hnot => ?_, fun r hr => ?_⟩
    · exact (work.unlisted topic hnot).imp_left (hnone topic).mpr
    · exact (work.listed r hr).imp_left
        (harmless_of_described same.config (same.described r.topic)).mpr

theorem listAmong_succ {response : ControllerResponse}
    (h : (s.messages conn)[j]? = some response) :
    s.listAmong conn (j + 1) = response.metaList?.or (s.listAmong conn j) := by
  rw [ControllerServer.listAmong, List.take_add_one, h, Option.toList_some, List.filterMap_append,
    List.getLast?_append]
  cases hlist : response.metaList? with
  | none => simp [hlist, ControllerServer.listAmong]
  | some metaList => simp [hlist]

/-- The bytes up to the next message, and those from it on. -/
theorem bytesOf_succ {response : ControllerResponse} (h : (s.messages conn)[j]? = some response) :
    (ControllerResponse.bytesOf headers ((s.messages conn).take (j + 1))).length =
      (ControllerResponse.bytesOf headers ((s.messages conn).take j)).length +
        (response.bytes (headers j)).length := by
  have hlength : ((s.messages conn).take j).length = j :=
    List.length_take_of_le (List.getElem?_eq_some_iff.mp h).1.le
  rw [List.take_add_one, h, Option.toList_some, bytesOf_append, hlength]
  simp [ControllerResponse.bytesOf]

/-- What the reader has not taken yet. -/
theorem EndAt.unread (ok : EndAt headers s conn b j) :
    (s.stream headers conn).drop b.taken =
      ControllerResponse.bytesOf (fun i => headers (j + i)) ((s.messages conn).drop j) := by
  have hsplit : s.stream headers conn =
      ControllerResponse.bytesOf headers ((s.messages conn).take j) ++
        ControllerResponse.bytesOf (fun i => headers (j + i)) ((s.messages conn).drop j) := by
    conv_lhs => rw [ControllerServer.stream, ← List.take_append_drop j (s.messages conn)]
    rw [bytesOf_append, List.length_take_of_le ok.bound]
  rw [hsplit, ok.taken, List.drop_left]

theorem listSteps_underway (m : ReplicaManager) (metaList : List TopicMetaDataResponse)
    {b : BrokerEnd} (hmanager : b.manager = m) (htodo : b.todo = BrokerEnd.listSteps m metaList) :
    Underway b metaList := by
  subst hmanager
  rw [BrokerEnd.listSteps] at htodo
  constructor
  · intro topic hmem
    rw [htodo] at hmem
    rcases List.mem_append.mp hmem with hremove | happly
    · obtain ⟨other, hother, heq⟩ := List.mem_map.mp hremove
      exact ListStep.remove.inj heq ▸ of_decide_eq_true (List.mem_filter.mp hother).2
    · obtain ⟨r, -, heq⟩ := List.mem_map.mp happly
      cases heq
  · intro r hmem
    rw [htodo] at hmem
    simpa using hmem
  · intro topic hnot
    by_cases hheld : topic ∈ b.manager.topics.keys
    · refine Or.inr ?_
      rw [htodo]
      exact List.mem_append_left _ (List.mem_map_of_mem
        (List.mem_filter.mpr ⟨hheld, by simpa using hnot⟩))
    · exact Or.inl ((Dict.get?_eq_none_iff _ _).mpr hheld)
  · intro r hr
    refine Or.inr ?_
    rw [htodo]
    exact List.mem_append_right _ (List.mem_map_of_mem hr)

/-- A message that is no list leaves the reader's work as it is. -/
theorem EndAt.pass (ok : EndAt headers s conn b j) {response : ControllerResponse}
    (h : (s.messages conn)[j]? = some response) (hnone : response.metaList? = none)
    (reading : Bool) :
    EndAt headers s conn
      ⟨b.manager, reading, b.taken + (response.bytes (headers j)).length, b.todo⟩ (j + 1) := by
  have hlast : s.listAmong conn (j + 1) = s.listAmong conn j := by
    rw [listAmong_succ h, hnone, Option.none_or]
  refine ⟨ok.built, (List.getElem?_eq_some_iff.mp h).1, ?_, ok.told,
    fun hread => ok.fresh (hlast ▸ hread), fun metaList hread => ?_⟩
  · rw [bytesOf_succ h, ok.taken]
  · have work := ok.underway metaList (hlast ▸ hread)
    exact ⟨work.removes, work.applies, work.unlisted, work.listed⟩

theorem BrokerEnd.receive_noList (b : BrokerEnd) {unread rest : Bytes}
    {result : Except ReadError (Option ResponsePacket)}
    (h : readResponseFrom unread .silent = (result, rest)) (hno : NoList result) :
    ∃ reading, b.receive unread =
      ⟨b.manager, reading, b.taken + (unread.length - rest.length), b.todo⟩ := by
  simp only [BrokerEnd.receive, h]
  split
  · exact absurd rfl hno.1
  · exact absurd trivial (hno.2 _ rfl)
  · exact ⟨false, rfl⟩
  · exact ⟨b.reading, rfl⟩
  · exact ⟨_, rfl⟩
  · exact ⟨_, rfl⟩

/-- The reader takes the next message when it is through with the last one. A response that
could not be encoded has left nothing on the stream. -/
theorem EndAt.receive (readable : s.Lists Readable) (named : ∀ i, HeaderOk (headers i))
    {unread : List ControllerResponse} (h : (s.messages conn).drop j = unread)
    (ok : EndAt headers s conn b j) :
    ∃ j', EndAt headers s conn
      (b.receive (ControllerResponse.bytesOf (fun i => headers (j + i)) unread)) j' := by
  induction unread generalizing j with
  | nil => exact ⟨j, ok⟩
  | cons response more ih =>
      have hnext : (s.messages conn)[j]? = some response := by
        rw [← List.head?_drop, h]
        rfl
      have hmore : (s.messages conn).drop (j + 1) = more := by
        rw [← List.tail_drop, h, List.tail_cons]
      simp only [ControllerResponse.bytesOf, Nat.add_zero]
      cases hlist : response.metaList? with
      | none =>
          cases hencoded : response.encoded (headers j) with
          | error err =>
              have hbytes : response.bytes (headers j) = [] := by
                simp only [ControllerResponse.bytes, hencoded]
              have hpass := ok.pass hnext hlist b.reading
              rw [hbytes, List.length_nil, Nat.add_zero] at hpass
              rw [hbytes, List.nil_append]
              have hreceive := ih hmore hpass
              simpa only [Nat.add_right_comm, Nat.add_assoc] using hreceive
          | ok frame =>
              obtain ⟨result, hread, hno⟩ := readResponseFrom_other hlist (named j) hencoded
                (ControllerResponse.bytesOf (fun i => headers (j + (i + 1))) more)
              obtain ⟨reading, hreceive⟩ := BrokerEnd.receive_noList b hread hno
              rw [hreceive, List.length_append, Nat.add_sub_cancel]
              exact ⟨j + 1, ok.pass hnext hlist reading⟩
      | some metaList =>
          have hresponse : response = .topicMetaDataList metaList := by
            cases response <;> simp [ControllerResponse.metaList?] at hlist
            rw [hlist]
          subst hresponse
          have hsent := ControllerServer.mem_messages (List.mem_of_getElem? hnext)
          obtain ⟨-, legible, deliverable⟩ := readable.sent _ hsent metaList rfl
          have hread := readResponseFrom_list (headers j) .silent legible deliverable
            (ControllerResponse.bytesOf (fun i => headers (j + (i + 1))) more)
          have hlast : s.listAmong conn (j + 1) = some metaList := listAmong_succ hnext
          simp only [BrokerEnd.receive, hread, List.length_append, Nat.add_sub_cancel]
          refine ⟨j + 1, ok.built, (List.getElem?_eq_some_iff.mp hnext).1, ?_, ok.told,
            fun hnone => ?_, fun metaList' hsome => ?_⟩
          · rw [bytesOf_succ hnext, ok.taken]
          · rw [hlast] at hnone
            cases hnone
          · obtain rfl := Option.some.inj (hlast.symm.trans hsome)
            exact listSteps_underway b.manager metaList rfl
              (by simp [TopicMetaDataResponse.running, Function.comp_def])

/-- A reader that has taken everything has read the last list. -/
theorem EndAt.listAmong_eq (ok : EndAt headers s conn b j) (readable : s.Lists Readable)
    (h : b.taken = (s.stream headers conn).length) : s.listAmong conn j = s.lastList conn := by
  have hnil : ControllerResponse.bytesOf (fun i => headers (j + i)) ((s.messages conn).drop j) =
      [] := by
    rw [← ok.unread, h, List.drop_length]
  have hnone : ((s.messages conn).drop j).filterMap ControllerResponse.metaList? = [] := by
    refine List.filterMap_eq_nil_iff.mpr fun response hmem => ?_
    obtain ⟨header, hbytes⟩ := bytesOf_eq_nil hnil hmem
    cases response with
    | topicMetaDataList metaList =>
        have hsent := ControllerServer.mem_messages (List.mem_of_mem_drop hmem)
        obtain ⟨-, legible, deliverable⟩ := readable.sent _ hsent metaList rfl
        exact absurd hbytes (deliverable.bytes_ne_nil legible header)
    | topicMetaData _ | controllerPing | error _ _ | notLeaderController _ _ _ => rfl
  rw [ControllerServer.lastList_eq]
  conv_rhs => rw [← List.take_append_drop j (s.messages conn), List.filterMap_append, hnone,
    List.append_nil]
  rfl

theorem Underway.mem_topics {metaList : List TopicMetaDataResponse} {r : TopicMetaDataResponse}
    (h : r ∈ metaList) : r.topic ∈ metaList.map TopicMetaDataResponse.topic := List.mem_map_of_mem h

theorem EndAt.remove (ok : EndAt headers s conn b j) {topic : String} {todo : List ListStep}
    (htodo : b.todo = .remove topic :: todo) :
    EndAt headers s conn { b with manager := (b.manager.removeTopic topic).1, todo } j := by
  obtain ⟨hconfig, hlog, htopics⟩ := removeTopic_spec b.manager topic
  have hkept : ∀ other state, (b.manager.removeTopic topic).1.topics.get? other = some state →
      b.manager.topics.get? other = some state := by
    intro other state hget
    rw [htopics] at hget
    split at hget
    · cases hget
    · exact hget
  refine ⟨⟨?_, fun other state hget => ok.built.entries other state (hkept other state hget)⟩,
    ok.bound, ok.taken, fun other state hget => ?_, fun hread => ?_, fun metaList hread => ?_⟩
  · rw [hlog]
    exact ok.built.shaped
  · change Told s (b.manager.removeTopic topic).1.config.id other state
    rw [hconfig]
    exact ok.told other state (hkept other state hget)
  · have hempty := (ok.fresh hread).1
    rw [htodo] at hempty
    cases hempty
  · have work := ok.underway metaList hread
    rw [show b = { b with todo := .remove topic :: todo } by rw [← htodo]] at work
    have hunlisted : topic ∉ metaList.map TopicMetaDataResponse.topic :=
      work.removes topic List.mem_cons_self
    refine ⟨fun other hmem => work.removes other (List.mem_cons_of_mem _ hmem),
      fun r hmem => work.applies r (List.mem_cons_of_mem _ hmem), fun other hnot => ?_, fun r hr => ?_⟩
    · by_cases heq : other = topic
      · exact Or.inl ((htopics other).trans (if_pos heq))
      · refine (work.unlisted other hnot).imp (fun hnone => ?_) fun hmem => ?_
        · exact (htopics other).trans ((if_neg heq).trans hnone)
        · refine (List.mem_cons.mp hmem).resolve_left fun hhead => heq ?_
          exact ListStep.remove.inj hhead
    · have hne : r.topic ≠ topic := fun heq => hunlisted (heq ▸ Underway.mem_topics hr)
      refine (work.listed r hr).imp ?_ fun hmem => (List.mem_cons.mp hmem).resolve_left (by simp)
      exact (harmless_congr hconfig ((htopics r.topic).trans (if_neg hne))).mpr

/-- A list that was read has been written, and its entries have been sent. -/
theorem listAmong_sent {metaList : List TopicMetaDataResponse}
    (h : s.listAmong conn j = some metaList) :
    (conn, .topicMetaDataList metaList) ∈ s.sent ∧ ∀ r ∈ metaList, r ∈ s.entriesSent := by
  obtain ⟨response, hresponse, hlist⟩ := List.mem_filterMap.mp (List.mem_of_getLast? h)
  have hsent := ControllerServer.mem_messages (List.mem_of_mem_take hresponse)
  cases response with
  | topicMetaDataList sentList =>
      obtain rfl := Option.some.inj hlist
      exact ⟨hsent, fun r hr => List.mem_flatMap.mpr ⟨_, hsent, hr⟩⟩
  | topicMetaData _ | controllerPing | error _ _ | notLeaderController _ _ _ => cases hlist

/-- What a message makes of a state is the state, or what it describes itself. -/
theorem placedBy_cases {id : String} {entry : Option TopicState}
    {metaData : TopicMetaDataResponse} {state : TopicState}
    (h : TopicState.placedBy id entry metaData = some state) :
    entry = some state ∨ id ∈ metaData.replicaList ∧ state = TopicState.ofMeta id metaData := by
  simp only [TopicState.placedBy] at h
  split at h
  · cases h
  · next hmember =>
      split at h
      · exact Or.inr ⟨not_not.mp hmember, (Option.some.inj h).symm⟩
      · split at h
        · exact Or.inl h
        · exact Or.inr ⟨not_not.mp hmember, (Option.some.inj h).symm⟩

/-- What one metadata of a list leaves. -/
theorem EndAt.apply (ok : EndAt headers s conn b j) (readable : s.Lists Readable)
    {metaData : TopicMetaDataResponse} {todo : List ListStep}
    (htodo : b.todo = .apply metaData :: todo) :
    EndAt headers s conn b.advance j := by
  obtain ⟨outcome, hok, places⟩ := applyMetadata_places ok.built metaData
  have applied := applyMetadata_applied b.manager metaData outcome hok
  have hadvance : b.advance = { b with manager := (b.manager.applyMetadata metaData).1, todo } := by
    simp only [BrokerEnd.advance, htodo]
    split
    · next manager err happly =>
        rw [happly] at hok
        cases hok
    · next manager outcome' happly => rw [happly]
  rw [hadvance]
  cases hread : s.listAmong conn j with
  | none =>
      have hempty := (ok.fresh hread).1
      rw [htodo] at hempty
      cases hempty
  | some metaList =>
      obtain ⟨hsent, hentries⟩ := listAmong_sent hread
      have hdistinct := (readable.sent _ hsent metaList rfl).1
      have work := ok.underway metaList hread
      rw [show b = { b with todo := .apply metaData :: todo } by rw [← htodo]] at work
      have hlisted : metaData ∈ metaList := work.applies metaData List.mem_cons_self
      refine ⟨places.built, ok.bound, ok.taken, fun topic state hget => ?_, fun hnone => ?_,
        fun metaList' hread' => ?_⟩
      · change Told s (b.manager.applyMetadata metaData).1.config.id topic state
        rw [applied.config]
        have hentry := places.entry topic
        rw [show (b.manager.applyMetadata metaData).1.topics.get? topic = some state from hget,
          placed_one] at hentry
        by_cases htopic : metaData.topic = topic
        · rw [if_pos htopic, Option.map_some] at hentry
          obtain ⟨placed, hplaced, hsame⟩ := Option.map_eq_some_iff.mp hentry.symm
          rcases placedBy_cases hplaced with hold | ⟨hmember, rfl⟩
          · exact (ok.told topic placed hold).described hsame.symm
          · exact ⟨metaData, hentries metaData hlisted, htopic, hmember, hsame.symm⟩
        · rw [applied.others topic (Ne.symm htopic)] at hget
          exact ok.told topic state hget
      · cases hread.symm.trans hnone
      · obtain rfl := Option.some.inj (hread.symm.trans hread')
        refine ⟨fun topic hmem => work.removes topic (List.mem_cons_of_mem _ hmem),
          fun r hmem => work.applies r (List.mem_cons_of_mem _ hmem), fun topic hnot => ?_,
          fun r hr => ?_⟩
        · have hne : topic ≠ metaData.topic := fun heq => hnot (heq ▸ Underway.mem_topics hlisted)
          refine (work.unlisted topic hnot).imp (fun hnone => ?_) fun hmem =>
            (List.mem_cons.mp hmem).resolve_left (by simp)
          exact (applied.others topic hne).trans hnone
        · by_cases heq : r.topic = metaData.topic
          · -- the list has one entry for each topic
            obtain rfl := List.inj_on_of_nodup_map hdistinct hr hlisted heq
            exact Or.inl applied.harmless
          · refine (work.listed r hr).imp ?_ fun hmem => (List.mem_cons.mp hmem).resolve_left
              fun hhead => heq (congrArg _ (ListStep.apply.inj hhead))
            exact (harmless_congr applied.config (applied.others r.topic heq)).mpr

end End

namespace ControlPlane
open ConsistentHashRing
variable {cfg : ControllerConfig} {headers : Nat → Nat → Option String} {ids : Set String}
  {s : ControlPlane} {conn : Nat} {topic : String}

instance (s : ControlPlane) (conn : Nat) : Decidable (s.CaughtUp headers conn) :=
  inferInstanceAs (Decidable (_ ∧ _ ∧ _))

structure ControlOk (cfg : ControllerConfig) (headers : Nat → Nat → Option String)
    (ids : Set String) (s : ControlPlane) : Prop where
  versions : s.server.VersionsOk cfg ids
  spelled : s.server.manager.Spelled
  deliverable : Deliverable s.server.manager.metaList
  lists : s.server.Lists Readable
  ends : ∀ conn, ∃ j, EndAt (headers conn) s.server conn (s.brokers conn) j

theorem ControlOk.setBroker (ok : ControlOk cfg headers ids s) {b : BrokerEnd}
    (h : ∃ j, EndAt (headers conn) s.server conn b j) :
    ControlOk cfg headers ids (s.setBroker conn b) := by
  refine ⟨ok.versions, ok.spelled, ok.deliverable, ok.lists, fun other => ?_⟩
  simp only [ControlPlane.setBroker, Function.update_apply]
  split
  · next heq => exact heq ▸ h
  · exact ok.ends other

theorem ControlOk.server (ok : ControlOk cfg headers ids s) (free : CollisionFree cfg.hash 50 ids)
    {e : ServerEvent}
    (hid : ∀ task brokerId host port,
      e = .run task (.frame (.brokerRegister brokerId host port)) → brokerId ∈ ids)
    (orderly : s.Orderly cfg (.server e)) :
    ControlOk cfg headers ids { s with server := s.server.step cfg e } := by
  obtain ⟨keeps, hspelled, deliverable⟩ := orderly
  have versions := ok.versions.step free hid keeps
  have spelled : (s.server.step cfg e).manager.Spelled :=
    ControllerServer.step_spelled ok.spelled hspelled
  have writes := ok.lists.step
    (MetastoreManager.metaList_readable ok.versions.metastore.named ok.spelled ok.deliverable)
    (MetastoreManager.metaList_readable versions.metastore.named spelled deliverable)
  refine ⟨versions, spelled, deliverable, writes.lists, fun conn => ?_⟩
  obtain ⟨j, read⟩ := ok.ends conn
  exact ⟨j, read.write writes.before⟩

theorem ControlOk.step (ok : ControlOk cfg headers ids s) (free : CollisionFree cfg.hash 50 ids)
    (named : ∀ conn i, HeaderOk (headers conn i)) {e : ControlEvent}
    (hid : ∀ task brokerId host port,
      e = .server (.run task (.frame (.brokerRegister brokerId host port))) → brokerId ∈ ids)
    (orderly : s.Orderly cfg e) : ControlOk cfg headers ids (s.step cfg headers e) := by
  cases e with
  | server e =>
      exact ok.server free (fun task brokerId host port heq =>
        hid task brokerId host port (congrArg _ heq)) orderly
  | receive conn =>
      simp only [ControlPlane.step]
      split
      · obtain ⟨j, read⟩ := ok.ends conn
        rw [read.unread]
        exact ok.setBroker (read.receive ok.lists (named conn) rfl)
      · exact ok
  | advance conn =>
      obtain ⟨j, read⟩ := ok.ends conn
      refine ok.setBroker ⟨j, ?_⟩
      cases htodo : (s.brokers conn).todo with
      | nil =>
          rw [BrokerEnd.advance, htodo]
          exact read
      | cons work todo =>
          cases work with
          | remove topic =>
              rw [BrokerEnd.advance, htodo]
              exact read.remove htodo
          | apply metaData => exact read.apply ok.lists htodo
  | call conn c =>
      obtain ⟨j, read⟩ := ok.ends conn
      exact ok.setBroker ⟨j, read.call c⟩

theorem start_ok (cfg : ControllerConfig) (headers : Nat → Nat → Option String) (ids : Set String)
    (replica : Nat → ReplicaConfig) (log : Nat → LogConfig) (importTime : Time) :
    ControlOk cfg headers ids (start replica log importTime) := by
  have hnone : ∀ conn topic state, ((start replica log importTime).brokers conn).manager.topics.get?
      topic = some state → False := fun conn topic state h => by cases h
  refine ⟨ControllerServer.versionsOk_new cfg ids, spelled_new, (by decide : Deliverable []),
    ControllerServer.lists_new _, fun conn => ⟨0, ?_⟩⟩
  refine ⟨⟨shaped_run (log conn) importTime [], fun topic state h => (hnone conn topic state h).elim⟩,
    Nat.zero_le _, rfl, fun topic state h => (hnone conn topic state h).elim,
    fun _ => ⟨rfl, fun _ => rfl⟩, fun metaList h => ?_⟩
  cases h

/-- A broker that has caught up holds what the metastore says. -/
theorem ControlOk.holds (ok : ControlOk cfg headers ids s) (caught : s.CaughtUp headers conn)
    (topic : String) : s.Holds conn topic := by
  obtain ⟨htaken, htodo, hlast⟩ := caught
  obtain ⟨j, read⟩ := ok.ends conn
  have work := read.underway _ ((read.listAmong_eq ok.lists htaken).trans hlast)
  have named := ok.versions.metastore.named
  unfold Holds
  cases hget : s.server.manager.storage.topics.get? topic with
  | none =>
      refine (work.unlisted topic fun hmem => ?_).resolve_right (by simp [htodo])
      obtain ⟨r, hr, rfl⟩ := List.mem_map.mp hmem
      obtain ⟨name, t, hstored, rfl⟩ := ControllerServer.mem_metaList hr
      rw [show (s.server.manager.describe t).topic = name from named name t hstored, hstored] at hget
      cases hget
  | some t =>
      have hname : (s.server.manager.describe t).topic = topic := named topic t hget
      have hlisted : s.server.manager.describe t ∈ s.server.manager.metaList :=
        List.mem_map_of_mem ((Dict.mem_values_iff _ _).mpr ⟨topic, hget⟩)
      have harmless := (work.listed _ hlisted).resolve_right (by simp [htodo])
      rw [Harmless, hname] at harmless
      simp only
      cases hheld : (s.brokers conn).manager.topics.get? topic with
      | none =>
          rw [hheld] at harmless
          exact harmless
      | some state =>
          rw [hheld] at harmless
          refine ⟨harmless.1, harmless.2.elim (fun hversion => ?_) id⟩
          -- a state of the stored version comes from a message that says the same
          obtain ⟨r, hr, htopic, -, hdescribed⟩ := read.told topic state hheld
          obtain ⟨t', hget', hle, hsame⟩ := ok.versions.current r hr
          rw [htopic, hget] at hget'
          obtain rfl := Option.some.inj hget'
          have hstate : state.version = r.version := congrArg TopicState.version hdescribed
          have hstored : t.version ≤ state.version := hversion
          obtain rfl := hsame (le_antisymm hle (hstate ▸ hstored))
          change (TopicState.ofMeta _ _).CompareMeta state.described
          rw [hdescribed]
          exact CompareMeta.refl _

theorem ControlOk.serves_iff (ok : ControlOk cfg headers ids s) (holds : s.Holds conn topic) :
    s.Serves conn topic ↔ s.Elected (s.brokers conn).manager.config.id topic := by
  unfold Holds at holds
  obtain ⟨j, read⟩ := ok.ends conn
  constructor
  · rintro ⟨leader, hleader⟩
    obtain ⟨state, hget, hrole⟩ : ∃ state,
        (s.brokers conn).manager.topics.get? topic = some state ∧ state.role = .leader := by
      simp only [ReplicaManager.getLeader] at hleader
      split at hleader
      · cases hleader
      · next state hget =>
          split at hleader
          · next found hrole _ => exact ⟨state, hget, hrole⟩
          · cases hleader
    cases hstored : s.server.manager.storage.topics.get? topic with
    | none =>
        rw [hstored] at holds
        cases hget.symm.trans holds
    | some t =>
        simp only [hstored, hget] at holds
        refine ⟨t, hstored, ?_, holds.1⟩
        by_contra hne
        have hfollows : (TopicState.ofMeta (s.brokers conn).manager.config.id
            (s.server.manager.describe t)).role = .follower := if_neg hne
        cases (hfollows.symm.trans holds.2.2.1).trans hrole
  · rintro ⟨t, hstored, hleads, hmember⟩
    simp only [hstored] at holds
    cases hget : (s.brokers conn).manager.topics.get? topic with
    | none =>
        rw [hget] at holds
        exact absurd hmember holds
    | some state =>
        rw [hget] at holds
        have hrole : state.role = .leader := by
          rw [← holds.2.2.1]
          exact if_pos hleads
        obtain ⟨leader, hleader⟩ :=
          Option.isSome_iff_exists.mp ((read.built.entries topic state hget).leader hrole).1
        exact ⟨leader, by simp only [ReplicaManager.getLeader, hget, hrole, hleader]⟩

/-- At any time every state that a broker holds is one that a message has described. A broker
that has caught up holds what the metastore says and answers for exactly the topics that it
has been elected for as one of their replicas, so no two that have caught up answer for one
topic. -/
theorem control_plane_agrees (cfg : ControllerConfig) (headers : Nat → Nat → Option String)
    (replica : Nat → ReplicaConfig) (log : Nat → LogConfig) (importTime : Time)
    (events : List ControlEvent)
    (free : CollisionFree cfg.hash 50 (ControllerServer.brokersIn (serverEvents events)))
    (named : ∀ conn i, HeaderOk (headers conn i))
    (orderly : MeetsAll (next cfg headers) (Orderly cfg) (start replica log importTime) events) :
    let s := run (next cfg headers) (start replica log importTime) events
    (∀ conn topic state, (s.brokers conn).manager.topics.get? topic = some state →
      Told s.server (s.brokers conn).manager.config.id topic state) ∧
    (∀ conn, s.CaughtUp headers conn → ∀ topic, s.Holds conn topic ∧
      (s.Serves conn topic ↔ s.Elected (s.brokers conn).manager.config.id topic)) ∧
    ∀ conn conn' topic, s.CaughtUp headers conn → s.CaughtUp headers conn' →
      s.Serves conn topic → s.Serves conn' topic →
        (s.brokers conn).manager.config.id = (s.brokers conn').manager.config.id := by
  intro s
  have ok : ControlOk cfg headers (ControllerServer.brokersIn (serverEvents events)) s :=
    (orderly.with_mem fun _ h => h).invariant (ControlOk cfg headers _)
      (fun s e ok hstep => ok.step free named (fun task brokerId host port heq =>
        ⟨task, host, port, List.mem_filterMap.mpr ⟨e, hstep.1, by rw [heq]⟩⟩) hstep.2)
      (start_ok cfg headers _ replica log importTime)
  have serves : ∀ conn, s.CaughtUp headers conn → ∀ topic,
      (s.Serves conn topic ↔ s.Elected (s.brokers conn).manager.config.id topic) :=
    fun conn caught topic => ok.serves_iff (ok.holds caught topic)
  refine ⟨fun conn => ?_, fun conn caught topic =>
    ⟨ok.holds caught topic, serves conn caught topic⟩, ?_⟩
  · obtain ⟨j, read⟩ := ok.ends conn
    exact read.told
  · intro conn conn' topic caught caught' hserves hserves'
    obtain ⟨t, hget, hid, -⟩ := (serves conn caught topic).mp hserves
    obtain ⟨t', hget', hid', -⟩ := (serves conn' caught' topic).mp hserves'
    obtain rfl := Option.some.inj (hget.symm.trans hget')
    exact hid.symm.trans hid'

def brokerReplica (conn : Nat) : ReplicaConfig := ⟨"b" ++ toString conn, 1048576, 2, 10000⟩

def brokerLog (_ : Nat) : LogConfig := ⟨"data", 0, 1000000, 100, 16, 16, 4⟩

/-- The correlation ids of the requests. -/
def requestIds (_ i : Nat) : Option String := some (String.ofList (List.replicate (i + 1) 'r'))

/-- A broker registers, a topic is placed on it, and it reads what it is told. -/
def placedOnFirst : List ControlEvent :=
  (.accept 1 :: (ControllerServer.handled 1 (.brokerRegister "b1" "h1" 1) 4 ++
    ControllerServer.handled 1 (.registerTopic "t") 4)).map .server ++
    [.receive 1, .receive 1, .receive 1, .receive 1, .advance 1]

theorem brokersIn_placedOnFirst :
    ControllerServer.brokersIn (serverEvents placedOnFirst) ⊆ { id | id ∈ ["b1", "b2"] } := by
  rintro id ⟨task, host, port, hmem⟩
  have hid : id = "b1" := by
    simp [placedOnFirst, serverEvents, ControllerServer.handled, List.replicate] at hmem
    exact hmem.2.1
  exact hid ▸ List.mem_cons_self

theorem requestIds_ok (conn i : Nat) : HeaderOk (requestIds conn i) := by
  intro id hid
  obtain rfl := Option.some.inj hid
  exact ⟨by simp [List.replicate_succ], by simp [List.mem_replicate]⟩

theorem control_plane_agrees_placedOnFirst :
    let s := run (next ControllerServer.oneReplica requestIds) (start brokerReplica brokerLog 0)
      placedOnFirst
    s.CaughtUp requestIds 1 ∧ ∀ topic, s.Holds 1 topic ∧
      (s.Serves 1 topic ↔ s.Elected (s.brokers 1).manager.config.id topic) := by
  have orderly : MeetsAll (next ControllerServer.oneReplica requestIds)
      (Orderly ControllerServer.oneReplica) (start brokerReplica brokerLog 0) placedOnFirst := by
    decide +kernel
  have caught : (run (next ControllerServer.oneReplica requestIds)
      (start brokerReplica brokerLog 0) placedOnFirst).CaughtUp requestIds 1 := by decide +kernel
  exact ⟨caught, (control_plane_agrees ControllerServer.oneReplica requestIds brokerReplica
    brokerLog 0 placedOnFirst (collisionFree_twoBrokers.mono brokersIn_placedOnFirst)
    requestIds_ok orderly).2.1 1 caught⟩

/-- A broadcast waits for its first connection while a topic is registered and announced. It
goes on with the list it has begun with, and the broker elected drops the topic. -/
theorem overtaken_list_drops_topic :
    let s := run (next ControllerServer.oneReplica requestIds) (start brokerReplica brokerLog 0)
      ((.accept 1 :: .accept 2 :: (ControllerServer.handled 1 (.brokerRegister "b1" "h1" 1) 4 ++
        ControllerServer.handled 2 (.brokerRegister "b2" "h2" 1) 2 ++
        ControllerServer.handled 1 (.registerTopic "t") 5 ++
        List.replicate 3 (.run (.handler 2) (.resume false)))).map .server ++
        [.receive 2, .receive 2, .advance 2, .receive 2, .advance 2])
    s.server.manager.metaList = [⟨"t", "b2", "h2", 1, ["b2"], 1⟩] ∧
      (s.brokers 2).taken = (s.server.stream (requestIds 2) 2).length ∧
        (s.brokers 2).todo = [] ∧ (s.brokers 2).manager.topics.get? "t" = none := by
  decide +kernel

end ControlPlane

end PyLogStream
