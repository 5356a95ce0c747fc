import PyLogStream.Controller.Steps
import PyLogStream.Metastore.Calls
import PyLogStream.Metastore.Effects

/-!
Which brokers a controller keeps registered. Registrations are kept by broker id, but
they are refreshed and torn down by connections: the teardown of an old connection
takes away whatever is registered under its id by then. If every teardown and every
ping meets the registration of its own connection, a broker whose connection is open
and within its heartbeat timeout stays registered.
-/

namespace PyLogStream
open Lib
namespace ControllerServer

/-- The events of a run in which the leadership does not change. -/
def OnConnections : ServerEvent → Prop
  | .leaderGone _ => False
  | _ => True

instance (e : ServerEvent) : Decidable (OnConnections e) :=
  match e with
  | .leaderGone _ => isFalse id
  | .tick _ | .accept _ | .lose _ | .run _ _ => isTrue trivial

section
variable (cfg : ControllerConfig) (s : ControllerServer)

/-- The teardown was started for this registration, and it is still overdue if that
was the reason. -/
def Concerns (entry : ActiveBroker) : Cause → Prop
  | .left conn | .failed conn => entry.conn = conn
  | .overdue => s.now - entry.lastHeartbeat > cfg.heartbeatTimeout

instance (entry : ActiveBroker) (cause : Cause) : Decidable (s.Concerns cfg entry cause) :=
  match cause with
  | .left conn | .failed conn => inferInstanceAs (Decidable (entry.conn = conn))
  | .overdue => inferInstanceAs (Decidable (_ > _))

/-- A connection registers one broker only, and a ping comes in on the connection
that has registered the broker. -/
def OwnFrame (task : TaskId) (cmd : ControllerCommand) : Prop :=
  match task, cmd with
  | .handler conn, .brokerRegister brokerId _ _ =>
    ∀ other ∈ (s.conns conn).brokerId, other = brokerId
  | .handler conn, .controllerPing _ =>
    ∀ brokerId ∈ (s.conns conn).brokerId,
      ∀ entry ∈ s.activeBrokers.get? brokerId, entry.conn = conn
  | _, _ => True

instance (task : TaskId) (cmd : ControllerCommand) : Decidable (s.OwnFrame task cmd) :=
  match task, cmd with
  | .handler conn, .brokerRegister brokerId _ _ =>
    inferInstanceAs (Decidable (∀ other ∈ (s.conns conn).brokerId, other = brokerId))
  | .handler conn, .controllerPing _ =>
    inferInstanceAs (Decidable (∀ brokerId ∈ (s.conns conn).brokerId,
      ∀ entry ∈ s.activeBrokers.get? brokerId, entry.conn = conn))
  | .handler _, .registerTopic _ | .handler _, .metadataRequest _ | .handler _, .isrChange _ _
  | .handler _, .other | .heartbeat, _ | .leaderGone _, _ => isTrue trivial

/-- A teardown meets the registration it was started for, and no broker has registered
again when its deregistration comes. -/
def OwnWork : List Work → Prop
  | .disconnect ((brokerId, cause) :: _) :: _ =>
    ∀ entry ∈ s.activeBrokers.get? brokerId, s.Concerns cfg entry cause
  | .deregister brokerId :: _ => s.activeBrokers.get? brokerId = none
  | _ => True

instance (work : List Work) : Decidable (s.OwnWork cfg work) :=
  match work with
  | .disconnect ((brokerId, cause) :: _) :: _ =>
    inferInstanceAs (Decidable (∀ entry ∈ s.activeBrokers.get? brokerId, s.Concerns cfg entry cause))
  | .deregister brokerId :: _ =>
    inferInstanceAs (Decidable (s.activeBrokers.get? brokerId = none))
  | [] | .disconnect [] :: _ | .serve :: _ | .drain :: _ | .broadcast :: _
  | .drained _ _ _ _ _ :: _ | .checkHeartbeats :: _ | .reject :: _ | .notLeader :: _
  | .dropBrokers _ _ :: _ | .dropped _ _ _ :: _ | .election :: _ => isTrue trivial

/-- Every teardown and every heartbeat meets the registration of its own connection. -/
def OwnRegistration : ServerEvent → Prop
  | .run task (.resume _) => s.OwnWork cfg (s.tasks task)
  | .run task (.frame cmd) => (s.tasks task).head? = some .serve → s.OwnFrame task cmd
  | _ => True

instance (e : ServerEvent) : Decidable (s.OwnRegistration cfg e) :=
  match e with
  | .run task (.resume _) => inferInstanceAs (Decidable (s.OwnWork cfg (s.tasks task)))
  | .run task (.frame cmd) =>
    inferInstanceAs (Decidable ((s.tasks task).head? = some .serve → s.OwnFrame task cmd))
  | .run _ .malformed | .run _ .stopped | .run _ (.leader _) | .run _ (.elected _)
  | .tick _ | .accept _ | .lose _ | .leaderGone _ => isTrue trivial

end

/-- What a pending teardown has been started for. -/
def CauseOk (conns : Nat → Connection) : Cause → Prop
  | .left conn => (conns conn).serving = false ∧ (conns conn).brokerId ≠ none
  | .failed conn => (conns conn).lost = true ∨ (conns conn).closed = true
  | .overdue => True

def WorkOk (conns : Nat → Connection) : Work → Prop
  | .drained _ _ _ _ disconnected => ∀ item ∈ disconnected, CauseOk conns item.2
  | .disconnect todo => ∀ item ∈ todo, CauseOk conns item.2
  | .reject | .notLeader | .dropBrokers _ _ | .dropped _ _ _ | .election => False
  | .serve | .drain | .broadcast | .deregister _ | .checkHeartbeats => True

/-- The registrations and what is pending for them. -/
structure RegistrationOk (cfg : ControllerConfig) (s : ControllerServer) : Prop where
  leads : s.isLeader = true
  work : ∀ task, ∀ w ∈ s.tasks task, WorkOk s.conns w
  closed : ∀ conn, (s.conns conn).closed = true → (s.conns conn).retired = true
  owner : ∀ id conn, s.registrant id = some conn → (s.conns conn).brokerId = some id
  entry : ∀ id e, s.activeBrokers.get? id = some e → s.registrant id = some e.conn ∧
    e.lastHeartbeat = (s.conns e.conn).lastHeartbeat ∧ s.manager.storage.nodes.get? id ≠ none
  gone : ∀ id conn, s.registrant id = some conn → s.activeBrokers.get? id = none →
    (s.conns conn).retired = true

section
variable {cfg : ControllerConfig} {s : ControllerServer} {task : TaskId} {rest : List Work}

theorem RegistrationOk.setTask (ok : RegistrationOk cfg s) {work : List Work}
    (h : ∀ w ∈ work, WorkOk s.conns w) : RegistrationOk cfg (s.setTask task work) := by
  refine ⟨ok.leads, fun task' w hw => ?_, ok.closed, ok.owner, ok.entry, ok.gone⟩
  simp only [ControllerServer.setTask, Function.update_apply] at hw
  split at hw
  · exact h w hw
  · exact ok.work task' w hw

theorem RegistrationOk.write (ok : RegistrationOk cfg s) (conn : Nat)
    (response : ControllerResponse) : RegistrationOk cfg (s.write conn response) :=
  ⟨ok.leads, ok.work, ok.closed, ok.owner, ok.entry, ok.gone⟩

theorem RegistrationOk.changeManager (ok : RegistrationOk cfg s) {manager : MetastoreManager}
    (kept : ∀ id, s.activeBrokers.get? id ≠ none → s.manager.storage.nodes.get? id ≠ none →
      manager.storage.nodes.get? id ≠ none) : RegistrationOk cfg { s with manager } := by
  refine ⟨ok.leads, ok.work, ok.closed, ok.owner, fun id e he => ?_, ok.gone⟩
  obtain ⟨hregistrant, hbeat, hnode⟩ := ok.entry id e he
  exact ⟨hregistrant, hbeat, kept id (by rw [he]; simp) hnode⟩

/-- A connection changes, and keeps what its registration and its teardown rest on. -/
structure Advances (c c' : Connection) : Prop where
  departed : c.serving = false → c.brokerId ≠ none → c'.serving = false ∧ c'.brokerId ≠ none
  lost : c.lost = true → c'.lost = true
  closed : c.closed = true → c'.closed = true

theorem CauseOk.setConn {conn : Nat} {c' : Connection} (h : Advances (s.conns conn) c')
    {cause : Cause} (ok : CauseOk s.conns cause) : CauseOk (s.setConn conn c').conns cause := by
  cases cause with
  | overdue => trivial
  | left other =>
      simp only [ControllerServer.setConn, CauseOk, Function.update_apply]
      split
      · next heq => exact h.departed (heq ▸ ok.1) (heq ▸ ok.2)
      · exact ok
  | failed other =>
      simp only [ControllerServer.setConn, CauseOk, Function.update_apply]
      split
      · next heq => exact Or.imp h.lost h.closed (heq ▸ ok)
      · exact ok

theorem WorkOk.setConn {conn : Nat} {c' : Connection} (h : Advances (s.conns conn) c') {w : Work}
    (ok : WorkOk s.conns w) : WorkOk (s.setConn conn c').conns w := by
  cases w with
  | drained metaList brokerId conn' more disconnected =>
      exact fun item hitem => CauseOk.setConn h (ok item hitem)
  | disconnect todo => exact fun item hitem => CauseOk.setConn h (ok item hitem)
  | reject | notLeader | dropBrokers _ _ | dropped _ _ _ | election => exact ok
  | serve | drain | broadcast | deregister _ | checkHeartbeats => trivial

/-- A change that leaves the broker and the heartbeat of a connection alone. -/
theorem RegistrationOk.setConn (ok : RegistrationOk cfg s) {conn : Nat} {c' : Connection}
    (h : Advances (s.conns conn) c') (hid : c'.brokerId = (s.conns conn).brokerId)
    (hbeat : c'.lastHeartbeat = (s.conns conn).lastHeartbeat)
    (hclosed : c'.closed = true → c'.retired = true)
    (hretired : (s.conns conn).retired = true → c'.retired = true) :
    RegistrationOk cfg (s.setConn conn c') := by
  refine ⟨ok.leads, fun task w hw => (ok.work task w hw).setConn h, fun conn' => ?_,
    fun id conn' hr => ?_, fun id e he => ?_, fun id conn' hr he => ?_⟩
  · simp only [ControllerServer.setConn, Function.update_apply]
    split
    · exact hclosed
    · exact ok.closed conn'
  · have howner := ok.owner id conn' hr
    simp only [ControllerServer.setConn, Function.update_apply]
    split
    · next heq => rw [hid, ← heq, howner]
    · exact howner
  · obtain ⟨hregistrant, hlast, hnode⟩ := ok.entry id e he
    refine ⟨hregistrant, ?_, hnode⟩
    simp only [ControllerServer.setConn, Function.update_apply]
    split
    · next heq => rw [hbeat, ← heq, hlast]
    · exact hlast
  · have hgone := ok.gone id conn' hr he
    simp only [ControllerServer.setConn, Function.update_apply]
    split
    · next heq => exact hretired (heq ▸ hgone)
    · exact hgone

theorem RegistrationOk.closeConn (ok : RegistrationOk cfg s) {conn : Nat}
    (h : ¬ s.Live cfg conn) : RegistrationOk cfg (s.closeConn cfg conn) :=
  ok.setConn ⟨And.intro, id, fun _ => rfl⟩ rfl rfl (fun _ => by simp [h]) (fun hr => by simp [hr])

theorem RegistrationOk.leave (ok : RegistrationOk cfg s) (conn : Nat) :
    RegistrationOk cfg (s.leave cfg conn) := by
  have hleft : RegistrationOk cfg (s.setConn conn { s.conns conn with serving := false }) :=
    ok.setConn ⟨fun _ h => ⟨rfl, h⟩, id, id⟩ rfl rfl (ok.closed conn) id
  have hclose : RegistrationOk cfg
      ((s.setConn conn { s.conns conn with serving := false }).closeConn cfg conn) := by
    refine hleft.closeConn fun hlive => ?_
    have hserving := hlive.1
    simp [ControllerServer.setConn] at hserving
  simp only [ControllerServer.leave]
  split
  · next brokerId hid =>
      split
      · exact hclose.setTask (by simp)
      · refine hleft.setTask fun w hw => ?_
        obtain rfl := List.mem_singleton.mp hw
        intro item hitem
        obtain rfl := List.mem_singleton.mp hitem
        simp [CauseOk, ControllerServer.setConn, hid]
  · exact hclose.setTask (by simp)

theorem RegistrationOk.raise (ok : RegistrationOk cfg s) (task : TaskId) :
    RegistrationOk cfg (s.raise cfg task) := by
  cases task with
  | handler conn =>
      simp only [ControllerServer.raise]
      split
      · exact ok.leave conn
      · exact ok.setTask (by simp)
  | heartbeat => exact ok.setTask (by simp)
  | leaderGone n => exact ok.setTask (by simp)

theorem RegistrationOk.sendNext (ok : RegistrationOk cfg s) (hrest : ∀ w ∈ rest, WorkOk s.conns w)
    (metaList : List TopicMetaDataResponse) {disconnected : List (String × Cause)}
    (h : ∀ item ∈ disconnected, CauseOk s.conns item.2) (targets : List (String × Nat)) :
    RegistrationOk cfg (s.sendNext task rest metaList disconnected targets) := by
  cases targets with
  | nil => exact ok.setTask (List.forall_mem_cons.mpr ⟨h, hrest⟩)
  | cons target more => exact (ok.write _ _).setTask (List.forall_mem_cons.mpr ⟨h, hrest⟩)

theorem RegistrationOk.broadcastMetadata (ok : RegistrationOk cfg s)
    (hrest : ∀ w ∈ rest, WorkOk s.conns w) : RegistrationOk cfg (s.broadcastMetadata task rest) :=
  ok.sendNext hrest _ (fun _ h => absurd h List.not_mem_nil) _

/-- A teardown that meets its own registration closes no live connection. -/
theorem RegistrationOk.not_live (ok : RegistrationOk cfg s) {id : String} {entry : ActiveBroker}
    {cause : Cause} (hentry : s.activeBrokers.get? id = some entry)
    (hcause : CauseOk s.conns cause) (hown : s.Concerns cfg entry cause) :
    ¬ s.Live cfg entry.conn := by
  rintro ⟨hserving, hlost, hretired, htimely⟩
  cases cause with
  | left conn =>
      rw [show entry.conn = conn from hown, hcause.1] at hserving
      cases hserving
  | failed conn =>
      rw [show entry.conn = conn from hown] at hlost hretired
      cases hcause with
      | inl h =>
          rw [h] at hlost
          cases hlost
      | inr h =>
          rw [ok.closed conn h] at hretired
          cases hretired
  | overdue =>
      have hlate : s.now - entry.lastHeartbeat > cfg.heartbeatTimeout := hown
      rw [(ok.entry id entry hentry).2.1] at hlate
      omega

theorem RegistrationOk.erase (ok : RegistrationOk cfg s) (brokerId : String)
    (hretired : ∀ conn, s.registrant brokerId = some conn → (s.conns conn).retired = true) :
    RegistrationOk cfg { s with activeBrokers := s.activeBrokers.erase brokerId } := by
  refine ⟨ok.leads, ok.work, ok.closed, ok.owner, fun id e he => ?_, fun id conn hr he => ?_⟩
  · rw [Dict.get?_erase] at he
    split at he
    · cases he
    · exact ok.entry id e he
  · rw [Dict.get?_erase] at he
    split at he
    · next heq => exact hretired conn (heq ▸ hr)
    · exact ok.gone id conn hr he

theorem RegistrationOk.disconnect (ok : RegistrationOk cfg s)
    (hrest : ∀ w ∈ rest, WorkOk s.conns w) {brokerId : String} {cause : Cause}
    {more : List (String × Cause)}
    (hcauses : ∀ item ∈ (brokerId, cause) :: more, CauseOk s.conns item.2)
    (hown : ∀ entry ∈ s.activeBrokers.get? brokerId, s.Concerns cfg entry cause) :
    RegistrationOk cfg (s.disconnect cfg task rest brokerId more) := by
  obtain ⟨hcause, hmore⟩ := List.forall_mem_cons.mp hcauses
  simp only [ControllerServer.disconnect]
  split
  · exact ok.setTask (List.forall_mem_cons.mpr ⟨hmore, hrest⟩)
  · next entry hentry =>
      have hdead := ok.not_live hentry hcause (hown entry hentry)
      have hclosed : RegistrationOk cfg (s.closeConn cfg entry.conn) := ok.closeConn hdead
      have herased := hclosed.erase brokerId fun conn hr => by
        have hregistrant := (ok.entry brokerId entry hentry).1
        obtain rfl : conn = entry.conn := Option.some.inj (hr.symm.trans hregistrant)
        simp [ControllerServer.closeConn, ControllerServer.setConn, hdead]
      have hadvances : Advances (s.conns entry.conn)
          { s.conns entry.conn with
            closed := true
            retired := (s.conns entry.conn).retired || !decide (s.Live cfg entry.conn) } :=
        ⟨And.intro, id, fun _ => rfl⟩
      refine herased.setTask (List.forall_mem_cons.mpr ⟨trivial,
        List.forall_mem_cons.mpr ⟨fun item h => (hmore item h).setConn hadvances,
          fun w h => (hrest w h).setConn hadvances⟩⟩)

/-- The state after a registration, apart from the answer. -/
theorem RegistrationOk.register (ok : RegistrationOk cfg s) {conn : Nat} {brokerId host : String}
    {port : Int} (one : ∀ other ∈ (s.conns conn).brokerId, other = brokerId)
    {manager : MetastoreManager}
    (hnodes : ∀ id, id = brokerId ∨ s.manager.storage.nodes.get? id ≠ none →
      manager.storage.nodes.get? id ≠ none) :
    RegistrationOk cfg
      { s.setConn conn { s.conns conn with brokerId := some brokerId, lastHeartbeat := s.now } with
        activeBrokers := s.activeBrokers.set brokerId ⟨conn, s.now, host, port⟩
        registrant := Function.update s.registrant brokerId (some conn)
        manager } := by
  have hadvances : Advances (s.conns conn)
      { s.conns conn with brokerId := some brokerId, lastHeartbeat := s.now } :=
    ⟨fun h _ => ⟨h, by simp⟩, id, id⟩
  -- a broker registered by this connection is this one
  have hsame : ∀ id, s.registrant id = some conn → id = brokerId :=
    fun id hr => one id (ok.owner id conn hr)
  refine ⟨ok.leads, fun task w hw => (ok.work task w hw).setConn hadvances, fun conn' => ?_,
    fun id conn' hr => ?_, fun id e he => ?_, fun id conn' hr he => ?_⟩
  · simp only [ControllerServer.setConn, Function.update_apply]
    split
    · exact ok.closed conn
    · exact ok.closed conn'
  · simp only [ControllerServer.setConn, Function.update_apply] at hr ⊢
    by_cases hid : id = brokerId
    · rw [if_pos hid] at hr
      rw [if_pos (Option.some.inj hr).symm, hid]
    · rw [if_neg hid] at hr
      have hother : conn' ≠ conn := fun heq => hid (hsame id (heq ▸ hr))
      rw [if_neg hother]
      exact ok.owner id conn' hr
  · simp only [ControllerServer.setConn, Dict.get?_set, Function.update_apply] at he ⊢
    by_cases hid : id = brokerId
    · rw [if_pos hid] at he
      obtain rfl := Option.some.inj he
      exact ⟨by rw [if_pos hid], by rw [if_pos rfl], hnodes id (Or.inl hid)⟩
    · rw [if_neg hid] at he
      obtain ⟨hregistrant, hbeat, hnode⟩ := ok.entry id e he
      have hother : e.conn ≠ conn := fun heq => hid (hsame id (heq ▸ hregistrant))
      rw [if_neg hid, if_neg hother]
      exact ⟨hregistrant, hbeat, hnodes id (Or.inr hnode)⟩
  · simp only [ControllerServer.setConn, Dict.get?_set, Function.update_apply] at hr he ⊢
    by_cases hid : id = brokerId
    · rw [if_pos hid] at he
      cases he
    · rw [if_neg hid] at hr he
      have hother : conn' ≠ conn := fun heq => hid (hsame id (heq ▸ hr))
      rw [if_neg hother]
      exact ok.gone id conn' hr he

/-- The state after a ping, apart from the answer. -/
theorem RegistrationOk.refresh (ok : RegistrationOk cfg s) {conn : Nat} {brokerId : String}
    {entry : ActiveBroker} (hid : (s.conns conn).brokerId = some brokerId)
    (hentry : s.activeBrokers.get? brokerId = some entry) (hconn : entry.conn = conn) :
    RegistrationOk cfg
      { s.setConn conn { s.conns conn with lastHeartbeat := s.now } with
        activeBrokers := s.activeBrokers.set brokerId ⟨conn, s.now, entry.host, entry.port⟩ } := by
  have hadvances : Advances (s.conns conn) { s.conns conn with lastHeartbeat := s.now } :=
    ⟨And.intro, id, id⟩
  have hsame : ∀ id, s.registrant id = some conn → id = brokerId :=
    fun id hr => Option.some.inj ((ok.owner id conn hr).symm.trans hid)
  obtain ⟨hregistrant, -, hnode⟩ := ok.entry brokerId entry hentry
  refine ⟨ok.leads, fun task w hw => (ok.work task w hw).setConn hadvances, fun conn' => ?_,
    fun id conn' hr => ?_, fun id e he => ?_, fun id conn' hr he => ?_⟩
  · simp only [ControllerServer.setConn, Function.update_apply]
    split
    · exact ok.closed conn
    · exact ok.closed conn'
  · have howner := ok.owner id conn' hr
    simp only [ControllerServer.setConn, Function.update_apply]
    split
    · next heq => exact heq ▸ howner
    · exact howner
  · simp only [ControllerServer.setConn, Dict.get?_set, Function.update_apply] at he ⊢
    by_cases hsameId : id = brokerId
    · rw [if_pos hsameId] at he
      obtain rfl := Option.some.inj he
      rw [hsameId, if_pos rfl]
      exact ⟨hconn ▸ hregistrant, rfl, hnode⟩
    · rw [if_neg hsameId] at he
      obtain ⟨hregistrant', hbeat', hnode'⟩ := ok.entry id e he
      have hother : e.conn ≠ conn := fun heq => hsameId (hsame id (heq ▸ hregistrant'))
      rw [if_neg hother]
      exact ⟨hregistrant', hbeat', hnode'⟩
  · simp only [ControllerServer.setConn, Dict.get?_set, Function.update_apply] at he ⊢
    by_cases hsameId : id = brokerId
    · rw [if_pos hsameId] at he
      cases he
    · rw [if_neg hsameId] at he
      split
      · next heq => exact heq ▸ ok.gone id conn' hr he
      · exact ok.gone id conn' hr he

/-- A ping without a registration to refresh. -/
theorem RegistrationOk.beat (ok : RegistrationOk cfg s) {conn : Nat}
    (hnone : ∀ id, s.registrant id = some conn → s.activeBrokers.get? id = none) :
    RegistrationOk cfg (s.setConn conn { s.conns conn with lastHeartbeat := s.now }) := by
  have hadvances : Advances (s.conns conn) { s.conns conn with lastHeartbeat := s.now } :=
    ⟨And.intro, id, id⟩
  refine ⟨ok.leads, fun task w hw => (ok.work task w hw).setConn hadvances, fun conn' => ?_,
    fun id conn' hr => ?_, fun id e he => ?_, fun id conn' hr he => ?_⟩
  · simp only [ControllerServer.setConn, Function.update_apply]
    split
    · exact ok.closed conn
    · exact ok.closed conn'
  · have howner := ok.owner id conn' hr
    simp only [ControllerServer.setConn, Function.update_apply]
    split
    · next heq => exact heq ▸ howner
    · exact howner
  · obtain ⟨hregistrant, hbeat, hnode⟩ := ok.entry id e he
    have hother : e.conn ≠ conn := fun heq => by
      have habsent := hnone id (heq ▸ hregistrant)
      rw [show s.activeBrokers.get? id = some e from he] at habsent
      cases habsent
    simp only [ControllerServer.setConn, Function.update_apply, if_neg hother]
    exact ⟨hregistrant, hbeat, hnode⟩
  · have hgone := ok.gone id conn' hr he
    simp only [ControllerServer.setConn, Function.update_apply]
    split
    · next heq => exact heq ▸ hgone
    · exact hgone

theorem RegistrationOk.heartbeat (ok : RegistrationOk cfg s) {conn : Nat} {other : String}
    (own : s.OwnFrame (.handler conn) (.controllerPing other)) :
    RegistrationOk cfg (s.heartbeat conn) := by
  simp only [ControllerServer.heartbeat]
  split
  · next hid =>
      refine ok.beat fun id hr => ?_
      have howner := ok.owner id conn hr
      rw [hid] at howner
      cases howner
  · next brokerId hid =>
      split
      · next hentry =>
          refine ok.beat fun id hr => ?_
          have howner := ok.owner id conn hr
          rw [hid] at howner
          rw [← Option.some.inj howner, hentry]
      · next entry hentry => exact ok.refresh hid hentry (own brokerId hid entry hentry)

theorem WorkOk.heartbeat {conn : Nat} {w : Work} (ok : WorkOk s.conns w) :
    WorkOk (s.heartbeat conn).conns w := by
  have hadvances : Advances (s.conns conn) { s.conns conn with lastHeartbeat := s.now } :=
    ⟨And.intro, id, id⟩
  have hbeat := ok.setConn hadvances
  simp only [ControllerServer.heartbeat]
  split
  · exact hbeat
  · split
    · exact hbeat
    · exact hbeat

theorem RegistrationOk.sameNodes (ok : RegistrationOk cfg s) {manager : MetastoreManager}
    (h : manager.storage.nodes = s.manager.storage.nodes) :
    RegistrationOk cfg { s with manager } :=
  ok.changeManager fun id _ hnode => by rw [h]; exact hnode

theorem RegistrationOk.brokerRegister (ok : RegistrationOk cfg s) {conn : Nat}
    (hrest : ∀ w ∈ rest, WorkOk s.conns w) {brokerId host : String} {port : Int}
    (own : s.OwnFrame (.handler conn) (.brokerRegister brokerId host port)) :
    RegistrationOk cfg (s.handleFrame cfg conn rest (.brokerRegister brokerId host port)) := by
  have hadvances : Advances (s.conns conn)
      { s.conns conn with brokerId := some brokerId, lastHeartbeat := s.now } :=
    ⟨fun h _ => ⟨h, by simp⟩, id, id⟩
  have hok : RegistrationOk cfg
      { s.setConn conn
          { s.conns conn with brokerId := some brokerId, lastHeartbeat := s.now } with
        activeBrokers := s.activeBrokers.set brokerId ⟨conn, s.now, host, port⟩
        registrant := Function.update s.registrant brokerId (some conn)
        manager := (s.manager.exec cfg.hash
          (Metastore.registerBroker brokerId host port)).1 } := by
    refine ok.register own fun id h => ?_
    rw [registerBroker_spec]
    simp only [Dict.get?_set]
    cases h with
    | inl heq => rw [if_pos heq]; simp
    | inr hnode =>
        split
        · simp
        · exact hnode
  refine (hok.write conn _).setTask fun w hw => ?_
  simp only [List.mem_cons] at hw
  obtain rfl | rfl | rfl | hw := hw
  · trivial
  · trivial
  · trivial
  · exact (hrest w hw).setConn hadvances

theorem RegistrationOk.handleFrame (ok : RegistrationOk cfg s) {conn : Nat}
    (hrest : ∀ w ∈ rest, WorkOk s.conns w) {cmd : ControllerCommand}
    (own : s.OwnFrame (.handler conn) cmd) :
    RegistrationOk cfg (s.handleFrame cfg conn rest cmd) := by
  cases cmd with
  | brokerRegister brokerId host port => exact ok.brokerRegister hrest own
  | controllerPing other =>
      refine ((ok.heartbeat own).write conn _).setTask (List.forall_mem_cons.mpr ⟨trivial,
        List.forall_mem_cons.mpr ⟨trivial, fun w hw => ?_⟩⟩)
      exact WorkOk.heartbeat (hrest w hw)
  | registerTopic topic =>
      have hnodes := registerTopic_nodes cfg.hash s.manager cfg.replicasPerTopic topic
      simp only [ControllerServer.handleFrame]
      split
      · next manager topicMeta hexec =>
          rw [hexec] at hnodes
          refine ((ok.sameNodes hnodes).write conn _).setTask fun w hw => ?_
          simp only [List.mem_cons] at hw
          obtain rfl | rfl | rfl | hw := hw
          · trivial
          · trivial
          · trivial
          · exact hrest w hw
      · next manager err hexec =>
          rw [hexec] at hnodes
          exact (ok.sameNodes hnodes).raise _
  | metadataRequest topic =>
      exact (ok.write conn _).setTask (List.forall_mem_cons.mpr ⟨trivial,
        List.forall_mem_cons.mpr ⟨trivial, hrest⟩⟩)
  | isrChange topic isrList =>
      have hnodes := updateTopicIsr_nodes cfg.hash s.manager topic isrList
      simp only [ControllerServer.handleFrame]
      split
      · next manager answer hexec =>
          rw [hexec] at hnodes
          exact (ok.sameNodes hnodes).setTask (List.forall_mem_cons.mpr ⟨trivial, hrest⟩)
      · next manager err hexec =>
          rw [hexec] at hnodes
          exact (ok.sameNodes hnodes).raise _
  | other =>
      exact (ok.write conn _).setTask (List.forall_mem_cons.mpr ⟨trivial,
        List.forall_mem_cons.mpr ⟨trivial, hrest⟩⟩)

theorem RegistrationOk.run (ok : RegistrationOk cfg s) {input : Input}
    (own : s.OwnRegistration cfg (.run task input)) :
    RegistrationOk cfg (s.step cfg (.run task input)) := by
  have hpending : ∀ {w rest}, s.tasks task = w :: rest →
      WorkOk s.conns w ∧ ∀ w' ∈ rest, WorkOk s.conns w' := fun htasks =>
    List.forall_mem_cons.mp (htasks ▸ ok.work task)
  apply run_cases
  case idle => exact ok
  case frame =>
      rintro conn rest cmd rfl htasks rfl
      exact ok.handleFrame (hpending htasks).2 (own (by rw [htasks]; rfl))
  case leave => exact fun conn _ _ _ => ok.leave conn
  case fail => exact fun _ _ => ok.raise task
  case next => exact fun w rest htasks => ok.setTask (hpending htasks).2
  case broadcast => exact fun rest htasks => ok.broadcastMetadata (hpending htasks).2
  case drained =>
      intro metaList brokerId conn more disconnected rest failed htasks
      obtain ⟨hw, hrest⟩ := hpending htasks
      refine ok.sendNext hrest metaList ?_ more
      split
      · next hfailed =>
          intro item hitem
          cases List.mem_append.mp hitem with
          | inl hold => exact hw item hold
          | inr hnew =>
              obtain rfl := List.mem_singleton.mp hnew
              exact hfailed.2
      · exact hw
  case disconnect =>
      rintro brokerId cause more rest failed rfl htasks
      simp only [OwnRegistration, OwnWork, htasks] at own
      exact ok.disconnect (hpending htasks).2 (hpending htasks).1 own
  case deregister =>
      rintro brokerId rest failed rfl htasks manager
      simp only [OwnRegistration, OwnWork, htasks] at own
      have hkept : RegistrationOk cfg { s with manager } := by
        refine ok.changeManager fun id hactive hnode => ?_
        have hne : id ≠ brokerId := fun hid => hactive (hid ▸ own)
        rw [deregisterBroker_nodes, Dict.get?_erase, if_neg hne]
        exact hnode
      exact ⟨hkept.broadcastMetadata (hpending htasks).2, hkept.raise task⟩
  case check =>
      intro rest htasks
      refine ok.setTask (List.forall_mem_cons.mpr ⟨fun item hitem => ?_,
        List.forall_mem_cons.mpr ⟨trivial, (hpending htasks).2⟩⟩)
      obtain ⟨active, -, rfl⟩ := List.mem_map.mp hitem
      trivial
  -- the leadership does not change in these runs
  case reject => exact fun _ _ _ _ htasks => (hpending htasks).1.elim
  case notLeader => exact fun _ _ htasks => (hpending htasks).1.elim
  case drop => exact fun _ _ _ htasks => (hpending htasks).1.elim
  case dropped => exact fun _ _ _ _ htasks => (hpending htasks).1.elim
  case elected => exact fun _ _ htasks => (hpending htasks).1.elim

theorem RegistrationOk.step (ok : RegistrationOk cfg s) {e : ServerEvent} (hevent : OnConnections e)
    (own : s.OwnRegistration cfg e) : RegistrationOk cfg (s.step cfg e) := by
  cases e with
  | tick elapsed => exact ⟨ok.leads, ok.work, ok.closed, ok.owner, ok.entry, ok.gone⟩
  | accept conn =>
      simp only [ControllerServer.step]
      split
      · next hfresh =>
          rw [if_pos ok.leads]
          -- nothing is registered on a connection that was not open
          have hnone : (s.conns conn).brokerId = none := by rw [hfresh.1]; rfl
          have hopened : RegistrationOk cfg
              (s.setConn conn { s.conns conn with serving := true }) :=
            ok.setConn ⟨fun _ h => absurd hnone h, id, id⟩ rfl rfl (ok.closed conn) id
          refine hopened.setTask fun w hw => ?_
          obtain rfl := List.mem_singleton.mp hw
          trivial
      · exact ok
  | lose conn =>
      exact ok.setConn ⟨And.intro, fun _ => rfl, id⟩ rfl rfl (ok.closed conn) id
  | leaderGone n => exact hevent.elim
  | run task input => exact ok.run own

theorem registrationOk_new (cfg : ControllerConfig) : RegistrationOk cfg new := by
  refine ⟨rfl, fun task w hw => ?_, ?_, ?_, ?_, ?_⟩
  · simp only [new] at hw
    split at hw
    · obtain rfl := List.mem_singleton.mp hw
      trivial
    · cases hw
  all_goals simp [new, Connection.absent]

/-- The broker is registered on the connection, and the server has not closed it. -/
def Registered (s : ControllerServer) (brokerId : String) (conn : Nat) : Prop :=
  (∃ entry, s.activeBrokers.get? brokerId = some entry ∧ entry.conn = conn) ∧
    s.manager.storage.nodes.get? brokerId ≠ none ∧ (s.conns conn).closed = false

theorem RegistrationOk.registered (ok : RegistrationOk cfg s) {brokerId : String} {conn : Nat}
    (hlast : s.registrant brokerId = some conn) (hlive : s.Live cfg conn) :
    s.Registered brokerId conn := by
  obtain ⟨-, -, hretired, -⟩ := hlive
  have hopen : (s.conns conn).closed = false := by
    cases hclosed : (s.conns conn).closed with
    | false => rfl
    | true =>
        rw [ok.closed conn hclosed] at hretired
        cases hretired
  cases hentry : s.activeBrokers.get? brokerId with
  | none =>
      rw [ok.gone brokerId conn hlast hentry] at hretired
      cases hretired
  | some entry =>
      obtain ⟨hregistrant, -, hnode⟩ := ok.entry brokerId entry hentry
      have hconn : entry.conn = conn := Option.some.inj (hregistrant.symm.trans hlast)
      exact ⟨⟨entry, hentry, hconn⟩, hnode, hopen⟩

end

/-- If every teardown and every ping meets the registration of its own connection, a
broker stays registered while the connection that registered it last is open and
within its heartbeat timeout. -/
theorem live_brokers_stay_registered (cfg : ControllerConfig) (events : List ServerEvent)
    (hevents : ∀ e ∈ events, OnConnections e)
    (own : MeetsAll (advance cfg) (OwnRegistration cfg) new events) (brokerId : String) (conn : Nat)
    (hlast : (run (advance cfg) new events).registrant brokerId = some conn)
    (hlive : (run (advance cfg) new events).Live cfg conn) :
    (run (advance cfg) new events).Registered brokerId conn := by
  have hrun := own.with_mem fun _ h => h
  have ok : RegistrationOk cfg (run (advance cfg) new events) :=
    hrun.invariant (RegistrationOk cfg)
      (fun s e ok hstep => ok.step (hevents e hstep.1) hstep.2) (registrationOk_new cfg)
  exact ok.registered hlast hlive

/-- A connection opens and registers the broker, and its handler waits again. -/
def registration (conn : Nat) : List ServerEvent :=
  .accept conn :: handled conn (.brokerRegister "b" "h" 1) 4

/-- A broker that reconnects after its old connection was torn down. -/
theorem live_brokers_stay_registered_reconnect :
    (run (advance oneReplica) new (registration 1 ++ [.lose 1, .run (.handler 1) .stopped,
      .run (.handler 1) (.resume false), .run (.handler 1) (.resume false)] ++
        registration 2)).Registered "b" 2 :=
  live_brokers_stay_registered oneReplica _ (by decide) (by decide +kernel) "b" 2
    (by decide +kernel) (by decide +kernel)

/-- A broker that reconnects before its old connection is torn down: the teardown
removes the new registration and closes the new connection. -/
theorem old_teardown_removes_new_registration :
    let events := registration 1 ++ registration 2 ++ [.lose 1, .run (.handler 1) .stopped,
      .run (.handler 1) (.resume false)]
    (run (advance oneReplica) new events).registrant "b" = some 2 ∧
      (run (advance oneReplica) new events).Live oneReplica 2 ∧
      (run (advance oneReplica) new events).activeBrokers.get? "b" = none ∧
      ((run (advance oneReplica) new events).conns 2).closed = true := by
  decide +kernel

end ControllerServer
end PyLogStream
