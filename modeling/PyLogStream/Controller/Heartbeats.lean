import PyLogStream.Controller.Cascade
import PyLogStream.Metastore.Calls

/-!
Brokers that have gone silent. What any task of the controller can do in one turn to the
active brokers, the registered nodes and its own pending work is said once. From this, a
registered broker is active, or a task is about to deregister it, or the leadership has
been lost; and once the heartbeat checker has finished a round, no broker is active whose
last heartbeat was overdue when the round began.
-/

namespace PyLogStream
open Lib

def ControllerResponse.NotLeader : ControllerResponse → Prop
  | .notLeaderController _ _ _ => True
  | _ => False

theorem notLeaderResponse_notLeader (info : Option LeaderInfo) : (notLeaderResponse info).NotLeader := by
  cases info <;> trivial

namespace Work

/-- Work that may be pending below other work. -/
def Plain : Work → Prop
  | .deregister _ => False
  | .dropBrokers response _ | .dropped response _ _ => response.NotLeader
  | _ => True

/-- The brokers for which `_handle_broker_disconnect` is still to be called. -/
def todo : Work → List String
  | .disconnect items => items.map Prod.fst
  | _ => []

end Work

/-- A deregistration is what a task does next; nothing else is put on top of it. -/
def StackOk : List Work → Prop
  | [] => True
  | w :: rest => (w.Plain ∨ ∃ id, w = .deregister id) ∧ ∀ w ∈ rest, w.Plain

theorem stackOk_of_plain {work : List Work} (h : ∀ w ∈ work, w.Plain) : StackOk work := by
  cases work with
  | nil => trivial
  | cons w rest => exact ⟨Or.inl (h w List.mem_cons_self), fun w' hw => h w' (List.mem_cons_of_mem _ hw)⟩

namespace ControllerServer

/-- A task is about to deregister the broker. -/
def Leaving (s : ControllerServer) (id : String) : Prop :=
  ∃ task, (s.tasks task).head? = some (.deregister id)

/-- A broker has been told that this controller does not lead. -/
def Resigned (s : ControllerServer) : Prop := ∃ message ∈ s.sent, message.2.NotLeader

/-- What a turn of a task can do. -/
structure Turn (s : ControllerServer) (task : TaskId) (s' : ControllerServer) : Prop where
  others : ∀ other, other ≠ task → s'.tasks other = s.tasks other
  stack : StackOk (s'.tasks task)
  now : s.now ≤ s'.now
  sent : s.sent <+: s'.sent
  /-- An entry that is new is of now. -/
  active : ∀ id entry, s'.activeBrokers.get? id = some entry →
    s.activeBrokers.get? id = some entry ∨ entry.lastHeartbeat = s.now
  /-- A broker that is no longer active is deregistered next, or has been dropped. -/
  gone : ∀ id, s.activeBrokers.get? id ≠ none → s'.activeBrokers.get? id = none →
    (s'.tasks task).head? = some (.deregister id) ∨ s'.Resigned
  nodes : ∀ id, s'.manager.storage.nodes.get? id ≠ none →
    s.manager.storage.nodes.get? id ≠ none ∨ s'.activeBrokers.get? id ≠ none
  left : ∀ id, (s.tasks task).head? = some (.deregister id) →
    s'.manager.storage.nodes.get? id = none ∨ s'.tasks task = s.tasks task
  /-- The checker forgets no broker, unless an exception has ended it. -/
  todo : task = .heartbeat → s'.tasks task = [] ∨ s.tasks task ≠ [] ∧
    ∀ id ∈ (s.tasks task).flatMap Work.todo,
      id ∈ (s'.tasks task).flatMap Work.todo ∨ s'.activeBrokers.get? id = none

section
variable {cfg : ControllerConfig} {s s₀ : ControllerServer} {task : TaskId} {rest : List Work}

theorem Turn.idle (h : StackOk (s.tasks task)) : Turn s task s where
  others := fun _ _ => rfl
  stack := h
  now := le_refl _
  sent := List.prefix_refl _
  active := fun _ _ h => Or.inl h
  gone := fun _ h hnone => absurd hnone h
  nodes := fun _ h => Or.inl h
  left := fun _ _ => Or.inr rfl
  todo := fun _ => (em (s.tasks task = [])).imp_right fun hne => ⟨hne, fun _ h => Or.inl h⟩

/-- The state in the middle of a turn that began in `s₀`. -/
structure Since (s₀ s : ControllerServer) : Prop where
  tasks : s.tasks = s₀.tasks
  now : s.now = s₀.now
  sent : s₀.sent <+: s.sent
  active : ∀ id entry, s.activeBrokers.get? id = some entry →
    s₀.activeBrokers.get? id = some entry ∨ entry.lastHeartbeat = s₀.now
  nodes : ∀ id, s.manager.storage.nodes.get? id ≠ none →
    s₀.manager.storage.nodes.get? id ≠ none ∨ s.activeBrokers.get? id ≠ none

theorem Since.refl (s : ControllerServer) : Since s s :=
  ⟨rfl, rfl, List.prefix_refl _, fun _ _ h => Or.inl h, fun _ h => Or.inl h⟩

theorem Since.setConn (since : Since s₀ s) (conn : Nat) (c : Connection) :
    Since s₀ (s.setConn conn c) :=
  ⟨since.tasks, since.now, since.sent, since.active, since.nodes⟩

theorem Since.closeConn (since : Since s₀ s) (conn : Nat) : Since s₀ (s.closeConn cfg conn) :=
  since.setConn conn _

theorem Since.write (since : Since s₀ s) (conn : Nat) (response : ControllerResponse) :
    Since s₀ (s.write conn response) :=
  ⟨since.tasks, since.now, since.sent.trans (List.prefix_append _ _), since.active, since.nodes⟩

theorem Since.setManager (since : Since s₀ s) (manager : MetastoreManager)
    (h : ∀ id, manager.storage.nodes.get? id ≠ none →
      s.manager.storage.nodes.get? id ≠ none ∨ s.activeBrokers.get? id ≠ none) :
    Since s₀ { s with manager } := by
  refine ⟨since.tasks, since.now, since.sent, since.active, fun id hid => ?_⟩
  exact (h id hid).elim (since.nodes id) Or.inr

theorem Since.sameNodes (since : Since s₀ s) {manager : MetastoreManager}
    (h : manager.storage.nodes = s.manager.storage.nodes) : Since s₀ { s with manager } :=
  since.setManager manager fun _ hid => Or.inl (h ▸ hid)

theorem Since.activate (since : Since s₀ s) (brokerId : String) (entry : ActiveBroker)
    (h : entry.lastHeartbeat = s.now) :
    Since s₀ { s with activeBrokers := s.activeBrokers.set brokerId entry } := by
  refine ⟨since.tasks, since.now, since.sent, fun id entry' hid => ?_, fun id hid => ?_⟩
  · rw [Dict.get?_set] at hid
    split at hid
    · obtain rfl := Option.some.inj hid
      exact Or.inr (h.trans since.now)
    · exact since.active id entry' hid
  · refine (since.nodes id hid).imp_right fun hactive => ?_
    rw [Dict.get?_set]
    split
    · simp
    · exact hactive

theorem Since.erase (s : ControllerServer) (brokerId : String) :
    Since s { s with activeBrokers := s.activeBrokers.erase brokerId } := by
  refine ⟨rfl, rfl, List.prefix_refl _, fun id entry h => ?_, fun _ h => Or.inl h⟩
  rw [Dict.get?_erase] at h
  split at h
  · cases h
  · exact Or.inl h

/-- The turn ends with the work that the task is left with. -/
theorem Since.turn (since : Since s₀ s) {work : List Work} (hstack : StackOk work)
    (hgone : ∀ id, s₀.activeBrokers.get? id ≠ none → s.activeBrokers.get? id = none →
      work.head? = some (.deregister id) ∨ s.Resigned)
    (hleft : ∀ id, (s₀.tasks task).head? = some (.deregister id) →
      s.manager.storage.nodes.get? id = none)
    (htodo : task = .heartbeat → work = [] ∨ s₀.tasks task ≠ [] ∧
      ∀ id ∈ (s₀.tasks task).flatMap Work.todo,
        id ∈ work.flatMap Work.todo ∨ s.activeBrokers.get? id = none) :
    Turn s₀ task (s.setTask task work) := by
  have hself : (s.setTask task work).tasks task = work := setTask_self work
  refine ⟨fun other hne => ?_, ?_, since.now.ge, since.sent, since.active, ?_, since.nodes,
    fun id hid => Or.inl (hleft id hid), ?_⟩
  · simp only [setTask, Function.update_of_ne hne, since.tasks]
  · rw [hself]
    exact hstack
  · rw [hself]
    exact hgone
  · rw [hself]
    exact htodo

/-- A turn that exchanges the first piece of work and keeps all brokers active. -/
theorem Since.next (since : Since s₀ s) {w : Work} (htasks : s₀.tasks task = w :: rest)
    (hplain : w.Plain) (htodo : w.todo = []) (new : List Work) (hnew : ∀ w ∈ new, w.Plain)
    (hrest : ∀ w ∈ rest, w.Plain)
    (hkept : ∀ id, s₀.activeBrokers.get? id ≠ none → s.activeBrokers.get? id ≠ none) :
    Turn s₀ task (s.setTask task (new ++ rest)) := by
  refine since.turn (stackOk_of_plain fun w hw => (List.mem_append.mp hw).elim (hnew w) (hrest w))
    (fun id h hnone => absurd hnone (hkept id h)) (fun id hhead => ?_)
    (fun _ => Or.inr ⟨by simp [htasks], fun id hid => Or.inl ?_⟩)
  · rw [htasks, List.head?_cons, Option.some_inj] at hhead
    rw [hhead] at hplain
    exact hplain.elim
  · rw [htasks, List.flatMap_cons, htodo, List.nil_append] at hid
    rw [List.flatMap_append]
    exact List.mem_append_right _ hid

theorem Since.leave (since : Since s₀ s) {conn : Nat}
    (hkept : ∀ id, s₀.activeBrokers.get? id ≠ none → s.activeBrokers.get? id ≠ none)
    (hleft : ∀ id, (s₀.tasks (.handler conn)).head? = some (.deregister id) →
      s.manager.storage.nodes.get? id = none) :
    Turn s₀ (.handler conn) (s.leave cfg conn) := by
  have hserving := since.setConn conn { s.conns conn with serving := false }
  have ends : ∀ {s' : ControllerServer} {work : List Work}, Since s₀ s' →
      s'.activeBrokers = s.activeBrokers → s'.manager = s.manager → StackOk work →
      Turn s₀ (.handler conn) (s'.setTask (.handler conn) work) := by
    intro s' work since' hactive hmanager hstack
    refine since'.turn hstack (fun id h hnone => absurd (hactive ▸ hnone) (hkept id h))
      (fun id h => hmanager ▸ hleft id h) ?_
    rintro ⟨⟩
  simp only [ControllerServer.leave]
  split
  · split
    · exact ends (hserving.closeConn conn) rfl rfl trivial
    · exact ends hserving rfl rfl ⟨Or.inl trivial, by simp⟩
  · exact ends (hserving.closeConn conn) rfl rfl trivial

theorem Since.raise (since : Since s₀ s)
    (hkept : ∀ id, s₀.activeBrokers.get? id ≠ none → s.activeBrokers.get? id ≠ none)
    (hleft : ∀ id, (s₀.tasks task).head? = some (.deregister id) →
      s.manager.storage.nodes.get? id = none) :
    Turn s₀ task (s.raise cfg task) := by
  have ends : Turn s₀ task (s.setTask task []) :=
    since.turn trivial (fun id h hnone => absurd hnone (hkept id h)) hleft fun _ => Or.inl rfl
  cases task with
  | handler conn =>
      simp only [ControllerServer.raise]
      split
      · exact since.leave hkept hleft
      · exact ends
  | heartbeat | leaderGone n => exact ends

/-- The next write of a broadcast, with work below it. -/
theorem Since.sendNext (since : Since s₀ s) {w : Work} (htasks : s₀.tasks task = w :: rest)
    (hleft : ∀ id, w = .deregister id → s.manager.storage.nodes.get? id = none)
    (htodo : w.todo = []) (hrest : ∀ w ∈ rest, w.Plain)
    (hkept : ∀ id, s₀.activeBrokers.get? id ≠ none → s.activeBrokers.get? id ≠ none)
    (metaList : List TopicMetaDataResponse) (disconnected : List (String × Cause))
    (targets : List (String × Nat)) :
    Turn s₀ task (s.sendNext task rest metaList disconnected targets) := by
  have ends : ∀ {s' : ControllerServer} {new : Work}, Since s₀ s' →
      s'.activeBrokers = s.activeBrokers → s'.manager = s.manager → new.Plain →
      Turn s₀ task (s'.setTask task (new :: rest)) := by
    intro s' new since' hactive hmanager hnew
    refine since'.turn ⟨Or.inl hnew, hrest⟩
      (fun id h hnone => absurd (hactive ▸ hnone) (hkept id h)) (fun id hid => ?_)
      (fun _ => Or.inr ⟨by simp [htasks], fun id hid => Or.inl ?_⟩)
    · rw [htasks, List.head?_cons, Option.some_inj] at hid
      rw [hmanager]
      exact hleft id hid
    · rw [htasks, List.flatMap_cons, htodo, List.nil_append] at hid
      rw [List.flatMap_cons]
      exact List.mem_append_right _ hid
  cases targets with
  | nil => exact ends since rfl rfl trivial
  | cons target more => exact ends (since.write _ _) rfl rfl trivial

/-- A broker is no longer active; its deregistration comes next. -/
theorem Turn.disconnect {brokerId : String} {cause : Cause} {more : List (String × Cause)}
    (htasks : s.tasks task = .disconnect ((brokerId, cause) :: more) :: rest)
    (hrest : ∀ w ∈ rest, w.Plain) : Turn s task (s.disconnect cfg task rest brokerId more) := by
  have hleft : ∀ id, (s.tasks task).head? ≠ some (.deregister id) := by
    intro id hid
    rw [htasks, List.head?_cons, Option.some_inj] at hid
    cases hid
  have hpending : ∀ id ∈ (s.tasks task).flatMap Work.todo,
      id = brokerId ∨ id ∈ (Work.disconnect more :: rest).flatMap Work.todo := by
    intro id hid
    rw [htasks] at hid
    simpa [Work.todo] using hid
  simp only [ControllerServer.disconnect]
  split
  · next hnone =>
      refine (Since.refl s).turn ⟨Or.inl trivial, hrest⟩ (fun id h hgone => absurd hgone h)
        (fun id h => absurd h (hleft id)) fun _ => Or.inr ⟨by simp [htasks], fun id hid => ?_⟩
      rcases hpending id hid with rfl | hmem
      · exact Or.inr hnone
      · exact Or.inl hmem
  · next entry hentry =>
      have hactive : ∀ id, (s.activeBrokers.erase brokerId).get? id = none →
          s.activeBrokers.get? id ≠ none → id = brokerId := by
        intro id hnone h
        by_contra hne
        rw [Dict.get?_erase, if_neg hne] at hnone
        exact h hnone
      refine ((Since.erase s brokerId).closeConn entry.conn).turn
        ⟨Or.inr ⟨brokerId, rfl⟩, List.forall_mem_cons.mpr ⟨trivial, hrest⟩⟩ (fun id h hnone => ?_) (fun id h => absurd h (hleft id))
        fun _ => Or.inr ⟨by simp [htasks], fun id hid => ?_⟩
      · rw [hactive id hnone h]
        exact Or.inl rfl
      · rcases hpending id hid with rfl | hmem
        · exact Or.inr (by simp [closeConn, setConn, Dict.get?_erase])
        · exact Or.inl hmem

/-- The loop that drops the brokers ends, or stops at the next write. -/
theorem Turn.dropBrokers {w : Work} (htasks : s₀.tasks task = w :: rest) (hplain : w.Plain)
    (htodo : w.todo = []) (hrest : ∀ w ∈ rest, w.Plain) {response : ControllerResponse}
    (hresponse : response.NotLeader) (ids : List String) :
    Turn s₀ task (s₀.dropBrokers task rest response ids) := by
  have hleft : ∀ id, (s₀.tasks task).head? ≠ some (.deregister id) := by
    intro id hid
    rw [htasks, List.head?_cons, Option.some_inj] at hid
    rw [hid] at hplain
    exact hplain
  have hpending : ∀ id ∈ (s₀.tasks task).flatMap Work.todo, id ∈ rest.flatMap Work.todo := by
    intro id hid
    rwa [htasks, List.flatMap_cons, htodo] at hid
  induction ids with
  | nil => exact (Since.refl s₀).next htasks hplain htodo [] (by simp) hrest fun _ h => h
  | cons brokerId more ih =>
      simp only [ControllerServer.dropBrokers]
      split
      · exact ih
      · next entry hentry =>
          refine ((Since.erase s₀ brokerId).write entry.conn response).turn ⟨Or.inl hresponse, hrest⟩
            (fun id h hnone => Or.inr ?_) (fun id h => absurd h (hleft id))
            fun _ => Or.inr ⟨by simp [htasks], fun id hid =>
              Or.inl (List.mem_append_right _ (hpending id hid))⟩
          exact ⟨(entry.conn, response), List.mem_append_right _ List.mem_cons_self, hresponse⟩

theorem get?_set_ne_none {κ α : Type} [DecidableEq κ] {d : Dict κ α} {k k' : κ} (a : α)
    (h : d.get? k' ≠ none) : (d.set k a).get? k' ≠ none := by
  rw [Dict.get?_set]
  split
  · simp
  · exact h

theorem Turn.handleFrame {conn : Nat} (htasks : s.tasks (.handler conn) = .serve :: rest)
    (hrest : ∀ w ∈ rest, w.Plain) (cmd : ControllerCommand) :
    Turn s (.handler conn) (s.handleFrame cfg conn rest cmd) := by
  have hleft : ∀ {s' : ControllerServer} id, (s.tasks (.handler conn)).head? =
      some (.deregister id) → s'.manager.storage.nodes.get? id = none := by
    intro s' id hid
    rw [htasks, List.head?_cons, Option.some_inj] at hid
    cases hid
  -- an answer is written, and the handler goes on to `new`
  have answered : ∀ {s' : ControllerServer} (new : List Work), (∀ w ∈ new, w.Plain) → Since s s' →
      (∀ id, s.activeBrokers.get? id ≠ none → s'.activeBrokers.get? id ≠ none) →
      Turn s (.handler conn) (s'.setTask (.handler conn) (new ++ rest)) :=
    fun new hnew since hkept => since.next htasks trivial rfl new hnew hrest hkept
  cases cmd with
  | brokerRegister brokerId host port =>
      have since : Since s
          { s.setConn conn { s.conns conn with brokerId := some brokerId, lastHeartbeat := s.now } with
            activeBrokers := s.activeBrokers.set brokerId ⟨conn, s.now, host, port⟩
            registrant := Function.update s.registrant brokerId (some conn) } := by
        have h := ((Since.refl s).setConn conn
          { s.conns conn with brokerId := some brokerId, lastHeartbeat := s.now }).activate brokerId
            ⟨conn, s.now, host, port⟩ rfl
        exact ⟨h.tasks, h.now, h.sent, h.active, h.nodes⟩
      have hkept : ∀ id, s.activeBrokers.get? id ≠ none →
          (s.activeBrokers.set brokerId ⟨conn, s.now, host, port⟩).get? id ≠ none :=
        fun id h => get?_set_ne_none _ h
      have registered := since.setManager (s.manager.exec cfg.hash
        (Metastore.registerBroker brokerId host port)).1 fun id hid => by
          rw [registerBroker_spec] at hid
          simp only [Dict.get?_set] at hid ⊢
          split
          · exact Or.inr (by simp)
          · next hne =>
              rw [if_neg hne] at hid
              exact Or.inl hid
      simp only [ControllerServer.handleFrame]
      rw [registerBroker_spec] at registered ⊢
      exact answered [.drain, .broadcast, .serve] (by simp [Work.Plain]) (registered.write _ _) hkept
  | controllerPing other =>
      have since : Since s (s.heartbeat conn) ∧ ∀ id, s.activeBrokers.get? id ≠ none →
          (s.heartbeat conn).activeBrokers.get? id ≠ none := by
        have hconn := (Since.refl s).setConn conn { s.conns conn with lastHeartbeat := s.now }
        simp only [ControllerServer.heartbeat]
        split
        · exact ⟨hconn, fun _ h => h⟩
        · next brokerId _ =>
            split
            · exact ⟨hconn, fun _ h => h⟩
            · next entry _ =>
                exact ⟨hconn.activate brokerId ⟨conn, s.now, entry.host, entry.port⟩ rfl,
                  fun _ h => get?_set_ne_none _ h⟩
      exact answered [.drain, .serve] (by simp [Work.Plain]) (since.1.write _ _) since.2
  | registerTopic topic =>
      have since := (Since.refl s).sameNodes
        (registerTopic_nodes cfg.hash s.manager cfg.replicasPerTopic topic)
      simp only [ControllerServer.handleFrame]
      generalize s.manager.exec cfg.hash (Metastore.registerTopic cfg.replicasPerTopic topic) =
        registered at since
      obtain ⟨manager, result⟩ := registered
      cases result with
      | ok topicMeta =>
          exact answered [.drain, .broadcast, .serve] (by simp [Work.Plain]) (since.write _ _)
            fun _ h => h
      | error err => exact since.raise (fun _ h => h) hleft
  | metadataRequest topic =>
      exact answered [.drain, .serve] (by simp [Work.Plain]) ((Since.refl s).write _ _) fun _ h => h
  | isrChange topic isrList =>
      have since := (Since.refl s).sameNodes
        (updateTopicIsr_nodes cfg.hash s.manager topic isrList)
      simp only [ControllerServer.handleFrame]
      generalize s.manager.exec cfg.hash (Metastore.updateTopicIsr topic isrList) = updated at since
      obtain ⟨manager, result⟩ := updated
      cases result with
      | ok _ => exact answered [.serve] (by simp [Work.Plain]) since fun _ h => h
      | error err => exact since.raise (fun _ h => h) hleft
  | other => exact answered [.drain, .serve] (by simp [Work.Plain]) ((Since.refl s).write _ _) fun _ h => h

/-- A turn of a task that is not in the middle of a teardown. -/
theorem Turn.run (ok : StackOk (s.tasks task)) {input : Input}
    (hhead : ∀ w rest, s.tasks task = w :: rest → w.Plain ∧ w.todo = []) :
    Turn s task (s.step cfg (.run task input)) := by
  have hpending : ∀ {w rest}, s.tasks task = w :: rest → ∀ w' ∈ rest, w'.Plain := by
    intro w rest htasks
    rw [htasks] at ok
    exact ok.2
  have hleft : ∀ {s' : ControllerServer} id, (s.tasks task).head? = some (.deregister id) →
      s'.manager.storage.nodes.get? id = none := by
    intro s' id hid
    cases htasks : s.tasks task with
    | nil =>
        rw [htasks] at hid
        cases hid
    | cons w rest =>
        rw [htasks, List.head?_cons, Option.some_inj] at hid
        have hplain := (hhead w rest htasks).1
        rw [hid] at hplain
        exact hplain.elim
  have refl := Since.refl s
  -- the first piece of work makes way for other work
  have exchanges : ∀ {s' : ControllerServer} {w rest} (new : List Work), s.tasks task = w :: rest →
      Since s s' → s'.activeBrokers = s.activeBrokers → (∀ w ∈ new, w.Plain) →
      Turn s task (s'.setTask task (new ++ rest)) := by
    intro s' w rest new htasks since hactive hnew
    obtain ⟨hplain, htodo⟩ := hhead w rest htasks
    exact since.next htasks hplain htodo new hnew (hpending htasks) fun _ h => hactive ▸ h
  apply run_cases
  case idle => exact .idle ok
  case frame =>
      rintro conn rest cmd rfl htasks -
      exact .handleFrame htasks (hpending htasks) cmd
  case leave =>
      rintro conn rest rfl htasks
      exact refl.leave (fun _ h => h) hleft
  case fail => exact fun rest htasks => refl.raise (fun _ h => h) hleft
  case next => exact fun w rest htasks => exchanges [] htasks refl rfl (by simp)
  case broadcast =>
      intro rest htasks
      exact refl.sendNext htasks (by rintro id ⟨⟩) rfl (hpending htasks) (fun _ h => h) _ _ _
  case drained =>
      intro metaList brokerId conn more disconnected rest failed htasks
      exact refl.sendNext htasks (by rintro id ⟨⟩) rfl (hpending htasks) (fun _ h => h) _ _ _
  case disconnect =>
      intro brokerId cause more rest failed _ htasks
      exact .disconnect htasks (hpending htasks)
  case deregister =>
      intro brokerId rest failed _ htasks
      exact (hhead _ rest htasks).1.elim
  case check =>
      intro rest htasks
      exact exchanges [.disconnect (s.stale cfg), .checkHeartbeats] htasks refl rfl
        (by simp [Work.Plain])
  case reject =>
      rintro conn info rest rfl htasks
      exact exchanges [] htasks ((refl.write conn _).closeConn conn) rfl (by simp)
  case notLeader =>
      intro info rest htasks
      exact .dropBrokers htasks trivial rfl (hpending htasks) (notLeaderResponse_notLeader info) _
  case drop =>
      intro response ids rest htasks
      have hplain := (hhead _ rest htasks).1
      exact .dropBrokers htasks hplain rfl (hpending htasks) hplain ids
  case dropped =>
      intro response conn ids rest htasks
      have hplain : (Work.dropBrokers response ids).Plain := (hhead _ rest htasks).1
      exact ⟨exchanges [.dropBrokers response ids] htasks refl rfl (by simpa using hplain),
        exchanges [.dropBrokers response ids] htasks (refl.closeConn conn) rfl (by simpa using hplain)⟩
  case elected =>
      intro won rest htasks
      have since : Since s { s with isLeader := won } :=
        ⟨rfl, rfl, List.prefix_refl _, fun _ _ h => Or.inl h, fun _ h => Or.inl h⟩
      exact exchanges [] htasks since rfl (by simp)

theorem Turn.deregister {brokerId : String} (htasks : s.tasks task = .deregister brokerId :: rest)
    (hrest : ∀ w ∈ rest, w.Plain) (failed : Bool) :
    Turn s task (s.step cfg (.run task (.resume failed))) := by
  have hnodes := deregisterBroker_nodes cfg.hash s.manager cfg.replicasPerTopic brokerId
  have since := (Since.refl s).setManager (s.manager.exec cfg.hash
    (Metastore.deregisterBroker cfg.replicasPerTopic brokerId)).1 fun id hid => by
      rw [hnodes, Dict.get?_erase] at hid
      split at hid
      · exact absurd rfl hid
      · exact Or.inl hid
  simp only [ControllerServer.step, htasks, resume]
  generalize s.manager.exec cfg.hash (Metastore.deregisterBroker cfg.replicasPerTopic brokerId) =
    deregistered at hnodes since
  obtain ⟨manager, result⟩ := deregistered
  have hgone : ∀ id, Work.deregister brokerId = .deregister id →
      manager.storage.nodes.get? id = none := by
    rintro id ⟨⟩
    rw [show manager.storage.nodes = _ from hnodes, Dict.get?_erase, if_pos rfl]
  cases result with
  | ok _ => exact since.sendNext htasks hgone rfl hrest (fun _ h => h) _ _ _
  | error err =>
      refine since.raise (fun _ h => h) fun id hid => hgone id ?_
      rw [htasks, List.head?_cons, Option.some_inj] at hid
      exact hid

/-- Every step is a turn of some task. -/
theorem Turn.step (cfg : ControllerConfig) (ok : ∀ task, StackOk (s.tasks task)) (e : ServerEvent) :
    ∃ task, Turn s task (s.step cfg e) := by
  cases e with
  | tick elapsed =>
      have idle := Turn.idle (ok .heartbeat)
      refine ⟨.heartbeat, idle.others, idle.stack, ?_, idle.sent, idle.active, idle.gone, idle.nodes,
        idle.left, idle.todo⟩
      simp [ControllerServer.step]
  | accept conn =>
      refine ⟨.handler conn, ?_⟩
      simp only [ControllerServer.step]
      split
      · next hfree =>
          have begins : ∀ {s' : ControllerServer} {w : Work}, Since s s' →
              s'.activeBrokers = s.activeBrokers → w.Plain →
              Turn s (.handler conn) (s'.setTask (.handler conn) [w]) := by
            intro s' w since hactive hplain
            refine since.turn ⟨Or.inl hplain, by simp⟩ (fun id h hnone => absurd (hactive ▸ hnone) h)
              (fun id hid => ?_) ?_
            · rw [hfree.2] at hid
              cases hid
            · rintro ⟨⟩
          split
          · exact begins ((Since.refl s).setConn conn _) rfl trivial
          · exact begins (.refl s) rfl trivial
      · exact .idle (ok _)
  | lose conn =>
      have idle := Turn.idle (ok .heartbeat)
      exact ⟨.heartbeat, idle.others, idle.stack, idle.now, idle.sent, idle.active, idle.gone,
        idle.nodes, idle.left, idle.todo⟩
  | leaderGone n =>
      refine ⟨.leaderGone n, ?_⟩
      simp only [ControllerServer.step]
      split
      · next hfree =>
          have since : Since s { s with isLeader := false } :=
            ⟨rfl, rfl, List.prefix_refl _, fun _ _ h => Or.inl h, fun _ h => Or.inl h⟩
          refine since.turn ⟨Or.inl trivial, by simp [Work.Plain]⟩
            (fun id h hnone => absurd hnone h) (fun id hid => ?_) ?_
          · rw [hfree] at hid
            cases hid
          · rintro ⟨⟩
      · exact .idle (ok _)
  | run task input =>
      refine ⟨task, ?_⟩
      have hok := ok task
      cases htasks : s.tasks task with
      | nil => exact .run hok (by simp [htasks])
      | cons w rest =>
          rw [htasks] at hok
          cases w with
          | deregister brokerId =>
              cases input with
              | resume failed => exact .deregister htasks hok.2 failed
              | frame _ | malformed | stopped | leader _ | elected _ =>
                  simp only [ControllerServer.step, htasks]
                  exact .idle (ok task)
          | disconnect items =>
              cases items with
              | nil => exact .run (ok task) (by simp [htasks, Work.Plain, Work.todo])
              | cons item more =>
                  cases input with
                  | resume failed =>
                      simp only [ControllerServer.step, htasks]
                      exact .disconnect htasks hok.2
                  | frame _ | malformed | stopped | leader _ | elected _ =>
                      simp only [ControllerServer.step, htasks]
                      exact .idle (ok task)
          | serve | drain | broadcast | drained _ _ _ _ _ | checkHeartbeats | reject | notLeader
          | dropBrokers _ _ | dropped _ _ _ | election =>
              refine .run (ok task) fun w' rest' heq => ?_
              rw [htasks] at heq
              obtain ⟨rfl, -⟩ := List.cons.inj heq
              exact ⟨hok.1.resolve_right (by rintro ⟨id, ⟨⟩⟩), rfl⟩

end

/-- Every registered broker is accounted for. -/
structure Accounted (s : ControllerServer) : Prop where
  work : ∀ task, StackOk (s.tasks task)
  registered : ∀ id, s.manager.storage.nodes.get? id ≠ none →
    s.activeBrokers.get? id ≠ none ∨ s.Leaving id ∨ s.Resigned

section
variable {cfg : ControllerConfig} {s s' : ControllerServer} {task : TaskId}

theorem Turn.work (turn : Turn s task s') (ok : ∀ task, StackOk (s.tasks task)) (other : TaskId) :
    StackOk (s'.tasks other) := by
  by_cases heq : other = task
  · rw [heq]
    exact turn.stack
  · rw [turn.others other heq]
    exact ok other

theorem Turn.resigned (turn : Turn s task s') (h : s.Resigned) : s'.Resigned := by
  obtain ⟨message, hmessage, hnot⟩ := h
  exact ⟨message, turn.sent.subset hmessage, hnot⟩

theorem Accounted.step (ok : Accounted s) (e : ServerEvent) : Accounted (s.step cfg e) := by
  obtain ⟨task, turn⟩ := Turn.step cfg ok.work e
  refine ⟨turn.work ok.work, fun id hnode => ?_⟩
  by_cases hactive : (s.step cfg e).activeBrokers.get? id = none
  · rcases turn.nodes id hnode with hold | hnew
    · rcases ok.registered id hold with hwas | ⟨task', hleaving⟩ | hresigned
      · exact Or.inr ((turn.gone id hwas hactive).imp_left fun h => ⟨task, h⟩)
      · refine Or.inr (Or.inl ⟨task', ?_⟩)
        by_cases heq : task' = task
        · subst heq
          rw [(turn.left id hleaving).resolve_left hnode]
          exact hleaving
        · rw [turn.others task' heq]
          exact hleaving
      · exact Or.inr (Or.inr (turn.resigned hresigned))
    · exact absurd hactive hnew
  · exact Or.inl hactive

theorem accounted_new : Accounted new where
  work := by
    intro task
    simp only [new]
    split
    · exact ⟨Or.inl trivial, by simp⟩
    · trivial
  registered := fun id h => absurd rfl h

/-- Who is overdue since the check at `checked` is still on the checker's list. -/
structure Checked (cfg : ControllerConfig) (checked : Int) (s : ControllerServer) : Prop where
  work : ∀ task, StackOk (s.tasks task)
  later : checked ≤ s.now
  pending : s.tasks .heartbeat = [] ∨ ∀ id entry, s.activeBrokers.get? id = some entry →
    entry.lastHeartbeat < checked → checked - entry.lastHeartbeat > cfg.heartbeatTimeout →
      id ∈ (s.tasks .heartbeat).flatMap Work.todo

theorem Checked.step {checked : Int} (ok : Checked cfg checked s) (e : ServerEvent) :
    Checked cfg checked (s.step cfg e) := by
  obtain ⟨task, turn⟩ := Turn.step cfg ok.work e
  have hlater := ok.later
  refine ⟨turn.work ok.work, ok.later.trans turn.now, ?_⟩
  -- an entry from before the check is an old one
  have hold : ∀ id entry, (s.step cfg e).activeBrokers.get? id = some entry →
      entry.lastHeartbeat < checked → s.activeBrokers.get? id = some entry := by
    intro id entry hentry hbefore
    refine (turn.active id entry hentry).resolve_right fun hnow => ?_
    omega
  by_cases heq : task = .heartbeat
  · subst heq
    rcases turn.todo rfl with hnil | ⟨hne, hkept⟩
    · exact Or.inl hnil
    · refine Or.inr fun id entry hentry hbefore hlate => ?_
      have hmem := ok.pending.resolve_left hne id entry (hold id entry hentry hbefore) hbefore hlate
      refine (hkept id hmem).resolve_right fun hnone => ?_
      rw [hentry] at hnone
      cases hnone
  · rw [turn.others .heartbeat (Ne.symm heq)]
    exact ok.pending.imp_right fun hall id entry hentry hbefore hlate =>
      hall id entry (hold id entry hentry hbefore) hbefore hlate

end

theorem accounted_run (cfg : ControllerConfig) (events : List ServerEvent) :
    Accounted (run (advance cfg) new events) :=
  run_keeps Accounted (fun _ e _ ok => ok.step e) accounted_new

/-- In every run, whatever the tasks do in between and whichever operations fail: a broker
that is registered is active, or a task deregisters it next, or the controller has told a
broker that it does not lead. -/
theorem registered_active_or_leaving (cfg : ControllerConfig) (events : List ServerEvent)
    (id : String) :
    let s := run (advance cfg) new events
    s.manager.storage.nodes.get? id = none ∨ s.activeBrokers.get? id ≠ none ∨ s.Leaving id ∨
      s.Resigned :=
  (em _).imp_right ((accounted_run cfg events).registered id)

/-- When the heartbeat checker is back in its loop, every active broker, and every broker
that is registered without being torn down, has registered or pinged in time before the
round began, or since. -/
theorem silent_brokers_removed (cfg : ControllerConfig) (before after : List ServerEvent)
    (failed : Bool) (hbefore : (run (advance cfg) new before).tasks .heartbeat = [.checkHeartbeats])
    (hafter : (run (advance cfg) new (before ++ .run .heartbeat (.resume failed) :: after)).tasks
      .heartbeat = [.checkHeartbeats]) :
    let checked := (run (advance cfg) new before).now
    let s := run (advance cfg) new (before ++ .run .heartbeat (.resume failed) :: after)
    (∀ id entry, s.activeBrokers.get? id = some entry →
      checked - entry.lastHeartbeat ≤ cfg.heartbeatTimeout ∨ checked ≤ entry.lastHeartbeat) ∧
    ∀ id, s.manager.storage.nodes.get? id ≠ none →
      (∃ entry, s.activeBrokers.get? id = some entry ∧
        (checked - entry.lastHeartbeat ≤ cfg.heartbeatTimeout ∨ checked ≤ entry.lastHeartbeat)) ∨
      s.Leaving id ∨ s.Resigned := by
  intro checked s
  have started : Checked cfg checked
      ((run (advance cfg) new before).step cfg (.run .heartbeat (.resume failed))) := by
    have hstep : (run (advance cfg) new before).step cfg (.run .heartbeat (.resume failed)) =
        (run (advance cfg) new before).setTask .heartbeat
          [.disconnect ((run (advance cfg) new before).stale cfg), .checkHeartbeats] := by
      simp only [ControllerServer.step, hbefore, resume]
    refine ⟨((accounted_run cfg before).step _).work, ?_, Or.inr fun id entry hentry _ hlate => ?_⟩
    · rw [hstep]
      exact le_refl _
    · rw [hstep] at hentry ⊢
      rw [setTask_self]
      refine List.mem_flatMap.mpr ⟨_, List.mem_cons_self, ?_⟩
      simp only [Work.todo, stale, List.map_map, List.mem_map, List.mem_filter, decide_eq_true_eq]
      exact ⟨(id, entry), ⟨(Dict.get?_eq_some_iff _ _ _).mp hentry, hlate⟩, rfl⟩
  have done : Checked cfg checked s := by
    have hrun : s = run (advance cfg) ((run (advance cfg) new before).step cfg
        (.run .heartbeat (.resume failed))) after := run_append _ _ _
    rw [hrun]
    exact run_keeps (Checked cfg checked) (fun _ e _ ok => ok.step e) started
  have fresh : ∀ id entry, s.activeBrokers.get? id = some entry →
      checked - entry.lastHeartbeat ≤ cfg.heartbeatTimeout ∨ checked ≤ entry.lastHeartbeat := by
    intro id entry hentry
    by_contra hlate
    rw [not_or, not_le, not_le] at hlate
    have hpending := done.pending
    rw [hafter] at hpending
    have hmem := hpending.resolve_left (by simp) id entry hentry hlate.2 hlate.1
    simp [Work.todo] at hmem
  refine ⟨fresh, fun id hnode => ?_⟩
  have haccounted := (accounted_run cfg (before ++ .run .heartbeat (.resume failed) :: after)).registered
    id hnode
  refine haccounted.imp_left fun hactive => ?_
  obtain ⟨entry, hentry⟩ := Option.ne_none_iff_exists'.mp hactive
  exact ⟨entry, hentry, fresh id entry hentry⟩

/-- Two brokers register, and only the second one sends a ping while the time runs. -/
def oneSilent : List ServerEvent :=
  .accept 1 :: handled 1 (.brokerRegister "b" "h" 1) 5 ++
    .accept 2 :: handled 2 (.brokerRegister "c" "h" 2) 6 ++
    .tick 10 :: handled 2 (.controllerPing "c") 1 ++ [.tick 10]

theorem silent_brokers_removed_oneSilent :
    let s := run (advance oneReplica) new (oneSilent ++ .run .heartbeat (.resume false) ::
      List.replicate 5 (.run .heartbeat (.resume false)))
    ∀ id entry, s.activeBrokers.get? id = some entry →
      20 - entry.lastHeartbeat ≤ 15 ∨ 20 ≤ entry.lastHeartbeat := by
  have hnow : (run (advance oneReplica) new oneSilent).now = 20 := by decide +kernel
  have h := (silent_brokers_removed oneReplica oneSilent
    (List.replicate 5 (.run .heartbeat (.resume false))) false (by decide +kernel)
    (by decide +kernel)).1
  rwa [hnow] at h

end ControllerServer
end PyLogStream
