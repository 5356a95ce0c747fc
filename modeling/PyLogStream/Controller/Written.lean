import PyLogStream.Controller.Cascade
import PyLogStream.Controller.Leadership

/-!
The lists of metadata that a controller writes. A broadcast takes its list once and may be
overtaken while it waits for a writer to drain, so a list need not be that of the metastore
when it is written. But it is one that the metastore had, and it keeps whatever all of those
have in common. What has been written stays written.
-/

namespace PyLogStream
open Lib

/-- The lists that a piece of work is still to write. -/
def Work.lists : Work → List (List TopicMetaDataResponse)
  | .drained metaList _ _ _ _ => [metaList]
  | .dropBrokers response _ | .dropped response _ _ => response.metaList?.toList
  | _ => []

namespace ControllerServer

/-- Every list written or still to be written has the property. -/
structure Lists (Q : List TopicMetaDataResponse → Prop) (s : ControllerServer) : Prop where
  sent : ∀ message ∈ s.sent, ∀ metaList ∈ message.2.metaList?, Q metaList
  pending : ∀ task, ∀ work ∈ s.tasks task, ∀ metaList ∈ work.lists, Q metaList

/-- The state has grown out of `s₀`, which has written less. -/
structure Writes (Q : List TopicMetaDataResponse → Prop) (s₀ s : ControllerServer) : Prop where
  before : s₀.sent <+: s.sent
  lists : s.Lists Q

section
variable {cfg : ControllerConfig} {Q : List TopicMetaDataResponse → Prop} {s₀ s : ControllerServer}
  {task : TaskId} {rest : List Work}

theorem Writes.setTask (ok : Writes Q s₀ s) {work : List Work}
    (h : ∀ w ∈ work, ∀ metaList ∈ w.lists, Q metaList) : Writes Q s₀ (s.setTask task work) := by
  refine ⟨ok.before, ok.lists.sent, fun task' w hw => ?_⟩
  simp only [ControllerServer.setTask, Function.update_apply] at hw
  split at hw
  · exact h w hw
  · exact ok.lists.pending task' w hw

theorem Writes.setConn (ok : Writes Q s₀ s) (conn : Nat) (c : Connection) :
    Writes Q s₀ (s.setConn conn c) := ⟨ok.before, ok.lists.sent, ok.lists.pending⟩

theorem Writes.closeConn (ok : Writes Q s₀ s) (conn : Nat) : Writes Q s₀ (s.closeConn cfg conn) :=
  ok.setConn conn _

theorem Writes.setBrokers (ok : Writes Q s₀ s) (activeBrokers : Dict String ActiveBroker) :
    Writes Q s₀ { s with activeBrokers } := ⟨ok.before, ok.lists.sent, ok.lists.pending⟩

theorem Writes.setManager (ok : Writes Q s₀ s) (manager : MetastoreManager) :
    Writes Q s₀ { s with manager } := ⟨ok.before, ok.lists.sent, ok.lists.pending⟩

theorem Writes.write (ok : Writes Q s₀ s) (conn : Nat) {response : ControllerResponse}
    (h : ∀ metaList ∈ response.metaList?, Q metaList) : Writes Q s₀ (s.write conn response) := by
  refine ⟨ok.before.trans (List.prefix_append _ _), fun message hmessage => ?_, ok.lists.pending⟩
  rcases List.mem_append.mp hmessage with hold | hnew
  · exact ok.lists.sent message hold
  · obtain rfl := List.mem_singleton.mp hnew
    exact h

theorem Writes.leave (ok : Writes Q s₀ s) (conn : Nat) : Writes Q s₀ (s.leave cfg conn) := by
  have hleft := ok.setConn conn { s.conns conn with serving := false }
  simp only [ControllerServer.leave]
  split
  · split
    · exact (hleft.closeConn conn).setTask (by simp)
    · exact hleft.setTask (by simp [Work.lists])
  · exact (hleft.closeConn conn).setTask (by simp)

theorem Writes.raise (ok : Writes Q s₀ s) (task : TaskId) : Writes Q s₀ (s.raise cfg task) := by
  cases task with
  | handler conn =>
      simp only [ControllerServer.raise]
      split
      · exact ok.leave conn
      · exact ok.setTask (by simp)
  | heartbeat | leaderGone n => exact ok.setTask (by simp)

theorem Writes.sendNext (ok : Writes Q s₀ s) {metaList : List TopicMetaDataResponse}
    (h : Q metaList) (hrest : ∀ w ∈ rest, ∀ metaList ∈ w.lists, Q metaList)
    (disconnected : List (String × Cause)) (targets : List (String × Nat)) :
    Writes Q s₀ (s.sendNext task rest metaList disconnected targets) := by
  cases targets with
  | nil => exact ok.setTask (List.forall_mem_cons.mpr ⟨by simp [Work.lists], hrest⟩)
  | cons target more =>
      have hwrite : Writes Q s₀ (s.write target.2 (.topicMetaDataList metaList)) :=
        ok.write target.2 (by simpa [ControllerResponse.metaList?] using h)
      exact hwrite.setTask (List.forall_mem_cons.mpr ⟨by simpa [Work.lists] using h, hrest⟩)

theorem Writes.disconnect (ok : Writes Q s₀ s)
    (hrest : ∀ w ∈ rest, ∀ metaList ∈ w.lists, Q metaList) (brokerId : String)
    (more : List (String × Cause)) :
    Writes Q s₀ (s.disconnect cfg task rest brokerId more) := by
  simp only [ControllerServer.disconnect]
  split
  · exact ok.setTask (List.forall_mem_cons.mpr ⟨by simp [Work.lists], hrest⟩)
  · next entry hget =>
      refine ((ok.setBrokers _).closeConn entry.conn).setTask fun w hw => ?_
      simp only [List.mem_cons] at hw
      rcases hw with rfl | rfl | hw
      · simp [Work.lists]
      · simp [Work.lists]
      · exact hrest w hw

theorem Writes.dropBrokers (ok : Writes Q s₀ s)
    (hrest : ∀ w ∈ rest, ∀ metaList ∈ w.lists, Q metaList) {response : ControllerResponse}
    (h : ∀ metaList ∈ response.metaList?, Q metaList) (ids : List String) :
    Writes Q s₀ (s.dropBrokers task rest response ids) := by
  induction ids with
  | nil => exact ok.setTask hrest
  | cons brokerId more ih =>
      simp only [ControllerServer.dropBrokers]
      split
      · exact ih
      · next entry hget =>
          refine ((ok.setBrokers _).write entry.conn h).setTask (List.forall_mem_cons.mpr ⟨?_, hrest⟩)
          simpa [Work.lists] using h

/-- An answer and the work after it. -/
theorem Writes.answered (ok : Writes Q s₀ s)
    (hrest : ∀ w ∈ rest, ∀ metaList ∈ w.lists, Q metaList) (conn : Nat)
    (response : ControllerResponse) (h : ∀ metaList ∈ response.metaList?, Q metaList)
    (work : List Work) (hwork : ∀ w ∈ work, w.lists = []) :
    Writes Q s₀ ((s.write conn response).setTask task (work ++ rest)) := by
  refine (ok.write conn h).setTask fun w hw => ?_
  rcases List.mem_append.mp hw with hnew | hold
  · simp [hwork w hnew]
  · exact hrest w hold

theorem Writes.heartbeat (ok : Writes Q s₀ s) (conn : Nat) : Writes Q s₀ (s.heartbeat conn) := by
  simp only [ControllerServer.heartbeat]
  have hconn := ok.setConn conn { s.conns conn with lastHeartbeat := s.now }
  split
  · exact hconn
  · split
    · exact hconn
    · exact hconn.setBrokers _

/-- Only a registration writes a list at once, and it is that of the metastore it leaves. -/
theorem Writes.handleFrame (ok : Writes Q s₀ s)
    (hrest : ∀ w ∈ rest, ∀ metaList ∈ w.lists, Q metaList) (conn : Nat) (cmd : ControllerCommand)
    (hnew : Q (s.handleFrame cfg conn rest cmd).manager.metaList) :
    Writes Q s₀ (s.handleFrame cfg conn rest cmd) := by
  have hnone : ∀ metaList ∈ (none : Option (List TopicMetaDataResponse)), Q metaList := by simp
  cases cmd with
  | brokerRegister brokerId host port =>
      have hactive := (ok.setConn conn { s.conns conn with
        brokerId := some brokerId, lastHeartbeat := s.now }).setBrokers
          (s.activeBrokers.set brokerId ⟨conn, s.now, host, port⟩)
      have hregistered : Writes Q s₀
          { s.setConn conn { s.conns conn with
              brokerId := some brokerId, lastHeartbeat := s.now } with
            activeBrokers := s.activeBrokers.set brokerId ⟨conn, s.now, host, port⟩
            registrant := Function.update s.registrant brokerId (some conn) } :=
        ⟨hactive.before, hactive.lists.sent, hactive.lists.pending⟩
      simp only [ControllerServer.handleFrame] at hnew ⊢
      cases hexec : (s.setConn conn { s.conns conn with
          brokerId := some brokerId, lastHeartbeat := s.now }).manager.exec cfg.hash
          (Metastore.registerBroker brokerId host port) with
      | mk manager answer =>
          cases answer with
          | ok node =>
              simp only [hexec] at hnew ⊢
              refine (hregistered.setManager manager).answered hrest conn _ (fun metaList hmem => ?_)
                [.drain, .broadcast, .serve] (by simp [Work.lists])
              exact Option.some.inj hmem ▸ hnew
          | error err =>
              exact (hregistered.setManager manager).raise (.handler conn)
  | controllerPing brokerId =>
      exact (ok.heartbeat conn).answered hrest conn .controllerPing hnone [.drain, .serve]
        (by simp [Work.lists])
  | registerTopic topic =>
      simp only [ControllerServer.handleFrame]
      split
      · next manager topicMeta hexec =>
          exact (ok.setManager manager).answered hrest conn (.topicMetaData _) hnone
            [.drain, .broadcast, .serve] (by simp [Work.lists])
      · next manager err hexec => exact (ok.setManager manager).raise (.handler conn)
  | metadataRequest topic =>
      refine ok.answered hrest conn _ ?_ [.drain, .serve] (by simp [Work.lists])
      split <;> exact hnone
  | isrChange topic isrList =>
      simp only [ControllerServer.handleFrame]
      split
      · next manager topicMeta hexec =>
          exact (ok.setManager manager).setTask
            (List.forall_mem_cons.mpr ⟨by simp [Work.lists], hrest⟩)
      · next manager err hexec => exact (ok.setManager manager).raise (.handler conn)
  | other =>
      exact ok.answered hrest conn (.error _ _) hnone [.drain, .serve] (by simp [Work.lists])

theorem Writes.run (ok : Writes Q s₀ s) {input : Input} (hold : Q s.manager.metaList)
    (hnew : Q (s.step cfg (.run task input)).manager.metaList) :
    Writes Q s₀ (s.step cfg (.run task input)) := by
  have hpending : ∀ {w rest}, s.tasks task = w :: rest →
      (∀ metaList ∈ w.lists, Q metaList) ∧ ∀ w' ∈ rest, ∀ metaList ∈ w'.lists, Q metaList :=
    fun htasks => List.forall_mem_cons.mp (htasks ▸ ok.lists.pending task)
  have hleader : ∀ info, ∀ metaList ∈ (notLeaderResponse info).metaList?, Q metaList := by
    intro info
    cases info <;> simp [notLeaderResponse, ControllerResponse.metaList?]
  revert hnew
  apply run_cases (P := fun s' => Q s'.manager.metaList → Writes Q s₀ s')
  case idle => exact fun _ => ok
  case frame =>
      intro conn rest cmd htask htasks hinput hnew
      exact ok.handleFrame (hpending htasks).2 conn cmd hnew
  case leave => exact fun conn _ _ _ _ => ok.leave conn
  case fail => exact fun _ _ _ => ok.raise task
  case next => exact fun w rest htasks _ => ok.setTask (hpending htasks).2
  case broadcast => exact fun rest htasks _ => ok.sendNext hold (hpending htasks).2 _ _
  case drained =>
      intro metaList brokerId conn more disconnected rest failed htasks _
      exact ok.sendNext ((hpending htasks).1 metaList (List.mem_singleton_self _))
        (hpending htasks).2 _ _
  case disconnect =>
      exact fun brokerId _ more rest _ _ htasks _ => ok.disconnect (hpending htasks).2 brokerId more
  case deregister =>
      intro brokerId rest failed _ htasks manager
      have hchanged := ok.setManager manager
      refine ⟨fun hnew => ?_, fun _ => hchanged.raise task⟩
      rw [broadcastMetadata, sendNext_manager] at hnew
      exact hchanged.sendNext hnew (hpending htasks).2 _ _
  case check =>
      exact fun rest htasks _ => ok.setTask (List.forall_mem_cons.mpr ⟨by simp [Work.lists],
        List.forall_mem_cons.mpr ⟨by simp [Work.lists], (hpending htasks).2⟩⟩)
  case reject =>
      intro conn info rest htask htasks _
      exact ((ok.write conn (hleader info)).closeConn conn).setTask (hpending htasks).2
  case notLeader =>
      exact fun info rest htasks _ => ok.dropBrokers (hpending htasks).2 (hleader info) _
  case drop =>
      intro response todo rest htasks _
      refine ok.dropBrokers (hpending htasks).2 (fun metaList hmem => ?_) todo
      exact (hpending htasks).1 metaList (by simpa [Work.lists] using hmem)
  case dropped =>
      intro response conn todo rest htasks
      have hwork : ∀ w ∈ Work.dropBrokers response todo :: rest, ∀ metaList ∈ w.lists, Q metaList :=
        List.forall_mem_cons.mpr ⟨(hpending htasks).1, (hpending htasks).2⟩
      exact ⟨fun _ => ok.setTask hwork, fun _ => (ok.closeConn conn).setTask hwork⟩
  case elected =>
      intro won rest htasks _
      have hok : Writes Q s₀ { s with isLeader := won } :=
        ⟨ok.before, ok.lists.sent, ok.lists.pending⟩
      exact hok.setTask (hpending htasks).2

/-- What the metastore's lists before and after a step have in common holds of everything
that is written. -/
theorem Lists.step (ok : s.Lists Q) {e : ServerEvent} (hold : Q s.manager.metaList)
    (hnew : Q (s.step cfg e).manager.metaList) : Writes Q s (s.step cfg e) := by
  have hself : Writes Q s s := ⟨List.prefix_rfl, ok⟩
  cases e with
  | tick elapsed => exact ⟨hself.before, ok.sent, ok.pending⟩
  | lose conn => exact hself.setConn conn _
  | accept conn =>
      simp only [ControllerServer.step]
      split
      · split
        · exact (hself.setConn conn _).setTask (by simp [Work.lists])
        · exact hself.setTask (by simp [Work.lists])
      · exact hself
  | leaderGone n =>
      simp only [ControllerServer.step]
      split
      · have hok : Writes Q s { s with isLeader := false } := ⟨hself.before, ok.sent, ok.pending⟩
        exact hok.setTask (by simp [Work.lists])
      · exact hself
  | run task input => exact hself.run hold hnew

theorem lists_new (Q : List TopicMetaDataResponse → Prop) : new.Lists Q := by
  refine ⟨by simp [new], fun task w hw => ?_⟩
  simp only [new] at hw
  split at hw
  · simp [List.mem_singleton.mp hw, Work.lists]
  · cases hw

end
end ControllerServer
end PyLogStream
