import PyLogStream.Controller.Cascade

/-!
The cascade as the work of a task. Where the nested calls return, a task of the controller
that does one piece of work after another comes to the same state, so what the calls leave is
what the task leaves, whichever task it is and whatever it still has to do.
-/

namespace PyLogStream
open Lib ConsistentHashRing
namespace ControllerServer

/-- What a task finds when its wait is over, if just the writes to these brokers fail. -/
def outcome (failing : Finset String) : Work → Input
  | .drained _ brokerId _ _ _ => .resume (decide (brokerId ∈ failing))
  | _ => .resume false

/-- The task does its next piece of work, and nothing else happens. -/
def proceed (cfg : ControllerConfig) (failing : Finset String) (task : TaskId)
    (s : ControllerServer) : ControllerServer :=
  match s.tasks task with
  | [] => s
  | work :: _ => s.step cfg (.run task (outcome failing work))

section
variable {cfg : ControllerConfig} {failing : Finset String} {task : TaskId} {s : ControllerServer}
  {rest : List Work}

theorem proceed_eq {work : Work} (h : s.tasks task = work :: rest) :
    proceed cfg failing task s = s.resume cfg task rest work (outcome failing work) := by
  simp only [proceed, step, h]

theorem failures_cons (brokerId : String) (conn : Nat) (more : List (String × Nat)) :
    failures failing ((brokerId, conn) :: more) =
      failures failing [(brokerId, conn)] ++ failures failing more := by
  by_cases hfails : brokerId ∈ failing <;> simp [failures, hfails]

theorem proceed_drained {metaList : List TopicMetaDataResponse} {brokerId : String} {conn : Nat}
    {more : List (String × Nat)} {disconnected : List (String × Cause)}
    (h : s.tasks task = .drained metaList brokerId conn more disconnected :: rest)
    (broken : brokerId ∈ failing → s.Broken conn) :
    proceed cfg failing task s = s.sendNext task rest metaList
      (disconnected ++ failures failing [(brokerId, conn)]) more := by
  rw [proceed_eq h]
  by_cases hfails : brokerId ∈ failing
  · simp [outcome, resume, failures, hfails, broken hfails]
  · simp [outcome, resume, failures, hfails]

theorem proceed_deregister {brokerId : String} (h : s.tasks task = .deregister brokerId :: rest)
    {manager : MetastoreManager} {updated : List TopicMetadata}
    (hexec : s.manager.exec cfg.hash (Metastore.deregisterBroker cfg.replicasPerTopic brokerId) =
      (manager, .ok updated)) :
    proceed cfg failing task s = { s with manager }.broadcastMetadata task rest := by
  rw [proceed_eq h]
  simp only [outcome, resume, hexec]

/-- The loop of `broadcast_metadata` writes the list to every broker of its snapshot. -/
theorem sendNext_leads (metaList : List TopicMetaDataResponse) {targets : List (String × Nat)}
    (disconnected : List (String × Cause))
    (broken : ∀ target ∈ targets, target.1 ∈ failing → s.Broken target.2) :
    Leads (proceed cfg failing task)
      (· = (s.told metaList (targets.map Prod.snd)).setTask task
        (.disconnect (disconnected ++ failures failing targets) :: rest))
      (s.sendNext task rest metaList disconnected targets) := by
  induction targets generalizing s disconnected with
  | nil =>
      refine .now ?_
      simp [sendNext, failures, told]
  | cons target more ih =>
      obtain ⟨brokerId, conn⟩ := target
      obtain ⟨hfirst, hmore⟩ := List.forall_mem_cons.mp broken
      let s₁ := (s.write conn (.topicMetaDataList metaList)).setTask task
        (.drained metaList brokerId conn more disconnected :: rest)
      have hproceed : proceed cfg failing task s₁ = s₁.sendNext task rest metaList
          (disconnected ++ failures failing [(brokerId, conn)]) more :=
        proceed_drained (setTask_self _) hfirst
      refine .step ?_
      rw [sendNext, hproceed]
      refine (ih (s := s₁) _ hmore).bind fun s' h => .now ?_
      rw [h, List.append_assoc, ← failures_cons]
      simp [s₁, told, setTask, write, Function.update_idem]

theorem broadcastMetadata_setTask (work : List Work) :
    (s.setTask task work).broadcastMetadata task rest = s.broadcastMetadata task rest := by
  simp only [broadcastMetadata]
  change (s.setTask task work).sendNext task rest s.manager.metaList [] s.targets =
    s.sendNext task rest s.manager.metaList [] s.targets
  cases s.targets with
  | nil => exact setTask_setTask _ _
  | cons target more => simp [sendNext, setTask, write, Function.update_idem]

theorem disconnect_absent {brokerId : String} (h : s.activeBrokers.get? brokerId = none)
    (more : List (String × Cause)) :
    s.disconnect cfg task rest brokerId more = s.setTask task (.disconnect more :: rest) := by
  simp only [disconnect, h]

theorem disconnect_active {brokerId : String} {entry : ActiveBroker}
    (h : s.activeBrokers.get? brokerId = some entry) (more : List (String × Cause)) :
    s.disconnect cfg task rest brokerId more =
      (s.tornDown cfg brokerId entry.conn).setTask task
        (.deregister brokerId :: .disconnect more :: rest) := by
  simp only [disconnect, h, tornDown]

theorem disconnect_setTask (work : List Work) (brokerId : String) (more : List (String × Cause)) :
    (s.setTask task work).disconnect cfg task rest brokerId more =
      s.disconnect cfg task rest brokerId more := by
  cases hget : s.activeBrokers.get? brokerId with
  | none =>
      rw [disconnect_absent hget, disconnect_absent (s := s.setTask task work) hget, setTask_setTask]
  | some entry =>
      rw [disconnect_active hget, disconnect_active (s := s.setTask task work) hget]
      simp [tornDown, closeConn, setConn, Live, setTask, Function.update_idem]

/-- A call of one of the coroutines that returns is a number of pieces of work of the task. -/
theorem calls_lead (cfg : ControllerConfig) (failing : Finset String) (task : TaskId)
    (room : Nat) :
    (∀ s s' rest, Breaks failing s →
      broadcastMetadataCall cfg failing s room = (s', .returned) →
        Breaks failing s' ∧
          Leads (proceed cfg failing task) (· = s'.setTask task rest)
            (s.broadcastMetadata task rest)) ∧
    ∀ s s' brokerId more rest, Breaks failing s →
      handleBrokerDisconnectCall cfg failing s brokerId room = (s', .returned) →
        Breaks failing s' ∧
          Leads (proceed cfg failing task) (· = s'.setTask task (.disconnect more :: rest))
            (s.disconnect cfg task rest brokerId more) := by
  induction room with
  | zero =>
      refine ⟨fun s s' rest _ h => ?_, fun s s' brokerId more rest _ h => ?_⟩
      · cases h
      · cases h
  | succ room ih =>
      have loop : ∀ (todo : List (String × Cause)) (s s' : ControllerServer) (rest : List Work),
          Breaks failing s →
          inTurn (fun item s => handleBrokerDisconnectCall cfg failing s item.1 room) todo s =
            (s', .returned) →
          Breaks failing s' ∧ Leads (proceed cfg failing task) (· = s'.setTask task rest)
            (s.setTask task (.disconnect todo :: rest)) := by
        intro todo
        induction todo with
        | nil =>
            intro s s' rest broken h
            cases h
            refine ⟨broken, .step (.now ?_)⟩
            rw [proceed_eq (setTask_self _)]
            exact setTask_setTask _ _
        | cons item more ihmore =>
            intro s s' rest broken h
            obtain ⟨s₁, hcall, hmore⟩ := inTurn_cons_returned h
            obtain ⟨broken₁, hfirst⟩ := ih.2 s s₁ item.1 more rest broken hcall
            obtain ⟨broken', hlater⟩ := ihmore s₁ s' rest broken₁ hmore
            refine ⟨broken', .step ?_⟩
            rw [proceed_eq (setTask_self _)]
            change Leads _ _ ((s.setTask task _).disconnect cfg task rest item.1 more)
            rw [disconnect_setTask]
            exact hfirst.bind fun s₂ h₂ => h₂ ▸ hlater
      refine ⟨fun s s' rest broken h => ?_, fun s s' brokerId more rest broken h => ?_⟩
      · rw [broadcastMetadataCall] at h
        let s₁ := s.told s.manager.metaList (s.targets.map Prod.snd)
        obtain ⟨broken', hloop⟩ := loop _ s₁ s' rest broken h
        refine ⟨broken', ?_⟩
        have hbroken : ∀ target ∈ s.targets, target.1 ∈ failing → s.Broken target.2 := by
          intro target htarget hfails
          obtain ⟨item, hitem, rfl⟩ := List.mem_map.mp htarget
          exact broken item.1 hfails item.2 ((Dict.get?_eq_some_iff _ _ _).mpr hitem)
        refine (sendNext_leads s.manager.metaList [] hbroken).bind fun s₂ h₂ => ?_
        rw [List.nil_append] at h₂
        exact h₂ ▸ hloop
      · rcases disconnectCall_returned h with
          ⟨hnone, rfl⟩ | ⟨entry, manager, updated, hget, hexec, hbroadcast⟩
        · rw [disconnect_absent hnone]
          exact ⟨broken, .now rfl⟩
        · have broken₁ : Breaks failing ((s.tornDown cfg brokerId entry.conn).setManager manager) :=
            broken.tornDown cfg brokerId entry.conn
          obtain ⟨broken', hleads⟩ :=
            ih.1 ((s.tornDown cfg brokerId entry.conn).setManager manager) s'
              (.disconnect more :: rest) broken₁ hbroadcast
          refine ⟨broken', .step ?_⟩
          let s₁ := s.tornDown cfg brokerId entry.conn
          have hproceed : proceed cfg failing task (s₁.setTask task
              (.deregister brokerId :: .disconnect more :: rest)) =
                ((s₁.setManager manager).setTask task
                  (.deregister brokerId :: .disconnect more :: rest)).broadcastMetadata task
                    (.disconnect more :: rest) := proceed_deregister (setTask_self _) hexec
          rw [disconnect_active hget, hproceed, broadcastMetadata_setTask]
          exact hleads

/-- The same of a task that is about to call one of them. -/
theorem cascade_leads {room : Nat} {s' : ControllerServer} (broken : Breaks failing s)
    (task : TaskId) (rest : List Work) :
    (broadcastMetadataCall cfg failing s room = (s', .returned) →
      Leads (proceed cfg failing task) (· = s'.setTask task rest)
        (s.setTask task (.broadcast :: rest))) ∧
    ∀ b cause, handleBrokerDisconnectCall cfg failing s b room = (s', .returned) →
      Leads (proceed cfg failing task) (· = s'.setTask task rest)
        (s.setTask task (.disconnect [(b, cause)] :: rest)) := by
  obtain ⟨broadcast, disconnect⟩ := calls_lead cfg failing task room
  refine ⟨fun h => .step ?_, fun b cause h => .step ?_⟩
  · rw [proceed_eq (setTask_self _)]
    change Leads _ _ ((s.setTask task _).broadcastMetadata task rest)
    rw [broadcastMetadata_setTask]
    exact (broadcast s s' rest broken h).2
  · rw [proceed_eq (setTask_self _)]
    change Leads _ _ ((s.setTask task _).disconnect cfg task rest b [])
    rw [disconnect_setTask]
    refine (disconnect s s' b [] rest broken h).2.bind fun s₁ h₁ => .step (.now ?_)
    rw [h₁, proceed_eq (setTask_self _)]
    exact setTask_setTask _ _

end

/-- A task for whose calls there is always room leaves what a cascade should leave. -/
theorem task_settles (cfg : ControllerConfig) (s : ControllerServer) (ops : List MetastoreOp)
    (reached : s.manager =
      run (MetastoreManager.apply cfg.hash cfg.replicasPerTopic) MetastoreManager.new ops)
    (free : CollisionFree cfg.hash 50
      (brokersOf ops ∪ { id | s.activeBrokers.get? id ≠ none }))
    (failing : Finset String)
    (lost : ∀ id ∈ failing, ∃ entry, s.activeBrokers.get? id = some entry ∧ s.Broken entry.conn)
    (task : TaskId) (rest : List Work) :
    Leads (proceed cfg failing task) (fun s' => s'.tasks task = rest ∧ Left failing s s')
        (s.setTask task (.broadcast :: rest)) ∧
      ∀ b, s.activeBrokers.get? b ≠ none → ∀ cause,
        Leads (proceed cfg failing task)
          (fun s' => s'.tasks task = rest ∧ Left (insert b failing) s s')
          (s.setTask task (.disconnect [(b, cause)] :: rest)) := by
  have ok := CascadeOk.reached reached free lost
  have active := active_of_lost lost
  constructor
  · obtain ⟨s', hcall, settled⟩ := (settled_of_room failing free _).1 s ok le_rfl
    refine ((cascade_leads ok.broken task rest).1 hcall).bind fun s₁ h₁ => .now ?_
    have left := settled.left active
    exact h₁ ▸ ⟨setTask_self _, left.active, left.nodes, left.informed⟩
  · intro b hb cause
    obtain ⟨s', hcall, settled⟩ := (settled_of_room failing free _).2 s b ok hb le_rfl
    refine ((cascade_leads ok.broken task rest).2 b cause hcall).bind fun s₁ h₁ => .now ?_
    have left := settled.left (Finset.forall_mem_insert _ _ _ |>.mpr ⟨hb, active⟩)
    exact h₁ ▸ ⟨setTask_self _, left.active, left.nodes, left.informed⟩

end ControllerServer
end PyLogStream
