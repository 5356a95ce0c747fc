import PyLogStream.Replication.Roles

/-!
Shutting topics down while producers wait for the watermark: `_remove_topic`, `close_all`
and the replacement in `apply_metadata`, in any state of the manager and of the futures.
`ReplicaLeader.close` fails one waiting future after the other and raises at the first that
is done already, as a future is whose producer was cancelled. The exception skips what is
left, and leaves the closed state in the map. So a shutdown completes exactly when every
future it comes to is pending.
-/

namespace PyLogStream
open Lib

inductive FutureState where
  | pending | cancelled
  /-- An exception was set. -/
  | failed
  deriving DecidableEq, Repr

inductive ShutdownError where
  /-- `asyncio.InvalidStateError`, from a future that is done. -/
  | invalidState
  | log (err : LogError)
  deriving DecidableEq

/-- The loop of `ReplicaLeader.close`. -/
def setExceptions : List Nat → (Nat → FutureState) →
    (Nat → FutureState) × Except ShutdownError Unit
  | [], futures => (futures, .ok ())
  | fut :: futs, futures =>
    if futures fut = .pending then setExceptions futs (Function.update futures fut .failed)
    else (futures, .error .invalidState)

def ReplicaLeader.close (leader : ReplicaLeader) (futures : Nat → FutureState) :
    (Nat → FutureState) × Except ShutdownError Unit :=
  setExceptions (leader.hwWaiterQueue.map Prod.snd) futures

structure WaitingManager where
  manager : ReplicaManager
  /-- The state of every future; one that no producer waits on yet counts as pending. -/
  futures : Nat → FutureState

namespace WaitingManager

/-- The state after `_close_state`, whether it raises or not: the leader comes last.
The loop is not an error: it ends cancelled, as `_update_isr` raises only for a leader
that is not among its replicas. -/
def closeState (state : TopicState) (futures : Nat → FutureState) :
    TopicState × (Nat → FutureState) × Except ShutdownError Unit :=
  match state.leader with
  | none => (ReplicaManager.closeState state, futures, .ok ())
  | some leader => (ReplicaManager.closeState state, leader.close futures)

/-- The state that was removed, if there was one. -/
def removeTopic (w : WaitingManager) (topic : String) :
    WaitingManager × Except ShutdownError (Option TopicState) :=
  match w.manager.topics.get? topic with
  | none => (w, .ok none)
  | some state =>
    match closeState state w.futures with
    | (state, futures, .error err) =>
      (⟨{ w.manager with topics := w.manager.topics.set topic state }, futures⟩, .error err)
    | (state, futures, .ok ()) =>
      (⟨{ w.manager with topics := w.manager.topics.erase topic }, futures⟩, .ok (some state))

/-- The loop of `close_all`; an exception ends it. Where other tasks run between two
topics, what follows is a removal from another state. -/
def closeEach : List String → WaitingManager → WaitingManager × Except ShutdownError Unit
  | [], w => (w, .ok ())
  | topic :: topics, w =>
    match w.removeTopic topic with
    | (w, .error err) => (w, .error err)
    | (w, .ok _) => closeEach topics w

def closeAll (w : WaitingManager) : WaitingManager × Except ShutdownError Unit :=
  closeEach w.manager.topics.keys w

def install (w : WaitingManager) (state : TopicState) (closed : Option TopicState) :
    WaitingManager × Except ShutdownError MetadataOutcome :=
  let (m, result) := w.manager.install state closed
  ({ w with manager := m }, result.mapError .log)

def applyMetadata (w : WaitingManager) (metaData : TopicMetaDataResponse) :
    WaitingManager × Except ShutdownError MetadataOutcome :=
  if w.manager.config.id ∉ metaData.replicaList then
    let (w, result) := w.removeTopic metaData.topic
    (w, result.map .removed)
  else
    let state := TopicState.ofMeta w.manager.config.id metaData
    match w.manager.topics.get? state.topic with
    | none => w.install state none
    | some oldState =>
      if metaData.version ≤ oldState.version then (w, .ok .notNewer)
      else if state.CompareMeta oldState then (w, .ok .unchanged)
      else
        match closeState oldState w.futures with
        | (oldState, futures, .error err) =>
          (⟨{ w.manager with topics := w.manager.topics.set state.topic oldState }, futures⟩,
            .error err)
        | (oldState, futures, .ok ()) => { w with futures }.install state (some oldState)

/-- `get_leader(topic).wait_for_hw(offset)` up to its return or its `await` on a new future. -/
def waitForHw (w : WaitingManager) (topic : String) (offset : Int) (fut : Nat) : WaitingManager :=
  match ReplicaManager.getLeader w.manager.topics topic with
  | .error _ => w
  | .ok leader =>
    match leader.waitForHw w.manager.log offset fut with
    | .error _ => w
    | .ok (leader, _) => { w with manager := w.manager.setLeader topic leader }

/-- The task that awaits the future is cancelled. -/
def cancel (w : WaitingManager) (fut : Nat) : WaitingManager :=
  if w.futures fut = .pending then { w with futures := Function.update w.futures fut .cancelled }
  else w

/-- The calls that shut topics down. -/
inductive Shutdown where
  | removeTopic (topic : String)
  | closeAll
  | applyMetadata (metaData : TopicMetaDataResponse)

def shutdown (w : WaitingManager) : Shutdown → WaitingManager × Except ShutdownError Unit
  | .removeTopic topic => ((w.removeTopic topic).1, (w.removeTopic topic).2.map fun _ => ())
  | .closeAll => w.closeAll
  | .applyMetadata metaData =>
    ((w.applyMetadata metaData).1, (w.applyMetadata metaData).2.map fun _ => ())

/-- The futures in the queue of a topic's leader. -/
def waiters (w : WaitingManager) (topic : String) : List Nat :=
  match (w.manager.topics.get? topic).bind TopicState.leader with
  | none => []
  | some leader => leader.hwWaiterQueue.map Prod.snd

/-- The topics whose state the call is to shut down: metadata that changes nothing shuts
none down. -/
def closes (w : WaitingManager) : Shutdown → List String
  | .removeTopic topic => [topic]
  | .closeAll => w.manager.topics.keys
  | .applyMetadata metaData => if Harmless w.manager metaData then [] else [metaData.topic]

/-- The entry that the call leaves for a topic it shuts down, by what is described in it. -/
def leaves (id : String) : Shutdown → Option TopicState
  | .removeTopic _ => none
  | .closeAll => none
  | .applyMetadata metaData =>
    if id ∈ metaData.replicaList then some (TopicState.ofMeta id metaData) else none

/-- The call does not raise because of a future, every pending waiter gets an exception,
and every entry is removed or replaced. -/
structure Completes (w : WaitingManager) (call : Shutdown) : Prop where
  returns : (w.shutdown call).2 ≠ .error .invalidState
  waiters : ∀ topic ∈ w.closes call, ∀ fut ∈ w.waiters topic, w.futures fut = .pending →
    (w.shutdown call).1.futures fut = .failed
  entries : ∀ topic ∈ w.closes call,
    ((w.shutdown call).1.manager.topics.get? topic).map TopicState.described =
      leaves w.manager.config.id call

/-- All of these futures are pending, and none is named twice. -/
def AllPending (futures : Nat → FutureState) (futs : List Nat) : Prop :=
  futs.Nodup ∧ ∀ fut ∈ futs, futures fut = .pending

/-- Every future that the call comes to is pending. -/
def WaitersPending (w : WaitingManager) (call : Shutdown) : Prop :=
  AllPending w.futures ((w.closes call).flatMap w.waiters)

section Futures
variable {futures : Nat → FutureState} {futs later : List Nat}

/-- The futures after an exception was set on each of these. -/
def allFailed (futures : Nat → FutureState) (futs : List Nat) (fut : Nat) : FutureState :=
  if fut ∈ futs then .failed else futures fut

theorem allFailed_nil : allFailed futures [] = futures := by
  funext fut
  exact if_neg List.not_mem_nil

theorem allFailed_append :
    allFailed (allFailed futures futs) later = allFailed futures (futs ++ later) := by
  funext fut
  simp only [allFailed, List.mem_append]
  by_cases hlater : fut ∈ later
  · simp [hlater]
  · simp [hlater]

theorem allPending_cons {fut : Nat} :
    AllPending futures (fut :: futs) ↔
      futures fut = .pending ∧ AllPending (Function.update futures fut .failed) futs := by
  simp only [AllPending, List.nodup_cons, List.forall_mem_cons]
  constructor
  · rintro ⟨⟨hnew, hnodup⟩, hfirst, hrest⟩
    refine ⟨hfirst, hnodup, fun f hf => ?_⟩
    have hne : f ≠ fut := fun heq => hnew (heq ▸ hf)
    rw [Function.update_of_ne hne]
    exact hrest f hf
  · rintro ⟨hfirst, hnodup, hrest⟩
    have hne : ∀ f ∈ futs, f ≠ fut := by
      rintro f hf rfl
      have hpending := hrest f hf
      rw [Function.update_self] at hpending
      cases hpending
    refine ⟨⟨fun hmem => hne fut hmem rfl, hnodup⟩, hfirst, fun f hf => ?_⟩
    rw [← hrest f hf, Function.update_of_ne (hne f hf)]

theorem allPending_append (hfuts : AllPending futures futs) :
    AllPending futures (futs ++ later) ↔ AllPending (allFailed futures futs) later := by
  simp only [AllPending, List.nodup_append, List.mem_append, allFailed]
  constructor
  · rintro ⟨⟨-, hlater, hne⟩, hpending⟩
    refine ⟨hlater, fun fut hfut => ?_⟩
    rw [if_neg fun hmem => hne fut hmem fut hfut rfl]
    exact hpending fut (Or.inr hfut)
  · rintro ⟨hlater, hpending⟩
    have hnot : ∀ fut ∈ later, fut ∉ futs := by
      intro fut hfut hmem
      have h := hpending fut hfut
      rw [if_pos hmem] at h
      cases h
    refine ⟨⟨hfuts.1, hlater, fun a ha b hb heq => hnot b hb (heq ▸ ha)⟩, fun fut hfut => ?_⟩
    rcases hfut with hmem | hmem
    · exact hfuts.2 fut hmem
    · have h := hpending fut hmem
      rwa [if_neg (hnot fut hmem)] at h

/-- The loop fails every future, unless one of them is not pending when its turn comes. -/
theorem setExceptions_spec (futs : List Nat) (futures : Nat → FutureState) :
    AllPending futures futs ∧ setExceptions futs futures = (allFailed futures futs, .ok ()) ∨
      ¬ AllPending futures futs ∧
        ∃ futures', setExceptions futs futures = (futures', .error .invalidState) := by
  induction futs generalizing futures with
  | nil => exact Or.inl ⟨⟨List.nodup_nil, by simp⟩, by rw [setExceptions, allFailed_nil]⟩
  | cons fut futs ih =>
      rw [allPending_cons, setExceptions]
      by_cases hfirst : futures fut = .pending
      · rw [if_pos hfirst]
        rcases ih (Function.update futures fut .failed) with ⟨hrest, hset⟩ | ⟨hrest, hset⟩
        · refine Or.inl ⟨⟨hfirst, hrest⟩, ?_⟩
          rw [hset]
          congr 1
          funext f
          by_cases heq : f = fut
          · simp [allFailed, heq]
          · simp [allFailed, heq]
        · exact Or.inr ⟨fun h => hrest h.2, hset⟩
      · rw [if_neg hfirst]
        exact Or.inr ⟨fun h => hfirst h.1, futures, rfl⟩

end Futures

section
variable {w : WaitingManager}

theorem waiters_eq {topic : String} {state : TopicState}
    (hget : w.manager.topics.get? topic = some state) :
    closeState state w.futures =
      (ReplicaManager.closeState state, setExceptions (w.waiters topic) w.futures) := by
  simp only [closeState, waiters, hget, Option.bind_some]
  cases state.leader with
  | none => rfl
  | some leader => rfl

/-- A topic is removed as the manager removes it, unless one of its waiters is done. -/
theorem removeTopic_outcome (w : WaitingManager) (topic : String) :
    AllPending w.futures (w.waiters topic) ∧
        w.removeTopic topic = (⟨(w.manager.removeTopic topic).1,
          allFailed w.futures (w.waiters topic)⟩, .ok (w.manager.removeTopic topic).2) ∨
      ¬ AllPending w.futures (w.waiters topic) ∧
        ∃ w', w.removeTopic topic = (w', .error .invalidState) := by
  cases hget : w.manager.topics.get? topic with
  | none =>
      have hnone : w.waiters topic = [] := by simp only [waiters, hget, Option.bind_none]
      refine Or.inl ⟨?_, ?_⟩
      · rw [hnone]
        exact ⟨List.nodup_nil, by simp⟩
      · simp only [removeTopic, ReplicaManager.removeTopic, hget, hnone, allFailed_nil]
  | some state =>
      simp only [removeTopic, ReplicaManager.removeTopic, hget, waiters_eq hget]
      rcases setExceptions_spec (w.waiters topic) w.futures with
        ⟨hpending, hset⟩ | ⟨hnot, futures, hset⟩
      · rw [hset]
        exact Or.inl ⟨hpending, rfl⟩
      · rw [hset]
        exact Or.inr ⟨hnot, _, rfl⟩

theorem waiters_congr {w' : WaitingManager} {topic : String}
    (h : w'.manager.topics.get? topic = w.manager.topics.get? topic) :
    w'.waiters topic = w.waiters topic := by
  rw [waiters, waiters, h]

/-- The topics of a list are all removed, unless one of their waiters is done. -/
theorem closeEach_spec (topics : List String) (distinct : topics.Nodup) (w : WaitingManager) :
    AllPending w.futures (topics.flatMap w.waiters) ∧ (closeEach topics w).2 = .ok () ∧
        (closeEach topics w).1.futures = allFailed w.futures (topics.flatMap w.waiters) ∧
        (∀ topic, (closeEach topics w).1.manager.topics.get? topic =
          if topic ∈ topics then none else w.manager.topics.get? topic) ∨
      ¬ AllPending w.futures (topics.flatMap w.waiters) ∧
        (closeEach topics w).2 = .error .invalidState := by
  induction topics generalizing w with
  | nil => exact Or.inl ⟨⟨List.nodup_nil, by simp⟩, rfl, allFailed_nil.symm, by simp [closeEach]⟩
  | cons topic topics ih =>
      obtain ⟨hfresh, hdistinct⟩ := List.nodup_cons.mp distinct
      rw [List.flatMap_cons]
      rcases removeTopic_outcome w topic with ⟨hpending, hremove⟩ | ⟨hnot, w', hremove⟩
      · obtain ⟨-, -, htopics⟩ := removeTopic_spec w.manager topic
        rw [allPending_append hpending, closeEach, hremove]
        simp only
        generalize hnext : (⟨(w.manager.removeTopic topic).1,
          allFailed w.futures (w.waiters topic)⟩ : WaitingManager) = next
        have hfutures : allFailed w.futures (w.waiters topic) = next.futures := by rw [← hnext]
        have hentries : ∀ other, next.manager.topics.get? other =
            if other = topic then none else w.manager.topics.get? other := by
          intro other
          rw [← hnext]
          exact htopics other
        have hwaiters : topics.flatMap w.waiters = topics.flatMap next.waiters := by
          refine List.flatMap_congr fun other hother => (waiters_congr ?_).symm
          rw [hentries, if_neg]
          rintro rfl
          exact hfresh hother
        rw [hfutures, hwaiters]
        rcases ih hdistinct next with ⟨hrest, hclose, hfailed, hleft⟩ | ⟨hrest, hclose⟩
        · refine Or.inl ⟨hrest, hclose, ?_, fun other => ?_⟩
          · rw [hfailed, ← hfutures, allFailed_append]
          · rw [hleft, hentries]
            by_cases heq : other = topic
            · simp [heq]
            · simp [heq]
        · exact Or.inr ⟨hrest, hclose⟩
      · refine Or.inr ⟨fun h => hnot ?_, ?_⟩
        · exact ⟨h.1.sublist (List.sublist_append_left _ _),
            fun fut hfut => h.2 fut (List.mem_append_left _ hfut)⟩
        · rw [closeEach, hremove]

theorem waiters_of_none {topic : String} (hget : w.manager.topics.get? topic = none) :
    w.waiters topic = [] := by
  simp only [waiters, hget, Option.bind_none]

theorem applyMetadata_kept {metaData : TopicMetaDataResponse}
    (harmless : Harmless w.manager metaData) :
    w.applyMetadata metaData = (w, (w.manager.applyMetadata metaData).2.mapError .log) := by
  unfold Harmless at harmless
  cases hget : w.manager.topics.get? metaData.topic with
  | none =>
      rw [hget] at harmless
      simp only [applyMetadata, ReplicaManager.applyMetadata, harmless, not_false_eq_true, if_true,
        removeTopic, ReplicaManager.removeTopic, hget]
      rfl
  | some oldState =>
      rw [hget] at harmless
      have hstate : w.manager.topics.get?
          (TopicState.ofMeta w.manager.config.id metaData).topic = some oldState := hget
      simp only [applyMetadata, ReplicaManager.applyMetadata, harmless.1, not_true_eq_false,
        if_false, hstate]
      by_cases hversion : metaData.version ≤ oldState.version
      · rw [if_pos hversion, if_pos hversion]
        rfl
      · rw [if_neg hversion, if_neg hversion, if_pos (harmless.2.resolve_left hversion),
          if_pos (harmless.2.resolve_left hversion)]
        rfl

theorem applyMetadata_effect {metaData : TopicMetaDataResponse}
    (effect : ¬ Harmless w.manager metaData) :
    AllPending w.futures (w.waiters metaData.topic) ∧ w.applyMetadata metaData =
        (⟨(w.manager.applyMetadata metaData).1, allFailed w.futures (w.waiters metaData.topic)⟩,
          (w.manager.applyMetadata metaData).2.mapError .log) ∨
      ¬ AllPending w.futures (w.waiters metaData.topic) ∧
        (w.applyMetadata metaData).2 = .error .invalidState := by
  by_cases member : w.manager.config.id ∈ metaData.replicaList
  · simp only [applyMetadata, ReplicaManager.applyMetadata, member, not_true_eq_false, if_false]
    cases hget : w.manager.topics.get? metaData.topic with
    | none =>
        have hstate : w.manager.topics.get?
            (TopicState.ofMeta w.manager.config.id metaData).topic = none := hget
        rw [waiters_of_none hget, allFailed_nil]
        simp only [hstate, install]
        exact Or.inl ⟨⟨List.nodup_nil, by simp⟩, trivial⟩
    | some oldState =>
        have hstate : w.manager.topics.get?
            (TopicState.ofMeta w.manager.config.id metaData).topic = some oldState := hget
        simp only [Harmless, hget, member, true_and, not_or] at effect
        simp only [hstate, if_neg effect.1, if_neg effect.2, waiters_eq hget]
        rcases setExceptions_spec (w.waiters metaData.topic) w.futures with
          ⟨hpending, hset⟩ | ⟨hnot, futures, hset⟩
        · rw [hset]
          exact Or.inl ⟨hpending, rfl⟩
        · rw [hset]
          exact Or.inr ⟨hnot, rfl⟩
  · simp only [applyMetadata, ReplicaManager.applyMetadata, member, not_false_eq_true, if_true]
    rcases removeTopic_outcome w metaData.topic with ⟨hpending, hremove⟩ | ⟨hnot, w', hremove⟩
    · rw [hremove]
      exact Or.inl ⟨hpending, rfl⟩
    · rw [hremove]
      exact Or.inr ⟨hnot, rfl⟩

/-- Metadata is applied as the manager applies it, unless a waiter it closes is done. -/
theorem applyMetadata_outcome (w : WaitingManager) (metaData : TopicMetaDataResponse) :
    w.WaitersPending (.applyMetadata metaData) ∧ w.applyMetadata metaData =
        (⟨(w.manager.applyMetadata metaData).1, allFailed w.futures
            ((w.closes (.applyMetadata metaData)).flatMap w.waiters)⟩,
          (w.manager.applyMetadata metaData).2.mapError .log) ∨
      ¬ w.WaitersPending (.applyMetadata metaData) ∧
        (w.applyMetadata metaData).2 = .error .invalidState := by
  rw [WaitersPending]
  by_cases harmless : Harmless w.manager metaData
  · obtain ⟨hsame, -⟩ := applyMetadata_of_harmless harmless
    simp only [closes, if_pos harmless, List.flatMap_nil, allFailed_nil, hsame,
      applyMetadata_kept harmless]
    exact Or.inl ⟨⟨List.nodup_nil, by simp⟩, trivial⟩
  · simp only [closes, if_neg harmless, List.flatMap_singleton]
    exact applyMetadata_effect harmless

end

/-- A metadata that takes effect leaves the state it describes, or none. -/
theorem applyMetadata_described {m : ReplicaManager} {metaData : TopicMetaDataResponse}
    (effect : ¬ Harmless m metaData) :
    ((m.applyMetadata metaData).1.topics.get? metaData.topic).map TopicState.described =
      leaves m.config.id (.applyMetadata metaData) := by
  rcases applyMetadata_of_effect effect with ⟨hnot, oldState, -, happly⟩ | ⟨member, happly⟩
  · rw [happly, leaves, if_neg hnot, Dict.get?_erase, if_pos rfl]
    rfl
  · rw [happly, leaves, if_pos member]
    simp only [ReplicaManager.install]
    generalize hstart : ReplicaManager.startTopic m.config m.log
      (TopicState.ofMeta m.config.id metaData) = result
    obtain ⟨log, res⟩ := result
    have hentry : ∀ state, (m.topics.set (TopicState.ofMeta m.config.id metaData).topic state).get?
        metaData.topic = some state := fun state => Dict.get?_set_self _ _ _
    cases res with
    | error err =>
        simp only [hentry]
        rfl
    | ok started =>
        simp only [hentry, Option.map_some, (startTopic_built rfl hstart).2]
        rfl

theorem mapError_log_ne {α : Type} (result : Except LogError α) :
    (result.mapError ShutdownError.log).map (fun _ => ()) ≠ .error .invalidState := by
  cases result with
  | error err => simp [Except.mapError, Except.map]
  | ok a => simp [Except.mapError, Except.map]

/-- A call fails all waiters it comes to and leaves no entry behind, unless one of them
is done, where it raises. -/
theorem shutdown_outcome (w : WaitingManager) (call : Shutdown) :
    w.WaitersPending call ∧ (w.shutdown call).2 ≠ .error .invalidState ∧
        (w.shutdown call).1.futures = allFailed w.futures ((w.closes call).flatMap w.waiters) ∧
        (∀ topic ∈ w.closes call, ((w.shutdown call).1.manager.topics.get? topic).map
          TopicState.described = leaves w.manager.config.id call) ∨
      ¬ w.WaitersPending call ∧ (w.shutdown call).2 = .error .invalidState := by
  cases call with
  | removeTopic topic =>
      have hfuts : (w.closes (.removeTopic topic)).flatMap w.waiters = w.waiters topic :=
        List.flatMap_singleton _ _
      rw [WaitersPending, hfuts]
      rcases removeTopic_outcome w topic with ⟨hpending, hremove⟩ | ⟨hnot, w', hremove⟩
      · simp only [shutdown, hremove, closes, List.mem_singleton, leaves]
        refine Or.inl ⟨hpending, by simp [Except.map], trivial, ?_⟩
        rintro other rfl
        rw [(removeTopic_spec w.manager other).2.2, if_pos rfl]
        rfl
      · simp only [shutdown, hremove]
        exact Or.inr ⟨hnot, rfl⟩
  | closeAll =>
      rw [WaitersPending]
      rcases closeEach_spec w.manager.topics.keys w.manager.topics.nodup w with
        ⟨hpending, hclose, hfailed, hleft⟩ | ⟨hnot, hclose⟩
      · simp only [shutdown, closeAll, hclose, closes, leaves]
        refine Or.inl ⟨hpending, by simp, hfailed, fun topic hmem => ?_⟩
        rw [hleft, if_pos hmem]
        rfl
      · exact Or.inr ⟨hnot, hclose⟩
  | applyMetadata metaData =>
      rcases applyMetadata_outcome w metaData with ⟨hpending, happly⟩ | ⟨hnot, happly⟩
      · simp only [shutdown, happly]
        refine Or.inl ⟨hpending, mapError_log_ne _, trivial, fun topic hmem => ?_⟩
        by_cases harmless : Harmless w.manager metaData
        · simp only [closes, if_pos harmless] at hmem
          exact absurd hmem List.not_mem_nil
        · simp only [closes, if_neg harmless] at hmem
          rw [List.mem_singleton.mp hmem]
          exact applyMetadata_described harmless
      · simp only [shutdown, happly]
        exact Or.inr ⟨hnot, rfl⟩

/-- Shutting down completes, in any state and for any call, if and only if every future it
comes to is pending. -/
theorem shutdown_completes_iff (w : WaitingManager) (call : Shutdown) :
    w.Completes call ↔ w.WaitersPending call := by
  rcases shutdown_outcome w call with ⟨hpending, hreturns, hfailed, hentries⟩ | ⟨hnot, hraises⟩
  · refine iff_of_true ⟨hreturns, fun topic htopic fut hfut _ => ?_, hentries⟩ hpending
    rw [hfailed]
    exact if_pos (List.mem_flatMap.mpr ⟨topic, htopic, hfut⟩)
  · exact iff_of_false (fun completes => completes.returns hraises) hnot

/-- The broker `b` leads `t`, with the follower `c` in sync and one record that `c` has not
fetched. -/
def behindManager : ReplicaManager :=
  let leading := (emptyManager.applyMetadata ⟨"t", "b", "h", 1, ["b", "c"], 1⟩).1
  let m := (leading.leaderLoop false "t" 0).1
  { m with log := (m.log.apply (.append "t" ⟨0, .succeed⟩ [1, 2, 3])).1 }

/-- A producer waits for its record, and its task is cancelled. -/
def producerCancelled : WaitingManager :=
  (WaitingManager.waitForHw ⟨behindManager, fun _ => .pending⟩ "t" 7 0).cancel 0

/-- The broker cannot close its topics any more. -/
theorem cancelled_waiter_blocks_close : ¬ producerCancelled.Completes .closeAll := by
  intro completes
  exact completes.returns (by decide +kernel)

end WaitingManager
end PyLogStream
