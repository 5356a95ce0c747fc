import PyLogStream.Replication.Reconcile

/-!
Roles and running components over any calls of `apply_metadata` and
`apply_metadata_list`. Which state a call leaves for a topic is decided by membership and
versions alone, so it follows a table of states with nothing started. A leader's state
always has its leader and runs; the constructor of a fetcher raises, so a follower's state
never has one, and a call leaves roles and components in agreement exactly when no topic
it names ends as a follower. What a call closes has stopped for good.
-/

namespace PyLogStream
open Lib

/-- The role of the state has its component, and nothing else runs. -/
def TopicState.Agrees (log : LogManager) (state : TopicState) : Prop :=
  state.running = true ∧
    match state.role with
    | .leader => state.leader.isSome ∧ state.fetcher = none
    | .follower => state.leader = none ∧ ∃ fetcher, state.fetcher = some fetcher ∧
        log.getLatestOffset state.topic = .ok fetcher.logEndOffset

structure TopicState.Stopped (state : TopicState) : Prop where
  running : state.running = false
  loop : state.loopTask = false
  fetcher : ∀ fetcher, state.fetcher = some fetcher → fetcher.running = false

/-- The state a message has described, without what was started for it. -/
def TopicState.described (state : TopicState) : TopicState :=
  { state with leader := none, fetcher := none, loopTask := false, running := false }

/-- What a message makes of the state described for its topic. -/
def TopicState.placedBy (id : String) (entry : Option TopicState)
    (metaData : TopicMetaDataResponse) : Option TopicState :=
  if id ∉ metaData.replicaList then none
  else
    match entry with
    | none => some (TopicState.ofMeta id metaData)
    | some oldState =>
      if metaData.version ≤ oldState.version ∨ (TopicState.ofMeta id metaData).CompareMeta oldState
      then some oldState
      else some (TopicState.ofMeta id metaData)

/-- What a list makes of the state described for a topic. -/
def TopicState.placed (id topic : String) :
    Option TopicState → List TopicMetaDataResponse → Option TopicState
  | entry, [] => entry
  | entry, metaData :: metaList =>
    if metaData.topic = topic then placed id topic (placedBy id entry metaData) metaList
    else placed id topic entry metaList

inductive MetadataCall where
  | one (metaData : TopicMetaDataResponse)
  | list (metaList : List TopicMetaDataResponse)
  deriving DecidableEq

def MetadataCall.metaList : MetadataCall → List TopicMetaDataResponse
  | .one metaData => [metaData]
  | .list metaList => metaList

/-- A call, after what has happened to the log since the last one. -/
structure MetadataStep where
  before : List LogOp
  call : MetadataCall

structure RoleSystem where
  manager : ReplicaManager
  /-- The states that were replaced or removed. -/
  retired : List TopicState

namespace RoleSystem

def start (config : ReplicaConfig) (log : LogManager) : RoleSystem :=
  ⟨⟨config, Dict.empty, log⟩, []⟩

def apply (m : ReplicaManager) : MetadataCall →
    ReplicaManager × Except LogError (List MetadataOutcome)
  | .one metaData =>
    let (m, result) := m.applyMetadata metaData
    (m, result.map fun outcome => [outcome])
  | .list metaList => m.applyMetadataList metaList

def step (s : RoleSystem) (e : MetadataStep) :
    RoleSystem × Except LogError (List MetadataOutcome) :=
  let m := { s.manager with log := run LogManager.apply s.manager.log e.before }
  match apply m e.call with
  | (m, .error err) => ({ s with manager := m }, .error err)
  | (m, .ok outcomes) =>
    (⟨m, s.retired ++ outcomes.filterMap MetadataOutcome.closed⟩, .ok outcomes)

/-- Role and component agree in every state held, and nothing runs in any other. -/
def RolesAgree (s : RoleSystem) : Prop :=
  (∀ topic state, s.manager.topics.get? topic = some state → state.Agrees s.manager.log) ∧
    ∀ state ∈ s.retired, state.Stopped

/-- No topic the call names ends as one that this broker follows. -/
def FollowsNone (s : RoleSystem) (e : MetadataStep) : Prop :=
  ∀ topic ∈ e.call.metaList.map TopicMetaDataResponse.topic, ∀ state,
    TopicState.placed s.manager.config.id topic (s.manager.topics.get? topic) e.call.metaList =
      some state → state.role = .leader

end RoleSystem

section
variable {config : ReplicaConfig} {log log' : LogManager} {state started : TopicState}

theorem closeState_stopped (state : TopicState) : (ReplicaManager.closeState state).Stopped := by
  refine ⟨rfl, rfl, fun fetcher h => ?_⟩
  obtain ⟨open', -, rfl⟩ := Option.map_eq_some_iff.mp h
  rfl

/-- What is true of every state the manager builds: no fetcher ever exists. -/
structure TopicState.Built (state : TopicState) : Prop where
  fetcher : state.fetcher = none
  leader : state.role = .leader → state.leader.isSome ∧ state.running = true

theorem TopicState.Built.agrees_iff (built : state.Built) :
    state.Agrees log ↔ state.role = .leader := by
  cases hrole : state.role with
  | leader =>
      obtain ⟨hleader, hrunning⟩ := built.leader hrole
      simp only [Agrees, hrole, hrunning, hleader, built.fetcher, and_self]
  | follower =>
      refine iff_of_false ?_ (by simp)
      simp [Agrees, hrole, built.fetcher]

theorem startTopic_built (hfetcher : state.fetcher = none)
    (h : ReplicaManager.startTopic config log state = (log', .ok started)) :
    started.Built ∧ started.described = state.described := by
  simp only [ReplicaManager.startTopic] at h
  split at h
  · cases h
  · split at h
    · split at h
      · cases h
      · cases h
        exact ⟨⟨hfetcher, fun _ => ⟨rfl, rfl⟩⟩, rfl⟩
    · next hrole =>
        simp only [ReplicaFetcher.create] at h
        cases h
        exact ⟨⟨hfetcher, fun hleader => by rw [hrole] at hleader; cases hleader⟩, rfl⟩

end

section Placed
variable {id topic : String} {entry entry' : Option TopicState}

/-- This broker does not follow the topic. -/
def Leads (entry : Option TopicState) : Prop := ∀ state, entry = some state → state.role = .leader

/-- Entries with one description are both missing or agree in all that is not started. -/
theorem described_cases (h : entry.map TopicState.described = entry'.map TopicState.described) :
    entry = none ∧ entry' = none ∨
      ∃ state state', entry = some state ∧ entry' = some state' ∧
        state.described = state'.described := by
  cases entry with
  | none => exact Or.inl ⟨rfl, Option.map_eq_none_iff.mp h.symm⟩
  | some state =>
      obtain ⟨state', hstate', hsame⟩ := Option.map_eq_some_iff.mp h.symm
      exact Or.inr ⟨state, state', rfl, hstate', hsame.symm⟩

theorem leads_congr (h : entry.map TopicState.described = entry'.map TopicState.described) :
    Leads entry ↔ Leads entry' := by
  rcases described_cases h with ⟨rfl, rfl⟩ | ⟨state, state', rfl, rfl, hsame⟩
  · rfl
  · have hrole : state.described.role = state'.described.role := congrArg TopicState.role hsame
    simp only [Leads, Option.some.injEq, forall_eq']
    exact Eq.congr_left hrole

theorem placedBy_congr (h : entry.map TopicState.described = entry'.map TopicState.described)
    (metaData : TopicMetaDataResponse) :
    (TopicState.placedBy id entry metaData).map TopicState.described =
      (TopicState.placedBy id entry' metaData).map TopicState.described := by
  rcases described_cases h with ⟨rfl, rfl⟩ | ⟨state, state', rfl, rfl, hsame⟩
  · rfl
  · -- the rules read the description only
    have hkeeps : (metaData.version ≤ state.version ∨
          (TopicState.ofMeta id metaData).CompareMeta state) ↔
        (metaData.version ≤ state'.version ∨
          (TopicState.ofMeta id metaData).CompareMeta state') := by
      change (metaData.version ≤ state.described.version ∨
        (TopicState.ofMeta id metaData).CompareMeta state.described) ↔ _
      rw [hsame]
      rfl
    simp only [TopicState.placedBy, hkeeps]
    by_cases hid : id ∉ metaData.replicaList
    · rw [if_pos hid, if_pos hid]
    · rw [if_neg hid, if_neg hid]
      by_cases hold : metaData.version ≤ state'.version ∨
          (TopicState.ofMeta id metaData).CompareMeta state'
      · rw [if_pos hold, if_pos hold]
        exact h
      · rw [if_neg hold, if_neg hold]

theorem placed_congr (h : entry.map TopicState.described = entry'.map TopicState.described)
    (metaList : List TopicMetaDataResponse) :
    (TopicState.placed id topic entry metaList).map TopicState.described =
      (TopicState.placed id topic entry' metaList).map TopicState.described := by
  induction metaList generalizing entry entry' with
  | nil => exact h
  | cons metaData metaList ih =>
      simp only [TopicState.placed]
      by_cases htopic : metaData.topic = topic
      · rw [if_pos htopic, if_pos htopic]
        exact ih (placedBy_congr h metaData)
      · rw [if_neg htopic, if_neg htopic]
        exact ih h

theorem placed_of_not_named {metaList : List TopicMetaDataResponse}
    (h : topic ∉ metaList.map TopicMetaDataResponse.topic) :
    TopicState.placed id topic entry metaList = entry := by
  induction metaList with
  | nil => rfl
  | cons metaData metaList ih =>
      rw [List.map_cons, List.mem_cons, not_or] at h
      rw [TopicState.placed, if_neg (Ne.symm h.1)]
      exact ih h.2

end Placed

section Manager
variable {m : ReplicaManager} {metaData : TopicMetaDataResponse}

structure ReplicaManager.Built (m : ReplicaManager) : Prop where
  shaped : m.log.registry.Shaped
  entries : ∀ topic state, m.topics.get? topic = some state → state.Built

/-- What applying metadata in order leaves of each topic, and what it closes. -/
structure Places (m m' : ReplicaManager) (metaList : List TopicMetaDataResponse)
    (outcomes : List MetadataOutcome) : Prop where
  config : m'.config = m.config
  built : m'.Built
  entry : ∀ topic, (m'.topics.get? topic).map TopicState.described =
    (TopicState.placed m.config.id topic (m.topics.get? topic) metaList).map TopicState.described
  stopped : ∀ outcome ∈ outcomes, ∀ state, outcome.closed = some state → state.Stopped

theorem placedBy_of_harmless (harmless : Harmless m metaData) :
    TopicState.placedBy m.config.id (m.topics.get? metaData.topic) metaData =
      m.topics.get? metaData.topic := by
  unfold Harmless at harmless
  cases hget : m.topics.get? metaData.topic with
  | none =>
      rw [hget] at harmless
      rw [TopicState.placedBy, if_pos harmless]
  | some oldState =>
      rw [hget] at harmless
      rw [TopicState.placedBy, if_neg (not_not_intro harmless.1)]
      exact if_pos harmless.2

theorem placedBy_of_effect (effect : ¬ Harmless m metaData)
    (member : m.config.id ∈ metaData.replicaList) :
    TopicState.placedBy m.config.id (m.topics.get? metaData.topic) metaData =
      some (TopicState.ofMeta m.config.id metaData) := by
  cases hget : m.topics.get? metaData.topic with
  | none => exact if_neg (not_not_intro member)
  | some oldState =>
      refine (if_neg (not_not_intro member)).trans (if_neg fun h => effect ?_)
      simp only [Harmless, hget]
      exact ⟨member, h⟩

/-- One metadata does to its topic what the table says, and nothing to the others. -/
theorem placed_one (id topic : String) (entry : Option TopicState) :
    TopicState.placed id topic entry [metaData] =
      if metaData.topic = topic then TopicState.placedBy id entry metaData else entry := rfl

theorem applyMetadata_places (built : m.Built) (metaData : TopicMetaDataResponse) :
    ∃ outcome, (m.applyMetadata metaData).2 = .ok outcome ∧
      Places m (m.applyMetadata metaData).1 [metaData] [outcome] := by
  by_cases harmless : Harmless m metaData
  · obtain ⟨hsame, outcome, hok, hclosed⟩ := applyMetadata_of_harmless harmless
    rw [hsame]
    refine ⟨outcome, hok, rfl, built, fun topic => ?_, fun o ho state hstate => ?_⟩
    · rw [placed_one]
      by_cases htopic : metaData.topic = topic
      · rw [if_pos htopic, ← htopic, placedBy_of_harmless harmless]
      · rw [if_neg htopic]
    · rw [List.mem_singleton.mp ho, hclosed] at hstate
      cases hstate
  · rcases applyMetadata_of_effect harmless with ⟨hnot, oldState, -, happly⟩ | ⟨member, happly⟩
    · rw [happly]
      refine ⟨_, rfl, rfl, ⟨built.shaped, fun topic state hget => ?_⟩, fun topic => ?_,
        fun o ho state hstate => ?_⟩
      · rw [Dict.get?_erase] at hget
        split at hget
        · cases hget
        · exact built.entries topic state hget
      · rw [placed_one, Dict.get?_erase]
        by_cases htopic : metaData.topic = topic
        · rw [if_pos htopic, if_pos htopic.symm]
          exact (congrArg _ (if_pos hnot)).symm
        · rw [if_neg htopic, if_neg (Ne.symm htopic)]
      · rw [List.mem_singleton.mp ho] at hstate
        cases hstate
        exact closeState_stopped oldState
    · obtain ⟨log, started, hstart, hshaped, -⟩ :=
        startTopic_spec m.config built.shaped (TopicState.ofMeta m.config.id metaData)
      obtain ⟨hbuilt, hdescribed⟩ := startTopic_built rfl hstart
      rw [happly]
      simp only [ReplicaManager.install, hstart]
      refine ⟨_, rfl, rfl, ⟨hshaped, fun topic state hget => ?_⟩, fun topic => ?_,
        fun o ho state hstate => ?_⟩
      · rw [Dict.get?_set] at hget
        split at hget
        · cases hget
          exact hbuilt
        · exact built.entries topic state hget
      · rw [placed_one, Dict.get?_set]
        by_cases htopic : metaData.topic = topic
        · subst htopic
          rw [if_pos rfl, placedBy_of_effect harmless member]
          refine (congrArg _ (if_pos rfl)).trans ?_
          rw [Option.map_some, Option.map_some, hdescribed]
        · rw [if_neg htopic]
          exact congrArg _ (if_neg (Ne.symm htopic))
      · rw [List.mem_singleton.mp ho] at hstate
        obtain ⟨oldState, -, rfl⟩ := Option.map_eq_some_iff.mp hstate
        exact closeState_stopped oldState

theorem applyEach_places (built : m.Built) (metaList : List TopicMetaDataResponse) :
    ∃ outcomes, (ReplicaManager.applyEach metaList m).2 = .ok outcomes ∧
      Places m (ReplicaManager.applyEach metaList m).1 metaList outcomes := by
  induction metaList generalizing m with
  | nil => exact ⟨[], rfl, rfl, built, fun _ => rfl, by simp⟩
  | cons metaData metaList ih =>
      obtain ⟨outcome, hok, first⟩ := applyMetadata_places built metaData
      obtain ⟨outcomes, hoks, rest⟩ := ih first.built
      have heach := applyEach_cons (Prod.ext rfl hok) (Prod.ext rfl hoks)
      rw [heach]
      refine ⟨_, rfl, rest.config.trans first.config, rest.built, fun topic => ?_,
        fun o ho => ?_⟩
      · rw [rest.entry topic, first.config, placed_congr (first.entry topic) metaList, placed_one,
          TopicState.placed]
        by_cases htopic : metaData.topic = topic
        · rw [if_pos htopic, if_pos htopic]
        · rw [if_neg htopic, if_neg htopic]
      · rcases List.mem_cons.mp ho with rfl | hmem
        · exact first.stopped o (List.mem_singleton_self o)
        · exact rest.stopped o hmem

/-- What the first loop closes has stopped, and the states it keeps are as they were. -/
theorem removeUnlisted_stopped (newTopics oldTopics : List String) (m : ReplicaManager) :
    ∀ outcome ∈ (ReplicaManager.removeUnlisted newTopics oldTopics m).2,
      ∀ state, outcome.closed = some state → state.Stopped := by
  induction oldTopics generalizing m with
  | nil => simp [ReplicaManager.removeUnlisted]
  | cons old oldTopics ih =>
      rw [ReplicaManager.removeUnlisted]
      by_cases hlisted : old ∈ newTopics
      · rw [if_pos hlisted]
        exact ih m
      · rw [if_neg hlisted]
        intro outcome hmem state hstate
        rcases List.mem_cons.mp hmem with rfl | hrest
        · cases hget : m.topics.get? old with
          | none => simp [MetadataOutcome.closed, ReplicaManager.removeTopic, hget] at hstate
          | some oldState =>
              simp only [MetadataOutcome.closed, ReplicaManager.removeTopic, hget,
                Option.some.injEq] at hstate
              exact hstate ▸ closeState_stopped oldState
        · exact ih _ outcome hrest state hstate

end Manager

namespace RoleSystem
section
variable {m : ReplicaManager} {s : RoleSystem}

/-- What a call removes before it applies its metadata. -/
def cleaned (m : ReplicaManager) : MetadataCall → ReplicaManager × List MetadataOutcome
  | .one _ => (m, [])
  | .list metaList =>
    ReplicaManager.removeUnlisted (metaList.map TopicMetaDataResponse.topic) m.topics.keys m

theorem apply_eq (m : ReplicaManager) (call : MetadataCall) :
    apply m call =
      ((ReplicaManager.applyEach call.metaList (cleaned m call).1).1,
        (ReplicaManager.applyEach call.metaList (cleaned m call).1).2.map
          ((cleaned m call).2 ++ ·)) := by
  cases call with
  | list metaList => rfl
  | one metaData =>
      simp only [apply, cleaned, MetadataCall.metaList, ReplicaManager.applyEach]
      generalize m.applyMetadata metaData = result
      obtain ⟨m', res⟩ := result
      cases res with
      | error err => rfl
      | ok outcome => rfl

/-- The topics a call names are still as they were, and no other is taken up. -/
theorem cleaned_spec (built : m.Built) (call : MetadataCall) :
    (cleaned m call).1.config = m.config ∧ (cleaned m call).1.Built ∧
      (∀ topic ∈ call.metaList.map TopicMetaDataResponse.topic,
        (cleaned m call).1.topics.get? topic = m.topics.get? topic) ∧
      (∀ topic state, (cleaned m call).1.topics.get? topic = some state →
        m.topics.get? topic = some state) ∧
      ∀ outcome ∈ (cleaned m call).2, ∀ state, outcome.closed = some state → state.Stopped := by
  cases call with
  | one metaData => exact ⟨rfl, built, fun _ _ => rfl, fun _ _ h => h, by simp [cleaned]⟩
  | list metaList =>
      obtain ⟨hconfig, hlog, htopics⟩ :=
        removeUnlisted_spec (metaList.map TopicMetaDataResponse.topic) m.topics.keys m
      have hkept : ∀ topic state, (cleaned m (.list metaList)).1.topics.get? topic = some state →
          m.topics.get? topic = some state := by
        intro topic state hget
        rw [cleaned, htopics] at hget
        split at hget
        · cases hget
        · exact hget
      refine ⟨hconfig,
        ⟨?_, fun topic state hget => built.entries topic state (hkept topic state hget)⟩,
        fun topic hnamed => ?_, hkept, removeUnlisted_stopped _ _ m⟩
      · rw [cleaned, hlog]
        exact built.shaped
      · rw [cleaned, htopics]
        exact if_neg fun h => h.2 hnamed

/-- The manager's states are built as it builds them, and what it has closed has stopped. -/
structure Sound (s : RoleSystem) : Prop where
  built : s.manager.Built
  stopped : ∀ state ∈ s.retired, state.Stopped

theorem Sound.rolesAgree_iff (sound : s.Sound) :
    s.RolesAgree ↔ ∀ topic, Leads (s.manager.topics.get? topic) := by
  constructor
  · rintro ⟨hagrees, -⟩ topic state hget
    exact (sound.built.entries topic state hget).agrees_iff.mp (hagrees topic state hget)
  · refine fun h => ⟨fun topic state hget => ?_, sound.stopped⟩
    exact (sound.built.entries topic state hget).agrees_iff.mpr (h topic state hget)

theorem start_sound {log : LogManager} (shaped : log.registry.Shaped) (config : ReplicaConfig) :
    (start config log).Sound :=
  ⟨⟨shaped, fun topic state h => by cases h⟩, by simp [start]⟩

/-- A call that meets no error leaves the table's states, each with its component. -/
theorem step_sound (sound : s.Sound) (e : MetadataStep) :
    (s.step e).1.Sound ∧ ((∀ topic, Leads (s.manager.topics.get? topic)) →
      ((∀ topic, Leads ((s.step e).1.manager.topics.get? topic)) ↔ s.FollowsNone e)) := by
  have hbuilt : ({ s.manager with log := run LogManager.apply s.manager.log e.before } :
      ReplicaManager).Built := by
    refine ⟨?_, sound.built.entries⟩
    exact run_keeps (fun lm : LogManager => lm.registry.Shaped)
      (fun lm op _ h => (apply_offsets h op).1) sound.built.shaped
  obtain ⟨hconfig, hcleaned, hnamed, hkept, hremoved⟩ := cleaned_spec hbuilt e.call
  obtain ⟨outcomes, hok, places⟩ := applyEach_places hcleaned e.call.metaList
  have hstep : s.step e =
      (⟨(ReplicaManager.applyEach e.call.metaList (cleaned
          { s.manager with log := run LogManager.apply s.manager.log e.before } e.call).1).1,
        s.retired ++ ((cleaned { s.manager with log := run LogManager.apply s.manager.log e.before }
          e.call).2 ++ outcomes).filterMap MetadataOutcome.closed⟩,
        .ok ((cleaned { s.manager with log := run LogManager.apply s.manager.log e.before }
          e.call).2 ++ outcomes)) := by
    simp only [step, apply_eq, hok, Except.map]
  generalize cleaned { s.manager with log := run LogManager.apply s.manager.log e.before } e.call =
    removed at hconfig hcleaned hnamed hkept hremoved hok places hstep
  rw [hstep]
  refine ⟨⟨places.built, fun state hstate => ?_⟩, fun hleads => ?_⟩
  · rcases List.mem_append.mp hstate with hold | hnew
    · exact sound.stopped state hold
    · obtain ⟨outcome, hmem, hclosed⟩ := List.mem_filterMap.mp hnew
      rcases List.mem_append.mp hmem with hmem | hmem
      · exact hremoved outcome hmem state hclosed
      · exact places.stopped outcome hmem state hclosed
  · have hplaced : ∀ topic ∈ e.call.metaList.map TopicMetaDataResponse.topic,
        (Leads ((ReplicaManager.applyEach e.call.metaList removed.1).1.topics.get? topic) ↔
          Leads (TopicState.placed s.manager.config.id topic (s.manager.topics.get? topic)
            e.call.metaList)) := by
      intro topic hmem
      rw [leads_congr (places.entry topic), hconfig, hnamed topic hmem]
    constructor
    · exact fun h topic hmem => (hplaced topic hmem).mp (h topic)
    · intro h topic
      by_cases hmem : topic ∈ e.call.metaList.map TopicMetaDataResponse.topic
      · exact (hplaced topic hmem).mpr (h topic hmem)
      · rw [leads_congr (places.entry topic), placed_of_not_named hmem]
        exact fun state hget => hleads topic state (hkept topic state hget)

end
end RoleSystem

/-- Over any log and any calls, with anything done to the log between them: roles and
components agree after each call if and only if no call leaves a topic that this broker
follows. -/
theorem RoleSystem.roles_agree_iff (config : LogConfig) (importTime : Time) (ops : List LogOp)
    (replica : ReplicaConfig) (calls : List MetadataStep) :
    let s := RoleSystem.start replica (run LogManager.apply (LogManager.start config importTime) ops)
    (∀ early late, calls = early ++ late → (run RoleSystem.step s early).RolesAgree) ↔
      MeetsAll RoleSystem.step RoleSystem.FollowsNone s calls := by
  intro s
  have sound : s.Sound := start_sound (shaped_run config importTime ops) replica
  have keep : ∀ s e, Sound s → Sound (step s e).1 := fun s e sound => (step_sound sound e).1
  have hagree : ∀ early, (run RoleSystem.step s early).RolesAgree ↔
      ∀ topic, Leads ((run RoleSystem.step s early).manager.topics.get? topic) := fun early =>
    (run_keeps Sound (fun s e _ => keep s e) sound).rolesAgree_iff
  simp only [hagree]
  exact forall_early_iff_meetsAll Sound (fun s => ∀ topic, Leads (s.manager.topics.get? topic)) keep
    (fun s e sound => (step_sound sound e).2) sound fun topic state h => by cases h

/-- The broker `b` follows `c`, which accepts its connection. -/
def followMeta : TopicMetaDataResponse := ⟨"t", "c", "h", 2, ["b", "c"], 1⟩

/-- The state is in place, but it has no fetcher and does not run. -/
theorem follower_without_fetcher :
    ¬ (run RoleSystem.step (RoleSystem.start ⟨"b", 1048576, 2, 10000⟩ (logAfter []))
      [⟨[], .one followMeta⟩]).RolesAgree := by
  intro h
  have hentry : ((run RoleSystem.step (RoleSystem.start ⟨"b", 1048576, 2, 10000⟩ (logAfter []))
      [⟨[], .one followMeta⟩]).manager.topics.get? "t").map TopicState.running = some false := by
    decide +kernel
  obtain ⟨state, hget, hrunning⟩ := Option.map_eq_some_iff.mp hentry
  rw [(h.1 "t" state hget).1] at hrunning
  cases hrunning

end PyLogStream
