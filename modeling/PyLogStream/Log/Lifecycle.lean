import PyLogStream.Lib.Run
import PyLogStream.Log.Lookup

/-!
The life of a segment in the registry, over any calls of the methods that change it:
created, grown, moved from state to state and removed. One lemma says what a call that
returns does to the list of its topic; from it the base offsets increase in every state
reached. So bisection finds exactly the segment that a change of state names, while
`advance_offset` takes what its search returns without comparing base offsets.
-/

namespace PyLogStream
open Lib

inductive RegistryOp where
  | createSegment (topic : String) (baseOffset : Int)
  | advanceOffset (m : SegmentMeta) (length : Nat)
  | progressState (m : SegmentMeta) (newState : SegmentState)
  | removeSegment (m : SegmentMeta)
  deriving DecidableEq

namespace RegistryOp

def topic : RegistryOp → String
  | .createSegment topic _ => topic
  | .advanceOffset m _ | .progressState m _ | .removeSegment m => m.topic

/-- The segment that the call removes if it returns. -/
def removes : RegistryOp → Option SegmentMeta
  | .progressState m .deleted | .removeSegment m => some m
  | _ => none

end RegistryOp

/-- The next state in the life of a segment. -/
def SegmentState.next? : SegmentState → Option SegmentState
  | .active => some .sealed
  | .sealed => some .expired
  | .expired => some .deleted
  | .deleted => none

namespace SegmentRegistry

def new (logDir : String) (defaultCreatedAt : Time) : SegmentRegistry :=
  ⟨logDir, defaultCreatedAt, Dict.empty⟩

def call (r : SegmentRegistry) : RegistryOp → Except LogError (SegmentMeta × SegmentRegistry)
  | .createSegment topic baseOffset => r.createSegment topic baseOffset
  | .advanceOffset m length => r.advanceOffset m length
  | .progressState m newState => r.progressState m newState
  | .removeSegment m => r.removeSegment m

/-- A call that raises leaves the registry as it is. -/
def apply (r : SegmentRegistry) (op : RegistryOp) : SegmentRegistry × Except LogError SegmentMeta :=
  match r.call op with
  | .error err => (r, .error err)
  | .ok (m, r') => (r', .ok m)

/-- What a call that returns a segment does to the list of its topic. -/
inductive Rewrite (r : SegmentRegistry) :
    RegistryOp → SegmentMeta → Option (List SegmentMeta) → List SegmentMeta → Prop
  | first (topic : String) (base : Int) :
      Rewrite r (.createSegment topic base) (r.newSegment topic base) none
        [r.newSegment topic base]
  | opened (topic : String) (base : Int) {front : List SegmentMeta} {previous : SegmentMeta}
      (free : previous.getEndOffset ≤ base) (fresh : previous.baseOffset ≠ base) :
      Rewrite r (.createSegment topic base) (r.newSegment topic base) (some (front ++ [previous]))
        (front ++ [previous] ++ [r.newSegment topic base])
  | grown (m : SegmentMeta) (length : Nat) {front back : List SegmentMeta} {old : SegmentMeta} :
      Rewrite r (.advanceOffset m length) { old with size := old.size + length }
        (some (front ++ old :: back)) (front ++ { old with size := old.size + length } :: back)
  | progressed (m : SegmentMeta) (newState : SegmentState) {front back : List SegmentMeta}
      (allowed : m.state.next? = some newState) (kept : newState ≠ .deleted) :
      Rewrite r (.progressState m newState) { m with state := newState }
        (some (front ++ m :: back)) (front ++ { m with state := newState } :: back)
  | removed {op : RegistryOp} {m : SegmentMeta} {front back : List SegmentMeta}
      (removes : op.removes = some m) (expired : m.state = .expired) :
      Rewrite r op m (some (front ++ m :: back)) (front ++ back)

/-- What is left of a segment whose state has changed. -/
def successor (m : SegmentMeta) (newState : SegmentState) : List SegmentMeta :=
  if newState = .deleted then [] else [{ m with state := newState }]

section
variable {r r' : SegmentRegistry} {op : RegistryOp} {m m' : SegmentMeta} {topic : String}

theorem mem_allowedTransitions (state newState : SegmentState) :
    newState ∈ allowedTransitions state ↔ state.next? = some newState := by
  cases state <;> simp [allowedTransitions, SegmentState.next?, eq_comm]

theorem createSegment_rewrites {base : Int} (h : r.createSegment topic base = .ok (m, r')) :
    ∃ segs, Rewrite r (.createSegment topic base) m (r.registry.get? topic) segs ∧
      r' = r.setTopic topic segs := by
  simp only [createSegment] at h
  cases hget : r.registry.get? topic with
  | none =>
      simp only [hget] at h
      cases h
      exact ⟨_, .first topic base, rfl⟩
  | some segs =>
      rcases List.eq_nil_or_concat segs with rfl | ⟨front, previous, rfl⟩
      · simp [hget] at h
      · simp only [hget, List.concat_eq_append, List.getLast?_concat] at h
        split at h
        · cases h
        · next hfree =>
            cases h
            rw [not_or] at hfree
            rw [List.concat_eq_append]
            exact ⟨_, .opened topic base (not_lt.mp hfree.1) hfree.2, rfl⟩

theorem advanceOffset_rewrites {length : Nat} (h : r.advanceOffset m length = .ok (m', r')) :
    ∃ segs, Rewrite r (.advanceOffset m length) m' (r.registry.get? m.topic) segs ∧
      r' = r.setTopic m.topic segs := by
  simp only [advanceOffset] at h
  cases hget : r.registry.get? m.topic with
  | none => simp [hget] at h
  | some segs =>
      simp only [hget] at h
      split at h
      · cases h
      · next idx _ =>
          split at h
          · cases h
          · next old hold =>
              cases h
              obtain ⟨front, back, rfl, rfl⟩ := split_of_getElem? hold
              rw [set_length_append]
              exact ⟨_, .grown m length, rfl⟩

/-- A change of state that returns has found the segment as it is given. -/
theorem progressState_ok {newState : SegmentState}
    (h : r.progressState m newState = .ok (m', r')) :
    ∃ front back, r.registry.get? m.topic = some (front ++ m :: back) ∧
      m.state.next? = some newState ∧
      r' = r.setTopic m.topic (front ++ successor m newState ++ back) ∧
      (newState = .deleted ∧ m' = m ∨ newState ≠ .deleted ∧ m' = { m with state := newState }) := by
  simp only [progressState] at h
  cases hget : r.registry.get? m.topic with
  | none => simp [hget] at h
  | some segs =>
      simp only [hget] at h
      split at h
      · next hat =>
          obtain ⟨front, back, rfl, hidx⟩ := split_of_getElem? hat
          rw [← hidx, set_length_append, eraseIdx_length_append] at h
          split at h
          · next hallowed =>
              rw [mem_allowedTransitions] at hallowed
              split at h
              · next hdeleted =>
                  cases h
                  exact ⟨front, back, rfl, hallowed, by simp [successor, hdeleted],
                    Or.inl ⟨hdeleted, rfl⟩⟩
              · next hkept =>
                  cases h
                  exact ⟨front, back, rfl, hallowed, by simp [successor, hkept],
                    Or.inr ⟨hkept, rfl⟩⟩
          · cases h
      · cases h

theorem state_of_next?_deleted (h : m.state.next? = some .deleted) : m.state = .expired := by
  cases hstate : m.state <;> simp [hstate, SegmentState.next?] at h
  rfl

theorem progressState_rewrites {newState : SegmentState}
    (h : r.progressState m newState = .ok (m', r')) :
    ∃ segs, Rewrite r (.progressState m newState) m' (r.registry.get? m.topic) segs ∧
      r' = r.setTopic m.topic segs := by
  obtain ⟨front, back, hget, hallowed, hr, ⟨rfl, rfl⟩ | ⟨hkept, rfl⟩⟩ := progressState_ok h
  · refine ⟨front ++ back, hget ▸ .removed rfl (state_of_next?_deleted hallowed), ?_⟩
    rw [hr, successor, if_pos rfl, List.append_nil]
  · refine ⟨front ++ { m with state := newState } :: back,
      hget ▸ .progressed m newState hallowed hkept, ?_⟩
    rw [hr, successor, if_neg hkept, List.append_assoc, List.singleton_append]

theorem call_rewrites (h : r.call op = .ok (m, r')) :
    ∃ segs, Rewrite r op m (r.registry.get? op.topic) segs ∧ r' = r.setTopic op.topic segs := by
  cases op with
  | createSegment topic base => exact createSegment_rewrites h
  | advanceOffset m length => exact advanceOffset_rewrites h
  | progressState m newState => exact progressState_rewrites h
  | removeSegment m =>
      obtain ⟨front, back, hget, hallowed, hr, ⟨-, rfl⟩ | ⟨hkept, -⟩⟩ := progressState_ok h
      · refine ⟨front ++ back, hget ▸ .removed rfl (state_of_next?_deleted hallowed), ?_⟩
        rw [hr, successor, if_pos rfl, List.append_nil]
        rfl
      · exact absurd rfl hkept

/-- A property of the topics' lists that the call of an operation gives its list. -/
theorem apply_lists {P : List SegmentMeta → Prop}
    (keep : ∀ m segs, Rewrite r op m (r.registry.get? op.topic) segs → P segs)
    (all : ∀ topic segs, r.registry.get? topic = some segs → P segs) :
    ∀ topic segs, (r.apply op).1.registry.get? topic = some segs → P segs := by
  intro topic segs hget
  simp only [apply] at hget
  cases hcall : r.call op with
  | error err =>
      rw [hcall] at hget
      exact all topic segs hget
  | ok result =>
      obtain ⟨m, r'⟩ := result
      obtain ⟨segs', hrewrite, rfl⟩ := call_rewrites hcall
      rw [hcall] at hget
      simp only [setTopic_get?] at hget
      split at hget
      · obtain rfl := Option.some.inj hget
        exact keep m segs' hrewrite
      · exact all topic segs hget

theorem Rewrite.increase {before : Option (List SegmentMeta)} {after : List SegmentMeta}
    (h : Rewrite r op m before after)
    (increase : ∀ segs, before = some segs → KeysIncrease SegmentMeta.baseOffset segs) :
    KeysIncrease SegmentMeta.baseOffset after := by
  cases h with
  | first topic base => exact .singleton _
  | @opened topic base front previous free fresh =>
      have old := increase _ rfl
      have hlast : previous.baseOffset < base :=
        lt_of_le_of_ne (previous.baseOffset_le_end.trans free) fresh
      refine old.append_above fun m' hm' => ?_
      rcases List.mem_append.mp hm' with hfront | hprev
      · exact (old.front_below hfront).trans hlast
      · rw [List.mem_singleton.mp hprev]
        exact hlast
  | grown m length => exact (increase _ rfl).replace rfl
  | progressed m newState allowed kept => exact (increase _ rfl).replace rfl
  | removed removes expired => exact (increase _ rfl).remove

/-- The base offsets of every topic increase. -/
def Increasing (r : SegmentRegistry) : Prop :=
  ∀ topic segs, r.registry.get? topic = some segs → KeysIncrease SegmentMeta.baseOffset segs

theorem Increasing.apply (increasing : Increasing r) (op : RegistryOp) :
    Increasing (r.apply op).1 :=
  apply_lists (fun _ _ hrewrite => hrewrite.increase fun segs => increasing _ segs) increasing

theorem increasing_run (logDir : String) (defaultCreatedAt : Time) (ops : List RegistryOp) :
    Increasing (run apply (new logDir defaultCreatedAt) ops) :=
  run_keeps Increasing (fun _ op _ increasing => increasing.apply op)
    (fun topic segs hget => by simp [new] at hget)

theorem bisectLeft_of_split {front back : List SegmentMeta}
    (increase : KeysIncrease SegmentMeta.baseOffset (front ++ m :: back)) :
    bisectLeft (front ++ m :: back) m.baseOffset = front.length := by
  rw [bisectLeft, increase.takeWhile_below]

/-- On increasing base offsets the segment is found if it is there. -/
theorem progressState_of_split {front back : List SegmentMeta}
    (hget : r.registry.get? m.topic = some (front ++ m :: back))
    (increase : KeysIncrease SegmentMeta.baseOffset (front ++ m :: back)) {newState : SegmentState}
    (allowed : m.state.next? = some newState) :
    ∃ m', r.progressState m newState =
      .ok (m', r.setTopic m.topic (front ++ successor m newState ++ back)) := by
  have hat : (front ++ m :: back)[front.length]? = some m := by simp
  have hallowed := (mem_allowedTransitions m.state newState).mpr allowed
  simp only [progressState, hget, bisectLeft_of_split increase, hat, if_true, if_pos hallowed,
    set_length_append, eraseIdx_length_append, successor]
  by_cases hdeleted : newState = .deleted
  · simp [hdeleted]
  · simp [hdeleted]

/-- In every state reached the base offsets of a topic increase, and a change of state is
a compare-and-swap: it succeeds exactly for a segment that is listed as given and for the
next state, changes only that segment, and otherwise changes nothing. -/
theorem progressState_compareAndSwap (logDir : String) (defaultCreatedAt : Time)
    (ops : List RegistryOp) :
    let r := run apply (new logDir defaultCreatedAt) ops
    (∀ topic segs, r.registry.get? topic = some segs →
        segs.Pairwise fun m m' => m.baseOffset < m'.baseOffset) ∧
      ∀ m newState,
        ((∃ m', (r.apply (.progressState m newState)).2 = .ok m') ↔
          (∃ segs, r.registry.get? m.topic = some segs ∧ m ∈ segs) ∧
            m.state.next? = some newState) ∧
        (∀ m', (r.apply (.progressState m newState)).2 = .ok m' →
          ∃ front back, r.registry.get? m.topic = some (front ++ m :: back) ∧
            (r.apply (.progressState m newState)).1 =
              r.setTopic m.topic (front ++ successor m newState ++ back)) ∧
        ∀ err, (r.apply (.progressState m newState)).2 = .error err →
          (r.apply (.progressState m newState)).1 = r := by
  intro r
  have increasing : Increasing r := increasing_run logDir defaultCreatedAt ops
  have found : ∀ {m m' : SegmentMeta} {newState : SegmentState},
      (r.apply (.progressState m newState)).2 = .ok m' →
        ∃ front back, r.registry.get? m.topic = some (front ++ m :: back) ∧
          m.state.next? = some newState ∧
          (r.apply (.progressState m newState)).1 =
            r.setTopic m.topic (front ++ successor m newState ++ back) := by
    intro m m' newState hok
    cases hcall : r.progressState m newState with
    | error err => simp [apply, call, hcall] at hok
    | ok result =>
        obtain ⟨front, back, hget, hallowed, hr, -⟩ := progressState_ok hcall
        exact ⟨front, back, hget, hallowed, by simpa only [apply, call, hcall] using hr⟩
  refine ⟨increasing, fun m newState => ⟨⟨fun h => ?_, fun h => ?_⟩, fun m' hok => ?_,
    fun err herr => ?_⟩⟩
  · obtain ⟨m', hok⟩ := h
    obtain ⟨front, back, hget, hallowed, -⟩ := found hok
    exact ⟨⟨_, hget, by simp⟩, hallowed⟩
  · obtain ⟨⟨segs, hget, hm⟩, hallowed⟩ := h
    obtain ⟨front, back, rfl⟩ := List.append_of_mem hm
    obtain ⟨m', hcall⟩ := progressState_of_split hget (increasing _ _ hget) hallowed
    exact ⟨m', by simp only [apply, call, hcall]⟩
  · obtain ⟨front, back, hget, -, hr⟩ := found hok
    exact ⟨front, back, hget, hr⟩
  · cases hcall : r.progressState m newState with
    | error err' => simp only [apply, call, hcall]
    | ok result => simp [apply, call, hcall] at herr

/-- The segments of a topic; an unknown topic has none. -/
def listed (r : SegmentRegistry) (topic : String) : List SegmentMeta :=
  (r.registry.get? topic).getD []

/-- The call raises and changes nothing, or the segment with the base offset of the one
it was given grows and nothing else changes. -/
def AdvancesOwn (r : SegmentRegistry) (m : SegmentMeta) (length : Nat) : Prop :=
  (∃ err, r.apply (.advanceOffset m length) = (r, .error err)) ∨
    ∃ front old back, r.registry.get? m.topic = some (front ++ old :: back) ∧
      old.baseOffset = m.baseOffset ∧
      r.apply (.advanceOffset m length) =
        (r.setTopic m.topic (front ++ { old with size := old.size + length } :: back),
          .ok { old with size := old.size + length })

theorem advanceOffset_of_split {front back : List SegmentMeta} {old : SegmentMeta}
    (hget : r.registry.get? m.topic = some (front ++ old :: back))
    (increase : KeysIncrease SegmentMeta.baseOffset (front ++ old :: back))
    (hbase : old.baseOffset = m.baseOffset) (length : Nat) :
    r.advanceOffset m length = .ok ({ old with size := old.size + length },
      r.setTopic m.topic (front ++ { old with size := old.size + length } :: back)) := by
  have hindex : findSegmentIndex (front ++ old :: back) m.baseOffset = front.length :=
    findSegmentIndex_of_split (fun m' hm' => hbase ▸ (increase.front_below hm').le) hbase.le
      fun m' hm' => hbase ▸ increase.back_above hm'
  have hlist : listIndex (front ++ old :: back).length (front.length : Int) = some front.length := by
    simp [listIndex]
  simp only [advanceOffset, hget, hindex, hlist]
  simp

/-- Unless the topic has no segment, the call finds some segment to grow: the index `-1`
of a failed search stands for the last one. -/
theorem advanceOffset_returns {segs : List SegmentMeta} (hget : r.registry.get? m.topic = some segs)
    (hne : segs ≠ []) (increase : KeysIncrease SegmentMeta.baseOffset segs) (length : Nat) :
    ∃ result, r.advanceOffset m length = .ok result := by
  have hpos : 0 < segs.length := List.length_pos_iff.mpr hne
  obtain ⟨idx, hlist, hlt⟩ : ∃ idx,
      listIndex segs.length (findSegmentIndex segs m.baseOffset) = some idx ∧ idx < segs.length := by
    have hcase := searchCase increase m.baseOffset
    generalize findSegmentIndex segs m.baseOffset = i at hcase
    cases hcase with
    | none above =>
        refine ⟨segs.length - 1, ?_, by omega⟩
        simp only [listIndex]
        rw [if_neg (by omega), if_pos (by omega)]
        congr 1
        omega
    | @found before after old split reached above =>
        refine ⟨before.length, ?_, by simp [split]⟩
        simp [listIndex, split]
  simp only [advanceOffset, hget, hlist, List.getElem?_eq_getElem hlt]
  exact ⟨_, rfl⟩

theorem advancesOwn_iff (increasing : Increasing r) (m : SegmentMeta) (length : Nat) :
    AdvancesOwn r m length ↔ r.listed m.topic = [] ∨
      ∃ old ∈ r.listed m.topic, old.baseOffset = m.baseOffset := by
  cases hget : r.registry.get? m.topic with
  | none =>
      refine iff_of_true (Or.inl ⟨.keyError m.topic, ?_⟩) (Or.inl (by rw [listed, hget]; rfl))
      simp only [apply, call, advanceOffset, hget]
  | some segs =>
      have hlisted : r.listed m.topic = segs := by rw [listed, hget]; rfl
      rw [hlisted]
      by_cases hnil : segs = []
      · subst hnil
        refine iff_of_true (Or.inl ⟨.indexError, ?_⟩) (Or.inl rfl)
        simp [apply, call, advanceOffset, hget, findSegmentIndex, findSegmentLoop, listIndex]
      · constructor
        · rintro (⟨err, herr⟩ | ⟨front, old, back, hsplit, hbase, -⟩)
          · obtain ⟨result, hcall⟩ :=
              advanceOffset_returns hget hnil (increasing _ _ hget) length
            simp [apply, call, hcall] at herr
          · obtain rfl := Option.some.inj (hget.symm.trans hsplit)
            exact Or.inr ⟨old, by simp, hbase⟩
        · rintro (h | ⟨old, hold, hbase⟩)
          · exact absurd h hnil
          · obtain ⟨front, back, rfl⟩ := List.append_of_mem hold
            have hcall := advanceOffset_of_split hget (increasing _ _ hget) hbase length
            exact Or.inr ⟨front, old, back, hget, hbase, by simp only [apply, call, hcall]⟩

/-- In every state reached `advance_offset` keeps to the segment it was given exactly if
that segment is still there, or no segment of its topic is. -/
theorem advanceOffset_touches_own_iff (logDir : String) (defaultCreatedAt : Time)
    (ops : List RegistryOp) (m : SegmentMeta) (length : Nat) :
    let r := run apply (new logDir defaultCreatedAt) ops
    AdvancesOwn r m length ↔ r.listed m.topic = [] ∨
      ∃ old ∈ r.listed m.topic, old.baseOffset = m.baseOffset :=
  advancesOwn_iff (increasing_run logDir defaultCreatedAt ops) m length

/-- The segment that the first of these calls returns. -/
def staleHandle : SegmentMeta := (new "logs" 0).newSegment "t" 0

/-- The first segment gets a record, is followed by a second one, and is removed. -/
def removeFirst : List RegistryOp :=
  let full := { staleHandle with size := 10 }
  [.createSegment "t" 0, .advanceOffset staleHandle 10, .createSegment "t" 10,
    .progressState full .sealed, .progressState { full with state := .sealed } .expired,
    .removeSegment { full with state := .expired }]

/-- The stale handle of the removed segment grows the other one. -/
theorem staleHandle_grows_neighbour :
    (∃ call ∈ trace apply (new "logs" 0) removeFirst, call.2 = .ok staleHandle) ∧
      ¬ AdvancesOwn (run apply (new "logs" 0) removeFirst) staleHandle 5 := by
  refine ⟨⟨(.createSegment "t" 0, .ok staleHandle), by decide +kernel, rfl⟩, ?_⟩
  rw [advancesOwn_iff (increasing_run "logs" 0 removeFirst)]
  decide +kernel

end
end SegmentRegistry
end PyLogStream
