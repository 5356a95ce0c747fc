import PyLogStream.Log.Lifecycle
import PyLogStream.Log.Operations

/-!
Retention and the end of a log. `get_latest_offset` is the end of the segment that is
last in the list, whichever that is, so of all the calls only a removal of the last
segment can move it back, and `create_segment` needs a last segment to compare with. A
run keeps the ends from moving back, and new segments can be opened above them, exactly
if every segment that is removed from the end of a list follows one that ends no lower.
-/

namespace PyLogStream
open Lib

namespace SegmentRegistry

/-- No end of a topic moves back. -/
def EndsAdvance (r r' : SegmentRegistry) : Prop :=
  ∀ topic v, r.getLatestOffset topic = .ok v →
    ∃ v', r'.getLatestOffset topic = .ok v' ∧ v ≤ v'

/-- A segment can be created at every offset above the end of its topic. -/
def CreatesAbove (r : SegmentRegistry) : Prop :=
  ∀ topic base, (∀ v, r.getLatestOffset topic = .ok v → v < base) →
    ∃ result, r.createSegment topic base = .ok result

/-- In every state of the run segments can be created above the ends, and what an end
was at one point of the run it is at least at every later one. -/
def NeverRewinds (start : SegmentRegistry) (ops : List RegistryOp) : Prop :=
  ∀ early late, ops = early ++ late →
    CreatesAbove (run apply start early) ∧
      ∀ mid rest, late = mid ++ rest →
        EndsAdvance (run apply start early) (run apply start (early ++ mid))

/-- A call that removes the last segment of a topic leaves one that ends no lower. -/
def KeepsEnd (r : SegmentRegistry) (op : RegistryOp) : Prop :=
  ∀ m, op.removes = some m → m.state = .expired →
    ∀ front, r.registry.get? m.topic = some (front ++ [m]) →
      ∃ previous, front.getLast? = some previous ∧ m.getEndOffset ≤ previous.getEndOffset

/-- No topic has lost all its segments. -/
def NoneEmptied (r : SegmentRegistry) : Prop :=
  ∀ topic segs, r.registry.get? topic = some segs → segs ≠ []

section
variable {r r' : SegmentRegistry} {op : RegistryOp} {m last : SegmentMeta} {topic : String}
  {segs front back : List SegmentMeta}

theorem getLatestOffset_eq_ok_iff {v : Int} : r.getLatestOffset topic = .ok v ↔
    ∃ segs last, r.registry.get? topic = some segs ∧ segs.getLast? = some last ∧
      v = last.getEndOffset := by
  simp only [getLatestOffset]
  cases hget : r.registry.get? topic with
  | none => simp
  | some segs =>
      cases hlast : segs.getLast? with
      | none => simp [hlast]
      | some last => simp [hlast, eq_comm]

theorem EndsAdvance.refl (r : SegmentRegistry) : EndsAdvance r r :=
  fun _ v hv => ⟨v, hv, le_refl v⟩

theorem EndsAdvance.trans {r'' : SegmentRegistry} (h : EndsAdvance r r')
    (h' : EndsAdvance r' r'') : EndsAdvance r r'' := by
  intro topic v hv
  obtain ⟨v', hv', hle⟩ := h topic v hv
  obtain ⟨v'', hv'', hle'⟩ := h' topic v' hv'
  exact ⟨v'', hv'', hle.trans hle'⟩

theorem getLast?_append_cons (front back : List SegmentMeta) (a b : SegmentMeta) :
    (front ++ a :: (back ++ [b])).getLast? = some b := by
  rw [← List.cons_append, ← List.append_assoc, List.getLast?_concat]

/-- Putting a segment in the place of one that ends no higher does not lower the end. -/
theorem getLast?_replace {old new : SegmentMeta} (hend : old.getEndOffset ≤ new.getEndOffset)
    (hlast : (front ++ old :: back).getLast? = some last) :
    ∃ last', (front ++ new :: back).getLast? = some last' ∧
      last.getEndOffset ≤ last'.getEndOffset := by
  rcases List.eq_nil_or_concat back with rfl | ⟨back', b, rfl⟩
  · rw [List.getLast?_concat] at hlast
    obtain rfl := Option.some.inj hlast
    exact ⟨new, List.getLast?_concat, hend⟩
  · rw [List.concat_eq_append, getLast?_append_cons] at hlast ⊢
    exact ⟨last, hlast, le_refl _⟩

/-- What a call that keeps the end does to the last segment of its topic. -/
theorem Rewrite.end_advances {before : Option (List SegmentMeta)} {after : List SegmentMeta}
    (h : Rewrite r op m before after)
    (keeps : op.removes = some m → m.state = .expired → ∀ front, before = some (front ++ [m]) →
      ∃ previous, front.getLast? = some previous ∧ m.getEndOffset ≤ previous.getEndOffset)
    (hbefore : before = some segs) (hlast : segs.getLast? = some last) :
    ∃ last', after.getLast? = some last' ∧ last.getEndOffset ≤ last'.getEndOffset := by
  cases h with
  | first topic base => cases hbefore
  | @opened topic base front previous free fresh =>
      cases hbefore
      rw [List.getLast?_concat] at hlast
      obtain rfl := Option.some.inj hlast
      exact ⟨_, List.getLast?_concat, free.trans (SegmentMeta.baseOffset_le_end _)⟩
  | grown m length =>
      cases hbefore
      refine getLast?_replace ?_ hlast
      simp only [SegmentMeta.getEndOffset]
      omega
  | progressed m newState allowed kept =>
      cases hbefore
      have hend : m.getEndOffset ≤ { m with state := newState : SegmentMeta }.getEndOffset := le_refl _
      exact getLast?_replace hend hlast
  | @removed _ _ front back removes expired =>
      cases hbefore
      rcases List.eq_nil_or_concat back with rfl | ⟨back', b, rfl⟩
      · rw [List.getLast?_concat] at hlast
        obtain rfl := Option.some.inj hlast
        obtain ⟨previous, hprevious, hle⟩ := keeps removes expired front rfl
        exact ⟨previous, by rw [List.append_nil, hprevious], hle⟩
      · rw [List.concat_eq_append, getLast?_append_cons] at hlast
        refine ⟨last, ?_, le_refl _⟩
        rw [List.concat_eq_append, ← List.append_assoc, List.getLast?_concat, hlast]

/-- The two calls that remove a segment. -/
theorem removes_cases (h : op.removes = some m) :
    op = .progressState m .deleted ∨ op = .removeSegment m := by
  cases op with
  | progressState m' newState =>
      cases newState <;> simp [RegistryOp.removes] at h
      rw [h]
      exact Or.inl rfl
  | removeSegment m' =>
      obtain rfl := Option.some.inj h
      exact Or.inr rfl
  | _ => simp [RegistryOp.removes] at h

theorem topic_of_removes (h : op.removes = some m) : op.topic = m.topic := by
  obtain rfl | rfl := removes_cases h
  · rfl
  · rfl

theorem call_of_removes (h : op.removes = some m) :
    r.call op = r.progressState m .deleted := by
  obtain rfl | rfl := removes_cases h
  · rfl
  · rfl

theorem KeepsEnd.rewrite {before : Option (List SegmentMeta)} (keeps : KeepsEnd r op)
    (hbefore : r.registry.get? op.topic = before) (m : SegmentMeta) (removes : op.removes = some m)
    (expired : m.state = .expired) (front : List SegmentMeta)
    (hfront : before = some (front ++ [m])) :
    ∃ previous, front.getLast? = some previous ∧ m.getEndOffset ≤ previous.getEndOffset := by
  refine keeps m removes expired front ?_
  rw [← topic_of_removes removes, hbefore, hfront]

theorem KeepsEnd.advances (keeps : KeepsEnd r op) : EndsAdvance r (r.apply op).1 := by
  intro topic v hv
  simp only [apply]
  cases hcall : r.call op with
  | error err => exact ⟨v, hv, le_refl v⟩
  | ok result =>
      obtain ⟨m, r'⟩ := result
      obtain ⟨segs', hrewrite, rfl⟩ := call_rewrites hcall
      obtain ⟨segs, last, hget, hlast, rfl⟩ := getLatestOffset_eq_ok_iff.mp hv
      by_cases htopic : topic = op.topic
      · subst htopic
        obtain ⟨last', hlast', hle⟩ :=
          hrewrite.end_advances (keeps.rewrite rfl m) hget hlast
        exact ⟨_, getLatestOffset_eq_ok_iff.mpr
          ⟨segs', last', by rw [setTopic_get?, if_pos rfl], hlast', rfl⟩, hle⟩
      · exact ⟨_, getLatestOffset_eq_ok_iff.mpr
          ⟨segs, last, by rw [setTopic_get?, if_neg htopic, hget], hlast, rfl⟩, le_refl _⟩

theorem KeepsEnd.noneEmptied (keeps : KeepsEnd r op) (full : NoneEmptied r) :
    NoneEmptied (r.apply op).1 := by
  refine apply_lists (fun m segs' hrewrite hnil => ?_) full
  cases hget : r.registry.get? op.topic with
  | none =>
      rw [hget, hnil] at hrewrite
      cases hrewrite
  | some segs =>
      rcases List.eq_nil_or_concat segs with hempty | ⟨front, last, hsegs⟩
      · exact full _ _ hget hempty
      · have hlast : segs.getLast? = some last := by simp [hsegs]
        obtain ⟨last', hlast', -⟩ := hrewrite.end_advances (keeps.rewrite rfl m) hget hlast
        rw [hnil] at hlast'
        cases hlast'

theorem NoneEmptied.createsAbove (full : NoneEmptied r) : CreatesAbove r := by
  intro topic base habove
  simp only [createSegment]
  cases hget : r.registry.get? topic with
  | none => exact ⟨_, rfl⟩
  | some segs =>
      rcases List.eq_nil_or_concat segs with rfl | ⟨front, previous, rfl⟩
      · exact absurd rfl (full _ _ hget)
      · have hlast : (front.concat previous).getLast? = some previous := by simp
        have hlt := habove _ (getLatestOffset_eq_ok_iff.mpr ⟨_, previous, hget, hlast, rfl⟩)
        have hbase := previous.baseOffset_le_end
        simp only [hlast]
        rw [if_neg (by omega)]
        exact ⟨_, rfl⟩

/-- Removing the last segment of a topic shows what the list ends with then. -/
theorem keepsEnd_of_advances (increasing : Increasing r)
    (advances : EndsAdvance r (r.apply op).1) : KeepsEnd r op := by
  intro m removes expired front hget
  have hnext : m.state.next? = some .deleted := by rw [expired]; rfl
  obtain ⟨m', hcall⟩ := progressState_of_split hget (increasing _ _ hget) hnext
  have hlatest : r.getLatestOffset m.topic = .ok m.getEndOffset :=
    getLatestOffset_eq_ok_iff.mpr ⟨_, m, hget, List.getLast?_concat, rfl⟩
  obtain ⟨v', hv', hle⟩ := advances _ _ hlatest
  obtain ⟨segs', last', hget', hlast', rfl⟩ := getLatestOffset_eq_ok_iff.mp hv'
  simp only [apply, call_of_removes removes, hcall, setTopic_get?, if_true, successor,
    List.append_nil, Option.some.injEq] at hget'
  exact ⟨last', hget' ▸ hlast', hle⟩

end

/-- Two segments, of which the last one is removed and then the other. -/
def removeLast : List RegistryOp :=
  let first := { (new "logs" 0).newSegment "t" 0 with size := 10 }
  let second := { (new "logs" 0).newSegment "t" 10 with size := 5 }
  [.createSegment "t" 0, .advanceOffset { first with size := 0 } 10, .createSegment "t" 10,
    .advanceOffset { second with size := 0 } 5,
    .progressState first .sealed, .progressState { first with state := .sealed } .expired,
    .progressState second .sealed, .progressState { second with state := .sealed } .expired,
    .removeSegment { second with state := .expired },
    .removeSegment { first with state := .expired }]

/-- Calls that remove no segment lead from one registry to the other. -/
def GrowsTo (r r' : SegmentRegistry) : Prop :=
  ∃ ops : List RegistryOp, (∀ op ∈ ops, op.removes = none) ∧ r' = run apply r ops

section
variable {r r' r'' : SegmentRegistry} {m : SegmentMeta}

theorem GrowsTo.refl (r : SegmentRegistry) : GrowsTo r r := ⟨[], by simp, rfl⟩

theorem GrowsTo.trans (h : GrowsTo r r') (h' : GrowsTo r' r'') : GrowsTo r r'' := by
  obtain ⟨ops, hops, rfl⟩ := h
  obtain ⟨ops', hops', rfl⟩ := h'
  refine ⟨ops ++ ops', fun op hop => ?_, (run_append r ops ops').symm⟩
  rcases List.mem_append.mp hop with h | h
  · exact hops op h
  · exact hops' op h

theorem GrowsTo.of_call (op : RegistryOp) (hop : op.removes = none) (h : r.call op = .ok (m, r')) :
    GrowsTo r r' := by
  refine ⟨[op], fun op' hop' => ?_, ?_⟩
  · rw [List.mem_singleton.mp hop', hop]
  · simp only [run, apply, h]

end
end SegmentRegistry

namespace LogManager
open SegmentRegistry
variable {lm : LogManager} {topic : String}

theorem writeSegment_growsTo {r r' : SegmentRegistry} {m : SegmentMeta}
    (h : writeSegment r topic = .ok (m, r')) : GrowsTo r r' := by
  unfold writeSegment at h
  split at h
  · cases h
    exact .refl r
  · exact .of_call (.createSegment topic 0) rfl h
  · cases h

theorem rollover_growsTo {r r' : SegmentRegistry} {m : SegmentMeta}
    (h : rollover r topic = .ok (m, r')) : GrowsTo r r' := by
  unfold rollover at h
  split at h
  · exact .of_call (.createSegment topic 0) rfl h
  · cases h
  · next last _ =>
      split at h
      · cases h
      · next sealed r₁ hseal =>
          have first : GrowsTo r r₁ := .of_call (.progressState last .sealed) rfl hseal
          exact first.trans (.of_call (.createSegment topic last.getEndOffset) rfl h)

theorem writeMessage_growsTo (lm : LogManager) (env : CallEnv) (m : SegmentMeta) (msg : Bytes) :
    GrowsTo lm.registry (lm.writeMessage env m msg).1.registry := by
  unfold writeMessage
  split
  · exact .refl _
  · split
    · exact .refl _
    · dsimp only
      split
      · exact .refl _
      · next hadvance => exact .of_call (.advanceOffset m msg.length) rfl hadvance

/-- The log manager uses the registry through its calls and removes no segment. -/
theorem apply_growsTo (lm : LogManager) (op : LogOp) :
    GrowsTo lm.registry (lm.apply op).1.registry := by
  cases op with
  | createTopic topic =>
      simp only [apply, createTopic]
      split
      · exact .refl _
      · split
        · exact .refl _
        · next hcreate => exact .of_call (.createSegment topic 0) rfl hcreate
      · exact .refl _
  | append topic env data =>
      simp only [apply, append]
      split
      · exact .refl _
      · next m r hsegment =>
          have first : GrowsTo lm.registry r := writeSegment_growsTo hsegment
          split
          · exact first
          · split
            · split
              · exact first
              · next m' r' hrollover =>
                  exact (first.trans (rollover_growsTo hrollover)).trans (writeMessage_growsTo _ env m' _)
            · exact first.trans (writeMessage_growsTo _ env m _)
  | readBytes topic env offset size =>
      have hsame : (lm.apply (.readBytes topic env offset size)).1.registry = lm.registry := by
        simp only [apply, readBytes]
        repeat' split
        all_goals rfl
      rw [hsame]
      exact .refl _
  | read topic env offset size =>
      have hsame : (lm.apply (.read topic env offset size)).1.registry = lm.registry := by
        simp only [apply, read]
        repeat' split
        all_goals rfl
      rw [hsame]
      exact .refl _
  | release handle => exact .refl _
  | cleanup => exact .refl _

/-- What holds of the registry in every state reached holds under every log manager. -/
theorem run_growsTo (config : LogConfig) (importTime : Time) (ops : List LogOp) :
    GrowsTo (SegmentRegistry.new config.logDir importTime)
      (run apply (start config importTime) ops).registry :=
  run_keeps (fun lm : LogManager => GrowsTo (SegmentRegistry.new config.logDir importTime) lm.registry)
    (fun lm op _ grows => grows.trans (lm.apply_growsTo op)) (.refl _)

end LogManager
end PyLogStream
